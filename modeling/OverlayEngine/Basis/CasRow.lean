import Mathlib.Logic.Function.Basic
import Mathlib.Tactic.Common

/-!
# A row written by compare-and-set

One document with a version. A writer names the version it read: the write lands
while the row still has that version, and moves it. A writer that lost the race
never lands a later write under the version it holds.
-/

abbrev CasRow (δ : Type) := Option (δ × Nat)

namespace CasRow

variable {δ : Type}

def version (r : CasRow δ) : Option Nat := Option.map Prod.snd r

def doc (r : CasRow δ) : Option δ := Option.map Prod.fst r

def write (r : CasRow δ) (expected : Option Nat) (d : δ) : Option (CasRow δ) :=
  match r with
  | none => some (some (d, 1))
  | some (_, n) => if expected = some n then some (some (d, n + 1)) else none

inductive Fate where
  | ran
  | lost
  | landed
  deriving DecidableEq

inductive Answer where
  | written (version : Option Nat)
  | contended
  | faulted

def issue (r : CasRow δ) (expected : Option Nat) (d : δ) : Fate → CasRow δ × Answer
  | .ran => match r.write expected d with
    | some r' => (r', .written r'.version)
    | none => (r, .contended)
  | .lost => (r, .faulted)
  | .landed => ((r.write expected d).getD r, .faulted)

def rank : Option Nat → Nat
  | none => 0
  | some n => n + 1

/-- A holder read `base` under version `v`: the row has moved on since, or it still is `base`. -/
structure Knows (r : CasRow δ) (v : Option Nat) (base : Option δ) : Prop where
  le : rank v ≤ rank r.version
  same : r.version = v → r.doc = base

theorem knows_read (r : CasRow δ) : r.Knows r.version r.doc := ⟨Nat.le_refl _, fun _ => rfl⟩

theorem version_of_doc_none {r : CasRow δ} (h : r.doc = none) : r.version = none := by
  cases r with
  | none => rfl
  | some p => cases h

theorem rank_injective : Function.Injective rank := by
  intro a b h
  cases a <;> cases b <;> simp_all [rank]

theorem write_version {r r' : CasRow δ} {v : Option Nat} {d : δ} (h : r.write v d = some r') :
    r'.doc = some d ∧ rank r.version < rank r'.version := by
  cases r with
  | none =>
    cases h
    exact ⟨rfl, by simp [version, rank]⟩
  | some p =>
    obtain ⟨d₀, n⟩ := p
    simp only [write] at h
    split at h
    · cases h
      exact ⟨rfl, by simp [version, rank]⟩
    · cases h

theorem Knows.write {r r' : CasRow δ} {v e : Option Nat} {base : Option δ} {d : δ} (h : r.Knows v base) (hw : r.write e d = some r') :
    r'.Knows v base := by
  have hlt := (write_version hw).2
  have hle := h.le
  refine ⟨by omega, fun heq => ?_⟩
  rw [heq] at hlt
  omega

theorem Knows.base {r r' : CasRow δ} {v : Option Nat} {base : Option δ} {d : δ} (h : r.Knows v base) (hw : r.write v d = some r') :
    r.doc = base := by
  apply h.same
  cases r with
  | none =>
    have hle := h.le
    apply rank_injective
    simp only [version, Option.map_none, rank] at hle ⊢
    omega
  | some p =>
    obtain ⟨d₀, n⟩ := p
    simp only [CasRow.write] at hw
    split at hw
    · rename_i hv
      exact hv.symm
    · cases hw

theorem issue_cases (r : CasRow δ) (v : Option Nat) (d : δ) (fate : Fate) :
    ((fate = .lost ∨ r.write v d = none) ∧ (r.issue v d fate = (r, .contended) ∨ r.issue v d fate = (r, .faulted))) ∨
      ∃ r', r.write v d = some r' ∧
        (fate = .ran ∧ r.issue v d fate = (r', .written r'.version) ∨ fate = .landed ∧ r.issue v d fate = (r', .faulted)) := by
  cases fate with
  | ran =>
    cases hw : r.write v d with
    | none => exact .inl ⟨.inr rfl, .inl (by simp [issue, hw])⟩
    | some r' => exact .inr ⟨r', rfl, .inl ⟨rfl, by simp [issue, hw]⟩⟩
  | lost => exact .inl ⟨.inl rfl, .inr rfl⟩
  | landed =>
    cases hw : r.write v d with
    | none => exact .inl ⟨.inr rfl, .inr (by simp [issue, hw])⟩
    | some r' => exact .inr ⟨r', rfl, .inr ⟨rfl, by simp [issue, hw]⟩⟩

end CasRow
