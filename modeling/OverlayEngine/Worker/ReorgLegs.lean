import Mathlib.Algebra.GroupWithZero.Nat
import Mathlib.Data.List.Basic
import Mathlib.Tactic.Common

/-!
# The judgement of a window of heights

Three legs walk the rows anchored in a window, one bounded page per leg and
pass: the confirmed spenders, the pots' own proofs, the hop proofs. A faulted
leg keeps its cursor, and the legs after it are not run.
-/

namespace OverlayEngine.ReorgLegs

inductive Leg where
  | spenders
  | potBeefs
  | transactions
  deriving DecidableEq

structure RowKey where
  height : Nat
  rowid : Int
  deriving DecidableEq

structure LegProgress where
  after : Option RowKey := none
  exhausted : Bool := false
  deriving DecidableEq

structure LegAnswer where
  nextCursor : Option RowKey := none
  exhausted : Bool := false
  faults : Nat := 0
  errors : Nat := 0
  budgetExhausted : Bool := false

def LegAnswer.clean (a : LegAnswer) : Bool := a.faults == 0 && a.errors == 0

def LegAnswer.progress (a : LegAnswer) : LegProgress := { after := a.nextCursor, exhausted := a.exhausted }

structure Legs where
  spenders : LegProgress := {}
  potBeefs : LegProgress := {}
  transactions : LegProgress := {}
  deriving DecidableEq

namespace Legs

def allExhausted (l : Legs) : Bool := l.spenders.exhausted && l.potBeefs.exhausted && l.transactions.exhausted

def of (l : Legs) : Leg → LegProgress
  | .spenders => l.spenders
  | .potBeefs => l.potBeefs
  | .transactions => l.transactions

def set (l : Legs) (p : LegProgress) : Leg → Legs
  | .spenders => { l with spenders := p }
  | .potBeefs => { l with potBeefs := p }
  | .transactions => { l with transactions := p }

@[simp] theorem of_set_self (l : Legs) (p : LegProgress) (g : Leg) : (l.set p g).of g = p := by
  cases g <;> rfl

theorem of_set_of_ne (l : Legs) (p : LegProgress) {g g' : Leg} (h : g' ≠ g) : (l.set p g).of g' = l.of g' := by
  cases g <;> cases g' <;> first | rfl | exact (h rfl).elim

theorem allExhausted_iff (l : Legs) : l.allExhausted = true ↔ ∀ g, (l.of g).exhausted = true := by
  constructor
  · intro h g
    simp only [allExhausted, Bool.and_eq_true] at h
    cases g
    · exact h.1.1
    · exact h.1.2
    · exact h.2
  · intro h
    simp only [allExhausted, Bool.and_eq_true]
    exact ⟨⟨h .spenders, h .potBeefs⟩, h .transactions⟩

end Legs

structure LegAnswers where
  spenders : LegAnswer := {}
  potBeefs : LegAnswer := {}
  transactions : LegAnswer := {}
  txStore : Bool := true

inductive WindowLegs where
  | faulted
  | budgetStop
  | ran

structure Page where
  leg : Leg
  after : Option RowKey
  answer : LegAnswer

def runLeg (legs : Legs) (g : Leg) (a : LegAnswer) (rest : Legs → Legs × WindowLegs × List Page) : Legs × WindowLegs × List Page :=
  if (legs.of g).exhausted then rest legs
  else
    let page : Page := { leg := g, after := (legs.of g).after, answer := a }
    if a.clean then
      let legs' := legs.set a.progress g
      if a.budgetExhausted && g == .spenders then (legs', .budgetStop, [page])
      else
        let (l, w, pages) := rest legs'
        (l, w, page :: pages)
    else (legs, .faulted, [page])

def judgeWindowLegs (legs : Legs) (a : LegAnswers) : Legs × WindowLegs × List Page :=
  runLeg legs .spenders a.spenders fun legs =>
    runLeg legs .potBeefs a.potBeefs fun legs =>
      if !a.txStore && !legs.transactions.exhausted then (legs, .faulted, [])
      else runLeg legs .transactions a.transactions fun legs => (legs, .ran, [])

section
variable {ω : Type}

/-- The leg got to `p` over window `w` through pages that met no fault, each asked where the one before it stopped. -/
inductive Walked (log : List (ω × Page)) (w : ω) (g : Leg) : LegProgress → Prop where
  | start : Walked log w g {}
  | page {p : LegProgress} {a : LegAnswer} : Walked log w g p → (w, { leg := g, after := p.after, answer := a }) ∈ log →
      a.clean = true → Walked log w g a.progress

def Judged (log : List (ω × Page)) (w : ω) : Prop := ∀ g, ∃ p, Walked log w g p ∧ p.exhausted = true

variable {log log' : List (ω × Page)} {w : ω}

theorem Walked.mono {g : Leg} {p : LegProgress} (h : Walked log w g p) (hsub : log ⊆ log') :
    Walked log' w g p := by
  induction h with
  | start => exact .start
  | page _ hmem hclean ih => exact .page ih (hsub hmem) hclean

theorem Judged.mono (h : Judged log w) (hsub : log ⊆ log') : Judged log' w := by
  intro g
  obtain ⟨p, hp, hex⟩ := h g
  exact ⟨p, hp.mono hsub, hex⟩

theorem runLeg_walked {legs : Legs} {g : Leg} {a : LegAnswer}
    {rest : Legs → Legs × WindowLegs × List Page} (h : ∀ g, Walked log w g (legs.of g))
    (hrest : ∀ {log : List (ω × Page)} {legs : Legs}, (∀ g, Walked log w g (legs.of g)) →
      ∀ g, Walked (log ++ (rest legs).2.2.map (w, ·)) w g ((rest legs).1.of g)) :
    ∀ g', Walked (log ++ (runLeg legs g a rest).2.2.map (w, ·)) w g' ((runLeg legs g a rest).1.of g') := by
  unfold runLeg
  split
  · exact hrest h
  · dsimp only
    split
    · rename_i hclean
      have hset : ∀ g', Walked (log ++ [(w, { leg := g, after := (legs.of g).after, answer := a })]) w g' ((legs.set a.progress g).of g') := by
        intro g'
        by_cases hg : g' = g
        · subst hg
          rw [Legs.of_set_self]
          exact .page ((h g').mono (List.subset_append_left _ _)) (List.mem_append_right _ (List.mem_singleton.mpr rfl)) hclean
        · rw [Legs.of_set_of_ne _ _ hg]
          exact (h g').mono (List.subset_append_left _ _)
      split
      · exact hset
      · simpa using hrest hset
    · intro g'
      exact (h g').mono (List.subset_append_left _ _)

theorem judgeWindowLegs_walked {legs : Legs} (a : LegAnswers) (h : ∀ g, Walked log w g (legs.of g)) :
    ∀ g, Walked (log ++ (judgeWindowLegs legs a).2.2.map (w, ·)) w g ((judgeWindowLegs legs a).1.of g) := by
  refine runLeg_walked h fun h => runLeg_walked h fun h => ?_
  split
  · simpa using h
  · exact runLeg_walked h fun h => by simpa using h

end

end OverlayEngine.ReorgLegs
