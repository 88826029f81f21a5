import Mathlib.Data.List.DropRight
import Mathlib.Data.List.Infix
import Mathlib.Tactic.Common

/-!
# Cutting a list at the first occurrence of a pattern

A cut is where the pattern first occurs, so a list put together around the
pattern is cut there again when what stands before it is clear of the pattern.
-/

namespace TextCuts

variable {α : Type} [DecidableEq α] (pat : List α)

def splitOnce : List α → Option (List α × List α)
  | [] => if pat = [] then some ([], []) else none
  | c :: cs => if pat <+: c :: cs then some ([], (c :: cs).drop pat.length) else (splitOnce cs).map fun p => (c :: p.1, p.2)

/-- The pattern does not begin inside `a`, when it follows `a`. -/
def Clear (a : List α) : Prop := ∀ x, x <:+ a → x ≠ [] → ¬ pat <+: x ++ pat

variable {pat} {a : List α} {c : α}

omit [DecidableEq α] in
theorem Clear.tail (h : Clear pat (c :: a)) : Clear pat a := fun x hx => h x (hx.trans (List.suffix_cons c a))

omit [DecidableEq α] in
theorem clear_cons (h : ¬ pat <+: c :: a ++ pat) (ha : Clear pat a) : Clear pat (c :: a) := fun x hx hne => by
  rcases List.suffix_cons_iff.mp hx with rfl | hx
  · exact h
  · exact ha x hx hne

theorem splitOnce_eq_some {s a b : List α} : splitOnce pat s = some (a, b) ↔ s = a ++ pat ++ b ∧ Clear pat a := by
  have hnil : Clear pat [] := fun x hx hne => absurd (List.suffix_nil.mp hx) hne
  induction s generalizing a with
  | nil =>
    rw [splitOnce]
    constructor
    · intro h
      split at h
      case isTrue hpat =>
        cases h
        exact ⟨by rw [hpat]; rfl, hnil⟩
      case isFalse => cases h
    · rintro ⟨h, -⟩
      obtain ⟨hap, rfl⟩ := List.append_eq_nil_iff.mp h.symm
      obtain ⟨rfl, hpat⟩ := List.append_eq_nil_iff.mp hap
      rw [if_pos hpat]
  | cons c cs ih =>
    rw [splitOnce]
    by_cases hpre : pat <+: c :: cs
    · rw [if_pos hpre, Option.some_inj, Prod.mk.injEq]
      obtain ⟨rest, hrest⟩ := hpre
      constructor
      · rintro ⟨rfl, rfl⟩
        refine ⟨?_, hnil⟩
        rw [← hrest, List.drop_left, List.nil_append]
      · rintro ⟨hs, ha⟩
        cases a with
        | nil =>
          refine ⟨rfl, ?_⟩
          rw [hs, List.nil_append, List.drop_left]
        | cons d ds =>
          refine absurd ?_ (ha (d :: ds) List.suffix_rfl (by simp))
          have hwhole : d :: ds ++ pat <+: c :: cs := by
            rw [hs]
            exact List.prefix_append _ _
          refine List.prefix_of_prefix_length_le ⟨rest, hrest⟩ hwhole ?_
          rw [List.length_append]
          exact Nat.le_add_left _ _
    · rw [if_neg hpre, Option.map_eq_some_iff]
      constructor
      · rintro ⟨⟨a', b'⟩, hsplit, heq⟩
        obtain ⟨rfl, rfl⟩ := Prod.mk.inj heq
        obtain ⟨hs, ha⟩ := ih.mp hsplit
        refine ⟨by rw [hs]; rfl, clear_cons (fun h => hpre ?_) ha⟩
        rw [hs]
        exact h.trans (List.prefix_append _ _)
      · rintro ⟨hs, ha⟩
        cases a with
        | nil => exact absurd (hs ▸ ⟨b, rfl⟩) hpre
        | cons d ds =>
          rw [List.cons_append, List.cons_append, List.cons.injEq] at hs
          obtain ⟨rfl, hs⟩ := hs
          exact ⟨(ds, b), ih.mpr ⟨hs, ha.tail⟩, rfl⟩

section
omit [DecidableEq α]

theorem clear_singleton : Clear [c] a ↔ c ∉ a := by
  constructor
  · intro h hc
    obtain ⟨u, v, rfl⟩ := List.append_of_mem hc
    exact h (c :: v) (List.suffix_append _ _) (by simp) (by simp)
  · intro h x hx hne hpre
    cases x with
    | nil => exact hne rfl
    | cons d ds =>
      obtain ⟨rfl, -⟩ := List.cons_prefix_cons.mp hpre
      exact h (hx.subset List.mem_cons_self)

end

theorem splitOnce_singleton {s a b : List α} : splitOnce [c] s = some (a, b) ↔ s = a ++ c :: b ∧ c ∉ a := by
  rw [splitOnce_eq_some, clear_singleton, List.append_assoc, List.singleton_append]

theorem splitOnce_eq_none {s : List α} : splitOnce [c] s = none ↔ c ∉ s := by
  constructor
  · intro h hc
    obtain ⟨a, b, hs, ha⟩ := List.eq_append_cons_of_mem hc
    rw [splitOnce_singleton.mpr ⟨hs, ha⟩] at h
    cases h
  · intro h
    cases hsplit : splitOnce [c] s with
    | none => rfl
    | some p =>
      obtain ⟨rfl, -⟩ := splitOnce_singleton.mp hsplit
      simp at h

section
omit [DecidableEq α]

theorem prefix_of_map {f : α → α} (hback : ∀ p ∈ pat, ∀ c, f c = p → c = p) {l : List α} (h : pat <+: l.map f) : pat <+: l := by
  induction pat generalizing l with
  | nil => exact List.nil_prefix
  | cons p ps ih =>
    cases l with
    | nil => exact h
    | cons c cs =>
      obtain ⟨hc, hps⟩ := List.cons_prefix_cons.mp h
      have heq : p = c := (hback p List.mem_cons_self c hc.symm).symm
      exact List.cons_prefix_cons.mpr ⟨heq, ih (fun q hq => hback q (List.mem_cons_of_mem _ hq)) hps⟩

theorem Clear.map {f : α → α} (hf : ∀ p ∈ pat, f p = p) (hback : ∀ p ∈ pat, ∀ c, f c = p → c = p) (h : Clear pat a) :
    Clear pat (a.map f) := by
  intro x hx hne hpre
  obtain ⟨y, hy, rfl⟩ : ∃ y, y <:+ a ∧ y.map f = x := by
    obtain ⟨t, ht⟩ := hx
    obtain ⟨u, y, rfl, -, hy⟩ := List.map_eq_append_iff.mp ht.symm
    exact ⟨y, List.suffix_append _ _, hy⟩
  have hpat : pat.map f = pat := (List.map_congr_left hf).trans (List.map_id _)
  rw [← hpat, ← List.map_append, hpat] at hpre
  exact h y hy (fun hnil => hne (by rw [hnil]; rfl)) (prefix_of_map hback hpre)

end

end TextCuts
