import Mathlib.Tactic.Common

/-!
# Runs of a step

A system steps from state to state by moves from outside. A predicate of a move
and the state it finds holds along a run when it holds of every move there; an
invariant carries one such predicate to another, and reaches the run's end.
-/

namespace Runs

variable {σ μ : Type} {step : σ → μ → σ} {I : σ → Prop} {P Q : σ → μ → Prop}

variable (step P) in
def Along : σ → List μ → Prop
  | _, [] => True
  | s, m :: moves => P s m ∧ Along (step s m) moves

instance decidableAlong [∀ s m, Decidable (P s m)] : ∀ s moves, Decidable (Along step P s moves)
  | _, [] => instDecidableTrue
  | s, m :: moves => @instDecidableAnd (P s m) (Along step P (step s m) moves) _ (decidableAlong (step s m) moves)

variable {s : σ}

theorem inv_run (hstep : ∀ s m, I s → I (step s m)) (h : I s) (moves : List μ) : I (moves.foldl step s) := by
  induction moves generalizing s with
  | nil => exact h
  | cons m moves ih => exact ih (hstep s m h)

variable {moves : List μ}

theorem inv_along (hstep : ∀ s m, I s → P s m → I (step s m)) (h : I s) (hp : Along step P s moves) :
    I (moves.foldl step s) := by
  induction moves generalizing s with
  | nil => exact h
  | cons m moves ih => exact ih (hstep s m h hp.1) hp.2

theorem along_iff (hstep : ∀ s m, I s → I (step s m)) (hiff : ∀ s m, I s → (P s m ↔ Q s m)) (h : I s) (moves : List μ) :
    Along step P s moves ↔ Along step Q s moves := by
  induction moves generalizing s with
  | nil => exact Iff.rfl
  | cons m moves ih => exact and_congr (hiff s m h) (ih (hstep s m h))

theorem along_of_inv (hstep : ∀ s m, I s → P s m → I (step s m)) (hp : ∀ s m, I s → P s m → Q s m) (h : I s)
    (hm : Along step P s moves) : Along step Q s moves := by
  induction moves generalizing s with
  | nil => trivial
  | cons m moves ih => exact ⟨hp s m h hm.1, ih (hstep s m h hm.1) hm.2⟩

theorem along_always (hstep : ∀ s m, I s → I (step s m)) (hq : ∀ s m, I s → Q s m) (h : I s) (moves : List μ) : Along step Q s moves := by
  induction moves generalizing s with
  | nil => trivial
  | cons m moves ih => exact ⟨hq s m h, ih (hstep s m h)⟩

theorem along_and (hp : Along step P s moves) (hq : Along step Q s moves) : Along step (fun s m => P s m ∧ Q s m) s moves := by
  induction moves generalizing s with
  | nil => trivial
  | cons m moves ih => exact ⟨⟨hp.1, hq.1⟩, ih hp.2 hq.2⟩

theorem along_append {first rest : List μ} :
    Along step P s (first ++ rest) ↔ Along step P s first ∧ Along step P (first.foldl step s) rest := by
  induction first generalizing s with
  | nil => exact (iff_of_eq (true_and _)).symm
  | cons m first ih => exact (and_congr_right fun _ => ih).trans and_assoc.symm

theorem always_iff (hstep : ∀ s m, I s → P s m → (I (step s m) ↔ Q s m)) (hp : Along step P s moves) :
    (∀ first, first <+: moves → I (first.foldl step s)) ↔ I s ∧ Along step Q s moves := by
  induction moves generalizing s with
  | nil =>
    refine ⟨fun h => ⟨h [] (List.prefix_refl []), trivial⟩, fun h first hfirst => ?_⟩
    rw [List.prefix_nil.mp hfirst]
    exact h.1
  | cons m moves ih =>
    constructor
    · intro h
      have hs : I s := h [] (List.nil_prefix)
      have hrest := (ih hp.2).mp fun first hfirst => h (m :: first) (List.cons_prefix_cons.mpr ⟨rfl, hfirst⟩)
      exact ⟨hs, (hstep s m hs hp.1).mp hrest.1, hrest.2⟩
    · rintro ⟨hs, hq, hrest⟩ first hfirst
      cases first with
      | nil => exact hs
      | cons m' first =>
        obtain ⟨rfl, hbelow⟩ := List.cons_prefix_cons.mp hfirst
        exact (ih hp.2).mpr ⟨(hstep s m' hs hp.1).mpr hq, hrest⟩ first hbelow

end Runs
