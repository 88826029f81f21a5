import Mathlib.Tactic.Common

/-!
# Writes queued before a store

A queue of writes stands before a store, and is applied to it as one batch. A
batch that faults may have applied any of its first writes; the queue stays and
is applied again. What a reader is owed is the store with the queue applied.
Where a batch applied twice writes once, no fault changes that.
-/

namespace WriteBehind

variable {σ ω : Type}

def Idem (apply : σ → ω → σ) : Prop := ∀ (s : σ) (ws : List ω), ws.foldl apply (ws.foldl apply s) = ws.foldl apply s

variable {apply : σ → ω → σ}

theorem Idem.replay (h : Idem apply) (s : σ) (k : Nat) (ws : List ω) : ws.foldl apply ((ws.take k).foldl apply s) = ws.foldl apply s := by
  calc ws.foldl apply ((ws.take k).foldl apply s)
      = (ws.take k ++ ws.drop k).foldl apply ((ws.take k).foldl apply s) := by rw [List.take_append_drop]
    _ = (ws.drop k).foldl apply ((ws.take k).foldl apply s) := by rw [List.foldl_append, h]
    _ = ws.foldl apply s := by rw [← List.foldl_append, List.take_append_drop]

theorem idem_of_marks (Has : σ → ω → Prop) (hdone : ∀ s w, Has s w → apply s w = s) (hmade : ∀ s w, Has (apply s w) w)
    (hkept : ∀ s w w', Has s w → Has (apply s w') w) : Idem apply := by
  have hrun : ∀ (ws : List ω) s w, Has s w → Has (ws.foldl apply s) w := by
    intro ws
    induction ws with
    | nil => exact fun _ _ h => h
    | cons w' ws ih => exact fun s w h => ih _ w (hkept s w w' h)
  intro s ws
  induction ws generalizing s with
  | nil => rfl
  | cons w ws ih =>
    have hback : apply (ws.foldl apply (apply s w)) w = ws.foldl apply (apply s w) := hdone _ w (hrun ws _ w (hmade s w))
    rw [List.foldl_cons, List.foldl_cons, hback]
    exact ih (apply s w)

theorem idem_of_parts {α β : Type} (left : σ → α) (right : σ → β) {first : α → ω → α} {second : β → ω → β}
    (hparts : ∀ s s', left s = left s' → right s = right s' → s = s') (hleft : ∀ s w, left (apply s w) = first (left s) w)
    (hright : ∀ s w, right (apply s w) = second (right s) w) (hfirst : Idem first) (hsecond : Idem second) : Idem apply := by
  have hl : ∀ (ws : List ω) s, left (ws.foldl apply s) = ws.foldl first (left s) := fun ws s =>
    (List.foldl_hom left fun s w => (hleft s w).symm).symm
  have hr : ∀ (ws : List ω) s, right (ws.foldl apply s) = ws.foldl second (right s) := fun ws s =>
    (List.foldl_hom right fun s w => (hright s w).symm).symm
  intro s ws
  apply hparts
  · rw [hl, hl, hfirst]
  · rw [hr, hr, hsecond]

theorem idem_filterMap {ω' : Type} (f : ω' → Option ω) (h : Idem apply) : Idem fun s w => ((f w).map (apply s)).getD s := by
  have hfold : ∀ (ws : List ω') s, ws.foldl (fun s w => ((f w).map (apply s)).getD s) s = (ws.filterMap f).foldl apply s := by
    intro ws
    induction ws with
    | nil => exact fun _ => rfl
    | cons w ws ih =>
      intro s
      rw [List.foldl_cons, ih]
      cases hw : f w with
      | none => rw [List.filterMap_cons_none hw]; rfl
      | some x => rw [List.filterMap_cons_some hw]; rfl
  intro s ws
  rw [hfold, hfold, h]

end WriteBehind
