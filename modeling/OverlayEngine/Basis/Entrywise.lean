import Mathlib.Data.List.Forall2

/-!
# Lists entry by entry

A list read through an `Option`, related to another place by place, or with one
entry replaced.
-/

namespace OverlayEngine.Entrywise

variable {α β γ : Type} {f : α → Option β} {R : α → β → Prop} {l : List α} {k : List β}

theorem mapM_some_iff : l.mapM f = some k ↔ List.Forall₂ (fun a b => f a = some b) l k := by
  induction l generalizing k with
  | nil => simp [eq_comm]
  | cons a rest ih =>
    rw [List.mapM_cons, List.forall₂_cons_left_iff]
    constructor
    · intro h
      obtain ⟨b, hb, h⟩ := Option.bind_eq_some_iff.mp h
      obtain ⟨tail, htail, h⟩ := Option.bind_eq_some_iff.mp h
      exact ⟨b, tail, hb, ih.mp htail, (Option.some.inj h).symm⟩
    · intro ⟨b, tail, hb, htail, hk⟩
      rw [hb, ih.mpr htail, hk]
      rfl

theorem exists_forall₂ (h : ∀ a ∈ l, ∃ b, R a b) : ∃ k, List.Forall₂ R l k := by
  induction l with
  | nil => exact ⟨[], .nil⟩
  | cons a rest ih =>
    obtain ⟨b, hb⟩ := h a List.mem_cons_self
    obtain ⟨k, hk⟩ := ih fun x hx => h x (List.mem_cons_of_mem a hx)
    exact ⟨b :: k, .cons hb hk⟩

theorem forall₂_mem_left (h : List.Forall₂ R l k) {a : α} (ha : a ∈ l) : ∃ b ∈ k, R a b := by
  induction h with
  | nil => exact (List.not_mem_nil ha).elim
  | cons hr _ ih =>
    rcases List.mem_cons.mp ha with rfl | ha
    · exact ⟨_, List.mem_cons_self, hr⟩
    · obtain ⟨b, hb, hr⟩ := ih ha
      exact ⟨b, List.mem_cons_of_mem _ hb, hr⟩

theorem forall₂_comp {S : β → γ → Prop} {m : List γ} (h : List.Forall₂ R l k) (h' : List.Forall₂ S k m) :
    List.Forall₂ (fun a c => ∃ b, R a b ∧ S b c) l m := by
  induction h generalizing m with
  | nil =>
    cases h'
    exact .nil
  | cons hr _ ih =>
    cases h' with
    | cons hs hrest => exact .cons ⟨_, hr, hs⟩ (ih hrest)

theorem forall₂_modify {R : α → α → Prop} {f : α → α} {n : Nat} (hrefl : ∀ a, R a a) (h : ∀ a, l[n]? = some a → R a (f a)) :
    List.Forall₂ R l (l.modify n f) := by
  induction l generalizing n with
  | nil =>
    rw [List.modify_nil]
    exact .nil
  | cons a rest ih =>
    cases n with
    | zero => exact .cons (h a rfl) (List.forall₂_same.mpr fun x _ => hrefl x)
    | succ n => exact .cons (hrefl a) (ih fun x hx => h x hx)

theorem forall_set {P : α → Prop} {i : Nat} {y : α} (h : ∀ x ∈ l, P x) (hy : P y) : ∀ x ∈ l.set i y, P x := by
  intro x hx
  rcases List.mem_or_eq_of_mem_set hx with hx | rfl
  · exact h x hx
  · exact hy

theorem flatMap_set {f : α → List β} {i : Nat} {x y : α} {w : List β} (hi : l[i]? = some x) (hf : f y = f x ++ w) :
    ((l.set i y).flatMap f).Perm (l.flatMap f ++ w) := by
  induction l generalizing i with
  | nil => cases hi
  | cons z l ih =>
    cases i with
    | zero =>
      cases hi
      simp only [List.set_cons_zero, List.flatMap_cons, hf, List.append_assoc]
      exact List.Perm.append_left _ List.perm_append_comm
    | succ i =>
      simp only [List.set_cons_succ, List.flatMap_cons, List.append_assoc]
      exact List.Perm.append_left _ (ih hi)

end OverlayEngine.Entrywise
