import Mathlib.Algebra.GroupWithZero.Nat
import Mathlib.Data.List.Sort
import Mathlib.Data.List.Nodup

/-!
# Rows under a key

A table as a list of rows in the order they were inserted, each under its key.
A statement changes the rows a predicate on keys picks, removes them, or
appends a row; each lemma says what the row of a key is afterwards.
-/

namespace KeyedRows

variable {κ ρ : Type}

def row [DecidableEq κ] (key : ρ → κ) (t : List ρ) (k : κ) : Option ρ := t.find? fun r => key r = k

def modify (key : ρ → κ) (sel : κ → Bool) (f : ρ → ρ) (t : List ρ) : List ρ := t.map fun r => if sel (key r) then f r else r

def remove (key : ρ → κ) (sel : κ → Bool) (t : List ρ) : List ρ := t.filter fun r => !sel (key r)

/-- The value under `k`, in a table of keys and values. -/
def cell {α : Type} [DecidableEq κ] (t : List (κ × α)) (k : κ) : Option α := (row Prod.fst t k).map Prod.snd

/-- The value under `k`, or `d` put there, changed by `f`. -/
def entry {α : Type} [DecidableEq κ] (t : List (κ × α)) (k : κ) (d : α) (f : α → α) : List (κ × α) :=
  match row Prod.fst t k with
  | some _ => modify Prod.fst (· = k) (fun r => (r.1, f r.2)) t
  | none => t ++ [(k, f d)]

/-- The keys of the first `limit` rows that `p` picks, in the order of `le`. -/
def oldest (key : ρ → κ) (p : ρ → Bool) (le : ρ → ρ → Bool) (limit : Nat) (t : List ρ) : List κ :=
  (((t.filter p).insertionSort fun a b => le a b).take limit).map key

section
variable [DecidableEq κ] {key : ρ → κ} {t : List ρ} {k : κ} {r : ρ} {sel : κ → Bool} {f : ρ → ρ}

theorem row_key (h : row key t k = some r) : key r = k := by
  simpa using List.find?_some h

theorem row_mem (h : row key t k = some r) : r ∈ t := List.mem_of_find?_eq_some h

theorem row_eq_none : row key t k = none ↔ ∀ r ∈ t, key r ≠ k := by
  simp [row]

@[simp] theorem row_nil : row key ([] : List ρ) k = none := rfl

theorem row_append (t : List ρ) (r : ρ) (k : κ) :
    row key (t ++ [r]) k = (row key t k).or (if key r = k then some r else none) := by
  by_cases h : key r = k <;> simp [row, List.find?_append, h]

theorem row_modify (hf : ∀ r, key (f r) = key r) (t : List ρ) (k : κ) :
    row key (modify key sel f t) k = (row key t k).map fun r => if sel k then f r else r := by
  induction t with
  | nil => rfl
  | cons a t ih =>
    have hk : key (if sel (key a) then f a else a) = key a := by split <;> simp [hf]
    by_cases h : key a = k
    · simp only [row, modify, List.map_cons] at ih ⊢
      rw [List.find?_cons_of_pos (by simpa [hk] using h), List.find?_cons_of_pos (by simpa using h)]
      subst h
      rfl
    · simp only [row, modify, List.map_cons] at ih ⊢
      rw [List.find?_cons_of_neg (by simpa [hk] using h), List.find?_cons_of_neg (by simpa using h)]
      exact ih

theorem row_remove (t : List ρ) (k : κ) : row key (remove key sel t) k = if sel k then none else row key t k := by
  induction t with
  | nil => simp [row, remove]
  | cons a t ih =>
    simp only [row, remove] at ih ⊢
    by_cases h : key a = k
    · subst h
      cases hs : sel (key a)
      · simp [hs]
      · simpa [hs] using ih
    · cases hs : sel (key a)
      · simpa [hs, h] using ih
      · simpa [hs, h] using ih

theorem row_filter {p : ρ → Bool} (h : row key t k = some r) (hp : p r = true) : row key (t.filter p) k = some r := by
  induction t with
  | nil => cases h
  | cons a t ih =>
    by_cases ha : key a = k
    · have hfirst : row key (a :: t) k = some a := List.find?_cons_of_pos (by simpa using ha)
      rw [hfirst] at h
      cases h
      rw [List.filter_cons_of_pos hp]
      exact List.find?_cons_of_pos (by simpa using ha)
    · have hrest : row key (a :: t) k = row key t k := List.find?_cons_of_neg (by simpa using ha)
      have htail := ih (hrest.symm.trans h)
      by_cases hpa : p a = true
      · rw [List.filter_cons_of_pos hpa]
        exact (List.find?_cons_of_neg (by simpa using ha)).trans htail
      · rw [List.filter_cons_of_neg hpa]
        exact htail

theorem cell_entry {α : Type} (t : List (κ × α)) (k : κ) (d : α) (f : α → α) (k' : κ) :
    cell (entry t k d f) k' = if k' = k then some (f ((cell t k).getD d)) else cell t k' := by
  unfold entry
  cases hr : row Prod.fst t k with
  | some r =>
    have hk := row_key hr
    dsimp only [cell]
    rw [row_modify (f := fun r : κ × α => (r.1, f r.2)) (fun _ => rfl)]
    by_cases h : k' = k
    · subst h
      simp [hr]
    · simp [h]
  | none =>
    dsimp only [cell]
    rw [row_append]
    by_cases h : k' = k
    · subst h
      simp [hr]
    · simp [h, Ne.symm h]

theorem foldl_view {α β γ : Type} (step : α → κ × β → α) (view : α → γ) (g : γ → β → γ) (k : κ)
    (hstep : ∀ a r, view (step a r) = if r.1 = k then g (view a) r.2 else view a) :
    ∀ (t : List (κ × β)) (a : α), (t.map Prod.fst).Nodup →
      view (t.foldl step a) = (cell t k).elim (view a) (g (view a)) := by
  intro t
  induction t with
  | nil => exact fun a _ => rfl
  | cons r t ih =>
    intro a h
    rw [List.map_cons, List.nodup_cons] at h
    rw [List.foldl_cons, ih (step a r) h.2, hstep]
    by_cases hr : r.1 = k
    · have hnone : row Prod.fst t k = none := by
        rw [row_eq_none]
        intro r' hr' hk
        exact h.1 (List.mem_map.mpr ⟨r', hr', hk.trans hr.symm⟩)
      have hsome : row Prod.fst (r :: t) k = some r := List.find?_cons_of_pos (by simpa using hr)
      rw [cell, cell, hnone, hsome]
      simp [hr]
    · have hrest : row Prod.fst (r :: t) k = row Prod.fst t k := List.find?_cons_of_neg (by simpa using hr)
      rw [cell, cell, hrest, if_neg hr]

/-! ## One row a key -/

theorem row_of_mem (h : (t.map key).Nodup) (hr : r ∈ t) : row key t (key r) = some r := by
  cases hf : row key t (key r) with
  | none => exact absurd rfl (row_eq_none.mp hf r hr)
  | some r' =>
    have he := List.inj_on_of_nodup_map h (row_mem hf) hr (row_key hf)
    rw [he]

theorem modify_of_row_none (hr : row key t k = none) : modify key (· = k) f t = t := by
  conv => rhs; rw [← List.map_id t]
  apply List.map_congr_left
  intro r hm
  exact if_neg (by simpa using row_eq_none.mp hr r hm)

theorem countP_modify_row (p : ρ → Bool) (h : (t.map key).Nodup) (hr : row key t k = some r) :
    (modify key (· = k) f t).countP p + (if p r then 1 else 0) = t.countP p + (if p (f r) then 1 else 0) := by
  induction t with
  | nil => cases hr
  | cons a t ih =>
    rw [List.map_cons, List.nodup_cons] at h
    by_cases ha : key a = k
    · have hrow : row key (a :: t) k = some a := List.find?_cons_of_pos (by simpa using ha)
      rw [hrow] at hr
      cases hr
      have hrest : modify key (· = k) f t = t := by
        apply modify_of_row_none
        rw [row_eq_none]
        intro r' hr' hk
        exact h.1 (List.mem_map.mpr ⟨r', hr', hk.trans ha.symm⟩)
      have hm : modify key (· = k) f (r :: t) = f r :: t := by
        rw [modify] at hrest ⊢
        rw [List.map_cons, hrest, if_pos (by simpa using ha)]
      rw [hm, List.countP_cons, List.countP_cons]
      omega
    · have hrow : row key (a :: t) k = row key t k := List.find?_cons_of_neg (by simpa using ha)
      rw [hrow] at hr
      have hih := ih h.2 hr
      have hm : modify key (· = k) f (a :: t) = a :: modify key (· = k) f t := by
        rw [modify, List.map_cons, if_neg (by simpa using ha), modify]
      rw [hm, List.countP_cons, List.countP_cons]
      omega

theorem nodup_append (h : (t.map key).Nodup) (hr : row key t (key r) = none) : ((t ++ [r]).map key).Nodup := by
  rw [List.map_append, List.nodup_append]
  refine ⟨h, List.nodup_singleton _, ?_⟩
  intro a ha b hb hab
  obtain ⟨r', hr', rfl⟩ := List.mem_map.mp ha
  simp only [List.map_cons, List.map_nil, List.mem_singleton] at hb
  exact row_eq_none.mp hr r' hr' (hab.trans hb)

end

section
variable {key : ρ → κ} {t : List ρ} {sel : κ → Bool} {f : ρ → ρ} {p : ρ → Bool} {le : ρ → ρ → Bool} {limit : Nat} {k : κ}

theorem keys_modify (hf : ∀ r, key (f r) = key r) (t : List ρ) : (modify key sel f t).map key = t.map key := by
  simp only [modify, List.map_map]
  apply List.map_congr_left
  intro r _
  simp only [Function.comp]
  split <;> simp [hf]

theorem nodup_modify (hf : ∀ r, key (f r) = key r) (h : (t.map key).Nodup) : ((modify key sel f t).map key).Nodup := by
  rw [keys_modify hf]
  exact h

theorem nodup_remove (h : (t.map key).Nodup) : ((remove key sel t).map key).Nodup :=
  h.sublist (List.filter_sublist.map key)

theorem nodup_entry {α : Type} [DecidableEq κ] {t : List (κ × α)} (h : (t.map Prod.fst).Nodup) (k : κ) (d : α) (f : α → α) :
    ((entry t k d f).map Prod.fst).Nodup := by
  unfold entry
  split
  · rw [keys_modify (f := fun r : κ × α => (r.1, f r.2)) (fun _ => rfl)]
    exact h
  · rename_i hr
    exact nodup_append (r := (k, f d)) h hr

theorem countP_remove_le (p : ρ → Bool) (t : List ρ) : (remove key sel t).countP p ≤ t.countP p :=
  List.filter_sublist.countP_le

theorem countP_modify_le {q : ρ → Bool} (h : ∀ r ∈ t, sel (key r) = true → q (f r) = true → q r = true) :
    (modify key sel f t).countP q ≤ t.countP q := by
  rw [modify, List.countP_map]
  apply List.countP_mono_left
  intro r hr hq
  simp only [Function.comp] at hq
  split at hq
  next hs => exact h r hr hs hq
  next => exact hq

theorem mem_oldest (h : k ∈ oldest key p le limit t) : ∃ r ∈ t, key r = k ∧ p r = true := by
  obtain ⟨r, hr, rfl⟩ := List.mem_map.mp h
  have hm := List.mem_of_mem_take hr
  rw [List.mem_insertionSort, List.mem_filter] at hm
  exact ⟨r, hm.1, rfl, hm.2⟩

theorem nodup_oldest (h : (t.map key).Nodup) : (oldest key p le limit t).Nodup := by
  have hsort : (((t.filter p).insertionSort fun a b => le a b).map key).Nodup :=
    ((List.perm_insertionSort _ _).map key).nodup_iff.mpr (h.sublist (List.filter_sublist.map key))
  exact hsort.sublist ((List.take_sublist _ _).map key)

theorem oldest_spent [Std.Total fun a b : ρ => (le a b : Prop)] [IsTrans ρ fun a b => le a b]
    {r : ρ} (hr : r ∈ t) (hp : p r = true) (hk : key r ∉ oldest key p le limit t) :
    (oldest key p le limit t).length = limit ∧ ∀ k ∈ oldest key p le limit t, ∃ r' ∈ t, key r' = k ∧ p r' = true ∧ le r' r = true := by
  let s := (t.filter p).insertionSort fun a b => le a b
  have hs : r ∈ s := (List.mem_insertionSort _).mpr (List.mem_filter.mpr ⟨hr, hp⟩)
  have hd : r ∈ s.drop limit := by
    rw [← List.take_append_drop limit s, List.mem_append] at hs
    exact hs.resolve_left fun h => hk (List.mem_map.mpr ⟨r, h, rfl⟩)
  have hlen : limit ≤ s.length := by
    by_contra hlt
    rw [List.drop_eq_nil_of_le (by omega)] at hd
    cases hd
  have hsorted : List.Pairwise (fun a b => (le a b : Prop)) s := List.pairwise_insertionSort _ _
  rw [← List.take_append_drop limit s, List.pairwise_append] at hsorted
  refine ⟨by simp [oldest, s] at hlen ⊢; exact hlen, ?_⟩
  intro k hk
  obtain ⟨r', hr', rfl⟩ := List.mem_map.mp hk
  have hm := List.mem_of_mem_take hr'
  rw [List.mem_insertionSort, List.mem_filter] at hm
  exact ⟨r', hm.1, rfl, hm.2, hsorted.2.2 r' hr' r hd⟩

end

end KeyedRows
