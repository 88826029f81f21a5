import Mathlib.Data.List.AList
import Mathlib.Data.List.Induction
import Mathlib.Data.List.Sort

/-!
# The least of each key

A map that keeps, of the values offered under a key, one of the least rank. What
it keeps depends on neither the order of the offers nor their repetition, where
a rank tells the values apart.
-/

namespace LeastByKey

variable {κ β ρ : Type} [LinearOrder ρ]

/-- What is kept under `k` was offered, and nothing offered ranks lower. -/
def Keeps (rank : β → ρ) (l : List (κ × β)) (k : κ) (kept : Option β) : Prop :=
  match kept with
  | some b => (k, b) ∈ l ∧ ∀ b', (k, b') ∈ l → rank b ≤ rank b'
  | none => ∀ b', (k, b') ∉ l

variable {rank : β → ρ} {k : κ}

theorem Keeps.unique {l : List (κ × β)} {a b : Option β} (hinj : ∀ x y : β, (k, x) ∈ l → (k, y) ∈ l → rank x = rank y → x = y)
    (ha : Keeps rank l k a) (hb : Keeps rank l k b) : a = b := by
  cases a with
  | none =>
    cases b with
    | none => rfl
    | some y => exact absurd hb.1 (ha y)
  | some x =>
    cases b with
    | none => exact absurd ha.1 (hb x)
    | some y => exact congrArg some (hinj x y ha.1 hb.1 (le_antisymm (ha.2 y hb.1) (hb.2 x ha.1)))

theorem Keeps.congr {l l' : List (κ × β)} {a : Option β} (h : ∀ b, (k, b) ∈ l ↔ (k, b) ∈ l') (ha : Keeps rank l k a) :
    Keeps rank l' k a := by
  cases a with
  | none => exact fun b hb => ha b ((h b).mpr hb)
  | some x => exact ⟨(h x).mp ha.1, fun b hb => ha.2 b ((h b).mpr hb)⟩

variable [DecidableEq κ] (rank)

def offer (kept : AList fun _ : κ => β) (o : κ × β) : AList fun _ : κ => β :=
  match kept.lookup o.1 with
  | some b => if rank b ≤ rank o.2 then kept else kept.insert o.1 o.2
  | none => kept.insert o.1 o.2

def offers (l : List (κ × β)) : AList fun _ : κ => β := l.foldl (offer rank) ∅

variable {rank}

theorem lookup_offer_ne (kept : AList fun _ : κ => β) {o : κ × β} (h : k ≠ o.1) : (offer rank kept o).lookup k = kept.lookup k := by
  unfold offer
  split
  · split
    · rfl
    · exact AList.lookup_insert_ne h
  · exact AList.lookup_insert_ne h

theorem keeps_offer {kept : AList fun _ : κ => β} {l : List (κ × β)} (h : Keeps rank l k (kept.lookup k)) (o : κ × β) :
    Keeps rank (l ++ [o]) k ((offer rank kept o).lookup k) := by
  by_cases hk : k = o.1
  · obtain ⟨key, b⟩ := o
    subst hk
    unfold offer
    cases hkept : kept.lookup k with
    | none =>
      rw [hkept] at h
      rw [AList.lookup_insert]
      refine ⟨List.mem_append_right _ List.mem_cons_self, fun b' hb' => ?_⟩
      rcases List.mem_append.mp hb' with hb' | hb'
      · exact absurd hb' (h b')
      · cases List.mem_singleton.mp hb'
        exact le_refl _
    | some least =>
      rw [hkept] at h
      obtain ⟨hmem, hleast⟩ := h
      dsimp only
      split
      case isTrue hle =>
        rw [hkept]
        refine ⟨List.mem_append_left _ hmem, fun b' hb' => ?_⟩
        rcases List.mem_append.mp hb' with hb' | hb'
        · exact hleast b' hb'
        · cases List.mem_singleton.mp hb'
          exact hle
      case isFalse hgt =>
        rw [AList.lookup_insert]
        refine ⟨List.mem_append_right _ List.mem_cons_self, fun b' hb' => ?_⟩
        rcases List.mem_append.mp hb' with hb' | hb'
        · exact le_trans (le_of_not_ge hgt) (hleast b' hb')
        · cases List.mem_singleton.mp hb'
          exact le_refl _
  · rw [lookup_offer_ne kept hk]
    have hnew (b' : β) : (k, b') ∈ l ++ [o] ↔ (k, b') ∈ l := by
      rw [List.mem_append, List.mem_singleton]
      exact or_iff_left fun heq => hk (congrArg Prod.fst heq)
    cases hkept : kept.lookup k with
    | none =>
      rw [hkept] at h
      exact fun b' hb' => h b' ((hnew b').mp hb')
    | some least =>
      rw [hkept] at h
      exact ⟨(hnew least).mpr h.1, fun b' hb' => h.2 b' ((hnew b').mp hb')⟩

theorem keeps_offers (l : List (κ × β)) (k : κ) : Keeps rank l k ((offers rank l).lookup k) := by
  induction l using List.reverseRecOn with
  | nil =>
    rw [offers, List.foldl_nil, AList.lookup_empty]
    exact fun b' h => (by cases h)
  | append_singleton l o ih =>
    rw [offers, List.foldl_append]
    exact keeps_offer ih o

def sortedValues {γ : Type} [LinearOrder γ] (f : β → γ) (m : AList fun _ : κ => β) : List γ :=
  (m.entries.map fun e => f e.2).insertionSort (· ≤ ·)

variable {m : AList fun _ : κ => β}

theorem mem_sortedValues {γ : Type} [LinearOrder γ] {f : β → γ} {c : γ} :
    c ∈ sortedValues f m ↔ ∃ k b, m.lookup k = some b ∧ f b = c := by
  rw [sortedValues, List.mem_insertionSort, List.mem_map]
  constructor
  · rintro ⟨⟨k, b⟩, hmem, rfl⟩
    exact ⟨k, b, AList.mem_lookup_iff.mpr hmem, rfl⟩
  · rintro ⟨k, b, hlookup, rfl⟩
    exact ⟨⟨k, b⟩, AList.mem_lookup_iff.mp hlookup, rfl⟩

theorem sortedValues_congr {γ : Type} [LinearOrder γ] {f : β → γ} {m' : AList fun _ : κ => β} (h : ∀ k, m.lookup k = m'.lookup k) :
    sortedValues f m = sortedValues f m' := by
  have hperm : m.entries.Perm m'.entries := List.lookup_ext m.nodupKeys m'.nodupKeys fun k b => by
    show b ∈ m.lookup k ↔ b ∈ m'.lookup k
    rw [h k]
  have hsorted := (hperm.map fun e => f e.2)
  exact List.Perm.eq_of_pairwise' (List.pairwise_insertionSort _ _) (List.pairwise_insertionSort _ _)
    (((List.perm_insertionSort _ _).trans hsorted).trans (List.perm_insertionSort _ _).symm)

theorem nodup_sortedValues {γ : Type} [LinearOrder γ] {f : β → γ} {g : γ → κ}
    (h : ∀ k b, m.lookup k = some b → g (f b) = k) : ((sortedValues f m).map g).Nodup := by
  have hkeys : (m.entries.map fun e => f e.2).map g = m.keys := by
    rw [List.map_map]
    exact List.map_congr_left fun e he => h e.1 e.2 (AList.mem_lookup_iff.mpr he)
  refine ((List.perm_insertionSort (· ≤ ·) (m.entries.map fun e => f e.2)).map g).nodup_iff.mpr ?_
  rw [hkeys]
  exact m.nodupKeys

end LeastByKey
