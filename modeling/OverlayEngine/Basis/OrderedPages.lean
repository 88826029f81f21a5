import Mathlib.Data.List.Sort
import Mathlib.Data.List.Dedup

/-!
# Ordered pages

The distinct keys past a cursor, in order, a bounded number at a time, read
from one side or merged from several. A page holds every key past its cursor,
or it is full and every key it leaves out is above all of its own.
-/

namespace OrderedPages

variable {α : Type} [LinearOrder α]

def firsts (limit : Nat) (keys : List α) : List α := (keys.dedup.insertionSort (· ≤ ·)).take limit

def past (after : α) (limit : Nat) (keys : List α) : List α := firsts limit (keys.filter (after < ·))

def merged (after : α) (limit : Nat) (sides : List (List α)) : List α := firsts limit (sides.flatMap (past after limit))

def Leaves (limit : Nat) (page : List α) (x : α) : Prop := x ∈ page ∨ page.length = limit ∧ ∀ y ∈ page, y < x

variable {x after : α} {limit : Nat} {keys : List α}

theorem mem_of_firsts (h : x ∈ firsts limit keys) : x ∈ keys := by
  have hsort := List.mem_of_mem_take h
  simpa using hsort

theorem firsts_ascending : (firsts limit keys).Pairwise (· < ·) := by
  have hle : (keys.dedup.insertionSort (· ≤ ·)).Pairwise (· ≤ ·) := List.pairwise_insertionSort _ _
  have hne : (keys.dedup.insertionSort (· ≤ ·)).Pairwise (· ≠ ·) := ((List.perm_insertionSort _ _).nodup_iff).mpr (List.nodup_dedup keys)
  have hlt := hle.imp₂ (fun _ _ hle hne => lt_of_le_of_ne hle hne) hne
  exact hlt.sublist (List.take_sublist _ _)

theorem firsts_length_le : (firsts limit keys).length ≤ limit := List.length_take_le _ _

theorem firsts_leaves (limit : Nat) (h : x ∈ keys) : Leaves limit (firsts limit keys) x := by
  have hsort : x ∈ keys.dedup.insertionSort (· ≤ ·) := by simpa using h
  rw [← List.take_append_drop limit (keys.dedup.insertionSort (· ≤ ·))] at hsort
  rcases List.mem_append.mp hsort with hin | hout
  · exact .inl hin
  · refine .inr ⟨?_, fun y hy => ?_⟩
    · have hdrop := List.length_pos_of_mem hout
      rw [List.length_drop] at hdrop
      simp only [firsts, List.length_take]
      omega
    · have hasc : (firsts (keys.dedup.insertionSort (· ≤ ·)).length keys).Pairwise (· < ·) := firsts_ascending
      simp only [firsts, List.take_length] at hasc
      rw [← List.take_append_drop limit (keys.dedup.insertionSort (· ≤ ·))] at hasc
      exact (List.pairwise_append.mp hasc).2.2 y hy x hout

theorem mem_of_past (h : x ∈ past after limit keys) : x ∈ keys ∧ after < x := by
  simpa using mem_of_firsts h

theorem past_leaves (limit : Nat) (h : x ∈ keys) (hafter : after < x) : Leaves limit (past after limit keys) x := by
  apply firsts_leaves
  simpa using ⟨h, hafter⟩

theorem past_ascending : (past after limit keys).Pairwise (· < ·) := firsts_ascending

variable {sides : List (List α)}

theorem merged_ascending : (merged after limit sides).Pairwise (· < ·) := firsts_ascending

theorem lt_of_merged (h : x ∈ merged after limit sides) : after < x := by
  obtain ⟨side, -, hx⟩ := List.mem_flatMap.mp (mem_of_firsts h)
  exact (mem_of_past hx).2

theorem length_le_of_subset {l l' : List α} (h : l.Pairwise (· < ·)) (hsub : ∀ y ∈ l, y ∈ l') : l.length ≤ l'.length :=
  (List.subperm_of_subset (h.imp ne_of_lt) hsub).length_le

theorem merged_leaves {side : List α} (hside : side ∈ sides) (h : x ∈ side) (hafter : after < x) : Leaves limit (merged after limit sides) x := by
  have hmem : ∀ y ∈ past after limit side, y ∈ sides.flatMap (past after limit) := fun y hy => List.mem_flatMap.mpr ⟨side, hside, hy⟩
  rcases past_leaves limit h hafter with hin | ⟨hfull, hbelow⟩
  · exact firsts_leaves limit (hmem x hin)
  by_cases hall : ∀ y ∈ past after limit side, y ∈ merged after limit sides
  · have hlength := length_le_of_subset past_ascending hall
    have hmost : (merged after limit sides).length ≤ limit := firsts_length_le
    have hlen : (merged after limit sides).length = limit := by omega
    -- the side's keys are the page's, so the page holds none at or above `x`
    refine .inr ⟨hlen, fun z hz => ?_⟩
    by_contra hxz
    have hz' : z ∉ past after limit side := fun hin => hxz (hbelow z hin)
    have hlonger : (past after limit side ++ [z]).length ≤ (merged after limit sides).length := by
      apply length_le_of_subset
      · refine List.pairwise_append.mpr ⟨past_ascending, List.pairwise_singleton _ _, fun y hy w hw => ?_⟩
        rw [List.mem_singleton.mp hw]
        exact lt_of_lt_of_le (hbelow y hy) (not_lt.mp hxz)
      · intro y hy
        rcases List.mem_append.mp hy with hy | hy
        · exact hall y hy
        · rw [List.mem_singleton.mp hy]
          exact hz
    rw [List.length_append, List.length_singleton] at hlonger
    omega
  · simp only [not_forall] at hall
    obtain ⟨y, hy, hnot⟩ := hall
    rcases firsts_leaves limit (hmem y hy) with hin | ⟨hlen, hless⟩
    · exact absurd hin hnot
    · exact .inr ⟨hlen, fun z hz => (hless z hz).trans (hbelow y hy)⟩

/-! ## Rows in the order of a key -/

section
variable {ρ : Type} (key : ρ → α)

def rowsPast (after : α) (limit : Nat) (rows : List ρ) : List ρ :=
  ((rows.filter fun r => after < key r).insertionSort fun a b => key a ≤ key b).take limit

variable {key} {rows : List ρ} {r : ρ}

theorem sorted_strict (after : α) (hkeys : (rows.map key).Nodup) :
    ((rows.filter fun r => after < key r).insertionSort fun a b => key a ≤ key b).Pairwise fun a b => key a < key b := by
  have : Std.Total fun a b : ρ => key a ≤ key b := ⟨fun a b => le_total _ _⟩
  have : IsTrans ρ fun a b => key a ≤ key b := ⟨fun _ _ _ => le_trans⟩
  have hle := List.pairwise_insertionSort (fun a b => key a ≤ key b) (rows.filter fun r => after < key r)
  have hfilter : (rows.filter fun r => after < key r).Pairwise fun a b => key a ≠ key b :=
    (List.pairwise_map.mp hkeys).sublist List.filter_sublist
  have hne := (List.perm_insertionSort (fun a b => key a ≤ key b) _).symm.pairwise hfilter fun hab => hab.symm
  exact hle.imp₂ (fun _ _ hle hne => lt_of_le_of_ne hle hne) hne

theorem rowsPast_strict (hkeys : (rows.map key).Nodup) : (rowsPast key after limit rows).Pairwise fun a b => key a < key b :=
  (sorted_strict after hkeys).sublist (List.take_sublist _ _)

theorem rowsPast_length_le : (rowsPast key after limit rows).length ≤ limit := List.length_take_le _ _

theorem rowsPast_leaves (limit : Nat) (hkeys : (rows.map key).Nodup) (h : r ∈ rows) (hafter : after < key r) :
    r ∈ rowsPast key after limit rows ∨ (rowsPast key after limit rows).length = limit ∧ ∀ s ∈ rowsPast key after limit rows, key s < key r := by
  have hsort : r ∈ (rows.filter fun r => after < key r).insertionSort fun a b => key a ≤ key b := by simpa using ⟨h, hafter⟩
  have hstrict := sorted_strict after hkeys
  rw [← List.take_append_drop limit ((rows.filter fun r => after < key r).insertionSort fun a b => key a ≤ key b)] at hsort hstrict
  rcases List.mem_append.mp hsort with hin | hout
  · exact .inl hin
  · refine .inr ⟨?_, fun s hs => (List.pairwise_append.mp hstrict).2.2 s hs r hout⟩
    have hdrop := List.length_pos_of_mem hout
    rw [List.length_drop] at hdrop
    simp only [rowsPast, List.length_take]
    omega

end

end OrderedPages
