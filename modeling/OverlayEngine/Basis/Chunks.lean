import Mathlib.Data.List.Basic

/-!
# A list in chunks

`slice::chunks`: a list cut into runs of `n` elements, the last of them shorter
where the length is no multiple of `n`.
-/

namespace OverlayEngine.Chunks

variable {α : Type}

/-- `fuel` bounds the number of chunks. -/
def chunksFrom (n : Nat) : Nat → List α → List (List α)
  | 0, _ => []
  | _ + 1, [] => []
  | fuel + 1, x :: xs => (x :: xs).take n :: chunksFrom n fuel ((x :: xs).drop n)

def chunks (n : Nat) (l : List α) : List (List α) := chunksFrom n l.length l

variable {n : Nat} {l chunk : List α}

theorem flatten_chunks (hn : 0 < n) (l : List α) : (chunks n l).flatten = l := by
  have go (fuel : Nat) (l : List α) (hfuel : l.length ≤ fuel) : (chunksFrom n fuel l).flatten = l := by
    induction fuel generalizing l with
    | zero =>
      rw [List.eq_nil_of_length_eq_zero (Nat.le_zero.mp hfuel)]
      rfl
    | succ fuel ih =>
      cases l with
      | nil => rfl
      | cons x xs =>
        have hrest : ((x :: xs).drop n).length ≤ fuel := by
          simp only [List.length_drop, List.length_cons] at hfuel ⊢
          omega
        rw [chunksFrom, List.flatten_cons, ih _ hrest, List.take_append_drop]
  exact go l.length l (Nat.le_refl _)

theorem mem_chunks (hn : 0 < n) {x : α} (h : x ∈ l) : ∃ chunk ∈ chunks n l, x ∈ chunk :=
  List.mem_flatten.mp ((flatten_chunks hn l).symm ▸ h)

theorem mem_chunksFrom {fuel : Nat} (h : chunk ∈ chunksFrom n fuel l) : ∃ rest : List α, rest ≠ [] ∧ chunk = rest.take n := by
  induction fuel generalizing l with
  | zero => cases h
  | succ fuel ih =>
    cases l with
    | nil => cases h
    | cons x xs => exact (List.mem_cons.mp h).elim (fun h => ⟨x :: xs, List.cons_ne_nil x xs, h⟩) ih

theorem ne_nil_of_mem_chunks (hn : 0 < n) (h : chunk ∈ chunks n l) : chunk ≠ [] := by
  obtain ⟨rest, hne, rfl⟩ := mem_chunksFrom h
  simpa [List.take_eq_nil_iff, hne] using Nat.ne_of_gt hn

theorem length_le_of_mem_chunks (h : chunk ∈ chunks n l) : chunk.length ≤ n := by
  obtain ⟨rest, -, rfl⟩ := mem_chunksFrom h
  exact List.length_take_le n rest

end OverlayEngine.Chunks
