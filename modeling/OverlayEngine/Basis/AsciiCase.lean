import Mathlib.Tactic.Common

/-!
# ASCII letter case

Lowering a character twice is lowering it once.
-/

namespace AsciiCase

theorem toLower_toLower (c : Char) : c.toLower.toLower = c.toLower := by
  by_cases h : c.val ≥ 'A'.val ∧ c.val ≤ 'Z'.val
  · have hv : c.toLower.val = c.val + ('a'.val - 'A'.val) := by delta Char.toLower; rw [dif_pos h]
    have hn : ¬(c.toLower.val ≥ 'A'.val ∧ c.toLower.val ≤ 'Z'.val) := by
      rw [hv]
      revert h
      generalize c.val = v
      intro h hn
      have h1 := UInt32.le_iff_toNat_le.mp h.1
      have h2 := UInt32.le_iff_toNat_le.mp h.2
      have h3 := UInt32.le_iff_toNat_le.mp hn.2
      rw [UInt32.toNat_add] at h3
      simp at h1 h2 h3
      omega
    generalize c.toLower = d at hn ⊢
    delta Char.toLower
    rw [dif_neg hn]
  · have hc : c.toLower = c := by delta Char.toLower; rw [dif_neg h]
    rw [hc, hc]

theorem map_toLower_idem (cs : List Char) : (cs.map Char.toLower).map Char.toLower = cs.map Char.toLower := by
  rw [List.map_map]
  exact List.map_congr_left fun c _ => toLower_toLower c

theorem toLower_cases (c : Char) :
    c.toLower = c ∨ ('A'.val ≤ c.val ∧ c.val ≤ 'Z'.val) ∧ 'a'.val ≤ c.toLower.val ∧ c.toLower.val ≤ 'z'.val := by
  by_cases h : c.val ≥ 'A'.val ∧ c.val ≤ 'Z'.val
  · refine .inr ⟨h, ?_⟩
    have hv : c.toLower.val = c.val + ('a'.val - 'A'.val) := by delta Char.toLower; rw [dif_pos h]
    rw [hv]
    revert h
    generalize c.val = v
    intro h
    have h1 := UInt32.le_iff_toNat_le.mp h.1
    have h2 := UInt32.le_iff_toNat_le.mp h.2
    rw [UInt32.le_iff_toNat_le, UInt32.le_iff_toNat_le, UInt32.toNat_add]
    simp at h1 h2 ⊢
    omega
  · exact .inl (by delta Char.toLower; rw [dif_neg h])

theorem eq_of_toLower {c d : Char} (h : c.toLower = d) (hd : ¬('a'.val ≤ d.val ∧ d.val ≤ 'z'.val)) : c = d := by
  rcases toLower_cases c with hc | ⟨-, hc⟩
  · exact hc.symm.trans h
  · exact absurd (h ▸ hc) hd

end AsciiCase
