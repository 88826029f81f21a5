import Mathlib.Algebra.GroupWithZero.Nat
import Mathlib.Tactic.Common

/-!
# The covenant's mandated exits

`crates/overlay-discovery/src/pot/covenant.rs` and `spend_verdict.rs`: the
output sets a pot's committed params mandate, and the verdict of a spend whose
outputs are one of them.
-/

namespace OverlayEngine.Covenant

abbrev Hash160 := Vector UInt8 20
abbrev Script := List UInt8

/-- One derived output template: `(satoshis, locking_script)` in tx order. -/
abbrev OutputSet := List (UInt64 × Script)

structure CovenantParams where
  payPkhA : Hash160
  payPkhB : Hash160
  rakePkh : Hash160
  stakeA : UInt64
  stakeB : UInt64
  feeSats : UInt64
  recoveryHeight : UInt64

structure RawTx where
  outputs : OutputSet
  lockTime : UInt32

def templateRakeDivisor : UInt64 := 100
def locktimeThreshold : UInt32 := 500000000

def p2pkhLock (pkh : Hash160) : Script := [0x76, 0xa9, 0x14] ++ pkh.toList ++ [0x88, 0xac]

def checkedAdd (a b : UInt64) : Option UInt64 := if a.toNat + b.toNat < 2 ^ 64 then some (a + b) else none

structure Settles where
  winnerA : OutputSet
  winnerB : OutputSet
  tie : OutputSet
  deriving DecidableEq

def raked (p : CovenantParams) (rake : UInt64) : OutputSet := if 0 < rake then [(rake, p2pkhLock p.rakePkh)] else []

def settleTemplates (p : CovenantParams) : Option Settles :=
  (checkedAdd p.stakeA p.stakeB).bind fun pot =>
    if pot ≤ p.feeSats then none
    else
      let net := pot - p.feeSats
      let rake := pot / templateRakeDivisor
      if net ≤ rake then none
      else
        let winner (pkh : Hash160) : OutputSet := raked p rake ++ [(net - rake, p2pkhLock pkh)]
        -- the odd satoshi joins the rake, so the halves stay equal
        let tieRake := if (net - min rake net) % 2 = 1 then rake + 1 else rake
        if net ≤ tieRake then none
        else
          let half := (net - tieRake) / 2
          let tie := raked p tieRake ++ [(half, p2pkhLock p.payPkhA), (half, p2pkhLock p.payPkhB)]
          some ⟨winner p.payPkhA, winner p.payPkhB, tie⟩

def refundTemplate (p : CovenantParams) : Option OutputSet :=
  let feeB := p.feeSats / 2
  let feeA := p.feeSats - feeB
  if p.stakeA < feeA ∨ p.stakeB < feeB then none
  else some [(p.stakeA - feeA, p2pkhLock p.payPkhA), (p.stakeB - feeB, p2pkhLock p.payPkhB)]

inductive PotVerdict where
  | winnerA
  | winnerB
  | tie
  | refund

/-- `refund_gate_ok`: the height gate as the wire shows it. -/
def refundGateOk (p : CovenantParams) (spender : RawTx) (potSequence : UInt32) : Bool :=
  decide (p.recoveryHeight ≤ spender.lockTime.toUInt64) && decide (spender.lockTime < locktimeThreshold) && decide (0 < spender.lockTime) &&
    decide (potSequence ≠ 0xffffffff)

def classifyCovenant (p : CovenantParams) (spender : RawTx) (potSequence : UInt32) : Option PotVerdict :=
  if p.payPkhA = p.payPkhB then none
  else
    (settleTemplates p).bind fun t =>
      (refundTemplate p).bind fun tRefund =>
        let gate := refundGateOk p spender potSequence
        match decide (spender.outputs = t.winnerA), decide (spender.outputs = t.winnerB), decide (spender.outputs = t.tie),
          decide (spender.outputs = tRefund) with
        | true, false, false, false => some .winnerA
        | false, true, false, false => some .winnerB
        | false, false, true, false => some .tie
        | false, false, false, true => if gate then some .refund else none
        | false, false, true, true => if gate then some .refund else some .tie
        | _, _, _, _ => none

/-! ## The templates -/

variable {p : CovenantParams} {t : Settles} {r : OutputSet}

theorem p2pkhLock_inj {a b : Hash160} (h : p2pkhLock a = p2pkhLock b) : a = b := by
  have hlist : a.toList = b.toList := by
    have htail := List.append_cancel_right h
    exact List.append_cancel_left htail
  exact Vector.toList_inj.mp hlist

def total (outs : OutputSet) : Nat := (outs.map fun o => o.1.toNat).sum

def CovenantParams.net (p : CovenantParams) : Nat := p.stakeA.toNat + p.stakeB.toNat - p.feeSats.toNat

def CovenantParams.rake (p : CovenantParams) : Nat := (p.stakeA.toNat + p.stakeB.toNat) / 100

def CovenantParams.shareA (p : CovenantParams) : Nat := p.stakeA.toNat - (p.feeSats.toNat - p.feeSats.toNat / 2)

def CovenantParams.shareB (p : CovenantParams) : Nat := p.stakeB.toNat - p.feeSats.toNat / 2

@[simp] theorem total_raked (p : CovenantParams) (rake : UInt64) (outs : OutputSet) : total (raked p rake ++ outs) = rake.toNat + total outs := by
  unfold raked
  by_cases h : 0 < rake
  · simp [h, total]
  · have hzero : rake = 0 := by
      apply UInt64.toNat_inj.mp
      have := UInt64.lt_iff_toNat_lt.not.mp h
      simpa using this
    simp [hzero, total]

theorem length_raked (p : CovenantParams) (rake : UInt64) : (raked p rake).length = if rake.toNat = 0 then 0 else 1 := by
  unfold raked
  by_cases h : 0 < rake
  · have hpos := UInt64.lt_iff_toNat_lt.mp h
    have hne : rake.toNat ≠ 0 := by simpa using Nat.ne_of_gt hpos
    rw [if_pos h, if_neg hne]
    rfl
  · have hzero : rake.toNat = 0 := by
      have := UInt64.lt_iff_toNat_lt.not.mp h
      simpa using this
    rw [if_neg h, if_pos hzero]
    rfl

structure Cut (p : CovenantParams) where
  rake : UInt64
  rest : UInt64
  tieRake : UInt64
  half : UInt64
  rake_eq : rake.toNat = p.rake
  rest_eq : rake.toNat + rest.toNat = p.net
  tie_eq : tieRake.toNat + 2 * half.toNat = p.net
  tie_zero : tieRake.toNat = 0 ↔ rake.toNat = 0 ∧ p.net % 2 = 0

def Cut.sets (c : Cut p) : Settles :=
  { winnerA := raked p c.rake ++ [(c.rest, p2pkhLock p.payPkhA)]
    winnerB := raked p c.rake ++ [(c.rest, p2pkhLock p.payPkhB)]
    tie := raked p c.tieRake ++ [(c.half, p2pkhLock p.payPkhA), (c.half, p2pkhLock p.payPkhB)] }

theorem checkedAdd_eq {a b c : UInt64} (h : checkedAdd a b = some c) : c.toNat = a.toNat + b.toNat := by
  unfold checkedAdd at h
  by_cases hfit : a.toNat + b.toNat < 2 ^ 64
  · rw [if_pos hfit] at h
    cases h
    rw [UInt64.toNat_add]
    exact Nat.mod_eq_of_lt hfit
  · rw [if_neg hfit] at h
    cases h

theorem settle_cut (h : settleTemplates p = some t) : ∃ c : Cut p, t = c.sets := by
  simp only [settleTemplates, Option.bind_eq_some_iff] at h
  obtain ⟨pot, hpot, h⟩ := h
  have hpotNat := checkedAdd_eq hpot
  by_cases hfee : pot ≤ p.feeSats
  · rw [if_pos hfee] at h
    cases h
  rw [if_neg hfee] at h
  by_cases hrake : pot - p.feeSats ≤ pot / templateRakeDivisor
  · rw [if_pos hrake] at h
    cases h
  rw [if_neg hrake] at h
  have hnetNat : (pot - p.feeSats).toNat = p.net := by
    rw [UInt64.toNat_sub_of_le _ _ (UInt64.le_of_lt (UInt64.not_le.mp hfee)), hpotNat]
    rfl
  have hrakeNat : (pot / templateRakeDivisor).toNat = p.rake := by
    rw [UInt64.toNat_div, hpotNat]
    rfl
  generalize pot - p.feeSats = net at h hnetNat hrake
  generalize pot / templateRakeDivisor = rake at h hrakeNat hrake
  have hlt : rake.toNat < net.toNat := UInt64.lt_iff_toNat_lt.mp (UInt64.not_le.mp hrake)
  have hrest : (net - rake).toNat = net.toNat - rake.toNat := UInt64.toNat_sub_of_le _ _ (UInt64.le_of_lt (UInt64.not_le.mp hrake))
  have hmin : min rake net = rake := by
    apply UInt64.toNat_inj.mp
    rw [UInt64.toNat_min]
    omega
  rw [hmin] at h
  have hodd : (net - rake) % 2 = 1 ↔ (net.toNat - rake.toNat) % 2 = 1 := by
    rw [← UInt64.toNat_inj, UInt64.toNat_mod, hrest]
    rfl
  have hsize := net.toNat_lt
  -- the tie's rake, one more where the rest is odd
  have htie : (if (net - rake) % 2 = 1 then rake + 1 else rake).toNat = rake.toNat + (net.toNat - rake.toNat) % 2 := by
    by_cases h1 : (net - rake) % 2 = 1
    · have h2 := hodd.mp h1
      rw [if_pos h1, UInt64.toNat_add, h2]
      exact Nat.mod_eq_of_lt (by simp only [UInt64.toNat_one]; omega)
    · have h2 := hodd.not.mp h1
      rw [if_neg h1]
      omega
  generalize (if (net - rake) % 2 = 1 then rake + 1 else rake) = tieRake at h htie
  by_cases hspent : net ≤ tieRake
  · rw [if_pos hspent] at h
    cases h
  rw [if_neg hspent] at h
  have hunder : tieRake ≤ net := UInt64.le_of_lt (UInt64.not_le.mp hspent)
  have hhalf : ((net - tieRake) / 2).toNat = (net.toNat - tieRake.toNat) / 2 := by
    rw [UInt64.toNat_div, UInt64.toNat_sub_of_le _ _ hunder]
    rfl
  have hunderNat := UInt64.le_iff_toNat_le.mp hunder
  cases h
  exact ⟨{ rake, rest := net - rake, tieRake, half := (net - tieRake) / 2
           rake_eq := hrakeNat
           rest_eq := by omega
           tie_eq := by omega
           tie_zero := by omega }, rfl⟩

theorem refund_shares (h : refundTemplate p = some r) :
    ∃ a b : UInt64, r = [(a, p2pkhLock p.payPkhA), (b, p2pkhLock p.payPkhB)] ∧ a.toNat = p.shareA ∧ b.toNat = p.shareB ∧
      a.toNat + b.toNat = p.net := by
  simp only [refundTemplate] at h
  have hfeeB : (p.feeSats / 2).toNat = p.feeSats.toNat / 2 := UInt64.toNat_div _ _
  have hle : p.feeSats / 2 ≤ p.feeSats := UInt64.le_iff_toNat_le.mpr (by rw [hfeeB]; exact Nat.div_le_self _ _)
  have hfeeA : (p.feeSats - p.feeSats / 2).toNat = p.feeSats.toNat - p.feeSats.toNat / 2 := by
    rw [UInt64.toNat_sub_of_le _ _ hle, hfeeB]
  by_cases hshort : p.stakeA < p.feeSats - p.feeSats / 2 ∨ p.stakeB < p.feeSats / 2
  · rw [if_pos hshort] at h
    cases h
  rw [if_neg hshort] at h
  rw [not_or, UInt64.not_lt, UInt64.not_lt] at hshort
  have hA := UInt64.toNat_sub_of_le _ _ hshort.1
  have hB := UInt64.toNat_sub_of_le _ _ hshort.2
  have hA' := UInt64.le_iff_toNat_le.mp hshort.1
  have hB' := UInt64.le_iff_toNat_le.mp hshort.2
  rw [hfeeA] at hA hA'
  rw [hfeeB] at hB hB'
  cases h
  refine ⟨_, _, rfl, hA, hB, ?_⟩
  simp only [CovenantParams.net]
  omega

/-! ## The sets -/

theorem settle_totals (h : settleTemplates p = some t) : total t.winnerA = p.net ∧ total t.winnerB = p.net ∧ total t.tie = p.net := by
  obtain ⟨c, rfl⟩ := settle_cut h
  have hrest := c.rest_eq
  have htie := c.tie_eq
  refine ⟨?_, ?_, ?_⟩
  · exact (total_raked p _ _).trans hrest
  · exact (total_raked p _ _).trans hrest
  · refine (total_raked p _ _).trans ?_
    simp only [total, List.map_cons, List.map_nil, List.sum_cons, List.sum_nil]
    omega

theorem refund_total (h : refundTemplate p = some r) : total r = p.net := by
  obtain ⟨a, b, rfl, -, -, hsum⟩ := refund_shares h
  simpa [total] using hsum

theorem winners_ne (hne : p.payPkhA ≠ p.payPkhB) (h : settleTemplates p = some t) : t.winnerA ≠ t.winnerB := by
  obtain ⟨c, rfl⟩ := settle_cut h
  intro heq
  have hlast := List.append_cancel_left heq
  simp only [List.cons.injEq, Prod.mk.injEq, and_true, true_and] at hlast
  exact hne (p2pkhLock_inj hlast)

theorem winner_ne_tie (h : settleTemplates p = some t) : t.winnerA ≠ t.tie ∧ t.winnerB ≠ t.tie := by
  obtain ⟨c, rfl⟩ := settle_cut h
  have hlength : ∀ pkh : Hash160, (raked p c.rake ++ [(c.rest, p2pkhLock pkh)]).length < c.sets.tie.length := by
    intro pkh
    simp only [Cut.sets, List.length_append, length_raked, List.length_cons, List.length_nil]
    have := c.tie_zero
    split <;> split <;> omega
  constructor
  · intro heq
    have hlt := hlength p.payPkhA
    rw [← heq] at hlt
    exact Nat.lt_irrefl _ hlt
  · intro heq
    have hlt := hlength p.payPkhB
    rw [← heq] at hlt
    exact Nat.lt_irrefl _ hlt

theorem raked_pos {rake : UInt64} (h : rake.toNat ≠ 0) : raked p rake = [(rake, p2pkhLock p.rakePkh)] := by
  have hpos : 0 < rake := UInt64.lt_iff_toNat_lt.mpr (Nat.pos_of_ne_zero h)
  exact if_pos hpos

theorem raked_zero {rake : UInt64} (h : rake.toNat = 0) : raked p rake = [] := by
  have hnot : ¬ 0 < rake := UInt64.lt_iff_toNat_lt.not.mpr (by rw [h]; exact Nat.lt_irrefl _)
  exact if_neg hnot

theorem winnerA_ne_refund (hne : p.payPkhA ≠ p.payPkhB) (h : settleTemplates p = some t) (hr : refundTemplate p = some r) : t.winnerA ≠ r := by
  obtain ⟨c, rfl⟩ := settle_cut h
  obtain ⟨a, b, rfl, -, -, -⟩ := refund_shares hr
  intro heq
  simp only [Cut.sets] at heq
  by_cases hrake : c.rake.toNat = 0
  · simp [raked_zero hrake] at heq
  · simp only [raked_pos hrake, List.cons_append, List.nil_append, List.cons.injEq, Prod.mk.injEq, and_true] at heq
    exact hne (p2pkhLock_inj heq.2.2)

theorem winnerB_eq_refund_iff (h : settleTemplates p = some t) (hr : refundTemplate p = some r) :
    t.winnerB = r ↔ 0 < p.rake ∧ p.rakePkh = p.payPkhA ∧ p.shareA = p.rake := by
  obtain ⟨c, rfl⟩ := settle_cut h
  obtain ⟨a, b, rfl, ha, hb, hsum⟩ := refund_shares hr
  simp only [Cut.sets]
  have hrakeEq := c.rake_eq
  have hrestEq := c.rest_eq
  by_cases hrake : c.rake.toNat = 0
  · simp only [raked_zero hrake]
    constructor
    · intro heq
      simp at heq
    · intro hpos
      omega
  · simp only [raked_pos hrake, List.cons_append, List.nil_append, List.cons.injEq, Prod.mk.injEq, and_true]
    constructor
    · rintro ⟨⟨hamount, hhome⟩, -⟩
      refine ⟨by omega, p2pkhLock_inj hhome, ?_⟩
      rw [← ha, ← hamount, hrakeEq]
    · rintro ⟨-, hhome, hshare⟩
      have hamount : c.rake = a := UInt64.toNat_inj.mp (by omega)
      have hrest : c.rest = b := UInt64.toNat_inj.mp (by omega)
      exact ⟨⟨hamount, by rw [hhome]⟩, hrest⟩

theorem tie_eq_refund_iff (h : settleTemplates p = some t) (hr : refundTemplate p = some r) :
    t.tie = r ↔ p.rake = 0 ∧ p.shareA = p.shareB := by
  obtain ⟨c, rfl⟩ := settle_cut h
  obtain ⟨a, b, rfl, ha, hb, hsum⟩ := refund_shares hr
  simp only [Cut.sets]
  have hrakeEq := c.rake_eq
  have htieEq := c.tie_eq
  have hzero := c.tie_zero
  by_cases htie : c.tieRake.toNat = 0
  · simp only [raked_zero htie, List.nil_append, List.cons.injEq, Prod.mk.injEq, and_true]
    constructor
    · rintro ⟨h1, h2⟩
      have h1' := congrArg UInt64.toNat h1
      have h2' := congrArg UInt64.toNat h2
      exact ⟨by omega, by omega⟩
    · rintro ⟨-, hshare⟩
      exact ⟨UInt64.toNat_inj.mp (by omega), UInt64.toNat_inj.mp (by omega)⟩
  · simp only [raked_pos htie]
    constructor
    · intro heq
      simp at heq
    · rintro ⟨hrake, hshare⟩
      omega

/-! ## Verdicts -/

def mandated (t : Settles) (r : OutputSet) : PotVerdict → OutputSet
  | .winnerA => t.winnerA
  | .winnerB => t.winnerB
  | .tie => t.tie
  | .refund => r

/-- The spend fires the exit `v`: its outputs, and a refund's height gate. -/
def Fires (p : CovenantParams) (t : Settles) (r : OutputSet) (spender : RawTx) (potSequence : UInt32) (v : PotVerdict) : Prop :=
  spender.outputs = mandated t r v ∧ (v = .refund → refundGateOk p spender potSequence = true)

variable {spender : RawTx} {potSequence : UInt32}

theorem classify_eq (hne : p.payPkhA ≠ p.payPkhB) (h : settleTemplates p = some t) (hr : refundTemplate p = some r) :
    classifyCovenant p spender potSequence =
      if spender.outputs = t.winnerA then some .winnerA
      else if spender.outputs = t.winnerB then (if t.winnerB = r then none else some .winnerB)
      else if spender.outputs = r ∧ refundGateOk p spender potSequence = true then some .refund
      else if spender.outputs = t.tie then some .tie
      else none := by
  have hAB := winners_ne hne h
  have hAR := winnerA_ne_refund hne h hr
  obtain ⟨hAT, hBT⟩ := winner_ne_tie h
  simp only [classifyCovenant, if_neg hne, h, hr, Option.bind_some]
  generalize refundGateOk p spender potSequence = gate
  by_cases hA : spender.outputs = t.winnerA
  · simp [hA, hAB, hAT, hAR]
  by_cases hB : spender.outputs = t.winnerB
  · by_cases hBR : t.winnerB = r
    · simp [hB, hBR, Ne.symm hAR, hBR ▸ hBT]
    · simp [hB, hBT, hBR, Ne.symm hAB]
  by_cases hT : spender.outputs = t.tie
  · by_cases hTR : t.tie = r
    · cases gate <;> simp [hT, hTR, Ne.symm hAR, hTR ▸ Ne.symm hBT]
    · simp [hT, hTR, Ne.symm hAT, Ne.symm hBT]
  by_cases hR : spender.outputs = r
  · cases gate <;> simp [hR, hR ▸ hA, hR ▸ hB, hR ▸ hT]
  · simp [hA, hB, hT, hR]

theorem classify_fires (hne : p.payPkhA ≠ p.payPkhB) (h : settleTemplates p = some t) (hr : refundTemplate p = some r) {v : PotVerdict}
    (hv : classifyCovenant p spender potSequence = some v) : Fires p t r spender potSequence v := by
  rw [classify_eq hne h hr] at hv
  by_cases hA : spender.outputs = t.winnerA
  · rw [if_pos hA] at hv
    cases hv
    exact ⟨hA, nofun⟩
  rw [if_neg hA] at hv
  by_cases hB : spender.outputs = t.winnerB
  · rw [if_pos hB] at hv
    split at hv
    · cases hv
    · cases hv
      exact ⟨hB, nofun⟩
  rw [if_neg hB] at hv
  by_cases hR : spender.outputs = r ∧ refundGateOk p spender potSequence = true
  · rw [if_pos hR] at hv
    cases hv
    exact ⟨hR.1, fun _ => hR.2⟩
  rw [if_neg hR] at hv
  by_cases hT : spender.outputs = t.tie
  · rw [if_pos hT] at hv
    cases hv
    exact ⟨hT, nofun⟩
  · rw [if_neg hT] at hv
    cases hv

theorem fires_classify (hne : p.payPkhA ≠ p.payPkhB) (h : settleTemplates p = some t) (hr : refundTemplate p = some r)
    (hnot : ¬(t.winnerB = r ∧ spender.outputs = r)) {v : PotVerdict} (hv : Fires p t r spender potSequence v) :
    ∃ v', classifyCovenant p spender potSequence = some v' := by
  obtain ⟨houts, hgate⟩ := hv
  rw [classify_eq hne h hr]
  by_cases hA : spender.outputs = t.winnerA
  · exact ⟨_, if_pos hA⟩
  by_cases hB : spender.outputs = t.winnerB
  · have hBR : t.winnerB ≠ r := fun heq => hnot ⟨heq, hB.trans heq⟩
    rw [if_neg hA, if_pos hB, if_neg hBR]
    exact ⟨_, rfl⟩
  rw [if_neg hA, if_neg hB]
  by_cases hR : spender.outputs = r ∧ refundGateOk p spender potSequence = true
  · exact ⟨_, if_pos hR⟩
  rw [if_neg hR]
  cases v with
  | winnerA => exact absurd houts hA
  | winnerB => exact absurd houts hB
  | tie => exact ⟨_, if_pos houts⟩
  | refund => exact absurd ⟨houts, hgate rfl⟩ hR

theorem verdict_meaning (p : CovenantParams) (hne : p.payPkhA ≠ p.payPkhB) (t : Settles) (h : settleTemplates p = some t) (r : OutputSet)
    (hr : refundTemplate p = some r) :
    (∀ v, total (mandated t r v) = p.stakeA.toNat + p.stakeB.toNat - p.feeSats.toNat) ∧
      (t.winnerA ≠ t.winnerB ∧ t.winnerA ≠ t.tie ∧ t.winnerB ≠ t.tie ∧ t.winnerA ≠ r) ∧
      (t.tie = r ↔ p.rake = 0 ∧ p.shareA = p.shareB) ∧
      (t.winnerB = r ↔ 0 < p.rake ∧ p.rakePkh = p.payPkhA ∧ p.shareA = p.rake) ∧
      ∀ spender potSequence,
        (t.winnerB = r ∧ spender.outputs = r → classifyCovenant p spender potSequence = none) ∧
        (¬(t.winnerB = r ∧ spender.outputs = r) → (∃ v, Fires p t r spender potSequence v) →
          ∃ v, classifyCovenant p spender potSequence = some v ∧ Fires p t r spender potSequence v) ∧
        ((¬∃ v, Fires p t r spender potSequence v) → classifyCovenant p spender potSequence = none) := by
  have hties := winner_ne_tie h
  have htotals := settle_totals h
  refine ⟨?_, ⟨winners_ne hne h, hties.1, hties.2, winnerA_ne_refund hne h hr⟩, tie_eq_refund_iff h hr, winnerB_eq_refund_iff h hr, ?_⟩
  · intro v
    cases v with
    | winnerA => exact htotals.1
    | winnerB => exact htotals.2.1
    | tie => exact htotals.2.2
    | refund => exact refund_total hr
  intro spender potSequence
  refine ⟨?_, ?_, ?_⟩
  · rintro ⟨hBR, houts⟩
    have hnotA : spender.outputs ≠ t.winnerA := fun hA => winnerA_ne_refund hne h hr (hA.symm.trans houts)
    rw [classify_eq hne h hr, if_neg hnotA, if_pos (houts.trans hBR.symm), if_pos hBR]
  · rintro hnot ⟨v, hv⟩
    obtain ⟨v', hv'⟩ := fires_classify hne h hr hnot hv
    exact ⟨v', hv', classify_fires hne h hr hv'⟩
  · intro hnone
    cases hv : classifyCovenant p spender potSequence with
    | none => rfl
    | some v => exact absurd ⟨v, classify_fires hne h hr hv⟩ hnone

/-! Stakes of 1 and 99 satoshis, no fee, and the rake paid to seat A's own home. -/

def homeA : Hash160 := Vector.replicate 20 0xaa
def homeB : Hash160 := Vector.replicate 20 0xbb

def lopsided : CovenantParams :=
  { payPkhA := homeA, payPkhB := homeB, rakePkh := homeA, stakeA := 1, stakeB := 99, feeSats := 0, recoveryHeight := 900000 }

def rakeless : CovenantParams :=
  { payPkhA := homeA, payPkhB := homeB, rakePkh := homeA, stakeA := 20, stakeB := 20, feeSats := 2, recoveryHeight := 900000 }

def bothWays : OutputSet := [(1, p2pkhLock homeA), (99, p2pkhLock homeB)]

theorem winnerB_refund_unresolved :
    lopsided.payPkhA ≠ lopsided.payPkhB ∧ (settleTemplates lopsided).map Settles.winnerB = some bothWays ∧
      refundTemplate lopsided = some bothWays ∧ classifyCovenant lopsided ⟨bothWays, 900001⟩ 0 = none := by
  decide

def halves : OutputSet := [(19, p2pkhLock homeA), (19, p2pkhLock homeB)]

theorem verdict_meaning_rakeless : ∃ v, classifyCovenant rakeless ⟨halves, 0⟩ 0 = some v ∧ v ≠ .refund := by
  have h := verdict_meaning rakeless (by decide) ⟨[(38, p2pkhLock homeA)], [(38, p2pkhLock homeB)], halves⟩ (by decide) halves (by decide)
  obtain ⟨v, hv, hfires⟩ := (h.2.2.2.2 ⟨halves, 0⟩ 0).2.1 (by decide) ⟨.tie, rfl, nofun⟩
  refine ⟨v, hv, ?_⟩
  rintro rfl
  exact absurd (hfires.2 rfl) (by decide)

end OverlayEngine.Covenant
