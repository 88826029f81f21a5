import OverlayEngine.Pot.SpenderFacts

/-!
# The spender's payouts in two stores

The in-memory store keeps one `PotRecord` where the database keeps a row. The two
agree on every call but one: where the facts are of another spender, the memory's
facts call takes the payouts out, and the database's leaves them.
-/

namespace OverlayEngine.Pot

/-! ## The in-memory store -/

namespace Memory

/-- `store_record` of a record held already: an incoming value fills an absent one. -/
def storeRecord (existing record : PotRecord) : PotRecord :=
  let fill {α : Type} (slot incoming : Option α) : Option α := if slot.isNone then incoming else slot
  { existing with
    lockKind := fill existing.lockKind record.lockKind
    pubA := fill existing.pubA record.pubA
    pubB := fill existing.pubB record.pubB
    pubTower := fill existing.pubTower record.pubTower
    payPkhA := fill existing.payPkhA record.payPkhA
    payPkhB := fill existing.payPkhB record.payPkhB
    rakePkh := fill existing.rakePkh record.rakePkh
    stakeA := fill existing.stakeA record.stakeA
    stakeB := fill existing.stakeB record.stakeB
    feeSats := fill existing.feeSats record.feeSats
    recoveryHeight := fill existing.recoveryHeight record.recoveryHeight
    potSats := fill existing.potSats record.potSats
    fundingSizeBytes := fill existing.fundingSizeBytes record.fundingSizeBytes
    fundingFeeSats := fill existing.fundingFeeSats record.fundingFeeSats
    paramsDecoded := existing.paramsDecoded || record.paramsDecoded }

/-- The end of an accepted `mark_spent`: the finality and the verdict ride the pointer just written. -/
def wrote (r : PotRecord) (samePointer : Bool) (spendingTxid : Txid) (verdict : Option VerdictWrite) (spenderFinal : Option Bool) : PotRecord :=
  let r := if samePointer then
      match spenderFinal with
      | some f => { r with spenderFinal := some f }
      | none => r
    else { r with spenderFinal := spenderFinal }
  match verdict with
  | some v => { r with verdict := some v.verdict, verdictTxid := some spendingTxid, settleSigners := v.settleSigners }
  | none => r

def markSpent (r : PotRecord) (spendingTxid : Txid) (confirmed : Bool) (verdict : Option VerdictWrite) (spentHeight : Option Nat)
    (spenderFinal : Option Bool) : PotRecord :=
  let samePointer := decide (r.spendingTxid = some spendingTxid)
  if confirmed then
    let r := { r with spent := true, spendingTxid := some spendingTxid, spentConfirmed := true }
    let r := if samePointer then
        match spentHeight with
        | some h => { r with spentHeight := some h }
        | none => r
      else { r with spentHeight := spentHeight }
    wrote r samePointer spendingTxid verdict spenderFinal
  else if r.spentConfirmed = false then
    wrote { r with spent := true, spendingTxid := some spendingTxid } samePointer spendingTxid verdict spenderFinal
  else r

def markVerdictForSpender (r : PotRecord) (spendingTxid : Txid) (v : VerdictWrite) : PotRecord :=
  if r.spendingTxid = some spendingTxid then
    { r with verdict := some v.verdict, verdictTxid := some spendingTxid, settleSigners := v.settleSigners }
  else r

def displaceSpendFor (r : PotRecord) (fromSpender toSpender : Txid) (spentHeight : Option Nat) (spenderFinal : Option Bool) : PotRecord :=
  if r.spentConfirmed = false ∧ r.spendingTxid = some fromSpender then
    { r with spent := true, spendingTxid := some toSpender, spentConfirmed := true, spentHeight := spentHeight, spenderFinal := spenderFinal }
  else r

def markSpentIfUnpointed (r : PotRecord) (spendingTxid : Txid) (spenderFinal : Option Bool) : PotRecord :=
  if r.spent = false ∧ r.spendingTxid = none ∧ r.spentConfirmed = false then
    { r with spent := true, spendingTxid := some spendingTxid, spenderFinal := spenderFinal }
  else r

def markConfirmedForSpender (r : PotRecord) (spendingTxid : Txid) (spentHeight : Option Nat) : PotRecord :=
  if r.spendingTxid = some spendingTxid then
    let r := { r with spent := true, spentConfirmed := true }
    match spentHeight with
    | some h => { r with spentHeight := some h }
    | none => r
  else r

def demoteConfirmedForSpender (r : PotRecord) (spendingTxid : Txid) : PotRecord :=
  if r.spentConfirmed = true ∧ r.spendingTxid = some spendingTxid then { r with spentConfirmed := false, spentHeight := none } else r

def demoteConfirmedForSpenderAt (r : PotRecord) (spendingTxid : Txid) (judgedHeight : Option Nat) : PotRecord :=
  if r.spentConfirmed = true ∧ r.spendingTxid = some spendingTxid ∧ r.spentHeight = judgedHeight then
    { r with spentConfirmed := false, spentHeight := none }
  else r

def reanchorConfirmedForSpender (r : PotRecord) (spendingTxid : Txid) (newHeight : Nat) : PotRecord :=
  if r.spentConfirmed = true ∧ r.spendingTxid = some spendingTxid then { r with spentHeight := some newHeight } else r

def storeSpenderFacts (r : PotRecord) (spendingTxid : Txid) (facts : TxFacts) : PotRecord :=
  if r.spendingTxid ≠ some spendingTxid then r
  else if r.spenderFactsTxid = some spendingTxid then
    let r := if r.spenderSizeBytes.isNone then { r with spenderSizeBytes := some facts.sizeBytes } else r
    if r.spenderFeeSats.isNone then { r with spenderFeeSats := facts.feeSats } else r
  else
    { r with
      spenderFactsTxid := some spendingTxid
      spenderSizeBytes := some facts.sizeBytes
      spenderFeeSats := facts.feeSats
      spenderPayASats := none
      spenderPayBSats := none }

def storeSpenderPayouts (r : PotRecord) (spendingTxid : Txid) (payASats payBSats : Option Nat) : PotRecord :=
  if r.spendingTxid ≠ some spendingTxid then r
  else
    let r := if r.spenderPayASats.isNone then { r with spenderPayASats := payASats } else r
    if r.spenderPayBSats.isNone then { r with spenderPayBSats := payBSats } else r

def exec (r : PotRecord) : Call → PotRecord
  | .storeRecord record _ => storeRecord r record
  | .markSpent x confirmed verdict height final => markSpent r x confirmed verdict height final
  | .markVerdictForSpender x verdict => markVerdictForSpender r x verdict
  | .displaceSpendFor x y height final => displaceSpendFor r x y height final
  | .markSpentIfUnpointed x final => markSpentIfUnpointed r x final
  | .markConfirmedForSpender x height => markConfirmedForSpender r x height
  | .demoteConfirmedForSpender x => demoteConfirmedForSpender r x
  | .demoteConfirmedForSpenderAt x judged => demoteConfirmedForSpenderAt r x judged
  | .reanchorConfirmedForSpender x height => reanchorConfirmedForSpender r x height
  | .storeSpenderFacts x facts => storeSpenderFacts r x facts
  | .storeSpenderPayouts x a b => storeSpenderPayouts r x a b

end Memory

/-! ## One call on both stores -/

def Row.after (r : Row) (now : Nat) (c : Call) : Row := (r.update now c).getD r

section
variable {r : Row} {now : Nat} {x : Txid}

theorem fill_eq {α : Type} (slot incoming : Option α) : (if slot.isNone then incoming else slot) = slot.or incoming := by
  cases slot <;> rfl

theorem agree_storeRecord (r : Row) (now : Nat) (record : PotRecord) :
    (r.after now (.storeRecord record true)).intoRecord = Memory.storeRecord r.intoRecord record := by
  simp only [Row.after, Row.update, Option.getD_some, Row.storeRecord, Memory.storeRecord, fill_eq, Bool.true_and]
  split
  · rfl
  · rename_i h
    simp only [Bool.or_eq_true, Option.isSome_iff_ne_none, not_or, not_not] at h
    simp [Row.filled, Row.intoRecord, h.1, h.2]

theorem agree_markSpent (r : Row) (now : Nat) (x : Txid) (confirmed : Bool) (verdict : Option VerdictWrite) (height : Option Nat) (final : Option Bool) :
    (r.after now (.markSpent x confirmed verdict height final)).intoRecord = Memory.markSpent r.intoRecord x confirmed verdict height final := by
  have hp : r.intoRecord.spendingTxid = r.spendingTxid := rfl
  have hc : r.intoRecord.spentConfirmed = r.spentConfirmed := rfl
  simp only [Row.after, Row.update, Row.markSpent, Memory.markSpent, hp, hc]
  by_cases hs : r.spendingTxid = some x
  · cases confirmed with
    | true => cases verdict <;> cases height <;> cases final <;> simp [hs, riding, Memory.wrote, Row.spendWritten, Row.confirmedWith, Row.pointed, Row.judged, Row.intoRecord]
    | false =>
      cases hcs : r.spentConfirmed with
      | true => simp
      | false => cases verdict <;> cases final <;> simp [hs, hcs, riding, Memory.wrote, Row.spendWritten, Row.pointed, Row.judged, Row.intoRecord]
  · cases confirmed with
    | true => cases verdict <;> simp [hs, riding, Memory.wrote, Row.spendWritten, Row.confirmedWith, Row.pointed, Row.judged, Row.intoRecord]
    | false =>
      cases hcs : r.spentConfirmed with
      | true => simp
      | false => cases verdict <;> simp [hs, hcs, riding, Memory.wrote, Row.spendWritten, Row.pointed, Row.judged, Row.intoRecord]

theorem agree_guarded {p q : Prop} [Decidable p] [Decidable q] (hpq : p ↔ q) {a : Row} {b : PotRecord} (h : p → a.intoRecord = b) :
    ((if p then some a else none).getD r).intoRecord = if q then b else r.intoRecord := by
  by_cases hp : p
  · rw [if_pos hp, if_pos (hpq.mp hp)]
    exact h hp
  · rw [if_neg hp, if_neg fun hq => hp (hpq.mpr hq)]
    rfl

theorem or_of_not_none {α : Type} {o : Option α} (h : ¬o.isNone = true) (v : Option α) : o.or v = o := by
  cases o with
  | none => exact absurd rfl h
  | some _ => rfl

theorem fill_size (r : PotRecord) (n : Nat) :
    (if r.spenderSizeBytes.isNone then { r with spenderSizeBytes := some n } else r) =
      { r with spenderSizeBytes := r.spenderSizeBytes.or (some n) } := by
  split
  · rename_i h
    rw [Option.isNone_iff_eq_none.mp h, Option.none_or]
  · rename_i h
    rw [or_of_not_none h]

theorem fill_fee (r : PotRecord) (fee : Option Nat) :
    (if r.spenderFeeSats.isNone then { r with spenderFeeSats := fee } else r) = { r with spenderFeeSats := r.spenderFeeSats.or fee } := by
  split
  · rename_i h
    rw [Option.isNone_iff_eq_none.mp h, Option.none_or]
  · rename_i h
    rw [or_of_not_none h]

theorem fill_payA (r : PotRecord) (a : Option Nat) :
    (if r.spenderPayASats.isNone then { r with spenderPayASats := a } else r) = { r with spenderPayASats := r.spenderPayASats.or a } := by
  split
  · rename_i h
    rw [Option.isNone_iff_eq_none.mp h, Option.none_or]
  · rename_i h
    rw [or_of_not_none h]

theorem fill_payB (r : PotRecord) (b : Option Nat) :
    (if r.spenderPayBSats.isNone then { r with spenderPayBSats := b } else r) = { r with spenderPayBSats := r.spenderPayBSats.or b } := by
  split
  · rename_i h
    rw [Option.isNone_iff_eq_none.mp h, Option.none_or]
  · rename_i h
    rw [or_of_not_none h]

theorem memory_storeSpenderFacts {r : PotRecord} {x : Txid} (hx : r.spendingTxid = some x) (hf : r.spenderFactsTxid = some x) (facts : TxFacts) :
    Memory.storeSpenderFacts r x facts =
      { r with spenderSizeBytes := r.spenderSizeBytes.or (some facts.sizeBytes), spenderFeeSats := r.spenderFeeSats.or facts.feeSats } := by
  unfold Memory.storeSpenderFacts
  rw [if_neg (not_not.mpr hx), if_pos hf, fill_size]
  exact fill_fee _ _

theorem memory_storeSpenderPayouts {r : PotRecord} {x : Txid} (hx : r.spendingTxid = some x) (a b : Option Nat) :
    Memory.storeSpenderPayouts r x a b =
      { r with spenderPayASats := r.spenderPayASats.or a, spenderPayBSats := r.spenderPayBSats.or b } := by
  unfold Memory.storeSpenderPayouts
  rw [if_neg (not_not.mpr hx), fill_payA]
  exact fill_payB _ _

theorem agree_storeSpenderFacts (r : Row) (now : Nat) (x : Txid) (facts : TxFacts) :
    (r.after now (.storeSpenderFacts x facts)).intoRecord = Memory.storeSpenderFacts r.intoRecord x facts ↔
      (r.spendingTxid = some x → r.spenderFactsTxid ≠ some x → r.spenderPayASats = none ∧ r.spenderPayBSats = none) := by
  have hp : r.intoRecord.spendingTxid = r.spendingTxid := rfl
  have hf : r.intoRecord.spenderFactsTxid = r.spenderFactsTxid := rfl
  by_cases hx : r.spendingTxid = some x
  · by_cases hfx : r.spenderFactsTxid = some x
    · refine iff_of_true ?_ fun _ h => absurd hfx h
      rw [memory_storeSpenderFacts (hp.trans hx) (hf.trans hfx), Row.after, Row.update, Row.storeSpenderFacts, if_pos hx, hfx]
      simp [Row.intoRecord, hfx]
    · simp [Row.after, Row.update, Row.storeSpenderFacts, Memory.storeSpenderFacts, hx, hfx, Row.intoRecord]
  · simp [Row.after, Row.update, Row.storeSpenderFacts, Memory.storeSpenderFacts, hp, hx]

theorem agree_storeSpenderPayouts (r : Row) (now : Nat) (x : Txid) (a b : Option Nat) :
    (r.after now (.storeSpenderPayouts x a b)).intoRecord = Memory.storeSpenderPayouts r.intoRecord x a b := by
  have hp : r.intoRecord.spendingTxid = r.spendingTxid := rfl
  by_cases hx : r.spendingTxid = some x
  · rw [memory_storeSpenderPayouts (hp.trans hx), Row.after, Row.update, Row.storeSpenderPayouts, if_pos hx]
    rfl
  · simp [Row.after, Row.update, Row.storeSpenderPayouts, Memory.storeSpenderPayouts, hp, hx]

end

/-! ## The sequences -/

def Row.Moves (r : Row) : Call → Prop
  | .markSpent x confirmed _ _ _ => (confirmed = true ∨ r.spentConfirmed = false) ∧ r.spendingTxid ≠ some x
  | .displaceSpendFor x y _ _ => (r.spendingTxid = some x ∧ r.spentConfirmed = false) ∧ x ≠ y
  | .markSpentIfUnpointed _ _ => r.spent = false ∧ r.spendingTxid = none ∧ r.spentConfirmed = false
  | _ => False

/-- Payouts of the live spender come after its facts, as `output_spent` writes them; a readmission's second statement runs. -/
def Row.Ordered (r : Row) : Call → Prop
  | .storeSpenderPayouts x _ _ => r.spendingTxid = some x → r.spenderFactsTxid = some x
  | .storeRecord _ fills => fills = true
  | _ => True

def Row.Meets (r : Row) (c : Call) : Prop := r.Moves c → r.spenderPayASats = none ∧ r.spenderPayBSats = none

def Row.OrderedAll (r : Row) : List (Call × Nat) → Prop
  | [] => True
  | m :: ms => r.Ordered m.1 ∧ (r.after m.2 m.1).OrderedAll ms

def Row.MeetsAll (r : Row) : List (Call × Nat) → Prop
  | [] => True
  | m :: ms => r.Meets m.1 ∧ (r.after m.2 m.1).MeetsAll ms

structure Stores where
  row : Row
  memory : PotRecord
  log : List Call := []

def Stores.step (s : Stores) (m : Call × Nat) : Stores := ⟨s.row.after m.2 m.1, Memory.exec s.memory m.1, m.1 :: s.log⟩

def Stores.run (s : Stores) (calls : List (Call × Nat)) : Stores := calls.foldl Stores.step s

namespace Call

def payA (x : Txid) (n : Nat) : Call → Prop
  | .storeSpenderPayouts y a _ => y = x ∧ a = some n
  | _ => False

def payB (x : Txid) (n : Nat) : Call → Prop
  | .storeSpenderPayouts y _ b => y = x ∧ b = some n
  | _ => False

end Call

structure Payouts (log : List Call) (r : Row) : Prop where
  payA : ∀ n, r.spenderPayASats = some n → ∃ x, r.spendingTxid = some x ∧ ∃ c ∈ log, c.payA x n
  payB : ∀ n, r.spenderPayBSats = some n → ∃ x, r.spendingTxid = some x ∧ ∃ c ∈ log, c.payB x n

def Row.Described (r : Row) : Prop :=
  (r.spenderPayASats = none ∧ r.spenderPayBSats = none) ∨ ∃ x, r.spendingTxid = some x ∧ r.spenderFactsTxid = some x

section
variable {r : Row} {log : List Call} {now : Nat} {c : Call}

theorem Payouts.cons (h : Payouts log r) (c : Call) : Payouts (c :: log) r := by
  constructor
  · intro n hn
    obtain ⟨x, hx, d, hd, hp⟩ := h.payA n hn
    exact ⟨x, hx, d, List.mem_cons_of_mem c hd, hp⟩
  · intro n hn
    obtain ⟨x, hx, d, hd, hp⟩ := h.payB n hn
    exact ⟨x, hx, d, List.mem_cons_of_mem c hd, hp⟩

theorem payouts_none (ha : r.spenderPayASats = none) (hb : r.spenderPayBSats = none) : Payouts log r :=
  ⟨fun n hn => absurd hn (by simp [ha]), fun n hn => absurd hn (by simp [hb])⟩

theorem after_eq (r : Row) (now : Nat) (c : Call) : r.after now c = r ∨ ∃ r', r.update now c = some r' ∧ r.after now c = r' := by
  cases h : r.update now c with
  | none => exact Or.inl (by simp [Row.after, h])
  | some r' => exact Or.inr ⟨r', rfl, by simp [Row.after, h]⟩

theorem agree_after (ho : r.Ordered c) (hd : r.Described) : (r.after now c).intoRecord = Memory.exec r.intoRecord c := by
  cases c with
  | storeRecord record fills =>
    obtain rfl : fills = true := ho
    exact agree_storeRecord r now record
  | markSpent x confirmed verdict height final => exact agree_markSpent r now x confirmed verdict height final
  | markVerdictForSpender x verdict => exact agree_guarded Iff.rfl fun _ => rfl
  | displaceSpendFor x y height final => exact agree_guarded And.comm fun _ => rfl
  | markSpentIfUnpointed x final => exact agree_guarded Iff.rfl fun _ => rfl
  | markConfirmedForSpender x height =>
    apply agree_guarded Iff.rfl
    intro _
    cases height <;> rfl
  | demoteConfirmedForSpender x => exact agree_guarded And.comm fun _ => rfl
  | demoteConfirmedForSpenderAt x judged =>
    apply agree_guarded
    · exact ⟨fun ⟨h1, h2, h3⟩ => ⟨h2, h1, h3⟩, fun ⟨h1, h2, h3⟩ => ⟨h2, h1, h3⟩⟩
    · exact fun _ => rfl
  | reanchorConfirmedForSpender x height => exact agree_guarded And.comm fun _ => rfl
  | storeSpenderFacts x facts =>
    apply (agree_storeSpenderFacts r now x facts).mpr
    intro hx hf
    refine hd.resolve_right ?_
    rintro ⟨y, hy, hfy⟩
    rw [hx] at hy
    exact hf (hy ▸ hfy)
  | storeSpenderPayouts x a b => exact agree_storeSpenderPayouts r now x a b

theorem after_payouts (r : Row) (now : Nat) (c : Call) :
    (∃ x a b, c = .storeSpenderPayouts x a b ∧ r.spendingTxid = some x ∧ (r.after now c).spendingTxid = some x ∧
      (r.after now c).spenderFactsTxid = r.spenderFactsTxid ∧
      (r.after now c).spenderPayASats = r.spenderPayASats.or a ∧ (r.after now c).spenderPayBSats = r.spenderPayBSats.or b) ∨
    ((r.after now c).spenderPayASats = r.spenderPayASats ∧ (r.after now c).spenderPayBSats = r.spenderPayBSats ∧
      (r.Moves c ∨ ((r.after now c).spendingTxid = r.spendingTxid ∧
        ((r.after now c).spenderFactsTxid = r.spenderFactsTxid ∨ (r.after now c).spenderFactsTxid = r.spendingTxid)))) := by
  rcases after_eq r now c with h | ⟨r', hu, h⟩
  · rw [h]
    exact Or.inr ⟨rfl, rfl, Or.inr ⟨rfl, Or.inl rfl⟩⟩
  rw [h]
  cases c with
  | storeRecord record fills =>
    obtain rfl := Option.some.inj hu
    rw [readmitted]
    exact Or.inr ⟨rfl, rfl, Or.inr ⟨rfl, Or.inl rfl⟩⟩
  | markSpent x confirmed verdict height final =>
    have hkept : (r.spendWritten x verdict final now).spenderPayASats = r.spenderPayASats ∧
        (r.spendWritten x verdict final now).spenderPayBSats = r.spenderPayBSats := by
      cases verdict <;> exact ⟨rfl, rfl⟩
    obtain ⟨hpointer, -⟩ := r.spendWritten_pointer x verdict final now
    have hftx := (spendWritten_kept r x verdict final now).2.1
    have hmoves : (confirmed = true ∨ r.spentConfirmed = false) →
        (r.Moves (.markSpent x confirmed verdict height final) ∨ (r.spendWritten x verdict final now).spendingTxid = r.spendingTxid) := by
      intro hw
      by_cases hx : r.spendingTxid = some x
      · exact Or.inr (hpointer.trans hx.symm)
      · exact Or.inl ⟨hw, hx⟩
    rcases markSpent_some hu with ⟨hc, rfl⟩ | ⟨-, hc, rfl⟩
    · exact Or.inr ⟨hkept.1, hkept.2, (hmoves (Or.inl hc)).imp_right fun hp => ⟨hp, Or.inl hftx⟩⟩
    · exact Or.inr ⟨hkept.1, hkept.2, (hmoves (Or.inr hc)).imp_right fun hp => ⟨hp, Or.inl hftx⟩⟩
  | displaceSpendFor x y height final =>
    obtain ⟨hg, rfl⟩ := guarded hu
    refine Or.inr ⟨rfl, rfl, ?_⟩
    by_cases hxy : x = y
    · exact Or.inr ⟨by rw [hg.1, hxy]; rfl, Or.inl rfl⟩
    · exact Or.inl ⟨hg, hxy⟩
  | markSpentIfUnpointed x final =>
    obtain ⟨hg, rfl⟩ := guarded hu
    exact Or.inr ⟨rfl, rfl, Or.inl hg⟩
  | markVerdictForSpender x verdict =>
    obtain ⟨-, rfl⟩ := guarded hu
    exact Or.inr ⟨rfl, rfl, Or.inr ⟨rfl, Or.inl rfl⟩⟩
  | markConfirmedForSpender x height =>
    obtain ⟨-, rfl⟩ := guarded hu
    exact Or.inr ⟨rfl, rfl, Or.inr ⟨rfl, Or.inl rfl⟩⟩
  | demoteConfirmedForSpender x =>
    obtain ⟨-, rfl⟩ := guarded hu
    exact Or.inr ⟨rfl, rfl, Or.inr ⟨rfl, Or.inl rfl⟩⟩
  | demoteConfirmedForSpenderAt x judged =>
    obtain ⟨-, rfl⟩ := guarded hu
    exact Or.inr ⟨rfl, rfl, Or.inr ⟨rfl, Or.inl rfl⟩⟩
  | reanchorConfirmedForSpender x height =>
    obtain ⟨-, rfl⟩ := guarded hu
    exact Or.inr ⟨rfl, rfl, Or.inr ⟨rfl, Or.inl rfl⟩⟩
  | storeSpenderFacts x facts =>
    obtain ⟨hx, rfl⟩ := guarded hu
    exact Or.inr ⟨rfl, rfl, Or.inr ⟨rfl, Or.inr hx.symm⟩⟩
  | storeSpenderPayouts x a b =>
    obtain ⟨hx, rfl⟩ := guarded hu
    exact Or.inl ⟨x, a, b, rfl, hx, hx, rfl, rfl, rfl⟩

theorem described_after (ho : r.Ordered c) (hm : r.Meets c) (hd : r.Described) : (r.after now c).Described := by
  rcases after_payouts r now c with ⟨x, a, b, rfl, hx, hp, hf, -, -⟩ | ⟨ha, hb, hmoves | ⟨hp, hf⟩⟩
  · exact Or.inr ⟨x, hp, hf.trans (ho hx)⟩
  · exact Or.inl ⟨ha.trans (hm hmoves).1, hb.trans (hm hmoves).2⟩
  · rcases hd with ⟨hna, hnb⟩ | ⟨x, hx, hfx⟩
    · exact Or.inl ⟨ha.trans hna, hb.trans hnb⟩
    · exact Or.inr ⟨x, hp.trans hx, hf.elim (·.trans hfx) (·.trans hx)⟩

theorem payouts_after (hm : r.Meets c) (h : Payouts log r) : Payouts (c :: log) (r.after now c) := by
  have hc := h.cons c
  rcases after_payouts r now c with ⟨x, a, b, rfl, hx, hp, -, ha, hb⟩ | ⟨ha, hb, hmoves | ⟨hp, -⟩⟩
  · constructor
    · intro n hn
      refine ⟨x, hp, ?_⟩
      rcases Option.or_eq_some_iff.mp (ha.symm.trans hn) with hn | ⟨-, hn⟩
      · obtain ⟨y, hy, hd⟩ := hc.payA n hn
        obtain rfl : x = y := Option.some.inj (hx.symm.trans hy)
        exact hd
      · exact ⟨_, List.mem_cons_self .., rfl, hn⟩
    · intro n hn
      refine ⟨x, hp, ?_⟩
      rcases Option.or_eq_some_iff.mp (hb.symm.trans hn) with hn | ⟨-, hn⟩
      · obtain ⟨y, hy, hd⟩ := hc.payB n hn
        obtain rfl : x = y := Option.some.inj (hx.symm.trans hy)
        exact hd
      · exact ⟨_, List.mem_cons_self .., rfl, hn⟩
  · exact payouts_none (ha.trans (hm hmoves).1) (hb.trans (hm hmoves).2)
  · constructor
    · intro n hn
      rw [hp]
      exact hc.payA n (ha.symm.trans hn)
    · intro n hn
      rw [hp]
      exact hc.payB n (hb.symm.trans hn)

end

theorem stores_run {s : Stores} (calls : List (Call × Nat)) (ho : s.row.OrderedAll calls) (hm : s.row.MeetsAll calls)
    (ha : s.memory = s.row.intoRecord) (hd : s.row.Described) (hp : Payouts s.log s.row) :
    (s.run calls).memory = (s.run calls).row.intoRecord ∧ Payouts (s.run calls).log (s.run calls).row := by
  induction calls generalizing s with
  | nil => exact ⟨ha, hp⟩
  | cons m ms ih =>
    refine ih ho.2 hm.2 ?_ (described_after ho.1 hm.1 hd) (payouts_after hm.1 hp)
    rw [Stores.step, ha]
    exact (agree_after ho.1 hd).symm

/-- On an admitted row without payouts, in every run whose calls move the pointer only while no payout is stored, the two
stores answer the same record and its payouts are of the spender it points at. -/
theorem payouts_ride_pointer (r : Row) (hr : r.spenderPayASats = none ∧ r.spenderPayBSats = none) (calls : List (Call × Nat))
    (ho : r.OrderedAll calls) (hm : r.MeetsAll calls) :
    (Stores.run ⟨r, r.intoRecord, []⟩ calls).memory = (Stores.run ⟨r, r.intoRecord, []⟩ calls).row.intoRecord ∧
      Payouts (Stores.run ⟨r, r.intoRecord, []⟩ calls).log (Stores.run ⟨r, r.intoRecord, []⟩ calls).row :=
  stores_run calls ho hm rfl (Or.inl hr) (payouts_none hr.1 hr.2)

private def admitted : Row := Row.inserted { txid := "aa", outputIndex := 0 } 1

/-- `output_spent` of one spender: the pointer, its facts, its payouts. -/
private def spentBy (x : Txid) (confirmed : Bool) (a b : Nat) : List (Call × Nat) :=
  [(.markSpent x confirmed none none (some true), 2), (.storeSpenderFacts x ⟨100, none⟩, 2), (.storeSpenderPayouts x (some a) (some b), 2)]

/-- A first spender is described; a second is confirmed in its place, and measured. -/
private def replaced : List (Call × Nat) := (spentBy "s1" false 10 0).take 2 ++ spentBy "s2" true 0 10

theorem payouts_ride_pointer_replaced :
    (Stores.run ⟨admitted, admitted.intoRecord, []⟩ replaced).row.spendingTxid = some "s2" ∧
      Payouts (Stores.run ⟨admitted, admitted.intoRecord, []⟩ replaced).log (Stores.run ⟨admitted, admitted.intoRecord, []⟩ replaced).row :=
  ⟨by decide, (payouts_ride_pointer admitted ⟨rfl, rfl⟩ replaced ⟨trivial, trivial, trivial, trivial, fun _ => rfl, trivial⟩
    ⟨fun _ => ⟨rfl, rfl⟩, fun h => h.elim, fun _ => ⟨rfl, rfl⟩, fun h => h.elim, fun h => h.elim, trivial⟩).2⟩

/-- Another spender is confirmed, described and measured: the row keeps what the first one paid. -/
theorem payouts_stay : ¬∀ (r : Row) (calls : List (Call × Nat)), r.spenderPayASats = none ∧ r.spenderPayBSats = none → r.OrderedAll calls →
    (Stores.run ⟨r, r.intoRecord, []⟩ calls).memory = (Stores.run ⟨r, r.intoRecord, []⟩ calls).row.intoRecord ∧
      Payouts (Stores.run ⟨r, r.intoRecord, []⟩ calls).log (Stores.run ⟨r, r.intoRecord, []⟩ calls).row := by
  intro h
  have hs := (h admitted (spentBy "s1" false 10 0 ++ spentBy "s2" true 0 10) ⟨rfl, rfl⟩
    ⟨trivial, trivial, fun _ => rfl, trivial, trivial, fun _ => rfl, trivial⟩).1
  have hpay := congrArg PotRecord.spenderPayASats hs
  revert hpay
  decide

end OverlayEngine.Pot
