import OverlayEngine.Pot.SpendReplayKept

/-!
# What the second telling adds

Records without their times, and rows of bytes without theirs. There each write of
the hook is a function that adds nothing to its own result, so that the writes of
a telling absorb those of the one cut short before it.
-/

namespace OverlayEngine.Pot.SpendReplay

open ArcadeReorg (eqIgnoreAsciiCase)
open Reverify (lowercase)
open PassWrites (Reader)

/-! ## Records -/

def recorded (call : Call) (p : PotRecord) : PotRecord := (Row.after { toPotRecord := p, createdAt := 0 } 0 call).intoRecord

theorem after_recorded (r : Row) (now : Nat) (call : Call) : (r.after now call).intoRecord = recorded call r.intoRecord := by
  obtain ⟨p, createdAt, spentAt, firstSpentAt⟩ := r
  cases call <;> simp only [recorded, Row.after, Row.update, Row.intoRecord]
  case storeRecord record fills =>
    simp only [Option.getD_some, Row.storeRecord]
    split <;> rfl
  case markSpent x confirmed verdict height final =>
    simp only [Row.markSpent]
    cases confirmed <;> cases verdict <;> simp only [Row.spendWritten] <;> split <;> first | rfl | (split <;> rfl)
  all_goals
    simp only [Row.markVerdictForSpender, Row.displaceSpendFor, Row.markSpentIfUnpointed, Row.markConfirmedForSpender, Row.demoteConfirmedForSpender,
      Row.demoteConfirmedForSpenderAt, Row.reanchorConfirmedForSpender, Row.storeSpenderFacts, Row.storeSpenderPayouts]
    split <;> rfl

def execRecord (call : Call) : Option PotRecord → Option PotRecord
  | some p => some (recorded call p)
  | none => match call with
    | .storeRecord record fills => some (Row.storeRecord none record 0 fills).intoRecord
    | _ => none

theorem exec_recorded (row : Option Row) (now : Nat) (call : Call) : (Pot.exec row now call).map Row.intoRecord = execRecord call (row.map Row.intoRecord) := by
  cases row with
  | some r => exact congrArg some (after_recorded r now call)
  | none =>
    cases call <;> try rfl
    simp only [Pot.exec, execRecord, Row.storeRecord, Option.map_some]
    split <;> rfl

theorem recordOf_exec (s : Store) (o : Outpoint) (now : Nat) (call : Call) : (s.exec o now call).recordOf o = execRecord call (s.recordOf o) := by
  simp only [Store.recordOf, Store.exec, Function.update_self]
  exact exec_recorded _ _ _

theorem recordOf_exec_other (s : Store) {o o' : Outpoint} (now : Nat) (call : Call) (h : o' ≠ o) : (s.exec o now call).recordOf o' = s.recordOf o' := by
  simp only [Store.recordOf, Store.exec, Function.update_of_ne h]

theorem recorded_markSpent (p : PotRecord) (x : Txid) (confirmed : Bool) (verdict : Option VerdictWrite) (height : Option Nat) (final : Option Bool) :
    recorded (.markSpent x confirmed verdict height final) p = Memory.markSpent p x confirmed verdict height final := agree_markSpent { toPotRecord := p, createdAt := 0 } 0 ..

theorem markSpent_again (p : PotRecord) (x : Txid) (confirmed : Bool) (verdict : Option VerdictWrite) (height : Option Nat) (final : Option Bool) :
    Memory.markSpent (Memory.markSpent p x confirmed verdict height final) x confirmed verdict height final = Memory.markSpent p x confirmed verdict height final := by
  cases confirmed with
  | true =>
    by_cases hx : p.spendingTxid = some x <;> cases verdict <;> cases height <;> cases final <;> simp [Memory.markSpent, Memory.wrote, hx]
  | false =>
    by_cases hc : p.spentConfirmed = false
    · by_cases hx : p.spendingTxid = some x <;> cases verdict <;> cases final <;> simp [Memory.markSpent, Memory.wrote, hx, hc]
    · simp [Memory.markSpent, hc]

def withSpender (p d : PotRecord) : PotRecord :=
  { p with
    spenderFactsTxid := d.spenderFactsTxid
    spenderSizeBytes := d.spenderSizeBytes
    spenderFeeSats := d.spenderFeeSats
    spenderPayASats := d.spenderPayASats
    spenderPayBSats := d.spenderPayBSats }

theorem markSpent_withSpender (p d : PotRecord) (x : Txid) (confirmed : Bool) (verdict : Option VerdictWrite) (height : Option Nat) (final : Option Bool) :
    Memory.markSpent (withSpender p d) x confirmed verdict height final = withSpender (Memory.markSpent p x confirmed verdict height final) d := by
  have hp : (withSpender p d).spendingTxid = p.spendingTxid := rfl
  have hc : (withSpender p d).spentConfirmed = p.spentConfirmed := rfl
  simp only [Memory.markSpent, hp, hc]
  cases confirmed with
  | true =>
    generalize decide (p.spendingTxid = some x) = same
    cases same <;> cases verdict <;> cases height <;> cases final <;> rfl
  | false =>
    generalize decide (p.spendingTxid = some x) = same
    by_cases hs : p.spentConfirmed = false
    · simp only [if_pos hs]
      cases same <;> cases verdict <;> cases final <;> rfl
    · simp only [if_neg hs]
      rfl

def unfunded (p : PotRecord) : PotRecord := { p with fundingSizeBytes := none, fundingFeeSats := none }

theorem markSpent_unfunded (p : PotRecord) (x : Txid) (confirmed : Bool) (verdict : Option VerdictWrite) (height : Option Nat) (final : Option Bool) :
    Memory.markSpent (unfunded p) x confirmed verdict height final = unfunded (Memory.markSpent p x confirmed verdict height final) := by
  have hp : (unfunded p).spendingTxid = p.spendingTxid := rfl
  have hc : (unfunded p).spentConfirmed = p.spentConfirmed := rfl
  simp only [Memory.markSpent, hp, hc]
  cases confirmed with
  | true =>
    generalize decide (p.spendingTxid = some x) = same
    cases same <;> cases verdict <;> cases height <;> cases final <;> rfl
  | false =>
    generalize decide (p.spendingTxid = some x) = same
    by_cases hs : p.spentConfirmed = false
    · simp only [if_pos hs]
      cases same <;> cases verdict <;> cases final <;> rfl
    · simp only [if_neg hs]
      rfl

def admission (p : PotRecord) : PotRecord :=
  { txid := p.txid
    outputIndex := p.outputIndex
    lockKind := p.lockKind
    pubA := p.pubA
    pubB := p.pubB
    pubTower := p.pubTower
    payPkhA := p.payPkhA
    payPkhB := p.payPkhB
    rakePkh := p.rakePkh
    stakeA := p.stakeA
    stakeB := p.stakeB
    feeSats := p.feeSats
    recoveryHeight := p.recoveryHeight
    potSats := p.potSats }

theorem admission_markSpent (p : PotRecord) (x : Txid) (confirmed : Bool) (verdict : Option VerdictWrite) (height : Option Nat) (final : Option Bool) :
    admission (Memory.markSpent p x confirmed verdict height final) = admission p := by
  simp only [Memory.markSpent]
  generalize decide (p.spendingTxid = some x) = same
  cases confirmed with
  | true => cases same <;> cases verdict <;> cases height <;> cases final <;> rfl
  | false =>
    by_cases hs : p.spentConfirmed = false
    · simp only [if_pos hs]
      cases same <;> cases verdict <;> cases final <;> rfl
    · simp only [if_neg hs]
      rfl

section
variable (x : Txid) (facts : Option TxFacts) (payA payB : Option Nat)

theorem recorded_storeSpenderFacts (f : TxFacts) (p : PotRecord) :
    recorded (.storeSpenderFacts x f) p = if p.spendingTxid = some x then
      { p with
        spenderSizeBytes := if p.spenderFactsTxid = some x then p.spenderSizeBytes.or (some f.sizeBytes) else some f.sizeBytes
        spenderFeeSats := if p.spenderFactsTxid = some x then p.spenderFeeSats.or f.feeSats else f.feeSats
        spenderFactsTxid := some x }
    else p := by
  simp only [recorded, Row.after, Row.update, Row.storeSpenderFacts, Row.intoRecord, decide_eq_true_eq]
  split <;> rfl

theorem recorded_storeSpenderPayouts (p : PotRecord) :
    recorded (.storeSpenderPayouts x payA payB) p = if p.spendingTxid = some x then
      { p with spenderPayASats := p.spenderPayASats.or payA, spenderPayBSats := p.spenderPayBSats.or payB }
    else p := by
  simp only [recorded, Row.after, Row.update, Row.storeSpenderPayouts, Row.intoRecord]
  split <;> rfl

def describedBy (p : PotRecord) : PotRecord :=
  recorded (.storeSpenderPayouts x payA payB) (match facts with
    | none => p
    | some f => recorded (.storeSpenderFacts x f) p)

theorem describedBy_moved {p : PotRecord} (h : p.spendingTxid ≠ some x) : describedBy x facts payA payB p = p := by
  cases facts with
  | none => simp only [describedBy, recorded_storeSpenderPayouts, if_neg h]
  | some f => simp only [describedBy, recorded_storeSpenderFacts, recorded_storeSpenderPayouts, if_neg h]

theorem describedBy_pointed {p : PotRecord} (h : p.spendingTxid = some x) :
    describedBy x facts payA payB p =
      { p with
        spenderSizeBytes := match facts with
          | none => p.spenderSizeBytes
          | some f => if p.spenderFactsTxid = some x then p.spenderSizeBytes.or (some f.sizeBytes) else some f.sizeBytes
        spenderFeeSats := match facts with
          | none => p.spenderFeeSats
          | some f => if p.spenderFactsTxid = some x then p.spenderFeeSats.or f.feeSats else f.feeSats
        spenderFactsTxid := match facts with
          | none => p.spenderFactsTxid
          | some _ => some x
        spenderPayASats := p.spenderPayASats.or payA
        spenderPayBSats := p.spenderPayBSats.or payB } := by
  cases facts with
  | none => simp only [describedBy, recorded_storeSpenderPayouts, if_pos h]
  | some f => simp only [describedBy, recorded_storeSpenderFacts, recorded_storeSpenderPayouts, if_pos h]

theorem describedBy_frame (p : PotRecord) : withSpender p (describedBy x facts payA payB p) = describedBy x facts payA payB p := by
  by_cases h : p.spendingTxid = some x
  · rw [describedBy_pointed x facts payA payB h]
    rfl
  · rw [describedBy_moved x facts payA payB h]
    rfl

theorem or_or {α : Type} (a b : Option α) : (a.or b).or b = a.or b := by
  cases a <;> cases b <;> rfl

theorem describedBy_again (p : PotRecord) : describedBy x facts payA payB (describedBy x facts payA payB p) = describedBy x facts payA payB p := by
  by_cases h : p.spendingTxid = some x
  · have hd : (describedBy x facts payA payB p).spendingTxid = some x := by
      rw [← describedBy_frame]
      exact h
    rw [describedBy_pointed x facts payA payB hd, describedBy_pointed x facts payA payB h]
    cases facts with
    | none => simp only [or_or]
    | some f =>
      simp only [if_true, or_or]
      split <;> simp [or_or]
  · rw [describedBy_moved x facts payA payB h, describedBy_moved x facts payA payB h]

theorem describedBy_unfunded (p : PotRecord) : describedBy x facts payA payB (unfunded p) = unfunded (describedBy x facts payA payB p) := by
  by_cases h : p.spendingTxid = some x
  · rw [describedBy_pointed x facts payA payB h, describedBy_pointed (p := unfunded p) x facts payA payB h]
    rfl
  · rw [describedBy_moved x facts payA payB h, describedBy_moved (p := unfunded p) x facts payA payB h]

theorem admission_describedBy (p : PotRecord) : admission (describedBy x facts payA payB p) = admission p := by
  rw [← describedBy_frame]
  rfl

theorem recorded_noPayouts (p : PotRecord) : recorded (.storeSpenderPayouts x none none) p = p := by
  rw [recorded_storeSpenderPayouts]
  split <;> simp

end

/-! ## Bytes -/

def Store.bytesOf (s : Store) (txid : Txid) : Option PotBeefs.Row := (s.beefs txid).map fun r => { r with createdAt := none }

/-- `store_beef` writes nothing over this row. -/
def keeps (beef : Bytes) (row : Option PotBeefs.Row) : Bool :=
  row.any PotBeefs.Row.proofVerified || !PotBeefs.beefWriteAllowed (row.map fun r => r.beef.length) beef.length

def stored (hasProof : Bool) (beef : Bytes) (row : Option PotBeefs.Row) : Option PotBeefs.Row :=
  if keeps beef row then row
  else some
    { beef
      createdAt := none
      hasProof
      proofVerified := false
      structurallyUnprovable := row.any PotBeefs.Row.structurallyUnprovable
      proofHeight := none }

def retired (spender : Txid) (superseded : List Txid) (txid : Txid) (row : Option PotBeefs.Row) : Option PotBeefs.Row :=
  let cleared := if txid = spender then row.map fun r => { r with structurallyUnprovable := false } else row
  if txid ∈ superseded then cleared.map fun r => if r.proofVerified then r else { r with structurallyUnprovable := true } else cleared

section
variable {μ : Type} (x : Sdk μ) (s : Store) (txid : Txid) (beef : Bytes) (now : Nat)

theorem keeps_bytesOf : keeps beef (s.bytesOf txid) = keeps beef (s.beefs txid) := by
  simp only [keeps, Store.bytesOf, Option.map_map, Option.any_map]
  rfl

theorem bytesOf_storeBeef : (s.storeBeef x txid beef now).bytesOf txid = stored (x.potBeefHasProof txid beef) beef (s.bytesOf txid) := by
  have hk := keeps_bytesOf s txid beef
  simp only [stored, hk]
  simp only [Store.storeBeef, Store.bytesOf, PotBeefs.admitWrite]
  by_cases h : keeps beef (s.beefs txid) = true
  · rw [if_pos h]
    simp only [keeps] at h
    rw [if_pos h]
  · rw [if_neg h]
    simp only [keeps] at h
    rw [if_neg h]
    simp [Option.any_map]

theorem bytesOf_storeBeef_other {t : Txid} (h : t ≠ txid) : (s.storeBeef x txid beef now).bytesOf t = s.bytesOf t := by
  simp only [Store.storeBeef]
  split
  · rfl
  · simp only [Store.bytesOf, PotBeefs.admitWrite, Function.update_of_ne h]

theorem bytesOf_retire (spender : Txid) (superseded : List Txid) : (s.retire spender superseded).bytesOf txid = retired spender superseded txid (s.bytesOf txid) := by
  simp only [Store.bytesOf, Store.retire, retired]
  split <;> split <;> simp only [Option.map_map] <;> congr 1 <;> funext r <;> simp only [Function.comp] <;> split <;> rfl

end

theorem keeps_retired (spender : Txid) (superseded : List Txid) (txid : Txid) (beef : Bytes) (row : Option PotBeefs.Row) :
    keeps beef (retired spender superseded txid row) = keeps beef row := by
  cases row with
  | none => simp [retired]
  | some r =>
    simp only [keeps, retired]
    split <;> split <;> simp <;> split <;> rfl

theorem keeps_stored_self (hasProof : Bool) (beef : Bytes) (row : Option PotBeefs.Row) : keeps beef (stored hasProof beef row) = true := by
  rw [stored]
  split
  · assumption
  · simp [keeps, PotBeefs.beefWriteAllowed]

theorem keeps_stored (hasProof : Bool) (beef other : Bytes) (row : Option PotBeefs.Row) (h : keeps beef row = true) : keeps beef (stored hasProof other row) = true := by
  rw [stored]
  split
  · exact h
  · rename_i ho
    cases row with
    | none =>
      have hb : beef = [] := by simpa [keeps, PotBeefs.beefWriteAllowed] using h
      simp [keeps, PotBeefs.beefWriteAllowed, hb]
    | some r =>
      simp only [keeps, PotBeefs.beefWriteAllowed, Option.any_some, Option.map_some, Option.all_some, Bool.or_eq_true, Bool.not_eq_true',
        Bool.and_eq_false_iff, decide_eq_false_iff_not, not_or, not_lt, Option.any_some] at h ho ⊢
      rcases h with h | h | h
      · exact absurd h ho.1
      · exact Or.inr (Or.inl h)
      · exact Or.inr (Or.inr (by omega))

theorem stored_keeps {hasProof : Bool} {beef : Bytes} {row : Option PotBeefs.Row} (h : keeps beef row = true) : stored hasProof beef row = row := if_pos h

theorem retired_again (spender : Txid) (superseded : List Txid) (txid : Txid) (row : Option PotBeefs.Row) :
    retired spender superseded txid (retired spender superseded txid row) = retired spender superseded txid row := by
  cases row with
  | none => simp [retired]
  | some r =>
    simp only [retired]
    split <;> split <;> simp <;> split <;> simp_all

theorem retired_stored {spender : Txid} {superseded : List Txid} (hno : spender ∉ superseded) (hasProof : Bool) (beef : Bytes) (row : Option PotBeefs.Row)
    (h : retired spender superseded spender row = row) : retired spender superseded spender (stored hasProof beef row) = stored hasProof beef row := by
  rw [stored]
  split
  · exact h
  · cases row with
    | none => simp [retired, hno]
    | some r =>
      have hr : r.structurallyUnprovable = false := by
        simp only [retired, if_true, if_neg hno, Option.map_some, Option.some.injEq] at h
        rw [← h]
      simp [retired, hno, hr]

/-! ## Stores alike -/

structure Alike (s t : Store) : Prop where
  records : ∀ o, s.recordOf o = t.recordOf o
  bytes : ∀ txid, s.bytesOf txid = t.bytesOf txid

section
variable {s t u : Store}

theorem Alike.refl (s : Store) : Alike s s := ⟨fun _ => rfl, fun _ => rfl⟩

theorem Alike.trans (h : Alike s t) (h' : Alike t u) : Alike s u := ⟨fun o => (h.records o).trans (h'.records o), fun x => (h.bytes x).trans (h'.bytes x)⟩

theorem alike_exec (h : Alike s t) (o : Outpoint) (now now' : Nat) (call : Call) : Alike (s.exec o now call) (t.exec o now' call) := by
  refine ⟨fun o' => ?_, h.bytes⟩
  by_cases ho : o' = o
  · rw [ho, recordOf_exec, recordOf_exec, h.records]
  · rw [recordOf_exec_other _ _ _ ho, recordOf_exec_other _ _ _ ho, h.records]

theorem alike_storeBeef {μ : Type} {x : Sdk μ} (h : Alike s t) (txid : Txid) (beef : Bytes) (now now' : Nat) :
    Alike (s.storeBeef x txid beef now) (t.storeBeef x txid beef now') := by
  refine ⟨fun o => by rw [recordOf_storeBeef, recordOf_storeBeef, h.records], fun y => ?_⟩
  by_cases hy : y = txid
  · rw [hy, bytesOf_storeBeef, bytesOf_storeBeef, h.bytes]
  · rw [bytesOf_storeBeef_other _ _ _ _ _ hy, bytesOf_storeBeef_other _ _ _ _ _ hy, h.bytes]

end

end OverlayEngine.Pot.SpendReplay
