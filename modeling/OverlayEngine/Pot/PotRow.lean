import OverlayEngine.Types

/-!
# A pot's row

One row of `pot_records` and the statements that write it. The row's columns are
the fields of a `PotRecord`, which is what a read answers, and three times. Each
guarded update answers no row where its `WHERE` misses.
-/

namespace OverlayEngine.Pot

structure PotRecord where
  txid : Txid
  outputIndex : Nat
  spent : Bool := false
  spendingTxid : Option Txid := none
  spentConfirmed : Bool := false
  lockKind : Option String := none
  pubA : Option String := none
  pubB : Option String := none
  pubTower : Option String := none
  payPkhA : Option String := none
  payPkhB : Option String := none
  rakePkh : Option String := none
  stakeA : Option Nat := none
  stakeB : Option Nat := none
  feeSats : Option Nat := none
  recoveryHeight : Option Nat := none
  potSats : Option Nat := none
  paramsDecoded : Bool := false
  verdict : Option String := none
  verdictTxid : Option Txid := none
  spentHeight : Option Nat := none
  spenderFinal : Option Bool := none
  settleSigners : Option String := none
  fundingSizeBytes : Option Nat := none
  fundingFeeSats : Option Nat := none
  spenderFactsTxid : Option Txid := none
  spenderSizeBytes : Option Nat := none
  spenderFeeSats : Option Nat := none
  spenderPayASats : Option Nat := none
  spenderPayBSats : Option Nat := none
  deriving DecidableEq

/-- A row of `pot_records`. -/
structure Row extends PotRecord where
  createdAt : Nat
  spentAt : Option Nat := none
  firstSpentAt : Option Nat := none
  deriving DecidableEq

structure VerdictWrite where
  verdict : String
  settleSigners : Option String
  deriving DecidableEq

structure TxFacts where
  sizeBytes : Nat
  feeSats : Option Nat
  deriving DecidableEq

def riding {α : Type} (same : Bool) (incoming stored : Option α) : Option α := if same then incoming.or stored else incoming

theorem riding_some {α : Type} (same : Bool) (a : α) (stored : Option α) : riding same (some a) stored = some a := by
  cases same <;> rfl

theorem eq_of_riding {α : Type} {same : Bool} {incoming stored : Option α} {v : α} (h : riding same incoming stored = some v) :
    incoming = some v ∨ (same = true ∧ stored = some v) := by
  cases same with
  | false => exact Or.inl h
  | true =>
    cases incoming with
    | none => exact Or.inr ⟨rfl, h⟩
    | some _ => exact Or.inl h

namespace Row

def intoRecord (r : Row) : PotRecord := r.toPotRecord

/-- What `store_record` inserts. -/
def inserted (record : PotRecord) (now : Nat) : Row :=
  { txid := record.txid
    outputIndex := record.outputIndex
    spent := record.spent
    spendingTxid := record.spendingTxid
    spentConfirmed := record.spentConfirmed
    createdAt := now
    lockKind := record.lockKind
    pubA := record.pubA
    pubB := record.pubB
    pubTower := record.pubTower
    payPkhA := record.payPkhA
    payPkhB := record.payPkhB
    rakePkh := record.rakePkh
    stakeA := record.stakeA
    stakeB := record.stakeB
    feeSats := record.feeSats
    recoveryHeight := record.recoveryHeight
    potSats := record.potSats
    paramsDecoded := record.paramsDecoded }

/-- `ON CONFLICT DO UPDATE` of `store_record`: an incoming value fills an absent one. -/
def filled (r : Row) (record : PotRecord) : Row :=
  { r with
    lockKind := r.lockKind.or record.lockKind
    pubA := r.pubA.or record.pubA
    pubB := r.pubB.or record.pubB
    pubTower := r.pubTower.or record.pubTower
    payPkhA := r.payPkhA.or record.payPkhA
    payPkhB := r.payPkhB.or record.payPkhB
    rakePkh := r.rakePkh.or record.rakePkh
    stakeA := r.stakeA.or record.stakeA
    stakeB := r.stakeB.or record.stakeB
    feeSats := r.feeSats.or record.feeSats
    recoveryHeight := r.recoveryHeight.or record.recoveryHeight
    potSats := r.potSats.or record.potSats
    paramsDecoded := r.paramsDecoded || record.paramsDecoded }

/-- `pot_funding_facts_fill_sql`. -/
def fundingFacts (r : Row) (record : PotRecord) : Row :=
  { r with
    fundingSizeBytes := r.fundingSizeBytes.or record.fundingSizeBytes
    fundingFeeSats := r.fundingFeeSats.or record.fundingFeeSats }

/-- `store_record`; `fills` whether its second statement, best effort, ran. -/
def storeRecord (row : Option Row) (record : PotRecord) (now : Nat) (fills : Bool) : Row :=
  let r := match row with
    | none => inserted record now
    | some r => r.filled record
  if fills && (record.fundingSizeBytes.isSome || record.fundingFeeSats.isSome) then r.fundingFacts record else r

def pointed (r : Row) (spendingTxid : Txid) (now : Nat) : Row :=
  { r with spent := true, spendingTxid := some spendingTxid, spentAt := some now, firstSpentAt := r.firstSpentAt.or (some now) }

def judged (r : Row) (spendingTxid : Txid) (v : VerdictWrite) : Row :=
  { r with verdict := some v.verdict, verdictTxid := some spendingTxid, settleSigners := v.settleSigners }

/-- The columns of `mark_spent_sql` in every variant: the pointer, the verdict given with it, the finality. -/
def spendWritten (r : Row) (spendingTxid : Txid) (verdict : Option VerdictWrite) (spenderFinal : Option Bool) (now : Nat) : Row :=
  let written := match verdict with
    | some v => (r.pointed spendingTxid now).judged spendingTxid v
    | none => r.pointed spendingTxid now
  { written with spenderFinal := riding (decide (r.spendingTxid = some spendingTxid)) spenderFinal r.spenderFinal }

theorem spendWritten_pointer (r : Row) (x : Txid) (verdict : Option VerdictWrite) (final : Option Bool) (now : Nat) :
    (r.spendWritten x verdict final now).spendingTxid = some x ∧
      (r.spendWritten x verdict final now).firstSpentAt = r.firstSpentAt.or (some now) := by
  cases verdict <;> exact ⟨rfl, rfl⟩

/-- `spentConfirmed = 1` and the height, which rides the pointer. -/
def confirmedWith (r : Row) (spentHeight : Option Nat) : Row := { r with spentConfirmed := true, spentHeight := spentHeight }

/-- `mark_spent_sql`. -/
def markSpent (r : Row) (spendingTxid : Txid) (confirmed : Bool) (verdict : Option VerdictWrite) (spentHeight : Option Nat)
    (spenderFinal : Option Bool) (now : Nat) : Option Row :=
  let written := r.spendWritten spendingTxid verdict spenderFinal now
  if confirmed then some (written.confirmedWith (riding (decide (r.spendingTxid = some spendingTxid)) spentHeight r.spentHeight))
  else if r.spentConfirmed then none else some written

/-- `verdict_cas_sql`. -/
def markVerdictForSpender (r : Row) (spendingTxid : Txid) (v : VerdictWrite) : Option Row :=
  if r.spendingTxid = some spendingTxid then some (r.judged spendingTxid v) else none

/-- `displace_spend_cas_sql`. -/
def displaceSpendFor (r : Row) (fromSpender toSpender : Txid) (spentHeight : Option Nat) (spenderFinal : Option Bool) (now : Nat) : Option Row :=
  if r.spendingTxid = some fromSpender ∧ r.spentConfirmed = false then
    some { r.pointed toSpender now with spentConfirmed := true, spentHeight := spentHeight, spenderFinal := spenderFinal }
  else none

/-- `MARK_SPENT_IF_UNPOINTED_SQL`. -/
def markSpentIfUnpointed (r : Row) (spendingTxid : Txid) (spenderFinal : Option Bool) (now : Nat) : Option Row :=
  if r.spent = false ∧ r.spendingTxid = none ∧ r.spentConfirmed = false then
    some { r.pointed spendingTxid now with spenderFinal := spenderFinal }
  else none

/-- `confirm_spend_cas_sql`. -/
def markConfirmedForSpender (r : Row) (spendingTxid : Txid) (spentHeight : Option Nat) : Option Row :=
  if r.spendingTxid = some spendingTxid then some { r with spent := true, spentConfirmed := true, spentHeight := spentHeight.or r.spentHeight }
  else none

def demoted (r : Row) : Row := { r with spentConfirmed := false, spentHeight := none }

/-- `demote_confirmed_cas_sql`. -/
def demoteConfirmedForSpender (r : Row) (spendingTxid : Txid) : Option Row :=
  if r.spendingTxid = some spendingTxid ∧ r.spentConfirmed = true then some r.demoted else none

/-- `demote_confirmed_at_cas_sql`. -/
def demoteConfirmedForSpenderAt (r : Row) (spendingTxid : Txid) (judgedHeight : Option Nat) : Option Row :=
  if r.spendingTxid = some spendingTxid ∧ r.spentConfirmed = true ∧ r.spentHeight = judgedHeight then some r.demoted else none

/-- `reanchor_confirmed_cas_sql`. -/
def reanchorConfirmedForSpender (r : Row) (spendingTxid : Txid) (newHeight : Nat) : Option Row :=
  if r.spendingTxid = some spendingTxid ∧ r.spentConfirmed = true then some { r with spentHeight := some newHeight } else none

/-- `spender_facts_cas_sql`. -/
def storeSpenderFacts (r : Row) (spendingTxid : Txid) (facts : TxFacts) : Option Row :=
  let same := decide (r.spenderFactsTxid = some spendingTxid)
  if r.spendingTxid = some spendingTxid then
    some { r with
      spenderSizeBytes := if same then r.spenderSizeBytes.or (some facts.sizeBytes) else some facts.sizeBytes
      spenderFeeSats := if same then r.spenderFeeSats.or facts.feeSats else facts.feeSats
      spenderFactsTxid := some spendingTxid }
  else none

/-- `spender_payouts_cas_sql`. -/
def storeSpenderPayouts (r : Row) (spendingTxid : Txid) (payASats payBSats : Option Nat) : Option Row :=
  if r.spendingTxid = some spendingTxid then
    some { r with spenderPayASats := r.spenderPayASats.or payASats, spenderPayBSats := r.spenderPayBSats.or payBSats }
  else none

end Row

/-! ## The writers of a row -/

inductive Call where
  | storeRecord (record : PotRecord) (fills : Bool)
  | markSpent (spendingTxid : Txid) (confirmed : Bool) (verdict : Option VerdictWrite) (spentHeight : Option Nat) (spenderFinal : Option Bool)
  | markVerdictForSpender (spendingTxid : Txid) (verdict : VerdictWrite)
  | displaceSpendFor (fromSpender toSpender : Txid) (spentHeight : Option Nat) (spenderFinal : Option Bool)
  | markSpentIfUnpointed (spendingTxid : Txid) (spenderFinal : Option Bool)
  | markConfirmedForSpender (spendingTxid : Txid) (spentHeight : Option Nat)
  | demoteConfirmedForSpender (spendingTxid : Txid)
  | demoteConfirmedForSpenderAt (spendingTxid : Txid) (judgedHeight : Option Nat)
  | reanchorConfirmedForSpender (spendingTxid : Txid) (newHeight : Nat)
  | storeSpenderFacts (spendingTxid : Txid) (facts : TxFacts)
  | storeSpenderPayouts (spendingTxid : Txid) (payASats payBSats : Option Nat)
  deriving DecidableEq

/-- The update of a call; none where its `WHERE` misses. -/
def Row.update (r : Row) (now : Nat) : Call → Option Row
  | .storeRecord record fills => some (Row.storeRecord (some r) record now fills)
  | .markSpent x confirmed verdict height final => r.markSpent x confirmed verdict height final now
  | .markVerdictForSpender x verdict => r.markVerdictForSpender x verdict
  | .displaceSpendFor x y height final => r.displaceSpendFor x y height final now
  | .markSpentIfUnpointed x final => r.markSpentIfUnpointed x final now
  | .markConfirmedForSpender x height => r.markConfirmedForSpender x height
  | .demoteConfirmedForSpender x => r.demoteConfirmedForSpender x
  | .demoteConfirmedForSpenderAt x judged => r.demoteConfirmedForSpenderAt x judged
  | .reanchorConfirmedForSpender x height => r.reanchorConfirmedForSpender x height
  | .storeSpenderFacts x facts => r.storeSpenderFacts x facts
  | .storeSpenderPayouts x a b => r.storeSpenderPayouts x a b

/-- The row after a call; only `store_record` makes one. -/
def exec (row : Option Row) (now : Nat) (c : Call) : Option Row :=
  match row with
  | some r => some ((r.update now c).getD r)
  | none => match c with
    | .storeRecord record fills => some (Row.storeRecord none record now fills)
    | _ => none

structure World where
  row : Option Row := none
  log : List Call := []

def World.step (w : World) (m : Call × Nat) : World := ⟨exec w.row m.2 m.1, m.1 :: w.log⟩

def World.run (w : World) (calls : List (Call × Nat)) : World := calls.foldl World.step w

end OverlayEngine.Pot
