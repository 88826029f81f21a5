import Mathlib.Data.List.Dedup
import OverlayEngine.Pot.PassWrites
import OverlayEngine.Pot.PotBeefs

/-!
# The spend hook under a fault

`output_spent` of the pot index, storage call by storage call: each answers, or
faults without its effect or after it. A coin the engine held with no record here
is recorded from its own bytes before its pointer is written, and a record
without its bytes has them written first. What was answered an error the engine
tells again.
-/

namespace OverlayEngine.Pot.SpendReplay

open ArcadeReorg (eqIgnoreAsciiCase)
open Reverify (lowercase)
open SpendProof (Transaction RootAnswer SpendingBeef)
open PassWrites (Reader checkedAdd potInput u64Max)

/-! ## What the bytes say -/

def nameMatches (actual base : String) : Bool :=
  base.toList.isPrefixOf actual.toList && match actual.toList.drop base.length with
    | [] => true
    | '_' :: rest => !rest.isEmpty
    | _ => false

structure Entry where
  txid : Txid
  body : Option (Transaction × Nat)

structure Parsed (μ : Type) extends SpendingBeef μ where
  entries : List Entry := []
  /-- By the input's index, the BEEF of the source transaction it carries; none inside where it does not serialize. -/
  carried : Nat → Option (Option Bytes) := fun _ => none

structure Sdk (μ : Type) extends SpendProof.Sdk μ where
  parse : Bytes → Option (Parsed μ)
  parse_nil : parse [] = none
  parse_id : ∀ beef p, parse beef = some p → lowercase p.subject.id = p.subject.id
  toBinaryAtomic : Bytes → Txid → Option Bytes
  potBeefHasProof : Txid → Bytes → Bool

def sourceValue (entries : List Entry) (i : TxInput) : Option Nat := do
  let txid ← i.sourceTxid
  let entry ← entries.find? (·.txid == txid)
  let body ← entry.body
  (body.1.outputs[i.sourceOutputIndex]?).map TxOutput.satoshis

/-- `facts_from_atomic_beef`. -/
def Parsed.facts {μ : Type} (p : Parsed μ) (txid : Txid) : Option TxFacts := do
  let entry ← p.entries.find? (·.txid == txid)
  let (tx, sizeBytes) ← entry.body
  let outSum := (tx.outputs.map TxOutput.satoshis).sum
  let feeSats := match tx.inputs.mapM (sourceValue p.entries) with
    | some (v :: vs) =>
      let inSum := (v :: vs).foldl (fun acc v => min (acc + v) u64Max) 0
      if outSum ≤ inSum then some (inSum - outSum) else none
    | _ => none
  some { sizeBytes, feeSats }

def singleInputPotFee (tx : Transaction) (pot : Outpoint) (potSats : Option Nat) : Option Nat :=
  match potSats, tx.inputs with
  | some potSats, [only] =>
    let outSum := (tx.outputs.map TxOutput.satoshis).sum
    if (only.sourceTxid.any fun t => eqIgnoreAsciiCase t pot.txid) && only.sourceOutputIndex == pot.outputIndex
        && decide (outSum ≤ u64Max) && decide (outSum ≤ potSats) then some (potSats - outSum) else none
  | _, _ => none

/-- `classify_record_spend`, as the hook writes it: a pair not established is absent. -/
def classifyRecordSpend (k : Reader) (r : PotRecord) (tx : Transaction) : Option VerdictWrite := do
  let params ← k.decodedCovenantParams r
  let potSats ← r.potSats
  if checkedAdd params.stakeA params.stakeB ≠ some potSats then none
  else
    let input ← potInput tx r.txid r.outputIndex
    (k.classifyCovenant params tx input.2).map fun verdict => ⟨verdict, k.settleSignersForSpend params potSats tx input.1⟩

/-- `superseded_refund_txids` of the refund markers' raws that parse. -/
def supersededRefundTxids (refunds : List Transaction) (pot : Outpoint) (spender : Txid) : List Txid :=
  ((refunds.filter fun tx => tx.consumes pot && !eqIgnoreAsciiCase tx.id spender).map fun tx => tx.id).dedup

/-! ## The store -/

structure Store where
  records : Outpoint → Option Row
  beefs : PotBeefs.Rows

namespace Store

def recordOf (s : Store) (o : Outpoint) : Option PotRecord := (s.records o).map Row.intoRecord

def exec (s : Store) (o : Outpoint) (now : Nat) (c : Call) : Store := { s with records := Function.update s.records o (Pot.exec (s.records o) now c) }

/-- `retire_superseded_after_confirm`. -/
def retire (s : Store) (spender : Txid) (superseded : List Txid) : Store :=
  { s with
    beefs := fun txid =>
      let cleared := if txid = spender then (s.beefs txid).map fun r => { r with structurallyUnprovable := false } else s.beefs txid
      if txid ∈ superseded then cleared.map fun r => if r.proofVerified then r else { r with structurallyUnprovable := true } else cleared }

def storeBeef {μ : Type} (x : Sdk μ) (s : Store) (txid : Txid) (beef : Bytes) (now : Nat) : Store :=
  let existing := s.beefs txid
  if existing.any PotBeefs.Row.proofVerified || !PotBeefs.beefWriteAllowed (existing.map fun r => r.beef.length) beef.length then s
  else { s with beefs := PotBeefs.admitWrite s.beefs txid beef (x.potBeefHasProof txid beef) now }

end Store

/-! ## The storage calls -/

inductive Site where
  | spentStatus
  | bytesProbe
  | evictionLedger
  | engineCopy
  | record
  | potBytes
  | recorded
  | pointer
  | spenderFacts
  | spenderPayouts
  | spenderBytes
  deriving DecidableEq

/-- The hook's error for a call that faulted with `e`. -/
def Site.storageError (pot : Outpoint) (e : String) : Site → String
  | .spentStatus => s!"pot record read for {pot.txid}:{pot.outputIndex} faulted (not now, bsv-low #936): {e}"
  | .bytesProbe => s!"pot bytes probe for {pot.txid} faulted (not now, bsv-low #936): {e}"
  | .evictionLedger => s!"eviction ledger read for {pot.txid} faulted on the heal path (not now, bsv-low #936): {e}"
  | .engineCopy => s!"the engine's copy of {pot.txid} faulted (not now, bsv-low #936): {e}"
  | _ => e

inductive Fate where
  | ran
  | lost
  | landed (rest : Bool)
  deriving DecidableEq

structure Telling where
  fate : Site → Fate := fun _ => .ran
  now : Site → Nat
  e : String := ""

def clear (now : Site → Nat) : Telling := { now }

def cut (site : Site) (fate : Fate) (now : Site → Nat) (e : String) : Telling := { fate := Function.update (fun _ => .ran) site fate, now, e }

def Hook (α : Type) := Store → Store × Except String α

instance : Monad Hook where
  pure a := fun s => (s, .ok a)
  bind m f := fun s => match m s with
    | (s', .ok a) => f a s'
    | (s', .error e) => (s', .error e)

/-- A storage call; `effect` is told whether what it does best effort runs too. -/
def call {α : Type} (m : Telling) (pot : Outpoint) (site : Site) (effect : Bool → Store → Store) (answer : Store → α) : Hook α := fun s =>
  match m.fate site with
  | .ran => (effect true s, .ok (answer s))
  | .lost => (s, .error (site.storageError pot m.e))
  | .landed rest => (effect rest s, .error (site.storageError pot m.e))

def ask {α : Type} (m : Telling) (pot : Outpoint) (site : Site) (answer : Store → α) : Hook α := call m pot site (fun _ s => s) answer

def tell (m : Telling) (pot : Outpoint) (site : Site) (effect : Bool → Store → Store) : Hook Unit := call m pot site effect fun _ => ()

def bestEffort (h : Hook Unit) : Hook Unit := fun s => ((h s).1, .ok ())

/-! ## The hook -/

structure Around (μ : Type) where
  sdk : Sdk μ
  reader : Reader
  tracked : Bool
  answer : RootAnswer
  /-- `held_transaction_beef`, the engine's stored copy. -/
  engineCopy : Txid → Option Bytes
  /-- The ledger holds an open eviction. -/
  evicted : Txid → Bool
  /-- The refund markers of a pot. -/
  refunds : Outpoint → List Transaction

/-- `OutputSpent::WholeTx`. -/
structure Payload where
  pot : Outpoint
  topic : Topic
  spendingAtomicBeef : Bytes

namespace Around

variable {μ : Type} (c : Around μ)

def covenant (record : PotRecord) (lockBytes : Bytes) : PotRecord :=
  match c.reader.extractCovenantParams lockBytes with
  | some p =>
    { record with
      lockKind := some "covenant"
      pubA := some (c.reader.hexEncode p.pubA)
      pubB := some (c.reader.hexEncode p.pubB)
      pubTower := some (c.reader.hexEncode p.pubTower)
      payPkhA := some (c.reader.hexEncode p.payPkhA)
      payPkhB := some (c.reader.hexEncode p.payPkhB)
      rakePkh := some (c.reader.hexEncode p.rakePkh)
      stakeA := some p.stakeA
      stakeB := some p.stakeB
      feeSats := some p.feeSats
      recoveryHeight := some p.recoveryHeight }
  | none => { record with lockKind := some "covenant" }

/-- The record `output_admitted_by_topic` writes; none where it answers without one. -/
def admitted (beef : Bytes) (outputIndex : Nat) (topic : Topic) : Option PotRecord := do
  guard (nameMatches topic "tm_pot" || nameMatches topic "tm_lowfund")
  let parsed ← c.sdk.parse beef
  let tx := parsed.subject
  let output ← tx.outputs[outputIndex]?
  let isPotTopic := nameMatches topic "tm_pot"
  guard (if isPotTopic then c.reader.isPotCovenantScript output.lockingScript else c.reader.isP2pkhScript output.lockingScript)
  let facts := parsed.facts tx.id
  let record : PotRecord :=
    { txid := tx.id
      outputIndex
      potSats := some output.satoshis
      paramsDecoded := true
      fundingSizeBytes := facts.map TxFacts.sizeBytes
      fundingFeeSats := facts.bind TxFacts.feeSats }
  some (if isPotTopic then c.covenant record output.lockingScript else { record with lockKind := some "p2pkh" })

def key (record : PotRecord) : Outpoint := ⟨record.txid, record.outputIndex⟩

/-- `output_admitted_by_topic` of the pot's bytes. -/
def outputAdmittedByTopic (m : Telling) (pot : Outpoint) (beef : Bytes) (topic : Topic) : Hook Unit :=
  match c.admitted beef pot.outputIndex topic with
  | none => pure ()
  | some record => do
    tell m pot .record fun rest s => s.exec (key record) (m.now .record) (.storeRecord record rest)
    tell m pot .potBytes fun _ s => s.storeBeef c.sdk record.txid beef (m.now .potBytes)

/-- The pot's atomic BEEF out of `bytes`, bound to its id. -/
def boundTo (bytes : Bytes) (txid : Txid) : Option Bytes := do
  let atomic ← c.sdk.toBinaryAtomic bytes txid
  let parsed ← c.sdk.parse atomic
  if eqIgnoreAsciiCase parsed.subject.id txid then some atomic else none

def carriedSource (pot : Outpoint) (spending : Parsed μ) : Option (Option Bytes) :=
  (potInput spending.subject pot.txid pot.outputIndex).bind fun input => spending.carried input.1

def heldOutputBytes (m : Telling) (pot : Outpoint) (spending : Parsed μ) : Hook (Option Bytes) :=
  match carriedSource pot spending with
  | some source => pure (source.bind fun bytes => c.boundTo bytes pot.txid)
  | none => do
    let stored ← ask m pot .engineCopy fun _ => c.engineCopy pot.txid
    pure (stored.bind fun bytes => c.boundTo bytes pot.txid)

def healUnderOpenEviction (m : Telling) (pot : Outpoint) : Hook Bool := ask m pot .evictionLedger fun _ => c.evicted pot.txid

def completeHeldOutputBytes (m : Telling) (pot : Outpoint) (spending : Parsed μ) : Hook Unit := do
  let held ← ask m pot .bytesProbe fun s => (s.beefs pot.txid).isSome
  if held then pure ()
  else
    let evicted ← c.healUnderOpenEviction m pot
    if evicted then pure ()
    else
      let bytes ← c.heldOutputBytes m pot spending
      match bytes with
      | none => pure ()
      | some atomic => tell m pot .potBytes fun _ s => s.storeBeef c.sdk pot.txid atomic (m.now .potBytes)

def recordHeldOutputFromSpender (m : Telling) (pot : Outpoint) (topic : Topic) (spending : Parsed μ) : Hook (Option PotRecord) := do
  let evicted ← c.healUnderOpenEviction m pot
  if evicted then pure none
  else
    let bytes ← c.heldOutputBytes m pot spending
    match bytes with
    | none => pure none
    | some atomic => do
      c.outputAdmittedByTopic m pot atomic topic
      ask m pot .recorded fun s => s.recordOf pot

def mend (m : Telling) (pot : Outpoint) (topic : Topic) (spending : Parsed μ) : Option PotRecord → Hook (Option PotRecord)
  | some record => do
    c.completeHeldOutputBytes m pot spending
    pure (some record)
  | none => c.recordHeldOutputFromSpender m pot topic spending

/-- `mark_spent`: its statement, and after it, best effort, the retirement of what a confirmed spend supersedes. -/
def markSpent (pot : Outpoint) (spending : Parsed μ) (admitted : Option PotRecord) (now : Nat) (rest : Bool) (s : Store) : Store :=
  let spender := spending.subject.id
  let height := (c.sdk.spendConfirmedHeight c.tracked spending.toSpendingBeef spender c.answer).1
  let verdict := admitted.bind fun record => classifyRecordSpend c.reader record spending.subject
  let s := s.exec pot now (.markSpent spender height.isSome verdict height (some spending.subject.final))
  if height.isSome && rest then s.retire spender (supersededRefundTxids (c.refunds pot) pot spender) else s

def spenderFacts (pot : Outpoint) (spending : Parsed μ) (record : PotRecord) : Option TxFacts :=
  (spending.facts spending.subject.id).map fun f => { f with feeSats := f.feeSats.or (singleInputPotFee spending.subject pot record.potSats) }

def spendPayouts (spending : Parsed μ) (record : PotRecord) : Option Nat × Option Nat :=
  (c.reader.paidTo spending.subject record.payPkhA, c.reader.paidTo spending.subject record.payPkhB)

def tellSpenderFacts (m : Telling) (pot : Outpoint) (spending : Parsed μ) (record : PotRecord) : Hook Unit :=
  match spenderFacts pot spending record with
  | none => pure ()
  | some facts => bestEffort (tell m pot .spenderFacts fun _ s => s.exec pot (m.now .spenderFacts) (.storeSpenderFacts spending.subject.id facts))

def tellSpenderPayouts (m : Telling) (pot : Outpoint) (spending : Parsed μ) (record : PotRecord) : Hook Unit :=
  let pay := c.spendPayouts spending record
  if pay.1.isSome || pay.2.isSome then
    bestEffort (tell m pot .spenderPayouts fun _ s => s.exec pot (m.now .spenderPayouts) (.storeSpenderPayouts spending.subject.id pay.1 pay.2))
  else pure ()

def describeSpender (m : Telling) (pot : Outpoint) (spending : Parsed μ) : Option PotRecord → Hook Unit
  | none => pure ()
  | some record => do
    tellSpenderFacts m pot spending record
    c.tellSpenderPayouts m pot spending record

def outputSpent (m : Telling) (n : Payload) : Hook Unit :=
  if !nameMatches n.topic "tm_pot" && !nameMatches n.topic "tm_lowfund" then pure ()
  else match c.sdk.parse n.spendingAtomicBeef with
    | none => pure ()
    | some spending => do
      let found ← ask m n.pot .spentStatus fun s => s.recordOf n.pot
      let admitted ← c.mend m n.pot n.topic spending found
      tell m n.pot .pointer (c.markSpent n.pot spending admitted (m.now .pointer))
      c.describeSpender m n.pot spending admitted
      tell m n.pot .spenderBytes fun _ s => s.storeBeef c.sdk spending.subject.id n.spendingAtomicBeef (m.now .spenderBytes)

end Around

end OverlayEngine.Pot.SpendReplay
