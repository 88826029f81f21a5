import Mathlib.Algebra.GroupWithZero.Nat
import Mathlib.Data.List.AList

/-!
# The engine's data

Transactions as the SDK parses them, the rows the storage keeps, what a topic
manager answers and what a submit reports. A txid is the lowercase hex the SDK
computes; a transaction's id is a digest of bytes that hold the ids it spends,
so it never spends an output of its own.
-/

namespace OverlayEngine

abbrev Txid := String
abbrev Topic := String
abbrev Bytes := List UInt8

structure Outpoint where
  txid : Txid
  outputIndex : Nat
  deriving DecidableEq

structure TxInput where
  sourceTxid : Option Txid
  sourceOutputIndex : Nat
  unlockingScript : Bytes := []
  sequence : Nat := 4294967295
  deriving DecidableEq

def TxInput.spends (i : TxInput) : Option Outpoint := i.sourceTxid.map fun t => ⟨t, i.sourceOutputIndex⟩

structure TxOutput where
  lockingScript : Bytes := []
  satoshis : Nat := 0
  deriving DecidableEq

structure Tx where
  id : Txid
  inputs : List TxInput
  outputs : List TxOutput
  merklePath : Option String := none
  spendsOthers : ∀ i ∈ inputs, i.sourceTxid ≠ some id := by decide
  deriving DecidableEq

/-- The outpoints `tx` spends, in input order. -/
def Tx.spent (tx : Tx) : List Outpoint := tx.inputs.filterMap TxInput.spends

inductive BeefTx where
  | full (tx : Tx) (bumpIndex : Option Nat)
  | txidOnly (txid : Txid)

namespace BeefTx

def tx : BeefTx → Option Tx
  | .full tx _ => some tx
  | .txidOnly _ => none

def txid : BeefTx → Txid
  | .full tx _ => tx.id
  | .txidOnly txid => txid

end BeefTx

structure Beef where
  atomicTxid : Option Txid := none
  txs : List BeefTx

def Beef.bodies (b : Beef) : List Tx := b.txs.filterMap BeefTx.tx

/-- `find_atomic_transaction`: the body the BEEF carries under `txid`. -/
def Beef.body (b : Beef) (txid : Txid) : Option Tx := b.bodies.find? fun tx => tx.id = txid

theorem Beef.body_mem {b : Beef} {txid : Txid} {tx : Tx} (h : b.body txid = some tx) : tx ∈ b.bodies ∧ tx.id = txid :=
  ⟨List.mem_of_find?_eq_some h, by simpa using List.find?_some h⟩

structure TaggedBeef where
  beef : Beef
  topics : List Topic
  offChainValues : Option Bytes := none

structure Output where
  txid : Txid
  outputIndex : Nat
  outputScript : Bytes
  satoshis : Nat
  topic : Topic
  spent : Bool
  outputsConsumed : List Outpoint
  consumedBy : List Outpoint
  blockHeight : Option Nat := none
  score : Option Nat := none
  deriving DecidableEq

def Output.outpoint (o : Output) : Outpoint := ⟨o.txid, o.outputIndex⟩

inductive SubmitMode where
  | currentTx
  | historicalTx
  | historicalTxNoSpv
  deriving DecidableEq

inductive WalkBreachPolicy where
  | notNow
  | networkAccepted
  deriving DecidableEq

structure WalkCouldNotRun where
  subjectTxid : Txid
  atTxid : Txid
  what : String
  deriving DecidableEq

def WalkCouldNotRun.text (stop : WalkCouldNotRun) : String :=
  "the script walk of " ++ stop.subjectTxid ++ " could not run (at " ++ stop.atTxid ++ "; " ++ stop.what ++ ")"

inductive EngineError where
  | unsupportedTopic (topic : Topic)
  | beefParseError (error : String)
  | spvError (error : String)
  | scriptVerificationFailed (error : String)
  | walkCouldNotRun (stop : WalkCouldNotRun)
  deriving DecidableEq

def EngineError.text : EngineError → String
  | .unsupportedTopic topic => "This server does not support this topic: " ++ topic
  | .beefParseError e => "BEEF parsing failed: " ++ e
  | .spvError e => "SPV verification failed: " ++ e
  | .scriptVerificationFailed e => "script verification failed " ++ e
  | .walkCouldNotRun stop => stop.text

inductive TopicManagerError where
  | noAdmissibleOutputs (error : String)
  | other (error : String)

structure AdmittanceInstructions where
  outputsToAdmit : List Nat := []
  coinsToRetain : List Nat := []
  coinsRemoved : Option (List Nat) := none

abbrev Steak := AList fun _ : Topic => AdmittanceInstructions

/-- A topic manager. Its answers may depend on a state of its own: `n` counts
the questions put to the managers before this one. -/
structure TopicManager where
  identifyAdmissibleOutputs (n : Nat) (tx : Tx) (previousCoins : List Nat) (offChainValues : Option Bytes)
    (mode : SubmitMode) (dryRun : Bool) : Except TopicManagerError AdmittanceInstructions
  identifyNeededInputs (n : Nat) (beef : Beef) : Except TopicManagerError (List Outpoint)
  syncExpiry (lockingScript : Bytes) : Option Nat
  readsOffChainValues : Bool

structure LookupService where
  name : String
  readsOffChainValues (topic : Topic) : Bool

inductive Notice where
  | outputSpent (service : String) (outpoint : Outpoint) (topic : Topic) (spendingTxid : Txid)
      (inputIndex : Nat) (offChainValues : Option Bytes)
  | outputAdmittedByTopic (service : String) (outpoint : Outpoint) (topic : Topic) (output : TxOutput)
      (offChainValues : Option Bytes)
  | outputNoLongerRetainedInHistory (service : String) (outpoint : Outpoint) (topic : Topic)

inductive Site where
  | insertOutput
  | markUtxoAsSpent
  | updateConsumedBy
  | deleteUtxoDeep
  | insertAppliedTransaction
  | findOutput
  | doesAppliedTransactionExist
  | outputSpent
  | outputAdmittedByTopic
  | undoInsertOutput
  | recordSpentCoinApplied
  | predecessorNotLanded
  deriving DecidableEq

def Site.text : Site → String
  | .insertOutput => "insert_output"
  | .markUtxoAsSpent => "mark_utxo_as_spent"
  | .updateConsumedBy => "update_consumed_by"
  | .deleteUtxoDeep => "delete_utxo_deep"
  | .insertAppliedTransaction => "insert_applied_transaction"
  | .findOutput => "find_output"
  | .doesAppliedTransactionExist => "does_applied_transaction_exist"
  | .outputSpent => "lookup_service.output_spent"
  | .outputAdmittedByTopic => "lookup_service.output_admitted_by_topic"
  | .undoInsertOutput => "undo_insert_output"
  | .recordSpentCoinApplied => "record_spent_coin_applied"
  | .predecessorNotLanded => "predecessor_not_landed"

structure MutationFault where
  topic : Topic
  site : Site
  error : String

structure MutationReport where
  faults : List MutationFault := []
  appliedTopics : List Topic := []
  dedupedTopics : List Topic := []
  landedPredecessors : List (Txid × Topic) := []
  walkCouldNotRun : Option WalkCouldNotRun := none
  landedWalksCouldNotRun : List WalkCouldNotRun := []

def MutationReport.fault (r : MutationReport) (topic : Topic) (site : Site) (error : String) : MutationReport :=
  { r with faults := r.faults ++ [⟨topic, site, error⟩] }

def MutationReport.isDurable (r : MutationReport) : Bool := r.faults.isEmpty

def MutationReport.summary (r : MutationReport) : String :=
  String.intercalate "; " (r.faults.map fun f =>
    f.topic ++ "/" ++ f.site.text ++ ": " ++
      String.ofList (f.error.toList.take (if f.site = .predecessorNotLanded then 320 else 120)))

structure TopicValidation where
  topic : Topic
  isDupe : Bool := false
  previousCoins : List Nat := []
  previousOutputs : List Output := []
  admittance : AdmittanceInstructions := {}
  failed : Bool := false
  readFault : Option (Site × String) := none

end OverlayEngine
