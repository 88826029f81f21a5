import OverlayEngine.Types

/-!
# The Extended Format batch of a BEEF

`beef_to_ef_batch` of `crates/overlay-cloudflare/src/ef.rs` and `subject_txid_of`
of `crates/overlay-engine/src/subject.rs`: every unproven transaction of a
submitted BEEF as an entry of its own, its sources linked one level deep.

Taken from outside: bsv-rs's parse, its sort of a BEEF's transactions and
`to_ef`. Of the sort no more is taken than the order of its four groups.
-/

namespace OverlayEngine.Ef

/-! ## The parsed BEEF -/

structure TransactionInput (T : Type) where
  sourceTxid : Option String
  sourceTransaction : Option T

inductive Transaction where
  | mk (id : String) (inputs : List (TransactionInput Transaction))

namespace Transaction

def id : Transaction → String
  | mk id _ => id

def inputs : Transaction → List (TransactionInput Transaction)
  | mk _ inputs => inputs

end Transaction

structure BeefTx where
  txid : String
  tx : Option Transaction
  bumpIndex : Option Nat

namespace BeefTx

variable (t : BeefTx)

def hasProof : Bool := t.bumpIndex.isSome

def inputs : List (TransactionInput Transaction) := (t.tx.map Transaction.inputs).getD []

def sources : List String := t.inputs.filterMap TransactionInput.sourceTxid

end BeefTx

structure Beef where
  atomicTxid : Option String
  /-- The BUMPs as they are written. -/
  bumps : List Bytes
  txs : List BeefTx

structure BeefSdk where
  parse : Bytes → Except String Beef
  sortTxs : List BeefTx → List BeefTx
  toEf : Transaction → Except String Bytes

/-! ## The subject -/

def toAsciiLowercase (text : String) : String := String.ofList (text.toList.map Char.toLower)

def TransactionInput.spends (i : TransactionInput Transaction) : Option String :=
  i.sourceTxid.or (i.sourceTransaction.map Transaction.id)

namespace Beef

variable (b : Beef)

def spent : List String := ((b.txs.flatMap BeefTx.inputs).filterMap TransactionInput.spends).map toAsciiLowercase

def tips : List String :=
  ((b.txs.filter fun t => t.tx.isSome).map fun t => toAsciiLowercase t.txid).filter fun t => !b.spent.contains t

end Beef

def lastTxid (txs : List BeefTx) : Option String := (txs.getLast?.filter fun t => t.tx.isSome).map fun t => toAsciiLowercase t.txid

variable (sdk : BeefSdk)

/-- `subject_txid_of`, and the BEEF it leaves: sorted where neither the name nor the tip decides. -/
def subjectTxidOf (b : Beef) : Option String × Beef :=
  match b.atomicTxid.filter fun atomic => b.txs.any fun t => toAsciiLowercase t.txid == toAsciiLowercase atomic with
  | some atomic => (some (toAsciiLowercase atomic), b)
  | none =>
    match b.tips with
    | [tip] => (some tip, b)
    | _ => (lastTxid (sdk.sortTxs b.txs), { b with txs := sdk.sortTxs b.txs })

/-! ## The batch -/

inductive EfError where
  | parse (error : String)
  | efConversion (error : String)

def EfError.text : EfError → String
  | .parse error => "BEEF parse error: " ++ error
  | .efConversion error => "EF conversion failed: " ++ error

structure EfTx where
  txid : String
  ef : Bytes

def txMap (txs : List BeefTx) (txid : String) : Option Transaction :=
  (txs.filter fun t => t.txid == txid && t.tx.isSome).getLast?.bind BeefTx.tx

def linkInputs (map : String → Option Transaction) (txid : String) :
    List (TransactionInput Transaction) → Except EfError (List (TransactionInput Transaction))
  | [] => .ok []
  | i :: rest =>
    if i.sourceTransaction.isSome then
      (linkInputs map txid rest).map (i :: ·)
    else
      match i.sourceTxid with
      | none => .error (.efConversion ("input in " ++ txid ++ " has no source txid"))
      | some srcTxid =>
        match map srcTxid with
        | none => .error (.efConversion ("source tx " ++ srcTxid ++ " for " ++ txid ++ " not present in BEEF"))
        | some src => (linkInputs map txid rest).map ({ i with sourceTransaction := some src } :: ·)

def convert (map : String → Option Transaction) (t : BeefTx) : Except EfError Bytes :=
  match t.tx with
  | none => .error (.efConversion ("txid-only entry " ++ t.txid ++ " has no transaction data"))
  | some tx =>
    match linkInputs map t.txid tx.inputs with
    | .error e => .error e
    | .ok inputs =>
      match sdk.toEf (.mk tx.id inputs) with
      | .error e => .error (.efConversion (t.txid ++ ": " ++ e))
      | .ok ef => .ok ef

def efLegs (map : String → Option Transaction) (subjectTxid : String) : List BeefTx → Except EfError (List EfTx)
  | [] => .ok []
  | t :: rest =>
    if t.hasProof then
      efLegs map subjectTxid rest
    else
      match convert sdk map t with
      | .ok ef => (efLegs map subjectTxid rest).map (⟨t.txid, ef⟩ :: ·)
      | .error e => if t.txid = subjectTxid then .error e else efLegs map subjectTxid rest

def beefToEfBatch (bytes : Bytes) : Except EfError (List EfTx × String) :=
  match sdk.parse bytes with
  | .error e => .error (.parse e)
  | .ok b =>
    let (subject, b) := subjectTxidOf sdk b
    let subjectTxid := subject.getD ""
    let txs := sdk.sortTxs b.txs
    (efLegs sdk (txMap txs) subjectTxid txs).map fun efs => (efs, subjectTxid)

end OverlayEngine.Ef
