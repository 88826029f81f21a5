import Mathlib
import OverlayEngine.Basis.DepthFirst
import OverlayEngine.Basis.Worklist
import OverlayEngine.NodeTexts

/-!
# A pending graph's BEEFs

`GraphAssembly` of `crates/overlay-engine/src/gasp_overlay.rs`: the transactions
of a pending graph are parsed once each, a node names its sources by key, and a
node's BEEF is collected over the keys. `check` says whether it can be; what it
has checked it does not check again.

Taken from outside: bsv-rs's hex, transaction and proof parses, its hash and
its `Beef`.
-/

namespace OverlayEngine.GraphAssembly

open NodeTexts (Text PendingNode outpointText)

abbrev Refs := AList fun _ : Text => PendingNode

structure Sdk (Proof : Type) where
  fromHex : Text → Except String Bytes
  sha256 : Bytes → Bytes
  /-- `Transaction::from_binary`. -/
  fromBinary : Bytes → Except String NodeTexts.Tx
  proofFromHex : Text → Except String Proof
  blockHeight : Proof → Nat
  computeRoot : Proof → Text → Except String Text
  combine : Proof → Proof → Except String Proof
  /-- How a `TransactionError` reads. -/
  transactionError : String → String
  /-- The bytes of a BEEF that the proofs, then the transactions, were merged into. -/
  toBinary : List Proof → List NodeTexts.Tx → Bytes

structure AssemblyNode (Proof : Type) where
  parsed : NodeTexts.Tx
  proof : Option Proof
  sources : List (Option Text)

structure Assembly (Proof : Type) where
  txs : AList fun _ : Bytes => NodeTexts.Tx := ∅
  parsed : AList fun _ : Text => NodeTexts.Tx := ∅
  nodes : AList fun _ : Text => AssemblyNode Proof := ∅
  checked : List (Text × Bool) := []

variable {Proof : Type} (sdk : Sdk Proof) (refs : Refs)

/-! ## One node -/

def notFound (key : Text) : String := "Node " ++ String.ofList key ++ " not found in graph refs"

def unparsedTx (key : Text) (e : String) : String := "Failed to parse raw_tx for " ++ String.ofList key ++ ": " ++ e

def unparsedProof (key : Text) (e : String) : String := "Failed to parse proof for " ++ String.ofList key ++ ": " ++ e

def parsedTx (a : Assembly Proof) (key : Text) : Except String NodeTexts.Tx × Assembly Proof :=
  match a.parsed.lookup key with
  | some tx => (.ok tx, a)
  | none =>
    match refs.lookup key with
    | none => (.error (notFound key), a)
    | some pending =>
      match sdk.fromHex pending.node.rawTx with
      | .error e => (.error (unparsedTx key e), a)
      | .ok raw =>
        match a.txs.lookup (sdk.sha256 raw) with
        | some known => (.ok known, { a with parsed := a.parsed.insert key known })
        | none =>
          match sdk.fromBinary raw with
          | .error e => (.error (unparsedTx key e), a)
          | .ok tx => (.ok tx, { a with txs := a.txs.insert (sdk.sha256 raw) tx, parsed := a.parsed.insert key tx })

def proofOf (key : Text) : Except String (Option Proof) :=
  match (refs.lookup key).bind fun pending => pending.node.proof with
  | none => .ok none
  | some proofHex =>
    match sdk.proofFromHex proofHex with
    | .error e => .error (unparsedProof key e)
    | .ok proof => .ok (some proof)

def sourceOf (input : NodeTexts.TxInput) : Option Text :=
  if (input.sourceTxid.getD []).isEmpty then none
  else if (refs.lookup (outpointText (input.sourceTxid.getD []) input.sourceOutputIndex)).isSome then
    some (outpointText (input.sourceTxid.getD []) input.sourceOutputIndex)
  else none

def sourcesOf (tx : NodeTexts.Tx) (proof : Option Proof) : List (Option Text) := if proof.isSome then [] else tx.inputs.map (sourceOf refs)

def node (a : Assembly Proof) (key : Text) : Except String (AssemblyNode Proof) × Assembly Proof :=
  match a.nodes.lookup key with
  | some node => (.ok node, a)
  | none =>
    match parsedTx sdk refs a key with
    | (.error e, a) => (.error e, a)
    | (.ok tx, a) =>
      match proofOf sdk refs key with
      | .error e => (.error e, a)
      | .ok proof => (.ok ⟨tx, proof, sourcesOf refs tx proof⟩, { a with nodes := a.nodes.insert key ⟨tx, proof, sourcesOf refs tx proof⟩ })

/-! ## Checking a node -/

local instance lawfulText : LawfulBEq Text := inferInstance

local instance lawfulKey : LawfulBEq (Text × Bool) := inferInstance

structure Checking (Proof : Type) where
  assembly : Assembly Proof
  inside : List Text

def enterKey (strict : Bool) (s : Checking Proof) (key : Text) :
    Except (String × Assembly Proof) (Checking Proof × Option ((Text × AssemblyNode Proof) × List Text)) :=
  if (key, strict) ∈ s.assembly.checked ∨ key ∈ s.inside then .ok (s, none)
  else
    match node sdk refs s.assembly key with
    | (.error e, a) => .error (e, a)
    | (.ok node, a) => .ok (⟨a, key :: s.inside⟩, some ((key, node), node.sources.filterMap id))

def missing (node : AssemblyNode Proof) : Option Nat := (node.sources.zipIdx.reverse.find? fun e => e.1.isNone).map Prod.snd

def missingSource (key : Text) (node : AssemblyNode Proof) (vin : Nat) : String :=
  "Failed to serialize BEEF for " ++ String.ofList key ++ ": " ++ sdk.transactionError
    ("Missing source transaction for input " ++ toString vin ++ " (txid: " ++
      (((node.parsed.inputs[vin]?).bind NodeTexts.TxInput.sourceTxid).map String.ofList).getD "unknown" ++
      "). Set allow_partial=true to skip missing source transactions.")

def closeKey (strict : Bool) (s : Checking Proof) (open_ : Text × AssemblyNode Proof) : Except (String × Assembly Proof) (Checking Proof) :=
  match if strict then missing open_.2 else none with
  | some vin => .error (missingSource sdk open_.1 open_.2 vin, s.assembly)
  | none => .ok ⟨{ s.assembly with checked := (open_.1, strict) :: s.assembly.checked }, s.inside.erase open_.1⟩

def nodeOf (key : Text) : Except String (AssemblyNode Proof) := (node sdk refs {} key).1

def turnsOf (key : Text) : Nat :=
  match nodeOf sdk refs key with
  | .ok node => node.sources.length + 1
  | .error _ => 0

def turns (seen : List Text) : Nat := Worklist.unspent (turnsOf sdk refs) seen refs.keys

/-- `none`: the fuel ran out. -/
def check (a : Assembly Proof) (key : Text) (strict : Bool) : Option (Except String Unit × Assembly Proof) :=
  (DepthFirst.walk (enterKey sdk refs strict) (closeKey sdk strict) (turns sdk refs []) ⟨a, []⟩ key).map fun
    | .ok s => (.ok (), s.assembly)
    | .error (e, a) => (.error e, a)

def checks : List (Text × Bool) → Assembly Proof → Option (List (Except String Unit) × Assembly Proof)
  | [], a => some ([], a)
  | call :: calls, a => do
    let answer ← check sdk refs a call.1 call.2
    let rest ← checks calls answer.2
    return (answer.1 :: rest.1, rest.2)

/-! ## Collecting a node's BEEF -/

structure Collected (Proof : Type) where
  ancestors : List (AssemblyNode Proof) := []
  bumps : List Proof := []
  bumpIndexByRoot : AList fun _ : Text => Nat := ∅

def Collected.leaf (c : Collected Proof) (node : AssemblyNode Proof) (merklePath : Proof) : Collected Proof :=
  let root := (sdk.computeRoot merklePath node.parsed.id).toOption.getD []
  let slot := Nat.toDigits 10 (sdk.blockHeight merklePath) ++ ':' :: root
  let combined := (c.bumpIndexByRoot.lookup slot).bind fun existing =>
    (c.bumps[existing]?).bind fun bump => (sdk.combine bump merklePath).toOption.map fun both => c.bumps.set existing both
  match combined with
  | some bumps => { c with ancestors := c.ancestors ++ [node], bumps := bumps }
  | none => ⟨c.ancestors ++ [node], c.bumps ++ [merklePath], c.bumpIndexByRoot.insert slot c.bumps.length⟩

structure Collecting (Proof : Type) where
  seen : List Text := []
  inside : List Text := []
  collected : Collected Proof := {}

def enterNode (a : Assembly Proof) (s : Collecting Proof) (key : Text) :
    Except Empty (Collecting Proof × Option (AssemblyNode Proof × List Text)) :=
  match a.nodes.lookup key with
  | none => .ok (s, none)
  | some node =>
    if node.parsed.id ∈ s.seen ∨ node.parsed.id ∈ s.inside then .ok (s, none)
    else
      match node.proof with
      | some merklePath => .ok ({ s with seen := node.parsed.id :: s.seen, collected := s.collected.leaf sdk node merklePath }, none)
      | none => .ok ({ s with inside := node.parsed.id :: s.inside }, some (node, node.sources.reverse.filterMap id))

def closeNode (s : Collecting Proof) (node : AssemblyNode Proof) : Except Empty (Collecting Proof) :=
  .ok ⟨node.parsed.id :: s.seen, s.inside.erase node.parsed.id, { s.collected with ancestors := s.collected.ancestors ++ [node] }⟩

def held (a : Assembly Proof) : List (AssemblyNode Proof) := a.nodes.entries.map Sigma.snd

def txidTurns (a : Assembly Proof) (txid : Text) : Nat :=
  (((held a).filter fun node => node.parsed.id = txid).map fun node => node.sources.length + 1).sum

def collectingTurns (a : Assembly Proof) (seen : List Text) : Nat :=
  Worklist.unspent (txidTurns a) seen ((held a).map fun node => node.parsed.id).dedup

/-- What `beef_of` collects; `none`: the fuel ran out. -/
def collect (a : Assembly Proof) (key : Text) : Option (Collected Proof) :=
  (DepthFirst.walk (enterNode sdk a) closeNode (collectingTurns a []) {} key).map fun
    | .ok s => s.collected

end OverlayEngine.GraphAssembly
