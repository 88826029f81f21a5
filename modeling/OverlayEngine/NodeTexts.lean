import Mathlib.Algebra.GroupWithZero.Nat
import OverlayEngine.Gasp
import OverlayEngine.Basis.Slices

/-!
# The texts of a served node

One step of a GASP walk as the peer's strings reach it (`step` and `absorb` of
`gasp.rs`, `append_to_graph` and `find_needed_inputs` of `gasp_overlay.rs`). A
raw transaction that does not parse still needs a key, and takes it from its
own text: its first bytes, by a slice.

Taken from outside: bsv-rs's parses, the topic manager, the store, the peer and
the fetcher; the order in which a map is iterated.
-/

namespace OverlayEngine.NodeTexts

open Gasp (Error FaultClass)
open Slices

abbrev Text := List Char

structure TxInput where
  /-- `get_source_txid`; `none`: it answers an error. -/
  sourceTxid : Option Text
  sourceOutputIndex : Nat

structure Tx where
  id : Text
  inputs : List TxInput
  lockingScripts : List (List UInt8)

structure GASPNode where
  graphId : Text
  rawTx : Text
  outputIndex : Nat
  proof : Option Text
  txMetadata : Option Text

structure PendingInput where
  outpoint : Text
  graphId : Text
  metadata : Bool
  spentBy : Option Text
  parentProven : Bool

structure PendingNode where
  node : GASPNode
  spentBy : Option Text
  children : List Text

/-! ## Outpoints -/

/-- `txid.outputIndex`. -/
def outpointText (txid : Text) (outputIndex : Nat) : Text := txid ++ '.' :: Nat.toDigits 10 outputIndex

/-- `parse::<u32>`. -/
def parseU32 (s : Text) : Option Nat :=
  let digits := if s.head? = some '+' then s.tail else s
  let n : Nat := digits.foldl (fun n c => 10 * n + (c.toNat - 48)) 0
  if digits.isEmpty || !digits.all Char.isDigit || decide (2 ^ 32 ≤ n) then none else some n

/-- `parse_outpoint`: split at the first dot. -/
def parseOutpoint (s : Text) : Option (Text × Nat) :=
  match s.dropWhile (· != '.') with
  | [] => none
  | _ :: index => (parseU32 index).map fun oi => (s.takeWhile (· != '.'), oi)

/-- The order `sort` puts texts in. -/
def textLe : Text → Text → Bool
  | [], _ => true
  | _ :: _, [] => false
  | a :: as, b :: bs => decide (a.toNat < b.toNat) || (a == b && textLe as bs)

/-! ## What a step asks -/

structure Manager (Path : Type) where
  /-- `identify_admissible_outputs`, a dry run. -/
  identifyAdmissibleOutputs : Tx → Path → Option Text → Except String (List Nat)
  /-- `to_beef`, then `identify_needed_inputs`. -/
  identifyNeededInputs : Tx → Path → Except String (List (Text × Nat))
  syncExpiry : List UInt8 → Option Nat

structure Ancestor where
  rawTx : Text
  proof : Option Text

structure AncestorFetcher where
  fetchAncestor : Text → Except Error Ancestor
  verifiedProofFor : Text → Option Text

structure Env (Path : Type) where
  fromHex : Text → Except String Tx
  proofFromHex : Text → Except String Path
  manager : Option (Manager Path)
  /-- `find_output`, `does_applied_transaction_exist` and an output of the transaction held, each in the topic. -/
  findOutput : Text → Nat → Except String Bool
  doesAppliedTransactionExist : Text → Except String Bool
  holdsOutputOf : Text → Except String Bool
  /-- The order a map's keys are iterated in. -/
  iterated : List Text → List Text
  now : Nat
  /-- The peer's answer for a root: the batch's, else the single route's. -/
  rootNode : PendingInput → Text → Nat → Except Error GASPNode
  requestNode : Text → Text → Nat → Bool → Except Error GASPNode
  fetcher : Option AncestorFetcher
  rootExhausted : Bool
  /-- The debug level is logged. -/
  debug : Bool

structure St where
  seen : List Text := []
  absent : List Text := []
  pruned : List Text := []
  pendingGraphs : Text → Option PendingNode := fun _ => none
  lastFault : Option FaultClass := none

abbrev Sync := Run St Error

inductive StepOut where
  | expired
  | pruned
  | seen
  | appended (nodeId : Text) (node : GASPNode) (spentBy : Option Text) (children : List PendingInput)

section
variable {Path : Type} (env : Env Path)

/-! ## The needed inputs -/

def landedReadsPerNode : Nat := 16

structure LandedReads where
  landed : List Text := []
  unlanded : List Text := []
  reads : Nat := 0

def landedOf : LandedReads → List Text → List Text
  | acc, [] => acc.landed
  | acc, outpoint :: rest =>
    match parseOutpoint outpoint with
    | none => landedOf acc rest
    | some (txid, _) =>
      if txid ∈ acc.landed ∨ txid ∈ acc.unlanded then landedOf acc rest
      else if landedReadsPerNode < acc.reads + 2 then acc.landed
      else
        let applied := (env.doesAppliedTransactionExist txid).toOption == some true
        let reads := acc.reads + if applied then 1 else 2
        if applied || (env.holdsOutputOf txid).toOption == some true then
          landedOf { acc with landed := txid :: acc.landed, reads := reads } rest
        else landedOf { acc with unlanded := txid :: acc.unlanded, reads := reads } rest

def insertKey (keys : List Text) (key : Text) : List Text := if key ∈ keys then keys else keys ++ [key]

def stillNeeded (admitted : Bool) (requested : List Text) : Option (List Text) :=
  let unheld := requested.filter fun outpoint =>
    !(parseOutpoint outpoint).any fun o => (env.findOutput o.1 o.2).toOption == some true
  let landed := if admitted then landedOf env {} (unheld.mergeSort textLe) else []
  let needed := unheld.filter fun outpoint => (parseOutpoint outpoint).all fun o => !landed.contains o.1
  if needed.isEmpty then none else some needed

/-- The inputs a proven node's manager names; `none`: the walk ends at the node. -/
def namedInputs (manager : Manager Path) (node : GASPNode) (proofHex : Text) : Except Error (Option (Bool × List Text)) := do
  let tx ← (env.fromHex node.rawTx).mapError fun e => .other s!"Failed to parse raw_tx: {e}"
  let path ← (env.proofFromHex proofHex).mapError fun e => .other s!"Failed to parse proof: {e}"
  let admissible ← (manager.identifyAdmissibleOutputs tx path node.txMetadata).mapError .other
  let admitted := admissible.contains node.outputIndex
  if admitted && !tx.inputs.any fun input => input.sourceTxid.any fun s => !s.isEmpty then return none
  match manager.identifyNeededInputs tx path with
  | .ok inputs => return some (admitted, inputs.foldl (fun keys o => insertKey keys (outpointText o.1 o.2)) [])
  | .error _ => return none

/-- The inputs of a raw transaction that has no proof; `none`: it does not parse. -/
def rawInputs (node : GASPNode) : Option (List Text) :=
  (env.fromHex node.rawTx).toOption.map fun tx => tx.inputs.foldl (fun keys input =>
    let source := input.sourceTxid.getD []
    if source.isEmpty then keys else insertKey keys (outpointText source input.sourceOutputIndex)) []

def findNeededInputs (node : GASPNode) : Except Error (Option (List Text)) :=
  match node.proof with
  | some proofHex =>
    match env.manager with
    | none => .ok none
    | some manager => (namedInputs env manager node proofHex).map fun named => named.bind fun n => stillNeeded env n.1 n.2
  | none => .ok ((rawInputs env node).bind (stillNeeded env false))

/-! ## A node absorbed -/

/-- `&raw_tx[..raw_tx.len().min(n)]`. -/
def head (rawTx : Text) (n : Nat) : Sync Text := Run.orPanic (sliceTo rawTx (min (byteLen rawTx) n))

def nodeTxid (node : GASPNode) : Sync Text :=
  match env.fromHex node.rawTx with
  | .ok tx => pure tx.id
  | .error _ => head node.rawTx 64

/-- The arguments of `debug!` are evaluated where the level is logged. -/
def logged (node : GASPNode) : Sync Text := if env.debug then head node.rawTx 16 else pure []

def nodeKey (node : GASPNode) : Option Text → Sync Text
  | none => pure node.graphId
  | some _ => do
    let txid ← nodeTxid env node
    return outpointText txid node.outputIndex

def placed (graphs : Text → Option PendingNode) (node : GASPNode) (spentBy : Option Text) (key : Text) : Text → Option PendingNode := fun k =>
  let inserted := if k = key then some { node := node, spentBy := spentBy, children := [] } else graphs k
  if some k = spentBy then inserted.map fun parent => { parent with children := parent.children ++ [key] } else inserted

def appendToGraph (node : GASPNode) (spentBy : Option Text) : Sync Unit := do
  let _ ← logged env node
  let key ← nodeKey env node spentBy
  modify fun st => { st with pendingGraphs := placed st.pendingGraphs node spentBy key }

def childrenOf (node : GASPNode) (nodeId : Text) (needed : Option (List Text)) : List PendingInput :=
  ((env.iterated (needed.getD [])).filter fun o => (parseOutpoint o).isSome).map fun outpoint =>
    { outpoint, graphId := node.graphId, metadata := false, spentBy := some nodeId, parentProven := node.proof.isSome }

def append (item : PendingInput) (node : GASPNode) (nodeId : Text) : Sync StepOut := do
  appendToGraph env node item.spentBy
  match findNeededInputs env node with
  | .error e => throw e
  | .ok needed => return .appended nodeId node item.spentBy (childrenOf env node nodeId needed)

def absorb (item : PendingInput) (node : GASPNode) : Sync StepOut := do
  let txid ← nodeTxid env node
  let st ← get
  if outpointText txid node.outputIndex ∈ st.seen then return .seen
  else append env item node (outpointText txid node.outputIndex)

/-! ## A step -/

def faulted {α : Type} (cls : Error → FaultClass) (m : Sync α) : Sync α := fun st =>
  (m.result st).map fun r =>
    match r.1 with
    | .ok a => (.ok a, r.2)
    | .error (.storageError e) => (.error (.storageError e), r.2)
    | .error e => (.error e, { r.2 with lastFault := some (cls e) })

def peerFaultClass : Error → FaultClass
  | .nodeNotFound _ => .notFound
  | .routeFault _ => .route
  | _ => .peer

inductive Fetched where
  | expired
  | pruned
  | node (node : GASPNode)

def syncExpiry (node : GASPNode) (outpoint : Text) : Except Error (Option Nat) :=
  match env.manager with
  | none => .ok none
  | some manager => do
    let tx ← (env.fromHex node.rawTx).mapError fun e => .other s!"sync root parse: {e}"
    if outpointText tx.id node.outputIndex ≠ outpoint then throw (.other "sync root content-address mismatch")
    match tx.lockingScripts[node.outputIndex]? with
    | none => throw (.other "sync root output missing")
    | some script => return manager.syncExpiry script

def rootExpired (node : GASPNode) (outpoint : Text) : Except Error Bool :=
  (syncExpiry env node outpoint).map fun expiry => expiry.any fun e => decide (e ≤ env.now)

def hydrateRoot (node : GASPNode) : GASPNode :=
  match node.proof, env.fetcher, env.fromHex node.rawTx with
  | none, some fetcher, .ok tx =>
    match parseOutpoint (outpointText tx.id node.outputIndex) with
    | some (txid, _) => { node with proof := fetcher.verifiedProofFor txid }
    | none => node
  | _, _, _ => node

def fetchRoot (item : PendingInput) : Except Error Fetched := do
  match parseOutpoint item.outpoint with
  | none => throw (.other s!"bad outpoint {String.ofList item.outpoint}")
  | some (txid, oi) =>
    let node ← env.rootNode item txid oi
    let expired ← rootExpired env node item.outpoint
    return if expired then .expired else .node (hydrateRoot env node)

def askPeerForInput (item : PendingInput) (txid : Text) (oi : Nat) (st : St) : Except Error GASPNode × St :=
  if item.outpoint ∈ st.absent then
    (.error (.nodeNotFound s!"{String.ofList item.outpoint}: the peer answered it does not hold it earlier in this sync"), st)
  else
    match env.requestNode item.graphId txid oi item.metadata with
    | .ok node => (.ok node, st)
    | .error e => (.error e, if e.isNodeNotFound then { st with absent := item.outpoint :: st.absent } else st)

def ancestorFaultClass : Error → FaultClass
  | .definitiveNotFound _ => .notFound
  | _ => .courier

def fetchInput (fetcher : AncestorFetcher) (item : PendingInput) (txid : Text) (oi : Nat) : Sync Fetched := fun st =>
  match fetcher.fetchAncestor txid with
  | .ok ancestor =>
    some (.ok (.node { graphId := item.graphId, rawTx := ancestor.rawTx, outputIndex := oi, proof := ancestor.proof, txMetadata := none }), st)
  | .error e =>
    if item.parentProven || e == .courierBudget || env.rootExhausted then (faulted ancestorFaultClass (throw e)).result st
    else
      match askPeerForInput env item txid oi st with
      | (.ok node, st') => some (.ok (.node node), st')
      | (.error peer, st') =>
        if peer.isNodeNotFound then (faulted (fun _ => .notFound) (throw peer)).result st'
        else (faulted ancestorFaultClass (throw e)).result st'

def fetchNamed (item : PendingInput) (txid : Text) (oi : Nat) : Sync Fetched := fun st =>
  match env.requestNode item.graphId txid oi item.metadata with
  | .ok node => some (.ok (.node node), st)
  | .error e =>
    if e.isNodeNotFound then
      some (.ok .pruned, if item.outpoint ∈ st.pruned then st else { st with pruned := item.outpoint :: st.pruned })
    else (faulted peerFaultClass (throw e)).result st

def fetchNeeded (item : PendingInput) (txid : Text) (oi : Nat) : Sync Fetched := fun st =>
  match askPeerForInput env item txid oi st with
  | (.ok node, st') => some (.ok (.node node), st')
  | (.error e, st') => (faulted peerFaultClass (throw e)).result st'

def fetch (item : PendingInput) : Sync Fetched :=
  match item.spentBy with
  | none => faulted peerFaultClass (ExceptT.mk (pure (fetchRoot env item)))
  | some _ =>
    match parseOutpoint item.outpoint with
    | none => pure .pruned
    | some (txid, oi) =>
      match env.fetcher with
      | some fetcher => fetchInput env fetcher item txid oi
      | none => if item.parentProven then fetchNamed env item txid oi else fetchNeeded env item txid oi

/-- `step`: the item fetched, then absorbed. -/
def step (item : PendingInput) : Sync StepOut := do
  match ← fetch env item with
  | .expired => return .expired
  | .pruned => return .pruned
  | .node node => faulted (fun _ => .verification) (absorb env item node)

/-! ## Where a step panics -/

def txidText (node : GASPNode) : Option Text :=
  match env.fromHex node.rawTx with
  | .ok tx => some tx.id
  | .error _ => sliceTo node.rawTx (min (byteLen node.rawTx) 64)

structure Sliceable (st : St) (node : GASPNode) : Prop where
  key : (env.fromHex node.rawTx).toOption = none → IsCharBoundary node.rawTx (min (byteLen node.rawTx) 64)
  logged : env.debug = true → ∀ txid, txidText env node = some txid → outpointText txid node.outputIndex ∉ st.seen →
    IsCharBoundary node.rawTx (min (byteLen node.rawTx) 16)

def Asked (st : St) (item : PendingInput) (txid : Text) : Prop :=
  match env.fetcher with
  | none => item.parentProven = true ∨ item.outpoint ∉ st.absent
  | some fetcher => ∃ e, fetcher.fetchAncestor txid = .error e ∧ item.parentProven = false ∧ e ≠ .courierBudget ∧
      env.rootExhausted = false ∧ item.outpoint ∉ st.absent

inductive Serves (st : St) (item : PendingInput) : GASPNode → Prop where
  | root {txid : Text} {oi : Nat} {node : GASPNode} (hroot : item.spentBy = none) (ho : parseOutpoint item.outpoint = some (txid, oi))
      (hnode : env.rootNode item txid oi = .ok node) (hlive : rootExpired env node item.outpoint = .ok false) : Serves st item node
  | input {txid : Text} {oi : Nat} {node : GASPNode} (hinput : item.spentBy.isSome) (ho : parseOutpoint item.outpoint = some (txid, oi))
      (hasked : Asked env st item txid) (hnode : env.requestNode item.graphId txid oi item.metadata = .ok node) : Serves st item node
  | ancestor {txid : Text} {oi : Nat} {fetcher : AncestorFetcher} {ancestor : Ancestor} (hinput : item.spentBy.isSome)
      (ho : parseOutpoint item.outpoint = some (txid, oi)) (hfetcher : env.fetcher = some fetcher)
      (hancestor : fetcher.fetchAncestor txid = .ok ancestor) :
      Serves st item { graphId := item.graphId, rawTx := ancestor.rawTx, outputIndex := oi, proof := ancestor.proof, txMetadata := none }

theorem nodeTxid_eq (node : GASPNode) : nodeTxid env node = Run.orPanic (txidText env node) := by
  unfold nodeTxid txidText
  cases env.fromHex node.rawTx <;> rfl

theorem txidText_isSome {node : GASPNode} :
    (txidText env node).isSome = true ↔
      ((env.fromHex node.rawTx).toOption = none → IsCharBoundary node.rawTx (min (byteLen node.rawTx) 64)) := by
  unfold txidText
  cases env.fromHex node.rawTx with
  | ok tx => exact ⟨fun _ h => (by cases h), fun _ => rfl⟩
  | error e =>
    rw [sliceTo_isSome]
    exact ⟨fun h _ => h, fun h => h rfl⟩

theorem ends_logged {st : St} {node : GASPNode} :
    (logged env node).Ends st ↔ (env.debug = true → IsCharBoundary node.rawTx (min (byteLen node.rawTx) 16)) := by
  unfold logged
  split
  case isTrue hdebug =>
    rw [head, Run.ends_orPanic, sliceTo_isSome]
    exact ⟨fun h _ => h, fun h => h hdebug⟩
  case isFalse hdebug => exact ⟨fun _ h => absurd h hdebug, fun _ => Run.ends_pure _ _⟩

theorem ends_nodeKey {st : St} {node : GASPNode} (h : (txidText env node).isSome = true) (spentBy : Option Text) :
    (nodeKey env node spentBy).Ends st := by
  cases spentBy with
  | none => exact Run.ends_pure _ _
  | some parent =>
    rw [nodeKey, nodeTxid_eq, Run.ends_orPanic_bind]
    obtain ⟨txid, htxid⟩ := Option.isSome_iff_exists.mp h
    exact ⟨txid, htxid, Run.ends_pure _ _⟩

theorem ends_appendToGraph {st : St} {node : GASPNode} (h : (txidText env node).isSome = true) (spentBy : Option Text) :
    (appendToGraph env node spentBy).Ends st ↔ (logged env node).Ends st := by
  unfold appendToGraph
  rw [Run.ends_bind]
  refine and_iff_left fun text st' _ => ?_
  rw [Run.ends_bind]
  exact ⟨ends_nodeKey env h spentBy, fun _ _ _ => Run.ends_modify _ _⟩

theorem ends_append {st : St} {item : PendingInput} {node : GASPNode} (h : (txidText env node).isSome = true) (nodeId : Text) :
    (append env item node nodeId).Ends st ↔ (logged env node).Ends st := by
  unfold append
  rw [Run.ends_bind, ends_appendToGraph env h]
  refine and_iff_left fun _ st' _ => ?_
  cases findNeededInputs env node with
  | error e => exact Run.ends_throw _ _
  | ok needed => exact Run.ends_pure _ _

theorem ends_absorb {st : St} {item : PendingInput} {node : GASPNode} : (absorb env item node).Ends st ↔ Sliceable env st node := by
  unfold absorb
  rw [nodeTxid_eq, Run.ends_orPanic_bind]
  constructor
  · rintro ⟨txid, htxid, hrest⟩
    have hsome : (txidText env node).isSome = true := by rw [htxid]; rfl
    refine ⟨(txidText_isSome env).mp hsome, fun hdebug txid' htxid' hunseen => ?_⟩
    obtain rfl := Option.some.inj (htxid.symm.trans htxid')
    rw [Run.ends_get_bind, if_neg hunseen, ends_append env hsome, ends_logged] at hrest
    exact hrest hdebug
  · intro h
    have hsome := (txidText_isSome env).mpr h.key
    obtain ⟨txid, htxid⟩ := Option.isSome_iff_exists.mp hsome
    refine ⟨txid, htxid, ?_⟩
    rw [Run.ends_get_bind]
    by_cases hseen : outpointText txid node.outputIndex ∈ st.seen
    · rw [if_pos hseen]
      exact Run.ends_pure _ _
    · rw [if_neg hseen, ends_append env hsome, ends_logged]
      exact fun hdebug => h.logged hdebug txid htxid hseen

variable {cls : Error → FaultClass}

theorem ends_faulted {α : Type} {m : Sync α} {st : St} : (faulted cls m).Ends st ↔ m.Ends st := by
  unfold Run.Ends
  show (Option.map _ _).isSome = true ↔ _
  rw [Option.isSome_map]

theorem faulted_result {α : Type} {m : Sync α} {st st' : St} {a : α} :
    (faulted cls m).result st = some (.ok a, st') ↔ m.result st = some (.ok a, st') := by
  show ((m.result st).map fun r => _) = _ ↔ _
  cases m.result st with
  | none => exact Iff.rfl
  | some r =>
    rcases r with ⟨e | b, s⟩
    · cases e <;> exact ⟨fun h => (by cases h), fun h => (by cases h)⟩
    · exact Iff.rfl

theorem hydrateRoot_same (node : GASPNode) :
    (hydrateRoot env node).rawTx = node.rawTx ∧ (hydrateRoot env node).outputIndex = node.outputIndex := by
  unfold hydrateRoot
  split
  · split <;> exact ⟨rfl, rfl⟩
  · exact ⟨rfl, rfl⟩

theorem sliceable_congr {st : St} {node node' : GASPNode} (hraw : node'.rawTx = node.rawTx) (hindex : node'.outputIndex = node.outputIndex) :
    Sliceable env st node' ↔ Sliceable env st node := by
  have htxid : txidText env node' = txidText env node := by
    unfold txidText
    rw [hraw]
  constructor
  · intro h
    exact ⟨hraw ▸ h.key, fun hdebug txid htxid' hunseen => hraw ▸ h.logged hdebug txid (htxid.trans htxid') (hindex.symm ▸ hunseen)⟩
  · intro h
    exact ⟨hraw.symm ▸ h.key, fun hdebug txid htxid' hunseen => hraw.symm ▸ h.logged hdebug txid (htxid.symm.trans htxid') (hindex ▸ hunseen)⟩

theorem fetchRoot_node {item : PendingInput} {n : GASPNode} :
    fetchRoot env item = .ok (.node n) ↔ ∃ txid oi node, parseOutpoint item.outpoint = some (txid, oi) ∧
      env.rootNode item txid oi = .ok node ∧ rootExpired env node item.outpoint = .ok false ∧ n = hydrateRoot env node := by
  unfold fetchRoot
  cases ho : parseOutpoint item.outpoint with
  | none => exact ⟨fun h => (by cases h), fun ⟨_, _, _, h, _⟩ => (by cases h)⟩
  | some o =>
    obtain ⟨txid, oi⟩ := o
    simp only [Option.some.injEq, Prod.mk.injEq]
    cases hnode : env.rootNode item txid oi with
    | error e =>
      refine ⟨fun h => (by cases h), fun ⟨_, _, _, ⟨rfl, rfl⟩, h, _⟩ => ?_⟩
      cases hnode.symm.trans h
    | ok node =>
      cases hlive : rootExpired env node item.outpoint with
      | error e =>
        refine ⟨fun h => ?_, fun ⟨_, _, _, ⟨rfl, rfl⟩, h, hlive', _⟩ => ?_⟩
        · simp only [hlive, bind, Except.bind] at h
          cases h
        · cases hnode.symm.trans h
          cases hlive.symm.trans hlive'
      | ok expired =>
        simp only [hlive, bind, Except.bind, pure, Except.pure, Except.ok.injEq]
        constructor
        · intro h
          cases expired with
          | true => cases h
          | false =>
            rw [if_neg Bool.false_ne_true, Fetched.node.injEq] at h
            exact ⟨txid, oi, node, ⟨rfl, rfl⟩, hnode, hlive, h.symm⟩
        · rintro ⟨_, _, _, ⟨rfl, rfl⟩, h, hlive', rfl⟩
          cases hnode.symm.trans h
          cases hlive.symm.trans hlive'
          rfl

theorem seen_askPeerForInput {item : PendingInput} {txid : Text} {oi : Nat} {st : St} :
    (askPeerForInput env item txid oi st).2.seen = st.seen := by
  unfold askPeerForInput
  split
  · rfl
  · split
    · rfl
    · dsimp only
      split <;> rfl

theorem askPeerForInput_ok {item : PendingInput} {txid : Text} {oi : Nat} {st : St} {node : GASPNode} :
    (askPeerForInput env item txid oi st).1 = .ok node ↔
      item.outpoint ∉ st.absent ∧ env.requestNode item.graphId txid oi item.metadata = .ok node := by
  unfold askPeerForInput
  split
  case isTrue habsent => exact ⟨fun h => (by cases h), fun h => absurd habsent h.1⟩
  case isFalse habsent =>
    split
    case h_1 n hn => rw [hn]; exact ⟨fun h => ⟨habsent, h⟩, fun h => h.2⟩
    case h_2 e he => rw [he]; exact ⟨fun h => (by cases h), fun h => (by cases h.2)⟩

theorem serves_root {st : St} {item : PendingInput} (hroot : item.spentBy = none) {node : GASPNode} :
    Serves env st item node ↔ ∃ txid oi, parseOutpoint item.outpoint = some (txid, oi) ∧ env.rootNode item txid oi = .ok node ∧
      rootExpired env node item.outpoint = .ok false := by
  constructor
  · rintro (⟨_, ho, hnode, hlive⟩ | ⟨hinput, _⟩ | ⟨hinput, _⟩)
    · exact ⟨_, _, ho, hnode, hlive⟩
    · rw [hroot] at hinput
      cases hinput
    · rw [hroot] at hinput
      cases hinput
  · rintro ⟨_, _, ho, hnode, hlive⟩
    exact .root hroot ho hnode hlive

def ancestorNode (item : PendingInput) (oi : Nat) (ancestor : Ancestor) : GASPNode :=
  { graphId := item.graphId, rawTx := ancestor.rawTx, outputIndex := oi, proof := ancestor.proof, txMetadata := none }

theorem serves_input {st : St} {item : PendingInput} {parent txid : Text} {oi : Nat} (hinput : item.spentBy = some parent)
    (ho : parseOutpoint item.outpoint = some (txid, oi)) {node : GASPNode} :
    Serves env st item node ↔ Asked env st item txid ∧ env.requestNode item.graphId txid oi item.metadata = .ok node ∨
      ∃ fetcher ancestor, env.fetcher = some fetcher ∧ fetcher.fetchAncestor txid = .ok ancestor ∧ node = ancestorNode item oi ancestor := by
  have hsome : item.spentBy.isSome = true := by rw [hinput]; rfl
  constructor
  · rintro (⟨hroot, _⟩ | ⟨-, ho', hasked, hnode⟩ | ⟨-, ho', hfetcher, hancestor⟩)
    · rw [hroot] at hinput
      cases hinput
    · cases ho.symm.trans ho'
      exact .inl ⟨hasked, hnode⟩
    · cases ho.symm.trans ho'
      exact .inr ⟨_, _, hfetcher, hancestor, rfl⟩
  · rintro (⟨hasked, hnode⟩ | ⟨fetcher, ancestor, hfetcher, hancestor, rfl⟩)
    · exact .input hsome ho hasked hnode
    · exact .ancestor hsome ho hfetcher hancestor

inductive Fetches (st : St) (item : PendingInput) : Option (Except Error Fetched × St) → Prop where
  | node {n node : GASPNode} {st' : St} (hserves : ∀ node', Serves env st item node' ↔ node' = node) (hraw : n.rawTx = node.rawTx)
      (hindex : n.outputIndex = node.outputIndex) (hseen : st'.seen = st.seen) : Fetches st item (some (.ok (.node n), st'))
  | none {r : Except Error Fetched} {st' : St} (hserves : ∀ node, ¬ Serves env st item node) (hr : ∀ n, r ≠ .ok (.node n)) :
      Fetches st item (some (r, st'))

theorem Fetches.faulted_throw {st s : St} {item : PendingInput} {e : Error}
    (h : ∀ node, ¬ Serves env st item node) : Fetches env st item ((faulted cls (throw e)).result s) := by
  have hends : (faulted cls (throw e : Sync Fetched)).Ends s := (ends_faulted).mpr (Run.ends_throw e s)
  obtain ⟨⟨r, s'⟩, hr⟩ := Option.isSome_iff_exists.mp hends
  rw [hr]
  refine .none h fun n hn => ?_
  rw [hn, faulted_result] at hr
  cases hr

theorem fetches_root {st : St} {item : PendingInput} (hroot : item.spentBy = none) : Fetches env st item ((fetch env item).result st) := by
  have hfetch : fetch env item = faulted peerFaultClass (ExceptT.mk (pure (fetchRoot env item))) := by
    unfold fetch
    rw [hroot]
  have hresult : Run.result (ExceptT.mk (pure (fetchRoot env item))) st = some (fetchRoot env item, st) := rfl
  rw [hfetch]
  by_cases hnode : ∃ n, fetchRoot env item = .ok (.node n)
  · obtain ⟨n, hn⟩ := hnode
    rw [hn] at hresult ⊢
    rw [faulted_result.mpr hresult]
    obtain ⟨txid, oi, node, ho, hnode, hlive, rfl⟩ := (fetchRoot_node env).mp hn
    obtain ⟨hraw, hindex⟩ := hydrateRoot_same env node
    refine .node (fun node' => ?_) hraw hindex rfl
    rw [serves_root env hroot]
    constructor
    · rintro ⟨_, _, ho', hnode', -⟩
      cases ho.symm.trans ho'
      exact Except.ok.inj (hnode'.symm.trans hnode)
    · rintro rfl
      exact ⟨txid, oi, ho, hnode, hlive⟩
  · have hserves : ∀ node, ¬ Serves env st item node := by
      intro node hserves
      obtain ⟨txid, oi, ho, hn, hlive⟩ := (serves_root env hroot).mp hserves
      exact hnode ⟨hydrateRoot env node, (fetchRoot_node env).mpr ⟨txid, oi, node, ho, hn, hlive, rfl⟩⟩
    have hends : (faulted peerFaultClass (ExceptT.mk (pure (fetchRoot env item)) : Sync Fetched)).Ends st := by
      rw [ends_faulted, Run.Ends, hresult]
      rfl
    obtain ⟨⟨r, st'⟩, hr⟩ := Option.isSome_iff_exists.mp hends
    rw [hr]
    refine .none hserves fun n hn => hnode ⟨n, ?_⟩
    rw [hn, faulted_result, hresult] at hr
    exact congrArg Prod.fst (Option.some.inj hr)

theorem fetches_fetchInput {st : St} {item : PendingInput} {parent txid : Text} {oi : Nat} {fetcher : AncestorFetcher}
    (hinput : item.spentBy = some parent) (ho : parseOutpoint item.outpoint = some (txid, oi)) (hfetcher : env.fetcher = some fetcher) :
    Fetches env st item ((fetchInput env fetcher item txid oi).result st) := by
  have hserves (node : GASPNode) := @serves_input _ env st item parent txid oi hinput ho node
  have hasked : Asked env st item txid ↔ ∃ e, fetcher.fetchAncestor txid = .error e ∧ item.parentProven = false ∧ e ≠ .courierBudget ∧
      env.rootExhausted = false ∧ item.outpoint ∉ st.absent := by
    unfold Asked
    rw [hfetcher]
  show Fetches env st item (fetchInput env fetcher item txid oi st)
  unfold fetchInput
  split
  case h_1 ancestor hancestor =>
    refine .node (fun node' => ?_) rfl rfl rfl
    rw [hserves, hasked]
    constructor
    · rintro (⟨⟨e, he, -⟩, -⟩ | ⟨_, _, hf, ha, rfl⟩)
      · cases hancestor.symm.trans he
      · cases hfetcher.symm.trans hf
        cases hancestor.symm.trans ha
        rfl
    · rintro rfl
      exact .inr ⟨fetcher, ancestor, hfetcher, hancestor, rfl⟩
  case h_2 e he =>
    have hown (node : GASPNode) : ¬ ∃ f a, env.fetcher = some f ∧ f.fetchAncestor txid = .ok a ∧ node = ancestorNode item oi a := by
      rintro ⟨_, _, hf, ha, -⟩
      cases hfetcher.symm.trans hf
      cases he.symm.trans ha
    simp only [hown, or_false] at hserves
    split
    case isTrue hheld =>
      refine .faulted_throw env fun node hnode => ?_
      obtain ⟨hask, -⟩ := (hserves node).mp hnode
      obtain ⟨e', he', hproven, hbudget, hmeter, -⟩ := hasked.mp hask
      cases he.symm.trans he'
      simp [hproven, hbudget, hmeter] at hheld
    case isFalse hopen =>
      simp only [Bool.or_eq_true, not_or, Bool.not_eq_true, beq_eq_false_iff_ne] at hopen
      have hask : Asked env st item txid ↔ item.outpoint ∉ st.absent := by
        rw [hasked]
        exact ⟨fun ⟨_, _, _, _, _, h⟩ => h, fun h => ⟨e, he, hopen.1.1, hopen.1.2, hopen.2, h⟩⟩
      simp only [hask, ← askPeerForInput_ok] at hserves
      split
      case h_1 node st' hans =>
        have hseen := @seen_askPeerForInput _ env item txid oi st
        rw [hans] at hseen
        refine .node (fun node' => ?_) rfl rfl hseen
        rw [hserves, hans, Except.ok.injEq]
        exact eq_comm
      case h_2 peer st' hans =>
        have hno (node : GASPNode) : ¬ Serves env st item node := by
          rw [hserves, hans]
          exact fun h => by cases h
        split <;> exact .faulted_throw env hno

theorem serves_asked {st : St} {item : PendingInput} {parent txid : Text} {oi : Nat} (hinput : item.spentBy = some parent)
    (ho : parseOutpoint item.outpoint = some (txid, oi)) (hfetcher : env.fetcher = none) {node : GASPNode} :
    Serves env st item node ↔ (item.parentProven = true ∨ item.outpoint ∉ st.absent) ∧
      env.requestNode item.graphId txid oi item.metadata = .ok node := by
  have hasked : Asked env st item txid ↔ item.parentProven = true ∨ item.outpoint ∉ st.absent := by
    unfold Asked
    rw [hfetcher]
  rw [serves_input env hinput ho, hasked]
  refine or_iff_left ?_
  rintro ⟨_, _, hf, -⟩
  cases hfetcher.symm.trans hf

theorem fetches_fetchNamed {st : St} {item : PendingInput} {parent txid : Text} {oi : Nat} (hinput : item.spentBy = some parent)
    (ho : parseOutpoint item.outpoint = some (txid, oi)) (hfetcher : env.fetcher = none) (hproven : item.parentProven = true) :
    Fetches env st item ((fetchNamed env item txid oi).result st) := by
  have hserves (node : GASPNode) := @serves_asked _ env st item parent txid oi hinput ho hfetcher node
  simp only [hproven, true_or, true_and] at hserves
  show Fetches env st item (fetchNamed env item txid oi st)
  unfold fetchNamed
  split
  case h_1 node hans =>
    refine .node (fun node' => ?_) rfl rfl rfl
    rw [hserves, hans, Except.ok.injEq]
    exact eq_comm
  case h_2 e hans =>
    have hno (node : GASPNode) : ¬ Serves env st item node := by
      rw [hserves, hans]
      exact fun h => by cases h
    split
    · exact .none hno fun n h => by cases h
    · exact .faulted_throw env hno

theorem fetches_fetchNeeded {st : St} {item : PendingInput} {parent txid : Text} {oi : Nat} (hinput : item.spentBy = some parent)
    (ho : parseOutpoint item.outpoint = some (txid, oi)) (hfetcher : env.fetcher = none) (hproven : item.parentProven = false) :
    Fetches env st item ((fetchNeeded env item txid oi).result st) := by
  have hserves (node : GASPNode) := @serves_asked _ env st item parent txid oi hinput ho hfetcher node
  simp only [hproven, Bool.false_eq_true, false_or, ← askPeerForInput_ok] at hserves
  show Fetches env st item (fetchNeeded env item txid oi st)
  unfold fetchNeeded
  split
  case h_1 node st' hans =>
    have hseen := @seen_askPeerForInput _ env item txid oi st
    rw [hans] at hseen
    refine .node (fun node' => ?_) rfl rfl hseen
    rw [hserves, hans, Except.ok.injEq]
    exact eq_comm
  case h_2 e st' hans =>
    refine .faulted_throw env fun node => ?_
    rw [hserves, hans]
    exact fun h => by cases h

theorem fetches (st : St) (item : PendingInput) : Fetches env st item ((fetch env item).result st) := by
  cases hinput : item.spentBy with
  | none => exact fetches_root env hinput
  | some parent =>
    unfold fetch
    rw [hinput]
    dsimp only
    cases ho : parseOutpoint item.outpoint with
    | none =>
      refine .none (fun node hserves => ?_) fun n h => by cases h
      rcases hserves with ⟨hroot, _⟩ | ⟨-, ho', _⟩ | ⟨-, ho', _⟩
      · rw [hinput] at hroot
        cases hroot
      · cases ho.symm.trans ho'
      · cases ho.symm.trans ho'
    | some o =>
      obtain ⟨txid, oi⟩ := o
      cases hfetcher : env.fetcher with
      | some fetcher => exact fetches_fetchInput env hinput ho hfetcher
      | none =>
        dsimp only
        by_cases hproven : item.parentProven = true
        · rw [if_pos hproven]
          exact fetches_fetchNamed env hinput ho hfetcher hproven
        · rw [if_neg hproven]
          exact fetches_fetchNeeded env hinput ho hfetcher (Bool.eq_false_iff.mpr hproven)

/-- A step ends, with its outcome or an error, exactly when the node it is served can be cut where it cuts it. -/
theorem step_ends (st : St) (item : PendingInput) : (step env item).Ends st ↔ ∀ node, Serves env st item node → Sliceable env st node := by
  have hfetches := fetches env st item
  unfold step
  rw [Run.ends_bind, Run.Ends]
  generalize hres : (fetch env item).result st = res at hfetches ⊢
  cases hfetches with
  | @node n node st' hserves hraw hindex hseen =>
    have hsame : Sliceable env st' n ↔ Sliceable env st node := by
      rw [sliceable_congr env hraw hindex]
      exact ⟨fun h => ⟨h.key, hseen ▸ h.logged⟩, fun h => ⟨h.key, hseen.symm ▸ h.logged⟩⟩
    simp only [hserves, forall_eq, ← hsame]
    constructor
    · rintro ⟨-, h⟩
      have habsorb := h (.node n) st' rfl
      rwa [ends_faulted, ends_absorb] at habsorb
    · intro h
      refine ⟨rfl, fun a s' hr => ?_⟩
      cases hr
      rwa [ends_faulted, ends_absorb]
  | @none r st' hserves hr =>
    refine ⟨fun _ node hnode => absurd hnode (hserves node), fun _ => ⟨rfl, fun a s' h => ?_⟩⟩
    cases h
    cases a with
    | expired => exact Run.ends_pure _ _
    | pruned => exact Run.ends_pure _ _
    | node n => exact absurd rfl (hr n)

end

def accented : GASPNode := ⟨"g.0".toList, List.replicate 63 'a' ++ ['é'], 0, none, none⟩

def serving (node : GASPNode) : Env Unit where
  fromHex s := if s.all fun c => c.isDigit || "abcdef".toList.contains c then .ok ⟨s, [], []⟩ else .error "invalid hex"
  proofFromHex _ := .ok ()
  manager := none
  findOutput _ _ := .ok false
  doesAppliedTransactionExist _ := .ok false
  holdsOutputOf _ := .ok false
  iterated := id
  now := 0
  rootNode _ _ _ := .ok node
  requestNode _ _ _ _ := .ok node
  fetcher := none
  rootExhausted := false
  debug := false

theorem served_node_panics :
    ¬ (step (serving accented) ⟨"g.0".toList, "g.0".toList, true, none, false⟩).Ends {} ∧
      ¬ (step (serving accented) ⟨"i.1".toList, "g.0".toList, false, some "g.0".toList, false⟩).Ends {} := by
  decide

end OverlayEngine.NodeTexts
