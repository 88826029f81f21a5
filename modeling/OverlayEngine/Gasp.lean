import OverlayEngine.Types

/-!
# The walk of a GASP graph

A sync asks a peer for the graph behind an output it lists: the root first,
then every input a node needs, on an explicit stack. Between two steps the walk
can be cut; its record then holds the nodes fetched and the inputs still
pending, and a later pass resumes from it.
-/

namespace OverlayEngine.Gasp

inductive GraphId where
  | at (o : Outpoint)
  | text (s : String)
  deriving DecidableEq

inductive RawTx where
  | parsed (tx : Tx)
  | unparsed (head : Txid)
  deriving DecidableEq

def RawTx.parse : RawTx → Option Tx
  | .parsed tx => some tx
  | .unparsed _ => none

def RawTx.txid : RawTx → Txid
  | .parsed tx => tx.id
  | .unparsed head => head

structure Node where
  graphId : GraphId
  rawTx : RawTx
  outputIndex : Nat
  proof : Option String := none
  bytes : Nat := 0
  deriving DecidableEq

/-- `txid.outputIndex`, the txid computed from the node's own bytes. -/
def Node.id (n : Node) : Outpoint := ⟨n.rawTx.txid, n.outputIndex⟩

/-- `node_id`: only of a node that parses. -/
def Node.nodeId (n : Node) : Option Outpoint := n.rawTx.parse.map fun tx => ⟨tx.id, n.outputIndex⟩

inductive Error where
  | definitiveNotFound (what : String)
  | courierBudget
  | nodeNotFound (what : String)
  | validationFailed (why : String)
  | remoteError (what : String)
  | routeFault (what : String)
  | storageError (what : String)
  | anchorUnavailable (what : String)
  | anchorWalkHeld (what : String)
  | other (what : String)
  deriving DecidableEq

def Error.isNodeNotFound : Error → Bool
  | .nodeNotFound _ => true
  | _ => false

inductive FaultClass where
  | courier
  | notFound
  | notServed
  | peer
  | verification
  | other
  | route
  deriving DecidableEq

structure PendingInput where
  outpoint : Outpoint
  graphId : GraphId
  metadata : Bool
  spentBy : Option Outpoint
  parentProven : Bool
  deriving DecidableEq

structure WalkedNode where
  node : Node
  spentBy : Option Outpoint
  deriving DecidableEq

inductive Reason where
  | plain (why : String)
  | faultRetry (fault : FaultClass)
  | unanchorable (fault : FaultClass)
  | dead (fault : FaultClass)
  deriving DecidableEq

/-- The persisted walk of one root; `pending` is a stack whose last is asked next. -/
structure DeferredGraph where
  outpoint : Outpoint
  score : Nat
  nodes : List WalkedNode := []
  pending : List PendingInput := []
  calls : Nat := 0
  passes : Nat := 0
  reason : Reason := .plain ""
  idleFaults : Nat := 0
  cursorPassable : Bool := false
  faults : Nat := 0
  retryAt : Nat := 0
  idleResumes : Nat := 0
  unanchorableRetries : Nat := 0
  expiry : Option Nat := none
  deriving DecidableEq

namespace DeferredGraph

def isStruck (r : DeferredGraph) : Bool :=
  decide (0 < r.faults) && (match r.reason with
    | .plain _ => false
    | .faultRetry _ | .unanchorable _ | .dead _ => true)

def isUnanchorable (r : DeferredGraph) : Bool :=
  decide (0 < r.faults) && (match r.reason with
    | .unanchorable _ => true
    | _ => false)

def isDead (r : DeferredGraph) : Bool :=
  decide (0 < r.faults) && (match r.reason with
    | .dead _ => true
    | _ => false)

def faultClass (r : DeferredGraph) : Option FaultClass :=
  if r.isStruck then match r.reason with
    | .plain _ => none
    | .faultRetry c | .unanchorable c | .dead c => some c
  else none

end DeferredGraph

structure PassCap where
  calls : Nat
  bytes : Nat
  nodes : Nat

structure Walk where
  record : DeferredGraph
  seen : List Outpoint := []
  callsThisPass : Nat := 0
  bytesThisPass : Nat := 0
  nodesThisPass : Nat := 0
  resumed : Bool := false
  cap : Option PassCap := none
  nodesAtStart : Nat := 0
  counted : Bool := false
  goneOn : Bool := false
  struck : Option DeferredGraph := none

namespace Walk

def overCap (w : Walk) : Option String :=
  w.cap.bind fun cap =>
    if cap.calls ≤ w.callsThisPass then some "calls"
    else if cap.bytes ≤ w.bytesThisPass then some "bytes"
    else if cap.nodes ≤ w.nodesThisPass then some "nodes"
    else none

/-- `count_call` and `count_fetched`, over a whole step. -/
def count (w : Walk) (calls bytes : Nat) : Walk :=
  { w with
    callsThisPass := w.callsThisPass + calls
    bytesThisPass := w.bytesThisPass + bytes
    record := { w.record with calls := w.record.calls + calls } }

def pop (w : Walk) : Walk := { w with record := { w.record with pending := w.record.pending.dropLast } }

end Walk

def rootInput (outpoint : Outpoint) : PendingInput :=
  { outpoint := outpoint, graphId := .at outpoint, metadata := true, spentBy := none, parentProven := false }

/-- A walk from the root `outpoint`, nothing fetched yet. -/
def freshWalk (score : Nat) (outpoint : Outpoint) (cap : Option PassCap) : Walk :=
  { record := { outpoint := outpoint, score := score, pending := [rootInput outpoint] }, cap := cap }

def resumeWalk (record : DeferredGraph) (cap : Option PassCap) : Walk :=
  { record := record
    seen := record.nodes.filterMap fun walked => walked.node.nodeId
    nodesAtStart := record.nodes.length
    resumed := true
    cap := cap }

/-! ## A step -/

structure Ancestor where
  rawTx : RawTx
  proof : Option String
  bytes : Nat

structure AncestorFetcher where
  fetchAncestor : Txid → Except Error Ancestor
  verifiedProofFor : Txid → Option String

/-- What the peer, the courier and the adapter answer. The needed inputs of a node are a map:
the list is in the order one iteration of it takes. -/
structure Source where
  requestNode : GraphId → Outpoint → Bool → Except Error Node
  fetcher : Option AncestorFetcher := none
  findNeededInputs : Node → Except Error (List (Outpoint × Bool))
  syncExpiry : Node → Outpoint → Except Error (Option Nat)

structure Memos where
  pruned : List Outpoint := []
  absent : List Outpoint := []

inductive StepOut where
  | expired
  | pruned
  | seen
  | appended (id : Outpoint) (walked : WalkedNode) (children : List PendingInput)

structure Stepped (α : Type) where
  calls : Nat
  bytes : Nat
  memos : Memos
  out : Except Error α

section
variable (S : Source) (now : Nat)

def rootExpired (node : Node) (outpoint : Outpoint) : Except Error Bool :=
  (S.syncExpiry node outpoint).map fun expiry => expiry.any fun e => decide (e ≤ now)

def hydrateRoot (node : Node) : Node × Nat :=
  match node.proof, S.fetcher, node.nodeId with
  | none, some fetcher, some id => ({ node with proof := fetcher.verifiedProofFor id.txid }, 1)
  | _, _, _ => (node, 0)

def fetchRoot (m : Memos) (item : PendingInput) : Stepped (Option Node) :=
  match S.requestNode item.graphId item.outpoint item.metadata with
  | .error e => ⟨1, 0, m, .error e⟩
  | .ok node =>
    match rootExpired S now node item.outpoint with
    | .error e => ⟨1, node.bytes, m, .error e⟩
    | .ok true => ⟨1, node.bytes, m, .ok none⟩
    | .ok false => ⟨1 + (hydrateRoot S node).2, node.bytes, m, .ok (some (hydrateRoot S node).1)⟩

def askPeerForInput (m : Memos) (item : PendingInput) : Stepped Node :=
  if item.outpoint ∈ m.absent then
    ⟨0, 0, m, .error (.nodeNotFound "the peer answered it does not hold it earlier in this sync")⟩
  else
    match S.requestNode item.graphId item.outpoint item.metadata with
    | .ok node => ⟨1, node.bytes, m, .ok node⟩
    | .error e =>
      ⟨1, 0, if e.isNodeNotFound then { m with absent := item.outpoint :: m.absent } else m, .error e⟩

def fetchInput (fetcher : AncestorFetcher) (m : Memos) (item : PendingInput) : Stepped Node :=
  match fetcher.fetchAncestor item.outpoint.txid with
  | .ok a =>
    ⟨1, a.bytes, m, .ok { graphId := item.graphId, rawTx := a.rawTx, outputIndex := item.outpoint.outputIndex
                          proof := a.proof, bytes := a.bytes }⟩
  | .error e =>
    if item.parentProven || e == .courierBudget then ⟨1, 0, m, .error e⟩
    else
      let asked := askPeerForInput S m item
      { asked with
        calls := asked.calls + 1
        out := asked.out.mapError fun peer => if peer.isNodeNotFound then peer else e }

def fetchNamed (m : Memos) (item : PendingInput) : Stepped (Option Node) :=
  match S.requestNode item.graphId item.outpoint item.metadata with
  | .ok node => ⟨1, node.bytes, m, .ok (some node)⟩
  | .error e =>
    if e.isNodeNotFound then
      ⟨1, 0, if item.outpoint ∈ m.pruned then m else { m with pruned := item.outpoint :: m.pruned }, .ok none⟩
    else ⟨1, 0, m, .error e⟩

/-- The node of `item`, fetched: a node already seen is dropped, any other is appended and its inputs named. -/
def absorb (seen : List Outpoint) (item : PendingInput) (node : Node) : Except Error StepOut :=
  if node.id ∈ seen then .ok .seen
  else (S.findNeededInputs node).map fun needed =>
    .appended node.id ⟨node, item.spentBy⟩ (needed.map fun input =>
      { outpoint := input.1, graphId := node.graphId, metadata := input.2, spentBy := some node.id
        parentProven := node.proof.isSome })

def Stepped.absorbed (f : Stepped Node) (seen : List Outpoint) (item : PendingInput) : Stepped StepOut :=
  { f with out := f.out.bind (absorb S seen item) }

/-- The fetched node absorbed, or `missing` when there is none. -/
def Stepped.absorbedOr (f : Stepped (Option Node)) (seen : List Outpoint) (item : PendingInput) (missing : StepOut) :
    Stepped StepOut :=
  { f with out := f.out.bind fun node =>
      match node with
      | some node => absorb S seen item node
      | none => .ok missing }

/-- One step: fetch `item`, append it, name its needed inputs. -/
def step (m : Memos) (seen : List Outpoint) (item : PendingInput) : Stepped StepOut :=
  if item.spentBy.isNone then (fetchRoot S now m item).absorbedOr S seen item .expired
  else match S.fetcher with
    | some fetcher => (fetchInput S fetcher m item).absorbed S seen item
    | none =>
      if item.parentProven then (fetchNamed S m item).absorbedOr S seen item .pruned
      else (askPeerForInput S m item).absorbed S seen item

end

def Walk.commit (w : Walk) : StepOut → Walk
  | .appended id walked children =>
    { w with
      seen := id :: w.seen
      nodesThisPass := w.nodesThisPass + 1
      record := { w.record with
        nodes := w.record.nodes ++ [walked], pending := w.record.pending.dropLast ++ children.reverse } }
  | _ => w.pop

/-! ## The walk's loop -/

/-- How a walk ended in its pass. `dropped` is a future dropped by the per-peer deadline. -/
inductive WalkEnd where
  | done
  | expired
  | deferred (reason : String)
  | dropped
  | faulted (e : Error)
  deriving DecidableEq

inductive CutBy where
  | drop
  | slice
  | courier
  | fault (e : Error)

def CutBy.ended : CutBy → WalkEnd
  | .drop => .dropped
  | .slice => .deferred "time"
  | .courier => .deferred "courier_rungs"
  | .fault e => .faulted e

inductive Cut where
  | go
  | due
  | inside (cause : CutBy) (calls bytes : Nat) (learned : Bool)

/-- `walk_graph`, one element of the list for each turn; the sync is dropped where it ends. -/
def walkGraph (S : Source) (now : Nat) : List Cut → Memos → Walk → WalkEnd × Memos × Walk
  | [], m, w => (.dropped, m, w)
  | cut :: rest, m, w =>
    match w.record.pending.getLast? with
    | none => (.done, m, w)
    | some item =>
      if item.parentProven && decide (item.outpoint ∈ m.pruned) then walkGraph S now rest m w.pop
      else match w.overCap with
        | some limb => (.deferred limb, m, w)
        | none =>
          let stepped := step S now m w.seen item
          match cut with
          | .due => (.deferred "time", m, w)
          | .inside cause calls bytes learned =>
            (cause.ended, if learned then stepped.memos else m, w.count calls bytes)
          | .go =>
            let w := w.count stepped.calls stepped.bytes
            match stepped.out with
            | .error .courierBudget => (.deferred "courier_rungs", stepped.memos, w)
            | .error e => (.faulted e, stepped.memos, w)
            | .ok .expired => (.expired, stepped.memos, w)
            | .ok out => walkGraph S now rest stepped.memos (w.commit out)

section
variable {S : Source} {now : Nat} {rest : List Cut} {m : Memos} {w : Walk}

theorem walkGraph_turn :
    (w.record.pending = [] → ∀ cut, walkGraph S now (cut :: rest) m w = (.done, m, w)) ∧
    ∀ item, w.record.pending.getLast? = some item →
      ((item.parentProven && decide (item.outpoint ∈ m.pruned)) = true →
        ∀ cut, walkGraph S now (cut :: rest) m w = walkGraph S now rest m w.pop) ∧
      ∀ out, ¬(item.parentProven && decide (item.outpoint ∈ m.pruned)) = true → w.overCap = none → (step S now m w.seen item).out = .ok out →
        out ≠ .expired → walkGraph S now (.go :: rest) m w = walkGraph S now rest (step S now m w.seen item).memos
          ((w.count (step S now m w.seen item).calls (step S now m w.seen item).bytes).commit out) := by
  refine ⟨fun hitem cut => ?_, fun item hitem => ⟨fun hpruned cut => ?_, fun out hpruned hcap hout hexpired => ?_⟩⟩
  · simp only [walkGraph, hitem, List.getLast?_nil]
  · simp only [walkGraph, hitem, if_pos hpruned]
  · simp only [walkGraph, hitem, if_neg hpruned, hcap, hout]

end

/-! ## Saving a walk -/

def deferredGraphsPerPeerTopic : Nat := 16
def deadlineStallDeferralRuns : Nat := 3
def idleResumesBeforeBackoff : Nat := 3
def idleResumeRetrySecs : Nat := 21600

/-- `saturating_add(1)` of a `u32`. -/
def bump (n : Nat) : Nat := min (n + 1) (2 ^ 32 - 1)

inductive DropReason where
  | maxPasses
  | tooMany
  | storeFault
  | notServed
  | held
  | notHeld
  | rootProven
  | refused
  | noProgress
  | idleFaults
  deriving DecidableEq

/-- What `save_walk` asks of the storage: nothing for a walk that went on, or
that is not kept, else to save the walk's record, as a retry that holds the cursor or not. -/
inductive Keep where
  | wentOn
  | unkept (why : DropReason) (w : Walk)
  | save (w : Walk) (retry : Bool)

def Walk.saved (w : Walk) (now : Nat) (reason : String) (completed : Bool) : DeferredGraph :=
  let wasHeld := w.record.cursorPassable
  let streak := wasHeld || w.record.reason == .plain "retry:deadline"
  let passes := (if w.record.nodes.isEmpty && !streak then 0 else w.record.passes) + 1
  let retry := w.record.nodes.isEmpty && reason == "time" && !wasHeld && decide (passes < deadlineStallDeferralRuns)
  let progressed := decide (w.nodesAtStart < w.record.nodes.length)
  -- a resumed pass of a held record that asked and appended nothing counts one idle resume
  let idle := w.resumed && wasHeld && w.struck.isNone && !completed && decide (0 < w.callsThisPass) && !progressed
  let idleResumes := if progressed then 0 else if idle then bump w.record.idleResumes else w.record.idleResumes
  { w.record with
    passes := passes
    cursorPassable := !retry
    reason := .plain (if retry then "retry:deadline" else reason)
    idleFaults := if progressed then 0 else w.record.idleFaults
    idleResumes := idleResumes
    retryAt :=
      if idle && decide (idleResumesBeforeBackoff ≤ idleResumes) then now + idleResumeRetrySecs
      else if progressed then 0 else w.record.retryAt }

/-- `save_walk`, up to its call of the storage. -/
def saveWalk (now heldRecords : Nat) (reason : String) (completed : Bool) (w : Walk) : Keep :=
  if w.goneOn then .wentOn
  else
    let saved := { w with counted := true, record := w.saved now reason completed }
    let deadlineCut := reason == "time" || reason == "peer_deadline"
    if w.record.nodes.isEmpty && !deadlineCut && !w.record.cursorPassable then .unkept .noProgress saved
    else if !w.resumed && decide (deferredGraphsPerPeerTopic ≤ heldRecords) then .unkept .tooMany saved
    else .save saved (!saved.record.cursorPassable)

/-! ## Records rewritten without a walk -/

/-- The obligation `drop_record` leaves of a record the cursor may have passed. -/
def retryRecord (score : Nat) (outpoint : Outpoint) : DeferredGraph :=
  { (freshWalk score outpoint none).record with reason := .plain "retry", cursorPassable := true }

/-- `drop_record`: a root that is held or refused owes nothing, a record the cursor may have passed leaves its obligation. -/
def dropRecord (outpoint : Outpoint) (why : DropReason) : Option DeferredGraph → Option DeferredGraph
  | none => none
  | some r =>
    if why == .held || why == .refused then none
    else if r.cursorPassable then some (retryRecord r.score outpoint) else none

/-- `idle_resume`: one more idle resume of a held record its pass did not save. -/
def idleResume (now prior held : Nat) (r : DeferredGraph) : DeferredGraph :=
  if r.isStruck || !r.cursorPassable || decide (held < r.nodes.length) then r
  else
    { r with
      idleResumes := bump prior
      retryAt := if idleResumesBeforeBackoff ≤ bump prior then now + idleResumeRetrySecs else r.retryAt }

def heldBack (r : DeferredGraph) : DeferredGraph :=
  if r.reason == .plain "retry:deadline" || r.isStruck then r else { r with cursorPassable := true }

def unanchorableAfterFaultedRuns : Nat := 3
def unanchorableRetriesMax : Nat := 4
def absenceGapSecs : Nat := 60
def unanchorableRetrySecs : Nat := 21600

/-- The record `strike` writes: one more faulted run of `outpoint`, on its record `prior` or on a new one. -/
def strike (now score : Nat) (outpoint : Outpoint) (fault : FaultClass) (expiry : Option Nat) (prior : Option DeferredGraph) :
    DeferredGraph :=
  let faults := bump (prior.elim 0 DeferredGraph.faults)
  let retries := prior.elim 0 DeferredGraph.unanchorableRetries
  let unanchorable := decide (unanchorableAfterFaultedRuns ≤ faults)
  let spent := unanchorable && decide (unanchorableRetriesMax ≤ retries)
  { (freshWalk score outpoint none).record with
    faults := faults
    unanchorableRetries := retries
    expiry := expiry <|> prior.bind DeferredGraph.expiry
    cursorPassable := unanchorable || prior.any DeferredGraph.cursorPassable
    reason := if spent then .dead fault else if unanchorable then .unanchorable fault else .faultRetry fault
    retryAt :=
      if spent then 0
      else if unanchorable then now + unanchorableRetrySecs
      else if fault == .notFound then now + absenceGapSecs else 0 }

/-- The record `keep_unanchorable` writes: its backoff starts again, or its allowance is spent. -/
def keepUnanchorable (now : Nat) (r : DeferredGraph) : DeferredGraph :=
  if unanchorableRetriesMax ≤ r.unanchorableRetries then
    { r with retryAt := 0, reason := .dead (r.faultClass.getD .other) }
  else { r with retryAt := now + unanchorableRetrySecs }

/-- The retry `rewalk_struck` reserves before it walks an unanchorable root. -/
def reserved (now : Nat) (r : DeferredGraph) : DeferredGraph :=
  { r with unanchorableRetries := r.unanchorableRetries + 1, retryAt := now + unanchorableRetrySecs }

end OverlayEngine.Gasp
