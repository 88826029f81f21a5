import OverlayEngine.Storage

/-!
# Phase 3: the mutations of one topic

The body of the mutate loop of `submit_counted_inner`: spent marks and spend
notifications, the inserts, the undo, the recursive delete of stale coins, the
`consumed_by` links and the applied row, each as the engine orders them.
-/

namespace OverlayEngine

open Faulty

structure Engine where
  managers : Topic → Option TopicManager
  lookupServices : List LookupService := []
  landingGuard : Option (Txid → Topic → Except String Unit) := none
  verifySpv : Beef → Txid → List Txid → Except EngineError (Option WalkCouldNotRun) := fun _ _ _ => .ok none
  walkCover : Beef → Txid → List Txid := fun _ _ => []
  sortTxs : List BeefTx → List BeefTx := id
  toAtomicBeef : Beef → Txid → Option Beef := fun b txid => (b.body txid).map fun _ => { b with atomicTxid := some txid }
  toAtomicBeef_body : ∀ b txid b', toAtomicBeef b txid = some b' →
    b'.atomicTxid = some txid ∧ b'.body txid = b.body txid ∧ ∀ tx ∈ b'.bodies, tx ∈ b.bodies := by
      intro b txid b' h
      obtain ⟨tx, _, rfl⟩ := Option.map_eq_some_iff.mp h
      exact ⟨rfl, rfl, fun _ h => h⟩
  shipPeers : Option (Topic → Except String (List Key)) := none

structure Subject where
  tx : Tx
  offChainValues : Option Bytes := none
  finalize : Bool := false

variable (E : Engine) (bound : Bound) (sub : Subject) (topic : Topic)

/-! ## The recursive delete -/

def noLongerRetained (o : Output) : List LookupService → M Unit
  | [] => pure ()
  | ls :: rest => do
    let _ ← hooked bound (.outputNoLongerRetainedInHistory ls.name o.outpoint o.topic)
    noLongerRetained o rest

/-- The loop over `outputs_consumed`: a read that faults skips its row, and what
`recur` answers is dropped. -/
def deleteConsumed (recur : Output → M (Except String Unit)) (o : Output) : List Outpoint → M (Except String Unit)
  | [] => pure (.ok ())
  | consumed :: rest => do
    match ← findOutput bound (consumed, o.topic) with
    | .ok (some stale) => do
      let kept := stale.consumedBy.filter (· ≠ o.outpoint)
      match ← updateConsumedBy bound (consumed, o.topic) kept with
      | .error e => pure (.error e)
      | .ok () => do
        let _ ← recur { stale with consumedBy := kept }
        deleteConsumed recur o rest
    | _ => deleteConsumed recur o rest

def deleteUtxoDeep : Nat → Output → M (Except String Unit)
  | 0, _ => pure (.ok ())
  | fuel + 1, o => do
    if o.consumedBy.isEmpty then
      match ← deleteOutput bound (o.outpoint, o.topic) with
      | .error e => pure (.error e)
      | .ok () => do
        noLongerRetained bound o E.lookupServices
        deleteConsumed bound (deleteUtxoDeep fuel) o o.outputsConsumed
    else deleteConsumed bound (deleteUtxoDeep fuel) o o.outputsConsumed

def Store.depth (s : Store) : Nat := s.outputs.entries.length + 1

/-! ## Previous coins -/

def TopicValidation.outputsConsumed (v : TopicValidation) : List Outpoint :=
  (v.previousCoins.zip v.previousOutputs).filterMap fun p =>
    if p.1 ∈ v.admittance.coinsToRetain then some p.2.outpoint else none

def TopicValidation.staleCoins (v : TopicValidation) : List Output :=
  (v.previousCoins.zip v.previousOutputs).filterMap fun p =>
    if p.1 ∈ v.admittance.coinsToRetain then none else some p.2

/-- The STEAK's `coins_removed`, as the engine maps it back to inputs. -/
def TopicValidation.coinsRemoved (v : TopicValidation) : List Nat :=
  v.staleCoins.zipIdx.filterMap fun p => v.previousCoins[p.2]?

def notifySpent (coin : Output) (input : Nat) (r : MutationReport) : List LookupService →
    M (MutationReport × Bool)
  | [] => pure (r, false)
  | ls :: rest => do
    match ← hooked bound (.outputSpent ls.name coin.outpoint topic sub.tx.id input sub.offChainValues) with
    | .ok () => notifySpent coin input r rest
    | .error e => do
      let p ← notifySpent coin input (r.fault topic .outputSpent e) rest
      pure (p.1, true)

def markPrevious (retain : List Nat) (r : MutationReport) : List (Nat × Output) →
    M (MutationReport × Bool × Bool)
  | [] => pure (r, false, false)
  | (input, coin) :: rest => do
    let marked ← markUtxoAsSpent bound (coin.outpoint, topic)
    let r := match marked with
      | .ok () => r
      | .error e => r.fault topic .markUtxoAsSpent e
    let markFaulted := match marked with
      | .ok () => false
      | .error _ => decide (input ∈ retain)
    let (r, notifyFaulted) ← notifySpent bound sub topic coin input r E.lookupServices
    let (r, markFaulted', notifyFaulted') ← markPrevious retain r rest
    pure (r, markFaulted || markFaulted', notifyFaulted || notifyFaulted')

/-! ## Inserts and their undo -/

def admittedOutput (outputsConsumed : List Outpoint) (index now : Nat) : Output :=
  let out := sub.tx.outputs.getD index {}
  { txid := sub.tx.id, outputIndex := index, outputScript := out.lockingScript, satoshis := out.satoshis
    topic := topic, spent := false, outputsConsumed := outputsConsumed, consumedBy := [], score := some now }

def notifyAdmitted (index : Nat) : List LookupService → M (Except String Unit)
  | [] => pure (.ok ())
  | ls :: rest => do
    match ← hooked bound (.outputAdmittedByTopic ls.name ⟨sub.tx.id, index⟩ topic (sub.tx.outputs.getD index {})
        sub.offChainValues) with
    | .ok () => notifyAdmitted index rest
    | .error e => pure (.error e)

def insertAdmitted (outputsConsumed : List Outpoint) (r : MutationReport) : List Nat →
    M (MutationReport × List Nat × Bool)
  | [] => pure (r, [], false)
  | index :: rest => do
    let now ← read Db.now
    match ← insertOutput bound (admittedOutput sub topic outputsConsumed index now) with
    | .error e => pure (r.fault topic .insertOutput e, [index], true)
    | .ok () => do
      match ← notifyAdmitted bound sub topic index E.lookupServices with
      | .error e => pure (r.fault topic .outputAdmittedByTopic e, [index], true)
      | .ok () => do
        let (r, attempted, faulted) ← insertAdmitted outputsConsumed r rest
        pure (r, index :: attempted, faulted)

def undoInserts (r : MutationReport) : List Nat → M MutationReport
  | [] => pure r
  | index :: rest => do
    match ← findOutput bound (⟨sub.tx.id, index⟩, topic) with
    | .ok (some row) =>
      if !row.spent && row.consumedBy.isEmpty then do
        match ← deleteOutput bound (⟨sub.tx.id, index⟩, topic) with
        | .ok () => undoInserts r rest
        | .error e => undoInserts (r.fault topic .undoInsertOutput e) rest
      else undoInserts r rest
    | .ok none => undoInserts r rest
    | .error e => undoInserts (r.fault topic .undoInsertOutput e) rest

/-! ## Stale coins -/

def deleteStale (r : MutationReport) : List Output → M (MutationReport × Bool × Bool)
  | [] => pure (r, false, false)
  | stale :: rest => do
    match ← insertAppliedTransaction bound stale.txid topic with
    | .error e => do
      let (r, _, started) ← deleteStale (r.fault topic .recordSpentCoinApplied e) rest
      pure (r, true, started)
    | .ok () => do
      forgetUnlanded stale.txid topic
      match ← findOutput bound (stale.outpoint, topic) with
      | .ok (some row) => do
        let depth ← read fun d => d.store.depth
        match ← deleteUtxoDeep E bound depth row with
        | .ok () => do
          let (r, faulted, _) ← deleteStale r rest
          pure (r, faulted, true)
        | .error e => do
          let (r, _, _) ← deleteStale (r.fault topic .deleteUtxoDeep e) rest
          pure (r, true, true)
      | .ok none => deleteStale r rest
      | .error e => do
        let (r, _, started) ← deleteStale (r.fault topic .findOutput e) rest
        pure (r, true, started)

def readBack : List Output → M Bool
  | [] => pure true
  | stale :: rest => do
    match ← findOutput bound (stale.outpoint, topic) with
    | .ok (some _) => readBack rest
    | _ => pure false

def allHeld (skip : Bool) (stale : List Output) : M Bool := if skip then pure false else readBack bound topic stale

def undoIf (held : Bool) (r : MutationReport) (attempted : List Nat) : M MutationReport :=
  if held then undoInserts bound sub topic r attempted else pure r

/-- `consumed_by` of the retained coins gains the new outputs. -/
def linkConsumed (newUtxos : List Outpoint) (r : MutationReport) : List Outpoint → M MutationReport
  | [] => pure r
  | consumed :: rest => do
    match ← findOutput bound (consumed, topic) with
    | .ok (some o) => do
      let linked := newUtxos.foldl (fun l u => if u ∈ l then l else l ++ [u]) o.consumedBy
      match ← updateConsumedBy bound (consumed, topic) linked with
      | .ok () => linkConsumed newUtxos r rest
      | .error e => linkConsumed newUtxos (r.fault topic .updateConsumedBy e) rest
    | .ok none => linkConsumed newUtxos r rest
    | .error e => linkConsumed newUtxos (r.fault topic .findOutput e) rest

/-! ## One topic -/

def linkAndRecord (v : TopicValidation) (faultsBefore : Nat) (r : MutationReport) (attempted : List Nat) :
    M MutationReport := do
  let newUtxos := attempted.map fun i => (⟨sub.tx.id, i⟩ : Outpoint)
  let r ← linkConsumed bound v.topic newUtxos r v.outputsConsumed
  if faultsBefore < r.faults.length then do
    holdUnapplied sub.tx.id v.topic
    pure r
  else do
    match ← insertAppliedTransaction bound sub.tx.id v.topic with
    | .ok () => do
      forgetUnlanded sub.tx.id v.topic
      pure { r with appliedTopics := r.appliedTopics ++ [v.topic] }
    | .error e => do
      holdUnapplied sub.tx.id v.topic
      pure (r.fault v.topic .insertAppliedTransaction e)

def deleteAndRecord (v : TopicValidation) (faultsBefore : Nat) (r : MutationReport) (attempted : List Nat) :
    M MutationReport := do
  let dueBefore ← isDue bound
  let (r, deleteFaulted, deleteStarted) ← deleteStale E bound v.topic r v.staleCoins
  if deleteFaulted then do
    let dueNow ← isDue bound
    renew bound
    -- a call that did not answer, or a delete that was started, undoes nothing
    let held ← allHeld bound v.topic ((!dueBefore && dueNow) || deleteStarted) v.staleCoins
    let r ← undoIf bound sub v.topic held r attempted
    holdUnapplied sub.tx.id v.topic
    pure r
  else linkAndRecord bound sub v faultsBefore r attempted

def insertAndRecord (v : TopicValidation) (faultsBefore : Nat) (r : MutationReport) : M MutationReport := do
  let (r, attempted, insertFaulted) ←
    insertAdmitted E bound sub v.topic v.outputsConsumed r v.admittance.outputsToAdmit
  if insertFaulted then do
    renew bound
    let r ← undoInserts bound sub v.topic r attempted
    holdUnapplied sub.tx.id v.topic
    pure r
  else deleteAndRecord E bound sub v faultsBefore r attempted

def applyJudged (v : TopicValidation) (r : MutationReport) : M MutationReport := do
  let faultsBefore := r.faults.length
  let (r, retainedMarkFaulted, spendNotifyFaulted) ←
    markPrevious E bound sub v.topic v.admittance.coinsToRetain r (v.previousCoins.zip v.previousOutputs)
  if retainedMarkFaulted || spendNotifyFaulted then do
    holdUnapplied sub.tx.id v.topic
    pure r
  else insertAndRecord E bound sub v faultsBefore r

def applyTopic (waits : AList fun _ : Topic => String) (v : TopicValidation) (r : MutationReport) :
    M MutationReport :=
  if v.isDupe then pure { r with dedupedTopics := r.dedupedTopics ++ [v.topic] }
  else if v.failed then pure r
  else match v.readFault, waits.lookup v.topic with
    | some (site, e), _ => do
      holdUnapplied sub.tx.id v.topic
      pure (r.fault v.topic site e)
    | none, some notNow => do
      holdUnapplied sub.tx.id v.topic
      pure (r.fault v.topic .predecessorNotLanded notNow)
    | none, none => applyJudged E bound sub v r

def steakRemoved (waits : AList fun _ : Topic => String) (v : TopicValidation) (steak : Steak) : Steak :=
  if v.isDupe || v.failed || v.readFault.isSome || (waits.lookup v.topic).isSome then steak
  else match steak.lookup v.topic with
    | some entry => steak.insert v.topic { entry with coinsRemoved := some v.coinsRemoved }
    | none => steak

def mutate (waits : AList fun _ : Topic => String) : List TopicValidation → Steak × MutationReport →
    M (Steak × MutationReport)
  | [], p => pure p
  | v :: rest, (steak, r) => do
    let r ← applyTopic E bound sub waits v r
    mutate waits rest (steakRemoved waits v steak, r)

end OverlayEngine
