import OverlayEngine.Mutate

/-!
# The submit

Validation of each topic, the successor rule with the predecessors the door
lands first from the BEEF, and Phase 3. A landing is a submit of its own that
lands nothing further, so the landing is a parameter of the rule.
-/

namespace OverlayEngine

open Faulty

def predecessorReadsPerSubmit : Nat := 256

/-! ## The subject -/

/-- `subject_txid_of`: the atomic name, else the unique tip, else the sorted-last. -/
def subjectTxidOf (E : Engine) (b : Beef) : Option Txid :=
  match b.atomicTxid.filter fun a => b.txs.any fun e => e.txid = a with
  | some a => some a
  | none =>
    let spent := b.bodies.flatMap fun tx => tx.inputs.filterMap TxInput.sourceTxid
    match (b.bodies.map Tx.id).filter (· ∉ spent) with
    | [tip] => some tip
    | _ => ((E.sortTxs b.txs).getLast?.filter fun e => e.tx.isSome).map BeefTx.txid

/-- `transaction_from_beef` of the named subject, else of the atomic or wire-last entry. -/
def transactionFromBeef (b : Beef) (txid : Option Txid) : Except EngineError Tx :=
  match txid.or (b.atomicTxid.or (b.txs.getLast?.map BeefTx.txid)) with
  | none => .error (.beefParseError "No transactions in BEEF")
  | some target =>
    match b.body target with
    | some tx => .ok tx
    | none => .error (.beefParseError ("Transaction " ++ target ++ " not found in BEEF"))

section
variable (E : Engine) (bound : Bound)

/-! ## Phase 1 -/

def nextAsk : M Nat := do
  let n ← read Db.asks
  update fun d => { d with asks := d.asks + 1 }
  pure n

def judge (tx : Tx) (topic : Topic) (previousCoins : List Nat) (offChainValues : Option Bytes)
    (mode : SubmitMode) (dryRun : Bool) : M (Except TopicManagerError AdmittanceInstructions) := do
  match E.managers topic with
  | none => pure (.error (.other "no manager"))
  | some manager => do
    let n ← nextAsk
    match ← asked bound with
    | .error e => pure (.error (.other e))
    | .ok () => pure (manager.identifyAdmissibleOutputs n tx previousCoins offChainValues mode dryRun)

def findPrevious (topic : Topic) : List (TxInput × Nat) → M (List Nat × List Output × Option (Site × String))
  | [] => pure ([], [], none)
  | (input, i) :: rest =>
    match input.spends with
    | none => findPrevious topic rest
    | some o => do
      match ← findOutput bound (o, topic) with
      | .ok (some row) => do
        let (coins, outputs, fault) ← findPrevious topic rest
        pure (i :: coins, row :: outputs, fault)
      | .ok none => findPrevious topic rest
      | .error e => do
        let (coins, outputs, _) ← findPrevious topic rest
        pure (coins, outputs, some (.findOutput, e))

def validateTopic (tx : Tx) (topic : Topic) (offChainValues : Option Bytes) (mode : SubmitMode)
    (dryRun : Bool) : M TopicValidation := do
  match ← doesAppliedTransactionExist bound tx.id topic with
  | .error e => pure { topic := topic, readFault := some (.doesAppliedTransactionExist, e) }
  | .ok true => pure { topic := topic, isDupe := true }
  | .ok false => do
    let (coins, outputs, readFault) ← findPrevious bound topic tx.inputs.zipIdx
    match ← judge E bound tx topic coins offChainValues mode dryRun with
    | .ok admittance =>
      pure { topic := topic, previousCoins := coins, previousOutputs := outputs, admittance := admittance
             readFault := readFault }
    | .error _ => pure { topic := topic, failed := true, readFault := readFault }

def validateTopics (tx : Tx) (offChainValues : Option Bytes) (mode : SubmitMode) (dryRun : Bool) :
    List Topic → M (List TopicValidation)
  | [] => pure []
  | topic :: rest => do
    let v ← validateTopic E bound tx topic offChainValues mode dryRun
    let vs ← validateTopics tx offChainValues mode dryRun rest
    pure (v :: vs)

/-! ## Phase 2 -/

def readPeers : List Key → M Unit
  | [] => pure ()
  | k :: rest => do
    let _ ← findOutput none k
    readPeers rest

def propagate (peers : Topic → Except String (List Key)) : List TopicValidation → M Unit
  | [] => pure ()
  | v :: rest => do
    let relevant := !v.isDupe && !v.failed && !v.admittance.outputsToAdmit.isEmpty
    readPeers (if relevant then (peers v.topic).toOption.getD [] else [])
    propagate peers rest

/-- `walked` is given for a carried predecessor: what this submit's walks passed over. -/
def runValidation (tagged : TaggedBeef) (mode : SubmitMode) (dryRun : Bool) (walked : Option (List Txid))
    (policy : WalkBreachPolicy) :
    M (Except EngineError (List TopicValidation × Tx × Option WalkCouldNotRun)) :=
  match tagged.topics.find? fun t => (E.managers t).isNone with
  | some t => pure (.error (.unsupportedTopic t))
  | none =>
    match transactionFromBeef tagged.beef (subjectTxidOf E tagged.beef) with
    | .error e => pure (.error e)
    | .ok tx =>
      let spv := if mode = .historicalTxNoSpv ∨ (walked.getD []).contains tx.id then .ok none
        else E.verifySpv tagged.beef tx.id (walked.getD [])
      match spv, policy with
      | .error e, _ => pure (.error e)
      | .ok (some stop), .notNow => pure (.error (.walkCouldNotRun stop))
      | .ok couldNotRun, _ => do
        let vs ← validateTopics E bound tx tagged.offChainValues mode dryRun tagged.topics
        propagate ((if mode = .currentTx then E.shipPeers else none).getD fun _ => .ok []) vs
        pure (.ok (vs, tx, couldNotRun))

/-! ## The predecessor question -/

def namedHistory (manager : TopicManager) (beef : Beef) : M (List Outpoint) := do
  let n ← nextAsk
  match ← asked bound with
  | .error _ => pure []
  | .ok () => match manager.identifyNeededInputs n beef with
    | .ok named => pure named
    | .error _ => pure []

structure NotNow where
  why : String
  carried : Option Txid := none

structure Question where
  ask : List Txid
  asked : List Txid := []
  spenders : List (Txid × Txid × Nat) := []
  subjectNames : Option (List Outpoint) := none
  namesOver : AList fun _ : Txid => List Outpoint := ∅
  reads : Nat := 0

def outOfAllowance (candidate : Txid) : String :=
  candidate ++ " is not known to have landed: the question ran out of the submit's 256 reads"

def unread (candidate : Txid) (e : String) : String :=
  candidate ++ " is not known to have landed: the store could not say (" ++ e ++ ")"

variable (manager : TopicManager) (tx : Tx) (beef : Beef) (topic : Topic) (mode : SubmitMode)

def askSubjectNames (names : Option (List Outpoint)) : M (List Outpoint) :=
  match names with
  | some named => pure named
  | none => namedHistory bound manager beef

def askCoins (candidate : Txid) (reads : Nat) : List TxInput → M (Nat × Except NotNow (List Outpoint))
  | [] => pure (reads, .ok [])
  | input :: rest =>
    match input.spends with
    | none => askCoins candidate reads rest
    | some o =>
      if reads ≥ predecessorReadsPerSubmit then pure (reads, .error { why := outOfAllowance candidate })
      else do
        match ← findOutput bound (o, topic) with
        | .ok (some _) =>
          pure (reads + 1, .error { why := candidate ++ " has not landed", carried := some candidate })
        | .error e => pure (reads + 1, .error { why := unread candidate e })
        | .ok none => do
          let (reads, answer) ← askCoins candidate (reads + 1) rest
          pure (reads, answer.map (o :: ·))

def spenderNames (spender : Txid) (q : Question) : M (Question × List Outpoint) :=
  if spender = tx.id then do
    let names ← askSubjectNames bound manager beef q.subjectNames
    pure ({ q with subjectNames := some names }, names)
  else match q.namesOver.lookup spender, E.toAtomicBeef beef spender with
    | some names, _ => pure (q, names)
    | none, some spenderBeef => do
      let names ← namedHistory bound manager spenderBeef
      pure ({ q with namesOver := q.namesOver.insert spender names }, names)
    | none, none => pure ({ q with namesOver := q.namesOver.insert spender [] }, [])

/-- The outputs of `candidate` some spender names. -/
def namedOutputs (candidate : Txid) (q : Question) : List (Txid × Nat) → M (Question × List Nat)
  | [] => pure (q, [])
  | (spender, vout) :: rest => do
    let (q, names) ← spenderNames E bound manager tx beef spender q
    let (q, outputs) ← namedOutputs candidate q rest
    pure (q, if (⟨candidate, vout⟩ : Outpoint) ∈ names then vout :: outputs else outputs)

def dryRun (candidate : Txid) (body : Tx) (named : List Nat) : M (Option NotNow) := do
  let n ← nextAsk
  match ← asked bound with
  | .error e => pure (some
      { why := candidate ++ " is not known to have landed: the manager did not answer (" ++ e ++ ")" })
  | .ok () => match manager.identifyAdmissibleOutputs n body [] none mode true with
    | .ok admittance =>
      if admittance.outputsToAdmit.any fun vout => vout ∈ named then pure (some
        { why := candidate ++ " has not landed (the manager names the output spent from it and would admit it with no coin: an opener)"
          carried := some candidate })
      else pure none
    | .error (.noAdmissibleOutputs _) => pure none
    | .error (.other e) => pure (some
        { why := candidate ++ " is not known to have landed: the manager could not judge it (" ++ e ++ ")" })

/-- Whether the store is asked of a candidate: an absent body only when it is
one of the subject's own sources (`direct`) and the manager names it. -/
def asksStore (foundCoin : Bool) (direct : List Txid) (candidate : Txid) (spentOutputs : List (Txid × Nat))
    (q : Question) : M (Question × Bool) :=
  if (beef.body candidate).isSome then pure (q, true)
  else if candidate ∉ direct ∨ foundCoin then pure (q, false)
  else do
    let names ← askSubjectNames bound manager beef q.subjectNames
    pure ({ q with subjectNames := some names }, spentOutputs.any fun p => (⟨candidate, p.2⟩ : Outpoint) ∈ names)

def askCandidate (foundCoin : Bool) (direct : List Txid) (candidate : Txid) (q : Question) :
    M (Question × Option NotNow) := do
  let spentOutputs := (q.spenders.filter fun p => p.1 = candidate).map fun p => p.2
  let (q, asks) ← asksStore bound manager beef foundCoin direct candidate spentOutputs q
  if !asks then pure (q, none)
  else if q.reads ≥ predecessorReadsPerSubmit then pure (q, some { why := outOfAllowance candidate })
  else do
    let applied ← doesAppliedTransactionExist bound candidate topic
    let q := { q with reads := q.reads + 1 }
    match applied with
    | .error e => pure (q, some { why := unread candidate e })
    | .ok true => pure (q, none)
    | .ok false =>
      if q.reads ≥ predecessorReadsPerSubmit then pure (q, some { why := outOfAllowance candidate })
      else do
        let outputs ← findOutputsForTransaction bound candidate
        let q := { q with reads := q.reads + 1 }
        match outputs with
        | .error e => pure (q, some { why := unread candidate e })
        | .ok outputs =>
          if outputs.any fun o => o.topic = topic then pure (q, none)
          else match beef.body candidate with
            | none => pure (q, some
                { why := candidate ++ " has not landed (the manager names it as history; the BEEF does not carry it)" })
            | some body => do
              let (reads, coins) ← askCoins bound topic candidate q.reads body.inputs
              let q := { q with reads := reads }
              match coins with
              | .error notNow => pure (q, some notNow)
              | .ok unheld => do
                let q := { q with
                  ask := q.ask ++ unheld.map Outpoint.txid
                  spenders := q.spenders ++ unheld.map fun o => (o.txid, candidate, o.outputIndex) }
                let (q, named) ← namedOutputs E bound manager tx beef candidate q spentOutputs
                if named.isEmpty then pure (q, none)
                else do
                  let verdict ← dryRun bound manager mode candidate body named
                  pure (q, verdict)

def askWalk (foundCoin : Bool) (direct : List Txid) : Nat → Question → M (Question × Option NotNow)
  | 0, q => pure (q, none)
  | fuel + 1, q =>
    match q.ask with
    | [] => pure (q, none)
    | candidate :: rest =>
      if candidate ∈ q.asked then askWalk foundCoin direct fuel { q with ask := rest }
      else do
        let (q, answer) ← askCandidate E bound manager tx beef topic mode foundCoin direct candidate
          { q with ask := rest, asked := candidate :: q.asked }
        match answer with
        | some notNow => pure (q, some notNow)
        | none => askWalk foundCoin direct fuel q

def walkLength : Nat := tx.spent.length + (beef.bodies.map fun body => body.inputs.length).sum + 1

def unlandedPredecessor (namedOnly : Bool) (held : List Outpoint) (foundCoin : Bool)
    (subjectNames : Option (List Outpoint)) (reads : Nat) : M (Option (List Outpoint) × Nat × Option NotNow) := do
  let starts := tx.spent.filter fun o =>
    decide (o ∉ held) && !(namedOnly && subjectNames.any fun named => decide (o ∉ named))
  if starts.isEmpty then pure (subjectNames, reads, none)
  else do
    let ask := starts.map Outpoint.txid
    let (q, answer) ← askWalk E bound manager tx beef topic mode foundCoin ask (walkLength tx beef)
      { ask := ask, spenders := starts.map fun o => (o.txid, tx.id, o.outputIndex)
        subjectNames := subjectNames, reads := reads }
    pure (q.subjectNames, q.reads, answer)

end

/-! ## The successor rule -/

abbrev Lander := Topic → Txid → Nat → M (Nat × List (Txid × Topic) × List WalkCouldNotRun × Except String Unit)

structure Rule where
  steak : Steak := ∅
  waits : AList fun _ : Topic => String := ∅
  blocked : AList fun _ : Topic => Txid := ∅
  reads : Nat := 0
  landed : List (Txid × Topic) := []
  breaches : List WalkCouldNotRun := []

section
variable (E : Engine) (bound : Bound) (sub : Subject) (beef : Beef) (mode : SubmitMode) (lander : Option Lander)

local instance : LawfulBEq (Txid × Topic) := inferInstance

def landsWithoutValues (topic : Topic) : Bool :=
  (match E.managers topic with
    | some manager => !manager.readsOffChainValues
    | none => false) && E.lookupServices.all fun ls => !ls.readsOffChainValues topic

def TopicValidation.judged (v : TopicValidation) : Bool := !v.isDupe && !v.failed && v.readFault.isNone

/-- The outpoints of `tx` whose coins the topic holds. -/
def heldOf (tx : Tx) (v : TopicValidation) : List Outpoint :=
  v.previousCoins.filterMap fun i => (tx.inputs[i]?).bind TxInput.spends

def namesIf (needed : Bool) (manager : TopicManager) (names : Option (List Outpoint)) : M (Option (List Outpoint)) :=
  if needed && names.isNone then do
    let names ← namedHistory bound manager beef
    pure (some names)
  else pure names

def successorLoop (manager : TopicManager) : Nat → TopicValidation → Option (List Outpoint) → Rule →
    M (TopicValidation × Rule)
  | 0, v, _, rule => pure (v, rule)
  | fuel + 1, v, subjectNames, rule => do
    let namedOnly := !v.admittance.outputsToAdmit.isEmpty || !v.previousOutputs.isEmpty
    let subjectNames ← namesIf bound beef namedOnly manager subjectNames
    let held := heldOf sub.tx v
    -- a topic that found a coin waits only on a named input it does not hold
    if !v.previousOutputs.isEmpty && !(sub.tx.spent.any fun o =>
        decide (o ∉ held) && subjectNames.any fun named => decide (o ∈ named)) then pure (v, rule)
    else do
      let notLanded ← read Db.notLanded
      match sub.tx.spent.find? fun o =>
          (!namedOnly || subjectNames.any fun named => decide (o ∈ named)) &&
            decide ((o.txid, v.topic) ∈ notLanded) with
      | some o => pure (v, { rule with waits := rule.waits.insert v.topic (o.txid ++ " has not landed") })
      | none =>
        if sub.finalize then pure (v, rule)
        else do
          let (subjectNames, reads, answer) ← unlandedPredecessor E bound manager sub.tx beef v.topic mode namedOnly
            held (!v.previousOutputs.isEmpty) subjectNames rule.reads
          let rule := { rule with reads := reads }
          match answer with
          | none => pure (v, rule)
          | some notNow =>
            let wait (why : String) : Rule := { rule with waits := rule.waits.insert v.topic why }
            match notNow.carried, lander with
            | none, _ => pure (v, wait notNow.why)
            | some carried, none => pure (v, { wait notNow.why with blocked := rule.blocked.insert v.topic carried })
            | some carried, some land =>
              let rejudge := 1 + sub.tx.spent.length
              if !landsWithoutValues E v.topic then pure (v, wait (notNow.why ++
                "; not landed first from the BEEF: the topic's manager or a lookup service reads off-chain values, and only the predecessor's own submit carries them"))
              else if rule.reads + rejudge > predecessorReadsPerSubmit then pure (v, wait (notNow.why ++
                "; its landing and the re-judgement after it do not fit in the submit's 256 reads"))
              else do
                let (reads, landed, breaches, outcome) ← land v.topic carried (rule.reads + rejudge)
                let rule := { rule with
                  reads := reads, landed := rule.landed ++ landed, breaches := rule.breaches ++ breaches }
                match outcome with
                | .error didNotLand => pure (v, { rule with
                    reads := rule.reads - rejudge
                    waits := rule.waits.insert v.topic (notNow.why ++
                      "; submitted first from the BEEF, it did not land (" ++ didNotLand ++ ")") })
                | .ok () => do
                  let v ← validateTopic E bound sub.tx v.topic sub.offChainValues mode false
                  let rule := { rule with steak := rule.steak.insert v.topic v.admittance }
                  if v.judged then successorLoop manager fuel v subjectNames rule
                  else pure (v, rule)

def finishHeld (topic : Topic) (rule : Rule) : M Rule :=
  if !sub.finalize && (rule.waits.lookup topic).isSome && decide (rule.reads < predecessorReadsPerSubmit) then do
    let outputs ← findOutputsForTransaction bound sub.tx.id
    let rule := { rule with reads := rule.reads + 1 }
    match outputs with
    | .ok outputs =>
      if outputs.any fun o => o.topic = topic then
        pure { rule with waits := rule.waits.erase topic, blocked := rule.blocked.erase topic }
      else pure rule
    | .error _ => pure rule
  else pure rule

def successorTopic (v : TopicValidation) (rule : Rule) : M (TopicValidation × Rule) :=
  let partly := !sub.finalize && v.judged && !v.previousOutputs.isEmpty &&
    decide (v.previousCoins.length < sub.tx.spent.length)
  if !(v.judged && v.previousOutputs.isEmpty) && !partly then pure (v, rule)
  else match E.managers v.topic with
    | none => pure (v, rule)
    | some manager => do
      let (v, rule) ← successorLoop E bound sub beef mode lander manager (predecessorReadsPerSubmit + 1) v none rule
      let rule ← finishHeld bound sub v.topic rule
      pure (v, rule)

def successorsWaiting : List TopicValidation → Rule → M (List TopicValidation × Rule)
  | [], rule => pure ([], rule)
  | v :: rest, rule =>
    if sub.tx.spent.isEmpty then pure (v :: rest, rule)
    else do
      let (v, rule) ← successorTopic E bound sub beef mode lander v rule
      let (vs, rule) ← successorsWaiting rest rule
      pure (v :: vs, rule)

end

/-! ## The submit -/

section
variable (E : Engine) (bound : Bound)

def steakOf (vs : List TopicValidation) : Steak :=
  vs.foldl (fun steak v => steak.insert v.topic v.admittance) ∅

def dropExpired (tx : Tx) (now : Nat) (v : TopicValidation) : TopicValidation :=
  match E.managers v.topic with
  | none => v
  | some manager => { v with admittance := { v.admittance with
      outputsToAdmit := v.admittance.outputsToAdmit.filter fun i =>
        match tx.outputs[i]? with
        | none => true
        | some out => (manager.syncExpiry out.lockingScript).all fun expiry => now < expiry } }

def TopicValidation.answered (v : TopicValidation) : Except TopicManagerError AdmittanceInstructions → TopicValidation
  | .ok admittance => { v with admittance := admittance }
  | .error _ => { v with failed := true, previousCoins := [], previousOutputs := [], admittance := {} }

def judgeCarried (tx : Tx) (offChainValues : Option Bytes) (mode : SubmitMode)
    (waits : AList fun _ : Topic => String) : List TopicValidation → Steak → M (List TopicValidation × Steak)
  | [], steak => pure ([], steak)
  | v :: rest, steak =>
    if v.judged && (waits.lookup v.topic).isNone then do
      let answer ← judge E bound tx v.topic v.previousCoins offChainValues mode false
      let (vs, steak) ← judgeCarried tx offChainValues mode waits rest
        (steak.insert v.topic (v.answered answer).admittance)
      pure (v.answered answer :: vs, steak)
    else do
      let (vs, steak) ← judgeCarried tx offChainValues mode waits rest steak
      pure (v :: vs, steak)

def judgeIf (carried : Bool) (tx : Tx) (offChainValues : Option Bytes) (mode : SubmitMode)
    (waits : AList fun _ : Topic => String) (vs : List TopicValidation) (steak : Steak) :
    M (List TopicValidation × Steak) :=
  if carried then judgeCarried E bound tx offChainValues mode waits vs steak else pure (vs, steak)

structure Counted where
  steak : Steak
  report : MutationReport
  blocked : AList fun _ : Topic => Txid
  reads : Nat

def prepare (finalize : Bool) (walked : Option (List Txid)) (lander : Tx → Beef → Bool → Option Lander)
    (tagged : TaggedBeef) (mode : SubmitMode) (policy : WalkBreachPolicy) (reads : Nat) :
    M (Except EngineError (List TopicValidation × Subject × Option WalkCouldNotRun × Rule)) := do
  match ← runValidation E bound tagged mode walked.isSome walked policy with
  | .error e => pure (.error e)
  | .ok (vs, tx, couldNotRun) => do
    let now ← read Db.now
    let vs := if finalize then vs.map (dropExpired E tx now) else vs
    let sub : Subject := ⟨tx, tagged.offChainValues, finalize⟩
    -- the body the managers and lookup services read names the subject
    let named := { tagged.beef with atomicTxid := some tx.id }
    let (vs, rule) ← successorsWaiting E bound sub named mode (lander tx named couldNotRun.isNone) vs
      { steak := steakOf vs, reads := reads }
    let (vs, steak) ← judgeIf E bound walked.isSome tx tagged.offChainValues mode rule.waits vs rule.steak
    pure (.ok (vs, sub, couldNotRun, { rule with steak := steak }))

def submitCounted (finalize : Bool) (walked : Option (List Txid)) (lander : Tx → Beef → Bool → Option Lander)
    (tagged : TaggedBeef) (mode : SubmitMode) (policy : WalkBreachPolicy) (reads : Nat) :
    M (Except EngineError Counted) := do
  match ← prepare E bound finalize walked lander tagged mode policy reads with
  | .error e => pure (.error e)
  | .ok (vs, sub, couldNotRun, rule) => do
    let (steak, report) ← mutate E bound sub rule.waits vs
      (rule.steak, { walkCouldNotRun := couldNotRun, landedPredecessors := rule.landed
                     landedWalksCouldNotRun := rule.breaches })
    pure (.ok ⟨steak, report, rule.blocked, rule.reads⟩)

def submitCarried (walked : List Txid) (tagged : TaggedBeef) (mode : SubmitMode) (policy : WalkBreachPolicy)
    (reads : Nat) : M (Except EngineError Counted) :=
  submitCounted E bound false (some walked) (fun _ _ _ => none) tagged mode policy reads

structure Landing where
  stack : List Txid
  guarded : List Txid := []
  walked : List Txid
  reads : Nat
  landed : List (Txid × Topic) := []
  breaches : List WalkCouldNotRun := []

def guardLanding (next : Txid) (topic : Topic) (l : Landing) : M (Landing × Except String Unit) :=
  match E.landingGuard with
  | none => pure (l, .ok ())
  | some guard =>
    if next ∈ l.guarded then pure (l, .ok ())
    else do
      let answered ← asked bound
      pure ({ l with guarded := next :: l.guarded }, do
        answered.mapError fun e => next ++ ": refused by the landing guard (" ++ e ++ ")"
        (guard next topic).mapError fun e => next ++ ": refused by the landing guard (" ++ e ++ ")")

/-- The explicit stack of `land_carried`; the first argument bounds its length. -/
def landLoop (beef : Beef) (topic : Topic) (mode : SubmitMode) (policy : WalkBreachPolicy) :
    Nat → Landing → M (Landing × Except String Unit)
  | 0, l => pure (l, .ok ())
  | fuel + 1, l =>
    match l.stack with
    | [] => pure (l, .ok ())
    | next :: under =>
      match beef.body next with
      | none => pure (l, .error (next ++ ": its body is not in the BEEF"))
      | some body => do
        let (l, allowed) ← guardLanding E bound next topic l
        match allowed with
        | .error e => pure (l, .error e)
        | .ok () =>
          let cost := 1 + 2 * body.inputs.length
          if l.reads + cost > predecessorReadsPerSubmit then
            pure (l, .error (next ++ ": its submit does not fit in the submit's 256 reads"))
          else match E.toAtomicBeef beef next with
            | none => pure (l, .error (next ++ ": its BEEF could not be built"))
            | some atomic => do
              match ← submitCarried E bound l.walked ⟨atomic, [topic], none⟩ mode policy (l.reads + cost) with
              | .error (.walkCouldNotRun stop) =>
                pure ({ l with reads := l.reads + cost, breaches := l.breaches ++ [stop] },
                  .error (next ++ ": " ++ stop.text))
              | .error e => pure ({ l with reads := l.reads + cost }, .error (next ++ ": " ++ e.text))
              | .ok counted =>
                let l := { l with
                  reads := counted.reads
                  breaches := l.breaches ++ counted.report.walkCouldNotRun.toList
                  walked := if counted.report.walkCouldNotRun.isSome ∨ mode = .historicalTxNoSpv ∨ next ∈ l.walked
                    then l.walked else l.walked ++ E.walkCover beef next }
                let landedNow := decide (topic ∈ counted.report.appliedTopics)
                if counted.report.isDurable && (landedNow || decide (topic ∈ counted.report.dedupedTopics)) then
                  landLoop beef topic mode policy fuel { l with
                    stack := under, landed := if landedNow then l.landed ++ [(next, topic)] else l.landed }
                else match (counted.blocked.lookup topic).filter (· ∉ l.stack) with
                  | some blocker => landLoop beef topic mode policy fuel { l with stack := blocker :: l.stack }
                  | none =>
                    if counted.report.isDurable then pure (l, .error (next ++ ": the manager failed it"))
                    else pure (l, .error (next ++ ": " ++ counted.report.summary))

/-- `land_carried`. Never a broadcast; it trusts the subject's walk only if that ran. -/
def landCarried (mode : SubmitMode) (policy : WalkBreachPolicy) (tx : Tx) (beef : Beef) (subjectWalkRan : Bool) :
    Lander := fun topic predecessor reads => do
  let mode := if mode = .currentTx then .historicalTx else mode
  let walked := if mode ≠ .historicalTxNoSpv ∧ subjectWalkRan then E.walkCover beef tx.id else []
  let (l, outcome) ← landLoop E bound beef topic mode policy (predecessorReadsPerSubmit + 1)
    { stack := [predecessor], walked := walked, reads := reads }
  pure (l.reads, l.landed, l.breaches, outcome)

/-- `submit_bounded`: the engine's submit, at every door. -/
def submitBounded (finalize : Bool) (tagged : TaggedBeef) (mode : SubmitMode) (policy : WalkBreachPolicy) :
    M (Except EngineError (Steak × MutationReport)) := do
  let counted ← submitCounted E bound finalize none
    (fun tx beef ran => some (landCarried E bound mode policy tx beef ran)) tagged mode policy 0
  pure (counted.map fun c => (c.steak, c.report))

def submitWithReport (tagged : TaggedBeef) (mode : SubmitMode) : M (Except EngineError (Steak × MutationReport)) :=
  submitBounded E none false tagged mode .notNow

end

end OverlayEngine
