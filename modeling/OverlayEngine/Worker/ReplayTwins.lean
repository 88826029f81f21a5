import OverlayEngine.Basis.CasRow
import OverlayEngine.Types
import OverlayEngine.Worker.DeadLetters

/-!
# Replays that share an object

Messages of the same bytes, topics and mode name one R2 object. The consumer's
batches run side by side, one read, statement or delete a turn: each message is
read, replayed topic by topic, acked or handed back, and the objects of the acked
ones are deleted at the batch's end. No eviction is open, and the ledger and the
applied rows answer when a missing object is judged.
-/

namespace OverlayEngine.ReplayTwins

open DeadLetters (BeefRef MutationMessage toAsciiLowercase)
open CasRow (Fate)

local instance : LawfulBEq (Txid × Topic) := inferInstance

/-! ## A message's bytes -/

inductive BlobFault where
  | missing (key : String)
  | read (error : String)
  | refused (error : String)

def BlobFault.text : BlobFault → String
  | .missing key => "the R2 object " ++ key ++ " is MISSING: the replay has no bytes"
  | .read e => "the R2 read faulted (" ++ e ++ ")"
  | .refused e => "the R2 object was refused (" ++ e ++ ")"

inductive MissingVerdict where
  | twin
  | evicted
  | fault (text : String)
  deriving DecidableEq

def missingVerdict (subject : Option Txid) (topics : List Topic) (evicted : Except String Bool) (applied : Except String (List Topic)) :
    MissingVerdict :=
  match subject with
  | none => .fault "the message names no subject, so nothing shows its bytes landed"
  | some subject =>
    match evicted with
    | .ok true => .evicted
    | .error e => .fault ("the eviction ledger could not be read for " ++ subject ++ " (" ++ e ++ ")")
    | .ok false =>
      match applied with
      | .error e => .fault ("the applied rows of " ++ subject ++ " could not be read (" ++ e ++ ")")
      | .ok applied =>
        let unlanded := topics.filter fun t => !applied.contains t
        if topics.isEmpty || !unlanded.isEmpty then
          .fault (subject ++ " holds no applied row in [" ++ ",".intercalate unlanded ++ "]: its bytes did not land")
        else .twin

inductive ReadStep where
  | bytes
  | acked (verdict : MissingVerdict)
  | fault (fault : String) (missing : Bool)

/-- `read_for_replay` of a keyed message; `judged` is asked for a missing object only. -/
def readForReplay (blob : Except BlobFault Unit) (judged : MissingVerdict) : ReadStep :=
  match blob with
  | .ok () => .bytes
  | .error (.missing key) =>
    match judged with
    | .fault e => .fault ((BlobFault.missing key).text ++ "; " ++ e) true
    | verdict => .acked verdict
  | .error f => .fault f.text false

/-! ## What an ack does with the object -/

def landedAckLeavesObject (topics applied deduped : List Topic) : Bool := topics.any fun t => !applied.contains t && !deduped.contains t

structure LandedAck where
  leaves : Bool
  delete : List String

def landedAck (m : MutationMessage) (report : MutationReport) (rowObject : Option String) : LandedAck :=
  let leaves := m.r2.isSome && landedAckLeavesObject m.topics report.appliedTopics report.dedupedTopics
  if leaves then ⟨leaves, []⟩ else ⟨leaves, rowObject.toList ++ (m.r2.map BeefRef.key).toList⟩

/-! ## The messages and the stores -/

structure Shared where
  key : String
  subject : Txid
  topics : List Topic

/-- A message that names the object; `faulted` is a topic whose fault queued it. -/
structure Twin (o : Shared) where
  message : MutationMessage
  ref : BeefRef
  r2 : message.r2 = some ref
  key : ref.key = o.key
  subject : ref.txid.map toAsciiLowercase = some o.subject
  topics : ∀ t, t ∈ message.topics ↔ t ∈ o.topics
  faulted : Topic
  queued : faulted ∈ message.topics

structure Store where
  bucket : List String
  applied : List (Txid × Topic) := []

namespace Store

/-- `TWIN_APPLIED_SQL`. -/
def twinApplied (s : Store) (txid : Txid) : List Topic := (s.applied.filter fun r => decide (r.1 = txid)).map Prod.snd

def insertApplied (s : Store) (txid : Txid) (topic : Topic) : Store :=
  if (txid, topic) ∈ s.applied then s else { s with applied := (txid, topic) :: s.applied }

def put (s : Store) (key : String) : Store := { s with bucket := key :: s.bucket }

def delete (s : Store) (key : String) : Store := { s with bucket := s.bucket.filter fun k => decide (k ≠ key) }

end Store

variable {o : Shared}

/-- `judge_missing`: no eviction is open, both reads answer. -/
def judgeMissing (m : Twin o) (s : Store) : MissingVerdict :=
  missingVerdict m.ref.txid m.message.topics (.ok false) (.ok (m.ref.txid.elim [] fun t => s.twinApplied (toAsciiLowercase t)))

/-! ## One batch -/

inductive Stage (o : Shared) where
  | next
  | judge (m : Twin o)
  | submit (m : Twin o)
  | validating (m : Twin o) (topics : List Topic) (validations : List TopicValidation)
  | landing (m : Twin o) (waits : List (Topic × String)) (validations : List TopicValidation) (report : MutationReport)
  | statements (m : Twin o) (waits : List (Topic × String)) (v : TopicValidation) (validations : List TopicValidation)
      (report : MutationReport) (faultsBefore : Nat)
  | recording (m : Twin o) (waits : List (Topic × String)) (v : TopicValidation) (validations : List TopicValidation) (report : MutationReport)
  | settle (m : Twin o) (report : MutationReport)
  | deleting (keys : List String)
  | finished

structure Batch (o : Shared) where
  todo : List (Twin o)
  ackedObjects : List String := []
  stage : Stage o := .next

structure Env where
  blob : Option BlobFault := none
  error : Option String := none
  dedupFault : Option String := none
  judged : TopicValidation := { topic := "" }
  waits : List (Topic × String) := []
  fault : Option (Site × String) := none
  more : Bool := false
  fate : Fate := .ran
  rowObject : Option String := none
  deleteFaults : Bool := false

inductive Ending where
  | landed (leaves : Bool)
  | acked (verdict : MissingVerdict)
  | retried (missing : Bool)
  deriving DecidableEq

namespace Batch

def goto (b : Batch o) (stage : Stage o) : Batch o := { b with stage }

def retry (b : Batch o) (s : Store) (missing : Bool) : Store × Batch o × Option Ending := (s, b.goto .next, some (.retried missing))

def onRead (b : Batch o) (m : Twin o) (env : Env) (s : Store) : ReadStep → Store × Batch o × Option Ending
  | .bytes => (s, b.goto (.submit m), none)
  | .acked verdict => (s, { b with ackedObjects := b.ackedObjects ++ env.rowObject.toList }.goto .next, some (.acked verdict))
  | .fault _ missing => b.retry s missing

def readBeef (m : Twin o) (env : Env) (s : Store) : Except BlobFault Unit :=
  if m.ref.key ∉ s.bucket then .error (.missing m.ref.key)
  else match env.blob with
    | some (.read e) => .error (.read e)
    | some (.refused e) => .error (.refused e)
    | _ => .ok ()

/-- `validate_topic`: the dedup read, then the manager's judgement. -/
def validate (topic : Topic) (env : Env) (s : Store) : TopicValidation :=
  match env.dedupFault with
  | some e => { topic, readFault := some (.doesAppliedTransactionExist, e) }
  | none => if (o.subject, topic) ∈ s.applied then { topic, isDupe := true } else { env.judged with topic, isDupe := false }

def land (b : Batch o) (m : Twin o) (waits : List (Topic × String)) (v : TopicValidation) (rest : List TopicValidation) (report : MutationReport) : Batch o :=
  if v.isDupe then b.goto (.landing m waits rest { report with dedupedTopics := report.dedupedTopics ++ [v.topic] })
  else if v.failed then b.goto (.landing m waits rest report)
  else match v.readFault, waits.lookup v.topic with
    | some (site, e), _ => b.goto (.landing m waits rest (report.fault v.topic site e))
    | none, some notNow => b.goto (.landing m waits rest (report.fault v.topic .predecessorNotLanded notNow))
    | none, none => b.goto (.statements m waits v rest report report.faults.length)

def reported (v : TopicValidation) (report : MutationReport) : Option (Site × String) → MutationReport
  | some (site, e) => report.fault v.topic site e
  | none => report

def record (b : Batch o) (m : Twin o) (waits : List (Topic × String)) (v : TopicValidation) (rest : List TopicValidation) (report : MutationReport)
    (env : Env) (s : Store) : Store × Batch o :=
  let faulted := report.fault v.topic .insertAppliedTransaction (env.error.getD "")
  match env.fate with
  | .ran => (s.insertApplied o.subject v.topic, b.goto (.landing m waits rest { report with appliedTopics := report.appliedTopics ++ [v.topic] }))
  | .lost => (s, b.goto (.landing m waits rest faulted))
  | .landed => (s.insertApplied o.subject v.topic, b.goto (.landing m waits rest faulted))

def step (b : Batch o) (env : Env) (s : Store) : Store × Batch o × Option Ending :=
  match b.stage with
  | .next =>
    match b.todo with
    | [] => (s, b.goto (.deleting b.ackedObjects.dedup), none)
    | m :: rest =>
      let b := { b with todo := rest }
      match readBeef m env s with
      | .error (.missing _) => (s, b.goto (.judge m), none)
      | blob => b.onRead m env s (readForReplay blob (.fault ""))
  | .judge m => b.onRead m env s (readForReplay (.error (.missing m.ref.key)) (judgeMissing m s))
  | .submit m =>
    match env.error with
    | some _ => b.retry s false
    | none => (s, b.goto (.validating m m.message.topics []), none)
  | .validating m (topic :: topics) validations => (s, b.goto (.validating m topics (validations ++ [validate (o := o) topic env s])), none)
  | .validating m [] validations => (s, b.goto (.landing m env.waits validations {}), none)
  | .landing m waits (v :: rest) report => (s, b.land m waits v rest report, none)
  | .landing m _ [] report => (s, b.goto (.settle m report), none)
  | .statements m waits v rest report faultsBefore =>
    let report := reported v report env.fault
    if env.more then (s, b.goto (.statements m waits v rest report faultsBefore), none)
    else if faultsBefore < report.faults.length then (s, b.goto (.landing m waits rest report), none)
    else (s, b.goto (.recording m waits v rest report), none)
  | .recording m waits v rest report => ((b.record m waits v rest report env s).1, (b.record m waits v rest report env s).2, none)
  | .settle m report =>
    if report.isDurable then
      let ack := landedAck m.message report env.rowObject
      (s, { b with ackedObjects := b.ackedObjects ++ ack.delete }.goto .next, some (.landed ack.leaves))
    else b.retry s false
  | .deleting (key :: keys) => (if env.deleteFaults then s else s.delete key, b.goto (.deleting keys), none)
  | .deleting [] => (s, b.goto .finished, none)
  | .finished => (s, b, none)

end Batch

/-! ## Every interleaving -/

structure World (o : Shared) where
  store : Store
  batches : List (Batch o) := []
  ended : List Ending := []

inductive Move (o : Shared) where
  | put
  | deliver (messages : List (Twin o))
  | turn (batch : Nat) (env : Env)
  | die (batch : Nat)
  | record (txid : Txid) (topic : Topic)

namespace World

def step (w : World o) : Move o → World o
  | .put => { w with store := w.store.put o.key }
  | .deliver messages => { w with batches := w.batches ++ [{ todo := messages }] }
  | .turn i env => match w.batches[i]? with
    | some b => ⟨(b.step env w.store).1, w.batches.set i (b.step env w.store).2.1, w.ended ++ (b.step env w.store).2.2.toList⟩
    | none => w
  | .die i => match w.batches[i]? with
    | some b => { w with batches := w.batches.set i (b.goto .finished) }
    | none => w
  | .record txid topic => { w with store := w.store.insertApplied txid topic }

def run (w : World o) (moves : List (Move o)) : World o := moves.foldl step w

end World

end OverlayEngine.ReplayTwins
