import OverlayEngine.Basis.KeyedRows

/-!
# The dead letters of the mutation queue

A mutation message whose replays all failed reaches the dead letter queue, whose
consumer parks it: one row a letter key. The main consumer notes failed replays
and deletes the row at its ack, the lever re-drives parked rows, the operator
discards them. Each actor is a program counter here, and one move runs one
statement or one send of one of them.
-/

namespace OverlayEngine.DeadLetters

open KeyedRows

structure BeefRef where
  key : String
  bytes : Nat
  txid : Option String
  sha256 : String
  deriving DecidableEq

structure RedriveTag where
  txid : String
  topics : String
  n : Nat
  deriving DecidableEq

structure MutationMessage where
  beefB64 : String := ""
  r2 : Option BeefRef := none
  topics : List String
  mode : String
  reason : String := ""
  redrive : Option RedriveTag := none
  efJob : Option String := none
  gated : Bool := false
  deriving DecidableEq

inductive Text where
  | body (m : MutationMessage)
  | raw (s : String)
  deriving DecidableEq

structure Codec where
  size : MutationMessage → Nat
  subjectOf : MutationMessage → Option String
  sha256 : String → String

def Text.length (C : Codec) : Text → Nat
  | .body m => C.size m
  | .raw s => s.length

inductive Status where
  | failing
  | parked
  | redriven
  deriving DecidableEq

inductive LetterClass where
  | notNow
  | fault
  deriving DecidableEq

inductive Kept where
  | new
  | old

inductive ParkKind where
  | park
  | copy
  deriving DecidableEq

inductive Entry where
  | parked (parkedAt : Int) (fault : Option String) (attempts redrive : Nat) (kind : ParkKind) (kept : Option Kept)
  | forced (forcedAt : Int) (redrive : Nat)
  | stale (returnedAt : Int) (redrivenAt : Option Int) (redrive : Nat)

structure Key where
  txid : String
  topics : String
  deriving DecidableEq

/-- A row of `mutation_dead_letters`. -/
structure Row where
  key : Key
  message : Text
  fault : Option String
  attempts : Nat := 0
  status : Status
  redrives : Nat := 0
  firstSeenAt : Int
  parkedAt : Option Int := none
  redrivenAt : Option Int := none
  history : List Entry := []
  cls : LetterClass := .fault
  r2Key : Option String := none
  r2Bytes : Option Nat := none

abbrev Table := List Row

def redriveMaxLimit : Nat := 200
def maxRedrives : Nat := 3
def reasonRedrive : String := "redrive"
def faultTextMax : Nat := 1000
def faultUnrecorded : String := "dead-lettered; the last replay's fault was not recorded"
def historyMax : Nat := 20
def parkedRowsCeiling : Nat := 2000
def ceilingNear : Nat := parkedRowsCeiling / 5 * 4
def notNowMax : Nat := parkedRowsCeiling / 2
def notNowPerTxid : Nat := 1
def notNowPerDay : Nat := 200
def staleRedriveMs : Int := 3600000
def dlqMaxRetries : Nat := 100
def dlqRetryDelayS : Nat := 300
def dlqBackoffBaseS : Nat := 60
def dlqBackoffCapS : Nat := 1800
def notNowDeferDeliveries : Nat := 5

/-! ## Letters -/

def toAsciiLowercase (s : String) : String := String.ofList (s.toList.map Char.toLower)

def topicsKey (topics : List String) : String := ",".intercalate (topics.insertionSort (· ≤ ·)).dedup

def letterKey (C : Codec) (body : MutationMessage) (subject : Option String) : Key :=
  match body.redrive with
  | some tag => ⟨tag.txid, tag.topics⟩
  | none =>
    let txid := match body.r2, subject with
      | some r, _ => match r.txid with
        | some t => toAsciiLowercase t
        | none => "unparsed:" ++ String.ofList (r.sha256.toList.take 32)
      | none, some s => toAsciiLowercase s
      | none, none => "unparsed:" ++ String.ofList ((C.sha256 body.beefB64).toList.take 32)
    ⟨txid, topicsKey body.topics⟩

def takeBytes : Nat → List Char → List Char
  | _, [] => []
  | n, c :: cs => if c.utf8Size ≤ n then c :: takeBytes (n - c.utf8Size) cs else []

def boundedFault (fault : String) : String :=
  if fault.utf8ByteSize ≤ faultTextMax then fault else String.ofList (takeBytes faultTextMax fault.toList) ++ "…"

structure Letter where
  key : Key
  message : Text
  fault : String
  startRedrives : Nat
  r2 : Option (String × Nat)
  deriving DecidableEq

/-- `letter_of`; a body that does not decode (`e`) can never be re-driven. -/
def letterOf (C : Codec) (raw : Text) (id e : String) : Letter :=
  match raw with
  | .body m =>
    let subject := if m.r2.isSome then none else C.subjectOf m
    { key := letterKey C m subject, message := .body m, fault := faultUnrecorded, startRedrives := 0,
      r2 := m.r2.map fun r => (r.key, r.bytes) }
  | .raw s =>
    { key := ⟨"undecodable:" ++ id, ""⟩, message := .raw s,
      fault := "the dead letter does not decode as a mutation message (" ++ e ++ "); never re-drivable", startRedrives := maxRedrives, r2 := none }

def carried (C : Codec) (message : Text) (r2Bytes : Option Nat) : Nat :=
  match r2Bytes with
  | some b => b * 4 / 3
  | none => message.length C

def Row.carried (C : Codec) (r : Row) : Nat := DeadLetters.carried C r.message r.r2Bytes

def Letter.carried (C : Codec) (l : Letter) : Nat := DeadLetters.carried C l.message (l.r2.map Prod.snd)

/-! ## The statements -/

def historyAppend (h : List Entry) (e : Entry) : List Entry := (if historyMax ≤ h.length then h.tail else h) ++ [e]

/-- The row holds bytes: `status IN ('parked', 'redriven')`. -/
def Row.held (r : Row) : Bool := r.status = .parked || r.status = .redriven

/-- `ORDER BY` a time: SQLite puts NULL first. -/
def before : Option Int → Option Int → Bool
  | none, _ => true
  | some _, none => false
  | some a, some b => a ≤ b

namespace Table

abbrev row (t : Table) (k : Key) : Option Row := KeyedRows.row Row.key t k

/-- `NOTE_FAILING_SQL`, or `NOTE_FAILING_KEEP_CLASS_SQL` when no class is given. -/
def note (t : Table) (k : Key) (fault : String) (now : Int) (cls : Option LetterClass) : Table :=
  match t.row k with
  | none => t ++ [{ key := k, message := .raw "", fault := some (boundedFault fault), attempts := 1, status := .failing, firstSeenAt := now, cls := cls.getD .fault }]
  | some _ => modify Row.key (· = k) (fun r =>
      if r.status = .parked then r else { r with fault := some (boundedFault fault), attempts := r.attempts + 1, cls := cls.getD r.cls }) t

def noteFailing (t : Table) (k : Key) (fault : String) (now : Int) (cls : LetterClass) : Table := t.note k fault now (some cls)

def noteFailingKeepingClass (t : Table) (k : Key) (fault : String) (now : Int) : Table := t.note k fault now none

def classOf (t : Table) (k : Key) : LetterClass := ((t.row k).map Row.cls).getD .fault

/-- The bounds `PARK_SQL` reads again: a key that holds bytes always parks. -/
def room (t : Table) (k : Key) (dayCutoff : Int) : Bool :=
  (t.any fun r => decide (r.key = k) && r.held) ||
    (decide (t.countP Row.held < parkedRowsCeiling) &&
      (decide (t.classOf k ≠ .notNow) ||
        (decide (t.countP (fun r => decide (r.key.txid = k.txid) && decide (r.cls = .notNow) && r.held) < notNowPerTxid) &&
          decide (t.countP (fun r => decide (r.cls = .notNow) && r.held) < notNowMax) &&
          decide (t.countP (fun r => decide (r.cls = .notNow) && r.held && r.parkedAt.any (dayCutoff ≤ ·)) < notNowPerDay))))

end Table

def dayCutoff (now : Int) : Int := now - 86400000

/-- `ON CONFLICT DO UPDATE` of `PARK_SQL`: the message that carries more is kept. -/
def Row.parkedBy (C : Codec) (r : Row) (l : Letter) (now : Int) : Row :=
  let more := decide (r.carried C < l.carried C)
  { r with
    status := .parked
    parkedAt := if r.status = .parked then r.parkedAt else some now
    message := if more then l.message else r.message
    r2Key := if more then l.r2.map Prod.fst else r.r2Key
    r2Bytes := if more then l.r2.map Prod.snd else r.r2Bytes
    fault := r.fault.or (some (boundedFault l.fault))
    history := historyAppend r.history (.parked now (r.fault.or (some (boundedFault l.fault))) r.attempts r.redrives
      (if r.status = .parked then .copy else .park) (some (if more then .new else .old))) }

structure ParkedReturn where
  redrives : Nat
  kind : ParkKind
  kept : Option Kept

structure RedriveRequest where
  limit : Nat
  txid : Option String := none
  force : Bool := false
  force_named : force = true → txid.isSome = true := by decide

structure ParkedRow where
  key : Key
  fault : Option String
  redrives : Nat
  redrivenAt : Option Int

structure ClaimedRow where
  redrives : Nat
  message : Text

def Letter.fresh (l : Letter) (now : Int) : Row :=
  { key := l.key, message := l.message, fault := some (boundedFault l.fault), status := .parked, redrives := l.startRedrives,
    firstSeenAt := now, parkedAt := some now,
    history := [.parked now (some (boundedFault l.fault)) 0 l.startRedrives .park none],
    r2Key := l.r2.map Prod.fst, r2Bytes := l.r2.map Prod.snd }

def Row.claimed (r : Row) (now : Int) (forced : Bool) : Row :=
  { r with
    status := .redriven
    redrives := r.redrives + 1
    redrivenAt := some now
    attempts := 0
    history := if forced then historyAppend r.history (.forced now (r.redrives + 1)) else r.history }

def Row.returned (r : Row) (now : Int) : Row :=
  { r with status := .parked, history := historyAppend r.history (.stale now r.redrivenAt r.redrives) }

namespace Table

/-- `PARK_SQL`. No row is answered for bytes already parked, or when a bound refuses the letter. -/
def park (C : Codec) (t : Table) (l : Letter) (now : Int) : Table × Option ParkedReturn :=
  if t.room l.key (dayCutoff now) then
    match t.row l.key with
    | none => (t ++ [l.fresh now], some ⟨l.startRedrives, .park, none⟩)
    | some r =>
      if r.status ≠ .parked ∨ r.message ≠ l.message then
        (modify Row.key (· = l.key) (fun r => r.parkedBy C l now) t,
          some ⟨r.redrives, if r.status = .parked then .copy else .park, some (if r.carried C < l.carried C then .new else .old)⟩)
      else (t, none)
  else (t, none)

/-- `RESOLVE_SQL`: the row goes, whatever its status. -/
def resolve (t : Table) (k : Key) : Table := remove Row.key (· = k) t

/-- The rows `DISCARD_SQL` names: parked ones only, the oldest parked first. -/
def discarded (t : Table) (txid : String) (topics : Option String) (maxRows : Nat) : List Key :=
  oldest Row.key (fun r => decide (r.key.txid = txid) && topics.all (r.key.topics = ·) && decide (r.status = .parked))
    (fun a b => if a.parkedAt = b.parkedAt then decide (a.key.topics ≤ b.key.topics) else before a.parkedAt b.parkedAt) maxRows t

def discard (t : Table) (txid : String) (topics : Option String) (maxRows : Nat) : Table :=
  remove Row.key (t.discarded txid topics maxRows).contains t

def selectParked (t : Table) (req : RedriveRequest) : List ParkedRow :=
  let under := fun r : Row => match req.txid, req.force with
    | some t, true => decide (r.key.txid = t)
    | some t, false => decide (r.redrives < maxRedrives) && decide (r.key.txid = t)
    | none, _ => decide (r.redrives < maxRedrives)
  let le := fun a b : Row =>
    if a.parkedAt ≠ b.parkedAt then before a.parkedAt b.parkedAt
    else if a.key.txid ≠ b.key.txid then decide (a.key.txid ≤ b.key.txid) else decide (a.key.topics ≤ b.key.topics)
  (((t.filter fun r => decide (r.status = .parked) && under r).insertionSort fun a b => le a b).take req.limit).map
    fun r => ⟨r.key, r.fault, r.redrives, r.redrivenAt⟩

/-- `CLAIM_SQL`: the compare-and-set on the re-drives read. -/
def claim (t : Table) (row : ParkedRow) (now : Int) (forced : Bool) : Table × Option ClaimedRow :=
  match t.row row.key with
  | none => (t, none)
  | some r =>
    if r.status = .parked ∧ r.redrives = row.redrives then
      (modify Row.key (· = row.key) (fun r => r.claimed now forced) t, some ⟨r.redrives + 1, r.message⟩)
    else (t, none)

/-- The guard of `REVERT_SQL`. -/
def reverts (t : Table) (row : ParkedRow) : Bool :=
  (t.row row.key).any fun r => decide (r.status = .redriven) && decide (r.redrives = row.redrives + 1)

def revert (t : Table) (row : ParkedRow) : Table :=
  if t.reverts row then
    modify Row.key (· = row.key) (fun r => { r with status := .parked, redrives := r.redrives - 1, redrivenAt := row.redrivenAt }) t
  else t

def stale (t : Table) (cutoff : Int) (limit : Nat) : List Key :=
  oldest Row.key (fun r => decide (r.status = .redriven) && r.redrivenAt.any (· < cutoff)) (fun a b => before a.redrivenAt b.redrivenAt) limit t

/-- `STALE_RETURN_SQL`. -/
def staleReturn (t : Table) (now : Int) (limit : Nat) : Table :=
  modify Row.key (t.stale (now - staleRedriveMs) limit).contains (fun r => r.returned now) t

end Table

/-! ## The ceiling -/

structure CeilingRow where
  held : Nat
  known : Nat
  cls : LetterClass
  notNow : Nat
  notNowTxid : Nat
  notNowDay : Nat
  r2Key : Option String

/-- `CEILING_SQL`. -/
def Table.ceiling (t : Table) (k : Key) (dayCutoff : Int) : CeilingRow :=
  { held := t.countP Row.held
    known := t.countP fun r => decide (r.key = k) && r.held
    cls := t.classOf k
    notNow := t.countP fun r => decide (r.cls = .notNow) && r.held
    notNowTxid := t.countP fun r => decide (r.key.txid = k.txid) && decide (r.cls = .notNow) && r.held
    notNowDay := t.countP fun r => decide (r.cls = .notNow) && r.held && r.parkedAt.any (dayCutoff ≤ ·)
    r2Key := (t.row k).bind Row.r2Key }

inductive Deferral where
  | ceiling (held : Nat)
  | notNowShare (n : Nat)
  | notNowTxid (n : Nat)
  | notNowDay (n : Nat)

inductive Parked where
  | park (redrives : Nat) (near : Option Nat)
  | copy (kept : Option Kept)
  | redelivery
  | ceiling (held : Nat)
  | notNowBound (d : Deferral)

def nearAfter (held : Nat) (known : Bool) : Option Nat :=
  let after := if known then held else held + 1
  if ceilingNear ≤ after then some after else none

def ceilingVerdict (c : CeilingRow) : Except Deferral (Option Nat) :=
  if 1 ≤ c.known then .ok (nearAfter c.held true)
  else if c.known < 1 ∧ parkedRowsCeiling ≤ c.held then .error (.ceiling c.held)
  else if c.cls = .notNow then
    if notNowPerTxid ≤ c.notNowTxid then .error (.notNowTxid c.notNowTxid)
    else if notNowMax ≤ c.notNow then .error (.notNowShare c.notNow)
    else if notNowPerDay ≤ c.notNowDay then .error (.notNowDay c.notNowDay)
    else .ok (nearAfter c.held false)
  else .ok (nearAfter c.held false)

def Deferral.outcome : Deferral → Parked
  | .ceiling held => .ceiling held
  | d => .notNowBound d

def unparked (again : Option CeilingRow) : Except String Parked :=
  match again with
  | none => .error "the ceiling re-read after a refused park answered no row"
  | some c =>
    if 1 ≤ c.known then .ok .redelivery
    else match ceilingVerdict c with
      | .error d => .ok d.outcome
      | .ok _ => .error "the park was refused by a bound another consumer reached, and the room freed since"

structure DlqRetry where
  delayS : Nat
  last : Bool

def dlqRetryPlan (attempts : Option Nat) : DlqRetry :=
  match attempts.filter (1 ≤ ·) with
  | none => ⟨dlqRetryDelayS, false⟩
  | some a => ⟨min (dlqBackoffBaseS * 2 ^ min (a - 1) 16) dlqBackoffCapS, decide (dlqMaxRetries < a)⟩

def deferralPlan (cls : LetterClass) (deferred : Bool) (attempts : Option Nat) (notNowDelayS : Nat) : DlqRetry :=
  match attempts.filter (1 ≤ ·) with
  | some a => if deferred = true ∧ cls = .notNow then ⟨notNowDelayS, decide (notNowDeferDeliveries ≤ a)⟩ else dlqRetryPlan attempts
  | none => dlqRetryPlan attempts

def lostDeletesObject : Except String Parked → Bool
  | .ok (.ceiling _) => true
  | .ok (.notNowBound _) => true
  | _ => false

def redriveMessage (row : ParkedRow) (message : Text) (n : Nat) : Option MutationMessage :=
  match message with
  | .raw _ => none
  | .body m => some { m with reason := reasonRedrive, redrive := some ⟨row.key.txid, row.key.topics, n⟩ }

/-! ## The actors -/

/-- One delivery of the DLQ consumer; `no` tells it from every other. -/
structure Delivery where
  no : Nat
  letter : Letter
  attempts : Option Nat
  now : Int
  notNowDelayS : Nat

/-- A landed claim: the `left`-th row from the end of the call's batch, in the key's `life`-th life. -/
structure Claim where
  call : Nat
  left : Nat
  key : Key
  n : Nat
  life : Nat
  at_ : Int
  forced : Bool
  deriving DecidableEq

inductive Job where
  | ceiling (d : Delivery)
  | park (d : Delivery) (cls : LetterClass) (near : Option Nat)
  | reread (d : Delivery) (cls : LetterClass)
  | answered (d : Delivery) (cls : LetterClass) (outcome : Except String Parked)
  | stale (req : RedriveRequest) (start : Int)
  | select (req : RedriveRequest)
  | claims (req : RedriveRequest) (rows : List ParkedRow)
  | send (req : RedriveRequest) (row : ParkedRow) (c : Claim) (msg : MutationMessage) (rest : List ParkedRow)
  | revert (req : RedriveRequest) (row : ParkedRow) (c : Claim) (rest : List ParkedRow)
  | finished

inductive Fate where
  | ok
  | faulted (e : String) (landed : Bool)
  deriving DecidableEq

inductive Event where
  | landed (d : Delivery) (life : Nat)
  | refused (d : Delivery)
  | acked (d : Delivery) (how : Parked)
  | lost (d : Delivery)
  | deleted (k : Key)
  | claimed (c : Claim)
  | sent (c : Claim) (msg : MutationMessage)
  | reverted (c : Claim) (life : Nat)

def Event.deletes (k : Key) : Event → Bool
  | .deleted k' => k' = k
  | _ => false

/-- How many times the row of `k` was deleted: a row is one life of its key. -/
def lives (log : List Event) (k : Key) : Nat := log.countP (Event.deletes k)

structure World where
  table : Table := []
  jobs : List Job := []
  log : List Event := []

inductive Move where
  | deliver (raw : Text) (id e : String) (attempts : Option Nat) (now : Int) (notNowDelayS : Nat)
  | redrive (req : RedriveRequest) (start : Int)
  | go (job : Nat) (fate : Fate) (now : Int)
  | noteFailing (k : Key) (fault : String) (now : Int) (cls : LetterClass)
  | noteFailingKeepingClass (k : Key) (fault : String) (now : Int)
  | resolve (k : Key)
  | discard (txid : String) (topics : Option String) (maxRows : Nat)

def Fate.effect : Fate → Bool
  | .ok => true
  | .faulted _ landed => landed

structure Advance where
  table : Table
  events : List Event := []
  job : Job

section
variable (C : Codec)

def Delivery.close (d : Delivery) (cls : LetterClass) (outcome : Except String Parked) : List Event :=
  match outcome with
  | .ok (.park redrives near) => [.acked d (.park redrives near)]
  | .ok (.copy kept) => [.acked d (.copy kept)]
  | .ok .redelivery => [.acked d .redelivery]
  | outcome =>
    if (deferralPlan cls (lostDeletesObject outcome) d.attempts d.notNowDelayS).last then [.lost d] else []

def Job.afterCeiling (t : Table) (d : Delivery) : Job :=
  let c := t.ceiling d.letter.key (dayCutoff d.now)
  match ceilingVerdict c with
  | .ok near => .park d c.cls near
  | .error dfr => .answered d c.cls (.ok dfr.outcome)

def Job.afterPark (d : Delivery) (cls : LetterClass) (near : Option Nat) : Option ParkedReturn → Job
  | none => .reread d cls
  | some r => .answered d cls (.ok (if r.kind = .copy then .copy r.kept else .park r.redrives near))

def Job.afterClaim (req : RedriveRequest) (row : ParkedRow) (c : Claim) (rest : List ParkedRow) (claimed : ClaimedRow) : Job :=
  match redriveMessage row claimed.message claimed.redrives with
  | none => .revert req row c rest
  | some msg => .send req row c msg rest

/-- One statement, send, ack or clock read of job `i`. -/
def Job.advance (t : Table) (log : List Event) (i : Nat) (fate : Fate) (now : Int) : Job → Advance
  | .ceiling d =>
    match fate with
    | .ok => ⟨t, [], .afterCeiling t d⟩
    | .faulted e _ => ⟨t, [], .answered d .fault (.error ("the ceiling read: " ++ e))⟩
  | .park d cls near =>
    let after := t.park C d.letter d.now
    let event := if t.room d.letter.key (dayCutoff d.now) then Event.landed d (lives log d.letter.key) else .refused d
    match fate with
    | .ok => ⟨after.1, [event], .afterPark d cls near after.2⟩
    | .faulted e landed =>
      ⟨if landed then after.1 else t, if landed then [event] else [], .answered d cls (.error ("the park: " ++ e))⟩
  | .reread d cls =>
    match fate with
    | .ok => ⟨t, [], .answered d cls (unparked (some (t.ceiling d.letter.key (dayCutoff d.now))))⟩
    | .faulted e _ => ⟨t, [], .answered d cls (.error ("the ceiling re-read after a refused park: " ++ e))⟩
  | .answered d cls outcome => ⟨t, d.close cls outcome, .finished⟩
  | .stale req start =>
    match fate with
    | .ok => ⟨t.staleReturn start redriveMaxLimit, [], .select req⟩
    | .faulted _ landed => ⟨if landed then t.staleReturn start redriveMaxLimit else t, [], .finished⟩
  | .select req =>
    match fate with
    | .ok => ⟨t, [], .claims req (t.selectParked req)⟩
    | .faulted _ _ => ⟨t, [], .finished⟩
  | .claims _ [] => ⟨t, [], .finished⟩
  | .claims req (row :: rest) =>
    match t.claim row now req.force with
    | (_, none) => ⟨t, [], .claims req rest⟩
    | (t', some claimed) =>
      let c : Claim := ⟨i, rest.length, row.key, claimed.redrives, lives log row.key, now, req.force⟩
      match fate with
      | .ok => ⟨t', [.claimed c], .afterClaim req row c rest claimed⟩
      | .faulted _ landed => ⟨if landed then t' else t, if landed then [.claimed c] else [], .claims req rest⟩
  | .send req row c msg rest =>
    match fate with
    | .ok => ⟨t, [.sent c msg], .claims req rest⟩
    | .faulted _ _ => ⟨t, [], .revert req row c rest⟩
  | .revert req row c rest =>
    if fate.effect = true ∧ t.reverts row = true then ⟨t.revert row, [.reverted c (lives log row.key)], .claims req rest⟩
    else ⟨t, [], .claims req rest⟩
  | .finished => ⟨t, [], .finished⟩

def World.step (w : World) : Move → World
  | .deliver raw id e attempts now notNowDelayS =>
    { w with jobs := w.jobs ++ [.ceiling ⟨w.jobs.length, letterOf C raw id e, attempts, now, notNowDelayS⟩] }
  | .redrive req start => { w with jobs := w.jobs ++ [.stale req start] }
  | .go i fate now =>
    match w.jobs[i]? with
    | none => w
    | some job =>
      let a := job.advance C w.table w.log i fate now
      { table := a.table, jobs := w.jobs.set i a.job, log := a.events ++ w.log }
  | .noteFailing k fault now cls => { w with table := w.table.noteFailing k fault now cls }
  | .noteFailingKeepingClass k fault now => { w with table := w.table.noteFailingKeepingClass k fault now }
  | .resolve k =>
    match w.table.row k with
    | none => w
    | some _ => { w with table := w.table.resolve k, log := .deleted k :: w.log }
  | .discard txid topics maxRows =>
    let keys := w.table.discarded txid topics maxRows
    { w with table := w.table.discard txid topics maxRows, log := keys.map .deleted ++ w.log }

def World.run (w : World) (moves : List Move) : World := moves.foldl (World.step C) w

end

end OverlayEngine.DeadLetters
