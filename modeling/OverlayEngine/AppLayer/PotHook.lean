import OverlayEngine.Basis.KeyedRows

/-!
# The pot hook's park

A hook parks every wake-up of its body in one batch, then announces them; a drain
delivers what is still parked. A wake-up is the key of its row. Each settle names
the token of the row it is about, and writes the attempts it has counted itself.
-/

namespace OverlayEngine.PotHook

def parkGraceMs : Nat := 30000
def parkRetryBaseMs : Nat := 60000
def parkRetryMaxMs : Nat := 3600000
def parkMaxAttempts : Nat := 8
def parkSweepAfterMs : Nat := 86400000
def parkMaxRows : Nat := 2048
def parkDisplaceMinAttempts : Nat := 3
def parkOverdueMaxMs : Nat := 86400000
def drainMaxPerPass : Nat := 24
def drainMaxRounds : Nat := 4
def sweepMaxPerPass : Nat := 50
def announceRedriveDeadlineMs : Nat := 25000
def parkFullFault : String := "CHECK constraint failed"

def retryAt (now attempts : Nat) : Nat := now + min (parkRetryBaseMs <<< min (attempts - 1) 16) parkRetryMaxMs

structure Wake where
  txid : String
  vout : Nat
  recipient : Option String := none
  deriving DecidableEq

/-! ## The table and its statements -/

/-- A row of `pot_announce_parked`. -/
structure Row where
  wake : Wake
  atMs : Nat
  attempts : Nat := 0
  nextAttemptAtMs : Nat
  generation : Nat
  exhaustedAtMs : Option Nat := none
  deriving DecidableEq

inductive ParkOp where
  | park (wake : Wake) (atMs nextMs : Nat)
  | delivered (wake : Wake) (generation : Nat)
  | retry (wake : Wake) (generation attempts nextMs : Nat) (exhaustedAtMs : Option Nat)
  | sweep (beforeMs limit : Nat)
  | age (beforeMs nowMs limit : Nat)

structure OpOut where
  changes : Nat := 0
  generation : Option Nat := none

inductive Way where
  | delivered
  | swept
  | room
  deriving DecidableEq

inductive Event where
  | parked (wake : Wake) (generation : Nat)
  | answered (wake : Wake) (generation : Nat) (landed : Bool)
  | gone (r : Row) (way : Way)
  deriving DecidableEq

def Row.isAt (r : Row) (wake : Wake) (generation : Nat) : Bool := decide (r.wake = wake) && decide (r.generation = generation)

structure Done where
  rows : List Row
  out : OpOut := {}
  events : List Event := []

/-- The rows but those whose keys are among `keys`. -/
def takeOut (keys : List Wake) (rows : List Row) (way : Way) : Done :=
  let gone := rows.filter fun r => keys.any fun k => k = r.wake
  { rows := rows.filter fun r => !(keys.any fun k => k = r.wake), out := { changes := gone.length }, events := gone.map fun r => .gone r way }

def firstKeys (p : Row → Bool) (limit : Nat) (rows : List Row) : List Wake := ((rows.filter p).take limit).map Row.wake

/-- `PARK_SQL`. -/
def park (rows : List Row) (row : Row) : Done :=
  match KeyedRows.row Row.wake rows row.wake with
  | none => { rows := rows ++ [row], out := ⟨1, some row.generation⟩, events := [.parked row.wake row.generation] }
  | some held =>
    if held.generation < row.generation then
      { rows := rows.map fun r => if r.wake = row.wake then row else r, out := ⟨1, some row.generation⟩, events := [.parked row.wake row.generation] }
    else { rows }

/-- A statement of a batch: `base` the counter's last token, `pos` a park's place in the batch. -/
def ParkOp.exec (base pos : Nat) (rows : List Row) : ParkOp → Done
  | .park wake atMs nextMs => PotHook.park rows { wake, atMs, nextAttemptAtMs := nextMs, generation := base + pos }
  | .delivered wake generation =>
    let gone := rows.filter fun r => r.isAt wake generation
    { rows := rows.filter fun r => !r.isAt wake generation, out := { changes := gone.length }, events := gone.map fun r => .gone r .delivered }
  | .retry wake generation attempts nextMs exhaustedAtMs =>
    { rows := rows.map fun r => if r.isAt wake generation then { r with attempts, nextAttemptAtMs := nextMs, exhaustedAtMs } else r
      out := { changes := rows.countP fun r => r.isAt wake generation } }
  | .sweep beforeMs limit => takeOut (firstKeys (fun r => r.exhaustedAtMs.any fun e => e < beforeMs) limit rows) rows .swept
  | .age beforeMs nowMs limit =>
    let keys := firstKeys (fun r => r.exhaustedAtMs.isNone && decide (r.nextAttemptAtMs < beforeMs)) limit rows
    { rows := rows.map fun r => if keys.any fun k => k = r.wake then { r with exhaustedAtMs := some nowMs } else r
      out := { changes := keys.length } }

def ParkOp.isPark : ParkOp → Bool
  | .park _ _ _ => true
  | _ => false

/-- The statements of a batch in order; `pos` parks stand before them. -/
def runOps (base : Nat) : Nat → List ParkOp → List Row → List Event → List Row × List OpOut × List Event
  | _, [], rows, log => (rows, [], log)
  | pos, op :: ops, rows, log =>
    let pos := if op.isPark then pos + 1 else pos
    let d := op.exec base pos rows
    let rest := runOps base pos ops d.rows (d.events ++ log)
    (rest.1, d.out :: rest.2.1, rest.2.2)

/-- `park_room_rows!`: the rows that may make room, none of the batch after token `base`. -/
def Row.mayMakeRoom (base : Nat) (r : Row) : Bool :=
  r.exhaustedAtMs.isSome || (decide (parkDisplaceMinAttempts ≤ r.attempts) && decide (r.generation ≤ base))

/-- `ORDER BY exhausted_at_ms IS NULL, exhausted_at_ms, at`. -/
def roomOrder (a b : Row) : Bool :=
  match a.exhaustedAtMs, b.exhaustedAtMs with
  | some x, some y => decide (x < y) || (decide (x = y) && decide (a.atMs ≤ b.atMs))
  | some _, none => true
  | none, some _ => false
  | none, none => decide (a.atMs ≤ b.atMs)

structure Store where
  rows : List Row := []
  n : Option Nat := none

/-- `HookD1::write`: the batch's ops, then for parks the counter, the guard and the room; none where the guard rolls it all back. -/
def Store.write (s : Store) (now : Nat) (ops : List ParkOp) (log : List Event) : Option (Store × List OpOut × List Event) :=
  let parks := ops.countP ParkOp.isPark
  let base := s.n.getD (now * 1000)
  let ran := runOps base 0 ops s.rows log
  if parks = 0 then some ({ s with rows := ran.1 }, ran.2.1, ran.2.2)
  else
    let excess := min ran.1.length (parkMaxRows + parks) - parkMaxRows
    if ((ran.1.filter (Row.mayMakeRoom base)).take excess).length < excess then none
    else
      let made := takeOut (KeyedRows.oldest Row.wake (Row.mayMakeRoom base) roomOrder excess ran.1) ran.1 .room
      some ({ rows := made.rows, n := some (base + parks) }, ran.2.1, made.events ++ ran.2.2)

structure Parked where
  wake : Wake
  atMs : Nat
  attempts : Nat
  generation : Nat

/-- `PARKED_DUE_SQL`. -/
def Store.dueParked (s : Store) (now limit : Nat) : List Parked :=
  (((s.rows.filter fun r => r.exhaustedAtMs.isNone && decide (r.nextAttemptAtMs ≤ now)).insertionSort
    fun a b => a.nextAttemptAtMs ≤ b.nextAttemptAtMs).take limit).map fun r => ⟨r.wake, r.atMs, r.attempts, r.generation⟩

/-! ## The hook -/

inductive Delivery where
  | sent
  | notConfigured
  | failed

inductive OutpointRead where
  | failed (e : String)
  | noParams (markerNamed : List String)
  | decoded (seats markerNamed : List String)

structure AnnouncePlan where
  outpoints : List (String × Nat)
  seatEvents : List (String × String × Nat) := []
  atMs : Nat
  admittedAtMs : Option Nat := none
  generations : List (Option Nat) := []

def AnnouncePlan.wakes (p : AnnouncePlan) : List Wake :=
  (p.outpoints.map fun o => { txid := o.1, vout := o.2 }) ++ p.seatEvents.map fun e => { txid := e.2.1, vout := e.2.2, recipient := some e.1 }

structure Call where
  wake : Wake
  atMs : Nat
  admittedAtMs : Option Nat := none
  broadcastAtMs : Nat
  generation : Option Nat

def AnnouncePlan.sends (p : AnnouncePlan) (broadcastAtMs : Nat) : List Call :=
  p.wakes.zipIdx.map fun w =>
    { wake := w.1, atMs := p.atMs, admittedAtMs := p.admittedAtMs, broadcastAtMs, generation := (p.generations[w.2]?).join }

structure Filed where
  txid : String
  vout : Nat
  identity : String

structure Skipped where
  txid : String
  vout : Nat
  why : String

structure PotChangedOutcome where
  filed : List Filed := []
  skipped : List Skipped := []
  owedIdentities : List String := []
  writeFault : Option String := none
  parked : Nat := 0
  parkFull : Nat := 0
  plan : AnnouncePlan

def pushUnique (v : List String) (id : String) : List String := if v.any fun x => x = id then v else v ++ [id]

def PotChangedOutcome.note (out : PotChangedOutcome) (o : String × Nat) (read : OutpointRead) : PotChangedOutcome :=
  let at_ := o.1 ++ ":" ++ toString o.2
  match read with
  | .failed e => { out with skipped := out.skipped ++ [⟨o.1, o.2, "[pot-changed] decoded-pots read failed for " ++ at_ ++ ": " ++ e⟩] }
  | .noParams named =>
    { out with
      owedIdentities := named.foldl pushUnique out.owedIdentities
      skipped := out.skipped ++ [⟨o.1, o.2, "[pot-changed] " ++ at_ ++ " has no decoded params yet, nothing to file (" ++ toString named.length ++
        " seat(s) attributed by marker)"⟩] }
  | .decoded [] named =>
    { out with
      owedIdentities := named.foldl pushUnique out.owedIdentities
      skipped := out.skipped ++ [⟨o.1, o.2, "[pot-changed] " ++ at_ ++ " has no attributed seats yet, nothing to file (" ++ toString named.length ++
        " seat(s) attributed by marker)"⟩] }
  | .decoded seats _ =>
    { out with
      owedIdentities := seats.foldl pushUnique out.owedIdentities
      filed := out.filed ++ seats.map fun id => ⟨o.1, o.2, id⟩
      plan := { out.plan with seatEvents := out.plan.seatEvents ++ seats.map fun id => (id, o.1, o.2) } }

/-- `apply_pot_changed` up to its write. -/
def applyReads (outpoints : List (String × Nat)) (atMs : Nat) (admittedAtMs : Option Nat) (reads : List OutpointRead) : PotChangedOutcome :=
  (outpoints.zip reads).foldl (fun out r => out.note r.1 r.2) { plan := { outpoints, atMs, admittedAtMs } }

def PotChangedOutcome.parks (out : PotChangedOutcome) : List ParkOp :=
  out.plan.wakes.map fun wake => .park wake out.plan.atMs (out.plan.atMs + parkGraceMs)

def isParkFull (e : String) : Bool := decide (1 < (e.splitOn parkFullFault).length)

def PotChangedOutcome.faulted (out : PotChangedOutcome) (e : String) : PotChangedOutcome :=
  if !out.parks.isEmpty && isParkFull e then { out with parkFull := out.parks.length, writeFault := some ("the park is full: " ++ e) }
  else { out with writeFault := some e }

def PotChangedOutcome.committed (out : PotChangedOutcome) (outs : List OpOut) : PotChangedOutcome :=
  { out with
    plan := { out.plan with generations := outs.map OpOut.generation }
    parked := outs.countP fun o => o.generation.isSome }

/-! ## The announce and the drain -/

def isRetryable : Option Delivery → Bool
  | none => true
  | some .failed => true
  | _ => false

def landed (d : Option Delivery) : Bool := !isRetryable d

/-- What the relay came to for each of `n` calls: its answer, or none at the wall. -/
def answers (n : Nat) (got : List (Option Delivery)) : List (Option Delivery) := (List.range n).map fun i => (got[i]?).join

def answeredEvents (calls : List (Call × Option Delivery)) : List Event :=
  calls.filterMap fun s => s.1.generation.map fun g => .answered s.1.wake g (landed s.2)

def settleAnnounced (now : Nat) (s : Call) (d : Option Delivery) : Option ParkOp :=
  s.generation.map fun g => if landed d then .delivered s.wake g else .retry s.wake g 1 (retryAt now 1) none

def settleDrained (now : Nat) (p : Parked) (d : Option Delivery) : ParkOp :=
  if landed d then .delivered p.wake p.generation
  else
    let attempts := p.attempts + 1
    .retry p.wake p.generation attempts (retryAt now attempts) (if parkMaxAttempts ≤ attempts then some now else none)

def announceOps (now : Nat) (plan : AnnouncePlan) (got : List (Option Delivery)) : List ParkOp :=
  ((plan.sends now).zip got).filterMap fun s => settleAnnounced now s.1 s.2

def drainOps (round now : Nat) (due : List Parked) (got : List (Option Delivery)) : List ParkOp :=
  (due.zip got).map (fun p => settleDrained now p.1 p.2) ++
    if round = 0 then [.age (now - parkOverdueMaxMs) now sweepMaxPerPass, .sweep (now - parkSweepAfterMs) sweepMaxPerPass] else []

inductive AnnounceStage where
  | deliver
  | redrive (t0 left : Nat) (got : List (Option Delivery)) (pending : List Nat)
  | settle (got : List (Option Delivery))
  | done

inductive DrainStage where
  | read (round : Nat)
  | deliver (round : Nat) (due : List Parked)
  | settle (round : Nat) (due : List Parked) (got : List (Option Delivery)) (walled : Bool)
  | done

inductive HookStage where
  | read (outpoints : List (String × Nat)) (atMs : Nat) (admittedAtMs : Option Nat)
  | write (out : PotChangedOutcome)
  | answered

inductive Job where
  | hook (tries : Nat) (stage : HookStage)
  | announce (tries : Nat) (plan : AnnouncePlan) (stage : AnnounceStage)
  | drain (stage : DrainStage)

structure Env where
  now : Nat := 0
  reads : List OutpointRead := []
  got : List (Option Delivery) := []
  fault : Option String := none
  deadline : Bool := false
  landed : Bool := true

structure World where
  store : Store := {}
  log : List Event := []
  jobs : List Job := []
  outcomes : List PotChangedOutcome := []

namespace World

/-- The batch of a job, unless it faults or is refused; `commits` whether it landed. -/
def batch (w : World) (env : Env) (ops : List ParkOp) : World × Option (List OpOut) :=
  match env.fault, w.store.write env.now ops w.log with
  | none, some done => if env.deadline && !env.landed then (w, none) else ({ w with store := done.1, log := done.2.2 }, some done.2.1)
  | _, _ => (w, none)

def hookStep (w : World) (env : Env) (tries : Nat) : HookStage → World × Job
  | .read outpoints atMs admittedAtMs => (w, .hook tries (.write (applyReads outpoints atMs admittedAtMs env.reads)))
  | .write out =>
    match w.batch { env with deadline := false } out.parks with
    | (w, some outs) =>
      let out := out.committed outs
      ({ w with jobs := w.jobs ++ [.announce tries out.plan .deliver], outcomes := w.outcomes ++ [out] }, .hook tries .answered)
    | (w, none) => ({ w with outcomes := w.outcomes ++ [out.faulted (env.fault.getD parkFullFault)] }, .hook tries .answered)
  | .answered => (w, .hook tries .answered)

def announceStep (w : World) (env : Env) (tries : Nat) (plan : AnnouncePlan) : AnnounceStage → World × AnnounceStage
  | .deliver =>
    let sends := plan.sends env.now
    let got := answers sends.length env.got
    let pending := (List.range sends.length).filter fun i => ((sends[i]?).bind Call.generation).isSome && isRetryable (got[i]?).join
    ({ w with log := answeredEvents (sends.zip got) ++ w.log }, .redrive env.now tries got pending)
  | .redrive t0 left got pending =>
    if left = 0 ∨ pending = [] ∨ announceRedriveDeadlineMs ≤ env.now - t0 then (w, .settle got)
    else
      let redriven := pending.zip (answers pending.length env.got)
      let again := redriven.filterMap fun r => ((plan.sends t0)[r.1]?).map fun s => (s, r.2)
      let got' := redriven.foldl (fun got r => got.set r.1 r.2) got
      ({ w with log := answeredEvents again ++ w.log }, .redrive t0 (left - 1) got' (pending.filter fun i => isRetryable (got'[i]?).join))
  | .settle got =>
    let ops := announceOps env.now plan got
    (if ops = [] then w else (w.batch env ops).1, .done)
  | .done => (w, .done)

def drainStep (w : World) (env : Env) : DrainStage → World × DrainStage
  | .read round => (w, if env.fault.isSome || env.deadline then .done else .deliver round (w.store.dueParked env.now drainMaxPerPass))
  | .deliver round due =>
    let sends := due.map fun p => Call.mk p.wake p.atMs none env.now (some p.generation)
    let got := answers due.length env.got
    ({ w with log := answeredEvents (sends.zip got) ++ w.log }, .settle round due got env.deadline)
  | .settle round due got walled =>
    let ops := drainOps round env.now due got
    let w' := if ops = [] then w else (w.batch env ops).1
    let settled := ops = [] ∨ (env.fault = none ∧ env.deadline = false)
    -- a further round only for a backlog the relay is taking
    (w', if settled ∧ due.length = drainMaxPerPass ∧ walled = false ∧ (got.any landed) ∧ round + 1 < drainMaxRounds then .read (round + 1) else .done)
  | .done => (w, .done)

end World

inductive Move where
  | hook (outpoints : List (String × Nat)) (atMs : Nat) (admittedAtMs : Option Nat) (tries : Nat)
  | drain
  | turn (i : Nat) (env : Env)

namespace World

def jobStep (w : World) (env : Env) : Job → World × Job
  | .hook tries stage => w.hookStep env tries stage
  | .announce tries plan stage => ((w.announceStep env tries plan stage).1, .announce tries plan (w.announceStep env tries plan stage).2)
  | .drain stage => ((w.drainStep env stage).1, .drain (w.drainStep env stage).2)

def step (w : World) : Move → World
  | .hook outpoints atMs admittedAtMs tries => { w with jobs := w.jobs ++ [.hook tries (.read outpoints atMs admittedAtMs)] }
  | .drain => { w with jobs := w.jobs ++ [.drain (.read 0)] }
  | .turn i env => match w.jobs[i]? with
    | some j => { (w.jobStep env j).1 with jobs := (w.jobStep env j).1.jobs.set i (w.jobStep env j).2 }
    | none => w

def run (w : World) (moves : List Move) : World := moves.foldl step w

end World

end OverlayEngine.PotHook
