import OverlayEngine.Worker.DeferredGraphs

/-!
# The deferred jobs of the gated arm

A submission past one request's budget is put at rest: its bytes as an R2 object
or as D1 chunks, and a job row that names them. A queue consumer takes the job,
reads the bytes back, runs the arm and settles or advances the row; the cron
hands quiet jobs to the queue again and sweeps settled ones. The row and the
bytes of one reference are modelled here, each call a program counter: one move
runs one statement of one call.
-/

namespace OverlayEngine.DeferredJobs

open DeferredGraphs (Fate)

def jobAttempts : Nat := 5
def jobResumeAfterMs : Int := 10 * 60 * 1000
def jobKeepMs : Int := 7 * 24 * 60 * 60 * 1000
def atRestChunkBytes : Nat := 1000000

/-- The chunks of `len` bytes, `[start, end)`; zero bytes are one empty chunk. -/
def chunkSpans (len chunk : Nat) : List (Nat × Nat) :=
  if len = 0 then [(0, 0)] else (List.range ((len + chunk - 1) / chunk)).map fun i => (i * chunk, min ((i + 1) * chunk) len)

/-- What is submitted: the stored stream (the BEEF, then the off-chain values), and `job_reference` of a stream split as
this one is, under its topics. -/
structure Submission where
  stream : List UInt8
  jobReference : List UInt8 → String

def Submission.span (sub : Submission) (p : Nat × Nat) : List UInt8 := (sub.stream.drop p.1).take (p.2 - p.1)

def Submission.spans (sub : Submission) : List (List UInt8) := (chunkSpans sub.stream.length atRestChunkBytes).map sub.span

inductive AtRest where
  | d1
  | r2
  deriving DecidableEq

inductive State where
  | queued
  | running
  | done
  | failed
  deriving DecidableEq

def State.isOpen : State → Bool
  | .queued | .running => true
  | .done | .failed => false

/-- A row of `ef_deferred_jobs`. -/
structure Row where
  bytes : Nat
  atRest : AtRest
  chunks : Nat
  state : State
  attempts : Nat
  status : Option Nat
  updatedAt : Int
  legsFrom : Nat
  deriving DecidableEq

/-- `job_open`: still being worked, so a re-presentation names it and writes nothing. -/
def jobOpen (state : State) (updatedAt now : Int) : Bool := state.isOpen && decide (now - updatedAt < jobResumeAfterMs)

/-- `JOB_UPSERT_SQL`. -/
def Submission.queued (sub : Submission) (atRest : AtRest) (legsFrom : Nat) (now : Int) : Row :=
  { bytes := sub.stream.length
    atRest := atRest
    chunks := match atRest with
      | .r2 => 1
      | .d1 => sub.spans.length
    state := .queued, attempts := 0, status := none, updatedAt := now, legsFrom := legsFrom }

/-- `JOB_TAKE_SQL`. -/
def Row.take (r : Row) (now : Int) : Row := { r with state := .running, attempts := r.attempts + 1, updatedAt := now }

/-- `JOB_SETTLE_SQL`. -/
def Row.settle (r : Row) (state : State) (status : Nat) (now : Int) : Row := { r with state := state, status := some status, updatedAt := now }

/-- `SET` of `JOB_ADVANCE_SQL`. -/
def Row.advance (r : Row) (reached status : Nat) (now : Int) : Row :=
  { r with state := .queued, legsFrom := reached, attempts := 0, status := some status, updatedAt := now }

/-- `JOB_TOUCH_SQL`. -/
def Row.touch (r : Row) (now : Int) : Row := { r with state := .queued, updatedAt := now }

/-- `WHERE` of `JOBS_QUIET_SQL`. -/
def Row.quiet (r : Row) (cutoff : Int) : Bool := r.state.isOpen && decide (r.updatedAt < cutoff)

/-- `WHERE` of `JOBS_EXPIRED_SQL` and of `JOB_DELETE_SQL`. -/
def Row.expired (r : Row) (cutoff : Int) : Bool := !r.state.isOpen && decide (r.updatedAt < cutoff)

/-- The arm's answer: its status, and the `resumeAt` of its body. -/
structure Answer where
  status : Nat
  resumeAt : Option Nat

def resumePoint (a : Answer) : Option Nat := if a.status = 202 then a.resumeAt else none

inductive Settle where
  | done
  | again

def settle (status : Nat) : Settle := if 500 ≤ status ∨ status = 429 then .again else .done

/-- A call by its next step. `took` is how many upserts had landed when the run's take did. -/
inductive Job where
  | putRead (store : AtRest) (legsFrom : Nat) (now : Int)
  | putObject (legsFrom : Nat) (now : Int)
  | wipe (legsFrom : Nat) (now : Int)
  | chunk (i : Nat) (legsFrom : Nat) (now : Int)
  | upsert (store : AtRest) (legsFrom : Nat) (now : Int)
  | send
  | runRead
  | take (r : Row) (now : Int)
  | loadObject (r : Row) (took : Nat)
  | loadChunk (r : Row) (took : Nat) (i : Nat) (out : List UInt8)
  | arm (r : Row) (took : Nat)
  | advance (reached status : Nat) (took : Nat)
  | settle (state : State) (status : Nat) (frees : Option AtRest) (took : Option Nat)
  | release (store : AtRest)
  | quietRead (now : Int)
  | handBack (now : Int)
  | touch (now : Int)
  | expiredRead (now : Int)
  | sweep (now : Int)
  | finished
  deriving DecidableEq

structure World where
  row : Option Row := none
  object : Option (List UInt8) := none
  chunks : Nat → Option (List UInt8) := fun _ => none
  jobs : List Job := []
  now : Int := 0
  sent : Nat := 0
  upserts : Nat := 0
  overwritten : Nat := 0

structure Env where
  answer : Answer := ⟨200, none⟩
  listed : Bool := true

inductive Move where
  | put (store : AtRest) (legsFrom : Nat)
  | run
  | handBack
  | sweep
  | go (job : Nat) (fate : Fate) (env : Env)
  | die (job : Nat)
  | tick (ms : Nat)

section
variable (sub : Submission)

/-- After `i` chunks are in: the next one, or the row. -/
def nextChunk (i legsFrom : Nat) (now : Int) : Job := if i < sub.spans.length then .chunk i legsFrom now else .upsert .d1 legsFrom now

def unreadable (r : Row) (took : Nat) : Job := .settle .failed 500 (some r.atRest) (some took)

def verified (r : Row) (took : Nat) (bytes : List UInt8) : Job :=
  if bytes.length = r.bytes ∧ sub.jobReference bytes = sub.jobReference sub.stream then .arm r took else unreadable r took

def nextRead (r : Row) (took i : Nat) (out : List UInt8) : Job := if i < r.chunks then .loadChunk r took i out else verified sub r took out

def load (r : Row) (took : Nat) : Job :=
  match r.atRest with
  | .r2 => .loadObject r took
  | .d1 => nextRead sub r took 0 []

end

def afterRead (r : Row) (now : Int) : Job :=
  match r.state with
  | .done | .failed => .finished
  | state =>
    if state = .running ∧ now - r.updatedAt < jobResumeAfterMs then .finished
    else if jobAttempts ≤ r.attempts then .settle .failed (r.status.getD 503) (some r.atRest) none
    else .take r now

def afterArm (r : Row) (took : Nat) (a : Answer) : Job :=
  match resumePoint a with
  | some reached => if r.legsFrom < reached then .advance reached a.status took else .settle .queued a.status none (some took)
  | none =>
    match settle a.status with
    | .done => .settle .done a.status (some r.atRest) (some took)
    | .again => .settle .queued a.status none (some took)

def orEnd (fate : Fate) (job : Job) : Job := if fate = .ok then job else .finished

namespace World

def put (w : World) (i : Nat) (job : Job) : World := { w with jobs := w.jobs.set i job }

def past (w : World) (took : Option Nat) : Bool := took.any (· < w.upserts)

section
variable (sub : Submission)

def go (w : World) (i : Nat) (fate : Fate) (env : Env) : Job → World
  | .putRead store legsFrom now =>
    w.put i (orEnd fate (if w.row.any fun r => jobOpen r.state r.updatedAt now then .finished
      else match store with
        | .r2 => .putObject legsFrom now
        | .d1 => .wipe legsFrom now))
  | .putObject legsFrom now =>
    { w.put i (orEnd fate (.upsert .r2 legsFrom now)) with object := if fate.effect then some sub.stream else w.object }
  | .wipe legsFrom now =>
    { w.put i (orEnd fate (nextChunk sub 0 legsFrom now)) with chunks := if fate.effect then fun _ => none else w.chunks }
  | .chunk k legsFrom now =>
    { w.put i (orEnd fate (nextChunk sub (k + 1) legsFrom now)) with
      chunks := if fate.effect then Function.update w.chunks k sub.spans[k]? else w.chunks }
  | .upsert store legsFrom now =>
    { w.put i (orEnd fate .send) with
      row := if fate.effect then some (sub.queued store legsFrom now) else w.row
      upserts := if fate.effect then w.upserts + 1 else w.upserts }
  | .send => { w.put i .finished with sent := if fate.effect then w.sent + 1 else w.sent }
  | .runRead =>
    w.put i (orEnd fate (match w.row with
      | none => .finished
      | some r => afterRead r w.now))
  | .take r now =>
    { w.put i (orEnd fate (load sub r w.upserts)) with row := if fate.effect then w.row.map (·.take now) else w.row }
  | .loadObject r took =>
    w.put i (match fate, w.object with
      | .ok, some bytes => verified sub r took bytes
      | _, _ => unreadable r took)
  | .loadChunk r took k out =>
    w.put i (match fate, w.chunks k with
      | .ok, some bytes => nextRead sub r took (k + 1) (out ++ bytes)
      | _, _ => unreadable r took)
  | .arm r took => w.put i (afterArm r took env.answer)
  | .advance reached status took =>
    let lands := fate.effect && w.row.any fun r => r.legsFrom < reached
    { w.put i (orEnd fate .send) with
      row := if lands then w.row.map (·.advance reached status w.now) else w.row
      overwritten := if lands && w.past (some took) then w.overwritten + 1 else w.overwritten }
  | .settle state status frees took =>
    let lands := fate.effect && w.row.isSome
    -- `settle_job` answers nothing: the bytes are released whatever became of the row
    { w.put i (match frees with
        | some store => .release store
        | none => .finished) with
      row := if lands then w.row.map (·.settle state status w.now) else w.row
      overwritten := if lands && w.past took then w.overwritten + 1 else w.overwritten }
  | .release .r2 => { w.put i .finished with object := if fate.effect then none else w.object }
  | .release .d1 => { w.put i .finished with chunks := if fate.effect then fun _ => none else w.chunks }
  | .quietRead now =>
    w.put i (orEnd fate (if env.listed && w.row.any fun r => r.quiet (now - jobResumeAfterMs) then .handBack now else .finished))
  | .handBack now => { w.put i (orEnd fate (.touch now)) with sent := if fate.effect then w.sent + 1 else w.sent }
  | .touch now => { w.put i .finished with row := if fate.effect then w.row.map (·.touch now) else w.row }
  | .expiredRead now =>
    w.put i (orEnd fate (if env.listed && w.row.any fun r => r.expired (now - jobKeepMs) then .sweep now else .finished))
  | .sweep now =>
    let due := w.row.filter fun r => r.expired (now - jobKeepMs)
    { w.put i (orEnd fate (match due with
        | some r => .release r.atRest
        | none => .finished)) with
      row := if fate.effect ∧ due.isSome = true then none else w.row }
  | .finished => w

def step (w : World) : Move → World
  | .put store legsFrom => { w with jobs := w.jobs ++ [.putRead store legsFrom w.now] }
  | .run => { w with jobs := w.jobs ++ [.runRead] }
  | .handBack => { w with jobs := w.jobs ++ [.quietRead w.now] }
  | .sweep => { w with jobs := w.jobs ++ [.expiredRead w.now] }
  | .go i fate env =>
    match w.jobs[i]? with
    | none => w
    | some job => w.go sub i fate env job
  | .die i => w.put i .finished
  | .tick ms => { w with now := w.now + ms }

def run (w : World) (moves : List Move) : World := moves.foldl (step sub) w

end

end World

end OverlayEngine.DeferredJobs
