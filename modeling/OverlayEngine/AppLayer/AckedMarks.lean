import Mathlib.Data.List.Basic
import OverlayEngine.Basis.Runs

/-!
# The acknowledgement of a mark

The roads of `crates/low-app-layer` that delete a mark of `owed_dirty` on the owed
actor's word: the consumer's delivery in Phase B (`actor_then_d1`) and in Phase C
(`as_the_judge`), and a direct pass's bodies (`call_bodies`). Each reads a bound
of generations before its call and deletes the marks of the call's games up to it
after the answer. Any number of them are under way, one D1 batch after another.

Taken from outside: the actor, of which `Promise` names what may be relied on, and
the writes. A write is known by the generation its mark was given, and its source
row by the key its mark carries; the marks that name no row (a tip's, an
envelope's) are left out.
-/

namespace OverlayEngine.AckedMarks

abbrev Identity := String
abbrev Game := String
abbrev Txid := String
abbrev Generation := Nat

/-- `to_ascii_lowercase`. -/
def lower (s : String) : String := s.toLower

def isHexDigit (c : Char) : Bool := c.isDigit || ('a' ≤ c && c ≤ 'f') || ('A' ≤ c && c ≤ 'F')

/-- `txids_in`: the runs of just 64 hex digits. -/
def txidsIn (s : String) : List Txid :=
  ((s.toList.splitOnP fun c => !isHexDigit c).filter fun run => run.length == 64).map fun run => lower (String.ofList run)

/-! ## The record -/

structure Row where
  source : String
  sourceKey : String

def Row.txids (r : Row) : List Txid := txidsIn r.sourceKey

structure Mark where
  generation : Generation
  identity : Identity
  game : Game
  row : Row

/-- `owed_dirty` with its sequence, and every write of a source row so far. -/
structure Record where
  writes : List (Generation × Row) := []
  marks : List Mark := []
  last : Generation := 0

namespace Record

variable (r : Record)

def mark (row : Row) (subject : Identity × Game) : Record :=
  { writes := r.writes ++ [(r.last + 1, row)]
    marks := (r.marks.filter fun m =>
        !(m.identity == subject.1 && m.game == subject.2 && m.row.source == row.source && m.row.sourceKey == row.sourceKey)) ++
      [⟨r.last + 1, subject.1, subject.2, row⟩]
    last := r.last + 1 }

def write (row : Row) (subjects : List (Identity × Game)) : Record := subjects.foldl (fun r subject => r.mark row subject) r

/-- `MARKS_SQL`. -/
def marksOf (identity : Identity) (games : List Game) : List Mark := r.marks.filter fun m => m.identity == identity && games.contains m.game

/-- The marks `ACK_DIRTY_SQL` deletes. -/
def acked (identity : Identity) (games : List Game) (bound : Generation) : List Mark :=
  r.marks.filter fun m => m.identity == identity && games.contains m.game && decide (m.generation ≤ bound)

def ack (identity : Identity) (games : List Game) (bound : Generation) : Record :=
  { r with marks := r.marks.filter fun m => !(m.identity == identity && games.contains m.game && decide (m.generation ≤ bound)) }

end Record

def greatest (marks : List Mark) : Generation := (marks.map Mark.generation).foldl max 0

/-! ## The bounds -/

def marksBound (r : Record) (identity : Identity) (games : List Game) : Generation := greatest (r.marksOf (lower identity) (games.map lower))

abbrev GameBounds := Identity → Game → Option Generation

/-- `direct_subjects_many`'s bounds: each pair the window's marks name, with the greatest generation of its marks. -/
def directSubjectsMany (r : Record) (pairs : List (Identity × Game)) : GameBounds := fun identity game =>
  ((r.marks.filter fun m => pairs.any (fun p => p.1 == m.identity && p.2 == m.game) && lower m.identity == identity && lower m.game == game).map
    Mark.generation).max?

/-- One of `direct_bounds_many`'s, and the bound `as_the_judge` reads. -/
def directBound (r : Record) (identity : Identity) (games : List Game) : Generation := greatest (r.marksOf (lower identity) games)

def boundOfGames (bounds : GameBounds) (identity : Identity) (games : List Game) : Option Generation :=
  games.foldlM (fun acc g => (bounds (lower identity) (lower g)).map fun b => max acc b) 0

/-! ## The actor -/

/-- The body of a call; `txids` none: the whole record is to be read. -/
structure Body where
  identity : Identity
  games : List Game
  txids : Option (List Txid) := none
  carried : Bool := false

structure Answer where
  held : Bool := false
  appliedGames : List Game := []
  heldGames : List Game := []

def Answer.named (a : Answer) (games : List Game) : List Game :=
  ((if a.held then a.heldGames else a.appliedGames).map lower).filter fun g => games.any fun x => lower x == g

def appliedGames (a : Answer) (games : List Game) : List Game := if a.held then [] else a.named games

structure Promise where
  /-- A narrowed read also reads the rows that the marks of its games name. -/
  marked : Bool
  /-- An answer that is not held names every game of its call. -/
  whole : Bool

/-- What `apply_with` and `apply_burst` do. -/
def Promise.code : Promise := ⟨true, true⟩

/-- An apply from its record read on; `last`: the greatest generation given by then. -/
structure Apply where
  identity : Identity
  games : List Game
  last : Generation
  full : Bool
  keys : List Txid
  /-- The writes in what it read. -/
  content : List Generation
  /-- The coverage it records once committed. -/
  covered : Option Generation

def Record.read (r : Record) (p : Promise) (identity : Identity) (games : List Game) (touch : Option (List Txid)) (covers : Bool) : Apply :=
  let marks := r.marksOf identity games
  let full := touch.isNone
  let keys := touch.getD [] ++ if p.marked then marks.flatMap fun m => m.row.txids else []
  { identity := identity
    games := games
    last := r.last
    full := full
    keys := keys
    content := (r.writes.filter fun w => full || w.2.txids.any keys.contains).map Prod.fst
    covered := if covers then some (greatest marks) else none }

def Apply.reads (a : Apply) (txids : Option (List Txid)) : Bool := a.full || txids.any fun ts => ts.all a.keys.contains

/-! ## The world -/

inductive Road where
  | actorThenD1
  | asTheJudge
  | direct
  deriving DecidableEq

inductive Stage where
  /-- The bound is read. -/
  | bounded
  /-- The call is made; `made`: the applies begun before it. -/
  | called (made : Nat)
  /-- The call came back; none: no actor is bound for the identity. -/
  | answered (answer : Option Answer)
  /-- D1's judge has read the marks. -/
  | marksRead (seen : Generation)
  /-- D1's judge has read the record. -/
  | hydrated (seen : Generation) (content : List Generation)
  | ended

structure Job where
  road : Road
  body : Body
  bound : Option Generation
  stage : Stage := .bounded

def Job.named (j : Job) : Option Generation := if j.road = .direct then none else j.bound

/-- A game held in the actor's own storage; `at_`: the applies begun before. -/
structure Held where
  identity : Identity
  game : Game
  at_ : Nat

structure Acked where
  mark : Mark
  d1 : Option (List Generation)

structure World where
  /-- The identities an actor is bound for. -/
  actor : Identity → Bool := fun _ => true
  record : Record := {}
  /-- The passes' marks' batches. -/
  batches : List GameBounds := []
  jobs : List Job := []
  applies : List Apply := []
  /-- The applies whose fixpoint is committed. -/
  commits : List Nat := []
  bootstrapped : List Identity := []
  held : List Held := []
  acked : List Acked := []

namespace World

variable (w : World)

def set (i : Nat) (j : Job) (stage : Stage) : World := { w with jobs := w.jobs.set i { j with stage := stage } }

def appliedSince (made : Nat) (identity : Identity) (game : Game) (judge : Apply → Bool) : Bool :=
  w.commits.any fun i => decide (made ≤ i) && w.applies[i]?.any fun a => a.identity == identity && a.games.contains game && judge a

def mayName (j : Job) (made : Nat) (game : Game) : Bool :=
  w.appliedSince made (lower j.body.identity) game (fun a => a.reads j.body.txids) ||
    j.named.any fun bound => w.appliedSince 0 (lower j.body.identity) game fun a => a.covered.any (bound ≤ ·)

def mayAnswer (p : Promise) (j : Job) (made : Nat) (a : Answer) : Bool :=
  if a.held then !w.bootstrapped.contains (lower j.body.identity)
  else (!p.whole || (j.body.games.map lower).all (a.appliedGames.map lower).contains) &&
    (j.body.carried || (a.named j.body.games).all (w.mayName j made))

def hold (j : Job) (a : Answer) : World :=
  if a.held then { w with held := w.held ++ (j.body.games.map lower).map fun g => ⟨lower j.body.identity, g, w.applies.length⟩ } else w

def ack (identity : Identity) (games : List Game) (bound : Generation) (d1 : Option (List Generation)) : World :=
  { w with record := w.record.ack identity games bound, acked := w.acked ++ (w.record.acked identity games bound).map fun m => ⟨m, d1⟩ }

def owedJudgeSubjectsPerInvocation : Nat := 16

def judged (j : Job) : List Game := (j.body.games.map lower).eraseDups.take owedJudgeSubjectsPerInvocation

def drained (identity : Identity) : Bool :=
  w.held.all fun h => h.identity != identity || w.appliedSince h.at_ identity h.game Apply.full

inductive Move where
  | write (row : Row) (subjects : List (Identity × Game))
  /-- A direct pass's marks' batch, over the pairs its window names. -/
  | marksBatch (pairs : List (Identity × Game))
  | actorThenD1 (body : Body)
  | asTheJudge (body : Body)
  /-- `call_bodies` to its calls: the bounds of a marks' batch (none: empty), the others asked, the asks' batch landing or not. -/
  | callBodies (bodies : List Body) (batch : Option Nat) (landed : Bool)
  | call (i : Nat)
  /-- The call comes back; none: it faulted, or met its wall. -/
  | answer (i : Nat) (answer : Option Answer)
  /-- The next D1 batch of a job whose call came back. -/
  | next (i : Nat)
  /-- The next D1 batch of a job faults, or its isolate ends. -/
  | drop (i : Nat)
  /-- An apply's record read; `touch` none: the whole of it. -/
  | read (identity : Identity) (games : List Game) (touch : Option (List Txid)) (covers : Bool)
  | commit (i : Nat)
  | bootstrapped (identity : Identity)
  | unstamped (identity : Identity)

/-- A job's bound as `call_bodies` comes by it: a carried body acknowledges nothing. -/
def bodyBound (bounds : GameBounds) (landed : Bool) (b : Body) : Option Generation :=
  if b.carried then none
  else match boundOfGames bounds b.identity b.games with
    | some seen => some seen
    | none => if landed then some (directBound w.record b.identity b.games) else none

def called (i : Nat) (j : Job) : World :=
  if w.actor (lower j.body.identity) then w.set i j (.called w.applies.length)
  else if j.road = .actorThenD1 then w.set i j (.answered none)
  else w.set i j .ended

def answered (p : Promise) (i : Nat) (j : Job) (made : Nat) : Option Answer → World
  | none => w.set i j .ended
  | some a => if w.mayAnswer p j made a then (w.hold j a).set i j (.answered (some a)) else w

def actorAcked (i : Nat) (j : Job) (games : List Game) : World :=
  match j.bound with
  | none => w.set i j .ended
  | some seen => if games.isEmpty then w.set i j .ended else (w.ack (lower j.body.identity) games seen none).set i j .ended

def next (i : Nat) (j : Job) : World :=
  match j.road, j.stage with
  | .actorThenD1, .answered _ => w.set i j (.marksRead (greatest (w.record.marksOf (lower j.body.identity) (judged j))))
  | .actorThenD1, .marksRead seen => w.set i j (.hydrated seen (w.record.writes.map Prod.fst))
  | .actorThenD1, .hydrated seen content =>
    (w.ack (lower j.body.identity) (judged j) (min (j.bound.getD 0) seen) (some content)).set i j .ended
  | .asTheJudge, .answered (some a) => w.actorAcked i j (a.named j.body.games)
  | .direct, .answered (some a) => w.actorAcked i j (appliedGames a j.body.games)
  | _, _ => w

def step (p : Promise) : Move → World
  | .write row subjects => if row.txids.isEmpty then w else { w with record := w.record.write row subjects }
  | .marksBatch pairs => { w with batches := w.batches ++ [directSubjectsMany w.record pairs] }
  | .actorThenD1 body => { w with jobs := w.jobs ++ [⟨.actorThenD1, { body with carried := false }, some (marksBound w.record body.identity body.games), .bounded⟩] }
  | .asTheJudge body => { w with jobs := w.jobs ++ [⟨.asTheJudge, { body with carried := false }, some (directBound w.record body.identity body.games), .bounded⟩] }
  | .callBodies bodies batch landed =>
    let bounds := (batch.bind (w.batches[·]?)).getD fun _ _ => none
    { w with jobs := w.jobs ++ bodies.map fun b => ⟨.direct, b, w.bodyBound bounds landed b, .bounded⟩ }
  | .call i =>
    match w.jobs[i]? with
    | none => w
    | some j =>
      match j.stage with
      | .bounded => w.called i j
      | _ => w
  | .answer i answer =>
    match w.jobs[i]? with
    | none => w
    | some j =>
      match j.stage with
      | .called made => w.answered p i j made answer
      | _ => w
  | .next i =>
    match w.jobs[i]? with
    | none => w
    | some j => w.next i j
  | .drop i =>
    match w.jobs[i]? with
    | none => w
    | some j => w.set i j .ended
  | .read identity games touch covers => { w with applies := w.applies ++ [w.record.read p identity games touch covers] }
  | .commit i => if i < w.applies.length then { w with commits := w.commits ++ [i] } else w
  | .bootstrapped identity =>
    if w.drained identity then
      { w with bootstrapped := w.bootstrapped ++ [identity], held := w.held.filter fun h => h.identity != identity }
    else w
  | .unstamped identity => { w with bootstrapped := w.bootstrapped.filter fun x => x != identity }

def run (p : Promise) (moves : List Move) : World := moves.foldl (fun w m => w.step p m) w

end World

end OverlayEngine.AckedMarks
