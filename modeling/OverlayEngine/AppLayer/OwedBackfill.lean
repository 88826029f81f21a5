import Mathlib.Data.String.Basic
import OverlayEngine.Basis.OrderedPages

/-!
# The one-time derivation behind a stamp

`crates/low-app-layer/src/owed_backfill.rs`. A pass reads the stamp, the gate
and the evidence phase, then visits the identities past its cursor in order:
each one's games marked and judged a batch at a time, then the cursor saved. It
awaits one read, batch or judge call a turn, and each is done, faults with
nothing written, or is cut, its batch landed or not.
-/

namespace OverlayEngine.OwedBackfill

open OrderedPages (firsts merged)

abbrev Identity := String
abbrev Game := String

def identitiesPerPass : Nat := 128
def gamesPerBatch : Nat := 24
def identityFaultsMax : Nat := 3
def owedTriggersMigrationCount : Nat := 409
def evictionsDone : String := "~"
def owedBackfillStamp : String := "owed-v2"

/-! ## The rows read -/

structure EvictedParty where
  identity : Identity
  potTxid : String
  sigValid : Bool
  seatSettlePubkey : Option String
  deriving DecidableEq

structure Eviction where
  txid : String
  readmittedAt : Option Nat
  deriving DecidableEq

/-- The tables `IDENTITIES_SQL` and `MARK_SQL` read, each row as its identity and its game. -/
structure Sources where
  potparty : List (Identity × Game) := []
  hopparty : List (Identity × Game) := []
  evictedParties : List EvictedParty := []
  evictions : List Eviction := []
  released : List (Identity × Game) := []
  missing : List (Identity × Game) := []
  owedRows : List (Identity × Game) := []
  deriving DecidableEq

namespace Sources

def add (s t : Sources) : Sources where
  potparty := s.potparty ++ t.potparty
  hopparty := s.hopparty ++ t.hopparty
  evictedParties := s.evictedParties ++ t.evictedParties
  evictions := s.evictions ++ t.evictions
  released := s.released ++ t.released
  missing := s.missing ++ t.missing
  owedRows := s.owedRows ++ t.owedRows

def seated (s : Sources) (p : EvictedParty) : Bool :=
  p.sigValid && p.seatSettlePubkey.isSome && s.evictions.any fun e => e.txid == p.potTxid && e.readmittedAt.isNone

def sides (s : Sources) : List (List Identity) :=
  [s.potparty.map Prod.fst, s.hopparty.map Prod.fst, (s.evictedParties.filter s.seated).map EvictedParty.identity]

/-- `IDENTITIES_SQL`. -/
def identities (s : Sources) (cursor : Identity) : List Identity := merged cursor identitiesPerPass s.sides

/-- The games `MARK_SQL` names. -/
def games (s : Sources) (identity : Identity) : List Game :=
  (((s.potparty ++ s.hopparty ++ s.released ++ s.missing ++ s.owedRows).filter fun r => r.1 == identity && r.2 != "").map Prod.snd).dedup

end Sources

structure Mark where
  identity : Identity
  gameId : Game
  source : String
  sourceKey : String
  deriving DecidableEq

/-! ## The store -/

/-- The sources, `owed_dirty`, the identities flagged truncated, the stamp, and the rows of `owed_belt_state` by name. -/
structure Db where
  sources : Sources := {}
  dirty : List Mark := []
  truncated : List Identity := []
  stamped : Bool := false
  cursor : Option Identity := none
  openRow : Option Identity := none
  faults : Option (Identity × Nat) := none
  batch : Option (Identity × Nat) := none
  evictions : String := ""
  skipped : List Identity := []

/-- A commit of the judge on one game: its marks cleared, and whether the game has a row in `owed_rows` after it. -/
structure Commit where
  gameId : Game
  clears : Mark → Bool
  row : Bool := false

namespace Db

/-- `ARM_SQL`. -/
def arm (db : Db) : Db := { db with cursor := some (db.cursor.getD "") }

def backfillMark (identity : Identity) (game : Game) : Mark := ⟨identity, game, "backfill", owedBackfillStamp⟩

/-- `MARK_SQL`, `OPEN_SQL` and `TRUNCATED_RESET_SQL`. -/
def mark (db : Db) (identity : Identity) : Db :=
  { db with
    dirty := db.dirty ++ ((db.sources.games identity).map (backfillMark identity)).filter fun m => !db.dirty.any (· == m)
    openRow := some identity
    truncated := db.truncated.filter (· != identity) }

/-- `GAMES_SQL`. -/
def games (db : Db) (identity : Identity) (limit : Nat) : List Game :=
  firsts limit ((db.dirty.filter fun m => m.identity == identity && m.source == "backfill").map Mark.gameId)

def commit (identity : Identity) (db : Db) (c : Commit) : Db :=
  { db with
    dirty := db.dirty.filter fun m => !(m.identity == identity && m.gameId == c.gameId && c.clears m)
    sources := { db.sources with
      owedRows := (db.sources.owedRows.filter fun r => !(r.1 == identity && r.2 == c.gameId)) ++ if c.row then [(identity, c.gameId)] else [] } }

end Db

def batchSizeFor (batch : Option (Identity × Nat)) (identity : Identity) : Nat :=
  match batch with
  | some (named, size) => if named = identity then min (max size 1) gamesPerBatch else gamesPerBatch
  | none => gamesPerBatch

def faultsOf (faults : Option (Identity × Nat)) (identity : Identity) : Nat :=
  match faults with
  | some (named, n) => if named = identity then n else 0
  | none => 0

def names (row : Option (Identity × Nat)) (identity : Identity) : Bool := row.any (·.1 == identity)

def gateOpen (count : Option Nat) : Bool := count.any (owedTriggersMigrationCount ≤ ·)

/-! ## The pass -/

/-- What `GATE_SQL` read. -/
structure Gate where
  cursor : Identity
  openRow : Option Identity
  faults : Option (Identity × Nat)
  batch : Option (Identity × Nat)

structure Page where
  gate : Gate
  lastPage : Bool

/-- The identity a pass is at, those after it, and its `backfill_identity`. -/
structure Visit where
  identity : Identity
  rest : List Identity
  size : Nat
  judgedHere : Nat := 0
  last : Option (List Game) := none

inductive Stage where
  | idle
  | stamp
  | gate
  | arm
  | evidence (g : Gate)
  | page (g : Gate)
  | stampEmpty
  | mark (p : Page) (v : Visit)
  | games (p : Page) (v : Visit)
  | judge (p : Page) (v : Visit) (games : List Game)
  | halve (p : Page) (v : Visit)
  | note (identity : Identity) (seen : Nat)
  | save (p : Page) (v : Visit) (skip : Bool)

inductive Await where
  | ok
  | fault
  | cut (landed : Bool)
  deriving DecidableEq

def Await.lands : Await → Bool
  | .ok => true
  | .fault => false
  | .cut landed => landed

structure Phase where
  evictions : String := evictionsDone
  released : List (Identity × Game) := []
  missing : List (Identity × Game) := []
  finished : Bool := true

structure Env where
  await : Await := .ok
  actorReads : Bool := false
  count : Option Nat := some owedTriggersMigrationCount
  phase : Phase := {}
  commits : List Commit := []

structure World where
  db : Db
  stage : Stage := .idle
  passes : Nat := 0
  armed : Option Sources := none
  judged : List (Identity × Game) := []
  marked : List Identity := []
  faulted : List (Identity × Nat) := []
  sizes : List (Identity × Nat) := []

namespace World

def goto (w : World) (stage : Stage) : World := { w with stage }

def visit (p : Page) : List Identity → Stage
  | [] => .idle
  | identity :: rest =>
    if p.gate.openRow = some identity then .games p { identity, rest, size := batchSizeFor p.gate.batch identity }
    else .mark p { identity, rest, size := gamesPerBatch }

def landArm (w : World) : World :=
  match w.db.cursor with
  | none => { w with db := w.db.arm, armed := some w.db.sources, judged := [], marked := [] }
  | some _ => { w with db := w.db.arm }

def landPhase (w : World) (ph : Phase) : World :=
  { w with db := { w.db with
      evictions := ph.evictions
      sources := w.db.sources.add { released := ph.released, missing := ph.missing } } }

def landMark (w : World) (identity : Identity) : World :=
  { w with db := w.db.mark identity, marked := identity :: w.marked }

def judge (w : World) (identity : Identity) (commits : List Commit) : World :=
  { w with
    db := commits.foldl (Db.commit identity) w.db
    judged := commits.map (fun c => (identity, c.gameId)) ++ w.judged }

def landHalf (w : World) (v : Visit) : World := { w with db := { w.db with batch := some (v.identity, max (v.size / 2) 1) } }

def fail (w : World) (p : Page) (v : Visit) : World :=
  let seen := faultsOf p.gate.faults v.identity + 1
  { w with
    faulted := (v.identity, w.passes) :: w.faulted
    stage := if seen < identityFaultsMax then .note v.identity seen else .save p v true }

def landNote (w : World) (identity : Identity) (seen : Nat) : World := { w with db := { w.db with faults := some (identity, seen) } }

def landSave (w : World) (p : Page) (v : Visit) (skip : Bool) : World :=
  { w with db := { w.db with
      cursor := some v.identity
      skipped := if skip then v.identity :: w.db.skipped else w.db.skipped
      batch := if names p.gate.batch v.identity then none else w.db.batch
      faults := if names p.gate.faults v.identity then none else w.db.faults
      stamped := w.db.stamped || (p.lastPage && v.rest.isEmpty) } }

def landing (w : World) (a : Await) (write : World → World) : World := if a.lands then write w else w

def readGate (w : World) (count : Option Nat) : Stage :=
  if gateOpen count then
    match w.db.cursor with
    | none => .arm
    | some cursor =>
      let g : Gate := ⟨cursor, w.db.openRow, w.db.faults, w.db.batch⟩
      if w.db.evictions = evictionsDone then .page g else .evidence g
  else .idle

def readPage (w : World) (g : Gate) : Stage :=
  let identities := w.db.sources.identities g.cursor
  if identities.isEmpty then .stampEmpty else visit { gate := g, lastPage := decide (identities.length < identitiesPerPass) } identities

def readGames (w : World) (p : Page) (v : Visit) : World :=
  let games := w.db.games v.identity v.size
  if games.isEmpty then w.goto (.save p v false) else if v.last = some games then w.fail p v else w.goto (.judge p v games)

def judgeTurn (w : World) (p : Page) (v : Visit) (games : List Game) (env : Env) : World :=
  let w := { w.judge v.identity (env.commits.filter fun c => games.contains c.gameId) with sizes := (v.identity, v.size) :: w.sizes }
  match env.await with
  | .ok => w.goto (.games p { v with judgedHere := v.judgedHere + 1, last := some games })
  | .fault => w.fail p v
  | .cut _ => w.goto (if v.judgedHere = 0 then .halve p v else .idle)

/-- `backfill_pass` to its next await. -/
def turn (w : World) (env : Env) : World :=
  match w.stage with
  | .idle => w
  | .stamp => w.goto (if env.await = .ok ∧ !w.db.stamped ∧ !env.actorReads then .gate else .idle)
  | .gate => w.goto (if env.await = .ok then w.readGate env.count else .idle)
  | .arm => (w.landing env.await landArm).goto .idle
  | .evidence g => (w.landPhase env.phase).goto (if env.await = .ok ∧ env.phase.finished then .page g else .idle)
  | .page g => w.goto (if env.await = .ok then w.readPage g else .idle)
  | .stampEmpty => (w.landing env.await fun w => { w with db := { w.db with stamped := true } }).goto .idle
  | .mark p v =>
    let landed := w.landing env.await (landMark · v.identity)
    match env.await with
    | .ok => landed.goto (.games p v)
    | .fault => landed.fail p v
    | .cut _ => landed.goto .idle
  | .games p v =>
    match env.await with
    | .ok => w.readGames p v
    | .fault => w.fail p v
    | .cut _ => w.goto .idle
  | .judge p v games => w.judgeTurn p v games env
  | .halve p v =>
    match env.await with
    | .fault => w.fail p v
    | a => (w.landing a (landHalf · v)).goto .idle
  | .note identity seen => (w.landing env.await (landNote · identity seen)).goto .idle
  | .save p v skip => (w.landing env.await (landSave · p v skip)).goto (if env.await = .ok then visit p v.rest else .idle)

end World

inductive Move where
  | begin
  | stop
  | turn (env : Env)
  | add (rows : Sources)
  | mark (m : Mark)
  | drain (identity : Identity) (commits : List Commit)

namespace World

def begin (w : World) : World :=
  match w.stage with
  | .idle => { w with stage := .stamp, passes := w.passes + 1 }
  | _ => w

def step (w : World) : Move → World
  | .begin => w.begin
  | .stop => w.goto .idle
  | .turn env => w.turn env
  | .add rows => { w with db := { w.db with sources := w.db.sources.add rows } }
  | .mark m => { w with db := { w.db with dirty := m :: w.db.dirty } }
  | .drain identity commits => w.judge identity commits

def run (w : World) (moves : List Move) : World := moves.foldl step w

def start (sources : Sources) (dirty : List Mark) (truncated : List Identity) : World :=
  { db := { sources, dirty, truncated } }

end World

end OverlayEngine.OwedBackfill
