import Mathlib.Data.List.AList
import Mathlib.Data.String.Basic
import OverlayEngine.Basis.OrderedPages
import OverlayEngine.Basis.Runs

/-!
# D1's re-judge after a version move

`d1_rejudge_step_after_drain` of `crates/low-app-layer/src/owed_actor.rs`: the
paced walk of every identity and its games under the running judge, its state in
one stamp, and the word of that stamp (`d1_judged_under`, `rejudge_passed`). A
tick is one batch or judge call after another; a batch or a call that faults has
written nothing, and between any two of them other calls may land or the tick die.

Taken from outside: what a judge call derives and when, the clock, the record. A
row carries the version of the build that wrote it, the world how often in a row
the walk's calls of an identity have faulted, and what each skip came after; no
modelled step reads these.
-/

namespace OverlayEngine.Rejudge

abbrev Identity := String
abbrev Game := String
/-- `JUDGE_VERSION`, by its place among the builds. -/
abbrev Version := Nat

def owedJudgeSubjectsPerInvocation : Nat := 16
def d1RejudgeGamesPerTick : Nat := 32
def d1RejudgeGamesPerTickMax : Nat := 32
def d1RejudgeIdentitiesPerTick : Nat := 32
def d1RejudgeIdentityFaultsMax : Nat := 3

/-! ## The store -/

structure Row where
  identity : Identity
  outpoint : String
  gameId : Game
  judgedUnder : Version
  deriving DecidableEq

structure Sources where
  potparty : List (Identity × Game) := []
  hopparty : List (Identity × Game) := []
  released : List (Identity × Game) := []
  missing : List (Identity × Game) := []

def Sources.add (s t : Sources) : Sources :=
  ⟨s.potparty ++ t.potparty, s.hopparty ++ t.hopparty, s.released ++ t.released, s.missing ++ t.missing⟩

structure Previous where
  version : Version
  startedAtMs : Int
  done : Bool

/-- The row `owed-judge:version`; `after`: empty before the first identity. -/
structure Stamp where
  version : Version
  startedAtMs : Int
  endedAtMs : Option Int := none
  done : Bool := false
  identities : Nat := 0
  games : Nat := 0
  rows : Nat := 0
  faults : Nat := 0
  skipped : Nat := 0
  after : Identity := ""
  open_ : Option (Identity × Game) := none
  openFaults : Nat := 0
  previous : Option Previous := none
  paused : Bool := false
  gamesPerTick : Nat := 0

structure Db where
  sources : Sources := {}
  rows : List Row := []
  /-- `owed_state.computedAtMs`. -/
  states : AList fun _ : Identity => Int := ∅
  stamp : Option Stamp := none
  /-- `gamesPerTick` of the pace row. -/
  pace : Option Int := none

structure Judgement where
  rows : List (String × Game)
  kept : String → Bool
  nowMs : Int

namespace Db

variable (db : Db)

def identities : List Identity :=
  db.states.keys ++ db.sources.potparty.map Prod.fst ++ db.sources.hopparty.map Prod.fst ++ db.sources.released.map Prod.fst

/-- `RECONCILE_NEXT_SQL`. -/
def next (after : Identity) : Option Identity := (OrderedPages.past after 1 db.identities).head?

/-- `identity_games!`. -/
def games (identity : Identity) : List Game :=
  ((db.sources.potparty ++ db.sources.hopparty ++ db.sources.released ++ db.sources.missing ++ db.rows.map fun r => (r.identity, r.gameId)).filter
    fun g => g.1 == identity && g.2 != "").map Prod.snd

/-- `IDENTITY_GAMES_BY_ID_SQL`. -/
def gamesById (identity : Identity) (last : Game) (page : Nat) : List Game := OrderedPages.past last page (db.games identity)

/-- The batch of a judge call under `version`. -/
def judge (version : Version) (identity : Identity) (games : List Game) (j : Judgement) : Db :=
  let written := j.rows.filter fun r => games.contains r.2
  { db with
    rows := ((db.rows.filter fun r => r.identity != identity || !(games.contains r.gameId || written.any fun w => w.1 == r.outpoint)) ++
      written.map fun w => (⟨identity, w.1, w.2, version⟩ : Row)).filter fun r : Row => r.identity != identity || j.kept r.outpoint
    states := db.states.insert identity (max ((db.states.lookup identity).getD j.nowMs) j.nowMs) }

end Db

/-! ## The stamp's word -/

def Stamp.passed (s : Stamp) (identity : Identity) : Bool := s.done || (s.after != "" && decide (identity ≤ s.after))

def rejudgePassed (running : Version) (state : Option Stamp) (identity : Identity) : Bool :=
  state.any fun s => s.version == running && s.passed identity

/-- `none` is "unknown". -/
def d1JudgedUnder (state : Option Stamp) (identity : Identity) (computedAt : Option Int) : Option Version :=
  state.bind fun s =>
    if s.passed identity then some s.version
    else if computedAt.any (· < s.startedAtMs) then (s.previous.filter Previous.done).map Previous.version
    else none

/-! ## The pace -/

def rejudgePace (row var : Option Int) : Nat :=
  min (((row.or var).map fun n => (max n 0).toNat).getD d1RejudgeGamesPerTick) d1RejudgeGamesPerTickMax

def rejudgeCallsMax (pace : Nat) (drainBound : Bool) : Nat :=
  let calls := (pace + owedJudgeSubjectsPerInvocation - 1) / owedJudgeSubjectsPerInvocation
  if drainBound then min calls 1 else calls

/-! ## A tick -/

structure Report where
  started : Bool := false
  identities : Nat := 0
  games : Nat := 0
  rows : Nat := 0
  faulted : Bool := false
  skipped : Nat := 0
  done : Bool := false
  judgeCalls : Nat := 0
  gamesPerTick : Nat
  paused : Bool
  drainBound : Bool

structure Page where
  identity : Identity
  games : List Game
  size : Nat

/-- A tick under way; `left`: its loop was left, its save is next. -/
structure Tick where
  now : Int
  pace : Nat
  st : Stamp
  report : Report
  pending : Option Stamp := none
  opened : Nat := 0
  page : Option Page := none
  left : Bool := false
  /-- The games its judge calls named. -/
  asked : Nat := 0
  /-- A judge call went well since its last write of the state. -/
  unsaved : Bool := false

namespace Tick

variable (t : Tick)

def callsMax : Nat := rejudgeCallsMax t.pace t.report.drainBound

def ending : Bool :=
  t.left || match t.st.open_ with
    | none => decide (d1RejudgeIdentitiesPerTick ≤ t.opened)
    | some _ => decide (t.pace ≤ t.report.games) || decide (t.callsMax ≤ t.report.judgeCalls)

def identityDone (identity : Identity) : Tick :=
  { t with
    report := { t.report with identities := t.report.identities + 1 }
    st := { t.st with identities := t.st.identities + 1, after := identity, open_ := none } }

def openNext (db : Db) : Tick :=
  let t := { t with opened := t.opened + 1, pending := none, unsaved := t.unsaved && t.pending.isNone }
  match db.next t.st.after with
  | some identity => { t with st := { t.st with open_ := some (identity, ""), openFaults := 0 } }
  | none =>
    { t with
      st := { t.st with done := true, endedAtMs := some t.now, open_ := none }
      report := { t.report with done := true }
      left := true }

def readPage (db : Db) (identity : Identity) (last : Game) : Tick :=
  let t := { t with pending := none, unsaved := t.unsaved && t.pending.isNone }
  let size := min (t.pace - t.report.games) owedJudgeSubjectsPerInvocation
  let games := db.gamesById identity last size
  if games.isEmpty then { t.identityDone identity with pending := some (t.identityDone identity).st }
  else { t with page := some ⟨identity, games, size⟩ }

def read (db : Db) : Tick × Db :=
  let db := { db with stamp := t.pending.or db.stamp }
  match t.st.open_ with
  | none => (t.openNext db, db)
  | some (identity, last) => (t.readPage db identity last, db)

def called (p : Page) : Tick :=
  { t with report := { t.report with judgeCalls := t.report.judgeCalls + 1 }, page := none, asked := t.asked + p.games.length }

/-- A judge call of the page that went well; `rows`: the identity's after it. -/
def judged (p : Page) (rows : Nat) : Tick :=
  let t := t.called p
  let t := { t with
    report := { t.report with games := t.report.games + p.games.length, rows := t.report.rows + rows }
    st := { t.st with games := t.st.games + p.games.length, rows := t.st.rows + rows, openFaults := 0 }
    unsaved := true }
  let t := if p.games.length < p.size then t.identityDone p.identity
    else { t with st := { t.st with open_ := some (p.identity, p.games.getLast?.getD "") } }
  { t with pending := some t.st }

def faulted (p : Page) : Tick :=
  let t := t.called p
  let t := { t with report := { t.report with faulted := true }, st := { t.st with faults := t.st.faults + 1 }, left := true }
  if d1RejudgeIdentityFaultsMax ≤ t.st.openFaults + 1 then
    { t with
      report := { t.report with skipped := t.report.skipped + 1 }
      st := { t.st with skipped := t.st.skipped + 1, after := p.identity, open_ := none, openFaults := 0 } }
  else { t with st := { t.st with openFaults := t.st.openFaults + 1 } }

end Tick

def begins (build : Version) (db : Db) (now : Int) (var : Option Int) (drainBound : Bool) : Option Tick :=
  let pace := rejudgePace db.pace var
  let report : Report := { gamesPerTick := pace, paused := pace == 0, drainBound := drainBound }
  if pace = 0 then
    (db.stamp.filter fun s => s.version == build && !s.done && !s.paused).map fun s =>
      { now := now, pace := pace, st := { s with paused := true, gamesPerTick := 0 }, report := report, left := true }
  else
    match db.stamp.filter fun s => s.version == build with
    | some s => if s.done then none else some { now := now, pace := pace, st := { s with paused := false, gamesPerTick := pace }, report := report }
    | none =>
      some {
        now := now
        pace := pace
        st := {
          version := build
          startedAtMs := now
          previous := db.stamp.map fun s => ⟨s.version, s.startedAtMs, s.done⟩
          gamesPerTick := pace }
        report := { report with started := true } }

/-! ## The world -/

structure World where
  build : Version
  db : Db := {}
  tick : Option Tick := none
  streaks : Identity → Nat := fun _ => 0
  skips : List (Identity × Nat) := []

inductive Move where
  | start (now : Int) (var : Option Int) (drainBound : Bool)
  /-- The tick's next batch. -/
  | batch (landed : Bool)
  /-- The tick's judge call: what it derives; none: it faults. -/
  | judge (answer : Option Judgement)
  | die
  /-- Another judge call of the running build. -/
  | judged (identity : Identity) (games : List Game) (j : Judgement)
  | found (s : Sources)
  | paceRow (row : Option Int)
  /-- `pace_lever_plan`. -/
  | lever (n : Option Nat)
  | deploy (version : Version)

namespace World

variable (w : World)

def landed (t : Tick) : World :=
  if t.ending then { w with db := { w.db with stamp := some t.st }, tick := none }
  else { w with db := (t.read w.db).2, tick := some (t.read w.db).1 }

def judgedPage (t : Tick) (p : Page) (j : Judgement) : World :=
  let db := w.db.judge w.build p.identity p.games j
  { w with
    db := db
    tick := some (t.judged p (db.rows.filter fun r => r.identity == p.identity).length)
    streaks := fun identity => if identity = p.identity then 0 else w.streaks identity }

def faultedPage (t : Tick) (p : Page) : World :=
  { w with
    tick := some (t.faulted p)
    streaks := fun identity => if identity = p.identity then w.streaks identity + 1 else w.streaks identity
    skips := if d1RejudgeIdentityFaultsMax ≤ t.st.openFaults + 1 then w.skips ++ [(p.identity, w.streaks p.identity + 1)] else w.skips }

def step : Move → World
  | .start now var drainBound => if w.tick.isSome then w else { w with tick := begins w.build w.db now var drainBound }
  | .batch landed =>
    match w.tick with
    | none => w
    | some t => if t.page.isSome then w else if landed then w.landed t else { w with tick := none }
  | .judge answer =>
    match w.tick with
    | none => w
    | some t =>
      match t.page, answer with
      | none, _ => w
      | some p, some j => w.judgedPage t p j
      | some p, none => w.faultedPage t p
  | .die => { w with tick := none }
  | .judged identity games j => if identity = "" ∨ games.contains "" then w else { w with db := w.db.judge w.build identity games j }
  | .found s => { w with db := { w.db with sources := w.db.sources.add s } }
  | .paceRow row => { w with db := { w.db with pace := row } }
  | .lever n =>
    { w with db := { w.db with
      pace := n.map Int.ofNat
      stamp := n.elim w.db.stamp fun n => w.db.stamp.map fun s => { s with paused := n == 0, gamesPerTick := n } } }
  | .deploy version => if w.build < version then { w with build := version, tick := none } else w

def run (moves : List Move) : World := moves.foldl step w

end World

end OverlayEngine.Rejudge
