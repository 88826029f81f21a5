import OverlayEngine.Basis.CasRow
import OverlayEngine.Worker.ReorgLegs

/-!
# The consumer of chaintracks' chain-event feed

Passes and operator levers over the one row of `overlay_chain_events`. A pass
reads the journal in pages from its cursor; an event that selects no rows moves
the cursor in memory, one that does is held pending while its window is judged.
The row moves only by compare-and-set.
-/

namespace OverlayEngine.ChainFeed

open ReorgLegs (Legs LegAnswers Page judgeWindowLegs)

def pagesPerPass : Nat := 2
def invalidatedDepth : Nat := 144
def invalidatedAboveTip : Nat := invalidatedDepth
def unresolvedKept : Nat := 20

inductive ChainEvent where
  | tip (height : Nat)
  | fork (height : Nat) (competingTips : List Nat)
  | reorg (forkHeight : Nat) (deactivatedHeaders : List Nat) (newTip : Nat)
  | invalidated
  | frozen
  | tipAge (height : Nat)
  | split (forkHeight : Nat) (tips : List Nat)
  | splitResolved
  deriving DecidableEq

inductive Kind where
  | tip
  | fork
  | reorg
  | invalidated
  | frozen
  | tipAge
  | split
  | splitResolved
  deriving DecidableEq

def kindName : ChainEvent → Kind
  | .tip _ => .tip
  | .fork _ _ => .fork
  | .reorg _ _ _ => .reorg
  | .invalidated => .invalidated
  | .frozen => .frozen
  | .tipAge _ => .tipAge
  | .split _ _ => .split
  | .splitResolved => .splitResolved

inductive Selection where
  | heights (lo hi : Nat)
  | belowTip
  | none

def selection : ChainEvent → Selection
  | .reorg forkHeight deactivatedHeaders newTip => .heights forkHeight ((deactivatedHeaders ++ [newTip]).foldl max forkHeight)
  | .fork height competingTips => .heights height (competingTips.foldl max height)
  | .split forkHeight tips => .heights forkHeight (tips.foldl max forkHeight)
  | .invalidated => .belowTip
  | .tip _ | .tipAge _ | .frozen | .splitResolved => .none

def parseCursor (n : Nat) : Option Nat := if n < 10 ^ 16 then some n else none

structure PendingWindow where
  cursor : Nat
  kind : Kind
  lo : Nat
  hi : Nat
  legs : Legs := {}
  faultPasses : Nat := 0
  deriving DecidableEq

inductive Why where
  | faultCeiling
  | operator
  deriving DecidableEq

structure ReleasedWindow where
  cursor : Nat
  kind : Kind
  lo : Nat
  hi : Nat
  why : Why
  atMs : Nat
  deriving DecidableEq

structure Stopped where
  cursor : Nat
  fault : String
  deriving DecidableEq

structure FeedState where
  cursor : Nat
  pending : Option PendingWindow := none
  stop : Option Stopped := none
  lastKind : Option Kind := none
  lastCursor : Option Nat := none
  tipHeight : Option Nat := none
  seed : Option Nat := none
  startedAtMs : Option Nat := none
  unresolved : List ReleasedWindow := []
  deriving DecidableEq

namespace FeedState

def seeded (cursor nowMs : Nat) : FeedState := { cursor := cursor, seed := some cursor, startedAtMs := some nowMs }

/-- What `from_json` accepts of a stored document. -/
def readable (s : FeedState) : Bool := (parseCursor s.cursor).isSome

def position (s : FeedState) : Nat := (parseCursor s.cursor).getD 0

def release (s : FeedState) (p : PendingWindow) (why : Why) (nowMs : Nat) : FeedState :=
  let unresolved := s.unresolved ++ [{ cursor := p.cursor, kind := p.kind, lo := p.lo, hi := p.hi, why := why, atMs := nowMs }]
  { s with
    cursor := p.cursor
    lastKind := some p.kind
    lastCursor := some p.cursor
    unresolved := unresolved.drop (unresolved.length - unresolvedKept)
    pending := none }

def pass (s : FeedState) (place : Nat) (event : ChainEvent) : FeedState :=
  { s with
    cursor := place
    lastKind := some (kindName event)
    lastCursor := some place
    stop := none
    tipHeight := match event with
      | .tip height => some height
      | .tipAge height => some height
      | _ => s.tipHeight }

def applied (s : FeedState) (p : PendingWindow) : FeedState :=
  { s with cursor := p.cursor, lastKind := some p.kind, lastCursor := some p.cursor, pending := none }

end FeedState

structure PassLimits where
  eventsPerPass : Nat := 2
  faultCeiling : Nat := 12

section
variable {ε : Type}

inductive PageAnswer (ε : Type) where
  | fault
  | cursorAhead
  | page (events : List (Nat × ε)) (hasMore : Bool)

structure Answers (ε : Type) where
  page : PageAnswer ε := .fault
  tip : Option Nat := none
  legs : LegAnswers := {}

structure Stored where
  state : FeedState
  base : Nat

structure Mem (ε : Type) where
  limits : PassLimits
  nowMs : Nat
  state : FeedState
  base : Nat
  version : Option Nat
  /-- The state as last read or written. -/
  written : FeedState
  buffer : List (Nat × ε) := []
  more : Bool := true
  pages : Nat := 0
  finished : Nat := 0
  contended : Bool := false

inductive Then where
  | resume
  | stop
  | last

inductive Pass (ε : Type) where
  | seeding (m : Mem ε)
  | looping (m : Mem ε)
  | writing (m : Mem ε) (k : Then)
  | levering (base : Option Stored) (version : Option Nat) (next : FeedState)
  | ended

namespace Mem

def trailing (m : Mem ε) : Pass ε := if m.state = m.written ∨ m.contended then .ended else .writing m .last

def landed (m : Mem ε) : Then → Pass ε
  | .resume => .looping { m with finished := m.finished + 1 }
  | .stop => m.trailing
  | .last => .ended

def notLanded (m : Mem ε) : Then → Pass ε
  | .last => .ended
  | _ => m.trailing

/-- `write_now!`; a lost compare-and-set is final for the pass. -/
def writeNow (m : Mem ε) (k : Then) : Pass ε :=
  if m.state = m.written then m.landed k else if m.contended then m.notLanded k else .writing m k

variable (decode : ε → Except String ChainEvent)

def judge (m : Mem ε) (p : PendingWindow) (a : Answers ε) : Pass ε × List Page :=
  if m.limits.faultCeiling ≤ p.faultPasses then
    ({ m with state := m.state.release p .faultCeiling m.nowMs }.writeNow .resume, [])
  else if m.limits.eventsPerPass ≤ m.finished then (m.trailing, [])
  else
    let (legs, verdict, pages) := judgeWindowLegs p.legs a.legs
    let p' : PendingWindow := { p with legs := legs }
    match verdict with
    | .faulted => ({ m with state := { m.state with pending := some { p' with faultPasses := p.faultPasses + 1 } } }.writeNow .stop, pages)
    | .budgetStop => ({ m with state := { m.state with pending := some p' } }.writeNow .stop, pages)
    | .ran =>
      if legs.allExhausted then ({ m with state := m.state.applied p }.writeNow .resume, pages)
      else ({ m with state := { m.state with pending := some p' } }.writeNow .stop, pages)

def envelope (m : Mem ε) (a : Answers ε) : Pass ε :=
  match m.buffer with
  | [] => m.trailing
  | (place, env) :: buffer =>
    let m := { m with buffer := buffer }
    -- delivery is at least once: a cursor at or below the position is never consumed again
    if place ≤ m.state.position then .looping m
    else match decode env with
      | .error e => trailing { m with state := { m.state with stop := some { cursor := place, fault := e } } }
      | .ok event =>
        let take (lo hi : Nat) : Pass ε := .looping { m with state :=
          { m.state with stop := none, pending := some { cursor := place, kind := kindName event, lo := lo, hi := hi } } }
        match selection event with
        | .none => .looping { m with state := m.state.pass place event }
        | .heights lo hi => if m.limits.eventsPerPass ≤ m.finished then m.trailing else take lo hi
        | .belowTip =>
          if m.limits.eventsPerPass ≤ m.finished then m.trailing
          else match a.tip with
            | some tip => take (tip - invalidatedDepth) (tip + invalidatedAboveTip)
            | none => m.trailing

def asks (m : Mem ε) : Bool := m.state.pending.isNone && m.buffer.isEmpty && m.more && decide (m.pages < pagesPerPass)

def turn (m : Mem ε) (a : Answers ε) : Pass ε × List Page :=
  match m.state.pending with
  | some p => m.judge p a
  | none =>
    if !m.buffer.isEmpty then (m.envelope decode a, [])
    else if m.asks then
      let m := { m with pages := m.pages + 1 }
      match a.page with
      | .fault => (m.trailing, [])
      | .cursorAhead => (trailing { m with state := { m.state with stop := some { cursor := m.state.cursor, fault := "cursorAhead" } } }, [])
      | .page events hasMore => (envelope decode { m with buffer := events, more := hasMore } a, [])
    else (m.trailing, [])

end Mem

/-- A page asked from `since`, and what it carried. -/
structure Served (ε : Type) where
  since : Nat
  events : List (Nat × ε)

abbrev Window := Nat × Nat × Nat

def PendingWindow.window (p : PendingWindow) : Window := (p.cursor, p.lo, p.hi)

structure Sys (ε : Type) where
  row : CasRow Stored := none
  passes : List (Pass ε) := []
  log : List (Window × Page) := []
  served : List (Served ε) := []
  /-- Every document the row had. -/
  docs : List FeedState := []

inductive Act (ε : Type) where
  | read (limits : PassLimits) (start : Option Nat) (nowMs : Nat) (fault : Bool)
  | turn (i : Nat) (a : Answers ε)
  | write (i : Nat) (fate : CasRow.Fate)
  | lever (cursor nowMs : Nat) (fault : Bool)

def begin (row : CasRow Stored) (limits : PassLimits) (start : Option Nat) (nowMs : Nat) : Pass ε :=
  match row.doc with
  | some s =>
    if s.state.readable then
      .looping { limits := limits, nowMs := nowMs, state := s.state, base := s.base, version := row.version, written := s.state }
    else .ended
  | none => match start.bind parseCursor with
    | some seed =>
      .seeding { limits := limits, nowMs := nowMs, state := .seeded seed nowMs, base := seed, version := none, written := .seeded seed nowMs }
    | none => .ended

def leverRead (row : CasRow Stored) (cursor nowMs : Nat) : Pass ε :=
  match parseCursor cursor, row.doc with
  | none, _ => .ended
  | some cursor, none => .levering none none (.seeded cursor nowMs)
  | some cursor, some s =>
    if s.state.readable then
      let released := match s.state.pending with
        | some p => s.state.release p .operator nowMs
        | none => s.state
      .levering (some s) row.version { released with cursor := cursor, stop := none }
    else .ended

def Pass.pending : Pass ε → Option (Stored × Option Nat)
  | .seeding m => some ({ state := m.state, base := m.base }, none)
  | .writing m _ => some ({ state := m.state, base := m.base }, m.version)
  | .levering _ version next => some ({ state := next, base := next.cursor }, version)
  | _ => none

def Pass.answered : Pass ε → CasRow.Answer → Pass ε
  | .seeding m, .written version => .looping { m with version := version }
  | .writing m k, .written version => { m with version := version, written := m.state }.landed k
  | .writing m k, .contended => { m with contended := true }.notLanded k
  | .writing m k, .faulted => m.notLanded k
  | _, _ => .ended

namespace Sys

variable (decode : ε → Except String ChainEvent)

def cursor (σ : Sys ε) : Option Nat := σ.row.doc.map fun s => s.state.cursor

def turn (σ : Sys ε) (i : Nat) (m : Mem ε) (a : Answers ε) : Sys ε :=
  let (pass, pages) := m.turn decode a
  { σ with
    passes := σ.passes.set i pass
    log := σ.log ++ ((m.state.pending.map fun p => pages.map (p.window, ·)).getD [])
    served := σ.served ++ match m.asks, a.page with
      | true, .page events _ => [{ since := m.state.cursor, events := events }]
      | _, _ => [] }

def write (σ : Sys ε) (i : Nat) (pass : Pass ε) (stored : Stored) (version : Option Nat) (fate : CasRow.Fate) : Sys ε :=
  let (row, answer) := σ.row.issue version stored fate
  { σ with
    row := row
    passes := σ.passes.set i (pass.answered answer)
    docs := σ.docs ++ row.doc.toList.map Stored.state }

def step (σ : Sys ε) : Act ε → Option (Sys ε)
  | .read limits start nowMs fault => some { σ with passes := σ.passes ++ [if fault then .ended else begin σ.row limits start nowMs] }
  | .lever cursor nowMs fault => some { σ with passes := σ.passes ++ [if fault then .ended else leverRead σ.row cursor nowMs] }
  | .turn i a => match σ.passes[i]? with
    | some (.looping m) => some (σ.turn decode i m a)
    | _ => none
  | .write i fate => (σ.passes[i]?).bind fun pass => pass.pending.map fun p => σ.write i pass p.1 p.2 fate

def run (σ : Sys ε) : List (Act ε) → Option (Sys ε)
  | [] => some σ
  | a :: rest => (σ.step decode a).bind fun σ' => σ'.run rest

end Sys

end

end OverlayEngine.ChainFeed
