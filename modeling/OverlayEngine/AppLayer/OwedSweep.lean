import Mathlib.Data.Prod.Lex
import Mathlib.Data.String.Basic
import OverlayEngine.Basis.KeyedRows
import OverlayEngine.Basis.OrderedPages

/-!
# The un-acked mark sweep

`sweep_tick` of `crates/low-app-layer/src/owed_events.rs`. A tick reads its
cursor and the consumer's horizon, the windows of lost notes and old stamps,
the marks under its bound past the cursor, and the memos of the pairs it
found; one batch then saves the cursor and stamps the pairs it re-publishes.
Marks, notes and memos change between its reads.
-/

namespace OverlayEngine.OwedSweep

open OrderedPages (rowsPast)
open KeyedRows (row remove)

abbrev Ms := Int

def sweepAfterMs : Ms := 120000
def sweepHorizonMarginMs : Ms := sweepAfterMs
def sweepStalledAfterMs : Ms := 5 * sweepAfterMs
def sweptPruneAfterMs : Ms := 24 * 3600000
def sweepPairsPerTick : Nat := 64
def sweepReadLimit : Nat := 256
def sweepLostPerTick : Nat := sweepPairsPerTick / 2
def sweptPruneWindow : Nat := 64

def lostMemoFamily : String := "owed-events:lost:"
def sweptMemoFamily : String := "owed-events:swept:"
def faultMemoFamily : String := "owed-events:fault:"

/-! ## Rows -/

structure Source where
  word : String
  named : word ≠ ""
  unbroken : ' ' ∉ word.toList
  deriving DecidableEq

structure Pair where
  source : Source
  key : String
  deriving DecidableEq

def memoName (family : String) (p : Pair) : String := family ++ p.source.word ++ " " ++ p.key
def faultMemoName (p : Pair) : String := memoName faultMemoFamily p
def sweptMemoName (p : Pair) : String := memoName sweptMemoFamily p
def lostMemoName (p : Pair) : String := memoName lostMemoFamily p
def subjectMemoName (identity game : String) : String := faultMemoFamily ++ "subject " ++ identity ++ "/" ++ game

/-- A row of `owed_dirty`. -/
structure Mark where
  generation : Nat
  source : Source
  sourceKey : String
  markedAtMs : Nat
  identity : String
  gameId : String
  deriving DecidableEq

def Mark.pair (m : Mark) : Pair := ⟨m.source, m.sourceKey⟩

/-- A place in the order of `idx_owed_dirty_backlog`. -/
abbrev Place := Int ×ₗ Nat

def Mark.place (m : Mark) : Place := toLex (m.markedAtMs, m.generation)

def Mark.subject (m : Mark) : Option String := if m.gameId = "" then none else some (subjectMemoName m.identity m.gameId)

structure Note where
  name : String
  pair : Option Pair

structure Stamp where
  name : String
  sweptAtMs : Ms
  tickedAtMs : Ms

structure Memo where
  name : String
  heldUntilMs : Option Ms

structure SweepRow where
  place : Place
  lostAfter : String
  pruneAfter : String

/-! ## The pure parts -/

def sweepBound (now : Ms) (horizon : Option Ms) : Ms :=
  let stalled := now - sweepStalledAfterMs
  min (now - sweepAfterMs) (match horizon with | some h => max (h - sweepHorizonMarginMs) stalled | none => stalled)

def sweptBlocks (sweptAt now : Ms) (horizon : Option Ms) : Bool :=
  !(horizon.any fun h => decide (sweptAt < h - sweepHorizonMarginMs)) && decide (now - sweptAt < sweepStalledAfterMs)

def rangeCursor (saved : Option String) (family : String) : String :=
  match saved with
  | some c => if family.toList.isPrefixOf c.toList then c else family
  | none => family

def nextRangeCursor (names : List String) (limit : Nat) (family : String) : String :=
  match names.getLast? with
  | some last => if limit ≤ names.length then last else family
  | none => family

def walk (cap : Nat) (pairs : List Pair) (cursor : Option Place) : List Mark → List Pair × Option Place × Bool
  | [] => (pairs, cursor, false)
  | r :: rows =>
    if pairs.contains r.pair then walk cap pairs (some r.place) rows
    else if cap ≤ pairs.length then (pairs, cursor, true)
    else walk cap (pairs ++ [r.pair]) (some r.place) rows

def sweepChoiceUpTo (rows : List Mark) (readLimit cap : Nat) : List Pair × Option Place :=
  let (pairs, cursor, capped) := walk cap [] none rows
  if capped then (pairs, cursor) else if rows.length < readLimit then (pairs, none) else (pairs, cursor)

def head : Place := toLex (-1, 0)

/-! ## What a tick has read -/

structure Seen where
  now : Ms
  start : Place
  lostAfter : String
  pruneAfter : String
  horizon : Option Ms

structure Windows extends Seen where
  lostRows : List Note
  window : List Stamp

structure Walked extends Windows where
  stood : List Mark

namespace Walked

def bound (t : Walked) : Ms := sweepBound t.now t.horizon

/-- `SWEEP_SQL`. -/
def read (t : Walked) : List Mark := rowsPast Mark.place t.start sweepReadLimit (t.stood.filter fun m => (m.markedAtMs : Ms) < t.bound)

def lostPairs (t : Walked) : List Pair := t.lostRows.filterMap Note.pair

def cap (t : Walked) : Nat := sweepPairsPerTick - t.lostPairs.length

def choice (t : Walked) : List Pair × Option Place := sweepChoiceUpTo t.read sweepReadLimit t.cap

def candidates (t : Walked) : List Pair := t.choice.1.filter fun p => !t.lostPairs.contains p

def all (t : Walked) : List Pair := t.lostPairs ++ t.candidates

def subjects (t : Walked) (p : Pair) : List (Option String) := (t.read.filter fun m => m.pair == p).map Mark.subject

def names (t : Walked) : List String :=
  t.all.map faultMemoName ++ t.candidates.map sweptMemoName ++ (t.read.filter fun m => t.all.contains m.pair).filterMap Mark.subject

end Walked

structure Tick extends Walked where
  memos : List Memo
  swept : List Stamp

namespace Tick

def sweptAt (t : Tick) (p : Pair) : Option Ms := (row Stamp.name t.swept (sweptMemoName p)).map Stamp.sweptAtMs

def blocked (t : Tick) (p : Pair) : Bool := !t.lostPairs.contains p && (t.sweptAt p).any fun s => sweptBlocks s t.now t.horizon

def heldNames (t : Tick) : List String := (t.memos.filter fun m => m.heldUntilMs.any fun h => decide (t.now < h)).map Memo.name

def heldByMemo (t : Tick) (p : Pair) : Bool := t.heldNames.contains (faultMemoName p)

def heldBySubjects (t : Tick) (p : Pair) : Bool :=
  !(t.subjects p).isEmpty && (t.subjects p).all fun s => s.any fun n => t.heldNames.contains n

def unheld (t : Tick) (pairs : List Pair) : List Pair := pairs.filter fun p => !(t.heldByMemo p || t.heldBySubjects p)

def pairs (t : Tick) : List Pair := t.unheld (t.all.filter fun p => !t.blocked p)

def next (t : Tick) : Option Place := t.choice.2

def nextRow (t : Tick) : SweepRow where
  place := t.next.getD head
  lostAfter := nextRangeCursor (t.lostRows.map Note.name) sweepLostPerTick lostMemoFamily
  pruneAfter := nextRangeCursor (t.window.map Stamp.name) sweptPruneWindow sweptMemoFamily

def pruneCutoff (t : Tick) : Ms := t.now - sweptPruneAfterMs

def prunable (t : Tick) : List String := (t.window.filter fun s => s.tickedAtMs < t.pruneCutoff).map Stamp.name

def clears (t : Tick) (n : Note) : Bool := n.pair.all t.pairs.contains

end Tick

/-! ## The store -/

structure Db where
  marks : List Mark := []
  nextGeneration : Nat := 1
  sweep : Option SweepRow := none
  /-- The consumer's row and its `horizonMs`. -/
  consumer : Option (Option Ms) := none
  notes : List Note := []
  stamps : List Stamp := []
  memos : List Memo := []

/-- `SWEPT_MEMO_WRITE_SQL`. -/
def stampAt (now : Ms) (stamps : List Stamp) (p : Pair) : List Stamp :=
  remove Stamp.name (fun n => n == sweptMemoName p) stamps ++ [⟨sweptMemoName p, now, now⟩]

namespace Db

/-- `horizon_of`. -/
def horizon (db : Db) : Option Ms := db.consumer.join.filter fun h => 0 < h

/-- `SWEEP_CURSOR_READ_SQL`. -/
def see (db : Db) (now : Ms) : Seen where
  now
  start := (db.sweep.map SweepRow.place).getD head
  lostAfter := rangeCursor (db.sweep.map SweepRow.lostAfter) lostMemoFamily
  pruneAfter := rangeCursor (db.sweep.map SweepRow.pruneAfter) sweptMemoFamily
  horizon := db.horizon

/-- `LOST_READ_SQL` and `SWEPT_WINDOW_SQL`. -/
def windows (db : Db) (s : Seen) : Windows where
  toSeen := s
  lostRows := rowsPast Note.name s.lostAfter sweepLostPerTick (db.notes.filter fun n => n.name < "owed-events:lost;")
  window := rowsPast Stamp.name s.pruneAfter sweptPruneWindow (db.stamps.filter fun n => n.name < "owed-events:swept;")

/-- `FAULT_MEMO_READ_SQL`. -/
def memosOf (db : Db) (t : Walked) : Tick where
  toWalked := t
  memos := db.memos.filter fun m => t.names.contains m.name
  swept := db.stamps.filter fun s => t.names.contains s.name

def land (db : Db) (t : Tick) : Db :=
  { db with
    sweep := some t.nextRow
    stamps := (t.pairs.foldl (stampAt t.now) db.stamps).filter fun s => !(t.prunable.contains s.name && decide (s.tickedAtMs < t.pruneCutoff))
    notes := db.notes.filter fun n => !(t.lostRows.any fun l => l.name == n.name && t.clears l) }

def mark (db : Db) (m : Mark) : Db :=
  { db with
    marks := (db.marks.filter fun o => !(o.identity == m.identity && o.gameId == m.gameId && o.source == m.source && o.sourceKey == m.sourceKey)) ++
      [{ m with generation := db.nextGeneration }]
    nextGeneration := db.nextGeneration + 1 }

/-- `CONSUMER_ROW_SQL`. -/
def record (db : Db) (horizon : Option Ms) : Db :=
  { db with consumer := some (match db.consumer with | none => horizon | some old => some (max (horizon.getD 0) (old.getD 0))) }

/-- `resolved_statements`. -/
def resolve (db : Db) (p : Pair) : Db :=
  { db with
    memos := remove Memo.name (fun n => n == faultMemoName p) db.memos
    stamps := remove Stamp.name (fun n => n == sweptMemoName p) db.stamps
    notes := remove Note.name (fun n => n == lostMemoName p) db.notes }

end Db

/-! ## The system -/

inductive Stage where
  | idle
  | state (now : Ms)
  | windows (s : Seen)
  | marks (w : Windows)
  | memos (t : Walked)
  | batch (t : Tick)

inductive Event where
  | landed (t : Tick)
  | resolved (p : Pair)

structure World where
  db : Db := {}
  clock : Ms := 0
  stage : Stage := .idle
  log : List Event := []

inductive Move where
  | wait (ms : Nat)
  | begin
  | turn (ok : Bool)
  | mark (m : Mark)
  | ack (gone : Mark → Bool)
  | consumer (horizon : Option Ms)
  | note (n : Note)
  | memo (m : Memo)
  | clear (name : String)
  | resolve (p : Pair)

namespace World

def goto (w : World) (stage : Stage) : World := { w with stage }

/-- `sweep_tick` to its next await. -/
def turn (w : World) (ok : Bool) : World :=
  if ok then
    match w.stage with
    | .idle => w
    | .state now => w.goto (.windows (w.db.see now))
    | .windows s => w.goto (.marks (w.db.windows s))
    | .marks ws =>
      let t : Walked := { toWindows := ws, stood := w.db.marks }
      w.goto (if t.all.isEmpty then .batch { toWalked := t, memos := [], swept := [] } else .memos t)
    | .memos t => w.goto (.batch (w.db.memosOf t))
    | .batch t => { w with db := w.db.land t, log := .landed t :: w.log, stage := .idle }
  else w.goto .idle

def begin (w : World) : World :=
  match w.stage with
  | .idle => w.goto (.state w.clock)
  | _ => w

def step (w : World) : Move → World
  | .wait ms => { w with clock := w.clock + ms }
  | .begin => w.begin
  | .turn ok => w.turn ok
  | .mark m => { w with db := w.db.mark m }
  | .ack gone => { w with db := { w.db with marks := w.db.marks.filter fun m => !gone m } }
  | .consumer horizon => { w with db := w.db.record horizon }
  | .note n => { w with db := { w.db with notes := remove Note.name (fun x => x == n.name) w.db.notes ++ [n] } }
  | .memo m => { w with db := { w.db with memos := remove Memo.name (fun x => x == m.name) w.db.memos ++ [m] } }
  | .clear name => { w with db := { w.db with memos := remove Memo.name (fun x => x == name) w.db.memos } }
  | .resolve p => { w with db := w.db.resolve p, log := .resolved p :: w.log }

def run (w : World) (moves : List Move) : World := moves.foldl step w

end World

end OverlayEngine.OwedSweep
