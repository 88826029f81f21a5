import Mathlib.Data.List.Dedup
import Mathlib.Data.List.Sort
import Mathlib.Data.Prod.Lex
import Mathlib.Data.String.Basic
import OverlayEngine.Basis.CasRow
import OverlayEngine.Worker.ReorgLegs

/-!
# The consumer of Arcade's orphan events

Passes on any number of isolates over one row of `arcade_reorg_state`: each
reads the row, takes the first orphan event after its cursor, judges it, and
writes the row back against the version it read. What a pass asks others for
(the listing, a header, the tip, a page of a leg) comes with its step.
-/

namespace OverlayEngine.ArcadeReorg

open ReorgLegs (Legs LegAnswers Page judgeWindowLegs)

structure EventKey where
  orphanedAt : String
  height : Nat
  hash : String
  deriving DecidableEq

def EventKey.lex (k : EventKey) : String ×ₗ ℕ ×ₗ String := toLex (k.orphanedAt, toLex (k.height, k.hash))

theorem EventKey.lex_injective : Function.Injective EventKey.lex := by
  rintro ⟨a, b, c⟩ ⟨a', b', c'⟩ h
  simp only [EventKey.lex, toLex_inj, Prod.mk.injEq] at h
  obtain ⟨rfl, rfl, rfl⟩ := h
  rfl

instance : LinearOrder EventKey := LinearOrder.lift' EventKey.lex EventKey.lex_injective

def after (cursor : Option EventKey) (e : EventKey) : Bool := cursor.all fun c => decide (c < e)

structure FeedRead where
  events : List EventKey
  newestHeight : Option Nat := none

def eventsAfter (events : List EventKey) (cursor : Option EventKey) : List EventKey :=
  ((events.filter (after cursor)).insertionSort (· ≤ ·)).dedup

inductive Corroboration where
  | corroborated
  | uncorroborated
  | held
  | trackerLagging

def saturatingAdd (width a b : Nat) : Nat := min (a + b) (2 ^ width - 1)

def eqIgnoreAsciiCase (a b : String) : Bool := a.toList.map Char.toLower == b.toList.map Char.toLower

def classifyCorroboration (canonicalAtHeight : Option String) (orphanHash : String) (tip height skipDepth : Nat)
    (feedTip : Option Nat) (lagTolerance : Nat) : Corroboration :=
  if feedTip.any fun f => decide (saturatingAdd 64 tip lagTolerance < f) then .trackerLagging
  else if canonicalAtHeight.any fun canonical => !eqIgnoreAsciiCase canonical orphanHash then .corroborated
  else if saturatingAdd 64 height skipDepth ≤ tip then .uncorroborated
  else .held

structure PendingEvent where
  event : EventKey
  legs : Legs := {}
  heldPasses : Nat := 0
  faultPasses : Nat := 0

inductive ReleaseReason where
  | heldCeiling
  | faultCeiling
  | operator

structure UnresolvedEvent where
  key : EventKey
  why : ReleaseReason

def unresolvedKept : Nat := 32

structure ConsumerState where
  cursor : Option EventKey := none
  pending : Option PendingEvent := none
  unresolved : List UnresolvedEvent := []

namespace ConsumerState

def advancePastPending (s : ConsumerState) : ConsumerState :=
  match s.pending with
  | some p => { s with cursor := some p.event, pending := none }
  | none => s

def holdPending (s : ConsumerState) : ConsumerState :=
  { s with pending := s.pending.map fun p => { p with heldPasses := saturatingAdd 32 p.heldPasses 1 } }

def noteFaultOnPending (s : ConsumerState) : ConsumerState :=
  { s with pending := s.pending.map fun p => { p with faultPasses := saturatingAdd 32 p.faultPasses 1 } }

def pendingCeiling (s : ConsumerState) (heldCeiling faultCeiling : Nat) : Option ReleaseReason :=
  s.pending.bind fun p =>
    if heldCeiling ≤ p.heldPasses then some .heldCeiling
    else if faultCeiling ≤ p.faultPasses then some .faultCeiling
    else none

def releasePending (s : ConsumerState) (why : ReleaseReason) : ConsumerState :=
  match s.pending with
  | some p =>
    let unresolved := s.unresolved ++ [{ key := p.event, why := why }]
    { s.advancePastPending with unresolved := unresolved.drop (unresolved.length - unresolvedKept) }
  | none => s

end ConsumerState

structure PassLimits where
  eventsPerPass : Nat := 2
  skipDepth : Nat := 3
  heldCeiling : Nat := 24
  faultCeiling : Nat := 12
  lagTolerance : Nat := 3

structure PassSummary where
  feedRead : Bool := false
  applied : Nat := 0
  skippedUncorroborated : Nat := 0
  skippedUnresolved : Nat := 0
  releasedByOperator : Nat := 0
  held : Nat := 0
  trackerLagging : Nat := 0
  budgetStops : Nat := 0
  faults : Nat := 0
  errors : Nat := 0
  contended : Nat := 0
  idle : Bool := false
  /-- Not in the source: the events behind the counters of finished ones. -/
  counted : List EventKey := []

def PassSummary.eventsFinished (s : PassSummary) : Nat := s.applied + s.skippedUncorroborated + s.skippedUnresolved + s.releasedByOperator

/-- What one turn of the loop is answered; `none` is a fault. -/
structure Answers where
  feed : Option FeedRead := none
  header : Option (Option String) := none
  tip : Option Nat := none
  legs : LegAnswers := {}

structure Stored where
  state : ConsumerState := {}
  listed : Option Nat := none

structure Mem where
  limits : PassLimits
  state : ConsumerState
  version : Option Nat
  listed : Option Nat
  feed : Option (List EventKey) := none
  feedTip : Option Nat := none
  finished : Nat := 0
  out : PassSummary := {}

inductive How where
  | applied
  | skipped (tip lagTolerance : Nat)
  | unresolved
  | operator

/-- Where a pass is: before the next turn, before the write of `next` with the event it had in hand, or over. -/
inductive Pass where
  | looping (m : Mem)
  | writing (m : Mem) (pending : PendingEvent) (next : ConsumerState) (how : Option How)
  | ended (out : PassSummary)

structure Listing where
  events : List EventKey
  stored : Option EventKey
  own : Option EventKey

structure Ask where
  canonical : Option String
  event : EventKey
  tip : Nat
  limits : PassLimits
  feedTip : Option Nat
  listed : Option Nat

def Ask.verdict (k : Ask) (feedTip : Option Nat) : Corroboration :=
  classifyCorroboration k.canonical k.event.hash k.tip k.event.height k.limits.skipDepth feedTip k.limits.lagTolerance

structure Move where
  event : EventKey
  how : How
  doc : ConsumerState
  listed : Option Nat
  counted : Bool

structure Sys where
  row : CasRow Stored := none
  passes : List Pass := []
  log : List (EventKey × Page) := []
  reads : List Listing := []
  asks : List Ask := []
  moves : List Move := []

def Sys.cursor (σ : Sys) : Option EventKey := (σ.row.doc.getD {}).state.cursor

namespace Mem

def withFeed (m : Mem) (feed : Option FeedRead) : Option Mem :=
  match m.feed with
  | some _ => some m
  | none => feed.map fun read =>
    { m with feed := some (eventsAfter read.events m.state.cursor), feedTip := read.newestHeight, out := { m.out with feedRead := true } }

def next (m : Mem) : Option EventKey := (m.feed.getD []).find? (after m.state.cursor)

def judge (m : Mem) (p : PendingEvent) (a : Answers) : Pass × List Page :=
  let state : ConsumerState := { m.state with pending := some p }
  let faulted : Mem := { m with out := { m.out with faults := m.out.faults + 1 } }
  match a.header, a.tip with
  | some canonical, some tip =>
    match classifyCorroboration canonical p.event.hash tip p.event.height m.limits.skipDepth m.feedTip m.limits.lagTolerance with
    | .trackerLagging => (.writing { m with out := { m.out with trackerLagging := m.out.trackerLagging + 1 } } p state.holdPending none, [])
    | .held => (.writing { m with out := { m.out with held := m.out.held + 1 } } p state.holdPending none, [])
    | .uncorroborated => (.writing m p state.advancePastPending (some (.skipped tip m.limits.lagTolerance)), [])
    | .corroborated =>
      let (legs, verdict, pages) := judgeWindowLegs p.legs a.legs
      let state : ConsumerState := { m.state with pending := some { p with legs := legs } }
      match verdict with
      | .faulted => (.writing faulted p state.noteFaultOnPending none, pages)
      | .budgetStop => (.writing { m with out := { m.out with budgetStops := m.out.budgetStops + 1 } } p state none, pages)
      | .ran => if legs.allExhausted then (.writing m p state.advancePastPending (some .applied), pages) else (.writing m p state none, pages)
  | _, _ => (.writing faulted p state.noteFaultOnPending none, [])

inductive InHand where
  | stopped (out : PassSummary)
  | ceiling (p : PendingEvent) (why : ReleaseReason)
  | event (m : Mem) (p : PendingEvent)

def inHand (m : Mem) (feed : Option FeedRead) : InHand :=
  if m.limits.eventsPerPass ≤ m.finished then .stopped m.out
  else match m.state.pending with
    | some p => match m.state.pendingCeiling m.limits.heldCeiling m.limits.faultCeiling with
      | some why => .ceiling p why
      | none => .event m p
    | none => match m.withFeed feed with
      | none => .stopped { m.out with faults := m.out.faults + 1 }
      | some m => match m.next with
        | none => .stopped { m.out with idle := true }
        | some e => .event { m with listed := m.feedTip } { event := e }

def ask (m : Mem) (p : PendingEvent) (a : Answers) : Option Ask :=
  a.header.bind fun canonical => a.tip.map fun tip =>
    { canonical := canonical, event := p.event, tip := tip, limits := m.limits, feedTip := m.feedTip, listed := m.listed }

def listing (m : Mem) (feed : Option FeedRead) : Option FeedRead :=
  if m.finished < m.limits.eventsPerPass ∧ m.state.pending = none ∧ m.feed = none then feed else none

def newReads (m : Mem) (feed : Option FeedRead) (stored : Option EventKey) : List Listing :=
  (m.listing feed).toList.map fun read => { events := read.events, stored := stored, own := m.state.cursor }

end Mem

def PassSummary.count (s : PassSummary) (e : EventKey) : How → PassSummary
  | .applied => { s with applied := s.applied + 1, counted := s.counted ++ [e] }
  | .skipped _ _ => { s with skippedUncorroborated := s.skippedUncorroborated + 1, counted := s.counted ++ [e] }
  | .unresolved => { s with skippedUnresolved := s.skippedUnresolved + 1, counted := s.counted ++ [e] }
  | .operator => { s with releasedByOperator := s.releasedByOperator + 1, counted := s.counted ++ [e] }

/-- `persist`, and what the pass does with its answer. -/
def Pass.persisted (m : Mem) (p : PendingEvent) (next : ConsumerState) (how : Option How) : CasRow.Answer → Pass
  | .written version =>
    match how with
    | none => .ended m.out
    | some .operator => .looping { m with state := next, version := version, out := m.out.count p.event .operator }
    | some how => .looping { m with state := next, version := version, finished := m.finished + 1, out := m.out.count p.event how }
  | .contended => .ended { m.out with contended := m.out.contended + 1 }
  | .faulted => .ended { m.out with errors := m.out.errors + 1 }

inductive Act where
  | read (limits : PassLimits) (releasePending fault : Bool)
  | turn (i : Nat) (a : Answers)
  | write (i : Nat) (fate : CasRow.Fate)

namespace Sys

def begin (σ : Sys) (limits : PassLimits) (releasePending : Bool) : Pass :=
  let stored := σ.row.doc.getD {}
  let m : Mem := { limits := limits, state := stored.state, version := σ.row.version, listed := stored.listed }
  match releasePending, m.state.pending with
  | true, some p => .writing m p (m.state.releasePending .operator) (some .operator)
  | _, _ => .looping m

def turn (σ : Sys) (i : Nat) (m : Mem) (a : Answers) : Sys :=
  let reads := m.newReads a.feed σ.cursor
  match m.inHand a.feed with
  | .stopped out => { σ with passes := σ.passes.set i (.ended out), reads := σ.reads ++ reads }
  | .ceiling p why => { σ with passes := σ.passes.set i (.writing m p (m.state.releasePending why) (some .unresolved)), reads := σ.reads ++ reads }
  | .event m p =>
    let (pass, pages) := m.judge p a
    { σ with
      passes := σ.passes.set i pass
      reads := σ.reads ++ reads
      asks := σ.asks ++ (m.ask p a).toList
      log := σ.log ++ pages.map (p.event, ·) }

def write (σ : Sys) (i : Nat) (m : Mem) (p : PendingEvent) (next : ConsumerState) (how : Option How) (fate : CasRow.Fate) : Sys :=
  let stored : Stored := { state := next, listed := m.listed }
  let (row, answer) := σ.row.issue m.version stored fate
  let landed := fate != .lost && (σ.row.write m.version stored).isSome
  { σ with
    row := row
    passes := σ.passes.set i (.persisted m p next how answer)
    moves := σ.moves ++ if landed then
      how.toList.map fun how => { event := p.event, how := how, doc := next, listed := m.listed, counted := fate == .ran } else [] }

def step (σ : Sys) : Act → Option Sys
  | .read limits releasePending fault =>
    some { σ with passes := σ.passes ++ [if fault then .ended { errors := 1 } else σ.begin limits releasePending] }
  | .turn i a => match σ.passes[i]? with
    | some (.looping m) => some (σ.turn i m a)
    | _ => none
  | .write i fate => match σ.passes[i]? with
    | some (.writing m p next how) => some (σ.write i m p next how fate)
    | _ => none

def run (σ : Sys) : List Act → Option Sys
  | [] => some σ
  | a :: rest => (σ.step a).bind fun σ' => σ'.run rest

end Sys

end OverlayEngine.ArcadeReorg
