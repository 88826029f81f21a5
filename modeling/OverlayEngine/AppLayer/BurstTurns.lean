import Mathlib.Logic.Function.Basic
import OverlayEngine.Basis.Chunks
import OverlayEngine.Basis.Runs
import OverlayEngine.Worker.Reverify

/-!
# Events applied in an object's turn

Every `apply_coalesced` call is a program counter: it waits for the turn's mutex
or for an answer another call's pass leaves it, or it holds the turn and awaits
the next read or apply of its pass. One move runs a call from one await to the
next, or drops its future there. What the mirror and the record answer comes with
the move.
-/

namespace OverlayEngine.BurstTurns

open Reverify (lowercase)

def gamesPerApply : Nat := 64

structure Report where
  appliedGames : List String := []
  skipped : Bool := false
  firstApply : Bool := false
  rounds : Nat := 0
  misses : Nat := 0
  recordRows : Nat := 0
  narrowed : Bool := false
  carried : Bool := false
  closureRounds : Nat := 0
  recordCalls : Nat := 0
  recordStatements : Nat := 0
  coalesced : Nat := 0
  readMs : Nat := 0
  judgeMs : Nat := 0
  writeMs : Nat := 0
  waitMs : Nat := 0
  outsideMs : Nat := 0
  asks : Nat := 0
  readGeneration : Option Int := none

namespace Report

def stages (r : Report) : Nat := r.readMs + r.judgeMs + r.writeMs + r.outsideMs

def joined (r : Report) (entered now : Nat) : Report := { r with waitMs := now - entered - r.stages }

def held (r : Report) (entered turned now : Nat) : Report :=
  { r with waitMs := turned - entered, judgeMs := r.judgeMs + (now - turned - r.stages) }

end Report

structure Item where
  games : List String
  kindSeq : Option (String × Int) := none
  tip : Option Nat := none
  bound : Option Int := none
  touch : Option (List String) := none
  deriving DecidableEq

def lowered (games : List String) : List String :=
  (games.map lowercase).foldl (fun named g => if g ∈ named then named else named ++ [g]) []

section
variable (π : Type)

abbrev Result := Except String (Report × List π)

structure Pass where
  entered : Nat
  turned : Nat
  size : Nat
  /-- The items not yet checked. -/
  unchecked : List (Nat × Item)
  /-- The covered items' answers. -/
  out : List (Nat × Result π) := []
  live : List (Nat × Item × Bool) := []
  /-- The chunks not yet applied. -/
  left : List (List String) := []
  reports : List Report := []
  pushes : List π := []

inductive Phase where
  | waiting (entered : Nat)
  | passing (p : Pass π)
  | returned (r : Result π)
  | dropped

end

inductive Event where
  | queued (id : Nat) (item : Item)
  | took (holder : Nat) (batch : List (Nat × Item))
  | covered (holder id : Nat)
  | applied (holder : Nat) (chunk : List String)
  | faulted (holder : Nat) (e : String)

variable {π : Type}

namespace Pass

variable (p : Pass π)

def union : List String := p.live.foldl (fun named l => (lowered l.2.1.games).foldl (fun named g => if g ∈ named then named else named ++ [g]) named) []

def chunked : Pass π := if p.unchecked.isEmpty then { p with left := Chunks.chunks gamesPerApply p.union } else p

def check (first covered : Bool) : Pass π :=
  match p.unchecked with
  | [] => p
  | (id, item) :: rest =>
    let first := item.kindSeq.isNone || first
    let q : Pass π :=
      if item.bound.isSome && !item.games.isEmpty && covered then
        { p with unchecked := rest, out := p.out ++ [(id, .ok ({ appliedGames := lowered item.games, skipped := true, firstApply := first }, []))] }
      else { p with unchecked := rest, live := p.live ++ [(id, item, first)] }
    q.chunked

def apply (report : Report) (pushes : List π) : Pass π :=
  { p with left := p.left.tail, reports := p.reports ++ [report], pushes := p.pushes ++ pushes }

def ended : Bool := p.unchecked.isEmpty && p.left.isEmpty

def report (item : Item) (first : Bool) : Report :=
  { (p.reports.head?.getD {}) with
    rounds := (p.reports.map Report.rounds).foldl max 0
    misses := (p.reports.map Report.misses).foldl (· + ·) 0
    recordRows := (p.reports.map Report.recordRows).foldl (· + ·) 0
    narrowed := p.reports.all Report.narrowed
    carried := p.reports.all Report.carried
    closureRounds := (p.reports.map Report.closureRounds).foldl (· + ·) 0
    recordCalls := (p.reports.map Report.recordCalls).foldl (· + ·) 0
    recordStatements := (p.reports.map Report.recordStatements).foldl (· + ·) 0
    coalesced := p.reports.length
    readMs := (p.reports.map Report.readMs).foldl (· + ·) 0
    judgeMs := (p.reports.map Report.judgeMs).foldl (· + ·) 0
    writeMs := (p.reports.map Report.writeMs).foldl (· + ·) 0
    outsideMs := (p.reports.map Report.outsideMs).foldl (· + ·) 0
    asks := (p.reports.map Report.asks).foldl (· + ·) 0
    readGeneration := match p.reports.head? with
      | some r => if p.reports.all fun s => s.readGeneration == r.readGeneration then r.readGeneration else none
      | none => none
    appliedGames := lowered item.games
    firstApply := first
    skipped := false }

def results (fault : Option String) : List (Nat × Result π) :=
  p.out ++ p.live.zipIdx.map fun l =>
    (l.1.1, match fault with
      | some e => .error e
      | none => .ok (p.report l.1.2.1 l.1.2.2, if l.2 = 0 then p.pushes else []))

end Pass

/-! ## The object -/

structure Burst (π : Type) where
  next : Nat := 0
  pending : List (Nat × Item) := []
  done : Nat → Option (Result π) := fun _ => none
  passes : Nat := 0
  events : Nat := 0
  holder : Option Nat := none
  calls : Nat → Option (Phase π) := fun _ => none
  log : List Event := []

def ownResultLost : String := "owed actor: the burst answered no result for its own event"

/-- A move of a call: `wake` is the waiter that the mutex wakes where it wakes one. -/
inductive Act (π : Type) where
  | enter (item : Item) (now : Nat)
  | poll (id now wake : Nat)
  | check (id : Nat) (first covered : Bool) (now wake : Nat)
  | apply (id : Nat) (answer : Except String (Report × List π)) (asks : Except String Nat) (now wake : Nat)
  | drop (id wake : Nat)

namespace Burst

variable (s : Burst π)

def setCall (id : Nat) (phase : Phase π) : Burst π := { s with calls := Function.update s.calls id (some phase) }

def finish (h : Nat) (p : Pass π) (fault : Option String) (now : Nat) : Burst π :=
  let results := p.results fault
  let mine : Result π := ((results.filter fun r => r.1 = h).getLast?.map Prod.snd).getD (.error ownResultLost)
  let others := results.filter fun r => r.1 ≠ h
  { s with
    passes := s.passes + 1
    events := s.events + p.size
    done := others.foldl (fun done r => Function.update done r.1 (some r.2)) s.done
    holder := none
    calls := Function.update s.calls h (some (.returned (mine.map fun r => (r.1.held p.entered p.turned now, r.2))))
    log := s.log ++ (fault.map (Event.faulted h)).toList }

def go (h : Nat) (p : Pass π) (now : Nat) : Burst π := if p.ended then s.finish h p none now else s.setCall h (.passing p)

def write (e : Event) : Burst π := { s with log := s.log ++ [e] }

/-- `apply_coalesced` to its first await. -/
def enter (item : Item) (now : Nat) : Burst π :=
  { (s.setCall s.next (.waiting now)) with
    next := s.next + 1
    pending := s.pending ++ [(s.next, item)]
    log := s.log ++ [.queued s.next item] }

def take (id entered now : Nat) : Burst π :=
  let p : Pass π := { entered := entered, turned := now, size := s.pending.length, unchecked := s.pending }
  Burst.go { s with pending := [], holder := some id, log := s.log ++ [Event.took id s.pending] } id p now

def answered (id entered now : Nat) (r : Result π) : Burst π :=
  { (s.setCall id (.returned (r.map fun r => (r.1.joined entered now, r.2)))) with done := Function.update s.done id none }

def poll (id now : Nat) : Burst π :=
  match s.calls id with
  | some (.waiting entered) =>
    match s.done id with
    | some r => s.answered id entered now r
    | none => if s.holder.isNone then s.take id entered now else s
  | _ => s

def check (id : Nat) (first covered : Bool) (now : Nat) : Burst π :=
  match s.calls id with
  | some (.passing p) =>
    match p.unchecked with
    | [] => s
    | (i, item) :: _ =>
      let s := if item.bound.isSome && !item.games.isEmpty && covered then s.write (.covered id i) else s
      s.go id (p.check first covered) now
  | _ => s

def chunkAnswer (publish : Bool) (answer : Except String (Report × List π)) (asks : Except String Nat) : Except String (Report × List π) :=
  match answer with
  | .error e => .error e
  | .ok (report, pushes) =>
    if publish then
      match asks with
      | .error e => .error e
      | .ok n => .ok ({ report with asks := n }, pushes)
    else .ok (report, pushes)

def apply (publish : Bool) (id : Nat) (answer : Except String (Report × List π)) (asks : Except String Nat) (now : Nat) : Burst π :=
  match s.calls id with
  | some (.passing p) =>
    match p.unchecked, p.left with
    | [], chunk :: _ =>
      match chunkAnswer publish answer asks with
      | .error e => s.finish id p (some e) now
      | .ok (report, pushes) => (s.write (.applied id chunk)).go id (p.apply report pushes) now
    | _, _ => s
  | _ => s

def drop (id : Nat) : Burst π :=
  match s.calls id with
  | some (.waiting _) => s.setCall id .dropped
  | some (.passing _) => { (s.setCall id .dropped) with holder := none }
  | _ => s

def step (publish : Bool) : Act π → Burst π
  | .enter item now => s.enter item now
  | .poll id now _ => s.poll id now
  | .check id first covered now _ => s.check id first covered now
  | .apply id answer asks now _ => s.apply publish id answer asks now
  | .drop id _ => s.drop id

def waits (id : Nat) : Bool :=
  match s.calls id with
  | some (.waiting _) => true
  | _ => false

def holds (id : Nat) : Bool :=
  match s.calls id with
  | some (.passing _) => true
  | _ => false

end Burst

/-! ## Who is woken -/

/-- The wakers: a call is polled once it is awake; `woken` is the mutex's mark on a waiter it woke, `wakers` the burst's list. -/
structure Wakes where
  awake : Nat → Bool := fun _ => false
  woken : Nat → Bool := fun _ => false
  wakers : List Nat := []

namespace Wakes

variable (k : Wakes)

def one (s : Burst π) (wake : Nat) : Wakes :=
  match if s.waits wake then some wake else (List.range s.next).find? s.waits with
  | some id => { k with awake := Function.update k.awake id true, woken := Function.update k.woken id true }
  | none => k

/-- `Burst::answer` wakes every caller of its list. -/
def all : Wakes := { k with awake := fun id => k.awake id || decide (id ∈ k.wakers), wakers := [] }

def entered (id : Nat) : Wakes := { k with awake := Function.update k.awake id true, woken := Function.update k.woken id false }

def sleep (id : Nat) : Wakes :=
  { awake := Function.update k.awake id false, woken := Function.update k.woken id false, wakers := k.wakers ++ [id] }

def left (s : Burst π) (id wake : Nat) : Wakes := if k.woken id then k.one s wake else k

def ended (s : Burst π) (wake : Nat) : Wakes := k.all.one s wake

end Wakes

structure State (π : Type) where
  burst : Burst π := {}
  wakes : Wakes := {}

namespace State

variable (s : State π)

/-- What a poll wakes: `t` is the burst after it. -/
def pollWakes (t : Burst π) (id wake : Nat) : Wakes :=
  if (s.burst.done id).isSome then
    if s.burst.holder.isNone then s.wakes.one t wake else s.wakes.left t id wake
  else if s.burst.holder.isNone then
    if t.holder.isNone then s.wakes.ended t wake else s.wakes
  else s.wakes.sleep id

def enabled : Act π → Bool
  | .enter _ _ => true
  | .poll id _ _ => s.burst.waits id && s.wakes.awake id
  | .check id _ _ _ _ => match s.burst.calls id with
    | some (.passing p) => !p.unchecked.isEmpty
    | _ => false
  | .apply id _ _ _ _ => match s.burst.calls id with
    | some (.passing p) => p.unchecked.isEmpty && !p.left.isEmpty
    | _ => false
  | .drop id _ => s.burst.waits id || s.burst.holds id

def wakesAfter (t : Burst π) : Act π → Wakes
  | .enter _ _ => s.wakes.entered s.burst.next
  | .poll id _ wake => s.pollWakes t id wake
  | .check _ _ _ _ wake => if t.holder.isNone then s.wakes.ended t wake else s.wakes
  | .apply _ _ _ _ wake => if t.holder.isNone then s.wakes.ended t wake else s.wakes
  | .drop id wake => if s.burst.waits id then s.wakes.left t id wake else s.wakes.one t wake

def step (publish : Bool) (s : State π) (a : Act π) : State π :=
  if s.enabled a then
    let t := s.burst.step publish a
    ⟨t, s.wakesAfter t a⟩
  else s

end State

end OverlayEngine.BurstTurns
