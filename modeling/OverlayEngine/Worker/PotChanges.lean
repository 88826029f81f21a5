import OverlayEngine.Worker.ChangePark

/-!
# The noted pot outpoints

An isolate's set of noted outpoints between the writers' notes, the flushes that
ship it, the background skips that park it, and the drains of `change_parked` on
any isolate. A task stops only at an await: between two steps of one task any
other task can take its own.
-/

namespace OverlayEngine.PotChanges

open ChangeFlush (Post Shipped NotedBack settleNoting changeChunk changeMaxChunks)
open ChangePark (Kind Row Table drainMaxRows rowsOf unparkAll refuseAll)

def outboxParkMax : Nat := drainMaxRows

/-- `ship_chunks` between its awaits: the chunks left, the POST in flight with the clock it was started at. -/
structure Ship (α : Type) where
  left : List (List α) := []
  i : Nat := 0
  flight : Option (List α × Nat) := none
  out : Shipped α := {}

section
variable {α : Type}

namespace Ship

def shipped (s : Ship α) : Bool := s.flight.isNone && s.left.isEmpty

def start (s : Ship α) (clock : Nat) : Option (Ship α) :=
  match s.flight, s.left with
  | none, chunk :: rest => if s.i < changeMaxChunks then some { s with left := rest, flight := some (chunk, clock) } else none
  | _, _ => none

def pass (s : Ship α) : Option (Ship α) :=
  match s.flight, s.left with
  | none, chunk :: rest => some { s with left := rest, i := s.i + 1, out := s.out.chunk s.i chunk .past }
  | _, _ => none

def answer (s : Ship α) (answer : Post) : Option (Ship α) :=
  match s.flight with
  | some (chunk, _) => some { s with flight := none, i := s.i + 1, out := s.out.chunk s.i chunk answer }
  | none => none

/-- A row of `ship_isolating` that a POST already refused goes alone. -/
def startAlone (s : Ship α) (row : α) (clock : Nat) : Option (Ship α) :=
  match s.flight with
  | none => if s.out.posts < changeMaxChunks then some { s with flight := some ([row], clock) } else none
  | some _ => none

def answerAlone (s : Ship α) (accepted : Bool) : Option (Ship α) :=
  match s.flight with
  | some (row, _) => some { s with flight := none, out :=
      if accepted then { s.out with posts := s.out.posts + 1, delivered := s.out.delivered ++ row }
      else { s.out with posts := s.out.posts + 1, failed := s.out.failed ++ row } }
  | none => none

end Ship

inductive Flush (α : Type) where
  | idle
  | shipping (ship : Ship α)
  | committing (parks : List α)
  | done

inductive Skip (α : Type) where
  | idle
  | parking (copy : List (α × Nat))
  | forgetting (parked : List (α × Nat))
  | done

inductive Phase where
  | idle
  | shipping
  | isolating
  | unparking
  | refusing
  | done
  deriving DecidableEq

/-- The pot set's turn of a drain of `change_parked`. -/
structure Drain (α : Type) where
  phase : Phase := .idle
  rows : List (Row α) := []
  ship : Ship α := {}
  retry : List α := []

/-- `CHANGES` with the version of each note, `VERSION`, and `NOTED_BACK`. -/
structure Isolate (α : Type) where
  set : List (α × Nat) := []
  version : Nat := 0
  memory : NotedBack α := {}

end

section
variable {α : Type} [DecidableEq α]

namespace Isolate

def note (s : Isolate α) (o : α) : Isolate α :=
  { s with version := s.version + 1, set := (o, s.version + 1) :: s.set.filter fun p => p.1 ≠ o }

def noteAll (s : Isolate α) (os : List α) : Isolate α := os.foldl note s

def snapshot (s : Isolate α) : List (α × Nat) := s.set

def forget (s : Isolate α) (parked : List (α × Nat)) : Isolate α := { s with set := s.set.filter fun p => p ∉ parked }

end Isolate

/-- `FlushBatch::park` of one set: the entries the batch takes, and those past its bound. -/
def outbox : List α → List α → List α × List α
  | kept, [] => (kept, [])
  | kept, item :: rest =>
    if item ∈ kept then outbox kept rest
    else if kept.length < outboxParkMax then outbox (kept ++ [item]) rest
    else let done := outbox kept rest; (done.1, item :: done.2)

def potKey (o : α) : ChangePark.Key α := ⟨.pot, o⟩

/-- The entries of the batch that `PARK_ACCOUNT_SQL` does not find at the batch's token. -/
def parkFull (t : Table α) (parks : List α) : List α :=
  parks.filter fun o => !(t.row (potKey o)).any fun r => r.generation = t.seq.getD 0

structure Sys (α : Type) where
  isolate : Isolate α := {}
  table : Table α := {}
  flushes : Nat → Flush α := fun _ => .idle
  skips : Nat → Skip α := fun _ => .idle
  drains : Nat → Drain α := fun _ => {}
  clock : Nat := 0
  noted : α → Nat := fun _ => 0
  heard : α → Nat := fun _ => 0
  entered : α → Nat := fun _ => 0
  counted : α → Bool := fun _ => false

def Sys.Owed (σ : Sys α) (o : α) : Prop := σ.heard o < σ.noted o

inductive Commit where
  | ran
  | faulted (landed : Bool)

inductive Act (α : Type) where
  | note (o : α)
  | drain (i : Nat)
  | start (i : Nat)
  | pass (i : Nat)
  | answer (i : Nat) (answer : Post)
  | settle (i : Nat)
  | commit (i now : Nat) (others later : List (ChangePark.Key α)) (outcome : Commit)
  | snapshot (j : Nat)
  | park (j now : Nat) (others later : List (ChangePark.Key α)) (outcome : Commit)
  | forget (j : Nat)
  | read (d now : Nat)
  | startParked (d : Nat)
  | passParked (d : Nat)
  | answerParked (d : Nat) (answer : Post)
  | isolate (d : Nat)
  | stop (d : Nat)
  | unpark (d : Nat) (landed : Bool)
  | refuse (d now : Nat) (landed : Bool)
  | cancel (d : Nat)
  | sweep (kind : Kind) (now : Nat)
  | parkElse (now : Nat) (keys : List (ChangePark.Key α))
  | unparkElse (k : ChangePark.Key α) (generation : Nat)

end

section
variable {α : Type} [LinearOrder α] (readable : α → Bool)

local instance lawful : LawfulBEq α := inferInstance

/-- `drain`: every noted outpoint, in the order of the set. -/
def Isolate.drain (s : Isolate α) : List α × Isolate α := ((s.set.map Prod.fst).mergeSort (· ≤ ·), { s with set := [] })

def hearing (heard : α → Nat) (answer : Post) : Option (List α × Nat) → α → Nat
  | some (chunk, stamp) => match answer with
    | .accepted _ => fun o => if o ∈ chunk then max (heard o) stamp else heard o
    | _ => heard
  | none => heard

namespace Sys

def setFlush (σ : Sys α) (i : Nat) (f : Flush α) : Sys α := { σ with flushes := Function.update σ.flushes i f }
def setSkip (σ : Sys α) (j : Nat) (s : Skip α) : Sys α := { σ with skips := Function.update σ.skips j s }
def setDrain (σ : Sys α) (d : Nat) (dr : Drain α) : Sys α := { σ with drains := Function.update σ.drains d dr }

def hear (σ : Sys α) (answer : Post) (flight : Option (List α × Nat)) : Sys α := { σ with heard := hearing σ.heard answer flight }

def count (σ : Sys α) (missed : List α) : Sys α := { σ with counted := fun o => decide (o ∈ missed) || σ.counted o }

def parked (σ : Sys α) (now : Nat) (others : List (ChangePark.Key α)) (pots : List α) (later : List (ChangePark.Key α)) : Table α × List Bool :=
  let keys := others ++ pots.map potKey ++ later
  if keys.isEmpty then (σ.table, []) else σ.table.parkBatch now keys

def step (σ : Sys α) : Act α → Option (Sys α)
  | .note o =>
    some { σ with
      isolate := σ.isolate.note o
      clock := σ.clock + 1
      noted := Function.update σ.noted o (σ.clock + 1)
      counted := Function.update σ.counted o false }
  | .drain i =>
    match σ.flushes i with
    | .idle =>
      let drained := σ.isolate.drain
      some { σ.setFlush i (.shipping { left := Chunks.chunks changeChunk drained.1 }) with isolate := drained.2 }
    | _ => none
  | .start i =>
    match σ.flushes i with
    | .shipping s => (s.start σ.clock).map fun s' => σ.setFlush i (.shipping s')
    | _ => none
  | .pass i =>
    match σ.flushes i with
    | .shipping s => s.pass.map fun s' => σ.setFlush i (.shipping s')
    | _ => none
  | .answer i answer =>
    match σ.flushes i with
    | .shipping s => (s.answer answer).map fun s' => (σ.hear answer s.flight).setFlush i (.shipping s')
    | _ => none
  | .settle i =>
    match σ.flushes i with
    | .shipping s =>
      if s.shipped then
        let settled := settleNoting σ.isolate.memory s.out
        let batch := outbox [] settled.2
        let isolate := { σ.isolate.noteAll settled.1.back with memory := settled.1.memory }
        some { (σ.setFlush i (.committing batch.1)).count batch.2 with
          isolate := isolate
          entered := fun o => if o ∈ settled.2 then σ.clock else σ.entered o }
      else none
    | _ => none
  | .commit i now others later outcome =>
    match σ.flushes i with
    | .committing parks =>
      let table := (σ.parked now others parks later).1
      match outcome with
      | .ran => some { (σ.setFlush i .done).count (parkFull table parks) with table := table }
      | .faulted landed => some { (σ.setFlush i .done).count parks with table := if landed then table else σ.table }
    | _ => none
  | .snapshot j =>
    match σ.skips j with
    | .idle => some (σ.setSkip j (.parking σ.isolate.snapshot))
    | _ => none
  | .park j now others later outcome =>
    match σ.skips j with
    | .parking copy =>
      let batch := σ.parked now others (copy.map Prod.fst) later
      match outcome with
      | .ran =>
        let landed := (copy.zip (batch.2.drop others.length)).filter Prod.snd
        some { σ.setSkip j (.forgetting (landed.map Prod.fst)) with table := batch.1 }
      | .faulted landed => some { σ.setSkip j .done with table := if landed then batch.1 else σ.table }
    | _ => none
  | .forget j =>
    match σ.skips j with
    | .forgetting parked => some { σ.setSkip j .done with isolate := σ.isolate.forget parked }
    | _ => none
  | .read d now =>
    if (σ.drains d).phase = .idle then
      let rows := σ.table.read .pot now drainMaxRows
      let entries := (rows.map fun r => r.key.item).filter readable
      let fresh := fun o => (rows.find? fun r => r.key.item = o).any fun r => r.attempts = 0
      let ship : Ship α := { left := Chunks.chunks changeChunk (entries.filter fresh) }
      some (σ.setDrain d { phase := .shipping, rows := rows, ship := ship, retry := entries.filter (!fresh ·) })
    else none
  | .startParked d =>
    let dr := σ.drains d
    match dr.phase, dr.retry with
    | .shipping, _ => (dr.ship.start σ.clock).map fun s => σ.setDrain d { dr with ship := s }
    | .isolating, row :: rest => (dr.ship.startAlone row σ.clock).map fun s => σ.setDrain d { dr with ship := s, retry := rest }
    | _, _ => none
  | .passParked d =>
    let dr := σ.drains d
    if dr.phase = .shipping then dr.ship.pass.map fun s => σ.setDrain d { dr with ship := s } else none
  | .answerParked d answer =>
    let dr := σ.drains d
    match dr.phase with
    | .shipping => (dr.ship.answer answer).map fun s => (σ.hear answer dr.ship.flight).setDrain d { dr with ship := s }
    | .isolating =>
      (dr.ship.answerAlone (match answer with | .accepted _ => true | _ => false)).map fun s =>
        (σ.hear answer dr.ship.flight).setDrain d { dr with ship := s }
    | _ => none
  | .isolate d =>
    let dr := σ.drains d
    if dr.phase = .shipping ∧ dr.ship.shipped then some (σ.setDrain d { dr with phase := .isolating }) else none
  | .stop d =>
    let dr := σ.drains d
    if dr.phase = .isolating ∧ dr.ship.flight.isNone then some (σ.setDrain d { dr with phase := .unparking }) else none
  | .unpark d landed =>
    let dr := σ.drains d
    if dr.phase = .unparking then
      some { σ.setDrain d { dr with phase := .refusing } with
        table := if landed then unparkAll (rowsOf dr.rows dr.ship.out.delivered) σ.table else σ.table }
    else none
  | .refuse d now landed =>
    let dr := σ.drains d
    if dr.phase = .refusing then
      let refused := dr.ship.out.failed ++ (dr.rows.map fun r => r.key.item).filter fun o => !readable o
      some { σ.setDrain d { phase := .done } with
        table := if landed then (refuseAll now (rowsOf dr.rows refused) σ.table []).1 else σ.table }
    else none
  | .cancel d => some (σ.setDrain d { phase := .done })
  | .sweep kind now => some { σ with table := σ.table.sweep kind (now - ChangePark.changeParkExhaustedKeepMs) drainMaxRows }
  | .parkElse now keys => some { σ with table := (σ.table.parkBatch now keys).1 }
  | .unparkElse k g => if k.kind = .pot then none else some { σ with table := σ.table.unpark k g }

def run (σ : Sys α) : List (Act α) → Option (Sys α)
  | [] => some σ
  | a :: rest => (σ.step readable a).bind fun σ' => σ'.run rest

end Sys

end

end OverlayEngine.PotChanges
