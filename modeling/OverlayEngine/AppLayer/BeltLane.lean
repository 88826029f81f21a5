import Mathlib.Data.List.Dedup
import Mathlib.Data.List.Sort
import Mathlib.Logic.Function.Basic

/-!
# The belt's asks lane

Each actor owes the chain one question for each of its dated rows. An apply
queues the questions of its games on the isolate's lane, inside the actor's
turn; one drain at a time takes the lane and runs each batch on the record, where
the belt's ledger is. Identities and games are taken as the code has them after
lowering.
-/

namespace OverlayEngine.BeltLane

/-- `owed_belt_state.cursor` of an ask: the question of its game, and when it is due. -/
structure Cursor (γ β : Type) where
  game : γ
  question : β
  dueAtMs : Int
  deriving DecidableEq

structure Ask (γ ν β : Type) where
  name : ν
  cursor : Cursor γ β
  deriving DecidableEq

/-- A dated row of `owed_rows`; `question` is absent where `ask_of` has none to ask. -/
structure DatedRow (γ ν β : Type) where
  outpoint : ν
  game : γ
  question : Option β
  beltDueAtMs : Int

/-- An identity's dated rows: `owed_rows` has one row for each outpoint. -/
structure OwedRows (γ ν β : Type) where
  rows : List (DatedRow γ ν β)
  nodup : (rows.map DatedRow.outpoint).Nodup

structure Entry (γ β : Type) where
  cursor : Cursor γ β
  tickedAtMs : Int

abbrev Ledger (ι γ ν β : Type) := ι → ν → Option (Entry γ β)

/-- One queued apply; `no` is its place in the order of queueing. -/
structure AskBatch (ι γ ν β : Type) where
  no : Nat
  identity : ι
  games : List γ
  asks : List (Ask γ ν β)
  deriving DecidableEq

def askOfRow {γ ν β : Type} (r : DatedRow γ ν β) : Option (Ask γ ν β) :=
  r.question.map fun q => ⟨r.outpoint, ⟨r.game, q, r.beltDueAtMs⟩⟩

section
variable {ι γ ν β : Type} [DecidableEq ι] [DecidableEq γ] [DecidableEq ν] [DecidableEq β]

def OwedRows.asks (rows : OwedRows γ ν β) (g : γ) : List (Ask γ ν β) := (rows.rows.filterMap askOfRow).filter fun a => a.cursor.game = g

/-- `ASKS_CLEAR_SQL`: the identity's asks of these games that no dated row names any more. -/
def clear (L : Ledger ι γ ν β) (me : ι) (games : List γ) (names : List ν) : Ledger ι γ ν β := fun i n =>
  (L i n).filter fun e => !(decide (i = me) && decide (e.cursor.game ∈ games) && !decide (n ∈ names))

/-- `ASK_PUT_SQL`: an unchanged question keeps its row, and one that moved with the same due date the belt's later date. -/
def putEntry (a : Ask γ ν β) : Option (Entry γ β) → Entry γ β
  | none => ⟨a.cursor, a.cursor.dueAtMs⟩
  | some e =>
    if e.cursor = a.cursor then e
    else ⟨a.cursor, if e.cursor.dueAtMs = a.cursor.dueAtMs ∧ a.cursor.dueAtMs < e.tickedAtMs then e.tickedAtMs else a.cursor.dueAtMs⟩

def put (me : ι) (L : Ledger ι γ ν β) (a : Ask γ ν β) : Ledger ι γ ν β := fun i n =>
  if i = me ∧ n = a.name then some (putEntry a (L i n)) else L i n

def AskBatch.about (b : AskBatch ι γ ν β) (g : γ) : List (Ask γ ν β) := b.asks.filter fun a => a.cursor.game = g

def AskBatch.land (b : AskBatch ι γ ν β) (L : Ledger ι γ ν β) : Ledger ι γ ν β :=
  b.asks.foldl (put b.identity) (clear L b.identity b.games (b.asks.map Ask.name))

end

inductive Ended where
  | pending
  | landed
  | faulted
  deriving DecidableEq

structure Publish (γ ν β : Type) where
  no : Nat
  asks : List (Ask γ ν β)
  ended : Ended

/-- A `queue_belt_asks` call in its actor's turn. The mirror is the actor's own, so its reads and writes count as one step with
what the call does next. -/
inductive Asking (ι γ ν β δ : Type) where
  | reading (games : List γ)
  | writing (batch : AskBatch ι γ ν β) (digests : List (γ × δ))
  deriving DecidableEq

/-- A live `drain_lane_once` call: the batches it took and has not ended yet, the first one in flight; then the counters. -/
inductive Drain (ι γ ν β : Type) where
  | running (began : Nat) (first : AskBatch ι γ ν β) (rest : List (AskBatch ι γ ν β)) (asks : Nat)
  | counting (began : Nat)

/-- A `drain_lane_once` call that returned: what was queued before it, whether no other call was live, and what the lane held. -/
structure Returned where
  began : Nat
  alone : Bool
  left : List Nat

structure Isolate (ι γ ν β δ : Type) where
  rows : ι → OwedRows γ ν β
  digests : ι → γ → Option δ
  turn : ι → Option (Asking ι γ ν β δ)
  lane : List (AskBatch ι γ ν β)
  faulted : ι → Bool
  draining : Bool
  drain : Option (Drain ι γ ν β)
  ledger : Ledger ι γ ν β
  queued : Nat
  effects : List (AskBatch ι γ ν β)
  last : ι → γ → Option (Publish γ ν β)
  read : ι → γ → Option (List (Ask γ ν β))
  returns : List Returned

inductive Fate where
  | ok
  | faulted (landed : Bool)
  deriving DecidableEq

def Fate.effect : Fate → Bool
  | .ok => true
  | .faulted landed => landed

inductive Move (ι γ ν β : Type) where
  | apply (me : ι) (rows : OwedRows γ ν β)
  | ask (me : ι) (games : List γ)
  | go (me : ι)
  | drain
  | record (fate : Fate)
  | counted
  | drop (landed : Bool)

section
variable {ι γ ν β δ : Type} [DecidableEq ι] [LinearOrder γ] [DecidableEq ν] [DecidableEq β] [DecidableEq δ]
variable (digest : List (Ask γ ν β) → δ)

def changedGames (rows : OwedRows γ ν β) (stored : γ → Option δ) (refresh : Bool) (games : List γ) : List γ :=
  (games.dedup.insertionSort (· ≤ ·)).filter fun g =>
    refresh || match stored g with
      | none => !(rows.asks g).isEmpty
      | some d => decide (d ≠ digest (rows.asks g))

namespace Isolate

/-- Past the reads of `queue_belt_asks`: the fault mark is taken, and a batch made of the games that changed. -/
def judge (s : Isolate ι γ ν β δ) (me : ι) (games : List γ) : Isolate ι γ ν β δ :=
  let changed := changedGames digest (s.rows me) (s.digests me) (s.faulted me) games
  { s with
    faulted := Function.update s.faulted me false
    read := fun i g => if i = me ∧ g ∈ games then some ((s.rows me).asks g) else s.read i g
    turn := Function.update s.turn me
      (if changed = [] then none
      else some (.writing ⟨s.queued, me, changed, changed.flatMap (s.rows me).asks⟩ (changed.map fun g => (g, digest ((s.rows me).asks g))))) }

def push (s : Isolate ι γ ν β δ) (me : ι) (b : AskBatch ι γ ν β) (digests : List (γ × δ)) : Isolate ι γ ν β δ :=
  { s with
    digests := fun i g => if i = me then (digests.lookup g).or (s.digests i g) else s.digests i g
    turn := Function.update s.turn me none
    lane := s.lane ++ [{ b with no := s.queued }]
    queued := s.queued + 1
    last := fun i g => if i = me ∧ g ∈ b.games then some ⟨s.queued, b.about g, .pending⟩ else s.last i g }

def loop (s : Isolate ι γ ν β δ) (began : Nat) : Isolate ι γ ν β δ :=
  match s.lane with
  | [] => { s with draining := false, drain := none, returns := ⟨began, true, []⟩ :: s.returns }
  | b :: rest => { s with lane := [], drain := some (.running began b rest 0) }

def land (s : Isolate ι γ ν β δ) (b : AskBatch ι γ ν β) : Isolate ι γ ν β δ :=
  { s with ledger := b.land s.ledger, effects := b :: s.effects }

def answer (s : Isolate ι γ ν β δ) (b : AskBatch ι γ ν β) (fate : Fate) : Isolate ι γ ν β δ :=
  let s := if fate.effect then s.land b else s
  { s with
    faulted := if fate = .ok then s.faulted else Function.update s.faulted b.identity true
    last := fun i g => (s.last i g).map fun l =>
      if i = b.identity ∧ g ∈ b.games ∧ l.no = b.no then { l with ended := if fate = .ok then .landed else .faulted } else l }

def goOn (s : Isolate ι γ ν β δ) (began : Nat) (rest : List (AskBatch ι γ ν β)) (asks : Nat) : Isolate ι γ ν β δ :=
  match rest with
  | b :: rest => { s with drain := some (.running began b rest asks) }
  | [] => if 0 < asks then { s with drain := some (.counting began) } else s.loop began

def step (s : Isolate ι γ ν β δ) : Move ι γ ν β → Isolate ι γ ν β δ
  | .apply me rows => if (s.turn me).isNone then { s with rows := Function.update s.rows me rows } else s
  | .ask me games => if (s.turn me).isNone && !games.isEmpty then { s with turn := Function.update s.turn me (some (.reading games)) } else s
  | .go me =>
    match s.turn me with
    | none => s
    | some (.reading games) => s.judge digest me games
    | some (.writing b digests) => s.push me b digests
  | .drain =>
    if s.draining then { s with returns := ⟨s.queued, s.drain.isNone, s.lane.map AskBatch.no⟩ :: s.returns }
    else ({ s with draining := true } : Isolate ι γ ν β δ).loop s.queued
  | .record fate =>
    match s.drain with
    | some (.running began b rest asks) =>
      (s.answer b fate).goOn began rest (if fate = .ok then asks + b.asks.length else asks)
    | _ => s
  | .counted =>
    match s.drain with
    | some (.counting began) => s.loop began
    | _ => s
  | .drop landed =>
    -- the future is gone, the flag is not: nothing on this isolate sets it back
    match s.drain with
    | none => s
    | some (.running _ b _ _) => { (if landed then s.land b else s) with drain := none }
    | some (.counting _) => { s with drain := none }

def run (s : Isolate ι γ ν β δ) (moves : List (Move ι γ ν β)) : Isolate ι γ ν β δ := moves.foldl (step digest) s

end Isolate

end

end OverlayEngine.BeltLane
