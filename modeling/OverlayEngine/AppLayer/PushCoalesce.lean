import OverlayEngine.Basis.KeyedRows
import Mathlib.Algebra.Order.Field.Rat
import Mathlib.Logic.Function.Basic

/-!
# The push coalescer

First-party pushes to a seat, coalesced by identity and key under two token
buckets and the relay's line. Every `submit` call is a program counter: it waits
for an answer of the relay or for its window's end, and one move runs it from one
await to the next. A call that need not sleep may be woken at any later time, so
the moves have every schedule the calls have.
-/

namespace OverlayEngine.PushCoalesce

open KeyedRows

def pushBudgetRetryWindows : Nat := 3
def pushHoldWindowsMax : Nat := 2
def pushHoldWindowsRelayFull : Nat := 10
def relaySendsPerMin : Nat := 100
def relayHeadroom : Nat := 5
def pushTrailMs : Nat := 60000
def relayLine : Nat := relaySendsPerMin - relayHeadroom

structure Knobs where
  windowMs : Nat := 2000
  perIdentityPerMin : Nat := 40
  senderPerMin : Nat := 80

inductive Answer where
  | sent
  | budgetRefused
  | failed
  | notConfigured
  deriving DecidableEq

/-! ## The buckets -/

structure Bucket where
  tokens : Rat
  atMs : Nat

namespace Bucket

def capacity (perMin : Nat) : Rat := (max (perMin / 4) 1 : Nat)

def ratePerMs (perMin : Nat) : Rat := max (perMin - capacity perMin) 0 / 60000

def full (perMin now : Nat) : Bucket := ⟨capacity perMin, now⟩

def refill (b : Bucket) (perMin now : Nat) : Bucket :=
  ⟨min (b.tokens + (now - b.atMs : Nat) * ratePerMs perMin) (capacity perMin), max now b.atMs⟩

def spend (b : Bucket) : Bucket := { b with tokens := b.tokens - 1 }

end Bucket

/-- A state that waits; `call` is the submit whose body it is. -/
structure Pending (β : Type) where
  seq : Nat
  ticket : Nat
  since : Nat
  held : Bool
  body : β
  messageId : Option String
  call : Nat
  deriving DecidableEq

structure Seat where
  windowEnd : Nat := 0
  bucket : Option Bucket := none

structure Coalescer (ι κ β : Type) where
  seats : ι → Option Seat
  pending : List ((ι × κ) × Pending β)
  sender : Option Bucket
  seq : Nat
  ticket : Nat
  sent : List Nat

section
variable {ι κ β : Type} [DecidableEq ι] [LinearOrder κ]

namespace Coalescer

def seat (c : Coalescer ι κ β) (i : ι) : Seat := (c.seats i).getD {}

def setSeat (c : Coalescer ι κ β) (i : ι) (s : Seat) : Coalescer ι κ β := { c with seats := Function.update c.seats i (some s) }

def setWindow (c : Coalescer ι κ β) (i : ι) (windowEnd : Nat) : Coalescer ι κ β := c.setSeat i { c.seat i with windowEnd := windowEnd }

abbrev state (c : Coalescer ι κ β) (i : ι) (k : κ) : Option (Pending β) := (row Prod.fst c.pending (i, k)).map Prod.snd

def insert (c : Coalescer ι κ β) (i : ι) (k : κ) (p : Pending β) : Coalescer ι κ β :=
  { c with pending := remove Prod.fst (· = (i, k)) c.pending ++ [((i, k), p)] }

def unqueue (c : Coalescer ι κ β) (i : ι) (k : κ) : Coalescer ι κ β := { c with pending := remove Prod.fst (· = (i, k)) c.pending }

def hold (c : Coalescer ι κ β) (i : ι) (k : κ) : Coalescer ι κ β :=
  { c with pending := modify Prod.fst (· = (i, k)) (fun e => (e.1, { e.2 with held := true })) c.pending }

def prune (c : Coalescer ι κ β) (now : Nat) : Coalescer ι κ β := { c with sent := c.sent.dropWhile (· ≤ now - pushTrailMs) }

def relayRoom (c : Coalescer ι κ β) (now : Nat) : Bool := decide ((c.prune now).sent.length < relayLine)

def noteSend (c : Coalescer ι κ β) (now : Nat) : Coalescer ι κ β := { c.prune now with sent := (c.prune now).sent ++ [now] }

/-- The live states queued ahead of `ticket` that the sender bucket must still cover. -/
def ahead (c : Coalescer ι κ β) (i : ι) (key : Option κ) (ticket : Option Nat) (knobs : Knobs) (now : Nat) : Nat :=
  c.pending.countP fun e =>
    (c.seats e.1.1).any (fun s =>
      decide (now - (knobs.windowMs + 1000) ≤ s.windowEnd) &&
        (s.bucket.all (fun b => decide (1 ≤ (b.refill knobs.perIdentityPerMin now).tokens)) || decide (e.1.1 = i))) &&
      !(decide (e.1.1 = i) && decide (some e.1.2 = key)) && ticket.all (e.2.ticket < ·)

def take (c : Coalescer ι κ β) (i : ι) (key : Option κ) (ticket : Option Nat) (knobs : Knobs) (now : Nat) : Coalescer ι κ β × Bool :=
  let c := c.prune now
  if c.relayRoom now = false then (c, false)
  else
    let queued := c.ahead i key ticket knobs now
    let sender := (c.sender.getD (.full knobs.senderPerMin now)).refill knobs.senderPerMin now
    let mine := ((c.seat i).bucket.getD (.full knobs.perIdentityPerMin now)).refill knobs.perIdentityPerMin now
    let paid := decide (1 + (queued : Rat) ≤ sender.tokens) && decide (1 ≤ mine.tokens)
    let c := { c with sender := some (if paid then sender.spend else sender) }
    (c.setSeat i { c.seat i with bucket := some (if paid then mine.spend else mine) }, paid)

def heldPastBar (c : Coalescer ι κ β) (i : ι) (k : κ) (knobs : Knobs) (now : Nat) : Bool :=
  (c.state i k).any fun p => decide (pushHoldWindowsMax * max knobs.windowMs 1 ≤ now - p.since)

def force (c : Coalescer ι κ β) (i : ι) : Coalescer ι κ β :=
  { c with
    sender := c.sender.map Bucket.spend
    seats := Function.update c.seats i ((c.seats i).map fun s => { s with bucket := s.bucket.map Bucket.spend }) }

def tidy (c : Coalescer ι κ β) (i : ι) (knobs : Knobs) (now : Nat) : Coalescer ι κ β :=
  let idle := (c.seats i).any fun s =>
    (c.pending.all fun e => !decide (e.1.1 = i)) && decide (s.windowEnd ≤ now) &&
      s.bucket.all fun b => decide (Bucket.capacity knobs.perIdentityPerMin ≤ (b.refill knobs.perIdentityPerMin now).tokens)
  if idle then { c with seats := Function.update c.seats i none } else c

end Coalescer

end

/-! ## The calls -/

/-- A call is `passing` before its state is placed, and while a body that is no trigger is sent. -/
inductive Pc (κ β : Type) where
  | passing
  | leading
  | releasing (seq ticket refusals : Nat) (now : κ × Pending β) (rest : List (κ × Pending β)) (mine : Option Answer)
  | waiting (seq ticket refusals held wakeAt : Nat)
  | sending (seq ticket refusals held : Nat) (p : Pending β)
  | returned (a : Answer)
  deriving DecidableEq

structure Call (ι κ β : Type) where
  identity : ι
  key : Option κ
  messageId : Option String
  body : β
  pc : Pc κ β
  deriving DecidableEq

/-- `handed` is the calls whose body went to `PushPort::send`, the newest first; `accepted` those answered otherwise than by a
refusal of the budget, `turnedDown` those refused for it. -/
structure World (ι κ β : Type) where
  coalescer : Coalescer ι κ β
  calls : List (Call ι κ β)
  clock : Nat
  handed : List Nat
  accepted : List Nat
  turnedDown : List Nat

inductive Move (ι β : Type) where
  | submit (identity : ι) (messageId : Option String) (body : β)
  | answer (call : Nat) (a : Answer)
  | wake (call : Nat)
  | tick (ms : Nat)

section
variable {ι κ β : Type} [DecidableEq ι] [LinearOrder κ] (coalesceKey : β → Option κ) (knobs : Knobs)

namespace World

def setPc (w : World ι κ β) (n : Nat) (pc : Pc κ β) : World ι κ β :=
  { w with calls := w.calls.modify n fun c => { c with pc := pc } }

def hand (w : World ι κ β) (n : Nat) : World ι κ β := { w with handed := n :: w.handed }

def wait (w : World ι κ β) (n : Nat) (i : ι) (k : κ) (seq ticket refusals held : Nat) : World ι κ β :=
  let c := w.coalescer
  let wakeAt := match c.seats i with
    | none => 0
    | some s =>
      match (c.state i k).filter fun p => p.seq = seq with
      | none => s.windowEnd
      | some p => min s.windowEnd (p.since + pushHoldWindowsMax * max knobs.windowMs 1)
  w.setPc n (.waiting seq ticket refusals held wakeAt)

def releaseBatch (now : Nat) (i : ι) : List κ → Coalescer ι κ β → List (κ × Pending β) × Coalescer ι κ β
  | [], c => ([], c)
  | k :: keys, c =>
    let c := c.prune now
    if c.relayRoom now = false then ([], c)
    else
      let c := c.force i
      match c.state i k with
      | none => releaseBatch now i keys c
      | some p =>
        let c := (((c.unqueue i k).setWindow i (now + knobs.windowMs)).noteSend now)
        let out := releaseBatch now i keys c
        ((k, p) :: out.1, out.2)

/-- The end of `release_seat`. -/
def released (w : World ι κ β) (n : Nat) (i : ι) (k : κ) (seq ticket refusals : Nat) (mine : Option Answer) : World ι κ β :=
  let w := { w with coalescer := w.coalescer.tidy i knobs w.clock }
  match mine with
  | some a => w.setPc n (.returned a)
  | none => w.wait knobs n i k seq ticket refusals 0

def releaseNext (w : World ι κ β) (n : Nat) (i : ι) (k : κ) (seq ticket refusals : Nat) (mine : Option Answer) :
    List (κ × Pending β) → World ι κ β
  | [] => w.released knobs n i k seq ticket refusals mine
  | e :: rest => (w.hand e.2.call).setPc n (.releasing seq ticket refusals e rest mine)

def releaseSeat (w : World ι κ β) (n : Nat) (i : ι) (k : κ) (seq ticket refusals : Nat) : World ι κ β :=
  let keys := ((w.coalescer.pending.filter fun e => decide (e.1.1 = i)).map fun e => e.1.2).insertionSort (· ≤ ·)
  let out := releaseBatch knobs w.clock i keys w.coalescer
  { w with coalescer := out.2 }.releaseNext knobs n i k seq ticket refusals none out.1

def queue (w : World ι κ β) (n : Nat) (i : ι) (k : κ) (messageId : Option String) (body : β) (refusals : Nat) : World ι κ β :=
  let c := w.coalescer
  let seq := c.seq + 1
  let fresh := c.ticket + 1
  let old := c.state i k
  let ticket := old.elim fresh Pending.ticket
  let newKind := old.isNone && c.pending.any fun e => decide (e.1.1 = i) && e.2.held
  let p : Pending β := ⟨seq, ticket, old.elim w.clock Pending.since, old.any Pending.held, body, messageId, n⟩
  let windowEnd := if old.isNone ∧ (c.seat i).windowEnd ≤ w.clock then w.clock + max knobs.windowMs 1 else (c.seat i).windowEnd
  let c := ({ c with seq := seq, ticket := fresh }.insert i k p).setWindow i windowEnd
  let w := { w with coalescer := c }
  if newKind then w.releaseSeat knobs n i k seq ticket refusals else w.wait knobs n i k seq ticket refusals 0

/-- `submit`, up to its first await. -/
def submit (w : World ι κ β) (i : ι) (messageId : Option String) (body : β) : World ι κ β :=
  let n := w.calls.length
  match coalesceKey body with
  | none =>
    let call : Call ι κ β := ⟨i, none, messageId, body, .passing⟩
    { w with coalescer := w.coalescer.noteSend w.clock, calls := w.calls ++ [call] }.hand n
  | some k =>
    let c := w.coalescer
    -- A seat that is not there holds no state.
    let quiet := ((c.seats i).all fun s => decide (s.windowEnd ≤ w.clock)) && (c.state i k).isNone
    let call : Call ι κ β := ⟨i, some k, messageId, body, .passing⟩
    let w := { w with calls := w.calls ++ [call] }
    if quiet = false then w.queue knobs n i k messageId body 0
    else
      match c.take i none none knobs w.clock with
      | (c, true) => ({ w with coalescer := (c.setWindow i (w.clock + knobs.windowMs)).noteSend w.clock }.hand n).setPc n .leading
      | (c, false) => { w with coalescer := c }.queue knobs n i k messageId body 0

def wakeUp (w : World ι κ β) (n : Nat) (i : ι) (k : κ) (seq ticket refusals held : Nat) : World ι κ β :=
  let c := w.coalescer
  match (c.state i k).filter fun p => p.seq = seq with
  | none => { w with coalescer := c.tidy i knobs w.clock }.setPc n (.returned .sent)
  | some p =>
    let send := fun c : Coalescer ι κ β =>
      ({ w with coalescer := (((c.setWindow i (w.clock + knobs.windowMs)).unqueue i k).noteSend w.clock) }.hand p.call).setPc n
        (.sending seq ticket refusals held p)
    match c.take i (some k) (some ticket) knobs w.clock with
    | (c, true) => send c
    | (c, false) =>
      if c.heldPastBar i k knobs w.clock && (c.relayRoom w.clock || decide (pushHoldWindowsRelayFull ≤ held)) then send (c.force i)
      else
        { w with coalescer := (c.setWindow i (w.clock + max knobs.windowMs 1)).hold i k }.wait knobs n i k seq ticket refusals (held + 1)

def refused (w : World ι κ β) (n : Nat) (i : ι) (k : κ) (seq ticket refusals held : Nat) (p : Pending β) : World ι κ β :=
  let refusals := refusals + 1
  if pushBudgetRetryWindows < refusals then w.setPc n (.returned .budgetRefused)
  else if (w.coalescer.state i k).isSome then w.setPc n (.returned .sent)
  else
    { w with
      coalescer := (w.coalescer.insert i k { p with seq := seq }).setWindow i (w.clock + max knobs.windowMs 1) }.wait knobs n i k seq
        ticket refusals held

def putBack (w : World ι κ β) (i : ι) (e : κ × Pending β) : World ι κ β :=
  if (w.coalescer.state i e.1).isSome then w
  else { w with coalescer := (w.coalescer.setSeat i (w.coalescer.seat i)).insert i e.1 e.2 }

/-- The relay answered the send of call `n`'s body. -/
def settle (w : World ι κ β) (n : Nat) (a : Answer) : World ι κ β :=
  if a = .budgetRefused then { w with turnedDown := n :: w.turnedDown } else { w with accepted := n :: w.accepted }

/-- The relay's answer to the send call `n` waits on. -/
def answer (w : World ι κ β) (n : Nat) (a : Answer) : World ι κ β :=
  match w.calls[n]? with
  | none => w
  | some call =>
    match call.key, call.pc with
    | none, .passing => (w.settle n a).setPc n (.returned a)
    | some k, .leading =>
      if a = .budgetRefused then (w.settle n a).queue knobs n call.identity k call.messageId call.body 1
      else (w.settle n a).setPc n (.returned a)
    | some k, .sending seq ticket refusals held p =>
      if a = .budgetRefused then (w.settle p.call a).refused knobs n call.identity k seq ticket refusals held p
      else ({ w with coalescer := w.coalescer.tidy call.identity knobs w.clock }.settle p.call a).setPc n (.returned a)
    | some k, .releasing seq ticket refusals e rest mine =>
      if a = .budgetRefused then ((w.settle e.2.call a).putBack call.identity e).releaseNext knobs n call.identity k seq ticket refusals mine rest
      else
        let mine := if e.1 = k ∧ e.2.seq = seq then some a else mine
        (w.settle e.2.call a).releaseNext knobs n call.identity k seq ticket refusals mine rest
    | _, _ => w

def step (w : World ι κ β) : Move ι β → World ι κ β
  | .submit i messageId body => w.submit coalesceKey knobs i messageId body
  | .answer n a => w.answer knobs n a
  | .wake n =>
    match w.calls[n]? with
    | none => w
    | some call =>
      match call.key, call.pc with
      | some k, .waiting seq ticket refusals held wakeAt =>
        if wakeAt ≤ w.clock then w.wakeUp knobs n call.identity k seq ticket refusals held else w
      | _, _ => w
  | .tick ms => { w with clock := w.clock + ms }

def run (w : World ι κ β) (moves : List (Move ι β)) : World ι κ β := moves.foldl (step coalesceKey knobs) w

end World

end

end OverlayEngine.PushCoalesce
