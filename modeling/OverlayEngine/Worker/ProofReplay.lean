import Mathlib.Algebra.GroupWithZero.Nat
import Mathlib.Data.List.Sort
import Mathlib.Data.List.Forall2

/-!
# The showdown's replay

A proof bundle carries the signed transcript of one hand: the seats' blind
scalar commitments, the final deck, the discard masks, the reveals and the
released keys. `replay` re-derives the winner's five cards from it, and the
loser's when its half is carried, and refuses on any discrepancy.

Taken from outside: the JSON reader, the envelopes' wire form and signature,
the deck's and the commitments' checks, the unmasking and the committed discard
exchange. An index past the end of a list is an answer of its own.
-/

namespace OverlayEngine.ProofReplay

abbrev Bytes := List UInt8

/-! ## JSON values -/

inductive Number where
  | posInt (n : UInt64)
  | negInt (n : Int64)
  | float (bits : UInt64)

inductive Value where
  | null
  | bool (b : Bool)
  | number (n : Number)
  | string (s : List Char)
  | array (l : List Value)
  | object (l : List (String × Value))

namespace Value

def get (v : Value) (key : String) : Option Value :=
  match v with
  | .object l => l.lookup key
  | _ => none

def asStr : Value → Option (List Char)
  | .string s => some s
  | _ => none

def asU64 : Value → Option Nat
  | .number (.posInt n) => some n.toNat
  | _ => none

def asArray : Value → Option (List Value)
  | .array l => some l
  | _ => none

def asObject : Value → Option (List (String × Value))
  | .object l => some l
  | _ => none

def isNull : Value → Bool
  | .null => true
  | _ => false

def carries (v : Value) (key : String) : Bool := (v.get key).any fun found => !found.isNull

end Value

/-! ## Hex -/

def hexDigit (c : Char) : Option Nat :=
  if '0' ≤ c ∧ c ≤ '9' then some (c.toNat - '0'.toNat)
  else if 'a' ≤ c ∧ c ≤ 'f' then some (c.toNat - 'a'.toNat + 10)
  else if 'A' ≤ c ∧ c ≤ 'F' then some (c.toNat - 'A'.toNat + 10)
  else none

/-- `hex::decode`. -/
def hexDecode : List Char → Option Bytes
  | [] => some []
  | [_] => none
  | hi :: lo :: rest => do
    let h ← hexDigit hi
    let l ← hexDigit lo
    let tail ← hexDecode rest
    return UInt8.ofNat (16 * h + l) :: tail

/-- `try_into` of a slice to an array of `n`. -/
def sized {α : Type} (n : Nat) (l : List α) : Option (List α) := if l.length = n then some l else none

def lowerHex (c : Char) : Bool := ('0' ≤ c ∧ c ≤ '9') || ('a' ≤ c ∧ c ≤ 'f')

/-- `str::len`. -/
def byteLen (s : List Char) : Nat := (s.map Char.utf8Size).sum

def h32Lc (s : List Char) : Option Bytes := if byteLen s ≠ 64 ∨ !s.all lowerHex then none else (hexDecode s).bind (sized 32)

def h33 (s : List Char) : Option Bytes := if byteLen s ≠ 66 then none else (hexDecode s).bind (sized 33)

def toAsciiLowercase (s : List Char) : List Char := s.map Char.toLower

def seatKey (v : Value) : Option Bytes := do
  let s ← v.asStr
  if byteLen s ≠ 66 then none
  else if !(['0', '2'].isPrefixOf (toAsciiLowercase s) || ['0', '3'].isPrefixOf (toAsciiLowercase s)) then none
  else h33 (toAsciiLowercase s)

/-! ## Cards -/

def cardOf (v : Value) : Option UInt8 := v.asU64.bind fun n => if 51 < n then none else some (UInt8.ofNat n)

def cardList (v : Value) : Option (List UInt8) := v.asArray.bind fun l => l.mapM cardOf

def validCards (cards : List UInt8) : Bool := cards.length == 5 && cards.all (· ≤ 51) && cards.dedup.length == 5

def canonical (cards : List UInt8) : Option (List UInt8) :=
  if validCards cards then sized 5 (cards.insertionSort (· ≤ ·)) else none

/-! ## Seats -/

inductive Seat where
  | a
  | b
  deriving DecidableEq

namespace Seat

def index : Seat → Nat
  | a => 0
  | b => 1

def peer : Seat → Seat
  | a => b
  | b => a

def of {α : Type} (s : Seat) (pair : α × α) : α :=
  match s with
  | a => pair.1
  | b => pair.2

end Seat

def dealPositions (seat : Seat) : List Nat := [seat.index, 2 + seat.index, 4 + seat.index, 6 + seat.index, 8 + seat.index]

/-! ## Answers -/

inductive Answer (α : Type) where
  | found (a : α)
  | refused
  | outOfRange
  deriving DecidableEq

namespace Answer

def bind {α β : Type} (x : Answer α) (f : α → Answer β) : Answer β :=
  match x with
  | found a => f a
  | refused => refused
  | outOfRange => outOfRange

instance : Monad Answer where
  pure := found
  bind := bind

/-- The `?` of an `Option`. -/
def of {α : Type} : Option α → Answer α
  | some a => found a
  | none => refused

def require (b : Bool) : Answer Unit := if b then found () else refused

/-- `l[i]`. -/
def index {α : Type} (l : List α) (i : Nat) : Answer α :=
  match l[i]? with
  | some a => found a
  | none => outOfRange

/-- `l[start..stop]`. -/
def slice {α : Type} (l : List α) (start stop : Nat) : Answer (List α) :=
  if start ≤ stop ∧ stop ≤ l.length then found ((l.take stop).drop start) else outOfRange

end Answer

/-! ## Envelopes -/

structure Fields where
  networkId : Nat
  moduleId : String
  contractId : Bytes
  protocolVersion : Nat
  seatPubkey : Bytes
  sequenceNo : Nat
  priorTranscriptHash : Bytes
  messageKind : String
  body : Bytes

structure Envelope where
  fields : Fields
  signature : Bytes

structure VerifyContext where
  networkId : Nat
  moduleId : String
  contractId : Bytes
  protocolVersion : Nat
  seats : List Bytes
  expectedSeq : Nat
  transcriptHead : Bytes

structure Wire where
  /-- `from_utf8`, then `serde_json::from_str`. -/
  parseJson : Bytes → Option Value
  envelopeFromWire : Bytes → Option Envelope
  verifyEnvelope : Envelope → VerifyContext → Bool
  validateDeck : List Bytes → Bool
  verifyScalarCommitment : Bytes → Bytes → Seat → Nat → Bytes → Bool
  unmask : Bytes → Bytes → Bytes → Option UInt8
  exchangePositions : UInt8 → UInt8 → Option (List Nat × List Nat)
  verifyDiscardReveal : Bytes → UInt8 → Bytes → Bytes → Bytes → Bool

variable (w : Wire)

def contextOf (f : Fields) : VerifyContext where
  networkId := f.networkId
  moduleId := f.moduleId
  contractId := f.contractId
  protocolVersion := f.protocolVersion
  seats := [f.seatPubkey]
  expectedSeq := f.sequenceNo
  transcriptHead := f.priorTranscriptHash

def wireEnvelope (wire : Option Value) : Option Envelope := do
  let v ← wire
  let s ← v.asStr
  if s.isEmpty then none
  else
    let bytes ← hexDecode s
    w.envelopeFromWire bytes

/-- `verified_envelope`: verified under its own context, then bound to the game, the seat and the kinds allowed. -/
def verifiedEnvelope (wire : Option Value) (gameId wantSeat : Bytes) (allowedKinds : List String) : Option Fields := do
  let env ← wireEnvelope w wire
  if !w.verifyEnvelope env (contextOf env.fields) then none
  else if env.fields.contractId ≠ gameId then none
  else if env.fields.seatPubkey ≠ wantSeat then none
  else if env.fields.messageKind ∉ allowedKinds then none
  else some env.fields

def parseHex32Array (body : Bytes) (n max : Option Nat) : Option (List Bytes) := do
  let v ← w.parseJson body
  let l ← v.asArray
  if n.any (l.length ≠ ·) then none
  else if max.any (· < l.length) then none
  else l.mapM fun e => e.asStr.bind h32Lc

structure RevealView where
  hand : List UInt8
  scalars : List Bytes

def parseReveal (body : Bytes) : Option RevealView := do
  let v ← w.parseJson body
  let nonce ← v.get "nonce"
  let _ ← nonce.asStr
  let hand ← (v.get "hand").bind cardList
  let scalars ← (v.get "scalars").bind Value.asArray
  let scalars ← scalars.mapM fun e => e.asStr.bind h32Lc
  let hand ← sized 5 hand
  let scalars ← sized 5 scalars
  return { hand := hand, scalars := scalars }

structure ReleasedKeys where
  deal : Option (List Bytes) := none
  draw : Option (List Bytes) := none

def releaseStep (gameId seat : Bytes) (keys : ReleasedKeys) (wire : Value) : Option ReleasedKeys := do
  let kv ← verifiedEnvelope w (some wire) gameId seat ["deal_keys", "draw_keys"]
  if kv.messageKind = "deal_keys" then
    if keys.deal.isSome then none
    else
      let scalars ← parseHex32Array w kv.body (some 5) none
      return { keys with deal := some scalars }
  else if keys.draw.isSome then none
  else
    let scalars ← parseHex32Array w kv.body none (some 5)
    return { keys with draw := some scalars }

def parseReleasedKeys (wires : Option Value) (gameId seat : Bytes) : Option (List Bytes × Option (List Bytes)) := do
  let v ← wires
  let l ← v.asArray
  if l.isEmpty ∨ 2 < l.length then none
  else
    let keys ← l.foldlM (releaseStep w gameId seat) {}
    let deal ← keys.deal
    return (deal, keys.draw)

/-! ## One seat's hand -/

structure Transcript where
  gameId : Bytes
  seats : Bytes × Bytes
  commits : List Bytes × List Bytes
  d4 : List Bytes

def seatOrder (ownSeat : Seat) (sOwn sPeer : Bytes) : Bytes × Bytes := ownSeat.of ((sOwn, sPeer), (sPeer, sOwn))

def peerScalar (ownSeat : Seat) (dealScalars : List Bytes) (drawScalars : Option (List Bytes)) (ownDraw : List Nat) (p : Nat) :
    Answer Bytes :=
  if p < 10 then do
    let k ← Answer.of ((dealPositions ownSeat).findIdx? (· == p))
    Answer.index dealScalars k
  else do
    let k ← Answer.of (ownDraw.findIdx? (· == p))
    let draw ← Answer.of drawScalars
    Answer.index draw k

def slotOrdinal (t : Transcript) (ownSeat : Seat) (reveal : RevealView) (dealScalars : List Bytes) (drawScalars : Option (List Bytes))
    (ownDraw : List Nat) (i p : Nat) : Answer UInt8 := do
  Answer.require (p < t.d4.length)
  let sOwn ← Answer.index reveal.scalars i
  let sPeer ← peerScalar ownSeat dealScalars drawScalars ownDraw p
  let ownCommit ← Answer.index (ownSeat.of t.commits) p
  Answer.require (w.verifyScalarCommitment ownCommit t.gameId ownSeat p sOwn)
  let peerCommit ← Answer.index (ownSeat.peer.of t.commits) p
  Answer.require (w.verifyScalarCommitment peerCommit t.gameId ownSeat.peer p sPeer)
  let point ← Answer.index t.d4 p
  let ordinal ← Answer.of (w.unmask point (seatOrder ownSeat sOwn sPeer).1 (seatOrder ownSeat sOwn sPeer).2)
  let claimed ← Answer.index reveal.hand i
  Answer.require (ordinal == claimed)
  return ordinal

def ordinalsFrom (slot : Nat → Nat → Answer UInt8) : Nat → List Nat → Answer (List UInt8)
  | _, [] => return []
  | i, p :: rest => do
    let ordinal ← slot i p
    let tail ← ordinalsFrom slot (i + 1) rest
    return ordinal :: tail

/-- `derive_seat_hand`: the seat's own reveal and the peer's released scalars. -/
def deriveSeatHand (t : Transcript) (ownSeat : Seat) (revealWire peerKeysWire : Option Value) (ownPositions : List Nat) :
    Answer (List UInt8 × List Bytes) := do
  let revealEnv ← Answer.of (verifiedEnvelope w revealWire t.gameId (ownSeat.of t.seats) ["reveal_hand"])
  let reveal ← Answer.of (parseReveal w revealEnv.body)
  let released ← Answer.of (parseReleasedKeys w peerKeysWire t.gameId (ownSeat.peer.of t.seats))
  let ownDraw := ownPositions.filter (10 ≤ ·)
  Answer.require (ownDraw.isEmpty || released.2.any fun d => d.length == ownDraw.length)
  let ordinals ← ordinalsFrom (slotOrdinal w t ownSeat reveal released.1 released.2 ownDraw) 0 ownPositions
  Answer.require (validCards ordinals)
  return (ordinals, released.1)

/-! ## The replay -/

structure ProvedHands where
  winnerSeat : Seat
  seats : Bytes × Bytes
  winnerCards : List UInt8
  loserCards : Option (List UInt8)
  deriving DecidableEq

def maskKeys : List String := ["maskCommitA", "maskRevealA", "maskCommitB", "maskRevealB"]

def readMask (env : Value) (gameId seat : Bytes) (commitKey revealKey : String) : Answer UInt8 := do
  let commitEnv ← Answer.of (verifiedEnvelope w (env.get commitKey) gameId seat ["commit_discard"])
  let revealEnv ← Answer.of (verifiedEnvelope w (env.get revealKey) gameId seat ["reveal_discard"])
  let commitment ← Answer.of (sized 32 commitEnv.body)
  Answer.require (revealEnv.body.length == 33)
  let mask ← Answer.index revealEnv.body 0
  let nonce ← Answer.slice revealEnv.body 1 33
  let nonce ← Answer.of (sized 32 nonce)
  let playerId ← Answer.slice seat 1 33
  let playerId ← Answer.of (sized 32 playerId)
  Answer.require (w.verifyDiscardReveal commitment mask nonce playerId gameId)
  return mask

def finalPositions (env : Value) (gameId : Bytes) (seats : Bytes × Bytes) : Answer (List Nat × List Nat) := do
  Answer.require ((maskKeys.filter env.carries).length == 0 || (maskKeys.filter env.carries).length == maskKeys.length)
  if (maskKeys.filter env.carries).length = maskKeys.length then do
    let maskA ← readMask w env gameId seats.1 "maskCommitA" "maskRevealA"
    let maskB ← readMask w env gameId seats.2 "maskCommitB" "maskRevealB"
    Answer.of (w.exchangePositions maskA maskB)
  else return (dealPositions .a, dealPositions .b)

/-- `str::parse` of a position; a number past the word is no deal position either. -/
def parseUsize (key : String) : Option Nat :=
  let digits := if key.toList.head? = some '+' then key.toList.tail else key.toList
  if digits.isEmpty || !digits.all Char.isDigit then none
  else some (digits.foldl (fun n c => 10 * n + (c.toNat - '0'.toNat)) 0)

def checkDiscard (t : Transcript) (winner : Seat) (positions : List Nat) (loserDeal : List Bytes) (entry : String × Value) : Answer Unit :=
  match parseUsize entry.1 with
  | none => return ()
  | some p =>
    if !((dealPositions winner).contains p && !positions.contains p) then return ()
    else do
      let text ← Answer.of entry.2.asStr
      let scalar ← Answer.of (h32Lc text)
      Answer.require (p < t.d4.length)
      let k ← Answer.of ((dealPositions winner).findIdx? (· == p))
      let sLoser ← Answer.index loserDeal k
      let ownCommit ← Answer.index (winner.of t.commits) p
      Answer.require (w.verifyScalarCommitment ownCommit t.gameId winner p scalar)
      let peerCommit ← Answer.index (winner.peer.of t.commits) p
      Answer.require (w.verifyScalarCommitment peerCommit t.gameId winner.peer p sLoser)
      let point ← Answer.index t.d4 p
      let ordinal ← Answer.of (w.unmask point (seatOrder winner scalar sLoser).1 (seatOrder winner scalar sLoser).2)
      Answer.require (ordinal ≤ 51)

def checkDiscards (t : Transcript) (winner : Seat) (positions : List Nat) (loserDeal : List Bytes) : List (String × Value) → Answer Unit
  | [] => return ()
  | entry :: rest => do
    checkDiscard w t winner positions loserDeal entry
    checkDiscards t winner positions loserDeal rest

def discardEntries (b : Value) : Answer (List (String × Value)) :=
  if b.carries "discards" then Answer.of ((b.get "discards").bind Value.asObject) else return []

structure Head where
  winnerSeat : Seat
  seats : Bytes × Bytes
  cards : List UInt8
  env : Value

def winnerIndex : Nat → Option Seat
  | 0 => some .a
  | 1 => some .b
  | _ => none

def pairOf {α : Type} : List α → Option (α × α)
  | [x, y] => some (x, y)
  | _ => none

def readHead (b : Value) (expectGameId expectWinner : Bytes) : Option Head := do
  let v ← (b.get "v").bind Value.asU64
  if v ≠ 1 then none
  else
    let gameText ← (b.get "gameId").bind Value.asStr
    let gameId ← h32Lc (toAsciiLowercase gameText)
    if gameId ≠ expectGameId then none
    else
      let winner ← (b.get "winner").bind seatKey
      if winner ≠ expectWinner then none
      else
        let winnerSeat ← ((b.get "winnerSeat").bind Value.asU64).bind winnerIndex
        let rawSeats ← (b.get "seats").bind Value.asArray
        let pair ← pairOf rawSeats
        let seatA ← seatKey pair.1
        let seatB ← seatKey pair.2
        if seatA = seatB then none
        else
          let cards ← ((b.get "cards").bind cardList).bind canonical
          let env ← b.get "envelopes"
          let _ ← env.asObject
          return { winnerSeat := winnerSeat, seats := (seatA, seatB), cards := cards, env := env }

def readTranscript (gameId : Bytes) (seats : Bytes × Bytes) (env : Value) : Option Transcript := do
  let commitA ← verifiedEnvelope w (env.get "scalarCommitA") gameId seats.1 ["scalar_commit"]
  let commitB ← verifiedEnvelope w (env.get "scalarCommitB") gameId seats.2 ["scalar_commit"]
  let scalarsA ← parseHex32Array w commitA.body (some 52) none
  let scalarsB ← parseHex32Array w commitB.body (some 52) none
  let remask ← verifiedEnvelope w (env.get "finalRemask") gameId seats.2 ["remask_pass"]
  let deck ← w.parseJson remask.body
  let points ← deck.asArray
  let d4 ← points.mapM fun e => e.asStr.bind h33
  if !w.validateDeck d4 then none
  else return { gameId := gameId, seats := seats, commits := (scalarsA, scalarsB), d4 := d4 }

def loserHand (t : Transcript) (loser : Seat) (env : Value) (positions : List Nat) (derived : List UInt8) : Answer (Option (List UInt8)) :=
  if env.carries "loserReveal" then do
    let hand ← deriveSeatHand w t loser (env.get "loserReveal") (env.get "winnerKeys") positions
    let cards ← Answer.of (canonical hand.1)
    Answer.require (!cards.any derived.contains)
    return some cards
  else return none

def replay (b : Value) (expectGameId expectWinner : Bytes) : Answer ProvedHands := do
  let head ← Answer.of (readHead b expectGameId expectWinner)
  let t ← Answer.of (readTranscript w expectGameId head.seats head.env)
  let positions ← finalPositions w head.env expectGameId head.seats
  let winner := head.winnerSeat
  let hand ← deriveSeatHand w t winner (head.env.get "winnerReveal") (head.env.get "loserKeys") (winner.of positions)
  let derived ← Answer.of (canonical hand.1)
  Answer.require (derived == head.cards)
  let entries ← discardEntries b
  checkDiscards w t winner (winner.of positions) hand.2 entries
  let loserCards ← loserHand w t winner.peer head.env (winner.peer.of positions) derived
  return { winnerSeat := winner, seats := head.seats, winnerCards := derived, loserCards := loserCards }

end OverlayEngine.ProofReplay
