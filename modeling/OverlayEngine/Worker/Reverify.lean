import OverlayEngine.Basis.CasRow
import OverlayEngine.Basis.Traced
import OverlayEngine.Worker.ArcadeReorg

/-!
# One pass over the confirmed rows of a window

Each row of the page is judged on its spender's stored bump: the header source
holds it, refutes it or does not answer; a row without one is demoted blind or
asked of the couriers. Other writers move rows and bumps between any two of the
pass's statements.
-/

namespace OverlayEngine.Reverify

open ReorgLegs (RowKey)
open ArcadeReorg (eqIgnoreAsciiCase)
open CasRow (Fate)
open Traced (emit)

/-! ## Proofs and the stores -/

/-- What the transaction library reads of a stored BEEF (`β`) and of a merkle path (`μ`). -/
structure Bsv (β μ : Type) where
  ownBump : β → String → Option μ
  toHex : μ → String
  proofFromHex : String → Option μ
  blockHeight : μ → Nat
  computeRoot : μ → String → Option String
  hasProof : String → β → Bool
  stitchAndTrim : String → β → String → Option β

structure BumpAnchor where
  height : Nat
  root : String
  deriving DecidableEq

def lowercase (s : String) : String := String.ofList (s.toList.map Char.toLower)

def pushProofMaxBytes : Nat := (8 * 1024 - 2) / 2

namespace Bsv

variable {β μ : Type} (x : Bsv β μ)

def merklePathFromHex (hex : String) (maxBytes : Nat) : Option μ := if hex.utf8ByteSize > maxBytes * 2 then none else x.proofFromHex hex

def anchor (path : μ) (txid : String) : Option BumpAnchor :=
  (x.computeRoot path txid).map fun root => { height := x.blockHeight path, root := lowercase root }

def storedBumpAnchor (bytes : β) (txid : String) : Option BumpAnchor := (x.ownBump bytes txid).bind fun path => x.anchor path txid

def storedBumpHex (bytes : β) (txid : String) : Option String := (x.ownBump bytes txid).map x.toHex

def pushedAnchor (hex txid : String) : Option BumpAnchor := (x.proofFromHex hex).bind fun path => x.anchor path txid

end Bsv

structure PotRecord where
  txid : String
  outputIndex : Nat
  spent : Bool := true
  spendingTxid : Option String := none
  spentConfirmed : Bool := false
  spentHeight : Option Nat := none
  deriving DecidableEq

structure PotBeef (β : Type) where
  txid : String
  beef : Option β
  proofVerified : Bool := false
  deriving DecidableEq

structure World (β : Type) where
  records : List PotRecord := []
  beefs : List (PotBeef β) := []
  deriving DecidableEq

namespace World

variable {β : Type}

def getBeef (txid : String) (w : World β) : Option β := (w.beefs.find? fun b => b.txid == txid).bind PotBeef.beef

def potBeefProofVerified (txid : String) (w : World β) : Bool := (w.beefs.find? fun b => b.txid == txid).any PotBeef.proofVerified

def findBySpendingTxid (txid : String) (confirmed : Bool) (w : World β) : List PotRecord :=
  w.records.filter fun r => r.spendingTxid == some txid && r.spent && r.spentConfirmed == confirmed

/-- A guarded `UPDATE … RETURNING txid`: the rows the guard hits, and whether it hit one. -/
def update (guard : PotRecord → Bool) (set : PotRecord → PotRecord) (w : World β) : World β × Bool :=
  ({ w with records := w.records.map fun r => if guard r then set r else r }, w.records.any guard)

def names (txid : String) (outputIndex : Nat) (spender : String) (r : PotRecord) : Bool :=
  r.txid == txid && r.outputIndex == outputIndex && r.spendingTxid == some spender

def demoteConfirmedAt (txid : String) (outputIndex : Nat) (spender : String) (judged : Option Nat) : World β → World β × Bool :=
  update (fun r => names txid outputIndex spender r && r.spentConfirmed && r.spentHeight == judged)
    fun r => { r with spentConfirmed := false, spentHeight := none }

def reanchorConfirmed (txid : String) (outputIndex : Nat) (spender : String) (height : Nat) : World β → World β × Bool :=
  update (fun r => names txid outputIndex spender r && r.spentConfirmed) fun r => { r with spentHeight := some height }

def markConfirmed (txid : String) (outputIndex : Nat) (spender : String) (height : Option Nat) : World β → World β × Bool :=
  update (names txid outputIndex spender) fun r => { r with spent := true, spentConfirmed := true, spentHeight := height.or r.spentHeight }

def unlatch (txid : String) (w : World β) : World β :=
  { w with beefs := w.beefs.map fun b => if b.txid == txid then { b with proofVerified := false } else b }

/-- `INSERT OR REPLACE`, latched. -/
def writeVerified (txid : String) (beef : β) (w : World β) : World β :=
  { w with beefs := { txid, beef := some beef, proofVerified := true } :: w.beefs.filter fun b => b.txid != txid }

end World

/-! ## The pass's surroundings and its trace -/

structure Outside (β : Type) where
  env : Nat → World β → World β := fun _ w => w
  fault : Nat → Bool := fun _ => false
  fate : Nat → Fate := fun _ => .ran

abbrev Tracker := Nat → Nat → String → Option Bool

structure Courier where
  budgetRemaining : Nat → Option Nat := fun _ => none
  verifiedProof : Nat → (exhaustive : Bool) → String → Option (Option String)

structure RootMemo where
  verdicts : List ((Nat × String) × Bool) := []
  canonical : List (Nat × String) := []

structure St (β : Type) where
  clock : Nat := 0
  world : World β := {}
  memo : RootMemo := {}

inductive Event (β : Type) where
  | judging (rec : PotRecord)
  | read (txid : String) (beef : Option β)
  | answered (height : Nat) (root : String) (v : Bool)
  | headerFault
  | asked (exhaustive : Bool) (txid : String) (budget : Option Nat) (served : Option String)
  | courierFault
  | wrote (before after : World β)
  deriving DecidableEq

abbrev Pass (β : Type) := Traced (St β) (Event β)

variable {β μ α : Type}

def St.turn (o : Outside β) (s : St β) : St β := { s with clock := s.clock + 1, world := o.env s.clock s.world }

def readStore (o : Outside β) (f : World β → α) : Pass β (Option α) := fun (s, t) =>
  (if o.fault s.clock then none else some (f (s.turn o).world), s.turn o, t)

def writeStore (o : Outside β) (f : World β → World β × α) : Pass β (Option α) := fun (s, t) =>
  let w := (s.turn o).world
  match o.fate s.clock with
  | .ran => (some (f w).2, { s.turn o with world := (f w).1 }, .wrote w (f w).1 :: t)
  | .lost => (none, s.turn o, t)
  | .landed => (none, { s.turn o with world := (f w).1 }, .wrote w (f w).1 :: t)

def getBeef (o : Outside β) (txid : String) : Pass β (Option (Option β)) := do
  match ← readStore o (World.getBeef txid) with
  | none => pure none
  | some beef => do
    emit (.read txid beef)
    pure (some beef)

def compactPotBeef (x : Bsv β μ) (o : Outside β) (txid : String) (beef : β) : Pass β (Option Unit) :=
  if x.hasProof txid beef then writeStore o fun w => (w.writeVerified txid beef, ()) else pure (some ())

def askHeader (tracker : Tracker) (height : Nat) (root : String) : Pass β (Option Bool) := fun (s, t) =>
  match tracker s.clock height root with
  | none => (none, { s with clock := s.clock + 1 }, .headerFault :: t)
  | some v =>
    (some v, { s with clock := s.clock + 1, memo := { s.memo with verdicts := ((height, root), v) :: s.memo.verdicts } },
      .answered height root v :: t)

def getMemo : Pass β RootMemo := fun (s, t) => (s.memo, s, t)

def verifyBumpMemoized (x : Bsv β μ) (tracker : Tracker) (hex txid : String) : Pass β (Option Bool) :=
  match x.proofFromHex hex with
  | none => pure (some false)
  | some bump =>
    match x.computeRoot bump txid with
    | none => pure (some false)
    | some root => do
      let memo ← getMemo
      match memo.canonical.lookup (x.blockHeight bump) with
      | some canonical => pure (some (eqIgnoreAsciiCase canonical root))
      | none =>
        match memo.verdicts.lookup (x.blockHeight bump, root) with
        | some v => pure (some v)
        | none => askHeader tracker (x.blockHeight bump) root

def askLadder (c : Courier) (exhaustive : Bool) (txid : String) : Pass β (Option (Option String)) := fun (s, t) =>
  match c.verifiedProof s.clock exhaustive txid with
  | none => (none, { s with clock := s.clock + 1 }, .courierFault :: t)
  | some served => (some served, { s with clock := s.clock + 1 }, .asked exhaustive txid (c.budgetRemaining s.clock) served :: t)

def budgetSpent (courier : Option Courier) : Pass β Bool := fun (s, t) => (courier.any fun c => c.budgetRemaining s.clock == some 0, s, t)

/-! ## A pushed proof -/

structure PushedPotSummary where
  potBeefCompacted : Bool := false
  spendsConfirmed : Nat := 0
  spendsCasMissed : Nat := 0
  spendsCasErrors : Nat := 0
  spendsReanchored : Nat := 0
  potBeefReanchored : Bool := false

def PushedPotSummary.landedAnything (s : PushedPotSummary) : Bool :=
  s.potBeefCompacted || s.spendsConfirmed > 0 || s.spendsReanchored > 0 || s.potBeefReanchored

def isReanchor (stored : Option BumpAnchor) (pushed : BumpAnchor) : Bool :=
  stored.any fun s => s.height != pushed.height || !eqIgnoreAsciiCase s.root pushed.root

def stitchPushed (x : Bsv β μ) (o : Outside β) (txid hex : String) (alreadyVerified : Bool) (pushed : BumpAnchor) : Pass β PushedPotSummary := do
  match ← getBeef o txid with
  | some (some stored) =>
    let reanchor := alreadyVerified && isReanchor (x.storedBumpAnchor stored txid) pushed
    if !alreadyVerified || reanchor then
      match x.stitchAndTrim txid stored hex with
      | none => pure {}
      | some compacted => do
        match ← compactPotBeef x o txid compacted with
        | some _ => pure { potBeefCompacted := true, potBeefReanchored := reanchor }
        | none => pure {}
    else pure {}
  | _ => pure {}

def confirmSpend (o : Outside β) (txid : String) (height : Nat) (s : PushedPotSummary) (rec : PotRecord) : Pass β PushedPotSummary := do
  match ← writeStore o (World.markConfirmed rec.txid rec.outputIndex txid (some height)) with
  | some true => pure { s with spendsConfirmed := s.spendsConfirmed + 1 }
  | some false => pure { s with spendsCasMissed := s.spendsCasMissed + 1 }
  | none => pure { s with spendsCasErrors := s.spendsCasErrors + 1 }

def reanchorSpend (o : Outside β) (txid : String) (height : Nat) (s : PushedPotSummary) (rec : PotRecord) : Pass β PushedPotSummary :=
  -- a row holds only a height: the same one is the same anchor, and none is the confirm arm's to fill
  if rec.spentHeight = none ∨ rec.spentHeight = some height then pure s
  else do
    match ← writeStore o (World.reanchorConfirmed rec.txid rec.outputIndex txid height) with
    | some true => pure { s with spendsReanchored := s.spendsReanchored + 1 }
    | some false => pure { s with spendsCasMissed := s.spendsCasMissed + 1 }
    | none => pure { s with spendsCasErrors := s.spendsCasErrors + 1 }

def applyPushedProofToPotStores (x : Bsv β μ) (o : Outside β) (txid hex : String) : Pass β PushedPotSummary :=
  match (x.merklePathFromHex hex pushProofMaxBytes).bind fun path => x.anchor path txid with
  | none => pure {}
  | some pushed => do
    let verified ← readStore o (World.potBeefProofVerified txid)
    let s ← stitchPushed x o txid hex (verified.getD false) pushed
    let unconfirmed ← readStore o (World.findBySpendingTxid txid false)
    let s ← (unconfirmed.getD []).foldlM (confirmSpend o txid pushed.height) s
    let confirmed ← readStore o (World.findBySpendingTxid txid true)
    (confirmed.getD []).foldlM (reanchorSpend o txid pushed.height) s

/-! ## A row -/

structure ReverifyMode where
  demoteProofless : Bool := false
  reanchorFirst : Bool := false

structure ReverifyPassSummary where
  scanned : Nat := 0
  standing : Nat := 0
  stale : Nat := 0
  demotedBlind : Nat := 0
  noStoredProof : Nat := 0
  reanchored : Nat := 0
  reanchoredFromCourier : Nat := 0
  storedFromCourier : Nat := 0
  memoReads : Nat := 0
  budgetExhausted : Bool := false
  demoteMissed : Nat := 0
  stoodOnRecheck : Nat := 0
  faults : Nat := 0
  errors : Nat := 0
  exhausted : Bool := false
  nextCursor : Option RowKey := none

inductive LadderReanchor where
  | reanchored
  | noCanonicalProof
  | budgetExhausted
  | fault

def reanchorFromLadder (x : Bsv β μ) (o : Outside β) (c : Courier) (spender : String) : Pass β LadderReanchor := do
  if ← budgetSpent (some c) then pure .budgetExhausted
  else
    match ← askLadder c true spender with
    | none => pure .fault
    | some none => pure .noCanonicalProof
    | some (some hex) => do
      let applied ← applyPushedProofToPotStores x o spender hex
      if applied.landedAnything then pure .reanchored
      else
        -- the store may already hold the pushed anchor: another writer landed it
        match ← getBeef o spender with
        | none => pure .fault
        | some beef =>
          let stored := beef.bind fun bytes => x.storedBumpAnchor bytes spender
          if (x.pushedAnchor hex spender).isSome ∧ x.pushedAnchor hex spender = stored then pure .reanchored
          else pure .noCanonicalProof

inductive Recheck where
  | stands
  | stillRefuted
  | fault
  | error

def recheckStoredBump (x : Bsv β μ) (o : Outside β) (tracker : Tracker) (spender judged : String) : Pass β Recheck := do
  match ← getBeef o spender with
  | none => pure .error
  | some stored =>
    match stored.bind fun bytes => x.storedBumpHex bytes spender with
    | none => pure .stillRefuted
    | some now =>
      if now = judged then pure .stillRefuted
      else do
        match ← verifyBumpMemoized x tracker now spender with
        | some true => pure .stands
        | some false => pure .stillRefuted
        | none => pure .fault

def demoteStale (o : Outside β) (rec : PotRecord) (spender : String) (s : ReverifyPassSummary) : Pass β ReverifyPassSummary := do
  match ← writeStore o (World.demoteConfirmedAt rec.txid rec.outputIndex spender rec.spentHeight) with
  | some true => do
    match ← writeStore o fun w => (w.unlatch spender, ()) with
    | some _ => pure { s with stale := s.stale + 1 }
    | none => pure { s with stale := s.stale + 1, errors := s.errors + 1 }
  | some false => pure { s with demoteMissed := s.demoteMissed + 1 }
  | none => pure { s with errors := s.errors + 1 }

def demoteBlind (o : Outside β) (rec : PotRecord) (spender : String) (s : ReverifyPassSummary) : Pass β ReverifyPassSummary := do
  match ← writeStore o (World.demoteConfirmedAt rec.txid rec.outputIndex spender rec.spentHeight) with
  | some true => pure { s with demotedBlind := s.demotedBlind + 1 }
  | some false => pure { s with demoteMissed := s.demoteMissed + 1 }
  | none => pure { s with errors := s.errors + 1 }

def courierRecheck (x : Bsv β μ) (o : Outside β) (courier : Option Courier) (rec : PotRecord) (spender : String) (stored : Option β)
    (s : ReverifyPassSummary) : Pass β ReverifyPassSummary :=
  match courier with
  | none => pure { s with noStoredProof := s.noStoredProof + 1 }
  | some c => do
    match ← askLadder c false spender with
    | none => pure { s with faults := s.faults + 1 }
    | some none => pure { s with noStoredProof := s.noStoredProof + 1 }
    | some (some hex) =>
      match (x.proofFromHex hex).map x.blockHeight with
      | none => pure { s with noStoredProof := s.noStoredProof + 1 }
      | some h =>
        if rec.spentHeight = some h then
          match stored.bind fun bytes => x.stitchAndTrim spender bytes hex with
          | none => pure { s with noStoredProof := s.noStoredProof + 1 }
          | some compacted => do
            match ← compactPotBeef x o spender compacted with
            | some _ => pure { s with storedFromCourier := s.storedFromCourier + 1 }
            | none => pure { s with errors := s.errors + 1 }
        else demoteStale o rec spender s

inductive Judged where
  | next (s : ReverifyPassSummary)
  | stop (s : ReverifyPassSummary)

def judgeProofless (x : Bsv β μ) (o : Outside β) (courier : Option Courier) (mode : ReverifyMode) (rec : PotRecord) (spender : String)
    (stored : Option β) (s : ReverifyPassSummary) : Pass β Judged := do
  if mode.demoteProofless then
    let s ← demoteBlind o rec spender s
    pure (.next s)
  else
    if ← budgetSpent courier then pure (.stop s)
    else do
      let s ← courierRecheck x o courier rec spender stored s
      pure (.next s)

def judgeStanding (x : Bsv β μ) (o : Outside β) (rec : PotRecord) (spender : String) (stored : Option β) (s : ReverifyPassSummary) :
    Pass β ReverifyPassSummary :=
  let s := { s with standing := s.standing + 1 }
  match stored.bind fun bytes => x.storedBumpAnchor bytes spender with
  | none => pure s
  | some anchor =>
    if rec.spentHeight = some anchor.height then pure s
    else do
      match ← writeStore o (World.reanchorConfirmed rec.txid rec.outputIndex spender anchor.height) with
      | some true => pure { s with reanchored := s.reanchored + 1 }
      | some false => pure s
      | none => pure { s with errors := s.errors + 1 }

def recheckThenDemote (x : Bsv β μ) (o : Outside β) (tracker : Tracker) (rec : PotRecord) (spender judged : String) (s : ReverifyPassSummary) :
    Pass β ReverifyPassSummary := do
  match ← recheckStoredBump x o tracker spender judged with
  | .stands => pure { s with stoodOnRecheck := s.stoodOnRecheck + 1 }
  | .fault => pure { s with faults := s.faults + 1 }
  | .error => pure { s with errors := s.errors + 1 }
  | .stillRefuted => demoteStale o rec spender s

def reanchorFirst (x : Bsv β μ) (o : Outside β) (courier : Option Courier) (mode : ReverifyMode) (spender : String) : Pass β LadderReanchor :=
  match mode.reanchorFirst, courier with
  | true, some c => reanchorFromLadder x o c spender
  | _, _ => pure .noCanonicalProof

def judgeStale (x : Bsv β μ) (o : Outside β) (tracker : Tracker) (courier : Option Courier) (mode : ReverifyMode) (rec : PotRecord)
    (spender judged : String) (s : ReverifyPassSummary) : Pass β Judged := do
  match ← reanchorFirst x o courier mode spender with
  | .reanchored => pure (.next { s with reanchoredFromCourier := s.reanchoredFromCourier + 1 })
  | .budgetExhausted => pure (.stop s)
  | .fault => pure (.next { s with faults := s.faults + 1 })
  | .noCanonicalProof => do
    let s ← recheckThenDemote x o tracker rec spender judged s
    pure (.next s)

def judgeRow (x : Bsv β μ) (o : Outside β) (tracker : Tracker) (courier : Option Courier) (mode : ReverifyMode) (rec : PotRecord)
    (s : ReverifyPassSummary) : Pass β Judged :=
  match rec.spendingTxid with
  | none => pure (.next s)
  | some spender => do
    match ← getBeef o spender with
    | none => pure (.next { s with errors := s.errors + 1 })
    | some stored =>
      match stored.bind fun bytes => x.storedBumpHex bytes spender with
      | none => judgeProofless x o courier mode rec spender stored s
      | some hex => do
        match ← verifyBumpMemoized x tracker hex spender with
        | some true => do
          let s ← judgeStanding x o rec spender stored s
          pure (.next s)
        | none => pure (.next { s with faults := s.faults + 1 })
        | some false => judgeStale x o tracker courier mode rec spender hex s

def judgeRows (x : Bsv β μ) (o : Outside β) (tracker : Tracker) (courier : Option Courier) (mode : ReverifyMode) :
    Option RowKey → List (RowKey × PotRecord) → ReverifyPassSummary → Pass β ReverifyPassSummary
  | _, [], s => pure s
  | last, (key, rec) :: rest, s => do
    emit (.judging rec)
    match ← judgeRow x o tracker courier mode rec s with
    | .next s => judgeRows x o tracker courier mode (some key) rest s
    | .stop s => pure { s with budgetExhausted := true, exhausted := false, nextCursor := last }

/-- `reverify_window_with`, over the page its read answered (none on a fault). -/
def reverifyWindowWith (x : Bsv β μ) (o : Outside β) (tracker : Option Tracker) (courier : Option Courier) (mode : ReverifyMode)
    (page : Option (List (RowKey × PotRecord))) (after : Option RowKey) (limit : Nat) : Pass β ReverifyPassSummary :=
  match tracker with
  | none => pure { nextCursor := after }
  | some tracker =>
    match page with
    | none => pure { nextCursor := after, errors := 1 }
    | some rows => do
      let before ← getMemo
      let s ← judgeRows x o tracker courier mode after rows
        { scanned := rows.length, exhausted := decide (rows.length < limit), nextCursor := (rows.getLast?.map Prod.fst).or after }
      let memo ← getMemo
      pure { s with memoReads := memo.verdicts.length - before.verdicts.length }

end OverlayEngine.Reverify
