import Mathlib.Algebra.GroupWithZero.Nat
import Mathlib.Logic.Function.Basic
import OverlayEngine.Basis.Chunks
import OverlayEngine.Basis.RankedLists

/-!
# The owed events' consumer

A batch of owed events is planned from the marks of `owed_dirty` in one read,
judged in one pass over the merged plan of the messages that fit one message's
bound, and each message is answered by its own plan (`batch_core` of
`owed_events.rs`); the one-message arm judges a message's plan alone
(`consume_one` and the handler's rule).

Taken from outside: the judge's delivery of one identity's games, the expansion
of a wanted envelope, and the delay the memo of a faulted pair sets. The memos a
pass writes are read by no step of it and are left out.
-/

namespace OverlayEngine.OwedBatch

open RankedLists

/-! ## The marks -/

structure OwedEvent where
  seq : Int
  source : String
  sourceKey : String
  atMs : Int

def routeIdentity : String := "identity"
def txfacts : String := "txfacts"

/-- A row of `owed_dirty`. -/
structure DirtyRow where
  identity : String
  gameId : String
  source : String
  sourceKey : String
  generation : Int
  markedAtMs : Int

/-- A fault memo of `owed_belt_state`. -/
structure Memo where
  name : String
  heldUntilMs : Option Int

structure Db where
  dirty : List DirtyRow
  memos : List Memo
  now : Int

def subjectMemoName (identity game : String) : String := "owed-events:fault:subject " ++ identity ++ "/" ++ game

def faultMemoName (source key : String) : String := "owed-events:fault:" ++ source ++ " " ++ key

def maxGamesPerMessage : Nat := 64
def routeReadLimit : Nat := 4 * maxGamesPerMessage
def subjectsPerInvocation : Nat := 16

namespace Db

variable (db : Db)

def holds (identity game : String) : Bool :=
  db.memos.any fun m => m.name = subjectMemoName identity game && m.heldUntilMs.any (db.now < ·)

def window (source key : String) : List DirtyRow :=
  if source = routeIdentity then
    sortOn DirtyRow.markedAtMs (sortOn DirtyRow.generation (db.dirty.filter fun r => r.identity = key))
  else sortOn DirtyRow.generation (db.dirty.filter fun r => r.sourceKey = key ∧ r.source = source)

/-- `ROUTE_MARKS_SQL` and `ROUTE_IDENTITY_SQL`: the marks of no held subject. -/
def routeMarks (source key : String) : List DirtyRow :=
  ((db.window source key).filter fun r => !db.holds r.identity r.gameId).take routeReadLimit

/-- `ROUTE_HELD_SQL` and `ROUTE_IDENTITY_HELD_SQL`: the held subjects of the window. -/
def routeHeld (source key : String) : Nat :=
  ((((db.window source key).take routeReadLimit).filter fun r => r.gameId ≠ "" ∧ db.holds r.identity r.gameId).map
    fun r => r.identity ++ "/" ++ r.gameId).dedup.length

/-- `FAULT_MEMO_READ_SQL` and `memo_holds`: the memos of these names. -/
def memoHolds (names : List String) (name : String) : Option Int :=
  if name ∈ names then (db.memos.find? fun m => m.name = name).map fun m => m.heldUntilMs.getD 0 else none

end Db

/-! ## Plans -/

/-- One message's subjects; `games` is empty outside `order`, and `held` has one entry for each mark. -/
structure Plan where
  order : List String := []
  games : String → List String := fun _ => []
  held : List (String × String) := []
  more : Bool := false
  heldSubjects : Nat := 0

/-- The list with those of `xs` it lacks. -/
def addNew (l xs : List String) : List String := xs.foldl (fun l x => if x ∈ l then l else l ++ [x]) l

structure Routed where
  subjects : Nat := 0
  marks : Nat := 0
  faults : Nat := 0
  held : Nat := 0
  more : Bool := false
  landed : List (String × String) := []
  faulted : List (String × String) := []

namespace Plan

def isEmpty (p : Plan) : Bool := p.order.isEmpty && !p.more

def mergeInto (out p : Plan) : Plan where
  order := addNew out.order p.order
  games := p.order.foldl (fun games id => Function.update games id (addNew (games id) (p.games id))) out.games
  held := out.held ++ p.held
  more := out.more || p.more
  heldSubjects := out.heldSubjects + p.heldSubjects

def merged (plans : List Plan) : Plan := plans.foldl mergeInto {}

def gameCount (p : Plan) : Nat := (p.order.map fun id => (p.games id).length).sum

def markCount (p : Plan) : Nat := p.held.length

def subjectPairs (p : Plan) : List (String × String) := p.order.flatMap fun id => (p.games id).map fun g => (id, g)

def emptyRouted (p : Plan) : Routed := { held := p.heldSubjects }

end Plan

def markStep (acc : Plan × Nat) (m : DirtyRow) : Plan × Nat :=
  if m.gameId = "" then acc
  else
    let p := { acc.1 with held := acc.1.held ++ [(m.identity, m.gameId)] }
    let list := p.games m.identity
    if m.gameId ∈ list then (p, acc.2)
    else if maxGamesPerMessage ≤ acc.2 then ({ p with more := true }, acc.2)
    else
      ({ p with
          order := if list.isEmpty then p.order ++ [m.identity] else p.order
          games := Function.update p.games m.identity (list ++ [m.gameId]) }, acc.2 + 1)

def planOfMarks (marks : List DirtyRow) (heldSubjects : Nat) (more : Bool) : Plan :=
  { (marks.foldl markStep ({ more := more }, 0)).1 with heldSubjects := heldSubjects }

structure Consumer where
  /-- `deliver`: the judge's report of one identity's games, its subjects. -/
  deliver : String → List String → Except String Nat
  /-- `expand_wanted`, and the identity's marks read after it. -/
  expandWanted : String → Int → Except String (List DirtyRow)
  /-- `fault_fate`: the delay of an event's pair, noted this many times before in the batch. -/
  faultDelay : OwedEvent → Nat → Option Nat

variable (c : Consumer)

def expandEnvelopes : List (String × Int) → List DirtyRow → Bool → List (String × Int) →
    Except String (List DirtyRow × Bool × List (String × Int))
  | [], marks, more, expanded => .ok (marks, more, expanded)
  | envelope :: rest, marks, more, expanded =>
    if envelope ∈ expanded then expandEnvelopes rest marks more expanded
    else
      match c.expandWanted envelope.1 envelope.2 with
      | .error e => .error e
      | .ok rows => expandEnvelopes rest (marks ++ rows) (more || routeReadLimit ≤ rows.length) (expanded ++ [envelope])

def planFinish (marks : List DirtyRow) (heldSubjects : Nat) (expanded : List (String × Int)) : Except String (Plan × List (String × Int)) :=
  let envelopes := (marks.filter fun m => m.gameId = "").map fun m => (m.identity, m.generation)
  match expandEnvelopes c envelopes marks (routeReadLimit ≤ marks.length) expanded with
  | .error e => .error e
  | .ok (marks, more, expanded) => .ok (planOfMarks marks heldSubjects more, expanded)

/-- `plan`: one message's marks read into its subjects. -/
def plan (db : Db) (ev : OwedEvent) : Except String Plan :=
  if ev.source = txfacts then .ok {}
  else (planFinish c (db.routeMarks ev.source ev.sourceKey) (db.routeHeld ev.source ev.sourceKey) []).map Prod.fst

def distinctPairs (evs : List OwedEvent) : List (String × String) :=
  (evs.filter fun ev => ev.source ≠ txfacts).foldl (fun pairs ev =>
    if (ev.source, ev.sourceKey) ∈ pairs then pairs else pairs ++ [(ev.source, ev.sourceKey)]) []

def planReads (db : Db) (evs : List OwedEvent) : List ((String × String) × List DirtyRow × Nat) :=
  (distinctPairs evs).map fun pair => (pair, db.routeMarks pair.1 pair.2, db.routeHeld pair.1 pair.2)

def plansFrom (outs : List ((String × String) × List DirtyRow × Nat)) : List OwedEvent → List (String × Int) → Except String (List Plan)
  | [], _ => .ok []
  | ev :: rest, expanded =>
    match if ev.source = txfacts then none else outs.lookup (ev.source, ev.sourceKey) with
    | none => (plansFrom outs rest expanded).map ({} :: ·)
    | some (marks, held) =>
      match planFinish c marks held expanded with
      | .error e => .error e
      | .ok (p, expanded) => (plansFrom outs rest expanded).map (p :: ·)

/-- `plans_many`: a pair named by several messages is read once. -/
def plansMany (db : Db) (evs : List OwedEvent) : Except String (List Plan) := plansFrom c (planReads db evs) evs []

/-! ## The judge pass -/

structure IdentityJudged where
  landedCalls : Nat := 0
  subjects : Nat := 0
  marks : Nat := 0
  held : Nat := 0
  landed : List (String × String) := []
  faulted : List (String × String) := []
  firstFault : Option String := none

section
variable (identity : String) (held : List (String × String))

def IdentityJudged.land (out : IdentityJudged) (chunk : List String) (subjects : Nat) : IdentityJudged :=
  { out with
    landedCalls := out.landedCalls + 1
    subjects := out.subjects + subjects
    marks := out.marks + (chunk.map fun g => held.count (identity, g)).sum
    landed := out.landed ++ chunk.map fun g => (identity, g) }

def IdentityJudged.fault (out : IdentityJudged) (game e : String) : IdentityJudged :=
  { out with faulted := out.faulted ++ [(identity, game)], firstFault := some (out.firstFault.getD e) }

def judgeSingle (out : IdentityJudged) (game : String) : IdentityJudged :=
  match c.deliver identity [game] with
  | .ok subjects => out.land identity held [game] subjects
  | .error e => out.fault identity game e

def judgeChunk (out : IdentityJudged) (chunk : List String) : IdentityJudged :=
  match c.deliver identity chunk with
  | .ok subjects => out.land identity held chunk subjects
  | .error e =>
    match chunk with
    | [game] => out.fault identity game e
    | _ => chunk.foldl (judgeSingle c identity held) out

def memoHeld (memos : String → Option Int) (now : Int) (game : String) : Bool := (memos (subjectMemoName identity game)).any (now < ·)

def judgeIdentity (games : List String) (memos : String → Option Int) (now : Int) : IdentityJudged :=
  let list := games.filter fun g => !memoHeld identity memos now g
  (Chunks.chunks subjectsPerInvocation list).foldl (judgeChunk c identity held) { held := (games.filter (memoHeld identity memos now)).length }

end

def Routed.merge (out : Routed) (j : IdentityJudged) : Routed :=
  { out with
    subjects := out.subjects + j.subjects
    marks := out.marks + j.marks
    held := out.held + j.held
    faults := out.faults + j.faulted.length
    landed := out.landed ++ j.landed
    faulted := out.faulted ++ j.faulted }

/-- The identities of a pass, in the order `complete` answers them. -/
def judgedOf (complete : List IdentityJudged → List IdentityJudged) (db : Db) (p : Plan) : List IdentityJudged :=
  complete (p.order.map fun id =>
    judgeIdentity c id p.held (p.games id) (db.memoHolds (p.subjectPairs.map fun s => subjectMemoName s.1 s.2)) db.now)

def passOf (complete : List IdentityJudged → List IdentityJudged) (db : Db) (p : Plan) : Routed :=
  (judgedOf c complete db p).foldl Routed.merge { more := p.more, held := p.heldSubjects }

def judgePlan (complete : List IdentityJudged → List IdentityJudged) (db : Db) (p : Plan) : Except String Routed :=
  let judged := judgedOf c complete db p
  if (judged.map IdentityJudged.landedCalls).sum = 0 then
    match judged.findSome? IdentityJudged.firstFault with
    | some fault => .error fault
    | none => .ok (passOf c complete db p)
  else .ok (passOf c complete db p)

/-! ## The two arms -/

inductive Fate where
  | ack (resolve continues : Bool)
  | retry (delayS : Option Nat)
  | fault (delayS : Option Nat)
  | alone
  deriving DecidableEq

def continues (routed : Routed) : Bool := routed.more && 0 < routed.subjects

/-- `consume_one`: the message's marks planned and judged alone. -/
def consumeOne (complete : List IdentityJudged → List IdentityJudged) (db : Db) (ev : OwedEvent) : Except String Routed :=
  match plan c db ev with
  | .error e => .error e
  | .ok p => if p.isEmpty then .ok p.emptyRouted else judgePlan c complete db p

def aloneFate (complete : List IdentityJudged → List IdentityJudged) (db : Db) (ev : OwedEvent) : Fate :=
  match consumeOne c complete db ev with
  | .ok routed => .ack (0 < routed.subjects || routed.held == 0) (continues routed)
  | .error _ => .fault (c.faultDelay ev 0)

def selectFrom (taken : List Plan) : List (Plan × Bool) → List Bool
  | [] => []
  | (p, faulted) :: rest =>
    if faulted then false :: selectFrom taken rest
    else
      let merged := Plan.merged (taken ++ [p])
      if (merged.gameCount ≤ maxGamesPerMessage ∧ merged.markCount ≤ routeReadLimit) ∨ taken.isEmpty then
        true :: selectFrom (taken ++ [p]) rest
      else false :: selectFrom taken rest

def batchSelection (plans : List Plan) (faulted : List Bool) : List Bool := selectFrom [] (plans.zip faulted)

structure BatchOutcome where
  fates : List Fate
  routed : Routed
  walled : Bool := false
  coalesced : Nat

/-- The wall fell: the subjects in flight, and `wall_fate`'s delay. -/
structure Wall where
  inFlight : List String
  delay : Nat

def batchNames (evs : List OwedEvent) (plans : List Plan) : List String :=
  (evs.zip plans).flatMap fun m => faultMemoName m.1.source m.1.sourceKey :: m.2.subjectPairs.map fun s => subjectMemoName s.1 s.2

def memoNamed (db : Db) (names : List String) (m : OwedEvent × Plan) : Bool :=
  (db.memoHolds names (faultMemoName m.1.source m.1.sourceKey)).isSome ||
    m.2.subjectPairs.any fun s => (db.memoHolds names (subjectMemoName s.1 s.2)).isSome

def faultedOf (db : Db) (evs : List OwedEvent) (plans : List Plan) : List Bool :=
  (evs.zip plans).map (memoNamed db (batchNames evs plans))

def takenOf (db : Db) (evs : List OwedEvent) (plans : List Plan) : List Bool := batchSelection plans (faultedOf db evs plans)

def chosenOf (db : Db) (evs : List OwedEvent) (plans : List Plan) : List Plan :=
  ((plans.zip (takenOf db evs plans)).filter Prod.snd).map Prod.fst

def wallFate (w : Wall) (p : Plan) (taken : Bool) : Fate :=
  let namesOne := p.subjectPairs.any fun s => w.inFlight.contains (subjectMemoName s.1 s.2)
  if taken && (w.inFlight.isEmpty || namesOne) then .retry (some w.delay) else .retry none

def ownFate (routed : Routed) (noted : Nat) (ev : OwedEvent) (p : Plan) : Fate :=
  let own := p.subjectPairs
  let landed := (own.filter fun s => routed.landed.contains s).length
  let faulted := (own.filter fun s => routed.faulted.contains s).length
  let held := p.emptyRouted.held + own.length - landed - faulted
  if landed = 0 ∧ 0 < faulted then .fault (c.faultDelay ev noted) else .ack (0 < landed || held == 0) (p.more && 0 < landed)

def Fate.isFault : Fate → Bool
  | .fault _ => true
  | _ => false

/-- The messages' fates in order, `noted` the pairs whose fault is noted so far. -/
def fatesFrom (routed : Routed) : List (String × String) → List ((OwedEvent × Plan) × Bool) → List Fate
  | _, [] => []
  | noted, ((ev, p), taken) :: rest =>
    let pair := (ev.source, ev.sourceKey)
    let fate := if taken then ownFate c routed (noted.count pair) ev p else .alone
    fate :: fatesFrom routed (if fate.isFault then noted ++ [pair] else noted) rest

def batchCore (complete : List IdentityJudged → List IdentityJudged) (wall : Option Wall) (db : Db) (evs : List OwedEvent)
    (plans : List Plan) : Except String BatchOutcome :=
  let taken := takenOf db evs plans
  let chosen := chosenOf db evs plans
  let merged := Plan.merged chosen
  if merged.isEmpty then
    .ok { fates := (plans.zip taken).map fun m => if m.2 then .ack (m.1.emptyRouted.held == 0) false else .alone
          routed := merged.emptyRouted
          coalesced := chosen.length }
  else
    match wall with
    | some w => .ok { fates := (plans.zip taken).map fun m => wallFate w m.1 m.2, routed := {}, walled := true, coalesced := chosen.length }
    | none =>
      match judgePlan c complete db merged with
      | .error e => .error e
      | .ok routed =>
        .ok { fates := fatesFrom c routed [] ((evs.zip plans).zip taken)
              routed := routed
              coalesced := chosen.length }

end OverlayEngine.OwedBatch
