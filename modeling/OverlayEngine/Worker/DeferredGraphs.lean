import Mathlib.Algebra.GroupWithZero.Nat
import Mathlib.Data.List.Basic

/-!
# The rows of a deferred graph

A deferred graph is stored as one head row and, when its JSON is longer than one
row's room, further parts under a generation the head names. A save writes the
parts, then the head, then tidies the other generations; a read that misses a
part drops the record. The rows of one (host, topic, outpoint) are modelled
here, and every call on them as a program counter: one move runs one statement.
-/

namespace OverlayEngine.DeferredGraphs

def deferredGraphChunkBytes : Nat := 2 ^ 20
def deferredGraphOrphanChunkSecs : Int := 3600
def deferredGraphMaxPasses : Int := 60
def deferredGraphStaleSecs : Int := 2 * deferredGraphMaxPasses * 15 * 60
def deferredGraphsMaxRows : Nat := 256
def deferredGraphsMaxTotalBytes : Nat := 64 * 2 ^ 20
def deferredGraphsMaxRowsPerHost : Nat := deferredGraphsMaxRows / 8
def deferredGraphsDiscoveredMaxRows : Nat := deferredGraphsMaxRows / 2
def deferredGraphsMaxBytesPerHost : Nat := deferredGraphsMaxTotalBytes / 8
def deferredGraphsDiscoveredMaxBytes : Nat := deferredGraphsMaxTotalBytes / 2

/-! ## The cut -/

/-- `len` of a text: its bytes in UTF-8. -/
def len (cs : List Char) : Nat := (cs.map Char.utf8Size).sum

/-- The longest beginning of at most `n` bytes on a character boundary, and the rest. -/
def splitBytes : Nat → List Char → List Char × List Char
  | _, [] => ([], [])
  | n, c :: cs =>
    if c.utf8Size ≤ n then
      let p := splitBytes (n - c.utf8Size) cs
      (c :: p.1, p.2)
    else ([], c :: cs)

/-- The first part and the further ones; `fuel` bounds the further ones. -/
def cut (chunk : Nat) : Nat → List Char → List Char × List (List Char)
  | 0, cs => (cs, [])
  | fuel + 1, cs =>
    if chunk < len cs then
      let p := splitBytes chunk cs
      let r := cut chunk fuel p.2
      (p.1, r.1 :: r.2)
    else (cs, [])

structure ChunkPlan where
  head : String
  rest : List String
  gen : String

/-- `chunk_plan`: `hash` is the first 16 hex digits of a text's SHA-256. -/
def chunkPlan (hash : String → String) (json : String) (chunk : Nat) : ChunkPlan :=
  let p := cut (max chunk 4) json.toList.length json.toList
  { head := String.ofList p.1
    rest := p.2.map String.ofList
    gen := if p.2.isEmpty then "" else hash json }

/-! ## The rows -/

structure Codec (Rec Memo : Type) where
  json : Rec → String
  parse : String → Option Rec
  reason : Rec → String
  configured : Rec → Bool
  cursorPassable : Rec → Bool
  memoOf : Rec → Option Memo
  intoRecord : Memo → Rec
  putMemo : Option Memo → Memo → Int → Memo
  expiry : String → Option Int
  hash : String → String

section
variable {Rec Memo : Type} (C : Codec Rec Memo)

structure Save where
  record : Rec
  bytes : Nat
  plan : ChunkPlan
  bytes_eq : bytes = len (C.json record).toList
  plan_eq : plan = chunkPlan C.hash (C.json record) deferredGraphChunkBytes

def retainedReason (r : Rec) : String := if C.cursorPassable r then "held:" ++ C.reason r else C.reason r

structure Head where
  record : String
  chunks : Nat
  gen : String
  reason : String
  updatedAt : Int

structure Part where
  part : String
  writtenAt : Int

structure Others where
  rows : Nat
  originRows : Nat
  discoveredRows : Nat
  bytes : Nat
  originBytes : Nat
  discoveredBytes : Nat

/-- `WHERE` of `DEFERRED_GRAPH_UPSERT_SQL`. -/
def fits (o : Others) (held : Bool) (s : Save C) : Bool :=
  let configured := C.configured s.record
  (held || (decide (o.rows < deferredGraphsMaxRows) &&
      (configured || (decide (o.originRows < deferredGraphsMaxRowsPerHost) && decide (o.discoveredRows < deferredGraphsDiscoveredMaxRows))))) &&
    decide (o.bytes + s.bytes ≤ deferredGraphsMaxTotalBytes) &&
    (configured || (decide (o.originBytes + s.bytes ≤ deferredGraphsMaxBytesPerHost) &&
      decide (o.discoveredBytes + s.bytes ≤ deferredGraphsDiscoveredMaxBytes)))

/-- `LIKE` of a beginning: SQLite ignores the case of ASCII letters. -/
def like (start reason : String) : Bool := start.toList.isPrefixOf (reason.toList.map Char.toLower)

inductive Fate where
  | ok
  | faulted (landed : Bool)
  deriving DecidableEq

def Fate.effect : Fate → Bool
  | .ok => true
  | .faulted landed => landed

variable (Rec Memo) in
inductive Answer where
  | saved
  | atCeiling
  | absent
  | memo (m : Memo)
  | record (r : Rec)
  | unparsed
  | done
  | fault

/-- A call by its next statement: a save (`since` is when it began), a read, a delete (of a read that missed a part, or
of a caller), or the cron's retirement of an expired fault. -/
inductive Job where
  | putMemo (m : Memo)
  | part (s : Save C) (i : Nat) (since : Int)
  | upsert (s : Save C) (since : Int)
  | keep (s : Save C)
  | unmemo
  | undo (s : Save C) (answer : Answer Rec Memo)
  | getMemo
  | head
  | read (h : Head) (seq : Nat) (json : String)
  | dropMemo (byGet : Bool)
  | dropHead (byGet : Bool)
  | dropParts (byGet : Bool)
  | expire
  | finished (answer : Answer Rec Memo)

/-! ## The statements -/

abbrev Parts := String → Nat → Option Part

/-- `DEFERRED_GRAPH_CHUNK_PUT_SQL`. -/
def Parts.put (t : Parts) (gen : String) (seq : Nat) (p : Part) : Parts :=
  fun g n => if g = gen ∧ n = seq then some p else t g n

/-- A `DELETE` of the parts of every generation `gone` picks. -/
def Parts.drop (t : Parts) (gone : String → Bool) : Parts := fun g n => if gone g then none else t g n

/-- `DEFERRED_GRAPH_CHUNKS_SWEEP_SQL`: the old parts the head does not name. -/
def Parts.sweep (t : Parts) (head : Option Head) (now : Int) : Parts := fun g n =>
  (t g n).filter fun p => !(decide (p.writtenAt < now - deferredGraphOrphanChunkSecs) && !(head.any fun h => h.gen = g))

/-- `WHERE` of `FAULT_EXPIRY_SWEEP_SQL`; `remembered`: `gasp_expired_outpoints` holds the outpoint. -/
def Head.expired (h : Head) (now : Int) (remembered : Bool) : Bool :=
  (like "held:dead:" h.reason || like "held:unanchorable:" h.reason) &&
    ((decide (h.chunks = 0) && (C.expiry h.record).any (· ≤ now)) || remembered)

/-- `WHERE` of `DEFERRED_GRAPHS_SWEEP_SQL`. -/
def Head.stale (h : Head) (now : Int) : Bool :=
  decide (h.updatedAt < now - deferredGraphStaleSecs) && !like "held:" h.reason

/-- What `DEFERRED_GRAPH_CHUNKS_KEEP_SQL` deletes after a save of `s`. -/
def Save.others (s : Save C) (g : String) : Bool := decide (g ≠ s.plan.gen)

/-- What `DEFERRED_GRAPH_CHUNKS_UNDO_SQL` deletes: the parts just written, unless the head names them. -/
def Save.own (s : Save C) (head : Option Head) (g : String) : Bool := decide (g = s.plan.gen) && !(head.any fun h => h.gen = s.plan.gen)

def Save.head (s : Save C) (now : Int) : Head :=
  { record := s.plan.head, chunks := s.plan.rest.length, gen := s.plan.gen, reason := retainedReason C s.record, updatedAt := now }

/-! ## The calls -/

structure World where
  head : Option Head := none
  parts : Parts := fun _ _ => none
  memo : Option Memo := none
  jobs : List (Job C) := []
  now : Int := 0
  puts : List Rec := []
  lost : Nat := 0

structure Env where
  others : Others
  remembered : Bool

inductive Move where
  | put (s : Save C)
  | get
  | delete
  | expire
  | go (job : Nat) (fate : Fate) (env : Env)
  | sweepStale (fate : Fate)
  | sweepParts (fate : Fate)
  | sweepMemo
  | tick (secs : Nat)

variable {C}

def Save.next (s : Save C) (i : Nat) (since : Int) : Job C := if i < s.plan.rest.length then .part s i since else .upsert s since

def Save.undoing (s : Save C) (answer : Answer Rec Memo) : Job C :=
  if s.plan.rest.isEmpty then .finished answer else .undo s answer

def Head.reading (h : Head) (seq : Nat) (json : String) : Job C :=
  if seq ≤ h.chunks then .read h seq json
  else .finished (match C.parse json with
    | some r => .record r
    | none => .unparsed)

/-- A call's next statement answered `ok`, or faulted and ended the call. -/
def Fate.then (fate : Fate) (job : Job C) : Job C :=
  match fate with
  | .ok => job
  | .faulted _ => .finished .fault

def World.put (w : World C) (i : Nat) (job : Job C) : World C := { w with jobs := w.jobs.set i job }

def World.go (w : World C) (i : Nat) (fate : Fate) (env : Env) : Job C → World C
  -- `gasp_fault_memo::put` is one batch: the memo, the head row and every part
  | .putMemo m =>
    { w.put i (fate.then (.finished .saved)) with
      memo := if fate.effect then some (C.putMemo w.memo m w.now) else w.memo
      head := if fate.effect then none else w.head
      parts := if fate.effect then w.parts.drop (fun _ => true) else w.parts }
  | .part s n since =>
    { w.put i (if fate = .ok then s.next (n + 1) since else .undo s .fault) with
      parts := if fate.effect then w.parts.put s.plan.gen (n + 1) ⟨s.plan.rest.getD n "", w.now⟩ else w.parts }
  | .upsert s _ =>
    let saved := fits C env.others w.head.isSome s
    { w.put i (if fate = .ok then if saved then .keep s else s.undoing .atCeiling else s.undoing .fault) with
      head := if fate.effect ∧ saved = true then some (s.head C w.now) else w.head }
  | .keep s => { w.put i .unmemo with parts := if fate.effect then w.parts.drop (s.others C) else w.parts }
  | .unmemo => { w.put i (fate.then (.finished .saved)) with memo := if fate.effect then none else w.memo }
  | .undo s answer => { w.put i (.finished answer) with parts := if fate.effect then w.parts.drop (s.own C w.head) else w.parts }
  | .getMemo =>
    w.put i (fate.then (match w.memo with
      | some m => .finished (.memo m)
      | none => .head))
  | .head =>
    w.put i (fate.then (match w.head with
      | some h => h.reading 1 h.record
      | none => .finished .absent))
  | .read h seq json =>
    w.put i (fate.then (match w.parts h.gen seq with
      | some p => h.reading (seq + 1) (json ++ p.part)
      | none => .dropMemo true))
  | .dropMemo byGet =>
    { w.put i (fate.then (.dropHead byGet)) with
      memo := if fate.effect then none else w.memo
      lost := if byGet = true ∧ fate.effect = true ∧ w.memo.isSome = true then w.lost + 1 else w.lost }
  | .dropHead byGet =>
    { w.put i (fate.then (.dropParts byGet)) with
      head := if fate.effect then none else w.head
      lost := if byGet = true ∧ fate.effect = true ∧ w.head.isSome = true then w.lost + 1 else w.lost }
  | .dropParts byGet =>
    { w.put i (fate.then (.finished (if byGet then .absent else .done))) with
      parts := if fate.effect then w.parts.drop (fun _ => true) else w.parts }
  | .expire =>
    let due := w.head.any fun h => h.expired C w.now env.remembered
    { w.put i (fate.then (if due then .dropParts false else .finished .done)) with
      head := if fate.effect ∧ due = true then none else w.head }
  | .finished _ => w

def World.step (w : World C) : Move C → World C
  | .put s =>
    { w with
      jobs := w.jobs ++ [match C.memoOf s.record with
        | some m => .putMemo m
        | none => s.next 0 w.now]
      puts := w.puts ++ [s.record] }
  | .get => { w with jobs := w.jobs ++ [.getMemo] }
  | .delete => { w with jobs := w.jobs ++ [.dropMemo false] }
  | .expire => { w with jobs := w.jobs ++ [.expire] }
  | .go i fate env =>
    match w.jobs[i]? with
    | none => w
    | some job => w.go i fate env job
  | .sweepStale fate => { w with head := if fate.effect then w.head.filter fun h => !h.stale w.now else w.head }
  | .sweepParts fate => { w with parts := if fate.effect then w.parts.sweep w.head w.now else w.parts }
  | .sweepMemo => { w with memo := none }
  | .tick secs => { w with now := w.now + secs }

def World.run (w : World C) (moves : List (Move C)) : World C := moves.foldl World.step w

end

end OverlayEngine.DeferredGraphs
