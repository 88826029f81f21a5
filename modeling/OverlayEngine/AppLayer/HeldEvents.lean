import OverlayEngine.Basis.KeyedRows

/-!
# Held events

An actor whose bootstrap has not ended holds an event in its own `meta`; the
bootstrap's end applies the held events and only then stamps the actor. Each
batch of statements runs in one turn of the event loop, its statements in order
up to the one that faults; between two awaits of one call any other call may run.
-/

namespace OverlayEngine.HeldEvents

open KeyedRows

def bootstrapPageGames : Nat := 32
def drainChunkGames : Nat := 16
def drainChunksPerAlarm : Nat := 8

def lower (game : String) : String := String.ofList (game.toList.map Char.toLower)

/-! ## The held rows -/

structure Event where
  kind : Option String
  seq : Option Int
  games : List String
  atMs : Option Nat
  mined : Bool
  tip : Option Nat
  heldAtMs : Nat

inductive JsonNum where
  | int (n : Nat)
  | real (n : Nat)
  deriving DecidableEq

def JsonNum.extract : JsonNum → JsonNum
  | .int n => if n < 2 ^ 63 then .int n else .real n
  | .real n => .real n

structure HeldValue where
  kind : Option String
  seq : Option Int
  games : List String
  atMs : Option JsonNum
  mined : Bool
  tip : Option Nat
  heldAtMs : Nat
  n : Nat
  deriving DecidableEq

namespace Event

def loweredGames (ev : Event) : List String := ev.games.map lower

def value (ev : Event) : HeldValue :=
  ⟨ev.kind, ev.seq, ev.games, ev.atMs.map .int, ev.mined, ev.tip, ev.heldAtMs, 0⟩

/-- `digest` is the hash of the lowered games' JSON, in hex. -/
def name (digest : List String → String) (ev : Event) : String :=
  let seq := toString (ev.seq.getD 0).toNat
  "held:" ++ String.ofList (List.replicate (20 - seq.length) '0') ++ seq ++ ":" ++ ev.kind.getD "" ++ ":" ++
    String.ofList ((digest ev.loweredGames).toList.take 16)

def startedMs (ev : Event) : Nat := ev.atMs.getD ev.heldAtMs

end Event

namespace HeldValue

def read (v : HeldValue) : Option Event :=
  match v.atMs with
  | none => some ⟨v.kind, v.seq, v.games, none, v.mined, v.tip, v.heldAtMs⟩
  | some (.int n) => some ⟨v.kind, v.seq, v.games, some n, v.mined, v.tip, v.heldAtMs⟩
  | some (.real _) => none

def rehold (old new : HeldValue) : HeldValue :=
  { new with atMs := (old.atMs.map JsonNum.extract).or (new.atMs.map JsonNum.extract), n := old.n + 1 }

end HeldValue

abbrev HeldRow := String × HeldValue

structure Meta where
  bootstrapped : Option Nat
  coldFrom : Option Nat
  held : List HeldRow

namespace Meta

def heldRow (m : Meta) (name : String) : Option HeldValue := (row Prod.fst m.held name).map Prod.snd

/-- `HOLD_UNLESS_BOOTSTRAPPED_SQL`. -/
def hold (m : Meta) (name : String) (v : HeldValue) : Meta × Bool :=
  if m.bootstrapped.isSome then (m, false)
  else
    match m.heldRow name with
    | none => ({ m with held := m.held ++ [(name, v)] }, true)
    | some old => ({ m with held := modify Prod.fst (· = name) (fun r => (r.1, old.rehold v)) m.held }, true)

def unstamp (m : Meta) : Meta := { m with bootstrapped := none }

/-- `HELD_DELETE_SQL`: the row deleted only as it was read. -/
def heldDelete (m : Meta) (name : String) (v : HeldValue) : Meta :=
  if m.heldRow name = some v then { m with held := remove Prod.fst (· = name) m.held } else m

/-- `HELD_LIST_SQL`. -/
def heldList (m : Meta) : List HeldRow := m.held.insertionSort fun a b => a.1 ≤ b.1

/-- `STAMP_BOOTSTRAPPED_SQL`. -/
def stamp (m : Meta) (now : Nat) : Meta × Bool := if m.held.isEmpty then ({ m with bootstrapped := some now }, true) else (m, false)

end Meta

/-- A statement of a drain's last batch; `applied` writes no row of `meta`. -/
inductive Stmt where
  | applied (kind : String) (seq : Int) (games : List String)
  | heldDelete (name : String) (v : HeldValue)
  | coldFrom (ms : Nat)

def Stmt.exec (m : Meta) : Stmt → Meta
  | .applied .. => m
  | .heldDelete name v => m.heldDelete name v
  | .coldFrom ms => { m with coldFrom := some ms }

/-! ## The drain -/

def drainUnion (events : List Event) : List String :=
  (events.flatMap Event.loweredGames).foldl (fun out g => if g ∈ out then out else out ++ [g]) []

def bySeq (events : List Event) : List Event := events.insertionSort fun a b => a.seq.getD 0 ≤ b.seq.getD 0

/-- `oldest` is the first event of the first list that read any. -/
structure Drain where
  tipNow : Option Nat
  first : Option Nat
  chunks : Nat
  applied : List Event
  firstAtMs : Option Nat
  coldMs : Option Nat
  oldest : Option Event

abbrev Read := HeldRow × Event

inductive DrainPc where
  | coldFrom
  | list
  | stamp
  | dropping (unread : HeldRow) (rest : List HeldRow) (held : List Read)
  | applying (held : List Read) (chunk left done : List String) (tip : Option Nat) (began : Nat)
  | asking (held : List Read) (chunk left done : List String) (tip : Option Nat)
  | finishing (held : List Read) (done : List String)
  | clearing

inductive BootPc where
  | waiting
  | paging
  | pageAsks (page : List (String × Int))
  | drainWaiting
  | draining (d : Drain) (pc : DrainPc)
  | page (cursor : Int × String) (games : Nat)
  | more (d : Drain)
  | done (d : Drain)
  | failed

/-- One `bootstrap_step`. -/
structure Boot where
  tip : Option Nat
  games : Nat
  pc : BootPc

inductive Passed where
  | applied
  | closureBound
  | fault

inductive CallPc where
  | holding
  | applying
  | rearming
  | noting (rearmed : Bool)
  | held (rearmed : Bool)
  | applied
  | failed
  deriving DecidableEq

/-- One `apply_or_hold`. -/
structure Call where
  ev : Event
  pc : CallPc

/-- What happened, in order: a call's hold landed; an apply of games that began when the log had `began` marks was committed. -/
inductive Mark where
  | held (call : Nat) (name : String) (games : List String)
  | committed (games : List String) (began : Nat)
  deriving DecidableEq

structure World where
  table : Meta
  calls : List Call
  boots : List Boot
  turn : Option Nat
  clock : Nat
  log : List Mark

inductive Move where
  | submit (ev : Event)
  | hold (call : Nat) (fault : Bool)
  | passed (call : Nat) (how : Passed)
  | rearm (call : Nat) (fault : Option Nat)
  | noted (call : Nat)
  | boot (drain : Bool) (tip : Option Nat)
  | page (boot : Nat) (rows : Option (List (String × Int)))
  | run (boot : Nat) (fault : Option Nat)
  | tick (ms : Nat)

namespace World

variable (digest : List String → String) (publish : Bool)

def setCall (w : World) (n : Nat) (pc : CallPc) : World := { w with calls := w.calls.modify n fun c => { c with pc := pc } }

def setBoot (w : World) (b : Nat) (f : Boot → Boot) : World := { w with boots := w.boots.modify b f }

def setPc (w : World) (b : Nat) (pc : BootPc) : World := w.setBoot b fun t => { t with pc := pc }

def endBoot (w : World) (b : Nat) (pc : BootPc) : World := { w.setPc b pc with turn := none }

def mark (w : World) (m : Mark) : World := { w with log := w.log ++ [m] }

/-! ### `apply_or_hold` -/

def landHold (w : World) (n : Nat) (ev : Event) : World × Bool :=
  match w.table.hold (ev.name digest) ev.value with
  | (m, true) => ({ w with table := m }.mark (.held n (ev.name digest) ev.loweredGames), true)
  | (_, false) => (w, false)

def hold (w : World) (n : Nat) (ev : Event) (fault : Bool) : World :=
  if fault then w.setCall n .failed
  else
    match w.landHold digest n ev with
    | (w, true) => w.setCall n (.noting false)
    | (w, false) => w.setCall n .applying

def passed (w : World) (n : Nat) : Passed → World
  | .applied => w.setCall n .applied
  | .closureBound => w.setCall n .rearming
  | .fault => w.setCall n .failed

def rearm (w : World) (n : Nat) (ev : Event) (fault : Option Nat) : World :=
  if fault = some 0 then w.setCall n .failed
  else
    let w := { w with table := w.table.unstamp }
    if fault = some 1 then w.setCall n .failed else (w.landHold digest n ev).1.setCall n (.noting true)

/-! ### `drain_held` -/

def nextChunk (w : World) (b : Nat) (d : Drain) (held : List Read) (left done : List String) (tip : Option Nat) : World :=
  if left = [] ∨ drainChunksPerAlarm ≤ d.chunks then w.setPc b (.draining d (.finishing held done))
  else w.setPc b (.draining d (.applying held (left.take drainChunkGames) (left.drop drainChunkGames) done tip w.log.length))

def pass (w : World) (b : Nat) (d : Drain) (held : List Read) : World :=
  if held = [] then w.setPc b (.draining d .list)
  else
    let d := { d with oldest := d.oldest.or (held.head?.map Prod.snd) }
    if drainChunksPerAlarm ≤ d.chunks then w.endBoot b (.more { d with applied := bySeq d.applied })
    else
      let events := held.map Prod.snd
      let tip := (events.filterMap Event.tip ++ d.tipNow.toList).max?
      w.nextChunk b d held (drainUnion events) [] tip

def scan (w : World) (b : Nat) (d : Drain) : List HeldRow → List Read → World
  | [], held => w.pass b d held
  | r :: rest, held =>
    match r.2.read with
    | some ev => w.scan b d rest (held ++ [(r, ev)])
    | none => w.setPc b (.draining d (.dropping r rest held))

def finished (held : List Read) (done : List String) : List Read := held.filter fun r => r.2.loweredGames.all (· ∈ done)

def finishStmts (fin : List Read) (first : Option Nat) : List Stmt :=
  fin.flatMap (fun r =>
    (match r.2.kind, r.2.seq with
      | some kind, some seq => [Stmt.applied kind seq r.2.games]
      | _, _ => []) ++ [.heldDelete r.1.1 r.1.2]) ++
    first.toList.map .coldFrom

def least (a : Option Nat) (b : Nat) : Option Nat := some (a.elim b (min b))

def finish (w : World) (b : Nat) (d : Drain) (held : List Read) (done : List String) (fault : Option Nat) : World :=
  let fin := finished held done
  let first := fin.foldl (fun f r => least f r.2.startedMs) d.first
  let stmts := finishStmts fin first
  let run := (fault.elim stmts stmts.take).foldl Stmt.exec w.table
  let w := { w with table := run }
  if fault.any (· < stmts.length) then w.endBoot b .failed
  else
    let d := { d with
      first := first
      firstAtMs := fin.foldl (fun f r => least f r.2.startedMs) d.firstAtMs
      applied := d.applied ++ bySeq (fin.map Prod.snd) }
    w.setPc b (.draining d .list)

def drain (w : World) (b : Nat) (d : Drain) (fault : Option Nat) : DrainPc → World
  | .coldFrom =>
    if fault.isSome then w.endBoot b .failed
    else w.setPc b (.draining { d with first := w.table.coldFrom } .list)
  | .list =>
    if fault.isSome then w.endBoot b .failed
    else if w.table.heldList = [] then w.setPc b (.draining d .stamp)
    else w.scan b d w.table.heldList []
  | .stamp =>
    if fault.isSome then w.endBoot b .failed
    else
      match w.table.stamp w.clock with
      | (m, true) => { w with table := m }.setPc b (.draining { d with coldMs := d.first.map (w.clock - ·) } .clearing)
      | (_, false) => w.setPc b (.draining d .list)
  | .dropping r rest held =>
    if fault.isSome then w.endBoot b .failed
    else { w with table := w.table.heldDelete r.1 r.2 }.scan b d rest held
  | .applying held chunk left done tip began =>
    if fault.isSome then w.endBoot b .failed
    else
      let w := w.mark (.committed chunk began)
      if publish then w.setPc b (.draining d (.asking held chunk left done tip))
      else w.nextChunk b { d with chunks := d.chunks + 1 } held left (done ++ chunk) tip
  | .asking held chunk left done tip =>
    if fault.isSome then w.endBoot b .failed
    else w.nextChunk b { d with chunks := d.chunks + 1 } held left (done ++ chunk) tip
  | .finishing held done => w.finish b d held done fault
  | .clearing =>
    if fault.isSome then w.endBoot b .failed else { w with table := { w.table with coldFrom := none } }.endBoot b (.done { d with applied := bySeq d.applied })

/-! ### `bootstrap_step` -/

def pageEnd (w : World) (b : Nat) (rows : List (String × Int)) : World :=
  if rows.length < bootstrapPageGames then
    { w.setBoot b fun t => { t with games := rows.length, pc := .drainWaiting } with turn := none }
  else
    let last := rows.getLast?.getD ("", 0)
    w.endBoot b (.page (last.2, last.1) rows.length)

def run (w : World) (b : Nat) (t : Boot) (fault : Option Nat) : World :=
  match t.pc with
  | .waiting => if w.turn.isSome then w else { w.setPc b .paging with turn := some b }
  | .pageAsks rows => if fault.isSome then w.endBoot b .failed else w.pageEnd b rows
  | .drainWaiting =>
    if w.turn.isSome then w
    else { w.setPc b (.draining ⟨t.tip, none, 0, [], none, none, none⟩ .coldFrom) with turn := some b }
  | .draining d pc => w.drain publish b d fault pc
  | _ => w

def page (w : World) (b : Nat) (t : Boot) : Option (List (String × Int)) → World
  | none => if t.pc matches .paging then w.endBoot b .failed else w
  | some rows =>
    if t.pc matches .paging then
      if publish && !rows.isEmpty then w.setPc b (.pageAsks rows) else w.pageEnd b rows
    else w

def step (w : World) : Move → World
  | .submit ev => { w with calls := w.calls ++ [⟨ev, .holding⟩] }
  | .hold n fault =>
    match w.calls[n]? with
    | some ⟨ev, .holding⟩ => w.hold digest n ev fault
    | _ => w
  | .passed n how =>
    match w.calls[n]? with
    | some ⟨_, .applying⟩ => w.passed n how
    | _ => w
  | .rearm n fault =>
    match w.calls[n]? with
    | some ⟨ev, .rearming⟩ => w.rearm digest n ev fault
    | _ => w
  | .noted n =>
    match w.calls[n]? with
    | some ⟨_, .noting rearmed⟩ => w.setCall n (.held rearmed)
    | _ => w
  | .boot drain tip => { w with boots := w.boots ++ [⟨tip, 0, if drain then .drainWaiting else .waiting⟩] }
  | .page b rows =>
    match w.boots[b]? with
    | some t => w.page publish b t rows
    | none => w
  | .run b fault =>
    match w.boots[b]? with
    | some t => w.run publish b t fault
    | none => w
  | .tick ms => { w with clock := w.clock + ms }

def runs (w : World) (moves : List Move) : World := moves.foldl (step digest publish) w

def start : World := ⟨⟨none, none, []⟩, [], [], none, 0, []⟩

end World

end OverlayEngine.HeldEvents
