import Mathlib.Data.List.Dedup
import OverlayEngine.Basis.KeyedRows

/-!
# The mirror's decoded facts

An actor holds no BEEF: of each one it reads it keeps the decoded facts and,
beside them, the lengths and marks of the bytes they were decoded from. A warm
narrowed read answers no bytes of a txid whose stored BEEFs still have them.
-/

namespace OverlayEngine.MirrorFacts

open KeyedRows

abbrev Bytes := List UInt8

/-- SQLite's `hex(substr(b, offset, …))` is the hex held. -/
def window (b : Bytes) (offset : Nat) (held : Bytes) : Bool := (b.drop (offset - 1)).take held.length = held

/-- `bump_mark`: `null`, `[]`, or the offset and the bytes of the subject bump's height. -/
inductive BumpMark where
  | null
  | none
  | at (offset : Nat) (height : Bytes)

/-- `entry_mark`: `null`, `[]`, or two windows of the subject's own entry. -/
inductive EntryMark where
  | null
  | none
  | at (offset : Nat) (entry : Bytes) (otherOffset : Nat) (other : Bytes)

/-- `held_bump_mark!`. -/
def BumpMark.held : BumpMark → Bytes → Bool
  | .null, _ => false
  | .none, _ => true
  | .at o h, b => window b o h

/-- `held_entry_mark!`. -/
def EntryMark.held : EntryMark → Bytes → Bool
  | .at o e o' e', b => window b o e && window b o' e'
  | _, _ => false

def decoderVersion : Nat := 1

/-- A `len` row: of each BEEF family the length (`-1` for no row) and the marks. -/
structure Lens where
  p : Int
  t : Int
  pb : BumpMark
  tb : BumpMark
  pe : EntryMark
  te : EntryMark
  v : Nat

inductive Table where
  | potBeefs
  | transactions
  deriving DecidableEq

inductive Src where
  | pot
  | stored
  | event
  deriving DecidableEq

variable {Facts : Type}

structure Decoder (Facts : Type) where
  facts : String → Bytes → Option Facts
  marks : String → Bytes → BumpMark × EntryMark

/-! ## The record's BEEF rows -/

/-- The record's BEEF rows by txid; a row of `transactions` may hold no bytes. -/
structure Record where
  potBeefs : String → Option Bytes
  transactions : String → Option (Option Bytes)

inductive Beef (Facts : Type) where
  | hex (b : Bytes)
  | held
  | facts (f : Option Facts)

abbrev BeefRows (Facts : Type) := List (String × Beef Facts)

namespace Record

variable (r : Record)

/-- SQLite's `hex` of no bytes is the empty text. -/
def transactionsHex (txid : String) : Option Bytes := (r.transactions txid).map (·.getD [])

/-- `HELD_POT_BEEF_EXPR`. -/
def heldPot (lens : Option Lens) (txid : String) (b : Bytes) : Bool :=
  match lens with
  | none => false
  | some l =>
    (b.length : Int) = l.p && (((r.transactions txid).bind id).elim (-1) fun x => (x.length : Int)) = l.t && l.v = decoderVersion &&
      l.pb.held b && l.pe.held b && (r.transactionsHex txid).all fun x => l.tb.held x && l.te.held x

/-- `HELD_TRANSACTIONS_BEEF_EXPR`. -/
def heldTransactions (lens : Option Lens) (txid : String) : Option Bytes → Bool
  | none => false
  | some b =>
    match lens with
    | none => false
    | some l =>
      (b.length : Int) = l.t && ((r.potBeefs txid).elim (-1) fun x => (x.length : Int)) = l.p && l.v = decoderVersion &&
        l.tb.held b && l.te.held b && (r.potBeefs txid).all fun x => l.pb.held x && l.pe.held x

def potRows (lens : String → Option Lens) (keys : List String) : BeefRows Facts :=
  keys.filterMap fun txid => (r.potBeefs txid).map fun b => (txid, if r.heldPot (lens txid) txid b then .held else .hex b)

def transactionsRows (lens : String → Option Lens) (keys : List String) : BeefRows Facts :=
  keys.filterMap fun txid => (r.transactions txid).map fun x =>
    (txid, if r.heldTransactions (lens txid) txid x then .held else .hex (x.getD []))

end Record

structure Read (Facts : Type) where
  pot : BeefRows Facts
  transactions : BeefRows Facts

def Beef.isHeld : Beef Facts → Bool
  | .held => true
  | _ => false

/-- `held_read_disagrees`. -/
def Read.disagrees (read : Read Facts) : Bool :=
  let rows := read.pot ++ read.transactions
  rows.any fun a => rows.any fun b => a.1 = b.1 && a.2.isHeld && !b.2.isHeld

def Record.read (r : Record) (lens : String → Option Lens) (keys : List String) : Read Facts := ⟨r.potRows lens keys, r.transactionsRows lens keys⟩

def Record.readPlain (r : Record) (keys : List String) : Read Facts := r.read (fun _ => none) keys

/-! ## The mirror's `txfacts` -/

structure Txfacts (Facts : Type) where
  facts : String → Src → Option (Facts × Int)
  lens : String → Option (Lens × Int)

inductive Stmt (Facts : Type) where
  | lensDelete (txids : List String)
  | lensUpsert (txid : String) (l : Lens) (seq : Int)
  | copied (table : Table)
  | factsDelete (txids : List String)
  | factsUpsert (txid : String) (src : Src) (f : Facts) (seq : Int)

/-- `ON CONFLICT … WHERE excluded.seq>=txfacts.seq`. -/
def upserted {α : Type} (old : Option (α × Int)) (new : α × Int) : Option (α × Int) :=
  match old with
  | some (a, s) => if s ≤ new.2 then some new else some (a, s)
  | none => some new

def Stmt.exec (m : Txfacts Facts) : Stmt Facts → Txfacts Facts
  | .lensDelete txids => { m with lens := fun t => if t ∈ txids then none else m.lens t }
  | .lensUpsert txid l seq => { m with lens := fun t => if t = txid then upserted (m.lens t) (l, seq) else m.lens t }
  | .copied _ => m
  | .factsDelete txids => { m with facts := fun t src => if t ∈ txids ∧ src ≠ .event then none else m.facts t src }
  | .factsUpsert txid src f seq =>
    { m with facts := fun t s => if t = txid ∧ s = src then upserted (m.facts t s) (f, seq) else m.facts t s }

def Stmt.isLens : Stmt Facts → Bool
  | .lensUpsert .. => true
  | _ => false

/-! ## `write_round_of` -/

/-- What the rows of a read say of their lengths: the txids held, and the `len` rows to write. -/
structure Measured where
  skipped : List String
  lens : List (String × Lens)

def noLens : Lens := ⟨-1, -1, .none, .none, .none, .none, decoderVersion⟩

variable (d : Decoder Facts)

def Measured.row (table : Table) (acc : Measured) (r : String × Beef Facts) : Measured :=
  match r.2 with
  | .facts _ => acc
  | .held => { acc with skipped := r.1 :: acc.skipped }
  | .hex b =>
    let m := d.marks r.1 b
    match table with
    | .potBeefs => { acc with lens := entry acc.lens r.1 noLens fun l => { l with p := b.length, pb := m.1, pe := m.2 } }
    | .transactions => { acc with lens := entry acc.lens r.1 noLens fun l => { l with t := b.length, tb := m.1, te := m.2 } }

def measure (read : Read Facts) : Measured :=
  read.transactions.foldl (Measured.row d .transactions) (read.pot.foldl (Measured.row d .potBeefs) ⟨[], []⟩)

abbrev Pending (Facts : Type) := List ((String × Src) × Option Facts)

def Beef.decoded (txid : String) : Beef Facts → Option Facts
  | .hex b => d.facts txid b
  | .held => none
  | .facts f => f

/-- `facts_rows`, one row: `stored` is the first BEEF that decodes, `pot_beefs` before `transactions`. -/
def factsRow (table : Table) (pending : Pending Facts) (r : String × Beef Facts) : Pending Facts :=
  let f := r.2.decoded d r.1
  let pending := if table = .potBeefs then entry pending (r.1, .pot) f fun _ => f else pending
  entry pending (r.1, .stored) none fun s => s.or f

def unskipped (skipped : List String) (rows : BeefRows Facts) : BeefRows Facts := rows.filter fun r => r.1 ∉ skipped

def pendingOf (skipped : List String) (read : Read Facts) : Pending Facts :=
  (unskipped skipped read.transactions).foldl (factsRow d .transactions)
    ((unskipped skipped read.pot).foldl (factsRow d .potBeefs) [])

def writeRoundOf (keys : List String) (read : Read Facts) (seq : Int) : List (Stmt Facts) :=
  let m := measure d read
  let dropped := keys.filter (· ∉ m.skipped)
  let pending := pendingOf d m.skipped read
  (if dropped = [] then [] else [.lensDelete dropped]) ++
    ((m.lens.filter (·.1 ∉ m.skipped)).map fun e => .lensUpsert e.1 e.2 seq) ++
    [.copied .potBeefs, .copied .transactions] ++
    (if pending = [] then [] else [.factsDelete (pending.map (·.1.1))]) ++
    pending.filterMap fun e => e.2.map fun f => .factsUpsert e.1.1 e.1.2 f seq

/-! ## The apply -/

structure Closure (Facts : Type) where
  pot : List (String × Option Facts)
  transactions : List (String × Option Facts)

def Closure.rowsOf (c : Closure Facts) (keys : List String) : Read Facts :=
  let rows := fun l : List (String × Option Facts) => (l.filter (·.1 ∈ keys)).map fun r => (r.1, Beef.facts r.2)
  ⟨rows c.pot, rows c.transactions⟩

/-- The first round's read: the whole closure, a bootstrap page over its marks' keys, the narrowed read over the
mirror's and the event's keys and the marks' (`fits`: no value passed the record's bound), or a carried event's mirror. -/
inductive First where
  | full
  | page (marks : List String)
  | narrowed (touch marks : List String) (fits : Bool)
  | carried

structure Round (Facts : Type) where
  record : Record
  named : List String
  closure : Option (Closure Facts)
  fault : Option Nat

structure Apply (Facts : Type) where
  seq : Int
  first : First
  rounds : List (Round Facts)

inductive Source (Facts : Type) where
  | record (keys : List String) (read : Read Facts)
  | closure (keys : List String) (read : Read Facts)
  | mirror

def firstRead (m : Txfacts Facts) (r : Round Facts) : First → Source Facts
  | .full => .record r.named.dedup (r.record.readPlain r.named.dedup)
  | .page marks => .record marks.dedup (r.record.readPlain marks.dedup)
  | .narrowed touch marks fits =>
    let n := r.named ++ touch
    let keys := (n ++ marks).dedup
    let read := r.record.read (fun t => if t ∈ n then (m.lens t).map Prod.fst else none) keys
    if fits && !read.disagrees then .record keys read else .record keys (r.record.readPlain keys)
  | .carried => .mirror

def laterRead (first : First) (fetched : List String) (r : Round Facts) : Source Facts :=
  let keys := (r.named.filter (· ∉ fetched)).dedup
  match first, r.closure with
  | .carried, some c => .closure keys (c.rowsOf keys)
  | _, _ => .record keys (r.record.readPlain keys)

def writeRound (m : Txfacts Facts) (keys : List String) (read : Read Facts) (seq : Int) (fault : Option Nat) : Txfacts Facts × Bool :=
  let stmts := writeRoundOf d keys read seq
  ((fault.elim stmts stmts.take).foldl Stmt.exec m, fault.all (stmts.length ≤ ·))

/-- The rounds so far: the table, the keys fetched and the record reads they came from; `ok` until a write faults. -/
structure Progress (Facts : Type) where
  table : Txfacts Facts
  fetched : List String
  reads : List (List String × Record)
  ok : Bool

def Progress.take (p : Progress Facts) (seq : Int) (r : Round Facts) : Source Facts → Progress Facts
  | .mirror => { p with fetched := p.fetched ++ r.named }
  | .closure keys read =>
    let (m, ok) := writeRound d p.table keys read seq r.fault
    { p with table := m, fetched := p.fetched ++ keys, ok := ok }
  | .record keys read =>
    let (m, ok) := writeRound d p.table keys read seq r.fault
    { table := m, fetched := p.fetched ++ keys, reads := p.reads ++ [(keys, r.record)], ok := ok }

def Progress.later (p : Progress Facts) (a : Apply Facts) (r : Round Facts) : Progress Facts :=
  if p.ok then p.take d a.seq r (laterRead a.first p.fetched r) else p

def Apply.run (a : Apply Facts) (m : Txfacts Facts) : Progress Facts :=
  match a.rounds with
  | [] => ⟨m, [], [], true⟩
  | r :: rounds => rounds.foldl (fun p r => p.later d a r) (Progress.take d ⟨m, [], [], true⟩ a.seq r (firstRead m r a.first))

/-! ## The actor's life -/

inductive Move (Facts : Type) where
  | apply (a : Apply Facts)
  | event (txid : String) (f : Facts) (seq : Int)
  | reset

def empty : Txfacts Facts := ⟨fun _ _ => none, fun _ => none⟩

def step (m : Txfacts Facts) : Move Facts → Txfacts Facts
  | .apply a => (a.run d m).table
  | .event txid f seq => (Stmt.factsUpsert txid .event f seq).exec m
  | .reset => empty

def runs (m : Txfacts Facts) (moves : List (Move Facts)) : Txfacts Facts := moves.foldl (step d) m

end OverlayEngine.MirrorFacts
