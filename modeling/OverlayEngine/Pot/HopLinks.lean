import OverlayEngine.Basis.DerivedRows

/-!
# Hop links and seats, derived with the source writes

`hop_pot_links` joins a hop marker with the hop it names and the pot that spent the
hop, unless the identity filed a party of that pot; `pot_hop_seats` joins a pot with
the markers of its settle keys. Nine triggers keep both in the statement that writes
a source row; one batch fills them from what stood before.
-/

namespace OverlayEngine.Pot.HopLinks

open DerivedRows

/-- SQL `lower`: ASCII letters only. -/
def lower (s : String) : String := String.ofList (s.toList.map Char.toLower)

/-- A row of `hopparty_records`. -/
structure Marker where
  rowid : Int
  identity : String
  createdAt : Option Int
  txid : String
  outputIndex : Int
  hopVout : Int
  seatSettlePubkey : String
  markerValid : Option Int

/-- A row of `pot_records`. -/
structure PotRow where
  txid : String
  outputIndex : Int
  spent : Int
  spendingTxid : Option String
  paramsDecoded : Int
  recoveryHeight : Option Int
  pubA : Option String
  pubB : Option String

/-- A row of `potparty_records`. -/
structure Party where
  txid : String
  outputIndex : Int
  identity : String
  potTxid : String
  potVout : Int

structure Link where
  identity : String
  createdAt : Option Int
  potTxid : String
  potVout : Int
  markerRowid : Int
  deriving DecidableEq

structure Seat where
  potTxid : String
  potVout : Int
  markerRowid : Int

/-! The primary keys. -/

def PotRow.key (p : PotRow) : String × Int := (p.txid, p.outputIndex)

def Party.key (x : Party) : String × Int := (x.txid, x.outputIndex)

def Link.key (l : Link) : Int × String × Int := (l.markerRowid, l.potTxid, l.potVout)

def Seat.key (s : Seat) : String × Int × Int := (s.potTxid, s.potVout, s.markerRowid)

structure Sources where
  hops : Table Marker.rowid
  pots : Table PotRow.key
  parties : Table Party.key

/-! ## The queries -/

/-- The joins and the `WHERE` of a link: `pot` spent `hop`, the output `hp` names, and is decoded with `hp`'s settle key. -/
def Joins (hp : Marker) (hop pot : PotRow) : Prop :=
  (hop.txid = hp.txid ∧ hop.outputIndex = hp.hopVout) ∧
  (hop.spendingTxid.map lower = some pot.txid ∧ pot.outputIndex = 0) ∧
  hp.markerValid = some 1 ∧ hop.spent = 1 ∧
  pot.paramsDecoded = 1 ∧ pot.recoveryHeight.isSome ∧
  pot.pubA.isSome ∧ pot.pubB.isSome ∧
  (pot.pubA = some hp.seatSettlePubkey ∨ pot.pubB = some hp.seatSettlePubkey)

instance (hp : Marker) (hop pot : PotRow) : Decidable (Joins hp hop pot) := inferInstanceAs (Decidable (_ ∧ _))

def Sources.Filed (s : Sources) (identity : String) (pot : PotRow) : Prop :=
  ∃ x ∈ s.parties.rows, x.identity = identity ∧ x.potTxid = pot.txid ∧ x.potVout = pot.outputIndex

instance (s : Sources) (identity : String) (pot : PotRow) : Decidable (s.Filed identity pot) :=
  inferInstanceAs (Decidable (∃ x ∈ s.parties.rows, _))

def link (hp : Marker) (pot : PotRow) : Link := ⟨hp.identity, hp.createdAt, pot.txid, pot.outputIndex, hp.rowid⟩

/-- The links of the rows `sel` picks. -/
def Sources.links (s : Sources) (sel : Marker → PotRow → PotRow → Bool) : List Link :=
  s.hops.rows.flatMap fun hp => s.pots.rows.flatMap fun hop =>
    (s.pots.rows.filter fun pot => Joins hp hop pot ∧ ¬ s.Filed hp.identity pot ∧ sel hp hop pot).map (link hp)

def Seats (hp : Marker) (p : PotRow) : Prop :=
  (p.pubA = some hp.seatSettlePubkey ∨ p.pubB = some hp.seatSettlePubkey) ∧ p.pubA.isSome ∧ p.pubB.isSome

instance (hp : Marker) (p : PotRow) : Decidable (Seats hp p) := inferInstanceAs (Decidable (_ ∧ _))

def seat (hp : Marker) (p : PotRow) : Seat := ⟨p.txid, p.outputIndex, hp.rowid⟩

/-- The seats of the rows `sel` picks. -/
def Sources.seats (s : Sources) (sel : Marker → PotRow → Bool) : List Seat :=
  s.hops.rows.flatMap fun hp => (s.pots.rows.filter fun p => Seats hp p ∧ sel hp p).map (seat hp)

/-! ## The triggers -/

structure Db extends Sources where
  links : Table Link.key
  seats : Table Seat.key
  /-- `view_derivation_state` holds `hop-views-v1`. -/
  filled : Bool

def Db.empty : Db := ⟨⟨.empty, .empty, .empty⟩, .empty, .empty, false⟩

def Db.derive (db : Db) (new : Marker) : Db :=
  { db with
    links := db.links.insertAll (db.toSources.links fun hp _ _ => hp.rowid = new.rowid)
    seats := db.seats.insertAll (db.toSources.seats fun hp _ => hp.rowid = new.rowid) }

def Db.derivePot (db : Db) (new : PotRow) : Db :=
  { db with
    links := (db.links.insertAll (db.toSources.links fun hp _ _ => hp.txid = new.txid ∧ hp.hopVout = new.outputIndex)).insertAll
      (db.toSources.links fun _ hop pot => (pot.txid = new.txid ∧ pot.outputIndex = new.outputIndex) ∧
        hop.spendingTxid.map lower = some (lower new.txid))
    seats := db.seats.insertAll (db.toSources.seats fun _ p => p.txid = new.txid ∧ p.outputIndex = new.outputIndex) }

/-- The links a party of `old` had made redundant. -/
def Db.restore (db : Db) (old : Party) : Db :=
  { db with links := db.links.insertAll (db.toSources.links fun hp _ pot =>
      hp.identity = old.identity ∧ pot.txid = old.potTxid ∧ pot.outputIndex = old.potVout) }

def Db.dropFiled (db : Db) (new : Party) : Db :=
  { db with links := db.links.delete fun l => l.identity = new.identity ∧ l.potTxid = new.potTxid ∧ l.potVout = new.potVout }

def Db.dropMarker (db : Db) (old : Marker) : Db :=
  { db with
    links := db.links.delete fun l => l.markerRowid = old.rowid
    seats := db.seats.delete fun s => s.markerRowid = old.rowid }

def Db.dropPot (db : Db) (old : PotRow) : Db :=
  { db with
    links := (db.links.delete fun l => l.potTxid = old.txid ∧ l.potVout = old.outputIndex).delete fun l =>
      ∃ hp ∈ db.hops.rows, (hp.txid = old.txid ∧ hp.hopVout = old.outputIndex) ∧ hp.rowid = l.markerRowid
    seats := db.seats.delete fun s => s.potTxid = old.txid ∧ s.potVout = old.outputIndex }

def Db.hopInsert (db : Db) (new : Marker) : Db := db.derive new

def Db.potInsert (db : Db) (new : PotRow) : Db := db.derivePot new

def Db.partyInsert (db : Db) (new : Party) : Db := db.dropFiled new

def Db.hopUpdate (db : Db) (old new : Marker) : Db := (db.dropMarker old).derive new

def Db.potUpdate (db : Db) (old new : PotRow) : Db := (db.dropPot old).derivePot new

def Db.partyUpdate (db : Db) (old new : Party) : Db := (db.dropFiled new).restore old

def Db.hopDelete (db : Db) (old : Marker) : Db := db.dropMarker old

def Db.potDelete (db : Db) (old : PotRow) : Db := db.dropPot old

def Db.partyDelete (db : Db) (old : Party) : Db := db.restore old

/-! ## The statements -/

inductive Write where
  | insertHop (new : Marker)
  | updateHop (rowid : Int) (new : Marker)
  | deleteHop (rowid : Int)
  | insertPot (new : PotRow)
  | updatePot (key : String × Int) (new : PotRow)
  | deletePot (key : String × Int)
  | insertParty (new : Party)
  | updateParty (key : String × Int) (new : Party)
  | deleteParty (key : String × Int)

/-- `PRIMARY KEY (txid, outputIndex)` of another marker. -/
def Sources.markerTaken (s : Sources) (m : Marker) : Bool :=
  s.hops.rows.any fun hp => hp.rowid ≠ m.rowid ∧ hp.txid = m.txid ∧ hp.outputIndex = m.outputIndex

def Db.step (db : Db) : Write → Db
  | .insertHop new => if db.markerTaken new then db else match db.hops.insert? new with
    | none => db
    | some hops => { db with hops }.hopInsert new
  | .updateHop rowid new =>
    -- a live marker keeps its rowid
    let new := { new with rowid }
    if db.markerTaken new then db else match db.hops.update? rowid new with
    | none => db
    | some (old, hops) => { db with hops }.hopUpdate old new
  | .deleteHop rowid => match db.hops.rows.find? fun hp => hp.rowid = rowid with
    | none => db
    | some old => { db with hops := db.hops.delete fun hp => hp.rowid = rowid }.hopDelete old
  | .insertPot new => match db.pots.insert? new with
    | none => db
    | some pots => { db with pots }.potInsert new
  | .updatePot key new => match db.pots.update? key new with
    | none => db
    | some (old, pots) => { db with pots }.potUpdate old new
  | .deletePot key => match db.pots.rows.find? fun p => p.key = key with
    | none => db
    | some old => { db with pots := db.pots.delete fun p => p.key = key }.potDelete old
  | .insertParty new => match db.parties.insert? new with
    | none => db
    | some parties => { db with parties }.partyInsert new
  | .updateParty key new => match db.parties.update? key new with
    | none => db
    | some (old, parties) => { db with parties }.partyUpdate old new
  | .deleteParty key => match db.parties.rows.find? fun x => x.key = key with
    | none => db
    | some old => { db with parties := db.parties.delete fun x => x.key = key }.partyDelete old

def Db.run (db : Db) (writes : List Write) : Db := writes.foldl Db.step db

/-- `LINKS_BACKFILL`, `SEATS_BACKFILL` and `STATE_DONE`: every join, once. -/
def Db.backfill (db : Db) : Db :=
  { db with
    links := db.links.insertAll (if db.filled then [] else db.toSources.links fun _ _ _ => true)
    seats := db.seats.insertAll (if db.filled then [] else db.toSources.seats fun _ _ => true)
    filled := true }

def Sources.linksBackfill (s : Sources) : Table Link.key := Table.empty.insertAll (s.links fun _ _ _ => true)

def Sources.seatsBackfill (s : Sources) : Table Seat.key := Table.empty.insertAll (s.seats fun _ _ => true)

end OverlayEngine.Pot.HopLinks
