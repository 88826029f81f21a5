import Mathlib.Data.List.Basic
import Mathlib.Logic.Function.Basic

/-!
# Evictions and readmissions

An eviction moves every row of a transaction out of its table into the table's
twin and releases the spend pointers that name it; a readmission copies the twin
rows back and marks the pointers again. One definition for each statement the
two run; a batch of an eviction is one transaction, the statements of a restore
are not.
-/

namespace OverlayEngine.Evictions

inductive Tbl where
  | potRecords
  | outputs
  | appliedTransactions
  | transactions
  | lowRecords
  | potpartyRecords
  | potrefundRecords
  | resultMarkers
  | resultMarkersV2
  | handMarkers
  | lbMarkerRows
  deriving DecidableEq

inductive KeyCol where
  | txid
  | potTxid
  deriving DecidableEq

/-- `MOVED_TABLES`, one entry for each column that keys a table. -/
def movedTables : List (Tbl × KeyCol) :=
  [(.potRecords, .txid), (.outputs, .txid), (.appliedTransactions, .txid), (.transactions, .txid), (.lowRecords, .txid),
   (.potpartyRecords, .txid), (.potpartyRecords, .potTxid), (.potrefundRecords, .txid), (.potrefundRecords, .potTxid),
   (.resultMarkers, .txid), (.resultMarkers, .potTxid), (.resultMarkersV2, .txid), (.resultMarkersV2, .potTxid),
   (.handMarkers, .txid), (.handMarkers, .potTxid), (.lbMarkerRows, .txid), (.lbMarkerRows, .potTxid)]

/-- The columns of `pot_records` that go with a spend pointer. -/
structure Spend (τ : Type) where
  spentAt : Option Nat := none
  firstSpentAt : Option Nat := none
  spentHeight : Option Nat := none
  spenderFinal : Option Bool := none
  verdict : Option String := none
  verdictTxid : Option τ := none
  settleSigners : Option String := none
  deriving DecidableEq

/-- A row of any of the tables; `rest` is the columns no statement here reads or writes. -/
structure Row (τ β : Type) where
  txid : Option τ
  potTxid : Option τ := none
  outputIndex : Nat := 0
  spent : Bool := false
  spendingTxid : Option τ := none
  spentConfirmed : Bool := false
  spend : Spend τ := {}
  rest : β
  deriving DecidableEq

/-- A row of `pot_evictions`. -/
structure Ledger (τ : Type) where
  evictedAt : Nat
  readmittedAt : Option Nat := none
  releasedSpends : List (τ × Nat) := []

/-- A hop that the stored bytes of a readmitted transaction name, and the second its pointer is written. -/
structure Hop (τ : Type) where
  txid : τ
  outputIndex : Nat
  spenderFinal : Option Bool
  writtenAt : Nat

structure Store (τ β : Type) where
  table : Tbl → List (Row τ β) := fun _ => []
  twin : Tbl → List (Row τ β) := fun _ => []
  ledger : τ → Option (Ledger τ) := fun _ => none

section
variable {τ β : Type} [DecidableEq τ]

def Row.keyed (r : Row τ β) (c : KeyCol) (x : τ) : Bool :=
  match c with
  | .txid => r.txid = some x
  | .potTxid => r.potTxid = some x

def Row.pk {κ : Type} (r : Row τ β) (pk : Tbl → Option τ → Nat → β → κ) (t : Tbl) : κ := pk t r.txid r.outputIndex r.rest

/-- An unconfirmed spend pointer to `x`. -/
def Row.names (r : Row τ β) (x : τ) : Bool := decide (r.spendingTxid = some x) && !r.spentConfirmed

/-- `release_pot_spends_sql` on its row. -/
def Row.released (r : Row τ β) : Row τ β :=
  { r with spent := false, spendingTxid := none, spend := { firstSpentAt := r.spend.firstSpentAt } }

namespace Store

def count (rows : List (Row τ β)) (c : KeyCol) (x : τ) : Nat := rows.countP fun r => r.keyed c x

/-! ## The statements of an eviction -/

/-- `move_sql`: the copy into the twin, then the delete. -/
def move (σ : Store τ β) (x : τ) (p : Tbl × KeyCol) : Store τ β :=
  { σ with
    twin := Function.update σ.twin p.1 (σ.twin p.1 ++ (σ.table p.1).filter fun r => r.keyed p.2 x)
    table := Function.update σ.table p.1 ((σ.table p.1).filter fun r => !r.keyed p.2 x) }

def moveAll (σ : Store τ β) (x : τ) : Store τ β := movedTables.foldl (fun σ p => σ.move x p) σ

/-- The row of `pot_evictions` after a marker stamped `now`: one readmitted
after the stamp is kept, one readmitted before it opens again. -/
def marked (now : Nat) : Option (Ledger τ) → Ledger τ
  | none => { evictedAt := now }
  | some l => match l.readmittedAt with
    | none => l
    | some at' => if now < at' then l else { evictedAt := now }

/-- `OPEN_EVICTION_MARKER_SQL`; `CLOSE_EVICTION_MARKER_SQL` with the list kept is the same. -/
def openMarker (σ : Store τ β) (x : τ) (now : Nat) : Store τ β :=
  { σ with ledger := Function.update σ.ledger x (some (marked now (σ.ledger x))) }

def isOpen (σ : Store τ β) (x : τ) : Bool := (σ.ledger x).any fun l => l.readmittedAt.isNone

/-- `READMITTED_AFTER_SQL`. -/
def readmittedAfter (σ : Store τ β) (x : τ) (now : Nat) : Bool := (σ.ledger x).any fun l => l.readmittedAt.any fun at' => now < at'

/-- The outpoints of `pot_records` whose unconfirmed pointer is `x`. -/
def namedBy (σ : Store τ β) (x : τ) : List (τ × Nat) :=
  (σ.table .potRecords).filterMap fun r => if r.names x then r.txid.map fun t => (t, r.outputIndex) else none

/-- `merge_releases_sql`. -/
def mergeReleases (σ : Store τ β) (x : τ) (released : List (τ × Nat)) : Store τ β :=
  { σ with ledger := Function.update σ.ledger x ((σ.ledger x).map fun l =>
      if l.readmittedAt.isNone then { l with releasedSpends := (l.releasedSpends ++ σ.namedBy x ++ released).dedup } else l) }

/-- `release_pot_spends_sql`. -/
def release (σ : Store τ β) (x : τ) : Store τ β :=
  { σ with table := Function.update σ.table .potRecords ((σ.table .potRecords).map fun r => if r.names x then r.released else r) }

/-- The batch of `plan`: nothing where `READMISSION_FENCE_SQL` finds the row readmitted. -/
def batch (σ : Store τ β) (x : τ) (now : Nat) (released : List (τ × Nat)) : Option (Store τ β) :=
  let opened := σ.openMarker x now
  if opened.isOpen x then some ((((opened.moveAll x).mergeReleases x released).release x).openMarker x now) else none

/-- What `snapshot` reads: whether rows are to be moved or pointers released, and the list for the ledger. -/
structure Snapshot (τ : Type) where
  work : Bool
  released : List (τ × Nat)

def snapshot (σ : Store τ β) (x : τ) (repointed : List (τ × Nat)) : Snapshot τ :=
  { work := (movedTables.any fun p => decide (0 < count (σ.table p.1) p.2 x)) || (σ.table .potRecords).any fun r => r.names x
    released := (((σ.ledger x).map Ledger.releasedSpends).getD [] ++ σ.namedBy x ++ repointed).dedup }

/-! ## The statements of a readmission -/

variable {κ : Type} [DecidableEq κ] (pk : Tbl → Option τ → Nat → β → κ)

/-- `INSERT OR IGNORE`, by the table's primary key. -/
def insertIgnore (t : Tbl) (rows : List (Row τ β)) (r : Row τ β) : List (Row τ β) :=
  if rows.any fun r' => r'.pk pk t = r.pk pk t then rows else rows ++ [r]

/-- `restore_sql`'s copy back. -/
def copyBack (σ : Store τ β) (x : τ) (p : Tbl × KeyCol) : Store τ β :=
  { σ with table := Function.update σ.table p.1 (((σ.twin p.1).filter fun r => r.keyed p.2 x).foldl (insertIgnore pk p.1) (σ.table p.1)) }

/-- `restore_sql`'s drop from the twin. -/
def dropTwin (σ : Store τ β) (x : τ) (p : Tbl × KeyCol) : Store τ β :=
  { σ with twin := Function.update σ.twin p.1 ((σ.twin p.1).filter fun r => !r.keyed p.2 x) }

/-- `remark_pot_spend_sql`: only where nothing newer took the outpoint. -/
def remark (σ : Store τ β) (x : τ) (now : Nat) (o : τ × Nat) : Store τ β :=
  { σ with table := Function.update σ.table .potRecords ((σ.table .potRecords).map fun r =>
      if r.txid = some o.1 ∧ r.outputIndex = o.2 ∧ r.spendingTxid = none then
        { r with spent := true, spendingTxid := some x, spend := { r.spend with spentAt := some (now / 1000) } }
      else r) }

def remarkSpends (σ : Store τ β) (x : τ) (now : Nat) (released : List (τ × Nat)) : Store τ β :=
  released.foldl (fun σ o => σ.remark x now o) σ

/-- `MARK_SPENT_IF_UNPOINTED_SQL`. -/
def markIfUnpointed (σ : Store τ β) (x : τ) (o : Hop τ) : Store τ β :=
  { σ with table := Function.update σ.table .potRecords ((σ.table .potRecords).map fun r =>
      if r.txid = some o.txid ∧ r.outputIndex = o.outputIndex ∧ r.spent = false ∧ r.spendingTxid = none ∧ r.spentConfirmed = false then
        { r with
          spent := true
          spendingTxid := some x
          spend := { r.spend with
            spentAt := some o.writtenAt
            firstSpentAt := r.spend.firstSpentAt.or (some o.writtenAt)
            spenderFinal := o.spenderFinal } }
      else r) }

def joinHopSpends (σ : Store τ β) (x : τ) (hops : List (Hop τ)) : Store τ β := hops.foldl (fun σ o => σ.markIfUnpointed x o) σ

/-- `READMIT_EVICTION_SQL`. -/
def stamp (σ : Store τ β) (x : τ) (now : Nat) : Store τ β :=
  { σ with ledger := Function.update σ.ledger x ((σ.ledger x).map fun l =>
      if l.readmittedAt.isNone then { l with readmittedAt := some now } else l) }

/-- `twin_rows_of`. -/
def twinRows (σ : Store τ β) (x : τ) : Bool := movedTables.any fun p => decide (0 < count (σ.twin p.1) p.2 x)

/-! ## The two operations, each run alone -/

/-- One key of `restore_twins`; nothing where the copy back landed no row (a fault). -/
def restoreKey (σ : Store τ β) (x : τ) (p : Tbl × KeyCol) : Option (Store τ β) :=
  if count (σ.twin p.1) p.2 x = 0 then some σ
  else
    let copied := σ.copyBack pk x p
    if count (copied.table p.1) p.2 x = 0 then none else some (copied.dropTwin x p)

def restoreTwins (σ : Store τ β) (x : τ) : Option (Store τ β) := movedTables.foldlM (fun σ p => σ.restoreKey pk x p) σ

/-- `readmit_if_evicted`, stamped `now`; `joins` are the hops of the readmitted
transaction that its stored bytes name. Nothing where the restore faults. -/
def readmitIfEvicted (joins : Store τ β → τ → List (Hop τ)) (σ : Store τ β) (x : τ) (now : Nat) : Option (Store τ β) :=
  match σ.ledger x with
  | none => some σ
  | some l =>
    if l.readmittedAt.isSome then some σ
    else (σ.restoreTwins pk x).bind fun restored =>
      let stamped := (restored.remarkSpends x now l.releasedSpends).stamp x now
      let belt := if stamped.twinRows x then
          (stamped.restoreTwins pk x).map fun again => again.remarkSpends x now (((again.ledger x).map Ledger.releasedSpends).getD [])
        else some stamped
      belt.map fun done => done.joinHopSpends x (joins done x)

/-- One pass of `evict`. -/
def pass (σ : Store τ β) (x : τ) (now : Nat) (repointed : List (τ × Nat)) : Store τ β :=
  (σ.batch x now (σ.snapshot x repointed).released).getD σ

/-- `eviction_write::evict`, stamped `now`, with no fault: two passes, the second where there is something left to move. -/
def evict (σ : Store τ β) (x : τ) (now : Nat) (repointed : List (τ × Nat)) : Option (Store τ β) :=
  let opened := σ.openMarker x now
  if opened.readmittedAfter x now then some opened
  else
    let first := opened.pass x now repointed
    let second := if (first.snapshot x repointed).work then first.pass x now repointed else first
    if second.readmittedAfter x now then second.restoreTwins pk x else some second

end Store

end

end OverlayEngine.Evictions
