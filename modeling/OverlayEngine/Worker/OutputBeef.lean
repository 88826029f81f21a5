import OverlayEngine.Basis.KeyedRows
import OverlayEngine.Types

/-!
# The BEEF of a held output

`D1Storage` keeps the outputs and the transactions' BEEFs in two tables. An
insert writes its two rows one after the other, a page's batch is one
transaction, and a delete drops its output, counts those left and, when it
counted none, drops the transaction. Any call may run between two statements
of another.
-/

namespace OverlayEngine.OutputBeef

open KeyedRows

local instance : LawfulBEq (Txid × Topic) := inferInstance

/-- A row of `transactions`. -/
structure TxRow where
  txid : Txid
  beef : Option Bytes
  hasProof : Bool
  createdAt : Nat
  retiredMs : Option Nat
  retiredReason : Option String
  proofHeight : Option Nat
  admissionOrigin : String

structure Tables where
  outputs : List Output := []
  transactions : List TxRow := []
  applied : List (Txid × Topic) := []

inductive PageWrite where
  | output (o : Output) (beef : Option Bytes) (gasp : Bool)
  | applied (txid : Txid) (topic : Topic)
  | backend (deferred : Bool)

inductive Query where
  | insertOutput (o : Output)
  | insertOutputTx (gasp : Bool) (txid : Txid) (beef : Bytes)
  | insertApplied (txid : Txid) (topic : Topic)
  | deferred
  deriving DecidableEq

/-- The unique index of `outputs`. -/
def outputKey (o : Output) : Txid × Nat × Topic := (o.txid, o.outputIndex, o.topic)

def outputQueries (o : Output) (beef : Option Bytes) (gasp : Bool) : List Query :=
  .insertOutput { o with score := some (o.score.getD 0) } ::
    match beef with
    | some b => if b.isEmpty then [] else [.insertOutputTx gasp o.txid b]
    | none => []

def appliedQuery (txid : Txid) (topic : Topic) : Query := .insertApplied txid topic

namespace Tables

def insertOutput (t : Tables) (o : Output) : Tables :=
  match row outputKey t.outputs (outputKey o) with
  | some _ => t
  | none => { t with outputs := t.outputs ++ [o] }

def tx (t : Tables) (txid : Txid) : Option TxRow := row TxRow.txid t.transactions txid

/-- `INSERT_OUTPUT_TX_SQL`, and `INSERT_OUTPUT_TX_GASP_SQL` where `gasp`. -/
def insertOutputTx (t : Tables) (gasp : Bool) (txid : Txid) (beef : Bytes) (now : Nat) : Tables :=
  let old := t.tx txid
  { t with transactions := remove TxRow.txid (· = txid) t.transactions ++
      [{ txid := txid, beef := some beef, hasProof := false
         createdAt := (old.map TxRow.createdAt).getD now
         retiredMs := old.bind TxRow.retiredMs
         retiredReason := old.bind TxRow.retiredReason
         proofHeight := none
         admissionOrigin := if gasp then "gasp" else (old.map TxRow.admissionOrigin).getD "submit" }] }

def insertApplied (t : Tables) (txid : Txid) (topic : Topic) : Tables :=
  if (txid, topic) ∈ t.applied then t else { t with applied := t.applied ++ [(txid, topic)] }

def deleteOutputRow (t : Tables) (txid : Txid) (outputIndex : Nat) (topic : Topic) : Tables :=
  { t with outputs := remove outputKey (· = (txid, outputIndex, topic)) t.outputs }

/-- `SELECT COUNT(*) … WHERE txid = ?`. -/
def count (t : Tables) (txid : Txid) : Nat := (t.outputs.filter (·.txid = txid)).length

def deleteTransaction (t : Tables) (txid : Txid) : Tables :=
  { t with transactions := remove TxRow.txid (· = txid) t.transactions }

def exec (t : Tables) (now : Nat) : Query → Tables
  | .insertOutput o => t.insertOutput o
  | .insertOutputTx gasp txid beef => t.insertOutputTx gasp txid beef now
  | .insertApplied txid topic => t.insertApplied txid topic
  | .deferred => t

end Tables

def pageQueries : List PageWrite → Option (List Query)
  | [] => some []
  | .output o beef gasp :: ws => (pageQueries ws).map (outputQueries o beef gasp ++ ·)
  | .applied txid topic :: ws => (pageQueries ws).map (appliedQuery txid topic :: ·)
  | .backend true :: ws => (pageQueries ws).map (.deferred :: ·)
  | .backend false :: _ => none

inductive Call where
  | inserting (left : List Query)
  | batching (queries : List Query)
  | deleting (txid : Txid) (outputIndex : Nat) (topic : Topic)
  | counting (txid : Txid)
  | dropping (txid : Txid)
  | returned
  deriving DecidableEq

def insertOutputWithOrigin (o : Output) (beef : Option Bytes) (gasp : Bool) : Call := .inserting (outputQueries o beef gasp)

def writeBatch (writes : List PageWrite) : Call :=
  match pageQueries writes with
  | none => .returned
  | some [] => .returned
  | some queries => .batching queries

def deleteOutput (txid : Txid) (outputIndex : Nat) (topic : Topic) : Call := .deleting txid outputIndex topic

def Call.next (t : Tables) (now : Nat) : Call → Tables × Call
  | .inserting [] => (t, .returned)
  | .inserting [q] => (t.exec now q, .returned)
  | .inserting (q :: rest) => (t.exec now q, .inserting rest)
  | .batching queries => (queries.foldl (·.exec now ·) t, .returned)
  | .deleting txid outputIndex topic => (t.deleteOutputRow txid outputIndex topic, .counting txid)
  | .counting txid => (t, if t.count txid = 0 then .dropping txid else .returned)
  | .dropping txid => (t.deleteTransaction txid, .returned)
  | .returned => (t, .returned)

structure World where
  tables : Tables
  calls : List Call

structure Turn where
  call : Nat
  now : Nat

def World.step (w : World) (m : Turn) : World :=
  match w.calls[m.call]? with
  | none => w
  | some c =>
    let (t, c') := c.next w.tables m.now
    ⟨t, w.calls.set m.call c'⟩

def World.run (w : World) (turns : List Turn) : World := turns.foldl World.step w

def World.AllReturned (w : World) : Prop := ∀ c ∈ w.calls, c = .returned

instance (w : World) : Decidable w.AllReturned := inferInstanceAs (Decidable (∀ c ∈ w.calls, c = .returned))

/-! ## What an outputs row is owed -/

/-- `transactions` has a row of `x` with bytes. -/
def Tables.HasBeef (t : Tables) (x : Txid) : Prop := ∃ r ∈ t.transactions, r.txid = x ∧ r.beef.getD [] ≠ []

def Tables.Holds (t : Tables) (x : Txid) : Prop := ∃ o ∈ t.outputs, o.txid = x

def Tables.BeefKept (t : Tables) : Prop := ∀ x, t.Holds x → t.HasBeef x

/-- The query writes the BEEF of `x`. -/
def Query.writes (x : Txid) : Query → Bool
  | .insertOutputTx _ txid beef => txid = x && !beef.isEmpty
  | _ => false

def Call.left : Call → List Query
  | .inserting left => left
  | .batching queries => queries
  | _ => []

/-- One of the calls still writes the BEEF of `x`. -/
def ToCome (calls : List Call) (x : Txid) : Prop := ∃ c ∈ calls, ∃ q ∈ c.left, q.writes x = true

inductive Call.Begins : Call → Prop where
  | insert (o : Output) (beef : Bytes) (gasp : Bool) (h : beef ≠ []) : Begins (insertOutputWithOrigin o (some beef) gasp)
  | batch (writes : List PageWrite) : Begins (writeBatch writes)
  | delete (txid : Txid) (outputIndex : Nat) (topic : Topic) : Begins (deleteOutput txid outputIndex topic)

def World.Meets (w : World) (m : Turn) : Prop :=
  match w.calls[m.call]? with
  | some (.dropping x) => w.tables.Holds x → ToCome w.calls x
  | some (.batching queries) => ∀ o, .insertOutput o ∈ queries →
      (∃ q ∈ queries, q.writes o.txid = true) ∨ w.tables.HasBeef o.txid ∨ ToCome (w.calls.set m.call .returned) o.txid
  | _ => True

def World.Exposed (w : World) (x : Txid) : Prop := w.tables.Holds x ∧ ¬w.tables.HasBeef x ∧ ¬ToCome w.calls x

end OverlayEngine.OutputBeef
