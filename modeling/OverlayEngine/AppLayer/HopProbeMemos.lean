import OverlayEngine.Basis.DerivedRows
import OverlayEngine.Types

/-!
# The hop probe memos and their reorg tombstone

The belt writes what a courier said of an outpoint as a memo and as evidence. A reorg
stamps a tombstone with its time and its reach, after writing down what the stored
tombstone refuses, and then clears the confirmations at or above its floor. A word is
judged under the tombstone at each read.
-/

namespace OverlayEngine.HopProbeMemos

open DerivedRows

structure Ms where
  val : Int
  safe : val ≤ 9007199254740991
  deriving DecidableEq

structure Height where
  val : Nat
  safe : val ≤ 9007199254740991
  deriving DecidableEq

/-- `hop_chain_probes.outpoint` by its spelling: `<txid>.<vout>`, `<txid>:<vout>`, `proofmined:<spender>.<height>`, and
the app layer's own rows. -/
inductive Key where
  | memo (txid : Txid) (vout : Nat)
  | evidence (txid : Txid) (vout : Nat)
  | proofmined (spender : Txid) (height : Nat)
  | spentany (txid : Txid) (vout : Nat)
  | homeproof (outpoint : String)
  | homecursor (identity : String)
  deriving DecidableEq

/-- `substr(outpoint,65,1) IN ('.',':')`: an outpoint's own row, a memo or evidence. -/
def Key.hop : Key → Bool
  | .memo _ _ => true
  | .evidence _ _ => true
  | _ => false

structure Probe where
  probedAtMs : Ms
  spent : Bool
  spendingTxid : Option Txid
  spentConfirmed : Option Bool
  tipHeight : Option Height
  deriving DecidableEq

/-- The reserved row `reorg-clear.0`: the time of the last clear and its reach. Its `spent` is 0 and its
`spentConfirmed` NULL for its whole life, so no predicate on the other rows reads it. -/
structure Tombstone where
  probedAtMs : Ms
  tipHeight : Option Height

def hopProbeMemoTtlMs : Int := 7200000

def hopProbeMemoReorgGraceMs : Int := 1800000

def reorgTipLagBlocks : Nat := 6

/-! ## The predicates in SQL -/

/-- `clear_pred!` at the reach `floor`. -/
def clearPred (floor : Height) (k : Key) (p : Probe) : Bool :=
  decide (p.spentConfirmed = some true) && match k with
    | .homeproof _ => false
    | .homecursor _ => false
    | .proofmined _ height => decide (floor.val ≤ height)
    | _ => p.tipHeight.all fun t => decide (floor.val ≤ t.val + reorgTipLagBlocks)

/-- `refused_pred!`: a confirmed spend the stored tombstone refuses. -/
def refusedPred (z : Option Tombstone) (k : Key) (p : Probe) : Bool :=
  p.spent && decide (p.spentConfirmed = some true) && k.hop && z.any fun z => decide (p.probedAtMs.val < z.probedAtMs.val + hopProbeMemoReorgGraceMs) &&
    !(decide (p.probedAtMs.val < z.probedAtMs.val) &&
      z.tipHeight.any fun r => p.tipHeight.any fun t => decide (t.val + reorgTipLagBlocks < r.val))

/-- `expire_pred!`, with the index's rows at the sweep. -/
def expirePred (bound : Int) (indexed : Txid → Nat → Bool) (k : Key) (p : Probe) : Bool :=
  decide (p.probedAtMs.val ≤ bound) && match k with
    | .homeproof _ => false
    | .homecursor _ => false
    | .proofmined _ _ => false
    | .evidence txid vout => !indexed txid vout
    | _ => true

/-- `HOP_PROBE_MEMO_REORG_MARK_SQL`: the deepest reach inside the grace, its own a grace or more later. -/
def markSql (z : Option Tombstone) (now : Ms) (floor : Height) : Tombstone :=
  match z with
  | none => ⟨now, some floor⟩
  | some z =>
    { tipHeight :=
        if ((now.val - z.probedAtMs.val).natAbs : Int) < hopProbeMemoReorgGraceMs then z.tipHeight.map fun r => if r.val ≤ floor.val then r else floor
        else if z.probedAtMs.val ≤ now.val then some floor else z.tipHeight
      probedAtMs := if z.probedAtMs.val ≤ now.val then now else z.probedAtMs }

/-! ## The word as it is served -/

def i64Max : Int := 9223372036854775807

def u64Max : Nat := 18446744073709551615

/-- `i64::saturating_add` of a positive number. -/
def saturatingAddMs (a b : Int) : Int := min (a + b) i64Max

def saturatingAdd (a b : Nat) : Nat := min (a + b) u64Max

def latchRecheckDepth : Nat := 6

def probeMemoReorgGraceMs : Int := 1800000

def inReorgGrace (takenAtMs : Int) (reorgClearAtMs : Option Int) : Bool :=
  reorgClearAtMs.any fun at_ => decide (takenAtMs < saturatingAddMs at_ probeMemoReorgGraceMs)

def confirmedInReorgGrace (spentConfirmed : Option Bool) (takenAtMs : Int) (reorgClearAtMs : Option Int) : Bool :=
  decide (spentConfirmed = some true) && inReorgGrace takenAtMs reorgClearAtMs

def confirmationRefused (m : Probe) (reorgClearAtMs : Option Int) : Bool :=
  m.spent && confirmedInReorgGrace m.spentConfirmed m.probedAtMs.val reorgClearAtMs

def clearUnlessSurvived (m : Probe) (reorgClearAtMs : Option Int) (reach : Option Nat) : Option Int :=
  let survived := (reorgClearAtMs.any fun at_ => decide (m.probedAtMs.val < at_)) &&
    reach.any fun r => m.tipHeight.any fun t => decide (saturatingAdd t.val latchRecheckDepth < r)
  if survived then none else reorgClearAtMs

def refused (m : Probe) (z : Option Tombstone) : Bool :=
  confirmationRefused m (clearUnlessSurvived m (z.map fun z => z.probedAtMs.val) (z.bind fun z => z.tipHeight.map Height.val))

/-- `stale_memo_word`'s `spent_confirmed`. -/
def servedConfirmation (m : Probe) (z : Option Tombstone) : Option Bool := if refused m z then none else m.spentConfirmed

/-! ## The marks -/

structure Filed where
  identity : String
  gameId : String
  txid : Txid
  vout : Nat

structure Filings where
  hopparty : List Filed := []
  hopsweep : List Filed := []
  releasedHopEvidence : List Filed := []
  potparty : List Filed := []
  owedRowWords : List (String × String × Txid) := []
  owedRows : List (String × String × String) := []

/-- A row of `owed_dirty` under the source `probe`. -/
structure Mark where
  identity : String
  gameId : String
  sourceKey : Key
  downgrade : Bool

def Filings.subjects (f : Filings) (txid : Txid) (vout : Nat) : List (String × String) :=
  ((f.hopparty ++ f.hopsweep ++ f.releasedHopEvidence ++ f.potparty).filter fun r => r.txid = txid ∧ r.vout = vout).map fun r => (r.identity, r.gameId)

def Filings.subjectsOf (f : Filings) : Key → List (String × String)
  | .memo txid vout => f.subjects txid vout
  | .evidence txid vout => f.subjects txid vout
  | .proofmined spender _ => f.owedRowWords.flatMap fun w =>
      (f.owedRows.filter fun r => w.2.2 = spender ∧ r.1 = w.1 ∧ r.2.1 = w.2.1).map fun r => (r.1, r.2.2)
  | _ => []

/-- `probe_marks!` over the rows picked. -/
def probeMarks (f : Filings) (g : List (Key × Probe)) (down : Key → Probe → Bool) : List Mark :=
  g.flatMap fun r => (f.subjectsOf r.1).map fun s => ⟨s.1, s.2, r.1, down r.1 r.2⟩

def confirmedDown (_ : Key) (p : Probe) : Bool := decide (p.spentConfirmed = some true)

/-! ## The batches -/

abbrev Probes := Table (Prod.fst : Key × Probe → Key)

structure World where
  probes : Probes
  tombstone : Option Tombstone := none
  filings : Filings := {}
  /-- The rows the batches wrote to `owed_dirty`, the last batch's first. -/
  marked : List Mark := []

def demote (sel : Key → Probe → Bool) (r : Key × Probe) : Key × Probe :=
  if sel r.1 r.2 then (r.1, { r.2 with spentConfirmed := none }) else r

theorem demote_fst (sel : Key → Probe → Bool) (r : Key × Probe) : (demote sel r).1 = r.1 := by
  unfold demote
  split <;> rfl

def Probes.demote (t : Probes) (sel : Key → Probe → Bool) : Probes := t.modify (HopProbeMemos.demote sel) (demote_fst sel)

def Probes.picked (t : Probes) (sel : Key → Probe → Bool) : List (Key × Probe) := t.rows.filter fun r => sel r.1 r.2

def Key.colon : Key → Bool
  | .evidence _ _ => true
  | _ => false

namespace World

/-- `HOP_PROBE_MEMO_REORG_REFUSAL_MARK_SQL`. -/
def refusalMarks (w : World) : List Mark := probeMarks w.filings (w.probes.picked (refusedPred w.tombstone)) confirmedDown

/-- `HOP_PROBE_MEMO_REORG_CLEAR_MARK_SQL`. -/
def clearMarks (w : World) (floor : Height) : List Mark := probeMarks w.filings (w.probes.picked (clearPred floor)) confirmedDown

/-- `HOP_PROBE_MEMO_REORG_STAMP`. -/
def stamp (w : World) (now : Ms) (floor : Height) : World :=
  { w with
    marked := w.refusalMarks ++ w.marked
    probes := w.probes.demote (refusedPred w.tombstone)
    tombstone := some (markSql w.tombstone now floor) }

def clear (w : World) (floor : Height) : World :=
  { w with
    marked := w.clearMarks floor ++ w.marked
    probes := Probes.demote (w.probes.delete fun r => clearPred floor r.1 r.2 && !r.1.colon) fun k p => clearPred floor k p && k.colon }

def repeated (w : World) (k : Key) (p : Probe) : Bool :=
  match k with
  | .memo txid vout => w.probes.rows.any fun e => e.1 = .evidence txid vout ∧ e.2 = p
  | _ => false

def expireMarked (w : World) (k : Key) (p : Probe) : Bool :=
  match k with
  | .evidence _ _ => true
  | .memo _ _ => !w.repeated k p
  | _ => false

/-- `expire`. -/
def sweep (w : World) (now : Ms) (indexed : Txid → Nat → Bool) : World :=
  let pred := expirePred (now.val - hopProbeMemoTtlMs) indexed
  { w with
    marked := probeMarks w.filings (w.probes.picked fun k p => pred k p && w.expireMarked k p)
      (fun k p => k.colon && decide (p.spentConfirmed = some true)) ++ w.marked
    probes := w.probes.delete fun r => pred r.1 r.2 }

end World

inductive Found where
  | memo (txid : Txid) (vout : Nat) (p : Probe)
  | evidence (txid : Txid) (vout : Nat) (p : Probe)
  /-- The proof latch of a spender. -/
  | latch (spender : Txid) (height : Nat) (p : Probe)
  /-- An unspent answer retires the evidence. -/
  | cleared (txid : Txid) (vout : Nat)

def Found.key : Found → Key
  | .memo txid vout _ => .memo txid vout
  | .evidence txid vout _ => .evidence txid vout
  | .latch spender height _ => .proofmined spender height
  | .cleared txid vout => .evidence txid vout

def Found.exec (t : Probes) : Found → Probes
  | .memo txid vout p => t.upsert (.memo txid vout, p)
  | .evidence txid vout p => t.upsert (.evidence txid vout, p)
  | .latch spender height p => t.upsert (.proofmined spender height, p)
  | .cleared txid vout => t.delete fun r => r.1 = .evidence txid vout

inductive Event where
  | find (found : List Found)
  | stamp (now : Ms) (floor : Height)
  | clear (floor : Height)
  | sweep (now : Ms) (indexed : Txid → Nat → Bool)
  | filed (filings : Filings)
  | faulted

def World.step (w : World) : Event → World
  | .find found => { w with probes := found.foldl Found.exec w.probes }
  | .stamp now floor => w.stamp now floor
  | .clear floor => w.clear floor
  | .sweep now indexed => w.sweep now indexed
  | .filed filings => { w with filings }
  | .faulted => w

def World.run (w : World) (events : List Event) : World := events.foldl World.step w

end OverlayEngine.HopProbeMemos
