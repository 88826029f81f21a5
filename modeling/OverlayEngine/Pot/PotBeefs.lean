import Mathlib.Data.List.Dedup
import Mathlib.Logic.Function.Basic
import OverlayEngine.Types

/-!
# The stored BEEF of a pot and its verified latch

`store_beef` probes a row and then writes it; the completion pass reads a page of
unlatched rows, asks the header source about the bump each of them carries, and
latches them by txid in statements of up to 33, or writes a compacted BEEF over a
proof a courier gave. Any call may run between two statements of another.
-/

namespace OverlayEngine.Pot.PotBeefs

/-- A row of `pot_beefs`. -/
structure Row where
  beef : Bytes
  createdAt : Option Nat
  hasProof : Bool
  proofVerified : Bool
  structurallyUnprovable : Bool
  proofHeight : Option Nat
  deriving DecidableEq

/-- What the BEEF reader and the transaction library make of bytes and of merkle paths (`μ`). -/
structure Sdk (μ : Type) where
  /-- `own_bump`: the path the BEEF names for the transaction's own entry. -/
  ownBump : Bytes → Txid → Option μ
  potBeefHasProof : Txid → Bytes → Bool
  /-- `compute_root` of the path as its hex parses; none where either fails. -/
  computeRoot : μ → Txid → Option String
  blockHeight : μ → Nat
  stitchAndTrimPotBeef : Txid → Bytes → μ → Option Bytes

namespace Sdk

variable {μ : Type} (x : Sdk μ)

def claims (beef : Bytes) (txid : Txid) : Option (String × Nat) :=
  (x.ownBump beef txid).bind fun bump => (x.computeRoot bump txid).map (·, x.blockHeight bump)

def potBeefBumpHeight (txid : Txid) (beef : Bytes) : Option Nat := (x.ownBump beef txid).map x.blockHeight

end Sdk

/-- `beef_write_allowed`: absent or strictly longer. -/
def beefWriteAllowed (existingLen : Option Nat) (newLen : Nat) : Bool :=
  decide (0 < newLen) && existingLen.all fun len => decide (len < newLen)

/-! ## The statements -/

abbrev Rows := Txid → Option Row

/-- `POT_BEEF_ADMIT_WRITE_SQL`. -/
def admitWrite (rows : Rows) (txid : Txid) (beef : Bytes) (hasProof : Bool) (now : Nat) : Rows :=
  let old := rows txid
  Function.update rows txid (some
    { beef
      createdAt := (old.bind Row.createdAt).or (some now)
      hasProof
      proofVerified := false
      structurallyUnprovable := old.any Row.structurallyUnprovable
      proofHeight := none })

/-- `POT_BEEF_VERIFIED_WRITE_SQL`. -/
def verifiedWrite (rows : Rows) (txid : Txid) (beef : Bytes) (now : Nat) (proofHeight : Option Nat) : Rows :=
  Function.update rows txid (some
    { beef, createdAt := some now, hasProof := true, proofVerified := true, structurallyUnprovable := false, proofHeight })

structure Latch where
  txid : Txid
  anchor : Option Nat
  stored : Bytes
  deriving DecidableEq

/-- `pot_beef_mark_proven_at_batch_sql`. -/
def markProvenAt (rows : Rows) (chunk : List Latch) : Rows := fun txid =>
  match chunk.find? fun l => l.txid = txid with
  | none => rows txid
  | some l => (rows txid).map fun r =>
    { r with proofVerified := true, hasProof := true, structurallyUnprovable := false, proofHeight := l.anchor.or r.proofHeight }

/-- `unlatch_pot_beef_sql`. -/
def unlatch (rows : Rows) (txid : Txid) : Rows := Function.update rows txid ((rows txid).map fun r => { r with proofVerified := false })

/-- `pot_beef_candidates_sql`: of the rows the random order draws first. -/
def candidates (rows : Rows) (drawn : List Txid) (limit minAgeSecs now : Nat) : List (Txid × Bytes) :=
  (drawn.dedup.filterMap fun txid => (rows txid).bind fun r =>
    if !r.proofVerified && !r.structurallyUnprovable && r.createdAt.all (fun t => decide (t + minAgeSecs ≤ now)) then some (txid, r.beef) else none).take limit

def markProvenAtChunk : Nat := 33

/-! ## The calls -/

inductive Call where
  | probing (txid : Txid) (beef : Bytes)
  | admitting (txid : Txid) (beef : Bytes)
  | unlatching (txid : Txid)
  | scanning (limit minAgeSecs : Nat)
  | checking (todo : List (Txid × Bytes)) (latched : List Latch)
  | fetching (txid : Txid) (stored : Bytes) (todo : List (Txid × Bytes)) (latched : List Latch)
  | compacting (txid : Txid) (compacted : Bytes) (todo : List (Txid × Bytes)) (latched : List Latch)
  | latching (latched : List Latch)
  | returned
  deriving DecidableEq

def storeBeef (txid : Txid) (beef : Bytes) : Call := .probing txid beef

def completePotBeefLatches (limit minAgeSecs : Nat) : Call := .scanning limit minAgeSecs

def unlatchPotBeefProof (txid : Txid) : Call := .unlatching txid

inductive Fate where
  | ran
  | lost
  | landed
  deriving DecidableEq

structure Turn (μ : Type) where
  call : Nat
  now : Nat := 0
  fate : Fate := .ran
  drawn : List Txid := []
  /-- The header source's word on the root it is asked about. -/
  valid : Bool := false
  /-- The courier's proof. -/
  proof : Option μ := none

structure Accepted where
  call : Nat
  txid : Txid
  root : String
  height : Nat
  deriving DecidableEq

structure World where
  rows : Rows
  calls : List Call
  accepted : List Accepted := []
  /-- The call that set the latch of a row last. -/
  latcher : Txid → Option Nat := fun _ => none

namespace World

variable {μ : Type} (x : Sdk μ)

/-- `verify_bump`: the question put and whether the answer is yes. -/
def verify (w : World) (call : Nat) (txid : Txid) (bump : μ) (valid : Bool) : Bool × World :=
  match x.computeRoot bump txid with
  | none => (false, w)
  | some root => if valid then (true, { w with accepted := ⟨call, txid, root, x.blockHeight bump⟩ :: w.accepted }) else (false, w)

def setCall (w : World) (i : Nat) (c : Call) : World := { w with calls := w.calls.set i c }

/-- The next statement of call `m.call`. -/
def step (w : World) (m : Turn μ) : World :=
  match w.calls[m.call]? with
  | none => w
  | some c => match c with
    | .probing txid beef =>
      let existing := w.rows txid
      w.setCall m.call (if m.fate ≠ .ran || existing.any Row.proofVerified || !beefWriteAllowed (existing.map fun r => r.beef.length) beef.length
        then .returned else .admitting txid beef)
    | .admitting txid beef =>
      { w with rows := if m.fate = Fate.lost then w.rows else admitWrite w.rows txid beef (x.potBeefHasProof txid beef) m.now }.setCall m.call .returned
    | .unlatching txid => { w with rows := if m.fate = Fate.lost then w.rows else unlatch w.rows txid }.setCall m.call .returned
    | .scanning limit minAgeSecs =>
      w.setCall m.call (if m.fate ≠ .ran then .returned else .checking (candidates w.rows m.drawn limit minAgeSecs m.now) [])
    | .checking [] latched => w.setCall m.call (.latching latched)
    | .checking ((txid, stored) :: todo) latched =>
      match x.ownBump stored txid with
      | none => w.setCall m.call (.fetching txid stored todo latched)
      | some bump => match w.verify x m.call txid bump m.valid with
        | (true, w) => w.setCall m.call (.checking todo (latched ++ [⟨txid, some (x.blockHeight bump), stored⟩]))
        | (false, w) => w.setCall m.call (.fetching txid stored todo latched)
    | .fetching txid stored todo latched =>
      match m.proof with
      | none => w.setCall m.call (.checking todo latched)
      | some bump => match w.verify x m.call txid bump m.valid with
        | (false, w) => w.setCall m.call (.checking todo latched)
        | (true, w) => match x.stitchAndTrimPotBeef txid stored bump with
          | none => w.setCall m.call (.checking todo latched)
          | some compacted => w.setCall m.call (.compacting txid compacted todo latched)
    | .compacting txid compacted todo latched =>
      -- `compact_pot_beef`, whose error the pass only counts
      let w := if m.fate = .lost || !x.potBeefHasProof txid compacted then w else
        { w with
          rows := verifiedWrite w.rows txid compacted m.now (x.potBeefBumpHeight txid compacted)
          latcher := Function.update w.latcher txid (some m.call) }
      w.setCall m.call (.checking todo latched)
    | .latching [] => w.setCall m.call .returned
    | .latching latched =>
      let chunk := latched.take markProvenAtChunk
      let w := if m.fate = .lost then w else
        { w with
          rows := markProvenAt w.rows chunk
          latcher := fun txid => if chunk.any fun l => l.txid = txid then some m.call else w.latcher txid }
      w.setCall m.call (if m.fate = .ran then .latching (latched.drop markProvenAtChunk) else .returned)
    | .returned => w

def run (w : World) (turns : List (Turn μ)) : World := turns.foldl (step x) w

end World

end OverlayEngine.Pot.PotBeefs
