import OverlayEngine.Basis.Runs
import OverlayEngine.Storage
import OverlayEngine.Basis.WriteBehind

/-!
# A page's storage batch

`crates/overlay-engine/src/page_batch.rs` and `load_storage.rs`, over the
store of `storage.rs`: while a sync's page is open its admission writes are
queued and its reads answered from the page; every other write, and every read
of the tables the queue writes, applies the queue first.

Taken from outside: the backend's own statements and the tables they write
(`index`), the tables no queued write touches (`others`), and whether bytes
prove a transaction.
-/

namespace OverlayEngine.PageBatch

structure Backend (τ β : Type) where
  statement : τ → β → τ
  hasProof : Bytes → Txid → Bool

/-! ## The store -/

/-- `MemoryStorage`. -/
structure Memory (τ υ : Type) where
  store : Store
  transactions : AList fun _ : Txid => Bytes := ∅
  gaspTransactions : List Txid := []
  proven : List Txid := []
  provenAt : AList fun _ : Txid => Option Nat := ∅
  createdAt : AList fun _ : Txid => Nat := ∅
  clockSecs : Nat := 0
  index : τ
  others : υ

/-- `entry(k).or_insert(v)`. -/
def orInsert {κ ν : Type} [DecidableEq κ] (m : AList fun _ : κ => ν) (k : κ) (v : ν) : AList fun _ : κ => ν :=
  if (m.lookup k).isSome then m else m.insert k v

namespace Memory

variable {τ υ β : Type}

def stampCreated (m : Memory τ υ) (txid : Txid) : Memory τ υ := { m with createdAt := orInsert m.createdAt txid m.clockSecs }

def upsertBeef (m : Memory τ υ) (txid : Txid) (beef : Bytes) : Memory τ υ := { m with transactions := orInsert m.transactions txid beef }

def insertOutput (m : Memory τ υ) (o : Output) (beef : Option Bytes) : Memory τ υ :=
  if m.store.held (o.outpoint, o.topic) then
    match beef with
    | some beef => m.upsertBeef o.txid beef
    | none => m
  else
    let m := { m with store := m.store.insertOutput o }
    match beef with
    | some beef => (m.upsertBeef o.txid beef).stampCreated o.txid
    | none => m

def insertOutputWithOrigin (m : Memory τ υ) (o : Output) (beef : Option Bytes) (gasp : Bool) : Memory τ υ :=
  let m := m.insertOutput o beef
  if gasp && beef.isSome then { m with gaspTransactions := m.gaspTransactions.insert o.txid } else m

def insertAppliedTransaction (m : Memory τ υ) (txid : Txid) (topic : Topic) : Memory τ υ :=
  { m with store := m.store.insertApplied txid topic }

def deleteOutput (m : Memory τ υ) (k : Key) : Memory τ υ :=
  let m := { m with store := m.store.deleteOutput k }
  if m.store.outputs.keys.any fun k' => k'.1.txid == k.1.txid then m
  else { m with
    transactions := m.transactions.erase k.1.txid
    proven := m.proven.filter (· != k.1.txid)
    gaspTransactions := m.gaspTransactions.filter (· != k.1.txid) }

def updateTransactionBeef (hasProof : Bytes → Txid → Bool) (m : Memory τ υ) (txid : Txid) (beef : Bytes) : Memory τ υ :=
  let m := if hasProof beef txid then { m with proven := m.proven.insert txid } else m
  stampCreated { m with transactions := m.transactions.insert txid beef } txid

def findOutput (m : Memory τ υ) (at_ : Outpoint) (topic : Option Topic) (spent : Option Bool) (includeBeef : Bool) : Option (Output × Option Bytes) :=
  let fits (o : Output) : Bool := spent.all (o.spent == ·)
  let row := match topic with
    | some topic => (m.store.find (at_, topic)).filter fits
    | none => ((m.store.outputs.entries.filter fun e : (_ : Key) × Output => e.1.1 = at_).map Sigma.snd).find? fits
  row.map fun o => (o, if includeBeef then m.transactions.lookup at_.txid else none)

def withOthers (m : Memory τ υ) (others : υ) : Memory τ υ := { m with others := others }

def findTopicOutputs (m : Memory τ υ) (topic : Topic) (outpoints : List Outpoint) : List Output :=
  outpoints.filterMap fun at_ => m.store.find (at_, topic)

def findAppliedTransactions (m : Memory τ υ) (topic : Topic) (txids : List Txid) : List Txid :=
  txids.filter fun txid => m.store.isApplied txid topic

end Memory

/-- `PageWrite`: a write of a page's batch. -/
inductive PageWrite (β : Type) where
  | output (o : Output) (beef : Option Bytes) (gasp : Bool)
  | applied (txid : Txid) (topic : Topic)
  | backend (statement : β)

inductive DirectWrite (υ : Type) where
  | deleteOutput (k : Key)
  | markUtxoAsSpent (k : Key)
  | updateConsumedBy (k : Key) (consumedBy : List Outpoint)
  | updateOutputBlockHeight (k : Key) (height : Nat)
  | deleteAppliedTransaction (txid : Txid) (topic : Topic)
  | updateTransactionBeef (txid : Txid) (beef : Bytes)
  | markTransactionProven (txid : Txid)
  | markTransactionProvenAt (txid : Txid) (height : Option Nat)
  | others (f : υ → υ)

def DirectWrite.rows {υ : Type} : DirectWrite υ → Bool
  | .deleteOutput _ | .markUtxoAsSpent _ | .updateConsumedBy .. | .updateOutputBlockHeight .. | .deleteAppliedTransaction .. => true
  | _ => false

namespace Memory

variable {τ υ β : Type} (B : Backend τ β)

def write (m : Memory τ υ) : PageWrite β → Memory τ υ
  | .output o beef gasp => m.insertOutputWithOrigin o beef gasp
  | .applied txid topic => m.insertAppliedTransaction txid topic
  | .backend statement => { m with index := B.statement m.index statement }

def direct (m : Memory τ υ) : DirectWrite υ → Memory τ υ
  | .deleteOutput k => m.deleteOutput k
  | .markUtxoAsSpent k => { m with store := m.store.markUtxoAsSpent k }
  | .updateConsumedBy k consumedBy => { m with store := m.store.updateConsumedBy k consumedBy }
  | .updateOutputBlockHeight k height =>
    { m with store := m.store.modify k (fun o => { o with blockHeight := some height }) fun _ => ⟨rfl, rfl⟩ }
  | .deleteAppliedTransaction txid topic => { m with store := { m.store with applied := m.store.applied.filter fun a => !(a.1 == txid && a.2 == topic) } }
  | .updateTransactionBeef txid beef => m.updateTransactionBeef B.hasProof txid beef
  | .markTransactionProven txid => { m with proven := m.proven.insert txid }
  | .markTransactionProvenAt txid height => { m with proven := m.proven.insert txid, provenAt := m.provenAt.insert txid height }
  | .others f => m.withOthers (f m.others)

end Memory

/-! ## The page -/

structure PageBuffer (β : Type) where
  isOpen : Bool := false
  writes : List (PageWrite β) := []
  outputs : AList fun _ : Key => Option Output := ∅
  applied : AList fun _ : Txid × Topic => Bool := ∅

namespace PageBuffer

variable {β : Type}

def forgetAnswers (p : PageBuffer β) : PageBuffer β := { p with outputs := ∅, applied := ∅ }

def openPage (p : PageBuffer β) : PageBuffer β :=
  let p := { p with isOpen := true }
  if p.writes.isEmpty then p.forgetAnswers else p

def closePage (p : PageBuffer β) : PageBuffer β :=
  let p := { p with isOpen := false }
  if p.writes.isEmpty then p.forgetAnswers else p

def queueOutput (p : PageBuffer β) (o : Output) (beef : Option Bytes) (gasp : Bool) : PageBuffer β :=
  { p with outputs := p.outputs.insert (o.outpoint, o.topic) (some o), writes := p.writes ++ [.output o beef gasp] }

def queueApplied (p : PageBuffer β) (txid : Txid) (topic : Topic) : PageBuffer β :=
  { p with applied := p.applied.insert (txid, topic) true, writes := p.writes ++ [.applied txid topic] }

def defer (p : PageBuffer β) (statement : β) : PageBuffer β := { p with writes := p.writes ++ [.backend statement] }

def rememberOutput (p : PageBuffer β) (k : Key) (answer : Option Output) : PageBuffer β := { p with outputs := orInsert p.outputs k answer }

def rememberApplied (p : PageBuffer β) (txid : Txid) (topic : Topic) (held : Bool) : PageBuffer β :=
  { p with applied := orInsert p.applied (txid, topic) held }

end PageBuffer

/-! ## The engine's storage -/

inductive Call (υ β : Type) where
  | insertOutput (o : Output) (beef : Option Bytes) (gasp : Bool)
  | insertAppliedTransaction (txid : Txid) (topic : Topic)
  | defer (statement : β)
  | write (w : DirectWrite υ)
  | findOutput (at_ : Outpoint) (topic : Option Topic) (spent : Option Bool) (includeBeef : Bool)
  | doesAppliedTransactionExist (txid : Txid) (topic : Topic)
  /-- Another read: `barred`, of the tables the queue writes. -/
  | read (barred : Bool)
  | prefetch (topic : Topic) (inputs : List Outpoint) (txids : List Txid)

inductive Answer where
  | ok
  | output (row : Option (Output × Option Bytes))
  | held (held : Bool)
  | fault
  deriving DecidableEq

/-- `MeteredStorage` and the installed buffer. -/
structure Metered (τ υ β : Type) where
  inner : Memory τ υ
  page : PageBuffer β := {}

/-- How a batch ends: `none` where it lands, or a fault after some of its first writes. -/
abbrev Landing := Option Nat

namespace Metered

variable {τ υ β : Type} (B : Backend τ β)

def flush (s : Metered τ υ β) (batch : Landing) : Metered τ υ β × Bool :=
  if s.page.writes.isEmpty then (s, true)
  else
    match batch with
    | none => ({ inner := s.page.writes.foldl (Memory.write B) s.inner, page := { s.page with writes := [] } }, true)
    | some k => ({ s with inner := (s.page.writes.take k).foldl (Memory.write B) s.inner }, false)

/-- `barrier`: the page's queue is applied, and its answers forgotten before a write that changes its rows. -/
def barrier (s : Metered τ υ β) (rows : Bool) (batch : Landing) : Metered τ υ β × Bool :=
  if s.page.isOpen then
    if (s.flush B batch).2 && rows then
      ({ inner := (s.flush B batch).1.inner, page := (s.flush B batch).1.page.forgetAnswers }, true)
    else s.flush B batch
  else (s, true)

def behind (s : Metered τ υ β) (rows : Bool) (batch : Landing) (f : Metered τ υ β → Metered τ υ β × Answer) : Metered τ υ β × Answer :=
  if (s.barrier B rows batch).2 then f (s.barrier B rows batch).1 else ((s.barrier B rows batch).1, .fault)

def taken (s : Metered τ υ β) (w : PageWrite β) (page : PageBuffer β) : Metered τ υ β × Answer :=
  (if s.page.isOpen then { s with page := page } else { s with inner := s.inner.write B w }, .ok)

def findTopicOutput (s : Metered τ υ β) (at_ : Outpoint) (topic : Topic) : Metered τ υ β × Answer :=
  let answer := s.inner.findOutput at_ (some topic) none false
  if s.page.isOpen then
    match s.page.outputs.lookup (at_, topic) with
    | some known => (s, .output (known.map fun o => (o, none)))
    | none => ({ s with page := s.page.rememberOutput (at_, topic) (answer.map Prod.fst) }, .output answer)
  else (s, .output answer)

def doesAppliedTransactionExist (s : Metered τ υ β) (txid : Txid) (topic : Topic) : Metered τ υ β × Answer :=
  let held := s.inner.store.isApplied txid topic
  if s.page.isOpen then
    match s.page.applied.lookup (txid, topic) with
    | some known => (s, .held known)
    | none => ({ s with page := s.page.rememberApplied txid topic held }, .held held)
  else (s, .held held)

/-- Read, for the open page, what it does not know of `inputs` and `txids`. -/
def prefetch (s : Metered τ υ β) (topic : Topic) (inputs : List Outpoint) (txids : List Txid) : Metered τ υ β :=
  if s.page.isOpen then
    let inputs := (inputs.filter fun at_ => (s.page.outputs.lookup (at_, topic)).isNone).eraseDups
    let outputs := s.inner.findTopicOutputs topic inputs
    let page := inputs.foldl (fun p at_ => p.rememberOutput (at_, topic) (outputs.find? fun o => o.outpoint = at_)) s.page
    let txids := (txids.filter fun txid => (page.applied.lookup (txid, topic)).isNone).eraseDups
    let applied := s.inner.findAppliedTransactions topic txids
    { s with page := txids.foldl (fun p txid => p.rememberApplied txid topic (applied.contains txid)) page }
  else s

def call (s : Metered τ υ β) (c : Call υ β) (batch : Landing) : Metered τ υ β × Answer :=
  match c with
  | .insertOutput o beef gasp => s.taken B (.output o beef gasp) (s.page.queueOutput o beef gasp)
  | .insertAppliedTransaction txid topic => s.taken B (.applied txid topic) (s.page.queueApplied txid topic)
  | .defer statement => s.taken B (.backend statement) (s.page.defer statement)
  | .write w => s.behind B w.rows batch fun s => ({ s with inner := s.inner.direct B w }, .ok)
  | .findOutput at_ (some topic) none false => s.findTopicOutput at_ topic
  | .findOutput at_ topic spent includeBeef => s.behind B false batch fun s => (s, .output (s.inner.findOutput at_ topic spent includeBeef))
  | .doesAppliedTransactionExist txid topic => s.doesAppliedTransactionExist txid topic
  | .read barred => if barred then s.behind B false batch fun s => (s, .ok) else (s, .ok)
  | .prefetch topic inputs txids => (s.prefetch topic inputs txids, .ok)

end Metered

def Memory.call {τ υ β : Type} (B : Backend τ β) (m : Memory τ υ) : Call υ β → Memory τ υ × Answer
  | .insertOutput o beef gasp => (m.write B (.output o beef gasp), .ok)
  | .insertAppliedTransaction txid topic => (m.write B (.applied txid topic), .ok)
  | .defer statement => (m.write B (.backend statement), .ok)
  | .write w => (m.direct B w, .ok)
  | .findOutput at_ topic spent includeBeef => (m, .output (m.findOutput at_ topic spent includeBeef))
  | .doesAppliedTransactionExist txid topic => (m, .held (m.store.isApplied txid topic))
  | .read _ | .prefetch .. => (m, .ok)

/-! ## The queue and the store -/

variable {τ υ β : Type} (B : Backend τ β)

def PageWrite.onStore (s : Store) : PageWrite β → Store
  | .output o _ _ => s.insertOutput o
  | .applied txid topic => s.insertApplied txid topic
  | .backend _ => s

def PageWrite.statement : PageWrite β → Option β
  | .backend statement => some statement
  | _ => none

namespace Memory

theorem insertOutput_eq (m : Memory τ υ) (o : Output) (beef : Option Bytes) :
    m.insertOutput o beef = { m with
      store := m.store.insertOutput o
      transactions := (beef.map (orInsert m.transactions o.txid)).getD m.transactions
      createdAt := if beef.isSome && !m.store.held (o.outpoint, o.topic) then orInsert m.createdAt o.txid m.clockSecs else m.createdAt } := by
  unfold insertOutput
  by_cases h : m.store.held (o.outpoint, o.topic) = true
  · have hid : m.store.insertOutput o = m.store := if_pos h
    cases beef <;> simp [h, hid, upsertBeef]
  · cases beef <;> simp [h, upsertBeef, stampCreated]

@[simp] theorem store_write (m : Memory τ υ) (w : PageWrite β) : (m.write B w).store = w.onStore m.store := by
  cases w with
  | output o beef gasp =>
    rw [write, insertOutputWithOrigin, insertOutput_eq]
    split <;> rfl
  | applied txid topic => rfl
  | backend statement => rfl

theorem store_writes (m : Memory τ υ) (ws : List (PageWrite β)) : (ws.foldl (Memory.write B) m).store = ws.foldl PageWrite.onStore m.store :=
  (List.foldl_hom Memory.store fun m w => (store_write B m w).symm).symm

theorem write_others (m : Memory τ υ) (x : υ) (w : PageWrite β) : (m.withOthers x).write B w = (m.write B w).withOthers x := by
  cases w with
  | output o beef gasp =>
    simp only [write, insertOutputWithOrigin, insertOutput_eq]
    split <;> rfl
  | applied txid topic => rfl
  | backend statement => rfl

theorem writes_others (m : Memory τ υ) (x : υ) (ws : List (PageWrite β)) :
    ws.foldl (Memory.write B) (m.withOthers x) = (ws.foldl (Memory.write B) m).withOthers x :=
  List.foldl_hom (fun m : Memory τ υ => m.withOthers x) fun m w => write_others B m x w

/-! ## A batch applied twice writes once -/

theorem lookup_orInsert {κ ν : Type} [DecidableEq κ] (m : AList fun _ : κ => ν) (k k' : κ) (v : ν) :
    (orInsert m k v).lookup k' = if k' = k then some ((m.lookup k).getD v) else m.lookup k' := by
  unfold orInsert
  by_cases hk : k' = k
  · subst hk
    cases h : m.lookup k' <;> simp [h]
  · rw [if_neg hk]
    split
    · rfl
    · exact AList.lookup_insert_ne hk

theorem isSome_orInsert {κ ν : Type} [DecidableEq κ] (m : AList fun _ : κ => ν) (k k' : κ) (v : ν) :
    ((orInsert m k v).lookup k').isSome = (decide (k' = k) || (m.lookup k').isSome) := by
  rw [lookup_orInsert]
  by_cases hk : k' = k
  · simp [hk]
  · simp [hk]

def tables (m : Memory τ υ) : Memory Unit υ :=
  ⟨m.store, m.transactions, m.gaspTransactions, m.proven, m.provenAt, m.createdAt, m.clockSecs, (), m.others⟩

def noStatements (β : Type) : Backend Unit β := ⟨fun _ _ => (), fun _ _ => false⟩

def Has (m : Memory Unit υ) : PageWrite β → Prop
  | .output o beef gasp =>
    m.store.held (o.outpoint, o.topic) = true ∧ (beef.isSome = true → (m.transactions.lookup o.txid).isSome = true) ∧
      ((gasp && beef.isSome) = true → o.txid ∈ m.gaspTransactions)
  | .applied txid topic => m.store.isApplied txid topic = true
  | .backend _ => True

theorem held_onStore {s : Store} {k : Key} (h : s.held k = true) (w : PageWrite β) : (w.onStore s).held k = true := by
  cases w with
  | output o beef gasp => rw [Store.held, PageWrite.onStore, Store.find_insertOutput, if_neg fun hno => by simp [h] at hno]; exact h
  | applied txid topic => rw [Store.held, PageWrite.onStore, Store.find_insertApplied]; exact h
  | backend statement => exact h

variable {txid : Txid}

theorem isApplied_onStore {s : Store} {topic : Topic} (h : s.isApplied txid topic = true) (w : PageWrite β) :
    (w.onStore s).isApplied txid topic = true := by
  cases w with
  | output o beef gasp => rw [Store.isApplied, PageWrite.onStore, Store.applied_insertOutput]; exact h
  | applied txid' topic' => rw [PageWrite.onStore, Store.isApplied_insertApplied, h, Bool.or_true]
  | backend statement => exact h

theorem transactions_write (m : Memory τ υ) (w : PageWrite β) (h : (m.transactions.lookup txid).isSome = true) :
    ((m.write B w).transactions.lookup txid).isSome = true := by
  cases w with
  | output o beef gasp =>
    have hrow : ((m.insertOutput o beef).transactions.lookup txid).isSome = true := by
      rw [insertOutput_eq]
      cases beef with
      | none => exact h
      | some beef => exact (isSome_orInsert ..).trans (by rw [h, Bool.or_true])
    rw [write, insertOutputWithOrigin]
    split
    · exact hrow
    · exact hrow
  | applied txid topic => exact h
  | backend statement => exact h

theorem gasp_write (m : Memory τ υ) (w : PageWrite β) (h : txid ∈ m.gaspTransactions) : txid ∈ (m.write B w).gaspTransactions := by
  cases w with
  | output o beef gasp =>
    rw [write, insertOutputWithOrigin]
    split
    · exact List.mem_insert_of_mem (by rw [insertOutput_eq]; exact h)
    · rw [insertOutput_eq]
      exact h
  | applied txid topic => exact h
  | backend statement => exact h

theorem has_done {m : Memory Unit υ} {w : PageWrite β} (h : m.Has w) : m.write (noStatements β) w = m := by
  cases w with
  | output o beef gasp =>
    obtain ⟨hheld, hbeef, hgasp⟩ := h
    have hrow : m.insertOutput o beef = m := by
      unfold insertOutput
      rw [if_pos hheld]
      cases beef with
      | none => rfl
      | some beef =>
        have hin : orInsert m.transactions o.txid beef = m.transactions := if_pos (hbeef rfl)
        show m.upsertBeef o.txid beef = m
        rw [upsertBeef, hin]
    rw [write, insertOutputWithOrigin, hrow]
    split
    · rename_i hg
      rw [List.insert_of_mem (hgasp hg)]
    · rfl
  | applied txid topic =>
    have hin : m.store.insertApplied txid topic = m.store := if_pos h
    rw [write, insertAppliedTransaction, hin]
  | backend statement => rfl

theorem has_made (m : Memory Unit υ) (w : PageWrite β) : (m.write (noStatements β) w).Has w := by
  cases w with
  | output o beef gasp =>
    refine ⟨?_, fun hbeef => ?_, fun hgasp => ?_⟩
    · rw [store_write, PageWrite.onStore, Store.held, Store.find_insertOutput]
      split
      · rfl
      · rename_i hheld
        by_contra hno
        exact hheld ⟨rfl, (Bool.not_eq_true _).mp hno⟩
    · have hrow : ((m.insertOutput o beef).transactions.lookup o.txid).isSome = true := by
        rw [insertOutput_eq]
        cases beef with
        | none => cases hbeef
        | some beef => exact (isSome_orInsert ..).trans (by rw [decide_eq_true rfl, Bool.true_or])
      rw [write, insertOutputWithOrigin]
      split
      · exact hrow
      · exact hrow
    · rw [write, insertOutputWithOrigin, if_pos hgasp]
      exact List.mem_insert_self
  | applied txid topic => exact (Store.isApplied_insertApplied ..).trans (by rw [decide_eq_true rfl, Bool.true_or])
  | backend statement => trivial

theorem has_kept {m : Memory Unit υ} {w : PageWrite β} (h : m.Has w) (w' : PageWrite β) : (m.write (noStatements β) w').Has w := by
  cases w with
  | output o beef gasp =>
    refine ⟨?_, fun hbeef => transactions_write _ m w' (h.2.1 hbeef), fun hgasp => gasp_write _ m w' (h.2.2 hgasp)⟩
    rw [store_write]
    exact held_onStore h.1 w'
  | applied txid topic =>
    show ((m.write (noStatements β) w').store.isApplied txid topic) = true
    rw [store_write]
    exact isApplied_onStore h w'
  | backend statement => trivial

theorem idem_write (h : WriteBehind.Idem B.statement) : WriteBehind.Idem (Memory.write (υ := υ) B) := by
  have htables : WriteBehind.Idem (Memory.write (υ := υ) (noStatements β)) :=
    WriteBehind.idem_of_marks Has (fun _ _ => has_done) has_made fun _ _ w' h => has_kept h w'
  refine WriteBehind.idem_of_parts tables index ?_ ?_ ?_ htables (WriteBehind.idem_filterMap PageWrite.statement h)
  · intro m m' hl hr
    cases m
    cases m'
    simp only [tables, mk.injEq, true_and] at hl hr ⊢
    simp [hl, hr]
  · intro m w
    cases w with
    | output o beef gasp =>
      simp only [write, insertOutputWithOrigin, insertOutput_eq]
      split <;> rfl
    | applied txid topic => rfl
    | backend statement => rfl
  · intro m w
    cases w with
    | output o beef gasp =>
      rw [write, insertOutputWithOrigin, insertOutput_eq]
      split <;> rfl
    | applied txid topic => rfl
    | backend statement => rfl

end Memory

/-! ## Nothing lost, nothing reordered -/

namespace Metered

def view (s : Metered τ υ β) : Memory τ υ := s.page.writes.foldl (Memory.write B) s.inner

theorem view_flush (hidem : WriteBehind.Idem B.statement) (s : Metered τ υ β) (batch : Landing) : (s.flush B batch).1.view B = s.view B := by
  unfold flush
  split
  · rfl
  · cases batch with
    | none => rfl
    | some k => exact (Memory.idem_write B hidem).replay s.inner k s.page.writes

variable {s : Metered τ υ β} {batch : Landing}

theorem flush_landed (h : (s.flush B batch).2 = true) : (s.flush B batch).1.page.writes = [] := by
  unfold flush at h ⊢
  split
  · rename_i hempty
    exact List.isEmpty_iff.mp hempty
  · rename_i hfull
    rw [if_neg hfull] at h
    cases batch with
    | none => rfl
    | some k => cases h

theorem view_barrier (hidem : WriteBehind.Idem B.statement) (s : Metered τ υ β) (rows : Bool) (batch : Landing) :
    (s.barrier B rows batch).1.view B = s.view B := by
  have hflush := view_flush B hidem s batch
  unfold barrier
  split
  · split
    · exact hflush
    · exact hflush
  · rfl

theorem barrier_landed {rows : Bool} (h : (s.barrier B rows batch).2 = true) :
    (s.barrier B rows batch).1 = s ∧ s.page.isOpen = false ∨ (s.barrier B rows batch).1.page.writes = [] := by
  unfold barrier at h ⊢
  by_cases hopen : s.page.isOpen = true
  · rw [if_pos hopen] at h ⊢
    have hlanded : (s.flush B batch).2 = true := by
      by_contra hno
      simp [hno] at h
    right
    split
    · exact flush_landed B hlanded
    · exact flush_landed B hlanded
  · rw [if_neg hopen]
    exact .inl ⟨rfl, (Bool.not_eq_true _).mp hopen⟩

/-! ### Runs of calls, pages and flushes -/

inductive Move (υ β : Type) where
  | call (c : Call υ β) (batch : Landing)
  | openPage
  | closePage
  | flush (batch : Landing)

def step (s : Metered τ υ β) : Move υ β → Metered τ υ β
  | .call c batch => (s.call B c batch).1
  | .openPage => { s with page := s.page.openPage }
  | .closePage => { s with page := s.page.closePage }
  | .flush batch => (s.flush B batch).1

def madeBy (s : Metered τ υ β) : Move υ β → Option (Call υ β)
  | .call c batch => if (s.call B c batch).2 = .fault then none else some c
  | _ => none

def made (s : Metered τ υ β) : List (Move υ β) → List (Call υ β)
  | [] => []
  | m :: moves => (s.madeBy B m).toList ++ made (s.step B m) moves

def ofQueuedTables : Call υ β → Bool
  | .insertOutput .. | .insertAppliedTransaction .. | .defer _ => true
  | .write (.others _) => false
  | .write _ => true
  | _ => false

def inOrder (s : Metered τ υ β) : Move υ β → Bool
  | .call c _ => s.page.isOpen || s.page.writes.isEmpty || !ofQueuedTables c
  | _ => true

def directly (m : Memory τ υ) (c : Call υ β) : Memory τ υ := (m.call B c).1

theorem view_taken (w : PageWrite β) {page : PageBuffer β} (hpage : page.writes = s.page.writes ++ [w])
    (h : (s.page.isOpen || s.page.writes.isEmpty) = true) : (s.taken B w page).1.view B = (s.view B).write B w := by
  unfold taken
  by_cases hopen : s.page.isOpen = true
  · rw [if_pos hopen]
    show page.writes.foldl (Memory.write B) s.inner = _
    rw [hpage, List.foldl_append]
    rfl
  · rw [if_neg hopen]
    have hempty : s.page.writes = [] := by simpa [hopen] using h
    simp [view, hempty]

theorem view_behind (hidem : WriteBehind.Idem B.statement) (s : Metered τ υ β) (rows : Bool) (batch : Landing) (f : Metered τ υ β → Answer) :
    ((s.behind B rows batch fun s => (s, f s)).1).view B = s.view B := by
  unfold behind
  split
  · exact view_barrier B hidem s rows batch
  · exact view_barrier B hidem s rows batch

theorem view_direct (hidem : WriteBehind.Idem B.statement) (s : Metered τ υ β) (w : DirectWrite υ) (batch : Landing)
    (h : (s.page.isOpen || s.page.writes.isEmpty || !ofQueuedTables (β := β) (.write w)) = true)
    (hlanded : (s.barrier B w.rows batch).2 = true) :
    (s.behind B w.rows batch fun s => ({ s with inner := s.inner.direct B w }, .ok)).1.view B = (s.view B).direct B w := by
  have hview := view_barrier B hidem s w.rows batch
  rw [behind, if_pos hlanded, ← hview]
  rcases barrier_landed B hlanded with ⟨hsame, hclosed⟩ | hempty
  · rw [hsame]
    cases hw : s.page.writes with
    | nil => simp [view, hw]
    | cons _ _ =>
      -- the page is closed with writes queued: the call writes none of their tables
      cases w with
      | others f =>
        have hothers : (s.view B).others = s.inner.others := by
          have hsame := Memory.writes_others B s.inner s.inner.others s.page.writes
          exact (congrArg Memory.others hsame :)
        show s.page.writes.foldl (Memory.write B) (s.inner.withOthers (f s.inner.others)) = (s.view B).withOthers (f (s.view B).others)
        rw [Memory.writes_others, hothers]
        rfl
      | _ => simp [hclosed, hw, ofQueuedTables] at h
  · simp [view, hempty]

theorem madeBy_read {c : Call υ β} (hread : ∀ m : Memory τ υ, directly B m c = m)
    (hview : (s.call B c batch).1.view B = s.view B) :
    (s.call B c batch).1.view B = (s.madeBy B (.call c batch)).toList.foldl (directly B) (s.view B) := by
  rw [hview, madeBy]
  split
  · rfl
  · exact (hread _).symm

theorem view_findTopicOutput (s : Metered τ υ β) (at_ : Outpoint) (topic : Topic) : (s.findTopicOutput at_ topic).1.view B = s.view B := by
  unfold findTopicOutput
  split
  · split <;> rfl
  · rfl

theorem view_doesAppliedTransactionExist (s : Metered τ υ β) (txid : Txid) (topic : Topic) :
    (s.doesAppliedTransactionExist txid topic).1.view B = s.view B := by
  unfold doesAppliedTransactionExist
  split
  · split <;> rfl
  · rfl

theorem rememberOutputs_frame (p : PageBuffer β) (topic : Topic) (answer : Outpoint → Option Output) (inputs : List Outpoint) :
    ∃ outputs, inputs.foldl (fun p at_ => p.rememberOutput (at_, topic) (answer at_)) p = { p with outputs := outputs } := by
  induction inputs generalizing p with
  | nil => exact ⟨p.outputs, rfl⟩
  | cons at_ inputs ih => exact ih (p.rememberOutput (at_, topic) (answer at_))

theorem rememberApplied_frame (p : PageBuffer β) (topic : Topic) (held : Txid → Bool) (txids : List Txid) :
    ∃ applied, txids.foldl (fun p txid => p.rememberApplied txid topic (held txid)) p = { p with applied := applied } := by
  induction txids generalizing p with
  | nil => exact ⟨p.applied, rfl⟩
  | cons txid txids ih => exact ih (p.rememberApplied txid topic (held txid))

theorem prefetch_frame (s : Metered τ υ β) (topic : Topic) (inputs : List Outpoint) (txids : List Txid) :
    ∃ outputs applied, s.prefetch topic inputs txids = { s with page := { s.page with outputs := outputs, applied := applied } } := by
  unfold prefetch
  by_cases hopen : s.page.isOpen = true
  · simp only [if_pos hopen]
    generalize (inputs.filter _).eraseDups = unknown
    obtain ⟨outputs, houtputs⟩ := rememberOutputs_frame s.page topic
      (fun at_ => (s.inner.findTopicOutputs topic unknown).find? fun o => o.outpoint = at_) unknown
    rw [houtputs]
    generalize (txids.filter _).eraseDups = unknown
    obtain ⟨applied, happlied⟩ := rememberApplied_frame { s.page with outputs := outputs } topic
      (fun txid => (s.inner.findAppliedTransactions topic unknown).contains txid) unknown
    exact ⟨outputs, applied, by rw [happlied]⟩
  · rw [if_neg hopen]
    exact ⟨s.page.outputs, s.page.applied, rfl⟩

theorem view_prefetch (s : Metered τ υ β) (topic : Topic) (inputs : List Outpoint) (txids : List Txid) :
    (s.prefetch topic inputs txids).view B = s.view B := by
  obtain ⟨outputs, applied, hframe⟩ := prefetch_frame s topic inputs txids
  rw [hframe]
  rfl

theorem view_call (hidem : WriteBehind.Idem B.statement) (s : Metered τ υ β) (c : Call υ β) (batch : Landing)
    (h : inOrder s (.call c batch) = true) :
    (s.call B c batch).1.view B = (s.madeBy B (.call c batch)).toList.foldl (directly B) (s.view B) := by
  cases c with
  | insertOutput o beef gasp => exact view_taken B (.output o beef gasp) rfl (by simpa [inOrder, ofQueuedTables] using h)
  | insertAppliedTransaction txid topic => exact view_taken B (.applied txid topic) rfl (by simpa [inOrder, ofQueuedTables] using h)
  | defer statement => exact view_taken B (.backend statement) rfl (by simpa [inOrder, ofQueuedTables] using h)
  | write w =>
    by_cases hlanded : (s.barrier B w.rows batch).2 = true
    · have hcall : (s.call B (.write w) batch).2 = .ok := by
        show (s.behind B w.rows batch _).2 = _
        rw [behind, if_pos hlanded]
      rw [madeBy, hcall]
      exact view_direct B hidem s w batch h hlanded
    · have hcall : s.call B (.write w) batch = ((s.barrier B w.rows batch).1, .fault) := if_neg hlanded
      rw [madeBy, hcall]
      exact view_barrier B hidem s w.rows batch
  | findOutput at_ topic spent includeBeef =>
    apply madeBy_read B fun _ => rfl
    cases topic with
    | none => exact view_behind B hidem s false batch _
    | some topic =>
      cases spent with
      | some spent => exact view_behind B hidem s false batch _
      | none =>
        cases includeBeef with
        | true => exact view_behind B hidem s false batch _
        | false => exact view_findTopicOutput B s at_ topic
  | doesAppliedTransactionExist txid topic => exact madeBy_read B (fun _ => rfl) (view_doesAppliedTransactionExist B s txid topic)
  | read barred =>
    apply madeBy_read B fun _ => rfl
    cases barred with
    | false => rfl
    | true => exact view_behind B hidem s false batch fun _ => .ok
  | prefetch topic inputs txids => exact madeBy_read B (fun _ => rfl) (view_prefetch B s topic inputs txids)

theorem view_step (hidem : WriteBehind.Idem B.statement) (s : Metered τ υ β) (m : Move υ β) (h : inOrder s m = true) :
    (s.step B m).view B = (s.madeBy B m).toList.foldl (directly B) (s.view B) := by
  cases m with
  | call c batch => exact view_call B hidem s c batch h
  | openPage =>
    simp only [step, PageBuffer.openPage]
    split <;> rfl
  | closePage =>
    simp only [step, PageBuffer.closePage]
    split <;> rfl
  | flush batch => exact view_flush B hidem s batch

theorem view_run (hidem : WriteBehind.Idem B.statement) (s : Metered τ υ β) (moves : List (Move υ β))
    (h : Runs.Along (step B) (fun s m => inOrder s m = true) s moves) :
    (moves.foldl (step B) s).view B = (s.made B moves).foldl (directly B) (s.view B) := by
  induction moves generalizing s with
  | nil => rfl
  | cons m moves ih =>
    rw [List.foldl_cons, ih _ h.2, view_step B hidem s m h.1, made, List.foldl_append]

/-- A run whose last batch lands leaves the store as the calls it made would have, made directly in their order. -/
theorem batches_lose_nothing (inner : Memory τ υ) (page : PageBuffer β) (hnew : page.writes = []) (hidem : WriteBehind.Idem B.statement)
    (moves : List (Move υ β)) (h : Runs.Along (step B) (fun s m => inOrder s m = true) ⟨inner, page⟩ moves) :
    ((moves.foldl (step B) ⟨inner, page⟩).flush B none).1.inner = (made B ⟨inner, page⟩ moves).foldl (directly B) inner ∧
      ((moves.foldl (step B) ⟨inner, page⟩).flush B none).1.page.writes = [] := by
  have hlanded : ((moves.foldl (step B) ⟨inner, page⟩).flush B none).2 = true := by
    unfold flush
    split <;> rfl
  have hempty := flush_landed B hlanded
  refine ⟨?_, hempty⟩
  have hstart : (⟨inner, page⟩ : Metered τ υ β).view B = inner := by simp [view, hnew]
  calc ((moves.foldl (step B) ⟨inner, page⟩).flush B none).1.inner
      = ((moves.foldl (step B) ⟨inner, page⟩).flush B none).1.view B := by rw [view, hempty]; rfl
    _ = (moves.foldl (step B) ⟨inner, page⟩).view B := view_flush B hidem _ none
    _ = (made B ⟨inner, page⟩ moves).foldl (directly B) inner := by rw [view_run B hidem _ moves h, hstart]

/-! A batch faults, the page is closed on its queue, and a mark for a queued row passes it. -/

def keptRows : Backend (List Nat) Nat := ⟨fun rows row => rows.insert row, fun _ _ => false⟩

theorem idem_keptRows : WriteBehind.Idem keptRows.statement :=
  WriteBehind.idem_of_marks (fun rows row => row ∈ rows) (fun _ _ => List.insert_of_mem) (fun _ _ => List.mem_insert_self)
    fun _ _ _ => List.mem_insert_of_mem

def blank : Memory (List Nat) Unit := { store := Store.empty, index := [], others := () }

def row : Output := ⟨"aa", 0, [], 1, "tm", false, [], [], none, none⟩

def marked : List (Move Unit Nat) :=
  [.openPage, .call (.insertOutput row none true) none, .flush (some 0), .closePage, .call (.write (.markUtxoAsSpent (row.outpoint, row.topic))) none]

theorem mark_passes_queue :
    ((marked.foldl (step keptRows) ⟨blank, {}⟩).flush keptRows none).1.inner ≠
      (made keptRows ⟨blank, {}⟩ marked).foldl (directly keptRows) blank := by
  intro h
  have hspent := congrArg (fun m : Memory (List Nat) Unit => (m.store.find (row.outpoint, row.topic)).map Output.spent) h
  revert hspent
  decide

def retried : List (Move Unit Nat) :=
  [.openPage, .call (.insertOutput row none true) none, .call (.defer 7) none, .call (.write (.markUtxoAsSpent (row.outpoint, row.topic))) (some 1),
    .closePage, .flush (some 2)]

theorem batches_lose_nothing_retried :
    ((retried.foldl (step keptRows) ⟨blank, {}⟩).flush keptRows none).1.inner.index = [7] := by
  have h := (batches_lose_nothing keptRows blank {} rfl idem_keptRows retried (by decide)).1
  rw [h]
  rfl

end Metered

/-! ## What the page answers -/

structure PageBuffer.Knows (p : PageBuffer β) (s : Store) : Prop where
  outputs : ∀ k answer, p.outputs.lookup k = some answer → s.find k = answer
  applied : ∀ a held, p.applied.lookup a = some held → s.isApplied a.1 a.2 = held
  queued : ∀ o beef gasp, .output o beef gasp ∈ p.writes → (p.outputs.lookup (o.outpoint, o.topic)).isSome = true
  queuedApplied : ∀ txid topic, .applied txid topic ∈ p.writes → (p.applied.lookup (txid, topic)).isSome = true

namespace PageBuffer

variable {p : PageBuffer β} {s : Store}

theorem Knows.rememberOutput (h : p.Knows s) {k : Key} {answer : Option Output} (hanswer : s.find k = answer) :
    (p.rememberOutput k answer).Knows s := by
  refine ⟨fun k' answer' hk => ?_, h.applied, fun o beef gasp ho => ?_, h.queuedApplied⟩
  · rw [PageBuffer.rememberOutput, Memory.lookup_orInsert] at hk
    split at hk
    · rename_i heq
      subst heq
      cases hheld : p.outputs.lookup k' with
      | none =>
        rw [hheld] at hk
        cases hk
        exact hanswer
      | some held =>
        rw [hheld] at hk
        cases hk
        exact h.outputs k' held hheld
    · exact h.outputs k' answer' hk
  · exact (Memory.isSome_orInsert ..).trans (by rw [h.queued o beef gasp ho, Bool.or_true])

theorem Knows.rememberApplied (h : p.Knows s) {txid : Txid} {topic : Topic} {held : Bool} (hheld : s.isApplied txid topic = held) :
    (p.rememberApplied txid topic held).Knows s := by
  refine ⟨h.outputs, fun a held' ha => ?_, h.queued, fun txid' topic' ho => ?_⟩
  · rw [PageBuffer.rememberApplied, Memory.lookup_orInsert] at ha
    split at ha
    · rename_i heq
      subst heq
      cases hknown : p.applied.lookup (txid, topic) with
      | none =>
        rw [hknown] at ha
        cases ha
        exact hheld
      | some known =>
        rw [hknown] at ha
        cases ha
        exact h.applied _ known hknown
    · exact h.applied a held' ha
  · exact (Memory.isSome_orInsert ..).trans (by rw [h.queuedApplied txid' topic' ho, Bool.or_true])

theorem Knows.queueOutput (h : p.Knows s) {o : Output} (hfits : (s.find (o.outpoint, o.topic)).all (fun held => held = o) = true)
    (beef : Option Bytes) (gasp : Bool) : (p.queueOutput o beef gasp).Knows (s.insertOutput o) := by
  have hrow : (s.insertOutput o).find (o.outpoint, o.topic) = some o := by
    rw [Store.find_insertOutput]
    split
    · rfl
    · rename_i hheld
      cases hfind : s.find (o.outpoint, o.topic) with
      | none => exact absurd ⟨rfl, by rw [Store.held, hfind]; rfl⟩ hheld
      | some held =>
        rw [hfind] at hfits
        exact congrArg some (of_decide_eq_true hfits)
  refine ⟨fun k answer hk => ?_, fun a held ha => ?_, fun o' beef' gasp' ho => ?_, fun txid topic ho => ?_⟩
  · by_cases hkey : k = (o.outpoint, o.topic)
    · subst hkey
      rw [PageBuffer.queueOutput, AList.lookup_insert] at hk
      cases hk
      exact hrow
    · rw [PageBuffer.queueOutput, AList.lookup_insert_ne hkey] at hk
      rw [Store.find_insertOutput, if_neg fun hno => hkey hno.1]
      exact h.outputs k answer hk
  · have hsame : (s.insertOutput o).isApplied a.1 a.2 = s.isApplied a.1 a.2 := by rw [Store.isApplied, Store.applied_insertOutput]; rfl
    rw [hsame]
    exact h.applied a held ha
  · by_cases hkey : (o'.outpoint, o'.topic) = (o.outpoint, o.topic)
    · rw [hkey, PageBuffer.queueOutput, AList.lookup_insert]
      rfl
    · rw [PageBuffer.queueOutput, AList.lookup_insert_ne hkey]
      rcases List.mem_append.mp ho with ho | ho
      · exact h.queued o' beef' gasp' ho
      · cases List.mem_singleton.mp ho
        exact absurd rfl hkey
  · rcases List.mem_append.mp ho with ho | ho
    · exact h.queuedApplied txid topic ho
    · cases List.mem_singleton.mp ho

theorem Knows.queueApplied (h : p.Knows s) (txid : Txid) (topic : Topic) : (p.queueApplied txid topic).Knows (s.insertApplied txid topic) := by
  refine ⟨fun k answer hk => ?_, fun a held ha => ?_, fun o beef gasp ho => ?_, fun txid' topic' ho => ?_⟩
  · rw [Store.find_insertApplied]
    exact h.outputs k answer hk
  · rw [Store.isApplied_insertApplied]
    by_cases hkey : a = (txid, topic)
    · subst hkey
      rw [PageBuffer.queueApplied, AList.lookup_insert] at ha
      cases ha
      rw [decide_eq_true rfl, Bool.true_or]
    · rw [PageBuffer.queueApplied, AList.lookup_insert_ne hkey] at ha
      rw [decide_eq_false hkey, Bool.false_or]
      exact h.applied a held ha
  · rcases List.mem_append.mp ho with ho | ho
    · exact h.queued o beef gasp ho
    · cases List.mem_singleton.mp ho
  · by_cases hkey : (txid', topic') = (txid, topic)
    · rw [hkey, PageBuffer.queueApplied, AList.lookup_insert]
      rfl
    · rw [PageBuffer.queueApplied, AList.lookup_insert_ne hkey]
      rcases List.mem_append.mp ho with ho | ho
      · exact h.queuedApplied txid' topic' ho
      · cases List.mem_singleton.mp ho
        exact absurd rfl hkey

theorem Knows.defer (h : p.Knows s) (statement : β) : (p.defer statement).Knows s := by
  refine ⟨h.outputs, h.applied, fun o beef gasp ho => ?_, fun txid topic ho => ?_⟩
  · rcases List.mem_append.mp ho with ho | ho
    · exact h.queued o beef gasp ho
    · cases List.mem_singleton.mp ho
  · rcases List.mem_append.mp ho with ho | ho
    · exact h.queuedApplied txid topic ho
    · cases List.mem_singleton.mp ho

theorem Knows.taken (h : p.Knows s) : ({ p with writes := [] } : PageBuffer β).Knows s := ⟨h.outputs, h.applied, by simp, by simp⟩

theorem knows_forgotten (isOpen : Bool) (s : Store) : (⟨isOpen, [], ∅, ∅⟩ : PageBuffer β).Knows s :=
  ⟨fun k answer hk => (by simp at hk), fun a held ha => (by simp at ha), by simp, by simp⟩

end PageBuffer

/-! ### Rows no queued write changes -/

variable {ws : List (PageWrite β)}

theorem find_unqueued {k : Key} (h : ∀ o beef gasp, .output o beef gasp ∈ ws → (o.outpoint, o.topic) ≠ k) (s : Store) :
    (ws.foldl PageWrite.onStore s).find k = s.find k := by
  induction ws generalizing s with
  | nil => rfl
  | cons w ws ih =>
    rw [List.foldl_cons, ih fun o beef gasp ho => h o beef gasp (List.mem_cons_of_mem w ho)]
    cases w with
    | output o beef gasp =>
      rw [PageWrite.onStore, Store.find_insertOutput]
      exact if_neg fun hk => h o beef gasp List.mem_cons_self hk.1.symm
    | applied txid topic => exact Store.find_insertApplied s txid topic k
    | backend statement => rfl

variable {topic : Topic} {txid : Txid}

theorem isApplied_unqueued (h : .applied txid topic ∉ ws) (s : Store) :
    (ws.foldl PageWrite.onStore s).isApplied txid topic = s.isApplied txid topic := by
  induction ws generalizing s with
  | nil => rfl
  | cons w ws ih =>
    rw [List.foldl_cons, ih fun hin => h (List.mem_cons_of_mem w hin)]
    cases w with
    | output o beef gasp => rw [PageWrite.onStore, Store.isApplied, Store.applied_insertOutput]; rfl
    | applied txid' topic' =>
      have hne : (txid, topic) ≠ (txid', topic') := by
        intro heq
        cases heq
        exact h List.mem_cons_self
      rw [PageWrite.onStore, Store.isApplied_insertApplied, decide_eq_false hne, Bool.false_or]
    | backend statement => rfl

/-! ### Page and store -/

namespace Metered

structure Mirrors (s : Metered τ υ β) (m : Memory τ υ) : Prop where
  isOpen : s.page.isOpen = true
  view : s.view B = m
  knows : s.page.Knows m.store

variable {B} {s : Metered τ υ β} {m : Memory τ υ}

theorem store_view (s : Metered τ υ β) : (s.view B).store = s.page.writes.foldl PageWrite.onStore s.inner.store := Memory.store_writes B s.inner s.page.writes

theorem Mirrors.find_inner (h : s.Mirrors B m) {k : Key} (hk : s.page.outputs.lookup k = none) : s.inner.store.find k = m.store.find k := by
  rw [← h.view, store_view]
  refine (find_unqueued (fun o beef gasp ho heq => ?_) _).symm
  have hknown := h.knows.queued o beef gasp ho
  rw [heq, hk] at hknown
  cases hknown

theorem Mirrors.isApplied_inner (h : s.Mirrors B m) (hk : s.page.applied.lookup (txid, topic) = none) :
    s.inner.store.isApplied txid topic = m.store.isApplied txid topic := by
  rw [← h.view, store_view]
  refine (isApplied_unqueued (fun ho => ?_) _).symm
  have hknown := h.knows.queuedApplied txid topic ho
  rw [hk] at hknown
  cases hknown

theorem barrier_open (h : s.Mirrors B m) (rows : Bool) :
    s.barrier B rows none = (⟨m, if rows then ⟨true, [], ∅, ∅⟩ else { s.page with writes := [] }⟩, true) := by
  have hflush : s.flush B none = (⟨m, { s.page with writes := [] }⟩, true) := by
    unfold flush
    split
    · rename_i hempty
      have hnil := List.isEmpty_iff.mp hempty
      have hinner : s.inner = m := by rw [← h.view, Metered.view, hnil]; rfl
      rw [← hinner, ← hnil]
    · exact congrArg (fun m => ((⟨m, { s.page with writes := [] }⟩ : Metered τ υ β), true)) h.view
  rw [barrier, if_pos h.isOpen, hflush]
  cases rows with
  | false => rfl
  | true =>
    show ((⟨m, _⟩ : Metered τ υ β), true) = _
    rw [PageBuffer.forgetAnswers, h.isOpen]
    rfl

theorem Mirrors.flushed (h : s.Mirrors B m) : Mirrors B ⟨m, { s.page with writes := [] }⟩ m := ⟨h.isOpen, rfl, h.knows.taken⟩

theorem store_direct {w : DirectWrite υ} (h : w.rows = false) (m : Memory τ υ) : (m.direct B w).store = m.store := by
  cases w with
  | updateTransactionBeef txid beef =>
    simp only [Memory.direct, Memory.updateTransactionBeef, Memory.stampCreated]
    split <;> rfl
  | markTransactionProven txid => rfl
  | markTransactionProvenAt txid height => rfl
  | others f => rfl
  | _ => cases h

theorem mirrors_write (h : s.Mirrors B m) (w : DirectWrite υ) :
    (s.call B (.write w) none).2 = (m.call B (.write w : Call υ β)).2 ∧ (s.call B (.write w) none).1.Mirrors B (m.direct B w) := by
  have hcall : s.call B (.write w) none =
      (⟨m.direct B w, if w.rows then ⟨true, [], ∅, ∅⟩ else { s.page with writes := [] }⟩, .ok) := by
    simp only [call, behind, barrier_open h, if_true]
  rw [hcall]
  refine ⟨rfl, ?_⟩
  by_cases hrows : w.rows = true
  · simp only [hrows, if_true]
    exact ⟨rfl, rfl, PageBuffer.knows_forgotten true _⟩
  · have hno := (Bool.not_eq_true _).mp hrows
    simp only [hno, Bool.false_eq_true, if_false]
    refine ⟨h.isOpen, rfl, ?_⟩
    rw [store_direct hno]
    exact h.knows.taken

theorem mirrors_findTopicOutput (h : s.Mirrors B m) (at_ : Outpoint) (topic : Topic) :
    (s.findTopicOutput at_ topic).2 = .output (m.findOutput at_ (some topic) none false) ∧ (s.findTopicOutput at_ topic).1.Mirrors B m := by
  have hfind (m : Memory τ υ) : m.findOutput at_ (some topic) none false = (m.store.find (at_, topic)).map fun o => (o, none) := by
    have hall : (m.store.find (at_, topic)).filter (fun _ => true) = m.store.find (at_, topic) := by cases m.store.find (at_, topic) <;> rfl
    exact congrArg (Option.map fun o => (o, none)) hall
  unfold findTopicOutput
  rw [if_pos h.isOpen]
  cases hk : s.page.outputs.lookup (at_, topic) with
  | some known =>
    refine ⟨?_, h⟩
    rw [hfind m, h.knows.outputs _ _ hk]
  | none =>
    have hsame : s.inner.findOutput at_ (some topic) none false = m.findOutput at_ (some topic) none false := by
      rw [hfind s.inner, hfind m, h.find_inner hk]
    refine ⟨congrArg Answer.output hsame, h.isOpen, h.view, h.knows.rememberOutput ?_⟩
    rw [hsame, hfind m]
    cases m.store.find (at_, topic) <;> rfl

theorem mirrors_doesAppliedTransactionExist (h : s.Mirrors B m) (txid : Txid) (topic : Topic) :
    (s.doesAppliedTransactionExist txid topic).2 = .held (m.store.isApplied txid topic) ∧
      (s.doesAppliedTransactionExist txid topic).1.Mirrors B m := by
  unfold doesAppliedTransactionExist
  rw [if_pos h.isOpen]
  cases hk : s.page.applied.lookup (txid, topic) with
  | some known => exact ⟨congrArg Answer.held (h.knows.applied _ _ hk).symm, h⟩
  | none =>
    have hsame := h.isApplied_inner hk
    exact ⟨congrArg Answer.held hsame, h.isOpen, h.view, h.knows.rememberApplied hsame.symm⟩

variable {page p : PageBuffer β} {inputs : List Outpoint}

theorem knows_rememberOutputs {rows : Store} (h : p.Knows rows) {answer : Outpoint → Option Output}
    (hanswer : ∀ at_ ∈ inputs, rows.find (at_, topic) = answer at_) :
    (inputs.foldl (fun p at_ => p.rememberOutput (at_, topic) (answer at_)) p).Knows rows := by
  induction inputs generalizing p with
  | nil => exact h
  | cons at_ inputs ih =>
    exact ih (h.rememberOutput (hanswer at_ List.mem_cons_self)) fun at_ hin => hanswer at_ (List.mem_cons_of_mem _ hin)

theorem knows_rememberApplied {rows : Store} (h : p.Knows rows) {held : Txid → Bool} {txids : List Txid}
    (hheld : ∀ txid ∈ txids, rows.isApplied txid topic = held txid) :
    (txids.foldl (fun p txid => p.rememberApplied txid topic (held txid)) p).Knows rows := by
  induction txids generalizing p with
  | nil => exact h
  | cons txid txids ih =>
    exact ih (h.rememberApplied (hheld txid List.mem_cons_self)) fun txid hin => hheld txid (List.mem_cons_of_mem _ hin)

theorem find_findTopicOutputs (m : Memory τ υ) (topic : Topic) {at_ : Outpoint} (hin : at_ ∈ inputs) :
    (m.findTopicOutputs topic inputs).find? (fun o => o.outpoint = at_) = m.store.find (at_, topic) := by
  have hfound : ∀ o ∈ m.findTopicOutputs topic inputs, o.outpoint = at_ → m.store.find (at_, topic) = some o := by
    intro o ho hat
    obtain ⟨at', -, hrow⟩ := List.mem_filterMap.mp ho
    have hkey : o.outpoint = at' := (Store.find_keyed hrow).1
    rw [← hat, hkey]
    exact hrow
  cases hfind : (m.findTopicOutputs topic inputs).find? (fun o => o.outpoint = at_) with
  | some o => exact (hfound o (List.mem_of_find?_eq_some hfind) (of_decide_eq_true (List.find?_some hfind :))).symm
  | none =>
    cases hrow : m.store.find (at_, topic) with
    | none => rfl
    | some o =>
      have hin : o ∈ m.findTopicOutputs topic inputs := List.mem_filterMap.mpr ⟨at_, hin, hrow⟩
      exact absurd (decide_eq_true (Store.find_keyed hrow).1) (List.find?_eq_none.mp hfind o hin)

theorem contains_findAppliedTransactions (m : Memory τ υ) (topic : Topic) {txids : List Txid} (hin : txid ∈ txids) :
    (m.findAppliedTransactions topic txids).contains txid = m.store.isApplied txid topic := by
  rw [Bool.eq_iff_iff, List.contains_iff_mem, Memory.findAppliedTransactions, List.mem_filter]
  exact and_iff_right hin

theorem mirrors_prefetch (h : s.Mirrors B m) (topic : Topic) (inputs : List Outpoint) (txids : List Txid) :
    (s.prefetch topic inputs txids).Mirrors B m := by
  refine ⟨?_, (view_prefetch B s topic inputs txids).trans h.view, ?_⟩
  · obtain ⟨outputs, applied, hframe⟩ := prefetch_frame s topic inputs txids
    rw [hframe]
    exact h.isOpen
  · unfold prefetch
    rw [if_pos h.isOpen]
    refine knows_rememberApplied (knows_rememberOutputs h.knows fun at_ hin => ?_) fun txid hin => ?_
    · have hunknown := List.mem_filter.mp (List.mem_eraseDups.mp hin)
      rw [find_findTopicOutputs s.inner topic hin, h.find_inner (Option.isNone_iff_eq_none.mp hunknown.2)]
    · obtain ⟨outputs, hframe⟩ := rememberOutputs_frame s.page topic
        (fun at_ => (s.inner.findTopicOutputs topic _).find? fun o => o.outpoint = at_) _
      have hunknown := (List.mem_filter.mp (List.mem_eraseDups.mp hin)).2
      rw [hframe] at hunknown
      rw [contains_findAppliedTransactions s.inner topic hin, h.isApplied_inner (Option.isNone_iff_eq_none.mp hunknown)]

def insertMeets (m : Memory τ υ) : Call υ β → Bool
  | .insertOutput o _ _ => (m.store.find (o.outpoint, o.topic)).all fun held => held = o
  | _ => true

theorem mirrors_call (h : s.Mirrors B m) {c : Call υ β} (hmeets : insertMeets m c = true) :
    (s.call B c none).2 = (m.call B c).2 ∧ (s.call B c none).1.Mirrors B (m.call B c).1 := by
  have hopen : (s.page.isOpen || s.page.writes.isEmpty) = true := by rw [h.isOpen, Bool.true_or]
  cases c with
  | insertOutput o beef gasp =>
    refine ⟨rfl, ?_, (view_taken B (.output o beef gasp) rfl hopen).trans (by rw [h.view]; rfl), ?_⟩
    · simp only [call, taken, h.isOpen, if_true]
      exact h.isOpen
    · simp only [call, taken, h.isOpen, if_true, Memory.call, Memory.store_write]
      exact h.knows.queueOutput hmeets beef gasp
  | insertAppliedTransaction txid topic =>
    refine ⟨rfl, ?_, (view_taken B (.applied txid topic) rfl hopen).trans (by rw [h.view]; rfl), ?_⟩
    · simp only [call, taken, h.isOpen, if_true]
      exact h.isOpen
    · simp only [call, taken, h.isOpen, if_true, Memory.call, Memory.store_write]
      exact h.knows.queueApplied txid topic
  | defer statement =>
    refine ⟨rfl, ?_, (view_taken B (.backend statement) rfl hopen).trans (by rw [h.view]; rfl), ?_⟩
    · simp only [call, taken, h.isOpen, if_true]
      exact h.isOpen
    · simp only [call, taken, h.isOpen, if_true, Memory.call, Memory.store_write]
      exact h.knows.defer statement
  | write w => exact mirrors_write h w
  | findOutput at_ topic spent includeBeef =>
    have hbehind : (s.behind B false none fun s => (s, .output (s.inner.findOutput at_ topic spent includeBeef))).2 =
          .output (m.findOutput at_ topic spent includeBeef) ∧
        (s.behind B false none fun s => (s, .output (s.inner.findOutput at_ topic spent includeBeef))).1.Mirrors B m := by
      rw [behind, barrier_open h]
      exact ⟨rfl, h.flushed⟩
    cases topic with
    | none => exact hbehind
    | some topic =>
      cases spent with
      | some spent => exact hbehind
      | none =>
        cases includeBeef with
        | true => exact hbehind
        | false => exact mirrors_findTopicOutput h at_ topic
  | doesAppliedTransactionExist txid topic => exact mirrors_doesAppliedTransactionExist h txid topic
  | read barred =>
    cases barred with
    | false => exact ⟨rfl, h⟩
    | true =>
      show (s.behind B false none fun s => (s, .ok)).2 = .ok ∧ (s.behind B false none fun s => (s, .ok)).1.Mirrors B m
      rw [behind, barrier_open h]
      exact ⟨rfl, h.flushed⟩
  | prefetch topic inputs txids => exact ⟨rfl, mirrors_prefetch h topic inputs txids⟩

variable (B) in
def answers (s : Metered τ υ β) : List (Call υ β) → List Answer
  | [] => []
  | c :: calls => (s.call B c none).2 :: answers (s.call B c none).1 calls

variable (B) in
def directAnswers (m : Memory τ υ) : List (Call υ β) → List Answer
  | [] => []
  | c :: calls => (m.call B c).2 :: directAnswers (m.call B c).1 calls

variable {calls : List (Call υ β)}

theorem mirrors_answers (h : s.Mirrors B m)
    (hmeets : Runs.Along (directly B) (fun m c => insertMeets m c = true) m calls) : s.answers B calls = directAnswers B m calls := by
  induction calls generalizing s m with
  | nil => rfl
  | cons c calls ih =>
    obtain ⟨hanswer, hnext⟩ := mirrors_call h hmeets.1
    rw [answers, directAnswers, hanswer, ih hnext hmeets.2]

abbrev find (at_ : Outpoint) (topic : Topic) : Call υ β := .findOutput at_ (some topic) none false

theorem insert_misleads (h : s.Mirrors B m) {o : Output} {beef : Option Bytes} {gasp : Bool}
    (hsame : s.answers B [.insertOutput o beef gasp, find o.outpoint o.topic] = directAnswers B m [.insertOutput o beef gasp, find o.outpoint o.topic]) :
    insertMeets m (.insertOutput o beef gasp : Call υ β) = true := by
  cases hheld : m.store.find (o.outpoint, o.topic) with
  | none => rw [insertMeets, hheld]; rfl
  | some held =>
    have hpage : s.answers B [.insertOutput o beef gasp, find o.outpoint o.topic] = [.ok, .output (some (o, none))] := by
      simp only [answers, call, taken, h.isOpen, if_true, findTopicOutput, PageBuffer.queueOutput, AList.lookup_insert]
      rfl
    have hstore : ((m.write B (.output o beef gasp)).store).find (o.outpoint, o.topic) = some held := by
      rw [Memory.store_write, PageWrite.onStore, Store.find_insertOutput, if_neg, hheld]
      rintro ⟨-, hno⟩
      rw [Store.held, hheld] at hno
      cases hno
    have hdirect : directAnswers B m [.insertOutput o beef gasp, find o.outpoint o.topic] = [.ok, .output (some (held, none))] := by
      simp only [directAnswers, Memory.call, Memory.findOutput, hstore]
      rfl
    rw [hpage, hdirect] at hsame
    rw [insertMeets, hheld]
    simpa using hsame.symm

theorem mirrors_opened (inner : Memory τ υ) (hnew : page.writes = []) : Mirrors B ⟨inner, page.openPage⟩ inner := by
  have hpage : page.openPage = ⟨true, [], ∅, ∅⟩ := by simp [PageBuffer.openPage, PageBuffer.forgetAnswers, hnew]
  rw [hpage]
  exact ⟨rfl, rfl, PageBuffer.knows_forgotten true _⟩

theorem along_first {first : List (Call υ β)} (hfirst : first <+: calls)
    (h : Runs.Along (directly B) (fun m c => insertMeets m c = true) m calls) :
    Runs.Along (directly B) (fun m c => insertMeets m c = true) m first := by
  obtain ⟨rest, rfl⟩ := hfirst
  exact (Runs.along_append.mp h).1

theorem meets_of_unseen (h : s.Mirrors B m)
    (hsame : ∀ first, first <+: calls → ∀ at_ topic, s.answers B (first ++ [find at_ topic]) = directAnswers B m (first ++ [find at_ topic])) :
    Runs.Along (directly B) (fun m c => insertMeets m c = true) m calls := by
  induction calls generalizing s m with
  | nil => trivial
  | cons c calls ih =>
    have hmeets : insertMeets m c = true := by
      cases c with
      | insertOutput o beef gasp => exact insert_misleads h (hsame [_] ⟨calls, rfl⟩ o.outpoint o.topic)
      | _ => rfl
    refine ⟨hmeets, ih (mirrors_call h hmeets).2 fun first hfirst at_ topic => ?_⟩
    exact (List.cons.inj (hsame (c :: first) (List.cons_prefix_cons.mpr ⟨rfl, hfirst⟩) at_ topic)).2

/-- An open page is invisible to every read after every call of a run just where each insert of it finds its key free or holding its row. -/
theorem page_unseen (inner : Memory τ υ) (page : PageBuffer β) (hnew : page.writes = []) (calls : List (Call υ β)) :
    Runs.Along (directly B) (fun m c => insertMeets m c = true) inner calls ↔
      ∀ first, first <+: calls → ∀ at_ topic,
        answers B ⟨inner, page.openPage⟩ (first ++ [find at_ topic]) = directAnswers B inner (first ++ [find at_ topic]) := by
  refine ⟨fun hmeets first hfirst at_ topic => ?_, meets_of_unseen (mirrors_opened inner hnew)⟩
  apply mirrors_answers (mirrors_opened inner hnew)
  exact Runs.along_append.mpr ⟨along_first hfirst hmeets, rfl, trivial⟩

/-! The row is held, and spent; the page inserts it again and answers its own. -/

def spentRow : Memory (List Nat) Unit := { blank with store := (Store.empty.insertOutput row).markUtxoAsSpent (row.outpoint, row.topic) }

theorem insert_of_spent_row :
    answers keptRows ⟨spentRow, PageBuffer.openPage {}⟩ [.insertOutput row none true, find row.outpoint row.topic] =
        [.ok, .output (some (row, none))] ∧
      directAnswers keptRows spentRow [.insertOutput row none true, find row.outpoint row.topic] =
        [.ok, .output (some ({ row with spent := true }, none))] := by
  decide

theorem page_unseen_marked :
    answers keptRows ⟨blank, PageBuffer.openPage {}⟩
        [.insertOutput row none true, .write (.markUtxoAsSpent (row.outpoint, row.topic)), find row.outpoint row.topic] =
      [.ok, .ok, .output (some ({ row with spent := true }, none))] := by
  have h := (page_unseen (B := keptRows) blank {} rfl [.insertOutput row none true, .write (.markUtxoAsSpent (row.outpoint, row.topic))]).mp (by decide)
  exact (h _ (List.prefix_refl _) row.outpoint row.topic).trans (by decide)

end Metered

end OverlayEngine.PageBatch
