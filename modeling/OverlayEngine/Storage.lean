import OverlayEngine.Basis.Faulty
import OverlayEngine.Types

/-!
# The storage

The rows of the `outputs` table, keyed by outpoint and topic, and the
`applied_transactions` table. An insert of a held row is a no-op, an update of
an absent one too. Each operation has its lookup lemmas; nothing after this
module opens the tables.
-/

namespace OverlayEngine

open Faulty

abbrev Key := Outpoint × Topic

structure Store where
  outputs : AList fun _ : Key => Output
  applied : List (Txid × Topic)
  keyed : ∀ k o, outputs.lookup k = some o → (o.outpoint, o.topic) = k

namespace Store

def empty : Store := ⟨∅, [], fun k o h => by simp at h⟩

def find (s : Store) (k : Key) : Option Output := s.outputs.lookup k

def held (s : Store) (k : Key) : Bool := (s.find k).isSome

def outputsOf (s : Store) (txid : Txid) : List Output :=
  (s.outputs.entries.filter fun e => e.1.1.txid = txid).map Sigma.snd

def isApplied (s : Store) (txid : Txid) (topic : Topic) : Bool := (txid, topic) ∈ s.applied

theorem keyed_insert {m : AList fun _ : Key => Output} (h : ∀ k o, m.lookup k = some o → (o.outpoint, o.topic) = k)
    {k : Key} {o : Output} (ho : (o.outpoint, o.topic) = k) (k' : Key) (o' : Output)
    (h' : (m.insert k o).lookup k' = some o') : (o'.outpoint, o'.topic) = k' := by
  by_cases e : k' = k
  · subst e
    rw [AList.lookup_insert] at h'
    cases h'; exact ho
  · rw [AList.lookup_insert_ne e] at h'
    exact h k' o' h'

theorem keyed_erase {m : AList fun _ : Key => Output} (h : ∀ k o, m.lookup k = some o → (o.outpoint, o.topic) = k)
    (k k' : Key) (o' : Output) (h' : (m.erase k).lookup k' = some o') : (o'.outpoint, o'.topic) = k' := by
  by_cases e : k' = k
  · subst e; simp at h'
  · rw [AList.lookup_erase_ne e] at h'
    exact h k' o' h'

def insertOutput (s : Store) (o : Output) : Store :=
  if s.held (o.outpoint, o.topic) then s
  else ⟨s.outputs.insert (o.outpoint, o.topic) o, s.applied, keyed_insert s.keyed rfl⟩

def deleteOutput (s : Store) (k : Key) : Store := ⟨s.outputs.erase k, s.applied, keyed_erase s.keyed k⟩

/-- `UPDATE outputs … WHERE` the key matches: no column of the key changes. -/
def modify (s : Store) (k : Key) (f : Output → Output)
    (hf : ∀ o, (f o).outpoint = o.outpoint ∧ (f o).topic = o.topic) : Store :=
  match h : s.find k with
  | some o => ⟨s.outputs.insert k (f o), s.applied,
      keyed_insert s.keyed (by rw [(hf o).1, (hf o).2]; exact s.keyed k o h)⟩
  | none => s

def markUtxoAsSpent (s : Store) (k : Key) : Store :=
  s.modify k (fun o => { o with spent := true }) fun _ => ⟨rfl, rfl⟩

def updateConsumedBy (s : Store) (k : Key) (consumedBy : List Outpoint) : Store :=
  s.modify k (fun o => { o with consumedBy := consumedBy }) fun _ => ⟨rfl, rfl⟩

def insertApplied (s : Store) (txid : Txid) (topic : Topic) : Store :=
  if s.isApplied txid topic then s else { s with applied := (txid, topic) :: s.applied }

/-! ## Lookups after an update -/

theorem find_keyed {s : Store} {k : Key} {o : Output} (h : s.find k = some o) : o.outpoint = k.1 ∧ o.topic = k.2 := by
  have := s.keyed k o h
  exact ⟨congrArg Prod.fst this, congrArg Prod.snd this⟩

theorem find_modify (s : Store) (k : Key) (f : Output → Output)
    (hf : ∀ o, (f o).outpoint = o.outpoint ∧ (f o).topic = o.topic) (k' : Key) :
    (s.modify k f hf).find k' = if k' = k then (s.find k).map f else s.find k' := by
  unfold modify
  split
  · rename_i o h
    by_cases e : k' = k
    · subst e
      refine (AList.lookup_insert _).trans ?_
      simp [h]
    · simp [find, e, AList.lookup_insert_ne e]
  · rename_i h
    by_cases e : k' = k
    · subst e; simp [h]
    · simp [e]

theorem find_deleteOutput (s : Store) (k k' : Key) :
    (s.deleteOutput k).find k' = if k' = k then none else s.find k' := by
  by_cases e : k' = k
  · subst e; simp [find, deleteOutput]
  · simp [find, deleteOutput, e, AList.lookup_erase_ne e]

theorem find_insertOutput (s : Store) (o : Output) (k' : Key) :
    (s.insertOutput o).find k' =
      if k' = (o.outpoint, o.topic) ∧ s.held k' = false then some o else s.find k' := by
  unfold insertOutput
  by_cases h : s.held (o.outpoint, o.topic) = true
  · rw [if_pos h, if_neg]
    rintro ⟨rfl, h'⟩
    rw [h] at h'; cases h'
  · rw [if_neg h]
    by_cases e : k' = (o.outpoint, o.topic)
    · subst e; simp [find, h]
    · simp [find, e, AList.lookup_insert_ne e]

theorem find_markUtxoAsSpent (s : Store) (k k' : Key) :
    (s.markUtxoAsSpent k).find k' =
      if k' = k then (s.find k).map (fun o => { o with spent := true }) else s.find k' :=
  find_modify s k _ _ k'

theorem find_updateConsumedBy (s : Store) (k : Key) (l : List Outpoint) (k' : Key) :
    (s.updateConsumedBy k l).find k' =
      if k' = k then (s.find k).map (fun o => { o with consumedBy := l }) else s.find k' :=
  find_modify s k _ _ k'

@[simp] theorem find_insertApplied (s : Store) (txid : Txid) (topic : Topic) (k : Key) :
    (s.insertApplied txid topic).find k = s.find k := by
  unfold insertApplied; split <;> rfl

theorem isApplied_insertApplied (s : Store) (txid : Txid) (topic : Topic) (txid' : Txid) (topic' : Topic) :
    (s.insertApplied txid topic).isApplied txid' topic' =
      (decide ((txid', topic') = (txid, topic)) || s.isApplied txid' topic') := by
  unfold insertApplied
  by_cases h : s.isApplied txid topic = true
  · rw [if_pos h]
    by_cases e : (txid', topic') = (txid, topic)
    · obtain ⟨rfl, rfl⟩ := Prod.mk.inj e; simp [h]
    · simp [e]
  · rw [if_neg h]; simp [isApplied]

@[simp] theorem applied_modify (s : Store) (k : Key) (f : Output → Output)
    (hf : ∀ o, (f o).outpoint = o.outpoint ∧ (f o).topic = o.topic) : (s.modify k f hf).applied = s.applied := by
  unfold modify; split <;> rfl

@[simp] theorem applied_markUtxoAsSpent (s : Store) (k : Key) : (s.markUtxoAsSpent k).applied = s.applied :=
  applied_modify s k _ _

@[simp] theorem applied_updateConsumedBy (s : Store) (k : Key) (l : List Outpoint) :
    (s.updateConsumedBy k l).applied = s.applied := applied_modify s k _ _

@[simp] theorem applied_deleteOutput (s : Store) (k : Key) : (s.deleteOutput k).applied = s.applied := rfl

@[simp] theorem applied_insertOutput (s : Store) (o : Output) : (s.insertOutput o).applied = s.applied := by
  unfold insertOutput; split <;> rfl

theorem mem_outputsOf {s : Store} {txid : Txid} {o : Output} :
    o ∈ s.outputsOf txid ↔ ∃ k : Key, k.1.txid = txid ∧ s.find k = some o := by
  simp only [outputsOf, find, List.mem_map, List.mem_filter, decide_eq_true_eq]
  constructor
  · rintro ⟨⟨k, o'⟩, ⟨hm, hk⟩, rfl⟩
    exact ⟨k, hk, AList.mem_lookup_iff.mpr hm⟩
  · rintro ⟨k, hk, hf⟩
    exact ⟨⟨k, o⟩, ⟨AList.mem_lookup_iff.mp hf, hk⟩, rfl⟩

end Store

/-! ## What the engine keeps -/

/-- The store, the memory of faulted submits (`not_landed`), what the lookup
services were told, how often the managers were asked, and the clock. -/
structure Db where
  store : Store
  notLanded : List (Txid × Topic) := []
  told : List Notice := []
  asks : Nat := 0
  now : Nat := 0

abbrev M := Run Db

abbrev Bound := Option Nat

def Db.onStore (f : Store → Store) (d : Db) : Db := { d with store := f d.store }

/-! ## Storage calls and hooks -/

def findOutput (bound : Bound) (k : Key) : M (Except String (Option Output)) :=
  call bound id fun d => d.store.find k

def findOutputsForTransaction (bound : Bound) (txid : Txid) : M (Except String (List Output)) :=
  call bound id fun d => d.store.outputsOf txid

def doesAppliedTransactionExist (bound : Bound) (txid : Txid) (topic : Topic) : M (Except String Bool) :=
  call bound id fun d => d.store.isApplied txid topic

def insertOutput (bound : Bound) (o : Output) : M (Except String Unit) :=
  call bound (Db.onStore (·.insertOutput o)) fun _ => ()

def deleteOutput (bound : Bound) (k : Key) : M (Except String Unit) :=
  call bound (Db.onStore (·.deleteOutput k)) fun _ => ()

def markUtxoAsSpent (bound : Bound) (k : Key) : M (Except String Unit) :=
  call bound (Db.onStore (·.markUtxoAsSpent k)) fun _ => ()

def updateConsumedBy (bound : Bound) (k : Key) (consumedBy : List Outpoint) : M (Except String Unit) :=
  call bound (Db.onStore (·.updateConsumedBy k consumedBy)) fun _ => ()

def insertAppliedTransaction (bound : Bound) (txid : Txid) (topic : Topic) : M (Except String Unit) :=
  call bound (Db.onStore (·.insertApplied txid topic)) fun _ => ()

def hooked (bound : Bound) (n : Notice) : M (Except String Unit) :=
  call bound (fun d => { d with told := d.told ++ [n] }) fun _ => ()

def holdUnapplied (txid : Txid) (topic : Topic) : M Unit :=
  update fun d => { d with notLanded := (txid, topic) :: d.notLanded }

def forgetUnlanded (txid : Txid) (topic : Topic) : M Unit :=
  update fun d => { d with notLanded := d.notLanded.filter (· ≠ (txid, topic)) }

end OverlayEngine
