import OverlayEngine.Landing

/-!
# Ranked histories

A transaction's id is a digest of the ids it spends, so some rank grows from
every coin to its spender. A stored row names as consumed only coins of lower
rank, and every submit keeps that.
-/

namespace OverlayEngine

open Faulty

def Tx.Ranked (rank : Txid → Nat) (tx : Tx) : Prop := ∀ o ∈ tx.spent, rank o.txid < rank tx.id
  deriving Decidable

def Beef.Ranked (rank : Txid → Nat) (b : Beef) : Prop := ∀ body ∈ b.bodies, body.Ranked rank
  deriving Decidable

def Output.Ranked (rank : Txid → Nat) (row : Output) : Prop := ∀ c ∈ row.outputsConsumed, rank c.txid < rank row.txid

def Store.Ranked (rank : Txid → Nat) (s : Store) : Prop := ∀ k row, s.find k = some row → row.Ranked rank

section
variable {rank : Txid → Nat} {s : Store}

theorem ranked_empty (rank : Txid → Nat) : Store.empty.Ranked rank := by
  intro k row h
  simp [Store.empty, Store.find] at h

theorem Store.Ranked.modify (h : s.Ranked rank) (k : Key) {f : Output → Output}
    {hf : ∀ o, (f o).outpoint = o.outpoint ∧ (f o).topic = o.topic}
    (hrow : ∀ o : Output, o.Ranked rank → (f o).Ranked rank) : (s.modify k f hf).Ranked rank := by
  intro k' row hfind
  rw [Store.find_modify] at hfind
  split at hfind
  · obtain ⟨o, ho, rfl⟩ := Option.map_eq_some_iff.mp hfind
    exact hrow o (h k o ho)
  · exact h k' row hfind

theorem Store.Ranked.insertOutput (h : s.Ranked rank) {o : Output} (ho : o.Ranked rank) : (s.insertOutput o).Ranked rank := by
  intro k row hfind
  rw [Store.find_insertOutput] at hfind
  split at hfind
  · cases hfind
    exact ho
  · exact h k row hfind

theorem Store.Ranked.deleteOutput (h : s.Ranked rank) (k : Key) : (s.deleteOutput k).Ranked rank := by
  intro k' row hfind
  rw [Store.find_deleteOutput] at hfind
  split at hfind
  · cases hfind
  · exact h k' row hfind

theorem Store.Ranked.insertApplied (h : s.Ranked rank) (txid : Txid) (topic : Topic) :
    (s.insertApplied txid topic).Ranked rank := by
  intro k row hfind
  rw [Store.find_insertApplied] at hfind
  exact h k row hfind

end

/-- A row below `n` whose history is below it. -/
structure Below (rank : Txid → Nat) (n : Nat) (row : Output) : Prop where
  ranked : row.Ranked rank
  below : rank row.txid < n

theorem Below.next {rank : Txid → Nat} {n : Nat} {s : Store} {o stale : Output} {c : Outpoint} (h : Below rank n o)
    (hs : s.Ranked rank) (hc : c ∈ o.outputsConsumed) (hf : s.find (c, o.topic) = some stale) (l : List Outpoint) :
    Below rank n { stale with consumedBy := l } := by
  have htx : stale.txid = c.txid := congrArg Outpoint.txid (Store.find_keyed hf).1
  refine ⟨hs _ stale hf, ?_⟩
  show rank stale.txid < n
  rw [htx]
  exact Nat.lt_trans (h.ranked c hc) h.below

theorem below_of_spent {rank : Txid → Nat} {s : Store} {tx : Tx} {o : Outpoint} {topic : Topic} {row : Output}
    (htx : tx.Ranked rank) (ho : o ∈ tx.spent) (hs : s.Ranked rank) (hf : s.find (o, topic) = some row) :
    Below rank (rank tx.id) row := by
  refine ⟨hs _ row hf, ?_⟩
  rw [show row.txid = o.txid from congrArg Outpoint.txid (Store.find_keyed hf).1]
  exact htx o ho

theorem Closed.and {I J : Store → Prop} {tx : Tx} {topic : Topic} (h : Closed I tx topic) (h' : Closed J tx topic) :
    Closed (fun s => I s ∧ J s) tx topic where
  record s o ho hs := ⟨h.record s o ho hs.1, h'.record s o ho hs.2⟩
  mark s o ho hs := ⟨h.mark s o ho hs.1, h'.mark s o ho hs.2⟩
  insert s row ht hk hc hsp hcb hs := ⟨h.insert s row ht hk hc hsp hcb hs.1, h'.insert s row ht hk hc hsp hcb hs.2⟩
  undo s i hs := ⟨h.undo s i hs.1, h'.undo s i hs.2⟩
  link s o l ho hs := ⟨h.link s o l ho hs.1, h'.link s o l ho hs.2⟩
  applied s hs := ⟨h.applied s hs.1, h'.applied s hs.2⟩
  deep := by
    obtain ⟨R, hR, hfound⟩ := h.deep
    obtain ⟨R', hR', hfound'⟩ := h'.deep
    refine ⟨fun o => R o ∧ R' o, ⟨?_, ?_, ?_⟩, ?_⟩
    · intro s o c stale l hs ho hc hf
      exact ⟨hR.next s o c stale l hs.1 ho.1 hc hf, hR'.next s o c stale l hs.2 ho.2 hc hf⟩
    · intro s o c stale hs ho hc hf
      exact ⟨hR.unlink s o c stale hs.1 ho.1 hc hf, hR'.unlink s o c stale hs.2 ho.2 hc hf⟩
    · intro s o hs ho he
      exact ⟨hR.delete s o hs.1 ho.1 he, hR'.delete s o hs.2 ho.2 he⟩
    · intro s o row ho hs hf
      exact ⟨hfound s o row ho hs.1 hf, hfound' s o row ho hs.2 hf⟩

theorem closed_ranked {rank : Txid → Nat} {tx : Tx} (htx : tx.Ranked rank) (topic : Topic) : Closed (Store.Ranked rank) tx topic where
  record _ _ _ h := h.insertApplied _ _
  mark _ _ _ h := h.modify _ fun _ hr => hr
  insert s row ht _ hc _ _ h := h.insertOutput fun c hm => by rw [ht]; exact htx c (hc hm)
  undo _ _ h := h.deleteOutput _
  link _ _ _ _ h := h.modify _ fun _ hr => hr
  applied _ h := h.insertApplied _ _
  deep := ⟨fun _ => True, ⟨fun _ _ _ _ _ _ _ _ _ => trivial, fun _ _ _ _ h _ _ _ => h.modify _ fun _ hr => hr,
    fun _ _ h _ _ => h.deleteOutput _⟩, fun _ _ _ _ _ _ => trivial⟩

end OverlayEngine
