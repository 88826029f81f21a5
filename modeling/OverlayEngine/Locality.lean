import OverlayEngine.Applied

/-!
# What a run of submits touches

A submit writes the rows of the bodies it carries and of the coins these spend,
and a delete walks down the history of the row it deletes. Every run of submits
stays within the transactions these reach in the store it starts from, stores
only what it carries, and takes no applied record back.
-/

namespace OverlayEngine

open Faulty

/-- A transaction that some submission of `ps` carries or spends, or that the stored history of one such names. -/
inductive Reached (ps : List Submission) (s : Store) : Txid → Prop
  | carried {p : Submission} {tx : Tx} (hp : p ∈ ps) (htx : tx ∈ p.tagged.beef.bodies) : Reached ps s tx.id
  | spent {p : Submission} {tx : Tx} {o : Outpoint} (hp : p ∈ ps) (htx : tx ∈ p.tagged.beef.bodies) (ho : o ∈ tx.spent) : Reached ps s o.txid
  | history {k : Key} {row : Output} {c : Outpoint} (hrow : s.find k = some row) (hr : Reached ps s row.txid) (hc : c ∈ row.outputsConsumed) :
    Reached ps s c.txid

/-- `s` has the rows and the applied transactions of `s₀` outside `A`. -/
structure SameOutside (A : Txid → Prop) (s₀ s : Store) : Prop where
  find : ∀ k : Key, ¬A k.1.txid → s.find k = s₀.find k
  isApplied : ∀ txid topic, ¬A txid → s.isApplied txid topic = s₀.isApplied txid topic

/-- The history of a row of `A` stays in `A`. -/
def Output.Within (A : Txid → Prop) (row : Output) : Prop := A row.txid → ∀ c ∈ row.outputsConsumed, A c.txid

/-- Outside `A` nothing has changed since `s₀`, and no history leaves `A`. -/
structure Local (A : Txid → Prop) (s₀ s : Store) : Prop extends SameOutside A s₀ s where
  within : ∀ k row, s.find k = some row → row.Within A

section
variable {A : Txid → Prop} {s₀ s : Store}

theorem Local.of_rows {s' : Store} (h : Local A s₀ s) (hfind : ∀ k : Key, ¬A k.1.txid → s'.find k = s.find k) (ha : s'.applied = s.applied)
    (hrows : ∀ k row, s'.find k = some row → row.Within A) : Local A s₀ s' := by
  refine ⟨⟨fun k hk => (hfind k hk).trans (h.find k hk), fun txid topic ht => ?_⟩, hrows⟩
  have hsame := h.isApplied txid topic ht
  unfold Store.isApplied at hsame ⊢
  rw [ha]
  exact hsame

theorem Local.modify (h : Local A s₀ s) {k : Key} (hk : A k.1.txid) {f : Output → Output}
    {hf : ∀ o, (f o).outpoint = o.outpoint ∧ (f o).topic = o.topic} (hrow : ∀ o : Output, o.Within A → (f o).Within A) :
    Local A s₀ (s.modify k f hf) := by
  refine h.of_rows (fun k' hk' => ?_) (Store.applied_modify s k f hf) fun k' row hfind => ?_
  · rw [Store.find_modify, if_neg (fun e : k' = k => hk' (by rwa [e]))]
  · rw [Store.find_modify] at hfind
    split at hfind
    · obtain ⟨o, ho, rfl⟩ := Option.map_eq_some_iff.mp hfind
      exact hrow o (h.within k o ho)
    · exact h.within k' row hfind

theorem Local.insertOutput (h : Local A s₀ s) {row : Output} (hid : A row.txid) (hc : ∀ c ∈ row.outputsConsumed, A c.txid) :
    Local A s₀ (s.insertOutput row) := by
  refine h.of_rows (fun k hk => ?_) (Store.applied_insertOutput s row) fun k row' hfind => ?_
  · rw [Store.find_insertOutput, if_neg fun e => hk (by rw [e.1]; exact hid)]
  · rw [Store.find_insertOutput] at hfind
    split at hfind
    · cases hfind
      exact fun _ => hc
    · exact h.within k row' hfind

theorem Local.deleteOutput (h : Local A s₀ s) {k : Key} (hk : A k.1.txid) : Local A s₀ (s.deleteOutput k) := by
  refine h.of_rows (fun k' hk' => ?_) rfl fun k' row hfind => ?_
  · rw [Store.find_deleteOutput, if_neg (fun e : k' = k => hk' (by rwa [e]))]
  · rw [Store.find_deleteOutput] at hfind
    split at hfind
    · cases hfind
    · exact h.within k' row hfind

theorem Local.insertApplied (h : Local A s₀ s) {txid : Txid} (ht : A txid) (topic : Topic) : Local A s₀ (s.insertApplied txid topic) := by
  refine ⟨⟨fun k hk => ?_, fun txid' topic' ht' => ?_⟩, fun k row hfind => ?_⟩
  · rw [Store.find_insertApplied]
    exact h.find k hk
  · have hne : (txid', topic') ≠ (txid, topic) := fun e => ht' (by rwa [(Prod.mk.injEq ..).mp e |>.1])
    rw [Store.isApplied_insertApplied, decide_eq_false hne, Bool.false_or]
    exact h.isApplied txid' topic' ht'
  · rw [Store.find_insertApplied] at hfind
    exact h.within k row hfind

theorem closed_local {tx : Tx} (hid : A tx.id) (hspent : ∀ o ∈ tx.spent, A o.txid) (topic : Topic) : Closed (Local A s₀) tx topic where
  record _ o ho h := h.insertApplied (hspent o ho) topic
  mark _ o ho h := h.modify (hspent o ho) fun _ hr => hr
  insert _ row ht _ hc _ _ h := h.insertOutput (ht ▸ hid) fun c hm => hspent c (hc hm)
  undo _ _ h := h.deleteOutput hid
  link _ o _ ho h := h.modify (hspent o ho) fun _ hr => hr
  applied _ h := h.insertApplied hid topic
  deep := by
    -- the walk down from a spent coin stays on rows of `A`
    have hrow {s : Store} {k : Key} {row : Output} (h : Local A s₀ s) (hk : A k.1.txid) (hf : s.find k = some row) :
        A row.txid ∧ ∀ c ∈ row.outputsConsumed, A c.txid := by
      have htx : row.txid = k.1.txid := congrArg Outpoint.txid (Store.find_keyed hf).1
      have hA : A row.txid := htx ▸ hk
      exact ⟨hA, h.within k row hf hA⟩
    refine ⟨fun o => A o.txid ∧ ∀ c ∈ o.outputsConsumed, A c.txid, ⟨?_, ?_, ?_⟩, ?_⟩
    · intro s o c stale l h ho hc hf
      obtain ⟨hA, hhistory⟩ := hrow h (ho.2 c hc) hf
      exact ⟨hA, hhistory⟩
    · intro s o c stale h ho hc _
      exact h.modify (ho.2 c hc) fun _ hr => hr
    · intro s o h ho _
      exact h.deleteOutput ho.1
    · intro s o row ho h hf
      exact hrow h (hspent o ho) hf

end

/-- What Phase 3 of every carried body keeps, a run of submits keeps. -/
theorem keeps_submits {E : Engine} {I : Store → Prop} : ∀ ps : List Submission,
    (∀ p ∈ ps, ∀ tx ∈ p.tagged.beef.bodies, ∀ topic, Closed I tx topic) → KeepsStore I (submits E ps)
  | [], _ => keeps_pure _
  | p :: rest, h => by
    apply keeps_bind (keeps_submitBounded fun tx htx topic => (h p (List.mem_cons_self ..) tx htx topic).phase)
    intro answer
    apply keeps_bind (keeps_submits rest fun q hq => h q (List.mem_cons_of_mem _ hq))
    exact fun _ => keeps_pure _

/-- Whatever faults, a run of submits leaves every row and every applied record as it was of a transaction that the
submissions do not reach. -/
theorem submits_keep_unreached (E : Engine) (ps : List Submission) (w : World Db) :
    SameOutside (Reached ps w.state.store) w.state.store (submits E ps w).2.state.store := by
  let A : Txid → Prop := Reached ps w.state.store
  have hstart : Local A w.state.store w.state.store :=
    ⟨⟨fun _ _ => rfl, fun _ _ _ => rfl⟩, fun _ _ hfind hr _ hc => .history hfind hr hc⟩
  have hclosed (p : Submission) (hp : p ∈ ps) (tx : Tx) (htx : tx ∈ p.tagged.beef.bodies) (topic : Topic) : Closed (Local A w.state.store) tx topic :=
    closed_local (.carried hp htx) (fun _ ho => .spent hp htx ho) topic
  exact (keeps_submits ps hclosed w trivial hstart).1.toSameOutside

/-! ## What is stored -/

/-- A row of `s` is a row of `s₀`, or of a body of `bodies` with coins of that body;
the applied records of `s₀` stand, and a new one is of a body or of a coin. -/
structure Stored (bodies : List Tx) (s₀ s : Store) : Prop where
  rows : ∀ k row, s.find k = some row → (∃ row₀, s₀.find k = some row₀ ∧ row.outputsConsumed = row₀.outputsConsumed) ∨
    ∃ tx ∈ bodies, row.txid = tx.id ∧ row.outputsConsumed ⊆ tx.spent
  kept : ∀ txid topic, s₀.isApplied txid topic = true → s.isApplied txid topic = true
  added : ∀ txid topic, s.isApplied txid topic = true → s₀.isApplied txid topic = true ∨ ∃ tx ∈ bodies, txid = tx.id ∨ ∃ o ∈ tx.spent, txid = o.txid

section
variable {bodies : List Tx} {s₀ s : Store}

theorem Stored.of_rows {s' : Store} (h : Stored bodies s₀ s) (ha : s'.applied = s.applied)
    (hrows : ∀ k row, s'.find k = some row → (∃ row₀, s.find k = some row₀ ∧ row.outputsConsumed = row₀.outputsConsumed) ∨
      ∃ tx ∈ bodies, row.txid = tx.id ∧ row.outputsConsumed ⊆ tx.spent) : Stored bodies s₀ s' := by
  have hsame (txid : Txid) (topic : Topic) : s'.isApplied txid topic = s.isApplied txid topic := by
    unfold Store.isApplied
    rw [ha]
  refine ⟨fun k row hfind => ?_, fun txid topic => hsame txid topic ▸ h.kept txid topic, fun txid topic => hsame txid topic ▸ h.added txid topic⟩
  rcases hrows k row hfind with ⟨row₁, hrow₁, hc⟩ | hnew
  · refine (h.rows k row₁ hrow₁).imp (fun ⟨row₀, hrow₀, hc₀⟩ => ⟨row₀, hrow₀, hc.trans hc₀⟩) fun ⟨tx, htx, hid, hspent⟩ => ⟨tx, htx, ?_, hc ▸ hspent⟩
    rw [← hid, show row.txid = k.1.txid from congrArg Outpoint.txid (Store.find_keyed hfind).1]
    exact (congrArg Outpoint.txid (Store.find_keyed hrow₁).1).symm
  · exact .inr hnew

theorem Stored.modify (h : Stored bodies s₀ s) (k : Key) {f : Output → Output} {hf : ∀ o, (f o).outpoint = o.outpoint ∧ (f o).topic = o.topic}
    (hrow : ∀ o, (f o).outputsConsumed = o.outputsConsumed) : Stored bodies s₀ (s.modify k f hf) := by
  refine h.of_rows (Store.applied_modify s k f hf) fun k' row hfind => .inl ?_
  rw [Store.find_modify] at hfind
  split at hfind
  · rename_i e
    obtain ⟨o, ho, rfl⟩ := Option.map_eq_some_iff.mp hfind
    exact ⟨o, e ▸ ho, hrow o⟩
  · exact ⟨row, hfind, rfl⟩

theorem Stored.deleteOutput (h : Stored bodies s₀ s) (k : Key) : Stored bodies s₀ (s.deleteOutput k) := by
  refine h.of_rows rfl fun k' row hfind => .inl ?_
  rw [Store.find_deleteOutput] at hfind
  split at hfind
  · cases hfind
  · exact ⟨row, hfind, rfl⟩

theorem Stored.insertApplied (h : Stored bodies s₀ s) {txid : Txid} (ht : ∃ tx ∈ bodies, txid = tx.id ∨ ∃ o ∈ tx.spent, txid = o.txid) (topic : Topic) :
    Stored bodies s₀ (s.insertApplied txid topic) := by
  refine ⟨fun k row hfind => h.rows k row (by rwa [Store.find_insertApplied] at hfind), fun txid' topic' ha => ?_, fun txid' topic' ha => ?_⟩
  · rw [Store.isApplied_insertApplied, h.kept txid' topic' ha, Bool.or_true]
  · rw [Store.isApplied_insertApplied, Bool.or_eq_true, decide_eq_true_eq] at ha
    rcases ha with e | ha
    · rw [(Prod.mk.injEq ..).mp e |>.1]
      exact .inr ht
    · exact h.added txid' topic' ha

theorem closed_stored {tx : Tx} (htx : tx ∈ bodies) (topic : Topic) : Closed (Stored bodies s₀) tx topic where
  record _ o ho h := h.insertApplied ⟨tx, htx, .inr ⟨o, ho, rfl⟩⟩ topic
  mark _ _ _ h := h.modify _ fun _ => rfl
  insert s row ht _ hc _ _ h := by
    refine h.of_rows (Store.applied_insertOutput s row) fun k row' hfind => ?_
    rw [Store.find_insertOutput] at hfind
    split at hfind
    · cases hfind
      exact .inr ⟨tx, htx, ht, hc⟩
    · exact .inl ⟨row', hfind, rfl⟩
  undo _ _ h := h.deleteOutput _
  link _ _ _ _ h := h.modify _ fun _ => rfl
  applied _ h := h.insertApplied ⟨tx, htx, .inl rfl⟩ topic
  deep := ⟨fun _ => True, ⟨fun _ _ _ _ _ _ _ _ _ => trivial, fun _ _ _ _ h _ _ _ => h.modify _ fun _ => rfl, fun _ _ h _ _ => h.deleteOutput _⟩,
    fun _ _ _ _ _ _ => trivial⟩

end

/-- Whatever faults, a run of submits stores rows of the bodies it carries only, and keeps every applied record. -/
theorem submits_store_carried (E : Engine) (ps : List Submission) (w : World Db) :
    Stored (ps.flatMap fun p => p.tagged.beef.bodies) w.state.store (submits E ps w).2.state.store := by
  have hstart : Stored (ps.flatMap fun p => p.tagged.beef.bodies) w.state.store w.state.store :=
    ⟨fun _ row hfind => .inl ⟨row, hfind, rfl⟩, fun _ _ h => h, fun _ _ h => .inl h⟩
  refine (keeps_submits ps (fun p hp tx htx topic => closed_stored ?_ topic) w trivial hstart).1
  exact List.mem_flatMap.mpr ⟨p, hp, htx⟩

end OverlayEngine
