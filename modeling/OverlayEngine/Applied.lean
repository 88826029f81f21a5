import OverlayEngine.History
import OverlayEngine.Rollback

/-!
# The applied rows

A submit records its subject as applied in a topic only when the topic was
judged, did not wait, reported no fault of another call and holds every admitted
output; the report lists the topics recorded. The write's own fault may land.
-/

namespace OverlayEngine

open Faulty

/-- The store holds the outputs `l` of `tx` in `topic`. -/
def Store.holdsAll (s : Store) (tx : Tx) (topic : Topic) (l : List Nat) : Prop := ∀ i ∈ l, s.held (⟨tx.id, i⟩, topic) = true

/-- One topic of Phase 3, from the report `r`: the applied row as it was, and
faults of other calls; or, of a `judged` topic, the outputs `l` with the row and no fault, or with the fault of the row's write. -/
inductive Ends (judged : Prop) (applied : Bool) (tx : Tx) (topic : Topic) (l : List Nat) (r r' : MutationReport) (s : Store) : Prop
  | withheld : s.isApplied tx.id topic = applied → r'.appliedTopics = r.appliedTopics →
      AddsFaults topic (· ≠ .insertAppliedTransaction) r r' → Ends judged applied tx topic l r r' s
  | recorded : judged → s.isApplied tx.id topic = true → r'.appliedTopics = r.appliedTopics ++ [topic] → r'.faults = r.faults →
      s.holdsAll tx topic l → Ends judged applied tx topic l r r' s
  | faulted (e : String) : judged → r'.appliedTopics = r.appliedTopics →
      r'.faults = r.faults ++ [⟨topic, .insertAppliedTransaction, e⟩] → s.holdsAll tx topic l → Ends judged applied tx topic l r r' s

variable {k k' : Key} {s s' : Store}

theorem held_congr (h : s'.find k = s.find k) : s'.held k = s.held k := by
  unfold Store.held
  rw [h]

variable {s : Store}

theorem held_modify {f : Output → Output} {hf : ∀ o, (f o).outpoint = o.outpoint ∧ (f o).topic = o.topic} :
    (s.modify k f hf).held k' = s.held k' := by
  unfold Store.held
  rw [Store.find_modify]
  split
  · rename_i e
    rw [e, Option.isSome_map]
  · rfl

theorem held_deleteOutput (h : k' ≠ k) : (s.deleteOutput k).held k' = s.held k' := by
  apply held_congr
  rw [Store.find_deleteOutput, if_neg h]

variable {txid : Txid}

theorem held_insertApplied {topic : Topic} :
    (s.insertApplied txid topic).held k = s.held k := held_congr (Store.find_insertApplied ..)

/-! ## One topic -/

section
variable {E : Engine} {bound : Bound} {sub : Subject} {rank : Txid → Nat}

theorem held_insertAdmitted {topic : Topic} {consumed : List Outpoint} : ∀ l r {I : Store → Prop},
    (∀ s index now, I s → I (s.insertOutput (admittedOutput sub topic consumed index now))) →
    Triple (fun d : Db => I d.store) (insertAdmitted E bound sub topic consumed r l) fun a d =>
      I d.store ∧ (a.2.2 = false → d.store.holdsAll sub.tx topic l)
  | [], _, _, _ => triple_pure fun _ h => ⟨h, fun _ i hi => by cases hi⟩
  | index :: rest, r, I, hins => by
    let J : Store → Prop := fun s => I s ∧ s.held (⟨sub.tx.id, index⟩, topic) = true
    have stop {r : MutationReport} {P : Db → Prop} (hP : ∀ d, P d → I d.store) :
        Triple P (pure (r, [index], true) : M (MutationReport × List Nat × Bool)) fun a d =>
          I d.store ∧ (a.2.2 = false → d.store.holdsAll sub.tx topic (index :: rest)) :=
      triple_pure fun d h => ⟨hP d h, fun hf => by cases hf⟩
    refine triple_bind (keeps_read (I := fun d : Db => I d.store) _).triple fun now => ?_
    refine triple_bind (R := fun a d => I d.store ∧ (a = .ok () → J d.store))
      (triple_call (fun d h => ?_) fun e d h => ?_) fun a => ?_
    · exact ⟨hins _ _ _ h, fun _ => ⟨hins _ _ _ h, held_inserted d.store _⟩⟩
    · exact ⟨⟨h, fun he => by cases he⟩, ⟨hins _ _ _ h, fun he => by cases he⟩⟩
    match a with
    | .error e => exact stop fun d h => h.1
    | .ok () =>
      refine triple_bind ((keeps_notifyAdmitted (I := J) index E.lookupServices).triple.conseq (fun d h => h.2 rfl)
        fun _ _ h => h) fun a => ?_
      match a with
      | .error e => exact stop fun d h => h.1
      | .ok () =>
        refine triple_bind (held_insertAdmitted rest r (I := J) fun s i now h => ⟨hins s i now h.1, held_insertOutput h.2⟩)
          fun q => triple_pure fun d h => ⟨h.1.1, fun hf i hi => ?_⟩
        rcases List.mem_cons.mp hi with rfl | hi
        · exact h.1.2
        · exact h.2 hf i hi

section
variable {v : TopicValidation} {b : Bool} {l : List Nat} {r₀ : MutationReport} {judged : Prop}

/-- `b` says whether the subject is applied in `topic`, and the outputs `l` are held. -/
def Recording (sub : Subject) (topic : Topic) (b : Bool) (l : List Nat) (s : Store) : Prop :=
  s.isApplied sub.tx.id topic = b ∧ s.holdsAll sub.tx topic l

theorem recording_modify {topic : Topic} {f : Output → Output}
    {hf : ∀ o, (f o).outpoint = o.outpoint ∧ (f o).topic = o.topic} (h : Recording sub topic b l s) :
    Recording sub topic b l (s.modify k f hf) := by
  refine ⟨(isApplied_congr (Store.applied_modify s k f hf) _ _).trans h.1, fun i hi => ?_⟩
  rw [held_modify]
  exact h.2 i hi

theorem recording_record {topic : Topic} (h : Recording sub topic b l s) (ht : txid ≠ sub.tx.id) :
    Recording sub topic b l (s.insertApplied txid topic) := by
  refine ⟨?_, fun i hi => ?_⟩
  · rw [Store.isApplied_insertApplied, h.1]
    simp [Ne.symm ht]
  · rw [held_insertApplied]
    exact h.2 i hi

theorem recording_delete {topic : Topic} {o : Outpoint} (h : Recording sub topic b l s) (ho : o.txid ≠ sub.tx.id) :
    Recording sub topic b l (s.deleteOutput (o, topic)) := by
  refine ⟨h.1, fun i hi => ?_⟩
  rw [held_deleteOutput]
  · exact h.2 i hi
  · intro e
    exact ho (congrArg (fun k : Key => k.1.txid) e).symm

theorem deleteClosed_recording (htx : sub.tx.Ranked rank) (topic : Topic) (b : Bool) (l : List Nat) :
    DeleteClosed (fun s => s.Ranked rank ∧ Recording sub topic b l s) sub.tx topic := by
  refine ⟨fun s o ho h => ⟨h.1.insertApplied _ _, recording_record h.2 (txid_ne_of_spent ho)⟩,
    fun row => Below rank (rank sub.tx.id) row ∧ row.topic = topic, ⟨?_, ?_, ?_⟩, ?_⟩
  · intro s o c stale l' h ho hc hf
    exact ⟨ho.1.next h.1 hc hf l', (Store.find_keyed hf).2.trans ho.2⟩
  · intro s o c stale h ho hc _
    rw [ho.2]
    exact ⟨h.1.modify _ fun _ hr => hr, recording_modify h.2⟩
  · intro s o h ho _
    rw [ho.2]
    refine ⟨h.1.deleteOutput _, recording_delete h.2 fun e => ?_⟩
    exact absurd ho.1.below (by rw [show o.txid = sub.tx.id from e]; exact Nat.lt_irrefl _)
  · intro s o row ho h hf
    exact ⟨below_of_spent htx ho h.1 hf, (Store.find_keyed hf).2⟩

variable {r : MutationReport}

theorem ends_hold (h : Adds v.topic (· ≠ .insertAppliedTransaction) r₀ r) :
    Triple (fun d : Db => d.store.isApplied sub.tx.id v.topic = b) (do holdUnapplied sub.tx.id v.topic; pure r : M MutationReport)
      fun r' d => Ends judged b sub.tx v.topic l r₀ r' d.store :=
  triple_bind (R := fun _ d => d.store.isApplied sub.tx.id v.topic = b) (triple_update fun _ hb => hb) fun _ =>
    triple_pure fun _ hb => .withheld hb h.applied h.faults

theorem ends_linkAndRecord (hj : judged) (hv : Found sub.tx v) (attempted : List Nat)
    (h : Adds v.topic (· ≠ .insertAppliedTransaction) r₀ r) :
    Triple (fun d : Db => Recording sub v.topic b l d.store) (linkAndRecord bound sub v r₀.faults.length r attempted)
      fun r' d => Ends judged b sub.tx v.topic l r₀ r' d.store := by
  unfold linkAndRecord
  have links : KeepsStore (Recording sub v.topic b l) (linkConsumed bound v.topic
      (attempted.map fun i => (⟨sub.tx.id, i⟩ : Outpoint)) r v.outputsConsumed) :=
    keeps_linkConsumed (fun s o l' _ h => recording_modify h) _ _ r hv.consumed
  refine triple_bind ((links.triple.and (reports_linkConsumed _ _ r)).conseq (fun d h => ⟨h, trivial⟩) fun _ _ h => h) fun r1 => ?_
  refine triple_fact (fun _ h => h.2) fun linked => ?_
  have added : Adds v.topic (· ≠ .insertAppliedTransaction) r₀ r1 :=
    h.trans (linked.mono fun site hs => by rcases hs with rfl | rfl <;> decide)
  split
  · exact (ends_hold added).conseq (fun d h => h.1.1) fun _ _ h => h
  · rename_i hlen
    have hsame : r1.faults = r₀.faults := added.same (by omega)
    -- the write leaves every row, also where it faults and lands
    refine triple_bind (R := fun a d => d.store.holdsAll sub.tx v.topic l ∧
      (a = .ok () → d.store.isApplied sub.tx.id v.topic = true)) (triple_call (fun d h => ?_) fun e d h => ?_) fun a => ?_
    · exact ⟨fun i hi => held_insertApplied.trans (h.1.2 i hi), fun _ => by simp [Db.onStore, Store.isApplied_insertApplied]⟩
    · exact ⟨⟨h.1.2, fun he => by cases he⟩, ⟨fun i hi => held_insertApplied.trans (h.1.2 i hi), fun he => by cases he⟩⟩
    cases a with
    | ok u =>
      refine triple_bind (R := fun _ d => d.store.isApplied sub.tx.id v.topic = true ∧ d.store.holdsAll sub.tx v.topic l)
        (triple_update fun d h => ⟨h.2 rfl, h.1⟩) fun _ => triple_pure fun d h => ?_
      exact .recorded hj h.1 (by rw [added.applied]) hsame h.2
    | error e =>
      refine triple_bind (R := fun _ d => d.store.holdsAll sub.tx v.topic l) (triple_update fun _ h => h.1) fun _ =>
        triple_pure fun d h => ?_
      exact .faulted e hj added.applied (by rw [MutationReport.fault, hsame]) h

theorem ends_deleteAndRecord (hj : judged) (htx : sub.tx.Ranked rank) (hv : Found sub.tx v) (attempted : List Nat)
    (h : Adds v.topic (· ≠ .insertAppliedTransaction) r₀ r) :
    Triple (fun d : Db => d.store.Ranked rank ∧ Recording sub v.topic b l d.store)
      (deleteAndRecord E bound sub v r₀.faults.length r attempted)
      fun r' d => Ends judged b sub.tx v.topic l r₀ r' d.store := by
  unfold deleteAndRecord
  have deletes : KeepsStore (fun s => s.Ranked rank ∧ Recording sub v.topic b l s) (deleteStale E bound v.topic r v.staleCoins) :=
    keeps_deleteStale (deleteClosed_recording htx v.topic b l) _ r hv.stale
  refine triple_bind (keeps_isDue (I := fun d : Db => d.store.Ranked rank ∧ Recording sub v.topic b l d.store)).triple
    fun dueBefore => ?_
  refine triple_bind ((deletes.triple.and (reports_deleteStale _ r)).conseq (fun d h => ⟨h, trivial⟩) fun _ _ h => h) fun a => ?_
  obtain ⟨r1, faulted, started⟩ := a
  refine triple_fact (fun _ h => h.2.1) fun deleted => ?_
  have added : Adds v.topic (· ≠ .insertAppliedTransaction) r₀ r1 :=
    h.trans (deleted.mono fun site hs => by rcases hs with rfl | rfl | rfl <;> decide)
  simp only
  split
  · -- the undo writes no applied row
    let I : Store → Prop := fun s => s.isApplied sub.tx.id v.topic = b
    refine triple_bind ((keeps_isDue (I := fun d : Db => I d.store)).triple.conseq (fun d h => h.1.2.1) fun _ _ h => h)
      fun dueNow => ?_
    refine triple_bind (keeps_renew (I := fun d : Db => I d.store)).triple fun _ => ?_
    refine triple_bind (keeps_allHeld (I := I) _ _).triple fun held => ?_
    have undo : KeepsStore I (undoIf bound sub v.topic held r1 attempted) := keeps_undoIf (fun _ _ h => h) held _ r1
    refine triple_bind ((undo.triple.and (reports_undoIf held _ r1)).conseq (fun d h => ⟨h, trivial⟩) fun _ _ h => h) fun r2 => ?_
    refine triple_fact (fun _ h => h.2) fun undone => ?_
    exact (ends_hold (added.trans (undone.mono fun site hs => by rw [hs]; decide))).conseq (fun d h => h.1) fun _ _ h => h
  · exact (ends_linkAndRecord hj hv attempted added).conseq (fun d h => h.1.2) fun _ _ h => h

theorem ends_insertAndRecord (hj : judged) (htx : sub.tx.Ranked rank) (hv : Found sub.tx v)
    (h : Adds v.topic (· ≠ .insertAppliedTransaction) r₀ r) :
    Triple (fun d : Db => d.store.Ranked rank ∧ d.store.isApplied sub.tx.id v.topic = b)
      (insertAndRecord E bound sub v r₀.faults.length r)
      fun r' d => Ends judged b sub.tx v.topic v.admittance.outputsToAdmit r₀ r' d.store := by
  unfold insertAndRecord
  let I : Store → Prop := fun s => s.Ranked rank ∧ s.isApplied sub.tx.id v.topic = b
  have inserts : ∀ s index now, I s → I (s.insertOutput (admittedOutput sub v.topic v.outputsConsumed index now)) := by
    intro s index now h
    refine ⟨h.1.insertOutput fun c hc => htx c (hv.consumed hc), ?_⟩
    exact (isApplied_congr (Store.applied_insertOutput s _) _ _).trans h.2
  have held : Triple (fun d : Db => I d.store) (insertAdmitted E bound sub v.topic v.outputsConsumed r v.admittance.outputsToAdmit)
      fun a d => I d.store ∧ (a.2.2 = false → d.store.holdsAll sub.tx v.topic v.admittance.outputsToAdmit) :=
    held_insertAdmitted _ r inserts
  refine triple_bind ((held.and (reports_insertAdmitted _ r)).conseq (fun d h => ⟨h, trivial⟩) fun _ _ h => h) fun a => ?_
  obtain ⟨r1, attempted, faulted⟩ := a
  refine triple_fact (fun _ h => h.2.1) fun inserted => ?_
  have added : Adds v.topic (· ≠ .insertAppliedTransaction) r₀ r1 :=
    h.trans (inserted.mono fun site hs => by rcases hs with rfl | rfl <;> decide)
  simp only
  split
  · let J : Store → Prop := fun s => s.isApplied sub.tx.id v.topic = b
    refine triple_bind ((keeps_renew (I := fun d : Db => J d.store)).triple.conseq (fun d h => h.1.1.2) fun _ _ h => h) fun _ => ?_
    have undo : KeepsStore J (undoInserts bound sub v.topic r1 attempted) := keeps_undoInserts (fun _ _ h => h) _ r1
    refine triple_bind ((undo.triple.and (reports_undoInserts _ r1)).conseq (fun d h => ⟨h, trivial⟩) fun _ _ h => h) fun r2 => ?_
    refine triple_fact (fun _ h => h.2) fun undone => ?_
    exact (ends_hold (added.trans (undone.mono fun site hs => by rw [hs]; decide))).conseq (fun d h => h.1) fun _ _ h => h
  · rename_i hf
    refine (ends_deleteAndRecord hj htx hv attempted added).conseq (fun d h => ?_) fun _ _ h => h
    exact ⟨h.1.1.1, h.1.1.2, h.1.2 (by simpa using hf)⟩

theorem ends_applyTopic (htx : sub.tx.Ranked rank) (hv : Found sub.tx v) (waits : AList fun _ : Topic => String)
    (hread : ∀ site e, v.readFault = some (site, e) → site ≠ .insertAppliedTransaction) :
    Triple (fun d : Db => d.store.Ranked rank ∧ d.store.isApplied sub.tx.id v.topic = b) (applyTopic E bound sub waits v r₀)
      fun r' d => Ends (v.judged = true) b sub.tx v.topic v.admittance.outputsToAdmit r₀ r' d.store := by
  have hold {site : Site} {e : String} (h : site ≠ .insertAppliedTransaction) :
      Triple (fun d : Db => d.store.Ranked rank ∧ d.store.isApplied sub.tx.id v.topic = b)
        (do holdUnapplied sub.tx.id v.topic; pure (r₀.fault v.topic site e) : M MutationReport) fun r' d =>
          Ends (v.judged = true) b sub.tx v.topic v.admittance.outputsToAdmit r₀ r' d.store :=
    triple_bind (R := fun _ d => d.store.isApplied sub.tx.id v.topic = b) (triple_update fun _ hb => hb.2) fun _ =>
      triple_pure fun _ hb => .withheld hb rfl (adds_fault (S := (· ≠ _)) r₀ e h).faults
  unfold applyTopic
  split
  · exact triple_pure fun d h => .withheld h.2 rfl (addsFaults_same rfl)
  · rename_i hdupe
    split
    · exact triple_pure fun d h => .withheld h.2 rfl (addsFaults_same rfl)
    · rename_i hfailed
      split
      · rename_i hf
        exact hold (hread _ _ hf)
      · exact hold (by decide)
      · rename_i hnone _
        have hjudged : v.judged = true := by simp [TopicValidation.judged, hdupe, hfailed, hnone]
        unfold applyJudged
        let I : Store → Prop := fun s => s.Ranked rank ∧ s.isApplied sub.tx.id v.topic = b
        have marks : KeepsStore I (markPrevious E bound sub v.topic v.admittance.coinsToRetain r₀
            (v.previousCoins.zip v.previousOutputs)) := by
          refine keeps_markPrevious (fun s o _ h => ⟨h.1.modify _ fun _ hr => hr, ?_⟩) _ _ r₀ fun p hp =>
            hv _ (List.of_mem_zip hp).2
          exact (isApplied_congr (Store.applied_markUtxoAsSpent s _) _ _).trans h.2
        refine triple_bind ((marks.triple.and (reports_markPrevious _ _ r₀)).conseq (fun d h => ⟨h, trivial⟩) fun _ _ h => h)
          fun a => ?_
        obtain ⟨r1, markFaulted, notifyFaulted⟩ := a
        refine triple_fact (fun _ h => h.2) fun marked => ?_
        have added : Adds v.topic (· ≠ .insertAppliedTransaction) r₀ r1 :=
          marked.mono fun site hs => by rcases hs with rfl | rfl <;> decide
        simp only
        split
        · exact (ends_hold added).conseq (fun d h => h.1.2) fun _ _ h => h
        · exact (ends_insertAndRecord hjudged htx hv added).conseq (fun d h => h.1) fun _ _ h => h

end

end

/-! ## Phase 3 -/

/-- What a submit leaves of `topic` in its report and in the applied rows: nothing
written and no fault of the write; or the outputs of some `l` in `J`, with the row and
no fault, or with the fault of the write alone. -/
inductive Settled (applied : Bool) (tx : Tx) (topic : Topic) (J : List Nat → Prop) (report : MutationReport) (s : Store) : Prop
  | withheld : s.isApplied tx.id topic = applied → topic ∉ report.appliedTopics →
      ¬ HasFault topic (· = .insertAppliedTransaction) report → Settled applied tx topic J report s
  | recorded (l : List Nat) : J l → s.isApplied tx.id topic = true → topic ∈ report.appliedTopics →
      (∀ C, ¬ HasFault topic C report) → s.holdsAll tx topic l → Settled applied tx topic J report s
  | faulted (l : List Nat) : J l → topic ∉ report.appliedTopics → HasFault topic (· = .insertAppliedTransaction) report →
      ¬ HasFault topic (· ≠ .insertAppliedTransaction) report → s.holdsAll tx topic l → Settled applied tx topic J report s

section
variable {applied : Bool} {tx : Tx} {topic : Topic} {J : List Nat → Prop}

theorem Settled.congr {report report' : MutationReport} (h : Settled applied tx topic J report s)
    (hs : SameTopic s topic s') (hf : ∀ C, HasFault topic C report' ↔ HasFault topic C report)
    (ha : topic ∈ report'.appliedTopics ↔ topic ∈ report.appliedTopics) : Settled applied tx topic J report' s' := by
  have held {l : List Nat} (h : s.holdsAll tx topic l) : s'.holdsAll tx topic l :=
    fun i hi => (held_congr (hs.find _)).trans (h i hi)
  cases h with
  | withheld h1 h2 h3 => exact .withheld ((hs.isApplied _).trans h1) (by rwa [ha]) (by rwa [hf])
  | recorded l hJ h1 h2 h3 h4 =>
    exact .recorded l hJ ((hs.isApplied _).trans h1) (ha.mpr h2) (fun C => by rw [hf]; exact h3 C) (held h4)
  | faulted l hJ h1 h2 h3 h4 => exact .faulted l hJ (by rwa [ha]) ((hf _).mpr h2) (by rwa [hf]) (held h4)

theorem Ends.settled {judged : Prop} {l : List Nat} {r r' : MutationReport} (h : Ends judged applied tx topic l r r' s)
    (hnone : ∀ C, ¬ HasFault topic C r) (hout : topic ∉ r.appliedTopics) (hJ : judged → J l) : Settled applied tx topic J r' s := by
  cases h with
  | withheld h1 h2 h3 =>
    refine .withheld h1 (by rwa [h2]) fun hc => hnone _ (h3.hadFault (fun _ site hs => ?_) hc)
    exact hs
  | recorded hj h1 h2 h3 h4 =>
    refine .recorded l (hJ hj) h1 (by simp [h2]) (fun C hc => hnone C ?_) h4
    have added : AddsFaults topic (fun _ => False) r r' := addsFaults_same h3
    exact added.hadFault (fun _ _ h => h.elim) hc
  | faulted e hj h1 h2 h3 =>
    refine .faulted l (hJ hj) (by rwa [h1])
      ⟨_, by rw [h2]; exact List.mem_append_right _ (List.mem_singleton.mpr rfl), rfl, rfl⟩ (fun hc => ?_) h3
    have added : AddsFaults topic (· = .insertAppliedTransaction) r r' :=
      ⟨_, h2, fun f hf => by rw [List.mem_singleton.mp hf]; exact ⟨rfl, rfl⟩⟩
    exact hnone _ (added.hadFault (fun _ site hs hn => hn hs) hc)

end

/-- The validation finds coins of the subject, its reads fault as reads, and what it
admits once judged is in `J`. -/
structure Admits (tx : Tx) (J : TopicValidation → Prop) (v : TopicValidation) : Prop where
  found : Found tx v
  read : ∀ site e, v.readFault = some (site, e) → site ≠ .insertAppliedTransaction
  admits : v.judged = true → J v

section
variable {E : Engine} {bound : Bound} {sub : Subject} {rank : Txid → Nat}

theorem settled_mutate {topic : Topic} {s₀ : Store} {J : Topic → List Nat → Prop} (htx : sub.tx.Ranked rank)
    (waits : AList fun _ : Topic => String) : ∀ vs p, (vs.map TopicValidation.topic).Nodup →
    (∀ v ∈ vs, Admits sub.tx (fun v => J v.topic v.admittance.outputsToAdmit) v) → (∀ C, ¬ HasFault topic C p.2) →
    topic ∉ p.2.appliedTopics →
    Triple (fun d : Db => d.store.Ranked rank ∧ SameTopic s₀ topic d.store) (mutate E bound sub waits vs p)
      fun p' d => Settled (s₀.isApplied sub.tx.id topic) sub.tx topic (J topic) p'.2 d.store
  | [], p, _, _, hf, ha => triple_pure fun d h => .withheld (h.2.isApplied _) ha (hf _)
  | v :: rest, (steak, r), hnd, hvs, hf, ha => by
    obtain ⟨hout, hnd'⟩ := List.nodup_cons.mp (show (v.topic :: rest.map TopicValidation.topic).Nodup from hnd)
    have hv := hvs v (List.mem_cons_self ..)
    have hrest : ∀ u ∈ rest, Admits sub.tx (fun v => J v.topic v.admittance.outputsToAdmit) u :=
      fun u hu => hvs u (List.mem_cons_of_mem _ hu)
    by_cases ht : v.topic = topic
    · subst ht
      refine triple_bind ((ends_applyTopic htx hv.found waits hv.read).conseq
        (fun d h => ⟨h.1, h.2.isApplied sub.tx.id⟩) fun r1 d h => h.settled (J := J v.topic) hf ha hv.admits) fun r1 => ?_
      have frame : KeepsStore (Settled (s₀.isApplied sub.tx.id v.topic) sub.tx v.topic (J v.topic) r1)
          (mutate E bound sub waits rest (steakRemoved waits v steak, r1)) := by
        refine keeps_mutate waits rest _ fun u hu => ⟨?_, (hrest u hu).found⟩
        refine (closed_otherTopic (fun s s' h h' => h'.congr h (fun _ => Iff.rfl) Iff.rfl) sub.tx fun e => hout ?_).phase
        rw [← e]
        exact List.mem_map_of_mem hu
      refine (frame.triple.and (reports_mutate waits v.topic rest _ hout)).conseq (fun d h => ⟨h, trivial⟩) fun p' d h => ?_
      exact h.1.congr (sameTopic_refl _ _) h.2.1 h.2.2
    · have frame : KeepsStore (fun s => s.Ranked rank ∧ SameTopic s₀ topic s) (applyTopic E bound sub waits v r) := by
        refine keeps_applyTopic ((closed_ranked htx v.topic).and ?_) hv.found waits r
        exact closed_otherTopic (fun s s' h h' => h'.trans h) sub.tx ht
      refine triple_bind ((frame.triple.and (reports_applyTopic waits r)).conseq (fun d h => ⟨h, trivial⟩)
        fun _ _ h => h) fun r1 => ?_
      refine triple_fact (fun _ h => h.2) fun grown => ?_
      have ht' : topic ≠ v.topic := fun e => ht e.symm
      refine (settled_mutate htx waits rest _ hnd' hrest (fun C hc => hf C ?_) ?_).conseq (fun d h => h.1) fun _ _ h => h
      · exact grown.faults.hadFault (fun e => absurd e ht') hc
      · exact fun h => ha ((grown.recorded ht').mp h)

end

/-! ## A submit, and every run of submits -/

structure Submission where
  bound : Bound := none
  finalize : Bool := false
  tagged : TaggedBeef
  mode : SubmitMode
  policy : WalkBreachPolicy := .notNow

def Submission.run (E : Engine) (p : Submission) : M (Except EngineError (Steak × MutationReport)) :=
  submitBounded E p.bound p.finalize p.tagged p.mode p.policy

def Submission.subject (E : Engine) (p : Submission) : Except EngineError Tx :=
  transactionFromBeef p.tagged.beef (subjectTxidOf E p.tagged.beef)

def submits (E : Engine) : List Submission → M (List (Except EngineError (Steak × MutationReport)))
  | [] => pure []
  | p :: rest => do
    let answer ← p.run E
    let answers ← submits E rest
    pure (answer :: answers)

def Dropped (manager : TopicManager) (tx : Tx) (i : Nat) : Prop :=
  ∃ out expiry, tx.outputs[i]? = some out ∧ manager.syncExpiry out.lockingScript = some expiry

/-- The manager of `topic` judged `tx`, and `l` is what it admitted, less what a finalize submit drops. -/
def Judged (E : Engine) (p : Submission) (tx : Tx) (topic : Topic) (l : List Nat) : Prop :=
  ∃ manager n coins admittance, E.managers topic = some manager ∧
    manager.identifyAdmissibleOutputs n tx coins p.tagged.offChainValues p.mode false = .ok admittance ∧
    ∀ i ∈ admittance.outputsToAdmit, i ∈ l ∨ p.finalize = true ∧ Dropped manager tx i

/-- The applied rows of the subject `tx` of `p` say what happened, from the store `s` to `run`. -/
structure Honest (E : Engine) (p : Submission) (tx : Tx) (s : Store) (run : Except EngineError (Steak × MutationReport) × World Db) :
    Prop where
  added : ∀ topic, s.isApplied tx.id topic = false → run.2.state.store.isApplied tx.id topic = true →
    ∃ steak report l, run.1 = .ok (steak, report) ∧ Judged E p tx topic l ∧ run.2.state.store.holdsAll tx topic l ∧
      ¬ HasFault topic (· ≠ .insertAppliedTransaction) report ∧
      (topic ∈ report.appliedTopics ∨ HasFault topic (· = .insertAppliedTransaction) report)
  listed : ∀ steak report topic, run.1 = .ok (steak, report) → topic ∈ report.appliedTopics →
    s.isApplied tx.id topic = false ∧ run.2.state.store.isApplied tx.id topic = true ∧ (∀ C, ¬ HasFault topic C report) ∧
      ∃ l, Judged E p tx topic l ∧ run.2.state.store.holdsAll tx topic l
  withheld : ∀ steak report topic, run.1 = .ok (steak, report) → HasFault topic (· ≠ .insertAppliedTransaction) report →
    run.2.state.store.isApplied tx.id topic = s.isApplied tx.id topic

section
variable {E : Engine} {p : Submission} {tx : Tx} {s₀ : Store} {rank : Txid → Nat}

/-- The subject is applied where `s₀` says. -/
def SameApplied (s₀ : Store) (tx : Tx) (s : Store) : Prop := ∀ topic, s.isApplied tx.id topic = s₀.isApplied tx.id topic

theorem SameApplied.record (h : SameApplied s₀ tx s) (ht : txid ≠ tx.id) (topic : Topic) :
    SameApplied s₀ tx (s.insertApplied txid topic) := by
  intro topic'
  rw [Store.isApplied_insertApplied, h topic']
  simp [Ne.symm ht]

theorem SameApplied.of_applied (h : SameApplied s₀ tx s) (ha : s'.applied = s.applied) : SameApplied s₀ tx s' :=
  fun topic => (isApplied_congr ha tx.id topic).trans (h topic)

theorem closed_sameApplied {body : Tx} (hid : body.id ≠ tx.id) (hspent : ∀ o ∈ body.spent, o.txid ≠ tx.id) (topic : Topic) :
    Closed (SameApplied s₀ tx) body topic where
  record _ o ho h := h.record (hspent o ho) topic
  mark _ _ _ h := h.of_applied (Store.applied_markUtxoAsSpent _ _)
  insert _ _ _ _ _ _ _ h := h.of_applied (Store.applied_insertOutput _ _)
  undo _ _ h := h.of_applied rfl
  link _ _ _ _ h := h.of_applied (Store.applied_updateConsumedBy _ _ _)
  applied _ h := h.record hid topic
  deep := ⟨fun _ => True, ⟨fun _ _ _ _ _ _ _ _ _ => trivial,
    fun _ _ _ _ h _ _ _ => h.of_applied (Store.applied_updateConsumedBy _ _ _), fun _ _ h _ _ => h.of_applied rfl⟩,
    fun _ _ _ _ _ _ => trivial⟩

theorem judged_dropExpired (now : Nat) {v : TopicValidation} (h : Judged E p tx v.topic v.admittance.outputsToAdmit)
    (hfin : p.finalize = true) : Judged E p tx v.topic (dropExpired E tx now v).admittance.outputsToAdmit := by
  obtain ⟨manager, n, coins, admittance, hm, ha, hl⟩ := h
  refine ⟨manager, n, coins, admittance, hm, ha, fun i hi => ?_⟩
  rcases hl i hi with h | h
  · unfold dropExpired
    rw [hm]
    simp only [List.mem_filter]
    cases ho : tx.outputs[i]? with
    | none => exact Or.inl ⟨h, by simp⟩
    | some out =>
      cases he : manager.syncExpiry out.lockingScript with
      | none => exact Or.inl ⟨h, by simp [he]⟩
      | some expiry => exact Or.inr ⟨hfin, out, expiry, ho, he⟩
  · exact Or.inr h

theorem follows_admits : Follows (Admits tx fun v => Judged E p tx v.topic v.admittance.outputsToAdmit ∧
    s₀.isApplied tx.id v.topic = false) (fun s => s.Ranked rank ∧ SameApplied s₀ tx s) E tx p.tagged.offChainValues p.mode
    p.finalize false := by
  have validated (s : Store) (v : TopicValidation) (hs : s.Ranked rank ∧ SameApplied s₀ tx s)
      (h : Validated E s tx p.tagged.offChainValues p.mode false v) : Admits tx (fun v =>
        Judged E p tx v.topic v.admittance.outputsToAdmit ∧ s₀.isApplied tx.id v.topic = false) v := by
    refine ⟨h.found, fun site e hf => ?_, fun hj => ⟨?_, ?_⟩⟩
    · rcases h.fault site e hf with rfl | rfl <;> decide
    · obtain ⟨manager, n, hm, ha⟩ := h.answer hj
      exact ⟨manager, n, _, _, hm, ha, fun i hi => Or.inl hi⟩
    · rw [← hs.2 v.topic]
      exact h.notApplied hj
  refine ⟨validated, validated, fun hfin now v h => ?_, fun hc => (by cases hc)⟩
  have hfound := (follows_found (fun _ => True) E tx none p.mode p.finalize false).expired hfin now v h.found
  have hsame : (dropExpired E tx now v).topic = v.topic ∧ (dropExpired E tx now v).readFault = v.readFault ∧
      (dropExpired E tx now v).judged = v.judged := by
    unfold dropExpired
    split <;> exact ⟨rfl, rfl, rfl⟩
  obtain ⟨ht, hr, hj⟩ := hsame
  refine ⟨hfound, by rw [hr]; exact h.read, fun hj' => ?_⟩
  obtain ⟨h1, h2⟩ := h.admits (hj ▸ hj')
  rw [ht]
  exact ⟨judged_dropExpired now h1 hfin, h2⟩

end

variable {E : Engine}

theorem submitBounded_error {bound : Bound} {finalize : Bool} {tagged : TaggedBeef} {mode : SubmitMode}
    {policy : WalkBreachPolicy} {w : World Db} {e : EngineError}
    (h : (submitBounded E bound finalize tagged mode policy w).1 = .error e) :
    (submitBounded E bound finalize tagged mode policy w).2 = beforePhase3 E bound finalize tagged mode policy w := by
  revert h
  unfold beforePhase3 submitBounded submitCounted
  generalize hx : prepare E bound finalize none (fun tx beef ran => some (landCarried E bound mode policy tx beef ran))
    tagged mode policy 0 w = x
  obtain ⟨r, w1⟩ := x
  rw [bind_assoc, bind_run hx]
  match r with
  | .error e => exact fun _ => rfl
  | .ok (vs, sub, couldNotRun, rule) => exact fun h => by cases h

theorem honest_of_settled {p : Submission} {tx : Tx}
    {run : Except EngineError (Steak × MutationReport) × World Db} {q : Steak × MutationReport} (hrun : run.1 = .ok q)
    (h : ∀ topic, Settled (s.isApplied tx.id topic) tx topic (fun l => Judged E p tx topic l ∧ s.isApplied tx.id topic = false)
      q.2 run.2.state.store) : Honest E p tx s run := by
  refine ⟨fun topic hs hs' => ?_, fun steak report topic hr ha => ?_, fun steak report topic hr hf => ?_⟩
  · cases h topic with
    | withheld h1 _ _ => rw [h1, hs] at hs'; cases hs'
    | recorded l hJ _ h2 h3 h4 => exact ⟨q.1, q.2, l, hrun, hJ.1, h4, h3 _, Or.inl h2⟩
    | faulted l hJ _ h2 h3 h4 => exact ⟨q.1, q.2, l, hrun, hJ.1, h4, h3, Or.inr h2⟩
  · rw [hrun] at hr
    cases hr
    cases h topic with
    | withheld _ h2 _ => exact absurd ha h2
    | recorded l hJ h1 _ h3 h4 => exact ⟨hJ.2, h1, h3, l, hJ.1, h4⟩
    | faulted _ _ h1 _ _ _ => exact absurd ha h1
  · rw [hrun] at hr
    cases hr
    cases h topic with
    | withheld h1 _ _ => exact h1
    | recorded l _ _ _ h3 _ => exact absurd hf (h3 _)
    | faulted _ _ _ _ h3 _ => exact absurd hf h3

section
variable {E : Engine} {p : Submission} {tx : Tx} {rank : Txid → Nat} {w : World Db}
  (hsubject : p.subject E = .ok tx) (hbeef : p.tagged.beef.Ranked rank)
include hsubject hbeef

theorem admits_prepare (s₀ : Store) : Ensures (fun d : Db => d.store.Ranked rank ∧ SameApplied s₀ tx d.store)
    (prepare E p.bound p.finalize none (fun tx beef ran => some (landCarried E p.bound p.mode p.policy tx beef ran))
      p.tagged p.mode p.policy 0) fun r => ∀ q, r = .ok q →
      Prepared (fun s => s.Ranked rank ∧ SameApplied s₀ tx s) (fun c => rank c < rank tx.id) (fun tx => Admits tx fun v =>
        Judged E p tx v.topic v.admittance.outputsToAdmit ∧ s₀.isApplied tx.id v.topic = false) E p.tagged p.finalize q := by
  have hnext : ∀ body ∈ p.tagged.beef.bodies, rank body.id < rank tx.id → ∀ o ∈ body.spent, rank o.txid < rank tx.id :=
    fun body hb hr o ho => Nat.lt_trans (hbeef body hb o ho) hr
  refine keeps_prepare (I := fun s => s.Ranked rank ∧ SameApplied s₀ tx s) (fun tx' h => ?_) fun tx' h => ?_
  · have htx : tx' = tx := Except.ok.inj (h.symm.trans hsubject)
    subst htx
    refine ⟨⟨hbeef tx' (transactionFromBeef_mem hsubject), hnext⟩, fun t ht ran => keeps_landCarried hnext ?_ tx' ran⟩
    intro t' ht' body hb ⟨s, hs, hun⟩
    refine ((closed_ranked (hbeef body hb) t').and (closed_sameApplied ?_ (fun o ho => ?_) t')).phase
    · intro e
      exact absurd hun.reached (by rw [e]; exact Nat.lt_irrefl _)
    · intro e
      exact absurd (hnext body hb hun.reached o ho) (by rw [e]; exact Nat.lt_irrefl _)
  · have htx : tx' = tx := Except.ok.inj (h.symm.trans hsubject)
    subst htx
    exact follows_admits

theorem honest_run (htopics : p.tagged.topics.Nodup) (hstore : w.state.store.Ranked rank) :
    Honest E p tx w.state.store (p.run E w) := by
  let s₀ : Store := w.state.store
  let start : World Db := beforePhase3 E p.bound p.finalize p.tagged p.mode p.policy w
  obtain ⟨⟨hI, hp⟩, -⟩ := admits_prepare hsubject hbeef s₀ w trivial ⟨hstore, fun _ => rfl⟩
  have happlied (topic : Topic) : start.state.store.isApplied tx.id topic = s₀.isApplied tx.id topic := hI.2 topic
  cases hrun : (p.run E w).1 with
  | error e =>
    have hsame : (p.run E w).2.state.store = start.state.store :=
      congrArg (fun w : World Db => w.state.store) (submitBounded_error hrun)
    refine ⟨fun topic h h' => ?_, fun _ _ _ h => ?_, fun _ _ _ h => ?_⟩
    · rw [hsame, happlied topic, show s₀.isApplied tx.id topic = false from h] at h'
      cases h'
    · rw [hrun] at h
      cases h
    · rw [hrun] at h
      cases h
  | ok q =>
    obtain ⟨vs, sub, couldNotRun, rule, hr, hm⟩ := submitBounded_phase3 hrun
    have hready := hp _ hr
    have hsub : sub.tx = tx := Except.ok.inj (hready.subject.symm.trans hsubject)
    subst hsub
    rw [← hready.topics] at htopics
    let report₀ : MutationReport := { walkCouldNotRun := couldNotRun, landedPredecessors := rule.landed
                                      landedWalksCouldNotRun := rule.breaches }
    refine honest_of_settled hrun fun topic => ?_
    have phase : Triple (fun d : Db => d.store.Ranked rank ∧ SameTopic start.state.store topic d.store)
        (mutate E p.bound sub rule.waits vs (rule.steak, report₀)) fun p' d =>
          Settled (start.state.store.isApplied sub.tx.id topic) sub.tx topic
            (fun l => Judged E p sub.tx topic l ∧ s₀.isApplied sub.tx.id topic = false) p'.2 d.store :=
      settled_mutate (J := fun t l => Judged E p sub.tx t l ∧ s₀.isApplied sub.tx.id t = false)
        (hbeef _ (transactionFromBeef_mem hsubject)) rule.waits vs _ htopics hready.judged
        (fun C => by rintro ⟨f, hf, -⟩; cases hf) (by simp [report₀])
    have ended := (phase start trivial ⟨hI.1, sameTopic_refl _ _⟩).1
    rw [hm, happlied topic] at ended
    exact ended

end

theorem ranked_run {p : Submission} {rank : Txid → Nat} (hbeef : p.tagged.beef.Ranked rank) :
    KeepsStore (Store.Ranked rank) (p.run E) :=
  keeps_submitBounded fun body hb topic => (closed_ranked (hbeef body hb) topic).phase

theorem ranked_submits {rank : Txid → Nat} : ∀ ps : List Submission, (∀ p ∈ ps, p.tagged.beef.Ranked rank) →
    KeepsStore (Store.Ranked rank) (submits E ps)
  | [], _ => keeps_pure _
  | p :: rest, h => by
    apply keeps_bind (ranked_run (h p (List.mem_cons_self ..)))
    intro answer
    apply keeps_bind (ranked_submits rest fun q hq => h q (List.mem_cons_of_mem _ hq))
    exact fun _ => keeps_pure _

/-- The applied rows never lie: in every run of submits over a ranked store, each
submit whose topics are distinct is honest about its subject, whatever faults. -/
theorem submits_honest {E : Engine} {rank : Txid → Nat} {pre : List Submission} {p : Submission} {tx : Tx} {w : World Db}
    (hstore : w.state.store.Ranked rank) (hbeefs : ∀ q ∈ p :: pre, q.tagged.beef.Ranked rank)
    (hsubject : p.subject E = .ok tx) (htopics : p.tagged.topics.Nodup) :
    Honest E p tx (submits E pre w).2.state.store (p.run E (submits E pre w).2) := by
  have ranked := (ranked_submits (E := E) pre (fun q hq => hbeefs q (List.mem_cons_of_mem _ hq)) w trivial hstore).1
  exact honest_run hsubject (hbeefs p (List.mem_cons_self ..)) htopics ranked

def NeverLies (s : Store) (tx : Tx) (run : Except EngineError (Steak × MutationReport) × World Db) : Prop :=
  ∀ steak report topic, run.1 = .ok (steak, report) → s.isApplied tx.id topic = false →
    run.2.state.store.isApplied tx.id topic = true → topic ∈ report.appliedTopics ∧ ∀ C, ¬ HasFault topic C report

theorem not_neverLies {tx : Tx} {topic : Topic} {run : Except EngineError (Steak × MutationReport) × World Db}
    (hfault : (run.1.toOption.any fun q => q.2.faults.any fun f => decide (f.topic = topic)) = true)
    (hs : s.isApplied tx.id topic = false) (hs' : run.2.state.store.isApplied tx.id topic = true) : ¬ NeverLies s tx run := by
  intro h
  obtain ⟨result, w⟩ := run
  match result with
  | .error e => cases hfault
  | .ok (steak, report) =>
    obtain ⟨f, hf, ht⟩ := List.any_eq_true.mp (show (report.faults.any fun f => decide (f.topic = topic)) = true from hfault)
    exact (h steak report topic rfl hs hs').2 (fun _ => True) ⟨f, hf, by simpa using ht, trivial⟩

/-- The write of the row faults and lands; a topic given twice faults in one pass and is recorded by the other. -/
theorem submitWithReport_not_neverLies :
    let landedWrite := submitWithReport (oneManager (retainsNone [0] [])) (taggedOf [spendsP] ["t"]) .historicalTx
      (worldOf [unspentRow "P"] (faultAt 7 (.fault "storage" true)))
    let topicTwice := faultedSubmit [0] [] [spendsP] ["t", "t"] [unspentRow "P"] 5
    ¬ NeverLies (storeOf [unspentRow "P"]) spendsP landedWrite ∧ ¬ NeverLies (storeOf [unspentRow "P"]) spendsP topicTwice := by
  refine ⟨?_, ?_⟩
  · exact @not_neverLies _ _ "t" _ (by decide) (by decide) (by decide)
  · exact @not_neverLies _ _ "t" _ (by decide +kernel) (by decide +kernel) (by decide +kernel)

/-- `U` spends the first output of `T`. -/
def spendsT : Tx := { id := "U", inputs := [spendsFirst "T"], outputs := [{}] }

theorem ranked_unspentRow (rank : Txid → Nat) : (storeOf [unspentRow "P"]).Ranked rank := by
  apply Store.Ranked.insertOutput (ranked_empty rank)
  intro c hc
  cases hc

/-- The insert of `T` faults and is undone; `U` is then recorded. -/
theorem submits_honest_after_fault :
    let E := oneManager (retainsNone [0] [])
    let first : Submission := { tagged := taggedOf [spendsP] ["t"], mode := .historicalTx }
    let second : Submission := { tagged := taggedOf [spendsT] ["t"], mode := .historicalTx }
    let w := worldOf [unspentRow "P"] (faultAt 3 (.fault "storage" false))
    let run := second.run E (submits E [first] w).2
    Honest E second spendsT (submits E [first] w).2.state.store run ∧ run.2.state.store.isApplied "U" "t" = true ∧
      run.2.state.store.isApplied "T" "t" = false := by
  refine ⟨?_, by decide, by decide⟩
  apply submits_honest (ranked_unspentRow fun txid => if txid = "U" then 2 else if txid = "T" then 1 else 0)
  · intro q hq
    rcases List.mem_cons.mp hq with rfl | hq
    · decide
    · rw [List.mem_singleton.mp hq]
      decide
  · decide
  · decide

end OverlayEngine
