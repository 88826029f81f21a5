import Mathlib.Data.List.Dedup
import OverlayEngine.Worker.ReplayTwins

/-!
# An ack that deletes strands no twin

A report names a topic only over its applied row, and applied rows stay. So the
object goes only once its subject has a row in every topic, and a message that
then misses it is a twin.
-/

namespace OverlayEngine.ReplayTwins

open DeadLetters (toAsciiLowercase)

variable {o : Shared}

def Landed (o : Shared) (s : Store) : Prop := ∀ t ∈ o.topics, (o.subject, t) ∈ s.applied

/-! ## The applied rows -/

namespace Store

theorem mem_insertApplied (s : Store) (txid : Txid) (topic : Topic) : (txid, topic) ∈ (s.insertApplied txid topic).applied := by
  unfold insertApplied
  split
  · assumption
  · exact List.mem_cons_self

theorem applied_subset_insert (s : Store) (txid : Txid) (topic : Topic) : s.applied ⊆ (s.insertApplied txid topic).applied := by
  unfold insertApplied
  split
  · exact List.Subset.refl _
  · exact List.subset_cons_self _ _

theorem bucket_insertApplied (s : Store) (txid : Txid) (topic : Topic) : (s.insertApplied txid topic).bucket = s.bucket := by
  unfold insertApplied
  split <;> rfl

theorem mem_twinApplied {s : Store} {txid : Txid} {topic : Topic} : topic ∈ s.twinApplied txid ↔ (txid, topic) ∈ s.applied := by
  simp [twinApplied]

theorem mem_delete {s : Store} {key k : String} : k ∈ (s.delete key).bucket ↔ k ∈ s.bucket ∧ k ≠ key := by
  simp [delete]

end Store

variable {s : Store}

theorem Landed.mono {s' : Store} (h : Landed o s) (hs : s.applied ⊆ s'.applied) : Landed o s' := fun t ht => hs (h t ht)

/-! ## The two decisions -/

theorem judgeMissing_landed (m : Twin o) (h : Landed o s) : judgeMissing m s = .twin := by
  obtain ⟨t, ht, hlow⟩ := Option.map_eq_some_iff.mp m.subject
  have hrows : ∀ topic ∈ m.message.topics, topic ∈ s.twinApplied (toAsciiLowercase t) := by
    intro topic htopic
    rw [Store.mem_twinApplied, hlow]
    exact h topic ((m.topics topic).mp htopic)
  have hunlanded : (m.message.topics.filter fun topic => !(s.twinApplied (toAsciiLowercase t)).contains topic) = [] := by
    rw [List.filter_eq_nil_iff]
    intro topic htopic
    simp [hrows topic htopic]
  have hne : m.message.topics.isEmpty = false := List.isEmpty_eq_false_iff.mpr (List.ne_nil_of_mem m.queued)
  simp only [judgeMissing, missingVerdict, ht, Option.elim_some, hunlanded, hne, List.isEmpty_nil, Bool.not_true, Bool.or_self]
  rfl

theorem readForReplay_missing (key : String) : readForReplay (.error (.missing key)) .twin = .acked .twin := rfl

structure Honest (o : Shared) (s : Store) (report : MutationReport) : Prop where
  applied : ∀ t ∈ report.appliedTopics, (o.subject, t) ∈ s.applied
  deduped : ∀ t ∈ report.dedupedTopics, (o.subject, t) ∈ s.applied

variable {report : MutationReport} {m : Twin o}

theorem landed_of_ack {rowObject : Option String} {key : String} (h : Honest o s report)
    (hd : key ∈ (landedAck m.message report rowObject).delete) : Landed o s := by
  intro t ht
  unfold landedAck at hd
  simp only [m.r2, Option.isSome_some, Bool.true_and] at hd
  split at hd
  · cases hd
  · rename_i hleaves
    by_cases ha : t ∈ report.appliedTopics
    · exact h.applied t ha
    · by_cases hb : t ∈ report.dedupedTopics
      · exact h.deduped t hb
      · refine absurd ?_ hleaves
        exact List.any_eq_true.mpr ⟨t, (m.topics t).mpr ht, by simp [ha, hb]⟩

/-! ## A batch -/

def Known (o : Shared) (s : Store) (validations : List TopicValidation) : Prop :=
  ∀ v ∈ validations, v.isDupe = true → (o.subject, v.topic) ∈ s.applied

def Stage.Fair (s : Store) : Stage o → Prop
  | .judge _ => Landed o s
  | .validating _ _ validations => Known o s validations
  | .landing _ _ validations report => Known o s validations ∧ Honest o s report
  | .statements _ _ _ validations report _ => Known o s validations ∧ Honest o s report
  | .recording _ _ _ validations report => Known o s validations ∧ Honest o s report
  | .settle _ report => Honest o s report
  | .deleting keys => ∀ key ∈ keys, key = o.key → Landed o s
  | _ => True

structure Batch.Fair (s : Store) (b : Batch o) : Prop where
  acked : ∀ key ∈ b.ackedObjects, key = o.key → Landed o s
  stage : b.stage.Fair s

section
variable {s s' : Store} {rest validations : List TopicValidation}

theorem Known.mono (h : Known o s validations) (hs : s.applied ⊆ s'.applied) : Known o s' validations :=
  fun v hv hd => hs (h v hv hd)

theorem Known.tail {v : TopicValidation} (h : Known o s (v :: rest)) : Known o s rest :=
  fun v' hv' => h v' (List.mem_cons_of_mem v hv')

theorem Honest.mono (h : Honest o s report) (hs : s.applied ⊆ s'.applied) : Honest o s' report :=
  ⟨fun t ht => hs (h.applied t ht), fun t ht => hs (h.deduped t ht)⟩

theorem Honest.fault (h : Honest o s report) (topic : Topic) (site : Site) (e : String) : Honest o s (report.fault topic site e) :=
  ⟨h.applied, h.deduped⟩

theorem Honest.reported (h : Honest o s report) (v : TopicValidation) (fault : Option (Site × String)) :
    Honest o s (Batch.reported v report fault) := by
  cases fault with
  | none => exact h
  | some f => exact h.fault v.topic f.1 f.2

theorem Honest.dedupe {topic : Topic} (h : Honest o s report) (hrow : (o.subject, topic) ∈ s.applied) :
    Honest o s { report with dedupedTopics := report.dedupedTopics ++ [topic] } := by
  refine ⟨h.applied, fun t ht => ?_⟩
  rcases List.mem_append.mp ht with ht | ht
  · exact h.deduped t ht
  · rw [List.mem_singleton.mp ht]
    exact hrow

theorem Honest.apply {topic : Topic} (h : Honest o s report) (hrow : (o.subject, topic) ∈ s.applied) :
    Honest o s { report with appliedTopics := report.appliedTopics ++ [topic] } := by
  refine ⟨fun t ht => ?_, h.deduped⟩
  rcases List.mem_append.mp ht with ht | ht
  · exact h.applied t ht
  · rw [List.mem_singleton.mp ht]
    exact hrow

theorem Stage.Fair.mono {stage : Stage o} (h : stage.Fair s) (hs : s.applied ⊆ s'.applied) : stage.Fair s' := by
  cases stage with
  | judge m => exact Landed.mono h hs
  | validating m topics validations => exact Known.mono h hs
  | landing m waits validations report => exact ⟨h.1.mono hs, h.2.mono hs⟩
  | statements m waits v validations report faultsBefore => exact ⟨h.1.mono hs, h.2.mono hs⟩
  | recording m waits v validations report => exact ⟨h.1.mono hs, h.2.mono hs⟩
  | settle m report => exact Honest.mono h hs
  | deleting keys => exact fun key hk he => (h key hk he).mono hs
  | _ => trivial

theorem Batch.Fair.mono {b : Batch o} (h : b.Fair s) (hs : s.applied ⊆ s'.applied) : b.Fair s' :=
  ⟨fun key hk he => (h.acked key hk he).mono hs, h.stage.mono hs⟩

theorem known_validate (h : Known o s validations) (topic : Topic) (env : Env) :
    Known o s (validations ++ [Batch.validate (o := o) topic env s]) := by
  intro v hv hd
  rcases List.mem_append.mp hv with hv | hv
  · exact h v hv hd
  · rw [List.mem_singleton.mp hv] at hd ⊢
    unfold Batch.validate at hd ⊢
    split at hd
    · cases hd
    · split at hd
      · rename_i hrow
        rw [if_pos hrow]
        exact hrow
      · cases hd

end

/-! ## A turn -/

structure Moved (s : Store) (out : Store × Batch o × Option Ending) : Prop where
  rows : s.applied ⊆ out.1.applied
  object : o.key ∉ out.1.bucket → o.key ∉ s.bucket ∨ Landed o out.1
  fair : out.2.1.Fair out.1
  kept : out.2.2 ≠ some (.retried true)
  twin : ∀ verdict, out.2.2 = some (.acked verdict) → verdict = .twin

section
variable {s : Store} {b : Batch o} {env : Env}

theorem moved_on {b' : Batch o} (hb : b'.Fair s) : Moved s (s, b', none) where
  rows := List.Subset.refl _
  object h := .inl h
  fair := hb
  kept := by simp
  twin verdict h := by cases h

theorem moved_ended {b' : Batch o} {e : Ending} (hb : b'.Fair s) (hk : e ≠ .retried true) (ht : ∀ verdict, e = .acked verdict → verdict = .twin) :
    Moved s (s, b', some e) where
  rows := List.Subset.refl _
  object h := .inl h
  fair := hb
  kept := by simpa using hk
  twin verdict h := ht verdict (Option.some.inj h)

theorem Batch.Fair.goto (h : b.Fair s) {stage : Stage o} (hstage : stage.Fair s) : (b.goto stage).Fair s := ⟨h.acked, hstage⟩

theorem moved_retry (h : b.Fair s) : Moved s (b.retry s false) :=
  moved_ended (h.goto trivial) (by simp) fun verdict he => by cases he

theorem moved_read (h : b.Fair s) (m : Twin o) {blob : Except BlobFault Unit} (hm : ∀ key, blob ≠ .error (.missing key)) (judged : MissingVerdict) :
    Moved s (b.onRead m env s (readForReplay blob judged)) := by
  match blob with
  | .ok () => exact moved_on (h.goto trivial)
  | .error (.missing key) => exact absurd rfl (hm key)
  | .error (.read e) => exact moved_retry h
  | .error (.refused e) => exact moved_retry h

theorem moved_judge (m : Twin o) (hl : Landed o s) :
    Moved s (b.onRead m env s (readForReplay (.error (.missing m.ref.key)) (judgeMissing m s))) := by
  rw [judgeMissing_landed m hl, readForReplay_missing]
  exact moved_ended ⟨fun _ _ _ => hl, trivial⟩ (by simp) fun verdict he => by cases he; rfl

theorem moved_next (h : b.Fair s) (hobject : o.key ∉ s.bucket → Landed o s) (hstage : b.stage = .next) : Moved s (b.step env s) := by
  simp only [Batch.step, hstage]
  split
  · exact moved_on (h.goto fun key hk he => h.acked key (List.mem_dedup.mp hk) he)
  · rename_i m rest _
    have hb : Batch.Fair s { b with todo := rest } := ⟨h.acked, h.stage⟩
    split
    · rename_i hread
      refine moved_on (hb.goto (hobject ?_))
      rw [← m.key]
      by_contra hin
      rw [Batch.readBeef, if_neg (not_not.mpr hin)] at hread
      split at hread <;> cases hread
    · rename_i hm
      exact moved_read hb m (fun key he => hm key he) _

variable {waits : List (Topic × String)} {rest : List TopicValidation}

theorem fair_land (h : b.Fair s) {v : TopicValidation}
    (hk : Known o s (v :: rest)) (hr : Honest o s report) : (b.land m waits v rest report).Fair s := by
  unfold Batch.land
  by_cases hd : v.isDupe = true
  · rw [if_pos hd]
    exact h.goto ⟨hk.tail, hr.dedupe (hk v List.mem_cons_self hd)⟩
  · rw [if_neg hd]
    by_cases hf : v.failed = true
    · rw [if_pos hf]
      exact h.goto ⟨hk.tail, hr⟩
    · rw [if_neg hf]
      split
      · exact h.goto ⟨hk.tail, hr.fault _ _ _⟩
      · exact h.goto ⟨hk.tail, hr.fault _ _ _⟩
      · exact h.goto ⟨hk.tail, hr⟩

theorem moved_record (h : b.Fair s) {v : TopicValidation}
    (hk : Known o s rest) (hr : Honest o s report) :
    Moved s ((b.record m waits v rest report env s).1, (b.record m waits v rest report env s).2, none) := by
  have hsub := Store.applied_subset_insert s o.subject v.topic
  have hobj : o.key ∉ (s.insertApplied o.subject v.topic).bucket → o.key ∉ s.bucket ∨ Landed o (s.insertApplied o.subject v.topic) := by
    rw [Store.bucket_insertApplied]
    exact .inl
  unfold Batch.record
  cases env.fate with
  | ran =>
    exact ⟨hsub, hobj, (h.mono hsub).goto ⟨hk.mono hsub, (hr.mono hsub).apply (s.mem_insertApplied o.subject v.topic)⟩, by simp, fun _ he => by cases he⟩
  | lost => exact moved_on (h.goto ⟨hk, hr.fault _ _ _⟩)
  | landed => exact ⟨hsub, hobj, (h.mono hsub).goto ⟨hk.mono hsub, (hr.mono hsub).fault _ _ _⟩, by simp, fun _ he => by cases he⟩

theorem moved_delete (h : b.Fair s) {key : String} {keys : List String} (hk : ∀ k ∈ key :: keys, k = o.key → Landed o s) :
    Moved s (if env.deleteFaults then s else s.delete key, b.goto (.deleting keys), none) := by
  have hrest : (b.goto (.deleting keys)).Fair s := h.goto fun k hin he => hk k (List.mem_cons_of_mem key hin) he
  by_cases hf : env.deleteFaults = true
  · rw [if_pos hf]
    exact moved_on hrest
  · rw [if_neg hf]
    refine ⟨List.Subset.refl _, fun hgone => ?_, hrest.mono (List.Subset.refl _), by simp, fun _ he => by cases he⟩
    by_cases he : key = o.key
    · exact .inr (hk key List.mem_cons_self he)
    · refine .inl fun hin => hgone (Store.mem_delete.mpr ⟨hin, fun h => he h.symm⟩)

variable (env) in
theorem moved_step (h : b.Fair s) (hobject : o.key ∉ s.bucket → Landed o s) : Moved s (b.step env s) := by
  cases hstage : b.stage with
  | next => exact moved_next h hobject hstage
  | judge m =>
    have hl : Landed o s := by simpa only [hstage, Stage.Fair] using h.stage
    simp only [Batch.step, hstage]
    exact moved_judge m hl
  | submit m =>
    simp only [Batch.step, hstage]
    split
    · exact moved_retry h
    · exact moved_on (h.goto fun v hv => by cases hv)
  | validating m topics validations =>
    have hk : Known o s validations := by simpa only [hstage, Stage.Fair] using h.stage
    cases topics with
    | nil =>
      simp only [Batch.step, hstage]
      exact moved_on (h.goto ⟨hk, fun t ht => (by cases ht), fun t ht => (by cases ht)⟩)
    | cons topic topics =>
      simp only [Batch.step, hstage]
      exact moved_on (h.goto (known_validate hk topic env))
  | landing m waits validations report =>
    have hk : Known o s validations ∧ Honest o s report := by simpa only [hstage, Stage.Fair] using h.stage
    cases validations with
    | nil =>
      simp only [Batch.step, hstage]
      exact moved_on (h.goto hk.2)
    | cons v rest =>
      simp only [Batch.step, hstage]
      exact moved_on (fair_land h hk.1 hk.2)
  | statements m waits v rest report faultsBefore =>
    have hk : Known o s rest ∧ Honest o s report := by simpa only [hstage, Stage.Fair] using h.stage
    have hr := hk.2.reported v env.fault
    simp only [Batch.step, hstage]
    split
    · exact moved_on (h.goto ⟨hk.1, hr⟩)
    · split
      · exact moved_on (h.goto ⟨hk.1, hr⟩)
      · exact moved_on (h.goto ⟨hk.1, hr⟩)
  | recording m waits v rest report =>
    have hk : Known o s rest ∧ Honest o s report := by simpa only [hstage, Stage.Fair] using h.stage
    simp only [Batch.step, hstage]
    exact moved_record h hk.1 hk.2
  | settle m report =>
    have hr : Honest o s report := by simpa only [hstage, Stage.Fair] using h.stage
    simp only [Batch.step, hstage]
    split
    · refine moved_ended ⟨fun key hin he => ?_, trivial⟩ (by simp) fun verdict he => by cases he
      rcases List.mem_append.mp hin with hin | hin
      · exact h.acked key hin he
      · exact landed_of_ack hr hin
    · exact moved_retry h
  | deleting keys =>
    have hk : ∀ key ∈ keys, key = o.key → Landed o s := by simpa only [hstage, Stage.Fair] using h.stage
    cases keys with
    | nil =>
      simp only [Batch.step, hstage]
      exact moved_on (h.goto trivial)
    | cons key keys =>
      simp only [Batch.step, hstage]
      exact moved_delete h hk
  | finished =>
    simp only [Batch.step, hstage]
    exact moved_on h

end

/-! ## Runs -/

structure World.Safe (w : World o) : Prop where
  object : o.key ∉ w.store.bucket → Landed o w.store
  batches : ∀ b ∈ w.batches, b.Fair w.store
  kept : .retried true ∉ w.ended
  twin : ∀ verdict, .acked verdict ∈ w.ended → verdict = .twin

section
variable {w : World o}

theorem World.Safe.withStore (h : w.Safe) (hrows : w.store.applied ⊆ s.applied) (hobject : o.key ∉ s.bucket → o.key ∉ w.store.bucket) :
    World.Safe { w with store := s } :=
  ⟨fun hgone => (h.object (hobject hgone)).mono hrows, fun b hb => (h.batches b hb).mono hrows, h.kept, h.twin⟩

theorem World.Safe.turn (h : w.Safe) {i : Nat} {b : Batch o} (hb : w.batches[i]? = some b) (env : Env) :
    World.Safe ⟨(b.step env w.store).1, w.batches.set i (b.step env w.store).2.1, w.ended ++ (b.step env w.store).2.2.toList⟩ := by
  have hm := moved_step env (h.batches b (List.mem_of_getElem? hb)) h.object
  refine ⟨fun hgone => ?_, fun b' hb' => ?_, fun hin => ?_, fun verdict hin => ?_⟩
  · rcases hm.object hgone with hgone | hl
    · exact (h.object hgone).mono hm.rows
    · exact hl
  · rcases List.mem_or_eq_of_mem_set hb' with hb' | rfl
    · exact (h.batches b' hb').mono hm.rows
    · exact hm.fair
  · rcases List.mem_append.mp hin with hin | hin
    · exact h.kept hin
    · exact hm.kept (Option.mem_toList.mp hin)
  · rcases List.mem_append.mp hin with hin | hin
    · exact h.twin verdict hin
    · exact hm.twin verdict (Option.mem_toList.mp hin)

theorem safe_step (h : w.Safe) (m : Move o) : (w.step m).Safe := by
  cases m with
  | put => exact h.withStore (List.Subset.refl _) fun hgone hin => hgone (List.mem_cons_of_mem _ hin)
  | deliver messages =>
    refine ⟨h.object, fun b hb => ?_, h.kept, h.twin⟩
    rcases List.mem_append.mp hb with hb | hb
    · exact h.batches b hb
    · rw [List.mem_singleton.mp hb]
      exact ⟨fun _ hk => (by cases hk), trivial⟩
  | turn i env =>
    simp only [World.step]
    split
    · rename_i b hb
      exact h.turn hb env
    · exact h
  | die i =>
    simp only [World.step]
    split
    · rename_i b hb
      refine ⟨h.object, fun b' hb' => ?_, h.kept, h.twin⟩
      rcases List.mem_or_eq_of_mem_set hb' with hb' | rfl
      · exact h.batches b' hb'
      · exact (h.batches b (List.mem_of_getElem? hb)).goto trivial
    · exact h
  | record txid topic =>
    refine h.withStore (Store.applied_subset_insert _ _ _) fun hgone => ?_
    rwa [Store.bucket_insertApplied] at hgone

theorem safe_run (h : w.Safe) (moves : List (Move o)) : (w.run moves).Safe := by
  induction moves generalizing w with
  | nil => exact h
  | cons m moves ih => exact ih (safe_step h m)

end

/-- Whatever the batches do side by side: no delivery ends in the missing fault, every message that misses its object is acked as a
twin, and the object is gone only of a subject with an applied row in every topic. -/
theorem twin_never_stranded (o : Shared) (s : Store) (hobject : o.key ∈ s.bucket) (moves : List (Move o)) :
    .retried true ∉ (World.run { store := s } moves).ended ∧
      (∀ verdict, .acked verdict ∈ (World.run { store := s } moves).ended → verdict = .twin) ∧
      (o.key ∉ (World.run { store := s } moves).store.bucket →
        Landed o (World.run { store := s } moves).store ∧ ∀ m : Twin o, judgeMissing m (World.run { store := s } moves).store = .twin) := by
  have hstart : World.Safe (o := o) { store := s } :=
    ⟨fun hgone => absurd hobject hgone, fun _ hb => (by cases hb), fun hin => (by cases hin), fun _ hin => (by cases hin)⟩
  have h := safe_run hstart moves
  exact ⟨h.kept, h.twin, fun hgone => ⟨h.object hgone, fun m => judgeMissing_landed m (h.object hgone)⟩⟩

/-! Two deliveries of one message: the first lands it and deletes the object, the second misses it. -/

section

def oneObject : Shared := { key := "k", subject := "s", topics := ["t"] }

def oneTwin : Twin oneObject where
  message := { r2 := some { key := "k", bytes := 1, txid := some "s", sha256 := "h" }, topics := ["t"], mode := "historical-tx" }
  ref := { key := "k", bytes := 1, txid := some "s", sha256 := "h" }
  r2 := rfl
  key := rfl
  subject := by decide
  topics _ := Iff.rfl
  faulted := "t"
  queued := by decide

def landedTwice : List (Move oneObject) :=
  [.deliver [oneTwin], .deliver [oneTwin]] ++ List.replicate 11 (.turn 0 {}) ++ List.replicate 2 (.turn 1 {})

theorem twin_never_stranded_deleted :
    (World.run { store := { bucket := ["k"] } } landedTwice).ended = [.landed false, .acked .twin] ∧
      .retried true ∉ (World.run { store := { bucket := ["k"] } } landedTwice).ended ∧
      (∀ verdict, .acked verdict ∈ (World.run { store := { bucket := ["k"] } } landedTwice).ended → verdict = .twin) ∧
      (oneObject.key ∉ (World.run { store := { bucket := ["k"] } } landedTwice).store.bucket →
        Landed oneObject (World.run { store := { bucket := ["k"] } } landedTwice).store ∧
          ∀ m : Twin oneObject, judgeMissing m (World.run { store := { bucket := ["k"] } } landedTwice).store = .twin) :=
  ⟨by decide, twin_never_stranded oneObject { bucket := ["k"] } (by decide) landedTwice⟩

end

end OverlayEngine.ReplayTwins
