import OverlayEngine.Worker.OutputBeef

/-!
# A held output keeps its BEEF

An output that stands has its BEEF held, or a call still writes it. Every
statement keeps that but one: the delete's last, which drops the transaction on
a count that may be old.
-/

namespace OverlayEngine.OutputBeef

open KeyedRows

/-! ## One statement -/

def Query.Fit : Query → Prop
  | .insertOutputTx _ _ beef => beef ≠ []
  | _ => True

theorem holds_insertOutput (t : Tables) (o : Output) (x : Txid) : (t.insertOutput o).Holds x ↔ t.Holds x ∨ o.txid = x := by
  unfold Tables.insertOutput
  cases hr : row outputKey t.outputs (outputKey o) with
  | some r =>
    constructor
    · exact Or.inl
    · rintro (h | rfl)
      · exact h
      · have hk := row_key hr
        exact ⟨r, row_mem hr, congrArg Prod.fst hk⟩
  | none => simp [Tables.Holds, or_and_right, exists_or]

theorem holds_exec (t : Tables) (now : Nat) (q : Query) (x : Txid) :
    (t.exec now q).Holds x ↔ t.Holds x ∨ ∃ o, q = .insertOutput o ∧ o.txid = x := by
  cases q with
  | insertOutput o => simp [Tables.exec, holds_insertOutput]
  | insertOutputTx gasp txid beef => simp [Tables.exec, Tables.insertOutputTx, Tables.Holds]
  | insertApplied txid topic =>
    simp only [Tables.exec, Tables.insertApplied]
    split <;> simp [Tables.Holds]
  | deferred => simp [Tables.exec]

theorem mem_remove_tx {t : List TxRow} {x : Txid} {r : TxRow} : r ∈ remove TxRow.txid (· = x) t ↔ r ∈ t ∧ r.txid ≠ x := by
  simp [remove]

theorem hasBeef_insertOutputTx (t : Tables) (gasp : Bool) (txid : Txid) {beef : Bytes} (hb : beef ≠ []) (now : Nat) (x : Txid) :
    (t.insertOutputTx gasp txid beef now).HasBeef x ↔ t.HasBeef x ∨ txid = x := by
  simp only [Tables.insertOutputTx, Tables.HasBeef, List.mem_append, List.mem_singleton, mem_remove_tx]
  constructor
  · rintro ⟨r, ⟨hr, -⟩ | rfl, hx, hn⟩
    · exact Or.inl ⟨r, hr, hx, hn⟩
    · exact Or.inr hx
  · intro h
    by_cases hx : txid = x
    · exact ⟨_, Or.inr rfl, hx, by simpa using hb⟩
    · obtain ⟨r, hr, rfl, hn⟩ := h.resolve_right hx
      exact ⟨r, Or.inl ⟨hr, fun he => hx he.symm⟩, rfl, hn⟩

theorem hasBeef_exec (t : Tables) (now : Nat) {q : Query} (hq : q.Fit) (x : Txid) :
    (t.exec now q).HasBeef x ↔ t.HasBeef x ∨ q.writes x = true := by
  cases q with
  | insertOutput o =>
    simp only [Tables.exec, Tables.insertOutput, Query.writes]
    split <;> simp [Tables.HasBeef]
  | insertOutputTx gasp txid beef =>
    have hb : beef.isEmpty = false := by simpa [Query.Fit] using hq
    simp only [Tables.exec, hasBeef_insertOutputTx t gasp txid hq now x, Query.writes, hb]
    simp
  | insertApplied txid topic =>
    simp only [Tables.exec, Tables.insertApplied, Query.writes]
    split <;> simp [Tables.HasBeef]
  | deferred => simp [Tables.exec, Query.writes]

variable {t : Tables}

theorem holds_deleteOutputRow {txid : Txid} {i : Nat} {topic : Topic} {x : Txid}
    (h : (t.deleteOutputRow txid i topic).Holds x) : t.Holds x := by
  obtain ⟨o, ho, hx⟩ := h
  exact ⟨o, (List.mem_filter.mp ho).1, hx⟩

theorem hasBeef_deleteTransaction (t : Tables) (y x : Txid) :
    (t.deleteTransaction y).HasBeef x ↔ t.HasBeef x ∧ x ≠ y := by
  simp only [Tables.deleteTransaction, Tables.HasBeef, mem_remove_tx]
  constructor
  · rintro ⟨r, ⟨hr, hy⟩, rfl, hn⟩
    exact ⟨⟨r, hr, rfl, hn⟩, hy⟩
  · rintro ⟨⟨r, hr, rfl, hn⟩, hy⟩
    exact ⟨r, ⟨hr, hy⟩, rfl, hn⟩

/-! ## A batch -/

section
variable (now : Nat) {queries : List Query} (x : Txid)

theorem holds_foldl (queries : List Query) (t : Tables) :
    (queries.foldl (·.exec now ·) t).Holds x ↔ t.Holds x ∨ ∃ o, .insertOutput o ∈ queries ∧ o.txid = x := by
  induction queries generalizing t with
  | nil => simp
  | cons q qs ih =>
    rw [List.foldl_cons, ih, holds_exec, or_assoc, ← exists_or]
    simp only [List.mem_cons, or_and_right, eq_comm]

theorem hasBeef_foldl (hq : ∀ q ∈ queries, q.Fit) (t : Tables) :
    (queries.foldl (·.exec now ·) t).HasBeef x ↔ t.HasBeef x ∨ ∃ q ∈ queries, q.writes x = true := by
  induction queries generalizing t with
  | nil => simp
  | cons q qs ih =>
    rw [List.foldl_cons, ih fun q hm => hq q (List.mem_cons_of_mem _ hm), hasBeef_exec t now (hq q (List.mem_cons_self ..)), or_assoc]
    simp

end

/-! ## A call -/

def Call.Writes (c : Call) (x : Txid) : Prop := ∃ q ∈ c.left, q.writes x = true

def Call.Sound : Call → Prop
  | .inserting left => ∃ (o : Output) (gasp : Bool) (beef : Bytes), beef ≠ [] ∧
      (left = [.insertOutput o, .insertOutputTx gasp o.txid beef] ∨ left = [.insertOutputTx gasp o.txid beef])
  | .batching queries => ∀ q ∈ queries, q.Fit
  | _ => True

theorem fit_outputQueries (o : Output) (beef : Option Bytes) (gasp : Bool) : ∀ q ∈ outputQueries o beef gasp, q.Fit := by
  intro q hq
  unfold outputQueries at hq
  rcases List.mem_cons.mp hq with rfl | hq
  · trivial
  · cases beef with
    | none => cases hq
    | some b =>
      dsimp only at hq
      split at hq
      · cases hq
      · rename_i hb
        rw [List.mem_singleton.mp hq]
        intro he
        rw [he] at hb
        exact hb rfl

theorem fit_pageQueries (writes : List PageWrite) (queries : List Query) (h : pageQueries writes = some queries) :
    ∀ q ∈ queries, q.Fit := by
  induction writes generalizing queries with
  | nil =>
    cases h
    simp
  | cons w ws ih =>
    cases w with
    | output o beef gasp =>
      obtain ⟨rest, hr, rfl⟩ := Option.map_eq_some_iff.mp h
      intro q hq
      rcases List.mem_append.mp hq with hq | hq
      · exact fit_outputQueries o beef gasp q hq
      · exact ih rest hr q hq
    | applied txid topic =>
      obtain ⟨rest, hr, rfl⟩ := Option.map_eq_some_iff.mp h
      simp only [List.forall_mem_cons]
      exact ⟨trivial, ih rest hr⟩
    | backend deferred =>
      cases deferred with
      | false => cases h
      | true =>
        obtain ⟨rest, hr, rfl⟩ := Option.map_eq_some_iff.mp h
        simp only [List.forall_mem_cons]
        exact ⟨trivial, ih rest hr⟩

variable {c : Call}

theorem Call.Begins.sound (h : c.Begins) : c.Sound := by
  cases h with
  | insert o beef gasp hb => exact ⟨{ o with score := some (o.score.getD 0) }, gasp, beef, hb, Or.inl (by simp [outputQueries, hb])⟩
  | batch writes =>
    unfold writeBatch
    split
    · trivial
    · trivial
    · rename_i queries hq
      exact fit_pageQueries writes _ hq
  | delete => trivial

section
variable {t : Tables} {c : Call} {now : Nat} {x : Txid}

theorem sound_next (hc : c.Sound) : (c.next t now).2.Sound := by
  cases c with
  | inserting left =>
    obtain ⟨o, gasp, beef, hb, rfl | rfl⟩ := hc
    · exact ⟨o, gasp, beef, hb, Or.inr rfl⟩
    · trivial
  | counting y =>
    simp only [Call.next]
    split <;> trivial
  | batching queries => trivial
  | deleting y i topic => trivial
  | dropping y => trivial
  | returned => trivial

theorem next_beef (hc : c.Sound) (hd : c ≠ .dropping x) (h : t.HasBeef x ∨ c.Writes x) :
    (c.next t now).1.HasBeef x ∨ (c.next t now).2.Writes x := by
  cases c with
  | inserting left =>
    obtain ⟨o, gasp, beef, hb, rfl | rfl⟩ := hc
    · rcases h with h | ⟨q, hq, hw⟩
      · exact Or.inl ((hasBeef_exec t now (q := .insertOutput o) trivial x).mpr (Or.inl h))
      · rcases List.mem_cons.mp hq with rfl | hq
        · cases hw
        · exact Or.inr ⟨q, hq, hw⟩
    · left
      apply (hasBeef_exec t now (q := .insertOutputTx gasp o.txid beef) hb x).mpr
      exact h.imp_right fun ⟨q, hq, hw⟩ => by rwa [← List.mem_singleton.mp hq]
  | batching queries => exact Or.inl ((hasBeef_foldl now x hc t).mpr h)
  | dropping y =>
    have hy : x ≠ y := fun he => hd (by rw [he])
    refine Or.inl ((hasBeef_deleteTransaction t y x).mpr ⟨?_, hy⟩)
    exact h.resolve_right fun ⟨q, hq, _⟩ => by cases hq
  | deleting y i topic => exact Or.inl (h.resolve_right fun ⟨q, hq, _⟩ => by cases hq)
  | counting y => exact Or.inl (h.resolve_right fun ⟨q, hq, _⟩ => by cases hq)
  | returned => exact Or.inl (h.resolve_right fun ⟨q, hq, _⟩ => by cases hq)

theorem next_holds (hc : c.Sound) (h : (c.next t now).1.Holds x) :
    t.Holds x ∨ c.Writes x ∨ ∃ queries o, c = .batching queries ∧ .insertOutput o ∈ queries ∧ o.txid = x := by
  cases c with
  | inserting left =>
    obtain ⟨o, gasp, beef, hb, rfl | rfl⟩ := hc
    · rcases (holds_exec t now _ x).mp h with h | ⟨o', ho, hx⟩
      · exact Or.inl h
      · cases ho
        exact Or.inr (Or.inl ⟨.insertOutputTx gasp o.txid beef, by simp [Call.left], by simp [Query.writes, hx, hb]⟩)
    · rcases (holds_exec t now _ x).mp h with h | ⟨o', ho, -⟩
      · exact Or.inl h
      · cases ho
  | batching queries =>
    rcases (holds_foldl now x queries t).mp h with h | ⟨o, ho, hx⟩
    · exact Or.inl h
    · exact Or.inr (Or.inr ⟨queries, o, rfl, ho, hx⟩)
  | deleting y i topic => exact Or.inl (holds_deleteOutputRow h)
  | counting y => exact Or.inl h
  | dropping y => exact Or.inl h
  | returned => exact Or.inl h

end

/-! ## The calls -/

variable {calls : List Call}

theorem toCome_set {i : Nat} (hi : calls[i]? = some c) (c' : Call) (x : Txid) :
    ToCome (calls.set i c') x ↔ c'.Writes x ∨ ToCome (calls.set i .returned) x := by
  obtain ⟨hlt, -⟩ := List.getElem?_eq_some_iff.mp hi
  have hmem : ∀ (c d : Call), d ∈ calls.set i c ↔ d = c ∨ ∃ j, j ≠ i ∧ calls[j]? = some d := by
    intro c d
    simp only [List.mem_iff_getElem?, List.getElem?_set]
    constructor
    · rintro ⟨j, hj⟩
      by_cases h : i = j
      · rw [if_pos h, if_pos hlt] at hj
        exact Or.inl (Option.some.inj hj).symm
      · rw [if_neg h] at hj
        exact Or.inr ⟨j, Ne.symm h, hj⟩
    · rintro (rfl | ⟨j, hj, hd⟩)
      · exact ⟨i, by simp [hlt]⟩
      · exact ⟨j, by rw [if_neg (Ne.symm hj), hd]⟩
  have hnone : ¬Call.Writes .returned x := fun ⟨q, hq, _⟩ => by cases hq
  have hc : ∀ c, ToCome (calls.set i c) x ↔ c.Writes x ∨ ∃ d, (∃ j, j ≠ i ∧ calls[j]? = some d) ∧ d.Writes x := by
    intro c
    simp only [ToCome, hmem, or_and_right, exists_or, exists_eq_left, Call.Writes]
  rw [hc, hc .returned, or_iff_right hnone]

theorem toCome_get {i : Nat} (hi : calls[i]? = some c) (x : Txid) :
    ToCome calls x ↔ c.Writes x ∨ ToCome (calls.set i .returned) x := by
  rw [← toCome_set hi c x]
  obtain ⟨hlt, rfl⟩ := List.getElem?_eq_some_iff.mp hi
  rw [List.set_getElem_self hlt]

def World.Sound (w : World) : Prop := ∀ c ∈ w.calls, c.Sound

def World.Covered (w : World) : Prop := ∀ x, ¬w.Exposed x

variable {w : World}

theorem covered_iff : w.Covered ↔ ∀ x, w.tables.Holds x → w.tables.HasBeef x ∨ ToCome w.calls x := by
  refine forall_congr' fun x => ?_
  unfold World.Exposed
  tauto

theorem step_eq {m : Turn} (h : w.calls[m.call]? = some c) :
    w.step m = ⟨(c.next w.tables m.now).1, w.calls.set m.call (c.next w.tables m.now).2⟩ := by
  simp only [World.step, h]

theorem sound_step (h : w.Sound) (m : Turn) : (w.step m).Sound := by
  cases hc : w.calls[m.call]? with
  | none => simpa only [World.step, hc] using h
  | some c =>
    rw [step_eq hc]
    intro d hd
    rcases List.mem_or_eq_of_mem_set hd with hd | rfl
    · exact h d hd
    · exact sound_next (h c (List.mem_of_getElem? hc))

theorem covered_step (hs : w.Sound) (h : w.Covered) {m : Turn} (hm : w.Meets m) : (w.step m).Covered := by
  cases hc : w.calls[m.call]? with
  | none => simpa only [World.step, hc] using h
  | some c =>
    have hsound : c.Sound := hs c (List.mem_of_getElem? hc)
    rw [covered_iff] at h ⊢
    rw [step_eq hc]
    intro x hx
    dsimp only at hx ⊢
    rw [toCome_set hc, ← or_assoc]
    -- the BEEF is held, written by this call, or written by another
    suffices hb : c ≠ .dropping x ∧ (w.tables.HasBeef x ∨ c.Writes x) ∨ ToCome (w.calls.set m.call .returned) x by
      exact hb.imp_left fun hb => next_beef hsound hb.1 hb.2
    by_cases hd : c = .dropping x
    · subst hd
      unfold World.Meets at hm
      rw [hc] at hm
      have ht := (toCome_get hc x).mp (hm hx)
      exact Or.inr (ht.resolve_left fun ⟨q, hq, _⟩ => by cases hq)
    · rcases next_holds hsound hx with hx | hx | ⟨queries, o, rfl, ho, rfl⟩
      · have hb := h x hx
        rw [toCome_get hc, ← or_assoc] at hb
        exact hb.imp_left fun hb => ⟨hd, hb⟩
      · exact Or.inl ⟨hd, Or.inr hx⟩
      · unfold World.Meets at hm
        rw [hc] at hm
        rcases hm o ho with hw | hb | hw
        · exact Or.inl ⟨hd, Or.inr hw⟩
        · exact Or.inl ⟨hd, Or.inl hb⟩
        · exact Or.inr hw

theorem exposed_step (hs : w.Sound) {m : Turn} (hm : ¬w.Meets m) : ∃ x, (w.step m).Exposed x := by
  cases hc : w.calls[m.call]? with
  | none => exact absurd (by unfold World.Meets; rw [hc]; trivial) hm
  | some c =>
    have hsound : c.Sound := hs c (List.mem_of_getElem? hc)
    unfold World.Meets at hm
    rw [hc] at hm
    rw [step_eq hc]
    cases c with
    | dropping y =>
      simp only [Classical.not_imp] at hm
      refine ⟨y, hm.1, ?_, ?_⟩
      · exact fun hb => ((hasBeef_deleteTransaction w.tables y y).mp hb).2 rfl
      · exact fun ht => hm.2 ((toCome_get hc y).mpr (Or.inr ht))
    | batching queries =>
      simp only [not_forall, not_or] at hm
      obtain ⟨o, ho, hw, hb, ht⟩ := hm
      refine ⟨o.txid, (holds_foldl m.now _ queries _).mpr (Or.inr ⟨o, ho, rfl⟩), ?_, ht⟩
      intro hf
      exact ((hasBeef_foldl m.now _ hsound _).mp hf).elim hb hw
    | inserting left => exact absurd trivial hm
    | deleting y i topic => exact absurd trivial hm
    | counting y => exact absurd trivial hm
    | returned => exact absurd trivial hm

/-! ## Runs -/

def World.MeetsAll (w : World) : List Turn → Prop
  | [] => True
  | m :: ms => w.Meets m ∧ (w.step m).MeetsAll ms

variable {turns : List Turn}

theorem covered_run (hs : w.Sound) (h : w.Covered) (hm : w.MeetsAll turns) : (w.run turns).Covered := by
  induction turns generalizing w with
  | nil => exact h
  | cons m ms ih => exact ih (sound_step hs m) (covered_step hs h hm.1) hm.2

theorem meetsAll_init {pre : List Turn} (hp : pre <+: turns) (h : w.MeetsAll turns) : w.MeetsAll pre := by
  induction pre generalizing w turns with
  | nil => trivial
  | cons m pre ih =>
    obtain ⟨rest, rfl⟩ := hp
    exact ⟨h.1, ih (List.prefix_append ..) h.2⟩

theorem meetsAll_of_covered (hs : w.Sound) (h : ∀ pre, pre <+: turns → (w.run pre).Covered) :
    w.MeetsAll turns := by
  induction turns generalizing w with
  | nil => trivial
  | cons m ms ih =>
    refine ⟨?_, ih (sound_step hs m) fun pre hp => h (m :: pre) (List.cons_prefix_cons.mpr ⟨rfl, hp⟩)⟩
    by_contra hm
    obtain ⟨x, hx⟩ := exposed_step hs hm
    exact h [m] (by simp) x hx

theorem covered_of_beefKept (h : t.BeefKept) (calls : List Call) : (World.mk t calls).Covered :=
  covered_iff.mpr fun x hx => Or.inl (h x hx)

theorem beefKept_of_covered (h : w.Covered) (hr : w.AllReturned) : w.tables.BeefKept := by
  intro x hx
  refine (covered_iff.mp h x hx).resolve_right ?_
  rintro ⟨c, hc, q, hq, -⟩
  rw [hr c hc] at hq
  cases hq

theorem sound_of_begins (h : ∀ c ∈ calls, c.Begins) : (World.mk t calls).Sound :=
  fun c hc => (h c hc).sound

/-- In every run whose statements meet their condition an output has its BEEF once the calls have returned; the
first statement that misses it leaves an output whose BEEF no call writes. -/
theorem output_keeps_beef (t : Tables) (calls : List Call) (turns : List Turn) (ht : t.BeefKept) (hc : ∀ c ∈ calls, c.Begins) :
    (World.MeetsAll ⟨t, calls⟩ turns → (World.run ⟨t, calls⟩ turns).AllReturned → (World.run ⟨t, calls⟩ turns).tables.BeefKept) ∧
      (World.MeetsAll ⟨t, calls⟩ turns ↔ ∀ pre, pre <+: turns → ∀ x, ¬(World.run ⟨t, calls⟩ pre).Exposed x) := by
  have hs : World.Sound ⟨t, calls⟩ := sound_of_begins hc
  have hcov : World.Covered ⟨t, calls⟩ := covered_of_beefKept ht calls
  refine ⟨fun hm => beefKept_of_covered (covered_run hs hcov hm), ?_, meetsAll_of_covered hs⟩
  intro hm pre hpre
  exact covered_run hs hcov (meetsAll_init hpre hm)

section
/-- An output of one transaction in `topic`. -/
private def heldIn (topic : Topic) : Output :=
  { txid := "aa", outputIndex := 0, outputScript := [], satoshis := 1, topic := topic, spent := false, outputsConsumed := [], consumedBy := []
    score := some 0 }

private def heldAlone : Tables := ({} : Tables).insertOutput (heldIn "tm_a") |>.insertOutputTx false "aa" [190] 5

private def deleteAndInsert : List Call := [deleteOutput "aa" 0 "tm_a", insertOutputWithOrigin (heldIn "tm_b") (some [190]) false]

private theorem heldAlone_kept : heldAlone.BeefKept := by
  rintro x ⟨o, ho, rfl⟩
  rw [List.mem_singleton.mp ho]
  exact ⟨_, List.mem_singleton_self _, rfl, by decide⟩

private theorem deleteAndInsert_begins : ∀ c ∈ deleteAndInsert, c.Begins := by
  intro c hc
  simp only [deleteAndInsert, List.mem_cons, List.not_mem_nil, or_false] at hc
  rcases hc with rfl | rfl
  · exact .delete ..
  · exact .insert _ [190] _ (by decide)

theorem output_keeps_beef_counted :
    (World.run ⟨heldAlone, deleteAndInsert⟩ [⟨0, 6⟩, ⟨1, 6⟩, ⟨0, 6⟩, ⟨1, 6⟩]).tables.BeefKept := by
  refine (output_keeps_beef heldAlone deleteAndInsert _ heldAlone_kept deleteAndInsert_begins).1 ?_ (by decide)
  exact ⟨trivial, trivial, trivial, trivial, trivial⟩

/-- An insert that runs between a delete's count and its drop loses the BEEF it wrote. -/
theorem beef_dropped : ¬∀ (t : Tables) (calls : List Call) (turns : List Turn), t.BeefKept → (∀ c ∈ calls, c.Begins) →
    (World.run ⟨t, calls⟩ turns).AllReturned → (World.run ⟨t, calls⟩ turns).tables.BeefKept := by
  intro h
  obtain ⟨r, hr, -⟩ := h heldAlone deleteAndInsert [⟨0, 6⟩, ⟨0, 6⟩, ⟨1, 6⟩, ⟨1, 6⟩, ⟨0, 6⟩] heldAlone_kept deleteAndInsert_begins (by decide)
    "aa" ⟨heldIn "tm_b" , by decide, rfl⟩
  have he : (World.run ⟨heldAlone, deleteAndInsert⟩ [⟨0, 6⟩, ⟨0, 6⟩, ⟨1, 6⟩, ⟨1, 6⟩, ⟨0, 6⟩]).tables.transactions = [] := by decide
  rw [he] at hr
  cases hr

end

end OverlayEngine.OutputBeef
