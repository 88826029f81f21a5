import OverlayEngine.Landing

/-!
# What each phase reports

A phase of one topic only adds faults of that topic, at the sites it calls.
-/

namespace OverlayEngine

open Faulty

/-- `r'` has the faults of `r` and further ones of `topic`, at sites in `S`. -/
def AddsFaults (topic : Topic) (S : Site → Prop) (r r' : MutationReport) : Prop :=
  ∃ new, r'.faults = r.faults ++ new ∧ ∀ f ∈ new, f.topic = topic ∧ S f.site

/-- `r'` is `r` with further faults of `topic`, at sites in `S`. -/
structure Adds (topic : Topic) (S : Site → Prop) (r r' : MutationReport) : Prop where
  faults : AddsFaults topic S r r'
  applied : r'.appliedTopics = r.appliedTopics
  deduped : r'.dedupedTopics = r.dedupedTopics

/-- A fault of `topic` at a site in `C` is reported. -/
def HasFault (topic : Topic) (C : Site → Prop) (r : MutationReport) : Prop := ∃ f ∈ r.faults, f.topic = topic ∧ C f.site

section
variable {topic : Topic} {S S' C : Site → Prop} {r r' r'' : MutationReport}

theorem AddsFaults.trans (h : AddsFaults topic S r r') (h' : AddsFaults topic S r' r'') : AddsFaults topic S r r'' := by
  obtain ⟨new, e, hn⟩ := h
  obtain ⟨new', e', hn'⟩ := h'
  refine ⟨new ++ new', by rw [e', e, List.append_assoc], fun f hf => ?_⟩
  rcases List.mem_append.mp hf with hf | hf
  · exact hn f hf
  · exact hn' f hf

theorem AddsFaults.mono (h : AddsFaults topic S r r') (hS : ∀ site, S site → S' site) : AddsFaults topic S' r r' := by
  obtain ⟨new, e, hn⟩ := h
  exact ⟨new, e, fun f hf => ⟨(hn f hf).1, hS _ (hn f hf).2⟩⟩

theorem AddsFaults.hasFault {topic' : Topic} (h : AddsFaults topic S r r') (hc : HasFault topic' C r) :
    HasFault topic' C r' := by
  obtain ⟨new, e, -⟩ := h
  obtain ⟨f, hf, hft⟩ := hc
  exact ⟨f, by rw [e]; exact List.mem_append_left _ hf, hft⟩

theorem AddsFaults.hadFault {topic' : Topic} (h : AddsFaults topic S r r')
    (hS : topic' = topic → ∀ site, S site → ¬ C site) (hc : HasFault topic' C r') : HasFault topic' C r := by
  obtain ⟨new, e, hn⟩ := h
  obtain ⟨f, hf, hft, hfc⟩ := hc
  rw [e] at hf
  rcases List.mem_append.mp hf with hf | hf
  · exact ⟨f, hf, hft, hfc⟩
  · exact absurd hfc (hS (hft.symm.trans (hn f hf).1) _ (hn f hf).2)

theorem addsFaults_same (h : r'.faults = r.faults) : AddsFaults topic S r r' := ⟨[], by simp [h], fun f hf => by cases hf⟩

theorem adds_refl (r : MutationReport) : Adds topic S r r := ⟨addsFaults_same rfl, rfl, rfl⟩

theorem Adds.trans (h : Adds topic S r r') (h' : Adds topic S r' r'') : Adds topic S r r'' :=
  ⟨h.faults.trans h'.faults, h'.applied.trans h.applied, h'.deduped.trans h.deduped⟩

theorem adds_fault {site : Site} (r : MutationReport) (e : String) (h : S site) : Adds topic S r (r.fault topic site e) := by
  refine ⟨⟨[⟨topic, site, e⟩], rfl, fun f hf => ?_⟩, rfl, rfl⟩
  rw [List.mem_singleton.mp hf]
  exact ⟨rfl, h⟩

theorem Adds.mono (h : Adds topic S r r') (hS : ∀ site, S site → S' site) : Adds topic S' r r' :=
  ⟨h.faults.mono hS, h.applied, h.deduped⟩

theorem Adds.length_le (h : Adds topic S r r') : r.faults.length ≤ r'.faults.length := by
  obtain ⟨new, e, -⟩ := h.faults
  rw [e, List.length_append]
  exact Nat.le_add_right _ _

theorem Adds.same (h : Adds topic S r r') (hl : r'.faults.length ≤ r.faults.length) : r'.faults = r.faults := by
  obtain ⟨new, e, -⟩ := h.faults
  rw [e, List.length_append] at hl
  have hnil : new = [] := List.eq_nil_of_length_eq_zero (by omega)
  rw [e, hnil, List.append_nil]

/-- `r'` adds to `r` faults of `topic` at sites in `S`, and may record `topic`. -/
structure Grows (topic : Topic) (S : Site → Prop) (r r' : MutationReport) : Prop where
  faults : AddsFaults topic S r r'
  applied : r'.appliedTopics = r.appliedTopics ∨ r'.appliedTopics = r.appliedTopics ++ [topic]

theorem Adds.grows (h : Adds topic S r r') (hS : ∀ site, S site → S' site) : Grows topic S' r r' :=
  ⟨h.faults.mono hS, Or.inl h.applied⟩

theorem Adds.then (h : Adds topic S r r') (hS : ∀ site, S site → S' site) (h' : Grows topic S' r' r'') :
    Grows topic S' r r'' := by
  refine ⟨(h.faults.mono hS).trans h'.faults, ?_⟩
  rw [← h.applied]
  exact h'.applied

theorem Grows.mono (h : Grows topic S r r') (hS : ∀ site, S site → S' site) : Grows topic S' r r' :=
  ⟨h.faults.mono hS, h.applied⟩

theorem Grows.recorded (h : Grows topic S r r') {topic' : Topic} (ht : topic' ≠ topic) :
    topic' ∈ r'.appliedTopics ↔ topic' ∈ r.appliedTopics := by
  rcases h.applied with e | e
  · rw [e]
  · simp [e, ht]

end

/-! ## The phases -/

/-- `x` runs from every state and its report adds to `r`. -/
abbrev Reports {α : Type} (topic : Topic) (S : Site → Prop) (r : MutationReport) (x : M α) (f : α → MutationReport) : Prop :=
  Triple (fun _ => True) x fun a _ => Adds topic S r (f a)

section
variable {E : Engine} {bound : Bound} {sub : Subject} {topic : Topic}

theorem runs_call {α : Type} {bound : Bound} {effect : Db → Db} {answer : Db → α} :
    Triple (fun _ => True) (call bound effect answer) fun _ _ => True :=
  triple_call (fun _ _ => trivial) fun _ _ _ => ⟨trivial, trivial⟩

theorem reports_notifySpent (coin : Output) (input : Nat) : ∀ l r,
    Reports topic (· = .outputSpent) r (notifySpent bound sub topic coin input r l) Prod.fst
  | [], r => triple_pure fun _ _ => adds_refl r
  | ls :: rest, r => by
    refine triple_bind runs_call fun a => ?_
    match a with
    | .ok () => exact reports_notifySpent coin input rest r
    | .error e =>
      refine triple_bind (reports_notifySpent coin input rest _) fun p => triple_pure fun _ h => ?_
      exact Adds.trans (adds_fault r e rfl) h

theorem reports_markPrevious (retain : List Nat) : ∀ ps r,
    Reports topic (fun site => site = .markUtxoAsSpent ∨ site = .outputSpent) r
      (markPrevious E bound sub topic retain r ps) Prod.fst
  | [], r => triple_pure fun _ _ => adds_refl r
  | (input, coin) :: rest, r => by
    refine triple_bind runs_call fun a => ?_
    refine triple_bind (reports_notifySpent coin input _ _) fun p => ?_
    refine triple_fact (F := Adds topic (· = .outputSpent) _ p.1) (fun _ h => h) fun notified => ?_
    refine triple_bind ((reports_markPrevious retain rest p.1).conseq (fun _ _ => trivial) fun _ _ h => h) fun q => ?_
    refine triple_pure fun _ h => Adds.trans (Adds.trans ?_ (notified.mono fun _ => Or.inr)) h
    cases a with
    | ok u => exact adds_refl r
    | error e => exact adds_fault r e (Or.inl rfl)

def Site.inserts (site : Site) : Prop := site = .insertOutput ∨ site = .outputAdmittedByTopic
  deriving Decidable

theorem runs_notifyAdmitted (index : Nat) : ∀ l,
    Triple (fun _ => True) (notifyAdmitted bound sub topic index l) fun _ _ => True
  | [] => triple_pure fun _ _ => trivial
  | ls :: rest => by
    refine triple_bind runs_call fun a => ?_
    match a with
    | .ok () => exact runs_notifyAdmitted index rest
    | .error e => exact triple_pure fun _ _ => trivial

theorem reports_insertAdmitted {consumed : List Outpoint} : ∀ l r,
    Triple (fun _ => True) (insertAdmitted E bound sub topic consumed r l) fun a _ =>
      Adds topic Site.inserts r a.1 ∧ (a.2.2 = false → a.1 = r) ∧ (a.2.2 = true → HasFault topic Site.inserts a.1)
  | [], r => triple_pure fun _ _ => ⟨adds_refl r, fun _ => rfl, fun h => by cases h⟩
  | index :: rest, r => by
    have stop (site : Site) (e : String) (h : site.inserts) : Triple (fun _ => True)
        (pure (r.fault topic site e, [index], true) : M (MutationReport × List Nat × Bool)) fun a _ =>
        Adds topic Site.inserts r a.1 ∧ (a.2.2 = false → a.1 = r) ∧ (a.2.2 = true → HasFault topic Site.inserts a.1) := by
      refine triple_pure fun _ _ => ⟨adds_fault r e h, fun hf => (by cases hf), fun _ => ?_⟩
      exact ⟨⟨topic, site, e⟩, List.mem_append_right _ (List.mem_singleton.mpr rfl), rfl, h⟩
    refine triple_bind (R := fun _ _ => True) (triple_read fun _ _ => trivial) fun now => ?_
    refine triple_bind runs_call fun a => ?_
    match a with
    | .error e => exact stop .insertOutput e (Or.inl rfl)
    | .ok () =>
      refine triple_bind (runs_notifyAdmitted index E.lookupServices) fun a => ?_
      match a with
      | .error e => exact stop .outputAdmittedByTopic e (Or.inr rfl)
      | .ok () =>
        refine triple_bind (reports_insertAdmitted rest r) fun q => ?_
        obtain ⟨r1, attempted, faulted⟩ := q
        exact triple_pure fun _ h => h

theorem reports_undoInserts : ∀ l r,
    Reports topic (· = .undoInsertOutput) r (undoInserts bound sub topic r l) id
  | [], r => triple_pure fun _ _ => adds_refl r
  | index :: rest, r => by
    have ih := reports_undoInserts rest
    have faulted (e : String) : Reports topic (· = .undoInsertOutput) r
        (undoInserts bound sub topic (r.fault topic .undoInsertOutput e) rest) id :=
      (ih _).conseq (fun _ h => h) fun _ _ h => Adds.trans (adds_fault r e rfl) h
    refine triple_bind runs_call fun a => ?_
    match a with
    | .error e => exact faulted e
    | .ok none => exact ih r
    | .ok (some row) =>
      simp only
      split
      · refine triple_bind runs_call fun a => ?_
        match a with
        | .ok () => exact ih r
        | .error e => exact faulted e
      · exact ih r

theorem reports_undoIf (held : Bool) (l : List Nat) (r : MutationReport) :
    Reports topic (· = .undoInsertOutput) r (undoIf bound sub topic held r l) id := by
  unfold undoIf
  split
  · exact reports_undoInserts l r
  · exact triple_pure fun _ _ => adds_refl r

theorem runs_noLongerRetained (o : Output) : ∀ l, Triple (fun _ => True) (noLongerRetained bound o l) fun _ _ => True
  | [] => triple_pure fun _ _ => trivial
  | _ :: rest => triple_bind runs_call fun _ => runs_noLongerRetained o rest

theorem runs_deleteConsumed {recur : Output → M (Except String Unit)}
    (hrec : ∀ o, Triple (fun _ => True) (recur o) fun _ _ => True) (o : Output) : ∀ l,
    Triple (fun _ => True) (deleteConsumed bound recur o l) fun _ _ => True
  | [] => triple_pure fun _ _ => trivial
  | c :: rest => by
    have ih := runs_deleteConsumed hrec o rest
    refine triple_bind runs_call fun a => ?_
    match a with
    | .error e => exact ih
    | .ok none => exact ih
    | .ok (some stale) =>
      refine triple_bind runs_call fun a => ?_
      match a with
      | .error e => exact triple_pure fun _ _ => trivial
      | .ok () => exact triple_bind (hrec _) fun _ => ih

theorem runs_deleteUtxoDeep : ∀ fuel o, Triple (fun _ => True) (deleteUtxoDeep E bound fuel o) fun _ _ => True
  | 0, _ => triple_pure fun _ _ => trivial
  | fuel + 1, o => by
    have loop : Triple (fun _ => True) (deleteConsumed bound (deleteUtxoDeep E bound fuel) o o.outputsConsumed)
      fun _ _ => True := runs_deleteConsumed (runs_deleteUtxoDeep fuel) o _
    unfold deleteUtxoDeep
    split
    · refine triple_bind runs_call fun a => ?_
      cases a with
      | error e => exact triple_pure fun _ _ => trivial
      | ok u => exact triple_bind (runs_noLongerRetained o _) fun _ => loop
    · exact loop

def Site.deletes (site : Site) : Prop := site = .recordSpentCoinApplied ∨ site = .findOutput ∨ site = .deleteUtxoDeep

theorem reports_deleteStale : ∀ l r, Triple (fun _ => True) (deleteStale E bound topic r l) fun a _ =>
      Adds topic Site.deletes r a.1 ∧ (a.2.1 = false → a.1 = r) ∧ (a.2.1 = true → r.faults.length < a.1.faults.length)
  | [], r => triple_pure fun _ _ => ⟨adds_refl r, fun _ => rfl, fun h => by cases h⟩
  | stale :: rest, r => by
    have faulted {f : MutationReport × Bool × Bool → MutationReport × Bool × Bool} (hf : ∀ p, (f p).2.1 = true)
        (hr : ∀ p, (f p).1 = p.1) (site : Site) (e : String) (hs : site.deletes) :
        Triple (fun _ => True) (do let p ← deleteStale E bound topic (r.fault topic site e) rest; pure (f p)) fun a _ =>
          Adds topic Site.deletes r a.1 ∧ (a.2.1 = false → a.1 = r) ∧
            (a.2.1 = true → r.faults.length < a.1.faults.length) := by
      refine triple_bind (reports_deleteStale rest (r.fault topic site e)) fun p => triple_pure fun _ h => ?_
      have hlen : r.faults.length < (r.fault topic site e).faults.length := by simp [MutationReport.fault]
      rw [hr p]
      refine ⟨Adds.trans (adds_fault r e hs) h.1, fun h' => ?_, fun _ => Nat.lt_of_lt_of_le hlen h.1.length_le⟩
      rw [hf p] at h'
      cases h'
    refine triple_bind runs_call fun a => ?_
    match a with
    | .error e =>
      exact faulted (f := fun p => (p.1, true, p.2.2)) (fun _ => rfl) (fun _ => rfl) .recordSpentCoinApplied e (Or.inl rfl)
    | .ok () =>
      refine triple_bind (R := fun _ _ => True) (triple_update fun _ _ => trivial) fun _ => ?_
      refine triple_bind runs_call fun a => ?_
      match a with
      | .error e =>
        exact faulted (f := fun p => (p.1, true, p.2.2)) (fun _ => rfl) (fun _ => rfl) .findOutput e (Or.inr (Or.inl rfl))
      | .ok none => exact reports_deleteStale rest r
      | .ok (some row) =>
        refine triple_bind (R := fun _ _ => True) (triple_read fun _ _ => trivial) fun depth => ?_
        refine triple_bind (runs_deleteUtxoDeep depth row) fun a => ?_
        match a with
        | .error e =>
          exact faulted (f := fun p => (p.1, true, true)) (fun _ => rfl) (fun _ => rfl) .deleteUtxoDeep e
            (Or.inr (Or.inr rfl))
        | .ok () =>
          refine triple_bind (reports_deleteStale rest r) fun p => ?_
          exact triple_pure fun _ h => h

def Site.links (site : Site) : Prop := site = .findOutput ∨ site = .updateConsumedBy

theorem reports_linkConsumed (newUtxos : List Outpoint) : ∀ l r,
    Reports topic Site.links r (linkConsumed bound topic newUtxos r l) id
  | [], r => triple_pure fun _ _ => adds_refl r
  | c :: rest, r => by
    have ih := reports_linkConsumed newUtxos rest
    have faulted (site : Site) (e : String) (hs : site.links) : Reports topic Site.links r
        (linkConsumed bound topic newUtxos (r.fault topic site e) rest) id :=
      (ih _).conseq (fun _ h => h) fun _ _ h => Adds.trans (adds_fault r e hs) h
    refine triple_bind runs_call fun a => ?_
    match a with
    | .error e => exact faulted .findOutput e (Or.inl rfl)
    | .ok none => exact ih r
    | .ok (some o) =>
      refine triple_bind runs_call fun a => ?_
      match a with
      | .ok () => exact ih r
      | .error e => exact faulted .updateConsumedBy e (Or.inr rfl)

/-! ## One topic -/

theorem runs_hold {α : Type} {a : α} {Q : α → Prop} (txid : Txid) (topic : Topic) (h : Q a) :
    Triple (fun _ => True) (do holdUnapplied txid topic; pure a) fun a _ => Q a :=
  triple_bind (R := fun _ _ => True) (triple_update fun _ _ => trivial) fun _ => triple_pure fun _ _ => h

theorem Site.links.not_inserts {site : Site} (h : site.links) : ¬ site.inserts := by
  rintro (rfl | rfl) <;> rcases h with h | h <;> cases h

theorem Site.deletes.not_inserts {site : Site} (h : site.deletes) : ¬ site.inserts := by
  rintro (rfl | rfl) <;> rcases h with h | h | h <;> cases h

section
variable {v : TopicValidation}

theorem reports_linkAndRecord (n : Nat) (r : MutationReport) (attempted : List Nat) :
    Triple (fun _ => True) (linkAndRecord bound sub v n r attempted) fun r' _ =>
      Grows v.topic (fun site => ¬ site.inserts) r r' := by
  unfold linkAndRecord
  refine triple_bind (reports_linkConsumed _ _ r) fun r1 => ?_
  refine triple_fact (F := Adds v.topic Site.links r r1) (fun _ h => h) fun linked => ?_
  refine Triple.conseq (P := fun _ => True) ?_ (fun _ _ => trivial) fun _ _ h => h
  split
  · exact runs_hold _ _ (linked.grows fun _ => Site.links.not_inserts)
  · refine triple_bind runs_call fun a => ?_
    match a with
    | .ok () =>
      refine triple_bind (R := fun _ _ => True) (triple_update fun _ _ => trivial) fun _ => triple_pure fun _ _ => ?_
      exact linked.then (fun _ => Site.links.not_inserts) ⟨addsFaults_same rfl, Or.inr rfl⟩
    | .error e =>
      refine runs_hold _ _ (linked.then (fun _ => Site.links.not_inserts) (Adds.grows (adds_fault r1 e rfl) ?_))
      rintro site rfl (h | h) <;> cases h

theorem reports_deleteAndRecord (n : Nat) (r : MutationReport) (attempted : List Nat) :
    Triple (fun _ => True) (deleteAndRecord E bound sub v n r attempted) fun r' _ =>
      Grows v.topic (fun site => ¬ site.inserts) r r' := by
  unfold deleteAndRecord
  refine triple_bind (keeps_isDue (I := fun _ => True)).triple fun dueBefore => ?_
  refine triple_bind (reports_deleteStale _ r) fun a => ?_
  obtain ⟨r1, faulted, started⟩ := a
  refine triple_fact (F := Adds v.topic Site.deletes r r1) (fun _ h => h.1) fun deleted => ?_
  refine Triple.conseq (P := fun _ => True) ?_ (fun _ _ => trivial) fun _ _ h => h
  simp only
  split
  · refine triple_bind (keeps_isDue (I := fun _ => True)).triple fun dueNow => ?_
    refine triple_bind (keeps_renew (I := fun _ => True)).triple fun _ => ?_
    refine triple_bind (keeps_allHeld (I := fun _ => True) _ _).triple fun held => ?_
    refine triple_bind (reports_undoIf held _ r1) fun r2 => ?_
    refine triple_fact (F := Adds v.topic (· = .undoInsertOutput) r1 r2) (fun _ h => h) fun undone => ?_
    refine Triple.conseq (P := fun _ => True) (runs_hold _ _ (deleted.then (fun _ => Site.deletes.not_inserts)
      (undone.grows ?_))) (fun _ _ => trivial) fun _ _ h => h
    rintro site rfl (h | h) <;> cases h
  · exact (reports_linkAndRecord n r1 attempted).conseq (fun _ h => h) fun _ _ h =>
      deleted.then (fun _ => Site.deletes.not_inserts) h

theorem reports_insertAndRecord (n : Nat) (r : MutationReport) : Triple (fun _ => True) (insertAndRecord E bound sub v n r)
    fun r' _ => Grows v.topic (fun _ => True) r r' := by
  unfold insertAndRecord
  refine triple_bind (reports_insertAdmitted _ r) fun a => ?_
  obtain ⟨r1, attempted, faulted⟩ := a
  refine triple_fact (F := Adds v.topic Site.inserts r r1) (fun _ h => h.1) fun inserted => ?_
  refine Triple.conseq (P := fun _ => True) ?_ (fun _ _ => trivial) fun _ _ h => h
  simp only
  split
  · refine triple_bind (keeps_renew (I := fun _ => True)).triple fun _ => ?_
    refine triple_bind (reports_undoInserts _ r1) fun r2 => ?_
    refine triple_fact (F := Adds v.topic (· = .undoInsertOutput) r1 r2) (fun _ h => h) fun undone => ?_
    exact Triple.conseq (P := fun _ => True) (runs_hold _ _ (inserted.then (fun _ _ => trivial) (undone.grows fun _ _ => trivial)))
      (fun _ _ => trivial) fun _ _ h => h
  · exact (reports_deleteAndRecord n r1 attempted).conseq (fun _ h => h) fun _ _ h =>
      inserted.then (fun _ _ => trivial) (h.mono fun _ _ => trivial)

theorem reports_applyTopic (waits : AList fun _ : Topic => String) (r : MutationReport) :
    Triple (fun _ => True) (applyTopic E bound sub waits v r) fun r' _ => Grows v.topic (fun _ => True) r r' := by
  have same : Grows v.topic (fun _ => True) r r := (adds_refl r).grows fun _ h => h
  unfold applyTopic
  split
  · exact triple_pure fun _ _ => ⟨addsFaults_same rfl, Or.inl rfl⟩
  · split
    · exact triple_pure fun _ _ => same
    · split
      · exact runs_hold _ _ ((adds_fault r _ trivial).grows fun _ h => h)
      · exact runs_hold _ _ ((adds_fault r _ trivial).grows fun _ h => h)
      · unfold applyJudged
        refine triple_bind (reports_markPrevious _ _ r) fun a => ?_
        obtain ⟨r1, markFaulted, notifyFaulted⟩ := a
        refine triple_fact (F := Adds v.topic _ r r1) (fun _ h => h) fun marked => ?_
        refine Triple.conseq (P := fun _ => True) ?_ (fun _ _ => trivial) fun _ _ h => h
        simp only
        split
        · exact runs_hold _ _ (marked.grows fun _ _ => trivial)
        · exact (reports_insertAndRecord _ r1).conseq (fun _ h => h) fun _ _ h => marked.then (fun _ _ => trivial) h

end

theorem reports_mutate (waits : AList fun _ : Topic => String) (topic : Topic) : ∀ vs p,
    topic ∉ vs.map TopicValidation.topic → Triple (fun _ => True) (mutate E bound sub waits vs p) fun p' _ =>
      (∀ C, HasFault topic C p'.2 ↔ HasFault topic C p.2) ∧ (topic ∈ p'.2.appliedTopics ↔ topic ∈ p.2.appliedTopics)
  | [], _, _ => triple_pure fun _ _ => ⟨fun _ => Iff.rfl, Iff.rfl⟩
  | v :: rest, (steak, r), h => by
    have hne : topic ≠ v.topic := List.ne_of_not_mem_cons h
    refine triple_bind (reports_applyTopic waits r) fun r1 => ?_
    refine triple_fact (F := Grows v.topic (fun _ => True) r r1) (fun _ h => h) fun grown => ?_
    refine (reports_mutate waits topic rest _ (List.not_mem_of_not_mem_cons h)).conseq (fun _ _ => trivial) fun p' _ hp => ?_
    refine ⟨fun C => (hp.1 C).trans ⟨fun hc => ?_, fun hc => grown.faults.hasFault hc⟩, hp.2.trans (grown.recorded hne)⟩
    exact grown.faults.hadFault (fun e => absurd e hne) hc

end

end OverlayEngine
