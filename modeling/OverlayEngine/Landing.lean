import OverlayEngine.Reads

/-!
# The successor rule and the landings

A predicate that Phase 3 of the subject and of every body the rule may land
keeps is kept by the whole submit (`keeps_submitBounded`). A body is landed
only when the question named it: in some state of the run the store held none
of its outputs.
-/

namespace OverlayEngine

open Faulty

/-- In some state in `I`, `c` is in `P` and holds no output in `topic`. -/
def Blocked (I : Store → Prop) (P : Txid → Prop) (topic : Topic) (c : Txid) : Prop :=
  ∃ s, I s ∧ Unlanded P s topic c

/-- Every body of `beef` that may be landed in a topic of `topics` keeps `I`. -/
def Lands [Faults] (I : Store → Prop) (P : Txid → Prop) (E : Engine) (bound : Bound) (beef : Beef) (topics : List Topic) :
    Prop :=
  ∀ topic ∈ topics, ∀ body ∈ beef.bodies, Blocked I P topic body.id → PhaseKeeps I E bound body topic

/-- What a landing of `lander` in `topic` keeps. -/
def LanderKeeps [Faults] (I : Store → Prop) (P : Txid → Prop) (lander : Option Lander) (topic : Topic) : Prop :=
  ∀ land, lander = some land → ∀ c reads, Blocked I P topic c → KeepsStore I (land topic c reads)

def BlockedOn (I : Store → Prop) (P : Txid → Prop) (blocked : AList fun _ : Topic => Txid) : Prop :=
  ∀ topic c, blocked.lookup topic = some c → Blocked I P topic c

section
variable {I : Store → Prop} {P : Txid → Prop} {blocked : AList fun _ : Topic => Txid}

theorem BlockedOn.insert (h : BlockedOn I P blocked) {topic : Topic} {c : Txid}
    (hc : Blocked I P topic c) : BlockedOn I P (blocked.insert topic c) := by
  intro topic' c' h'
  by_cases e : topic' = topic
  · subst e
    rw [AList.lookup_insert] at h'
    cases h'
    exact hc
  · rw [AList.lookup_insert_ne e] at h'
    exact h topic' c' h'

theorem BlockedOn.erase (h : BlockedOn I P blocked) (topic : Topic) :
    BlockedOn I P (blocked.erase topic) := by
  intro topic' c' h'
  by_cases e : topic' = topic
  · subst e
    rw [AList.lookup_erase] at h'
    cases h'
  · rw [AList.lookup_erase_ne e] at h'
    exact h topic' c' h'

section
variable [Faults]

variable {α : Type} {x : M α} {F : Store → α → Prop}

theorem ensures_of_reads {G : α → Prop} (h : ∀ s, Reads s x (F s))
    (hG : ∀ s a, I s → F s a → G a) : Ensures (fun d : Db => I d.store) x G := by
  intro w ha hw
  obtain ⟨⟨h1, h2⟩, h3⟩ := h w.state.store w ha rfl
  refine ⟨⟨show I _ from h1 ▸ hw, hG _ _ hw h2⟩, h3⟩

theorem triple_of_reads (h : ∀ s, Reads s x (F s)) :
    Triple (fun d : Db => I d.store) x fun a d => I d.store ∧ F d.store a := by
  intro w ha hw
  obtain ⟨⟨h1, h2⟩, h3⟩ := h w.state.store w ha rfl
  refine ⟨⟨show I _ from h1 ▸ hw, ?_⟩, h3⟩
  rw [h1]; exact h2

theorem ensures_keeps (h : KeepsStore I x) : Ensures (fun d : Db => I d.store) x fun _ => True :=
  h.triple.conseq (fun _ h => h) fun _ _ h => ⟨h, trivial⟩

theorem Ensures.keeps {F : α → Prop} (h : Ensures (fun d : Db => I d.store) x F) :
    KeepsStore I x := Triple.conseq h (fun _ h => h) fun _ _ h => h.1

end

/-! ## The rule -/

/-- One topic of the rule, from `v` and `rule` to `r`. -/
structure Stepped (I : Store → Prop) (P : Txid → Prop) (J : TopicValidation → Prop) (v : TopicValidation) (rule : Rule)
    (r : TopicValidation × Rule) : Prop where
  topic : r.1.topic = v.topic
  judged : J v → J r.1
  blocked : BlockedOn I P rule.blocked → BlockedOn I P r.2.blocked

section
variable [Faults] {E : Engine} {bound : Bound} {sub : Subject} {beef : Beef} {mode : SubmitMode} {lander : Option Lander}
  {J : TopicValidation → Prop} (hP : Along P beef sub.tx)
  (hJ : ∀ s v, I s → Validated E s sub.tx sub.offChainValues mode false v → J v)
include hP hJ

theorem keeps_successorLoop {manager : TopicManager} : ∀ fuel v names rule, LanderKeeps I P lander v.topic →
    Ensures (fun d : Db => I d.store) (successorLoop E bound sub beef mode lander manager fuel v names rule) fun r =>
      Stepped I P J v rule r
  | 0, _, _, _, _ => ensures_pure ⟨rfl, id, id⟩
  | fuel + 1, v, names, rule, hl => by
    have ih := @keeps_successorLoop manager fuel
    unfold successorLoop
    simp only
    refine ensures_bind (ensures_of_reads (fun s => reads_namesIf _ _) fun _ _ _ h => h) fun names _ => ?_
    split
    · exact ensures_pure ⟨rfl, id, id⟩
    · refine ensures_bind (ensures_of_reads (fun s => reads_read _) fun _ _ _ h => h) fun notLanded _ => ?_
      split
      · exact ensures_pure ⟨rfl, id, id⟩
      · split
        · exact ensures_pure ⟨rfl, id, id⟩
        · refine ensures_bind (F := fun r => ∀ notNow c, r.2.2 = some notNow → notNow.carried = some c →
            Blocked I P v.topic c) (ensures_of_reads (fun s => reads_unlandedPredecessor hP _ _ _ _ _) ?_)
              fun a ha => ?_
          · intro s a hs h notNow c h1 h2
            exact ⟨s, hs, h notNow c h1 h2⟩
          obtain ⟨names, reads, answer⟩ := a
          simp only
          split
          · exact ensures_pure ⟨rfl, id, id⟩
          · rename_i notNow
            split
            · exact ensures_pure ⟨rfl, id, id⟩
            · rename_i carried hc
              exact ensures_pure ⟨rfl, id, fun hb => hb.insert (ha _ _ rfl hc)⟩
            · rename_i carried land hc
              split
              · exact ensures_pure ⟨rfl, id, id⟩
              · split
                · exact ensures_pure ⟨rfl, id, id⟩
                · refine ensures_bind (ensures_keeps (hl land rfl _ _ (ha _ _ rfl hc))) fun b _ => ?_
                  obtain ⟨reads, landed, breaches, outcome⟩ := b
                  cases outcome with
                  | error e => exact ensures_pure ⟨rfl, id, id⟩
                  | ok =>
                    refine ensures_bind (ensures_of_reads (fun s => reads_validateTopic _ _ _ _ _)
                      fun s v hs h => And.intro h.1 (hJ s v hs h.2)) fun v' hv' => ?_
                    simp only
                    split
                    · exact (ih v' names _ (by rw [hv'.1]; exact hl)).mono fun r hr =>
                        ⟨hr.topic.trans hv'.1, fun _ => hr.judged hv'.2, hr.blocked⟩
                    · exact ensures_pure ⟨hv'.1, fun _ => hv'.2, id⟩

theorem keeps_successorTopic (v : TopicValidation) (rule : Rule) (hl : LanderKeeps I P lander v.topic) :
    Ensures (fun d : Db => I d.store) (successorTopic E bound sub beef mode lander v rule) fun r =>
      Stepped I P J v rule r := by
  unfold successorTopic
  simp only
  split
  · exact ensures_pure ⟨rfl, id, id⟩
  · split
    · exact ensures_pure ⟨rfl, id, id⟩
    · refine ensures_bind (keeps_successorLoop hP hJ _ _ _ _ hl) fun a ha => ?_
      obtain ⟨v', rule'⟩ := a
      refine ensures_bind (F := fun r => BlockedOn I P rule'.blocked → BlockedOn I P r.blocked) ?_
        fun r hr => ensures_pure ⟨ha.topic, ha.judged, fun hb => hr (ha.blocked hb)⟩
      unfold finishHeld
      split
      · refine ensures_bind (ensures_of_reads (fun s => reads_get fun s => s.outputsOf sub.tx.id)
          fun _ _ _ _ => trivial) fun outputs _ => ?_
        match outputs with
        | .error e => exact ensures_pure fun hb => hb
        | .ok outputs =>
          simp only
          split
          · exact ensures_pure fun hb => hb.erase _
          · exact ensures_pure fun hb => hb
      · exact ensures_pure fun hb => hb

theorem keeps_successorsWaiting : ∀ vs rule, (∀ v ∈ vs, LanderKeeps I P lander v.topic) →
    Ensures (fun d : Db => I d.store) (successorsWaiting E bound sub beef mode lander vs rule) fun r =>
      r.1.map TopicValidation.topic = vs.map TopicValidation.topic ∧
        ((∀ v ∈ vs, J v) → ∀ v ∈ r.1, J v) ∧
        (BlockedOn I P rule.blocked → BlockedOn I P r.2.blocked)
  | [], _, _ => ensures_pure ⟨rfl, id, id⟩
  | v :: rest, rule, hl => by
    unfold successorsWaiting
    split
    · exact ensures_pure ⟨rfl, id, id⟩
    · refine ensures_bind (keeps_successorTopic hP hJ v rule (hl v (List.mem_cons_self ..))) fun a ha => ?_
      refine ensures_bind (keeps_successorsWaiting rest a.2 fun v' hv' => hl v' (List.mem_cons_of_mem _ hv'))
        fun b hb => ?_
      refine ensures_pure ⟨by simp [ha.topic, hb.1], fun hf v' hv' => ?_, fun h => hb.2.2 (ha.blocked h)⟩
      rcases List.mem_cons.mp hv' with rfl | hm
      · exact ha.judged (hf v (List.mem_cons_self ..))
      · exact hb.2.1 (fun v hv => hf v (List.mem_cons_of_mem _ hv)) v' hm

end

end

/-! ## Other topics -/

/-- `s` has the rows and the applied transactions of `s₀` in `topic`. -/
structure SameTopic (s₀ : Store) (topic : Topic) (s : Store) : Prop where
  find : ∀ o, s.find (o, topic) = s₀.find (o, topic)
  isApplied : ∀ txid, s.isApplied txid topic = s₀.isApplied txid topic

theorem sameTopic_refl (s : Store) (topic : Topic) : SameTopic s topic s := ⟨fun _ => rfl, fun _ => rfl⟩

section
variable {s₀ s : Store} {topic topic' : Topic}

theorem SameTopic.of_rows {s' : Store} (h : SameTopic s₀ topic s) (hf : ∀ o, s'.find (o, topic) = s.find (o, topic))
    (ha : s'.applied = s.applied) : SameTopic s₀ topic s' := by
  refine ⟨fun o => (hf o).trans (h.find o), fun txid => ?_⟩
  have ht := h.isApplied txid
  unfold Store.isApplied at ht ⊢
  rw [ha]
  exact ht

theorem SameTopic.modified {f : Output → Output} {hf : ∀ o, (f o).outpoint = o.outpoint ∧ (f o).topic = o.topic}
    (h : SameTopic s₀ topic s) (ht : topic' ≠ topic) (o : Outpoint) : SameTopic s₀ topic (s.modify (o, topic') f hf) := by
  refine h.of_rows (fun o' => ?_) (Store.applied_modify s _ f hf)
  rw [Store.find_modify, if_neg]
  intro e
  exact ht (congrArg Prod.snd e).symm

theorem SameTopic.deleted (h : SameTopic s₀ topic s) (ht : topic' ≠ topic) (o : Outpoint) :
    SameTopic s₀ topic (s.deleteOutput (o, topic')) := by
  refine h.of_rows (fun o' => ?_) rfl
  rw [Store.find_deleteOutput, if_neg]
  intro e
  exact ht (congrArg Prod.snd e).symm

theorem SameTopic.recorded (h : SameTopic s₀ topic s) (ht : topic' ≠ topic) (txid : Txid) :
    SameTopic s₀ topic (s.insertApplied txid topic') := by
  refine ⟨fun o => (Store.find_insertApplied ..).trans (h.find o), fun txid' => ?_⟩
  rw [Store.isApplied_insertApplied, ← h.isApplied txid']
  simp [Ne.symm ht]

theorem deepClosed_sameTopic (s₀ : Store) (ht : topic' ≠ topic) :
    DeepClosed (SameTopic s₀ topic) fun o => o.topic = topic' where
  next s o c stale l _ ho _ hf := (Store.find_keyed hf).2.trans ho
  unlink s o c stale h ho _ _ := h.modified (by rw [ho]; exact ht) c
  delete s o h ho _ := h.deleted (by rw [ho]; exact ht) _

theorem closed_otherTopic {I : Store → Prop} (hI : ∀ s s', SameTopic s topic s' → I s → I s') (tx : Tx)
    (ht : topic' ≠ topic) : Closed I tx topic' where
  mark s o _ h := hI s _ ((sameTopic_refl s topic).modified ht o) h
  insert s row _ hrow _ _ _ h := by
    refine hI s _ ((sameTopic_refl s topic).of_rows (fun o' => ?_) (Store.applied_insertOutput s row)) h
    rw [Store.find_insertOutput, if_neg]
    intro e
    exact ht (hrow.symm.trans (congrArg Prod.snd e.1).symm)
  undo s i h := hI s _ ((sameTopic_refl s topic).deleted ht _) h
  record s o _ h := hI s _ ((sameTopic_refl s topic).recorded ht o.txid) h
  link s o l _ h := hI s _ ((sameTopic_refl s topic).modified ht o) h
  applied s h := hI s _ ((sameTopic_refl s topic).recorded ht tx.id) h
  deep := by
    refine ⟨fun o => o.topic = topic', ⟨?_, ?_, ?_⟩, fun s o row _ _ hf => (Store.find_keyed hf).2⟩
    · exact fun s o c stale l _ ho hc hf => (Store.find_keyed hf).2.trans ho
    · exact fun s o c stale h ho hc hf =>
        hI s _ ((deepClosed_sameTopic s ht).unlink s o c stale (sameTopic_refl s topic) ho hc hf) h
    · exact fun s o h ho hc => hI s _ ((deepClosed_sameTopic s ht).delete s o (sameTopic_refl s topic) ho hc) h

theorem SameTopic.trans {s₁ s₂ : Store} (h : SameTopic s₀ topic s₁) (h' : SameTopic s₁ topic s₂) :
    SameTopic s₀ topic s₂ :=
  ⟨fun o => (h'.find o).trans (h.find o), fun txid => (h'.isApplied txid).trans (h.isApplied txid)⟩

end

theorem closed_true (tx : Tx) (topic : Topic) : Closed (fun _ => True) tx topic where
  mark _ _ _ _ := trivial
  insert _ _ _ _ _ _ _ _ := trivial
  undo _ _ _ := trivial
  record _ _ _ _ := trivial
  link _ _ _ _ _ := trivial
  applied _ _ := trivial
  deep := ⟨fun _ => True, ⟨fun _ _ _ _ _ _ _ _ _ => trivial, fun _ _ _ _ _ _ _ _ => trivial,
    fun _ _ _ _ _ => trivial⟩, fun _ _ _ _ _ _ => trivial⟩

theorem along_true (beef : Beef) (tx : Tx) : Along (fun _ => True) beef tx := ⟨fun _ _ => trivial, fun _ _ _ _ _ => trivial⟩

variable {v : TopicValidation} {mode : SubmitMode} {E : Engine} {s s' : Store} {tx body : Tx}

theorem Validated.congr {offChainValues : Option Bytes}
    {dryRun : Bool} (h : Validated E s tx offChainValues mode dryRun v)
    (hs : SameTopic s v.topic s') : Validated E s' tx offChainValues mode dryRun v := by
  have hp : s'.previousOf v.topic tx.inputs.zipIdx = s.previousOf v.topic tx.inputs.zipIdx := by
    simp only [Store.previousOf, hs.find]
  refine ⟨?_, ?_, h.answer, ?_, ?_, h.fault⟩
  · rw [hp]; exact h.previous
  · rw [hp]; exact h.all
  · rw [hs.isApplied]; exact h.notApplied
  · rw [hs.isApplied]; exact h.dupe

/-! ## What the rule hands to Phase 3 -/

def Current (E : Engine) (sub : Subject) (mode : SubmitMode) (waits : AList fun _ : Topic => String) (s : Store)
    (v : TopicValidation) : Prop :=
  Validated E s sub.tx sub.offChainValues mode false v ∨ (waits.lookup v.topic).isSome ∨
    ∃ i, s.held (⟨sub.tx.id, i⟩, v.topic) = true

theorem Current.congr {sub : Subject} {waits waits' : AList fun _ : Topic => String}
    (h : Current E sub mode waits s v) (hs : SameTopic s v.topic s')
    (hw : waits'.lookup v.topic = waits.lookup v.topic) : Current E sub mode waits' s' v := by
  rcases h with h | h | ⟨i, h⟩
  · exact Or.inl (h.congr hs)
  · exact Or.inr (Or.inl (by rw [hw]; exact h))
  · refine Or.inr (Or.inr ⟨i, ?_⟩)
    unfold Store.held at h ⊢
    rw [hs.find]
    exact h

/-- One topic of the rule, from `rule` to `r`, over the store it ends in. -/
structure Ruled (E : Engine) (sub : Subject) (mode : SubmitMode) (topic : Topic) (rule : Rule) (s : Store)
    (r : TopicValidation × Rule) : Prop where
  sameTopic : r.1.topic = topic
  found : Found sub.tx r.1
  current : Current E sub mode r.2.waits s r.1
  steak : r.2.steak.lookup topic = some r.1.admittance
  others : ∀ t, t ≠ topic → r.2.waits.lookup t = rule.waits.lookup t ∧ r.2.steak.lookup t = rule.steak.lookup t

section
variable {E : Engine} {bound : Bound} {sub : Subject} {beef : Beef} {mode : SubmitMode} {lander : Option Lander}

variable {rule rule' : Rule}

theorem Ruled.stays (hf : Found sub.tx v)
    (hv : Validated E s sub.tx sub.offChainValues mode false v) (hs : rule.steak.lookup v.topic = some v.admittance)
    (hw : rule'.waits = rule.waits) (hs' : rule'.steak = rule.steak) : Ruled E sub mode v.topic rule s (v, rule') :=
  ⟨rfl, hf, Or.inl hv, by rw [hs']; exact hs, fun t _ => ⟨by rw [hw], by rw [hs']⟩⟩

theorem Ruled.waits {why : String} (hf : Found sub.tx v)
    (hs : rule.steak.lookup v.topic = some v.admittance) (hw : rule'.waits = rule.waits.insert v.topic why)
    (hs' : rule'.steak = rule.steak) : Ruled E sub mode v.topic rule s (v, rule') := by
  refine ⟨rfl, hf, Or.inr (Or.inl ?_), by rw [hs']; exact hs, fun t ht => ⟨?_, by rw [hs']⟩⟩
  · simp [hw]
  · simp only [hw]
    exact AList.lookup_insert_ne ht

def LanderRuns [Faults] (lander : Option Lander) : Prop :=
  ∀ land, lander = some land → ∀ topic c reads, KeepsStore (fun _ => True) (land topic c reads)

section
variable [Faults] (hland : LanderRuns lander)
include hland

theorem ruled_successorLoop {manager : TopicManager} : ∀ fuel v names rule, Found sub.tx v →
    rule.steak.lookup v.topic = some v.admittance →
    Triple (fun d => Validated E d.store sub.tx sub.offChainValues mode false v)
      (successorLoop E bound sub beef mode lander manager fuel v names rule)
      fun r d => Ruled E sub mode v.topic rule d.store r
  | 0, _, _, _, hf, hs => triple_pure fun _ hv => Ruled.stays hf hv hs rfl rfl
  | fuel + 1, v, names, rule, hf, hs => by
    have ih := @ruled_successorLoop manager fuel
    have kept {α : Type} {x : M α} {F : Store → α → Prop} (h : ∀ s, Reads s x (F s)) :=
      keeps_of_reads (I := fun s => Validated E s sub.tx sub.offChainValues mode false v) h |>.triple
    unfold successorLoop
    simp only
    refine triple_bind (kept fun s => reads_namesIf _ _) fun names => ?_
    split
    · exact triple_pure fun _ hv => Ruled.stays hf hv hs rfl rfl
    · refine triple_bind (keeps_read _).triple fun notLanded => ?_
      split
      · exact triple_pure fun _ _ => Ruled.waits hf hs rfl rfl
      · split
        · exact triple_pure fun _ hv => Ruled.stays hf hv hs rfl rfl
        · refine triple_bind (kept fun s => reads_unlandedPredecessor (along_true _ _) _ _ _ _ _)
            fun a => ?_
          obtain ⟨names, reads, answer⟩ := a
          simp only
          split
          · exact triple_pure fun _ hv => Ruled.stays hf hv hs rfl rfl
          · rename_i notNow
            split
            · exact triple_pure fun _ _ => Ruled.waits hf hs rfl rfl
            · exact triple_pure fun _ _ => Ruled.waits hf hs rfl rfl
            · rename_i carried land hc
              split
              · exact triple_pure fun _ _ => Ruled.waits hf hs rfl rfl
              · split
                · exact triple_pure fun _ _ => Ruled.waits hf hs rfl rfl
                · refine triple_bind (R := fun _ _ => True) ((hland land rfl _ _ _).triple.conseq (fun _ _ => trivial)
                    fun _ _ h => h) fun b => ?_
                  obtain ⟨reads, landed, breaches, outcome⟩ := b
                  cases outcome with
                  | error e => exact triple_pure fun _ _ => Ruled.waits hf hs rfl rfl
                  | ok =>
                    refine triple_bind (triple_of_reads (I := fun _ => True) fun s => reads_validateTopic _ _ _ _ _)
                      fun v' => ?_
                    intro w ha hv'
                    obtain ⟨ht, hv⟩ := hv'.2
                    have hs' : (rule.steak.insert v'.topic v'.admittance).lookup v'.topic = some v'.admittance :=
                      AList.lookup_insert _
                    have hothers : ∀ t, t ≠ v.topic →
                        (rule.steak.insert v'.topic v'.admittance).lookup t = rule.steak.lookup t := by
                      intro t h
                      exact AList.lookup_insert_ne (by rw [ht]; exact h)
                    simp only
                    split
                    · obtain ⟨hr, hsuf⟩ := ih v' names { rule with
                        steak := rule.steak.insert v'.topic v'.admittance, reads := reads
                        landed := rule.landed ++ landed, breaches := rule.breaches ++ breaches } hv.found hs' w ha hv
                      refine ⟨⟨hr.sameTopic.trans ht, hr.found, hr.current, by rw [← ht]; exact hr.steak, ?_⟩, hsuf⟩
                      intro t h
                      obtain ⟨h1, h2⟩ := hr.others t (by rw [ht]; exact h)
                      exact ⟨h1, h2.trans (hothers t h)⟩
                    · refine ⟨⟨ht, hv.found, Or.inl hv, by rw [← ht]; exact hs', fun t h => ⟨rfl, hothers t h⟩⟩, ?_⟩
                      exact Later.refl _

omit [Faults] hland in
theorem Ruled.held {topic : Topic}
    (h : Ruled E sub mode topic rule s (v, rule')) (hs : (s.outputsOf sub.tx.id).any (fun o => decide (o.topic = topic)))
    {waits : AList fun _ : Topic => String} {blocked : AList fun _ : Topic => Txid} {reads : Nat}
    (hw : ∀ t, t ≠ topic → waits.lookup t = rule'.waits.lookup t) :
    Ruled E sub mode topic rule s (v, { rule' with waits := waits, blocked := blocked, reads := reads }) := by
  obtain ⟨row, hm, ht⟩ := List.any_eq_true.mp hs
  obtain ⟨⟨o, t⟩, hk, hf⟩ := Store.mem_outputsOf.mp hm
  have ht' : t = topic := by
    have := (Store.find_keyed hf).2
    simp only [decide_eq_true_eq] at ht
    exact this.symm.trans ht
  refine ⟨h.sameTopic, h.found, Or.inr (Or.inr ⟨o.outputIndex, ?_⟩), h.steak, ?_⟩
  · have ho : (⟨sub.tx.id, o.outputIndex⟩ : Outpoint) = o := by rw [← hk]
    unfold Store.held
    rw [ho, show (v, rule').1.topic = topic from h.sameTopic, ← ht', hf]
    rfl
  · intro t' hne
    exact ⟨(hw t' hne).trans (h.others t' hne).1, (h.others t' hne).2⟩

omit hland in
theorem ruled_finishHeld {topic : Topic} :
    Triple (fun d => Ruled E sub mode topic rule d.store (v, rule')) (finishHeld bound sub v.topic rule')
      fun r d => Ruled E sub mode topic rule d.store (v, r) := by
  have same {s : Store} (reads : Nat) (h : Ruled E sub mode topic rule s (v, rule')) :
      Ruled E sub mode topic rule s (v, { rule' with reads := reads }) :=
    ⟨h.sameTopic, h.found, h.current, h.steak, h.others⟩
  unfold finishHeld
  split
  · refine triple_bind (triple_of_reads (I := fun s => Ruled E sub mode topic rule s (v, rule'))
      fun s => reads_get fun s => s.outputsOf sub.tx.id) fun outputs => ?_
    match outputs with
    | .error e => exact triple_pure fun d h => same _ h.1
    | .ok outputs =>
      simp only
      split
      · rename_i hany
        refine triple_pure fun d h => ?_
        have ht : v.topic = topic := h.1.sameTopic
        refine h.1.held (by rw [h.2 _ rfl, ht] at hany; exact hany) fun t hne => ?_
        exact AList.lookup_erase_ne (by rw [ht]; exact hne)
      · exact triple_pure fun d h => same _ h.1
  · exact triple_pure fun d h => h

theorem ruled_successorTopic {rule : Rule} (hf : Found sub.tx v)
    (hs : rule.steak.lookup v.topic = some v.admittance) :
    Triple (fun d => Validated E d.store sub.tx sub.offChainValues mode false v)
      (successorTopic E bound sub beef mode lander v rule)
      fun r d => Ruled E sub mode v.topic rule d.store r := by
  unfold successorTopic
  simp only
  split
  · exact triple_pure fun _ hv => Ruled.stays hf hv hs rfl rfl
  · split
    · exact triple_pure fun _ hv => Ruled.stays hf hv hs rfl rfl
    · refine triple_bind (ruled_successorLoop hland _ v none rule hf hs) fun a => ?_
      obtain ⟨v', rule'⟩ := a
      exact triple_bind ruled_finishHeld fun r => triple_pure fun _ h => h
def LanderFrames (lander : Option Lander) : Prop :=
  ∀ s topic topic', topic' ≠ topic → LanderKeeps (SameTopic s topic) (fun _ => True) lander topic'

/-- What the rule hands on of the topics `topics`, over the store it ends in. -/
structure Handed (E : Engine) (sub : Subject) (mode : SubmitMode) (topics : List Topic) (rule : Rule) (s : Store)
    (r : List TopicValidation × Rule) : Prop where
  sameTopics : r.1.map TopicValidation.topic = topics
  found : ∀ v ∈ r.1, Found sub.tx v
  current : ∀ v ∈ r.1, Current E sub mode r.2.waits s v
  steak : ∀ v ∈ r.1, r.2.steak.lookup v.topic = some v.admittance
  others : ∀ t, t ∉ topics → r.2.waits.lookup t = rule.waits.lookup t ∧ r.2.steak.lookup t = rule.steak.lookup t

theorem handed_successorsWaiting (hframe : LanderFrames lander) : ∀ vs rule, (vs.map TopicValidation.topic).Nodup →
    (∀ v ∈ vs, Found sub.tx v ∧ rule.steak.lookup v.topic = some v.admittance) →
    Triple (fun d => ∀ v ∈ vs, Validated E d.store sub.tx sub.offChainValues mode false v)
      (successorsWaiting E bound sub beef mode lander vs rule)
      fun r d => Handed E sub mode (vs.map TopicValidation.topic) rule d.store r
  | [], _, _, _ => triple_pure fun _ _ => by
      refine ⟨rfl, ?_, ?_, ?_, fun _ _ => ⟨rfl, rfl⟩⟩ <;> intro v hv <;> cases hv
  | v :: rest, rule, hnd, hvs => by
    unfold successorsWaiting
    split
    · refine triple_pure fun d hv => ⟨rfl, fun v' h => (hvs v' h).1, fun v' h => Or.inl (hv v' h), ?_, ?_⟩
      · exact fun v' h => (hvs v' h).2
      · exact fun _ _ => ⟨rfl, rfl⟩
    · obtain ⟨hout, hnd'⟩ := List.nodup_cons.mp (show (v.topic :: rest.map TopicValidation.topic).Nodup from hnd)
      have hne : ∀ v' ∈ rest, v'.topic ≠ v.topic := fun v' hv' e => hout (e ▸ List.mem_map_of_mem hv')
      intro w ha hw
      obtain ⟨hvf, hvs'⟩ := hvs v (List.mem_cons_self ..)
      have ruled : Triple (fun d => Validated E d.store sub.tx sub.offChainValues mode false v)
          (successorTopic E bound sub beef mode lander v rule) fun r d => Ruled E sub mode v.topic rule d.store r :=
        ruled_successorTopic hland hvf hvs'
      obtain ⟨hr1, suf1⟩ := ruled w ha (hw v (List.mem_cons_self ..))
      -- the topics still to come are as the validation found them
      have hrest : ∀ v' ∈ rest, SameTopic w.state.store v'.topic
          (successorTopic E bound sub beef mode lander v rule w).2.state.store := by
        intro v' hv'
        have kept : KeepsStore (SameTopic w.state.store v'.topic) (successorTopic E bound sub beef mode lander v rule) :=
          Ensures.keeps (keeps_successorTopic (along_true beef sub.tx) (J := fun _ => True) (fun _ _ _ _ => trivial) v rule (hframe _ _ _ (Ne.symm (hne v' hv'))))
        exact (kept w ha (sameTopic_refl _ _)).1
      revert hr1 suf1 hrest
      generalize hx : successorTopic E bound sub beef mode lander v rule w = x
      obtain ⟨⟨v1, rule1⟩, w1⟩ := x
      intro hr1 suf1 hrest
      have ha1 : Allowed w1 := ha.later suf1
      obtain ⟨hr2, suf2⟩ := handed_successorsWaiting hframe rest rule1 hnd' (fun v' hv' => ⟨(hvs v' (List.mem_cons_of_mem _ hv')).1,
        (hr1.others _ (hne v' hv')).2.trans (hvs v' (List.mem_cons_of_mem _ hv')).2⟩) w1 ha1 fun v' hv' =>
          (hw v' (List.mem_cons_of_mem _ hv')).congr (hrest v' hv')
      have hsame : SameTopic w1.state.store v.topic
          (successorsWaiting E bound sub beef mode lander rest rule1 w1).2.state.store := by
        have kept : KeepsStore (SameTopic w1.state.store v.topic)
            (successorsWaiting E bound sub beef mode lander rest rule1) :=
          Ensures.keeps (keeps_successorsWaiting (along_true beef sub.tx) (J := fun _ => True) (fun _ _ _ _ => trivial) rest rule1
            fun v' hv' => hframe _ _ _ (hne v' hv'))
        exact (kept w1 ha1 (sameTopic_refl _ _)).1
      rw [bind_run hx]
      simp only
      revert hr2 suf2 hsame
      generalize hy : successorsWaiting E bound sub beef mode lander rest rule1 w1 = y
      obtain ⟨⟨vs2, rule2⟩, w2⟩ := y
      intro hr2 suf2 hsame
      rw [bind_run hy]
      have hv1 : v1.topic = v.topic := hr1.sameTopic
      have hkept := hr2.others v.topic hout
      refine ⟨⟨?_, ?_, ?_, ?_, ?_⟩, suf1.trans suf2⟩
      · exact congrArg₂ List.cons hv1 hr2.sameTopics
      · intro v' hv'
        rcases List.mem_cons.mp hv' with rfl | hm
        · exact hr1.found
        · exact hr2.found v' hm
      · intro v' hv'
        rcases List.mem_cons.mp hv' with rfl | hm
        · exact hr1.current.congr (by rw [show (v', rule1).1.topic = v.topic from hv1]; exact hsame)
            (by rw [show (v', rule1).1.topic = v.topic from hv1]; exact hkept.1)
        · exact hr2.current v' hm
      · intro v' hv'
        rcases List.mem_cons.mp hv' with rfl | hm
        · rw [hv1]
          exact hkept.2.trans hr1.steak
        · exact hr2.steak v' hm
      · intro t ht
        have hne1 : t ≠ v.topic := List.ne_of_not_mem_cons ht
        have hne2 := List.not_mem_of_not_mem_cons ht
        obtain ⟨h1, h2⟩ := hr2.others t hne2
        obtain ⟨h3, h4⟩ := hr1.others t hne1
        exact ⟨h1.trans h3, h2.trans h4⟩

end

end

/-! ## The submits -/

theorem transactionFromBeef_mem {b : Beef} {txid : Option Txid} (h : transactionFromBeef b txid = .ok tx) :
    tx ∈ b.bodies := by
  unfold transactionFromBeef at h
  split at h
  · cases h
  · split at h
    · rename_i hb
      cases h
      exact (Beef.body_mem hb).1
    · cases h

theorem transactionFromBeef_atomic {b : Beef} {txid : Txid} (ha : b.atomicTxid = some txid)
    (hb : b.body txid = some body) : transactionFromBeef b (subjectTxidOf E b) = .ok body := by
  obtain ⟨hm, hid⟩ := Beef.body_mem hb
  obtain ⟨e, he, htx⟩ := List.mem_filterMap.mp hm
  have hany : (b.txs.any fun e => decide (e.txid = txid)) = true := by
    refine List.any_eq_true.mpr ⟨e, he, ?_⟩
    cases e with
    | full tx bump => cases htx; simp [BeefTx.txid, hid]
    | txidOnly t => cases htx
  have hs : subjectTxidOf E b = some txid := by
    unfold subjectTxidOf
    rw [ha, Option.filter_some, if_pos hany]
  unfold transactionFromBeef
  rw [hs]
  simp only [Option.some_or, hb]

section
variable [Faults] {I : Store → Prop} {P : Txid → Prop} {E : Engine} {bound : Bound}

omit [Faults] in
theorem Found.answered (h : Found tx v)
    (a : Except TopicManagerError AdmittanceInstructions) : Found tx (v.answered a) := by
  cases a with
  | ok admittance => exact h
  | error e => intro row hr; cases hr

omit [Faults] in
theorem topic_answered (v : TopicValidation) (a : Except TopicManagerError AdmittanceInstructions) :
    (v.answered a).topic = v.topic := by
  cases a <;> rfl

variable {J : TopicValidation → Prop}

theorem keeps_judgeCarried (hJ : ∀ v a, J v → J (v.answered a)) (tx : Tx) (offChainValues : Option Bytes) (mode : SubmitMode)
    (waits : AList fun _ : Topic => String) : ∀ vs steak,
    Ensures (fun d : Db => I d.store) (judgeCarried E bound tx offChainValues mode waits vs steak) fun r =>
      r.1.map TopicValidation.topic = vs.map TopicValidation.topic ∧ ((∀ v ∈ vs, J v) → ∀ v ∈ r.1, J v)
  | [], _ => ensures_pure ⟨rfl, id⟩
  | v :: rest, steak => by
    have ih := keeps_judgeCarried hJ tx offChainValues mode waits rest
    have cons {r : List TopicValidation} {v' : TopicValidation} (hr : r.map TopicValidation.topic =
        rest.map TopicValidation.topic ∧ ((∀ v ∈ rest, J v) → ∀ v ∈ r, J v)) (ht : v'.topic = v.topic)
        (hf : J v → J v') : (v' :: r).map TopicValidation.topic = (v :: rest).map TopicValidation.topic ∧
          ((∀ u ∈ v :: rest, J u) → ∀ u ∈ v' :: r, J u) := by
      refine ⟨by simp [ht, hr.1], fun h u hu => ?_⟩
      rcases List.mem_cons.mp hu with rfl | hm
      · exact hf (h v (List.mem_cons_self ..))
      · exact hr.2 (fun u hu => h u (List.mem_cons_of_mem _ hu)) u hm
    unfold judgeCarried
    split
    · refine ensures_bind (ensures_of_reads (fun s => reads_judge _ _ _ _ _ _) fun _ _ _ _ => trivial) fun a _ => ?_
      refine ensures_bind (ih _) fun b hb => ensures_pure ?_
      exact cons hb (topic_answered v a) (hJ v a)
    · exact ensures_bind (ih _) fun b hb => ensures_pure (cons hb rfl id)

theorem keeps_judgeIf {carried : Bool} (hJ : carried = true → ∀ v a, J v → J (v.answered a)) (tx : Tx) (offChainValues : Option Bytes) (mode : SubmitMode)
    (waits : AList fun _ : Topic => String) (vs : List TopicValidation) (steak : Steak) :
    Ensures (fun d : Db => I d.store) (judgeIf E bound carried tx offChainValues mode waits vs steak) fun r =>
      r.1.map TopicValidation.topic = vs.map TopicValidation.topic ∧ ((∀ v ∈ vs, J v) → ∀ v ∈ r.1, J v) := by
  unfold judgeIf
  split
  · rename_i hc
    exact keeps_judgeCarried (hJ hc) _ _ _ _ _ _
  · exact ensures_pure ⟨rfl, id⟩

omit [Faults] in
theorem topic_dropExpired (E : Engine) (tx : Tx) (now : Nat) (v : TopicValidation) :
    (dropExpired E tx now v).topic = v.topic ∧ (dropExpired E tx now v).previousOutputs = v.previousOutputs := by
  unfold dropExpired
  split <;> exact ⟨rfl, rfl⟩

/-- `J` holds of what a submit of `tx` validates, and of what the rule and the second judgement make of it. -/
structure Follows (J : TopicValidation → Prop) (I : Store → Prop) (E : Engine) (tx : Tx) (offChainValues : Option Bytes)
    (mode : SubmitMode) (finalize carried : Bool) : Prop where
  validated : ∀ s v, I s → Validated E s tx offChainValues mode carried v → J v
  revalidated : ∀ s v, I s → Validated E s tx offChainValues mode false v → J v
  expired : finalize = true → ∀ now v, J v → J (dropExpired E tx now v)
  answered : carried = true → ∀ v a, J v → J (v.answered a)

omit [Faults] in
theorem follows_found (I : Store → Prop) (E : Engine) (tx : Tx) (offChainValues : Option Bytes) (mode : SubmitMode)
    (finalize carried : Bool) : Follows (Found tx) I E tx offChainValues mode finalize carried where
  validated _ _ _ h := h.found
  revalidated _ _ _ h := h.found
  expired _ now v h := by
    intro row hrow
    rw [(topic_dropExpired E tx now v).2] at hrow
    exact h row hrow
  answered _ _ a h := h.answered a

structure Prepared (I : Store → Prop) (P : Txid → Prop) (J : Tx → TopicValidation → Prop) (E : Engine) (tagged : TaggedBeef) (finalize : Bool)
    (p : List TopicValidation × Subject × Option WalkCouldNotRun × Rule) : Prop where
  subject : transactionFromBeef tagged.beef (subjectTxidOf E tagged.beef) = .ok p.2.1.tx
  sub : p.2.1 = ⟨p.2.1.tx, tagged.offChainValues, finalize⟩
  topics : p.1.map TopicValidation.topic = tagged.topics
  judged : ∀ v ∈ p.1, J p.2.1.tx v
  blocked : BlockedOn I P p.2.2.2.blocked

section
variable {finalize : Bool} {walked : Option (List Txid)} {lander : Tx → Beef → Bool → Option Lander}
  {tagged : TaggedBeef} {mode : SubmitMode} {policy : WalkBreachPolicy} {reads : Nat}
  (hrule : ∀ tx, transactionFromBeef tagged.beef (subjectTxidOf E tagged.beef) = .ok tx →
    Along P tagged.beef tx ∧ ∀ topic ∈ tagged.topics, ∀ ran,
      LanderKeeps I P (lander tx { tagged.beef with atomicTxid := some tx.id } ran) topic)
include hrule

theorem keeps_prepare {J : Tx → TopicValidation → Prop}
    (hJ : ∀ tx, transactionFromBeef tagged.beef (subjectTxidOf E tagged.beef) = .ok tx →
      Follows (J tx) I E tx tagged.offChainValues mode finalize walked.isSome) : Ensures (fun d : Db => I d.store)
    (prepare E bound finalize walked lander tagged mode policy reads) fun r =>
      ∀ p, r = .ok p → Prepared I P J E tagged finalize p := by
  unfold prepare
  refine ensures_bind (ensures_of_reads (fun s => reads_runValidation _ _ _ _ _) fun s a hs h vs tx stop e =>
    And.intro (h vs tx stop e).1 (And.intro (h vs tx stop e).2.1 fun v hv =>
      (hJ tx (h vs tx stop e).1).validated s v hs ((h vs tx stop e).2.2 v hv))) fun r hr => ?_
  match r with
  | .error e => exact ensures_pure fun p h => by cases h
  | .ok (vs, tx, couldNotRun) =>
    obtain ⟨htx, htopics, hjudged⟩ := hr vs tx couldNotRun rfl
    obtain ⟨hP, hl⟩ := hrule tx htx
    refine ensures_bind (ensures_of_reads (fun s => reads_read _) fun _ _ _ _ => trivial) fun now _ => ?_
    simp only
    generalize hvs' : (if finalize = true then vs.map (dropExpired E tx now) else vs) = vs'
    have htopics' : vs'.map TopicValidation.topic = tagged.topics := by
      rw [← hvs', ← htopics]
      split
      · rw [List.map_map]
        exact List.map_congr_left fun v _ => (topic_dropExpired E tx now v).1
      · rfl
    have hjudged' : ∀ v ∈ vs', J tx v := by
      rw [← hvs']
      split
      · rename_i hfin
        intro v hv
        obtain ⟨v0, h0, rfl⟩ := List.mem_map.mp hv
        exact (hJ tx htx).expired hfin now v0 (hjudged v0 h0)
      · exact hjudged
    let sub : Subject := ⟨tx, tagged.offChainValues, finalize⟩
    have hP' : Along P { tagged.beef with atomicTxid := some tx.id } sub.tx := ⟨hP.start, hP.next⟩
    refine ensures_bind (keeps_successorsWaiting (I := I) hP' (J := J tx) (hJ tx htx).revalidated vs' _ fun v hv =>
      hl v.topic (by rw [← htopics']; exact List.mem_map_of_mem hv) _) fun a ha => ?_
    obtain ⟨vs1, rule⟩ := a
    refine ensures_bind (keeps_judgeIf (J := J tx) (hJ tx htx).answered _ _ _ _ _ _) fun b hb => ?_
    refine ensures_pure fun p h => ?_
    cases h
    refine ⟨htx, rfl, hb.1.trans (ha.1.trans htopics'), hb.2 (ha.2.1 hjudged'), ha.2.2 ?_⟩
    intro topic c h
    simp at h

theorem keeps_submitCounted (hclosed : ∀ tx, transactionFromBeef tagged.beef (subjectTxidOf E tagged.beef) = .ok tx →
    ∀ topic ∈ tagged.topics, PhaseKeeps I E bound tx topic) : Ensures (fun d : Db => I d.store)
    (submitCounted E bound finalize walked lander tagged mode policy reads) fun r =>
      ∀ c, r = .ok c → BlockedOn I P c.blocked := by
  unfold submitCounted
  refine ensures_bind (keeps_prepare hrule fun tx _ => follows_found ..) fun r hr => ?_
  match r with
  | .error e => exact ensures_pure fun p h => by cases h
  | .ok (vs, sub, couldNotRun, rule) =>
    have hp := hr _ rfl
    refine ensures_bind (ensures_keeps (keeps_mutate _ _ _ fun v hv => ?_)) fun a _ => ?_
    · refine ⟨hclosed sub.tx hp.subject v.topic ?_, hp.judged v hv⟩
      rw [← hp.topics]
      exact List.mem_map_of_mem hv
    · refine ensures_pure fun c h => ?_
      cases h
      exact hp.blocked

end

/-! ## The landings -/

section
variable {beef : Beef} {topic : Topic} {mode : SubmitMode} {policy : WalkBreachPolicy}
  (hnext : ∀ body ∈ beef.bodies, P body.id → ∀ o ∈ body.spent, P o.txid) (hlands : Lands I P E bound beef [topic])
include hnext hlands

theorem keeps_submitCarried {atomic : Beef} {next : Txid} {walked : List Txid} {reads : Nat}
    (ha : E.toAtomicBeef beef next = some atomic) (hbody : beef.body next = some body)
    (hblocked : Blocked I P topic next) : Ensures (fun d : Db => I d.store)
    (submitCarried E bound walked ⟨atomic, [topic], none⟩ mode policy reads) fun r =>
      ∀ c, r = .ok c → BlockedOn I P c.blocked := by
  obtain ⟨hat, hab, hsub⟩ := E.toAtomicBeef_body beef next atomic ha
  obtain ⟨hm, hid⟩ := Beef.body_mem hbody
  have hsubject (tx : Tx) (h : transactionFromBeef atomic (subjectTxidOf E atomic) = .ok tx) : tx = body := by
    rw [transactionFromBeef_atomic hat (hab.trans hbody)] at h
    cases h
    rfl
  obtain ⟨s, hs, hun⟩ := hblocked
  refine keeps_submitCounted (fun tx h => ⟨⟨?_, ?_⟩, ?_⟩) fun tx h t ht => ?_
  · rw [hsubject tx h]
    exact hnext body hm (by rw [hid]; exact hun.reached)
  · exact fun b hb => hnext b (hsub b hb)
  · intro t _ ran land hland
    cases hland
  · rw [hsubject tx h]
    exact hlands t ht body hm ⟨s, hs, by rw [List.mem_singleton.mp ht, hid]; exact hun⟩

omit hnext hlands in
theorem keeps_guardLanding (next : Txid) (l : Landing) : Ensures (fun d : Db => I d.store)
    (guardLanding E bound next topic l) fun r => r.1.stack = l.stack := by
  unfold guardLanding
  split
  · exact ensures_pure rfl
  · split
    · exact ensures_pure rfl
    · exact ensures_bind (ensures_keeps keeps_asked) fun _ _ => ensures_pure rfl

theorem keeps_landLoop : ∀ fuel l, (∀ c ∈ l.stack, Blocked I P topic c) →
    KeepsStore I (landLoop E bound beef topic mode policy fuel l)
  | 0, _, _ => keeps_pure _
  | fuel + 1, l, hl => by
    have ih := keeps_landLoop fuel
    unfold landLoop
    split
    · exact keeps_pure _
    · rename_i next under hstack
      split
      · exact keeps_pure _
      · rename_i body hbody
        refine Ensures.keeps (F := fun _ => True) ?_
        refine ensures_bind (keeps_guardLanding next l) fun a ha => ?_
        obtain ⟨l1, allowed⟩ := a
        have hl1 : ∀ c ∈ l1.stack, Blocked I P topic c := by rw [show l1.stack = l.stack from ha]; exact hl
        match allowed with
        | .error e => exact ensures_pure trivial
        | .ok () =>
          simp only
          split
          · exact ensures_pure trivial
          · split
            · exact ensures_pure trivial
            · rename_i atomic hatomic
              have hn : Blocked I P topic next := hl next (by rw [hstack]; exact List.mem_cons_self ..)
              refine ensures_bind (keeps_submitCarried hnext hlands hatomic hbody hn) fun r hr => ?_
              match r with
              | .error e => cases e <;> exact ensures_pure trivial
              | .ok counted =>
                simp only
                split
                · refine ensures_keeps (ih _ fun c hc => hl c ?_)
                  rw [hstack]
                  exact List.mem_cons_of_mem _ hc
                · split
                  · rename_i blocker hb
                    refine ensures_keeps (ih _ fun c hc => ?_)
                    rcases List.mem_cons.mp hc with rfl | hm
                    · exact hr counted rfl topic c (Option.eq_some_of_filter_eq_some hb)
                    · exact hl1 c hm
                  · split <;> exact ensures_pure trivial

end

theorem keeps_landCarried {beef : Beef} {topic : Topic} {policy : WalkBreachPolicy}
    (hnext : ∀ body ∈ beef.bodies, P body.id → ∀ o ∈ body.spent, P o.txid) (hlands : Lands I P E bound beef [topic])
    (tx : Tx) (ran : Bool) : LanderKeeps I P (some (landCarried E bound mode policy tx beef ran)) topic := by
  intro land hland c reads hc
  cases hland
  unfold landCarried
  refine keeps_bind (keeps_landLoop hnext hlands _ _ fun c' hc' => ?_) fun _ => keeps_pure _
  rw [List.mem_singleton.mp hc']
  exact hc

end

theorem keeps_submitBounded [Faults] {I : Store → Prop} {bound : Bound} {finalize : Bool} {tagged : TaggedBeef}
    {policy : WalkBreachPolicy} (h : ∀ body ∈ tagged.beef.bodies, ∀ topic, PhaseKeeps I E bound body topic) :
    KeepsStore I (submitBounded E bound finalize tagged mode policy) := by
  have counted : Ensures (fun d : Db => I d.store) (submitCounted E bound finalize none
      (fun tx beef ran => some (landCarried E bound mode policy tx beef ran)) tagged mode policy 0) fun r =>
      ∀ c, r = .ok c → BlockedOn I (fun _ => True) c.blocked := by
    refine keeps_submitCounted (I := I) (fun tx htx => ⟨along_true _ _, fun t _ ran => ?_⟩) fun tx htx t _ => ?_
    · refine keeps_landCarried (fun _ _ _ _ _ => trivial) (fun t' _ body hb _ => ?_) tx ran
      exact h body hb t'
    · exact h tx (transactionFromBeef_mem htx) t
  exact keeps_bind (Ensures.keeps counted) fun _ => keeps_pure _

/-! ## What a submit hands to Phase 3 -/

section
variable [Faults] {E : Engine} {bound : Bound} {mode : SubmitMode} {policy : WalkBreachPolicy} {tx : Tx} {beef : Beef} {ran : Bool}

theorem landerRuns_landCarried : LanderRuns (some (landCarried E bound mode policy tx beef ran)) := by
  intro land hland topic c reads
  refine keeps_landCarried (P := fun _ => True) (fun _ _ _ _ _ => trivial) ?_ tx ran land hland c reads
    ⟨Store.empty, trivial, trivial, fun i => rfl⟩
  exact fun topic _ body _ _ => (closed_true body topic).phase

theorem landerFrames_landCarried : LanderFrames (some (landCarried E bound mode policy tx beef ran)) := by
  intro s topic topic' ht
  refine keeps_landCarried (fun _ _ _ _ _ => trivial) ?_ tx ran
  intro t h body _ _
  refine (closed_otherTopic (fun s1 s2 h1 h2 => h2.trans h1) body ?_).phase
  rw [List.mem_singleton.mp h]
  exact ht

omit [Faults] in
theorem lookup_steakOf : ∀ (vs : List TopicValidation), (vs.map TopicValidation.topic).Nodup → ∀ v ∈ vs,
    (steakOf vs).lookup v.topic = some v.admittance := by
  have keep (vs : List TopicValidation) (steak : Steak) (t : Topic) (ht : t ∉ vs.map TopicValidation.topic) :
      (vs.foldl (fun steak v => steak.insert v.topic v.admittance) steak).lookup t = steak.lookup t := by
    induction vs generalizing steak with
    | nil => rfl
    | cons u vs ih =>
      have h1 : t ≠ u.topic := List.ne_of_not_mem_cons ht
      rw [List.foldl_cons, ih _ (List.not_mem_of_not_mem_cons ht), AList.lookup_insert_ne h1]
  have go (vs : List TopicValidation) (hnd : (vs.map TopicValidation.topic).Nodup) (steak : Steak) : ∀ v ∈ vs,
      (vs.foldl (fun steak v => steak.insert v.topic v.admittance) steak).lookup v.topic = some v.admittance := by
    induction vs generalizing steak with
    | nil => intro v hv; cases hv
    | cons u vs ih =>
      obtain ⟨hu, hnd'⟩ := List.nodup_cons.mp (show (u.topic :: vs.map TopicValidation.topic).Nodup from hnd)
      intro v hv
      rcases List.mem_cons.mp hv with rfl | hv
      · rw [List.foldl_cons, keep vs _ _ hu, AList.lookup_insert]
      · exact ih hnd' _ v hv
  exact fun vs hnd => go vs hnd ∅

theorem handed_prepare {tagged : TaggedBeef} (hnd : tagged.topics.Nodup) :
    Triple (fun _ => True) (prepare E bound false none
      (fun tx beef ran => some (landCarried E bound mode policy tx beef ran)) tagged mode policy 0)
      fun r d => ∀ p, r = .ok p → ∃ rule, Handed E p.2.1 mode tagged.topics rule d.store (p.1, p.2.2.2) := by
  unfold prepare
  refine triple_bind (triple_of_reads (I := fun _ => True) fun s => reads_runValidation _ _ _ _ _) fun r => ?_
  match r with
  | .error e => exact triple_pure fun _ _ p h => by cases h
  | .ok (vs, tx, couldNotRun) =>
    refine triple_bind (R := fun _ d => vs.map TopicValidation.topic = tagged.topics ∧
      ∀ v ∈ vs, Validated E d.store tx tagged.offChainValues mode false v) (triple_read fun d h => (h.2 _ _ _ rfl).2)
        fun now => ?_
    refine triple_fact (F := vs.map TopicValidation.topic = tagged.topics ∧ ∀ v ∈ vs, Found tx v)
      (fun d h => ⟨h.1, fun v hv => (h.2 v hv).found⟩) fun ⟨htopics, hfound⟩ => ?_
    have hnd' : (vs.map TopicValidation.topic).Nodup := by rw [htopics]; exact hnd
    let named : Beef := { tagged.beef with atomicTxid := some tx.id }
    let sub : Subject := ⟨tx, tagged.offChainValues, false⟩
    have handed : Triple (fun d => ∀ v ∈ vs, Validated E d.store sub.tx sub.offChainValues mode false v)
        (successorsWaiting E bound sub named mode (some (landCarried E bound mode policy tx named couldNotRun.isNone)) vs
          { steak := steakOf vs, reads := 0 })
        fun r d => Handed E sub mode (vs.map TopicValidation.topic) { steak := steakOf vs, reads := 0 } d.store r :=
      handed_successorsWaiting landerRuns_landCarried landerFrames_landCarried vs _ hnd'
        fun v hv => ⟨hfound v hv, lookup_steakOf vs hnd' v hv⟩
    rw [htopics] at handed
    refine triple_bind (handed.conseq (fun d h => h.2) fun _ _ h => h) fun a => ?_
    refine triple_pure fun d h p hp => ?_
    cases hp
    exact ⟨_, h⟩

end

end OverlayEngine
