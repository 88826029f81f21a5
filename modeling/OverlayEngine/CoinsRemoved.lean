import OverlayEngine.HeadChain
import OverlayEngine.Basis.Turns

/-!
# The removed coins of the STEAK

The engine splits the previous coins of a topic into retained and stale, and
maps the stale ones back to inputs by their place among the stale. The STEAK
names the stale inputs only when no retained coin stands before a stale one.
-/

namespace OverlayEngine

open Faulty

def TopicValidation.applies (waits : AList fun _ : Topic => String) (v : TopicValidation) : Bool :=
  v.judged && (waits.lookup v.topic).isNone

def TopicValidation.staleInputs (v : TopicValidation) : List Nat :=
  v.previousCoins.filter fun i => i ∉ v.admittance.coinsToRetain

def TopicValidation.StaleFirst (v : TopicValidation) : Prop :=
  v.previousCoins.Pairwise fun i j => i ∈ v.admittance.coinsToRetain → j ∈ v.admittance.coinsToRetain

instance (v : TopicValidation) : Decidable v.StaleFirst := inferInstanceAs (Decidable (List.Pairwise _ _))

def TopicValidation.Paired (v : TopicValidation) : Prop := v.previousCoins.length = v.previousOutputs.length

/-! ## Places -/

theorem filterMap_zipIdx_get {α β : Type} (xs : List β) : ∀ (l : List α) (n : Nat),
    ((l.zipIdx n).filterMap fun p => xs[p.2]?) = (xs.drop n).take l.length
  | [], n => by simp
  | a :: l, n => by
    rw [List.zipIdx_cons, List.filterMap_cons, filterMap_zipIdx_get xs l (n + 1), List.length_cons]
    by_cases hn : n < xs.length
    · rw [List.getElem?_eq_getElem hn, List.drop_eq_getElem_cons hn, List.take_succ_cons]
    · have hd : xs.drop n = [] := List.drop_eq_nil_of_le (by omega)
      have hd' : xs.drop (n + 1) = [] := List.drop_eq_nil_of_le (by omega)
      simp [hd, hd', List.getElem?_eq_none (by omega : xs.length ≤ n)]

theorem take_eq_filter_iff {α : Type} (p : α → Bool) : ∀ xs : List α,
    xs.take (xs.filter p).length = xs.filter p ↔ xs.Pairwise fun i j => p i = false → p j = false
  | [] => by simp
  | x :: xs => by
    have ih := take_eq_filter_iff p xs
    rw [List.pairwise_cons]
    cases hp : p x with
    | true =>
      rw [List.filter_cons_of_pos hp, List.length_cons, List.take_succ_cons, List.cons.injEq]
      simp [ih]
    | false =>
      rw [List.filter_cons_of_neg (by simp [hp])]
      cases hf : xs.filter p with
      | nil =>
        have hall : ∀ j ∈ xs, p j = false := fun j hj => by
          simpa using List.filter_eq_nil_iff.mp hf j hj
        refine ⟨fun _ => ⟨fun j hj _ => hall j hj, ?_⟩, fun _ => rfl⟩
        exact List.pairwise_of_forall_mem_list fun _ _ j hj _ => hall j hj
      | cons y ys =>
        have hy : y ∈ xs.filter p := by rw [hf]; exact List.mem_cons_self ..
        obtain ⟨hyx, hyp⟩ := List.mem_filter.mp hy
        constructor
        · intro h
          rw [List.length_cons, List.take_succ_cons] at h
          rw [(List.cons.inj h).1, hyp] at hp
          cases hp
        · intro h
          rw [h.1 y hyx rfl] at hyp
          cases hyp

variable {v : TopicValidation}

theorem length_staleCoins (h : v.Paired) : v.staleCoins.length = v.staleInputs.length := by
  unfold TopicValidation.staleCoins TopicValidation.staleInputs
  unfold TopicValidation.Paired at h
  generalize v.previousCoins = coins at h
  generalize v.previousOutputs = rows at h
  induction coins generalizing rows with
  | nil => rfl
  | cons i coins ih =>
    cases rows with
    | nil => cases h
    | cons row rows =>
      have := ih rows (by simpa using h)
      by_cases hi : i ∈ v.admittance.coinsToRetain
      · simpa [hi] using this
      · simpa [hi] using this

theorem coinsRemoved_eq (h : v.Paired) :
    v.coinsRemoved = v.previousCoins.take v.staleInputs.length := by
  unfold TopicValidation.coinsRemoved
  rw [filterMap_zipIdx_get, List.drop_zero, length_staleCoins h]

theorem coinsRemoved_iff (h : v.Paired) : v.coinsRemoved = v.staleInputs ↔ v.StaleFirst := by
  rw [coinsRemoved_eq h]
  unfold TopicValidation.staleInputs TopicValidation.StaleFirst
  rw [take_eq_filter_iff]
  simp only [decide_eq_false_iff_not, not_not]

/-! ## What reaches Phase 3 -/

/-- No topic of `steak` is missing in `steak'`. -/
def Steak.Grows (steak steak' : Steak) : Prop := ∀ t, (steak.lookup t).isSome → (steak'.lookup t).isSome

theorem Steak.grows_refl (steak : Steak) : steak.Grows steak := fun _ h => h

theorem Steak.Grows.trans {a b c : Steak} (h : a.Grows b) (h' : b.Grows c) : a.Grows c := fun t ht => h' t (h t ht)

theorem Steak.grows_insert (steak : Steak) (t : Topic) (entry : AdmittanceInstructions) : steak.Grows (steak.insert t entry) := by
  intro t' h
  by_cases ht : t' = t
  · subst ht
    rw [AList.lookup_insert]
    rfl
  · rw [AList.lookup_insert_ne ht]
    exact h

def Told (vs : List TopicValidation) (steak : Steak) : Prop := ∀ v ∈ vs, v.Paired ∧ (steak.lookup v.topic).isSome

theorem Told.grows {vs : List TopicValidation} {steak steak' : Steak} (h : Told vs steak) (hg : steak.Grows steak') : Told vs steak' :=
  fun v hv => ⟨(h v hv).1, hg _ (h v hv).2⟩

section
variable {E : Engine} {bound : Bound}

theorem paired_findPrevious (topic : Topic) : ∀ l, Yields (findPrevious bound topic l) fun r => r.1.length = r.2.1.length
  | [] => yields_pure rfl
  | (input, i) :: rest => by
    have ih := paired_findPrevious topic rest
    unfold findPrevious
    split
    · exact ih
    · refine yields_after fun r => ?_
      match r with
      | .ok (some row) => exact yields_bind ih fun a ha => yields_pure (congrArg Nat.succ ha)
      | .ok none => exact ih
      | .error e => exact yields_bind ih fun a ha => yields_pure ha

theorem paired_validateTopic (tx : Tx) (topic : Topic) (offChainValues : Option Bytes) (mode : SubmitMode) (dryRun : Bool) :
    Yields (validateTopic E bound tx topic offChainValues mode dryRun) fun v => v.topic = topic ∧ v.Paired := by
  unfold validateTopic
  refine yields_after fun r => ?_
  match r with
  | .error e => exact yields_pure ⟨rfl, rfl⟩
  | .ok true => exact yields_pure ⟨rfl, rfl⟩
  | .ok false =>
    refine yields_bind (paired_findPrevious topic _) fun a ha => ?_
    refine yields_after fun answer => ?_
    match answer with
    | .error e => exact yields_pure ⟨rfl, rfl⟩
    | .ok admittance => exact yields_pure ⟨rfl, ha⟩

theorem paired_validateTopics (tx : Tx) (offChainValues : Option Bytes) (mode : SubmitMode) (dryRun : Bool) : ∀ topics,
    Yields (validateTopics E bound tx offChainValues mode dryRun topics) fun vs => ∀ v ∈ vs, v.Paired
  | [] => yields_pure fun v hv => by cases hv
  | topic :: rest => by
    refine yields_bind (paired_validateTopic _ _ _ _ _) fun v hv => ?_
    refine yields_bind (paired_validateTopics tx offChainValues mode dryRun rest) fun vs hvs => yields_pure fun u hu => ?_
    rcases List.mem_cons.mp hu with rfl | hu
    · exact hv.2
    · exact hvs u hu

theorem paired_runValidation (tagged : TaggedBeef) (mode : SubmitMode) (dryRun : Bool) (walked : Option (List Txid))
    (policy : WalkBreachPolicy) : Yields (runValidation E bound tagged mode dryRun walked policy) fun r =>
      ∀ p, r = .ok p → ∀ v ∈ p.1, v.Paired := by
  unfold runValidation
  split
  · exact yields_pure fun p h => by cases h
  · split
    · exact yields_pure fun p h => by cases h
    · simp only
      split
      · exact yields_pure fun p h => by cases h
      · exact yields_pure fun p h => by cases h
      · refine yields_bind (paired_validateTopics _ _ _ _ _) fun vs hvs => ?_
        refine yields_after fun _ => yields_pure fun p h => ?_
        cases h
        exact hvs

structure TopicTold (v : TopicValidation) (rule : Rule) (r : TopicValidation × Rule) : Prop where
  topic : r.1.topic = v.topic
  paired : v.Paired → r.1.Paired
  grows : rule.steak.Grows r.2.steak

theorem topicTold_same {rule rule' : Rule} (h : rule'.steak = rule.steak) : TopicTold v rule (v, rule') :=
  ⟨rfl, id, by rw [h]; exact rule.steak.grows_refl⟩

section
variable {sub : Subject} {beef : Beef} {mode : SubmitMode} {lander : Option Lander}

theorem told_successorLoop {manager : TopicManager} : ∀ fuel v names rule,
    Yields (successorLoop E bound sub beef mode lander manager fuel v names rule) (TopicTold v rule)
  | 0, _, _, _ => yields_pure (topicTold_same rfl)
  | fuel + 1, v, names, rule => by
    have ih := @told_successorLoop manager fuel
    unfold successorLoop
    simp only
    refine yields_after fun names => ?_
    split
    · exact yields_pure (topicTold_same rfl)
    · refine yields_after fun notLanded => ?_
      split
      · exact yields_pure (topicTold_same rfl)
      · split
        · exact yields_pure (topicTold_same rfl)
        · refine yields_after fun a => ?_
          obtain ⟨names, reads, answer⟩ := a
          simp only
          split
          · exact yields_pure (topicTold_same rfl)
          · split
            · exact yields_pure (topicTold_same rfl)
            · exact yields_pure (topicTold_same rfl)
            · split
              · exact yields_pure (topicTold_same rfl)
              · split
                · exact yields_pure (topicTold_same rfl)
                · refine yields_after fun b => ?_
                  obtain ⟨reads, landed, breaches, outcome⟩ := b
                  cases outcome with
                  | error e => exact yields_pure (topicTold_same rfl)
                  | ok =>
                    refine yields_bind (paired_validateTopic _ _ _ _ _) fun v' hv' => ?_
                    have grown : rule.steak.Grows (rule.steak.insert v'.topic v'.admittance) := rule.steak.grows_insert _ _
                    simp only
                    split
                    · exact (ih v' names _).mono fun r hr =>
                        ⟨hr.topic.trans hv'.1, fun _ => hr.paired hv'.2, grown.trans hr.grows⟩
                    · exact yields_pure ⟨hv'.1, fun _ => hv'.2, grown⟩

theorem steak_finishHeld (topic : Topic) (rule : Rule) :
    Yields (finishHeld bound sub topic rule) fun r => r.steak = rule.steak := by
  unfold finishHeld
  split
  · refine yields_after fun outputs => ?_
    match outputs with
    | .error e => exact yields_pure rfl
    | .ok outputs =>
      simp only
      split <;> exact yields_pure rfl
  · exact yields_pure rfl

theorem told_successorTopic (v : TopicValidation) (rule : Rule) :
    Yields (successorTopic E bound sub beef mode lander v rule) (TopicTold v rule) := by
  unfold successorTopic
  simp only
  split
  · exact yields_pure (topicTold_same rfl)
  · split
    · exact yields_pure (topicTold_same rfl)
    · refine yields_bind (told_successorLoop _ _ _ _) fun a ha => ?_
      refine yields_bind (steak_finishHeld _ _) fun rule' hr => ?_
      exact yields_pure ⟨ha.topic, ha.paired, by rw [hr]; exact ha.grows⟩

theorem told_successorsWaiting : ∀ vs rule, Told vs rule.steak →
    Yields (successorsWaiting E bound sub beef mode lander vs rule) fun r => Told r.1 r.2.steak ∧ rule.steak.Grows r.2.steak
  | [], rule, h => yields_pure ⟨h, rule.steak.grows_refl⟩
  | v :: rest, rule, h => by
    unfold successorsWaiting
    split
    · exact yields_pure ⟨h, rule.steak.grows_refl⟩
    · obtain ⟨hv, hrest⟩ := List.forall_mem_cons.mp h
      refine yields_bind (told_successorTopic v rule) fun a ha => ?_
      refine yields_bind (told_successorsWaiting rest a.2 (Told.grows hrest ha.grows)) fun b hb => yields_pure ⟨?_, ha.grows.trans hb.2⟩
      refine List.forall_mem_cons.mpr ⟨⟨ha.paired hv.1, ?_⟩, hb.1⟩
      rw [ha.topic]
      exact hb.2 _ (ha.grows _ hv.2)

end

theorem told_judgeCarried (tx : Tx) (offChainValues : Option Bytes) (mode : SubmitMode) (waits : AList fun _ : Topic => String) :
    ∀ vs steak, Told vs steak → Yields (judgeCarried E bound tx offChainValues mode waits vs steak) fun r =>
      Told r.1 r.2 ∧ steak.Grows r.2
  | [], steak, h => yields_pure ⟨h, steak.grows_refl⟩
  | v :: rest, steak, h => by
    obtain ⟨hv, hrest⟩ := List.forall_mem_cons.mp h
    unfold judgeCarried
    split
    · refine yields_after fun answer => ?_
      have grown : steak.Grows (steak.insert v.topic (v.answered answer).admittance) := steak.grows_insert _ _
      refine yields_bind (told_judgeCarried tx offChainValues mode waits rest _ (Told.grows hrest grown)) fun b hb =>
        yields_pure ⟨List.forall_mem_cons.mpr ⟨?_, hb.1⟩, grown.trans hb.2⟩
      cases answer with
      | ok admittance => exact ⟨hv.1, hb.2 _ (grown _ hv.2)⟩
      | error e => exact ⟨rfl, hb.2 _ (grown _ hv.2)⟩
    · refine yields_bind (told_judgeCarried tx offChainValues mode waits rest _ hrest) fun b hb =>
        yields_pure ⟨List.forall_mem_cons.mpr ⟨⟨hv.1, hb.2 _ hv.2⟩, hb.1⟩, hb.2⟩

theorem told_steakOf (vs : List TopicValidation) (h : ∀ v ∈ vs, v.Paired) : Told vs (steakOf vs) := by
  have grows (vs : List TopicValidation) : ∀ steak : Steak,
      steak.Grows (vs.foldl (fun steak v => steak.insert v.topic v.admittance) steak) := by
    induction vs with
    | nil => exact Steak.grows_refl
    | cons v vs ih => exact fun steak => (steak.grows_insert _ _).trans (ih _)
  have entered (vs : List TopicValidation) : ∀ steak : Steak, ∀ v ∈ vs,
      ((vs.foldl (fun steak v => steak.insert v.topic v.admittance) steak).lookup v.topic).isSome := by
    induction vs with
    | nil => intro _ v hv; cases hv
    | cons u vs ih =>
      intro steak v hv
      rcases List.mem_cons.mp hv with rfl | hv
      · exact grows vs _ _ (by rw [AList.lookup_insert]; rfl)
      · exact ih _ v hv
  exact fun v hv => ⟨h v hv, entered vs ∅ v hv⟩

theorem told_prepare {finalize : Bool} {walked : Option (List Txid)} {lander : Tx → Beef → Bool → Option Lander}
    {tagged : TaggedBeef} {mode : SubmitMode} {policy : WalkBreachPolicy} {reads : Nat} :
    Yields (prepare E bound finalize walked lander tagged mode policy reads) fun r =>
      ∀ p, r = .ok p → Told p.1 p.2.2.2.steak := by
  unfold prepare
  refine yields_bind (paired_runValidation _ _ _ _ _) fun r hr => ?_
  match r with
  | .error e => exact yields_pure fun p h => by cases h
  | .ok (vs, tx, couldNotRun) =>
    refine yields_after fun now => ?_
    simp only
    generalize hvs : (if finalize = true then vs.map (dropExpired E tx now) else vs) = vs'
    have paired : ∀ v ∈ vs', v.Paired := by
      rw [← hvs]
      split
      · intro v hv
        obtain ⟨u, hu, rfl⟩ := List.mem_map.mp hv
        have := hr _ rfl u hu
        unfold dropExpired
        split <;> exact this
      · exact hr _ rfl
    refine yields_bind (told_successorsWaiting vs' _ (told_steakOf vs' paired)) fun a ha => ?_
    refine yields_bind (F := fun q => Told q.1 q.2) ?_ fun q hq => yields_pure fun p h => ?_
    · unfold judgeIf
      split
      · exact (told_judgeCarried _ _ _ _ _ _ ha.1).mono fun _ h => h.1
      · exact yields_pure ha.1
    · cases h
      exact hq

/-! ## What Phase 3 puts in the STEAK -/

theorem steak_mutate (sub : Subject) (waits : AList fun _ : Topic => String) : ∀ vs steak r,
    Yields (mutate E bound sub waits vs (steak, r)) fun p => p.1 = vs.foldl (fun steak v => steakRemoved waits v steak) steak
  | [], _, _ => yields_pure rfl
  | _ :: rest, _, _ => yields_after fun _ => steak_mutate sub waits rest _ _

end

theorem passed_eq (waits : AList fun _ : Topic => String) (v : TopicValidation) :
    (v.isDupe || v.failed || v.readFault.isSome || (waits.lookup v.topic).isSome) = !v.applies waits := by
  unfold TopicValidation.applies TopicValidation.judged
  cases v.isDupe <;> cases v.failed <;> cases v.readFault <;> cases waits.lookup v.topic <;> rfl

variable {waits : AList fun _ : Topic => String}

theorem steakRemoved_of_applies (h : v.applies waits = true)
    {steak : Steak} {entry : AdmittanceInstructions} (he : steak.lookup v.topic = some entry) :
    steakRemoved waits v steak = steak.insert v.topic { entry with coinsRemoved := some v.coinsRemoved } := by
  unfold steakRemoved
  rw [passed_eq, h, he]
  rfl

theorem lookup_steakRemoved_ne {u : TopicValidation} {t : Topic} {steak : Steak}
    (h : u.topic = t → u.applies waits = false) : (steakRemoved waits u steak).lookup t = steak.lookup t := by
  unfold steakRemoved
  rw [passed_eq]
  by_cases ht : u.topic = t
  · rw [h ht]
    rfl
  · split
    · rfl
    · split
      · exact AList.lookup_insert_ne (Ne.symm ht)
      · rfl

theorem grows_steakRemoved (waits : AList fun _ : Topic => String) (v : TopicValidation) (steak : Steak) :
    steak.Grows (steakRemoved waits v steak) := by
  unfold steakRemoved
  split
  · exact steak.grows_refl
  · split
    · exact steak.grows_insert _ _
    · exact steak.grows_refl

theorem lookup_foldl_steakRemoved {post : List TopicValidation}
    (hv : v.applies waits = true) (hlast : ∀ u ∈ post, u.topic = v.topic → u.applies waits = false) :
    ∀ (pre : List TopicValidation) (steak : Steak), (steak.lookup v.topic).isSome →
      ∃ entry, ((pre ++ v :: post).foldl (fun steak v => steakRemoved waits v steak) steak).lookup v.topic = some entry ∧
        entry.coinsRemoved = some v.coinsRemoved
  | u :: pre, steak, h =>
    lookup_foldl_steakRemoved hv hlast pre _ (grows_steakRemoved waits u steak _ h)
  | [], steak, h => by
    have later (l : List TopicValidation) (hl : ∀ u ∈ l, u.topic = v.topic → u.applies waits = false) : ∀ s : Steak,
        (l.foldl (fun steak v => steakRemoved waits v steak) s).lookup v.topic = s.lookup v.topic := by
      induction l with
      | nil => exact fun _ => rfl
      | cons u l ih =>
        obtain ⟨hu, hl⟩ := List.forall_mem_cons.mp hl
        exact fun s => (ih hl _).trans (lookup_steakRemoved_ne hu)
    obtain ⟨entry, he⟩ := Option.isSome_iff_exists.mp h
    rw [List.nil_append, List.foldl_cons, later post hlast, steakRemoved_of_applies hv he]
    exact ⟨_, AList.lookup_insert _, rfl⟩

/-- A submit tells the stale inputs of a topic it applies if and only if no
retained coin of the topic stands before a stale one. -/
theorem submitCounted_tells_stale {E : Engine} {bound : Bound} {finalize : Bool} {walked : Option (List Txid)}
    {lander : Tx → Beef → Bool → Option Lander} {tagged : TaggedBeef} {mode : SubmitMode} {policy : WalkBreachPolicy} {reads : Nat}
    {w w' : World Db} {vs pre post : List TopicValidation} {v : TopicValidation} {sub : Subject} {stop : Option WalkCouldNotRun}
    {rule : Rule}
    (hprepare : prepare E bound finalize walked lander tagged mode policy reads w = (.ok (vs, sub, stop, rule), w'))
    (hvs : vs = pre ++ v :: post) (hv : v.applies rule.waits = true)
    (hlast : ∀ u ∈ post, u.topic = v.topic → u.applies rule.waits = false) :
    ∃ counted entry, (submitCounted E bound finalize walked lander tagged mode policy reads w).1 = .ok counted ∧
      counted.steak.lookup v.topic = some entry ∧ (entry.coinsRemoved = some v.staleInputs ↔ v.StaleFirst) := by
  have told : Told vs rule.steak := by
    have ended : ∀ p, (prepare E bound finalize walked lander tagged mode policy reads w).1 = .ok p → Told p.1 p.2.2.2.steak :=
      told_prepare w
    rw [hprepare] at ended
    exact ended _ rfl
  have hmem : v ∈ vs := by rw [hvs]; simp
  have hrun : submitCounted E bound finalize walked lander tagged mode policy reads w =
      (mutate E bound sub rule.waits vs
          (rule.steak, { walkCouldNotRun := stop, landedPredecessors := rule.landed, landedWalksCouldNotRun := rule.breaches }) >>=
        fun p => pure (.ok ⟨p.1, p.2, rule.blocked, rule.reads⟩) : M (Except EngineError Counted)) w' := by
    unfold submitCounted
    exact bind_run hprepare _
  have hsteak : (mutate E bound sub rule.waits vs (rule.steak, { walkCouldNotRun := stop, landedPredecessors := rule.landed
                                                                 landedWalksCouldNotRun := rule.breaches }) w').1.1 =
      vs.foldl (fun steak v => steakRemoved rule.waits v steak) rule.steak := steak_mutate sub rule.waits vs rule.steak _ w'
  obtain ⟨entry, he, hremoved⟩ := lookup_foldl_steakRemoved hv hlast pre rule.steak (told v hmem).2
  rw [hrun]
  refine ⟨_, entry, rfl, ?_, ?_⟩
  · refine Eq.trans (congrArg (fun s : Steak => s.lookup v.topic) hsteak) ?_
    rw [hvs]
    exact he
  · rw [hremoved, Option.some.injEq]
    exact coinsRemoved_iff (told v hmem).1

/-- A manager that admits the first output and retains the coins of `retain`. -/
def retaining (retain : List Nat) : TopicManager where
  identifyAdmissibleOutputs _ _ _ _ _ _ := .ok { outputsToAdmit := [0], coinsToRetain := retain }
  identifyNeededInputs _ _ := .ok []
  syncExpiry _ := none
  readsOffChainValues := false

def TellsStale (E : Engine) (bound : Bound) (tagged : TaggedBeef) (mode : SubmitMode) (w : World Db) : Prop :=
  let lander := fun tx beef ran => some (landCarried E bound mode .notNow tx beef ran)
  ∀ vs sub stop rule w', prepare E bound false none lander tagged mode .notNow 0 w = (.ok (vs, sub, stop, rule), w') →
    ∀ v ∈ vs, v.applies rule.waits = true → ∃ counted entry,
      (submitCounted E bound false none lander tagged mode .notNow 0 w).1 = .ok counted ∧
      counted.steak.lookup v.topic = some entry ∧ entry.coinsRemoved = some v.staleInputs

/-- `T` spends a coin of `P` and a coin of `B`, and the manager retains the second. -/
theorem spendsPB_tells_stale : ∃ counted entry,
    (submitCounted (oneManager (retaining [1])) none false none (fun _ _ _ => none) (taggedOf [spendsPB] ["t"]) .historicalTx .notNow 0
      (worldOf [unspentRow "P", unspentRow "B"] [])).1 = .ok counted ∧
    counted.steak.lookup "t" = some entry ∧ entry.coinsRemoved = some [0] := by
  obtain ⟨counted, entry, h, he, hiff⟩ := @submitCounted_tells_stale (oneManager (retaining [1])) none false none (fun _ _ _ => none)
    (taggedOf [spendsPB] ["t"]) .historicalTx .notNow 0 (worldOf [unspentRow "P", unspentRow "B"] []) _ _ [] [] _ _ _ _ rfl rfl rfl
    (fun _ hu => nomatch hu)
  exact ⟨counted, entry, h, he, hiff.mpr (by decide)⟩

/-- The manager retains the first: the STEAK names it, and the second is stale. -/
theorem spendsPB_not_tellsStale : ¬ TellsStale (oneManager (retaining [0])) none (taggedOf [spendsPB] ["t"]) .historicalTx
    (worldOf [unspentRow "P", unspentRow "B"] []) := by
  intro h
  obtain ⟨counted, entry, hc, he, hr⟩ := h _ _ _ _ _ rfl _ (List.mem_singleton.mpr rfl) rfl
  have told : (submitCounted (oneManager (retaining [0])) none false none
      (fun tx beef ran => some (landCarried (oneManager (retaining [0])) none .historicalTx .notNow tx beef ran))
      (taggedOf [spendsPB] ["t"]) .historicalTx .notNow 0 (worldOf [unspentRow "P", unspentRow "B"] [])).1.toOption.bind
      (fun c => (c.steak.lookup "t").bind AdmittanceInstructions.coinsRemoved) = some [0] := by decide +kernel
  rw [hc, show (Except.ok counted : Except EngineError Counted).toOption = some counted from rfl, Option.bind_some, show counted.steak.lookup "t" = some entry from he, Option.bind_some,
    show entry.coinsRemoved = some [1] from hr] at told
  cases told

end OverlayEngine
