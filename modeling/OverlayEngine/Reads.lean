import OverlayEngine.Frame

/-!
# What the reading phases answer

Validation, the propagation and the predecessor question change no row. Over
a store `s` a validation that is judged found exactly the coins `s` holds, and
the question names a carried predecessor only when `s` holds none of its
outputs in the topic.
-/

namespace OverlayEngine

open Faulty

/-- Over the store `s`, `x` leaves `s` and answers in `P`. -/
abbrev Reads [Faults] {α : Type} (s : Store) (x : M α) (P : α → Prop) : Prop := Ensures (fun d => d.store = s) x P

section
variable [Faults] {α β : Type} {s : Store}

theorem keeps_of_reads {I : Store → Prop} {x : M α} {P : Store → α → Prop} (h : ∀ s, Reads s x (P s)) :
    KeepsStore I x := by
  intro w ha hw
  obtain ⟨⟨h1, _⟩, h2⟩ := h w.state.store w ha rfl
  exact ⟨show I _ from h1 ▸ hw, h2⟩

theorem reads_read (f : Db → α) : Reads s (read f) fun _ => True := triple_read fun _ hd => ⟨hd, trivial⟩

theorem reads_get {bound : Bound} (g : Store → α) :
    Reads s (call bound id fun d : Db => g d.store) fun r => ∀ a, r = .ok a → a = g s := by
  refine triple_get (fun d hd => ⟨hd, ?_⟩) (fun e d hd => ⟨hd, fun a h => by cases h⟩)
  intro a h
  cases h
  rw [hd]

theorem reads_asked {bound : Bound} : Reads s (asked bound) fun _ => True := by
  exact triple_asked.conseq (fun _ h => h) fun _ _ h => ⟨h, trivial⟩

theorem reads_nextAsk : Reads s nextAsk fun _ => True := by
  refine ensures_bind (reads_read _) fun n _ => ?_
  refine ensures_bind (F := fun _ => True) ?_ fun _ _ => ensures_pure trivial
  exact triple_update fun _ h => ⟨h, trivial⟩

end

/-! ## Validation -/

/-- The previous coins `s` holds: the index of the input and the row. -/
def Store.previousOf (s : Store) (topic : Topic) (inputs : List (TxInput × Nat)) : List (Nat × Output) :=
  inputs.filterMap fun p => (p.1.spends.bind fun o => s.find (o, topic)).map fun row => (p.2, row)

variable {topic : Topic} {s : Store}

theorem mem_previousOf {l : List (TxInput × Nat)} {i : Nat} {row : Output} :
    (i, row) ∈ s.previousOf topic l ↔ ∃ p ∈ l, p.2 = i ∧ p.1.spends = some row.outpoint ∧
      s.find (row.outpoint, topic) = some row := by
  unfold Store.previousOf
  rw [List.mem_filterMap]
  constructor
  · intro ⟨p, hp, h⟩
    obtain ⟨row', h1, h2⟩ := Option.map_eq_some_iff.mp h
    obtain ⟨o, ho, hf⟩ := Option.bind_eq_some_iff.mp h1
    cases h2
    have hk := (Store.find_keyed hf).1
    exact ⟨p, hp, rfl, by rw [ho, hk], by rw [hk]; exact hf⟩
  · intro ⟨p, hp, hi, ho, hf⟩
    refine ⟨p, hp, ?_⟩
    rw [ho, Option.bind_some, hf, Option.map_some, hi]

theorem mem_spent_iff {tx : Tx} {o : Outpoint} : o ∈ tx.spent ↔ ∃ p ∈ tx.inputs.zipIdx, p.1.spends = some o := by
  unfold Tx.spent
  rw [List.mem_filterMap]
  constructor
  · intro ⟨a, ha, h⟩
    obtain ⟨n, hn, rfl⟩ := List.mem_iff_getElem.mp ha
    exact ⟨(tx.inputs[n], n), by simp [List.mk_mem_zipIdx_iff_getElem?, hn], h⟩
  · intro ⟨p, hp, h⟩
    exact ⟨p.1, (List.mem_zipIdx' hp).2 ▸ List.getElem_mem _, h⟩

/-- What a validation of `tx` over `s` is. -/
structure Validated (E : Engine) (s : Store) (tx : Tx) (offChainValues : Option Bytes) (mode : SubmitMode)
    (dryRun : Bool) (v : TopicValidation) : Prop where
  previous : ∃ ps : List (Nat × Output), ps.Sublist (s.previousOf v.topic tx.inputs.zipIdx) ∧ v.previousCoins = ps.map Prod.fst ∧
    v.previousOutputs = ps.map Prod.snd
  all : v.judged → v.previousCoins = (s.previousOf v.topic tx.inputs.zipIdx).map Prod.fst ∧
    v.previousOutputs = (s.previousOf v.topic tx.inputs.zipIdx).map Prod.snd
  answer : v.judged → ∃ manager n, E.managers v.topic = some manager ∧
    manager.identifyAdmissibleOutputs n tx v.previousCoins offChainValues mode dryRun = .ok v.admittance
  notApplied : v.judged → s.isApplied tx.id v.topic = false
  dupe : v.isDupe = true → s.isApplied tx.id v.topic = true
  fault : ∀ site e, v.readFault = some (site, e) → site = .findOutput ∨ site = .doesAppliedTransactionExist

section
variable [Faults] {E : Engine} {bound : Bound} {s : Store}

theorem reads_findPrevious (topic : Topic) : ∀ l,
    Reads s (findPrevious bound topic l) fun r => ∃ ps : List (Nat × Output), ps.Sublist (s.previousOf topic l) ∧ r.1 = ps.map Prod.fst ∧
      r.2.1 = ps.map Prod.snd ∧ (r.2.2 = none → ps = s.previousOf topic l) ∧
      ∀ site e, r.2.2 = some (site, e) → site = .findOutput
  | [] => ensures_pure ⟨[], List.Sublist.refl _, rfl, rfl, fun _ => rfl, fun _ _ h => by cases h⟩
  | (input, i) :: rest => by
    have ih := reads_findPrevious topic rest
    have hcons : s.previousOf topic ((input, i) :: rest) =
        (((input.spends.bind fun o => s.find (o, topic)).map fun row => (i, row)).toList) ++
          s.previousOf topic rest := by
      unfold Store.previousOf
      rw [List.filterMap_cons]
      cases input.spends.bind fun o => s.find (o, topic) <;> rfl
    unfold findPrevious
    split
    · rename_i hs
      rw [hcons, hs]
      exact ih
    · rename_i o hs
      refine ensures_bind (reads_get fun s => s.find (o, topic)) fun r hr => ?_
      match r with
      | .ok (some row) =>
        have hf : s.find (o, topic) = some row := (hr _ rfl).symm
        refine ensures_bind ih fun a ha => ?_
        obtain ⟨ps, h1, h2, h3, h4, h5⟩ := ha
        refine ensures_pure ⟨(i, row) :: ps, ?_, by simp [h2], by simp [h3], ?_, h5⟩
        · rw [hcons, hs]
          simpa [hf] using h1
        · intro hn
          rw [hcons, hs, h4 hn]
          simp [hf]
      | .ok none =>
        have hf : s.find (o, topic) = none := (hr _ rfl).symm
        rw [hcons, hs]
        simpa [hf] using ih
      | .error e =>
        refine ensures_bind ih fun a ha => ?_
        obtain ⟨ps, h1, h2, h3, _⟩ := ha
        refine ensures_pure ⟨ps, ?_, h2, h3, fun hn => (by cases hn), fun site e h => ?_⟩
        · rw [hcons]
          exact h1.trans (List.sublist_append_right _ _)
        · cases h
          rfl

theorem reads_judge (tx : Tx) (topic : Topic) (coins : List Nat) (offChainValues : Option Bytes) (mode : SubmitMode)
    (dryRun : Bool) : Reads s (judge E bound tx topic coins offChainValues mode dryRun) fun r =>
      ∀ admittance, r = .ok admittance → ∃ manager n, E.managers topic = some manager ∧
        manager.identifyAdmissibleOutputs n tx coins offChainValues mode dryRun = .ok admittance := by
  unfold judge
  split
  · exact ensures_pure fun a h => by cases h
  · rename_i manager hm
    refine ensures_bind reads_nextAsk fun n _ => ?_
    refine ensures_bind reads_asked fun r _ => ?_
    match r with
    | .error e => exact ensures_pure fun a h => by cases h
    | .ok () => exact ensures_pure fun a h => ⟨manager, n, hm, h⟩

theorem reads_validateTopic (tx : Tx) (topic : Topic) (offChainValues : Option Bytes) (mode : SubmitMode)
    (dryRun : Bool) : Reads s (validateTopic E bound tx topic offChainValues mode dryRun) fun v =>
      v.topic = topic ∧ Validated E s tx offChainValues mode dryRun v := by
  unfold validateTopic
  refine ensures_bind (reads_get fun s => s.isApplied tx.id topic) fun r hr => ?_
  match r with
  | .error e =>
    refine ensures_pure ⟨rfl, ⟨⟨[], List.nil_sublist _, rfl, rfl⟩, ?_, ?_, ?_, ?_, ?_⟩⟩
    case refine_5 => intro site e h; cases h; exact Or.inr rfl
    all_goals intro h; cases h
  | .ok true =>
    refine ensures_pure ⟨rfl, ⟨⟨[], List.nil_sublist _, rfl, rfl⟩, ?_, ?_, ?_, fun _ => (hr _ rfl).symm, ?_⟩⟩
    case refine_4 => intro site e h; cases h
    all_goals intro h; cases h
  | .ok false =>
    refine ensures_bind (reads_findPrevious topic _) fun a ha => ?_
    obtain ⟨ps, h1, h2, h3, h4, h5⟩ := ha
    refine ensures_bind (reads_judge _ _ _ _ _ _) fun b hb => ?_
    match b with
    | .error e =>
      refine ensures_pure ⟨rfl, ⟨⟨[], List.nil_sublist _, rfl, rfl⟩, ?_, ?_, ?_, ?_, fun site e h => Or.inl (h5 site e h)⟩⟩
      all_goals intro h; cases h
    | .ok admittance =>
      refine ensures_pure ⟨rfl, ⟨⟨ps, h1, h2, h3⟩, ?_, fun _ => hb _ rfl, fun _ => (hr _ rfl).symm, ?_,
        fun site e h => Or.inl (h5 site e h)⟩⟩
      · intro hj
        have hn : a.2.2 = none := by
          simpa [TopicValidation.judged] using hj
        have hps := h4 hn
        subst hps
        exact ⟨h2, h3⟩
      · intro h
        cases h

theorem reads_validateTopics (tx : Tx) (offChainValues : Option Bytes) (mode : SubmitMode) (dryRun : Bool) : ∀ topics,
    Reads s (validateTopics E bound tx offChainValues mode dryRun topics) fun vs =>
      vs.map TopicValidation.topic = topics ∧ ∀ v ∈ vs, Validated E s tx offChainValues mode dryRun v
  | [] => ensures_pure ⟨rfl, fun v hv => by cases hv⟩
  | topic :: rest => by
    refine ensures_bind (reads_validateTopic _ _ _ _ _) fun v hv => ?_
    refine ensures_bind (reads_validateTopics tx offChainValues mode dryRun rest) fun vs hvs => ?_
    refine ensures_pure ⟨by simp [hv.1, hvs.1], ?_⟩
    intro v' hv'
    rcases List.mem_cons.mp hv' with rfl | hm
    · exact hv.2
    · exact hvs.2 v' hm

variable {offChainValues : Option Bytes}

omit [Faults] in
theorem Validated.found {tx : Tx} {mode : SubmitMode} {dryRun : Bool}
    {v : TopicValidation} (h : Validated E s tx offChainValues mode dryRun v) : Found tx v := by
  intro row hr
  obtain ⟨ps, hsub, -, h3⟩ := h.previous
  rw [h3] at hr
  obtain ⟨⟨i, row'⟩, hm, rfl⟩ := List.mem_map.mp hr
  obtain ⟨p, hp, -, ho, -⟩ := mem_previousOf.mp (hsub.subset hm)
  exact mem_spent_iff.mpr ⟨p, hp, ho⟩

omit [Faults] in
theorem Validated.held {tx : Tx} {mode : SubmitMode} {dryRun : Bool}
    {v : TopicValidation} (h : Validated E s tx offChainValues mode dryRun v) (hj : v.judged = true) {o : Outpoint}
    {row : Output} (ho : o ∈ tx.spent) (hf : s.find (o, v.topic) = some row) : row ∈ v.previousOutputs := by
  obtain ⟨p, hp, hs⟩ := mem_spent_iff.mp ho
  have hk := (Store.find_keyed hf).1
  have hm : (p.2, row) ∈ s.previousOf v.topic tx.inputs.zipIdx :=
    mem_previousOf.mpr ⟨p, hp, rfl, by rw [hs, hk], by rw [hk]; exact hf⟩
  rw [(h.all hj).2]
  exact List.mem_map_of_mem (f := Prod.snd) hm

/-! ## Propagation -/

theorem reads_readPeers : ∀ l, Reads s (readPeers l) fun _ => True
  | [] => ensures_pure trivial
  | k :: rest => ensures_bind (reads_get fun s => s.find k) fun _ _ => reads_readPeers rest

theorem reads_propagate (peers : Topic → Except String (List Key)) : ∀ vs, Reads s (propagate peers vs) fun _ => True
  | [] => ensures_pure trivial
  | _ :: rest => ensures_bind (reads_readPeers _) fun _ _ => reads_propagate peers rest

theorem reads_runValidation (tagged : TaggedBeef) (mode : SubmitMode) (dryRun : Bool) (walked : Option (List Txid))
    (policy : WalkBreachPolicy) : Reads s (runValidation E bound tagged mode dryRun walked policy) fun r =>
      ∀ vs tx stop, r = .ok (vs, tx, stop) →
        transactionFromBeef tagged.beef (subjectTxidOf E tagged.beef) = .ok tx ∧
        vs.map TopicValidation.topic = tagged.topics ∧
        ∀ v ∈ vs, Validated E s tx tagged.offChainValues mode dryRun v := by
  unfold runValidation
  split
  · exact ensures_pure fun _ _ _ h => by cases h
  · split
    · exact ensures_pure fun _ _ _ h => by cases h
    · rename_i tx htx
      simp only
      split
      · exact ensures_pure fun _ _ _ h => by cases h
      · exact ensures_pure fun _ _ _ h => by cases h
      · refine ensures_bind (reads_validateTopics _ _ _ _ _) fun vs hvs => ?_
        refine ensures_bind (reads_propagate _ vs) fun _ _ => ?_
        refine ensures_pure fun vs' tx' stop h => ?_
        cases h
        exact ⟨htx, hvs⟩

end

/-! ## The predecessor question -/

/-- `P` holds of what `tx` spends and is closed along the spends of the bodies `beef` carries. -/
structure Along (P : Txid → Prop) (beef : Beef) (tx : Tx) : Prop where
  start : ∀ o ∈ tx.spent, P o.txid
  next : ∀ body ∈ beef.bodies, P body.id → ∀ o ∈ body.spent, P o.txid

/-- `c` is in `P`, and `s` holds none of its outputs in `topic`. -/
structure Unlanded (P : Txid → Prop) (s : Store) (topic : Topic) (c : Txid) : Prop where
  reached : P c
  absent : ∀ i, s.find (⟨c, i⟩, topic) = none

def NamesUnlanded (P : Txid → Prop) (s : Store) (topic : Topic) (answer : Option NotNow) : Prop :=
  ∀ notNow c, answer = some notNow → notNow.carried = some c → Unlanded P s topic c

variable {P : Txid → Prop}

theorem namesUnlanded_none :
    NamesUnlanded P s topic none := fun _ _ h => by cases h

theorem namesUnlanded_why {why : String} :
    NamesUnlanded P s topic (some { why := why }) := by
  intro notNow c h hc
  cases h
  cases hc

theorem namesUnlanded_carried {why : String} {c : Txid}
    (h : Unlanded P s topic c) : NamesUnlanded P s topic (some { why := why, carried := some c }) := by
  intro notNow c' hn hc
  cases hn
  cases hc
  exact h

section
variable [Faults] {E : Engine} {bound : Bound} {s : Store} {manager : TopicManager} {tx : Tx} {beef : Beef} {topic : Topic}
  {mode : SubmitMode} {P : Txid → Prop}

theorem reads_namedHistory (b : Beef) : Reads s (namedHistory bound manager b) fun _ => True := by
  refine ensures_bind reads_nextAsk fun n _ => ?_
  refine ensures_bind reads_asked fun r _ => ?_
  match r with
  | .error e => exact ensures_pure trivial
  | .ok () =>
    simp only
    split <;> exact ensures_pure trivial

theorem reads_askSubjectNames (names : Option (List Outpoint)) :
    Reads s (askSubjectNames bound manager beef names) fun _ => True := by
  unfold askSubjectNames
  split
  · exact ensures_pure trivial
  · exact reads_namedHistory _

theorem reads_askCoins (candidate : Txid) : ∀ inputs reads,
    Reads s (askCoins bound topic candidate reads inputs) fun r =>
      (∀ notNow, r.2 = .error notNow → ∀ c, notNow.carried = some c → c = candidate) ∧
      ∀ unheld, r.2 = .ok unheld → unheld ⊆ inputs.filterMap TxInput.spends
  | [], _ => ensures_pure ⟨fun _ h => (by cases h), fun _ h => (by cases h; simp)⟩
  | input :: rest, reads => by
    unfold askCoins
    split
    · rename_i hs
      rw [List.filterMap_cons_none hs]
      exact reads_askCoins candidate rest reads
    · rename_i o hs
      rw [List.filterMap_cons_some hs]
      split
      · refine ensures_pure ⟨?_, fun _ h => by cases h⟩
        intro notNow h c hc
        cases h
        cases hc
      · refine ensures_bind (reads_get fun s => s.find (o, topic)) fun r _ => ?_
        match r with
        | .ok (some row) =>
          refine ensures_pure ⟨?_, fun _ h => by cases h⟩
          intro notNow h c hc
          cases h
          cases hc
          rfl
        | .error e =>
          refine ensures_pure ⟨?_, fun _ h => by cases h⟩
          intro notNow h c hc
          cases h
          cases hc
        | .ok none =>
          refine ensures_bind (reads_askCoins candidate rest (reads + 1)) fun a ha => ?_
          obtain ⟨reads', answer⟩ := a
          cases answer with
          | error notNow =>
            refine ensures_pure ⟨?_, fun _ h => by cases h⟩
            intro notNow' h
            cases h
            exact ha.1 _ rfl
          | ok unheld =>
            refine ensures_pure ⟨fun _ h => (by cases h), ?_⟩
            intro unheld' h
            cases h
            exact List.cons_subset_cons _ (ha.2 _ rfl)

theorem reads_spenderNames (spender : Txid) (q : Question) :
    Reads s (spenderNames E bound manager tx beef spender q) fun r => r.1.ask = q.ask := by
  unfold spenderNames
  split
  · exact ensures_bind (reads_askSubjectNames _) fun names _ => ensures_pure rfl
  · split
    · exact ensures_pure rfl
    · exact ensures_bind (reads_namedHistory _) fun names _ => ensures_pure rfl
    · exact ensures_pure rfl

theorem reads_namedOutputs (candidate : Txid) : ∀ l q,
    Reads s (namedOutputs E bound manager tx beef candidate q l) fun r => r.1.ask = q.ask
  | [], _ => ensures_pure rfl
  | (spender, vout) :: rest, q => by
    refine ensures_bind (reads_spenderNames spender q) fun a ha => ?_
    refine ensures_bind (reads_namedOutputs candidate rest a.1) fun b hb => ?_
    exact ensures_pure (hb.trans ha)

theorem reads_dryRun (candidate : Txid) (body : Tx) (named : List Nat) (h : Unlanded P s topic candidate) :
    Reads s (dryRun bound manager mode candidate body named) (NamesUnlanded P s topic) := by
  refine ensures_bind reads_nextAsk fun n _ => ?_
  refine ensures_bind reads_asked fun r _ => ?_
  match r with
  | .error e => exact ensures_pure namesUnlanded_why
  | .ok () =>
    simp only
    split
    · split
      · exact ensures_pure (namesUnlanded_carried h)
      · exact ensures_pure namesUnlanded_none
    · exact ensures_pure namesUnlanded_none
    · exact ensures_pure namesUnlanded_why

theorem reads_asksStore (foundCoin : Bool) (direct : List Txid) (candidate : Txid) (spentOutputs : List (Txid × Nat))
    (q : Question) : Reads s (asksStore bound manager beef foundCoin direct candidate spentOutputs q) fun r =>
      r.1.ask = q.ask := by
  unfold asksStore
  split
  · exact ensures_pure rfl
  · split
    · exact ensures_pure rfl
    · exact ensures_bind (reads_askSubjectNames _) fun names _ => ensures_pure rfl

omit [Faults] in
theorem absent_of_outputsOf {c : Txid} (h : (s.outputsOf c).any (fun o => decide (o.topic = topic)) = false) (i : Nat) :
    s.find (⟨c, i⟩, topic) = none := by
  cases hf : s.find (⟨c, i⟩, topic) with
  | none => rfl
  | some row =>
    have hm : row ∈ s.outputsOf c := Store.mem_outputsOf.mpr ⟨_, rfl, hf⟩
    have ht := (Store.find_keyed hf).2
    have := List.any_eq_false.mp h row hm
    simp [ht] at this

theorem reads_askCandidate (hP : Along P beef tx) (foundCoin : Bool) (direct : List Txid) {candidate : Txid}
    (hc : P candidate) {q : Question} (hq : ∀ c ∈ q.ask, P c) :
    Reads s (askCandidate E bound manager tx beef topic mode foundCoin direct candidate q) fun r =>
      (∀ c ∈ r.1.ask, P c) ∧ NamesUnlanded P s topic r.2 := by
  unfold askCandidate
  refine ensures_bind (reads_asksStore _ _ _ _ _) fun a ha => ?_
  obtain ⟨q1, asks⟩ := a
  have hq1 : ∀ c ∈ q1.ask, P c := by rw [show q1.ask = q.ask from ha]; exact hq
  simp only
  split
  · exact ensures_pure ⟨hq1, namesUnlanded_none⟩
  · split
    · exact ensures_pure ⟨hq1, namesUnlanded_why⟩
    · refine ensures_bind (reads_get fun s => s.isApplied candidate topic) fun r _ => ?_
      match r with
      | .error e => exact ensures_pure ⟨hq1, namesUnlanded_why⟩
      | .ok true => exact ensures_pure ⟨hq1, namesUnlanded_none⟩
      | .ok false =>
        simp only
        split
        · exact ensures_pure ⟨hq1, namesUnlanded_why⟩
        · refine ensures_bind (reads_get fun s => s.outputsOf candidate) fun r hr => ?_
          match r with
          | .error e => exact ensures_pure ⟨hq1, namesUnlanded_why⟩
          | .ok outputs =>
            have ho : outputs = s.outputsOf candidate := hr _ rfl
            subst ho
            simp only
            split
            · exact ensures_pure ⟨hq1, namesUnlanded_none⟩
            · rename_i hany
              split
              · exact ensures_pure ⟨hq1, namesUnlanded_why⟩
              · rename_i body hbody
                obtain ⟨hmem, hid⟩ := Beef.body_mem hbody
                have hun : Unlanded P s topic candidate :=
                  ⟨hc, absent_of_outputsOf (Bool.eq_false_iff.mpr hany)⟩
                refine ensures_bind (reads_askCoins candidate _ _) fun b hb => ?_
                obtain ⟨reads, coins⟩ := b
                cases coins with
                | error notNow =>
                  refine ensures_pure ⟨hq1, ?_⟩
                  intro notNow' c' h h'
                  cases h
                  rw [hb.1 _ rfl c' h']
                  exact hun
                | ok unheld =>
                  have hnew : ∀ c ∈ q1.ask ++ unheld.map Outpoint.txid, P c := by
                    intro c hm
                    rcases List.mem_append.mp hm with hm | hm
                    · exact hq1 c hm
                    · obtain ⟨o, ho, rfl⟩ := List.mem_map.mp hm
                      exact hP.next body hmem (by rw [hid]; exact hc) o (hb.2 _ rfl ho)
                  simp only
                  refine ensures_bind (reads_namedOutputs _ _ _) fun a ha => ?_
                  obtain ⟨q2, named⟩ := a
                  have hq2 : ∀ c ∈ q2.ask, P c := by rw [show q2.ask = _ from ha]; exact hnew
                  simp only
                  split
                  · exact ensures_pure ⟨hq2, namesUnlanded_none⟩
                  · exact ensures_bind (reads_dryRun candidate body named hun) fun verdict hv => ensures_pure ⟨hq2, hv⟩

theorem reads_askWalk (hP : Along P beef tx) (foundCoin : Bool) (direct : List Txid) : ∀ fuel q, (∀ c ∈ q.ask, P c) →
    Reads s (askWalk E bound manager tx beef topic mode foundCoin direct fuel q) fun r =>
      NamesUnlanded P s topic r.2
  | 0, _, _ => ensures_pure namesUnlanded_none
  | fuel + 1, q, hq => by
    unfold askWalk
    split
    · exact ensures_pure namesUnlanded_none
    · rename_i candidate rest hask
      have hrest : ∀ c ∈ rest, P c := fun c hc => hq c (by rw [hask]; exact List.mem_cons_of_mem _ hc)
      split
      · exact reads_askWalk hP foundCoin direct fuel _ hrest
      · have hc : P candidate := hq candidate (by rw [hask]; exact List.mem_cons_self ..)
        refine ensures_bind (reads_askCandidate hP foundCoin direct hc hrest) fun a ha => ?_
        obtain ⟨q1, answer⟩ := a
        cases answer with
        | some notNow => exact ensures_pure ha.2
        | none => exact reads_askWalk hP foundCoin direct fuel _ ha.1

theorem reads_unlandedPredecessor (hP : Along P beef tx) (namedOnly : Bool) (held : List Outpoint) (foundCoin : Bool)
    (subjectNames : Option (List Outpoint)) (reads : Nat) :
    Reads s (unlandedPredecessor E bound manager tx beef topic mode namedOnly held foundCoin subjectNames reads)
      fun r => NamesUnlanded P s topic r.2.2 := by
  unfold unlandedPredecessor
  simp only
  split
  · exact ensures_pure namesUnlanded_none
  · refine ensures_bind (reads_askWalk hP _ _ _ _ ?_) fun a ha => ensures_pure ha
    intro c hc
    obtain ⟨o, ho, rfl⟩ := List.mem_map.mp hc
    exact hP.start o (List.mem_filter.mp ho).1

theorem reads_namesIf (needed : Bool) (names : Option (List Outpoint)) :
    Reads s (namesIf bound beef needed manager names) fun _ => True := by
  unfold namesIf
  split
  · exact ensures_bind (reads_namedHistory _) fun _ _ => ensures_pure trivial
  · exact ensures_pure trivial

end

end OverlayEngine
