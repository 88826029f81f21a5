import OverlayEngine.Landing

/-!
# Head-chain safety of one submit

A submit that retains no coin and meets at most one fault leaves its topic in
one of two shapes: the coins held and no output of the transaction, or every
admitted output held and every coin deleted or marked spent.
-/

namespace OverlayEngine

open Faulty

abbrev OneStore {α : Type} (P : Bool → Store → Prop) (x : M α) (Q : α → Bool → Store → Prop) : Prop :=
  One (fun b d => P b d.store) x fun a b d => Q a b d.store

variable {o o' : Outpoint}

theorem txid_ne_of_spent {tx : Tx} (h : o ∈ tx.spent) : o.txid ≠ tx.id := by
  obtain ⟨i, hi, hs⟩ := List.mem_filterMap.mp h
  obtain ⟨t, ht, rfl⟩ := Option.map_eq_some_iff.mp hs
  intro e
  exact tx.spendsOthers i hi (by rw [ht]; exact congrArg some e)

/-- The coin `o` is gone from `topic`, or marked. -/
def MarkedAt (topic : Topic) (o : Outpoint) (s : Store) : Prop := ∀ row, s.find (o, topic) = some row → row.spent = true

section
variable {E : Engine} {sub : Subject} {topic : Topic}

/-! ## The marks -/

theorem one_notifySpent (coin : Output) (input : Nat) : ∀ l r {I : Bool → Store → Prop}, (∀ s, I false s → I true s) →
    OneStore I (notifySpent none sub topic coin input r l) fun a b s => I b s ∧ (a.2 = true → b = true)
  | [], _, _, _ => one_pure fun _ _ h => ⟨h, fun h => by cases h⟩
  | ls :: rest, r, I, hI => by
    refine one_bind (R := fun a b d => I b d.store ∧ ∀ e, a = .error e → b = true)
      (one_call (fun b s h => ⟨h, fun e he => by cases he⟩) fun e s h => ?_) fun a => ?_
    · exact ⟨⟨hI _ h, fun _ _ => rfl⟩, ⟨hI _ h, fun _ _ => rfl⟩⟩
    match a with
    | .ok () => exact (one_notifySpent coin input rest r hI).conseq (fun b d h => h.1) fun _ _ _ h => h
    | .error e =>
      have ih := one_notifySpent coin input rest (r.fault topic .outputSpent e) (I := fun b s => I b s ∧ b = true)
        fun s h => ⟨hI s h.1, rfl⟩
      refine one_bind (ih.conseq (fun b d h => ⟨h.1, h.2 e rfl⟩) fun _ _ _ h => h) fun p => ?_
      exact one_pure fun b s h => ⟨h.1.1, fun _ => h.1.2⟩

variable {s : Store}

theorem markedAt_mark (h : MarkedAt topic o s) :
    MarkedAt topic o (s.markUtxoAsSpent (o', topic)) := by
  intro row hrow
  rw [Store.find_markUtxoAsSpent] at hrow
  split at hrow
  · obtain ⟨row', -, rfl⟩ := Option.map_eq_some_iff.mp hrow
    rfl
  · exact h row hrow

theorem markedAt_marked (o : Outpoint) (s : Store) : MarkedAt topic o (s.markUtxoAsSpent (o, topic)) := by
  intro row hrow
  rw [Store.find_markUtxoAsSpent, if_pos rfl] at hrow
  obtain ⟨row', -, rfl⟩ := Option.map_eq_some_iff.mp hrow
  rfl

theorem one_markPrevious {retain : List Nat} : ∀ ps r {I : Bool → Store → Prop}, (∀ s, I false s → I true s) →
    (∀ b s p, p ∈ ps → I b s → I b (s.markUtxoAsSpent (p.2.outpoint, topic))) → (∀ p ∈ ps, p.1 ∉ retain) →
    OneStore I (markPrevious E none sub topic retain r ps) fun a b s => I b s ∧ a.2.1 = false ∧
      (a.2.2 = true → b = true) ∧ (b = true ∨ ∀ p ∈ ps, MarkedAt topic p.2.outpoint s)
  | [], _, _, _, _, _ => one_pure fun _ _ h => ⟨h, rfl, fun h => (by cases h), Or.inr fun p hp => (by cases hp)⟩
  | (input, coin) :: rest, r, I, hI, hm, hr => by
    have hin : input ∉ retain := hr _ (List.mem_cons_self ..)
    let J : Bool → Store → Prop := fun b s => I b s ∧ (b = true ∨ MarkedAt topic coin.outpoint s)
    have hJ : ∀ s, J false s → J true s := fun s h => ⟨hI s h.1, Or.inl rfl⟩
    refine one_bind (R := fun a b d => J b d.store) (one_call (fun b d h => ?_) fun e d h => ?_) fun a => ?_
    · exact ⟨hm _ _ _ (List.mem_cons_self ..) h, Or.inr (markedAt_marked _ _)⟩
    · exact ⟨⟨hI _ h, Or.inl rfl⟩, ⟨hI _ (hm _ _ _ (List.mem_cons_self ..) h), Or.inl rfl⟩⟩
    refine one_bind (one_notifySpent coin input E.lookupServices _ hJ) fun p => ?_
    obtain ⟨r1, nf⟩ := p
    have ih := one_markPrevious rest r1 (I := fun b s => J b s ∧ (nf = true → b = true))
      (fun s h => ⟨hJ s h.1, fun _ => rfl⟩)
      (fun b s p hp h => ⟨⟨hm b s p (List.mem_cons_of_mem _ hp) h.1.1, h.1.2.imp id markedAt_mark⟩, h.2⟩)
      fun p hp => hr p (List.mem_cons_of_mem _ hp)
    refine one_bind ih fun q => ?_
    obtain ⟨r2, mf2, nf2⟩ := q
    refine one_pure fun b d h => ?_
    obtain ⟨⟨⟨hIb, hhead⟩, hnf⟩, hmf2, hnf2, htail⟩ := h
    simp only at hmf2 hnf2
    refine ⟨hIb, ?_, fun h => ?_, ?_⟩
    · cases a with
      | ok u => exact hmf2
      | error e => simp [hin, hmf2]
    · rcases Bool.or_eq_true _ _ ▸ h with h | h
      · exact hnf h
      · exact hnf2 h
    · rcases hhead with hb | hhead
      · exact Or.inl hb
      rcases htail with hb | htail
      · exact Or.inl hb
      refine Or.inr fun p hp => ?_
      rcases List.mem_cons.mp hp with rfl | hp
      · exact hhead
      · exact htail p hp

/-! ## The inserts and their undo -/

theorem one_notifyAdmitted (index : Nat) : ∀ l {I : Bool → Store → Prop}, (∀ s, I false s → I true s) →
    OneStore I (notifyAdmitted none sub topic index l) fun a b s => I b s ∧ ∀ e, a = .error e → b = true
  | [], _, _ => one_pure fun _ _ h => ⟨h, fun e h => by cases h⟩
  | ls :: rest, I, hI => by
    refine one_bind (R := fun a b d => I b d.store ∧ ∀ e, a = .error e → b = true)
      (one_call (fun b s h => ⟨h, fun e he => by cases he⟩) fun e s h => ?_) fun a => ?_
    · exact ⟨⟨hI _ h, fun _ _ => rfl⟩, ⟨hI _ h, fun _ _ => rfl⟩⟩
    match a with
    | .ok () => exact (one_notifyAdmitted index rest hI).conseq (fun b d h => h.1) fun _ _ _ h => h
    | .error e => exact one_pure fun b d h => ⟨h.1, fun _ _ => h.2 e rfl⟩

theorem held_insertOutput {row : Output} {k : Key} (h : s.held k = true) :
    (s.insertOutput row).held k = true := by
  unfold Store.held at h ⊢
  rw [Store.find_insertOutput]
  split
  · rfl
  · exact h

theorem held_inserted (s : Store) (row : Output) : (s.insertOutput row).held (row.outpoint, row.topic) = true := by
  unfold Store.held
  rw [Store.find_insertOutput]
  split
  · rfl
  · rename_i h
    by_contra hn
    exact h ⟨rfl, by simpa [Store.held] using hn⟩

variable {consumed : List Outpoint}

theorem one_insertAdmitted : ∀ l r {I : Bool → Store → Prop}, (∀ s, I false s → I true s) →
    (∀ b s index now, I b s → I b (s.insertOutput (admittedOutput sub topic consumed index now))) →
    OneStore I (insertAdmitted E none sub topic consumed r l) fun a b s => I b s ∧ (a.2.2 = true → b = true) ∧
      (a.2.2 = false → a.2.1 = l ∧ ∀ i ∈ l, s.held (⟨sub.tx.id, i⟩, topic) = true)
  | [], _, _, _, _ => one_pure fun _ _ h => ⟨h, fun h => (by cases h), fun _ => ⟨rfl, fun i hi => by cases hi⟩⟩
  | index :: rest, r, I, hI, hins => by
    let J : Bool → Store → Prop := fun b s => I b s ∧ s.held (⟨sub.tx.id, index⟩, topic) = true
    have hJ : ∀ s, J false s → J true s := fun s h => ⟨hI s h.1, h.2⟩
    refine one_bind (one_of_triple fun b => (keeps_read (I := fun d : Db => I b d.store) _).triple) fun now => ?_
    refine one_bind (R := fun a b d => I b d.store ∧ (∀ e, a = .error e → b = true) ∧ (a = .ok () → J b d.store))
      (one_call (fun b d h => ?_) fun e d h => ?_) fun a => ?_
    · exact ⟨hins b _ _ _ h, fun e he => (by cases he), fun _ => ⟨hins b _ _ _ h, held_inserted d.store _⟩⟩
    · exact ⟨⟨hI _ h, fun _ _ => rfl, fun he => by cases he⟩, ⟨hI _ (hins _ _ _ _ h), fun _ _ => rfl, fun he => by cases he⟩⟩
    match a with
    | .error e => exact one_pure fun b d h => ⟨h.1, fun _ => h.2.1 e rfl, fun hf => by cases hf⟩
    | .ok () =>
      refine one_bind ((one_notifyAdmitted index E.lookupServices hJ).conseq (fun b d h => h.2.2 rfl)
        fun _ _ _ h => h) fun a => ?_
      match a with
      | .error e => exact one_pure fun b d h => ⟨h.1.1, fun _ => h.2 e rfl, fun hf => by cases hf⟩
      | .ok () =>
        have ih := one_insertAdmitted rest r hJ fun b s i now h => ⟨hins b s i now h.1, held_insertOutput h.2⟩
        refine one_bind (ih.conseq (fun b d h => h.1) fun _ _ _ h => h) fun q => ?_
        obtain ⟨r1, attempted, faulted⟩ := q
        refine one_pure fun b d h => ?_
        obtain ⟨⟨hIb, hhead⟩, hf, hl⟩ := h
        refine ⟨hIb, hf, fun hn => ?_⟩
        obtain ⟨h1, h2⟩ := hl hn
        refine ⟨by rw [show attempted = rest from h1], fun i hi => ?_⟩
        rcases List.mem_cons.mp hi with rfl | hi
        · exact hhead
        · exact h2 i hi

theorem triple_insertAdmitted_done {bound : Bound} (F : Nat → Store → Prop)
    (hF : ∀ i s index now, i ≠ index → F i s → F i (s.insertOutput (admittedOutput sub topic consumed index now))) :
    ∀ l r (D : Nat → Prop), Triple (fun d : Db => ∀ i, ¬ D i → F i d.store) (insertAdmitted E bound sub topic consumed r l)
      fun a d => ∀ i, ¬ D i → i ∉ a.2.1 → F i d.store
  | [], _, _ => triple_pure fun d h i hi _ => h i hi
  | index :: rest, r, D => by
    let D' : Nat → Prop := fun i => D i ∨ i = index
    have stop {r : MutationReport} : Triple (fun d : Db => ∀ i, ¬ D' i → F i d.store)
        (pure (r, [index], true) : M (MutationReport × List Nat × Bool)) fun a d => ∀ i, ¬ D i → i ∉ a.2.1 → F i d.store :=
      triple_pure fun d h i hD hi => h i fun hd => hd.elim hD fun e => hi (List.mem_singleton.mpr e)
    have fewer {s : Store} (h : ∀ i, ¬ D i → F i s) : ∀ i, ¬ D' i → F i s := fun i hi => h i fun hd => hi (Or.inl hd)
    have grown {s : Store} (now : Nat) (h : ∀ i, ¬ D i → F i s) :
        ∀ i, ¬ D' i → F i (s.insertOutput (admittedOutput sub topic consumed index now)) :=
      fun i hi => hF i s index now (fun e => hi (Or.inr e)) (fewer h i hi)
    refine triple_bind (keeps_read _).triple fun now => ?_
    refine triple_bind (R := fun _ d => ∀ i, ¬ D' i → F i d.store)
      (triple_call (fun d h => grown now h) fun e d h => ⟨fewer h, grown now h⟩) fun a => ?_
    match a with
    | .error e => exact stop
    | .ok () =>
      refine triple_bind (keeps_notifyAdmitted (I := fun s => ∀ i, ¬ D' i → F i s) index E.lookupServices).triple
        fun a => ?_
      match a with
      | .error e => exact stop
      | .ok () =>
        refine triple_bind (triple_insertAdmitted_done F hF rest r D') fun q => triple_pure fun d h i hD hi => ?_
        exact h i (fun hd => hd.elim hD (List.ne_of_not_mem_cons hi)) (List.not_mem_of_not_mem_cons hi)

theorem triple_insertAdmitted {bound : Bound} (F : Nat → Store → Prop)
    (hF : ∀ i s index now, i ≠ index → F i s → F i (s.insertOutput (admittedOutput sub topic consumed index now)))
    (l : List Nat) (r : MutationReport) :
    Triple (fun d : Db => ∀ i, F i d.store) (insertAdmitted E bound sub topic consumed r l)
      fun a d => ∀ i, i ∉ a.2.1 → F i d.store :=
  (triple_insertAdmitted_done F hF l r fun _ => False).conseq (fun _ h i _ => h i) fun _ _ h i => h i not_false

theorem find_insert_other {i index now : Nat} (h : i ≠ index) :
    (s.insertOutput (admittedOutput sub topic consumed index now)).find (⟨sub.tx.id, i⟩, topic) =
      s.find (⟨sub.tx.id, i⟩, topic) := by
  rw [Store.find_insertOutput, if_neg]
  intro hk
  have hk1 : (⟨sub.tx.id, i⟩ : Outpoint) = ⟨sub.tx.id, index⟩ := congrArg Prod.fst hk.1
  exact h (congrArg Outpoint.outputIndex hk1)

theorem find_deleteOutput_none {k k' : Key} (h : s.find k = none) : (s.deleteOutput k').find k = none := by
  rw [Store.find_deleteOutput]
  split
  · rfl
  · exact h

theorem one_undoInserts : ∀ l r {I : Store → Prop}, (∀ s i, I s → I (s.deleteOutput (⟨sub.tx.id, i⟩, topic))) →
    (∀ s i row, I s → s.find (⟨sub.tx.id, i⟩, topic) = some row → row.spent = false ∧ row.consumedBy = []) →
    OneStore (fun b s => b = true ∧ I s) (undoInserts none sub topic r l) fun _ b s => b = true ∧ I s ∧
      ∀ i ∈ l, s.find (⟨sub.tx.id, i⟩, topic) = none
  | [], _, _, _, _ => one_pure fun _ _ h => ⟨h.1, h.2, fun i hi => by cases hi⟩
  | index :: rest, r, I, hundo, hown => by
    let J : Store → Prop := fun s => I s ∧ s.find (⟨sub.tx.id, index⟩, topic) = none
    have ih (r : MutationReport) : OneStore (fun b s => b = true ∧ J s) (undoInserts none sub topic r rest)
        fun _ b s => b = true ∧ I s ∧ ∀ i ∈ index :: rest, s.find (⟨sub.tx.id, i⟩, topic) = none := by
      refine (one_undoInserts rest r (I := J) (fun s i h => ⟨hundo s i h.1, find_deleteOutput_none h.2⟩)
        fun s i row h => hown s i row h.1).conseq (fun _ _ h => h) fun _ b d h => ?_
      refine ⟨h.1, h.2.1.1, fun i hi => ?_⟩
      rcases List.mem_cons.mp hi with rfl | hi
      · exact h.2.1.2
      · exact h.2.2 i hi
    refine one_bind (R := fun a b d => b = true ∧ I d.store ∧ a = .ok (d.store.find (⟨sub.tx.id, index⟩, topic)))
      (one_call (fun b d h => ⟨h.1, h.2, rfl⟩) fun e d h => by cases h.1) fun a => ?_
    match a with
    | .error e => exact fun b w _ h => by cases h.2.2
    | .ok none => exact (ih r).conseq (fun b d h => ⟨h.1, h.2.1, (Except.ok.inj h.2.2).symm⟩) fun _ _ _ h => h
    | .ok (some row) =>
      simp only
      split
      · refine one_bind (R := fun a b d => b = true ∧ J d.store ∧ a = .ok ())
          (one_call (fun b d h => ?_) fun e d h => by cases h.1) fun a => ?_
        · exact ⟨h.1, ⟨hundo _ _ h.2.1, by simp [Db.onStore, Store.find_deleteOutput]⟩, rfl⟩
        match a with
        | .error e => exact fun b w _ h => by cases h.2.2
        | .ok () => exact (ih r).conseq (fun b d h => ⟨h.1, h.2.1⟩) fun _ _ _ h => h
      · rename_i hn
        intro b w _ h
        obtain ⟨h1, h2⟩ := hown _ _ row h.2.1 (Except.ok.inj h.2.2).symm
        simp [h1, h2] at hn

/-! ## The deletes -/

theorem one_unit {C : Bool → Prop} (hC : C false → C true) {effect : Db → Db} :
    One (fun b _ => C b) (call none effect fun _ => ()) fun a b _ => C b ∧ (a = .ok () ∨ C false ∧ b = true) :=
  one_call (fun _ _ h => ⟨h, Or.inl rfl⟩) fun _ _ h => ⟨⟨hC h, Or.inr ⟨h, rfl⟩⟩, ⟨hC h, Or.inr ⟨h, rfl⟩⟩⟩

theorem one_deleteConsumed {C : Bool → Prop} (hC : C false → C true) {recur : Output → M (Except String Unit)}
    {R : Except String Unit → Bool → Prop} (hrec : ∀ o, One (fun b _ => C b) (recur o) fun r b _ => C b ∧ R r b)
    (o : Output) : ∀ l, One (fun b _ => C b) (deleteConsumed none recur o l)
      fun r b _ => C b ∧ (r = .ok () ∨ C false ∧ b = true)
  | [] => one_pure fun _ _ h => ⟨h, Or.inl rfl⟩
  | c :: rest => by
    have ih := one_deleteConsumed hC hrec o rest
    refine one_bind (R := fun _ b _ => C b) (one_call (fun b d h => h) fun e d h => ⟨hC h, hC h⟩) fun a => ?_
    match a with
    | .error e => exact ih
    | .ok none => exact ih
    | .ok (some stale) =>
      refine one_bind (one_unit hC) fun a => ?_
      match a with
      | .error e => exact one_pure fun b d h => ⟨h.1, h.2.imp (by simp) id⟩
      | .ok () =>
        refine one_bind ((hrec _).conseq (fun b d h => h.1) fun _ _ _ h => h) fun r => ?_
        exact ih.conseq (fun b d h => h.1) fun _ _ _ h => h

theorem one_noLongerRetained {C : Bool → Prop} (hC : C false → C true) (o : Output) : ∀ l,
    One (fun b _ => C b) (noLongerRetained none o l) fun _ b _ => C b
  | [] => one_pure fun _ _ h => h
  | ls :: rest => by
    refine one_bind (R := fun _ b _ => C b) (one_call (fun b d h => h) fun e d h => ⟨hC h, hC h⟩) fun a => ?_
    exact one_noLongerRetained hC o rest

theorem one_deleteUtxoDeep {C : Bool → Prop} (hC : C false → C true) : ∀ fuel o,
    One (fun b _ => C b) (deleteUtxoDeep E none fuel o) fun r b _ => C b ∧ (r = .ok () ∨ C false ∧ b = true)
  | 0, _ => one_pure fun _ _ h => ⟨h, Or.inl rfl⟩
  | fuel + 1, o => by
    have loop := one_deleteConsumed hC (one_deleteUtxoDeep hC fuel) o o.outputsConsumed
    unfold deleteUtxoDeep
    split
    · refine one_bind (one_unit hC) fun a => ?_
      cases a with
      | error e => exact one_pure fun b d h => ⟨h.1, h.2.imp (by simp) id⟩
      | ok u =>
        refine one_bind ((one_noLongerRetained hC o E.lookupServices).conseq (fun b d h => h.1) fun _ _ _ h => h)
          fun _ => loop
    · exact loop

theorem one_deleteStale {C : Bool → Prop} (hC : C false → C true) : ∀ l r,
    One (fun b _ => C b) (deleteStale E none topic r l)
      fun a b _ => C b ∧ (a.2.1 = false ∨ C false ∧ b = true)
  | [], _ => one_pure fun _ _ h => ⟨h, Or.inl rfl⟩
  | stale :: rest, r => by
    have ih := fun r => one_deleteStale hC rest r
    -- once a fault is reported the rest of the loop reports it too
    have faulted {f : MutationReport × Bool × Bool → MutationReport × Bool × Bool} (hf : ∀ p, (f p).2.1 = true) (r) :
        One (fun b _ => C false ∧ b = true) (do let p ← deleteStale E none topic r rest; pure (f p))
          fun a b _ => C b ∧ (a.2.1 = false ∨ C false ∧ b = true) := by
      refine one_bind ((one_deleteStale (C := fun b => C false ∧ b = true) (fun h => by cases h.2) rest r).conseq
        (fun b d h => h) fun _ _ _ h => h) fun p => one_pure fun b d h => ?_
      obtain ⟨⟨h1, h2⟩, -⟩ := h
      exact ⟨by rw [h2]; exact hC h1, Or.inr ⟨h1, h2⟩⟩
    refine one_bind (one_unit hC) fun a => ?_
    match a with
    | .error e =>
      refine (faulted (f := fun p => (p.1, true, p.2.2)) (fun _ => rfl) _).conseq (fun b d h => ?_) fun _ _ _ h => h
      exact h.2.resolve_left fun h => by cases h
    | .ok () =>
      refine one_bind (R := fun _ b _ => C b) (one_update fun b d h => h.1) fun _ => ?_
      refine one_bind (R := fun a b _ => C b ∧ ∀ e, a = .error e → C false ∧ b = true)
        (one_call (fun b d h => ⟨h, fun e he => by cases he⟩) fun e d h => ?_) fun a => ?_
      · exact ⟨⟨hC h, fun _ _ => ⟨h, rfl⟩⟩, ⟨hC h, fun _ _ => ⟨h, rfl⟩⟩⟩
      match a with
      | .error e =>
        exact (faulted (f := fun p => (p.1, true, p.2.2)) (fun _ => rfl) _).conseq (fun b d h => h.2 e rfl)
          fun _ _ _ h => h
      | .ok none => exact (ih r).conseq (fun b d h => h.1) fun _ _ _ h => h
      | .ok (some row) =>
        refine one_bind (R := fun _ b _ => C b) (one_read fun b d h => h.1) fun depth => ?_
        refine one_bind (one_deleteUtxoDeep hC depth row) fun a => ?_
        match a with
        | .error e =>
          refine (faulted (f := fun p => (p.1, true, true)) (fun _ => rfl) _).conseq (fun b d h => ?_) fun _ _ _ h => h
          exact h.2.resolve_left fun h => by cases h
        | .ok () =>
          refine one_bind ((ih r).conseq (fun b d h => h.1) fun _ _ _ h => h) fun p => ?_
          exact one_pure fun b d h => h

/-! ## Marked coins stay marked -/

theorem deepClosed_markedAt (o : Outpoint) : DeepClosed (MarkedAt topic o) fun _ => True where
  next _ _ _ _ _ _ _ _ _ := trivial
  unlink s o' c stale h _ _ hf row hrow := by
    rw [Store.find_updateConsumedBy] at hrow
    split at hrow
    · rename_i e
      obtain ⟨row', hr, rfl⟩ := Option.map_eq_some_iff.mp hrow
      exact h row' (by rw [e]; exact hr)
    · exact h row hrow
  delete s o' h _ _ row hrow := by
    rw [Store.find_deleteOutput] at hrow
    split at hrow
    · cases hrow
    · exact h row hrow

theorem deleteClosed_markedAt (tx : Tx) (o : Outpoint) : DeleteClosed (MarkedAt topic o) tx topic where
  record s o' _ h row hrow := h row (by simpa using hrow)
  deep := ⟨fun _ => True, deepClosed_markedAt o, fun _ _ _ _ _ _ => trivial⟩

theorem one_deleteRow {fuel : Nat} {o : Output} (ho : o.topic = topic) (hc : o.consumedBy ≠ [] → o.spent = true) :
    OneStore (fun b s => b = true ∧ s.find (o.outpoint, o.topic) = some o) (deleteUtxoDeep E none (fuel + 1) o)
      fun _ b s => b = true ∧ MarkedAt topic o.outpoint s := by
  have hdeep : DeepClosed (MarkedAt topic o.outpoint) fun _ => True := deepClosed_markedAt _
  have loop (b : Bool) : Triple (fun d : Db => b = true ∧ MarkedAt topic o.outpoint d.store)
      (deleteConsumed none (deleteUtxoDeep E none fuel) o o.outputsConsumed)
      fun _ d => b = true ∧ MarkedAt topic o.outpoint d.store := by
    refine triple_fact (F := b = true) (fun _ h => h.1) fun hb => ?_
    have kept : KeepsStore (MarkedAt topic o.outpoint)
        (deleteConsumed none (deleteUtxoDeep E none fuel) o o.outputsConsumed) :=
      keeps_deleteConsumed hdeep (fun o' _ => keeps_deleteUtxoDeep hdeep fuel o' trivial) trivial _ fun _ h => h
    exact kept.triple.conseq (fun _ h => h.2) fun _ _ h => ⟨hb, h⟩
  unfold deleteUtxoDeep
  split
  · refine one_bind (R := fun a b d => b = true ∧ MarkedAt topic o.outpoint d.store ∧ a = .ok ())
      (one_call (fun b d h => ⟨h.1, ?_, rfl⟩) fun e d h => by cases h.1) fun a => ?_
    · intro row hrow
      simp [Db.onStore, Store.find_deleteOutput, ho] at hrow
    cases a with
    | error e => exact fun b w _ h => by cases h.2.2
    | ok u =>
      refine one_bind (one_of_triple fun b => ?_) fun _ => one_of_triple loop
      refine triple_fact (F := b = true) (fun _ h => h.1) fun hb => ?_
      exact (keeps_noLongerRetained (I := MarkedAt topic o.outpoint) o E.lookupServices).triple.conseq
        (fun _ h => h.2.1) fun _ _ h => ⟨hb, h⟩
  · rename_i hne
    refine (one_of_triple loop).conseq (fun b d h => ⟨h.1, fun row hrow => ?_⟩) fun _ _ _ h => h
    rw [ho] at h
    rw [h.2] at hrow
    cases hrow
    exact hc fun e => hne (by rw [e]; rfl)

theorem one_deleteStale_marked {I : Store → Prop} (hI : DeleteClosed I sub.tx topic)
    (hmarked : ∀ s o row, I s → o ∈ sub.tx.spent → s.find (o, topic) = some row → row.consumedBy ≠ [] → row.spent = true) :
    ∀ l r, (∀ o ∈ l, o.outpoint ∈ sub.tx.spent) →
    OneStore (fun b s => b = true ∧ I s) (deleteStale E none topic r l) fun _ b s => b = true ∧ I s ∧
      ∀ stale ∈ l, MarkedAt topic stale.outpoint s
  | [], _, _ => one_pure fun _ _ h => ⟨h.1, h.2, fun i hi => by cases hi⟩
  | stale :: rest, r, hl => by
    have hs : stale.outpoint ∈ sub.tx.spent := hl _ (List.mem_cons_self ..)
    -- a coin that is gone or marked stays so
    have ih (r) : OneStore (fun b s => b = true ∧ I s ∧ MarkedAt topic stale.outpoint s) (deleteStale E none topic r rest)
        fun _ b s => b = true ∧ I s ∧ ∀ o ∈ stale :: rest, MarkedAt topic o.outpoint s := by
      have kept : KeepsStore (MarkedAt topic stale.outpoint) (deleteStale E none topic r rest) :=
        keeps_deleteStale (deleteClosed_markedAt sub.tx _) rest r fun o ho => hl o (List.mem_cons_of_mem _ ho)
      have h := (one_deleteStale_marked hI hmarked rest r fun o ho => hl o (List.mem_cons_of_mem _ ho)).and_triple
        kept.triple
      refine h.conseq (fun b d h => ⟨⟨h.1, h.2.1⟩, h.2.2⟩) fun _ b d h => ⟨h.1.1, h.1.2.1, fun o ho => ?_⟩
      rcases List.mem_cons.mp ho with rfl | ho
      · exact h.2
      · exact h.1.2.2 o ho
    obtain ⟨R, hR, hfound⟩ := hI.deep
    refine one_bind (R := fun a b d => b = true ∧ I d.store ∧ a = .ok ())
      (one_call (fun b d h => ⟨h.1, hI.record _ _ hs h.2, rfl⟩) fun e d h => by cases h.1) fun a => ?_
    match a with
    | .error e => exact fun b w _ h => by cases h.2.2
    | .ok () =>
      refine one_bind (R := fun _ b d => b = true ∧ I d.store) (one_update fun b d h => ⟨h.1, h.2.1⟩) fun _ => ?_
      refine one_bind (R := fun a b d => b = true ∧ I d.store ∧ a = .ok (d.store.find (stale.outpoint, topic)))
        (one_call (fun b d h => ⟨h.1, h.2, rfl⟩) fun e d h => by cases h.1) fun a => ?_
      match a with
      | .error e => exact fun b w _ h => by cases h.2.2
      | .ok none =>
        refine (ih r).conseq (fun b d h => ⟨h.1, h.2.1, fun row hrow => ?_⟩) fun _ _ _ h => h
        rw [← Except.ok.inj h.2.2] at hrow
        cases hrow
      | .ok (some row) =>
        refine one_bind (R := fun n b d => b = true ∧ I d.store ∧ d.store.find (stale.outpoint, topic) = some row ∧
          0 < n) (one_read fun b d h => ⟨h.1, h.2.1, (Except.ok.inj h.2.2).symm, Nat.succ_pos _⟩) fun depth => ?_
        refine one_fact (F := 0 < depth ∧ ∃ s, I s ∧ s.find (stale.outpoint, topic) = some row)
          (fun b d h => ⟨h.2.2.2, d.store, h.2.1, h.2.2.1⟩) fun ⟨hpos, s, hIs, hf⟩ => ?_
        obtain ⟨fuel, rfl⟩ : ∃ fuel, depth = fuel + 1 := ⟨depth - 1, by omega⟩
        obtain ⟨hk1, hk2⟩ := Store.find_keyed hf
        have kept : KeepsStore I (deleteUtxoDeep E none (fuel + 1) row) :=
          keeps_deleteUtxoDeep hR _ row (hfound _ _ row hs hIs hf)
        have deleted := (one_deleteRow hk2 (hmarked _ _ row hIs hs hf)).and_triple kept.triple
        rw [show row.outpoint = stale.outpoint from hk1, show row.topic = topic from hk2] at deleted
        refine one_bind (deleted.conseq (fun b d h => ⟨⟨h.1, h.2.2.1⟩, h.2.1⟩) fun _ _ _ h => h) fun a => ?_
        match a with
        | .error e =>
          refine one_bind ((ih _).conseq (fun b d h => ⟨h.1.1, h.2, h.1.2⟩) fun _ _ _ h => h) fun p => ?_
          exact one_pure fun b d h => h
        | .ok () =>
          refine one_bind ((ih _).conseq (fun b d h => ⟨h.1.1, h.2, h.1.2⟩) fun _ _ _ h => h) fun p => ?_
          exact one_pure fun b d h => h

end

/-! ## One topic -/

structure Fresh (s : Store) (tx : Tx) (topic : Topic) : Prop where
  absent : ∀ i, s.find (⟨tx.id, i⟩, topic) = none
  unnamed : ∀ o row, s.find (o, topic) = some row → ∀ c ∈ row.outputsConsumed, c.txid ≠ tx.id ∧ c ∉ tx.spent
  marked : ∀ o ∈ tx.spent, ∀ row, s.find (o, topic) = some row → row.consumedBy ≠ [] → row.spent = true

/-- Every coin of `tx` that `s₀` holds is held in `s`, and no output of `tx` is. -/
def Withheld (s₀ s : Store) (tx : Tx) (topic : Topic) : Prop :=
  (∀ o ∈ tx.spent, s₀.held (o, topic) = true → s.held (o, topic) = true) ∧ ∀ i, s.held (⟨tx.id, i⟩, topic) = false

/-- Every output of `tx` in `admitted` is held, and every coin is gone or marked spent. -/
def Admitted (s : Store) (tx : Tx) (topic : Topic) (admitted : List Nat) : Prop :=
  (∀ i ∈ admitted, s.held (⟨tx.id, i⟩, topic) = true) ∧ ∀ o ∈ tx.spent, MarkedAt topic o s

/-- Up to the deletes: the coins of `s₀` are held, and what is inserted can be undone. -/
structure Started (s₀ : Store) (tx : Tx) (topic : Topic) (s : Store) : Prop where
  held : ∀ o ∈ tx.spent, s.held (o, topic) = s₀.held (o, topic)
  marked : ∀ o ∈ tx.spent, ∀ row, s.find (o, topic) = some row → row.consumedBy ≠ [] → row.spent = true
  own : ∀ i row, s.find (⟨tx.id, i⟩, topic) = some row → row.spent = false ∧ row.consumedBy = []
  unnamed : ∀ o row, s.find (o, topic) = some row → ∀ c ∈ row.outputsConsumed, c.txid ≠ tx.id

/-- From the deletes on: the outputs of the subject are those of `s₂`. -/
structure Deleting (s₂ : Store) (tx : Tx) (topic : Topic) (s : Store) : Prop where
  own : ∀ i, s.find (⟨tx.id, i⟩, topic) = s₂.find (⟨tx.id, i⟩, topic)
  held : ∀ o ∈ tx.spent, s.held (o, topic) = true → s₂.held (o, topic) = true
  marked : ∀ o ∈ tx.spent, ∀ row, s.find (o, topic) = some row → row.consumedBy ≠ [] → row.spent = true
  unnamed : ∀ o row, s.find (o, topic) = some row → ∀ c ∈ row.outputsConsumed, c.txid ≠ tx.id

section
variable {s₀ s : Store} {tx : Tx} {topic : Topic}

theorem key_ne (h : o.txid ≠ o'.txid) : ((o, topic) : Key) ≠ (o', topic) := by
  intro e
  exact h (congrArg Outpoint.txid (congrArg Prod.fst e))

theorem Fresh.started (h : Fresh s₀ tx topic) : Started s₀ tx topic s₀ := by
  refine ⟨fun _ _ => rfl, h.marked, fun i row hf => ?_, fun o row hf c hc => (h.unnamed o row hf c hc).1⟩
  rw [h.absent i] at hf
  cases hf

theorem held_mark (k k' : Key) : (s.markUtxoAsSpent k).held k' = s.held k' := by
  unfold Store.held
  rw [Store.find_markUtxoAsSpent]
  split
  · rename_i e; rw [e]; simp
  · rfl

theorem Started.mark (h : Started s₀ tx topic s) (ho : o ∈ tx.spent) :
    Started s₀ tx topic (s.markUtxoAsSpent (o, topic)) := by
  refine ⟨fun o' ho' => (held_mark _ _).trans (h.held o' ho'), fun o' ho' row hf hc => ?_, fun i row hf => ?_, ?_⟩
  · rw [Store.find_markUtxoAsSpent] at hf
    split at hf
    · obtain ⟨row', -, rfl⟩ := Option.map_eq_some_iff.mp hf
      rfl
    · exact h.marked o' ho' row hf hc
  · rw [Store.find_markUtxoAsSpent, if_neg (key_ne (Ne.symm (txid_ne_of_spent ho)))] at hf
    exact h.own i row hf
  · intro o' row hf
    rw [Store.find_markUtxoAsSpent] at hf
    split at hf
    · rename_i e
      obtain ⟨row', hr, rfl⟩ := Option.map_eq_some_iff.mp hf
      exact h.unnamed o row' hr
    · exact h.unnamed o' row hf

theorem find_insert_coin {row : Output} (hrow : row.txid = tx.id) (ho : o ∈ tx.spent) :
    (s.insertOutput row).find (o, topic) = s.find (o, topic) := by
  rw [Store.find_insertOutput, if_neg]
  intro h
  have : o = row.outpoint := congrArg Prod.fst h.1
  exact txid_ne_of_spent ho (by rw [this]; exact hrow)

theorem find_undo_coin {i : Nat} (ho : o ∈ tx.spent) :
    (s.deleteOutput (⟨tx.id, i⟩, topic)).find (o, topic) = s.find (o, topic) := by
  rw [Store.find_deleteOutput, if_neg (key_ne (txid_ne_of_spent ho))]

theorem Started.insert {row : Output} (h : Started s₀ tx topic s) (hrow : row.txid = tx.id)
    (hs : row.spent = false) (hc : row.consumedBy = []) (ho : row.outputsConsumed = []) :
    Started s₀ tx topic (s.insertOutput row) := by
  refine ⟨fun o ho' => ?_, fun o ho' => ?_, fun i row' hf => ?_, fun o row' hf => ?_⟩
  · unfold Store.held
    rw [find_insert_coin hrow ho']
    exact h.held o ho'
  · rw [find_insert_coin hrow ho']
    exact h.marked o ho'
  · rw [Store.find_insertOutput] at hf
    split at hf
    · cases hf; exact ⟨hs, hc⟩
    · exact h.own i row' hf
  · rw [Store.find_insertOutput] at hf
    split at hf
    · cases hf
      rw [ho]
      intro c hc
      cases hc
    · exact h.unnamed o row' hf

theorem Started.undo (h : Started s₀ tx topic s) (i : Nat) :
    Started s₀ tx topic (s.deleteOutput (⟨tx.id, i⟩, topic)) := by
  have sub {k : Key} {row : Output} (hf : (s.deleteOutput (⟨tx.id, i⟩, topic)).find k = some row) :
      s.find k = some row := by
    rw [Store.find_deleteOutput] at hf
    split at hf
    · cases hf
    · exact hf
  refine ⟨fun o ho => ?_, fun o ho row hf => h.marked o ho row (sub hf), fun j row hf => h.own j row (sub hf),
    fun o row hf => h.unnamed o row (sub hf)⟩
  unfold Store.held
  rw [find_undo_coin ho]
  exact h.held o ho

theorem Started.deleting (h : Started s₀ tx topic s) : Deleting s tx topic s :=
  ⟨fun _ => rfl, fun _ _ h => h, h.marked, h.unnamed⟩

theorem deleteClosed_deleting (s₂ : Store) (tx : Tx) (topic : Topic) : DeleteClosed (Deleting s₂ tx topic) tx topic where
  record s o _ h := by
    refine ⟨?_, ?_, ?_, ?_⟩
    · simpa using h.own
    · simpa [Store.held] using h.held
    · simpa using h.marked
    · simpa using h.unnamed
  deep := by
    refine ⟨fun o => o.topic = topic ∧ o.txid ≠ tx.id ∧ ∀ c ∈ o.outputsConsumed, c.txid ≠ tx.id, ⟨?_, ?_, ?_⟩, ?_⟩
    · intro s o c stale l h ho hc hf
      obtain ⟨hk1, hk2⟩ := Store.find_keyed hf
      rw [ho.1] at hf
      refine ⟨hk2.trans ho.1, ?_, h.unnamed c stale hf⟩
      have : stale.txid = c.txid := congrArg Outpoint.txid hk1
      rw [show ({ stale with consumedBy := l } : Output).txid = stale.txid from rfl, this]
      exact ho.2.2 c hc
    · intro s o c stale h ho hc hf
      have hct := ho.2.2 c hc
      rw [ho.1] at hf ⊢
      refine ⟨fun i => ?_, fun o' ho' hh => h.held o' ho' ?_, fun o' ho' row hf' hcb => ?_, fun o' row hf' => ?_⟩
      · rw [Store.find_updateConsumedBy, if_neg (key_ne (Ne.symm hct))]
        exact h.own i
      · unfold Store.held at hh ⊢
        rw [Store.find_updateConsumedBy] at hh
        split at hh
        · rename_i e
          rw [e]
          simpa using hh
        · exact hh
      · rw [Store.find_updateConsumedBy] at hf'
        split at hf'
        · rename_i e
          obtain ⟨row', hr, rfl⟩ := Option.map_eq_some_iff.mp hf'
          rw [hf] at hr
          cases hr
          refine h.marked o' ho' stale (by rw [e]; exact hf) fun he => hcb ?_
          show stale.consumedBy.filter _ = []
          rw [he]
          rfl
        · exact h.marked o' ho' row hf' hcb
      · rw [Store.find_updateConsumedBy] at hf'
        split at hf'
        · obtain ⟨row', hr, rfl⟩ := Option.map_eq_some_iff.mp hf'
          exact h.unnamed c row' hr
        · exact h.unnamed o' row hf'
    · intro s o h ho _
      have sub {k : Key} {row : Output} (hf : (s.deleteOutput (o.outpoint, o.topic)).find k = some row) :
          s.find k = some row := by
        rw [Store.find_deleteOutput] at hf
        split at hf
        · cases hf
        · exact hf
      refine ⟨fun i => ?_, fun o' ho' hh => h.held o' ho' ?_, fun o' ho' row hf' => h.marked o' ho' row (sub hf'),
        fun o' row hf' => h.unnamed o' row (sub hf')⟩
      · rw [ho.1, Store.find_deleteOutput, if_neg (key_ne (Ne.symm ho.2.1))]
        exact h.own i
      · obtain ⟨row, hr⟩ := Option.isSome_iff_exists.mp hh
        unfold Store.held
        rw [sub hr]
        rfl
    · intro s o row ho h hf
      obtain ⟨hk1, hk2⟩ := Store.find_keyed hf
      have : row.txid = o.txid := congrArg Outpoint.txid hk1
      exact ⟨hk2, by rw [this]; exact txid_ne_of_spent ho, h.unnamed o row hf⟩

theorem Started.insert_admitted {sub : Subject} (h : Started s₀ sub.tx topic s) (index now : Nat) :
    Started s₀ sub.tx topic (s.insertOutput (admittedOutput sub topic [] index now)) := h.insert rfl rfl rfl rfl

end

/-- Every coin of `tx` is gone from `topic`, or marked. -/
def AllMarked (tx : Tx) (topic : Topic) (s : Store) : Prop := ∀ o ∈ tx.spent, MarkedAt topic o s

theorem deleteClosed_allMarked (tx : Tx) (topic : Topic) : DeleteClosed (AllMarked tx topic) tx topic where
  record s o ho h o' ho' := (deleteClosed_markedAt tx o').record s o ho (h o' ho')
  deep := by
    refine ⟨fun _ => True, ⟨fun _ _ _ _ _ _ _ _ _ => trivial, ?_, ?_⟩, fun _ _ _ _ _ _ => trivial⟩
    · exact fun s o c stale h ho hc hf o' ho' => (deepClosed_markedAt o').unlink s o c stale (h o' ho') trivial hc hf
    · exact fun s o h _ hc o' ho' => (deepClosed_markedAt o').delete s o (h o' ho') trivial hc

variable {s s₀ s₂ : Store} {topic : Topic} {bound : Bound}

theorem reads_readBack : ∀ l, Reads s (readBack bound topic l) fun held =>
    held = true → ∀ stale ∈ l, s.held (stale.outpoint, topic) = true
  | [] => ensures_pure fun _ stale h => by cases h
  | stale :: rest => by
    refine ensures_bind (reads_get fun s => s.find (stale.outpoint, topic)) fun a ha => ?_
    match a with
    | .ok none => exact ensures_pure fun h => by cases h
    | .error e => exact ensures_pure fun h => by cases h
    | .ok (some row) =>
      refine (reads_readBack rest).mono fun held hheld h o ho => ?_
      rcases List.mem_cons.mp ho with rfl | ho
      · unfold Store.held
        rw [← ha _ rfl]
        rfl
      · exact hheld h o ho

theorem reads_allHeld (skip : Bool) (l : List Output) :
    Reads s (allHeld bound topic skip l) fun held => held = true → ∀ stale ∈ l, s.held (stale.outpoint, topic) = true := by
  unfold allHeld
  split
  · exact ensures_pure fun h => by cases h
  · exact reads_readBack l

/-- The scan of `v`: no coin of it is retained, and it found every coin of `tx` that `s₀` holds. -/
structure Scanned (s₀ : Store) (tx : Tx) (v : TopicValidation) : Prop where
  length : v.previousCoins.length = v.previousOutputs.length
  found : Found tx v
  all : ∀ o ∈ tx.spent, s₀.held (o, v.topic) = true → ∃ row ∈ v.previousOutputs, row.outpoint = o
  retains : ∀ i ∈ v.previousCoins, i ∉ v.admittance.coinsToRetain

section
variable {s₀ : Store} {tx : Tx} {v : TopicValidation}

theorem Scanned.staleCoins (h : Scanned s₀ tx v) : v.staleCoins = v.previousOutputs := by
  have hmap : v.staleCoins = (v.previousCoins.zip v.previousOutputs).map Prod.snd := by
    unfold TopicValidation.staleCoins
    rw [← List.filterMap_eq_map]
    refine List.filterMap_congr fun p hp => ?_
    rw [if_neg (h.retains _ (List.of_mem_zip hp).1)]
    rfl
  rw [hmap, List.map_snd_zip (Nat.le_of_eq h.length.symm)]

theorem Scanned.outputsConsumed (h : Scanned s₀ tx v) : v.outputsConsumed = [] := by
  unfold TopicValidation.outputsConsumed
  refine List.filterMap_eq_nil_iff.mpr fun p hp => ?_
  rw [if_neg (h.retains _ (List.of_mem_zip hp).1)]

theorem Scanned.mem_zip (h : Scanned s₀ tx v) {row : Output} (hr : row ∈ v.previousOutputs) :
    ∃ i, (i, row) ∈ v.previousCoins.zip v.previousOutputs := by
  rw [← List.map_snd_zip (Nat.le_of_eq h.length.symm)] at hr
  obtain ⟨⟨i, row'⟩, hm, rfl⟩ := List.mem_map.mp hr
  exact ⟨i, hm⟩

theorem Scanned.allMarked (h : Scanned s₀ tx v) (hheld : ∀ o ∈ tx.spent, s.held (o, v.topic) = true →
    s₀.held (o, v.topic) = true) (hm : ∀ row ∈ v.previousOutputs, MarkedAt v.topic row.outpoint s) :
    AllMarked tx v.topic s := by
  intro o ho row hf
  have hs : s.held (o, v.topic) = true := by unfold Store.held; rw [hf]; rfl
  obtain ⟨row', hr, rfl⟩ := h.all o ho (hheld o ho hs)
  exact hm row' hr row hf

end

section
variable {E : Engine} {sub : Subject} {v : TopicValidation} {s₀ : Store} {attempted : List Nat}

theorem one_undoIf {held : Bool} (r : MutationReport)
    (hv : Scanned s₀ sub.tx v) (hs₂ : Started s₀ sub.tx v.topic s₂)
    (hatt : ∀ i, s₂.held (⟨sub.tx.id, i⟩, v.topic) = true ↔ i ∈ attempted) :
    OneStore (fun b s => b = true ∧ Deleting s₂ sub.tx v.topic s ∧ AllMarked sub.tx v.topic s ∧
        (held = true → ∀ row ∈ v.previousOutputs, s.held (row.outpoint, v.topic) = true))
      (undoIf none sub v.topic held r attempted)
      fun _ _ s => Withheld s₀ s sub.tx v.topic ∨ Admitted s sub.tx v.topic attempted := by
  unfold undoIf
  split
  · rename_i hheld
    let I : Store → Prop := fun s =>
      (∀ i row, s.find (⟨sub.tx.id, i⟩, v.topic) = some row → s₂.find (⟨sub.tx.id, i⟩, v.topic) = some row) ∧
      ∀ row ∈ v.previousOutputs, s.held (row.outpoint, v.topic) = true
    have undone : OneStore (fun b s => b = true ∧ I s) (undoInserts none sub v.topic r attempted) fun _ b s =>
        b = true ∧ I s ∧ ∀ i ∈ attempted, s.find (⟨sub.tx.id, i⟩, v.topic) = none :=
      one_undoInserts attempted r (fun s i h => ?_) fun s i row h hf => hs₂.own i row (h.1 i row hf)
    · refine undone.conseq (fun b d h => ⟨h.1, fun i row hf => ?_, h.2.2.2 hheld⟩) fun _ b d h => Or.inl ⟨?_, ?_⟩
      · rw [← h.2.1.own i]; exact hf
      · intro o ho hh
        obtain ⟨row, hr, rfl⟩ := hv.all o ho hh
        exact h.2.1.2 row hr
      · intro i
        by_contra hn
        obtain ⟨row, hr⟩ := Option.isSome_iff_exists.mp (Bool.not_eq_false _ ▸ hn)
        have hi : i ∈ attempted := (hatt i).mp (by unfold Store.held; rw [h.2.1.1 i row hr]; rfl)
        rw [h.2.2 i hi] at hr
        cases hr
    · refine ⟨fun j row hf => h.1 j row ?_, fun row hr => ?_⟩
      · rw [Store.find_deleteOutput] at hf
        split at hf
        · cases hf
        · exact hf
      · unfold Store.held
        rw [find_undo_coin (hv.found row hr)]
        exact h.2 row hr
  · refine one_pure fun b d h => Or.inr ⟨fun i hi => ?_, h.2.2.1⟩
    unfold Store.held
    rw [h.2.1.own i]
    exact (hatt i).mpr hi

theorem one_hold {α : Type} {P : Bool → Db → Prop} {Q : α → Bool → Db → Prop} {a : α} (txid : Txid) (topic : Topic)
    (h : ∀ b d, P b d → Q a b { d with notLanded := (txid, topic) :: d.notLanded }) :
    One P (do holdUnapplied txid topic; pure a) Q :=
  one_bind (R := fun _ => Q a) (one_update h) fun _ => one_pure fun _ _ h => h

theorem one_deleteStale_admitted (r : MutationReport) (hv : Scanned s₀ sub.tx v)
    (hs₂ : Started s₀ sub.tx v.topic s₂) :
    OneStore (fun b s => s = s₂ ∧ (b = true ∨ AllMarked sub.tx v.topic s)) (deleteStale E none v.topic r v.staleCoins)
      fun a b s => Deleting s₂ sub.tx v.topic s ∧ AllMarked sub.tx v.topic s ∧ (a.2.1 = true → b = true) := by
  have hdel : KeepsStore (Deleting s₂ sub.tx v.topic) (deleteStale E none v.topic r v.staleCoins) :=
    keeps_deleteStale (deleteClosed_deleting s₂ sub.tx v.topic) v.staleCoins r hv.found.stale
  have hall : KeepsStore (AllMarked sub.tx v.topic) (deleteStale E none v.topic r v.staleCoins) :=
    keeps_deleteStale (deleteClosed_allMarked sub.tx v.topic) v.staleCoins r hv.found.stale
  have answers : One (fun b _ => b = true ∧ True) (deleteStale E none v.topic r v.staleCoins) fun a b _ =>
      b = true ∧ a.2.1 = false :=
    (one_deleteStale (C := fun b => b = true) (by simp) v.staleCoins r).conseq (fun b d h => h.1)
      fun a b d h => ⟨h.1, h.2.resolve_right fun h => by cases h.1⟩
  -- a mark that faulted has spent the fault: every delete answers
  have quiet := (one_deleteStale_marked (E := E) (deleteClosed_deleting s₂ sub.tx v.topic)
    (fun s o row h ho => h.marked o ho row) v.staleCoins r hv.found.stale).and_quiet answers
  have marked := ((one_deleteStale (C := fun _ => True) (fun h => h) v.staleCoins r).and_triple hdel.triple).and_triple
    hall.triple
  have h1 : OneStore (fun b s => b = true ∧ s = s₂) (deleteStale E none v.topic r v.staleCoins) fun a b s =>
      Deleting s₂ sub.tx v.topic s ∧ AllMarked sub.tx v.topic s ∧ (a.2.1 = true → b = true) := by
    refine quiet.conseq (fun b d h => ⟨h.1, by rw [h.2]; exact hs₂.deleting, trivial⟩) fun a b d h => ?_
    obtain ⟨hb, ⟨hd, hm⟩, -⟩ := h
    refine ⟨hd, hv.allMarked (fun o ho hh => ?_) (by rw [← hv.staleCoins]; exact hm), fun _ => hb⟩
    rw [← hs₂.held o ho]
    exact hd.held o ho hh
  have h2 : OneStore (fun b s => s = s₂ ∧ AllMarked sub.tx v.topic s) (deleteStale E none v.topic r v.staleCoins)
      fun a b s => Deleting s₂ sub.tx v.topic s ∧ AllMarked sub.tx v.topic s ∧ (a.2.1 = true → b = true) := by
    refine marked.conseq (fun b d h => ⟨⟨trivial, by rw [h.1]; exact hs₂.deleting⟩, h.2⟩) fun a b d h => ?_
    obtain ⟨⟨⟨-, hf⟩, hd⟩, hm⟩ := h
    refine ⟨hd, hm, fun ha => ?_⟩
    rcases hf with hf | hf
    · rw [ha] at hf; cases hf
    · exact hf.2
  exact (one_or h1 h2).conseq (fun b d h => h.2.imp (fun hb => ⟨hb, h.1⟩) fun hm => ⟨h.1, hm⟩) fun _ _ _ h => h

variable (hv : Scanned s₀ sub.tx v)
include hv

theorem one_linkAndRecord (n : Nat) (r : MutationReport) :
    OneStore (fun _ s => Admitted s sub.tx v.topic attempted) (linkAndRecord none sub v n r attempted)
      fun _ _ s => Admitted s sub.tx v.topic attempted := by
  unfold linkAndRecord
  rw [hv.outputsConsumed]
  refine one_bind (R := fun _ _ d => Admitted d.store sub.tx v.topic attempted) (one_pure fun _ _ h => h) fun r1 => ?_
  have recorded {s : Store} (h : Admitted s sub.tx v.topic attempted) :
      Admitted (s.insertApplied sub.tx.id v.topic) sub.tx v.topic attempted := by
    refine ⟨fun i hi => ?_, fun o ho row hf => h.2 o ho row (by simpa using hf)⟩
    unfold Store.held
    rw [Store.find_insertApplied]
    exact h.1 i hi
  split
  · exact one_hold _ _ fun _ _ h => h
  · refine one_bind (R := fun _ _ d => Admitted d.store sub.tx v.topic attempted)
      (one_call (fun b d h => recorded h) fun e d h => ⟨h, recorded h⟩) fun a => ?_
    match a with
    | .ok () =>
      refine one_bind (R := fun _ _ d => Admitted d.store sub.tx v.topic attempted) (one_update fun _ _ h => h) fun _ => ?_
      exact one_pure fun _ _ h => h
    | .error e => exact one_hold _ _ fun _ _ h => h

theorem one_deleteAndRecord (hs₂ : Started s₀ sub.tx v.topic s₂)
    (hatt : ∀ i, s₂.held (⟨sub.tx.id, i⟩, v.topic) = true ↔ i ∈ attempted) (n : Nat) (r : MutationReport) :
    OneStore (fun b s => s = s₂ ∧ (b = true ∨ AllMarked sub.tx v.topic s)) (deleteAndRecord E none sub v n r attempted)
      fun _ _ s => Withheld s₀ s sub.tx v.topic ∨ Admitted s sub.tx v.topic attempted := by
  unfold deleteAndRecord
  refine one_bind (R := fun _ b d => d.store = s₂ ∧ (b = true ∨ AllMarked sub.tx v.topic d.store))
    (one_of_triple fun b => keeps_isDue.triple) fun _ => ?_
  refine one_bind (one_deleteStale_admitted r hv hs₂) fun a => ?_
  obtain ⟨r1, deleteFaulted, deleteStarted⟩ := a
  simp only
  split
  · rename_i hf
    let P : Bool → Db → Prop := fun b d => b = true ∧ Deleting s₂ sub.tx v.topic d.store ∧ AllMarked sub.tx v.topic d.store
    refine one_bind (R := fun _ => P) (one_of_triple fun b => keeps_isDue.triple.conseq (fun d h => ⟨h.2.2 hf, h.1, h.2.1⟩)
      fun _ _ h => h) fun _ => ?_
    refine one_bind (R := fun _ => P) (one_of_triple fun b => keeps_renew.triple) fun _ => ?_
    refine one_bind (R := fun held b d => P b d ∧
      (held = true → ∀ row ∈ v.previousOutputs, d.store.held (row.outpoint, v.topic) = true)) ?_ fun held => ?_
    · refine one_of_triple fun b => ?_
      refine (triple_of_reads (I := fun s => b = true ∧ Deleting s₂ sub.tx v.topic s ∧ AllMarked sub.tx v.topic s)
        fun s => reads_allHeld _ _).conseq (fun d h => h) fun held d h => ⟨h.1, fun hh row hr => ?_⟩
      exact h.2 hh row (by rw [hv.staleCoins]; exact hr)
    · refine one_bind ((one_undoIf r1 hv hs₂ hatt).conseq (fun b d h => ⟨h.1.1, h.1.2.1, h.1.2.2, h.2⟩)
        fun _ _ _ h => h) fun r2 => ?_
      exact one_hold _ _ fun _ _ h => h
  · refine (one_linkAndRecord hv n r1).conseq (fun b d h => ⟨fun i hi => ?_, h.2.1⟩) fun _ _ _ h => Or.inr h
    unfold Store.held
    rw [h.1.own i]
    exact (hatt i).mpr hi

omit hv in
theorem withheld_of_started (h : Started s₀ sub.tx v.topic s)
    (hn : ∀ i, s.find (⟨sub.tx.id, i⟩, v.topic) = none) : Withheld s₀ s sub.tx v.topic :=
  ⟨fun o ho hh => (h.held o ho).trans hh, fun i => by unfold Store.held; rw [hn i]; rfl⟩

theorem one_insertAndRecord (n : Nat) (r : MutationReport) :
    OneStore (fun b s => (Started s₀ sub.tx v.topic s ∧ ∀ i, s.find (⟨sub.tx.id, i⟩, v.topic) = none) ∧
        (b = true ∨ AllMarked sub.tx v.topic s)) (insertAndRecord E none sub v n r)
      fun _ _ s => Withheld s₀ s sub.tx v.topic ∨ Admitted s sub.tx v.topic v.admittance.outputsToAdmit := by
  unfold insertAndRecord
  rw [hv.outputsConsumed]
  have only : Triple (fun d : Db => ∀ i, d.store.find (⟨sub.tx.id, i⟩, v.topic) = none)
      (insertAdmitted E none sub v.topic [] r v.admittance.outputsToAdmit)
      fun a d => ∀ i, i ∉ a.2.1 → d.store.find (⟨sub.tx.id, i⟩, v.topic) = none :=
    triple_insertAdmitted (fun i s => s.find (⟨sub.tx.id, i⟩, v.topic) = none)
      (fun i s index now hne h => (find_insert_other hne).trans h) _ r
  have mem_attempted {s : Store} {l : List Nat} (h : ∀ i, i ∉ l → s.find (⟨sub.tx.id, i⟩, v.topic) = none) (i : Nat)
      (hi : s.held (⟨sub.tx.id, i⟩, v.topic) = true) : i ∈ l := by
    by_contra hn
    unfold Store.held at hi
    rw [h i hn] at hi
    cases hi
  have inserts := (one_insertAdmitted _ _ (I := fun b s => Started s₀ sub.tx v.topic s ∧
    (b = true ∨ AllMarked sub.tx v.topic s)) (fun s h => ⟨h.1, Or.inl rfl⟩)
      fun b s index now h => ⟨h.1.insert_admitted index now, h.2.imp id fun hm o ho => ?_⟩).and_triple only
  · refine one_bind (inserts.conseq (fun b d h => ⟨⟨h.1.1, h.2⟩, h.1.2⟩) fun _ _ _ h => h) fun a => ?_
    obtain ⟨r2, attempted, insertFaulted⟩ := a
    simp only
    split
    · rename_i hf
      refine one_bind (R := fun _ b d => b = true ∧ Started s₀ sub.tx v.topic d.store ∧
        ∀ i, d.store.held (⟨sub.tx.id, i⟩, v.topic) = true → i ∈ attempted) (one_of_triple fun b => keeps_renew.triple.conseq
          (fun d h => ⟨h.1.2.1 hf, h.1.1.1, mem_attempted h.2⟩) fun _ _ h => h) fun _ => ?_
      let I : Store → Prop := fun s =>
        Started s₀ sub.tx v.topic s ∧ ∀ i, s.held (⟨sub.tx.id, i⟩, v.topic) = true → i ∈ attempted
      have undone : OneStore (fun b s => b = true ∧ I s) (undoInserts none sub v.topic r2 attempted) fun _ b s =>
          b = true ∧ I s ∧ ∀ i ∈ attempted, s.find (⟨sub.tx.id, i⟩, v.topic) = none :=
        one_undoInserts _ _ (fun s i h => ⟨h.1.undo i, fun j hj => h.2 j ?_⟩) fun s i row h hf => h.1.own i row hf
      · refine one_bind undone fun r3 => one_hold _ _ fun b d h => ?_
        obtain ⟨-, ⟨hst, hatt⟩, hgone⟩ := h
        refine Or.inl (withheld_of_started hst fun i => ?_)
        by_contra hn
        exact hn (hgone i (hatt i (Option.isSome_iff_ne_none.mpr hn)))
      · unfold Store.held at hj ⊢
        rw [Store.find_deleteOutput] at hj
        split at hj
        · cases hj
        · exact hj
    · rename_i hf
      simp only [Bool.not_eq_true] at hf
      refine one_ghost fun d₂ => ?_
      refine one_fact (F := Started s₀ sub.tx v.topic d₂.store ∧ attempted = v.admittance.outputsToAdmit ∧
        ∀ i, d₂.store.held (⟨sub.tx.id, i⟩, v.topic) = true ↔ i ∈ attempted) (fun b d h => ?_) fun ⟨hst, hl, hatt⟩ => ?_
      · obtain ⟨rfl, ⟨⟨hst, -⟩, -, hok⟩, honly⟩ := h
        obtain ⟨hl, hheld⟩ := hok hf
        refine ⟨hst, hl, fun i => ⟨mem_attempted honly i, fun hi => hheld i ?_⟩⟩
        rw [← show attempted = _ from hl]
        exact hi
      · rw [← hl]
        exact (one_deleteAndRecord hv hst hatt n r2).conseq (fun b d h => ⟨by rw [h.1], h.2.1.1.2⟩) fun _ _ _ h => h
  · intro row hf
    rw [find_insert_coin rfl ho] at hf
    exact hm o ho row hf

theorem one_applyJudged (hs₀ : Fresh s₀ sub.tx v.topic) (r : MutationReport) :
    OneStore (fun _ s => s = s₀) (applyJudged E none sub v r) fun _ _ s => Withheld s₀ s sub.tx v.topic ∨
      Admitted s sub.tx v.topic v.admittance.outputsToAdmit := by
  unfold applyJudged
  simp only
  have hzip : ∀ p ∈ v.previousCoins.zip v.previousOutputs, p.2.outpoint ∈ sub.tx.spent :=
    fun p hp => hv.found _ (List.of_mem_zip hp).2
  let I : Bool → Store → Prop := fun _ s => Started s₀ sub.tx v.topic s ∧ ∀ i, s.find (⟨sub.tx.id, i⟩, v.topic) = none
  have marks : OneStore I (markPrevious E none sub v.topic v.admittance.coinsToRetain r
      (v.previousCoins.zip v.previousOutputs)) fun a b s => I b s ∧ a.2.1 = false ∧ (a.2.2 = true → b = true) ∧
        (b = true ∨ ∀ p ∈ v.previousCoins.zip v.previousOutputs, MarkedAt v.topic p.2.outpoint s) :=
    one_markPrevious _ r (fun s h => h) (fun b s p hp h => ⟨h.1.mark (hzip p hp), fun i => ?_⟩)
      fun p hp => hv.retains _ (List.of_mem_zip hp).1
  · refine one_bind (marks.conseq (fun b d h => by rw [h]; exact ⟨hs₀.started, hs₀.absent⟩) fun _ _ _ h => h) fun a => ?_
    obtain ⟨r1, markFaulted, notifyFaulted⟩ := a
    simp only
    split
    · refine one_hold _ _ fun b d h => ?_
      exact Or.inl (withheld_of_started h.1.1 h.1.2)
    · refine (one_insertAndRecord hv _ r1).conseq (fun b d h => ⟨h.1, h.2.2.2.imp id fun hm => ?_⟩) fun _ _ _ h => h
      refine hv.allMarked (fun o ho hh => ?_) fun row hr => ?_
      · rw [← h.1.1.held o ho]; exact hh
      · obtain ⟨j, hj⟩ := hv.mem_zip hr
        exact hm _ hj
  · rw [Store.find_markUtxoAsSpent, if_neg (key_ne (Ne.symm (txid_ne_of_spent (hzip p hp))))]
    exact h.2 i

end

/-! ## The whole submit -/

def Beef.Acyclic (b : Beef) : Prop := ∃ rank : Txid → Nat, ∀ tx ∈ b.bodies, ∀ o ∈ tx.spent, rank o.txid < rank tx.id

/-- Until Phase 3 starts: `tx` is fresh, and the coins of it that `s₀` holds are held. -/
structure Awaiting (s₀ : Store) (tx : Tx) (topic : Topic) (s : Store) : Prop where
  fresh : Fresh s tx topic
  held : ∀ o ∈ tx.spent, s₀.held (o, topic) = true → s.held (o, topic) = true

section
variable {s₀ : Store} {tx : Tx} {topic : Topic}

theorem Awaiting.of_find {s' : Store} (hs : ∀ o, s'.find (o, topic) = s.find (o, topic))
    (h : Awaiting s₀ tx topic s) : Awaiting s₀ tx topic s' := by
  refine ⟨⟨fun i => ?_, fun o row => ?_, fun o ho row => ?_⟩, fun o ho => ?_⟩
  · rw [hs]; exact h.fresh.absent i
  · rw [hs]; exact h.fresh.unnamed o row
  · rw [hs]; exact h.fresh.marked o ho row
  · unfold Store.held; rw [hs]; exact h.held o ho

section
variable {body : Tx} (hid : body.id ≠ tx.id) (hspent : ∀ o ∈ body.spent, o.txid ≠ tx.id ∧ o ∉ tx.spent)

theorem Awaiting.modified {f : Output → Output}
    {hf : ∀ o, (f o).outpoint = o.outpoint ∧ (f o).topic = o.topic} (h : Awaiting s₀ tx topic s)
    (hc : ∀ o, (f o).outputsConsumed = o.outputsConsumed) (ho : o ∉ tx.spent) :
    Awaiting s₀ tx topic (s.modify (o, topic) f hf) := by
  have coin {o' : Outpoint} (ho' : o' ∈ tx.spent) : (s.modify (o, topic) f hf).find (o', topic) = s.find (o', topic) := by
    rw [Store.find_modify, if_neg]
    intro e
    have : o' = o := congrArg Prod.fst e
    exact ho (this ▸ ho')
  refine ⟨⟨fun i => ?_, fun o' row hrow => ?_, fun o' ho' row => ?_⟩, fun o' ho' => ?_⟩
  · rw [Store.find_modify]
    split
    · rename_i e; rw [← e, h.fresh.absent i]; rfl
    · exact h.fresh.absent i
  · rw [Store.find_modify] at hrow
    split at hrow
    · obtain ⟨row', hr, rfl⟩ := Option.map_eq_some_iff.mp hrow
      rw [hc]
      exact h.fresh.unnamed o row' hr
    · exact h.fresh.unnamed o' row hrow
  · rw [coin ho']; exact h.fresh.marked o' ho' row
  · unfold Store.held; rw [coin ho']; exact h.held o' ho'

theorem Awaiting.deleted (h : Awaiting s₀ tx topic s)
    (ho : o ∈ tx.spent → s₀.held (o, topic) = false) : Awaiting s₀ tx topic (s.deleteOutput (o, topic)) := by
  have sub {k : Key} {row : Output} (hf : (s.deleteOutput (o, topic)).find k = some row) : s.find k = some row := by
    rw [Store.find_deleteOutput] at hf
    split at hf
    · cases hf
    · exact hf
  refine ⟨⟨fun i => find_deleteOutput_none (h.fresh.absent i), fun o' row hrow => h.fresh.unnamed o' row (sub hrow),
    fun o' ho' row hrow => h.fresh.marked o' ho' row (sub hrow)⟩, fun o' ho' hh => ?_⟩
  unfold Store.held
  rw [Store.find_deleteOutput, if_neg]
  · exact h.held o' ho' hh
  · intro e
    have e' : o' = o := congrArg Prod.fst e
    subst e'
    rw [ho ho'] at hh
    cases hh

include hid hspent

theorem closed_awaiting (habsent : ∃ s, Awaiting s₀ tx topic s ∧ ∀ i, s.find (⟨body.id, i⟩, topic) = none) :
    Closed (Awaiting s₀ tx topic) body topic where
  mark s o ho h := Awaiting.modified (f := fun o => { o with spent := true }) h (fun _ => rfl) (hspent o ho).2
  insert s row hrow htopic hcons _ hcb h := by
    have hk : row.outpoint.txid ≠ tx.id := by rw [show row.outpoint.txid = row.txid from rfl, hrow]; exact hid
    refine ⟨⟨fun i => ?_, fun o' row' hf => ?_, fun o' ho' row' hf hne => ?_⟩, fun o' ho' hh => ?_⟩
    · rw [Store.find_insertOutput, if_neg]
      · exact h.fresh.absent i
      · intro e
        have : (⟨tx.id, i⟩ : Outpoint) = row.outpoint := congrArg Prod.fst e.1
        exact hk (by rw [← this])
    · rw [Store.find_insertOutput] at hf
      split at hf
      · cases hf
        exact fun c hc => hspent c (hcons hc)
      · exact h.fresh.unnamed o' row' hf
    · rw [Store.find_insertOutput] at hf
      split at hf
      · cases hf
        exact absurd hcb hne
      · exact h.fresh.marked o' ho' row' hf hne
    · exact held_insertOutput (h.held o' ho' hh)
  undo s i h := by
    obtain ⟨s₁, h₁, hno⟩ := habsent
    refine h.deleted fun ho => ?_
    by_contra hn
    have := h₁.held _ ho (Bool.not_eq_false _ ▸ hn)
    unfold Store.held at this
    rw [hno i] at this
    cases this
  record s o _ h := h.of_find fun o' => Store.find_insertApplied s o.txid topic (o', topic)
  link s o l ho h := Awaiting.modified (f := fun o => { o with consumedBy := l }) h (fun _ => rfl) (hspent o ho).2
  applied s h := h.of_find fun o' => Store.find_insertApplied s body.id topic (o', topic)
  deep := by
    refine ⟨fun row => row.topic = topic ∧ row.outpoint ∉ tx.spent ∧ ∀ c ∈ row.outputsConsumed, c ∉ tx.spent,
      ⟨?_, ?_, ?_⟩, ?_⟩
    · intro s o c stale l h ho hc hf
      obtain ⟨hk1, hk2⟩ := Store.find_keyed hf
      rw [ho.1] at hf
      refine ⟨hk2.trans ho.1, ?_, fun c' hc' => (h.fresh.unnamed c stale hf c' hc').2⟩
      show stale.outpoint ∉ tx.spent
      rw [hk1]
      exact ho.2.2 c hc
    · intro s o c stale h ho hc _
      rw [ho.1]
      exact Awaiting.modified (f := fun row => { row with consumedBy := stale.consumedBy.filter (· ≠ o.outpoint) }) h
        (fun _ => rfl) (ho.2.2 c hc)
    · intro s o h ho _
      rw [ho.1]
      exact h.deleted fun hm => absurd hm ho.2.1
    · intro s o row ho h hf
      obtain ⟨hk1, hk2⟩ := Store.find_keyed hf
      refine ⟨hk2, ?_, fun c hc => (h.fresh.unnamed o row hf c hc).2⟩
      rw [hk1]
      exact (hspent o ho).2

end

end

section
variable {E : Engine} {sub : Subject} {mode : SubmitMode} {waits : AList fun _ : Topic => String} {v : TopicValidation}

theorem one_mutate {P Q : Store → Prop} (hP : ∀ s s', SameTopic s v.topic s' → P s → P s')
    (hQ : ∀ s s', SameTopic s v.topic s' → Q s → Q s')
    (happly : ∀ r, OneStore (fun _ => P) (applyTopic E none sub waits v r) fun _ _ => Q) :
    ∀ vs p, v ∈ vs → (vs.map TopicValidation.topic).Nodup → (∀ v ∈ vs, Found sub.tx v) →
    OneStore (fun _ => P) (mutate E none sub waits vs p) fun _ _ => Q
  | u :: rest, (steak, r), hv, hnd, hf => by
    obtain ⟨hu, hnd'⟩ := List.nodup_cons.mp (show (u.topic :: rest.map TopicValidation.topic).Nodup from hnd)
    have hrest : ∀ v ∈ rest, Found sub.tx v := fun v hv => hf v (List.mem_cons_of_mem _ hv)
    rcases List.mem_cons.mp hv with rfl | hv
    · refine one_bind (happly r) fun r1 => one_of_triple fun _ => ?_
      refine (keeps_mutate waits rest _ fun u hmem => ⟨(closed_otherTopic hQ sub.tx ?_).phase, hrest u hmem⟩).triple
      exact fun e => hu (e ▸ List.mem_map_of_mem hmem)
    · refine one_bind (R := fun _ _ d => P d.store) (one_of_triple fun _ => ?_) fun r1 =>
        one_mutate hP hQ happly rest _ hv hnd' hrest
      refine (keeps_applyTopic (closed_otherTopic hP sub.tx ?_) (hf u (List.mem_cons_self ..)) waits r).triple
      exact fun e => hu (e ▸ List.mem_map_of_mem hv)

theorem admits_steakRemoved (v : TopicValidation) (steak : Steak) (t : Topic) :
    ((steakRemoved waits v steak).lookup t).map AdmittanceInstructions.outputsToAdmit =
      (steak.lookup t).map AdmittanceInstructions.outputsToAdmit := by
  unfold steakRemoved
  split
  · rfl
  · split
    · rename_i entry he
      by_cases e : t = v.topic
      · subst e
        rw [AList.lookup_insert, he]
        rfl
      · rw [AList.lookup_insert_ne e]
    · rfl

theorem admits_mutate : ∀ vs p w t,
    ((mutate E bound sub waits vs p w).1.1.lookup t).map AdmittanceInstructions.outputsToAdmit =
      (p.1.lookup t).map AdmittanceInstructions.outputsToAdmit
  | [], _, _, _ => rfl
  | v :: rest, (steak, r), w, t => by
    refine (admits_mutate rest (steakRemoved waits v steak, (applyTopic E bound sub waits v r w).1)
      (applyTopic E bound sub waits v r w).2 t).trans ?_
    exact admits_steakRemoved v steak t

/-- Whenever the topic's manager judges `tx` it retains no coin and admits an output. -/
def HeadJudged (E : Engine) (topic : Topic) (tx : Tx) (offChainValues : Option Bytes) (mode : SubmitMode) : Prop :=
  ∀ manager n coins admittance, E.managers topic = some manager →
    manager.identifyAdmissibleOutputs n tx coins offChainValues mode false = .ok admittance →
    (∀ i ∈ coins, i ∉ admittance.coinsToRetain) ∧ admittance.outputsToAdmit ≠ []

theorem Validated.scanned (h : Validated E s sub.tx sub.offChainValues mode false v)
    (hj : v.judged = true) (hm : HeadJudged E v.topic sub.tx sub.offChainValues mode) : Scanned s sub.tx v := by
  obtain ⟨h1, h2⟩ := h.all hj
  obtain ⟨manager, n, hman, hans⟩ := h.answer hj
  refine ⟨by rw [h1, h2]; simp, h.found, fun o ho hh => ?_, (hm manager n _ _ hman hans).1⟩
  obtain ⟨row, hr⟩ := Option.isSome_iff_exists.mp hh
  exact ⟨row, h.held hj ho hr, (Store.find_keyed hr).1⟩

theorem one_applyTopic (hm : HeadJudged E v.topic sub.tx sub.offChainValues mode)
    (r : MutationReport) :
    OneStore (fun _ s => Awaiting s₀ sub.tx v.topic s ∧ Current E sub mode waits s v) (applyTopic E none sub waits v r)
      fun _ _ s => Withheld s₀ s sub.tx v.topic ∨ v.admittance.outputsToAdmit ≠ [] ∧
        Admitted s sub.tx v.topic v.admittance.outputsToAdmit := by
  have withheld {s : Store} (h : Awaiting s₀ sub.tx v.topic s) : Withheld s₀ s sub.tx v.topic :=
    ⟨h.held, fun i => by unfold Store.held; rw [h.fresh.absent i]; rfl⟩
  unfold applyTopic
  split
  · exact one_pure fun b d h => Or.inl (withheld h.1)
  · rename_i hdupe
    split
    · exact one_pure fun b d h => Or.inl (withheld h.1)
    · rename_i hfailed
      split
      · exact one_hold _ _ fun b d h => Or.inl (withheld h.1)
      · exact one_hold _ _ fun b d h => Or.inl (withheld h.1)
      · rename_i hread hwaits
        have hj : v.judged = true := by simp [TopicValidation.judged, hdupe, hfailed, hread]
        refine one_ghost fun d₁ => ?_
        refine one_fact (F := Awaiting s₀ sub.tx v.topic d₁.store ∧ Current E sub mode waits d₁.store v)
          (fun b d h => by rw [← h.1]; exact h.2) fun h => ?_
        obtain ⟨hawait, hcur⟩ := h
        have hval : Validated E d₁.store sub.tx sub.offChainValues mode false v := by
          rcases hcur with h | h | ⟨i, h⟩
          · exact h
          · rw [hwaits] at h; cases h
          · unfold Store.held at h; rw [hawait.fresh.absent i] at h; cases h
        obtain ⟨manager, n, hman, hans⟩ := hval.answer hj
        refine (one_applyJudged (hval.scanned hj hm) hawait.fresh r).conseq (fun b d h => by rw [h.1]) fun _ b d h => ?_
        rcases h with h | h
        · exact Or.inl ⟨fun o ho hh => h.1 o ho (hawait.held o ho hh), h.2⟩
        · exact Or.inr ⟨(hm manager n _ _ hman hans).2, h⟩

/-- The two shapes a topic may end in: the coins of `s₀` held and no output of
`tx`, or what the STEAK admits held and every coin gone or marked spent. -/
def HeadChain (s₀ : Store) (tx : Tx) (topic : Topic) (result : Except EngineError (Steak × MutationReport))
    (s : Store) : Prop :=
  Withheld s₀ s tx topic ∨ ∃ steak report admittance, result = .ok (steak, report) ∧
    steak.lookup topic = some admittance ∧ admittance.outputsToAdmit ≠ [] ∧
    Admitted s tx topic admittance.outputsToAdmit

theorem lands_awaiting {tx : Tx} {beef : Beef} {topics : List Topic} {rank : Txid → Nat}
    (hrank : ∀ tx ∈ beef.bodies, ∀ o ∈ tx.spent, rank o.txid < rank tx.id)
    (hothers : ∀ body ∈ beef.bodies, body.id ≠ tx.id → ∀ o ∈ body.spent, o ∉ tx.spent) :
    Lands (Awaiting s₀ tx topic) (fun c => rank c < rank tx.id) E none beef topics := by
  intro topic' _ body hbody ⟨s, hs, hun⟩
  have hr : rank body.id < rank tx.id := hun.reached
  have hid : body.id ≠ tx.id := fun e => by rw [e] at hr; exact Nat.lt_irrefl _ hr
  by_cases ht : topic' = topic
  · subst ht
    refine (closed_awaiting hid (fun o ho => ⟨fun e => ?_, hothers body hbody hid o ho⟩) ⟨s, hs, hun.absent⟩).phase
    have := hrank body hbody o ho
    rw [e] at this
    omega
  · exact (closed_otherTopic (fun s s' h => Awaiting.of_find h.find) body ht).phase

variable {vs : List TopicValidation}

theorem triple_admits_mutate (hf : ∀ v ∈ vs, Found sub.tx v) (p : Steak × MutationReport)
    (t : Topic) : Triple (fun _ => True) (mutate E none sub waits vs p) fun a _ =>
      (a.1.lookup t).map AdmittanceInstructions.outputsToAdmit = (p.1.lookup t).map AdmittanceInstructions.outputsToAdmit :=
  fun w ha _ => ⟨admits_mutate vs p w t, (keeps_mutate (I := fun _ => True) waits vs p
    (fun v hv => ⟨(closed_true _ _).phase, hf v hv⟩) w ha trivial).2⟩

theorem one_mutate_headChain {topics : List Topic} {rule₀ : Rule}
    {rule : Rule} {report : MutationReport} (hm : HeadJudged E topic sub.tx sub.offChainValues mode)
    (hnd : topics.Nodup) (hfound : ∀ v ∈ vs, Found sub.tx v) :
    OneStore (fun _ s => Awaiting s₀ sub.tx topic s ∧ Handed E sub mode topics rule₀ s (vs, rule))
      (mutate E none sub rule.waits vs (rule.steak, report))
      fun a _ s => HeadChain s₀ sub.tx topic (.ok a) s := by
  refine one_fact (F := vs.map TopicValidation.topic = topics ∧ ∀ v ∈ vs, rule.steak.lookup v.topic = some v.admittance)
    (fun b d h => ⟨h.2.sameTopics, h.2.steak⟩) fun ⟨htopics, hsteak⟩ => ?_
  by_cases ht : topic ∈ topics
  · rw [← htopics] at ht hnd
    obtain ⟨v, hv, rfl⟩ := List.mem_map.mp ht
    have phase := one_mutate (P := fun s => Awaiting s₀ sub.tx v.topic s ∧ Current E sub mode rule.waits s v)
      (Q := fun s => Withheld s₀ s sub.tx v.topic ∨ v.admittance.outputsToAdmit ≠ [] ∧
        Admitted s sub.tx v.topic v.admittance.outputsToAdmit)
      (fun s s' h hP => ⟨hP.1.of_find h.find, hP.2.congr h rfl⟩) (fun s s' h hQ => ?_) (one_applyTopic hm) vs
      (rule.steak, report) hv hnd hfound
    · refine (phase.and_triple (triple_admits_mutate hfound (rule.steak, report) v.topic)).conseq
        (fun b d h => ⟨⟨h.1, h.2.current v hv⟩, trivial⟩) fun a b d h => ?_
      rcases h.1 with hw | ⟨hne, had⟩
      · exact Or.inl hw
      · have hl := h.2
        rw [hsteak v hv] at hl
        obtain ⟨admittance, h1, h2⟩ := Option.map_eq_some_iff.mp hl
        exact Or.inr ⟨a.1, a.2, admittance, rfl, h1, by rw [h2]; exact hne, by rw [h2]; exact had⟩
    · unfold Withheld Admitted MarkedAt Store.held at hQ ⊢
      simpa only [h.find] using hQ
  · refine one_of_triple fun b => ?_
    refine (keeps_mutate (I := Awaiting s₀ sub.tx topic) rule.waits vs (rule.steak, report) fun v hv => ?_).triple.conseq
      (fun d h => h.1) fun a d h => Or.inl ⟨h.held, fun i => by unfold Store.held; rw [h.fresh.absent i]; rfl⟩
    refine ⟨(closed_otherTopic (fun s s' h => Awaiting.of_find h.find) sub.tx fun e => ht ?_).phase, hfound v hv⟩
    rw [← htopics, ← e]
    exact List.mem_map_of_mem hv

end

/-- Head-chain safety: a submit with at most one fault of a transaction new to
the topic, at whose judgements no coin is retained and an output is admitted,
leaves the topic in one of the two shapes. -/
theorem submitWithReport_headChain {E : Engine} {tagged : TaggedBeef} {mode : SubmitMode} {tx : Tx} {topic : Topic}
    {w : World Db} (hsubject : transactionFromBeef tagged.beef (subjectTxidOf E tagged.beef) = .ok tx)
    (htopics : tagged.topics.Nodup) (hacyclic : tagged.beef.Acyclic)
    (hothers : ∀ body ∈ tagged.beef.bodies, body.id ≠ tx.id → ∀ o ∈ body.spent, o ∉ tx.spent)
    (hfresh : Fresh w.state.store tx topic) (hjudged : HeadJudged E topic tx tagged.offChainValues mode)
    (hone : AtMostOne w) :
    HeadChain w.state.store tx topic (submitWithReport E tagged mode w).1
      (submitWithReport E tagged mode w).2.state.store := by
  obtain ⟨rank, hrank⟩ := hacyclic
  have hbody : tx ∈ tagged.beef.bodies := transactionFromBeef_mem hsubject
  have hnext : ∀ body ∈ tagged.beef.bodies, rank body.id < rank tx.id → ∀ o ∈ body.spent, rank o.txid < rank tx.id :=
    fun body hb hr o ho => Nat.lt_trans (hrank body hb o ho) hr
  have kept : Ensures (fun d : Db => Awaiting w.state.store tx topic d.store) (prepare E none false none
      (fun tx beef ran => some (landCarried E none mode .notNow tx beef ran)) tagged mode .notNow 0) fun r =>
      ∀ p, r = .ok p → Prepared (Awaiting w.state.store tx topic) (fun c => rank c < rank tx.id) Found E tagged false p :=
    keeps_prepare (fun tx' h => ?_) fun tx' _ => follows_found ..
  · have handed := @handed_prepare anyFaults E none mode .notNow tagged htopics
    have one : OneStore (fun _ => Awaiting w.state.store tx topic) (submitWithReport E tagged mode)
        fun r _ s => HeadChain w.state.store tx topic r s := by
      refine one_bind (R := fun r _ d => HeadChain w.state.store tx topic (r.map fun c => (c.steak, c.report)) d.store) ?_
        fun counted => one_pure fun _ _ h => h
      refine one_bind (one_of_triple fun b => (kept.and handed).conseq (fun d h => ⟨h, trivial⟩) fun _ _ h => h) fun r => ?_
      match r with
      | .error e =>
        refine one_pure fun b d h => Or.inl ⟨h.1.1.held, fun i => ?_⟩
        unfold Store.held
        rw [h.1.1.fresh.absent i]
        rfl
      | .ok (vs, sub, couldNotRun, rule) =>
        refine one_fact (F := Prepared (Awaiting w.state.store tx topic) (fun c => rank c < rank tx.id) Found E tagged false
          (vs, sub, couldNotRun, rule)) (fun b d h => h.1.2 _ rfl) fun hp => ?_
        have hsub : sub.tx = tx := Except.ok.inj (hp.subject.symm.trans hsubject)
        have hoff : sub.offChainValues = tagged.offChainValues := congrArg Subject.offChainValues hp.sub
        rw [← hsub, ← hoff] at hjudged
        refine one_ghost fun d₁ => ?_
        refine one_fact (F := ∃ rule₀, Handed E sub mode tagged.topics rule₀ d₁.store (vs, rule))
          (fun b d h => by rw [← h.1]; exact h.2.2 _ rfl) fun ⟨rule₀, hhanded⟩ => ?_
        let report : MutationReport := { walkCouldNotRun := couldNotRun, landedPredecessors := rule.landed
                                         landedWalksCouldNotRun := rule.breaches }
        have phase : OneStore (fun _ s => Awaiting w.state.store sub.tx topic s ∧
            Handed E sub mode tagged.topics rule₀ s (vs, rule)) (mutate E none sub rule.waits vs (rule.steak, report))
            fun a _ s => HeadChain w.state.store sub.tx topic (.ok a) s := one_mutate_headChain hjudged htopics hp.judged
        rw [hsub] at phase
        refine one_bind (phase.conseq (fun b d h => ?_) fun _ _ _ h => h) fun a => one_pure fun b d h => h
        exact ⟨h.2.1.1, by rw [h.1]; exact hhanded⟩
    obtain ⟨b, -, h⟩ := one false w hone ⟨hfresh, fun _ _ h => h⟩
    exact h
  · have htx : tx' = tx := Except.ok.inj (h.symm.trans hsubject)
    subst htx
    refine ⟨⟨hrank tx' hbody, hnext⟩, fun t _ ran => ?_⟩
    have hlands : Lands (Awaiting w.state.store tx' topic) (fun c => rank c < rank tx'.id) E none
      { tagged.beef with atomicTxid := some tx'.id } [t] := lands_awaiting hrank hothers
    exact keeps_landCarried hnext hlands tx' ran

/-! ## Where it fails -/

/-- A manager that retains no coin, admits `admits` of every transaction and names `names` as history. -/
def retainsNone (admits : List Nat) (names : List Outpoint) : TopicManager where
  identifyAdmissibleOutputs _ _ _ _ _ _ := .ok { outputsToAdmit := admits }
  identifyNeededInputs _ _ := .ok names
  syncExpiry _ := none
  readsOffChainValues := false

def oneManager (manager : TopicManager) : Engine := { managers := fun _ => some manager }

def firstOutput (txid : Txid) : Outpoint := ⟨txid, 0⟩

def spendsFirst (txid : Txid) : TxInput := { sourceTxid := some txid, sourceOutputIndex := 0 }

def unspentRow (txid : Txid) : Output :=
  { txid := txid, outputIndex := 0, outputScript := [], satoshis := 1, topic := "t", spent := false
    outputsConsumed := [], consumedBy := [] }

def storeOf (rows : List Output) : Store := rows.foldl Store.insertOutput Store.empty

def worldOf (rows : List Output) (outcomes : List Outcome) : World Db :=
  { state := { store := storeOf rows }, outcomes := outcomes }

def taggedOf (txs : List Tx) (topics : List Topic) : TaggedBeef := ⟨{ txs := txs.map fun tx => .full tx none }, topics, none⟩

/-- `T` spends the first output of `P`. -/
def spendsP : Tx := { id := "T", inputs := [spendsFirst "P"], outputs := [{}, {}] }

/-- `T` spends the first outputs of `P` and of `B`. -/
def spendsPB : Tx := { id := "T", inputs := [spendsFirst "P", spendsFirst "B"], outputs := [{}] }

/-- `B` spends the first output of `txid`. -/
def bodyB (txid : Txid) (h : txid ≠ "B") : Tx :=
  { id := "B", inputs := [spendsFirst txid], outputs := [{}], spendsOthers := by simp [spendsFirst, h] }

theorem headJudged_retainsNone {admits : List Nat} (h : admits ≠ []) (names : List Outpoint) (topic : Topic) (tx : Tx)
    (offChainValues : Option Bytes) (mode : SubmitMode) :
    HeadJudged (oneManager (retainsNone admits names)) topic tx offChainValues mode := by
  intro manager n coins admittance hman hans
  cases hman
  cases hans
  exact ⟨fun _ _ hi => (by cases hi), h⟩

/-- Whether some coin of `s₀` is gone or an output of `tx` below `n` is held. -/
def notWithheld (n : Nat) (s₀ s : Store) (tx : Tx) (topic : Topic) : Bool :=
  (tx.spent.any fun o => s₀.held (o, topic) && !s.held (o, topic)) ||
    (List.range n).any fun i => s.held (⟨tx.id, i⟩, topic)

def notAdmitted (s : Store) (tx : Tx) (topic : Topic) (admitted : List Nat) : Bool :=
  (admitted.any fun i => !s.held (⟨tx.id, i⟩, topic)) ||
    tx.spent.any fun o => (s.find (o, topic)).any fun row => !row.spent

def admittedOf (result : Except EngineError (Steak × MutationReport)) (topic : Topic) : Option (List Nat) :=
  (result.toOption.bind fun p => p.1.lookup topic).map AdmittanceInstructions.outputsToAdmit

theorem not_headChain {n : Nat} {tx : Tx}
    {result : Except EngineError (Steak × MutationReport)} (hw : notWithheld n s₀ s tx topic = true)
    (ha : (admittedOf result topic).all (notAdmitted s tx topic) = true) : ¬ HeadChain s₀ tx topic result s := by
  intro h
  rcases h with ⟨hheld, hnone⟩ | ⟨steak, report, admittance, rfl, hl, -, hall, hmarked⟩
  · rcases Bool.or_eq_true _ _ ▸ hw with hw | hw
    · obtain ⟨o, ho, h⟩ := List.any_eq_true.mp hw
      simp only [Bool.and_eq_true, Bool.not_eq_true'] at h
      rw [hheld o ho h.1] at h
      cases h.2
    · obtain ⟨i, -, h⟩ := List.any_eq_true.mp hw
      rw [hnone i] at h
      cases h
  · have ha' : notAdmitted s tx topic admittance.outputsToAdmit = true := by
      simpa [admittedOf, Except.toOption, hl] using ha
    rcases Bool.or_eq_true _ _ ▸ ha' with h | h
    · obtain ⟨i, hi, h⟩ := List.any_eq_true.mp h
      rw [hall i hi] at h
      cases h
    · obtain ⟨o, ho, h⟩ := List.any_eq_true.mp h
      cases hf : s.find (o, topic) with
      | none => rw [hf] at h; cases h
      | some row =>
        rw [hf, Option.any_some, hmarked o ho row hf] at h
        cases h

/-- The submit of `txs` over `rows`, whose call `n` faults and does not land. -/
def faultedSubmit (admits : List Nat) (names : List Outpoint) (txs : List Tx) (topics : List Topic) (rows : List Output)
    (n : Nat) : Except EngineError (Steak × MutationReport) × World Db :=
  submitWithReport (oneManager (retainsNone admits names)) (taggedOf txs topics) .historicalTx
    (worldOf rows (faultAt n (.fault "storage" false)))

/-- The fault in the second pass of a topic given twice; an output held before;
a coin with a consumer that is not marked; another body of the BEEF, or a stored
row, that spends a coin of the subject; a coin that names the subject's output. -/
theorem submitWithReport_not_headChain :
    let topicTwice := faultedSubmit [0] [] [spendsP] ["t", "t"] [unspentRow "P"] 11
    let halfLanded := [unspentRow "P", { unspentRow "T" with spent := true }]
    let resubmitted := faultedSubmit [0, 1] [] [spendsP] ["t"] halfLanded 3
    let consumed := [{ unspentRow "P" with consumedBy := [firstOutput "X"] }]
    let unmarked := faultedSubmit [0] [] [spendsP] ["t"] consumed 2
    let doubleSpent := faultedSubmit [0] [firstOutput "B"] [bodyB "P" (by decide), spendsPB] ["t"] [unspentRow "P"] 18
    let retained := [{ unspentRow "P" with spent := true, consumedBy := [firstOutput "Q"] },
      { unspentRow "Q" with outputsConsumed := [firstOutput "P"] }]
    let historyGone := faultedSubmit [0] [firstOutput "B"] [bodyB "Q" (by decide), spendsPB] ["t"] retained 21
    let naming := [{ unspentRow "P" with outputsConsumed := [firstOutput "T"] }]
    let ownDeleted := faultedSubmit [0] [] [spendsP] ["t"] naming 20
    ¬ HeadChain (storeOf [unspentRow "P"]) spendsP "t" topicTwice.1 topicTwice.2.state.store ∧
    ¬ HeadChain (storeOf halfLanded) spendsP "t" resubmitted.1 resubmitted.2.state.store ∧
    ¬ HeadChain (storeOf consumed) spendsP "t" unmarked.1 unmarked.2.state.store ∧
    ¬ HeadChain (storeOf [unspentRow "P"]) spendsPB "t" doubleSpent.1 doubleSpent.2.state.store ∧
    ¬ HeadChain (storeOf retained) spendsPB "t" historyGone.1 historyGone.2.state.store ∧
    ¬ HeadChain (storeOf naming) spendsP "t" ownDeleted.1 ownDeleted.2.state.store := by
  refine ⟨?_, ?_, ?_, ?_, ?_, ?_⟩ <;> exact not_headChain (n := 2) (by decide +kernel) (by decide +kernel)

theorem fresh_spendsP : Fresh (storeOf [unspentRow "P"]) spendsP "t" := by
  have only {o : Outpoint} {row : Output} (h : (storeOf [unspentRow "P"]).find (o, "t") = some row) : row = unspentRow "P" := by
    have e : storeOf [unspentRow "P"] = Store.empty.insertOutput (unspentRow "P") := rfl
    rw [e, Store.find_insertOutput] at h
    split at h
    · exact (Option.some.inj h).symm
    · cases h
  refine ⟨fun i => ?_, fun o row h c hc => ?_, fun o _ row h hne => ?_⟩
  · cases hf : (storeOf [unspentRow "P"]).find (⟨"T", i⟩, "t") with
    | none => exact hf
    | some row =>
      have hk := (Store.find_keyed hf).1
      rw [only hf] at hk
      exact absurd (show "P" = "T" from congrArg Outpoint.txid hk) (by decide)
  · rw [only h] at hc
    cases hc
  · rw [only h] at hne
    exact absurd rfl hne

theorem submitWithReport_headChain_insert_faults :
    HeadChain (storeOf [unspentRow "P"]) spendsP "t" (faultedSubmit [0] [] [spendsP] ["t"] [unspentRow "P"] 3).1
      (faultedSubmit [0] [] [spendsP] ["t"] [unspentRow "P"] 3).2.state.store ∧
    (faultedSubmit [0] [] [spendsP] ["t"] [unspentRow "P"] 3).2.state.store.held (firstOutput "P", "t") = true := by
  refine ⟨@submitWithReport_headChain (oneManager (retainsNone [0] [])) (taggedOf [spendsP] ["t"]) .historicalTx spendsP "t"
    (worldOf [unspentRow "P"] (faultAt 3 (.fault "storage" false))) (by decide) (by decide) ?_ ?_ fresh_spendsP
    (headJudged_retainsNone (by decide) _ _ _ _ _) (atMostOne_faultAt _ _), by decide⟩
  · refine ⟨fun txid => if txid = "T" then 1 else 0, ?_⟩
    decide
  · intro body hb hne
    rw [show body = spendsP from List.mem_singleton.mp hb] at hne
    exact absurd rfl hne

end OverlayEngine
