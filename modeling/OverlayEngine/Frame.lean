import OverlayEngine.Submit

/-!
# What a submit can change

`Closed I tx topic` lists every change of the store that Phase 3 of `tx` in
`topic` can make. A predicate closed under them is kept by the whole phase,
whatever faults (`keeps_mutate`), and one closed under those of every body a
BEEF carries is kept by the landings too (`keeps_submitCounted`).
-/

namespace OverlayEngine

open Faulty

/-- `I` is kept by the recursive delete of the rows in `R`. -/
structure DeepClosed (I : Store → Prop) (R : Output → Prop) : Prop where
  next : ∀ s o c stale l, I s → R o → c ∈ o.outputsConsumed → s.find (c, o.topic) = some stale →
    R { stale with consumedBy := l }
  unlink : ∀ s o c stale, I s → R o → c ∈ o.outputsConsumed → s.find (c, o.topic) = some stale →
    I (s.updateConsumedBy (c, o.topic) (stale.consumedBy.filter (· ≠ o.outpoint)))
  delete : ∀ s o, I s → R o → o.consumedBy = [] → I (s.deleteOutput (o.outpoint, o.topic))

/-- `I` is kept by the deletes of the coins `tx` spends. -/
structure DeleteClosed (I : Store → Prop) (tx : Tx) (topic : Topic) : Prop where
  record : ∀ s o, o ∈ tx.spent → I s → I (s.insertApplied o.txid topic)
  deep : ∃ R, DeepClosed I R ∧ ∀ s o row, o ∈ tx.spent → I s → s.find (o, topic) = some row → R row

/-- `I` is kept by every change Phase 3 of `tx` in `topic` can make. -/
structure Closed (I : Store → Prop) (tx : Tx) (topic : Topic) : Prop extends DeleteClosed I tx topic where
  mark : ∀ s o, o ∈ tx.spent → I s → I (s.markUtxoAsSpent (o, topic))
  insert : ∀ s row, row.txid = tx.id → row.topic = topic → row.outputsConsumed ⊆ tx.spent → row.spent = false →
    row.consumedBy = [] → I s → I (s.insertOutput row)
  undo : ∀ s i, I s → I (s.deleteOutput (⟨tx.id, i⟩, topic))
  link : ∀ s o l, o ∈ tx.spent → I s → I (s.updateConsumedBy (o, topic) l)
  applied : ∀ s, I s → I (s.insertApplied tx.id topic)

abbrev KeepsStore [Faults] {α : Type} (I : Store → Prop) (x : M α) : Prop := Keeps (fun d : Db => I d.store) x

section
variable [Faults] {I : Store → Prop} {E : Engine} {bound : Bound} {sub : Subject} {topic : Topic}

theorem keeps_findOutput (k : Key) : KeepsStore I (findOutput bound k) := keeps_call fun _ h => h

theorem keeps_hooked (n : Notice) : KeepsStore I (hooked bound n) := keeps_call fun _ h => h

theorem keeps_holdUnapplied (txid : Txid) (topic : Topic) : KeepsStore I (holdUnapplied txid topic) :=
  keeps_update fun _ h => h

theorem keeps_forgetUnlanded (txid : Txid) (topic : Topic) : KeepsStore I (forgetUnlanded txid topic) :=
  keeps_update fun _ h => h

/-! ## The recursive delete -/

theorem keeps_noLongerRetained (o : Output) : ∀ l, KeepsStore I (noLongerRetained bound o l)
  | [] => keeps_pure _
  | _ :: rest => keeps_bind (keeps_hooked _) fun _ => keeps_noLongerRetained o rest

theorem keeps_deleteConsumed {R : Output → Prop} (hI : DeepClosed I R) {recur : Output → M (Except String Unit)}
    (hrec : ∀ o, R o → KeepsStore I (recur o)) {o : Output} (ho : R o) :
    ∀ l, (∀ c ∈ l, c ∈ o.outputsConsumed) → KeepsStore I (deleteConsumed bound recur o l)
  | [], _ => keeps_pure _
  | c :: rest, hl => by
    have ih := keeps_deleteConsumed hI hrec ho rest fun c' hc' => hl c' (List.mem_cons_of_mem _ hc')
    have hc : c ∈ o.outputsConsumed := hl c (List.mem_cons_self ..)
    unfold deleteConsumed
    refine triple_bind (R := fun a d => I d.store ∧ ∀ row, a = .ok row → d.store.find (c, o.topic) = row)
      (triple_get (fun d h => ⟨h, fun row e => Except.ok.inj e⟩) fun e d h => ⟨h, fun row he => by cases he⟩) fun a => ?_
    match a with
    | .error e => exact ih.triple.conseq (fun _ h => h.1) fun _ _ h => h
    | .ok none => exact ih.triple.conseq (fun _ h => h.1) fun _ _ h => h
    | .ok (some stale) =>
      -- the row is the store's own, so it is next and its link may go
      refine triple_ghost fun d₀ hd => ?_
      have hf : d₀.store.find (c, o.topic) = some stale := hd.2 _ rfl
      have unlinked := hI.unlink d₀.store o c stale hd.1 ho hc hf
      have recur : KeepsStore I (recur { stale with consumedBy := stale.consumedBy.filter (· ≠ o.outpoint) }) :=
        hrec _ (hI.next _ o c stale _ hd.1 ho hc hf)
      refine triple_bind (R := fun _ d => I d.store) (triple_call (fun d e => ?_) fun _ d e => ?_) fun b => ?_
      · rw [e]; exact unlinked
      · rw [e]; exact ⟨hd.1, unlinked⟩
      match b with
      | .error e => exact keeps_pure _
      | .ok () => exact keeps_bind recur fun _ => ih

theorem keeps_deleteUtxoDeep {R : Output → Prop} (hI : DeepClosed I R) :
    ∀ fuel o, R o → KeepsStore I (deleteUtxoDeep E bound fuel o)
  | 0, _, _ => keeps_pure _
  | fuel + 1, o, ho => by
    have loop : KeepsStore I (deleteConsumed bound (deleteUtxoDeep E bound fuel) o o.outputsConsumed) :=
      keeps_deleteConsumed hI (keeps_deleteUtxoDeep hI fuel) ho o.outputsConsumed fun _ h => h
    unfold deleteUtxoDeep
    split
    · rename_i hc
      have deleted : KeepsStore I (deleteOutput bound (o.outpoint, o.topic)) :=
        keeps_call fun d h => hI.delete d.store o h ho (List.isEmpty_iff.mp hc)
      refine keeps_bind deleted fun r => ?_
      match r with
      | .error e => exact keeps_pure _
      | .ok () => exact keeps_bind (keeps_noLongerRetained o _) fun _ => loop
    · exact loop

/-! ## The phases of a topic -/

theorem keeps_notifySpent (coin : Output) (input : Nat) :
    ∀ l r, KeepsStore I (notifySpent bound sub topic coin input r l)
  | [], _ => keeps_pure _
  | ls :: rest, r => by
    refine keeps_bind (keeps_hooked _) fun a => ?_
    match a with
    | .ok () => exact keeps_notifySpent coin input rest r
    | .error e => exact keeps_bind (keeps_notifySpent coin input rest _) fun _ => keeps_pure _

theorem keeps_notifyAdmitted (index : Nat) : ∀ l, KeepsStore I (notifyAdmitted bound sub topic index l)
  | [] => keeps_pure _
  | ls :: rest => by
    refine keeps_bind (keeps_hooked _) fun a => ?_
    match a with
    | .ok () => exact keeps_notifyAdmitted index rest
    | .error e => exact keeps_pure _

theorem keeps_readBack : ∀ l, KeepsStore I (readBack bound topic l)
  | [] => keeps_pure _
  | stale :: rest => by
    refine keeps_bind (keeps_findOutput _) fun a => ?_
    match a with
    | .ok (some _) => exact keeps_readBack rest
    | .ok none => exact keeps_pure _
    | .error _ => exact keeps_pure _

theorem keeps_allHeld (skip : Bool) (l : List Output) : KeepsStore I (allHeld bound topic skip l) := by
  unfold allHeld
  split
  · exact keeps_pure _
  · exact keeps_readBack l

theorem keeps_markPrevious (hmark : ∀ s o, o ∈ sub.tx.spent → I s → I (s.markUtxoAsSpent (o, topic)))
    (retain : List Nat) : ∀ ps r, (∀ p ∈ ps, p.2.outpoint ∈ sub.tx.spent) → KeepsStore I (markPrevious E bound sub topic retain r ps)
  | [], _, _ => keeps_pure _
  | (input, coin) :: rest, r, h => by
    have marked : KeepsStore I (markUtxoAsSpent bound (coin.outpoint, topic)) :=
      keeps_call fun d hd => hmark d.store _ (h _ (List.mem_cons_self ..)) hd
    refine keeps_bind marked fun a => ?_
    refine keeps_bind (keeps_notifySpent coin input _ _) fun b => ?_
    refine keeps_bind ?_ fun _ => keeps_pure _
    exact keeps_markPrevious hmark retain rest _ fun p hp => h p (List.mem_cons_of_mem _ hp)

theorem keeps_insertAdmitted {consumed : List Outpoint}
    (hinsert : ∀ s index now, I s → I (s.insertOutput (admittedOutput sub topic consumed index now))) :
    ∀ l r, KeepsStore I (insertAdmitted E bound sub topic consumed r l)
  | [], _ => keeps_pure _
  | index :: rest, r => by
    refine keeps_bind (keeps_read _) fun now => ?_
    have inserted : KeepsStore I (insertOutput bound (admittedOutput sub topic consumed index now)) :=
      keeps_call fun d hd => hinsert d.store index now hd
    refine keeps_bind inserted fun a => ?_
    match a with
    | .error e => exact keeps_pure _
    | .ok () =>
      refine keeps_bind (keeps_notifyAdmitted index _) fun b => ?_
      match b with
      | .error e => exact keeps_pure _
      | .ok () => exact keeps_bind (keeps_insertAdmitted hinsert rest r) fun _ => keeps_pure _

theorem keeps_undoInserts (hundo : ∀ s i, I s → I (s.deleteOutput (⟨sub.tx.id, i⟩, topic))) :
    ∀ l r, KeepsStore I (undoInserts bound sub topic r l)
  | [], _ => keeps_pure _
  | index :: rest, r => by
    have ih := fun r => keeps_undoInserts hundo rest r
    refine keeps_bind (keeps_findOutput _) fun a => ?_
    match a with
    | .error e => exact ih _
    | .ok none => exact ih _
    | .ok (some row) =>
      have deleted : KeepsStore I (deleteOutput bound (⟨sub.tx.id, index⟩, topic)) :=
        keeps_call fun d hd => hundo d.store index hd
      simp only
      split
      · refine keeps_bind deleted fun b => ?_
        match b with
        | .ok () => exact ih _
        | .error e => exact ih _
      · exact ih _

theorem keeps_undoIf (hundo : ∀ s i, I s → I (s.deleteOutput (⟨sub.tx.id, i⟩, topic))) (held : Bool) (l : List Nat) (r : MutationReport) :
    KeepsStore I (undoIf bound sub topic held r l) := by
  unfold undoIf
  split
  · exact keeps_undoInserts hundo l r
  · exact keeps_pure _

theorem keeps_deleteStale (hI : DeleteClosed I sub.tx topic) : ∀ l r, (∀ o ∈ l, o.outpoint ∈ sub.tx.spent) →
    KeepsStore I (deleteStale E bound topic r l)
  | [], _, _ => keeps_pure _
  | stale :: rest, r, h => by
    have hs : stale.outpoint ∈ sub.tx.spent := h _ (List.mem_cons_self ..)
    have ih := fun r => keeps_deleteStale hI rest r fun o ho => h o (List.mem_cons_of_mem _ ho)
    obtain ⟨R, hR, hfound⟩ := hI.deep
    have recorded : KeepsStore I (insertAppliedTransaction bound stale.txid topic) :=
      keeps_call fun d hd => hI.record d.store stale.outpoint hs hd
    refine keeps_bind recorded fun a => ?_
    match a with
    | .error e => exact keeps_bind (ih _) fun _ => keeps_pure _
    | .ok () =>
      refine keeps_bind (keeps_forgetUnlanded _ _) fun _ => ?_
      refine triple_bind (R := fun a d => I d.store ∧ ∀ row, a = .ok row → d.store.find (stale.outpoint, topic) = row)
        (triple_get (fun d h => ⟨h, fun row e => Except.ok.inj e⟩) fun e d h => ⟨h, fun row he => by cases he⟩) fun a => ?_
      match a with
      | .error e => exact (keeps_bind (ih _) fun _ => keeps_pure _).triple.conseq (fun _ h => h.1) fun _ _ h => h
      | .ok none => exact (ih _).triple.conseq (fun _ h => h.1) fun _ _ h => h
      | .ok (some row) =>
        refine triple_fact (F := R row) (fun d h => hfound _ _ row hs h.1 (h.2 _ rfl)) fun hrow => ?_
        refine Triple.conseq (P := fun d => I d.store) (keeps_bind (keeps_read _) fun depth => ?_) (fun _ h => h.1) fun _ _ h => h
        refine keeps_bind (keeps_deleteUtxoDeep hR depth row hrow) fun b => ?_
        match b with
        | .ok () => exact keeps_bind (ih _) fun _ => keeps_pure _
        | .error e => exact keeps_bind (ih _) fun _ => keeps_pure _

theorem keeps_linkConsumed (hlink : ∀ s o l, o ∈ sub.tx.spent → I s → I (s.updateConsumedBy (o, topic) l))
    (newUtxos : List Outpoint) : ∀ l r, l ⊆ sub.tx.spent → KeepsStore I (linkConsumed bound topic newUtxos r l)
  | [], _, _ => keeps_pure _
  | c :: rest, r, h => by
    have hc : c ∈ sub.tx.spent := h (List.mem_cons_self ..)
    have ih := fun r => keeps_linkConsumed hlink newUtxos rest r fun o ho => h (List.mem_cons_of_mem _ ho)
    refine keeps_bind (keeps_findOutput _) fun a => ?_
    match a with
    | .error e => exact ih _
    | .ok none => exact ih _
    | .ok (some o) =>
      refine keeps_bind (keeps_call fun d hd => hlink d.store c _ hc hd) fun b => ?_
      match b with
      | .ok () => exact ih _
      | .error e => exact ih _

end

/-! ## One topic, and Phase 3 -/

/-- Every previous coin of `v` is one `tx` spends. -/
def Found (tx : Tx) (v : TopicValidation) : Prop := ∀ row ∈ v.previousOutputs, row.outpoint ∈ tx.spent

variable {v : TopicValidation}

theorem mem_staleCoins {row : Output} (h : row ∈ v.staleCoins) : row ∈ v.previousOutputs := by
  obtain ⟨⟨i, o⟩, hm, he⟩ := List.mem_filterMap.mp h
  split at he
  · cases he
  · cases he; exact (List.of_mem_zip hm).2

theorem mem_outputsConsumed {c : Outpoint} (h : c ∈ v.outputsConsumed) :
    ∃ row ∈ v.previousOutputs, row.outpoint = c := by
  obtain ⟨⟨i, o⟩, hm, he⟩ := List.mem_filterMap.mp h
  split at he
  · cases he; exact ⟨o, (List.of_mem_zip hm).2, rfl⟩
  · cases he

theorem Found.stale {tx : Tx} (h : Found tx v) : ∀ o ∈ v.staleCoins, o.outpoint ∈ tx.spent :=
  fun o ho => h o (mem_staleCoins ho)

theorem Found.consumed {tx : Tx} (h : Found tx v) : v.outputsConsumed ⊆ tx.spent := by
  intro c hc
  obtain ⟨row, hr, rfl⟩ := mem_outputsConsumed hc
  exact h row hr

/-- Phase 3 of `tx` in `topic` keeps `I`. -/
def PhaseKeeps [Faults] (I : Store → Prop) (E : Engine) (bound : Bound) (tx : Tx) (topic : Topic) : Prop :=
  ∀ (sub : Subject) (waits : AList fun _ : Topic => String) (v : TopicValidation) (r : MutationReport), sub.tx = tx →
    v.topic = topic → Found tx v → KeepsStore I (applyTopic E bound sub waits v r)

section
variable [Faults] {I : Store → Prop} {E : Engine} {bound : Bound} {sub : Subject}

theorem keeps_hold {α : Type} {a : α} (txid : Txid) (topic : Topic) :
    KeepsStore I (do holdUnapplied txid topic; pure a) := keeps_bind (keeps_holdUnapplied _ _) fun _ => keeps_pure _

section
variable {v : TopicValidation} (hI : Closed I sub.tx v.topic) (hv : Found sub.tx v)
include hI hv

theorem keeps_linkAndRecord (n : Nat) (r : MutationReport) (attempted : List Nat) :
    KeepsStore I (linkAndRecord bound sub v n r attempted) := by
  unfold linkAndRecord
  refine keeps_bind (keeps_linkConsumed hI.link _ _ _ hv.consumed) fun r => ?_
  split
  · exact keeps_hold _ _
  · refine keeps_bind (keeps_call fun d hd => hI.applied d.store hd) fun b => ?_
    match b with
    | .ok () => exact keeps_bind (keeps_forgetUnlanded _ _) fun _ => keeps_pure _
    | .error e => exact keeps_hold _ _

theorem keeps_deleteAndRecord (n : Nat) (r : MutationReport) (attempted : List Nat) :
    KeepsStore I (deleteAndRecord E bound sub v n r attempted) := by
  unfold deleteAndRecord
  refine keeps_bind keeps_isDue fun _ => ?_
  refine keeps_bind (keeps_deleteStale hI.toDeleteClosed _ _ hv.stale) fun a => ?_
  obtain ⟨r, faulted, started⟩ := a
  simp only
  split
  · refine keeps_bind keeps_isDue fun _ => ?_
    refine keeps_bind keeps_renew fun _ => ?_
    refine keeps_bind (keeps_allHeld _ _) fun held => ?_
    exact keeps_bind (keeps_undoIf hI.undo held _ _) fun _ => keeps_hold _ _
  · exact keeps_linkAndRecord hI hv _ _ _

theorem keeps_insertAndRecord (n : Nat) (r : MutationReport) : KeepsStore I (insertAndRecord E bound sub v n r) := by
  unfold insertAndRecord
  refine keeps_bind (keeps_insertAdmitted (fun s _ _ h => hI.insert s _ rfl rfl hv.consumed rfl rfl h) _ _) fun a => ?_
  obtain ⟨r, attempted, faulted⟩ := a
  simp only
  split
  · refine keeps_bind keeps_renew fun _ => ?_
    exact keeps_bind (keeps_undoInserts hI.undo _ _) fun _ => keeps_hold _ _
  · exact keeps_deleteAndRecord hI hv _ _ _

theorem keeps_applyJudged (r : MutationReport) : KeepsStore I (applyJudged E bound sub v r) := by
  unfold applyJudged
  refine keeps_bind (keeps_markPrevious hI.mark _ _ _ fun p hp => hv _ (List.of_mem_zip hp).2) fun a => ?_
  obtain ⟨r, mf, nf⟩ := a
  simp only
  split
  · exact keeps_hold _ _
  · exact keeps_insertAndRecord hI hv _ _

end

theorem keeps_applyTopic (hI : Closed I sub.tx v.topic) (hv : Found sub.tx v)
    (waits : AList fun _ : Topic => String) (r : MutationReport) :
    KeepsStore I (applyTopic E bound sub waits v r) := by
  unfold applyTopic
  split
  · exact keeps_pure _
  · split
    · exact keeps_pure _
    · split
      · exact keeps_hold _ _
      · exact keeps_hold _ _
      · exact keeps_applyJudged hI hv r

theorem Closed.phase {tx : Tx} {topic : Topic} (h : Closed I tx topic) : PhaseKeeps I E bound tx topic := by
  rintro sub waits v r rfl rfl hv
  exact keeps_applyTopic h hv waits r

theorem keeps_mutate (waits : AList fun _ : Topic => String) :
    ∀ vs p, (∀ v ∈ vs, PhaseKeeps I E bound sub.tx v.topic ∧ Found sub.tx v) → KeepsStore I (mutate E bound sub waits vs p)
  | [], _, _ => keeps_pure _
  | v :: rest, (steak, r), h => by
    obtain ⟨hI, hv⟩ := h v (List.mem_cons_self ..)
    refine keeps_bind (hI sub waits v r rfl rfl hv) fun r => ?_
    exact keeps_mutate waits rest _ fun v' hv' => h v' (List.mem_cons_of_mem _ hv')

end

end OverlayEngine
