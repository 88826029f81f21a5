import OverlayEngine.Pot.PotRow

/-!
# The facts of a row's spender

Whatever writes the row, a height and a finality are of its pointer, and a verdict
and the facts of the spender they are kept beside.
-/

namespace OverlayEngine.Pot

/-! ## What a call supplies -/

namespace Call

/-- The call names `x` and brings the height `h` for it. -/
def height (x : Txid) (h : Nat) : Call → Prop
  | .markSpent y confirmed _ height _ => confirmed = true ∧ y = x ∧ height = some h
  | .displaceSpendFor _ y height _ => y = x ∧ height = some h
  | .markConfirmedForSpender y height => y = x ∧ height = some h
  | .reanchorConfirmedForSpender y height => y = x ∧ height = h
  | _ => False

def final (x : Txid) (f : Bool) : Call → Prop
  | .markSpent y _ _ _ final => y = x ∧ final = some f
  | .displaceSpendFor _ y _ final => y = x ∧ final = some f
  | .markSpentIfUnpointed y final => y = x ∧ final = some f
  | _ => False

def verdict (x : Txid) (v : VerdictWrite) : Call → Prop
  | .markSpent y _ verdict _ _ => y = x ∧ verdict = some v
  | .markVerdictForSpender y verdict => y = x ∧ verdict = v
  | _ => False

def size (x : Txid) (n : Nat) : Call → Prop
  | .storeSpenderFacts y facts => y = x ∧ facts.sizeBytes = n
  | _ => False

def fee (x : Txid) (n : Nat) : Call → Prop
  | .storeSpenderFacts y facts => y = x ∧ facts.feeSats = some n
  | _ => False

end Call

structure Facts (log : List Call) (r : Row) : Prop where
  unconfirmed : r.spentConfirmed = false → r.spentHeight = none
  height : ∀ h, r.spentHeight = some h → ∃ x, r.spendingTxid = some x ∧ ∃ c ∈ log, c.height x h
  final : ∀ f, r.spenderFinal = some f → ∃ x, r.spendingTxid = some x ∧ ∃ c ∈ log, c.final x f
  verdict : ∀ x, r.verdictTxid = some x → ∃ v, (∃ c ∈ log, c.verdict x v) ∧ r.verdict = some v.verdict ∧ r.settleSigners = v.settleSigners
  size : ∀ x n, r.spenderFactsTxid = some x → r.spenderSizeBytes = some n → ∃ c ∈ log, c.size x n
  fee : ∀ x n, r.spenderFactsTxid = some x → r.spenderFeeSats = some n → ∃ c ∈ log, c.fee x n

theorem Facts.cons {log : List Call} {r : Row} (h : Facts log r) (c : Call) : Facts (c :: log) r := by
  have more : ∀ {p : Call → Prop}, (∃ d ∈ log, p d) → ∃ d ∈ c :: log, p d :=
    fun ⟨d, hd, hp⟩ => ⟨d, List.mem_cons_of_mem c hd, hp⟩
  refine ⟨h.unconfirmed, ?_, ?_, ?_, ?_, ?_⟩
  · intro n hn
    obtain ⟨x, hx, hd⟩ := h.height n hn
    exact ⟨x, hx, more hd⟩
  · intro f hf
    obtain ⟨x, hx, hd⟩ := h.final f hf
    exact ⟨x, hx, more hd⟩
  · intro x hx
    obtain ⟨v, hd, hv⟩ := h.verdict x hx
    exact ⟨v, more hd, hv⟩
  · exact fun x n hx hn => more (h.size x n hx hn)
  · exact fun x n hx hn => more (h.fee x n hx hn)

/-! ## One update -/

section
variable {log : List Call} {r r' : Row} {now : Nat} {x y : Txid}

theorem guarded {p : Prop} [Decidable p] {a b : Row} (h : (if p then some a else none) = some b) : p ∧ b = a := by
  obtain ⟨hp, he⟩ := Option.ite_none_right_eq_some.mp h
  exact ⟨hp, (Option.some.inj he).symm⟩

variable {height : Option Nat} {final : Option Bool} {verdict : Option VerdictWrite} {confirmed : Bool}

theorem markSpent_some
    (h : r.markSpent x confirmed verdict height final now = some r') :
    (confirmed = true ∧
      r' = (r.spendWritten x verdict final now).confirmedWith (riding (decide (r.spendingTxid = some x)) height r.spentHeight)) ∨
    (confirmed = false ∧ r.spentConfirmed = false ∧ r' = r.spendWritten x verdict final now) := by
  cases confirmed with
  | true => exact Or.inl ⟨rfl, (Option.some.inj h).symm⟩
  | false =>
    cases hc : r.spentConfirmed with
    | true => simp [Row.markSpent, hc] at h
    | false => exact Or.inr ⟨rfl, rfl, by simpa [Row.markSpent, hc] using h.symm⟩

theorem riding_supplied {α : Type} {p : Txid → α → Prop} {incoming stored : Option α} {v : α}
    (h : riding (decide (r.spendingTxid = some x)) incoming stored = some v) (hin : incoming = some v → p x v)
    (hst : stored = some v → ∃ y, r.spendingTxid = some y ∧ p y v) : p x v := by
  rcases eq_of_riding h with h | ⟨hs, h⟩
  · exact hin h
  · obtain ⟨y, hy, hp⟩ := hst h
    rw [of_decide_eq_true hs] at hy
    rw [Option.some.inj hy]
    exact hp

theorem verdict_spendWritten (hf : Facts log r) {z : Txid}
    (hz : (r.spendWritten x verdict final now).verdictTxid = some z) :
    ∃ v, (∃ c ∈ Call.markSpent x confirmed verdict height final :: log, c.verdict z v) ∧
      (r.spendWritten x verdict final now).verdict = some v.verdict ∧ (r.spendWritten x verdict final now).settleSigners = v.settleSigners := by
  cases verdict with
  | none => exact (hf.cons _).verdict z hz
  | some v =>
    obtain rfl : x = z := Option.some.inj hz
    exact ⟨v, ⟨_, List.mem_cons_self .., rfl, rfl⟩, rfl, rfl⟩

theorem spendWritten_kept (r : Row) (x : Txid) (verdict : Option VerdictWrite) (final : Option Bool) (now : Nat) :
    (r.spendWritten x verdict final now).spentHeight = r.spentHeight ∧
      (r.spendWritten x verdict final now).spenderFactsTxid = r.spenderFactsTxid ∧
      (r.spendWritten x verdict final now).spenderSizeBytes = r.spenderSizeBytes ∧
      (r.spendWritten x verdict final now).spenderFeeSats = r.spenderFeeSats := by
  cases verdict <;> exact ⟨rfl, rfl, rfl, rfl⟩

theorem facts_markSpent
    (hf : Facts log r) (h : r.markSpent x confirmed verdict height final now = some r') :
    Facts (.markSpent x confirmed verdict height final :: log) r' := by
  have hc := hf.cons (.markSpent x confirmed verdict height final)
  obtain ⟨hpointer, -⟩ := r.spendWritten_pointer x verdict final now
  obtain ⟨hheight, hftx, hsize, hfee⟩ := spendWritten_kept r x verdict final now
  have hfinal : ∀ f, riding (decide (r.spendingTxid = some x)) final r.spenderFinal = some f →
      ∃ c ∈ Call.markSpent x confirmed verdict height final :: log, c.final x f := by
    intro f hv
    refine riding_supplied (p := fun y f => ∃ c ∈ Call.markSpent x confirmed verdict height final :: log, c.final y f) hv ?_ (hc.final f)
    exact fun he => ⟨_, List.mem_cons_self .., rfl, he⟩
  rcases markSpent_some h with ⟨hconfirmed, rfl⟩ | ⟨-, hno, rfl⟩
  · refine ⟨fun h => (by cases h), ?_, fun f hv => ⟨x, hpointer, hfinal f hv⟩, fun z hz => verdict_spendWritten hf hz, ?_, ?_⟩
    · intro n hn
      refine ⟨x, hpointer, ?_⟩
      refine riding_supplied (p := fun y n => ∃ c ∈ Call.markSpent x confirmed verdict height final :: log, c.height y n) hn ?_ (hc.height n)
      exact fun he => ⟨_, List.mem_cons_self .., hconfirmed, rfl, he⟩
    · exact fun z n hz hn => hc.size z n (hftx ▸ hz) (hsize ▸ hn)
    · exact fun z n hz hn => hc.fee z n (hftx ▸ hz) (hfee ▸ hn)
  · -- an unconfirmed write is accepted only while the row has no height
    have hnone : (r.spendWritten x verdict final now).spentHeight = none := hheight.trans (hf.unconfirmed hno)
    refine ⟨fun _ => hnone, ?_, fun f hv => ⟨x, hpointer, hfinal f hv⟩, fun z hz => verdict_spendWritten hf hz, ?_, ?_⟩
    · intro n hn
      rw [hn] at hnone
      cases hnone
    · exact fun z n hz hn => hc.size z n (hftx ▸ hz) (hsize ▸ hn)
    · exact fun z n hz hn => hc.fee z n (hftx ▸ hz) (hfee ▸ hn)

theorem facts_markVerdictForSpender {v : VerdictWrite} (hf : Facts log r) (h : r.markVerdictForSpender x v = some r') :
    Facts (.markVerdictForSpender x v :: log) r' := by
  have hc := hf.cons (.markVerdictForSpender x v)
  obtain ⟨-, rfl⟩ := guarded h
  refine ⟨hc.unconfirmed, hc.height, hc.final, ?_, hc.size, hc.fee⟩
  intro z hz
  obtain rfl : x = z := Option.some.inj hz
  exact ⟨v, ⟨_, List.mem_cons_self .., rfl, rfl⟩, rfl, rfl⟩

theorem facts_displaceSpendFor (hf : Facts log r)
    (h : r.displaceSpendFor x y height final now = some r') : Facts (.displaceSpendFor x y height final :: log) r' := by
  have hc := hf.cons (.displaceSpendFor x y height final)
  obtain ⟨-, rfl⟩ := guarded h
  refine ⟨fun h => (by cases h), ?_, ?_, hc.verdict, hc.size, hc.fee⟩
  · exact fun n hn => ⟨y, rfl, _, List.mem_cons_self .., rfl, hn⟩
  · exact fun f hv => ⟨y, rfl, _, List.mem_cons_self .., rfl, hv⟩

theorem facts_markSpentIfUnpointed (hf : Facts log r) (h : r.markSpentIfUnpointed x final now = some r') :
    Facts (.markSpentIfUnpointed x final :: log) r' := by
  have hc := hf.cons (.markSpentIfUnpointed x final)
  obtain ⟨⟨-, -, hno⟩, rfl⟩ := guarded h
  refine ⟨fun _ => hc.unconfirmed hno, ?_, ?_, hc.verdict, hc.size, hc.fee⟩
  · intro n hn
    have hnone := hc.unconfirmed hno
    rw [show r.spentHeight = some n from hn] at hnone
    cases hnone
  · exact fun f hv => ⟨x, rfl, _, List.mem_cons_self .., rfl, hv⟩

theorem facts_markConfirmedForSpender (hf : Facts log r) (h : r.markConfirmedForSpender x height = some r') :
    Facts (.markConfirmedForSpender x height :: log) r' := by
  have hc := hf.cons (.markConfirmedForSpender x height)
  obtain ⟨hx, rfl⟩ := guarded h
  refine ⟨fun h => (by cases h), ?_, hc.final, hc.verdict, hc.size, hc.fee⟩
  intro n hn
  cases height with
  | none => exact hc.height n hn
  | some m => exact ⟨x, hx, _, List.mem_cons_self .., rfl, hn⟩

theorem facts_demoted (hf : Facts log r) (c : Call) : Facts (c :: log) r.demoted := by
  have hc := hf.cons c
  exact ⟨fun _ => rfl, fun n hn => (by cases hn), hc.final, hc.verdict, hc.size, hc.fee⟩

theorem facts_reanchorConfirmedForSpender {height : Nat} (hf : Facts log r) (h : r.reanchorConfirmedForSpender x height = some r') :
    Facts (.reanchorConfirmedForSpender x height :: log) r' := by
  have hc := hf.cons (.reanchorConfirmedForSpender x height)
  obtain ⟨⟨hx, hconf⟩, rfl⟩ := guarded h
  refine ⟨fun h => ?_, ?_, hc.final, hc.verdict, hc.size, hc.fee⟩
  · rw [show r.spentConfirmed = false from h] at hconf
    cases hconf
  · exact fun n hn => ⟨x, hx, _, List.mem_cons_self .., rfl, Option.some.inj hn⟩

theorem facts_storeSpenderFacts {facts : TxFacts} (hf : Facts log r) (h : r.storeSpenderFacts x facts = some r') :
    Facts (.storeSpenderFacts x facts :: log) r' := by
  have hc := hf.cons (.storeSpenderFacts x facts)
  obtain ⟨-, rfl⟩ := guarded h
  refine ⟨hc.unconfirmed, hc.height, hc.final, hc.verdict, ?_, ?_⟩
  · intro z n hz hn
    obtain rfl : x = z := Option.some.inj hz
    by_cases hs : r.spenderFactsTxid = some x
    · simp only [hs, decide_true, if_true, Option.or_eq_some_iff] at hn
      rcases hn with hn | ⟨-, hn⟩
      · exact hc.size x n hs hn
      · exact ⟨_, List.mem_cons_self .., rfl, Option.some.inj hn⟩
    · simp only [hs, decide_false, Bool.false_eq_true, if_false] at hn
      exact ⟨_, List.mem_cons_self .., rfl, Option.some.inj hn⟩
  · intro z n hz hn
    obtain rfl : x = z := Option.some.inj hz
    by_cases hs : r.spenderFactsTxid = some x
    · simp only [hs, decide_true, if_true, Option.or_eq_some_iff] at hn
      rcases hn with hn | ⟨-, hn⟩
      · exact hc.fee x n hs hn
      · exact ⟨_, List.mem_cons_self .., rfl, hn⟩
    · simp only [hs, decide_false, Bool.false_eq_true, if_false] at hn
      exact ⟨_, List.mem_cons_self .., rfl, hn⟩

/-! ## A readmission -/

/-- `r` with the decoded columns of `r'`. -/
def Row.withDecoded (r r' : Row) : Row :=
  { r with
    lockKind := r'.lockKind
    pubA := r'.pubA
    pubB := r'.pubB
    pubTower := r'.pubTower
    payPkhA := r'.payPkhA
    payPkhB := r'.payPkhB
    rakePkh := r'.rakePkh
    stakeA := r'.stakeA
    stakeB := r'.stakeB
    feeSats := r'.feeSats
    recoveryHeight := r'.recoveryHeight
    potSats := r'.potSats
    paramsDecoded := r'.paramsDecoded
    fundingSizeBytes := r'.fundingSizeBytes
    fundingFeeSats := r'.fundingFeeSats }

theorem readmitted (record : PotRecord) (fills : Bool) :
    Row.storeRecord (some r) record now fills = r.withDecoded (Row.storeRecord (some r) record now fills) := by
  unfold Row.storeRecord
  dsimp only
  split <;> rfl

theorem facts_withDecoded (hf : Facts log r) (r' : Row) : Facts log (r.withDecoded r') :=
  ⟨hf.unconfirmed, hf.height, hf.final, hf.verdict, hf.size, hf.fee⟩

theorem facts_inserted (record : PotRecord) (fills : Bool) : Facts log (Row.storeRecord none record now fills) := by
  have h : Facts log (Row.inserted record now) :=
    ⟨fun _ => rfl, fun _ h => (by cases h), fun _ h => (by cases h), fun _ h => (by cases h), fun _ _ h => (by cases h), fun _ _ h => (by cases h)⟩
  unfold Row.storeRecord
  dsimp only
  split
  · exact ⟨h.unconfirmed, h.height, h.final, h.verdict, h.size, h.fee⟩
  · exact h

theorem facts_update {c : Call} (hf : Facts log r) (h : r.update now c = some r') : Facts (c :: log) r' := by
  cases c with
  | storeRecord record fills =>
    obtain rfl := Option.some.inj h
    rw [readmitted]
    exact facts_withDecoded (hf.cons _) _
  | markSpent x confirmed verdict height final => exact facts_markSpent hf h
  | markVerdictForSpender x verdict => exact facts_markVerdictForSpender hf h
  | displaceSpendFor x y height final => exact facts_displaceSpendFor hf h
  | markSpentIfUnpointed x final => exact facts_markSpentIfUnpointed hf h
  | markConfirmedForSpender x height => exact facts_markConfirmedForSpender hf h
  | demoteConfirmedForSpender x =>
    obtain ⟨-, rfl⟩ := guarded h
    exact facts_demoted hf _
  | demoteConfirmedForSpenderAt x judged =>
    obtain ⟨-, rfl⟩ := guarded h
    exact facts_demoted hf _
  | reanchorConfirmedForSpender x height => exact facts_reanchorConfirmedForSpender hf h
  | storeSpenderFacts x facts => exact facts_storeSpenderFacts hf h
  | storeSpenderPayouts x a b =>
    obtain ⟨-, rfl⟩ := guarded h
    have hc := hf.cons (.storeSpenderPayouts x a b)
    exact ⟨hc.unconfirmed, hc.height, hc.final, hc.verdict, hc.size, hc.fee⟩

/-! ## The pointer and the first spend -/

theorem update_pointer {c : Call} (h : r.update now c = some r') :
    (r'.spendingTxid = r.spendingTxid ∧ r'.firstSpentAt = r.firstSpentAt) ∨
      (r'.firstSpentAt = r.firstSpentAt.or (some now) ∧
        (r.spentConfirmed = false ∨ ∃ x verdict height final, c = .markSpent x true verdict height final ∧ r'.spendingTxid = some x)) := by
  cases c with
  | storeRecord record fills =>
    obtain rfl := Option.some.inj h
    rw [readmitted]
    exact Or.inl ⟨rfl, rfl⟩
  | markSpent x confirmed verdict height final =>
    obtain ⟨hp, hfirst⟩ := r.spendWritten_pointer x verdict final now
    rcases markSpent_some h with ⟨rfl, rfl⟩ | ⟨rfl, hno, rfl⟩
    · exact Or.inr ⟨hfirst, Or.inr ⟨x, verdict, height, final, rfl, hp⟩⟩
    · exact Or.inr ⟨hfirst, Or.inl hno⟩
  | displaceSpendFor x y height final =>
    obtain ⟨⟨-, hno⟩, rfl⟩ := guarded h
    exact Or.inr ⟨rfl, Or.inl hno⟩
  | markSpentIfUnpointed x final =>
    obtain ⟨⟨-, -, hno⟩, rfl⟩ := guarded h
    exact Or.inr ⟨rfl, Or.inl hno⟩
  | markVerdictForSpender x verdict =>
    obtain ⟨-, rfl⟩ := guarded h
    exact Or.inl ⟨rfl, rfl⟩
  | markConfirmedForSpender x height =>
    obtain ⟨-, rfl⟩ := guarded h
    exact Or.inl ⟨rfl, rfl⟩
  | demoteConfirmedForSpender x =>
    obtain ⟨-, rfl⟩ := guarded h
    exact Or.inl ⟨rfl, rfl⟩
  | demoteConfirmedForSpenderAt x judged =>
    obtain ⟨-, rfl⟩ := guarded h
    exact Or.inl ⟨rfl, rfl⟩
  | reanchorConfirmedForSpender x height =>
    obtain ⟨-, rfl⟩ := guarded h
    exact Or.inl ⟨rfl, rfl⟩
  | storeSpenderFacts x facts =>
    obtain ⟨-, rfl⟩ := guarded h
    exact Or.inl ⟨rfl, rfl⟩
  | storeSpenderPayouts x a b =>
    obtain ⟨-, rfl⟩ := guarded h
    exact Or.inl ⟨rfl, rfl⟩

end

/-! ## A run -/

variable {w : World}

theorem step_row {m : Call × Nat} {r : Row} (hr : w.row = some r) :
    ∃ r', (w.step m).row = some r' ∧ (r.update m.2 m.1 = some r' ∨ r' = r) := by
  cases hu : r.update m.2 m.1 with
  | none => exact ⟨r, by simp [World.step, exec, hr, hu], Or.inr rfl⟩
  | some r' => exact ⟨r', by simp [World.step, exec, hr, hu], Or.inl rfl⟩

def World.Facts (w : World) : Prop := ∀ r, w.row = some r → Pot.Facts w.log r

theorem facts_step (h : w.Facts) (m : Call × Nat) : (w.step m).Facts := by
  cases hr : w.row with
  | some r =>
    obtain ⟨r', hr', hu⟩ := step_row (m := m) hr
    intro r'' hr''
    rw [hr'] at hr''
    cases hr''
    rcases hu with hu | rfl
    · exact facts_update (h r hr) hu
    · exact (h _ hr).cons m.1
  | none =>
    intro r' hr'
    simp only [World.step, exec, hr] at hr'
    split at hr'
    · cases hr'
      exact facts_inserted _ _
    · cases hr'

theorem facts_run (h : w.Facts) (calls : List (Call × Nat)) : (w.run calls).Facts := by
  induction calls generalizing w with
  | nil => exact h
  | cons m ms ih => exact ih (facts_step h m)

structure FactsKept (w : World) : Prop where
  /-- A confirmed pointer is moved by a confirmed `mark_spent` only. -/
  pointer : ∀ m r r', w.row = some r → (w.step m).row = some r' → r.spentConfirmed = true → r'.spendingTxid ≠ r.spendingTxid →
    ∃ x verdict height final, m.1 = .markSpent x true verdict height final ∧ r'.spendingTxid = some x
  unconfirmed : ∀ r, w.row = some r → r.spentConfirmed = false → r.spentHeight = none
  height : ∀ r h, w.row = some r → r.spentHeight = some h → ∃ x, r.spendingTxid = some x ∧ ∃ c ∈ w.log, c.height x h
  final : ∀ r f, w.row = some r → r.spenderFinal = some f → ∃ x, r.spendingTxid = some x ∧ ∃ c ∈ w.log, c.final x f
  verdict : ∀ r x, w.row = some r → r.verdictTxid = some x → r.spendingTxid = some x →
    ∃ v, (∃ c ∈ w.log, c.verdict x v) ∧ r.verdict = some v.verdict ∧ r.settleSigners = v.settleSigners
  facts : ∀ r x, w.row = some r → r.spenderFactsTxid = some x → r.spendingTxid = some x →
    (∀ n, r.spenderSizeBytes = some n → ∃ c ∈ w.log, c.size x n) ∧ ∀ n, r.spenderFeeSats = some n → ∃ c ∈ w.log, c.fee x n
  firstSpentAt : ∀ m r r' t, w.row = some r → (w.step m).row = some r' → r.firstSpentAt = some t → r'.firstSpentAt = some t
  /-- A readmission writes the decoded columns only. -/
  readmission : ∀ m r r' record fills, w.row = some r → (w.step m).row = some r' → m.1 = .storeRecord record fills → r' = r.withDecoded r'

/-- Over every run of calls on one row, with any spenders, facts and clocks. -/
theorem facts_kept (calls : List (Call × Nat)) : FactsKept (World.run {} calls) := by
  have hf : (World.run {} calls).Facts := facts_run (by intro r hr; cases hr) calls
  refine ⟨?_, fun r hr => (hf r hr).unconfirmed, fun r h hr => (hf r hr).height h, fun r f hr => (hf r hr).final f,
    fun r x hr hv _ => (hf r hr).verdict x hv, fun r x hr hv _ => ⟨fun n => (hf r hr).size x n hv, fun n => (hf r hr).fee x n hv⟩, ?_, ?_⟩
  · intro m r r' hr hr' hc hne
    obtain ⟨r'', hr'', hu⟩ := step_row (m := m) hr
    rw [hr''] at hr'
    cases hr'
    rcases hu with hu | rfl
    · rcases update_pointer hu with ⟨he, -⟩ | ⟨-, hno | hm⟩
      · exact absurd he hne
      · rw [hno] at hc
        cases hc
      · exact hm
    · exact absurd rfl hne
  · intro m r r' t hr hr' ht
    obtain ⟨r'', hr'', hu⟩ := step_row (m := m) hr
    rw [hr''] at hr'
    cases hr'
    rcases hu with hu | rfl
    · rcases update_pointer hu with ⟨-, he⟩ | ⟨he, -⟩
      · exact he.trans ht
      · rw [he, ht, Option.some_or]
    · exact ht
  · intro m r r' record fills hr hr' hm
    obtain ⟨c, now⟩ := m
    subst hm
    simp only [World.step, exec, hr, Row.update, Option.getD_some, Option.some.injEq] at hr'
    rw [← hr']
    exact readmitted record fills

end OverlayEngine.Pot
