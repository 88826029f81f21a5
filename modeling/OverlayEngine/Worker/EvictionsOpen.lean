import OverlayEngine.Worker.Evictions

/-!
# An open eviction keeps its rows out

A sequence of evictions and readmissions of any transactions. An eviction takes
every row of its transaction out and releases every pointer to it. A readmission
puts back the twin rows of its transaction, and a twin row can be keyed by, or
point to, another transaction that is still evicted.
-/

namespace OverlayEngine.Evictions

namespace Store

variable {τ β : Type} [DecidableEq τ]

/-- No row of a moved table is keyed by `y`, and no unconfirmed pointer names it. -/
structure Clear (σ : Store τ β) (y : τ) : Prop where
  keyed : ∀ p ∈ movedTables, ∀ r ∈ σ.table p.1, r.keyed p.2 y = false
  names : ∀ r ∈ σ.table .potRecords, r.names y = false

def Out (σ : Store τ β) : Prop := ∀ y, σ.isOpen y = true → σ.Clear y

/-! ## An eviction -/

/-- Every row is a row of `σ` with the same keys, its pointer kept or released. -/
def Within (σ' σ : Store τ β) : Prop :=
  ∀ t, ∀ r ∈ σ'.table t, ∃ r₀ ∈ σ.table t, r.txid = r₀.txid ∧ r.potTxid = r₀.potTxid ∧ ∀ y, r.names y = true → r₀.names y = true

theorem Within.refl (σ : Store τ β) : σ.Within σ := fun _ r hr => ⟨r, hr, rfl, rfl, fun _ h => h⟩

theorem Within.trans {σ₁ σ₂ σ₃ : Store τ β} (h₁ : σ₁.Within σ₂) (h₂ : σ₂.Within σ₃) : σ₁.Within σ₃ := by
  intro t r hr
  obtain ⟨r₁, hr₁, ht₁, hp₁, hn₁⟩ := h₁ t r hr
  obtain ⟨r₂, hr₂, ht₂, hp₂, hn₂⟩ := h₂ t r₁ hr₁
  exact ⟨r₂, hr₂, ht₁.trans ht₂, hp₁.trans hp₂, fun y h => hn₂ y (hn₁ y h)⟩

theorem keyed_congr {r r₀ : Row τ β} (ht : r.txid = r₀.txid) (hp : r.potTxid = r₀.potTxid) (c : KeyCol) (y : τ) :
    r.keyed c y = r₀.keyed c y := by
  cases c <;> simp [Row.keyed, ht, hp]

variable {σ σ' : Store τ β}

theorem Clear.within {y : τ} (h : σ.Clear y) (hw : σ'.Within σ) : σ'.Clear y where
  keyed := fun p hp r hr => by
    obtain ⟨r₀, hr₀, ht, hpot, -⟩ := hw p.1 r hr
    rw [keyed_congr ht hpot]
    exact h.keyed p hp r₀ hr₀
  names := fun r hr => by
    obtain ⟨r₀, hr₀, -, -, hn⟩ := hw _ r hr
    rw [← Bool.not_eq_true]
    intro hname
    have := h.names r₀ hr₀
    rw [hn y hname] at this
    cases this

variable {σ : Store τ β} {x : τ} {p : Tbl × KeyCol} {r : Row τ β} {t : Tbl}

theorem mem_move (h : r ∈ (σ.move x p).table t) :
    r ∈ σ.table t ∧ (t = p.1 → r.keyed p.2 x = false) := by
  by_cases ht : t = p.1
  · subst ht
    simp only [move, Function.update_self, List.mem_filter, Bool.not_eq_true'] at h
    exact ⟨h.1, fun _ => h.2⟩
  · simp only [move, Function.update_of_ne ht] at h
    exact ⟨h, fun h => (ht h).elim⟩

theorem mem_moves (ps : List (Tbl × KeyCol))
    (h : r ∈ (ps.foldl (fun σ p => σ.move x p) σ).table t) : r ∈ σ.table t ∧ ∀ p ∈ ps, t = p.1 → r.keyed p.2 x = false := by
  induction ps generalizing σ with
  | nil => exact ⟨h, fun _ hp => by cases hp⟩
  | cons p ps ih =>
    obtain ⟨hmem, hrest⟩ := ih h
    obtain ⟨hmem', hp⟩ := mem_move hmem
    exact ⟨hmem', List.forall_mem_cons.mpr ⟨hp, hrest⟩⟩

theorem ledger_moves (x : τ) (ps : List (Tbl × KeyCol)) (σ : Store τ β) : (ps.foldl (fun σ p => σ.move x p) σ).ledger = σ.ledger := by
  induction ps generalizing σ with
  | nil => rfl
  | cons p ps ih => exact ih (σ.move x p)

theorem mem_release (h : r ∈ (σ.release x).table t) :
    ∃ r₀ ∈ σ.table t, r.txid = r₀.txid ∧ r.potTxid = r₀.potTxid ∧
      (∀ y, r.names y = true → r₀.names y = true) ∧ (t = .potRecords → r.names x = false) := by
  by_cases ht : t = .potRecords
  · subst ht
    simp only [release, Function.update_self, List.mem_map] at h
    obtain ⟨r₀, hr₀, rfl⟩ := h
    refine ⟨r₀, hr₀, ?_⟩
    cases hn : r₀.names x with
    | true => exact ⟨rfl, rfl, fun y h => by simp [Row.names, Row.released] at h, fun _ => by simp [Row.names, Row.released]⟩
    | false => exact ⟨rfl, rfl, fun y h => h, fun _ => hn⟩
  · simp only [release, Function.update_of_ne ht] at h
    exact ⟨r, h, rfl, rfl, fun _ h => h, fun h => (ht h).elim⟩

variable {x y : τ}

theorem openMarker_else (h : y ≠ x) (now : Nat) : (σ.openMarker x now).ledger y = σ.ledger y :=
  Function.update_of_ne h _ _

theorem openMarker_self (σ : Store τ β) (x : τ) (now : Nat) : (σ.openMarker x now).ledger x = some (marked now (σ.ledger x)) :=
  Function.update_self _ _ _

theorem openMarker_cases (σ : Store τ β) (x : τ) (now : Nat) :
    (σ.openMarker x now).isOpen x = true ∨ (σ.openMarker x now).readmittedAfter x now = true := by
  simp only [isOpen, readmittedAfter, openMarker_self, Option.any_some]
  cases hl : σ.ledger x with
  | none => exact .inl rfl
  | some l =>
    cases hr : l.readmittedAt with
    | none => exact .inl (by simp [marked, hr])
    | some at' =>
      by_cases hlt : now < at'
      · exact .inr (by simp [marked, hr, hlt])
      · exact .inl (by simp [marked, hr, hlt])

omit [DecidableEq τ] in
theorem marked_open {l : Ledger τ} (h : l.readmittedAt = none) (now : Nat) : marked now (some l) = l := by
  simp [marked, h]

omit [DecidableEq τ] in
theorem isOpen_iff : σ.isOpen x = true ↔ ∃ l, σ.ledger x = some l ∧ l.readmittedAt = none := by
  simp [isOpen, Option.any_eq_true]

omit [DecidableEq τ] in
theorem not_readmittedAfter (h : σ.isOpen x = true) (now : Nat) : σ.readmittedAfter x now = false := by
  obtain ⟨l, hl, hr⟩ := isOpen_iff.mp h
  simp [readmittedAfter, hl, hr]

theorem batch_open (h : σ.isOpen x = true) (now : Nat) (released : List (τ × Nat)) :
    ∃ σ', σ.batch x now released = some σ' ∧ σ'.Within σ ∧ σ'.Clear x ∧ σ'.isOpen x = true ∧ ∀ y, y ≠ x → σ'.ledger y = σ.ledger y := by
  obtain ⟨l, hl, hr⟩ := isOpen_iff.mp h
  have hopened : (σ.openMarker x now).ledger x = some l := by rw [openMarker_self, hl, marked_open hr]
  have hopen : (σ.openMarker x now).isOpen x = true := isOpen_iff.mpr ⟨l, hopened, hr⟩
  have hmem {t : Tbl} {r : Row τ β} (hrow : r ∈ (((((σ.openMarker x now).moveAll x).mergeReleases x released).release x).openMarker x now).table t) :
      ∃ r₀ ∈ σ.table t, r.txid = r₀.txid ∧ r.potTxid = r₀.potTxid ∧ (∀ y, r.names y = true → r₀.names y = true) ∧
        (t = .potRecords → r.names x = false) ∧ ∀ p ∈ movedTables, t = p.1 → r₀.keyed p.2 x = false := by
    obtain ⟨r₀, hr₀, ht, hp, hn, hx⟩ := mem_release hrow
    obtain ⟨hr₀, hkeys⟩ := mem_moves movedTables hr₀
    exact ⟨r₀, hr₀, ht, hp, hn, hx, hkeys⟩
  refine ⟨_, by rw [batch, if_pos hopen], ?_, ⟨?_, ?_⟩, ?_, ?_⟩
  · intro t r hrow
    obtain ⟨r₀, hr₀, ht, hp, hn, -⟩ := hmem hrow
    exact ⟨r₀, hr₀, ht, hp, hn⟩
  · intro p hp r hrow
    obtain ⟨r₀, -, ht, hpot, -, -, hkeys⟩ := hmem hrow
    rw [keyed_congr ht hpot]
    exact hkeys p hp rfl
  · intro r hrow
    obtain ⟨r₀, -, -, -, -, hx, -⟩ := hmem hrow
    exact hx rfl
  · have hmoved : ((σ.openMarker x now).moveAll x).ledger x = some l := by rw [moveAll, ledger_moves, hopened]
    refine isOpen_iff.mpr ⟨_, openMarker_self _ _ _, ?_⟩
    simp only [release, mergeReleases, Function.update_self, hmoved, Option.map_some, hr, Option.isNone_none, if_true]
    rw [marked_open rfl]
  · intro y hy
    rw [openMarker_else hy]
    simp only [release, mergeReleases, Function.update_of_ne hy, moveAll, ledger_moves]
    exact openMarker_else hy now

theorem pass_open (h : σ.isOpen x = true) (now : Nat) (repointed : List (τ × Nat)) :
    (σ.pass x now repointed).Within σ ∧ (σ.pass x now repointed).Clear x ∧ (σ.pass x now repointed).isOpen x = true ∧
      ∀ y, y ≠ x → (σ.pass x now repointed).ledger y = σ.ledger y := by
  obtain ⟨σ', hb, hσ'⟩ := batch_open h now (σ.snapshot x repointed).released
  rw [pass, hb, Option.getD_some]
  exact hσ'

omit [DecidableEq τ] in
theorem isOpen_congr {y : τ} (h : σ'.ledger y = σ.ledger y) : σ'.isOpen y = σ.isOpen y := by
  rw [isOpen, isOpen, h]

variable {κ : Type} [DecidableEq κ] (pk : Tbl → Option τ → Nat → β → κ) {now : Nat}

theorem evict_cases {repointed : List (τ × Nat)} (h : σ.evict pk x now repointed = some σ') :
    (σ'.isOpen x = false ∨ σ'.Clear x) ∧ σ'.Within σ ∧ ∀ y, y ≠ x → σ'.ledger y = σ.ledger y := by
  have hothers (y : τ) (hy : y ≠ x) : (σ.openMarker x now).ledger y = σ.ledger y := openMarker_else hy now
  unfold evict at h
  cases hyield : (σ.openMarker x now).readmittedAfter x now with
  | true =>
    simp only [hyield, if_true, Option.some.injEq] at h
    subst h
    refine ⟨.inl ?_, Within.refl σ, hothers⟩
    cases hopen : (σ.openMarker x now).isOpen x with
    | false => rfl
    | true =>
      rw [not_readmittedAfter hopen] at hyield
      cases hyield
  | false =>
    have hopen := (openMarker_cases σ x now).resolve_right (by rw [hyield]; exact Bool.false_ne_true)
    simp only [hyield, Bool.false_eq_true, if_false] at h
    obtain ⟨hw₁, hc₁, ho₁, hl₁⟩ := pass_open hopen now repointed
    generalize (σ.openMarker x now).pass x now repointed = first at *
    generalize hsecond : (if (first.snapshot x repointed).work then first.pass x now repointed else first) = second at *
    -- the second pass, where the first left something
    obtain ⟨hw₂, hc₂, ho₂, hl₂⟩ : second.Within first ∧ second.Clear x ∧ second.isOpen x = true ∧ ∀ y, y ≠ x → second.ledger y = first.ledger y := by
      rw [← hsecond]
      split
      · exact pass_open ho₁ now repointed
      · exact ⟨Within.refl first, hc₁, ho₁, fun _ _ => rfl⟩
    rw [not_readmittedAfter ho₂] at h
    simp only [Bool.false_eq_true, if_false, Option.some.injEq] at h
    subst h
    exact ⟨.inr hc₂, hw₂.trans (hw₁.trans (Within.refl σ)), fun y hy => (hl₂ y hy).trans ((hl₁ y hy).trans (hothers y hy))⟩

theorem evict_out {repointed : List (τ × Nat)} (h : σ.Out) (hev : σ.evict pk x now repointed = some σ') :
    σ'.Out := by
  obtain ⟨hx, hw, hl⟩ := evict_cases pk hev
  intro y hy
  by_cases hyx : y = x
  · subst hyx
    exact hx.resolve_left (by rw [hy]; simp)
  · rw [isOpen_congr (hl y hyx)] at hy
    exact (h y hy).within hw

/-! ## A readmission -/

/-- A twin row keyed by `x` is not keyed by `y` too, and does not point to it. -/
def Apart (σ : Store τ β) (x y : τ) : Prop :=
  ∀ p ∈ movedTables, ∀ r ∈ σ.twin p.1, r.keyed p.2 x = true →
    (∀ q ∈ movedTables, q.1 = p.1 → r.keyed q.2 y = false) ∧ (p.1 = .potRecords → r.names y = false)

instance (σ : Store τ β) (x y : τ) : Decidable (σ.Apart x y) :=
  inferInstanceAs (Decidable (∀ p ∈ movedTables, ∀ r ∈ σ.twin p.1, r.keyed p.2 x = true →
    (∀ q ∈ movedTables, q.1 = p.1 → r.keyed q.2 y = false) ∧ (p.1 = .potRecords → r.names y = false)))

omit [DecidableEq τ] in
theorem mem_insertIgnore {rows : List (Row τ β)} {r r' : Row τ β} (h : r ∈ insertIgnore pk t rows r') : r ∈ rows ∨ r = r' := by
  unfold insertIgnore at h
  split at h
  · exact .inl h
  · simpa using h

omit [DecidableEq τ] in
theorem mem_foldl_insertIgnore {rows new : List (Row τ β)} (h : r ∈ new.foldl (insertIgnore pk t) rows) :
    r ∈ rows ∨ r ∈ new := by
  induction new generalizing rows with
  | nil => exact .inl h
  | cons r' new ih =>
    rcases ih h with h | h
    · rcases mem_insertIgnore pk h with h | rfl
      · exact .inl h
      · exact .inr List.mem_cons_self
    · exact .inr (List.mem_cons_of_mem r' h)

theorem mem_copyBack (h : r ∈ (σ.copyBack pk x p).table t) :
    r ∈ σ.table t ∨ t = p.1 ∧ r ∈ σ.twin p.1 ∧ r.keyed p.2 x = true := by
  by_cases ht : t = p.1
  · subst ht
    simp only [copyBack, Function.update_self] at h
    refine (mem_foldl_insertIgnore pk h).imp_right fun h => ?_
    rw [List.mem_filter] at h
    exact ⟨rfl, h⟩
  · simp only [copyBack, Function.update_of_ne ht] at h
    exact .inl h

theorem mem_dropTwin (h : r ∈ (σ.dropTwin x p).twin t) : r ∈ σ.twin t := by
  by_cases ht : t = p.1
  · subst ht
    simp only [dropTwin, Function.update_self, List.mem_filter] at h
    exact h.1
  · simpa only [dropTwin, Function.update_of_ne ht] using h

theorem restoreKey_ledger (h : σ.restoreKey pk x p = some σ') : σ'.ledger = σ.ledger := by
  unfold restoreKey at h
  split at h
  · cases h
    rfl
  · dsimp only at h
    split at h <;> cases h
    rfl

theorem restoreTwins_induct {P : Store τ β → Prop}
    (hkey : ∀ p ∈ movedTables, ∀ σ σ', P σ → σ.restoreKey pk x p = some σ' → P σ') (hP : P σ)
    (h : σ.restoreTwins pk x = some σ') : P σ' := by
  have go (ps : List (Tbl × KeyCol)) (hps : ∀ p ∈ ps, p ∈ movedTables) (σ : Store τ β) (hP : P σ)
      (h : ps.foldlM (fun σ p => σ.restoreKey pk x p) σ = some σ') : P σ' := by
    induction ps generalizing σ with
    | nil =>
      cases h
      exact hP
    | cons p ps ih =>
      obtain ⟨σ₁, h₁, h₂⟩ := Option.bind_eq_some_iff.mp h
      obtain ⟨hp, hps⟩ := List.forall_mem_cons.mp hps
      exact ih hps σ₁ (hkey p hp σ σ₁ hP h₁) h₂
  exact go movedTables (fun _ h => h) σ hP h

theorem restoreTwins_ledger (h : σ.restoreTwins pk x = some σ') : σ'.ledger = σ.ledger :=
  restoreTwins_induct pk (P := fun s => s.ledger = σ.ledger) (fun _ _ _ _ hs hk => (restoreKey_ledger pk hk).trans hs) rfl h

theorem restoreKey_clear (hp : p ∈ movedTables) (hc : σ.Clear y) (ha : σ.Apart x y)
    (h : σ.restoreKey pk x p = some σ') : σ'.Clear y ∧ σ'.Apart x y := by
  unfold restoreKey at h
  split at h
  · cases h
    exact ⟨hc, ha⟩
  · dsimp only at h
    split at h
    · cases h
    · cases h
      refine ⟨⟨fun q hq r hr => ?_, fun r hr => ?_⟩, fun q hq r hr hx => ha q hq r (mem_dropTwin hr) hx⟩
      · rcases mem_copyBack pk hr with hr | ⟨ht, hr, hx⟩
        · exact hc.keyed q hq r hr
        · exact (ha p hp r hr hx).1 q hq ht
      · rcases mem_copyBack pk hr with hr | ⟨ht, hr, hx⟩
        · exact hc.names r hr
        · exact (ha p hp r hr hx).2 ht.symm

theorem restoreTwins_clear (hc : σ.Clear y) (ha : σ.Apart x y) (h : σ.restoreTwins pk x = some σ') :
    σ'.Clear y ∧ σ'.Apart x y :=
  restoreTwins_induct pk (P := fun s => s.Clear y ∧ s.Apart x y) (fun _ hp _ _ hs hk => restoreKey_clear pk hp hs.1 hs.2 hk) ⟨hc, ha⟩ h

theorem clear_map (hy : y ≠ x) (hc : σ.Clear y) (f : Row τ β → Row τ β)
    (hf : ∀ r, f r = r ∨ (f r).txid = r.txid ∧ (f r).potTxid = r.potTxid ∧ (f r).spendingTxid = some x) :
    Clear { σ with table := Function.update σ.table .potRecords ((σ.table .potRecords).map f) } y := by
  refine ⟨fun p hp r hr => ?_, fun r hr => ?_⟩
  · by_cases ht : p.1 = .potRecords
    · simp only [ht, Function.update_self, List.mem_map] at hr
      obtain ⟨r₀, hr₀, rfl⟩ := hr
      have hkeys : (f r₀).keyed p.2 y = r₀.keyed p.2 y := by
        rcases hf r₀ with heq | ⟨hk₁, hk₂, -⟩
        · rw [heq]
        · exact keyed_congr hk₁ hk₂ _ _
      rw [hkeys]
      exact hc.keyed p hp r₀ (ht ▸ hr₀)
    · simp only [Function.update_of_ne ht] at hr
      exact hc.keyed p hp r hr
  · simp only [Function.update_self, List.mem_map] at hr
    obtain ⟨r₀, hr₀, rfl⟩ := hr
    rcases hf r₀ with heq | ⟨-, -, hs⟩
    · rw [heq]
      exact hc.names r₀ hr₀
    · have : (some x : Option τ) ≠ some y := fun h => hy (Option.some.inj h).symm
      simp [Row.names, hs, this]

theorem remarkSpends_frame (x : τ) (now : Nat) (os : List (τ × Nat)) (σ : Store τ β) :
    (σ.remarkSpends x now os).twin = σ.twin ∧ (σ.remarkSpends x now os).ledger = σ.ledger := by
  induction os generalizing σ with
  | nil => exact ⟨rfl, rfl⟩
  | cons o os ih => exact ih (σ.remark x now o)

theorem remarkSpends_clear (hy : y ≠ x) (now : Nat) (os : List (τ × Nat)) (hc : σ.Clear y) : (σ.remarkSpends x now os).Clear y := by
  induction os generalizing σ with
  | nil => exact hc
  | cons o os ih =>
    refine ih (clear_map hy hc _ fun r => ?_)
    split
    · exact .inr ⟨rfl, rfl, rfl⟩
    · exact .inl rfl

theorem joinHopSpends_ledger (x : τ) (os : List (Hop τ)) (σ : Store τ β) : (σ.joinHopSpends x os).ledger = σ.ledger := by
  induction os generalizing σ with
  | nil => rfl
  | cons o os ih => exact ih (σ.markIfUnpointed x o)

theorem joinHopSpends_clear (hy : y ≠ x) (os : List (Hop τ)) (hc : σ.Clear y) : (σ.joinHopSpends x os).Clear y := by
  induction os generalizing σ with
  | nil => exact hc
  | cons o os ih =>
    refine ih (clear_map hy hc _ fun r => ?_)
    split
    · exact .inr ⟨rfl, rfl, rfl⟩
    · exact .inl rfl

variable (joins : Store τ β → τ → List (Hop τ))

theorem stamp_else (h : y ≠ x) (now : Nat) : (σ.stamp x now).ledger y = σ.ledger y :=
  Function.update_of_ne h _ _

theorem stamp_closed (σ : Store τ β) (x : τ) (now : Nat) : (σ.stamp x now).isOpen x = false := by
  simp only [isOpen, stamp, Function.update_self]
  cases σ.ledger x with
  | none => rfl
  | some l => cases hr : l.readmittedAt <;> simp [hr]

theorem Apart.frame (h : σ.Apart x y) (ht : σ'.twin = σ.twin) : σ'.Apart x y := by
  unfold Apart
  rw [ht]
  exact h

theorem readmit_ledger (hopen : σ.isOpen x = true) (h : σ.readmitIfEvicted pk joins x now = some σ') :
    σ'.ledger = (σ.stamp x now).ledger := by
  obtain ⟨l, hl, hr⟩ := isOpen_iff.mp hopen
  simp only [readmitIfEvicted, hl, hr, Option.isSome_none, Bool.false_eq_true, if_false] at h
  obtain ⟨restored, hres, h⟩ := Option.bind_eq_some_iff.mp h
  obtain ⟨done, hbelt, rfl⟩ := Option.map_eq_some_iff.mp h
  have hstamped : ((restored.remarkSpends x now l.releasedSpends).stamp x now).ledger = (σ.stamp x now).ledger := by
    simp only [stamp, (remarkSpends_frame x now l.releasedSpends restored).2, restoreTwins_ledger pk hres]
  rw [joinHopSpends_ledger, ← hstamped]
  split at hbelt
  · obtain ⟨again, hagain, rfl⟩ := Option.map_eq_some_iff.mp hbelt
    rw [(remarkSpends_frame x now _ again).2, restoreTwins_ledger pk hagain]
  · cases hbelt
    rfl

theorem readmit_clear (hopen : σ.isOpen x = true) (h : σ.readmitIfEvicted pk joins x now = some σ')
    (hy : y ≠ x) (hc : σ.Clear y) (ha : σ.Apart x y) : σ'.Clear y := by
  obtain ⟨l, hl, hr⟩ := isOpen_iff.mp hopen
  simp only [readmitIfEvicted, hl, hr, Option.isSome_none, Bool.false_eq_true, if_false] at h
  obtain ⟨restored, hres, h⟩ := Option.bind_eq_some_iff.mp h
  obtain ⟨done, hbelt, rfl⟩ := Option.map_eq_some_iff.mp h
  obtain ⟨hc₁, ha₁⟩ := restoreTwins_clear pk hc ha hres
  have hc₂ : ((restored.remarkSpends x now l.releasedSpends).stamp x now).Clear y :=
    ⟨(remarkSpends_clear hy now _ hc₁).keyed, (remarkSpends_clear hy now _ hc₁).names⟩
  have ha₂ : ((restored.remarkSpends x now l.releasedSpends).stamp x now).Apart x y := ha₁.frame (remarkSpends_frame x now _ restored).1
  refine joinHopSpends_clear hy _ ?_
  split at hbelt
  · obtain ⟨again, hagain, rfl⟩ := Option.map_eq_some_iff.mp hbelt
    exact remarkSpends_clear hy now _ (restoreTwins_clear pk hc₂ ha₂ hagain).1
  · cases hbelt
    exact hc₂

/-! ## The sequences -/

/-- One whole operation with no fault, stamped `now`. -/
inductive Op (τ : Type) where
  | evict (x : τ) (now : Nat) (repointed : List (τ × Nat))
  | readmitIfEvicted (x : τ) (now : Nat)

def step (σ : Store τ β) : Op τ → Option (Store τ β)
  | .evict x now repointed => σ.evict pk x now repointed
  | .readmitIfEvicted x now => σ.readmitIfEvicted pk joins x now

def run (σ : Store τ β) : List (Op τ) → Option (Store τ β)
  | [] => some σ
  | op :: rest => (σ.step pk joins op).bind fun σ' => σ'.run rest

def Op.Meets (σ : Store τ β) : Op τ → Prop
  | .evict .. => True
  | .readmitIfEvicted x _ => σ.isOpen x = true → ∀ y, y ≠ x → σ.isOpen y = true → σ.Apart x y

def MeetsAll : Store τ β → List (Op τ) → Prop
  | _, [] => True
  | σ, op :: rest => op.Meets σ ∧ ∀ σ', σ.step pk joins op = some σ' → MeetsAll σ' rest

theorem readmit_out (h : σ.Out) (hmeets : (Op.readmitIfEvicted x now).Meets σ)
    (hre : σ.readmitIfEvicted pk joins x now = some σ') : σ'.Out := by
  cases hopen : σ.isOpen x with
  | false =>
    have heq : σ' = σ := by
      unfold readmitIfEvicted at hre
      cases hl : σ.ledger x with
      | none =>
        rw [hl] at hre
        exact (Option.some.inj hre).symm
      | some l =>
        simp only [isOpen, hl, Option.any_some, Option.isNone_eq_false_iff] at hopen
        simp only [hl, hopen, if_true, Option.some.injEq] at hre
        exact hre.symm
    rw [heq]
    exact h
  | true =>
    have hledger := readmit_ledger pk joins hopen hre
    intro y hy
    by_cases hyx : y = x
    · subst hyx
      rw [isOpen_congr (σ := σ.stamp y now) (by rw [hledger]), stamp_closed] at hy
      cases hy
    · rw [isOpen_congr (σ := σ) (by rw [hledger, stamp_else hyx])] at hy
      exact readmit_clear pk joins hopen hre hyx (h y hy) (hmeets hopen y hyx hy)

/-- Over every sequence whose readmissions meet the condition, an open eviction keeps its rows out. -/
theorem run_out (ops : List (Op τ)) {σ σ' : Store τ β} (h : σ.Out) (hmeets : MeetsAll pk joins σ ops)
    (hrun : σ.run pk joins ops = some σ') : σ'.Out := by
  induction ops generalizing σ with
  | nil =>
    cases hrun
    exact h
  | cons op ops ih =>
    obtain ⟨σ₁, hstep, hrest⟩ := Option.bind_eq_some_iff.mp hrun
    refine ih ?_ (hmeets.2 σ₁ hstep) hrest
    cases op with
    | evict x now repointed => exact evict_out pk h hstep
    | readmitIfEvicted x now => exact readmit_out pk joins h hmeets.1 hstep

end Store

/-! ## Sequences over one marker of a pot -/

section

def markerTxid : String := "abababababababababababababababababababababababababababababababab"
def potTxid : String := "cdcdcdcdcdcdcdcdcdcdcdcdcdcdcdcdcdcdcdcdcdcdcdcdcdcdcdcdcdcdcdcd"

def markerRow : Row String Unit := { txid := some markerTxid, potTxid := some potTxid, rest := () }

def markerStore : Store String Unit := { table := fun t => if t = .handMarkers then [markerRow] else [] }

def outpointKey (_ : Tbl) (txid : Option String) (outputIndex : Nat) (_ : Unit) : Option String × Nat := (txid, outputIndex)

def markerRun (ops : List (Store.Op String)) : Option (Store String Unit) := markerStore.run outpointKey (fun _ _ => []) ops

theorem markerStore_out : markerStore.Out := fun _ h => by cases h

/-- A marker row that names no pot, and the row of the pot. -/
def pairStore : Store String Unit where
  table t :=
    if t = .handMarkers then [{ markerRow with potTxid := none }] else if t = .potRecords then [{ txid := some potTxid, rest := () }] else []

def pairOps : List (Store.Op String) := [.evict markerTxid 10 [], .evict potTxid 20 [], .readmitIfEvicted markerTxid 30]

theorem pairStore_meets : Store.MeetsAll outpointKey (fun _ _ => []) pairStore pairOps := by
  refine ⟨trivial, fun σ₁ h₁ => ⟨trivial, fun σ₂ h₂ => ⟨fun _ y hy hopen => ?_, fun _ _ => trivial⟩⟩⟩
  by_cases hpot : y = potTxid
  · subst hpot
    have hrun : pairStore.run outpointKey (fun _ _ => []) (pairOps.take 2) = some σ₂ :=
      Option.bind_eq_some_iff.mpr ⟨σ₁, h₁, Option.bind_eq_some_iff.mpr ⟨σ₂, h₂, rfl⟩⟩
    have hapart : (pairStore.run outpointKey (fun _ _ => []) (pairOps.take 2)).any (fun σ => decide (σ.Apart markerTxid potTxid)) = true := by
      decide
    rw [hrun] at hapart
    exact of_decide_eq_true hapart
  · -- no other transaction has a ledger row
    have hfirst : pairStore.evict outpointKey markerTxid 10 [] = some σ₁ := h₁
    have hsecond : σ₁.evict outpointKey potTxid 20 [] = some σ₂ := h₂
    rw [Store.isOpen_congr ((Store.evict_cases outpointKey hsecond).2.2 y hpot),
      Store.isOpen_congr ((Store.evict_cases outpointKey hfirst).2.2 y hy)] at hopen
    cases hopen

theorem run_out_pair : ∃ σ, pairStore.run outpointKey (fun _ _ => []) pairOps = some σ ∧ σ.isOpen potTxid = true ∧ σ.Out := by
  have hrun : (pairStore.run outpointKey (fun _ _ => []) pairOps).any (fun σ => σ.isOpen potTxid) = true := by decide
  obtain ⟨σ, hσ, hopen⟩ := (Option.any_eq_true _ _).mp hrun
  exact ⟨σ, hσ, hopen, Store.run_out outpointKey (fun _ _ => []) _ (fun _ h => by cases h) pairStore_meets hσ⟩

/-- The marker's transaction and then its pot are evicted; the readmission of the first puts back the row of both. -/
theorem marker_run_not_out : ¬∀ (ops : List (Store.Op String)) (σ : Store String Unit), markerStore.Out → markerRun ops = some σ → σ.Out := by
  intro h
  have hrun : (markerRun [.evict markerTxid 10 [], .evict potTxid 20 [], .readmitIfEvicted markerTxid 30]).any
      (fun σ => σ.isOpen potTxid && decide (markerRow ∈ σ.table .handMarkers)) = true := by decide
  obtain ⟨σ, hσ, hfacts⟩ := (Option.any_eq_true _ _).mp hrun
  simp only [Bool.and_eq_true, decide_eq_true_eq] at hfacts
  have := (h _ σ markerStore_out hσ potTxid hfacts.1).keyed (.handMarkers, .potTxid) (by decide) markerRow hfacts.2
  revert this
  decide

end

end OverlayEngine.Evictions
