import OverlayEngine.AppLayer.TrackerWords

/-!
# A tracker word does not regress

The upsert moves a word up its order or to the chain's tier and never back. What
it does not ask is whose proof a chain row carries: a projection copies the chain
row its writer read, under a fresh clock, so a late copy passes for a checked one.
-/

namespace OverlayEngine.TrackerWords

/-! ## One upsert -/

def Word.grade : Word → Nat
  | .unknown => 0
  | .built => 1
  | .announced => 2
  | .seen => 3
  | .abandoned => 4
  | .mined | .stale | .rejected | .conflicted => 5

theorem tier_chain_iff (w : Word) : w.tier = .chain ↔ w.grade = 5 := by
  cases w <;> simp [Word.tier, Word.grade]

theorem grade_le (w : Word) : w.grade ≤ 5 := by
  cases w <;> simp [Word.grade]

theorem grade_of_rank {w : Word} {a : Nat} (h : w.rank = some a) : w.grade = a := by
  cases w <;> simp_all [Word.rank, Word.grade]

structure Row.Follows (r r' : Row) : Prop where
  chain : r.tier = .chain → r'.tier = .chain
  word : ∀ a b, r.word.rank = some a → r'.word.rank = some b → a ≤ b
  updatedAt : r.updatedAt ≤ r'.updatedAt
  hintAt : ∀ a, r.hintAt = some a → ∃ b, r'.hintAt = some b ∧ a ≤ b

structure Row.Precedes (r r' : Row) : Prop where
  grade : r.word.grade ≤ r'.word.grade
  updatedAt : r.updatedAt ≤ r'.updatedAt
  hintAt : ∀ a, r.hintAt = some a → ∃ b, r'.hintAt = some b ∧ a ≤ b

theorem Row.Precedes.refl (r : Row) : r.Precedes r := ⟨Nat.le_refl _, Nat.le_refl _, fun a h => ⟨a, h, Nat.le_refl _⟩⟩

theorem Row.Precedes.trans {r r' r'' : Row} (h : r.Precedes r') (h' : r'.Precedes r'') : r.Precedes r'' := by
  refine ⟨Nat.le_trans h.grade h'.grade, Nat.le_trans h.updatedAt h'.updatedAt, ?_⟩
  intro a ha
  obtain ⟨b, hb, hab⟩ := h.hintAt a ha
  obtain ⟨c, hc, hbc⟩ := h'.hintAt b hb
  exact ⟨c, hc, Nat.le_trans hab hbc⟩

theorem Row.Precedes.follows {r r' : Row} (h : r.Precedes r') (hr : r.Fit) (hr' : r'.Fit) : r.Follows r' := by
  refine ⟨?_, ?_, h.updatedAt, h.hintAt⟩
  · intro hc
    rw [hr.tier, tier_chain_iff] at hc
    rw [hr'.tier, tier_chain_iff]
    exact Nat.le_antisymm (grade_le _) (hc ▸ h.grade)
  · intro a b ha hb
    rw [← grade_of_rank ha, ← grade_of_rank hb]
    exact h.grade

section
variable {stored excluded : Row}

theorem grade_of_admits (hs : stored.Fit) (he : excluded.Fit) (h : admits stored excluded = true) :
    stored.word.grade ≤ excluded.word.grade := by
  unfold admits at h
  rw [hs.tier, he.tier] at h
  cases hw : stored.word <;> cases hx : excluded.word <;> simp_all [Word.tier, Word.grade]

theorem mined_of_admits (hs : stored.Fit) (h : admits stored excluded = true) (hm : stored.word = .mined) :
    stored.updatedAt ≤ excluded.updatedAt ∧ excluded.tier = .chain ∧ (excluded.word = .mined ∨ excluded.word = .stale) := by
  have ht : stored.tier = .chain := by rw [hs.tier, hm]; rfl
  simpa [admits, hm, ht, and_assoc] using h

theorem admits_of_mined (hm : stored.word = .mined) (hu : stored.updatedAt ≤ excluded.updatedAt) (ht : excluded.tier = .chain)
    (hw : excluded.word = .mined ∨ excluded.word = .stale) : admits stored excluded = true := by
  simp [admits, hm, hu, ht, hw]

theorem precedes_updated (hs : stored.Fit) (he : excluded.Fit) (h : admits stored excluded = true) :
    stored.Precedes (stored.updated excluded) := by
  have hgrade : stored.word.grade ≤ excluded.word.grade := grade_of_admits hs he h
  refine ⟨hgrade, Nat.le_max_left _ _, ?_⟩
  intro a ha
  cases hx : excluded.hintAt with
  | none => exact ⟨a, by simp [Row.updated, hx, ha], Nat.le_refl a⟩
  | some b => exact ⟨max a b, by simp [Row.updated, hx, ha], Nat.le_max_left a b⟩

theorem hint_updated (hs : stored.Fit) (he : excluded.Fit) :
    (stored.updated excluded).hint = stored.hint ∧ (∀ h ∈ excluded.hint, ∃ h' ∈ stored.hint, h.2 ≤ h'.2) ∨
      (stored.updated excluded).hint = excluded.hint ∧ excluded.hint ≠ [] ∧ ∀ h ∈ stored.hint, ∃ h' ∈ excluded.hint, h.2 ≤ h'.2 := by
  have h1 := hs.hint
  have h2 := he.hint
  cases hst : stored.hintAt with
  | none =>
    obtain hss : stored.hintSource = none := by simpa [hst] using h1
    cases hx : excluded.hintAt with
    | none => exact Or.inl ⟨by simp [Row.updated, Row.hint, hst, hx, hss], by simp [Row.hint, hx]⟩
    | some b =>
      obtain ⟨src, hsrc⟩ : ∃ src, excluded.hintSource = some src := by simpa [hx, Option.isSome_iff_exists] using h2
      exact Or.inr ⟨by simp [Row.updated, Row.hint, hst, hx, hsrc], by simp [Row.hint, hx, hsrc], by simp [Row.hint, hst]⟩
  | some a =>
    obtain ⟨old, hold⟩ : ∃ src, stored.hintSource = some src := by simpa [hst, Option.isSome_iff_exists] using h1
    cases hx : excluded.hintAt with
    | none => exact Or.inl ⟨by simp [Row.updated, Row.hint, hst, hx], by simp [Row.hint, hx]⟩
    | some b =>
      obtain ⟨src, hsrc⟩ : ∃ src, excluded.hintSource = some src := by simpa [hx, Option.isSome_iff_exists] using h2
      by_cases hlt : b < a
      · refine Or.inl ⟨?_, ?_⟩
        · simp [Row.updated, Row.hint, hst, hx, hold, hlt, Nat.le_of_lt hlt]
        · simp [Row.hint, hst, hx, hold, hsrc, Nat.le_of_lt hlt]
      · refine Or.inr ⟨?_, by simp [Row.hint, hx, hsrc], ?_⟩
        · simp [Row.updated, Row.hint, hst, hx, hsrc, hlt, Nat.not_lt.mp hlt]
        · simp [Row.hint, hst, hx, hold, hsrc, Nat.not_lt.mp hlt]

theorem fit_updated (hs : stored.Fit) (he : excluded.Fit) : (stored.updated excluded).Fit := by
  refine ⟨he.tier, ?_⟩
  have h1 := hs.hint
  have h2 := he.hint
  cases hst : stored.hintAt <;> cases hx : excluded.hintAt <;> simp_all [Row.updated]
  split <;> simp_all

end

/-! ## The projection -/

section
variable {old : Option Row} {state : State} {now : Nat} {legacy : Option String}

theorem copied_some {r : Row} (h : copied old state = some r) : old = some r ∧ r.tier = .chain ∧ state.word ≠ .mined := by
  obtain ⟨ho, hc⟩ := Option.filter_eq_some_iff.mp h
  exact ⟨ho, by simpa using hc⟩

variable (now legacy) in
theorem project_copied {r : Row} (h : copied old state = some r) :
    (project old state now legacy).word = r.word ∧ (project old state now legacy).tier = r.tier ∧
      (project old state now legacy).updatedAt = asF64 now ∧ (project old state now legacy).minedProof = r.minedProof := by
  simp only [project, h]
  split <;> split <;> exact ⟨rfl, rfl, rfl, rfl⟩

theorem project_fromState (h : copied old state = none) : project old state now legacy = .fromState state now legacy := by
  simp only [project, h]

theorem fit_fromState (state : State) (now : Nat) (legacy : Option String) : (Row.fromState state now legacy).Fit := by
  refine ⟨rfl, ?_⟩
  cases h : state.hints.head? <;> simp [Row.fromState, h]

theorem fit_project (h : ∀ r, old = some r → r.Fit) : (project old state now legacy).Fit := by
  cases hc : copied old state with
  | none =>
    rw [project_fromState hc]
    exact fit_fromState state now legacy
  | some r =>
    have hr := h r (copied_some hc).1
    simp only [project, hc]
    split
    · split
      · exact ⟨hr.tier, rfl⟩
      · exact ⟨hr.tier, rfl⟩
    · split
      · exact ⟨hr.tier, hr.hint⟩
      · exact ⟨hr.tier, hr.hint⟩

end

/-! ## A run -/

def Newest (row : Option Row) (hints : List (String × Nat)) : Prop :=
  ∀ r, row = some r → (∀ h ∈ r.hint, h ∈ hints) ∧ ∀ h ∈ hints, ∃ h' ∈ r.hint, h.2 ≤ h'.2

structure World.Sound (w : World) : Prop where
  row : ∀ r, w.row = some r → r.Fit
  read : ∀ read r, some read ∈ w.writers → read.row = some r → r.Fit
  hints : Newest w.row w.hints
  empty : w.row = none → w.hints = []

theorem sound_start {row : Option Row} (h : ∀ r, row = some r → r.Fit) : (World.start row).Sound := by
  refine ⟨h, by simp [World.start], ?_, ?_⟩
  · rintro r rfl
    exact ⟨fun h hh => by simpa [World.start] using hh, fun h hh => ⟨h, by simpa [World.start] using hh, Nat.le_refl _⟩⟩
  · rintro rfl
    rfl

section
variable {w : World} {excluded : Row}

theorem upsert_cases (stored : Option Row) (excluded : Row) :
    (stored = none ∧ upsert stored excluded = some excluded) ∨
    (∃ r, stored = some r ∧ admits r excluded = true ∧ upsert stored excluded = some (r.updated excluded)) ∨
    (∃ r, stored = some r ∧ admits r excluded = false ∧ upsert stored excluded = none) := by
  cases stored with
  | none => exact Or.inl ⟨rfl, rfl⟩
  | some r =>
    cases h : admits r excluded
    · exact Or.inr (Or.inr ⟨r, rfl, h, by simp [upsert, h]⟩)
    · exact Or.inr (Or.inl ⟨r, rfl, h, by simp [upsert, h]⟩)

theorem sound_store (h : w.Sound) (he : excluded.Fit) : (w.store excluded).Sound := by
  rcases upsert_cases w.row excluded with ⟨hr, hu⟩ | ⟨r, hr, ha, hu⟩ | ⟨r, hr, ha, hu⟩
  · simp only [World.store, hu]
    refine ⟨fun r hr => by cases hr; exact he, h.read, ?_, by simp⟩
    rintro r ⟨⟩
    rw [h.empty hr, List.append_nil]
    exact ⟨fun _ hh => hh, fun x hh => ⟨x, hh, Nat.le_refl _⟩⟩
  · have hs := h.row r hr
    simp only [World.store, hu]
    refine ⟨fun r' hr' => by cases hr'; exact fit_updated hs he, h.read, ?_, by simp⟩
    obtain ⟨hin, hmax⟩ := h.hints r hr
    rintro r' ⟨⟩
    rcases hint_updated hs he with ⟨heq, hle⟩ | ⟨heq, -, hle⟩
    · rw [heq]
      refine ⟨fun x hx => List.mem_append_right _ (hin x hx), ?_⟩
      intro x hx
      exact (List.mem_append.mp hx).elim (hle x) (hmax x)
    · rw [heq]
      refine ⟨fun x hx => List.mem_append_left _ hx, ?_⟩
      intro x hx
      rcases List.mem_append.mp hx with hx | hx
      · exact ⟨x, hx, Nat.le_refl _⟩
      · obtain ⟨y, hy, hxy⟩ := hmax x hx
        obtain ⟨z, hz, hyz⟩ := hle y hy
        exact ⟨z, hz, Nat.le_trans hxy hyz⟩
  · simpa only [World.store, hu] using h

variable {r : Row}

theorem precedes_store (h : w.Sound) (he : excluded.Fit) (hr : w.row = some r) :
    ∃ r', (w.store excluded).row = some r' ∧ r.Precedes r' := by
  rcases upsert_cases w.row excluded with ⟨hn, -⟩ | ⟨r', hr', ha, hu⟩ | ⟨r', -, -, hu⟩
  · rw [hn] at hr
    cases hr
  · rw [hr] at hr'
    cases hr'
    exact ⟨r.updated excluded, by simp [World.store, hu], precedes_updated (h.row r hr) he ha⟩
  · exact ⟨r, by simpa [World.store, hu] using hr, .refl r⟩

theorem step_cases (w : World) (m : Move) :
    (m = .read ∧ w.step m = { w with writers := w.writers ++ [some ⟨w.row, w.landed⟩] }) ∨
    (∃ i state now legacy read, m = .write i state now legacy ∧ w.writers[i]? = some (some read) ∧
      w.step m = { w with writers := w.writers.set i none }.store (project read.row state now legacy)) ∨
    w.step m = w := by
  cases m with
  | read => exact Or.inl ⟨rfl, rfl⟩
  | write i state now legacy =>
    simp only [World.step]
    split
    next read hi => exact Or.inr (Or.inl ⟨i, state, now, legacy, read, rfl, hi, rfl⟩)
    next => exact Or.inr (Or.inr rfl)

theorem World.Sound.done (h : w.Sound) (i : Nat) : World.Sound { w with writers := w.writers.set i none } := by
  refine ⟨h.row, ?_, h.hints, h.empty⟩
  intro read r hm hr
  rcases List.mem_or_eq_of_mem_set hm with hm | hm
  · exact h.read read r hm hr
  · cases hm

theorem World.Sound.projected (h : w.Sound) {i : Nat} {read : Read} (hi : w.writers[i]? = some (some read)) (state : State) (now : Nat)
    (legacy : Option String) : (project read.row state now legacy).Fit :=
  fit_project fun r hr => h.read read r (List.mem_of_getElem? hi) hr

theorem sound_step (h : w.Sound) (m : Move) : (w.step m).Sound := by
  rcases step_cases w m with ⟨-, he⟩ | ⟨i, state, now, legacy, read, -, hi, he⟩ | he
  · rw [he]
    refine ⟨h.row, ?_, h.hints, h.empty⟩
    intro read r hm hr
    rcases List.mem_append.mp hm with hm | hm
    · exact h.read read r hm hr
    · cases List.mem_singleton.mp hm
      exact h.row r hr
  · rw [he]
    exact sound_store (h.done i) (h.projected hi state now legacy)
  · rw [he]
    exact h

theorem sound_run (h : w.Sound) (moves : List Move) : (w.run moves).Sound := by
  induction moves generalizing w with
  | nil => exact h
  | cons m ms ih => exact ih (sound_step h m)

theorem precedes_step (h : w.Sound) (m : Move) (hr : w.row = some r) : ∃ r', (w.step m).row = some r' ∧ r.Precedes r' := by
  rcases step_cases w m with ⟨-, he⟩ | ⟨i, state, now, legacy, read, -, hi, he⟩ | he
  · exact ⟨r, by rw [he]; exact hr, .refl r⟩
  · rw [he]
    exact precedes_store (h.done i) (h.projected hi state now legacy) hr
  · exact ⟨r, by rw [he]; exact hr, .refl r⟩

theorem precedes_run (h : w.Sound) (moves : List Move) (hr : w.row = some r) :
    ∃ r', (w.run moves).row = some r' ∧ r.Precedes r' := by
  induction moves generalizing w r with
  | nil => exact ⟨r, hr, .refl r⟩
  | cons m ms ih =>
    obtain ⟨r', hr', hp⟩ := precedes_step h m hr
    obtain ⟨r'', hr'', hp'⟩ := ih (sound_step h m) hr'
    exact ⟨r'', hr'', hp.trans hp'⟩

variable (excluded) in
theorem mined_store (h : w.Sound) (hr : w.row = some r) (hm : r.word = .mined) :
    (r.updatedAt ≤ excluded.updatedAt ∧ excluded.tier = .chain ∧ (excluded.word = .mined ∨ excluded.word = .stale) ∧
      (w.store excluded).row = some (r.updated excluded)) ∨
    (¬(r.updatedAt ≤ excluded.updatedAt ∧ excluded.tier = .chain ∧ (excluded.word = .mined ∨ excluded.word = .stale)) ∧
      (w.store excluded).row = some r) := by
  rcases upsert_cases w.row excluded with ⟨hn, -⟩ | ⟨r', hr', ha, hu⟩ | ⟨r', hr', ha, hu⟩
  · rw [hn] at hr
    cases hr
  · rw [hr] at hr'
    cases hr'
    obtain ⟨hle, ht, hw⟩ := mined_of_admits (h.row r hr) ha hm
    exact Or.inl ⟨hle, ht, hw, by simp [World.store, hu]⟩
  · rw [hr] at hr'
    cases hr'
    refine Or.inr ⟨?_, by simpa [World.store, hu] using hr⟩
    rintro ⟨hle, ht, hw⟩
    rw [admits_of_mined hm hle ht hw] at ha
    cases ha

theorem mined_step (h : w.Sound) (m : Move) {r r' : Row} (hr : w.row = some r) (hr' : (w.step m).row = some r') (hm : r.word = .mined) :
    r'.word = .mined ∨ r'.word = .stale := by
  rcases step_cases w m with ⟨-, he⟩ | ⟨i, state, now, legacy, read, -, hi, he⟩ | he
  · rw [he, hr] at hr'
    cases hr'
    exact Or.inl hm
  · rw [he] at hr'
    rcases mined_store (project read.row state now legacy) (h.done i) hr hm with ⟨-, -, hw, hs⟩ | ⟨-, hs⟩
    · rw [hs] at hr'
      cases hr'
      exact hw
    · rw [hs] at hr'
      cases hr'
      exact Or.inl hm
  · rw [he, hr] at hr'
    cases hr'
    exact Or.inl hm

theorem replaces_iff (h : w.Sound) (m : Move) : ¬w.Replaces m ↔ w.Meets m := by
  cases m with
  | read => exact iff_of_true id trivial
  | write i state now legacy =>
    simp only [World.Replaces, World.Meets]
    constructor
    · intro hno read r hi hw hr hm hl
      by_contra hmeets
      rw [not_or, Nat.not_lt] at hmeets
      apply hno
      refine ⟨read, r, hi, hw, hr, hm, hl, ?_⟩
      have hstep : w.step (.write i state now legacy) = { w with writers := w.writers.set i none }.store (project read.row state now legacy) := by
        simp [World.step, hi]
      intro r' hr'
      rw [hstep] at hr'
      cases hc : copied read.row state with
      | some old =>
        obtain ⟨hpw, hpt, hpu, hpp⟩ := project_copied now legacy hc
        have hcond := hmeets.2
        rw [hc] at hcond
        simp only [not_or, not_and, not_not] at hcond
        rcases mined_store (project read.row state now legacy) (h.done i) hr hm with ⟨-, -, -, hs⟩ | ⟨hno', -⟩
        · rw [hs] at hr'
          cases hr'
          intro heq
          exact hcond.2 (hpp.symm.trans heq)
        · refine absurd ⟨hpu ▸ hmeets.1, hpt.trans (copied_some hc).2.1, ?_⟩ hno'
          rw [hpw]
          by_cases hom : old.word = .mined
          · exact Or.inl hom
          · exact Or.inr (hcond.1 hom)
      | none =>
        have hcond := hmeets.2
        rw [hc] at hcond
        have hstale : state.word = .stale := not_not.mp hcond
        rw [project_fromState hc] at hr'
        rcases mined_store (Row.fromState state now legacy) (h.done i) hr hm with ⟨-, -, -, hs⟩ | ⟨hno', -⟩
        · rw [hs] at hr'
          cases hr'
          simp [Row.minedProof, Row.updated, Row.fromState, hstale, hm]
        · exact absurd ⟨hmeets.1, by simp [Row.fromState, hstale, Word.tier], Or.inr hstale⟩ hno'
    · rintro hmeets ⟨read, r, hi, hw, hr, hm, hl, hall⟩
      have hstep : w.step (.write i state now legacy) = { w with writers := w.writers.set i none }.store (project read.row state now legacy) := by
        simp [World.step, hi]
      rw [hstep] at hall
      rcases mined_store (project read.row state now legacy) (h.done i) hr hm with ⟨hle, ht, hwd, hs⟩ | ⟨-, hs⟩
      · have hne := hall _ hs
        rcases hmeets read r hi hw hr hm hl with hlt | hcond
        · cases hc : copied read.row state with
          | some old => rw [(project_copied _ _ hc).2.2.1] at hle; omega
          | none => rw [project_fromState hc] at hle; exact absurd hlt (Nat.not_lt.mpr hle)
        · cases hc : copied read.row state with
          | some old =>
            obtain ⟨hpw, -, -, hpp⟩ := project_copied now legacy hc
            rw [hc] at hcond
            rw [hpw] at hwd
            rcases hcond with ⟨h1, h2⟩ | heq
            · exact hwd.elim h1 h2
            · exact hne (hpp.trans heq)
          | none =>
            rw [hc] at hcond
            rw [project_fromState hc] at hwd
            exact hwd.elim hw hcond
      · exact hall r hs rfl

end

structure WordKept (w : World) : Prop where
  later : ∀ more r, w.row = some r → ∃ r', (w.run more).row = some r' ∧ r.Follows r'
  mined : ∀ m r r', w.row = some r → (w.step m).row = some r' → r.word = .mined → r'.word = .mined ∨ r'.word = .stale
  /-- The stored hint landed, and no hint that landed is newer. -/
  newest : ∀ r, w.row = some r → (r.hintSource = none ∧ r.hintAt = none ∧ w.hints = []) ∨
    ∃ source at_, r.hintSource = some source ∧ r.hintAt = some at_ ∧ (source, at_) ∈ w.hints ∧ ∀ h ∈ w.hints, h.2 ≤ at_
  replaced : ∀ m, ¬w.Replaces m ↔ w.Meets m

theorem newest_hint {w : World} (h : w.Sound) {r : Row} (hr : w.row = some r) :
    (r.hintSource = none ∧ r.hintAt = none ∧ w.hints = []) ∨
      ∃ source at_, r.hintSource = some source ∧ r.hintAt = some at_ ∧ (source, at_) ∈ w.hints ∧ ∀ h ∈ w.hints, h.2 ≤ at_ := by
  have hf := (h.row r hr).hint
  obtain ⟨hin, hmax⟩ := h.hints r hr
  cases hat : r.hintAt with
  | none =>
    have hs : r.hintSource = none := by simpa [hat] using hf
    have hh : r.hint = [] := by simp [Row.hint, hat]
    refine Or.inl ⟨hs, rfl, List.eq_nil_iff_forall_not_mem.mpr ?_⟩
    intro x hx
    obtain ⟨y, hy, -⟩ := hmax x hx
    rw [hh] at hy
    cases hy
  | some at_ =>
    obtain ⟨source, hs⟩ : ∃ source, r.hintSource = some source := by simpa [hat, Option.isSome_iff_exists] using hf
    have hh : r.hint = [(source, at_)] := by simp [Row.hint, hat, hs]
    refine Or.inr ⟨source, at_, hs, rfl, hin _ (by rw [hh]; exact List.mem_singleton_self _), ?_⟩
    intro x hx
    obtain ⟨y, hy, hxy⟩ := hmax x hx
    rw [hh] at hy
    rw [List.mem_singleton.mp hy] at hxy
    exact hxy

/-- Over every run of writers of one txid, with any states and clocks. -/
theorem words_kept (row : Option Row) (h : ∀ r, row = some r → r.Fit) (moves : List Move) : WordKept ((World.start row).run moves) := by
  have hs := sound_run (sound_start h) moves
  refine ⟨?_, fun m r r' hr hr' hm => mined_step hs m hr hr' hm, fun r hr => newest_hint hs hr, replaces_iff hs⟩
  intro more r hr
  obtain ⟨r', hr', hp⟩ := precedes_run hs more hr
  exact ⟨r', hr', hp.follows (hs.row r hr) ((sound_run hs more).row r' hr')⟩

private def minedAt (height : Nat) : State :=
  { txid := "aa", word := .mined, height := some height, evidence := some ⟨"root", height, "path", "hash"⟩ }

theorem words_kept_mined : WordKept ((World.start (some (.fromState (minedAt 10) 1 none))).run [.read, .write 0 (minedAt 11) 2 none]) := by
  refine words_kept _ ?_ _
  rintro r ⟨⟩
  exact fit_fromState _ _ _

private def readBefore : List Move := [.read, .write 0 (minedAt 10) 1 none, .read, .read, .write 1 (minedAt 11) 2 none]

private def lateCopy : Move := .write 2 { txid := "aa", word := .announced, hints := [⟨"arcade", 3⟩] } 3 none

/-- A hint's writer copies the proof it read over the one stored since. -/
theorem copy_replaces_proof : ¬∀ (moves : List Move) (m : Move), ¬((World.start none).run moves).Replaces m := by
  intro h
  have hcopy : (((World.start none).run readBefore).step lateCopy).row.map Row.height = some (some 10) := by
    decide
  refine h readBefore lateCopy ?_
  refine ⟨⟨some (.fromState (minedAt 10) 1 none), 1⟩, .fromState (minedAt 11) 2 none, by decide, by decide, by decide, rfl, by decide, ?_⟩
  intro r' hr' heq
  have hheight : r'.height = some 10 := by
    rw [show (((World.start none).run readBefore).step lateCopy).row = some r' from hr'] at hcopy
    exact Option.some.inj hcopy
  simp [Row.minedProof, Row.fromState, minedAt] at heq
  rw [hheight] at heq
  exact absurd heq.2.1 (by decide)

end OverlayEngine.TrackerWords
