import OverlayEngine.AppLayer.HopProbeMemos

/-!
# A refused confirmation stays refused, and a withdrawn one is marked

The predicate in SQL and the judge's reading of a row agree, and a refusal is written
down before the tombstone that holds it moves. A clear marks what it withdraws, save
a word taken in the very millisecond of a stamp that replaces the tombstone.
-/

namespace OverlayEngine.HopProbeMemos

open DerivedRows DerivedRows.Table

/-! ## One row under one tombstone -/

def Survived (m : Probe) (z : Tombstone) : Prop :=
  m.probedAtMs.val < z.probedAtMs.val ∧ ∃ r t, z.tipHeight = some r ∧ m.tipHeight = some t ∧ t.val + 6 < r.val

theorem saturatingAdd_height (t : Height) : saturatingAdd t.val latchRecheckDepth = t.val + 6 := by
  have := t.safe
  unfold saturatingAdd latchRecheckDepth u64Max
  omega

theorem saturatingAddMs_ms (a : Ms) : saturatingAddMs a.val probeMemoReorgGraceMs = a.val + 1800000 := by
  have := a.safe
  unfold saturatingAddMs probeMemoReorgGraceMs i64Max
  omega

variable {m : Probe}

theorem clearUnlessSurvived_pos {z : Tombstone} (h : Survived m z) :
    clearUnlessSurvived m (some z.probedAtMs.val) (z.tipHeight.map Height.val) = none := by
  obtain ⟨hlt, r, t, hr, ht, hbelow⟩ := h
  simp [clearUnlessSurvived, hr, ht, saturatingAdd_height, hlt, hbelow]

theorem clearUnlessSurvived_neg {z : Tombstone} (h : ¬ Survived m z) :
    clearUnlessSurvived m (some z.probedAtMs.val) (z.tipHeight.map Height.val) = some z.probedAtMs.val := by
  unfold clearUnlessSurvived
  refine if_neg fun hs => h ?_
  simp only [Bool.and_eq_true, Option.any_some, decide_eq_true_eq, Option.any_eq_true, Option.map_eq_some_iff] at hs
  obtain ⟨hlt, -, ⟨r, hr, rfl⟩, t, ht, hbelow⟩ := hs
  rw [saturatingAdd_height] at hbelow
  exact ⟨hlt, r, t, hr, ht, hbelow⟩

variable {z : Option Tombstone}

theorem refused_iff : refused m z = true ↔ (m.spent = true ∧ m.spentConfirmed = some true) ∧
    ∃ z', z = some z' ∧ m.probedAtMs.val < z'.probedAtMs.val + 1800000 ∧ ¬ Survived m z' := by
  cases z with
  | none => simp [refused, clearUnlessSurvived, confirmationRefused, confirmedInReorgGrace, inReorgGrace]
  | some z =>
    unfold refused
    by_cases hs : Survived m z
    · rw [Option.map_some, Option.bind_some, clearUnlessSurvived_pos hs]
      simp [confirmationRefused, confirmedInReorgGrace, inReorgGrace, hs]
    · rw [Option.map_some, Option.bind_some, clearUnlessSurvived_neg hs]
      simp [confirmationRefused, confirmedInReorgGrace, inReorgGrace, hs, saturatingAddMs_ms, and_assoc]

theorem survived_iff {z : Tombstone} : (decide (m.probedAtMs.val < z.probedAtMs.val) &&
    z.tipHeight.any fun r => m.tipHeight.any fun t => decide (t.val + reorgTipLagBlocks < r.val)) = true ↔ Survived m z := by
  simp only [Bool.and_eq_true, decide_eq_true_eq, Option.any_eq_true, Survived, reorgTipLagBlocks]
  refine and_congr_right fun _ => ⟨?_, ?_⟩
  · rintro ⟨r, hr, t, ht, h⟩
    exact ⟨r, t, hr, ht, of_decide_eq_true h⟩
  · rintro ⟨r, t, hr, ht, h⟩
    exact ⟨r, hr, t, ht, decide_eq_true h⟩

variable {k : Key}

theorem refusedPred_eq (z : Option Tombstone) (hk : k.hop = true) (m : Probe) : refusedPred z k m = refused m z := by
  rw [Bool.eq_iff_iff, refused_iff]
  unfold refusedPred hopProbeMemoReorgGraceMs
  rw [hk]
  cases z with
  | none => simp
  | some z =>
    have hsurv := survived_iff (m := m) (z := z)
    simp only [Bool.and_eq_true, Bool.not_eq_true', ← Bool.not_eq_true, hsurv, Option.any_some, decide_eq_true_eq, and_true, and_assoc,
      Option.some.injEq, exists_eq_left']

def World.Served (w : World) (k : Key) : Prop :=
  ∃ p, (k, p) ∈ w.probes.rows ∧ p.spent = true ∧ servedConfirmation p w.tombstone = some true

def World.Refused (w : World) (k : Key) : Prop := ∃ p, (k, p) ∈ w.probes.rows ∧ refused p w.tombstone = true

variable {p : Probe}

theorem served_iff : servedConfirmation p z = some true ↔ p.spentConfirmed = some true ∧ refused p z = false := by
  unfold servedConfirmation
  cases h : refused p z <;> simp

/-! ## A refused word -/

def World.Dead (w : World) (k : Key) : Prop := ∀ p, (k, p) ∈ w.probes.rows → p.spentConfirmed = some true → refused p w.tombstone = true

variable {w : World}

theorem dead_of_refused (h : w.Refused k) : w.Dead k := by
  obtain ⟨p, hp, hr⟩ := h
  intro p' hp' _
  obtain ⟨-, rfl⟩ := Prod.mk.inj (eq_of_key hp hp' rfl)
  exact hr

theorem not_served_of_dead (h : w.Dead k) : ¬ w.Served k := by
  rintro ⟨p, hp, -, hs⟩
  obtain ⟨hc, hr⟩ := served_iff.mp hs
  rw [h p hp hc] at hr
  cases hr

variable {t : Probes}

theorem mem_exec {f : Found} (hf : f.key ≠ k) (h : (k, p) ∈ (f.exec t).rows) : (k, p) ∈ t.rows := by
  cases f with
  | cleared txid vout => exact (mem_delete.mp h).1
  | memo txid vout p' =>
    rcases mem_upsert.mp h with ⟨hin, -⟩ | heq
    · exact hin
    · exact absurd (Prod.mk.inj heq).1.symm hf
  | evidence txid vout p' =>
    rcases mem_upsert.mp h with ⟨hin, -⟩ | heq
    · exact hin
    · exact absurd (Prod.mk.inj heq).1.symm hf
  | latch spender height p' =>
    rcases mem_upsert.mp h with ⟨hin, -⟩ | heq
    · exact hin
    · exact absurd (Prod.mk.inj heq).1.symm hf

theorem mem_found {found : List Found} (hf : ∀ f ∈ found, f.key ≠ k)
    (h : (k, p) ∈ (found.foldl Found.exec t).rows) : (k, p) ∈ t.rows := by
  induction found generalizing t with
  | nil => exact h
  | cons f found ih => exact mem_exec (hf f List.mem_cons_self) (ih (fun g hg => hf g (List.mem_cons_of_mem _ hg)) h)

variable {sel : Key → Probe → Bool}

theorem mem_demote (h : (k, p) ∈ (t.demote sel).rows) :
    ((k, p) ∈ t.rows ∧ sel k p = false) ∨ p.spentConfirmed = none ∧ ∃ p', (k, p') ∈ t.rows ∧ sel k p' = true := by
  obtain ⟨⟨k', p'⟩, hin, heq⟩ := mem_modify.mp h
  unfold HopProbeMemos.demote at heq
  cases hsel : sel k' p' with
  | false =>
    rw [hsel] at heq
    obtain ⟨rfl, rfl⟩ := Prod.mk.inj heq
    exact .inl ⟨hin, hsel⟩
  | true =>
    rw [hsel] at heq
    obtain ⟨rfl, rfl⟩ := Prod.mk.inj heq
    exact .inr ⟨rfl, p', hin, hsel⟩

def Event.Rewrites (e : Event) (k : Key) : Prop := ∃ found, e = .find found ∧ ∃ f ∈ found, f.key = k

theorem dead_step (hk : k.hop = true) (h : w.Dead k) {e : Event} (he : ¬ e.Rewrites k) : (w.step e).Dead k := by
  cases e with
  | find found => exact fun p hp hc => h p (mem_found (fun f hf heq => he ⟨found, rfl, f, hf, heq⟩) hp) hc
  | stamp now floor =>
    intro p hp hc
    rcases mem_demote hp with ⟨hin, hsel⟩ | ⟨hnone, -⟩
    · rw [refusedPred_eq _ hk, h p hin hc] at hsel
      cases hsel
    · rw [hnone] at hc
      cases hc
  | clear floor =>
    intro p hp hc
    rcases mem_demote hp with ⟨hin, -⟩ | ⟨hnone, -⟩
    · exact h p (mem_delete.mp hin).1 hc
    · rw [hnone] at hc
      cases hc
  | sweep now indexed => exact fun p hp hc => h p (mem_delete.mp hp).1 hc
  | filed filings => exact h
  | faulted => exact h

theorem dead_run (hk : k.hop = true) (h : w.Dead k) {events : List Event} (he : ∀ e ∈ events, ¬ e.Rewrites k) :
    (w.run events).Dead k := by
  induction events generalizing w with
  | nil => exact h
  | cons e events ih => exact ih (dead_step hk h (he e List.mem_cons_self)) fun e' he' => he e' (List.mem_cons_of_mem _ he')

/-! ## A clear -/

/-- `clear_on_reorg` with both batches landed and nothing between them. -/
def World.clearOnReorg (w : World) (now : Ms) (floor : Height) : World := (w.stamp now floor).clear floor

def World.Timely (w : World) (now : Ms) : Prop := ∀ k p, (k, p) ∈ w.probes.rows → k.hop = true → p.probedAtMs.val ≤ now.val

def World.Told (w : World) (now : Ms) (floor : Height) : Prop :=
  ∀ k, k.hop = true → w.Served k → ¬ (w.clearOnReorg now floor).Served k → ∀ s ∈ w.filings.subjectsOf k,
    ∃ m ∈ w.refusalMarks ++ (w.stamp now floor).clearMarks floor, (m.identity, m.gameId) = s

structure World.Tied (w : World) (now : Ms) (floor : Height) (k : Key) (p : Probe) : Prop where
  hop : k.hop = true
  row : (k, p) ∈ w.probes.rows
  confirmed : p.spent = true ∧ p.spentConfirmed = some true
  taken : p.probedAtMs.val = now.val
  below : ∃ t, p.tipHeight = some t ∧ t.val + 6 < floor.val
  lapsed : ∀ z, w.tombstone = some z → z.probedAtMs.val + 1800000 ≤ now.val

def World.Mentions (w : World) (floor : Height) (s : String × String) : Prop :=
  ∃ k p, (k, p) ∈ w.probes.rows ∧ (refusedPred w.tombstone k p = true ∨ clearPred floor k p = true) ∧ s ∈ w.filings.subjectsOf k

def World.Meets (w : World) (now : Ms) (floor : Height) : Prop :=
  ∀ k p, w.Tied now floor k p → ∀ s ∈ w.filings.subjectsOf k, w.Mentions floor s

theorem marks_name {f : Filings} {g : List (Key × Probe)} {down : Key → Probe → Bool} {s : String × String} :
    (∃ m ∈ probeMarks f g down, (m.identity, m.gameId) = s) ↔ ∃ r ∈ g, s ∈ f.subjectsOf r.1 := by
  simp only [probeMarks, List.mem_flatMap, List.mem_map]
  constructor
  · rintro ⟨m, ⟨r, hr, s', hs', rfl⟩, rfl⟩
    exact ⟨r, hr, hs'⟩
  · rintro ⟨r, hr, hs⟩
    exact ⟨_, ⟨r, hr, s, hs, rfl⟩, rfl⟩

theorem mem_picked : (k, p) ∈ t.picked sel ↔ (k, p) ∈ t.rows ∧ sel k p = true := by
  simp [Probes.picked]

theorem mem_demote_of_neg (h : (k, p) ∈ t.rows) (hsel : sel k p = false) :
    (k, p) ∈ (t.demote sel).rows :=
  mem_modify.mpr ⟨(k, p), h, by simp [HopProbeMemos.demote, hsel]⟩

variable {floor t : Height}

theorem confirmed_of_clearPred (h : clearPred floor k p = true) : p.spentConfirmed = some true := by
  unfold clearPred at h
  simpa using (Bool.and_eq_true_iff.mp h).1

theorem told_iff_mentions (w : World) (now : Ms) (floor : Height) (s : String × String) :
    (∃ m ∈ w.refusalMarks ++ (w.stamp now floor).clearMarks floor, (m.identity, m.gameId) = s) ↔ w.Mentions floor s := by
  simp only [List.mem_append, or_and_right, exists_or, World.refusalMarks, World.clearMarks, marks_name]
  constructor
  · rintro (⟨⟨k, p⟩, hr, hs⟩ | ⟨⟨k, p⟩, hr, hs⟩)
    · obtain ⟨hin, hsel⟩ := mem_picked.mp hr
      exact ⟨k, p, hin, .inl hsel, hs⟩
    · obtain ⟨hin, hsel⟩ := mem_picked.mp hr
      rcases mem_demote hin with ⟨hold, -⟩ | ⟨hnone, -⟩
      · exact ⟨k, p, hold, .inr hsel, hs⟩
      · rw [confirmed_of_clearPred hsel] at hnone
        cases hnone
  · rintro ⟨k, p, hin, hsel, hs⟩
    cases hrefused : refusedPred w.tombstone k p with
    | true => exact .inl ⟨(k, p), mem_picked.mpr ⟨hin, hrefused⟩, hs⟩
    | false =>
      have hclear : clearPred floor k p = true := hsel.resolve_left (by simp [hrefused])
      exact .inr ⟨(k, p), mem_picked.mpr ⟨mem_demote_of_neg hin hrefused, hclear⟩, hs⟩

theorem below_of_not_clearPred (hk : k.hop = true) (hc : p.spentConfirmed = some true)
    (h : clearPred floor k p = false) : ∃ t, p.tipHeight = some t ∧ t.val + 6 < floor.val := by
  have hall : (p.tipHeight.all fun t => decide (floor.val ≤ t.val + reorgTipLagBlocks)) = false := by
    cases k with
    | memo txid vout => simpa [clearPred, hc] using h
    | evidence txid vout => simpa [clearPred, hc] using h
    | _ => cases hk
  cases ht : p.tipHeight with
  | none => simp [ht] at hall
  | some t =>
    rw [ht] at hall
    have hnot : ¬ floor.val ≤ t.val + reorgTipLagBlocks := of_decide_eq_false hall
    unfold reorgTipLagBlocks at hnot
    exact ⟨t, rfl, by omega⟩

theorem refused_some (hc : p.spent = true ∧ p.spentConfirmed = some true) (ht : p.tipHeight = some t) (z : Tombstone) :
    refused p (some z) = true ↔ p.probedAtMs.val < z.probedAtMs.val + 1800000 ∧
      (p.probedAtMs.val < z.probedAtMs.val → ∀ r, z.tipHeight = some r → r.val ≤ t.val + 6) := by
  rw [refused_iff]
  simp only [hc, Survived, ht, Option.some.injEq, exists_eq_left', true_and, and_self, not_and, not_exists, Nat.not_lt]
  refine and_congr_right fun _ => ?_
  constructor
  · exact fun h hlt r hr => h hlt r t hr rfl
  · rintro h hlt r t' hr rfl
    exact h hlt r hr

theorem refused_stamp {now : Ms} (hc : p.spent = true ∧ p.spentConfirmed = some true)
    (hserved : refused p z = false) (htime : p.probedAtMs.val ≤ now.val) (ht : p.tipHeight = some t) (hbelow : t.val + 6 < floor.val) :
    refused p (some (markSql z now floor)) = true ↔ p.probedAtMs.val = now.val ∧ ∀ z', z = some z' → z'.probedAtMs.val + 1800000 ≤ now.val := by
  cases z with
  | none =>
    simp only [refused_some hc ht, markSql, Option.some.injEq, forall_eq', reduceCtorEq, false_imp_iff, implies_true, and_true]
    omega
  | some z =>
    rw [← Bool.not_eq_true, refused_some hc ht] at hserved
    simp only [refused_some hc ht, markSql, Option.some.injEq, forall_eq', hopProbeMemoReorgGraceMs]
    by_cases hnear : ((now.val - z.probedAtMs.val).natAbs : Int) < 1800000
    · -- inside the grace the reach only sinks, and the served word was below the stored one
      have hold : p.probedAtMs.val < z.probedAtMs.val ∧ ∃ r, z.tipHeight = some r ∧ t.val + 6 < r.val := by
        by_contra hnot
        refine hserved ⟨by omega, fun hlt r hr => ?_⟩
        by_contra hr'
        exact hnot ⟨hlt, r, hr, by omega⟩
      obtain ⟨hlt, r, hr, hbelow'⟩ := hold
      simp only [hnear, if_true, hr, Option.map_some, Option.some.injEq, forall_eq']
      constructor
      · rintro ⟨-, h⟩
        exfalso
        split at h <;> split at h <;> omega
      · rintro ⟨htaken, hlapsed⟩
        omega
    · by_cases hle : z.probedAtMs.val ≤ now.val
      · simp only [hnear, hle, if_true, if_false, Option.some.injEq, forall_eq']
        omega
      · -- a clock behind the stored stamp leaves the tombstone as it is
        simp only [hnear, hle, if_false]
        constructor
        · exact fun h => absurd h hserved
        · rintro ⟨-, hlapsed⟩
          omega

theorem served_clear {now : Ms} (hk : k.hop = true) (hp : (k, p) ∈ w.probes.rows)
    (hc : p.spent = true ∧ p.spentConfirmed = some true) (hserved : refused p w.tombstone = false) :
    (w.clearOnReorg now floor).Served k ↔ clearPred floor k p = false ∧ refused p (some (markSql w.tombstone now floor)) = false := by
  constructor
  · rintro ⟨p', hp', -, hs⟩
    obtain ⟨hc', hr'⟩ := served_iff.mp hs
    rcases mem_demote hp' with ⟨hin, hsel⟩ | ⟨hnone, -⟩
    · obtain ⟨hin, hdel⟩ := mem_delete.mp hin
      rcases mem_demote hin with ⟨hold, -⟩ | ⟨hnone, -⟩
      · obtain ⟨-, rfl⟩ := Prod.mk.inj (eq_of_key hp hold rfl)
        refine ⟨?_, hr'⟩
        cases hclear : clearPred floor k p with
        | false => rfl
        | true => simp_all
      · rw [hnone] at hc'
        cases hc'
    · rw [hnone] at hc'
      cases hc'
  · rintro ⟨hclear, hr⟩
    have hstamp : (k, p) ∈ (w.stamp now floor).probes.rows := mem_demote_of_neg hp (by rw [refusedPred_eq _ hk, hserved])
    refine ⟨p, mem_demote_of_neg (mem_delete.mpr ⟨hstamp, by simp [hclear]⟩) (by simp [hclear]), hc.1, ?_⟩
    exact served_iff.mpr ⟨hc.2, hr⟩

theorem told_iff {now : Ms} (htime : w.Timely now) (floor : Height) : w.Told now floor ↔ w.Meets now floor := by
  constructor
  · intro h k p htied s hs
    obtain ⟨t, ht, hbelow⟩ := htied.below
    have hserved : refused p w.tombstone = false := by
      rw [← Bool.not_eq_true, refused_iff]
      rintro ⟨-, z, hz, hgrace, -⟩
      have := htied.lapsed z hz
      have := htied.taken
      omega
    have hnot : ¬ (w.clearOnReorg now floor).Served k := by
      rw [served_clear htied.hop htied.row htied.confirmed hserved]
      rintro ⟨-, hr⟩
      rw [(refused_stamp htied.confirmed hserved (Int.le_of_eq htied.taken) ht hbelow).mpr ⟨htied.taken, htied.lapsed⟩] at hr
      cases hr
    exact (told_iff_mentions w now floor s).mp
      (h k htied.hop ⟨p, htied.row, htied.confirmed.1, served_iff.mpr ⟨htied.confirmed.2, hserved⟩⟩ hnot s hs)
  · rintro h k hk ⟨p, hp, hspent, hs⟩ hnot s hsub
    obtain ⟨hc, hserved⟩ := served_iff.mp hs
    rw [told_iff_mentions]
    cases hclear : clearPred floor k p with
    | true => exact ⟨k, p, hp, .inr hclear, hsub⟩
    | false =>
      obtain ⟨t, ht, hbelow⟩ := below_of_not_clearPred hk hc hclear
      have hr : refused p (some (markSql w.tombstone now floor)) = true := by
        by_contra hr
        exact hnot ((served_clear hk hp ⟨hspent, hc⟩ hserved).mpr ⟨hclear, by simpa using hr⟩)
      obtain ⟨htaken, hlapsed⟩ := (refused_stamp ⟨hspent, hc⟩ hserved (htime k p hp hk) ht hbelow).mp hr
      exact h k p ⟨hk, hp, ⟨hspent, hc⟩, htaken, ⟨t, ht, hbelow⟩, hlapsed⟩ s hsub

/-- The SQL predicate is the judge's; a refused row is served confirmed again only after a find wrote it; and a clear
whose two batches land together withdraws no confirmation without a mark exactly when no word ties with its stamp. -/
theorem refusal_kept (w : World) (pre : List Event) :
    (∀ (z : Tombstone) (k : Key) (m : Probe), k.hop = true →
      refusedPred (some z) k m = confirmationRefused m (clearUnlessSurvived m (some z.probedAtMs.val) (z.tipHeight.map Height.val))) ∧
    (∀ (k : Key) (mid : List Event), k.hop = true → (w.run pre).Refused k → (∀ e ∈ mid, ¬ e.Rewrites k) → ¬ (w.run (pre ++ mid)).Served k) ∧
    ∀ (now : Ms) (floor : Height), (w.run pre).Timely now → ((w.run pre).Told now floor ↔ (w.run pre).Meets now floor) := by
  refine ⟨fun z k m hk => refusedPred_eq (some z) hk m, fun k mid hk hr hmid => ?_, fun now floor htime => told_iff htime floor⟩
  have hrun : w.run (pre ++ mid) = (w.run pre).run mid := List.foldl_append
  rw [hrun]
  exact not_served_of_dead (dead_run hk (dead_of_refused hr) hmid)

/-- A confirmed word taken at 5, at the tip `t`. -/
def foundAtFive (t : Height) : Event := .find [.memo "aa" 0 ⟨⟨5, by decide⟩, true, some "bb", some true, some t⟩]

def oneFiled : World := { probes := Table.empty, filings := { hopparty := [⟨"i", "g", "aa", 0⟩] } }

theorem foundAtFive_timely (t : Height) (now : Ms) (h : 5 ≤ now.val) : (oneFiled.run [foundAtFive t]).Timely now := by
  intro k p hp _
  obtain ⟨-, rfl⟩ := Prod.mk.inj (List.mem_singleton.mp hp)
  exact h

/-- A word above the clear's reach: it is withdrawn, and its subject is marked. -/
theorem refusal_kept_withdrawn :
    ¬ ((oneFiled.run [foundAtFive ⟨110, by decide⟩]).clearOnReorg ⟨6, by decide⟩ ⟨100, by decide⟩).Served (.memo "aa" 0) ∧
      ∃ m ∈ (oneFiled.run [foundAtFive ⟨110, by decide⟩]).refusalMarks ++
        ((oneFiled.run [foundAtFive ⟨110, by decide⟩]).stamp ⟨6, by decide⟩ ⟨100, by decide⟩).clearMarks ⟨100, by decide⟩,
        (m.identity, m.gameId) = ("i", "g") := by
  have hwithdrawn : ¬ ((oneFiled.run [foundAtFive ⟨110, by decide⟩]).clearOnReorg ⟨6, by decide⟩ ⟨100, by decide⟩).Served (.memo "aa" 0) := by
    rintro ⟨p, hp, -⟩
    have hgone : ((oneFiled.run [foundAtFive ⟨110, by decide⟩]).clearOnReorg ⟨6, by decide⟩ ⟨100, by decide⟩).probes.rows = [] := by decide
    rw [hgone] at hp
    cases hp
  refine ⟨hwithdrawn, ((refusal_kept oneFiled [foundAtFive ⟨110, by decide⟩]).2.2 ⟨6, by decide⟩ ⟨100, by decide⟩
    (foundAtFive_timely _ _ (by decide))).mpr ?_ (.memo "aa" 0) rfl ⟨_, List.mem_singleton_self _, rfl, rfl⟩ hwithdrawn ("i", "g") (by decide)⟩
  intro k p htied
  obtain ⟨-, rfl⟩ := Prod.mk.inj (List.mem_singleton.mp htied.row)
  exact absurd htied.taken (by decide)

/-- In the very millisecond of the find, it is refused from then on and nobody is told. -/
theorem withdrawn_untold : ¬ ∀ (w : World) (pre : List Event) (now : Ms) (floor : Height), (w.run pre).Timely now → (w.run pre).Told now floor := by
  intro h
  have htold := h oneFiled [foundAtFive ⟨10, by decide⟩] ⟨5, by decide⟩ ⟨100, by decide⟩ (foundAtFive_timely _ _ (by decide))
  rw [told_iff (foundAtFive_timely _ _ (by decide))] at htold
  have htied : (oneFiled.run [foundAtFive ⟨10, by decide⟩]).Tied ⟨5, by decide⟩ ⟨100, by decide⟩ _ _ :=
    ⟨rfl, List.mem_singleton_self _, ⟨rfl, rfl⟩, rfl, ⟨_, rfl, by decide⟩, fun z hz => by cases hz⟩
  obtain ⟨k, p, hin, hsel, -⟩ := htold _ _ htied ("i", "g") (by decide)
  obtain ⟨rfl, rfl⟩ := Prod.mk.inj (List.mem_singleton.mp hin)
  revert hsel
  decide

end OverlayEngine.HopProbeMemos
