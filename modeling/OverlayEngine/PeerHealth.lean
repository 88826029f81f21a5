import OverlayEngine.Basis.Runs

/-!
# The peer quarantine

The health rows of one origin and topic: `run_gasp_sync`'s bookkeeping of
`crates/overlay-engine/src/engine.rs`, the rules of `gasp.rs` and the rows of
`storage.rs`, with a graph budget set and no fault on the rows.
-/

namespace OverlayEngine.PeerHealth

def peerQuarantineThreshold : Nat := 8
def peerQuarantineReprobeSecs : Nat := 6 * 3600
def peerYieldlessSyncsAllowed : Nat := 12
def peerYieldlessSecsAllowed : Nat := 3 * 3600
def peerYieldlessDecaySecs : Nat := peerQuarantineReprobeSecs

structure PeerSyncHealth where
  consecutiveFailures : Nat := 0
  secsSinceLastAttempt : Option Nat := none

structure PeerYieldStreak where
  yieldlessSyncs : Nat := 0
  secsSinceFirst : Option Nat := none

def yieldlessSyncFailed (s : PeerYieldStreak) : Bool :=
  decide (peerYieldlessSyncsAllowed < s.yieldlessSyncs) && s.secsSinceFirst.any fun secs => decide (peerYieldlessSecsAllowed ≤ secs)

def peerSyncQuarantined (h : PeerSyncHealth) : Bool :=
  decide (peerQuarantineThreshold ≤ h.consecutiveFailures) && h.secsSinceLastAttempt.any fun secs => decide (secs < peerQuarantineReprobeSecs)

/-! ## The rows -/

structure Streak where
  count : Nat
  first : Nat
  last : Nat

structure Rows where
  peerHealth : Option (Nat × Nat) := none
  peerYieldless : Option Streak := none

def Rows.failures (r : Rows) : Nat := r.peerHealth.elim 0 Prod.fst

def Rows.getPeerSyncHealth (r : Rows) (now : Nat) : PeerSyncHealth :=
  match r.peerHealth with
  | some (fails, attemptAt) => ⟨fails, some (now - attemptAt)⟩
  | none => {}

def Rows.recordPeerSyncOutcome (r : Rows) (now : Nat) (success : Bool) : Rows :=
  { r with peerHealth := some (if success then 0 else r.failures + 1, now) }

def Rows.streak (r : Rows) (now : Nat) : Streak :=
  match r.peerYieldless with
  | none => ⟨0, now, now⟩
  | some s => if s.count = 0 ∨ (r.failures = 0 ∧ peerYieldlessDecaySecs < now - s.last) then ⟨0, now, now⟩ else s

def Rows.recordPeerSyncYield (r : Rows) (now : Nat) (yielded : Bool) : Rows × PeerYieldStreak :=
  if yielded then ({ r with peerYieldless := none }, {})
  else
    let s := r.streak now
    ({ r with peerYieldless := some ⟨s.count + 1, s.first, now⟩ }, ⟨s.count + 1, some (now - s.first)⟩)

/-! ## One sync -/

inductive Outcome where
  | completed
  | deadline
  | routeFault
  | failed
  deriving DecidableEq

/-- What one sync did. `reached` is the cursor it may persist: the one it ended at, or the completed one at the deadline. -/
structure Sync where
  outcome : Outcome
  peerFinalized : Nat := 0
  landed : Bool := true
  lastInteraction : Nat := 0
  reached : Nat := 0
  cursorYielded : Bool := false
  expiredRefused : Nat := 0
  retained : Nat := 0
  resumedWithProgress : Nat := 0
  progressed : Nat := 0
  stalled : Nat := 0
  graphsAttempted : Nat := 0

namespace Sync

def didWork (s : Sync) : Bool := decide (0 < s.expiredRefused ∨ 0 < s.retained ∨ 0 < s.resumedWithProgress)

def ran (s : Sync) : Bool := decide (s.outcome = .completed ∨ s.outcome = .deadline)

def advancedCursor (s : Sync) : Bool :=
  match s.outcome with
  | .completed => s.landed && decide (s.lastInteraction < s.reached)
  | .deadline => decide (s.lastInteraction < s.reached)
  | _ => false

def answered (s : Sync) : Bool :=
  match s.outcome with
  | .completed =>
    !(decide (0 < s.stalled) && decide (s.progressed = 0) && decide (s.peerFinalized = 0) && !s.didWork &&
      !(s.landed && decide (s.lastInteraction < s.reached) && s.cursorYielded))
  | .deadline =>
    decide (0 < s.peerFinalized) || (decide (s.lastInteraction < s.reached) && s.cursorYielded) || decide (0 < s.progressed) || s.didWork
  | _ => false

def yielded (s : Sync) : Bool := decide (0 < s.peerFinalized) || (s.advancedCursor && s.cursorYielded) || decide (0 < s.expiredRefused)

def outcomeSuccess (s : Sync) : Bool := s.yielded || s.didWork || s.answered

def routeExcused (s : Sync) : Bool := decide (s.outcome = .routeFault) && !s.outcomeSuccess

def served (s : Sync) : Bool := s.ran && (s.yielded || decide (0 < s.graphsAttempted))

end Sync

structure Entry where
  sync : Sync
  startedAt : Nat
  recordedAt : Nat
  streak : Option PeerYieldStreak
  recorded : Option Bool

def noteYield (r : Rows) (s : Sync) (now : Nat) : Rows × Option PeerYieldStreak × Bool :=
  if s.served then
    let answer := r.recordPeerSyncYield now s.yielded
    (answer.1, some answer.2, s.outcomeSuccess && (s.yielded || !yieldlessSyncFailed answer.2))
  else (r, none, s.outcomeSuccess)

def recordedOutcome (s : Sync) (failures : Nat) (success : Bool) : Option Bool :=
  if s.routeExcused then none
  else if success && !s.yielded && decide (peerQuarantineThreshold ≤ failures) then none
  else some success

structure Peer where
  clock : Nat := 0
  rows : Rows := {}
  log : List Entry := []

structure Tick where
  waited : Nat
  due : Bool
  sync : Sync
  ranFor : Nat := 0
  closedIn : Nat := 0

def Tick.startsAt (t : Tick) (p : Peer) : Nat := p.clock + t.waited
def Tick.yieldAt (t : Tick) (p : Peer) : Nat := t.startsAt p + t.ranFor
def Tick.recordAt (t : Tick) (p : Peer) : Nat := t.yieldAt p + t.closedIn

namespace Peer

def attended (p : Peer) (t : Tick) : Bool := t.due && !peerSyncQuarantined (p.rows.getPeerSyncHealth (t.startsAt p))

/-- The peer's part of `run_gasp_sync`. -/
def step (p : Peer) (t : Tick) : Peer :=
  if p.attended t then
    let noted := noteYield p.rows t.sync (t.yieldAt p)
    let recorded := recordedOutcome t.sync p.rows.failures noted.2.2
    { clock := t.recordAt p
      rows := recorded.elim noted.1 fun success => noted.1.recordPeerSyncOutcome (t.recordAt p) success
      log := ⟨t.sync, t.startsAt p, t.recordAt p, noted.2.1, recorded⟩ :: p.log }
  else { p with clock := t.startsAt p }

def run (p : Peer) (ticks : List Tick) : Peer := ticks.foldl step p

/-! ## What the claims of a run say -/

def Lifts (p : Peer) (t : Tick) : Prop :=
  (peerQuarantineThreshold ≤ p.rows.failures → (p.step t).rows.failures < peerQuarantineThreshold →
    p.attended t = true ∧ t.sync.yielded = true) ∧
  (p.attended t = true → t.sync.routeExcused = true → (p.step t).rows = p.rows)

def servedNoYield (p : Peer) (t : Tick) : Bool :=
  !p.attended t || (!t.sync.yielded && (!t.sync.ran || decide (0 < t.sync.graphsAttempted)))

def errorMeets (p : Peer) (t : Tick) : Bool := !p.attended t || t.sync.ran || !t.sync.didWork

end Peer

def Entry.past (e : Entry) : Bool := e.streak.any yieldlessSyncFailed

def Entry.failedOrExcused (e : Entry) : Prop := e.recorded = some false ∨ e.sync.routeExcused = true

def FailsOn (log : List Entry) : Prop :=
  (∀ e ∈ log, e.past = true → e.failedOrExcused) ∧ log.Pairwise fun newer older => older.past = true → newer.failedOrExcused

def failedSince : List Entry → Nat
  | [] => 0
  | e :: older => if (e :: older).any Entry.past then (if e.recorded = some false then 1 else 0) + failedSince older else 0

def ProbesApart (log : List Entry) : Prop :=
  ∀ newer e between b older, log = newer ++ e :: (between ++ b :: older) → peerQuarantineThreshold ≤ failedSince (b :: older) →
    b.sync.routeExcused = false → e.sync.routeExcused = false → b.recordedAt + peerQuarantineReprobeSecs ≤ e.startedAt

/-! ## One step -/

namespace Peer

variable {p : Peer} {t : Tick}

def entry (p : Peer) (t : Tick) : Entry :=
  let noted := noteYield p.rows t.sync (t.yieldAt p)
  ⟨t.sync, t.startsAt p, t.recordAt p, noted.2.1, recordedOutcome t.sync p.rows.failures noted.2.2⟩

def rowsAfter (p : Peer) (t : Tick) : Rows :=
  (p.entry t).recorded.elim (noteYield p.rows t.sync (t.yieldAt p)).1 fun success =>
    (noteYield p.rows t.sync (t.yieldAt p)).1.recordPeerSyncOutcome (t.recordAt p) success

theorem step_attended (h : p.attended t = true) : p.step t = ⟨t.recordAt p, p.rowsAfter t, p.entry t :: p.log⟩ := if_pos h

theorem step_skipped (h : p.attended t = false) : p.step t = { p with clock := t.startsAt p } := if_neg (by rw [h]; exact Bool.false_ne_true)

theorem recordAt_le (p : Peer) (t : Tick) : p.clock ≤ t.startsAt p ∧ t.startsAt p ≤ t.yieldAt p ∧ t.yieldAt p ≤ t.recordAt p :=
  ⟨Nat.le_add_right _ _, Nat.le_add_right _ _, Nat.le_add_right _ _⟩

theorem noteYield_health (r : Rows) (s : Sync) (now : Nat) : (noteYield r s now).1.peerHealth = r.peerHealth := by
  unfold noteYield Rows.recordPeerSyncYield
  split
  · split <;> rfl
  · rfl

theorem noteYield_failures (r : Rows) (s : Sync) (now : Nat) : (noteYield r s now).1.failures = r.failures :=
  congrArg (fun h : Option (Nat × Nat) => h.elim 0 Prod.fst) (noteYield_health r s now)

theorem rowsAfter_failures (p : Peer) (t : Tick) :
    (p.rowsAfter t).failures = (p.entry t).recorded.elim p.rows.failures fun success => if success then 0 else p.rows.failures + 1 := by
  unfold rowsAfter
  cases (p.entry t).recorded with
  | none => exact noteYield_failures _ _ _
  | some success =>
    cases success with
    | true => rfl
    | false => exact congrArg (· + 1) (noteYield_failures _ _ _)

variable {s : Sync}

theorem excused_ran (h : s.routeExcused = true) : s.outcome = .routeFault ∧ s.outcomeSuccess = false := by
  simpa [Sync.routeExcused] using h

theorem noteYield_not_served (r : Rows) (now : Nat) (h : s.ran = false) : noteYield r s now = (r, none, s.outcomeSuccess) := by
  apply if_neg
  simp [Sync.served, h]

theorem recorded_success {failures : Nat} {success : Bool} (h : recordedOutcome s failures success = some true)
    (hfail : peerQuarantineThreshold ≤ failures) : s.yielded = true := by
  unfold recordedOutcome at h
  split at h
  · cases h
  · split at h
    · cases h
    · rename_i hnot
      cases success with
      | false => cases h
      | true => simpa [hfail] using hnot

theorem lifts_step (p : Peer) (t : Tick) : p.Lifts t := by
  by_cases hatt : p.attended t = true
  · rw [Lifts, step_attended hatt]
    refine ⟨fun hfail hlow => ⟨hatt, ?_⟩, fun _ hexc => ?_⟩
    · have hrows := rowsAfter_failures p t
      cases hrec : (p.entry t).recorded with
      | none =>
        rw [hrec] at hrows
        exact absurd hlow (Nat.not_lt.mpr (hrows ▸ hfail))
      | some success =>
        cases success with
        | true => exact recorded_success hrec hfail
        | false =>
          rw [hrec] at hrows
          exact absurd hlow (Nat.not_lt.mpr (hrows ▸ Nat.le_succ_of_le hfail))
    · have hran : t.sync.ran = false := by simp [Sync.ran, (excused_ran hexc).1]
      have hrec : (p.entry t).recorded = none := if_pos hexc
      show p.rowsAfter t = p.rows
      rw [rowsAfter, hrec, noteYield_not_served _ _ hran]
      rfl
  · rw [Bool.not_eq_true] at hatt
    rw [Lifts, step_skipped hatt]
    exact ⟨fun hfail hlow => absurd hlow (Nat.not_lt.mpr hfail), fun hin => absurd (hatt.symm.trans hin) Bool.false_ne_true⟩

/-! ## A streak past both bounds -/

structure Marked (p : Peer) : Prop where
  streak : ∃ s, p.rows.peerYieldless = some s ∧ peerYieldlessSyncsAllowed < s.count ∧ s.first + peerYieldlessSecsAllowed ≤ p.clock
  failed : 1 ≤ p.rows.failures

theorem rowsAfter_streak (p : Peer) (t : Tick) : (p.rowsAfter t).peerYieldless = (noteYield p.rows t.sync (t.yieldAt p)).1.peerYieldless := by
  unfold rowsAfter
  cases (p.entry t).recorded <;> rfl

theorem noteYield_served (r : Rows) (now : Nat) (hserved : s.served = true) (hy : s.yielded = false) :
    noteYield r s now = ({ r with peerYieldless := some ⟨(r.streak now).count + 1, (r.streak now).first, now⟩ },
      some ⟨(r.streak now).count + 1, some (now - (r.streak now).first)⟩,
      s.outcomeSuccess && !yieldlessSyncFailed ⟨(r.streak now).count + 1, some (now - (r.streak now).first)⟩) := by
  simp only [noteYield, hserved, hy, Rows.recordPeerSyncYield, if_true, Bool.false_or, Bool.false_eq_true, if_false]

theorem failed_iff {n secs : Nat} : yieldlessSyncFailed ⟨n, some secs⟩ = true ↔ peerYieldlessSyncsAllowed < n ∧ peerYieldlessSecsAllowed ≤ secs := by
  simp [yieldlessSyncFailed]

theorem past_marks (hserves : p.servedNoYield t = true) (hatt : p.attended t = true) (hpast : (p.entry t).past = true) :
    (p.entry t).recorded = some false ∧ Marked ⟨t.recordAt p, p.rowsAfter t, p.entry t :: p.log⟩ := by
  simp only [servedNoYield, hatt, Bool.not_true, Bool.false_or, Bool.and_eq_true, Bool.not_eq_true'] at hserves
  have hserved : t.sync.served = true := by
    by_contra hnot
    have hnone : (p.entry t).streak = none := by
      simp only [entry, noteYield, if_neg hnot]
    simp [Entry.past, hnone] at hpast
  have hnoted := noteYield_served p.rows (t.yieldAt p) hserved hserves.1
  have hstreak : (p.entry t).streak = some ⟨(p.rows.streak (t.yieldAt p)).count + 1, some (t.yieldAt p - (p.rows.streak (t.yieldAt p)).first)⟩ := by
    simp only [entry, hnoted]
  have hfailed : yieldlessSyncFailed ⟨(p.rows.streak (t.yieldAt p)).count + 1, some (t.yieldAt p - (p.rows.streak (t.yieldAt p)).first)⟩ = true := by
    rw [Entry.past, hstreak] at hpast
    exact hpast
  have hran : t.sync.routeExcused = false := by
    have hr : t.sync.ran = true := by
      simp only [Sync.served, Bool.and_eq_true] at hserved
      exact hserved.1
    simp only [Sync.ran, decide_eq_true_eq] at hr
    rcases hr with hr | hr <;> simp [Sync.routeExcused, hr]
  have hrec : (p.entry t).recorded = some false := by
    simp only [entry, hnoted, hfailed, recordedOutcome, hran]
    simp
  refine ⟨hrec, ⟨⟨⟨(p.rows.streak (t.yieldAt p)).count + 1, (p.rows.streak (t.yieldAt p)).first, t.yieldAt p⟩, ?_, ?_⟩, ?_⟩⟩
  · exact (rowsAfter_streak p t).trans (by rw [hnoted])
  · have hbounds := failed_iff.mp hfailed
    have htimes := recordAt_le p t
    refine ⟨hbounds.1, ?_⟩
    show (p.rows.streak (t.yieldAt p)).first + peerYieldlessSecsAllowed ≤ t.recordAt p
    have hpos : 0 < peerYieldlessSecsAllowed := by decide
    omega
  · show 1 ≤ (p.rowsAfter t).failures
    rw [rowsAfter_failures, hrec]
    exact Nat.le_add_left _ _

theorem marked_step (hm : p.Marked) (hserves : p.servedNoYield t = true) (hmeets : p.errorMeets t = true) (hatt : p.attended t = true) :
    (p.entry t).failedOrExcused ∧ Marked ⟨t.recordAt p, p.rowsAfter t, p.entry t :: p.log⟩ := by
  obtain ⟨s, hs, hcount, hage⟩ := hm.streak
  have hfail := hm.failed
  have htimes := recordAt_le p t
  by_cases hran : t.sync.ran = true
  · -- the streak does not decay while the peer is failed, so the sync is past both bounds again
    have hstreak : p.rows.streak (t.yieldAt p) = s := by
      rw [Rows.streak, hs]
      apply if_neg
      rintro (hzero | ⟨hzero, -⟩)
      · omega
      · omega
    have hserved : t.sync.served = true := by
      simp only [servedNoYield, hatt, hran, Bool.not_true, Bool.false_or, Bool.and_eq_true] at hserves
      rw [Sync.served, hran, hserves.2, Bool.or_true]
      rfl
    have hy : t.sync.yielded = false := by
      simp only [servedNoYield, hatt, Bool.not_true, Bool.false_or, Bool.and_eq_true, Bool.not_eq_true'] at hserves
      exact hserves.1
    have hpast : (p.entry t).past = true := by
      have hnoted := noteYield_served p.rows (t.yieldAt p) hserved hy
      simp only [Entry.past, entry, hnoted, hstreak, Option.any_some]
      apply failed_iff.mpr
      omega
    obtain ⟨hrec, hmarked⟩ := past_marks hserves hatt hpast
    exact ⟨.inl hrec, hmarked⟩
  · rw [Bool.not_eq_true] at hran
    have hwork : t.sync.didWork = false := by simpa [errorMeets, hatt, hran] using hmeets
    have hy : t.sync.yielded = false := by
      simp only [servedNoYield, hatt, Bool.not_true, Bool.false_or, Bool.and_eq_true, Bool.not_eq_true'] at hserves
      exact hserves.1
    have hanswered : t.sync.answered = false := by
      simp only [Sync.ran, decide_eq_false_iff_not, not_or] at hran
      unfold Sync.answered
      cases ho : t.sync.outcome with
      | completed => exact absurd ho hran.1
      | deadline => exact absurd ho hran.2
      | routeFault => rfl
      | failed => rfl
    have hsuccess : t.sync.outcomeSuccess = false := by rw [Sync.outcomeSuccess, hy, hwork, hanswered]; rfl
    have hnoted := noteYield_not_served p.rows (t.yieldAt p) hran
    have hrec : (p.entry t).recorded = if t.sync.routeExcused then none else some false := by
      simp only [entry, hnoted, hsuccess, recordedOutcome]
      simp
    refine ⟨?_, ⟨⟨s, ?_, hcount, ?_⟩, ?_⟩⟩
    · by_cases hexc : t.sync.routeExcused = true
      · exact .inr hexc
      · exact .inl (hrec.trans (if_neg hexc))
    · exact (rowsAfter_streak p t).trans (by rw [hnoted]; exact hs)
    · show s.first + peerYieldlessSecsAllowed ≤ t.recordAt p
      omega
    · show 1 ≤ (p.rowsAfter t).failures
      rw [rowsAfter_failures, hrec]
      by_cases hexc : t.sync.routeExcused = true
      · rw [if_pos hexc]
        exact hfail
      · rw [if_neg hexc]
        exact Nat.le_add_left _ _

/-! ## The log of a run -/

structure Logged (p : Peer) : Prop where
  times : ∀ e ∈ p.log, e.recordedAt ≤ p.clock
  attempts : ∀ e ∈ p.log, e.recorded.isSome = true → ∃ f at_, p.rows.peerHealth = some (f, at_) ∧ e.recordedAt ≤ at_
  marked : p.log.any Entry.past = true → p.Marked ∧ failedSince p.log ≤ p.rows.failures
  fails : FailsOn p.log
  probes : ProbesApart p.log

theorem failedSince_no_past {log : List Entry} (h : log.any Entry.past = false) : failedSince log = 0 := by
  cases log with
  | nil => rfl
  | cons e older => exact if_neg (by rw [h]; exact Bool.false_ne_true)

theorem failedSince_cons_le (e : Entry) (older : List Entry) :
    failedSince (e :: older) ≤ (if e.recorded = some false then 1 else 0) + failedSince older := by
  rw [failedSince]
  split
  · exact Nat.le_refl _
  · exact Nat.zero_le _

theorem failedSince_le_append (newer older : List Entry) : failedSince older ≤ failedSince (newer ++ older) := by
  induction newer with
  | nil => exact Nat.le_refl _
  | cons e newer ih =>
    rw [List.cons_append, failedSince]
    by_cases hpast : (e :: (newer ++ older)).any Entry.past = true
    · rw [if_pos hpast]
      omega
    · rw [Bool.not_eq_true] at hpast
      have hrest : (newer ++ older).any Entry.past = false := by
        simp only [List.any_cons, Bool.or_eq_false_iff] at hpast
        exact hpast.2
      rw [failedSince_no_past hrest] at ih
      rw [Nat.le_zero.mp ih]
      exact Nat.zero_le _

theorem excused_unrecorded (h : (p.entry t).sync.routeExcused = true) : (p.entry t).recorded = none := if_pos h

theorem rowsAfter_health {success : Bool} (h : (p.entry t).recorded = some success) :
    ∃ f, (p.rowsAfter t).peerHealth = some (f, t.recordAt p) := by
  unfold rowsAfter
  rw [h]
  exact ⟨_, rfl⟩

theorem attended_reprobe {f at_ : Nat} (hatt : p.attended t = true) (hhealth : p.rows.peerHealth = some (f, at_))
    (hfail : peerQuarantineThreshold ≤ p.rows.failures) : at_ + peerQuarantineReprobeSecs ≤ t.startsAt p := by
  have hf : peerQuarantineThreshold ≤ f := by
    rw [Rows.failures, hhealth] at hfail
    exact hfail
  simp only [attended, Rows.getPeerSyncHealth, hhealth, peerSyncQuarantined, Option.any_some, Bool.and_eq_true, Bool.not_eq_true',
    Bool.and_eq_false_iff, decide_eq_false_iff_not] at hatt
  have hlate := hatt.2.resolve_left fun hno => hno hf
  have hpos : 0 < peerQuarantineReprobeSecs := by decide
  omega

theorem logged_attended (h : p.Logged) (hserves : p.servedNoYield t = true) (hmeets : p.errorMeets t = true) (hatt : p.attended t = true) :
    Logged ⟨t.recordAt p, p.rowsAfter t, p.entry t :: p.log⟩ := by
  have htimes := recordAt_le p t
  have hmarks : (p.entry t :: p.log).any Entry.past = true →
      (p.entry t).failedOrExcused ∧ Marked ⟨t.recordAt p, p.rowsAfter t, p.entry t :: p.log⟩ := by
    intro hany
    by_cases hnew : (p.entry t).past = true
    · obtain ⟨hrec, hm⟩ := past_marks hserves hatt hnew
      exact ⟨.inl hrec, hm⟩
    · rw [List.any_cons, (Bool.not_eq_true _).mp hnew, Bool.false_or] at hany
      exact marked_step (h.marked hany).1 hserves hmeets hatt
  refine ⟨?_, ?_, ?_, ⟨?_, ?_⟩, ?_⟩
  · intro e he
    rcases List.mem_cons.mp he with rfl | he
    · exact Nat.le_refl _
    · have hold := h.times e he
      show e.recordedAt ≤ t.recordAt p
      omega
  · intro e he hsome
    rcases hrec : (p.entry t).recorded with _ | success
    · rcases List.mem_cons.mp he with rfl | he
      · rw [hrec] at hsome
        cases hsome
      · obtain ⟨f, at_, hhealth, hle⟩ := h.attempts e he hsome
        refine ⟨f, at_, ?_, hle⟩
        show (p.rowsAfter t).peerHealth = some (f, at_)
        rw [rowsAfter, hrec]
        exact (noteYield_health _ _ _).trans hhealth
    · obtain ⟨f, hhealth⟩ := rowsAfter_health hrec
      refine ⟨f, _, hhealth, ?_⟩
      rcases List.mem_cons.mp he with rfl | he
      · exact Nat.le_refl _
      · have hold := h.times e he
        omega
  · intro hany
    obtain ⟨hfailed, hm⟩ := hmarks hany
    refine ⟨hm, ?_⟩
    show failedSince (p.entry t :: p.log) ≤ (p.rowsAfter t).failures
    have hold : failedSince p.log ≤ p.rows.failures := by
      by_cases hpast : p.log.any Entry.past = true
      · exact (h.marked hpast).2
      · rw [failedSince_no_past ((Bool.not_eq_true _).mp hpast)]
        exact Nat.zero_le _
    have hcons := failedSince_cons_le (p.entry t) p.log
    rw [rowsAfter_failures]
    rcases hfailed with hrec | hexc
    · rw [if_pos hrec] at hcons
      rw [hrec]
      show _ ≤ p.rows.failures + 1
      omega
    · have hrec := excused_unrecorded hexc
      rw [hrec] at hcons ⊢
      show _ ≤ p.rows.failures
      simpa using Nat.le_trans hcons (by simpa using hold)
  · intro e he hpast
    rcases List.mem_cons.mp he with rfl | he
    · exact .inl (past_marks hserves hatt hpast).1
    · exact h.fails.1 e he hpast
  · refine List.pairwise_cons.mpr ⟨fun e he hpast => ?_, h.fails.2⟩
    apply (hmarks ?_).1
    rw [List.any_cons, List.any_eq_true.mpr ⟨e, he, hpast⟩, Bool.or_true]
  · intro newer e between b older hlog hcount hb he
    cases newer with
    | cons first newer =>
      obtain ⟨-, hrest⟩ := List.cons.inj hlog
      exact h.probes newer e between b older hrest hcount hb he
    | nil =>
      obtain ⟨rfl, hrest⟩ := List.cons.inj hlog
      have hpos : 0 < peerQuarantineThreshold := by decide
      have hpast : (b :: older).any Entry.past = true := by
        by_contra hno
        rw [failedSince_no_past ((Bool.not_eq_true _).mp hno)] at hcount
        omega
      have hall : p.log.any Entry.past = true := by
        rw [hrest, List.any_append, hpast, Bool.or_true]
      have hmem : b ∈ p.log := by
        rw [hrest]
        exact List.mem_append_right _ List.mem_cons_self
      -- the earlier sync is past both bounds or follows one that is
      have hbfailed : b.failedOrExcused := by
        rw [List.any_cons] at hpast
        rcases (Bool.or_eq_true _ _).mp hpast with hself | holder
        · exact h.fails.1 b hmem hself
        · obtain ⟨o, ho, hopast⟩ := List.any_eq_true.mp holder
          have hpair := h.fails.2
          rw [hrest] at hpair
          exact (List.pairwise_cons.mp (List.pairwise_append.mp hpair).2.1).1 o ho hopast
      have hbrec : b.recorded = some false := hbfailed.resolve_right (by rw [hb]; exact Bool.false_ne_true)
      obtain ⟨f, at_, hhealth, hle⟩ := h.attempts b hmem (by rw [hbrec]; rfl)
      have hsince := failedSince_le_append between (b :: older)
      rw [← hrest] at hsince
      have hfail := (h.marked hall).2
      have hreprobe := attended_reprobe hatt hhealth (by omega)
      show b.recordedAt + peerQuarantineReprobeSecs ≤ t.startsAt p
      omega

theorem logged_step (h : p.Logged) (hserves : p.servedNoYield t = true) (hmeets : p.errorMeets t = true) : (p.step t).Logged := by
  by_cases hatt : p.attended t = true
  · rw [step_attended hatt]
    exact logged_attended h hserves hmeets hatt
  · rw [step_skipped ((Bool.not_eq_true _).mp hatt)]
    have htimes := recordAt_le p t
    refine ⟨fun e he => ?_, h.attempts, fun hany => ?_, h.fails, h.probes⟩
    · have hold := h.times e he
      show e.recordedAt ≤ t.startsAt p
      omega
    · obtain ⟨⟨⟨s, hs, hcount, hage⟩, hfailed⟩, hsince⟩ := h.marked hany
      refine ⟨⟨⟨s, hs, hcount, ?_⟩, hfailed⟩, hsince⟩
      show s.first + peerYieldlessSecsAllowed ≤ t.startsAt p
      omega

/-- A quarantine is lifted only by a yield; and a peer that never yields and whose errors follow no work fails at every sync from the
first one past both bounds on. -/
theorem quarantine_kept (clock : Nat) (rows : Rows) (ticks : List Tick)
    (hserves : Runs.Along step (fun p t => p.servedNoYield t = true) ⟨clock, rows, []⟩ ticks)
    (hmeets : Runs.Along step (fun p t => p.errorMeets t = true) ⟨clock, rows, []⟩ ticks) :
    (∀ p t, Lifts p t) ∧ FailsOn (run ⟨clock, rows, []⟩ ticks).log ∧ ProbesApart (run ⟨clock, rows, []⟩ ticks).log := by
  have hstart : Logged ⟨clock, rows, []⟩ := by
    refine ⟨fun _ h => (by cases h), fun _ h => (by cases h), fun h => (by cases h), ⟨fun _ h => (by cases h), List.Pairwise.nil⟩, ?_⟩
    intro newer e between b older hlog
    cases newer <;> cases hlog
  have hboth : Runs.Along step (fun p t => p.servedNoYield t = true ∧ p.errorMeets t = true) ⟨clock, rows, []⟩ ticks :=
    Runs.along_and hserves hmeets
  have hkept := Runs.inv_along (I := Logged) (fun p t h hp => logged_step h hp.1 hp.2) hstart hboth
  exact ⟨lifts_step, hkept.fails, hkept.probes⟩

/-! A peer that serves one node a tick and hangs, each quarter of an hour, and then ends a sync in an error. -/

def hung : Tick := { waited := 900, due := true, sync := { outcome := .deadline, progressed := 1, retained := 1, graphsAttempted := 1 } }

def errorAfterWork : Tick := { waited := 900, due := true, sync := { outcome := .failed, retained := 1, graphsAttempted := 1 } }

theorem error_after_work_resets :
    Runs.Along step (fun p t => p.servedNoYield t = true) {} (List.replicate 13 hung ++ [errorAfterWork]) ∧
      ¬ FailsOn (run {} (List.replicate 13 hung ++ [errorAfterWork])).log ∧
      (run {} (List.replicate 13 hung ++ [errorAfterWork])).rows.failures = 0 := by
  refine ⟨by decide, fun h => ?_, by decide⟩
  have hlog : ∃ older, (run {} (List.replicate 13 hung ++ [errorAfterWork])).log =
      ⟨errorAfterWork.sync, 12600, 12600, none, some true⟩ ::
        ⟨hung.sync, 11700, 11700, some ⟨13, some 10800⟩, some false⟩ :: older := ⟨_, rfl⟩
  obtain ⟨older, hlog⟩ := hlog
  rw [hlog] at h
  have hfail := (List.pairwise_cons.mp h.2).1 _ List.mem_cons_self (by decide)
  rcases hfail with hrec | hexc
  · cases hrec
  · revert hexc
    decide

theorem quarantine_kept_hung : FailsOn (run {} (List.replicate 13 hung)).log :=
  (quarantine_kept 0 {} (List.replicate 13 hung) (by decide) (by decide)).2.1

end Peer

end OverlayEngine.PeerHealth
