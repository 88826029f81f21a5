import Mathlib.Data.List.Count
import OverlayEngine.AppLayer.BurstTurnsKept

/-!
# Every coalesced call returns

A call asleep is on the burst's list of wakers, a call with an answer is awake,
and where the turn is free and a call sleeps, the mutex has woken another. So
some move is left while a call has not returned, and without new calls there are
finitely many.
-/

namespace OverlayEngine.BurstTurns

variable {π : Type}

/-! ## What a move does to the calls -/

section
variable {s : Burst π} {h id now : Nat} {p : Pass π}

theorem waits_iff : s.waits id = true ↔ ∃ t, s.calls id = some (.waiting t) := by
  rw [Burst.waits]
  split
  · rename_i t ht
    exact iff_of_true rfl ⟨t, ht⟩
  · rename_i hnot
    exact iff_of_false (by simp) fun ⟨t, ht⟩ => hnot t ht

theorem holds_iff : s.holds id = true ↔ ∃ p, s.calls id = some (.passing p) := by
  rw [Burst.holds]
  split
  · rename_i p hp
    exact iff_of_true rfl ⟨p, hp⟩
  · rename_i hnot
    exact iff_of_false (by simp) fun ⟨p, hp⟩ => hnot p hp

def Unsettled (s : Burst π) (id : Nat) : Prop := s.waits id = true ∨ s.holds id = true

structure Moves (s t : Burst π) (id : Nat) : Prop where
  next : t.next = s.next
  other : ∀ i, i ≠ id → t.calls i = s.calls i

structure GoesOn (s t : Burst π) (h : Nat) (p : Pass π) : Prop extends Moves s t h where
  call : t.calls h = some (.passing p)
  done : t.done = s.done
  holder : t.holder = s.holder

structure PassEnds (s t : Burst π) (h : Nat) : Prop extends Moves s t h where
  call : ∃ r, t.calls h = some (.returned r)
  holder : t.holder = none

theorem finish_ends (s : Burst π) (h : Nat) (p : Pass π) (fault : Option String) (now : Nat) : PassEnds s (s.finish h p fault now) h where
  next := rfl
  other _ hi := Function.update_of_ne hi ..
  call := ⟨_, Function.update_self ..⟩
  holder := rfl

theorem go_cases (s : Burst π) (h : Nat) (p : Pass π) (now : Nat) : GoesOn s (s.go h p now) h p ∨ PassEnds s (s.go h p now) h := by
  rw [Burst.go]
  split
  · exact .inr (finish_ends s h p none now)
  · exact .inl ⟨⟨rfl, fun _ hi => Function.update_of_ne hi ..⟩, Function.update_self .., rfl, rfl⟩

structure Leaves (s t : Burst π) (id : Nat) : Prop extends Moves s t id where
  waits : t.waits id = false
  holds : t.holds id = false
  done : ∀ i, i ≠ id → t.done i = s.done i

theorem not_waits_of {s : Burst π} {phase : Phase π} (hcall : s.calls id = some phase) (h : ∀ t, phase ≠ .waiting t) : s.waits id = false := by
  rw [Bool.eq_false_iff, ne_eq, waits_iff, hcall]
  exact fun ⟨t, ht⟩ => h t (Option.some.inj ht)

theorem not_holds_of {s : Burst π} {phase : Phase π} (hcall : s.calls id = some phase) (h : ∀ p, phase ≠ .passing p) : s.holds id = false := by
  rw [Bool.eq_false_iff, ne_eq, holds_iff, hcall]
  exact fun ⟨p, hp⟩ => h p (Option.some.inj hp)

inductive Effect (s t : Burst π) : Act π → Prop
  | enters (item : Item) (now : Nat) (next : t.next = s.next + 1) (call : t.calls s.next = some (.waiting now))
      (other : ∀ i, i ≠ s.next → t.calls i = s.calls i) (done : t.done = s.done) (holder : t.holder = s.holder) : Effect s t (.enter item now)
  | returns (id now wake : Nat) (waits : s.waits id = true) (left : (s.done id).isSome = true) (leaves : Leaves s t id) (holder : t.holder = s.holder) :
      Effect s t (.poll id now wake)
  | takes (id now wake : Nat) (p : Pass π) (waits : s.waits id = true) (unleft : s.done id = none) (free : s.holder = none) (moves : Moves s t id)
      (call : t.calls id = some (.passing p)) (done : t.done = s.done) (holder : t.holder = some id) : Effect s t (.poll id now wake)
  | takesNone (id now wake : Nat) (waits : s.waits id = true) (unleft : s.done id = none) (free : s.holder = none) (ends : PassEnds s t id) :
      Effect s t (.poll id now wake)
  | sleeps (id now wake : Nat) (waits : s.waits id = true) (unleft : s.done id = none) (busy : s.holder.isSome = true) (same : t = s) : Effect s t (.poll id now wake)
  | checks (id : Nat) (first covered : Bool) (now wake : Nat) (p q : Pass π) (call : s.calls id = some (.passing p)) (goes : GoesOn s t id q)
      (less : q.unchecked.length < p.unchecked.length) : Effect s t (.check id first covered now wake)
  | checksLast (id : Nat) (first covered : Bool) (now wake : Nat) (p : Pass π) (call : s.calls id = some (.passing p)) (ends : PassEnds s t id) :
      Effect s t (.check id first covered now wake)
  | applies (id : Nat) (answer : Except String (Report × List π)) (asks : Except String Nat) (now wake : Nat) (p q : Pass π)
      (call : s.calls id = some (.passing p)) (goes : GoesOn s t id q) (same : q.unchecked = p.unchecked) (less : q.left.length < p.left.length) :
      Effect s t (.apply id answer asks now wake)
  | appliesLast (id : Nat) (answer : Except String (Report × List π)) (asks : Except String Nat) (now wake : Nat) (p : Pass π)
      (call : s.calls id = some (.passing p)) (ends : PassEnds s t id) : Effect s t (.apply id answer asks now wake)
  | dropsWaiting (id wake : Nat) (waits : s.waits id = true) (leaves : Leaves s t id) (holder : t.holder = s.holder) : Effect s t (.drop id wake)
  | dropsHolder (id wake : Nat) (p : Pass π) (call : s.calls id = some (.passing p)) (leaves : Leaves s t id) (holder : t.holder = none) : Effect s t (.drop id wake)

theorem effect_poll (wake : Nat) (h : s.waits id = true) : Effect s (s.poll id now) (.poll id now wake) := by
  obtain ⟨entered, hcall⟩ := waits_iff.mp h
  rw [Burst.poll, hcall]
  simp only
  cases hdone : s.done id with
  | some r =>
    have hret : (s.answered id entered now r).calls id = some (.returned (r.map fun r => (r.1.joined entered now, r.2))) := Function.update_self ..
    exact .returns id now wake h (by rw [hdone]; rfl) ⟨⟨rfl, fun _ hi => Function.update_of_ne hi ..⟩, not_waits_of hret (by simp), not_holds_of hret (by simp),
      fun _ hi => Function.update_of_ne hi ..⟩ rfl
  | none =>
    simp only
    cases hholder : s.holder with
    | some k => exact .sleeps id now wake h hdone (by rw [hholder]; rfl) (if_neg (by simp))
    | none =>
      simp only [Option.isNone_none, if_true]
      rw [Burst.take]
      rcases go_cases { s with pending := [], holder := some id, log := s.log ++ [Event.took id s.pending] } id
          { entered := entered, turned := now, size := s.pending.length, unchecked := s.pending } now with hgoes | hends
      · exact .takes id now wake _ h hdone hholder ⟨hgoes.next, hgoes.other⟩ hgoes.call hgoes.done hgoes.holder
      · exact .takesNone id now wake h hdone hholder ⟨⟨hends.next, hends.other⟩, hends.call, hends.holder⟩

theorem check_less (p : Pass π) (first covered : Bool) (h : p.unchecked ≠ []) : (p.check first covered).unchecked.length < p.unchecked.length := by
  cases hun : p.unchecked with
  | nil => exact absurd hun h
  | cons x rest =>
    rw [Pass.check, hun]
    simp only [chunked_unchecked]
    split <;> exact Nat.lt_succ_self _

theorem effect_check (first covered : Bool) (wake : Nat) (hcall : s.calls id = some (.passing p)) (h : p.unchecked ≠ []) :
    Effect s (s.check id first covered now) (.check id first covered now wake) := by
  have hless := check_less p first covered h
  rw [Burst.check, hcall]
  simp only
  cases hun : p.unchecked with
  | nil => exact absurd hun h
  | cons x rest =>
    obtain ⟨i, item⟩ := x
    simp only
    split
    · rcases go_cases (s.write (.covered id i)) id (p.check first covered) now with hgoes | hends
      · exact .checks id first covered now wake p _ hcall ⟨⟨hgoes.next, hgoes.other⟩, hgoes.call, hgoes.done, hgoes.holder⟩ hless
      · exact .checksLast id first covered now wake p hcall ⟨⟨hends.next, hends.other⟩, hends.call, hends.holder⟩
    · rcases go_cases s id (p.check first covered) now with hgoes | hends
      · exact .checks id first covered now wake p _ hcall hgoes hless
      · exact .checksLast id first covered now wake p hcall hends

theorem effect_apply (publish : Bool) (answer : Except String (Report × List π)) (asks : Except String Nat) (wake : Nat)
    (hcall : s.calls id = some (.passing p)) (hun : p.unchecked = []) (h : p.left ≠ []) :
    Effect s (s.apply publish id answer asks now) (.apply id answer asks now wake) := by
  rw [Burst.apply, hcall]
  simp only [hun]
  cases hleft : p.left with
  | nil => exact absurd hleft h
  | cons chunk rest =>
    simp only
    split
    · exact .appliesLast id answer asks now wake p hcall (finish_ends s id p _ now)
    · rename_i report pushes _
      rcases go_cases (s.write (.applied id chunk)) id (p.apply report pushes) now with hgoes | hends
      · refine .applies id answer asks now wake p _ hcall ⟨⟨hgoes.next, hgoes.other⟩, hgoes.call, hgoes.done, hgoes.holder⟩ rfl ?_
        rw [Pass.apply, hleft]
        exact Nat.lt_succ_self _
      · exact .appliesLast id answer asks now wake p hcall ⟨⟨hends.next, hends.other⟩, hends.call, hends.holder⟩

theorem effect_drop (wake : Nat) (h : Unsettled s id) : Effect s (s.drop id) (.drop id wake) := by
  have hself : (s.setCall id .dropped).calls id = some .dropped := Function.update_self ..
  have hother : ∀ i, i ≠ id → (s.setCall id .dropped).calls i = s.calls i := fun _ hi => Function.update_of_ne hi ..
  rw [Burst.drop]
  rcases h with hwaits | hholds
  · obtain ⟨t, hcall⟩ := waits_iff.mp hwaits
    rw [hcall]
    exact .dropsWaiting id wake hwaits ⟨⟨rfl, hother⟩, not_waits_of hself (by simp), not_holds_of hself (by simp), fun _ _ => rfl⟩ rfl
  · obtain ⟨p, hcall⟩ := holds_iff.mp hholds
    rw [hcall]
    exact .dropsHolder id wake p hcall ⟨⟨rfl, hother⟩, not_waits_of hself (by simp), not_holds_of hself (by simp), fun _ _ => rfl⟩ rfl

end

theorem effect (s : State π) (publish : Bool) (a : Act π) (h : s.enabled a = true) : Effect s.burst (s.burst.step publish a) a := by
  cases a with
  | enter item now => exact .enters item now rfl (Function.update_self ..) (fun _ hi => Function.update_of_ne hi ..) rfl rfl
  | poll id now wake =>
    simp only [State.enabled, Bool.and_eq_true] at h
    exact effect_poll wake h.1
  | check id first covered now wake =>
    simp only [State.enabled] at h
    split at h
    · rename_i p hcall
      exact effect_check first covered wake hcall (by simpa using h)
    · cases h
  | apply id answer asks now wake =>
    simp only [State.enabled] at h
    split at h
    · rename_i p hcall
      simp only [Bool.and_eq_true, List.isEmpty_iff, Bool.not_eq_true', List.isEmpty_eq_false_iff] at h
      exact effect_apply publish answer asks wake hcall h.1 h.2
    · cases h
  | drop id wake =>
    simp only [State.enabled, Bool.or_eq_true] at h
    exact effect_drop wake h

/-! ## Who is awake -/

structure Ready (s : Burst π) (k : Wakes) : Prop where
  listed : ∀ id, s.waits id = true → k.awake id = false → id ∈ k.wakers
  answered : ∀ id, s.waits id = true → (s.done id).isSome = true → k.awake id = true
  woken : ∀ id, s.waits id = true → k.woken id = true → k.awake id = true

def Turned (s : Burst π) (k : Wakes) : Prop := s.holder = none → (∃ id, s.waits id = true ∧ k.awake id = false) → ∃ id, s.waits id = true ∧ k.woken id = true

structure Live (s : State π) : Prop where
  kept : Kept s.burst
  ready : Ready s.burst s.wakes
  turned : Turned s.burst s.wakes

section
variable {s t : Burst π} {k : Wakes} {id : Nat}

theorem Base.waits_lt (hs : Base s) (h : s.waits id = true) : id < s.next := by
  obtain ⟨entered, hcall⟩ := waits_iff.mp h
  by_contra hge
  rw [(hs.fresh id (Nat.le_of_not_lt hge)).1] at hcall
  cases hcall

theorem one_cases (hs : Base s) (k : Wakes) (wake : Nat) :
    (∃ w, s.waits w = true ∧ k.one s wake = { k with awake := Function.update k.awake w true, woken := Function.update k.woken w true }) ∨
      (∀ id, s.waits id = false) ∧ k.one s wake = k := by
  rw [Wakes.one]
  split
  · rename_i w hw
    refine .inl ⟨w, ?_, rfl⟩
    split at hw
    · rename_i hwake
      exact Option.some.inj hw ▸ hwake
    · exact List.find?_some hw
  · rename_i hnone
    refine .inr ⟨fun id => Bool.eq_false_iff.mpr fun hwaits => ?_, rfl⟩
    split at hnone
    · cases hnone
    · exact List.find?_eq_none.mp hnone id (List.mem_range.mpr (hs.waits_lt hwaits)) hwaits

theorem Ready.one (h : Ready s k) (hs : Base s) (wake : Nat) : Ready s (k.one s wake) ∧ Turned s (k.one s wake) := by
  rcases one_cases hs k wake with ⟨w, hw, hk⟩ | ⟨hnone, hk⟩
  · rw [hk]
    have hupdate {f : Nat → Bool} {id : Nat} : Function.update f w true id = true ↔ id = w ∨ f id = true := by
      by_cases hid : id = w <;> simp [hid]
    refine ⟨⟨fun id hwaits hasleep => ?_, fun id hwaits hdone => ?_, fun id hwaits hwoken => ?_⟩, fun _ _ => ⟨w, hw, Function.update_self ..⟩⟩
    · refine h.listed id hwaits (Bool.eq_false_iff.mpr fun hawake => ?_)
      have hstill : Function.update k.awake w true id = true := hupdate.mpr (.inr hawake)
      exact Bool.false_ne_true (hasleep.symm.trans hstill)
    · exact hupdate.mpr (.inr (h.answered id hwaits hdone))
    · exact hupdate.mpr ((hupdate.mp hwoken).imp_right (h.woken id hwaits))
  · rw [hk]
    exact ⟨h, fun _ ⟨id, hwaits, _⟩ => absurd hwaits (by rw [hnone id]; simp)⟩

theorem Ready.fewer (h : Ready s k) (hwaits : ∀ i, t.waits i = true → s.waits i = true ∧ t.done i = s.done i) : Ready t k where
  listed i hi := h.listed i (hwaits i hi).1
  answered i hi hdone := h.answered i (hwaits i hi).1 ((hwaits i hi).2 ▸ hdone)
  woken i hi := h.woken i (hwaits i hi).1

theorem Ready.all (h : Ready s k) (hwaits : ∀ i, t.waits i = true → s.waits i = true) : Ready t k.all := by
  have hawake (i : Nat) (hi : t.waits i = true) : k.all.awake i = true := by
    rw [Wakes.all, Bool.or_eq_true, decide_eq_true_iff]
    by_cases hasleep : k.awake i = true
    · exact .inl hasleep
    · exact .inr (h.listed i (hwaits i hi) (Bool.eq_false_iff.mpr hasleep))
  refine ⟨fun i hi hasleep => ?_, fun i hi _ => hawake i hi, fun i hi _ => hawake i hi⟩
  rw [hawake i hi] at hasleep
  cases hasleep

theorem waits_congr {i : Nat} (h : t.calls i = s.calls i) : t.waits i = s.waits i := by rw [Burst.waits, Burst.waits, h]
theorem holds_congr {i : Nat} (h : t.calls i = s.calls i) : t.holds i = s.holds i := by rw [Burst.holds, Burst.holds, h]

theorem Leaves.waits_sub (h : Leaves s t id) (i : Nat) (hi : t.waits i = true) : i ≠ id ∧ s.waits i = true ∧ t.done i = s.done i := by
  have hne : i ≠ id := by
    rintro rfl
    rw [h.waits] at hi
    cases hi
  exact ⟨hne, (waits_congr (h.other i hne)) ▸ hi, h.done i hne⟩

theorem Moves.waits_sub (h : Moves s t id) {phase : Phase π} (hcall : t.calls id = some phase) (hphase : ∀ e, phase ≠ .waiting e) (i : Nat)
    (hi : t.waits i = true) : i ≠ id ∧ s.waits i = true := by
  have hne : i ≠ id := by
    rintro rfl
    rw [not_waits_of hcall hphase] at hi
    cases hi
  exact ⟨hne, (waits_congr (h.other i hne)) ▸ hi⟩

theorem PassEnds.waits_sub (h : PassEnds s t id) (i : Nat) (hi : t.waits i = true) : s.waits i = true := by
  obtain ⟨r, hcall⟩ := h.call
  exact (h.toMoves.waits_sub hcall (by simp) i hi).2

end

variable {s : State π}

theorem Live.step (h : Live s) (publish : Bool) (a : Act π) : Live (s.step publish a) := by
  rw [State.step]
  split
  case isFalse => exact h
  case isTrue henabled =>
    obtain ⟨t, ht⟩ : ∃ t, t = s.burst.step publish a := ⟨_, rfl⟩
    have hkept : Kept t := ht ▸ h.kept.step publish a
    have heffect := effect s publish a henabled
    simp only [← ht] at heffect ⊢
    suffices hwakes : Ready t (s.wakesAfter t a) ∧ Turned t (s.wakesAfter t a) from ⟨hkept, hwakes.1, hwakes.2⟩
    have hends {id wake : Nat} (hends : PassEnds s.burst t id) : Ready t (s.wakes.ended t wake) ∧ Turned t (s.wakes.ended t wake) :=
      (h.ready.all hends.waits_sub).one hkept.toBase wake
    have hheld {id : Nat} {p : Pass π} (hmoves : Moves s.burst t id) (hcall : t.calls id = some (.passing p)) (hdone : t.done = s.burst.done)
        (hholder : t.holder = some id) : Ready t s.wakes ∧ Turned t s.wakes := by
      refine ⟨h.ready.fewer fun i hi => ⟨(hmoves.waits_sub hcall (by simp) i hi).2, by rw [hdone]⟩, fun hfree => ?_⟩
      rw [hholder] at hfree
      cases hfree
    have hleft {id wake : Nat} (hleaves : Leaves s.burst t id) (hholder : t.holder = s.burst.holder) :
        Ready t (s.wakes.left t id wake) ∧ Turned t (s.wakes.left t id wake) := by
      have hfewer : Ready t s.wakes := h.ready.fewer fun i hi => (hleaves.waits_sub i hi).2
      rw [Wakes.left]
      split
      · exact hfewer.one hkept.toBase wake
      · rename_i hwoken
        refine ⟨hfewer, fun hfree ⟨i, hi, hasleep⟩ => ?_⟩
        obtain ⟨w, hw, hww⟩ := h.turned (hholder ▸ hfree) ⟨i, (hleaves.waits_sub i hi).2.1, hasleep⟩
        have hne : w ≠ id := by
          rintro rfl
          exact hwoken hww
        exact ⟨w, (waits_congr (hleaves.other w hne)).trans hw, hww⟩
    cases heffect with
    | enters item now hnext hcall hother hdone hholder =>
      have hold {i : Nat} (hi : i ≠ s.burst.next) : (s.wakes.entered s.burst.next).awake i = s.wakes.awake i ∧ (s.wakes.entered s.burst.next).woken i = s.wakes.woken i :=
        ⟨Function.update_of_ne hi .., Function.update_of_ne hi ..⟩
      have hnew : (s.wakes.entered s.burst.next).awake s.burst.next = true := Function.update_self ..
      have hwaits {i : Nat} (hi : i ≠ s.burst.next) : t.waits i = s.burst.waits i := waits_congr (hother i hi)
      refine ⟨⟨fun i hi hasleep => ?_, fun i hi hd => ?_, fun i hi hw => ?_⟩, fun hfree ⟨i, hi, hasleep⟩ => ?_⟩
      · have hne : i ≠ s.burst.next := by
          rintro rfl
          rw [State.wakesAfter, hnew] at hasleep
          cases hasleep
        rw [State.wakesAfter, (hold hne).1] at hasleep
        exact h.ready.listed i (hwaits hne ▸ hi) hasleep
      · by_cases hne : i = s.burst.next
        · exact hne ▸ hnew
        · rw [State.wakesAfter, (hold hne).1]
          exact h.ready.answered i (hwaits hne ▸ hi) (hdone ▸ hd)
      · by_cases hne : i = s.burst.next
        · exact hne ▸ hnew
        · rw [State.wakesAfter, (hold hne).2] at hw
          rw [State.wakesAfter, (hold hne).1]
          exact h.ready.woken i (hwaits hne ▸ hi) hw
      · have hne : i ≠ s.burst.next := by
          rintro rfl
          rw [State.wakesAfter, hnew] at hasleep
          cases hasleep
        rw [State.wakesAfter, (hold hne).1] at hasleep
        obtain ⟨w, hw, hww⟩ := h.turned (hholder ▸ hfree) ⟨i, hwaits hne ▸ hi, hasleep⟩
        have hwne : w ≠ s.burst.next := Nat.ne_of_lt (h.kept.toBase.waits_lt hw)
        exact ⟨w, (hwaits hwne).trans hw, by rw [State.wakesAfter, (hold hwne).2]; exact hww⟩
    | returns id now wake hwaits hsome hleaves hholder =>
      rw [State.wakesAfter, State.pollWakes, if_pos hsome]
      split
      · exact (h.ready.fewer fun i hi => (hleaves.waits_sub i hi).2).one hkept.toBase wake
      · exact hleft hleaves hholder
    | takes id now wake p hwaits hnone hfree hmoves hcall hdone hholder =>
      rw [State.wakesAfter, State.pollWakes, if_neg (by simp [hnone]), if_pos (by simp [hfree]), if_neg (by simp [hholder])]
      exact hheld hmoves hcall hdone hholder
    | takesNone id now wake hwaits hnone hfree hpass =>
      rw [State.wakesAfter, State.pollWakes, if_neg (by simp [hnone]), if_pos (by simp [hfree]), if_pos (by simp [hpass.holder])]
      exact hends hpass
    | sleeps id now wake hwaits hnone hbusy hsame =>
      rw [State.wakesAfter, State.pollWakes, if_neg (by simp [hnone]), if_neg (by simpa [Option.isSome_iff_ne_none] using hbusy), hsame]
      refine ⟨⟨fun i hi hasleep => ?_, fun i hi hd => ?_, fun i hi hw => ?_⟩, fun hfree => ?_⟩
      · by_cases heq : i = id
        · exact List.mem_append_right _ (by simp [heq])
        · have hasleep' : s.wakes.awake i = false := (Function.update_of_ne heq ..).symm.trans hasleep
          exact List.mem_append_left _ (h.ready.listed i hi hasleep')
      · have hne : i ≠ id := by
          rintro rfl
          rw [hnone] at hd
          cases hd
        exact (Function.update_of_ne hne ..).trans (h.ready.answered i hi hd)
      · have hne : i ≠ id := by
          rintro rfl
          have hnot : (s.wakes.sleep i).woken i = false := Function.update_self ..
          rw [hnot] at hw
          cases hw
        have hw' : s.wakes.woken i = true := (Function.update_of_ne hne ..).symm.trans hw
        exact (Function.update_of_ne hne ..).trans (h.ready.woken i hi hw')
      · rw [hfree] at hbusy
        cases hbusy
    | checks id first covered now wake p q hcall hgoes hless =>
      have hholder : t.holder = some id := hgoes.holder.trans (h.kept.passing id p hcall).1
      rw [State.wakesAfter, if_neg (by simp [hholder])]
      exact hheld hgoes.toMoves hgoes.call hgoes.done hholder
    | checksLast id first covered now wake p hcall hpass =>
      rw [State.wakesAfter, if_pos (by simp [hpass.holder])]
      exact hends hpass
    | applies id answer asks now wake p q hcall hgoes hsame hless =>
      have hholder : t.holder = some id := hgoes.holder.trans (h.kept.passing id p hcall).1
      rw [State.wakesAfter, if_neg (by simp [hholder])]
      exact hheld hgoes.toMoves hgoes.call hgoes.done hholder
    | appliesLast id answer asks now wake p hcall hpass =>
      rw [State.wakesAfter, if_pos (by simp [hpass.holder])]
      exact hends hpass
    | dropsWaiting id wake hwaits hleaves hholder =>
      rw [State.wakesAfter, if_pos hwaits]
      exact hleft hleaves hholder
    | dropsHolder id wake p hcall hleaves hholder =>
      rw [State.wakesAfter, if_neg (by rw [not_waits_of hcall (by simp)]; simp)]
      exact (h.ready.fewer fun i hi => (hleaves.waits_sub i hi).2).one hkept.toBase wake

theorem live_init : Live ({} : State π) := ⟨kept_init, ⟨fun _ h => (by cases h), fun _ h => (by cases h), fun _ h => (by cases h)⟩, fun _ ⟨_, h, _⟩ => nomatch h⟩

/-! ## Some move is left, and finitely many -/

def Act.enters : Act π → Bool
  | .enter _ _ => true
  | _ => false

def Act.drops : Act π → Bool
  | .drop _ _ => true
  | _ => false

theorem Live.goes_on (h : Live s) (hunsettled : ∃ id, Unsettled s.burst id) :
    ∃ a : Act π, a.enters = false ∧ a.drops = false ∧ s.enabled a = true := by
  cases hholder : s.burst.holder with
  | some k =>
    obtain ⟨p, hcall⟩ := h.kept.holder k hholder
    have hended := (h.kept.passing k p hcall).2.1
    by_cases hun : p.unchecked = []
    · refine ⟨.apply k (.error "") (.ok 0) 0 0, rfl, rfl, ?_⟩
      have hleft : p.left ≠ [] := fun hnil => by simp [Pass.ended, hun, hnil] at hended
      simp [State.enabled, hcall, hun, hleft]
    · refine ⟨.check k false false 0 0, rfl, rfl, ?_⟩
      simp [State.enabled, hcall, hun]
  | none =>
    have hwaiting : ∃ id, s.burst.waits id = true := by
      obtain ⟨id, hwaits | hholds⟩ := hunsettled
      · exact ⟨id, hwaits⟩
      · obtain ⟨p, hcall⟩ := holds_iff.mp hholds
        rw [(h.kept.passing id p hcall).1] at hholder
        cases hholder
    obtain ⟨id, hwaits⟩ := hwaiting
    have hawake : ∃ w, s.burst.waits w = true ∧ s.wakes.awake w = true := by
      by_cases hid : s.wakes.awake id = true
      · exact ⟨id, hwaits, hid⟩
      · obtain ⟨w, hw, hwoken⟩ := h.turned hholder ⟨id, hwaits, Bool.eq_false_iff.mpr hid⟩
        exact ⟨w, hw, h.ready.woken w hw hwoken⟩
    obtain ⟨w, hw, hww⟩ := hawake
    exact ⟨.poll w 0 0, rfl, rfl, by simp [State.enabled, hw, hww]⟩

def work (s : Burst π) : Nat × Nat :=
  match s.holder.bind s.calls with
  | some (.passing p) => (p.unchecked.length, p.left.length)
  | _ => (0, 0)

def unsettled (s : Burst π) : Nat := (List.range s.next).countP fun id => s.waits id || s.holds id
def waiting (s : Burst π) : Nat := (List.range s.next).countP s.waits
def awake (s : State π) : Nat := (List.range s.burst.next).countP fun id => s.burst.waits id && s.wakes.awake id

def remaining (s : State π) : Nat × Nat × Nat × Nat × Nat := (unsettled s.burst, waiting s.burst, (work s.burst).1, (work s.burst).2, awake s)

def Less : Nat × Nat × Nat × Nat × Nat → Nat × Nat × Nat × Nat × Nat → Prop :=
  Prod.Lex (· < ·) (Prod.Lex (· < ·) (Prod.Lex (· < ·) (Prod.Lex (· < ·) (· < ·))))

theorem less_wf : WellFounded Less := (Prod.lex ⟨_, Nat.lt_wfRel.wf⟩ (Prod.lex ⟨_, Nat.lt_wfRel.wf⟩
  (Prod.lex ⟨_, Nat.lt_wfRel.wf⟩ (Prod.lex ⟨_, Nat.lt_wfRel.wf⟩ ⟨_, Nat.lt_wfRel.wf⟩)))).wf

theorem lex_of_eq {α β : Type} {r : α → α → Prop} {q : β → β → Prop} {a a' : α} {b b' : β} (ha : a = a') (hb : q b b') : Prod.Lex r q (a, b) (a', b') :=
  ha ▸ Prod.Lex.right a hb

theorem countP_lt {l : List Nat} {f g : Nat → Bool} (h : ∀ i ∈ l, f i = true → g i = true) {i : Nat} (hi : i ∈ l) (hf : f i = false) (hg : g i = true) :
    l.countP f < l.countP g := by
  induction l with
  | nil => cases hi
  | cons x l ih =>
    have hrest : l.countP f ≤ l.countP g := List.countP_mono_left fun j hj => h j (List.mem_cons_of_mem x hj)
    rw [List.countP_cons, List.countP_cons]
    rcases List.mem_cons.mp hi with rfl | hin
    · simp [hf, hg]
      omega
    · have hlt := ih (fun j hj => h j (List.mem_cons_of_mem x hj)) hin
      have hx := h x List.mem_cons_self
      by_cases hfx : f x = true
      · simp [hfx, hx hfx]
        omega
      · simp [hfx]
        omega

section
variable {s t : Burst π} {id : Nat}

theorem unsettled_lt (hlt : id < s.next) (hs : Unsettled s id) (hm : Moves s t id) (hwaits : t.waits id = false) (hholds : t.holds id = false) :
    unsettled t < unsettled s := by
  rw [unsettled, unsettled, hm.next]
  refine countP_lt (fun i _ hi => ?_) (List.mem_range.mpr hlt) (by rw [hwaits, hholds]; rfl) (by simpa [Unsettled] using hs)
  have hne : i ≠ id := by
    rintro rfl
    rw [hwaits, hholds] at hi
    cases hi
  rwa [waits_congr (hm.other i hne), holds_congr (hm.other i hne)] at hi

theorem unsettled_eq (hs : Unsettled s id) (hm : Moves s t id) (ht : Unsettled t id) : unsettled t = unsettled s := by
  rw [unsettled, unsettled, hm.next]
  refine List.countP_congr fun i _ => ?_
  by_cases heq : i = id
  · subst heq
    exact iff_of_true (by simpa [Unsettled] using ht) (by simpa [Unsettled] using hs)
  · rw [waits_congr (hm.other i heq), holds_congr (hm.other i heq)]

theorem waiting_eq {p q : Pass π} (hcall : s.calls id = some (.passing p)) (hgoes : GoesOn s t id q) : waiting t = waiting s := by
  rw [waiting, waiting, hgoes.next]
  refine List.countP_congr fun i _ => ?_
  by_cases heq : i = id
  · subst heq
    rw [not_waits_of hcall (by simp), not_waits_of hgoes.call (by simp)]
  · rw [waits_congr (hgoes.other i heq)]

theorem work_of {p : Pass π} (hholder : s.holder = some id) (hcall : s.calls id = some (.passing p)) : work s = (p.unchecked.length, p.left.length) := by
  simp [work, hholder, hcall]

end

theorem lt_of_settled {s t : State π} (h : unsettled t.burst < unsettled s.burst) : Less (remaining t) (remaining s) := Prod.Lex.left _ _ h

theorem Live.less (h : Live s) {publish : Bool} {a : Act π} (henabled : s.enabled a = true) (henters : a.enters = false) :
    Less (remaining (s.step publish a)) (remaining s) := by
  have hstep : s.step publish a = ⟨s.burst.step publish a, s.wakesAfter (s.burst.step publish a) a⟩ := by rw [State.step, if_pos henabled]
  rw [hstep]
  have heffect := effect s publish a henabled
  obtain ⟨t, ht⟩ : ∃ t, t = s.burst.step publish a := ⟨_, rfl⟩
  simp only [← ht] at heffect ⊢
  have hlt {id : Nat} (hcall : s.burst.waits id = true ∨ ∃ p, s.burst.calls id = some (.passing p)) : id < s.burst.next :=
    hcall.elim h.kept.toBase.waits_lt fun ⟨_, hp⟩ => h.kept.toBase.passing_lt hp
  have hends {id : Nat} (hs : Unsettled s.burst id) (hid : id < s.burst.next) (hpass : PassEnds s.burst t id) : unsettled t < unsettled s.burst := by
    obtain ⟨r, hr⟩ := hpass.call
    exact unsettled_lt hid hs hpass.toMoves (not_waits_of hr (by simp)) (not_holds_of hr (by simp))
  cases heffect with
  | enters => cases henters
  | returns id now wake hwaits hsome hleaves hholder =>
    exact lt_of_settled (unsettled_lt (hlt (.inl hwaits)) (.inl hwaits) hleaves.toMoves hleaves.waits hleaves.holds)
  | takes id now wake p hwaits hnone hfree hmoves hcall hdone hholder =>
    have hsame := unsettled_eq (.inl hwaits) hmoves (.inr (holds_iff.mpr ⟨p, hcall⟩))
    have hless : waiting t < waiting s.burst := by
      rw [waiting, waiting, hmoves.next]
      exact countP_lt (fun i _ hi => (hmoves.waits_sub hcall (by simp) i hi).2) (List.mem_range.mpr (hlt (.inl hwaits))) (not_waits_of hcall (by simp)) hwaits
    exact lex_of_eq hsame (Prod.Lex.left _ _ hless)
  | takesNone id now wake hwaits hnone hfree hpass => exact lt_of_settled (hends (.inl hwaits) (hlt (.inl hwaits)) hpass)
  | sleeps id now wake hwaits hnone hbusy hsame =>
    have hwakes : s.wakesAfter t (.poll id now wake) = s.wakes.sleep id := by
      rw [State.wakesAfter, State.pollWakes, if_neg (by simp [hnone]), if_neg (by simpa [Option.isSome_iff_ne_none] using hbusy)]
    simp only [State.enabled, Bool.and_eq_true] at henabled
    have hless : awake (⟨t, s.wakesAfter t (.poll id now wake)⟩ : State π) < awake s := by
      rw [hwakes, awake, awake, hsame]
      have hasleep : (s.wakes.sleep id).awake id = false := Function.update_self ..
      refine countP_lt (fun i _ hi => ?_) (List.mem_range.mpr (hlt (.inl hwaits))) (by rw [hasleep, Bool.and_false]) (by rw [henabled.1, henabled.2]; rfl)
      have hne : i ≠ id := by
        rintro rfl
        rw [hasleep, Bool.and_false] at hi
        cases hi
      have hother : (s.wakes.sleep id).awake i = s.wakes.awake i := Function.update_of_ne hne ..
      rwa [hother] at hi
    subst hsame
    exact lex_of_eq rfl (lex_of_eq rfl (lex_of_eq rfl (lex_of_eq rfl hless)))
  | checks id first covered now wake p q hcall hgoes hless =>
    have hheld := (h.kept.passing id p hcall).1
    have hsame := unsettled_eq (.inr (holds_iff.mpr ⟨p, hcall⟩)) hgoes.toMoves (.inr (holds_iff.mpr ⟨q, hgoes.call⟩))
    have hwaiting := waiting_eq hcall hgoes
    have hwork : (work t).1 < (work s.burst).1 := by
      rw [work_of (hgoes.holder.trans hheld) hgoes.call, work_of hheld hcall]
      exact hless
    exact lex_of_eq hsame (lex_of_eq hwaiting (Prod.Lex.left _ _ hwork))
  | checksLast id first covered now wake p hcall hpass =>
    exact lt_of_settled (hends (.inr (holds_iff.mpr ⟨p, hcall⟩)) (hlt (.inr ⟨p, hcall⟩)) hpass)
  | applies id answer asks now wake p q hcall hgoes hun hless =>
    have hheld := (h.kept.passing id p hcall).1
    have hsame := unsettled_eq (.inr (holds_iff.mpr ⟨p, hcall⟩)) hgoes.toMoves (.inr (holds_iff.mpr ⟨q, hgoes.call⟩))
    have hwaiting := waiting_eq hcall hgoes
    have hwork : (work t).1 = (work s.burst).1 ∧ (work t).2 < (work s.burst).2 := by
      rw [work_of (hgoes.holder.trans hheld) hgoes.call, work_of hheld hcall, hun]
      exact ⟨rfl, hless⟩
    exact lex_of_eq hsame (lex_of_eq hwaiting (lex_of_eq hwork.1 (Prod.Lex.left _ _ hwork.2)))
  | appliesLast id answer asks now wake p hcall hpass =>
    exact lt_of_settled (hends (.inr (holds_iff.mpr ⟨p, hcall⟩)) (hlt (.inr ⟨p, hcall⟩)) hpass)
  | dropsWaiting id wake hwaits hleaves hholder =>
    exact lt_of_settled (unsettled_lt (hlt (.inl hwaits)) (.inl hwaits) hleaves.toMoves hleaves.waits hleaves.holds)
  | dropsHolder id wake p hcall hleaves hholder =>
    exact lt_of_settled (unsettled_lt (hlt (.inr ⟨p, hcall⟩)) (.inr (holds_iff.mpr ⟨p, hcall⟩)) hleaves.toMoves hleaves.waits hleaves.holds)

/-! ## Runs -/

theorem returned_stays (h : Live s) {publish : Bool} {a : Act π} {id : Nat} {r : Result π} (hcall : s.burst.calls id = some (.returned r)) :
    (s.step publish a).burst.calls id = some (.returned r) := by
  rw [State.step]
  split
  case isFalse => exact hcall
  case isTrue henabled =>
    have heffect := effect s publish a henabled
    obtain ⟨t, ht⟩ : ∃ t, t = s.burst.step publish a := ⟨_, rfl⟩
    simp only [← ht] at heffect ⊢
    have hwait {i : Nat} (hi : s.burst.waits i = true) : id ≠ i := by
      rintro rfl
      rw [not_waits_of hcall (by simp)] at hi
      cases hi
    have hpass {i : Nat} {p : Pass π} (hi : s.burst.calls i = some (.passing p)) : id ≠ i := by
      rintro rfl
      rw [hcall] at hi
      cases hi
    cases heffect with
    | enters item now hnext hnew hother hdone hholder =>
      have hne : id ≠ s.burst.next := by
        rintro rfl
        rw [(h.kept.fresh _ le_rfl).1] at hcall
        cases hcall
      rw [hother id hne, hcall]
    | returns i now wake hwaits hsome hleaves hholder => rw [hleaves.other id (hwait hwaits), hcall]
    | takes i now wake p hwaits hnone hfree hmoves hnew hdone hholder => rw [hmoves.other id (hwait hwaits), hcall]
    | takesNone i now wake hwaits hnone hfree hends => rw [hends.other id (hwait hwaits), hcall]
    | sleeps i now wake hwaits hnone hbusy hsame => rw [hsame, hcall]
    | checks i first covered now wake p q hp hgoes hless => rw [hgoes.other id (hpass hp), hcall]
    | checksLast i first covered now wake p hp hends => rw [hends.other id (hpass hp), hcall]
    | applies i answer asks now wake p q hp hgoes hun hless => rw [hgoes.other id (hpass hp), hcall]
    | appliesLast i answer asks now wake p hp hends => rw [hends.other id (hpass hp), hcall]
    | dropsWaiting i wake hwaits hleaves hholder => rw [hleaves.other id (hwait hwaits), hcall]
    | dropsHolder i wake p hp hleaves hholder => rw [hleaves.other id (hpass hp), hcall]

theorem live_run (publish : Bool) (h : Live s) (moves : List (Act π)) : Live (moves.foldl (State.step publish) s) :=
  Runs.inv_run (fun _ a h => h.step publish a) h moves

theorem Live.finite (h : Live s) (publish : Bool) (states : Nat → State π) (moves : Nat → Act π) (hstart : states 0 = s)
    (hstep : ∀ n, states (n + 1) = (states n).step publish (moves n)) (henters : ∀ n, (moves n).enters = false) :
    ∃ n, (states n).enabled (moves n) = false := by
  by_contra hnot
  have henabled (n : Nat) : (states n).enabled (moves n) = true := by
    rw [← Bool.not_eq_false]
    exact fun hn => hnot ⟨n, hn⟩
  have hlive (n : Nat) : Live (states n) := by
    induction n with
    | zero => exact hstart ▸ h
    | succ n ih => exact hstep n ▸ ih.step publish (moves n)
  have hdescends (n : Nat) : Less (remaining (states (n + 1))) (remaining (states n)) := hstep n ▸ (hlive n).less (henabled n) (henters n)
  have hnone (x : Nat × Nat × Nat × Nat × Nat) : ∀ n, remaining (states n) ≠ x := by
    induction x using less_wf.induction with
    | _ x ih =>
      rintro n rfl
      exact ih _ (hdescends n) (n + 1) rfl
  exact hnone _ 0 rfl

structure Answers (publish : Bool) (s : State π) : Prop where
  /-- No event is in two passes' batches, and no call has two passes. -/
  apart : (taken s.burst.log).Nodup ∧ (takers s.burst.log).Nodup
  earned : ∀ id x, s.burst.calls id = some (.returned (.ok x)) → Earned s.burst.log id ∧ (taken s.burst.log).count id = 1
  faults : ∀ h e, Event.faulted h e ∈ s.burst.log → ∀ batch, Event.took h batch ∈ s.burst.log → ∀ id ∈ ids batch, Event.covered h id ∉ s.burst.log →
    FaultLeft s.burst id e
  /-- A call returns once. -/
  returned : ∀ id r, s.burst.calls id = some (.returned r) → ∀ moves : List (Act π), (moves.foldl (State.step publish) s).burst.calls id = some (.returned r)
  /-- A call not dropped returns: some call can go on while one has not, and with no new calls not for ever. -/
  goesOn : (∃ id, Unsettled s.burst id) → ∃ a : Act π, a.enters = false ∧ a.drops = false ∧ s.enabled a = true
  finite : ∀ (states : Nat → State π) (moves : Nat → Act π), states 0 = s → (∀ n, states (n + 1) = (states n).step publish (moves n)) →
    (∀ n, (moves n).enters = false) → ∃ n, (states n).enabled (moves n) = false

theorem coalesced_answers (publish : Bool) (moves : List (Act π)) : Answers publish (moves.foldl (State.step publish) {}) := by
  have h : Live (moves.foldl (State.step publish) ({} : State π)) := live_run publish live_init moves
  obtain ⟨s, hs⟩ : ∃ s, s = moves.foldl (State.step publish) ({} : State π) := ⟨_, rfl⟩
  rw [← hs] at h ⊢
  have honce : (taken s.burst.log).Nodup := (List.nodup_append.mp h.kept.once).1
  refine ⟨⟨honce, h.kept.single⟩, fun id x hx => ?_, h.kept.faults, fun id r hr more => ?_, h.goes_on, h.finite publish⟩
  · have hearned := h.kept.earned id x hx
    refine ⟨hearned, List.count_eq_one_of_mem honce ?_⟩
    obtain ⟨item, k, batch, before, after, hlog, -, hin, -⟩ := hearned
    exact mem_taken.mpr ⟨k, batch, hlog ▸ List.mem_append_right before List.mem_cons_self, List.mem_map_of_mem hin⟩
  · have hboth := Runs.inv_run (I := fun s : State π => Live s ∧ s.burst.calls id = some (.returned r))
      (fun s a ⟨hlive, hcall⟩ => ⟨hlive.step publish a, returned_stays hlive hcall⟩) ⟨h, hr⟩ more
    exact hboth.2

end OverlayEngine.BurstTurns
