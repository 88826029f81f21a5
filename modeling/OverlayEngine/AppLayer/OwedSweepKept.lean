import Mathlib.Data.List.Chain
import OverlayEngine.AppLayer.OwedSweep
import OverlayEngine.Basis.Runs

/-!
# The sweep walks past no mark and re-publishes once a pass

A round is the landed ticks from one that starts at the backlog's head to one
that wraps. A mark that stands all through a round is read in it, and the tick
that moves past it re-publishes its pair or finds it held or stamped. The stamp
holds a pair back until the horizon or the long bound passes it.
-/

namespace OverlayEngine.OwedSweep

open OrderedPages (rowsPast)
open KeyedRows (row remove)

theorem split_at_first {α : Type} {x : α} {s r k o : List α} (hs : x ∉ s) (hr : x ∉ r) (h : s ++ x :: k = r ++ x :: o) : s = r ∧ k = o := by
  induction s generalizing r with
  | nil =>
    cases r with
    | nil => exact ⟨rfl, (List.cons.inj h).2⟩
    | cons c r => exact absurd ((List.cons.inj h).1 ▸ List.mem_cons_self) hr
  | cons c s ih =>
    cases r with
    | nil => exact absurd ((List.cons.inj h).1 ▸ List.mem_cons_self) hs
    | cons d r =>
      obtain ⟨rfl, htail⟩ := List.cons.inj h
      obtain ⟨rfl, hk⟩ := ih (fun hx => hs (List.mem_cons_of_mem _ hx)) (fun hx => hr (List.mem_cons_of_mem _ hx)) htail
      exact ⟨rfl, hk⟩

theorem memoName_inj {family : String} {p q : Pair} (h : memoName family p = memoName family q) : p = q := by
  obtain ⟨⟨s, hs, hs'⟩, key⟩ := p
  obtain ⟨⟨r, hr, hr'⟩, other⟩ := q
  have hlists := congrArg String.toList h
  simp only [memoName, String.toList_append, List.append_assoc] at hlists
  obtain ⟨hword, hkey⟩ := split_at_first hs' hr' (List.append_cancel_left hlists)
  cases String.toList_injective hword
  cases String.toList_injective hkey
  rfl

/-! ## One walk -/

structure Walks (cap : Nat) (pairs : List Pair) (cursor : Option Place) (done rest : List Mark) (out : List Pair × Option Place × Bool) : Prop where
  kept : ∀ p ∈ pairs, p ∈ out.1
  taken : ∀ r ∈ done, r.pair ∈ out.1
  cursor : out.2.1 = (done.getLast?.map Mark.place).or cursor
  whole : out.2.2 = false → rest = []
  full : out.2.2 = true → done = [] → cap ≤ pairs.length

theorem Walks.cons {cap : Nat} {pairs pairs' : List Pair} {cursor : Option Place} {r : Mark} {done rest : List Mark}
    {out : List Pair × Option Place × Bool} (h : Walks cap pairs' (some r.place) done rest out) (hsub : ∀ p ∈ pairs, p ∈ pairs')
    (hmem : r.pair ∈ pairs') : Walks cap pairs cursor (r :: done) rest out where
  kept p hp := h.kept p (hsub p hp)
  taken r' hr' := by
    rcases List.mem_cons.mp hr' with rfl | hr'
    · exact h.kept _ hmem
    · exact h.taken r' hr'
  cursor := by
    rw [h.cursor]
    cases done with
    | nil => rfl
    | cons d done =>
      rw [List.getLast?_cons_cons, List.getLast?_eq_some_getLast (List.cons_ne_nil d done)]
      rfl
  whole := h.whole
  full _ hnil := absurd hnil (List.cons_ne_nil _ _)

theorem walk_spec (cap : Nat) (pairs : List Pair) (cursor : Option Place) (rows : List Mark) :
    ∃ done rest, rows = done ++ rest ∧ Walks cap pairs cursor done rest (walk cap pairs cursor rows) := by
  induction rows generalizing pairs cursor with
  | nil => exact ⟨[], [], rfl, ⟨fun _ h => h, fun _ h => (by cases h), rfl, fun _ => rfl, fun h => (by cases h)⟩⟩
  | cons r rows ih =>
    by_cases hin : pairs.contains r.pair = true
    · obtain ⟨done, rest, hrows, h⟩ := ih pairs (some r.place)
      rw [walk, if_pos hin]
      exact ⟨r :: done, rest, congrArg (r :: ·) hrows, h.cons (fun _ hp => hp) (by simpa using hin)⟩
    · by_cases hcap : cap ≤ pairs.length
      · rw [walk, if_neg hin, if_pos hcap]
        exact ⟨[], r :: rows, rfl, ⟨fun _ h => h, fun _ h => (by cases h), rfl, fun h => (by cases h), fun _ _ => hcap⟩⟩
      · obtain ⟨done, rest, hrows, h⟩ := ih (pairs ++ [r.pair]) (some r.place)
        rw [walk, if_neg hin, if_neg hcap]
        exact ⟨r :: done, rest, congrArg (r :: ·) hrows, h.cons (fun _ hp => List.mem_append_left _ hp) (List.mem_append_right _ (List.mem_singleton_self _))⟩

namespace Walked

variable {t : Walked} {m : Mark}

theorem place_nodup {marks : List Mark} (h : (marks.map Mark.generation).Nodup) : (marks.map Mark.place).Nodup := by
  apply List.Nodup.of_map (fun p : Place => (ofLex p).2)
  rw [List.map_map]
  exact h

theorem cap_pos (hlost : t.lostRows.length ≤ sweepLostPerTick) : 0 < t.cap := by
  have hle : t.lostPairs.length ≤ t.lostRows.length := List.length_filterMap_le _ _
  simp only [cap, sweepLostPerTick, sweepPairsPerTick] at hlost ⊢
  omega

theorem choice_spec (hgen : (t.stood.map Mark.generation).Nodup) (hlost : t.lostRows.length ≤ sweepLostPerTick) (hm : m ∈ t.stood)
    (hold : (m.markedAtMs : Ms) < t.bound) (hstart : t.start < m.place) :
    (∃ c, t.choice.2 = some c ∧ c < m.place) ∨ m ∈ t.read ∧ m.pair ∈ t.choice.1 := by
  have hkeys : ((t.stood.filter fun m => (m.markedAtMs : Ms) < t.bound).map Mark.place).Nodup :=
    (place_nodup hgen).sublist (List.filter_sublist.map _)
  have hleaves := OrderedPages.rowsPast_leaves sweepReadLimit hkeys (List.mem_filter.mpr ⟨hm, decide_eq_true hold⟩) hstart
  have hstrict : t.read.Pairwise fun a b => a.place < b.place := OrderedPages.rowsPast_strict hkeys
  obtain ⟨done, rest, hrows, hw⟩ := walk_spec t.cap [] none t.read
  have hfirst : t.choice.1 = (walk t.cap [] none t.read).1 := by
    unfold choice sweepChoiceUpTo
    dsimp only
    split
    · rfl
    · split <;> rfl
  by_cases hdone : m ∈ done
  · exact .inr ⟨hrows ▸ List.mem_append_left _ hdone, hfirst ▸ hw.taken m hdone⟩
  -- the walk stopped before `m`: its cap stopped it, or the page ended
  have hcapped : (walk t.cap [] none t.read).2.2 = true ∨ t.read.length = sweepReadLimit := by
    rcases hleaves with hread | ⟨hlen, -⟩
    · refine .inl ?_
      by_contra hno
      have hrest := hw.whole (by simpa using hno)
      have hread' : m ∈ done ++ rest := hrows ▸ hread
      rw [hrest, List.append_nil] at hread'
      exact hdone hread'
    · exact .inr hlen
  have hnext : t.choice.2 = (walk t.cap [] none t.read).2.1 := by
    unfold choice sweepChoiceUpTo
    dsimp only
    split
    · rfl
    · split
      · next hno hshort => exact absurd (hcapped.resolve_left hno) (ne_of_lt hshort)
      · rfl
  have hsome : done ≠ [] := by
    intro hnil
    have hpos := cap_pos hlost
    rcases hcapped with hcap | hlen
    · exact absurd (hw.full hcap hnil) (not_le.mpr hpos)
    · have hfull : (walk t.cap [] none t.read).2.2 = false := by
        by_contra hcap
        exact absurd (hw.full (by simpa using hcap) hnil) (not_le.mpr hpos)
      rw [hrows, hnil, hw.whole hfull] at hlen
      exact absurd hlen (by decide)
  obtain ⟨d, hd⟩ : ∃ d, done.getLast? = some d := ⟨_, List.getLast?_eq_some_getLast hsome⟩
  refine .inl ⟨d.place, ?_, ?_⟩
  · rw [hnext, hw.cursor, hd]
    rfl
  · have hmem := List.mem_of_getLast? hd
    rcases hleaves with hread | ⟨-, hbelow⟩
    · have hread' : m ∈ done ++ rest := hrows ▸ hread
      rw [hrows] at hstrict
      exact (List.pairwise_append.mp hstrict).2.2 d hmem m ((List.mem_append.mp hread').resolve_left hdone)
    · apply hbelow
      show d ∈ t.read
      rw [hrows]
      exact List.mem_append_left _ hmem

end Walked

namespace Tick

variable {t : Tick} {m : Mark} {p : Pair}

def Answers (t : Tick) (p : Pair) : Prop := p ∈ t.pairs ∨ t.heldByMemo p = true ∨ t.heldBySubjects p = true ∨ t.blocked p = true

def MovesPast (t : Tick) (m : Mark) : Prop := ∀ c, t.next = some c → m.place ≤ c

theorem answers_of_taken (h : p ∈ t.choice.1) : t.Answers p := by
  have hall : p ∈ t.all := by
    by_cases hlost : t.lostPairs.contains p = true
    · exact List.mem_append_left _ (by simpa using hlost)
    · exact List.mem_append_right _ (List.mem_filter.mpr ⟨h, by simpa using hlost⟩)
  by_cases hblock : t.blocked p = true
  · exact .inr (.inr (.inr hblock))
  by_cases hmemo : t.heldByMemo p = true
  · exact .inr (.inl hmemo)
  by_cases hsub : t.heldBySubjects p = true
  · exact .inr (.inr (.inl hsub))
  refine .inl (List.mem_filter.mpr ⟨List.mem_filter.mpr ⟨hall, by simpa using hblock⟩, ?_⟩)
  simp [hmemo, hsub]

theorem moves_spec (hgen : (t.stood.map Mark.generation).Nodup) (hlost : t.lostRows.length ≤ sweepLostPerTick) (hm : m ∈ t.stood)
    (hold : (m.markedAtMs : Ms) < t.bound) (hstart : t.start < m.place) :
    t.MovesPast m ∧ m ∈ t.read ∧ t.Answers m.pair ∨ ∃ c, t.next = some c ∧ c < m.place := by
  rcases Walked.choice_spec hgen hlost hm hold hstart with hbefore | ⟨hread, htaken⟩
  · exact .inr hbefore
  by_cases hpast : t.MovesPast m
  · exact .inl ⟨hpast, hread, answers_of_taken htaken⟩
  · unfold MovesPast at hpast
    simp only [not_forall] at hpast
    obtain ⟨c, hc, hlt⟩ := hpast
    exact .inr ⟨c, hc, not_le.mp hlt⟩

end Tick

/-! ## A round of ticks -/

def HorizonLe (a b : Option Ms) : Prop := ∀ h, a = some h → ∃ h', b = some h' ∧ h ≤ h'

variable {horizon a : Option Ms}

theorem HorizonLe.rfl : HorizonLe a a := fun h hh => ⟨h, hh, le_refl h⟩

theorem HorizonLe.trans {b c : Option Ms} (hab : HorizonLe a b) (hbc : HorizonLe b c) : HorizonLe a c := by
  intro h hh
  obtain ⟨h', hh', hle⟩ := hab h hh
  obtain ⟨h'', hh'', hle'⟩ := hbc h' hh'
  exact ⟨h'', hh'', hle.trans hle'⟩

variable {clock now : Ms}

theorem sweepBound_mono {now' : Ms} {horizon' : Option Ms} (hnow : now ≤ now') (hh : HorizonLe horizon horizon') :
    sweepBound now horizon ≤ sweepBound now' horizon' := by
  have hstalled : now - sweepStalledAfterMs ≤ now' - sweepStalledAfterMs := Int.sub_le_sub_right hnow _
  refine min_le_min (Int.sub_le_sub_right hnow _) ?_
  cases horizon with
  | none =>
    cases horizon' with
    | none => exact hstalled
    | some h' => exact le_max_of_le_right hstalled
  | some h =>
    obtain ⟨h', rfl, hle⟩ := hh h rfl
    exact max_le_max (Int.sub_le_sub_right hle _) hstalled

structure Follows (earlier : Tick) (s : Seen) : Prop where
  start : s.start = earlier.next.getD head
  now : earlier.now ≤ s.now
  horizon : HorizonLe earlier.horizon s.horizon

structure Tick.Fair (t : Tick) : Prop where
  generations : (t.stood.map Mark.generation).Nodup
  lost : t.lostRows.length ≤ sweepLostPerTick

variable {m : Mark}

theorem round_answers {first last : Tick} {round : List Tick} (hchain : (first :: round).IsChain fun a b => Follows a b.toSeen)
    (hfair : ∀ t ∈ first :: round, t.Fair) (hm : ∀ t ∈ first :: round, m ∈ t.stood) (hlast : (first :: round).getLast? = some last)
    (hwrap : last.next = none) (hold : (m.markedAtMs : Ms) < first.bound) (hstart : first.start < m.place) :
    ∃ t ∈ first :: round, t.MovesPast m ∧ m ∈ t.read ∧ t.Answers m.pair := by
  induction round generalizing first with
  | nil =>
    cases hlast
    have hself := List.mem_singleton_self first
    rcases Tick.moves_spec (hfair first hself).generations (hfair first hself).lost (hm first hself) hold hstart with hpast | ⟨c, hc, -⟩
    · exact ⟨first, hself, hpast⟩
    · exact absurd (hwrap.symm.trans hc) (by simp)
  | cons second round ih =>
    have hself : first ∈ first :: second :: round := List.mem_cons_self
    rcases Tick.moves_spec (hfair first hself).generations (hfair first hself).lost (hm first hself) hold hstart with hpast | ⟨c, hc, hlt⟩
    · exact ⟨first, hself, hpast⟩
    · obtain ⟨hfollows, hchain'⟩ := List.isChain_cons_cons.mp hchain
      have hstart' : second.start < m.place := by
        rw [hfollows.start, hc]
        exact hlt
      have hbound : first.bound ≤ second.bound := sweepBound_mono hfollows.now hfollows.horizon
      obtain ⟨t, ht, hpast⟩ := ih hchain' (fun t ht => hfair t (List.mem_cons_of_mem _ ht)) (fun t ht => hm t (List.mem_cons_of_mem _ ht))
        (by rwa [List.getLast?_cons_cons] at hlast) (hold.trans_le hbound) hstart'
      exact ⟨t, List.mem_cons_of_mem _ ht, hpast⟩

/-! ## Every run's ticks follow each other -/

def Event.tick : Event → Option Tick
  | .landed t => some t
  | .resolved _ => none

structure Basis where
  ticks : List Tick
  sweep : Option SweepRow
  clock : Ms
  horizon : Option Ms

def World.basis (w : World) : Basis := ⟨w.log.filterMap Event.tick, w.db.sweep, w.clock, w.db.horizon⟩

namespace Basis

variable {b : Basis}

structure Sees (b : Basis) (s : Seen) : Prop where
  follows : ∀ t, b.ticks.head? = some t → Follows t s
  clock : s.now ≤ b.clock
  horizon : HorizonLe s.horizon b.horizon

def At (b : Basis) : Stage → Prop
  | .idle => True
  | .state now => now ≤ b.clock ∧ ∀ t, b.ticks.head? = some t → t.now ≤ now
  | .windows s => b.Sees s
  | .marks ws => b.Sees ws.toSeen ∧ ws.lostRows.length ≤ sweepLostPerTick
  | .memos t => b.Sees t.toSeen ∧ t.lostRows.length ≤ sweepLostPerTick ∧ (t.stood.map Mark.generation).Nodup
  | .batch t => b.Sees t.toSeen ∧ t.Fair

structure Sound (b : Basis) : Prop where
  saved : ∀ t, b.ticks.head? = some t → b.sweep = some t.nextRow ∧ t.now ≤ b.clock ∧ HorizonLe t.horizon b.horizon
  chain : b.ticks.IsChain fun later earlier => Follows earlier later.toSeen
  fair : ∀ t ∈ b.ticks, t.Fair

theorem Sees.later {s : Seen} (h : b.Sees s) (hc : b.clock ≤ clock) (hh : HorizonLe b.horizon horizon) :
    Sees { b with clock, horizon } s :=
  ⟨h.follows, h.clock.trans hc, h.horizon.trans hh⟩

theorem At.later {stage : Stage} (h : b.At stage) (hc : b.clock ≤ clock) (hh : HorizonLe b.horizon horizon) :
    At { b with clock, horizon } stage := by
  cases stage with
  | idle => trivial
  | state now => exact ⟨h.1.trans hc, h.2⟩
  | windows s => exact Sees.later h hc hh
  | marks ws => exact ⟨h.1.later hc hh, h.2⟩
  | memos t => exact ⟨h.1.later hc hh, h.2⟩
  | batch t => exact ⟨h.1.later hc hh, h.2⟩

theorem Sound.later (h : b.Sound) (hc : b.clock ≤ clock) (hh : HorizonLe b.horizon horizon) :
    Sound { b with clock, horizon } where
  saved t ht := by
    obtain ⟨hrow, hnow, hle⟩ := h.saved t ht
    exact ⟨hrow, hnow.trans hc, hle.trans hh⟩
  chain := h.chain
  fair := h.fair

theorem Sound.land (h : b.Sound) {t : Tick} (hs : b.Sees t.toSeen) (hf : t.Fair) : Sound { b with ticks := t :: b.ticks, sweep := some t.nextRow } where
  saved u hu := by
    cases hu
    exact ⟨rfl, hs.clock, hs.horizon⟩
  chain := by
    cases hticks : b.ticks with
    | nil => exact List.IsChain.singleton t
    | cons last ticks =>
      refine List.isChain_cons_cons.mpr ⟨hs.follows last (by rw [hticks]; rfl), ?_⟩
      have hchain := h.chain
      rwa [hticks] at hchain
  fair u hu := by
    rcases List.mem_cons.mp hu with rfl | hu
    · exact hf
    · exact h.fair u hu

end Basis

namespace World

variable {w : World}

structure Sound (w : World) : Prop where
  generations : (w.db.marks.map Mark.generation).Nodup
  below : ∀ m ∈ w.db.marks, m.generation < w.db.nextGeneration
  basis : w.basis.Sound
  atStage : w.basis.At w.stage

theorem Sound.goto (h : w.Sound) {stage : Stage} (hs : w.basis.At stage) : (w.goto stage).Sound := ⟨h.generations, h.below, h.basis, hs⟩

theorem Sound.sees (h : w.Sound) (hs : w.basis.At (.state now)) : w.basis.Sees (w.db.see now) where
  follows t ht := by
    obtain ⟨hrow, -, hle⟩ := h.basis.saved t ht
    have hsweep : w.db.sweep = some t.nextRow := hrow
    refine ⟨?_, hs.2 t ht, hle⟩
    show (w.db.sweep.map SweepRow.place).getD head = _
    rw [hsweep]
    rfl
  clock := hs.1
  horizon := HorizonLe.rfl

theorem Sound.turn (h : w.Sound) (ok : Bool) : (w.turn ok).Sound := by
  have hs := h.atStage
  unfold World.turn
  split
  · split
    · exact h
    · next now heq =>
      rw [heq] at hs
      exact h.goto (h.sees hs)
    · next s heq =>
      rw [heq] at hs
      exact h.goto ⟨hs, OrderedPages.rowsPast_length_le⟩
    · next ws heq =>
      rw [heq] at hs
      dsimp only
      split
      · exact h.goto ⟨hs.1, h.generations, hs.2⟩
      · exact h.goto ⟨hs.1, hs.2, h.generations⟩
    · next t heq =>
      rw [heq] at hs
      exact h.goto ⟨hs.1, hs.2.2, hs.2.1⟩
    · next t heq =>
      rw [heq] at hs
      exact ⟨h.generations, h.below, h.basis.land hs.1 hs.2, trivial⟩
  · exact h.goto trivial

theorem Sound.mark (h : w.Sound) (m : Mark) : Sound { w with db := w.db.mark m } where
  generations := by
    simp only [Db.mark, List.map_append, List.map_cons, List.map_nil]
    refine List.nodup_append.mpr ⟨h.generations.sublist (List.filter_sublist.map _), List.nodup_singleton _, ?_⟩
    intro a ha b hb
    obtain ⟨o, ho, rfl⟩ := List.mem_map.mp ha
    rw [List.mem_singleton.mp hb]
    exact ne_of_lt (h.below o (List.mem_of_mem_filter ho))
  below o ho := by
    rcases List.mem_append.mp ho with ho | ho
    · exact (h.below o (List.mem_of_mem_filter ho)).trans (Nat.lt_succ_self _)
    · rw [List.mem_singleton.mp ho]
      exact Nat.lt_succ_self _
  basis := h.basis
  atStage := h.atStage

theorem horizon_record (db : Db) (horizon : Option Ms) : HorizonLe db.horizon (db.record horizon).horizon := by
  intro h hh
  unfold Db.horizon at hh
  obtain ⟨hjoin, hpos⟩ := Option.filter_eq_some_iff.mp hh
  have hconsumer : db.consumer = some (some h) := by
    cases hc : db.consumer with
    | none => rw [hc] at hjoin; cases hjoin
    | some old => rw [hc] at hjoin; exact congrArg some hjoin
  refine ⟨max (horizon.getD 0) h, ?_, le_max_right _ _⟩
  simp only [Db.horizon, Db.record, hconsumer]
  refine Option.filter_eq_some_iff.mpr ⟨rfl, ?_⟩
  simp only [decide_eq_true_eq] at hpos ⊢
  exact lt_max_of_lt_right hpos

theorem sound_step (m : Move) (h : w.Sound) : (w.step m).Sound := by
  cases m with
  | wait ms =>
    have hc : w.clock ≤ w.clock + ms := Int.le_add_of_nonneg_right (Int.natCast_nonneg ms)
    exact ⟨h.generations, h.below, h.basis.later hc HorizonLe.rfl, h.atStage.later hc HorizonLe.rfl⟩
  | begin =>
    show w.begin.Sound
    unfold World.begin
    split
    · have hstate : w.basis.At (.state w.clock) := ⟨le_refl _, fun t ht => (h.basis.saved t ht).2.1⟩
      exact h.goto hstate
    · exact h
  | turn ok => exact h.turn ok
  | mark m => exact h.mark m
  | ack gone =>
    exact ⟨h.generations.sublist (List.filter_sublist.map _), fun o ho => h.below o (List.mem_of_mem_filter ho), h.basis, h.atStage⟩
  | consumer horizon =>
    have hh := horizon_record w.db horizon
    exact ⟨h.generations, h.below, h.basis.later (le_refl _) hh, h.atStage.later (le_refl _) hh⟩
  | note n => exact ⟨h.generations, h.below, h.basis, h.atStage⟩
  | memo m => exact ⟨h.generations, h.below, h.basis, h.atStage⟩
  | clear name => exact ⟨h.generations, h.below, h.basis, h.atStage⟩
  | resolve p => exact ⟨h.generations, h.below, h.basis, h.atStage⟩

theorem sound_start : Sound {} :=
  ⟨List.nodup_nil, fun _ hm => absurd hm List.not_mem_nil, ⟨fun _ h => (by cases h), List.IsChain.nil, fun _ ht => absurd ht List.not_mem_nil⟩, trivial⟩

/-! ## Every mark of a round is answered -/

def round (since : List Event) : List Tick := (since.filterMap Event.tick).reverse

def SweptPast (w : World) (moves : List Move) : Prop :=
  ∀ since, (w.run moves).log = since ++ w.log → ∀ first, (round since).head? = some first → first.start = head →
    ∀ last, (round since).getLast? = some last → last.next = none →
      ∀ m, Runs.Along step (fun w _ => m ∈ w.db.marks) w moves → (m.markedAtMs : Ms) < first.bound →
        ∃ t ∈ round since, t.MovesPast m ∧ m ∈ t.read ∧ t.Answers m.pair

/-- The ticks since `log` read the mark where it stood. -/
structure Stands (log : List Event) (m : Mark) (w : World) : Prop where
  landed : ∃ since, w.log = since ++ log ∧ ∀ t ∈ since.filterMap Event.tick, m ∈ t.stood
  memos : ∀ t, w.stage = .memos t → m ∈ t.stood
  batch : ∀ t, w.stage = .batch t → m ∈ t.stood

variable {log : List Event}

theorem Stands.goto (h : Stands log m w) {stage : Stage} (hmemos : ∀ t, stage = .memos t → m ∈ t.stood)
    (hbatch : ∀ t, stage = .batch t → m ∈ t.stood) : Stands log m (w.goto stage) := ⟨h.landed, hmemos, hbatch⟩

theorem Stands.turn (h : Stands log m w) (hm : m ∈ w.db.marks) (ok : Bool) : Stands log m (w.turn ok) := by
  unfold World.turn
  split
  · split
    · exact h
    · exact h.goto (by simp) (by simp)
    · exact h.goto (by simp) (by simp)
    · dsimp only
      split
      · refine h.goto (by simp) fun t ht => ?_
        cases ht
        exact hm
      · refine h.goto (fun t ht => ?_) (by simp)
        cases ht
        exact hm
    · next t heq =>
      refine h.goto (by simp) fun t' ht => ?_
      cases ht
      exact h.memos t heq
    · next t heq =>
      obtain ⟨since, hlog, hsince⟩ := h.landed
      refine ⟨⟨.landed t :: since, congrArg (Event.landed t :: ·) hlog, fun u hu => ?_⟩, fun _ h => (by cases h), fun _ h => (by cases h)⟩
      rcases List.mem_cons.mp hu with rfl | hu
      · exact h.batch _ heq
      · exact hsince u hu
  · exact h.goto (by simp) (by simp)

theorem stands_step (w : World) (move : Move) (h : Stands log m w) (hm : m ∈ w.db.marks) :
    Stands log m (w.step move) := by
  cases move with
  | turn ok => exact h.turn hm ok
  | begin =>
    show Stands log m w.begin
    unfold World.begin
    split
    · exact h.goto (by simp) (by simp)
    · exact h
  | resolve p =>
    obtain ⟨since, hlog, hsince⟩ := h.landed
    exact ⟨⟨.resolved p :: since, congrArg (Event.resolved p :: ·) hlog, hsince⟩, h.memos, h.batch⟩
  | wait ms => exact ⟨h.landed, h.memos, h.batch⟩
  | mark m => exact ⟨h.landed, h.memos, h.batch⟩
  | ack gone => exact ⟨h.landed, h.memos, h.batch⟩
  | consumer horizon => exact ⟨h.landed, h.memos, h.batch⟩
  | note n => exact ⟨h.landed, h.memos, h.batch⟩
  | memo m => exact ⟨h.landed, h.memos, h.batch⟩
  | clear name => exact ⟨h.landed, h.memos, h.batch⟩

theorem Sound.sweptPast (h : w.Sound) (hidle : w.stage = .idle) (moves : List Move) : w.SweptPast moves := by
  intro since hlog first hfirst hhead last hlast hwrap m hpresent hold
  have hrun : (w.run moves).Sound := Runs.inv_run (fun _ m h => sound_step m h) h moves
  have hstands : Stands w.log m (w.run moves) := Runs.inv_along (I := Stands w.log m) stands_step
    ⟨⟨[], rfl, fun _ ht => absurd ht List.not_mem_nil⟩, fun t ht => absurd (hidle.symm.trans ht) (by simp), fun t ht => absurd (hidle.symm.trans ht) (by simp)⟩ hpresent
  obtain ⟨since', hlog', hstood⟩ := hstands.landed
  cases List.append_cancel_right (hlog.symm.trans hlog')
  have hticks : (w.run moves).basis.ticks = since.filterMap Event.tick ++ w.basis.ticks := by
    show (w.run moves).log.filterMap Event.tick = _
    rw [hlog, List.filterMap_append]
    rfl
  have hchain : (round since).IsChain fun a b => Follows a b.toSeen := by
    have hall := hrun.basis.chain
    rw [hticks] at hall
    exact List.isChain_reverse.mpr hall.left_of_append
  have hfair : ∀ t ∈ round since, t.Fair := by
    intro t ht
    refine hrun.basis.fair t ?_
    rw [hticks]
    exact List.mem_append_left _ (List.mem_reverse.mp ht)
  obtain ⟨rest, hround⟩ : ∃ rest, round since = first :: rest := by
    cases hr : round since with
    | nil => rw [hr] at hfirst; cases hfirst
    | cons a rest =>
      rw [hr] at hfirst
      cases hfirst
      exact ⟨rest, rfl⟩
  have hmem : ∀ t ∈ round since, m ∈ t.stood := fun t ht => hstood t (List.mem_reverse.mp ht)
  rw [hround] at hchain hfair hlast hmem ⊢
  have hplace : first.start < m.place := by
    rw [hhead]
    exact Prod.Lex.toLex_lt_toLex.mpr (.inl (by show (-1 : Int) < m.markedAtMs; omega))
  exact round_answers hchain hfair hmem hlast hwrap hold hplace

end World

/-! ## A pair is re-published once a pass -/

theorem row_stampAt (now : Ms) (stamps : List Stamp) (p q : Pair) :
    row Stamp.name (stampAt now stamps p) (sweptMemoName q) =
      if q = p then some ⟨sweptMemoName p, now, now⟩ else row Stamp.name stamps (sweptMemoName q) := by
  unfold stampAt
  rw [KeyedRows.row_append, KeyedRows.row_remove]
  by_cases hqp : q = p
  · subst hqp
    simp
  · have hne : sweptMemoName q ≠ sweptMemoName p := fun heq => hqp (memoName_inj heq)
    simp [hqp, hne, hne.symm]

theorem row_stamps (now : Ms) (pairs : List Pair) (stamps : List Stamp) (q : Pair) :
    row Stamp.name (pairs.foldl (stampAt now) stamps) (sweptMemoName q) =
      if q ∈ pairs then some ⟨sweptMemoName q, now, now⟩ else row Stamp.name stamps (sweptMemoName q) := by
  induction pairs generalizing stamps with
  | nil => simp
  | cons p pairs ih =>
    rw [List.foldl_cons, ih, row_stampAt]
    by_cases hq : q ∈ pairs
    · simp [hq]
    · by_cases hqp : q = p
      · subst hqp
        simp
      · simp [hq, hqp]

def Again (t u : Tick) : Prop :=
  (∃ h, u.horizon = some h ∧ t.now + sweepHorizonMarginMs < h) ∨ sweepStalledAfterMs ≤ u.now - t.now

variable {u t : Tick}

theorem again_of_not_blocks {s : Ms} (hs : t.now ≤ s) (h : sweptBlocks s u.now u.horizon = false) : Again t u := by
  have hnow : ∀ a b c : Int, a ≤ b → c ≤ u.now - b → c ≤ u.now - a := by omega
  have hpass : ∀ a b c d : Int, a ≤ b → b < c - d → a + d < c := by omega
  cases hh : u.horizon with
  | none =>
    rw [hh] at h
    exact .inr (hnow _ _ _ hs (by simpa [sweptBlocks] using h))
  | some horizon =>
    rw [hh] at h
    by_cases hpassed : s < horizon - sweepHorizonMarginMs
    · exact .inl ⟨horizon, hh, hpass _ _ _ _ hs hpassed⟩
    · exact .inr (hnow _ _ _ hs (by simpa [sweptBlocks, hpassed] using h))

theorem again_of_pruned {v : Tick} (hpruned : t.now + sweptPruneAfterMs < u.now) (hle : u.now ≤ v.now) : Again t v := by
  have hlong : ∀ a b c : Int, a + 86400000 < b → b ≤ c → 600000 ≤ c - a := by omega
  exact .inr (hlong _ _ _ hpruned hle)

namespace World

variable {w : World}

def OncePerPass (log : List Event) : Prop :=
  ∀ after u mid t before, log = after ++ .landed u :: (mid ++ .landed t :: before) → ∀ p ∈ t.pairs, p ∈ u.pairs → p ∉ u.lostPairs →
    .resolved p ∈ mid ∨ Again t u

def Spaced (log : List Event) (u : Tick) : Prop :=
  ∀ mid t before, log = mid ++ .landed t :: before → ∀ p ∈ t.pairs, p ∈ u.pairs → p ∉ u.lostPairs → .resolved p ∈ mid ∨ Again t u

structure Stamped (w : World) : Prop where
  once : OncePerPass w.log
  stamps : ∀ after t before, w.log = after ++ .landed t :: before → ∀ p ∈ t.pairs, .resolved p ∈ after ∨
    (∃ s, row Stamp.name w.db.stamps (sweptMemoName p) = some s ∧ t.now ≤ s.sweptAtMs ∧ s.tickedAtMs = s.sweptAtMs) ∨
      ∃ u, .landed u ∈ after ∧ t.now + sweptPruneAfterMs < u.now
  batch : ∀ u, w.stage = .batch u → Spaced w.log u

theorem now_le_of_sees (h : w.Sound) {s : Seen} (hs : w.basis.Sees s) (hu : .landed u ∈ w.log) : u.now ≤ s.now := by
  have hmem : u ∈ w.basis.ticks := List.mem_filterMap.mpr ⟨_, hu, rfl⟩
  have hnows : w.basis.ticks.Pairwise fun later earlier => earlier.now ≤ later.now := by
    have : IsTrans Tick fun later earlier => earlier.now ≤ later.now := ⟨fun _ _ _ hab hbc => le_trans hbc hab⟩
    exact List.isChain_iff_pairwise.mp (h.basis.chain.imp fun _ _ hf => hf.now)
  cases hticks : w.basis.ticks with
  | nil => rw [hticks] at hmem; cases hmem
  | cons last ticks =>
    have hlast := (hs.follows last (by rw [hticks]; rfl)).now
    rw [hticks] at hmem hnows
    rcases List.mem_cons.mp hmem with rfl | hmem
    · exact hlast
    · exact le_trans ((List.pairwise_cons.mp hnows).1 u hmem) hlast

theorem Stamped.goto (h : w.Stamped) {stage : Stage} (hb : ∀ u, stage = .batch u → Spaced w.log u) : (w.goto stage).Stamped := ⟨h.once, h.stamps, hb⟩

theorem Stamped.memos (hsound : w.Sound) (h : w.Stamped) {v : Walked} (hs : w.basis.Sees v.toSeen) : Spaced w.log (w.db.memosOf v) := by
  intro mid t before hlog p hp hpu hlost
  rcases h.stamps mid t before hlog p hp with hres | ⟨s, hrow, hle, -⟩ | ⟨u, hu, hpruned⟩
  · exact .inl hres
  · have htaken := (List.mem_filter.mp (List.mem_filter.mp hpu).1)
    have hcand : p ∈ v.candidates := by
      rcases List.mem_append.mp htaken.1 with hin | hin
      · exact absurd hin hlost
      · exact hin
    have hname : v.names.contains (sweptMemoName p) = true := by
      refine List.contains_iff_mem.mpr (List.mem_append_left _ (List.mem_append_right _ (List.mem_map_of_mem hcand)))
    have hread : (w.db.memosOf v).sweptAt p = some s.sweptAtMs := by
      have hkey := KeyedRows.row_key hrow
      show (row Stamp.name (w.db.stamps.filter fun s => v.names.contains s.name) (sweptMemoName p)).map Stamp.sweptAtMs = _
      rw [KeyedRows.row_filter hrow (by rw [hkey]; exact hname)]
      rfl
    have hfree : sweptBlocks s.sweptAtMs v.now v.horizon = false := by
      have hnot := htaken.2
      have hlost' : p ∉ v.lostPairs := hlost
      simp only [Tick.blocked, hread, Bool.not_eq_true', Bool.and_eq_false_iff, Bool.not_eq_false', Option.any_some] at hnot
      rcases hnot with hin | hfree
      · exact absurd (List.contains_iff_mem.mp hin) hlost'
      · exact hfree
    exact .inr (again_of_not_blocks hle hfree)
  · have hin : .landed u ∈ w.log := by
      rw [hlog]
      exact List.mem_append_left _ hu
    exact .inr (again_of_pruned hpruned (now_le_of_sees hsound hs hin))

theorem cons_eq_split {α : Type} {e x : α} {log after before : List α} (h : e :: log = after ++ x :: before) :
    after = [] ∧ e = x ∧ log = before ∨ ∃ rest, after = e :: rest ∧ log = rest ++ x :: before := by
  cases after with
  | nil => exact .inl ⟨rfl, List.cons.inj h⟩
  | cons a after =>
    obtain ⟨rfl, hlog⟩ := List.cons.inj h
    exact .inr ⟨after, rfl, hlog⟩

theorem Stamped.land (hsound : w.Sound) (h : w.Stamped) (hstage : w.stage = .batch u) :
    Stamped { w with db := w.db.land u, log := .landed u :: w.log, stage := .idle } where
  once := by
    intro after v mid t before hlog p hp hpv hlost
    rcases cons_eq_split hlog with ⟨-, heq, hrest⟩ | ⟨rest, -, hrest⟩
    · cases heq
      exact h.batch u hstage mid t before hrest p hp hpv hlost
    · exact h.once rest v mid t before hrest p hp hpv hlost
  stamps := by
    have hsees : w.basis.Sees u.toSeen := by
      have hs := hsound.atStage
      rw [hstage] at hs
      exact hs.1
    intro after t before hlog p hp
    have hkeep : ∀ s, row Stamp.name (u.pairs.foldl (stampAt u.now) w.db.stamps) (sweptMemoName p) = some s → ¬ s.tickedAtMs < u.pruneCutoff →
        row Stamp.name (w.db.land u).stamps (sweptMemoName p) = some s := by
      intro s hs hold
      refine KeyedRows.row_filter hs ?_
      simp [hold]
    have hself : p ∈ u.pairs → row Stamp.name (w.db.land u).stamps (sweptMemoName p) = some ⟨sweptMemoName p, u.now, u.now⟩ := by
      intro hpu
      refine hkeep _ ?_ ?_
      · rw [row_stamps, if_pos hpu]
      · have hcut : ∀ a : Int, ¬ a < a - 86400000 := by omega
        exact hcut u.now
    rcases cons_eq_split hlog with ⟨-, heq, -⟩ | ⟨rest, rfl, hrest⟩
    · cases heq
      exact .inr (.inl ⟨_, hself hp, le_refl _, rfl⟩)
    · rcases h.stamps rest t before hrest p hp with hres | ⟨s, hrow, hle, hticked⟩ | ⟨v, hv, hpruned⟩
      · exact .inl (List.mem_cons_of_mem _ hres)
      · by_cases hpu : p ∈ u.pairs
        · have hin : .landed t ∈ w.log := by
            rw [hrest]
            exact List.mem_append_right _ List.mem_cons_self
          exact .inr (.inl ⟨_, hself hpu, now_le_of_sees hsound hsees hin, rfl⟩)
        · by_cases hold : s.tickedAtMs < u.pruneCutoff
          · refine .inr (.inr ⟨u, List.mem_cons_self, ?_⟩)
            have hcut : ∀ a b c : Int, a ≤ b → b < c - 86400000 → a + 86400000 < c := by omega
            rw [hticked] at hold
            exact hcut _ _ _ hle hold
          · exact .inr (.inl ⟨s, hkeep s (by rw [row_stamps, if_neg hpu]; exact hrow) hold, hle, hticked⟩)
      · exact .inr (.inr ⟨v, List.mem_cons_of_mem _ hv, hpruned⟩)
  batch := fun _ h => (by cases h)

theorem Stamped.turn (hsound : w.Sound) (h : w.Stamped) (ok : Bool) : (w.turn ok).Stamped := by
  unfold World.turn
  split
  · split
    · exact h
    · exact h.goto (by simp)
    · exact h.goto (by simp)
    · next ws heq =>
      dsimp only
      split
      · next hempty =>
        refine h.goto fun u hu mid t before _ p _ hpu _ => ?_
        cases hu
        have hall := (List.mem_filter.mp (List.mem_filter.mp hpu).1).1
        have hnone : (Walked.mk ws w.db.marks).all = [] := List.isEmpty_iff.mp hempty
        exact absurd (hnone ▸ hall) List.not_mem_nil
      · exact h.goto (by simp)
    · next v heq =>
      have hs := hsound.atStage
      rw [heq] at hs
      refine h.goto fun u hu => ?_
      cases hu
      exact h.memos hsound hs.1
    · next u heq => exact h.land hsound heq
  · exact h.goto (by simp)

theorem Stamped.resolve (h : w.Stamped) (q : Pair) : (w.step (.resolve q)).Stamped where
  once := by
    intro after v mid t before hlog
    rcases cons_eq_split hlog with ⟨-, heq, -⟩ | ⟨rest, -, hrest⟩
    · cases heq
    · exact h.once rest v mid t before hrest
  stamps := by
    intro after t before hlog p hp
    rcases cons_eq_split hlog with ⟨-, heq, -⟩ | ⟨rest, rfl, hrest⟩
    · cases heq
    by_cases hqp : q = p
    · exact .inl (hqp ▸ List.mem_cons_self)
    · rcases h.stamps rest t before hrest p hp with hres | ⟨s, hrow, hle, hticked⟩ | ⟨v, hv, hpruned⟩
      · exact .inl (List.mem_cons_of_mem _ hres)
      · refine .inr (.inl ⟨s, ?_, hle, hticked⟩)
        have hne : sweptMemoName p ≠ sweptMemoName q := fun heq => hqp (memoName_inj heq).symm
        show row Stamp.name (remove Stamp.name (fun n => n == sweptMemoName q) w.db.stamps) (sweptMemoName p) = some s
        rw [KeyedRows.row_remove, if_neg (by simpa using hne)]
        exact hrow
      · exact .inr (.inr ⟨v, List.mem_cons_of_mem _ hv, hpruned⟩)
  batch := by
    intro u hu mid t before hlog p hp hpu hlost
    rcases cons_eq_split hlog with ⟨-, heq, -⟩ | ⟨rest, rfl, hrest⟩
    · cases heq
    · exact (h.batch u hu rest t before hrest p hp hpu hlost).imp_left (List.mem_cons_of_mem _)

theorem stamped_step (m : Move) (hsound : w.Sound) (h : w.Stamped) : (w.step m).Stamped := by
  cases m with
  | turn ok => exact h.turn hsound ok
  | resolve p => exact h.resolve p
  | begin =>
    show w.begin.Stamped
    unfold World.begin
    split
    · exact h.goto (by simp)
    · exact h
  | wait ms => exact ⟨h.once, h.stamps, h.batch⟩
  | mark m => exact ⟨h.once, h.stamps, h.batch⟩
  | ack gone => exact ⟨h.once, h.stamps, h.batch⟩
  | consumer horizon => exact ⟨h.once, h.stamps, h.batch⟩
  | note n => exact ⟨h.once, h.stamps, h.batch⟩
  | memo m => exact ⟨h.once, h.stamps, h.batch⟩
  | clear name => exact ⟨h.once, h.stamps, h.batch⟩

theorem no_split {α : Type} {x : α} {after before : List α} (h : [] = after ++ x :: before) : False := by
  cases after <;> cases h

theorem stamped_start : Stamped {} :=
  ⟨fun _ _ _ _ _ h => (no_split h).elim, fun _ _ _ h => (no_split h).elim, fun _ h => (by cases h)⟩

theorem sweep_kept (earlier later : List Move) :
    ((run {} earlier).stage = .idle → (run {} earlier).SweptPast later) ∧ OncePerPass (run {} earlier).log := by
  have h : (run {} earlier).Sound ∧ (run {} earlier).Stamped :=
    Runs.inv_run (I := fun w : World => w.Sound ∧ w.Stamped) (fun _ m h => ⟨sound_step m h.1, stamped_step m h.1 h.2⟩) ⟨sound_start, stamped_start⟩ earlier
  exact ⟨fun hidle => h.1.sweptPast hidle later, h.2.once⟩

/-! A mark past the long bound, and one tick that reads it. -/

def potMark : Mark := ⟨1, ⟨"pot", by decide, by decide⟩, "aa:0", 1000, "b", "g"⟩

def waited : List Move := [.mark potMark, .wait 700000]

def ticked : List Move := [.begin, .turn true, .turn true, .turn true, .turn true, .turn true]

theorem sweep_kept_ticked :
    ∃ t ∈ round ((run {} waited).run ticked).log, t.MovesPast potMark ∧ potMark ∈ t.read ∧ t.Answers potMark.pair := by
  have h := (sweep_kept waited ticked).1 rfl
  exact h _ rfl _ rfl rfl _ rfl rfl potMark (by decide) (by decide)

end World

end OverlayEngine.OwedSweep
