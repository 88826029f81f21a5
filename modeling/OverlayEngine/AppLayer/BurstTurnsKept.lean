import Mathlib.Data.List.Nodup
import Mathlib.Data.List.Pairwise
import OverlayEngine.AppLayer.BurstTurns

/-!
# Every coalesced answer is earned

An event is queued once, taken by one pass at most, and answered by that pass:
as covered, or after every chunk its games are in was applied. What a dropped
holder took is answered by no one, and its calls answer for themselves.
-/

namespace OverlayEngine.BurstTurns

variable {π : Type}

/-! ## What the log says -/

def ids (batch : List (Nat × Item)) : List Nat := batch.map Prod.fst

def Event.taken : Event → List Nat
  | .took _ batch => ids batch
  | _ => []

def taken (log : List Event) : List Nat := log.flatMap Event.taken

def Event.holder : Event → Option Nat
  | .queued _ _ => none
  | .took h _ => some h
  | .covered h _ => some h
  | .applied h _ => some h
  | .faulted h _ => some h

def Event.taker : Event → Option Nat
  | .took h _ => some h
  | _ => none

def takers (log : List Event) : List Nat := log.filterMap Event.taker

def Earned (log : List Event) (id : Nat) : Prop :=
  ∃ item h batch before after, log = before ++ Event.took h batch :: after ∧ Event.queued id item ∈ before ∧ (id, item) ∈ batch ∧
    (Event.covered h id ∈ after ∨ ∀ g ∈ lowered item.games, ∃ chunk, Event.applied h chunk ∈ after ∧ g ∈ chunk)

variable {log : List Event} {id i h entered : Nat}

theorem Earned.append (h : Earned log id) (more : List Event) : Earned (log ++ more) id := by
  obtain ⟨item, h, batch, before, after, rfl, hqueued, hin, hdone⟩ := h
  refine ⟨item, h, batch, before, after ++ more, by rw [List.append_assoc, List.cons_append], hqueued, hin, ?_⟩
  exact hdone.imp (List.mem_append_left more) fun happlied g hg =>
    let ⟨chunk, hchunk, hgchunk⟩ := happlied g hg
    ⟨chunk, List.mem_append_left more hchunk, hgchunk⟩

@[simp] theorem taken_append (log more : List Event) : taken (log ++ more) = taken log ++ taken more := List.flatMap_append

@[simp] theorem takers_append (log more : List Event) : takers (log ++ more) = takers log ++ takers more := List.filterMap_append

theorem mem_taken : id ∈ taken log ↔ ∃ h batch, Event.took h batch ∈ log ∧ id ∈ ids batch := by
  rw [taken, List.mem_flatMap]
  constructor
  · rintro ⟨e, he, hid⟩
    cases e with
    | took h batch => exact ⟨h, batch, he, hid⟩
    | _ => cases hid
  · rintro ⟨h, batch, he, hid⟩
    exact ⟨_, he, hid⟩

theorem mem_takers : h ∈ takers log ↔ ∃ batch, Event.took h batch ∈ log := by
  rw [takers, List.mem_filterMap]
  constructor
  · rintro ⟨e, he, hh⟩
    cases e with
    | took h' batch => exact ⟨batch, Option.some.inj hh ▸ he⟩
    | _ => cases hh
  · rintro ⟨batch, he⟩
    exact ⟨_, he, rfl⟩

theorem batch_unique (hlog : (taken log).Nodup) {h' : Nat} {batch batch' : List (Nat × Item)} (he : Event.took h batch ∈ log)
    (he' : Event.took h' batch' ∈ log) (hid : id ∈ ids batch) (hid' : id ∈ ids batch') : h = h' ∧ batch = batch' := by
  by_contra hne
  have hother : Event.took h batch ≠ Event.took h' batch' := fun heq => hne (Event.took.inj heq)
  have hsymm : Std.Symm (Function.onFun List.Disjoint Event.taken) := ⟨fun _ _ hd => hd.symm⟩
  have hapart := (List.nodup_flatMap.mp hlog).2.forall he he' hother
  exact hapart hid hid'

/-! ## The calls -/

def Unanswered (s : Burst π) (id : Nat) : Prop := s.done id = none ∧ ((∃ t, s.calls id = some (.waiting t)) ∨ s.calls id = some .dropped)

def FaultLeft (s : Burst π) (id : Nat) (e : String) : Prop :=
  s.calls id = some (.returned (.error e)) ∨ s.calls id = some .dropped ∨ (∃ t, s.calls id = some (.waiting t)) ∧ s.done id = some (.error e)

structure Tracks (s : Burst π) (h : Nat) (p : Pass π) (batch : List (Nat × Item)) (before after : List Event) : Prop where
  log : s.log = before ++ Event.took h batch :: after
  queued : ∀ x ∈ batch, Event.queued x.1 x.2 ∈ before
  unchecked : ∀ x ∈ p.unchecked, x ∈ batch
  live : ∀ l ∈ p.live, (l.1, l.2.1) ∈ batch
  whole : (ids batch).Perm (p.out.map Prod.fst ++ p.live.map Prod.fst ++ ids p.unchecked)
  covered : ∀ id, Event.covered h id ∈ after ↔ id ∈ p.out.map Prod.fst
  games : p.unchecked = [] → ∀ l ∈ p.live, ∀ g ∈ lowered l.2.1.games, (∃ chunk ∈ p.left, g ∈ chunk) ∨ ∃ chunk, Event.applied h chunk ∈ after ∧ g ∈ chunk
  quiet : ∀ e, Event.faulted h e ∉ s.log
  unanswered : ∀ id ∈ ids batch, id ≠ h → Unanswered s id

structure Base (s : Burst π) : Prop where
  fresh : ∀ id, s.next ≤ id → s.calls id = none ∧ s.done id = none
  pending : ∀ x ∈ s.pending, x.1 < s.next ∧ Event.queued x.1 x.2 ∈ s.log ∧ Unanswered s x.1
  known : ∀ id ∈ taken s.log, id < s.next
  once : (taken s.log ++ ids s.pending).Nodup
  single : (takers s.log).Nodup
  holders : ∀ h ∈ takers s.log, h < s.next ∧ ∀ t, s.calls h ≠ some (.waiting t)
  traced : ∀ e ∈ s.log, ∀ h ∈ e.holder, h ∈ takers s.log
  left : ∀ id r, s.done id = some r → id ∈ taken s.log ∧ ∀ x, r = .ok x → Earned s.log id
  earned : ∀ id x, s.calls id = some (.returned (.ok x)) → Earned s.log id
  faults : ∀ h e, Event.faulted h e ∈ s.log → ∀ batch, Event.took h batch ∈ s.log → ∀ id ∈ ids batch, Event.covered h id ∉ s.log → FaultLeft s id e

structure Kept (s : Burst π) : Prop extends Base s where
  holder : ∀ h, s.holder = some h → ∃ p, s.calls h = some (.passing p)
  passing : ∀ h p, s.calls h = some (.passing p) → s.holder = some h ∧ p.ended = false ∧ ∃ batch before after, Tracks s h p batch before after

/-! ## Appending to the log -/

variable {s : Burst π} {h id : Nat} {p : Pass π} {batch : List (Nat × Item)} {before after : List Event}

theorem Base.next_free (hs : Base s) {x : Nat} (h : s.next ≤ x) : x ∉ taken s.log ++ ids s.pending := by
  intro hmem
  rcases List.mem_append.mp hmem with htaken | hpending
  · exact absurd (hs.known x htaken) (Nat.not_lt.mpr h)
  · obtain ⟨y, hy, rfl⟩ := List.mem_map.mp hpending
    exact absurd (hs.pending y hy).1 (Nat.not_lt.mpr h)

theorem Base.write (hs : Base s) {e : Event} (he : e.holder = some h) (htook : e.taker = none) (hfault : ∀ x, e ≠ .faulted h x) (hh : h ∈ takers s.log) :
    Base (s.write e) := by
  have htaken : taken (s.log ++ [e]) = taken s.log := by
    cases e with
    | took => cases htook
    | _ => simp [taken, Event.taken]
  have htakers : takers (s.log ++ [e]) = takers s.log := by simp [takers, htook]
  have hmem {x : Event} (hx : x ∈ s.log ++ [e]) : x ∈ s.log ∨ x = e := by simpa using hx
  refine ⟨hs.fresh, fun x hx => ?_, ?_, ?_, ?_, ?_, ?_, ?_, ?_, ?_⟩
  · obtain ⟨hlt, hqueued, hun⟩ := hs.pending x hx
    exact ⟨hlt, List.mem_append_left _ hqueued, hun⟩
  · rw [Burst.write, htaken]
    exact hs.known
  · rw [Burst.write, htaken]
    exact hs.once
  · rw [Burst.write, htakers]
    exact hs.single
  · rw [Burst.write, htakers]
    exact hs.holders
  · rw [Burst.write, htakers]
    intro x hx k hk
    rcases hmem hx with hx | rfl
    · exact hs.traced x hx k hk
    · rw [he] at hk
      exact Option.some.inj hk ▸ hh
  · rw [Burst.write, htaken]
    exact fun i r hr => ⟨(hs.left i r hr).1, fun x hx => ((hs.left i r hr).2 x hx).append [e]⟩
  · exact fun i x hx => (hs.earned i x hx).append [e]
  · intro k x hx b hb i hi hnot
    rcases hmem hx with hx | rfl
    · rcases hmem hb with hb | rfl
      · exact hs.faults k x hx b hb i hi fun hc => hnot (List.mem_append_left _ hc)
      · cases htook
    · cases he
      exact absurd rfl (hfault x)

theorem took_unique (hlog : (takers log).Nodup) {b b' : List (Nat × Item)} (hb : Event.took h b ∈ log) (hb' : Event.took h b' ∈ log) : b = b' := by
  induction log with
  | nil => cases hb
  | cons e log ih =>
    have htail (c : List (Nat × Item)) (hc : Event.took h c ∈ log) (he : e.taker = some h) : False := by
      rw [takers, List.filterMap_cons_some he] at hlog
      exact (List.nodup_cons.mp hlog).1 (mem_takers.mpr ⟨c, hc⟩)
    have hrest : (takers log).Nodup := hlog.sublist ((List.sublist_cons_self e log).filterMap _)
    rcases List.mem_cons.mp hb with rfl | hin
    · rcases List.mem_cons.mp hb' with heq | hin'
      · exact (Event.took.inj heq).2.symm
      · exact (htail b' hin' rfl).elim
    · rcases List.mem_cons.mp hb' with rfl | hin'
      · exact (htail b hin rfl).elim
      · exact ih hrest hin hin'

/-! ## A call's phase -/

theorem Base.setCall (hs : Base s) (hlt : h < s.next) {phase : Phase π} (hwait : ∀ t, phase ≠ .waiting t)
    (hearned : ∀ x, phase = .returned (.ok x) → Earned s.log h) (hpending : h ∈ ids s.pending → phase = .dropped)
    (hfault : ∀ e, FaultLeft s h e → phase = .returned (.error e) ∨ phase = .dropped) : Base (s.setCall h phase) := by
  have hself : (s.setCall h phase).calls h = some phase := Function.update_self ..
  have hother {i : Nat} (hi : i ≠ h) : (s.setCall h phase).calls i = s.calls i := Function.update_of_ne hi ..
  refine ⟨fun i hi => ?_, fun x hx => ?_, hs.known, hs.once, hs.single, fun k hk => ⟨(hs.holders k hk).1, fun t => ?_⟩, hs.traced, hs.left,
    fun i x hx => ?_, fun k e he b hb i hi hnot => ?_⟩
  · rw [hother (by rintro rfl; exact absurd hlt (Nat.not_lt.mpr hi))]
    exact hs.fresh i hi
  · obtain ⟨hlt, hqueued, hdone, hcall⟩ := hs.pending x hx
    refine ⟨hlt, hqueued, hdone, ?_⟩
    by_cases heq : x.1 = h
    · have hdropped := hpending (heq ▸ List.mem_map_of_mem hx)
      rw [heq, hself, hdropped]
      exact .inr rfl
    · rw [hother heq]
      exact hcall
  · by_cases heq : k = h
    · rw [heq, hself]
      exact fun hphase => hwait t (Option.some.inj hphase)
    · rw [hother heq]
      exact (hs.holders k hk).2 t
  · by_cases heq : i = h
    · rw [heq, hself] at hx
      exact heq ▸ hearned x (Option.some.inj hx)
    · rw [hother heq] at hx
      exact hs.earned i x hx
  · have hleft := hs.faults k e he b hb i hi hnot
    by_cases heq : i = h
    · subst heq
      rcases hfault e hleft with hphase | hphase
      · exact .inl (hself.trans (congrArg some hphase))
      · exact .inr (.inl (hself.trans (congrArg some hphase)))
    · rw [FaultLeft, hother heq]
      exact hleft

/-! ## A pass's answers -/

variable {r : Nat × Result π} {fault : Option String}

theorem mem_results (hr : r ∈ p.results fault) :
    r ∈ p.out ∨ ∃ l ∈ p.live, r.1 = l.1 ∧ ((∃ e, fault = some e ∧ r.2 = .error e) ∨ fault = none) := by
  rw [Pass.results, List.mem_append] at hr
  refine hr.imp_right fun hr => ?_
  obtain ⟨⟨l, i⟩, hl, rfl⟩ := List.mem_map.mp hr
  refine ⟨l, (List.mem_zipIdx' hl).2 ▸ List.getElem_mem _, rfl, ?_⟩
  cases fault with
  | none => exact .inr rfl
  | some e => exact .inl ⟨e, rfl, rfl⟩

theorem results_ids (fault : Option String) : (p.results fault).map Prod.fst = p.out.map Prod.fst ++ p.live.map Prod.fst := by
  rw [Pass.results, List.map_append, List.map_map]
  congr 1
  have hlive := congrArg (List.map Prod.fst) (List.zipIdx_map_fst 0 p.live)
  rw [List.map_map] at hlive
  exact hlive

structure Ends (s : Burst π) (h : Nat) (p : Pass π) (fault : Option String) (batch : List (Nat × Item)) (before after : List Event) : Prop
    extends Tracks s h p batch before after where
  checked : p.unchecked = []
  applied : fault = none → p.left = []

namespace Ends

variable {fault : Option String} (hp : Ends s h p fault batch before after)
include hp

theorem took : Event.took h batch ∈ s.log := hp.log ▸ List.mem_append_right before List.mem_cons_self

theorem ids_perm : (ids batch).Perm ((p.results fault).map Prod.fst) := by
  have hwhole := hp.whole
  rw [hp.checked] at hwhole
  rw [results_ids]
  simpa [ids] using hwhole

theorem result_in (hr : r ∈ p.results fault) : r.1 ∈ ids batch := hp.ids_perm.mem_iff.mpr (List.mem_map_of_mem hr)

theorem result_earned (hr : r ∈ p.results fault) {x : Report × List π} (hx : r.2 = .ok x) : Earned s.log r.1 := by
  obtain ⟨y, hy, hyid⟩ := List.mem_map.mp (hp.result_in hr)
  rcases mem_results hr with hout | ⟨l, hl, hlid, hfault⟩
  · exact hyid ▸ ⟨y.2, h, batch, before, after, hp.log, hp.queued y hy, hy, .inl (hyid ▸ (hp.covered r.1).mpr (List.mem_map_of_mem hout))⟩
  · rcases hfault with ⟨e, -, he⟩ | hnone
    · rw [he] at hx
      cases hx
    · have hmem := hp.live l hl
      refine hlid ▸ ⟨l.2.1, h, batch, before, after, hp.log, hp.queued _ hmem, hmem, .inr fun g hg => ?_⟩
      rcases hp.games hp.checked l hl g hg with ⟨chunk, hchunk, -⟩ | happlied
      · rw [hp.applied hnone] at hchunk
        cases hchunk
      · exact happlied

theorem result_fault (hr : r ∈ p.results fault) {e : String} (he : fault = some e) (hnot : Event.covered h r.1 ∉ s.log) : r.2 = .error e := by
  rcases mem_results hr with hout | ⟨l, -, -, hfault⟩
  · have hcovered := (hp.covered r.1).mpr (List.mem_map_of_mem hout)
    exact absurd (hp.log ▸ List.mem_append_right before (List.mem_cons_of_mem _ hcovered)) hnot
  · rcases hfault with ⟨e', he', hr⟩ | hnone
    · rw [hr, ← Option.some.inj (he'.symm.trans he)]
    · rw [hnone] at he
      cases he

end Ends

theorem foldl_update {α : Type} (rs : List (Nat × α)) (f : Nat → Option α) (i : Nat) :
    (∃ r ∈ rs, r.1 = i ∧ rs.foldl (fun (g : Nat → Option α) r => Function.update g r.1 (some r.2)) f i = some r.2) ∨
      (∀ r ∈ rs, r.1 ≠ i) ∧ rs.foldl (fun (g : Nat → Option α) r => Function.update g r.1 (some r.2)) f i = f i := by
  induction rs generalizing f with
  | nil => exact .inr ⟨fun _ h => (by cases h), rfl⟩
  | cons r rs ih =>
    rw [List.foldl_cons]
    rcases ih (Function.update f r.1 (some r.2)) with ⟨q, hq, hid, hval⟩ | ⟨hnone, hval⟩
    · exact .inl ⟨q, List.mem_cons_of_mem r hq, hid, hval⟩
    · by_cases hr : r.1 = i
      · subst hr
        rw [Function.update_self] at hval
        exact .inl ⟨r, List.mem_cons_self, rfl, hval⟩
      · rw [Function.update_of_ne (Ne.symm hr)] at hval
        exact .inr ⟨List.forall_mem_cons.mpr ⟨hr, hnone⟩, hval⟩

/-! ## A pass's end -/

section
variable {fault : Option String} {now : Nat}

theorem finish_done (now : Nat) (hp : Ends s h p fault batch before after) (i : Nat) :
    (i ≠ h ∧ ∃ r ∈ p.results fault, r.1 = i ∧ (s.finish h p fault now).done i = some r.2) ∨
      ((i = h ∨ i ∉ ids batch) ∧ (s.finish h p fault now).done i = s.done i) := by
  rcases foldl_update ((p.results fault).filter fun r => r.1 ≠ h) s.done i with ⟨r, hr, hri, hval⟩ | ⟨hnone, hval⟩
  · obtain ⟨hmem, hne⟩ := List.mem_filter.mp hr
    refine .inl ⟨?_, r, hmem, hri, hval⟩
    rw [← hri]
    simpa using hne
  · refine .inr ⟨?_, hval⟩
    by_cases hi : i = h
    · exact .inl hi
    · refine .inr fun hin => ?_
      obtain ⟨r, hr, hri⟩ := List.mem_map.mp (hp.ids_perm.mem_iff.mp hin)
      exact hnone r (List.mem_filter.mpr ⟨hr, by simpa [hri] using hi⟩) hri

theorem finish_calls_of_ne (hi : i ≠ h) : (s.finish h p fault now).calls i = s.calls i := Function.update_of_ne hi ..

theorem finish_own (now : Nat) (hp : Ends s h p fault batch before after) :
    (∃ r ∈ p.results fault, r.1 = h ∧ (s.finish h p fault now).calls h = some (.returned (r.2.map fun r => (r.1.held p.entered p.turned now, r.2)))) ∨
      h ∉ ids batch ∧ (s.finish h p fault now).calls h = some (.returned (.error ownResultLost)) := by
  have hcall : (s.finish h p fault now).calls h = some (.returned (((((p.results fault).filter fun r => r.1 = h).getLast?.map Prod.snd).getD
      (.error ownResultLost)).map fun r => (r.1.held p.entered p.turned now, r.2))) := Function.update_self ..
  cases hlast : ((p.results fault).filter fun r => r.1 = h).getLast? with
  | none =>
    rw [hlast] at hcall
    refine .inr ⟨fun hin => ?_, hcall⟩
    obtain ⟨r, hr, hrh⟩ := List.mem_map.mp (hp.ids_perm.mem_iff.mp hin)
    rw [List.getLast?_eq_none_iff, List.filter_eq_nil_iff] at hlast
    exact hlast r hr (by simpa using hrh)
  | some r =>
    rw [hlast] at hcall
    obtain ⟨hr, hrh⟩ := List.mem_filter.mp (List.mem_of_getLast? hlast)
    exact .inl ⟨r, hr, by simpa using hrh, hcall⟩

theorem Base.finish (hs : Base s) (hp : Ends s h p fault batch before after) (hlive : ∀ e, ¬ FaultLeft s h e) (hpending : h ∉ ids s.pending) :
    Base (s.finish h p fault now) := by
  have htook := hp.took
  have htaker : h ∈ takers s.log := mem_takers.mpr ⟨batch, htook⟩
  have hlog : (s.finish h p fault now).log = s.log ++ (fault.map (Event.faulted h)).toList := rfl
  have htaken : taken (s.finish h p fault now).log = taken s.log := by
    rw [hlog, taken_append]
    cases fault <;> simp [taken, Event.taken]
  have htakers : takers (s.finish h p fault now).log = takers s.log := by
    rw [hlog, takers_append]
    cases fault <;> simp [takers, Event.taker]
  have hold {x : Event} (hx : x ∈ s.log) : x ∈ (s.finish h p fault now).log := List.mem_append_left _ hx
  have hbatch {i : Nat} (hi : i ∈ ids batch) : i ∈ taken s.log := mem_taken.mpr ⟨h, batch, htook, hi⟩
  have hsame {i : Nat} (hi : i ∉ ids batch) : (s.finish h p fault now).done i = s.done i := by
    rcases finish_done now hp i with ⟨-, r, hr, rfl, -⟩ | ⟨-, hdone⟩
    · exact absurd (hp.result_in hr) hi
    · exact hdone
  constructor
  case fresh =>
    intro i hi
    have hfree := hs.next_free hi
    have hne : i ≠ h := by
      rintro rfl
      exact absurd (hs.holders i htaker).1 (Nat.not_lt.mpr hi)
    rw [finish_calls_of_ne hne, hsame fun hin => hfree (List.mem_append_left _ (hbatch hin))]
    exact hs.fresh i hi
  case pending =>
    intro x hx
    obtain ⟨hlt, hqueued, hdone, hcall⟩ := hs.pending x hx
    have hin : x.1 ∈ ids s.pending := List.mem_map_of_mem hx
    have hne : x.1 ≠ h := fun heq => hpending (heq ▸ hin)
    have hout : x.1 ∉ ids batch := fun hb => (List.nodup_append.mp hs.once).2.2 _ (hbatch hb) _ hin rfl
    refine ⟨hlt, hold hqueued, ?_, ?_⟩
    · rw [hsame hout]
      exact hdone
    · rw [finish_calls_of_ne hne]
      exact hcall
  case known => rw [htaken]; exact hs.known
  case once => rw [htaken]; exact hs.once
  case single => rw [htakers]; exact hs.single
  case holders =>
    rw [htakers]
    intro k hk
    refine ⟨(hs.holders k hk).1, fun t => ?_⟩
    by_cases heq : k = h
    · subst heq
      rcases finish_own now hp with ⟨r, -, -, hcall⟩ | ⟨-, hcall⟩ <;> rw [hcall] <;> simp
    · rw [finish_calls_of_ne heq]
      exact (hs.holders k hk).2 t
  case traced =>
    rw [htakers]
    intro x hx k hk
    rcases List.mem_append.mp hx with hx | hx
    · exact hs.traced x hx k hk
    · cases fault with
      | none => cases hx
      | some e =>
        obtain rfl : x = .faulted h e := by simpa using hx
        exact Option.some.inj hk ▸ htaker
  case left =>
    intro i r hr
    rw [htaken]
    rcases finish_done now hp i with ⟨-, q, hq, rfl, hdone⟩ | ⟨-, hdone⟩
    · rw [hdone, Option.some.injEq] at hr
      subst hr
      exact ⟨hbatch (hp.result_in hq), fun x hx => (hp.result_earned hq hx).append _⟩
    · rw [hdone] at hr
      exact ⟨(hs.left i r hr).1, fun x hx => ((hs.left i r hr).2 x hx).append _⟩
  case earned =>
    intro i x hx
    by_cases heq : i = h
    · subst heq
      rcases finish_own now hp with ⟨r, hr, rfl, hcall⟩ | ⟨-, hcall⟩
      · rw [hcall, Option.some.injEq, Phase.returned.injEq] at hx
        cases hres : r.2 with
        | error e =>
          rw [hres] at hx
          cases hx
        | ok y => exact (hp.result_earned hr hres).append _
      · rw [hcall] at hx
        cases hx
    · rw [finish_calls_of_ne heq] at hx
      exact (hs.earned i x hx).append _
  case faults =>
    intro k e he b hb i hi hnot
    have hb' : Event.took k b ∈ s.log := by
      rcases List.mem_append.mp hb with hb | hb
      · exact hb
      · cases fault <;> simp at hb
    have hnot' : Event.covered k i ∉ s.log := fun hc => hnot (hold hc)
    rcases List.mem_append.mp he with hwas | hnew
    · have hleft := hs.faults k e hwas b hb' i hi hnot'
      have hne : i ≠ h := by
        rintro rfl
        exact hlive e hleft
      have hout : i ∉ ids batch := fun hin => by
        obtain ⟨rfl, -⟩ := batch_unique (List.nodup_append.mp hs.once).1 hb' htook hi hin
        exact hp.quiet e hwas
      rw [FaultLeft, finish_calls_of_ne hne, hsame hout]
      exact hleft
    · cases fault with
      | none => cases hnew
      | some e' =>
        obtain ⟨rfl, rfl⟩ : k = h ∧ e = e' := by simpa using hnew
        obtain rfl := took_unique hs.single hb' htook
        by_cases heq : i = k
        · subst heq
          rcases finish_own now hp with ⟨r, hr, hri, hcall⟩ | ⟨hout, -⟩
          · refine .inl ?_
            rw [hcall, hp.result_fault hr rfl (hri.symm ▸ hnot')]
            rfl
          · exact absurd hi hout
        · rcases finish_done now hp i with ⟨-, r, hr, hri, hdone⟩ | ⟨hnone, -⟩
          · rw [hp.result_fault hr rfl (hri.symm ▸ hnot')] at hdone
            rw [FaultLeft, finish_calls_of_ne heq, hdone]
            rcases (hp.unanswered i hi heq).2 with hwaiting | hdropped
            · exact .inr (.inr ⟨hwaiting, rfl⟩)
            · exact .inr (.inl hdropped)
          · exact absurd hi (hnone.resolve_left heq)

end

/-! ## One move -/

section
variable {now : Nat}

theorem Base.not_pending (hs : Base s) (hcall : s.calls h ≠ some .dropped) (hwait : ∀ t, s.calls h ≠ some (.waiting t)) : h ∉ ids s.pending := by
  intro hin
  obtain ⟨x, hx, rfl⟩ := List.mem_map.mp hin
  rcases (hs.pending x hx).2.2.2 with ⟨t, ht⟩ | hdropped
  · exact hwait t ht
  · exact hcall hdropped

theorem Base.passing_lt (hs : Base s) (hcall : s.calls h = some (.passing p)) : h < s.next := by
  by_contra hge
  rw [(hs.fresh h (Nat.le_of_not_lt hge)).1] at hcall
  cases hcall

theorem not_fault_left (hcall : s.calls h = some (.passing p)) (e : String) : ¬ FaultLeft s h e := by
  rintro (hret | hdropped | ⟨⟨t, ht⟩, -⟩)
  · rw [hcall] at hret; cases hret
  · rw [hcall] at hdropped; cases hdropped
  · rw [hcall] at ht; cases ht

variable {q : Pass π}

theorem Base.finish_kept (hs : Base s) (hcall : s.calls h = some (.passing p)) (hq : Ends s h q fault batch before after)
    (honly : ∀ k r, s.calls k = some (.passing r) → k = h) : Kept (s.finish h q fault now) := by
  have hpending : h ∉ ids s.pending := hs.not_pending (by rw [hcall]; simp) (by rw [hcall]; simp)
  refine ⟨hs.finish hq (not_fault_left hcall) hpending, fun _ h => (by cases h), fun k r hk => ?_⟩
  by_cases heq : k = h
  · subst heq
    rcases finish_own now hq with ⟨r', -, -, hret⟩ | ⟨-, hret⟩ <;> rw [hret] at hk <;> cases hk
  · rw [finish_calls_of_ne heq] at hk
    exact absurd (honly k r hk) heq

theorem Tracks.setCall (hp : Tracks s h p batch before after) {q : Phase π} : Tracks (s.setCall h q) h p batch before after := by
  refine ⟨hp.log, hp.queued, hp.unchecked, hp.live, hp.whole, hp.covered, hp.games, hp.quiet, fun i hi hne => ?_⟩
  have hcall : (s.setCall h q).calls i = s.calls i := Function.update_of_ne hne ..
  rw [Unanswered, hcall]
  exact hp.unanswered i hi hne

theorem Base.go_kept (hs : Base s) (hcall : s.calls h = some (.passing p)) (hholder : s.holder = some h) (hq : Tracks s h q batch before after)
    (honly : ∀ k r, s.calls k = some (.passing r) → k = h) : Kept (s.go h q now) := by
  rw [Burst.go]
  split
  · rename_i hended
    simp only [Pass.ended, Bool.and_eq_true, List.isEmpty_iff] at hended
    exact hs.finish_kept hcall ⟨hq, hended.1, fun _ => hended.2⟩ honly
  · rename_i hended
    have hpending : h ∉ ids s.pending := hs.not_pending (by rw [hcall]; simp) (by rw [hcall]; simp)
    have hself : (s.setCall h (.passing q)).calls h = some (.passing q) := Function.update_self ..
    refine ⟨hs.setCall (hs.passing_lt hcall) (by simp) (by simp) (fun hin => absurd hin hpending) fun e he => absurd he (not_fault_left hcall e), fun k hk => ?_, fun k r hk => ?_⟩
    · obtain rfl : h = k := Option.some.inj (hholder.symm.trans hk)
      exact ⟨q, hself⟩
    · by_cases heq : k = h
      · subst heq
        obtain rfl : q = r := by
          rw [hself] at hk
          exact Phase.passing.inj (Option.some.inj hk)
        exact ⟨hholder, by simpa using hended, batch, before, after, hq.setCall⟩
      · have hk' : s.calls k = some (.passing r) := (Function.update_of_ne heq ..).symm.trans hk
        exact absurd (honly k r hk') heq

theorem Kept.only (hs : Kept s) (hcall : s.calls h = some (.passing p)) (k : Nat) (r : Pass π) (hk : s.calls k = some (.passing r)) : k = h :=
  Option.some.inj ((hs.passing k r hk).1.symm.trans (hs.passing h p hcall).1)

theorem Kept.enter (hs : Kept s) (item : Item) : Kept (s.enter item now) := by
  have hself : (s.enter item now).calls s.next = some (.waiting now) := Function.update_self ..
  have hother {i : Nat} (hi : i ≠ s.next) : (s.enter item now).calls i = s.calls i := Function.update_of_ne hi ..
  have hlog : (s.enter item now).log = s.log ++ [.queued s.next item] := rfl
  have htaken : taken (s.enter item now).log = taken s.log := by rw [hlog, taken_append]; simp [taken, Event.taken]
  have htakers : takers (s.enter item now).log = takers s.log := by rw [hlog, takers_append]; simp [takers, Event.taker]
  have hmem {e : Event} (he : e ∈ (s.enter item now).log) (hholder : e.holder ≠ none) : e ∈ s.log := by
    rcases List.mem_append.mp he with he | he
    · exact he
    · obtain rfl : e = .queued s.next item := by simpa using he
      exact absurd rfl hholder
  have hkeeps {i : Nat} (hi : i < s.next) (hun : Unanswered s i) : Unanswered (s.enter item now) i := by
    rw [Unanswered, hother (Nat.ne_of_lt hi)]
    exact hun
  refine ⟨⟨fun i hi => ?_, fun x hx => ?_, ?_, ?_, ?_, ?_, ?_, ?_, fun i x hx => ?_, fun k e he b hb i hi hnot => ?_⟩, fun k hk => ?_, fun k r hk => ?_⟩
  · have hi' : s.next + 1 ≤ i := hi
    rw [hother (by omega)]
    exact hs.fresh i (by omega)
  · rcases List.mem_append.mp hx with hx | hx
    · obtain ⟨hlt, hqueued, hun⟩ := hs.pending x hx
      exact ⟨Nat.lt_succ_of_lt hlt, List.mem_append_left _ hqueued, hkeeps hlt hun⟩
    · obtain rfl : x = (s.next, item) := by simpa using hx
      exact ⟨Nat.lt_succ_self _, List.mem_append_right _ List.mem_cons_self, (hs.fresh _ le_rfl).2, .inl ⟨now, hself⟩⟩
  · rw [htaken]
    exact fun i hi => Nat.lt_succ_of_lt (hs.known i hi)
  · have hids : ids (s.enter item now).pending = ids s.pending ++ [s.next] := by simp [ids, Burst.enter]
    rw [htaken, hids, ← List.append_assoc]
    exact List.nodup_append.mpr ⟨hs.once, List.nodup_singleton _, fun a ha b hb => by
      rw [List.mem_singleton.mp hb]
      exact fun heq => hs.next_free le_rfl (heq ▸ ha)⟩
  · rw [htakers]
    exact hs.single
  · rw [htakers]
    intro k hk
    obtain ⟨hlt, hwait⟩ := hs.holders k hk
    refine ⟨Nat.lt_succ_of_lt hlt, fun t => ?_⟩
    rw [hother (Nat.ne_of_lt hlt)]
    exact hwait t
  · rw [htakers]
    intro e he k hk
    exact hs.traced e (hmem he (by rw [Option.mem_def.mp hk]; simp)) k hk
  · rw [htaken]
    exact fun i r hr => ⟨(hs.left i r hr).1, fun x hx => ((hs.left i r hr).2 x hx).append _⟩
  · by_cases heq : i = s.next
    · rw [heq, hself] at hx
      cases hx
    · rw [hother heq] at hx
      exact (hs.earned i x hx).append _
  · have hb' := hmem hb (fun h => (by cases h))
    have hleft := hs.faults k e (hmem he (fun h => (by cases h))) b hb' i hi fun hc => hnot (List.mem_append_left _ hc)
    have hlt := hs.known i (mem_taken.mpr ⟨k, b, hb', hi⟩)
    rw [FaultLeft, hother (Nat.ne_of_lt hlt)]
    exact hleft
  · obtain ⟨r, hr⟩ := hs.holder k hk
    exact ⟨r, by rw [hother (Nat.ne_of_lt (hs.passing_lt hr)), hr]⟩
  · have hne : k ≠ s.next := by
      rintro rfl
      rw [hself] at hk
      cases hk
    rw [hother hne] at hk
    obtain ⟨hholder, hended, batch, before, after, hp⟩ := hs.passing k r hk
    refine ⟨hholder, hended, batch, before, after ++ [.queued s.next item], ?_, hp.queued, hp.unchecked, hp.live, hp.whole, fun i => ?_, fun hun l hl g hg => ?_, fun e he => ?_, fun i hi hik => ?_⟩
    · rw [hlog, hp.log, List.append_assoc, List.cons_append]
    · simpa using hp.covered i
    · rcases hp.games hun l hl g hg with hleft | ⟨chunk, hchunk, hgc⟩
      · exact .inl hleft
      · exact .inr ⟨chunk, List.mem_append_left _ hchunk, hgc⟩
    · exact hp.quiet e (hmem he (fun h => (by cases h)))
    · exact hkeeps (hs.known i (mem_taken.mpr ⟨k, batch, hp.log ▸ List.mem_append_right _ List.mem_cons_self, hi⟩)) (hp.unanswered i hi hik)

theorem Kept.answered (hs : Kept s) {r : Result π} (hcall : s.calls id = some (.waiting entered)) (hdone : s.done id = some r) :
    Kept (s.answered id entered now r) := by
  have hlt : id < s.next := by
    by_contra hge
    rw [(hs.fresh id (Nat.le_of_not_lt hge)).1] at hcall
    cases hcall
  have htaken := (hs.left id r hdone).1
  have hpending : id ∉ ids s.pending := fun hin => (List.nodup_append.mp hs.once).2.2 id htaken id hin rfl
  have hret : Base (s.setCall id (.returned (r.map fun r => (r.1.joined entered now, r.2)))) := hs.toBase.setCall hlt (by simp)
    (fun x hx => by
      cases r with
      | error e => cases hx
      | ok y => exact (hs.left id _ hdone).2 y rfl)
    (fun hin => absurd hin hpending)
    (fun e he => by
      rcases he with hret | hdropped | ⟨-, hleft⟩
      · rw [hcall] at hret; cases hret
      · rw [hcall] at hdropped; cases hdropped
      · rw [hdone, Option.some.injEq] at hleft
        exact .inl (by rw [hleft]; rfl))
  have hself : (s.answered id entered now r).calls id = some (.returned (r.map fun r => (r.1.joined entered now, r.2))) := Function.update_self ..
  have hother {i : Nat} (hi : i ≠ id) : (s.answered id entered now r).calls i = s.calls i ∧ (s.answered id entered now r).done i = s.done i :=
    ⟨Function.update_of_ne hi .., Function.update_of_ne hi ..⟩
  have hclear {i : Nat} {x : Result π} (hx : (s.answered id entered now r).done i = some x) : i ≠ id ∧ s.done i = some x := by
    by_cases heq : i = id
    · have hnone : (s.answered id entered now r).done i = none := heq ▸ Function.update_self ..
      rw [hnone] at hx
      cases hx
    · exact ⟨heq, (hother heq).2 ▸ hx⟩
  refine ⟨⟨fun i hi => ?_, fun x hx => ?_, hret.known, hret.once, hret.single, hret.holders, hret.traced, fun i x hx => hs.left i x (hclear hx).2,
    hret.earned, fun k e he b hb i hi hnot => ?_⟩, fun k hk => ?_, fun k q hk => ?_⟩
  · have hne : i ≠ id := by
      rintro rfl
      exact absurd hlt (Nat.not_lt.mpr hi)
    rw [(hother hne).1, (hother hne).2]
    exact hs.fresh i hi
  · obtain ⟨hxlt, hqueued, hun⟩ := hs.pending x hx
    have hne : x.1 ≠ id := fun heq => hpending (heq ▸ List.mem_map_of_mem hx)
    refine ⟨hxlt, hqueued, ?_⟩
    rw [Unanswered, (hother hne).1, (hother hne).2]
    exact hun
  · have hleft := hret.faults k e he b hb i hi hnot
    by_cases heq : i = id
    · subst heq
      rcases hleft with hleft | hdropped | ⟨⟨t, ht⟩, -⟩
      · exact .inl hleft
      · exact .inr (.inl hdropped)
      · have hphase : (s.setCall i (.returned (r.map fun r => (r.1.joined entered now, r.2)))).calls i = some (.returned _) := Function.update_self ..
        rw [hphase] at ht
        cases ht
    · rw [FaultLeft, (hother heq).1, (hother heq).2]
      exact hs.faults k e he b hb i hi hnot
  · obtain ⟨q, hq⟩ := hs.holder k hk
    have hne : k ≠ id := by
      rintro rfl
      rw [hcall] at hq
      cases hq
    exact ⟨q, (hother hne).1.trans hq⟩
  · have hne : k ≠ id := by
      rintro rfl
      rw [hself] at hk
      cases hk
    rw [(hother hne).1] at hk
    obtain ⟨hholder, hended, batch, before, after, hp⟩ := hs.passing k q hk
    refine ⟨hholder, hended, batch, before, after, hp.log, hp.queued, hp.unchecked, hp.live, hp.whole, hp.covered, hp.games, hp.quiet, fun i hi hik => ?_⟩
    have hun := hp.unanswered i hi hik
    have hne' : i ≠ id := by
      rintro rfl
      rw [hun.1] at hdone
      cases hdone
    rw [Unanswered, (hother hne').1, (hother hne').2]
    exact hun

theorem Kept.take (hs : Kept s) (hcall : s.calls id = some (.waiting entered)) (hdone : s.done id = none) (hfree : s.holder = none) :
    Kept (s.take id entered now) := by
  obtain ⟨q, hq⟩ : ∃ q : Pass π, q = { entered := entered, turned := now, size := s.pending.length, unchecked := s.pending } := ⟨_, rfl⟩
  have hlt : id < s.next := by
    by_contra hge
    rw [(hs.fresh id (Nat.le_of_not_lt hge)).1] at hcall
    cases hcall
  obtain ⟨t, ht⟩ : ∃ t : Burst π, t = { s with pending := [], holder := some id, log := s.log ++ [Event.took id s.pending], calls := Function.update s.calls id (some (.passing q)) } := ⟨_, rfl⟩
  have hnew : id ∉ takers s.log := fun hin => (hs.holders id hin).2 entered hcall
  have hgo : s.take id entered now = t.go id q now := by
    subst ht hq
    simp only [Burst.take, Burst.go, Burst.finish, Burst.setCall, Function.update_idem]
  have hself : t.calls id = some (.passing q) := ht ▸ Function.update_self ..
  have hother {i : Nat} (hi : i ≠ id) : t.calls i = s.calls i := ht ▸ Function.update_of_ne hi ..
  have hlog : t.log = s.log ++ [Event.took id s.pending] := by rw [ht]
  have htaken : taken t.log = taken s.log ++ ids s.pending := by rw [hlog, taken_append]; simp [taken, Event.taken]
  have htakers : takers t.log = takers s.log ++ [id] := by rw [hlog, takers_append]; simp [takers, Event.taker]
  have hdone' : t.done = s.done := by rw [ht]
  have hnext : t.next = s.next := by rw [ht]
  have hpend : t.pending = [] := by rw [ht]
  have hmem {e : Event} (he : e ∈ t.log) : e ∈ s.log ∨ e = .took id s.pending := by
    rw [hlog] at he
    simpa using he
  rw [hgo]
  have honly (k : Nat) (r : Pass π) (hk : t.calls k = some (.passing r)) : k = id := by
    by_contra hne
    rw [hother hne] at hk
    have hheld := (hs.passing k r hk).1
    rw [hfree] at hheld
    cases hheld
  have htracks : Tracks t id q s.pending s.log [] := by
    subst hq
    refine ⟨hlog, fun x hx => (hs.pending x hx).2.1, fun x hx => hx, fun _ h => (by cases h), List.Perm.refl _, fun i => by simp, fun _ => (by simp), fun e he => ?_, fun i hi hne => ?_⟩
    · rcases hmem he with he | he
      · exact hnew (hs.traced _ he id rfl)
      · cases he
    · obtain ⟨x, hx, rfl⟩ := List.mem_map.mp hi
      rw [Unanswered, hother hne, hdone']
      exact (hs.pending x hx).2.2
  have hbase : Base t := by
    refine ⟨fun i hi => ?_, fun x hx => ?_, ?_, ?_, ?_, ?_, ?_, ?_, fun i x hx => ?_, fun k e he b hb i hi hnot => ?_⟩
    · rw [hnext] at hi
      rw [hother (by rintro rfl; exact absurd hlt (Nat.not_lt.mpr hi)), hdone']
      exact hs.fresh i hi
    · rw [hpend] at hx
      cases hx
    · rw [htaken, hnext]
      intro i hi
      rcases List.mem_append.mp hi with hi | hi
      · exact hs.known i hi
      · obtain ⟨x, hx, rfl⟩ := List.mem_map.mp hi
        exact (hs.pending x hx).1
    · rw [htaken, hpend]
      simpa [ids] using hs.once
    · rw [htakers]
      exact List.nodup_append.mpr ⟨hs.single, List.nodup_singleton _, fun a ha b hb => by
        rw [List.mem_singleton.mp hb]
        exact fun heq => hnew (heq ▸ ha)⟩
    · rw [htakers, hnext]
      intro k hk
      by_cases heq : k = id
      · subst heq
        exact ⟨hlt, by rw [hself]; simp⟩
      · have hk' : k ∈ takers s.log := by simpa [heq] using hk
        rw [hother heq]
        exact hs.holders k hk'
    · rw [htakers]
      intro e he k hk
      rcases hmem he with he | rfl
      · exact List.mem_append_left _ (hs.traced e he k hk)
      · exact List.mem_append_right _ (by simpa [Event.holder, eq_comm] using hk)
    · rw [htaken, hdone', hlog]
      exact fun i r hr => ⟨List.mem_append_left _ (hs.left i r hr).1, fun x hx => ((hs.left i r hr).2 x hx).append _⟩
    · by_cases heq : i = id
      · rw [heq, hself] at hx
        cases hx
      · rw [hother heq] at hx
        rw [hlog]
        exact (hs.earned i x hx).append _
    · have he' : Event.faulted k e ∈ s.log := (hmem he).resolve_right (by simp)
      have hb' : Event.took k b ∈ s.log := by
        refine (hmem hb).resolve_right fun heq => ?_
        obtain ⟨rfl, -⟩ := Event.took.inj heq
        exact hnew (hs.traced _ he' k rfl)
      have hleft := hs.faults k e he' b hb' i hi fun hc => hnot (hlog ▸ List.mem_append_left _ hc)
      have hne : i ≠ id := by
        rintro rfl
        rcases hleft with hret | hdropped | ⟨-, hleft⟩
        · rw [hcall] at hret; cases hret
        · rw [hcall] at hdropped; cases hdropped
        · rw [hdone] at hleft; cases hleft
      rw [FaultLeft, hother hne, hdone']
      exact hleft
  exact hbase.go_kept hself (by rw [ht]) htracks honly

/-! ## The checks and the chunks -/

variable {g : String}

theorem mem_named {games named : List String} :
    g ∈ games.foldl (fun named g => if g ∈ named then named else named ++ [g]) named ↔ g ∈ named ∨ g ∈ games := by
  induction games generalizing named with
  | nil => simp
  | cons x games ih =>
    rw [List.foldl_cons, ih]
    by_cases hx : x ∈ named
    · rw [if_pos hx]
      constructor
      · exact fun h => h.imp_right (List.mem_cons_of_mem x)
      · rintro (h | h)
        · exact .inl h
        · rcases List.mem_cons.mp h with rfl | h
          · exact .inl hx
          · exact .inr h
    · rw [if_neg hx]
      simp [or_assoc]

variable {l : Nat × Item × Bool}

theorem mem_union (hl : l ∈ p.live) (hg : g ∈ lowered l.2.1.games) : g ∈ p.union := by
  have go (live : List (Nat × Item × Bool)) (named : List String) (h : g ∈ named ∨ ∃ l ∈ live, g ∈ lowered l.2.1.games) :
      g ∈ live.foldl (fun named l => (lowered l.2.1.games).foldl (fun named g => if g ∈ named then named else named ++ [g]) named) named := by
    induction live generalizing named with
    | nil => simpa using h
    | cons x live ih =>
      rw [List.foldl_cons]
      refine ih _ ?_
      rw [mem_named]
      rcases h with h | ⟨y, hy, hgy⟩
      · exact .inl (.inl h)
      · rcases List.mem_cons.mp hy with rfl | hy
        · exact .inl (.inr hgy)
        · exact .inr ⟨y, hy, hgy⟩
  exact go p.live [] (.inr ⟨l, hl, hg⟩)

@[simp] theorem chunked_unchecked (q : Pass π) : q.chunked.unchecked = q.unchecked := by rw [Pass.chunked]; split <;> rfl
@[simp] theorem chunked_live (q : Pass π) : q.chunked.live = q.live := by rw [Pass.chunked]; split <;> rfl
@[simp] theorem chunked_out (q : Pass π) : q.chunked.out = q.out := by rw [Pass.chunked]; split <;> rfl

theorem chunked_left (hq : q.unchecked = []) (hl : l ∈ q.live) (hg : g ∈ lowered l.2.1.games) :
    ∃ chunk ∈ q.chunked.left, g ∈ chunk := by
  rw [Pass.chunked, hq]
  exact Chunks.mem_chunks (by decide) (mem_union hl hg)

def coveredEvents (h i : Nat) (item : Item) (covered : Bool) : List Event :=
  if item.bound.isSome && !item.games.isEmpty && covered then [.covered h i] else []

theorem mem_coveredEvents {item : Item} {covered : Bool} {e : Event} (he : e ∈ coveredEvents h i item covered) : e = .covered h i := by
  rw [coveredEvents] at he
  split at he
  · exact List.mem_singleton.mp he
  · cases he

theorem Tracks.check (hp : Tracks s h p batch before after) {item : Item} {rest : List (Nat × Item)} (hun : p.unchecked = (i, item) :: rest)
    (first covered : Bool) : Tracks { s with log := s.log ++ coveredEvents h i item covered } h (p.check first covered) batch before
      (after ++ coveredEvents h i item covered) := by
  have hwhole := hp.whole
  rw [hun] at hwhole
  have hmem : (i, item) ∈ batch := hp.unchecked _ (hun ▸ List.mem_cons_self)
  have hrest (x : Nat × Item) (hx : x ∈ rest) : x ∈ batch := hp.unchecked x (hun ▸ List.mem_cons_of_mem _ hx)
  have hlog : s.log ++ coveredEvents h i item covered = before ++ Event.took h batch :: (after ++ coveredEvents h i item covered) := by
    rw [hp.log, List.append_assoc, List.cons_append]
  have hquiet (e : String) : Event.faulted h e ∉ s.log ++ coveredEvents h i item covered := fun he =>
    (List.mem_append.mp he).elim (hp.quiet e) fun he => by cases mem_coveredEvents he
  by_cases hcov : (item.bound.isSome && !item.games.isEmpty && covered) = true
  · have hevents : coveredEvents h i item covered = [.covered h i] := if_pos hcov
    have hq : p.check first covered = Pass.chunked { p with unchecked := rest, out := p.out ++
        [(i, .ok ({ appliedGames := lowered item.games, skipped := true, firstApply := item.kindSeq.isNone || first }, []))] } := by
      rw [Pass.check, hun]
      simp only [hcov, if_true]
    rw [hq]
    refine ⟨hlog, hp.queued, by simpa using hrest, by simpa using hp.live, ?_, fun id => ?_, fun hnil l hl g hg => ?_, hquiet, hp.unanswered⟩
    · refine hwhole.trans ?_
      simp only [chunked_out, chunked_live, chunked_unchecked, List.map_append, List.map_cons, List.map_nil, ids]
      refine List.perm_middle.trans ?_
      simp only [List.append_assoc, List.cons_append, List.nil_append]
      exact List.perm_middle.symm
    · rw [hevents, chunked_out, List.map_append, List.mem_append, List.mem_append, hp.covered]
      simp
    · simp only [chunked_unchecked, chunked_live] at hnil hl
      refine .inl ?_
      apply chunked_left
      · exact hnil
      · exact hl
      · exact hg
  · have hevents : coveredEvents h i item covered = [] := if_neg hcov
    have hq : p.check first covered = Pass.chunked { p with unchecked := rest, live := p.live ++ [(i, item, item.kindSeq.isNone || first)] } := by
      rw [Pass.check, hun]
      simp only [hcov]
      rfl
    rw [hq]
    refine ⟨hlog, hp.queued, by simpa using hrest, ?_, ?_, fun id => ?_, fun hnil l hl g hg => ?_, hquiet, hp.unanswered⟩
    · intro l hl
      rw [chunked_live, List.mem_append, List.mem_singleton] at hl
      rcases hl with hl | rfl
      · exact hp.live l hl
      · exact hmem
    · refine hwhole.trans ?_
      simp only [chunked_out, chunked_live, chunked_unchecked, List.map_append, List.map_cons, List.map_nil, ids]
      simp only [List.append_assoc, List.cons_append, List.nil_append]
      exact List.Perm.refl _
    · rw [hevents, List.append_nil, chunked_out]
      exact hp.covered id
    · simp only [chunked_unchecked, chunked_live] at hnil hl
      refine .inl ?_
      apply chunked_left
      · exact hnil
      · exact hl
      · exact hg

theorem Tracks.apply (hp : Tracks s h p batch before after) {chunk : List String} {rest : List (List String)} (hun : p.unchecked = []) (hleft : p.left = chunk :: rest)
    (report : Report) (pushes : List π) : Tracks (s.write (.applied h chunk)) h (p.apply report pushes) batch before (after ++ [.applied h chunk]) := by
  refine ⟨?_, hp.queued, hp.unchecked, hp.live, hp.whole, fun i => ?_, fun _ l hl g hg => ?_, fun e he => ?_, hp.unanswered⟩
  · rw [Burst.write, hp.log, List.append_assoc, List.cons_append]
  · simpa [Pass.apply] using hp.covered i
  · rcases hp.games hun l hl g hg with ⟨c, hc, hgc⟩ | ⟨c, hc, hgc⟩
    · rw [hleft] at hc
      rcases List.mem_cons.mp hc with rfl | hc
      · exact .inr ⟨c, List.mem_append_right _ List.mem_cons_self, hgc⟩
      · exact .inl ⟨c, by rw [Pass.apply, hleft]; exact hc, hgc⟩
    · exact .inr ⟨c, List.mem_append_left _ hc, hgc⟩
  · rcases List.mem_append.mp he with he | he
    · exact hp.quiet e he
    · cases List.mem_singleton.mp he

theorem Kept.check (hs : Kept s) (first covered : Bool) : Kept (s.check id first covered now) := by
  rw [Burst.check]
  split
  · rename_i p hcall
    split
    · exact hs
    · rename_i i item rest hun
      obtain ⟨hholder, -, batch, before, after, hp⟩ := hs.passing id p hcall
      have htaker : id ∈ takers s.log := mem_takers.mpr ⟨batch, hp.log ▸ List.mem_append_right before List.mem_cons_self⟩
      have hnext := hp.check hun first covered
      rw [coveredEvents] at hnext
      split at hnext
      · rename_i hcov
        simp only [hcov, if_true]
        exact (hs.toBase.write rfl rfl (fun x => by simp) htaker).go_kept hcall hholder hnext (hs.only hcall)
      · rename_i hcov
        simp only [hcov]
        rw [List.append_nil, List.append_nil] at hnext
        exact hs.toBase.go_kept hcall hholder hnext (hs.only hcall)
  · exact hs

theorem Kept.apply (hs : Kept s) (publish : Bool) (answer : Except String (Report × List π)) (asks : Except String Nat) :
    Kept (s.apply publish id answer asks now) := by
  rw [Burst.apply]
  split
  · rename_i p hcall
    split
    · rename_i chunk rest hun hleft
      obtain ⟨hholder, -, batch, before, after, hp⟩ := hs.passing id p hcall
      have htaker : id ∈ takers s.log := mem_takers.mpr ⟨batch, hp.log ▸ List.mem_append_right before List.mem_cons_self⟩
      split
      · exact hs.toBase.finish_kept hcall ⟨hp, hun, fun h => (by cases h)⟩ (hs.only hcall)
      · rename_i report pushes _
        exact (hs.toBase.write rfl rfl (fun x => by simp) htaker).go_kept hcall hholder (hp.apply hun hleft report pushes) (hs.only hcall)
    · exact hs
  · exact hs

theorem Kept.poll (hs : Kept s) : Kept (s.poll id now) := by
  rw [Burst.poll]
  split
  · rename_i entered hcall
    split
    · rename_i r hdone
      exact hs.answered hcall hdone
    · rename_i hdone
      by_cases hfree : s.holder = none
      · rw [if_pos (by rw [hfree]; rfl)]
        exact hs.take hcall hdone hfree
      · rw [if_neg (by simpa using hfree)]
        exact hs
  · exact hs

theorem Kept.drop (hs : Kept s) : Kept (s.drop id) := by
  have hself : (s.setCall id .dropped).calls id = some .dropped := Function.update_self ..
  have hother {i : Nat} (hi : i ≠ id) : (s.setCall id .dropped).calls i = s.calls i := Function.update_of_ne hi ..
  have hbase (hlt : id < s.next) : Base (s.setCall id .dropped) := hs.toBase.setCall hlt (by simp) (by simp) (fun _ => rfl) fun _ _ => .inr rfl
  have hlt (phase : Phase π) (hcall : s.calls id = some phase) : id < s.next := by
    by_contra hge
    rw [(hs.fresh id (Nat.le_of_not_lt hge)).1] at hcall
    cases hcall
  rw [Burst.drop]
  split
  · rename_i entered hcall
    refine ⟨hbase (hlt _ hcall), fun k hk => ?_, fun k q hk => ?_⟩
    · obtain ⟨q, hq⟩ := hs.holder k hk
      have hne : k ≠ id := by
        rintro rfl
        rw [hcall] at hq
        cases hq
      exact ⟨q, (hother hne).trans hq⟩
    · have hne : k ≠ id := by
        rintro rfl
        rw [hself] at hk
        cases hk
      rw [hother hne] at hk
      obtain ⟨hholder, hended, batch, before, after, hp⟩ := hs.passing k q hk
      refine ⟨hholder, hended, batch, before, after, hp.log, hp.queued, hp.unchecked, hp.live, hp.whole, hp.covered, hp.games, hp.quiet, fun i hi hik => ?_⟩
      by_cases heq : i = id
      · subst heq
        exact ⟨(hp.unanswered i hi hik).1, .inr hself⟩
      · rw [Unanswered, hother heq]
        exact hp.unanswered i hi hik
  · rename_i p hcall
    have hdropped := hbase (hlt _ hcall)
    refine ⟨⟨hdropped.fresh, hdropped.pending, hdropped.known, hdropped.once, hdropped.single, hdropped.holders, hdropped.traced, hdropped.left,
      hdropped.earned, hdropped.faults⟩, fun _ h => (by cases h), fun k q hk => ?_⟩
    have hne : k ≠ id := by
      rintro rfl
      rw [hself] at hk
      cases hk
    rw [hother hne] at hk
    exact absurd (hs.only hcall k q hk) hne
  · exact hs

theorem Kept.step (hs : Kept s) (publish : Bool) (a : Act π) : Kept (s.step publish a) := by
  cases a with
  | enter item now => exact hs.enter item
  | poll id now wake => exact hs.poll
  | check id first covered now wake => exact hs.check first covered
  | apply id answer asks now wake => exact hs.apply publish answer asks
  | drop id wake => exact hs.drop

theorem kept_init : Kept ({} : Burst π) where
  fresh _ _ := ⟨rfl, rfl⟩
  pending := fun _ h => (by cases h)
  known := fun _ h => (by cases h)
  once := List.nodup_nil
  single := List.nodup_nil
  holders := fun _ h => (by cases h)
  traced := fun _ h => (by cases h)
  left := by simp
  earned := by simp
  faults := by simp
  holder := fun _ h => (by cases h)
  passing := nofun

end

end OverlayEngine.BurstTurns
