import Mathlib.Data.List.AList
import Mathlib.Data.List.Dedup
import OverlayEngine.Basis.Chunks
import OverlayEngine.Basis.Runs

/-!
# The tip alarm's gates

`alarm`, `arm_tip_alarm` and the end of `apply_route` of
`crates/low-app-layer/src/owed_actor/object.rs`, with `tip_window`,
`GATED_GAMES_SQL`, `NEXT_GATE_SQL` and `next_tip_alarm_ms` of `owed_actor.rs`,
for a bootstrapped actor: a row judged below its gate waits for the tip alarm.

Taken from outside: what an apply judges, whether it lands, the clock and the
tips. A row carries the tip of the judgement that wrote it (`judgedTip`), and
the actor a log of the applies that landed; no modelled step reads either.
-/

namespace OverlayEngine.TipGates

open Chunks (chunks flatten_chunks)

abbrev Game := String

structure Row where
  gameId : Game
  gateHeight : Option Nat := none
  family : String := "pot"
  claimable : Bool := false
  /-- `json_extract(facts,'$.status')`. -/
  status : Option String := none
  probeTip : Option Nat := none
  judgedTip : Option Nat := none

def Row.courierDated (r : Row) : Bool := r.family == "hop-stranded" && r.claimable && r.status != some "unspent"

def Row.waiting (r : Row) : Bool := r.gateHeight.any fun h => r.judgedTip.all (· < h)

def tipFaultsMax : Nat := 3
def gamesPerApply : Nat := 64
def blockMs : Nat := 600000
def kvCopyMinIntervalMs : Nat := 1000

/-- `GATED_GAMES_SQL` before its limit: the gates in `(last, tip]` and the sweeps dated below the tip. -/
def reached (rows : List Row) (tip : Nat) (last : Option Nat) : List Game :=
  ((rows.filter fun r =>
    r.gateHeight.any (fun h => h ≤ tip && last.all (· < h)) || (r.courierDated && r.probeTip.any (· < tip))).map Row.gameId).dedup

def gatedGames (rows : List Row) (tip : Nat) (last : Option Nat) : List Game := (reached rows tip last).take 1024

/-- `NEXT_GATE_SQL`: the next gate above the tip, and whether a courier-dated sweep is held. -/
def nextGate (rows : List Row) (tip : Option Nat) : Option Nat := ((rows.filterMap Row.gateHeight).filter fun h => tip.all (· < h)).min?

def sweepHeld (rows : List Row) : Bool := rows.any fun r => r.courierDated && r.probeTip.isSome

def nextTipAlarmMs (now : Nat) (tip nextGate : Option Nat) (sweeps : Bool) : Option Nat :=
  if sweeps then some (now + blockMs)
  else nextGate.map fun gate => now + (tip.elim 1 fun t => max (gate - t) 1) * blockMs

/-! ## The actor -/

abbrev Faults := AList fun _ : Game => Nat

inductive Entry where
  | applied (games : List Game)
  | alarm (landed faulted : List Game)

structure Actor where
  rows : List Row := []
  gate : Option Nat := none
  tipJudged : Option Nat := none
  tipFaults : Faults := ∅
  alarm : Option Nat := none
  log : List Entry := []

structure Landed where
  rows : List Row := []
  now : Nat := 0
  kvPutOff : Bool := false

namespace Actor

/-- `arm_tip_alarm`: an earlier alarm is kept. -/
def armTipAlarm (s : Actor) (tip : Option Nat) (now : Nat) : Actor :=
  match nextTipAlarmMs now tip (nextGate s.rows tip) (sweepHeld s.rows) with
  | some at_ => { s with gate := some at_, alarm := if s.alarm.all (at_ < ·) then some at_ else s.alarm }
  | none => { s with gate := none }

def judgedRows (games : List Game) (tip : Option Nat) (rows : List Row) : List Row :=
  (rows.filter fun r => games.contains r.gameId).map fun r => { r with judgedTip := tip }

def clearTipFaults (faults : Faults) (games : List Game) : Faults := games.foldl (fun f g => f.erase g) faults

/-- The end of `apply_route` before it arms. -/
def land (s : Actor) (games : List Game) (tip : Option Nat) (l : Landed) : Actor :=
  { s with
    rows := s.rows.filter (fun r => !games.contains r.gameId) ++ judgedRows games tip l.rows
    tipFaults := clearTipFaults s.tipFaults games
    alarm := if l.kvPutOff then some (l.now + kvCopyMinIntervalMs) else s.alarm }

/-- `apply_route` where the apply landed. -/
def applyRoute (s : Actor) (games : List Game) (tip : Option Nat) (l : Landed) : Actor := (s.land games tip l).armTipAlarm tip l.now

end Actor

/-- `tip_window` as it goes; `landed` lists the games whose apply landed. -/
structure Window where
  actor : Actor
  faults : Faults
  faulted : List Game := []
  landed : List Game := []

namespace Window

variable (tip : Nat) (judge : List Game → Option Landed)

def attempt (w : Window) (games : List Game) : Option Window :=
  (judge games).map fun l =>
    { w with
      actor := w.actor.applyRoute games (some tip) l
      faults := Actor.clearTipFaults w.faults games
      landed := w.landed ++ games }

def fault (w : Window) (games : List Game) : Window := { w with faulted := w.faulted ++ games }

def single (w : Window) (g : Game) : Window := (w.attempt tip judge [g]).getD (w.fault [g])

def chunk (w : Window) (games : List Game) : Window :=
  (w.attempt tip judge games).getD (if 1 < games.length then games.foldl (single tip judge) w else w.fault games)

end Window

def windowGames (selected : List Game) (held : Faults) : List Game :=
  let carried := (held.entries.filter fun e => e.2 < tipFaultsMax && !selected.contains e.1).map Sigma.fst
  (selected ++ carried).filter fun g => (held.lookup g).all (· < tipFaultsMax)

def countFaults (faults : Faults) (faulted : List Game) (anyLanded : Bool) : Faults :=
  faulted.foldl (fun f g => f.insert g ((f.lookup g).getD 0 + if anyLanded then 1 else 0)) faults

namespace Actor

def tipWindow (s : Actor) (tip : Nat) (judge : List Game → Option Landed) : Window :=
  (chunks gamesPerApply (windowGames (gatedGames s.rows tip s.tipJudged) s.tipFaults)).foldl (Window.chunk tip judge) ⟨s, s.tipFaults, [], []⟩

def windowed (s : Actor) (tip : Nat) (judge : List Game → Option Landed) : Actor :=
  let w := s.tipWindow tip judge
  { w.actor with
    tipFaults := countFaults w.faults w.faulted (!w.landed.isEmpty)
    tipJudged := some tip
    log := .alarm w.landed w.faulted :: w.actor.log }

def duty (s : Actor) (tip : Option Nat) (judge : List Game → Option Landed) : Actor :=
  match tip with
  | some t => s.windowed t judge
  | none => s

def onAlarm (s : Actor) (tip : Option Nat) (judge : List Game → Option Landed) (now : Nat) : Actor :=
  let s := { s with alarm := none }
  if s.gate.isSome then (s.duty tip judge).armTipAlarm tip now else s

end Actor

/-- An apply (`none`: it faulted or was skipped), or the alarm firing. -/
inductive Move where
  | apply (games : List Game) (tip : Option Nat) (landed : Option Landed)
  | alarm (tip : Option Nat) (judge : List Game → Option Landed) (now : Nat)

namespace Actor

def step (s : Actor) : Move → Actor
  | .apply games tip landed => (landed.map fun l => { s.applyRoute games tip l with log := .applied games :: s.log }).getD s
  | .alarm tip judge now => if s.alarm.isSome then s.onAlarm tip judge now else s

def bootstrapped (rows : List Row) (tip : Option Nat) (now : Nat) : Actor := armTipAlarm { rows := rows } tip now

/-! ## What is watched -/

def parked (s : Actor) (g : Game) : Bool := (s.tipFaults.lookup g).any (tipFaultsMax ≤ ·)

def carried (s : Actor) (g : Game) : Bool := (s.tipFaults.lookup g).any (· < tipFaultsMax)

def inSight (s : Actor) (r : Row) : Bool := r.gateHeight.all fun h => s.tipJudged.all (· < h) || s.carried r.gameId

def needsAlarm (s : Actor) : Bool := (s.rows.any fun r => r.waiting && !s.parked r.gameId) || s.tipFaults.entries.any fun e => e.2 < tipFaultsMax

def Watched (s : Actor) : Prop :=
  (s.needsAlarm = true → s.gate.isSome = true ∧ s.alarm.isSome = true) ∧
    ∀ r ∈ s.rows, r.waiting = true → s.parked r.gameId = false → s.inSight r = true

def armMeets (s : Actor) (tip : Option Nat) : Bool := !s.needsAlarm || (nextGate s.rows tip).isSome || sweepHeld s.rows

def meets (s : Actor) : Move → Bool
  | .apply games tip landed =>
    landed.all fun l =>
      ((judgedRows games tip l.rows).all fun r => !r.waiting || r.gateHeight.all fun h => s.tipJudged.all (· < h)) && (s.land games tip l).armMeets tip
  | .alarm tip judge _ => s.alarm.isNone || s.gate.isNone || (({ s with alarm := none } : Actor).duty tip judge).armMeets tip

def fits (s : Actor) : Move → Bool
  | .alarm (some tip) _ _ => (reached s.rows tip s.tipJudged).length ≤ 1024
  | _ => true

def faultsSince (g : Game) : List Entry → Nat
  | [] => 0
  | .applied games :: older => if games.contains g then 0 else faultsSince g older
  | .alarm landed faulted :: older =>
    if landed.contains g then 0 else (if faulted.contains g && !landed.isEmpty then 1 else 0) + faultsSince g older

end Actor

/-! ## Arming -/

theorem nextTipAlarmMs_isSome (now : Nat) (tip gate : Option Nat) (sweeps : Bool) :
    (nextTipAlarmMs now tip gate sweeps).isSome = (gate.isSome || sweeps) := by
  unfold nextTipAlarmMs
  cases sweeps <;> cases gate <;> rfl

namespace Actor

variable {s : Actor}

theorem armTipAlarm_frame (s : Actor) (tip : Option Nat) (now : Nat) :
    (s.armTipAlarm tip now).rows = s.rows ∧ (s.armTipAlarm tip now).tipFaults = s.tipFaults ∧
      (s.armTipAlarm tip now).tipJudged = s.tipJudged ∧ (s.armTipAlarm tip now).log = s.log := by
  unfold armTipAlarm
  split
  · exact ⟨rfl, rfl, rfl, rfl⟩
  · exact ⟨rfl, rfl, rfl, rfl⟩

theorem armTipAlarm_set (s : Actor) (tip : Option Nat) (now : Nat) :
    ((s.armTipAlarm tip now).gate.isSome = true ∧ (s.armTipAlarm tip now).alarm.isSome = true) ↔
      ((nextGate s.rows tip).isSome || sweepHeld s.rows) = true := by
  have hnext := nextTipAlarmMs_isSome now tip (nextGate s.rows tip) (sweepHeld s.rows)
  unfold armTipAlarm
  cases h : nextTipAlarmMs now tip (nextGate s.rows tip) (sweepHeld s.rows) with
  | none =>
    rw [← hnext, h]
    exact iff_of_false (fun hset => by cases hset.1) (fun h => (by cases h))
  | some at_ =>
    rw [← hnext, h]
    refine iff_of_true ⟨rfl, ?_⟩ rfl
    cases halarm : s.alarm with
    | none => rfl
    | some held => by_cases hlt : at_ < held <;> simp [hlt]

def Placed (s : Actor) : Prop := ∀ r ∈ s.rows, r.waiting = true → s.parked r.gameId = false → s.inSight r = true

theorem placed_congr {s' : Actor} (hrows : s'.rows = s.rows) (hfaults : s'.tipFaults = s.tipFaults) (htip : s'.tipJudged = s.tipJudged) :
    s'.Placed ↔ s.Placed := by
  unfold Placed inSight carried parked
  rw [hrows, hfaults, htip]

theorem needsAlarm_congr {s' : Actor} (hrows : s'.rows = s.rows) (hfaults : s'.tipFaults = s.tipFaults) : s'.needsAlarm = s.needsAlarm := by
  unfold needsAlarm parked
  rw [hrows, hfaults]

theorem watched_armed (s : Actor) (tip : Option Nat) (now : Nat) (log : List Entry) :
    Watched { s.armTipAlarm tip now with log := log } ↔ s.armMeets tip = true ∧ s.Placed := by
  obtain ⟨hrows, hfaults, htip, -⟩ := armTipAlarm_frame s tip now
  have hneeds : needsAlarm { s.armTipAlarm tip now with log := log } = s.needsAlarm := needsAlarm_congr hrows hfaults
  have hplaced : Placed { s.armTipAlarm tip now with log := log } ↔ s.Placed := placed_congr hrows hfaults htip
  refine and_congr ?_ hplaced
  rw [hneeds, armTipAlarm_set, armMeets, Bool.or_assoc]
  cases s.needsAlarm <;> simp

/-! ## An apply -/

theorem lookup_clearTipFaults (faults : Faults) (games : List Game) (g : Game) :
    (clearTipFaults faults games).lookup g = if games.contains g then none else faults.lookup g := by
  unfold clearTipFaults
  induction games generalizing faults with
  | nil => rfl
  | cons g' games ih =>
    rw [List.foldl_cons, ih]
    by_cases hg : g = g'
    · subst hg
      simp [AList.lookup_erase]
    · simp [hg, AList.lookup_erase_ne hg]

theorem mem_land {games : List Game} {tip : Option Nat} {l : Landed} {r : Row} :
    r ∈ (s.land games tip l).rows ↔ r ∈ s.rows ∧ games.contains r.gameId = false ∨ r ∈ judgedRows games tip l.rows := by
  simp [land]

@[simp] theorem tipJudged_land (s : Actor) (games : List Game) (tip : Option Nat) (l : Landed) : (s.land games tip l).tipJudged = s.tipJudged := rfl

theorem judged_mem {games : List Game} {tip : Option Nat} {rows : List Row} {r : Row} (h : r ∈ judgedRows games tip rows) :
    games.contains r.gameId = true ∧ r.judgedTip = tip := by
  obtain ⟨r', hr', rfl⟩ := List.mem_map.mp h
  exact ⟨(List.mem_filter.mp hr').2, rfl⟩

theorem placed_land (h : s.Placed) (games : List Game) (tip : Option Nat) (l : Landed) :
    (s.land games tip l).Placed ↔
      ((judgedRows games tip l.rows).all fun r => !r.waiting || r.gateHeight.all fun h => s.tipJudged.all (· < h)) = true := by
  have hlookup (g : Game) : (s.land games tip l).tipFaults.lookup g = if games.contains g then none else s.tipFaults.lookup g :=
    lookup_clearTipFaults s.tipFaults games g
  rw [List.all_eq_true]
  constructor
  · intro hplaced r hr
    obtain ⟨hgame, -⟩ := judged_mem hr
    have hnone : (s.land games tip l).tipFaults.lookup r.gameId = none := by rw [hlookup, if_pos hgame]
    by_cases hwait : r.waiting = true
    · have hsight := hplaced r (mem_land.mpr (.inr hr)) hwait (by rw [parked, hnone]; rfl)
      rw [inSight, carried, hnone] at hsight
      rw [hwait]
      simpa using hsight
    · simp [hwait]
  · intro hall r hr hwait hpark
    rcases mem_land.mp hr with ⟨hold, hother⟩ | hnew
    · have hsame : (s.land games tip l).tipFaults.lookup r.gameId = s.tipFaults.lookup r.gameId := by rw [hlookup, hother]; rfl
      have hsight := h r hold hwait (by rw [parked, ← hsame]; exact hpark)
      rw [inSight, carried] at hsight ⊢
      rw [hsame]
      exact hsight
    · have hgate := hall r hnew
      rw [hwait] at hgate
      rw [inSight, carried]
      cases hh : r.gateHeight with
      | none => rfl
      | some gate => simpa [hh] using .inl (by simpa [hh] using hgate)

end Actor

/-! ## The window -/

structure Window.Tracks (s : Actor) (tip : Nat) (done : List Game) (w : Window) : Prop where
  games : ∀ g, g ∈ done ↔ g ∈ w.landed ∨ g ∈ w.faulted
  apart : ∀ g ∈ w.landed, g ∉ w.faulted
  once : w.faulted.Nodup
  faults : ∀ g, w.faults.lookup g = if w.landed.contains g then none else s.tipFaults.lookup g
  rows : ∀ r ∈ w.actor.rows, w.landed.contains r.gameId = true ∧ r.judgedTip = some tip ∨ w.landed.contains r.gameId = false ∧ r ∈ s.rows
  log : w.actor.log = s.log

namespace Window

variable {s : Actor} {tip : Nat} {judge : List Game → Option Landed} {done games : List Game} {w : Window}

theorem tracks_start (s : Actor) (tip : Nat) : Tracks s tip [] ⟨s, s.tipFaults, [], []⟩ :=
  ⟨fun g => by simp, fun _ h => (by cases h), List.nodup_nil, fun g => rfl, fun r hr => .inr ⟨rfl, hr⟩, rfl⟩

theorem Tracks.attempt (h : Tracks s tip done w) (hapart : (done ++ games).Nodup) {w' : Window} (hw : w.attempt tip judge games = some w') :
    Tracks s tip (done ++ games) w' := by
  obtain ⟨l, -, rfl⟩ := Option.map_eq_some_iff.mp hw
  obtain ⟨hrows, -, -, hlog⟩ := Actor.armTipAlarm_frame (w.actor.land games (some tip) l) (some tip) l.now
  refine ⟨fun g => ?_, fun g hg hfault => ?_, h.once, fun g => ?_, fun r hr => ?_, hlog.trans h.log⟩
  · have := h.games g
    simp only [List.mem_append]
    tauto
  · rcases List.mem_append.mp hg with hg | hg
    · exact h.apart g hg hfault
    · exact (List.nodup_append.mp hapart).2.2 g ((h.games g).mpr (.inr hfault)) g hg rfl
  · rw [Actor.lookup_clearTipFaults, h.faults g]
    by_cases hg : g ∈ games
    · simp [hg]
    · simp [hg]
  · have hr' : r ∈ (w.actor.land games (some tip) l).rows := hrows ▸ hr
    rcases Actor.mem_land.mp hr' with ⟨hold, hother⟩ | hnew
    · rcases h.rows r hold with ⟨hin, htip⟩ | ⟨hout, hkept⟩
      · exact .inl ⟨by simpa using .inl (by simpa using hin), htip⟩
      · exact .inr ⟨by simpa using ⟨by simpa using hout, by simpa using hother⟩, hkept⟩
    · obtain ⟨hin, htip⟩ := Actor.judged_mem hnew
      exact .inl ⟨by simpa using .inr (by simpa using hin), htip⟩

theorem Tracks.fault (h : Tracks s tip done w) (hapart : (done ++ games).Nodup) : Tracks s tip (done ++ games) (w.fault games) := by
  obtain ⟨-, hgames, hdisjoint⟩ := List.nodup_append.mp hapart
  refine ⟨fun g => ?_, fun g hg hfault => ?_, ?_, h.faults, h.rows, h.log⟩
  · have := h.games g
    simp only [Window.fault, List.mem_append]
    tauto
  · rcases List.mem_append.mp hfault with hold | hnew
    · exact h.apart g hg hold
    · exact hdisjoint g ((h.games g).mpr (.inl hg)) g hnew rfl
  · exact List.nodup_append.mpr ⟨h.once, hgames, fun g hg g' hg' => hdisjoint g ((h.games g).mpr (.inr hg)) g' hg'⟩

theorem Tracks.single {g : Game} (h : Tracks s tip done w) (hapart : (done ++ [g]).Nodup) :
    Tracks s tip (done ++ [g]) (w.single tip judge g) := by
  unfold Window.single
  cases hw : w.attempt tip judge [g] with
  | some w' => exact h.attempt hapart hw
  | none => exact h.fault hapart

theorem Tracks.singles (h : Tracks s tip done w) (hapart : (done ++ games).Nodup) :
    Tracks s tip (done ++ games) (games.foldl (Window.single tip judge) w) := by
  induction games generalizing done w with
  | nil => rwa [List.append_nil]
  | cons g games ih =>
    rw [List.append_cons] at hapart ⊢
    exact ih (h.single (List.nodup_append.mp hapart).1) hapart

theorem Tracks.chunk (h : Tracks s tip done w) (hapart : (done ++ games).Nodup) : Tracks s tip (done ++ games) (w.chunk tip judge games) := by
  unfold Window.chunk
  cases hw : w.attempt tip judge games with
  | some w' => exact h.attempt hapart hw
  | none =>
    show Tracks s tip (done ++ games) (if 1 < games.length then _ else _)
    split
    · exact h.singles hapart
    · exact h.fault hapart

theorem Tracks.chunks {parts : List (List Game)} (h : Tracks s tip done w) (hapart : (done ++ parts.flatten).Nodup) :
    Tracks s tip (done ++ parts.flatten) (parts.foldl (Window.chunk tip judge) w) := by
  induction parts generalizing done w with
  | nil => rwa [List.flatten_nil, List.append_nil]
  | cons part parts ih =>
    rw [List.flatten_cons, ← List.append_assoc] at hapart ⊢
    exact ih (h.chunk (List.nodup_append.mp hapart).1) hapart

end Window

theorem mem_entries {held : Faults} {e : (_ : Game) × Nat} : e ∈ held.entries ↔ held.lookup e.1 = some e.2 := (AList.mem_lookup_iff).symm

theorem mem_windowGames {selected : List Game} {held : Faults} {g : Game} :
    g ∈ windowGames selected held ↔
      (g ∈ selected ∨ (held.lookup g).isSome = true) ∧ (held.lookup g).all (· < tipFaultsMax) = true := by
  rw [windowGames, List.mem_filter]
  refine and_congr_left fun hpark => ?_
  rw [List.mem_append]
  constructor
  · rintro (hin | hin)
    · exact .inl hin
    · obtain ⟨e, he, rfl⟩ := List.mem_map.mp hin
      exact .inr (by rw [mem_entries.mp (List.mem_filter.mp he).1]; rfl)
  · rintro (hin | hheld)
    · exact .inl hin
    · by_cases hin : g ∈ selected
      · exact .inl hin
      · obtain ⟨n, hn⟩ := Option.isSome_iff_exists.mp hheld
        rw [hn] at hpark
        refine .inr (List.mem_map.mpr ⟨⟨g, n⟩, List.mem_filter.mpr ⟨mem_entries.mpr hn, ?_⟩, rfl⟩)
        simpa [hin] using hpark

theorem windowGames_nodup {selected : List Game} (h : selected.Nodup) (held : Faults) : (windowGames selected held).Nodup := by
  apply List.Nodup.filter
  refine List.nodup_append.mpr ⟨h, ?_, fun g hg g' hg' => ?_⟩
  · exact held.keys_nodup.sublist (List.filter_sublist.map Sigma.fst)
  · obtain ⟨e, he, rfl⟩ := List.mem_map.mp hg'
    rintro rfl
    simpa [hg] using (List.mem_filter.mp he).2

theorem lookup_countFaults {faulted : List Game} (h : faulted.Nodup) (faults : Faults) (anyLanded : Bool) (g : Game) :
    (countFaults faults faulted anyLanded).lookup g =
      if faulted.contains g then some ((faults.lookup g).getD 0 + if anyLanded then 1 else 0) else faults.lookup g := by
  unfold countFaults
  induction faulted generalizing faults with
  | nil => rfl
  | cons g' faulted ih =>
    obtain ⟨hout, hrest⟩ := List.nodup_cons.mp h
    rw [List.foldl_cons, ih hrest]
    by_cases hg : g = g'
    · subst hg
      simp [hout]
    · simp [hg, AList.lookup_insert_ne hg]

namespace Actor

variable {s : Actor}

theorem tipWindow_tracks (s : Actor) (tip : Nat) (judge : List Game → Option Landed) :
    Window.Tracks s tip (windowGames (gatedGames s.rows tip s.tipJudged) s.tipFaults) (s.tipWindow tip judge) := by
  have hnodup : (windowGames (gatedGames s.rows tip s.tipJudged) s.tipFaults).Nodup :=
    windowGames_nodup ((List.nodup_dedup _).sublist (List.take_sublist _ _)) _
  have hapart : ([] ++ (chunks gamesPerApply (windowGames (gatedGames s.rows tip s.tipJudged) s.tipFaults)).flatten).Nodup := by
    rw [flatten_chunks (by decide), List.nil_append]
    exact hnodup
  have h : Window.Tracks s tip _ (s.tipWindow tip judge) := Window.Tracks.chunks (Window.tracks_start s tip) hapart
  rw [flatten_chunks (by decide), List.nil_append] at h
  exact h

theorem lookup_windowed (s : Actor) (tip : Nat) (judge : List Game → Option Landed) (g : Game) :
    (s.windowed tip judge).tipFaults.lookup g =
      if (s.tipWindow tip judge).faulted.contains g then
        some ((s.tipFaults.lookup g).getD 0 + if (s.tipWindow tip judge).landed.isEmpty then 0 else 1)
      else if (s.tipWindow tip judge).landed.contains g then none else s.tipFaults.lookup g := by
  have h := tipWindow_tracks s tip judge
  have hcount := lookup_countFaults h.once (s.tipWindow tip judge).faults (!(s.tipWindow tip judge).landed.isEmpty) g
  refine hcount.trans ?_
  rw [h.faults]
  by_cases hfault : g ∈ (s.tipWindow tip judge).faulted
  · have hout : g ∉ (s.tipWindow tip judge).landed := fun hin => h.apart g hin hfault
    cases hempty : (s.tipWindow tip judge).landed.isEmpty <;> simp [hfault, hout]
  · simp [hfault]

theorem inSight_window {r : Row} {tip : Nat} (hfits : (reached s.rows tip s.tipJudged).length ≤ 1024) (hr : r ∈ s.rows)
    {h : Nat} (hgate : r.gateHeight = some h) (hle : h ≤ tip) (hpark : s.parked r.gameId = false) (hsight : s.inSight r = true) :
    r.gameId ∈ windowGames (gatedGames s.rows tip s.tipJudged) s.tipFaults := by
  have hunparked : (s.tipFaults.lookup r.gameId).all (· < tipFaultsMax) = true := by
    rw [parked] at hpark
    cases hheld : s.tipFaults.lookup r.gameId with
    | none => rfl
    | some n => simpa [hheld] using hpark
  refine mem_windowGames.mpr ⟨?_, hunparked⟩
  rw [inSight, hgate] at hsight
  simp only [Option.all_some, Bool.or_eq_true] at hsight
  rcases hsight with hpast | hcarried
  · left
    rw [gatedGames, List.take_of_length_le hfits, reached, List.mem_dedup]
    refine List.mem_map.mpr ⟨r, List.mem_filter.mpr ⟨hr, ?_⟩, rfl⟩
    simp [hgate, hle, hpast]
  · right
    rw [carried] at hcarried
    cases hheld : s.tipFaults.lookup r.gameId with
    | none => rw [hheld] at hcarried; cases hcarried
    | some n => rfl

theorem waiting_gate {r : Row} (h : r.waiting = true) : ∃ gate, r.gateHeight = some gate ∧ r.judgedTip.all (· < gate) = true := by
  unfold Row.waiting at h
  cases hgate : r.gateHeight with
  | none => rw [hgate] at h; cases h
  | some gate => exact ⟨gate, rfl, by simpa [hgate] using h⟩

theorem placed_windowed (h : s.Placed) {tip : Nat} (hfits : (reached s.rows tip s.tipJudged).length ≤ 1024)
    (judge : List Game → Option Landed) : (s.windowed tip judge).Placed := by
  have htracks := tipWindow_tracks s tip judge
  intro r hr hwait hpark
  obtain ⟨gate, hgate, hbelow⟩ := waiting_gate hwait
  have hsight : (s.windowed tip judge).inSight r = (decide (tip < gate) || (s.windowed tip judge).carried r.gameId) := by
    rw [inSight, hgate]
    rfl
  rw [hsight]
  by_cases hpast : tip < gate
  · rw [decide_eq_true hpast, Bool.true_or]
  rw [decide_eq_false hpast, Bool.false_or]
  rcases htracks.rows r hr with ⟨-, htip⟩ | ⟨hout, hold⟩
  · rw [htip] at hbelow
    exact absurd (by simpa using hbelow) hpast
  · have hlookup := lookup_windowed s tip judge r.gameId
    rw [hout] at hlookup
    by_cases hfault : (s.tipWindow tip judge).faulted.contains r.gameId = true
    · rw [if_pos hfault] at hlookup
      rw [parked, hlookup] at hpark
      rw [carried, hlookup]
      simp only [Option.any_some, decide_eq_false_iff_not, Nat.not_le] at hpark
      exact decide_eq_true hpark
    · -- the window left the game out: it was parked, and still is
      rw [if_neg hfault] at hlookup
      have hsame : (s.windowed tip judge).tipFaults.lookup r.gameId = s.tipFaults.lookup r.gameId := hlookup
      have hpark' : s.parked r.gameId = false := by rw [parked, ← hsame]; exact hpark
      have hin := inSight_window hfits hold hgate (Nat.not_lt.mp hpast) hpark' (h r hold hwait hpark')
      rcases (htracks.games r.gameId).mp hin with hland | hfault'
      · simp [hland] at hout
      · simp [hfault'] at hfault

/-! ## Steps and runs -/

theorem placed_duty (h : s.Placed) {tip : Option Nat} {judge : List Game → Option Landed} {now : Nat} (hfits : s.fits (.alarm tip judge now) = true) :
    (({ s with alarm := none } : Actor).duty tip judge).Placed := by
  have hplaced : ({ s with alarm := none } : Actor).Placed := h
  cases tip with
  | none => exact hplaced
  | some t => exact placed_windowed hplaced (of_decide_eq_true hfits) judge

theorem watched_step (h : s.Watched) {m : Move} (hfits : s.fits m = true) : (s.step m).Watched ↔ s.meets m = true := by
  cases m with
  | apply games tip landed =>
    cases landed with
    | none => exact iff_of_true h rfl
    | some l =>
      refine (watched_armed (s.land games tip l) tip l.now _).trans ?_
      rw [placed_land h.2 games tip l]
      show _ ↔ (_ && _) = true
      rw [Bool.and_eq_true, and_comm]
  | alarm tip judge now =>
    by_cases halarm : s.alarm.isSome = true
    · by_cases hgate : s.gate.isSome = true
      · have hstep : s.step (.alarm tip judge now) = (({ s with alarm := none } : Actor).duty tip judge).armTipAlarm tip now := by
          simp only [step, onAlarm, halarm, hgate, if_true]
        have hwatched := watched_armed (({ s with alarm := none } : Actor).duty tip judge) tip now
          ((({ s with alarm := none } : Actor).duty tip judge).armTipAlarm tip now).log
        rw [hstep]
        refine hwatched.trans ?_
        rw [and_iff_left (placed_duty h.2 hfits), meets]
        simp [Option.isSome_iff_ne_none.mp halarm, Option.isSome_iff_ne_none.mp hgate]
      · have hstep : s.step (.alarm tip judge now) = { s with alarm := none } := by
          simp only [step, onAlarm, halarm, if_true]
          exact if_neg hgate
        rw [hstep]
        refine iff_of_true ⟨fun hneeds => absurd (h.1 hneeds).1 hgate, h.2⟩ ?_
        simp [meets, (Option.not_isSome_iff_eq_none.mp hgate)]
    · have hstep : s.step (.alarm tip judge now) = s := if_neg halarm
      rw [hstep]
      exact iff_of_true h (by simp [meets, Option.not_isSome_iff_eq_none.mp halarm])

theorem watched_bootstrapped (rows : List Row) (tip : Option Nat) (now : Nat) :
    (bootstrapped rows tip now).Watched ↔ armMeets { rows := rows } tip = true := by
  have hplaced : ({ rows := rows } : Actor).Placed := by
    intro r hr hwait hpark
    unfold inSight
    cases r.gateHeight <;> rfl
  have h := watched_armed { rows := rows } tip now (bootstrapped rows tip now).log
  rw [and_iff_left hplaced] at h
  exact h

/-! ## Faults and the park -/

def Counted (s : Actor) : Prop := ∀ g n, s.tipFaults.lookup g = some n → n ≤ faultsSince g s.log

theorem counted_windowed (h : s.Counted) (tip : Nat) (judge : List Game → Option Landed) : (s.windowed tip judge).Counted := by
  have htracks := tipWindow_tracks s tip judge
  intro g n hn
  rw [lookup_windowed] at hn
  have hlog : (s.windowed tip judge).log = .alarm (s.tipWindow tip judge).landed (s.tipWindow tip judge).faulted :: s.log :=
    congrArg (Entry.alarm _ _ :: ·) htracks.log
  rw [hlog, faultsSince]
  by_cases hfault : (s.tipWindow tip judge).faulted.contains g = true
  · have hout : (s.tipWindow tip judge).landed.contains g = false := by
      by_contra hin
      exact htracks.apart g (by simpa using hin) (by simpa using hfault)
    rw [if_pos hfault] at hn
    cases hn
    have hheld : (s.tipFaults.lookup g).getD 0 ≤ faultsSince g s.log := by
      cases hlookup : s.tipFaults.lookup g with
      | none => exact Nat.zero_le _
      | some n => exact h g n hlookup
    rw [hout, hfault]
    cases (s.tipWindow tip judge).landed.isEmpty <;> simp <;> omega
  · rw [if_neg hfault] at hn
    by_cases hin : (s.tipWindow tip judge).landed.contains g = true
    · rw [if_pos hin] at hn
      cases hn
    · rw [if_neg hin] at hn
      rw [(Bool.not_eq_true _).mp hin, (Bool.not_eq_true _).mp hfault]
      simpa using h g n hn

theorem counted_armTipAlarm (h : s.Counted) (tip : Option Nat) (now : Nat) : (s.armTipAlarm tip now).Counted := by
  obtain ⟨-, hfaults, -, hlog⟩ := armTipAlarm_frame s tip now
  unfold Counted
  rw [hfaults, hlog]
  exact h

theorem counted_step (h : s.Counted) (m : Move) : (s.step m).Counted := by
  cases m with
  | apply games tip landed =>
    cases landed with
    | none => exact h
    | some l =>
      intro g n hn
      have hfaults := (armTipAlarm_frame (s.land games tip l) tip l.now).2.1
      have hlookup : (clearTipFaults s.tipFaults games).lookup g = some n := (congrArg (AList.lookup g) hfaults).symm.trans hn
      rw [lookup_clearTipFaults] at hlookup
      show n ≤ faultsSince g (.applied games :: s.log)
      rw [faultsSince]
      split at hlookup
      · cases hlookup
      · rename_i hout
        rw [if_neg hout]
        exact h g n hlookup
  | alarm tip judge now =>
    have hquiet : ({ s with alarm := none } : Actor).Counted := h
    simp only [step, onAlarm]
    split
    · split
      · apply counted_armTipAlarm
        cases tip with
        | none => exact hquiet
        | some t => exact counted_windowed hquiet t judge
      · exact hquiet
    · exact h

theorem applied_next (h : s.Watched) {r : Row} (hr : r ∈ s.rows) (hwait : r.waiting = true) (hpark : s.parked r.gameId = false) {tip : Nat}
    (hgate : r.gateHeight.all (· ≤ tip) = true) (judge : List Game → Option Landed) (now : Nat)
    (hfits : s.fits (.alarm (some tip) judge now) = true) :
    ∃ landed faulted, (s.step (.alarm (some tip) judge now)).log = .alarm landed faulted :: s.log ∧ (r.gameId ∈ landed ∨ r.gameId ∈ faulted) := by
  have hneeds : s.needsAlarm = true := by
    rw [needsAlarm, Bool.or_eq_true]
    exact .inl (List.any_eq_true.mpr ⟨r, hr, by rw [hwait, hpark]; rfl⟩)
  obtain ⟨hset, halarm⟩ := h.1 hneeds
  have htracks := tipWindow_tracks { s with alarm := none } tip judge
  have hstep : s.step (.alarm (some tip) judge now) = (({ s with alarm := none } : Actor).windowed tip judge).armTipAlarm (some tip) now := by
    simp only [step, onAlarm, halarm, hset, if_true]
    rfl
  obtain ⟨gate, heq, -⟩ := waiting_gate hwait
  have hin := inSight_window (of_decide_eq_true hfits) hr heq (by simpa [heq] using hgate) hpark (h.2 r hr hwait hpark)
  refine ⟨_, _, ?_, (htracks.games r.gameId).mp hin⟩
  rw [hstep, (armTipAlarm_frame _ (some tip) now).2.2.2]
  exact congrArg (Entry.alarm _ _ :: ·) htracks.log

/-- Every state of a run is watched just where its steps meet the condition; a game is parked only after its faults; and the next alarm
at a gate or past it applies the game. -/
theorem gates_watched (rows : List Row) (tip : Option Nat) (now : Nat) (moves : List Move)
    (hfits : Runs.Along step (fun s m => s.fits m = true) (bootstrapped rows tip now) moves) :
    ((∀ first, first <+: moves → (first.foldl step (bootstrapped rows tip now)).Watched) ↔
        armMeets { rows := rows } tip = true ∧ Runs.Along step (fun s m => s.meets m = true) (bootstrapped rows tip now) moves) ∧
      (∀ first, first <+: moves → ∀ g, (first.foldl step (bootstrapped rows tip now)).parked g = true →
        tipFaultsMax ≤ faultsSince g (first.foldl step (bootstrapped rows tip now)).log) ∧
      ∀ s : Actor, s.Watched → ∀ r ∈ s.rows, r.waiting = true → s.parked r.gameId = false → ∀ t judge now', r.gateHeight.all (· ≤ t) = true →
        s.fits (.alarm (some t) judge now') = true →
        ∃ landed faulted, (s.step (.alarm (some t) judge now')).log = .alarm landed faulted :: s.log ∧ (r.gameId ∈ landed ∨ r.gameId ∈ faulted) := by
  refine ⟨?_, ?_, ?_⟩
  · rw [Runs.always_iff (I := Watched) (fun s m h hm => watched_step h hm) hfits, watched_bootstrapped]
  · intro first hfirst g hpark
    have hstart : (bootstrapped rows tip now).Counted := counted_armTipAlarm (fun g n hn => by cases hn) tip now
    have hcounted : (first.foldl step (bootstrapped rows tip now)).Counted := Runs.inv_run (I := Counted) (fun _ m h => counted_step h m) hstart first
    unfold parked at hpark
    cases hheld : (first.foldl step (bootstrapped rows tip now)).tipFaults.lookup g with
    | none => rw [hheld] at hpark; cases hpark
    | some n =>
      rw [hheld] at hpark
      exact Nat.le_trans (of_decide_eq_true hpark) (hcounted g n hheld)
  · intro s h r hr hwait hpark t judge now' hgate hfits'
    exact applied_next h hr hwait hpark hgate judge now' hfits'

end Actor

/-! A row waits for its gate at 100; an apply of another game at a newer tip finds no gate above it. -/

namespace Actor

def waitingRow : Row := { gameId := "a", gateHeight := some 100, judgedTip := some 50 }

def newerApply : Move := .apply ["b"] (some 150) (some {})

theorem newer_apply_unwatches :
    (bootstrapped [waitingRow] (some 50) 0).Watched ∧ ¬ ((bootstrapped [waitingRow] (some 50) 0).step newerApply).Watched := by
  refine ⟨(watched_bootstrapped ..).mpr (by decide), fun h => ?_⟩
  have hset := (h.1 (by decide)).1
  revert hset
  decide

def reachedInTurn : List Move := [.alarm (some 150) (fun _ => some { rows := [{ gameId := "a", gateHeight := some 200 }] }) 1]

theorem gates_watched_in_turn : (reachedInTurn.foldl step (bootstrapped [waitingRow] (some 50) 0)).Watched :=
  (gates_watched [waitingRow] (some 50) 0 reachedInTurn (by decide)).1.mpr ⟨by decide, by decide⟩ reachedInTurn (List.prefix_refl _)

end Actor

end OverlayEngine.TipGates
