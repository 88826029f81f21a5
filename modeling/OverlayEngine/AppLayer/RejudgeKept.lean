import OverlayEngine.AppLayer.Rejudge

/-!
# What D1's re-judge keeps

A row is written once, under the build that judges it, so a version is true of
an identity when every row it has was written under it or a later one. A stamp
answers for the rows its cursor covers, and a page of an identity's games leaves
none between its cursor and its last game.

A skipped identity is passed as a judged one is: the word is true along the runs
that skip none with a row of an older build. And the count of faults is the last
saved one's: it is of faults in a row along the runs that lose no judge call's
state while faults are saved.
-/

namespace OverlayEngine.Rejudge

theorem eq_empty_of_le {x : String} (h : x ≤ "") : x = "" :=
  String.le_antisymm h (le_of_not_gt fun hlt => absurd (String.lt_iff_toList_lt.mp hlt) (by simp))

/-! ## A judge call -/

namespace Db

variable {db : Db} {version : Version} {identity : Identity} {games : List Game} {j : Judgement}

theorem mem_judge {r : Row} (h : r ∈ (db.judge version identity games j).rows) :
    (r ∈ db.rows ∧ (r.identity = identity → r.gameId ∉ games)) ∨ (r.identity = identity ∧ r.gameId ∈ games ∧ r.judgedUnder = version) := by
  simp only [judge, List.mem_filter, List.mem_append, List.mem_map] at h
  obtain ⟨⟨hr, hreach⟩ | ⟨written, ⟨-, hgame⟩, rfl⟩, -⟩ := h
  · refine .inl ⟨hr, fun hidentity => ?_⟩
    simp only [hidentity, bne_self_eq_false, Bool.false_or, Bool.not_eq_true', Bool.or_eq_false_iff] at hreach
    simpa using hreach.1
  · exact .inr ⟨rfl, by simpa using hgame, rfl⟩

theorem mem_states_judge {i : Identity} : i ∈ (db.judge version identity games j).states.keys ↔ i = identity ∨ i ∈ db.states.keys := by
  simp only [judge]
  exact AList.mem_insert _

theorem gamesById_past {last : Game} {page : Nat} {g : Game} (h : g ∈ db.gamesById identity last page) : last < g ∧ g ≠ "" := by
  obtain ⟨hg, hlast⟩ := OrderedPages.mem_of_past h
  simp only [Db.games, List.mem_map, List.mem_filter] at hg
  obtain ⟨found, ⟨-, hfound⟩, rfl⟩ := hg
  refine ⟨hlast, ?_⟩
  simp only [Bool.and_eq_true, bne_iff_ne] at hfound
  exact hfound.2

theorem gamesById_leaves {last : Game} (page : Nat) {r : Row} (hr : r ∈ db.rows) (hgame : r.gameId ≠ "") (hlast : last < r.gameId) :
    OrderedPages.Leaves page (db.gamesById r.identity last page) r.gameId := by
  apply OrderedPages.past_leaves page _ hlast
  simp only [Db.games, List.mem_map, List.mem_filter]
  refine ⟨(r.identity, r.gameId), ⟨?_, by simpa using hgame⟩, rfl⟩
  exact List.mem_append_right _ (List.mem_map.mpr ⟨r, hr, rfl⟩)

theorem next_past {after next : Identity} (h : db.next after = some next) : after < next :=
  (OrderedPages.mem_of_past (List.mem_of_mem_head? h)).2

theorem next_least {after i : Identity} (hi : i ∈ db.states.keys) (hafter : after < i) : ∃ next ∈ db.next after, next ≤ i := by
  have hmem : i ∈ db.identities := by
    simp only [identities, List.mem_append]
    exact .inl (.inl (.inl hi))
  have hleaves := OrderedPages.past_leaves 1 hmem hafter
  unfold next
  cases hpage : OrderedPages.past after 1 db.identities with
  | nil =>
    rw [hpage] at hleaves
    rcases hleaves with hin | ⟨hfull, -⟩
    · cases hin
    · cases hfull
  | cons next rest =>
    rw [hpage] at hleaves
    refine ⟨next, rfl, ?_⟩
    have hlength : (next :: rest).length ≤ 1 := hpage ▸ OrderedPages.firsts_length_le
    rcases hleaves with hin | ⟨-, hbelow⟩
    · have hrest : rest = [] := List.eq_nil_of_length_eq_zero (by simpa using hlength)
      rw [hrest, List.mem_singleton] at hin
      exact hin.ge
    · exact (hbelow next List.mem_cons_self).le

end Db

/-! ## What a move does -/

def Move.loses : Move → Bool
  | .die | .batch false => true
  | _ => false

inductive Turn (w : World) : Move → World → Prop
  | stay (m : Move) : Turn w m w
  | begins {t : Tick} {now : Int} {var : Option Int} {drainBound : Bool} (hnone : w.tick = none) (ht : begins w.build w.db now var drainBound = some t) :
    Turn w (.start now var drainBound) { w with tick := some t }
  | saved {t : Tick} (ht : w.tick = some t) (hpage : t.page = none) (hending : t.ending = true) :
    Turn w (.batch true) { w with db := { w.db with stamp := some t.st }, tick := none }
  | opened {t : Tick} (ht : w.tick = some t) (hpage : t.page = none) (hending : t.ending = false) (hopen : t.st.open_ = none) :
    Turn w (.batch true) { w with
      db := { w.db with stamp := t.pending.or w.db.stamp }, tick := some (t.openNext { w.db with stamp := t.pending.or w.db.stamp }) }
  | read {t : Tick} {identity : Identity} {last : Game} (ht : w.tick = some t) (hpage : t.page = none) (hending : t.ending = false)
    (hopen : t.st.open_ = some (identity, last)) :
    Turn w (.batch true) { w with
      db := { w.db with stamp := t.pending.or w.db.stamp }, tick := some (t.readPage { w.db with stamp := t.pending.or w.db.stamp } identity last) }
  | lost {m : Move} (hm : m.loses = true) : Turn w m { w with tick := none }
  | judged {t : Tick} {p : Page} {j : Judgement} (ht : w.tick = some t) (hpage : t.page = some p) : Turn w (.judge (some j)) (w.judgedPage t p j)
  | faulted {t : Tick} {p : Page} (ht : w.tick = some t) (hpage : t.page = some p) : Turn w (.judge none) (w.faultedPage t p)
  | elsewhere {identity : Identity} {games : List Game} {j : Judgement} (hidentity : identity ≠ "") (hgames : "" ∉ games) :
    Turn w (.judged identity games j) { w with db := w.db.judge w.build identity games j }
  | found (s : Sources) : Turn w (.found s) { w with db := { w.db with sources := w.db.sources.add s } }
  | paced {m : Move} (pace : Option Int) (paused : Bool) (gamesPerTick : Nat) (stamp : Option Stamp)
    (hstamp : stamp = w.db.stamp ∨ stamp = w.db.stamp.map fun s => { s with paused := paused, gamesPerTick := gamesPerTick }) :
    Turn w m { w with db := { w.db with pace := pace, stamp := stamp } }
  | deployed {version : Version} (h : w.build < version) : Turn w (.deploy version) { w with build := version, tick := none }

theorem step_turn (w : World) (m : Move) : Turn w m (w.step m) := by
  cases m with
  | start now var drainBound =>
    unfold World.step
    dsimp only
    split
    · exact .stay _
    · rename_i htick
      have hnone : w.tick = none := by simpa using htick
      cases hbegins : begins w.build w.db now var drainBound with
      | none =>
        rw [← hnone]
        exact .stay _
      | some t => exact .begins hnone hbegins
  | batch landed =>
    unfold World.step
    cases htick : w.tick with
    | none => exact .stay _
    | some t =>
      dsimp only
      split
      · exact .stay _
      · rename_i hpage
        have hpage : t.page = none := by simpa using hpage
        cases landed with
        | false => exact .lost rfl
        | true =>
          simp only [if_true, World.landed, Tick.read]
          cases hending : t.ending with
          | true => exact .saved htick hpage hending
          | false =>
            cases hopen : t.st.open_ with
            | none => exact .opened htick hpage hending hopen
            | some o => exact .read htick hpage hending hopen
  | judge answer =>
    cases htick : w.tick with
    | none =>
      simp only [World.step, htick]
      exact .stay _
    | some t =>
      cases hpage : t.page with
      | none =>
        simp only [World.step, htick, hpage]
        exact .stay _
      | some p =>
        simp only [World.step, htick, hpage]
        cases answer with
        | none => exact .faulted htick hpage
        | some j => exact .judged htick hpage
  | die => exact .lost rfl
  | judged identity games j =>
    unfold World.step
    dsimp only
    split
    · exact .stay _
    · rename_i hnot
      simp only [List.contains_iff_mem, not_or] at hnot
      exact .elsewhere hnot.1 hnot.2
  | found s => exact .found s
  | paceRow row => exact .paced row false 0 w.db.stamp (.inl rfl)
  | lever n =>
    cases n with
    | none => exact .paced _ false 0 w.db.stamp (.inl rfl)
    | some n => exact .paced _ (n == 0) n _ (.inr rfl)
  | deploy version =>
    unfold World.step
    dsimp only
    split
    · exact .deployed ‹_›
    · exact .stay _

/-! ## The bounds of a tick -/

structure Tick.Bounded (t : Tick) : Prop where
  calls : t.report.judgeCalls ≤ t.callsMax
  asked : t.asked ≤ t.pace
  even : t.left = false → t.asked = t.report.games
  page : ∀ p ∈ t.page, t.left = false ∧ t.report.judgeCalls < t.callsMax ∧ t.asked + p.games.length ≤ t.pace

def World.Bounded (w : World) : Prop := ∀ t ∈ w.tick, t.Bounded

variable {w w' : World} {m : Move} {t : Tick} {p : Page} {db : Db} {drainBound : Bool} {var : Option Int} {now : Int}

theorem begins_bounded {build : Version} (h : begins build db now var drainBound = some t) : t.Bounded := by
  have hblank : t.report.judgeCalls = 0 ∧ t.report.games = 0 ∧ t.asked = 0 ∧ t.page = none := by
    unfold begins at h
    dsimp only at h
    split at h
    · obtain ⟨s, -, rfl⟩ := Option.map_eq_some_iff.mp h
      exact ⟨rfl, rfl, rfl, rfl⟩
    · split at h
      · split at h
        · cases h
        · cases h
          exact ⟨rfl, rfl, rfl, rfl⟩
      · cases h
        exact ⟨rfl, rfl, rfl, rfl⟩
  obtain ⟨hcalls, hgames, hasked, hpage⟩ := hblank
  exact ⟨by omega, by omega, fun _ => by omega, by simp [hpage]⟩

namespace Tick.Bounded

theorem openNext (h : t.Bounded) (hpage : t.page = none) (db : Db) : (t.openNext db).Bounded := by
  unfold Tick.openNext
  dsimp only
  split
  · exact ⟨h.calls, h.asked, h.even, by simp [hpage]⟩
  · exact ⟨h.calls, h.asked, fun h => (by cases h), by simp [hpage]⟩

theorem readPage (h : t.Bounded) (hpage : t.page = none) (hending : t.ending = false) (db : Db) {identity : Identity} {last : Game}
    (hopen : t.st.open_ = some (identity, last)) : (t.readPage db identity last).Bounded := by
  simp only [Tick.ending, hopen, Bool.or_eq_false_iff, decide_eq_false_iff_not, not_le] at hending
  obtain ⟨hleft, hgames, hcalls⟩ := hending
  unfold Tick.readPage
  dsimp only
  split
  · exact ⟨h.calls, h.asked, h.even, by simp [Tick.identityDone, hpage]⟩
  · refine ⟨h.calls, h.asked, h.even, fun p hp => ?_⟩
    cases hp
    have hlength : (db.gamesById identity last (min (t.pace - t.report.games) owedJudgeSubjectsPerInvocation)).length ≤
        min (t.pace - t.report.games) owedJudgeSubjectsPerInvocation := OrderedPages.firsts_length_le
    have heven := h.even hleft
    refine ⟨hleft, hcalls, ?_⟩
    dsimp only
    omega

theorem judged (h : t.Bounded) (hpage : t.page = some p) (rows : Nat) : (t.judged p rows).Bounded := by
  obtain ⟨hleft, hcalls, hasked⟩ := h.page p hpage
  have heven := h.even hleft
  unfold Tick.judged
  dsimp only
  split <;> exact ⟨hcalls, hasked, fun _ => congrArg (· + p.games.length) heven, fun _ h => (by cases h)⟩

theorem faulted (h : t.Bounded) (hpage : t.page = some p) : (t.faulted p).Bounded := by
  obtain ⟨-, hcalls, hasked⟩ := h.page p hpage
  unfold Tick.faulted
  dsimp only
  split <;> exact ⟨hcalls, hasked, fun h => (by cases h), fun _ h => (by cases h)⟩

end Tick.Bounded

theorem Turn.bounded (h : Turn w m w') (hw : w.Bounded) : w'.Bounded := by
  cases h with
  | stay | elsewhere | found | paced => exact hw
  | saved | lost | deployed => exact fun t' ht' => (by cases ht')
  | begins _ ht =>
    intro t' ht'
    cases ht'
    exact begins_bounded ht
  | opened ht hpage =>
    intro t' ht'
    cases ht'
    exact (hw _ ht).openNext hpage _
  | read ht hpage hending hopen =>
    intro t' ht'
    cases ht'
    exact (hw _ ht).readPage hpage hending _ hopen
  | judged ht hpage =>
    intro t' ht'
    cases ht'
    exact (hw _ ht).judged hpage _
  | faulted ht hpage =>
    intro t' ht'
    cases ht'
    exact (hw _ ht).faulted hpage

/-! ## The cursor -/

def Stamp.Forward (s s' : Stamp) : Prop :=
  s.version < s'.version ∨ s.version = s'.version ∧ (s.done = true → s'.done = true) ∧
    (s.after < s'.after ∨ s.after = s'.after ∧ ∀ o ∈ s.open_, ∃ o' ∈ s'.open_, o.1 = o'.1 ∧ o.2 ≤ o'.2)

theorem Stamp.Forward.refl (s : Stamp) : s.Forward s := .inr ⟨rfl, id, .inr ⟨rfl, fun o ho => ⟨o, ho, rfl, le_rfl⟩⟩⟩

theorem Stamp.Forward.trans {s s' s'' : Stamp} (h : s.Forward s') (h' : s'.Forward s'') : s.Forward s'' := by
  rcases h with hversion | ⟨hversion, hdone, hcursor⟩
  · rcases h' with hversion' | ⟨hversion', -, -⟩
    · exact .inl (hversion.trans hversion')
    · exact .inl (hversion' ▸ hversion)
  · rcases h' with hversion' | ⟨hversion', hdone', hcursor'⟩
    · exact .inl (hversion ▸ hversion')
    · refine .inr ⟨hversion.trans hversion', fun hs => hdone' (hdone hs), ?_⟩
      rcases hcursor with hafter | ⟨hafter, hopen⟩
      · rcases hcursor' with hafter' | ⟨hafter', -⟩
        · exact .inl (hafter.trans hafter')
        · exact .inl (hafter' ▸ hafter)
      · rcases hcursor' with hafter' | ⟨hafter', hopen'⟩
        · exact .inl (hafter ▸ hafter')
        · refine .inr ⟨hafter.trans hafter', fun o ho => ?_⟩
          obtain ⟨o', ho', hidentity, hlast⟩ := hopen o ho
          obtain ⟨o'', ho'', hidentity', hlast'⟩ := hopen' o' ho'
          exact ⟨o'', ho'', hidentity.trans hidentity', hlast.trans hlast'⟩

def Stamp.Opened (s : Stamp) : Prop := ∀ o ∈ s.open_, s.after < o.1

structure Tick.Ordered (build : Version) (stamp : Option Stamp) (t : Tick) : Prop where
  version : t.st.version = build
  opened : t.st.Opened
  forward : ∀ s ∈ stamp, s.Forward t.st
  pending : ∀ s ∈ t.pending, s = t.st
  page : ∀ p ∈ t.page, t.pending = none ∧ p.games ≠ [] ∧ ∃ last, t.st.open_ = some (p.identity, last) ∧ ∀ g ∈ p.games, last < g ∧ g ≠ ""

structure World.Ordered (w : World) : Prop where
  stamp : ∀ s ∈ w.db.stamp, s.version ≤ w.build ∧ s.Opened
  tick : ∀ t ∈ w.tick, t.Ordered w.build w.db.stamp

variable {build : Version} {stamp : Option Stamp}

theorem Tick.Ordered.written (h : t.Ordered build stamp) {s : Stamp} (hs : s ∈ t.pending.or stamp) : s = t.st ∨ s ∈ stamp := by
  cases hpending : t.pending with
  | none => exact .inr (by simpa [hpending] using hs)
  | some s' =>
    have hs' : s' = s := by simpa [hpending] using hs
    exact .inl (h.pending s (hs' ▸ hpending))

theorem Tick.Ordered.forward_written (h : t.Ordered build stamp) : ∀ s ∈ t.pending.or stamp, s.Forward t.st := by
  intro s hs
  rcases h.written hs with rfl | hold
  · exact .refl _
  · exact h.forward s hold

theorem begins_ordered (hstamp : ∀ s ∈ db.stamp, s.version ≤ build ∧ s.Opened)
    (h : begins build db now var drainBound = some t) : t.Ordered build db.stamp := by
  unfold begins at h
  dsimp only at h
  split at h
  · obtain ⟨s, hs, rfl⟩ := Option.map_eq_some_iff.mp h
    obtain ⟨hs, hheld⟩ := Option.filter_eq_some_iff.mp hs
    simp only [Bool.and_eq_true, beq_iff_eq] at hheld
    refine ⟨hheld.1.1, (hstamp s hs).2, fun s' hs' => ?_, fun _ h => (by cases h), fun _ h => (by cases h)⟩
    cases hs.symm.trans hs'
    exact .refl s
  · split at h
    · rename_i s hs
      obtain ⟨hs, hheld⟩ := Option.filter_eq_some_iff.mp hs
      split at h
      · cases h
      · cases h
        refine ⟨beq_iff_eq.mp hheld, (hstamp s hs).2, fun s' hs' => ?_, fun _ h => (by cases h), fun _ h => (by cases h)⟩
        cases hs.symm.trans hs'
        exact .refl s
    · rename_i hnone
      cases h
      refine ⟨rfl, fun _ h => (by cases h), fun s hs => .inl ?_, fun _ h => (by cases h), fun _ h => (by cases h)⟩
      -- the stamp is of another version, an earlier one
      have hne : s.version ≠ build := fun heq => by
        have hsome : db.stamp.filter (fun s => s.version == build) = some s := Option.filter_eq_some_iff.mpr ⟨hs, by simpa using heq⟩
        rw [hnone] at hsome
        cases hsome
      exact lt_of_le_of_ne (hstamp s hs).1 hne

namespace Tick.Ordered

variable {identity : Identity}

theorem openNext (h : t.Ordered build stamp) (hpage : t.page = none) (hopen : t.st.open_ = none) (db : Db) :
    (t.openNext db).Ordered build (t.pending.or stamp) := by
  have hforward := h.forward_written
  have hsame (s' : Stamp) (hversion : t.st.version = s'.version) (hdone : t.st.done = true → s'.done = true) (hafter : t.st.after = s'.after) :
      t.st.Forward s' := .inr ⟨hversion, hdone, .inr ⟨hafter, by simp [hopen]⟩⟩
  unfold Tick.openNext
  dsimp only
  split
  · rename_i next hnext
    refine ⟨h.version, fun o ho => ?_, fun s hs => (hforward s hs).trans (hsame _ rfl id rfl), fun _ h => (by cases h), by simp [hpage]⟩
    cases ho
    exact Db.next_past hnext
  · exact ⟨h.version, fun _ h => (by cases h), fun s hs => (hforward s hs).trans (hsame _ rfl (fun _ => rfl) rfl), fun _ h => (by cases h), by simp [hpage]⟩

theorem readPage (h : t.Ordered build stamp) (hpage : t.page = none) (db : Db) {last : Game} (hopen : t.st.open_ = some (identity, last)) :
    (t.readPage db identity last).Ordered build (t.pending.or stamp) := by
  have hforward := h.forward_written
  unfold Tick.readPage
  dsimp only
  split
  · have hdone : t.st.Forward (t.identityDone identity).st := .inr ⟨rfl, id, .inl (h.opened _ hopen)⟩
    refine ⟨h.version, fun _ h => (by cases h), fun s hs => (hforward s hs).trans hdone, fun s hs => ?_, by simp [Tick.identityDone, hpage]⟩
    cases hs
    rfl
  · rename_i hgames
    refine ⟨h.version, h.opened, hforward, fun _ h => (by cases h), fun p hp => ?_⟩
    cases hp
    exact ⟨rfl, by simpa using hgames, last, hopen, fun g hg => Db.gamesById_past hg⟩

theorem judged (h : t.Ordered build stamp) (hpage : t.page = some p) (rows : Nat) : (t.judged p rows).Ordered build stamp := by
  obtain ⟨-, hgames, last, hopen, hpast⟩ := h.page p hpage
  unfold Tick.judged
  dsimp only
  split
  · have hdone (s' : Stamp) (hversion : t.st.version = s'.version) (hend : t.st.done = s'.done) (hafter : s'.after = p.identity) : t.st.Forward s' :=
      .inr ⟨hversion, fun hs => hend ▸ hs, .inl (hafter ▸ h.opened _ hopen)⟩
    refine ⟨h.version, fun _ h => (by cases h), fun s hs => (h.forward s hs).trans (hdone _ rfl rfl rfl), fun s hs => ?_, fun _ h => (by cases h)⟩
    cases hs
    rfl
  · obtain ⟨g, hg⟩ := Option.ne_none_iff_exists'.mp (mt List.getLast?_eq_none_iff.mp hgames)
    have hlast : last ≤ g := (hpast g (List.mem_of_getLast? hg)).1.le
    refine ⟨h.version, fun o ho => ?_, fun s hs => (h.forward s hs).trans (.inr ⟨rfl, id, .inr ⟨rfl, fun o ho => ?_⟩⟩), fun s hs => ?_, fun _ h => (by cases h)⟩
    · cases ho
      exact h.opened (p.identity, last) hopen
    · cases hopen.symm.trans ho
      refine ⟨_, rfl, rfl, ?_⟩
      simpa [hg] using hlast
    · cases hs
      rfl

theorem faulted (h : t.Ordered build stamp) (hpage : t.page = some p) : (t.faulted p).Ordered build stamp := by
  obtain ⟨hpending, -, last, hopen, -⟩ := h.page p hpage
  unfold Tick.faulted
  dsimp only
  split
  · have hskip (s' : Stamp) (hversion : t.st.version = s'.version) (hend : t.st.done = s'.done) (hafter : s'.after = p.identity) : t.st.Forward s' :=
      .inr ⟨hversion, fun hs => hend ▸ hs, .inl (hafter ▸ h.opened _ hopen)⟩
    exact ⟨h.version, fun _ h => (by cases h), fun s hs => (h.forward s hs).trans (hskip _ rfl rfl rfl), by simp [Tick.called, hpending], fun _ h => (by cases h)⟩
  · exact ⟨h.version, h.opened, h.forward, by simp [Tick.called, hpending], fun _ h => (by cases h)⟩

end Tick.Ordered

theorem Turn.ordered (h : Turn w m w') (hw : w.Ordered) : w'.Ordered := by
  have hwritten {t : Tick} (ht : w.tick = some t) : ∀ s ∈ t.pending.or w.db.stamp, s.version ≤ w.build ∧ s.Opened := by
    intro s hs
    rcases (hw.tick t ht).written hs with rfl | hold
    · exact ⟨(hw.tick t ht).version.le, (hw.tick t ht).opened⟩
    · exact hw.stamp s hold
  cases h with
  | stay => exact hw
  | elsewhere | found => exact ⟨hw.stamp, hw.tick⟩
  | begins _ ht =>
    refine ⟨hw.stamp, fun t' ht' => ?_⟩
    cases ht'
    exact begins_ordered hw.stamp ht
  | saved ht =>
    refine ⟨fun s hs => ?_, fun t' ht' => (by cases ht')⟩
    cases hs
    exact ⟨(hw.tick _ ht).version.le, (hw.tick _ ht).opened⟩
  | opened ht hpage _ hopen =>
    refine ⟨hwritten ht, fun t' ht' => ?_⟩
    cases ht'
    exact (hw.tick _ ht).openNext hpage hopen _
  | read ht hpage _ hopen =>
    refine ⟨hwritten ht, fun t' ht' => ?_⟩
    cases ht'
    exact (hw.tick _ ht).readPage hpage _ hopen
  | lost => exact ⟨hw.stamp, fun t' ht' => (by cases ht')⟩
  | judged ht hpage =>
    refine ⟨hw.stamp, fun t' ht' => ?_⟩
    cases ht'
    exact (hw.tick _ ht).judged hpage _
  | faulted ht hpage =>
    refine ⟨hw.stamp, fun t' ht' => ?_⟩
    cases ht'
    exact (hw.tick _ ht).faulted hpage
  | paced pace paused gamesPerTick stamp hstamp =>
    rcases hstamp with rfl | rfl
    · exact ⟨hw.stamp, hw.tick⟩
    · refine ⟨fun s hs => ?_, fun t ht => ⟨(hw.tick t ht).version, (hw.tick t ht).opened, fun s hs => ?_, (hw.tick t ht).pending, (hw.tick t ht).page⟩⟩
      · obtain ⟨s', hs', rfl⟩ := Option.map_eq_some_iff.mp hs
        exact hw.stamp s' hs'
      · obtain ⟨s', hs', rfl⟩ := Option.map_eq_some_iff.mp hs
        exact (hw.tick t ht).forward s' hs'
  | deployed hversion => exact ⟨fun s hs => ⟨(hw.stamp s hs).1.trans hversion.le, (hw.stamp s hs).2⟩, fun t' ht' => (by cases ht')⟩

theorem Turn.forward (h : Turn w m w') (hw : w.Ordered) : ∀ s ∈ w.db.stamp, ∃ s' ∈ w'.db.stamp, s.Forward s' := by
  intro s hs
  have hwritten {t : Tick} (ht : w.tick = some t) : ∃ s' ∈ t.pending.or w.db.stamp, s.Forward s' := by
    cases hpending : t.pending with
    | none => exact ⟨s, by simpa using hs, .refl s⟩
    | some s' =>
      have hst : s' = t.st := (hw.tick t ht).pending s' hpending
      exact ⟨s', rfl, hst ▸ (hw.tick t ht).forward s hs⟩
  cases h with
  | stay | elsewhere | found | begins | lost | judged | faulted | deployed => exact ⟨s, hs, .refl s⟩
  | saved ht => exact ⟨_, rfl, (hw.tick _ ht).forward s hs⟩
  | opened ht | read ht => exact hwritten ht
  | paced pace paused gamesPerTick stamp hstamp =>
    rcases hstamp with rfl | rfl
    · exact ⟨s, hs, .refl s⟩
    · exact ⟨_, Option.map_eq_some_iff.mpr ⟨s, hs, rfl⟩, .inr ⟨rfl, id, .inr ⟨rfl, fun o ho => ⟨o, ho, rfl, le_rfl⟩⟩⟩⟩

/-! ## The word -/

def Move.faults : Move → Bool
  | .judge none => true
  | _ => false

def MeetsSkip (w : World) (m : Move) : Prop :=
  m.faults = true → ∀ t ∈ w.tick, ∀ p ∈ t.page, d1RejudgeIdentityFaultsMax ≤ t.st.openFaults + 1 →
    ∀ r ∈ w.db.rows, r.identity = p.identity → w.build ≤ r.judgedUnder

instance decidableMeetsSkip (w : World) (m : Move) : Decidable (MeetsSkip w m) :=
  inferInstanceAs (Decidable (m.faults = true → ∀ t ∈ w.tick, ∀ p ∈ t.page, d1RejudgeIdentityFaultsMax ≤ t.st.openFaults + 1 →
    ∀ r ∈ w.db.rows, r.identity = p.identity → w.build ≤ r.judgedUnder))

def Stamp.Covers (s : Stamp) (r : Row) : Prop :=
  s.done = true ∨ r.identity ≤ s.after ∨ ∃ o ∈ s.open_, r.identity < o.1 ∨ r.identity = o.1 ∧ r.gameId ≤ o.2

structure Stamp.Holds (build : Version) (rows : List Row) (s : Stamp) : Prop where
  version : s.version ≤ build
  covered : ∀ r ∈ rows, s.Covers r → s.version ≤ r.judgedUnder
  previous : ∀ p ∈ s.previous, p.version ≤ build ∧ (p.done = true → ∀ r ∈ rows, p.version ≤ r.judgedUnder)

structure Tick.Holds (build : Version) (rows : List Row) (t : Tick) : Prop where
  st : t.st.Holds build rows
  page : ∀ p ∈ t.page, ∀ last, t.st.open_ = some (p.identity, last) →
    ∀ r ∈ rows, r.identity = p.identity → last < r.gameId → build ≤ r.judgedUnder ∨ OrderedPages.Leaves p.size p.games r.gameId

structure World.Sound (w : World) : Prop where
  rows : ∀ r ∈ w.db.rows, r.identity ∈ w.db.states.keys ∧ r.identity ≠ "" ∧ r.gameId ≠ ""
  stamp : ∀ s ∈ w.db.stamp, s.Holds w.build w.db.rows
  tick : ∀ t ∈ w.tick, t.Holds w.build w.db.rows

variable {rows rows' : List Row}

theorem Stamp.Holds.mono {s : Stamp} {build' : Version} (h : s.Holds build rows) (hbuild : build ≤ build')
    (hrows : ∀ r ∈ rows', r ∈ rows ∨ build ≤ r.judgedUnder) : s.Holds build' rows' := by
  refine ⟨h.version.trans hbuild, fun r hr hcovers => ?_, fun p hp => ⟨(h.previous p hp).1.trans hbuild, fun hdone r hr => ?_⟩⟩
  · rcases hrows r hr with hold | hnew
    · exact h.covered r hold hcovers
    · exact h.version.trans hnew
  · rcases hrows r hr with hold | hnew
    · exact (h.previous p hp).2 hdone r hold
    · exact (h.previous p hp).1.trans hnew

theorem Tick.Holds.mono (h : t.Holds build rows) (hrows : ∀ r ∈ rows', r ∈ rows ∨ build ≤ r.judgedUnder) : t.Holds build rows' := by
  refine ⟨h.st.mono le_rfl hrows, fun p hp last hopen r hr hidentity hlast => ?_⟩
  rcases hrows r hr with hold | hnew
  · exact h.page p hp last hopen r hold hidentity hlast
  · exact .inl hnew

theorem Stamp.Holds.moved {s s' : Stamp} (h : s.Holds build rows) (hversion : s'.version = s.version) (hprevious : s'.previous = s.previous)
    (hcovered : ∀ r ∈ rows, s'.Covers r → s.Covers r ∨ s.version ≤ r.judgedUnder) : s'.Holds build rows := by
  refine ⟨hversion ▸ h.version, fun r hr hcovers => ?_, hprevious ▸ h.previous⟩
  rw [hversion]
  rcases hcovered r hr hcovers with hold | hnew
  · exact h.covered r hr hold
  · exact hnew

theorem Stamp.Holds.word {s : Stamp} (h : s.Holds build rows) {r : Row} (hr : r ∈ rows) (hpassed : s.passed r.identity = true) : s.version ≤ r.judgedUnder := by
  apply h.covered r hr
  simp only [Stamp.passed, Bool.or_eq_true, Bool.and_eq_true, decide_eq_true_eq] at hpassed
  rcases hpassed with hdone | ⟨-, hafter⟩
  · exact .inl hdone
  · exact .inr (.inl hafter)

theorem begins_holds (hrows : ∀ r ∈ db.rows, r.identity ≠ "")
    (hstamp : ∀ s ∈ db.stamp, s.Holds build db.rows) (h : begins build db now var drainBound = some t) : t.Holds build db.rows := by
  unfold begins at h
  dsimp only at h
  split at h
  · obtain ⟨s, hs, rfl⟩ := Option.map_eq_some_iff.mp h
    have hs := (Option.filter_eq_some_iff.mp hs).1
    exact ⟨(hstamp s hs).moved rfl rfl fun r _ hcovers => .inl hcovers, fun _ h => (by cases h)⟩
  · split at h
    · rename_i s hs
      have hs := (Option.filter_eq_some_iff.mp hs).1
      split at h
      · cases h
      · cases h
        exact ⟨(hstamp s hs).moved rfl rfl fun r _ hcovers => .inl hcovers, fun _ h => (by cases h)⟩
    · cases h
      refine ⟨⟨le_rfl, fun r hr hcovers => ?_, fun p hp => ?_⟩, fun _ h => (by cases h)⟩
      · rcases hcovers with hdone | hafter | ⟨o, ho, -⟩
        · cases hdone
        · exact absurd (eq_empty_of_le hafter) (hrows r hr)
        · cases ho
      · obtain ⟨s, hs, rfl⟩ := Option.map_eq_some_iff.mp hp
        exact ⟨(hstamp s hs).version, fun hdone r hr => (hstamp s hs).covered r hr (.inl hdone)⟩

namespace Tick.Holds

variable {identity : Identity}

theorem openNext (h : t.Holds build db.rows) (hpage : t.page = none)
    (hrows : ∀ r ∈ db.rows, r.identity ∈ db.states.keys ∧ r.identity ≠ "" ∧ r.gameId ≠ "") : (t.openNext db).Holds build db.rows := by
  unfold Tick.openNext
  dsimp only
  split
  · rename_i next hnext
    refine ⟨h.st.moved rfl rfl fun r hr hcovers => .inl ?_, by simp [hpage]⟩
    rcases hcovers with hdone | hafter | ⟨o, ho, hbelow⟩
    · exact .inl hdone
    · exact .inr (.inl hafter)
    · cases ho
      refine .inr (.inl (le_of_not_gt fun hpast => ?_))
      obtain ⟨least, hleast, hle⟩ := Db.next_least (hrows r hr).1 hpast
      cases hnext.symm.trans hleast
      rcases hbelow with hlt | ⟨-, hgame⟩
      · exact absurd hle (not_le_of_gt hlt)
      · exact absurd (eq_empty_of_le hgame) (hrows r hr).2.2
  · rename_i hnone
    refine ⟨h.st.moved rfl rfl fun r hr _ => .inl (.inr (.inl (le_of_not_gt fun hpast => ?_))), by simp [hpage]⟩
    obtain ⟨least, hleast, -⟩ := Db.next_least (hrows r hr).1 hpast
    cases hnone.symm.trans hleast

theorem readPage (h : t.Holds build db.rows) (hpage : t.page = none) (hending : t.ending = false) {last : Game}
    (hopen : t.st.open_ = some (identity, last)) (hrows : ∀ r ∈ db.rows, r.gameId ≠ "") : (t.readPage db identity last).Holds build db.rows := by
  have hleaves {r : Row} (hr : r ∈ db.rows) (hidentity : r.identity = identity) (hlast : last < r.gameId) (size : Nat) :
      OrderedPages.Leaves size (db.gamesById identity last size) r.gameId :=
    hidentity ▸ Db.gamesById_leaves size hr (hrows r hr) hlast
  unfold Tick.readPage
  dsimp only
  split
  · rename_i hgames
    have hgames := List.isEmpty_iff.mp hgames
    refine ⟨h.st.moved rfl rfl fun r hr hcovers => .inl ?_, by simp [Tick.identityDone, hpage]⟩
    rcases hcovers with hdone | hafter | ⟨o, ho, -⟩
    · exact .inl hdone
    · rcases lt_or_eq_of_le hafter with hlt | heq
      · exact .inr (.inr ⟨_, hopen, .inl hlt⟩)
      · refine .inr (.inr ⟨_, hopen, .inr ⟨heq, le_of_not_gt fun hlast => ?_⟩⟩)
        -- an empty page of room left leaves no game past the cursor
        rcases hgames ▸ hleaves hr heq hlast _ with hin | ⟨hfull, -⟩
        · cases hin
        · simp only [Tick.ending, hopen, Bool.or_eq_false_iff, decide_eq_false_iff_not, not_le] at hending
          have hroom : 0 < min (t.pace - t.report.games) owedJudgeSubjectsPerInvocation := Nat.lt_min.mpr ⟨by omega, by decide⟩
          exact absurd hfull hroom.ne
    · cases ho
  · refine ⟨h.st, fun p hp last' hopen' r hr hidentity hlast => .inr ?_⟩
    cases hp
    cases hopen.symm.trans hopen'
    exact hleaves hr hidentity hlast _

theorem judged (h : t.Holds build rows) (ho : t.Ordered build stamp) (hpage : t.page = some p) (n : Nat)
    (hrows : ∀ r ∈ rows', (r ∈ rows ∧ (r.identity = p.identity → r.gameId ∉ p.games)) ∨ build ≤ r.judgedUnder) : (t.judged p n).Holds build rows' := by
  obtain ⟨-, hgames, last, hopen, -⟩ := ho.page p hpage
  have hst : t.st.Holds build rows' := h.st.mono le_rfl fun r hr => (hrows r hr).imp_left And.left
  -- a row of the identity that is not of the build is at the cursor or past a full page
  have hreached {r : Row} (hr : r ∈ rows') (hidentity : r.identity = p.identity) (hold : ¬ t.st.version ≤ r.judgedUnder) :
      r.gameId ≤ last ∨ p.games.length = p.size ∧ ∀ g ∈ p.games, g < r.gameId := by
    rw [ho.version] at hold
    rcases hrows r hr with ⟨hr, hnot⟩ | hnew
    · rcases le_or_gt r.gameId last with hle | hlast
      · exact .inl hle
      · rcases h.page p hpage last hopen r hr hidentity hlast with hnew | hin | hfull
        · exact absurd hnew hold
        · exact absurd hin (hnot hidentity)
        · exact .inr hfull
    · exact absurd hnew hold
  unfold Tick.judged
  dsimp only
  split
  · rename_i hshort
    refine ⟨hst.moved rfl rfl fun r hr hcovers => ?_, fun _ h => (by cases h)⟩
    rcases hcovers with hdone | hafter | ⟨o, ho, -⟩
    · exact .inl (.inl hdone)
    · rcases lt_or_eq_of_le hafter with hlt | heq
      · exact .inl (.inr (.inr ⟨_, hopen, .inl hlt⟩))
      · by_cases hnew : t.st.version ≤ r.judgedUnder
        · exact .inr hnew
        · rcases hreached hr heq hnew with hle | ⟨hfull, -⟩
          · exact .inl (.inr (.inr ⟨_, hopen, .inr ⟨heq, hle⟩⟩))
          · exact absurd hfull hshort.ne
    · cases ho
  · obtain ⟨g, hg⟩ := Option.ne_none_iff_exists'.mp (mt List.getLast?_eq_none_iff.mp hgames)
    refine ⟨hst.moved rfl rfl fun r hr hcovers => ?_, fun _ h => (by cases h)⟩
    rcases hcovers with hdone | hafter | ⟨o, ho, hbelow⟩
    · exact .inl (.inl hdone)
    · exact .inl (.inr (.inl hafter))
    · cases ho
      rcases hbelow with hlt | ⟨heq, hle⟩
      · exact .inl (.inr (.inr ⟨_, hopen, .inl hlt⟩))
      · by_cases hnew : t.st.version ≤ r.judgedUnder
        · exact .inr hnew
        · rcases hreached hr heq hnew with hlast | ⟨-, habove⟩
          · exact .inl (.inr (.inr ⟨_, hopen, .inr ⟨heq, hlast⟩⟩))
          · rw [hg] at hle
            exact absurd hle (not_le_of_gt (habove g (List.mem_of_getLast? hg)))

theorem faulted (h : t.Holds build rows) (ho : t.Ordered build stamp) (hpage : t.page = some p)
    (hskip : d1RejudgeIdentityFaultsMax ≤ t.st.openFaults + 1 → ∀ r ∈ rows, r.identity = p.identity → build ≤ r.judgedUnder) : (t.faulted p).Holds build rows := by
  obtain ⟨-, -, last, hopen, -⟩ := ho.page p hpage
  unfold Tick.faulted
  dsimp only
  split
  · rename_i hmax
    refine ⟨h.st.moved rfl rfl fun r hr hcovers => ?_, fun _ h => (by cases h)⟩
    rcases hcovers with hdone | hafter | ⟨o, ho, -⟩
    · exact .inl (.inl hdone)
    · rcases lt_or_eq_of_le hafter with hlt | heq
      · exact .inl (.inr (.inr ⟨_, hopen, .inl hlt⟩))
      · exact .inr (ho.version ▸ hskip hmax r hr heq)
    · cases ho
  · exact ⟨h.st.moved rfl rfl fun r _ hcovers => .inl hcovers, fun _ h => (by cases h)⟩

end Tick.Holds

theorem World.Sound.judge (hw : w.Sound) {identity : Identity} {games : List Game} {j : Judgement} (hidentity : identity ≠ "") (hgames : "" ∉ games) :
    (∀ r ∈ (w.db.judge w.build identity games j).rows,
        r.identity ∈ (w.db.judge w.build identity games j).states.keys ∧ r.identity ≠ "" ∧ r.gameId ≠ "") ∧
      ∀ r ∈ (w.db.judge w.build identity games j).rows, r ∈ w.db.rows ∨ w.build ≤ r.judgedUnder := by
  refine ⟨fun r hr => ?_, fun r hr => ?_⟩
  · rw [Db.mem_states_judge]
    rcases Db.mem_judge hr with ⟨hold, -⟩ | ⟨rfl, hgame, -⟩
    · exact ⟨.inr (hw.rows r hold).1, (hw.rows r hold).2⟩
    · exact ⟨.inl rfl, hidentity, fun hempty => hgames (hempty ▸ hgame)⟩
  · rcases Db.mem_judge hr with ⟨hold, -⟩ | ⟨-, -, hversion⟩
    · exact .inl hold
    · exact .inr hversion.ge

theorem Turn.sound (h : Turn w m w') (ho : w.Ordered) (hm : MeetsSkip w m) (hw : w.Sound) : w'.Sound := by
  have hwritten {t : Tick} (ht : w.tick = some t) : ∀ s ∈ t.pending.or w.db.stamp, s.Holds w.build w.db.rows := by
    intro s hs
    rcases (ho.tick t ht).written hs with rfl | hold
    · exact (hw.tick t ht).st
    · exact hw.stamp s hold
  cases h with
  | stay => exact hw
  | found => exact ⟨hw.rows, hw.stamp, hw.tick⟩
  | begins _ ht =>
    refine ⟨hw.rows, hw.stamp, fun t' ht' => ?_⟩
    cases ht'
    exact begins_holds (fun r hr => (hw.rows r hr).2.1) hw.stamp ht
  | saved ht =>
    refine ⟨hw.rows, fun s hs => ?_, fun t' ht' => (by cases ht')⟩
    cases hs
    exact (hw.tick _ ht).st
  | opened ht hpage =>
    refine ⟨hw.rows, hwritten ht, fun t' ht' => ?_⟩
    cases ht'
    exact (hw.tick _ ht).openNext hpage hw.rows
  | read ht hpage hending hopen =>
    refine ⟨hw.rows, hwritten ht, fun t' ht' => ?_⟩
    cases ht'
    exact (hw.tick _ ht).readPage hpage hending hopen fun r hr => (hw.rows r hr).2.2
  | lost => exact ⟨hw.rows, hw.stamp, fun t' ht' => (by cases ht')⟩
  | @judged t p j ht hpage =>
    obtain ⟨-, -, last, hopen, hgames⟩ := (ho.tick t ht).page p hpage
    have hidentity : p.identity ≠ "" := fun hempty => by
      have hpast := (ho.tick t ht).opened _ hopen
      rw [hempty] at hpast
      exact absurd (eq_empty_of_le hpast.le) (by rintro hafter; rw [hafter] at hpast; exact lt_irrefl _ hpast)
    obtain ⟨hrows, hmono⟩ := hw.judge (j := j) hidentity fun hin => (hgames "" hin).2 rfl
    refine ⟨hrows, fun s hs => (hw.stamp s hs).mono le_rfl hmono, fun t' ht' => ?_⟩
    cases ht'
    refine (hw.tick t ht).judged (ho.tick t ht) hpage _ fun r hr => ?_
    rcases Db.mem_judge hr with hold | ⟨-, -, hversion⟩
    · exact .inl hold
    · exact .inr hversion.ge
  | faulted ht hpage =>
    refine ⟨hw.rows, hw.stamp, fun t' ht' => ?_⟩
    cases ht'
    exact (hw.tick _ ht).faulted (ho.tick _ ht) hpage (hm rfl _ ht _ hpage)
  | elsewhere hidentity hgames =>
    obtain ⟨hrows, hmono⟩ := hw.judge hidentity hgames
    exact ⟨hrows, fun s hs => (hw.stamp s hs).mono le_rfl hmono, fun t ht => (hw.tick t ht).mono hmono⟩
  | paced pace paused gamesPerTick stamp hstamp =>
    rcases hstamp with rfl | rfl
    · exact ⟨hw.rows, hw.stamp, hw.tick⟩
    · refine ⟨hw.rows, fun s hs => ?_, hw.tick⟩
      obtain ⟨s', hs', rfl⟩ := Option.map_eq_some_iff.mp hs
      exact (hw.stamp s' hs').moved rfl rfl fun r _ hcovers => .inl hcovers
  | deployed hversion =>
    exact ⟨hw.rows, fun s hs => (hw.stamp s hs).mono hversion.le fun r hr => .inl hr, fun t' ht' => (by cases ht')⟩

/-! ## The faults in a row -/

def MeetsSave (w : World) (m : Move) : Prop :=
  m.loses = true → ∀ t ∈ w.tick, t.unsaved = true → ∀ s ∈ w.db.stamp, s.version = w.build → s.openFaults = 0

instance decidableMeetsSave (w : World) (m : Move) : Decidable (MeetsSave w m) :=
  inferInstanceAs (Decidable (m.loses = true → ∀ t ∈ w.tick, t.unsaved = true → ∀ s ∈ w.db.stamp, s.version = w.build → s.openFaults = 0))

def Stamp.Counts (streaks : Identity → Nat) (s : Stamp) : Prop := ∀ o ∈ s.open_, s.openFaults ≤ streaks o.1

structure World.Counted (w : World) : Prop where
  /-- The saved count may be too great only while a state to be saved counts none. -/
  stamp : ∀ s ∈ w.db.stamp, s.version = w.build → s.Counts w.streaks ∨ ∃ t ∈ w.tick, t.unsaved = true
  tick : ∀ t ∈ w.tick, t.st.Counts w.streaks ∧ (t.unsaved = true → t.pending.isSome = true)
  skips : ∀ skip ∈ w.skips, d1RejudgeIdentityFaultsMax ≤ skip.2

theorem begins_counted {streaks : Identity → Nat} (h : begins build db now var drainBound = some t)
    (hstamp : ∀ s ∈ db.stamp, s.version = build → s.Counts streaks) : t.st.Counts streaks ∧ t.unsaved = false := by
  unfold begins at h
  dsimp only at h
  split at h
  · obtain ⟨s, hs, rfl⟩ := Option.map_eq_some_iff.mp h
    obtain ⟨hs, hheld⟩ := Option.filter_eq_some_iff.mp hs
    simp only [Bool.and_eq_true, beq_iff_eq] at hheld
    exact ⟨hstamp s hs hheld.1.1, rfl⟩
  · split at h
    · rename_i s hs
      obtain ⟨hs, hheld⟩ := Option.filter_eq_some_iff.mp hs
      split at h
      · cases h
      · cases h
        exact ⟨hstamp s hs (beq_iff_eq.mp hheld), rfl⟩
    · cases h
      exact ⟨fun _ h => (by cases h), rfl⟩

namespace World.Counted

theorem written (hw : w.Counted) (ho : w.Ordered) (ht : w.tick = some t) : ∀ s ∈ t.pending.or w.db.stamp, s.version = w.build → s.Counts w.streaks := by
  intro s hs hversion
  cases hpending : t.pending with
  | none =>
    rcases hw.stamp s (by simpa [hpending] using hs) hversion with hcounts | ⟨t', ht', hunsaved⟩
    · exact hcounts
    · cases ht.symm.trans ht'
      have hsome := (hw.tick t ht).2 hunsaved
      rw [hpending] at hsome
      cases hsome
  | some s' =>
    have hs' : s' = s := by simpa [hpending] using hs
    rw [(ho.tick t ht).pending s (hs' ▸ hpending)]
    exact (hw.tick t ht).1

theorem judgedPage (hw : w.Counted) (ho : w.Ordered) (ht : w.tick = some t) (hpage : t.page = some p) (j : Judgement) : (w.judgedPage t p j).Counted := by
  obtain ⟨-, -, last, hopen, -⟩ := (ho.tick t ht).page p hpage
  have hunsaved (rows : Nat) : (t.judged p rows).unsaved = true ∧ (t.judged p rows).pending.isSome = true ∧ (t.judged p rows).st.openFaults = 0 := by
    unfold Tick.judged
    dsimp only
    split <;> exact ⟨rfl, rfl, rfl⟩
  refine ⟨fun s _ _ => .inr ⟨_, rfl, (hunsaved _).1⟩, fun t' ht' => ?_, hw.skips⟩
  cases ht'
  refine ⟨fun o _ => ?_, fun _ => (hunsaved _).2.1⟩
  rw [(hunsaved _).2.2]
  exact Nat.zero_le _

theorem faultedPage (hw : w.Counted) (ho : w.Ordered) (ht : w.tick = some t) (hpage : t.page = some p) : (w.faultedPage t p).Counted := by
  obtain ⟨hpending, -, last, hopen, -⟩ := (ho.tick t ht).page p hpage
  have hcount : t.st.openFaults ≤ w.streaks p.identity := (hw.tick t ht).1 _ hopen
  have hsaved : t.unsaved = false := by
    cases hunsaved : t.unsaved with
    | false => rfl
    | true =>
      have hsome := (hw.tick t ht).2 hunsaved
      rw [hpending] at hsome
      cases hsome
  have hmore (i : Identity) : w.streaks i ≤ (w.faultedPage t p).streaks i := by
    simp only [World.faultedPage]
    split <;> omega
  refine ⟨fun s hs hversion => .inl fun o ho' => ?_, fun t' ht' => ?_, fun skip hskip => ?_⟩
  · rcases hw.stamp s hs hversion with hcounts | ⟨t', ht', hunsaved⟩
    · exact (hcounts o ho').trans (hmore o.1)
    · cases ht.symm.trans ht'
      rw [hsaved] at hunsaved
      cases hunsaved
  · cases ht'
    unfold Tick.faulted
    dsimp only
    split
    · exact ⟨fun _ h => (by cases h), (hw.tick t ht).2⟩
    · refine ⟨fun o ho' => ?_, (hw.tick t ht).2⟩
      cases hopen.symm.trans ho'
      simp only [World.faultedPage, if_true]
      exact Nat.succ_le_succ hcount
  · simp only [World.faultedPage] at hskip
    split at hskip
    · rcases List.mem_append.mp hskip with hold | hnew
      · exact hw.skips skip hold
      · rw [List.mem_singleton.mp hnew]
        dsimp only
        omega
    · exact hw.skips skip hskip

/-- An unsaved tick has a page pending. -/
theorem saved_pages {w : World} {t : Tick} {p : Prop} (hw : w.Counted) (ht : w.tick = some t) (h : (t.unsaved && t.pending.isNone) = true) : p := by
  obtain ⟨hunsaved, hnone⟩ := Bool.and_eq_true_iff.mp h
  have hsome := (hw.tick t ht).2 hunsaved
  rw [Option.isNone_iff_eq_none.mp hnone] at hsome
  cases hsome

end World.Counted

theorem Turn.counted (h : Turn w m w') (ho : w.Ordered) (hm : MeetsSave w m) (hw : w.Counted) : w'.Counted := by
  cases h with
  | stay => exact hw
  | elsewhere | found => exact ⟨hw.stamp, hw.tick, hw.skips⟩
  | begins hnone ht =>
    have hstamp : ∀ s ∈ w.db.stamp, s.version = w.build → s.Counts w.streaks := by
      intro s hs hversion
      rcases hw.stamp s hs hversion with hcounts | ⟨t', ht', -⟩
      · exact hcounts
      · cases hnone.symm.trans ht'
    obtain ⟨hcounts, hunsaved⟩ := begins_counted ht hstamp
    refine ⟨fun s hs hversion => .inl (hstamp s hs hversion), fun t' ht' => ?_, hw.skips⟩
    cases ht'
    exact ⟨hcounts, fun h => absurd (hunsaved.symm.trans h) Bool.false_ne_true⟩
  | saved ht =>
    refine ⟨fun s hs _ => .inl ?_, (by simp), hw.skips⟩
    cases hs
    exact (hw.tick _ ht).1
  | @opened t ht hpage hending hopen =>
    refine ⟨fun s hs hversion => .inl (hw.written ho ht s hs hversion), fun t' ht' => ?_, hw.skips⟩
    cases ht'
    unfold Tick.openNext
    dsimp only
    split
    · refine ⟨fun o ho' => ?_, hw.saved_pages ht⟩
      cases ho'
      exact Nat.zero_le _
    · exact ⟨fun _ h => (by cases h), hw.saved_pages ht⟩
  | @read t identity last ht hpage hending hopen =>
    refine ⟨fun s hs hversion => .inl (hw.written ho ht s hs hversion), fun t' ht' => ?_, hw.skips⟩
    cases ht'
    unfold Tick.readPage
    dsimp only
    split
    · exact ⟨fun _ h => (by cases h), fun _ => rfl⟩
    · exact ⟨(hw.tick t ht).1, hw.saved_pages ht⟩
  | lost hlost =>
    refine ⟨fun s hs hversion => .inl ?_, (by simp), hw.skips⟩
    rcases hw.stamp s hs hversion with hcounts | ⟨t, ht, hunsaved⟩
    · exact hcounts
    · intro o _
      rw [hm hlost t ht hunsaved s hs hversion]
      exact Nat.zero_le _
  | judged ht hpage => exact hw.judgedPage ho ht hpage _
  | faulted ht hpage => exact hw.faultedPage ho ht hpage
  | paced pace paused gamesPerTick stamp hstamp =>
    rcases hstamp with rfl | rfl
    · exact ⟨hw.stamp, hw.tick, hw.skips⟩
    · refine ⟨fun s hs hversion => ?_, hw.tick, hw.skips⟩
      obtain ⟨s', hs', rfl⟩ := Option.map_eq_some_iff.mp hs
      exact hw.stamp s' hs' hversion
  | deployed hversion =>
    refine ⟨fun s hs hsame => ?_, (by simp), hw.skips⟩
    -- the stamp is of an earlier build
    have hle : s.version ≤ w.build := (ho.stamp s hs).1
    have hversion : w.build < s.version := hsame ▸ hversion
    exact absurd hle (not_le_of_gt hversion)

/-! ## Runs -/

structure World.Fresh (w : World) : Prop where
  rows : ∀ r ∈ w.db.rows, r.identity ∈ w.db.states.keys ∧ r.identity ≠ "" ∧ r.gameId ≠ ""
  stamp : w.db.stamp = none
  tick : w.tick = none
  skips : w.skips = []

namespace World.Fresh

theorem ordered (h : w.Fresh) : w.Ordered := ⟨by simp [h.stamp], by simp [h.tick]⟩

theorem sound (h : w.Fresh) : w.Sound := ⟨h.rows, by simp [h.stamp], by simp [h.tick]⟩

theorem counted (h : w.Fresh) : w.Counted := ⟨by simp [h.stamp], by simp [h.tick], by simp [h.skips]⟩

theorem bounded (h : w.Fresh) : w.Bounded := by simp [World.Bounded, h.tick]

end World.Fresh

theorem run_ordered (h : w.Ordered) (moves : List Move) : (w.run moves).Ordered :=
  Runs.inv_run (fun w m hw => (step_turn w m).ordered hw) h moves

theorem run_forward (h : w.Ordered) (moves : List Move) : ∀ s ∈ w.db.stamp, ∃ s' ∈ (w.run moves).db.stamp, s.Forward s' := by
  induction moves generalizing w with
  | nil => exact fun s hs => ⟨s, hs, .refl s⟩
  | cons m moves ih =>
    intro s hs
    obtain ⟨s', hs', hstep⟩ := (step_turn w m).forward h s hs
    obtain ⟨s'', hs'', hrest⟩ := ih ((step_turn w m).ordered h) s' hs'
    exact ⟨s'', hs'', hstep.trans hrest⟩

theorem judgedUnder_le {build : Version} {rows : List Row} {state : Option Stamp} (h : ∀ s ∈ state, s.Holds build rows) {r : Row} (hr : r ∈ rows)
    {computedAt : Option Int} {version : Version} (hword : d1JudgedUnder state r.identity computedAt = some version) : version ≤ r.judgedUnder := by
  obtain ⟨s, hs, hword⟩ := Option.bind_eq_some_iff.mp hword
  split at hword
  · rename_i hpassed
    cases hword
    exact (h s hs).word hr hpassed
  · split at hword
    · obtain ⟨p, hp, rfl⟩ := Option.map_eq_some_iff.mp hword
      obtain ⟨hp, hdone⟩ := Option.filter_eq_some_iff.mp hp
      exact ((h s hs).previous p hp).2 hdone r hr
    · cases hword

theorem passed_le {build running : Version} {rows : List Row} {state : Option Stamp} (h : ∀ s ∈ state, s.Holds build rows) {r : Row} (hr : r ∈ rows)
    (hword : rejudgePassed running state r.identity = true) : running ≤ r.judgedUnder := by
  obtain ⟨s, hs, hword⟩ := (Option.any_eq_true _ _).mp hword
  simp only [Bool.and_eq_true, beq_iff_eq] at hword
  rw [← hword.1]
  exact (h s hs).word hr hword.2

/-- Where no fault skips an identity with a row of an older build, the stamp's words are true of every row; along every run
the cursor of a version never moves back and a tick keeps its bounds. -/
theorem rejudge_word (h : w.Fresh) (moves : List Move) :
    (Runs.Along World.step MeetsSkip w moves → ∀ r ∈ (w.run moves).db.rows,
      (∀ version, d1JudgedUnder (w.run moves).db.stamp r.identity ((w.run moves).db.states.lookup r.identity) = some version → version ≤ r.judgedUnder) ∧
        (rejudgePassed (w.run moves).build (w.run moves).db.stamp r.identity = true → (w.run moves).build ≤ r.judgedUnder)) ∧
      (Runs.Along World.step MeetsSave w moves → ∀ skip ∈ (w.run moves).skips, d1RejudgeIdentityFaultsMax ≤ skip.2) ∧
      (∀ first rest, moves = first ++ rest → ∀ s ∈ (w.run first).db.stamp, ∃ s' ∈ (w.run moves).db.stamp, s.Forward s') ∧
      ∀ t ∈ (w.run moves).tick, t.report.judgeCalls ≤ rejudgeCallsMax t.pace t.report.drainBound ∧ t.asked ≤ t.pace := by
  refine ⟨fun hmeets r hr => ?_, fun hmeets => ?_, ?_, fun t ht => ?_⟩
  · have hsound := (Runs.inv_along (I := fun w : World => w.Ordered ∧ w.Sound)
      (fun (w : World) m hw hm => ⟨(step_turn w m).ordered hw.1, (step_turn w m).sound hw.1 hm hw.2⟩) ⟨h.ordered, h.sound⟩ hmeets).2
    exact ⟨fun version hword => judgedUnder_le hsound.stamp hr hword, fun hword => passed_le hsound.stamp hr hword⟩
  · exact (Runs.inv_along (I := fun w : World => w.Ordered ∧ w.Counted)
      (fun (w : World) m hw hm => ⟨(step_turn w m).ordered hw.1, (step_turn w m).counted hw.1 hm hw.2⟩) ⟨h.ordered, h.counted⟩ hmeets).2.skips
  · rintro first rest rfl
    have hrest := run_forward (run_ordered h.ordered first) rest
    simpa only [World.run, List.foldl_append] using hrest
  · have hbounded : (w.run moves).Bounded := Runs.inv_run (fun w m hw => (step_turn w m).bounded hw) h.bounded moves
    exact ⟨(hbounded t ht).calls, (hbounded t ht).asked⟩

namespace Scene

def first : World := { build := 0 }

def moved : List Move := [.judged "b" ["g"] ⟨[("o", "g")], fun _ => true, 5⟩, .deploy 1, .start 10 none false, .batch true, .batch true]

def again : List Move := [.start 20 none false, .batch true]

def poisoned : List Move := moved ++ [.judge none, .batch true] ++ again ++ [.judge none, .batch true] ++ again ++ [.judge none, .batch true]

def unsaved : List Move :=
  let well : List Move := again ++ [.judge (some ⟨[("o", "g")], fun _ => true, 25⟩), .batch false]
  moved ++ [.judge none, .batch true] ++ well ++ again ++ [.judge none, .batch true] ++ well ++ again ++ [.judge none]

def walked : List Move :=
  moved ++ [.judge none, .batch true] ++ again ++ [.judge (some ⟨[("o", "g")], fun _ => true, 25⟩), .batch true, .batch true]

theorem first_fresh : first.Fresh := ⟨fun _ h => (by cases h), rfl, rfl, rfl⟩

end Scene

theorem rejudge_word_poisoned :
    Scene.first.Fresh ∧
      (d1JudgedUnder (Scene.first.run Scene.poisoned).db.stamp "b" ((Scene.first.run Scene.poisoned).db.states.lookup "b") = some 1 ∧
        (Scene.first.run Scene.poisoned).db.rows = [⟨"b", "o", "g", 0⟩]) ∧
      (Scene.first.run Scene.unsaved).skips = [("b", 1)] :=
  ⟨Scene.first_fresh, by decide, by decide⟩

theorem rejudge_word_walked :
    d1JudgedUnder (Scene.first.run Scene.walked).db.stamp "b" ((Scene.first.run Scene.walked).db.states.lookup "b") = some 1 ∧
      (∀ r ∈ (Scene.first.run Scene.walked).db.rows,
        (∀ version, d1JudgedUnder (Scene.first.run Scene.walked).db.stamp r.identity ((Scene.first.run Scene.walked).db.states.lookup r.identity) = some version →
            version ≤ r.judgedUnder) ∧
          (rejudgePassed (Scene.first.run Scene.walked).build (Scene.first.run Scene.walked).db.stamp r.identity = true →
            (Scene.first.run Scene.walked).build ≤ r.judgedUnder)) ∧
      ∀ skip ∈ (Scene.first.run Scene.poisoned).skips, d1RejudgeIdentityFaultsMax ≤ skip.2 := by
  refine ⟨by decide, (rejudge_word Scene.first_fresh Scene.walked).1 ?_, (rejudge_word Scene.first_fresh Scene.poisoned).2.1 ?_⟩
  · decide
  · decide

end OverlayEngine.Rejudge
