import OverlayEngine.AppLayer.OwedBackfill
import OverlayEngine.Basis.Runs

/-!
# The backfill's cursor, skips, marks and batches over a run

The cursor and the fault counts keep their order along every run. What lies at
or past the cursor is marked as long as no identity is passed by before a batch
of its marks landed, and a mark is cleared only by the commit that judges its
game. The open identity's batch shrinks as long as no other is opened before it
is saved.
-/

namespace OverlayEngine.OwedBackfill

open OrderedPages (firsts merged)

theorem commits_frame (identity : Identity) (commits : List Commit) (db : Db) :
    ∃ sources dirty, commits.foldl (Db.commit identity) db = { db with sources, dirty } := by
  induction commits generalizing db with
  | nil => exact ⟨_, _, rfl⟩
  | cons c commits ih =>
    obtain ⟨sources, dirty, h⟩ := ih (db.commit identity c)
    exact ⟨sources, dirty, h⟩

theorem World.judge_frame (w : World) (identity : Identity) (commits : List Commit) :
    ∃ sources dirty judged, w.judge identity commits = { w with db := { w.db with sources, dirty }, judged } := by
  obtain ⟨sources, dirty, h⟩ := commits_frame identity commits w.db
  exact ⟨sources, dirty, _, by rw [judge, h]⟩

/-! ## The cursor and the fault counts -/

structure Progress where
  cursor : Option Identity
  faults : Option (Identity × Nat)
  skipped : List Identity
  passes : Nat
  faulted : List (Identity × Nat)

def World.progress (w : World) : Progress := ⟨w.db.cursor, w.db.faults, w.db.skipped, w.passes, w.faulted⟩

namespace Progress

def faultsIn (q : Progress) (identity : Identity) : Nat := q.faulted.countP (·.1 == identity)

structure Counted (q : Progress) : Prop where
  once : q.faulted.Nodup
  begun : ∀ f ∈ q.faulted, f.2 ≤ q.passes
  faults : ∀ identity n, q.faults = some (identity, n) → n ≤ q.faultsIn identity
  skipped : ∀ identity ∈ q.skipped, identityFaultsMax ≤ q.faultsIn identity

def Fresh (q : Progress) : Prop := ∀ f ∈ q.faulted, f.2 < q.passes

def Reads (q : Progress) (g : Gate) : Prop := ∀ identity n, g.faults = some (identity, n) → n ≤ q.faultsIn identity

structure Ahead (q : Progress) (todo : List Identity) : Prop where
  ascending : todo.Pairwise (· < ·)
  past : ∃ c, q.cursor = some c ∧ ∀ identity ∈ todo, c < identity
  fresh : ∀ identity ∈ todo, (identity, q.passes) ∉ q.faulted

def At (q : Progress) : Stage → Prop
  | .idle | .arm => True
  | .stamp | .gate => q.Fresh
  | .evidence g | .page g => q.cursor = some g.cursor ∧ q.Reads g ∧ q.Fresh
  | .stampEmpty => ∃ c, q.cursor = some c
  | .mark p v | .games p v | .judge p v _ | .halve p v => q.Reads p.gate ∧ q.Ahead (v.identity :: v.rest)
  | .note identity seen => seen ≤ q.faultsIn identity
  | .save p v skip => q.Reads p.gate ∧ (∃ c, q.cursor = some c ∧ c < v.identity) ∧ (v.identity :: v.rest).Pairwise (· < ·) ∧
      (∀ next ∈ v.rest, (next, q.passes) ∉ q.faulted) ∧ (skip = true → identityFaultsMax ≤ q.faultsIn v.identity)

variable {q : Progress}

theorem Ahead.visit {p : Page} {todo : List Identity} (hr : q.Reads p.gate) (h : q.Ahead todo) : q.At (World.visit p todo) := by
  cases todo with
  | nil => trivial
  | cons identity rest =>
    by_cases ho : p.gate.openRow = some identity
    · rw [World.visit, if_pos ho]
      exact ⟨hr, h⟩
    · rw [World.visit, if_neg ho]
      exact ⟨hr, h⟩

def fail (q : Progress) (identity : Identity) : Progress := { q with faulted := (identity, q.passes) :: q.faulted }

theorem faultsIn_fail (q : Progress) (identity other : Identity) :
    (q.fail identity).faultsIn other = q.faultsIn other + if identity = other then 1 else 0 := by
  by_cases h : identity = other
  · simp [faultsIn, fail, h]
  · simp [faultsIn, fail, h]

theorem faultsIn_le_fail (q : Progress) (identity other : Identity) : q.faultsIn other ≤ (q.fail identity).faultsIn other := by
  rw [faultsIn_fail]
  exact Nat.le_add_right _ _

theorem Reads.fail {g : Gate} (h : q.Reads g) (identity : Identity) : (q.fail identity).Reads g :=
  fun other n hn => (h other n hn).trans (faultsIn_le_fail q identity other)

theorem Counted.moved (h : q.Counted) (cursor : Option Identity) : Counted { q with cursor } := ⟨h.once, h.begun, h.faults, h.skipped⟩

theorem Counted.fail (h : q.Counted) {identity : Identity} (hfresh : (identity, q.passes) ∉ q.faulted) : (q.fail identity).Counted where
  once := List.nodup_cons.mpr ⟨hfresh, h.once⟩
  begun f hf := by
    rcases List.mem_cons.mp hf with rfl | hf
    · exact Nat.le_refl _
    · exact h.begun f hf
  faults other n hn := (h.faults other n hn).trans (faultsIn_le_fail q identity other)
  skipped other hs := (h.skipped other hs).trans (faultsIn_le_fail q identity other)

theorem Reads.seen {g : Gate} (h : q.Reads g) (identity : Identity) : faultsOf g.faults identity + 1 ≤ (q.fail identity).faultsIn identity := by
  have hread : faultsOf g.faults identity ≤ q.faultsIn identity := by
    unfold faultsOf
    split
    · next named n heq =>
      split
      · next hnamed => exact h identity n (hnamed ▸ heq)
      · exact Nat.zero_le _
    · exact Nat.zero_le _
  rw [faultsIn_fail, if_pos rfl]
  omega

end Progress

namespace World

variable {w : World}

structure Sound (w : World) : Prop where
  counted : w.progress.Counted
  atStage : w.progress.At w.stage

theorem Sound.goto (h : w.Sound) {stage : Stage} (hs : w.progress.At stage) : (w.goto stage).Sound := ⟨h.counted, hs⟩

theorem Sound.idle (h : w.Sound) : (w.goto .idle).Sound := h.goto trivial

variable {v : Visit}

theorem Sound.fail (h : w.Sound) {p : Page} (hr : w.progress.Reads p.gate) (ha : w.progress.Ahead (v.identity :: v.rest)) :
    (w.fail p v).Sound := by
  obtain ⟨c, hc, hpast⟩ := ha.past
  refine ⟨h.counted.fail (ha.fresh v.identity List.mem_cons_self), ?_⟩
  have hseen := hr.seen v.identity
  show (w.progress.fail v.identity).At (if faultsOf p.gate.faults v.identity + 1 < identityFaultsMax then _ else _)
  by_cases hmax : faultsOf p.gate.faults v.identity + 1 < identityFaultsMax
  · rw [if_pos hmax]
    exact hseen
  · rw [if_neg hmax]
    refine ⟨hr.fail v.identity, ⟨c, hc, hpast v.identity List.mem_cons_self⟩, ha.ascending, fun next hnext => ?_, fun _ => ?_⟩
    · intro hmem
      have hlt := (List.pairwise_cons.mp ha.ascending).1 next hnext
      rcases List.mem_cons.mp hmem with heq | hmem
      · exact absurd (congrArg Prod.fst heq) (ne_of_gt hlt)
      · exact ha.fresh next (List.mem_cons_of_mem _ hnext) hmem
    · exact (Nat.le_of_not_lt hmax).trans hseen

theorem sound_save (h : w.Sound) {p : Page} {skip : Bool} (hs : w.progress.At (.save p v skip)) :
    ((w.landSave p v skip).goto .idle).Sound ∧ ((w.landSave p v skip).goto (visit p v.rest)).Sound := by
  obtain ⟨hr, -, hasc, hfresh, hskip⟩ := hs
  have hcounted : (w.landSave p v skip).progress.Counted := by
    refine ⟨h.counted.once, h.counted.begun, ?_, ?_⟩
    · intro identity n hn
      simp only [progress, landSave] at hn
      split at hn
      · cases hn
      · exact h.counted.faults identity n hn
    · intro identity hmem
      simp only [progress, landSave] at hmem
      split at hmem
      · next hsk =>
        rcases List.mem_cons.mp hmem with rfl | hmem
        · exact hskip hsk
        · exact h.counted.skipped identity hmem
      · exact h.counted.skipped identity hmem
  refine ⟨⟨hcounted, trivial⟩, hcounted, Progress.Ahead.visit hr ⟨(List.pairwise_cons.mp hasc).2, ?_, hfresh⟩⟩
  exact ⟨v.identity, rfl, (List.pairwise_cons.mp hasc).1⟩

theorem Sound.readGate (h : w.Sound) (hf : w.progress.Fresh) (count : Option Nat) : w.progress.At (w.readGate count) := by
  unfold World.readGate
  split
  · split
    · trivial
    · next cursor hcursor =>
      dsimp only
      split <;> exact ⟨hcursor, h.counted.faults, hf⟩
  · trivial

theorem readPage_sound {g : Gate} (hs : w.progress.At (.page g)) : w.progress.At (w.readPage g) := by
  obtain ⟨hcursor, hr, hf⟩ := hs
  unfold readPage
  dsimp only
  split
  · exact ⟨_, hcursor⟩
  · refine Progress.Ahead.visit hr ⟨OrderedPages.merged_ascending, ⟨_, hcursor, fun _ => OrderedPages.lt_of_merged⟩, fun identity _ hmem => ?_⟩
    exact absurd (hf _ hmem) (Nat.lt_irrefl _)

theorem Sound.judge (h : w.Sound) (identity : Identity) (commits : List Commit) : (w.judge identity commits).Sound := by
  obtain ⟨sources, dirty, judged, heq⟩ := judge_frame w identity commits
  rw [heq]
  exact ⟨h.counted, h.atStage⟩

theorem Sound.judgeTurn (h : w.Sound) {p : Page} {games : List Game} (hs : w.progress.At (.judge p v games)) (env : Env) :
    (w.judgeTurn p v games env).Sound := by
  obtain ⟨sources, dirty, judged, heq⟩ := judge_frame w v.identity (env.commits.filter fun c => games.contains c.gameId)
  have hjudged : Sound { w with db := { w.db with sources, dirty }, judged, sizes := (v.identity, v.size) :: w.sizes } := ⟨h.counted, h.atStage⟩
  unfold World.judgeTurn
  rw [heq]
  dsimp only
  split
  · exact hjudged.goto hs
  · exact hjudged.fail hs.1 hs.2
  · split
    · exact hjudged.goto hs
    · exact hjudged.idle

theorem Sound.note (h : w.Sound) {identity : Identity} {seen : Nat} (hseen : seen ≤ w.progress.faultsIn identity) :
    ((w.landNote identity seen).goto .idle).Sound := by
  refine ⟨⟨h.counted.once, h.counted.begun, fun other n hn => ?_, h.counted.skipped⟩, trivial⟩
  cases hn
  exact hseen

theorem Sound.arm (h : w.Sound) : (w.landArm.goto .idle).Sound := by
  unfold landArm
  split <;> exact ⟨h.counted.moved _, trivial⟩

variable {write : World → World}

theorem Sound.landed {a : Await} {stage : Stage} (hwrite : ((write w).goto stage).Sound) (hleft : (w.goto stage).Sound) :
    ((w.landing a write).goto stage).Sound := by
  unfold landing
  split
  · exact hwrite
  · exact hleft

theorem Sound.turn (h : w.Sound) (env : Env) : (w.turn env).Sound := by
  have hs := h.atStage
  unfold World.turn
  split
  · exact h
  · next heq =>
    rw [heq] at hs
    split
    · exact h.goto hs
    · exact h.idle
  · next heq =>
    rw [heq] at hs
    split
    · exact h.goto (h.readGate hs env.count)
    · exact h.idle
  · exact Sound.landed h.arm h.idle
  · next g heq =>
    rw [heq] at hs
    split
    · exact ⟨h.counted, hs⟩
    · exact ⟨h.counted, trivial⟩
  · next g heq =>
    rw [heq] at hs
    split
    · exact h.goto (readPage_sound hs)
    · exact h.idle
  · exact Sound.landed ⟨h.counted, trivial⟩ h.idle
  · next p v heq =>
    rw [heq] at hs
    split
    · exact Sound.landed ⟨h.counted, hs⟩ (h.goto hs)
    · next hfault =>
      rw [landing, hfault]
      exact h.fail hs.1 hs.2
    · exact Sound.landed ⟨h.counted, trivial⟩ h.idle
  · next p v heq =>
    rw [heq] at hs
    split
    · unfold World.readGames
      dsimp only
      split
      · obtain ⟨c, hc, hpast⟩ := hs.2.past
        exact h.goto ⟨hs.1, ⟨c, hc, hpast _ List.mem_cons_self⟩, hs.2.ascending, fun next hnext => hs.2.fresh next (List.mem_cons_of_mem _ hnext), fun h => (by cases h)⟩
      · split
        · exact h.fail hs.1 hs.2
        · exact h.goto hs
    · exact h.fail hs.1 hs.2
    · exact h.idle
  · next p v games heq =>
    rw [heq] at hs
    exact h.judgeTurn hs env
  · next p v heq =>
    rw [heq] at hs
    split
    · exact h.fail hs.1 hs.2
    · exact Sound.landed ⟨h.counted, trivial⟩ h.idle
  · next identity seen heq =>
    rw [heq] at hs
    exact Sound.landed (h.note hs) h.idle
  · next p v skip heq =>
    rw [heq] at hs
    obtain ⟨hidle, hvisit⟩ := sound_save h hs
    split
    · next hok =>
      rw [landing, hok]
      exact hvisit
    · exact Sound.landed hidle h.idle

theorem Sound.begin (h : w.Sound) : w.begin.Sound := by
  unfold World.begin
  split
  · refine ⟨⟨h.counted.once, fun f hf => (h.counted.begun f hf).trans (Nat.le_succ _), h.counted.faults, h.counted.skipped⟩, fun f hf => ?_⟩
    exact Nat.lt_succ_of_le (h.counted.begun f hf)
  · exact h

theorem sound_step (m : Move) (h : w.Sound) : (w.step m).Sound := by
  cases m with
  | begin => exact h.begin
  | stop => exact h.idle
  | turn env => exact h.turn env
  | add rows => exact ⟨h.counted, h.atStage⟩
  | mark mark => exact ⟨h.counted, h.atStage⟩
  | drain identity commits => exact h.judge identity commits

theorem sound_start (sources : Sources) (dirty : List Mark) (truncated : List Identity) :
    (start sources dirty truncated).Sound :=
  ⟨⟨List.nodup_nil, fun _ hf => absurd hf List.not_mem_nil, nofun, fun _ hs => absurd hs List.not_mem_nil⟩, trivial⟩

/-! ## The cursor goes forward -/

def Forward (before after : World) : Prop := ∀ c, before.db.cursor = some c → ∃ c', after.db.cursor = some c' ∧ c ≤ c'

theorem forward_of_eq {w' : World} (h : w'.db.cursor = w.db.cursor) : Forward w w' := fun c hc => ⟨c, h.trans hc, le_refl c⟩

theorem judge_cursor (w : World) (identity : Identity) (commits : List Commit) : (w.judge identity commits).db.cursor = w.db.cursor := by
  obtain ⟨sources, dirty, judged, heq⟩ := judge_frame w identity commits
  rw [heq]

theorem landing_cursor {a : Await} (hwrite : (write w).db.cursor = w.db.cursor) :
    (w.landing a write).db.cursor = w.db.cursor := by
  unfold landing
  split
  · exact hwrite
  · rfl

theorem Sound.forward_turn (h : w.Sound) (env : Env) : Forward w (w.turn env) := by
  have hs := h.atStage
  unfold World.turn
  split
  · exact forward_of_eq rfl
  · exact forward_of_eq rfl
  · exact forward_of_eq rfl
  · unfold landing landArm
    split
    · split
      · next hnone => exact fun c hc => absurd (hnone.symm.trans hc) (by simp)
      · next c hc => exact forward_of_eq (show some (w.db.cursor.getD "") = w.db.cursor by rw [hc, Option.getD_some])
    · exact forward_of_eq rfl
  · exact forward_of_eq rfl
  · exact forward_of_eq rfl
  · exact forward_of_eq (landing_cursor rfl)
  · split
    · exact forward_of_eq (landing_cursor rfl)
    · exact forward_of_eq (landing_cursor rfl)
    · exact forward_of_eq (landing_cursor rfl)
  · split
    · unfold World.readGames
      dsimp only
      split
      · exact forward_of_eq rfl
      · split <;> exact forward_of_eq rfl
    · exact forward_of_eq rfl
    · exact forward_of_eq rfl
  · next p v games heq =>
    unfold World.judgeTurn
    dsimp only
    split <;> exact forward_of_eq (judge_cursor w _ _)
  · split
    · exact forward_of_eq rfl
    · exact forward_of_eq (landing_cursor rfl)
  · exact forward_of_eq (landing_cursor rfl)
  · next p v skip heq =>
    rw [heq] at hs
    obtain ⟨-, ⟨c, hc, hlt⟩, -⟩ := hs
    unfold landing
    split
    · intro c' hc'
      cases hc.symm.trans hc'
      exact ⟨v.identity, rfl, le_of_lt hlt⟩
    · exact forward_of_eq rfl

theorem Sound.forward (h : w.Sound) (m : Move) : Forward w (w.step m) := by
  cases m with
  | begin =>
    show Forward w w.begin
    unfold World.begin
    split <;> exact forward_of_eq rfl
  | stop => exact forward_of_eq rfl
  | turn env => exact h.forward_turn env
  | add rows => exact forward_of_eq rfl
  | mark mark => exact forward_of_eq rfl
  | drain identity commits => exact forward_of_eq (judge_cursor w identity commits)

end World

/-! ## What is at or past the cursor is marked -/

namespace Sources

def Listed (s : Sources) (identity : Identity) : Prop := "" < identity ∧ ∃ side ∈ s.sides, identity ∈ side

variable {s : Sources}

theorem seated_add {t : Sources} {p : EvictedParty} (h : s.seated p = true) : (s.add t).seated p = true := by
  simp only [seated, add, Bool.and_eq_true, List.any_append, Bool.or_eq_true] at h ⊢
  exact ⟨h.1, .inl h.2⟩

variable {identity : Identity}

theorem Listed.add (h : s.Listed identity) (t : Sources) : (s.add t).Listed identity := by
  obtain ⟨hempty, side, hside, hmem⟩ := h
  refine ⟨hempty, ?_⟩
  simp only [sides, List.mem_cons, List.not_mem_nil, or_false] at hside ⊢
  rcases hside with rfl | rfl | rfl
  · refine ⟨_, .inl rfl, ?_⟩
    rw [Sources.add, List.map_append]
    exact List.mem_append_left _ hmem
  · refine ⟨_, .inr (.inl rfl), ?_⟩
    rw [Sources.add, List.map_append]
    exact List.mem_append_left _ hmem
  · refine ⟨_, .inr (.inr rfl), ?_⟩
    obtain ⟨p, hp, rfl⟩ := List.mem_map.mp hmem
    obtain ⟨hin, hseat⟩ := List.mem_filter.mp hp
    exact List.mem_map_of_mem (List.mem_filter.mpr ⟨List.mem_append_left _ hin, seated_add hseat⟩)

theorem mem_games {game : Game} :
    game ∈ s.games identity ↔
      ((identity, game) ∈ s.potparty ∨ (identity, game) ∈ s.hopparty ∨ (identity, game) ∈ s.released ∨ (identity, game) ∈ s.missing ∨
        (identity, game) ∈ s.owedRows) ∧ game ≠ "" := by
  simp only [games, List.mem_dedup, List.mem_map, List.mem_filter, List.mem_append, Bool.and_eq_true, beq_iff_eq, bne_iff_ne]
  constructor
  · rintro ⟨⟨named, of⟩, ⟨hmem, rfl, hne⟩, rfl⟩
    exact ⟨by simpa only [or_assoc] using hmem, hne⟩
  · rintro ⟨hmem, hne⟩
    exact ⟨(identity, game), ⟨by simpa only [or_assoc] using hmem, rfl, hne⟩, rfl⟩

theorem games_add {game : Game} (h : game ∈ s.games identity) (t : Sources) : game ∈ (s.add t).games identity := by
  obtain ⟨hrow, hne⟩ := mem_games.mp h
  refine mem_games.mpr ⟨?_, hne⟩
  rcases hrow with hrow | hrow | hrow | hrow | hrow
  · exact .inl (List.mem_append_left _ hrow)
  · exact .inr (.inl (List.mem_append_left _ hrow))
  · exact .inr (.inr (.inl (List.mem_append_left _ hrow)))
  · exact .inr (.inr (.inr (.inl (List.mem_append_left _ hrow))))
  · exact .inr (.inr (.inr (.inr (List.mem_append_left _ hrow))))

end Sources

namespace Db

variable {db : Db} {identity other : Identity} {game : Game} {commits : List Commit}

theorem mark_dirty (hgame : game ∈ db.sources.games identity) : backfillMark identity game ∈ (db.mark identity).dirty := by
  by_cases hold : backfillMark identity game ∈ db.dirty
  · exact List.mem_append_left _ hold
  · refine List.mem_append_right _ (List.mem_filter.mpr ⟨List.mem_map_of_mem hgame, ?_⟩)
    simp only [Bool.not_eq_true', List.any_eq_false, beq_iff_eq]
    intro m hm heq
    exact hold (heq ▸ hm)

theorem commits_dirty (identity : Identity) (commits : List Commit) {m : Mark} (hm : m ∈ db.dirty) :
    m ∈ (commits.foldl (Db.commit identity) db).dirty ∨ m.identity = identity ∧ ∃ c ∈ commits, c.gameId = m.gameId := by
  induction commits generalizing db with
  | nil => exact .inl hm
  | cons c commits ih =>
    by_cases hclear : m.identity = identity ∧ m.gameId = c.gameId
    · exact .inr ⟨hclear.1, c, List.mem_cons_self, hclear.2.symm⟩
    · have hkeep : m ∈ (db.commit identity c).dirty := by
        refine List.mem_filter.mpr ⟨hm, ?_⟩
        simp only [Bool.not_eq_true', Bool.and_eq_false_iff, beq_eq_false_iff_ne]
        exact .inl (not_and_or.mp hclear)
      rcases ih hkeep with hin | ⟨hid, c', hc', hgame⟩
      · exact .inl hin
      · exact .inr ⟨hid, c', List.mem_cons_of_mem _ hc', hgame⟩

theorem commits_games (identity : Identity) (commits : List Commit) (hgame : game ∈ db.sources.games other) :
    game ∈ (commits.foldl (Db.commit identity) db).sources.games other ∨ other = identity ∧ ∃ c ∈ commits, c.gameId = game := by
  induction commits generalizing db with
  | nil => exact .inl hgame
  | cons c commits ih =>
    by_cases hclear : other = identity ∧ game = c.gameId
    · exact .inr ⟨hclear.1, c, List.mem_cons_self, hclear.2.symm⟩
    · have hkeep : game ∈ (db.commit identity c).sources.games other := by
        obtain ⟨hrow, hne⟩ := Sources.mem_games.mp hgame
        refine Sources.mem_games.mpr ⟨?_, hne⟩
        rcases hrow with hrow | hrow | hrow | hrow | hrow
        · exact .inl hrow
        · exact .inr (.inl hrow)
        · exact .inr (.inr (.inl hrow))
        · exact .inr (.inr (.inr (.inl hrow)))
        · refine .inr (.inr (.inr (.inr (List.mem_append_left _ (List.mem_filter.mpr ⟨hrow, ?_⟩)))))
          simp only [Bool.not_eq_true', Bool.and_eq_false_iff, beq_eq_false_iff_ne]
          exact not_and_or.mp hclear
      rcases ih hkeep with hin | ⟨hid, c', hc', hsame⟩
      · exact .inl hin
      · exact .inr ⟨hid, c', List.mem_cons_of_mem _ hc', hsame⟩

theorem commits_sides : (commits.foldl (Db.commit identity) db).sources.sides = db.sources.sides := by
  induction commits generalizing db with
  | nil => rfl
  | cons c commits ih => exact ih

end Db

namespace World

variable {w : World} {armed : Sources} {identity : Identity} {game : Game}

def Tracked (w : World) (identity : Identity) (game : Game) : Prop :=
  (identity, game) ∈ w.judged ∨ ∃ m ∈ w.db.dirty, m.identity = identity ∧ m.gameId = game

def PassesTracked (w : World) : Prop :=
  ∀ armed, w.armed = some armed → ∀ identity, armed.Listed identity → w.db.stamped = true ∨ (∃ c, w.db.cursor = some c ∧ identity ≤ c) →
    ∀ game ∈ armed.games identity, w.Tracked identity game

def passesBy (w : World) (m : Move) : Option Identity :=
  match w.stage, m with
  | .save _ v true, .turn env => if env.await.lands then some v.identity else none
  | _, _ => none

def MeetsSkip (w : World) (m : Move) : Prop := ∀ identity ∈ w.passesBy m, identity ∈ w.marked

instance (w : World) (m : Move) : Decidable (w.MeetsSkip m) := Option.decidableForallMem _

structure Named (w : World) : Prop where
  listed : ∀ armed, w.armed = some armed → ∀ identity, armed.Listed identity → w.db.sources.Listed identity
  games : ∀ armed, w.armed = some armed → ∀ identity, ∀ game ∈ armed.games identity,
    (identity, game) ∈ w.judged ∨ game ∈ w.db.sources.games identity
  tracked : ∀ armed, w.armed = some armed → ∀ identity ∈ w.marked, ∀ game ∈ armed.games identity, w.Tracked identity game

theorem Named.add (h : w.Named) (t : Sources) : Named { w with db := { w.db with sources := w.db.sources.add t } } where
  listed armed ha identity hl := (h.listed armed ha identity hl).add t
  games armed ha identity game hg := (h.games armed ha identity game hg).imp_right fun hin => Sources.games_add hin t
  tracked := h.tracked

theorem Named.judge (h : w.Named) (identity : Identity) (commits : List Commit) : (w.judge identity commits).Named where
  listed armed ha other hl := by
    obtain ⟨hempty, hside⟩ := h.listed armed ha other hl
    refine ⟨hempty, ?_⟩
    rw [World.judge, Db.commits_sides]
    exact hside
  games armed ha other game hg := by
    rcases h.games armed ha other game hg with hj | hin
    · exact .inl (List.mem_append_right _ hj)
    · rcases Db.commits_games identity commits hin with hin | ⟨rfl, c, hc, rfl⟩
      · exact .inr hin
      · exact .inl (List.mem_append_left _ (List.mem_map_of_mem hc))
  tracked armed ha other hm game hg := by
    rcases h.tracked armed ha other hm game hg with hj | ⟨m, hmark, rfl, rfl⟩
    · exact .inl (List.mem_append_right _ hj)
    · rcases Db.commits_dirty identity commits hmark with hin | ⟨hid, c, hc, hgame⟩
      · exact .inr ⟨m, hin, rfl, rfl⟩
      · rw [hid, ← hgame]
        exact .inl (List.mem_append_left _ (List.mem_map_of_mem hc))

theorem Named.mark (h : w.Named) (identity : Identity) : (w.landMark identity).Named where
  listed := h.listed
  games := h.games
  tracked armed ha other hm game hg := by
    rcases List.mem_cons.mp hm with rfl | hm
    · rcases h.games armed ha other game hg with hj | hin
      · exact .inl hj
      · exact .inr ⟨_, Db.mark_dirty hin, rfl, rfl⟩
    · exact (h.tracked armed ha other hm game hg).imp_right fun ⟨m, hmark, hsame⟩ => ⟨m, List.mem_append_left _ hmark, hsame⟩

end World

structure Passing where
  armed : Option Sources
  cursor : Option Identity
  openRow : Option Identity
  stamped : Bool
  marked : List Identity

def World.passing (w : World) : Passing := ⟨w.armed, w.db.cursor, w.db.openRow, w.db.stamped, w.marked⟩

namespace Passing

variable {q : Passing}

structure Whole (q : Passing) (p : Page) (todo : List Identity) : Prop where
  opened : ∀ identity, p.gate.openRow = some identity → identity ∈ q.marked
  whole : ∀ armed, q.armed = some armed → ∀ identity, armed.Listed identity →
    identity ∈ q.marked ∨ identity ∈ todo ∨ p.lastPage = false ∧ ∀ next ∈ todo, next < identity

def At (q : Passing) : Stage → Prop
  | .evidence g | .page g => ∀ identity, g.openRow = some identity → identity ∈ q.marked
  | .stampEmpty => ∀ armed, q.armed = some armed → ∀ identity, armed.Listed identity → identity ∈ q.marked
  | .mark p v => q.Whole p (v.identity :: v.rest)
  | .games p v | .judge p v _ | .halve p v => q.Whole p (v.identity :: v.rest) ∧ v.identity ∈ q.marked
  | .save p v skip => q.Whole p (v.identity :: v.rest) ∧ (skip = false → v.identity ∈ q.marked)
  | _ => True

structure Marked (q : Passing) : Prop where
  unarmed : q.cursor = none → q.openRow = none ∧ q.stamped = false
  opened : ∀ identity, q.openRow = some identity → identity ∈ q.marked
  passed : ∀ armed, q.armed = some armed → ∀ identity, armed.Listed identity → ∀ c, q.cursor = some c → identity ≤ c → identity ∈ q.marked
  stamped : q.stamped = true → ∀ armed, q.armed = some armed → ∀ identity, armed.Listed identity → identity ∈ q.marked

variable {todo : List Identity}

theorem Whole.visit {p : Page} (h : q.Whole p todo) : q.At (World.visit p todo) := by
  cases todo with
  | nil => trivial
  | cons identity rest =>
    by_cases ho : p.gate.openRow = some identity
    · rw [World.visit, if_pos ho]
      exact ⟨h, h.opened identity ho⟩
    · rw [World.visit, if_neg ho]
      exact h

theorem Whole.marks {p : Page} (h : q.Whole p todo) (identity : Identity) :
    Whole { q with openRow := some identity, marked := identity :: q.marked } p todo where
  opened other ho := List.mem_cons_of_mem _ (h.opened other ho)
  whole armed ha other hl := (h.whole armed ha other hl).imp_left fun hm => List.mem_cons_of_mem _ hm

theorem Marked.marks (h : q.Marked) (identity : Identity) (hc : q.cursor ≠ none) : Marked { q with openRow := some identity, marked := identity :: q.marked } where
  unarmed hnone := absurd hnone hc
  opened other ho := by
    cases ho
    exact List.mem_cons_self
  passed armed ha other hl c hc hle := List.mem_cons_of_mem _ (h.passed armed ha other hl c hc hle)
  stamped hs armed ha other hl := List.mem_cons_of_mem _ (h.stamped hs armed ha other hl)

theorem Whole.upTo {p : Page} {identity : Identity} {rest : List Identity} (h : q.Whole p (identity :: rest)) (hasc : (identity :: rest).Pairwise (· < ·))
    (hm : identity ∈ q.marked) {armed : Sources} (ha : q.armed = some armed) {other : Identity} (hl : armed.Listed other) :
    other ∈ q.marked ∨ other ∈ rest ∨ p.lastPage = false ∧ identity < other ∧ ∀ next ∈ rest, next < other := by
  rcases h.whole armed ha other hl with hin | hin | ⟨hlast, habove⟩
  · exact .inl hin
  · rcases List.mem_cons.mp hin with rfl | hin
    · exact .inl hm
    · exact .inr (.inl hin)
  · exact .inr (.inr ⟨hlast, habove _ List.mem_cons_self, fun next hnext => habove next (List.mem_cons_of_mem _ hnext)⟩)

end Passing

namespace World

variable {w : World}

structure Backed (w : World) : Prop where
  named : w.Named
  marked : w.passing.Marked
  atStage : w.passing.At w.stage

theorem Named.goto (h : w.Named) (stage : Stage) : (w.goto stage).Named := ⟨h.listed, h.games, h.tracked⟩

variable {stage : Stage}

theorem Backed.goto (h : w.Backed) (ha : w.passing.At stage) : (w.goto stage).Backed := ⟨h.named.goto stage, h.marked, ha⟩

theorem Backed.idle (h : w.Backed) : (w.goto .idle).Backed := h.goto trivial

theorem Backed.landed {a : Await} {write : World → World} (hwrite : a.lands = true → ((write w).goto stage).Backed)
    (hleft : (w.goto stage).Backed) : ((w.landing a write).goto stage).Backed := by
  unfold landing
  split
  · next hlands => exact hwrite hlands
  · exact hleft

theorem landArm_some {c : Identity} (hc : w.db.cursor = some c) : w.landArm = w := by
  obtain ⟨⟨⟩⟩ := w
  cases hc
  rfl

theorem Backed.arm (h : w.Backed) : (w.landArm.goto .idle).Backed := by
  cases hc : w.db.cursor with
  | some c =>
    rw [landArm_some hc]
    exact h.idle
  | none =>
    obtain ⟨hopen, hstamp⟩ := h.marked.unarmed hc
    rw [landArm, hc]
    refine ⟨⟨?_, ?_, ?_⟩, ⟨fun h => (by cases h), ?_, ?_, ?_⟩, trivial⟩
    · intro armed ha identity hl
      cases ha
      exact hl
    · intro armed ha identity game hg
      cases ha
      exact .inr hg
    · exact fun _ _ identity hm => absurd hm List.not_mem_nil
    · exact fun identity ho => absurd (hopen.symm.trans ho) (by simp)
    · intro armed _ identity hl c hcur hle
      have hempty : c = "" := by
        have hget : some (w.db.cursor.getD "") = some c := hcur
        rw [hc] at hget
        exact (Option.some.inj hget).symm
      exact absurd (hl.1.trans_le (hempty ▸ hle)) (lt_irrefl _)
    · exact fun hs => absurd (hstamp.symm.trans hs) (by simp)

theorem Backed.phase (h : w.Backed) (ph : Phase) (ha : w.passing.At stage) : ((w.landPhase ph).goto stage).Backed := by
  have hadd := h.named.add { released := ph.released, missing := ph.missing }
  exact ⟨⟨hadd.listed, hadd.games, hadd.tracked⟩, h.marked, ha⟩

variable {v : Visit} {p : Page}

theorem Backed.marks (h : w.Backed) (hc : w.db.cursor ≠ none) (hw : w.passing.Whole p (v.identity :: v.rest)) :
    ((w.landMark v.identity).goto (.games p v)).Backed :=
  ⟨(h.named.mark v.identity).goto _, h.marked.marks v.identity hc, hw.marks v.identity, List.mem_cons_self⟩

theorem Backed.fail (h : w.Backed) (hw : w.passing.Whole p (v.identity :: v.rest)) : (w.fail p v).Backed := by
  refine ⟨⟨h.named.listed, h.named.games, h.named.tracked⟩, h.marked, ?_⟩
  show w.passing.At (if faultsOf p.gate.faults v.identity + 1 < identityFaultsMax then _ else _)
  split
  · trivial
  · exact ⟨hw, fun h => (by cases h)⟩

theorem Backed.judge (h : w.Backed) (identity : Identity) (commits : List Commit) : (w.judge identity commits).Backed := by
  have hnamed := h.named.judge identity commits
  obtain ⟨sources, dirty, judged, heq⟩ := judge_frame w identity commits
  rw [heq] at hnamed ⊢
  exact ⟨hnamed, h.marked, h.atStage⟩

theorem Backed.judgeTurn (h : w.Backed) {games : List Game} (hs : w.passing.At (.judge p v games)) (env : Env) :
    (w.judgeTurn p v games env).Backed := by
  have hjudge := h.judge v.identity (env.commits.filter fun c => games.contains c.gameId)
  obtain ⟨sources, dirty, judged, heq⟩ := judge_frame w v.identity (env.commits.filter fun c => games.contains c.gameId)
  unfold World.judgeTurn
  rw [heq] at hjudge ⊢
  have hsized : Backed { w with db := { w.db with sources, dirty }, judged, sizes := (v.identity, v.size) :: w.sizes } :=
    ⟨⟨hjudge.named.listed, hjudge.named.games, hjudge.named.tracked⟩, hjudge.marked, hjudge.atStage⟩
  dsimp only
  split
  · exact hsized.goto hs
  · exact hsized.fail hs.1
  · split
    · exact hsized.goto hs
    · exact hsized.idle

theorem Backed.save (h : w.Backed) {skip : Bool} (hasc : (v.identity :: v.rest).Pairwise (· < ·))
    (hw : w.passing.Whole p (v.identity :: v.rest)) (hm : v.identity ∈ w.marked) :
    ((w.landSave p v skip).goto (visit p v.rest)).Backed := by
  refine ⟨⟨h.named.listed, h.named.games, h.named.tracked⟩, ⟨fun h => (by cases h), h.marked.opened, ?_, ?_⟩, Passing.Whole.visit ⟨hw.opened, ?_⟩⟩
  · intro armed ha other hl c hcur hle
    cases hcur
    rcases hw.upTo hasc hm ha hl with hin | hin | ⟨-, hlt, -⟩
    · exact hin
    · exact absurd ((List.pairwise_cons.mp hasc).1 other hin) (not_lt.mpr hle)
    · exact absurd hlt (not_lt.mpr hle)
  · intro hs armed ha other hl
    have hstamp : (w.db.stamped || (p.lastPage && v.rest.isEmpty)) = true := hs
    simp only [Bool.or_eq_true, Bool.and_eq_true, List.isEmpty_iff] at hstamp
    rcases hstamp with hold | ⟨hlast, hempty⟩
    · exact h.marked.stamped hold armed ha other hl
    · rcases hw.upTo hasc hm ha hl with hin | hin | ⟨hmore, -⟩
      · exact hin
      · rw [hempty] at hin
        exact absurd hin List.not_mem_nil
      · exact absurd (hlast.symm.trans hmore) (by simp)
  · intro armed ha other hl
    exact (hw.upTo hasc hm ha hl).imp_right (Or.imp_right fun hmore => ⟨hmore.1, hmore.2.2⟩)

theorem Backed.readGate (h : w.Backed) (count : Option Nat) : w.passing.At (w.readGate count) := by
  unfold World.readGate
  split
  · split
    · trivial
    · dsimp only
      split <;> exact h.marked.opened
  · trivial

theorem Backed.readPage (h : w.Backed) {g : Gate} (hs : w.progress.At (.page g)) (hg : w.passing.At (.page g)) : w.passing.At (w.readPage g) := by
  have hpage : ∀ armed, w.armed = some armed → ∀ identity, armed.Listed identity → identity ∈ w.marked ∨
      OrderedPages.Leaves identitiesPerPass (w.db.sources.identities g.cursor) identity := by
    intro armed ha identity hl
    by_cases hle : identity ≤ g.cursor
    · exact .inl (h.marked.passed armed ha identity hl g.cursor hs.1 hle)
    · obtain ⟨-, side, hside, hmem⟩ := h.named.listed armed ha identity hl
      exact .inr (OrderedPages.merged_leaves hside hmem (not_le.mp hle))
  unfold World.readPage
  dsimp only
  split
  · next hempty =>
    intro armed ha identity hl
    rw [List.isEmpty_iff.mp hempty] at hpage
    rcases hpage armed ha identity hl with hin | hin | ⟨hlen, -⟩
    · exact hin
    · exact absurd hin List.not_mem_nil
    · exact absurd hlen (fun h => (by cases h))
  · refine Passing.Whole.visit ⟨hg, fun armed ha identity hl => ?_⟩
    rcases hpage armed ha identity hl with hin | hin | ⟨hlen, habove⟩
    · exact .inl hin
    · exact .inr (.inl hin)
    · exact .inr (.inr ⟨by simp [hlen], habove⟩)

theorem Backed.turn (hsound : w.Sound) (h : w.Backed) (env : Env) (hmeets : w.MeetsSkip (.turn env)) : (w.turn env).Backed := by
  have hs := hsound.atStage
  have ha := h.atStage
  unfold World.turn
  split
  · exact h
  · split
    · exact h.goto trivial
    · exact h.idle
  · split
    · exact h.goto (h.readGate env.count)
    · exact h.idle
  · exact Backed.landed (fun _ => h.arm) h.idle
  · next g heq =>
    rw [heq] at ha
    split
    · exact h.phase env.phase ha
    · exact h.phase env.phase trivial
  · next g heq =>
    rw [heq] at ha hs
    split
    · exact h.goto (h.readPage hs ha)
    · exact h.idle
  · next heq =>
    rw [heq] at ha hs
    refine Backed.landed (fun _ => ⟨⟨h.named.listed, h.named.games, h.named.tracked⟩, ⟨?_, h.marked.opened, h.marked.passed, fun _ => ha⟩, trivial⟩) h.idle
    obtain ⟨c, hc⟩ := hs
    exact fun hnone => absurd (hc.symm.trans hnone) (by simp)
  · next p v heq =>
    rw [heq] at ha hs
    obtain ⟨c, hc, -⟩ := hs.2.past
    have hcur : w.db.cursor ≠ none := fun hnone => absurd (hc.symm.trans hnone) (by simp)
    split
    · next hok =>
      rw [landing, hok]
      exact h.marks hcur ha
    · next hfault =>
      rw [landing, hfault]
      exact h.fail ha
    · exact Backed.landed (fun _ => (h.marks hcur ha).idle) h.idle
  · next p v heq =>
    rw [heq] at ha
    split
    · unfold World.readGames
      dsimp only
      split
      · exact h.goto ⟨ha.1, fun _ => ha.2⟩
      · split
        · exact h.fail ha.1
        · exact h.goto ha
    · exact h.fail ha.1
    · exact h.idle
  · next p v games heq =>
    rw [heq] at ha
    exact h.judgeTurn ha env
  · next p v heq =>
    rw [heq] at ha
    split
    · exact h.fail ha.1
    · exact Backed.landed (fun _ => ⟨⟨h.named.listed, h.named.games, h.named.tracked⟩, h.marked, trivial⟩) h.idle
  · exact Backed.landed (fun _ => ⟨⟨h.named.listed, h.named.games, h.named.tracked⟩, h.marked, trivial⟩) h.idle
  · next p v skip heq =>
    rw [heq] at ha hs
    have hm : env.await.lands = true → v.identity ∈ w.marked := by
      intro hlands
      cases skip with
      | false => exact ha.2 rfl
      | true => exact hmeets v.identity (by simp [passesBy, heq, hlands])
    obtain ⟨-, -, hasc, -⟩ := hs
    split
    · next hok =>
      rw [landing, hok]
      exact h.save hasc ha.1 (hm (by rw [hok]; rfl))
    · exact Backed.landed (fun hlands => (h.save hasc ha.1 (hm hlands)).idle) h.idle

theorem backed_step (m : Move) (hsound : w.Sound) (h : w.Backed) (hmeets : w.MeetsSkip m) : (w.step m).Backed := by
  cases m with
  | begin =>
    show w.begin.Backed
    unfold World.begin
    split
    · exact ⟨⟨h.named.listed, h.named.games, h.named.tracked⟩, h.marked, trivial⟩
    · exact h
  | stop => exact h.idle
  | turn env => exact h.turn hsound env hmeets
  | add rows => exact ⟨h.named.add rows, h.marked, h.atStage⟩
  | mark mark =>
    refine ⟨⟨h.named.listed, h.named.games, fun armed ha identity hm game hg => ?_⟩, h.marked, h.atStage⟩
    exact (h.named.tracked armed ha identity hm game hg).imp_right fun ⟨m, hmark, hsame⟩ => ⟨m, List.mem_cons_of_mem _ hmark, hsame⟩
  | drain identity commits => exact h.judge identity commits

theorem backed_start (sources : Sources) (dirty : List Mark) (truncated : List Identity) :
    (start sources dirty truncated).Backed :=
  ⟨⟨fun _ h => (by cases h), fun _ h => (by cases h), fun _ h => (by cases h)⟩, ⟨fun _ => ⟨rfl, rfl⟩, fun _ h => (by cases h), fun _ h => (by cases h), fun h => (by cases h)⟩, trivial⟩

theorem Backed.passesTracked (h : w.Backed) : w.PassesTracked := by
  intro armed ha identity hl hpassed game hg
  have hm : identity ∈ w.marked := by
    rcases hpassed with hs | ⟨c, hc, hle⟩
    · exact h.marked.stamped hs armed ha identity hl
    · exact h.marked.passed armed ha identity hl c hc hle
  exact h.named.tracked armed ha identity hm game hg

end World

/-! ## The open identity's batch -/

theorem batchSizeFor_pos (batch : Option (Identity × Nat)) (identity : Identity) : 1 ≤ batchSizeFor batch identity := by
  unfold batchSizeFor gamesPerBatch
  split
  · split <;> omega
  · omega

variable {identity other : Identity} {batch : Option (Identity × Nat)}

theorem batchSizeFor_other (h : ∀ n, batch ≠ some (identity, n)) :
    batchSizeFor batch identity = gamesPerBatch := by
  unfold batchSizeFor
  split
  · next named size =>
    split
    · next heq => exact absurd (heq ▸ rfl) (h size)
    · rfl
  · rfl

def sizesOf (sizes : List (Identity × Nat)) (identity : Identity) : List Nat := (sizes.filter (·.1 == identity)).map Prod.snd

structure Shrinks (sizes : List Nat) : Prop where
  shrinks : sizes.Pairwise (· ≤ ·)
  positive : ∀ n ∈ sizes, 1 ≤ n
  full : ∀ n, sizes.getLast? = some n → n = gamesPerBatch

def Unsaved (cursor : Option Identity) (identity : Identity) : Prop := ∀ c ∈ cursor, c < identity

instance (cursor : Option Identity) (identity : Identity) : Decidable (Unsaved cursor identity) := Option.decidableForallMem _

def World.opens (w : World) (m : Move) : Option Identity :=
  match w.stage, m with
  | .mark _ v, .turn env => if env.await.lands then some v.identity else none
  | _, _ => none

def World.MeetsOpen (w : World) (m : Move) : Prop :=
  ∀ identity ∈ w.opens m, ∀ other ∈ w.db.openRow, Unsaved w.db.cursor other → other = identity

instance (w : World) (m : Move) : Decidable (w.MeetsOpen m) := Option.decidableForallMem _

structure Batches where
  cursor : Option Identity
  openRow : Option Identity
  batch : Option (Identity × Nat)
  sizes : List (Identity × Nat)

def World.batches (w : World) : Batches := ⟨w.db.cursor, w.db.openRow, w.db.batch, w.sizes⟩

theorem sizesOf_cons_self (sizes : List (Identity × Nat)) (identity : Identity) (size : Nat) :
    sizesOf ((identity, size) :: sizes) identity = size :: sizesOf sizes identity := by
  simp [sizesOf]

theorem sizesOf_cons_ne (h : other ≠ identity) (sizes : List (Identity × Nat)) (size : Nat) :
    sizesOf ((identity, size) :: sizes) other = sizesOf sizes other := by
  simp [sizesOf, h.symm]

theorem Shrinks.cons {sizes : List Nat} {size : Nat} (h : Shrinks sizes) (hle : ∀ n ∈ sizes, size ≤ n) (hpos : 1 ≤ size)
    (hfull : sizes = [] → size = gamesPerBatch) : Shrinks (size :: sizes) where
  shrinks := List.pairwise_cons.mpr ⟨hle, h.shrinks⟩
  positive n hn := by
    rcases List.mem_cons.mp hn with rfl | hn
    · exact hpos
    · exact h.positive n hn
  full n hn := by
    cases sizes with
    | nil =>
      cases hn
      exact hfull rfl
    | cons last sizes =>
      rw [List.getLast?_cons_cons] at hn
      exact h.full n hn

namespace Batches

variable {q : Batches}

structure Kept (q : Batches) : Prop where
  shrinks : ∀ identity, Shrinks (sizesOf q.sizes identity)
  opened : ∀ identity, Unsaved q.cursor identity → sizesOf q.sizes identity ≠ [] → q.openRow = some identity
  bounded : ∀ identity, Unsaved q.cursor identity → ∀ n ∈ sizesOf q.sizes identity, batchSizeFor q.batch identity ≤ n
  named : ∀ identity n, q.batch = some (identity, n) → sizesOf q.sizes identity ≠ []

structure Agrees (q : Batches) (g : Gate) (opening : Option Identity) : Prop where
  opened : ∀ identity, Unsaved q.cursor identity → some identity ≠ opening → (g.openRow = some identity ↔ q.openRow = some identity)
  batch : ∀ identity, Unsaved q.cursor identity → batchSizeFor g.batch identity = batchSizeFor q.batch identity

structure Judges (q : Batches) (p : Page) (v : Visit) : Prop where
  agrees : q.Agrees p.gate (some v.identity)
  opened : q.openRow = some v.identity
  size : v.size = batchSizeFor q.batch v.identity

def At (q : Batches) : Stage → Prop
  | .evidence g | .page g => q.Agrees g none
  | .mark p v => q.Agrees p.gate none ∧ sizesOf q.sizes v.identity = [] ∧ v.size = gamesPerBatch
  | .games p v | .judge p v _ => q.Judges p v
  | .halve p v => q.Judges p v ∧ sizesOf q.sizes v.identity ≠ []
  | .save p v _ => q.Agrees p.gate (some v.identity)
  | _ => True

theorem Agrees.opening {g : Gate} (h : q.Agrees g none) (identity : Identity) : q.Agrees g (some identity) where
  opened other hu _ := h.opened other hu (by simp)
  batch := h.batch

variable {p : Page}

theorem Kept.visit (h : q.Kept) {todo : List Identity} (ha : q.Agrees p.gate none) (hu : ∀ identity ∈ todo, Unsaved q.cursor identity) :
    q.At (World.visit p todo) := by
  cases todo with
  | nil => trivial
  | cons identity rest =>
    have hself := hu identity List.mem_cons_self
    by_cases ho : p.gate.openRow = some identity
    · rw [World.visit, if_pos ho]
      exact ⟨ha.opening identity, (ha.opened identity hself (by simp)).mp ho, ha.batch identity hself⟩
    · rw [World.visit, if_neg ho]
      refine ⟨ha, ?_, rfl⟩
      by_contra hne
      exact ho ((ha.opened identity hself (by simp)).mpr (h.opened identity hself hne))

theorem Kept.full (h : q.Kept) (hnone : sizesOf q.sizes identity = []) : batchSizeFor q.batch identity = gamesPerBatch :=
  batchSizeFor_other fun n hn => h.named identity n hn hnone

variable {v : Visit}

theorem Kept.marks (h : q.Kept) (hs : q.At (.mark p v))
    (hmeets : ∀ identity, q.openRow = some identity → Unsaved q.cursor identity → identity = v.identity) :
    Kept { q with openRow := some v.identity } ∧ At { q with openRow := some v.identity } (.games p v) := by
  obtain ⟨ha, hnone, hsize⟩ := hs
  refine ⟨⟨h.shrinks, fun identity hu hne => ?_, h.bounded, h.named⟩, ⟨fun identity hu hne => ?_, ha.batch⟩, rfl, hsize.trans (h.full hnone).symm⟩
  · rw [hmeets identity (h.opened identity hu hne) hu]
  · have hother : identity ≠ v.identity := fun heq => hne (heq ▸ rfl)
    constructor
    · exact fun ho => absurd (hmeets identity ((ha.opened identity hu (by simp)).mp ho) hu) hother
    · exact fun ho => absurd (Option.some.inj ho).symm hother

theorem Kept.judge (h : q.Kept) (hs : q.Judges p v) (hu : Unsaved q.cursor v.identity) :
    Kept { q with sizes := (v.identity, v.size) :: q.sizes } := by
  have hcases : ∀ identity, identity = v.identity ∧ sizesOf ((v.identity, v.size) :: q.sizes) identity = v.size :: sizesOf q.sizes v.identity ∨
      identity ≠ v.identity ∧ sizesOf ((v.identity, v.size) :: q.sizes) identity = sizesOf q.sizes identity := by
    intro identity
    by_cases heq : identity = v.identity
    · exact .inl ⟨heq, heq ▸ sizesOf_cons_self ..⟩
    · exact .inr ⟨heq, sizesOf_cons_ne heq ..⟩
  refine ⟨fun identity => ?_, fun identity hun hne => ?_, fun identity hun n hn => ?_, fun identity n hn => ?_⟩
  · rcases hcases identity with ⟨-, heq⟩ | ⟨-, heq⟩ <;> simp only [heq]
    · refine (h.shrinks v.identity).cons ?_ ?_ fun hnone => hs.size.trans (h.full hnone)
      · rw [hs.size]
        exact h.bounded v.identity hu
      · rw [hs.size]
        exact batchSizeFor_pos ..
    · exact h.shrinks identity
  · rcases hcases identity with ⟨rfl, -⟩ | ⟨-, heq⟩
    · exact hs.opened
    · exact h.opened identity hun (heq ▸ hne)
  · rcases hcases identity with ⟨rfl, heq⟩ | ⟨-, heq⟩ <;> simp only [heq] at hn
    · rcases List.mem_cons.mp hn with rfl | hn
      · exact le_of_eq hs.size.symm
      · exact h.bounded v.identity hun n hn
    · exact h.bounded identity hun n hn
  · rcases hcases identity with ⟨-, heq⟩ | ⟨-, heq⟩ <;> simp only [heq]
    · exact List.cons_ne_nil _ _
    · exact h.named identity n hn

theorem Kept.halves (h : q.Kept) (hs : q.At (.halve p v)) (hu : Unsaved q.cursor v.identity) :
    Kept { q with batch := some (v.identity, max (v.size / 2) 1) } := by
  obtain ⟨hj, hne⟩ := hs
  refine ⟨h.shrinks, h.opened, fun identity hun n hn => ?_, fun identity n hn => ?_⟩
  · by_cases heq : v.identity = identity
    · subst heq
      have hle := h.bounded v.identity hu n hn
      have hpos := batchSizeFor_pos q.batch v.identity
      rw [← hj.size] at hle hpos
      simp only [batchSizeFor, if_true]
      omega
    · have ho := h.opened identity hun (List.ne_nil_of_mem hn)
      rw [hj.opened] at ho
      exact absurd (Option.some.inj ho) heq
  · cases hn
    exact hne

theorem batchSizeFor_named (h : names batch identity = true) (hne : other ≠ identity) :
    batchSizeFor batch other = gamesPerBatch := by
  refine batchSizeFor_other fun n hn => ?_
  rw [hn] at h
  exact hne (by simpa [names] using h)

theorem Kept.saves (h : q.Kept) (ha : q.Agrees p.gate (some v.identity)) (hu : Unsaved q.cursor v.identity) :
    Kept { q with cursor := some v.identity, batch := if names p.gate.batch v.identity then none else q.batch } ∧
      Agrees { q with cursor := some v.identity, batch := if names p.gate.batch v.identity then none else q.batch } p.gate none := by
  have hlater : ∀ {identity}, Unsaved (some v.identity) identity → Unsaved q.cursor identity ∧ identity ≠ v.identity := by
    intro identity hun
    have hlt := hun v.identity rfl
    exact ⟨fun c hc => (hu c hc).trans hlt, ne_of_gt hlt⟩
  have hbatch : ∀ {identity}, Unsaved (some v.identity) identity →
      batchSizeFor p.gate.batch identity = batchSizeFor (if names p.gate.batch v.identity then none else q.batch) identity := by
    intro identity hun
    split
    · next hnames => rw [batchSizeFor_named hnames (hlater hun).2, batchSizeFor]
    · exact ha.batch identity (hlater hun).1
  refine ⟨⟨h.shrinks, fun identity hun => h.opened identity (hlater hun).1, fun identity hun n hn => ?_, fun identity n hn => ?_⟩, ?_, ?_⟩
  · show batchSizeFor (if names p.gate.batch v.identity then none else q.batch) identity ≤ n
    rw [← hbatch hun, ha.batch identity (hlater hun).1]
    exact h.bounded identity (hlater hun).1 n hn
  · simp only at hn
    split at hn
    · cases hn
    · exact h.named identity n hn
  · exact fun identity hun _ => ha.opened identity (hlater hun).1 fun heq => (hlater hun).2 (Option.some.inj heq)
  · exact fun identity hun => hbatch hun

end Batches

theorem Progress.Ahead.unsaved {q : Progress} {todo : List Identity} (h : q.Ahead todo) (hmem : identity ∈ todo) :
    Unsaved q.cursor identity := by
  obtain ⟨c, hc, hpast⟩ := h.past
  intro c' hc'
  cases hc.symm.trans hc'
  exact hpast identity hmem

namespace World

variable {w : World}

structure Sized (w : World) : Prop where
  kept : w.batches.Kept
  atStage : w.batches.At w.stage

theorem Sized.goto (h : w.Sized) {stage : Stage} (hs : w.batches.At stage) : (w.goto stage).Sized := ⟨h.kept, hs⟩

theorem Sized.idle (h : w.Sized) : (w.goto .idle).Sized := h.goto trivial

theorem Sized.landed {a : Await} {write : World → World} {stage : Stage} (hwrite : a.lands = true → ((write w).goto stage).Sized)
    (hleft : (w.goto stage).Sized) : ((w.landing a write).goto stage).Sized := by
  unfold landing
  split
  · next hlands => exact hwrite hlands
  · exact hleft

theorem sized_fail (h : w.batches.Kept) {p : Page} {v : Visit} (ha : w.batches.Agrees p.gate (some v.identity)) : (w.fail p v).Sized := by
  refine ⟨h, ?_⟩
  show w.batches.At (if faultsOf p.gate.faults v.identity + 1 < identityFaultsMax then _ else _)
  split
  · trivial
  · exact ha

theorem Sized.judge (h : w.Sized) (identity : Identity) (commits : List Commit) : (w.judge identity commits).Sized := by
  obtain ⟨sources, dirty, judged, heq⟩ := judge_frame w identity commits
  rw [heq]
  exact ⟨h.kept, h.atStage⟩

theorem Sized.judgeTurn (h : w.Sized) {p : Page} {v : Visit} {games : List Game} (hs : w.batches.Judges p v)
    (hu : Unsaved w.db.cursor v.identity) (env : Env) : (w.judgeTurn p v games env).Sized := by
  obtain ⟨sources, dirty, judged, heq⟩ := judge_frame w v.identity (env.commits.filter fun c => games.contains c.gameId)
  have hjudges : Batches.Judges { w.batches with sizes := (v.identity, v.size) :: w.sizes } p v := ⟨⟨hs.agrees.opened, hs.agrees.batch⟩, hs.opened, hs.size⟩
  have hkept := h.kept.judge hs hu
  unfold World.judgeTurn
  rw [heq]
  dsimp only
  split
  · exact ⟨hkept, ⟨hjudges.agrees.opened, hjudges.agrees.batch⟩, hjudges.opened, hjudges.size⟩
  · exact sized_fail hkept hjudges.agrees
  · split
    · refine ⟨hkept, ⟨⟨hjudges.agrees.opened, hjudges.agrees.batch⟩, hjudges.opened, hjudges.size⟩, ?_⟩
      exact (sizesOf_cons_self w.sizes v.identity v.size).trans_ne (List.cons_ne_nil _ _)
    · exact ⟨hkept, trivial⟩

theorem Sized.arm (h : w.Sized) : (w.landArm.goto .idle).Sized := by
  cases hc : w.db.cursor with
  | some c =>
    rw [landArm_some hc]
    exact h.idle
  | none =>
    have hany : ∀ identity, Unsaved w.db.cursor identity := fun identity c hc' => absurd (hc.symm.trans hc') (by simp)
    rw [landArm, hc]
    exact ⟨⟨h.kept.shrinks, fun identity _ => h.kept.opened identity (hany identity), fun identity _ => h.kept.bounded identity (hany identity),
      h.kept.named⟩, trivial⟩

theorem Sized.readGate (_h : w.Sized) (count : Option Nat) : w.batches.At (w.readGate count) := by
  unfold World.readGate
  split
  · split
    · trivial
    · dsimp only
      split <;> exact ⟨fun _ _ _ => Iff.rfl, fun _ _ => rfl⟩
  · trivial

theorem Sized.readPage (h : w.Sized) {g : Gate} (hs : w.progress.At (.page g)) (hg : w.batches.Agrees g none) : w.batches.At (w.readPage g) := by
  unfold World.readPage
  dsimp only
  split
  · trivial
  · refine h.kept.visit hg fun identity hmem c hc => ?_
    cases hs.1.symm.trans hc
    exact OrderedPages.lt_of_merged hmem

theorem Sized.turn (hsound : w.Sound) (h : w.Sized) (env : Env) (hmeets : w.MeetsOpen (.turn env)) : (w.turn env).Sized := by
  have hs := hsound.atStage
  have ha := h.atStage
  unfold World.turn
  split
  · exact h
  · split
    · exact h.goto trivial
    · exact h.idle
  · split
    · exact h.goto (h.readGate env.count)
    · exact h.idle
  · exact Sized.landed (fun _ => h.arm) h.idle
  · next g heq =>
    rw [heq] at ha
    split
    · exact ⟨h.kept, ha⟩
    · exact ⟨h.kept, trivial⟩
  · next g heq =>
    rw [heq] at ha hs
    split
    · exact h.goto (h.readPage hs ha)
    · exact h.idle
  · exact Sized.landed (fun _ => ⟨h.kept, trivial⟩) h.idle
  · next p v heq =>
    rw [heq] at ha
    have hmark : env.await.lands = true → ((w.landMark v.identity).goto (.games p v)).Sized := by
      intro hlands
      obtain ⟨hkept, hat⟩ := h.kept.marks ha (hmeets v.identity (by simp [opens, heq, hlands]))
      exact ⟨hkept, hat⟩
    split
    · next hok =>
      have hok' := hmark (by rw [hok]; rfl)
      rw [landing, hok]
      exact hok'
    · next hfault =>
      rw [landing, hfault]
      exact sized_fail h.kept (ha.1.opening v.identity)
    · exact Sized.landed (fun hlands => (hmark hlands).idle) h.idle
  · next p v heq =>
    rw [heq] at ha
    split
    · unfold World.readGames
      dsimp only
      split
      · exact h.goto ha.agrees
      · split
        · exact sized_fail h.kept ha.agrees
        · exact h.goto ha
    · exact sized_fail h.kept ha.agrees
    · exact h.idle
  · next p v games heq =>
    rw [heq] at ha hs
    exact h.judgeTurn ha (hs.2.unsaved List.mem_cons_self) env
  · next p v heq =>
    rw [heq] at ha hs
    split
    · exact sized_fail h.kept ha.1.agrees
    · exact Sized.landed (fun _ => ⟨h.kept.halves ha (hs.2.unsaved List.mem_cons_self), trivial⟩) h.idle
  · exact Sized.landed (fun _ => ⟨h.kept, trivial⟩) h.idle
  · next p v skip heq =>
    rw [heq] at ha hs
    obtain ⟨-, ⟨c, hc, hlt⟩, hasc, -⟩ := hs
    have hu : Unsaved w.db.cursor v.identity := fun c' hc' => by
      cases hc.symm.trans hc'
      exact hlt
    obtain ⟨hkept, hagrees⟩ := h.kept.saves ha hu
    have hvisit := hkept.visit hagrees fun next (hnext : next ∈ v.rest) c hc => by
      cases hc
      exact (List.pairwise_cons.mp hasc).1 next hnext
    split
    · next hok =>
      rw [landing, hok]
      exact ⟨hkept, hvisit⟩
    · exact Sized.landed (fun _ => ⟨hkept, trivial⟩) h.idle

theorem sized_step (m : Move) (hsound : w.Sound) (h : w.Sized) (hmeets : w.MeetsOpen m) : (w.step m).Sized := by
  cases m with
  | begin =>
    show w.begin.Sized
    unfold World.begin
    split
    · exact ⟨h.kept, trivial⟩
    · exact h
  | stop => exact h.idle
  | turn env => exact h.turn hsound env hmeets
  | add rows => exact ⟨h.kept, h.atStage⟩
  | mark mark => exact ⟨h.kept, h.atStage⟩
  | drain identity commits => exact h.judge identity commits

theorem sized_start (sources : Sources) (dirty : List Mark) (truncated : List Identity) :
    (start sources dirty truncated).Sized :=
  ⟨⟨fun _ => ⟨List.Pairwise.nil, fun _ hn => absurd hn List.not_mem_nil, fun _ h => (by cases h)⟩, fun _ _ hne => absurd rfl hne,
    fun _ _ _ hn => absurd hn List.not_mem_nil, nofun⟩, trivial⟩

/-! ## Every run -/

theorem backfill_kept (sources : Sources) (dirty : List Mark) (truncated : List Identity) (moves : List Move) :
    Runs.Along step (fun w m => Forward w (w.step m)) (start sources dirty truncated) moves ∧
    (∀ identity ∈ ((start sources dirty truncated).run moves).db.skipped,
      ((start sources dirty truncated).run moves).faulted.Nodup ∧
        identityFaultsMax ≤ ((start sources dirty truncated).run moves).progress.faultsIn identity) ∧
    (Runs.Along step MeetsSkip (start sources dirty truncated) moves →
      ((start sources dirty truncated).run moves).PassesTracked) ∧
    (Runs.Along step MeetsOpen (start sources dirty truncated) moves →
      ∀ identity, Shrinks (sizesOf ((start sources dirty truncated).run moves).sizes identity)) := by
  have hstart := sound_start sources dirty truncated
  have hrun : ((start sources dirty truncated).run moves).Sound := Runs.inv_run (fun _ m h => sound_step m h) hstart moves
  refine ⟨?_, fun identity hs => ⟨hrun.counted.once, hrun.counted.skipped identity hs⟩, fun hmeets => ?_, fun hmeets identity => ?_⟩
  · exact Runs.along_always (fun _ m h => sound_step m h) (fun _ m h => h.forward m) hstart moves
  · have hbacked := Runs.inv_along (I := fun w => w.Sound ∧ w.Backed) (fun w m h hp => ⟨sound_step m h.1, backed_step m h.1 h.2 hp⟩)
      ⟨hstart, backed_start sources dirty truncated⟩ hmeets
    exact hbacked.2.passesTracked
  · have hsized := Runs.inv_along (I := fun w => w.Sound ∧ w.Sized) (fun w m h hp => ⟨sound_step m h.1, sized_step m h.1 h.2 hp⟩)
      ⟨hstart, sized_start sources dirty truncated⟩ hmeets
    exact hsized.2.kept.shrinks identity

/-! The marks of one identity fault three times; another's batch outlasts the wall twice before a new identity is opened. -/

def pass (envs : List Env) : List Move := .begin :: envs.map .turn

def faulting : List Move :=
  pass [{}, {}, {}] ++ pass [{}, {}, {}, {}, { await := .fault }, {}] ++ pass [{}, {}, {}, { await := .fault }, {}] ++
    pass [{}, {}, {}, { await := .fault }, {}]

def seat : Sources := { potparty := [("b", "g")] }

theorem skip_leaves_unmarked : ¬ ((start seat [] []).run faulting).PassesTracked := by
  intro h
  have hlisted : seat.Listed "b" := ⟨by decide, ["b"], .head _, .head _⟩
  have htracked := h seat (by decide) "b" hlisted (.inr ⟨"b", by decide, le_refl _⟩) "g" (.head _)
  have hjudged : ((start seat [] []).run faulting).judged = [] := by decide
  have hdirty : ((start seat [] []).run faulting).db.dirty = [] := by decide
  rw [Tracked, hjudged, hdirty] at htracked
  rcases htracked with hj | ⟨m, hm, -⟩
  · exact absurd hj List.not_mem_nil
  · exact absurd hm List.not_mem_nil

def settled : List Move :=
  pass [{}, {}, {}] ++ pass [{}, {}, {}, {}, {}, { await := .fault }, {}] ++ pass [{}, {}, {}, { await := .fault }, {}] ++
    pass [{}, {}, {}, {}, { await := .cut false }, {}] ++ pass [{}, {}, {}, {}, { commits := [⟨"g", fun _ => true, false⟩] }, {}, {}]

theorem backfill_kept_settled :
    ((start seat [] []).run settled).PassesTracked ∧ Shrinks (sizesOf ((start seat [] []).run settled).sizes "b") ∧
      ((start seat [] []).run settled).db.cursor = some "b" ∧ ((start seat [] []).run settled).db.stamped = true := by
  obtain ⟨-, -, hskip, hopen⟩ := backfill_kept seat [] [] settled
  exact ⟨hskip (by decide), hopen (by decide) "b", by decide, by decide⟩

end World

end OverlayEngine.OwedBackfill
