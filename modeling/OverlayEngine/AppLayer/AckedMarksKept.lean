import Mathlib
import OverlayEngine.AppLayer.AckedMarks

/-!
# What an acknowledgement waits for

Generations are given in order, so a bound read before a call is at most what had
been given when any later record read began, and a mark up to it that still stands
stood then. A narrowed read that reads the rows of the standing marks of its games
has read that mark's write, whoever wrote it and whichever call it answers: this is
kept of every apply and every standing mark, over all the roads at once.
-/

namespace OverlayEngine.AckedMarks

/-! ## The record -/

def Record.Kept (r : Record) : Prop := ∀ m ∈ r.marks, m.generation ≤ r.last ∧ (m.generation, m.row) ∈ r.writes ∧ m.row.txids ≠ []

structure Record.Grown (r r' : Record) : Prop where
  last : r.last ≤ r'.last
  writes : ∀ x ∈ r.writes, x ∈ r'.writes
  written : ∀ x ∈ r'.writes, x ∈ r.writes ∨ r.last < x.1
  marks : ∀ m ∈ r'.marks, m ∈ r.marks ∨ r.last < m.generation

namespace Record

variable {r r' r'' : Record} {row : Row} {identity : Identity} {games : List Game} {bound : Generation}

theorem Grown.refl (r : Record) : r.Grown r := ⟨le_rfl, fun _ hx => hx, fun _ hx => .inl hx, fun _ hm => .inl hm⟩

theorem Grown.trans (h : r.Grown r') (h' : r'.Grown r'') : r.Grown r'' := by
  refine ⟨h.last.trans h'.last, fun x hx => h'.writes x (h.writes x hx), fun x hx => ?_, fun m hm => ?_⟩
  · rcases h'.written x hx with hold | hnew
    · exact h.written x hold
    · exact .inr (h.last.trans_lt hnew)
  · rcases h'.marks m hm with hold | hnew
    · exact h.marks m hold
    · exact .inr (h.last.trans_lt hnew)

theorem grown_mark (r : Record) (row : Row) (subject : Identity × Game) : r.Grown (r.mark row subject) := by
  refine ⟨Nat.le_succ _, fun x hx => List.mem_append_left _ hx, fun x hx => ?_, fun m hm => ?_⟩
  · rcases List.mem_append.mp hx with hold | hnew
    · exact .inl hold
    · rw [List.mem_singleton.mp hnew]
      exact .inr (Nat.lt_succ_self _)
  · rcases List.mem_append.mp hm with hold | hnew
    · exact .inl (List.mem_of_mem_filter hold)
    · rw [List.mem_singleton.mp hnew]
      exact .inr (Nat.lt_succ_self _)

theorem Kept.mark (h : r.Kept) (hrow : row.txids ≠ []) (subject : Identity × Game) : (r.mark row subject).Kept := by
  intro m hm
  rcases List.mem_append.mp hm with hold | hnew
  · obtain ⟨hle, hwrite, htxids⟩ := h m (List.mem_of_mem_filter hold)
    exact ⟨hle.trans (Nat.le_succ _), List.mem_append_left _ hwrite, htxids⟩
  · rw [List.mem_singleton.mp hnew]
    exact ⟨le_rfl, List.mem_append_right _ List.mem_cons_self, hrow⟩

theorem grown_write (r : Record) (row : Row) (subjects : List (Identity × Game)) : r.Grown (r.write row subjects) := by
  induction subjects generalizing r with
  | nil => exact .refl r
  | cons subject subjects ih => exact (r.grown_mark row subject).trans (ih _)

theorem Kept.write (h : r.Kept) (hrow : row.txids ≠ []) (subjects : List (Identity × Game)) : (r.write row subjects).Kept := by
  induction subjects generalizing r with
  | nil => exact h
  | cons subject subjects ih => exact ih (h.mark hrow subject)

theorem grown_ack (r : Record) (identity : Identity) (games : List Game) (bound : Generation) : r.Grown (r.ack identity games bound) :=
  ⟨le_rfl, fun _ hx => hx, fun _ hx => .inl hx, fun _ hm => .inl (List.mem_of_mem_filter hm)⟩

theorem Kept.ack (h : r.Kept) : (r.ack identity games bound).Kept := fun m hm => h m (List.mem_of_mem_filter hm)

theorem mem_marksOf {m : Mark} : m ∈ r.marksOf identity games ↔ m ∈ r.marks ∧ m.identity = identity ∧ m.game ∈ games := by
  simp only [marksOf, List.mem_filter, Bool.and_eq_true, beq_iff_eq, List.contains_iff_mem]

theorem mem_acked {m : Mark} : m ∈ r.acked identity games bound ↔ m ∈ r.marks ∧ m.identity = identity ∧ m.game ∈ games ∧ m.generation ≤ bound := by
  simp only [acked, List.mem_filter, Bool.and_eq_true, beq_iff_eq, List.contains_iff_mem, decide_eq_true_eq, and_assoc]

end Record

theorem foldl_max_le {ns : List Nat} {acc n : Nat} (hacc : acc ≤ n) (h : ∀ x ∈ ns, x ≤ n) : ns.foldl max acc ≤ n := by
  induction ns generalizing acc with
  | nil => exact hacc
  | cons x ns ih => exact ih (max_le hacc (h x List.mem_cons_self)) fun y hy => h y (List.mem_cons_of_mem _ hy)

section
variable {r : Record} (hr : r.Kept)
include hr

theorem greatest_le {marks : List Mark} (h : ∀ m ∈ marks, m ∈ r.marks) : greatest marks ≤ r.last := by
  apply foldl_max_le (Nat.zero_le _)
  intro n hn
  obtain ⟨m, hm, rfl⟩ := List.mem_map.mp hn
  exact (hr m (h m hm)).1

theorem greatest_marksOf (identity : Identity) (games : List Game) : greatest (r.marksOf identity games) ≤ r.last :=
  greatest_le hr fun _ hm => (Record.mem_marksOf.mp hm).1

theorem directSubjectsMany_le (pairs : List (Identity × Game)) {identity : Identity} {game : Game} {b : Generation}
    (h : directSubjectsMany r pairs identity game = some b) : b ≤ r.last := by
  obtain ⟨m, hm, rfl⟩ := List.mem_map.mp (List.max?_mem h)
  exact (hr m (List.mem_of_mem_filter hm)).1

end

variable {games : List Game} {identity : Identity}

theorem boundOfGames_le {bounds : GameBounds} {last : Generation} (h : ∀ identity game b, bounds identity game = some b → b ≤ last)
    {b : Generation} (hb : boundOfGames bounds identity games = some b) : b ≤ last := by
  have hfold (games : List Game) : ∀ acc ≤ last,
      games.foldlM (fun acc g => (bounds (lower identity) (lower g)).map fun b => max acc b) acc = some b → b ≤ last := by
    induction games with
    | nil =>
      intro acc hacc hb
      cases hb
      exact hacc
    | cons g games ih =>
      intro acc hacc hb
      obtain ⟨acc', hacc', hb⟩ := Option.bind_eq_some_iff.mp hb
      obtain ⟨n, hn, rfl⟩ := Option.map_eq_some_iff.mp hacc'
      exact ih _ (max_le hacc (h _ _ n hn)) hb
  exact hfold games 0 (Nat.zero_le _) hb

/-! ## An apply -/

structure Apply.Kept (r : Record) (a : Apply) : Prop where
  last : a.last ≤ r.last
  covered : ∀ c ∈ a.covered, c ≤ a.last
  marks : ∀ m ∈ r.marks, m.identity = a.identity → m.game ∈ a.games → m.generation ≤ a.last → m.generation ∈ a.content
  full : a.full = true → ∀ x ∈ r.writes, x.1 ≤ a.last → x.1 ∈ a.content

theorem Record.Kept.read {r : Record} (h : r.Kept) (identity : Identity) (games : List Game) (touch : Option (List Txid)) (covers : Bool) :
    (r.read .code identity games touch covers).Kept r := by
  have hmem (x : Generation × Row) (hx : x ∈ r.writes) (hread : touch.isNone = true ∨ ∃ t ∈ x.2.txids, t ∈ (r.read .code identity games touch covers).keys) :
      x.1 ∈ (r.read .code identity games touch covers).content := by
    refine List.mem_map.mpr ⟨x, List.mem_filter.mpr ⟨hx, ?_⟩, rfl⟩
    simp only [Bool.or_eq_true, List.any_eq_true, List.contains_iff_mem]
    exact hread
  refine ⟨le_rfl, fun c hc => ?_, fun m hm hidentity hgame _ => ?_, fun hfull x hx _ => hmem x hx (.inl hfull)⟩
  · cases covers with
    | false => cases hc
    | true =>
      cases hc
      exact greatest_marksOf h identity games
  · obtain ⟨-, hwrite, htxids⟩ := h m hm
    obtain ⟨t, ht⟩ := List.exists_mem_of_ne_nil _ htxids
    refine hmem _ hwrite (.inr ⟨t, ht, ?_⟩)
    exact List.mem_append_right _ (List.mem_flatMap.mpr ⟨m, Record.mem_marksOf.mpr ⟨hm, hidentity, hgame⟩, ht⟩)

theorem Apply.Kept.grown {r r' : Record} {a : Apply} (h : a.Kept r) (hr : r.Grown r') : a.Kept r' := by
  refine ⟨h.last.trans hr.last, h.covered, fun m hm hidentity hgame hle => ?_, fun hfull x hx hle => ?_⟩
  · rcases hr.marks m hm with hold | hnew
    · exact h.marks m hold hidentity hgame hle
    · exact absurd (hle.trans h.last) (not_le_of_gt hnew)
  · rcases hr.written x hx with hold | hnew
    · exact h.full hfull x hold hle
    · exact absurd (hle.trans h.last) (not_le_of_gt hnew)

/-! ## What a job and an acknowledged mark stand on -/

namespace World

variable (w : World)

def Since (made : Nat) (bound : Generation) : Prop := ∀ i, made ≤ i → ∀ a, w.applies[i]? = some a → bound ≤ a.last

def Settled (identity : Identity) (game : Game) (bound : Generation) (judge : Apply → Prop) : Prop :=
  (∃ i ∈ w.commits, ∃ a, w.applies[i]? = some a ∧ a.identity = identity ∧ game ∈ a.games ∧ judge a) ∨
    (identity ∉ w.bootstrapped ∧ ∃ h ∈ w.held, h.identity = identity ∧ h.game = game ∧ w.Since h.at_ bound)

end World

def Job.answered (j : Job) (a : Answer) : List Game :=
  match j.road with
  | .actorThenD1 => j.body.games.map lower
  | .asTheJudge => a.named j.body.games
  | .direct => appliedGames a j.body.games

def Job.Settles (j : Job) (w : World) (games : List Game) : Prop :=
  ∀ bound ∈ j.bound, ∀ g ∈ games, w.Settled (lower j.body.identity) g bound fun a => bound ≤ a.last

def Job.Stands (j : Job) (w : World) : Prop :=
  match j.stage with
  | .bounded | .ended => True
  | .called made => w.actor (lower j.body.identity) = true ∧ ∀ bound ∈ j.bound, w.Since made bound
  | .answered none => w.actor (lower j.body.identity) = false
  | .answered (some a) => w.actor (lower j.body.identity) = true ∧ j.Settles w (j.answered a)
  | .marksRead seen => seen ≤ w.record.last ∧ (w.actor (lower j.body.identity) = true → j.Settles w (j.body.games.map lower))
  | .hydrated seen content =>
    (∀ x ∈ w.record.writes, x.1 ≤ seen → x.1 ∈ content) ∧ seen ≤ w.record.last ∧
      (w.actor (lower j.body.identity) = true → j.Settles w (j.body.games.map lower))

structure Job.Kept (w : World) (j : Job) : Prop where
  bound : ∀ bound ∈ j.bound, bound ≤ w.record.last
  read : j.road = .actorThenD1 → j.bound.isSome = true
  carried : j.body.carried = true → j.bound = none
  stands : j.Stands w

structure Acked.Kept (w : World) (a : Acked) : Prop where
  d1 : ∀ content ∈ a.d1, a.mark.generation ∈ content
  write : (a.mark.generation, a.mark.row) ∈ w.record.writes
  last : a.mark.generation ≤ w.record.last
  actor : w.actor a.mark.identity = true → w.Settled a.mark.identity a.mark.game a.mark.generation fun apply => a.mark.generation ∈ apply.content
  alone : w.actor a.mark.identity = false → a.d1.isSome = true

structure World.Kept (w : World) : Prop where
  record : w.record.Kept
  applies : ∀ a ∈ w.applies, a.Kept w.record
  batches : ∀ bounds ∈ w.batches, ∀ identity game b, bounds identity game = some b → b ≤ w.record.last
  jobs : ∀ j ∈ w.jobs, j.Kept w
  acked : ∀ a ∈ w.acked, a.Kept w

structure World.Onward (w w' : World) : Prop where
  actor : w'.actor = w.actor
  record : w.record.Grown w'.record
  since : ∀ made bound, bound ≤ w.record.last → w.Since made bound → w'.Since made bound
  settled : ∀ identity game bound (judge : Apply → Prop), bound ≤ w.record.last → (∀ a ∈ w.applies, a.full = true → bound ≤ a.last → judge a) →
    w.Settled identity game bound judge → w'.Settled identity game bound judge

variable {w w' : World} {j : Job} {i : Nat}

theorem Job.Settles.onward (h : j.Settles w games) (hbound : ∀ bound ∈ j.bound, bound ≤ w.record.last) (ho : w.Onward w') :
    j.Settles w' games := fun bound hb g hg => ho.settled _ _ _ _ (hbound bound hb) (fun _ _ _ hle => hle) (h bound hb g hg)

theorem Job.Kept.onward (h : j.Kept w) (ho : w.Onward w') : j.Kept w' := by
  refine ⟨fun bound hb => (h.bound bound hb).trans ho.record.last, h.read, h.carried, ?_⟩
  have hstands := h.stands
  unfold Job.Stands at hstands ⊢
  split at hstands
  · trivial
  · trivial
  · exact ⟨by rw [ho.actor]; exact hstands.1, fun bound hb => ho.since _ _ (h.bound bound hb) (hstands.2 bound hb)⟩
  · rw [ho.actor]
    exact hstands
  · exact ⟨by rw [ho.actor]; exact hstands.1, hstands.2.onward h.bound ho⟩
  · exact ⟨hstands.1.trans ho.record.last, fun hactor => (hstands.2 (ho.actor ▸ hactor)).onward h.bound ho⟩
  · refine ⟨fun x hx hle => ?_, hstands.2.1.trans ho.record.last, fun hactor => (hstands.2.2 (ho.actor ▸ hactor)).onward h.bound ho⟩
    rcases ho.record.written x hx with hold | hnew
    · exact hstands.1 x hold hle
    · exact absurd (hle.trans hstands.2.1) (not_le_of_gt hnew)

theorem Acked.Kept.onward {a : Acked} (h : a.Kept w) (hw : w.Kept) (ho : w.Onward w') : a.Kept w' := by
  refine ⟨h.d1, ho.record.writes _ h.write, h.last.trans ho.record.last, fun hactor => ?_, fun hactor => h.alone (ho.actor ▸ hactor)⟩
  refine ho.settled _ _ _ _ h.last (fun apply happly hfull hle => ?_) (h.actor (ho.actor ▸ hactor))
  exact (hw.applies apply happly).full hfull _ h.write hle

theorem World.Kept.onward (h : w.Kept) (ho : w.Onward w') (hrecord : w'.record.Kept) (happlies : ∀ a ∈ w'.applies, a ∈ w.applies ∨ a.Kept w'.record)
    (hbatches : w'.batches = w.batches) (hjobs : w'.jobs = w.jobs) (hacked : w'.acked = w.acked) : w'.Kept := by
  refine ⟨hrecord, fun a ha => ?_, fun bounds hbounds identity game b hb => ?_, fun j hj => ?_, fun a ha => ?_⟩
  · rcases happlies a ha with hold | hnew
    · exact (h.applies a hold).grown ho.record
    · exact hnew
  · rw [hbatches] at hbounds
    exact (h.batches bounds hbounds identity game b hb).trans ho.record.last
  · rw [hjobs] at hj
    exact (h.jobs j hj).onward ho
  · rw [hacked] at ha
    exact (h.acked a ha).onward h ho

/-! ## The world's moves -/

theorem since_length (w : World) (bound : Generation) : w.Since w.applies.length bound := by
  intro i hi a ha
  rw [List.getElem?_eq_none hi] at ha
  cases ha

namespace World.Onward

theorem same (hactor : w'.actor = w.actor) (hrecord : w.record.Grown w'.record) (happlies : w'.applies = w.applies) (hcommits : w'.commits = w.commits)
    (hbootstrapped : w'.bootstrapped = w.bootstrapped) (hheld : w'.held = w.held) : w.Onward w' := by
  refine ⟨hactor, hrecord, fun made bound _ h => ?_, fun identity game bound judge _ _ h => ?_⟩
  · unfold World.Since at h ⊢
    rw [happlies]
    exact h
  · unfold World.Settled World.Since at h ⊢
    rw [happlies, hcommits, hbootstrapped, hheld]
    exact h

theorem read {a : Apply} (ha : a.last = w.record.last) : w.Onward { w with applies := w.applies ++ [a] } := by
  have hsince {made : Nat} {bound : Generation} (hbound : bound ≤ w.record.last) (h : w.Since made bound) :
      World.Since { w with applies := w.applies ++ [a] } made bound := by
    intro i hi b hb
    by_cases hlt : i < w.applies.length
    · exact h i hi b (List.getElem?_append_left hlt ▸ hb)
    · rw [List.getElem?_append_right (Nat.le_of_not_lt hlt)] at hb
      rw [List.mem_singleton.mp (List.mem_of_getElem? hb), ha]
      exact hbound
  refine ⟨rfl, .refl _, fun made bound hbound h => hsince hbound h, fun identity game bound judge hbound _ h => ?_⟩
  rcases h with ⟨i, hi, b, hb, hidentity, hgame, hjudge⟩ | ⟨hnot, h, hh, hidentity, hgame, hafter⟩
  · have hlt : i < w.applies.length := (List.getElem?_eq_some_iff.mp hb).1
    exact .inl ⟨i, hi, b, (List.getElem?_append_left hlt).trans hb, hidentity, hgame, hjudge⟩
  · exact .inr ⟨hnot, h, hh, hidentity, hgame, hsince hbound hafter⟩

theorem commit (n : Nat) : w.Onward { w with commits := w.commits ++ [n] } := by
  refine ⟨rfl, .refl _, fun made bound _ h => h, fun identity game bound judge _ _ h => ?_⟩
  rcases h with ⟨i, hi, b, hb⟩ | hheld
  · exact .inl ⟨i, List.mem_append_left _ hi, b, hb⟩
  · exact .inr hheld

theorem unstamped (identity : Identity) : w.Onward { w with bootstrapped := w.bootstrapped.filter fun x => x != identity } := by
  refine ⟨rfl, .refl _, fun made bound _ h => h, fun identity game bound judge _ _ h => ?_⟩
  rcases h with happlied | ⟨hnot, hheld⟩
  · exact .inl happlied
  · exact .inr ⟨fun hin => hnot (List.mem_of_mem_filter hin), hheld⟩

theorem hold (j : Job) (a : Answer) : w.Onward (w.hold j a) := by
  unfold World.hold
  split
  · refine ⟨rfl, .refl _, fun made bound _ h => h, fun identity game bound judge _ _ h => ?_⟩
    rcases h with happlied | ⟨hnot, h, hh, hheld⟩
    · exact .inl happlied
    · exact .inr ⟨hnot, h, List.mem_append_left _ hh, hheld⟩
  · exact .same rfl (.refl _) rfl rfl rfl rfl

end World.Onward

variable {made : Nat}

theorem appliedSince_iff {game : Game} {judge : Apply → Bool} :
    w.appliedSince made identity game judge = true ↔
      ∃ i ∈ w.commits, made ≤ i ∧ ∃ a, w.applies[i]? = some a ∧ a.identity = identity ∧ game ∈ a.games ∧ judge a = true := by
  simp only [World.appliedSince, List.any_eq_true, Bool.and_eq_true, decide_eq_true_eq, Option.any_eq_true, beq_iff_eq, List.contains_iff_mem, and_assoc]

theorem World.Onward.bootstrapped (hdrained : w.drained identity = true) :
    w.Onward { w with bootstrapped := w.bootstrapped ++ [identity], held := w.held.filter fun h => h.identity != identity } := by
  refine ⟨rfl, .refl _, fun made bound _ h => h, fun id game bound judge _ hjudge h => ?_⟩
  rcases h with happlied | ⟨hnot, h, hh, rfl, rfl, hafter⟩
  · exact .inl happlied
  · by_cases hsame : h.identity = identity
    · have hdone := List.all_eq_true.mp hdrained h hh
      simp only [hsame, bne_self_eq_false, Bool.false_or] at hdone
      obtain ⟨i, hi, hmade, a, ha, hidentity, hgame, hfull⟩ := appliedSince_iff.mp hdone
      exact .inl ⟨i, hi, a, ha, hidentity.trans hsame.symm, hgame, hjudge a (List.mem_of_getElem? ha) hfull (hafter i hmade a ha)⟩
    · refine .inr ⟨fun hin => ?_, h, List.mem_filter.mpr ⟨hh, by simpa using hsame⟩, rfl, rfl, hafter⟩
      rcases List.mem_append.mp hin with hold | hnew
      · exact hnot hold
      · exact hsame (List.mem_singleton.mp hnew)

namespace World.Kept

theorem set (h : w.Kept) (hj : w.jobs[i]? = some j) {stage : Stage} (hstage : Job.Stands { j with stage := stage } w) : (w.set i j stage).Kept := by
  have ho : w.Onward (w.set i j stage) := .same rfl (.refl _) rfl rfl rfl rfl
  have hkept := h.jobs j (List.mem_of_getElem? hj)
  refine ⟨h.record, h.applies, h.batches, fun j' hj' => ?_, fun a ha => (h.acked a ha).onward h ho⟩
  rcases List.mem_or_eq_of_mem_set hj' with hold | rfl
  · exact (h.jobs j' hold).onward ho
  · exact Job.Kept.onward ⟨hkept.bound, hkept.read, hkept.carried, hstage⟩ ho

theorem add (h : w.Kept) {jobs : List Job} (hjobs : ∀ j ∈ jobs, j.Kept w) : World.Kept { w with jobs := w.jobs ++ jobs } := by
  have ho : w.Onward { w with jobs := w.jobs ++ jobs } := .same rfl (.refl _) rfl rfl rfl rfl
  refine ⟨h.record, h.applies, h.batches, fun j hj => ?_, fun a ha => (h.acked a ha).onward h ho⟩
  rcases List.mem_append.mp hj with hold | hnew
  · exact (h.jobs j hold).onward ho
  · exact (hjobs j hnew).onward ho

theorem ack (h : w.Kept) {bound : Generation} {d1 : Option (List Generation)}
    (hsettled : w.actor identity = true → ∀ g ∈ games, w.Settled identity g bound fun a => bound ≤ a.last)
    (hd1 : ∀ content ∈ d1, ∀ m ∈ w.record.marks, m.generation ≤ bound → m.generation ∈ content) (halone : w.actor identity = false → d1.isSome = true) :
    (w.ack identity games bound d1).Kept := by
  have ho : w.Onward (w.ack identity games bound d1) := .same rfl (w.record.grown_ack identity games bound) rfl rfl rfl rfl
  refine ⟨h.record.ack, fun a ha => (h.applies a ha).grown ho.record, h.batches, fun j hj => (h.jobs j hj).onward ho, fun a ha => ?_⟩
  rcases List.mem_append.mp ha with hold | hnew
  · exact (h.acked a hold).onward h ho
  · obtain ⟨m, hm, rfl⟩ := List.mem_map.mp hnew
    obtain ⟨hmark, rfl, hgame, hle⟩ := Record.mem_acked.mp hm
    obtain ⟨hlast, hwrite, -⟩ := h.record m hmark
    refine Acked.Kept.onward ⟨fun content hcontent => hd1 content hcontent m hmark hle, hwrite, hlast, fun hactor => ?_, halone⟩ h ho
    rcases hsettled hactor m.game hgame with ⟨i, hi, a, ha, hidentity, hin, hread⟩ | ⟨hnot, held, hheld, hidentity, hin, hafter⟩
    · exact .inl ⟨i, hi, a, ha, hidentity, hin, (h.applies a (List.mem_of_getElem? ha)).marks m hmark hidentity.symm hin (hle.trans hread)⟩
    · exact .inr ⟨hnot, held, hheld, hidentity, hin, fun i hi a ha => hle.trans (hafter i hi a ha)⟩

end World.Kept

/-! ## An answer, and the batches after it -/

variable {g : Game}

theorem mem_named {a : Answer} : g ∈ a.named games → g ∈ games.map lower := by
  intro h
  obtain ⟨x, hx, hg⟩ := List.any_eq_true.mp (List.mem_filter.mp h).2
  exact List.mem_map.mpr ⟨x, hx, beq_iff_eq.mp hg⟩

theorem mem_appliedGames {a : Answer} (h : g ∈ appliedGames a games) : g ∈ a.named games := by
  unfold appliedGames at h
  split at h
  · cases h
  · exact h

theorem mem_answered {a : Answer} (h : g ∈ j.answered a) : g ∈ j.body.games.map lower := by
  unfold Job.answered at h
  split at h
  · exact h
  · exact mem_named h
  · exact mem_named (mem_appliedGames h)

theorem settled_of_mayName (hw : w.Kept) (hsince : ∀ bound ∈ j.bound, w.Since made bound) (h : w.mayName j made g = true) :
    ∀ bound ∈ j.bound, w.Settled (lower j.body.identity) g bound fun a => bound ≤ a.last := by
  intro bound hbound
  rcases Bool.or_eq_true_iff.mp h with hfresh | hcovered
  · obtain ⟨i, hi, hmade, a, ha, hidentity, hgame, -⟩ := appliedSince_iff.mp hfresh
    exact .inl ⟨i, hi, a, ha, hidentity, hgame, hsince bound hbound i hmade a ha⟩
  · obtain ⟨named, hnamed, hcovered⟩ := (Option.any_eq_true _ _).mp hcovered
    obtain ⟨i, hi, -, a, ha, hidentity, hgame, hcovered⟩ := appliedSince_iff.mp hcovered
    obtain ⟨c, hc, hle⟩ := (Option.any_eq_true _ _).mp hcovered
    unfold Job.named at hnamed
    split at hnamed
    · cases hnamed
    · cases hnamed.symm.trans hbound
      exact .inl ⟨i, hi, a, ha, hidentity, hgame, (of_decide_eq_true hle).trans ((hw.applies a (List.mem_of_getElem? ha)).covered c hc)⟩

theorem settles_of_mayAnswer (hw : w.Kept) (hj : j.Kept w) (hsince : ∀ bound ∈ j.bound, w.Since made bound) {a : Answer}
    (h : w.mayAnswer .code j made a = true) : j.Settles (w.hold j a) (j.answered a) := by
  intro bound hbound g hg
  unfold World.mayAnswer at h
  unfold World.hold
  split at h
  · rename_i hheld
    rw [if_pos hheld]
    -- the game is held now, and no apply has begun since
    refine .inr ⟨by simpa using h, ⟨lower j.body.identity, g, w.applies.length⟩, ?_, rfl, rfl, since_length w bound⟩
    exact List.mem_append_right _ (List.mem_map.mpr ⟨g, mem_answered hg, rfl⟩)
  · rename_i hheld
    rw [if_neg hheld]
    obtain ⟨hwhole, happlied⟩ := Bool.and_eq_true_iff.mp h
    have hall : (a.named j.body.games).all (w.mayName j made) = true := by
      rcases Bool.or_eq_true_iff.mp happlied with hcarried | hall
      · rw [hj.carried hcarried] at hbound
        cases hbound
      · exact hall
    have hnamed : g ∈ a.named j.body.games := by
      unfold Job.answered at hg
      split at hg
      · have hin : (a.appliedGames.map lower).contains g = true := List.all_eq_true.mp hwhole g hg
        obtain ⟨x, hx, rfl⟩ := List.mem_map.mp hg
        refine List.mem_filter.mpr ⟨?_, List.any_eq_true.mpr ⟨x, hx, beq_self_eq_true _⟩⟩
        rw [if_neg hheld]
        exact List.contains_iff_mem.mp hin
      · exact hg
      · exact mem_appliedGames hg
    exact settled_of_mayName hw hsince (List.all_eq_true.mp hall g hnamed) bound hbound

theorem mem_judged (h : g ∈ World.judged j) : g ∈ j.body.games.map lower := by
  have htake := List.mem_of_mem_take h
  exact List.mem_eraseDups.mp htake

namespace World.Kept

theorem called (h : w.Kept) (hj : w.jobs[i]? = some j) : (w.called i j).Kept := by
  unfold World.called
  split
  · rename_i hactor
    exact h.set hj ⟨hactor, fun bound _ => since_length w bound⟩
  · rename_i hactor
    split
    · exact h.set hj (Bool.eq_false_iff.mpr hactor)
    · exact h.set hj trivial

theorem answered (h : w.Kept) (hj : w.jobs[i]? = some j) (hstage : j.stage = .called made) (answer : Option Answer) :
    (w.answered .code i j made answer).Kept := by
  have hkept := h.jobs j (List.mem_of_getElem? hj)
  have hstands := hkept.stands
  simp only [Job.Stands, hstage] at hstands
  cases answer with
  | none => exact h.set hj trivial
  | some a =>
    simp only [World.answered]
    split
    · rename_i hmay
      obtain ⟨hrecord, happlies, hbatches, hjobs, hacked⟩ : (w.hold j a).record = w.record ∧ (w.hold j a).applies = w.applies ∧
          (w.hold j a).batches = w.batches ∧ (w.hold j a).jobs = w.jobs ∧ (w.hold j a).acked = w.acked := by
        unfold World.hold
        split <;> exact ⟨rfl, rfl, rfl, rfl, rfl⟩
      have hhold := h.onward (.hold j a) (hrecord ▸ h.record) (fun _ hx => .inl (happlies ▸ hx)) hbatches hjobs hacked
      refine hhold.set (hjobs ▸ hj) ⟨?_, settles_of_mayAnswer h hkept hstands.2 hmay⟩
      rw [(World.Onward.hold j a).actor]
      exact hstands.1
    · exact h

theorem actorAcked (h : w.Kept) (hj : w.jobs[i]? = some j) (hactor : w.actor (lower j.body.identity) = true)
    (hgames : j.Settles w games) : (w.actorAcked i j games).Kept := by
  unfold World.actorAcked
  split
  · exact h.set hj trivial
  · rename_i seen hseen
    split
    · exact h.set hj trivial
    · have hacked : (w.ack (lower j.body.identity) games seen none).Kept :=
        h.ack (fun _ => hgames seen hseen) (by simp) fun halone => nomatch hactor.symm.trans halone
      exact hacked.set hj trivial

theorem next (h : w.Kept) (hj : w.jobs[i]? = some j) : (w.next i j).Kept := by
  have hkept := h.jobs j (List.mem_of_getElem? hj)
  have hstands := hkept.stands
  unfold World.next
  split
  · rename_i answer hroad hstage
    refine h.set hj ⟨greatest_marksOf h.record _ _, fun hactor => ?_⟩
    simp only [Job.Stands, hstage] at hstands
    cases answer with
    | none => exact nomatch hactor.symm.trans hstands
    | some a =>
      have hsettles := hstands.2
      simp only [Job.answered, hroad] at hsettles
      exact hsettles
  · rename_i seen hroad hstage
    simp only [Job.Stands, hstage] at hstands
    exact h.set hj ⟨fun x hx _ => List.mem_map_of_mem hx, hstands.1, hstands.2⟩
  · rename_i seen content hroad hstage
    simp only [Job.Stands, hstage] at hstands
    obtain ⟨hcontent, -, hsettles⟩ := hstands
    obtain ⟨bound, hbound⟩ := Option.isSome_iff_exists.mp (hkept.read hroad)
    rw [hbound, Option.getD_some]
    have hacked : (w.ack (lower j.body.identity) (judged j) (min bound seen) (some content)).Kept := by
      refine h.ack (fun hactor g hg => ?_) (fun c hc m hm hle => ?_) fun _ => rfl
      · rcases hsettles hactor bound hbound g (mem_judged hg) with ⟨i, hi, a, ha, hidentity, hin, hread⟩ | ⟨hnot, held, hheld, hidentity, hin, hafter⟩
        · exact .inl ⟨i, hi, a, ha, hidentity, hin, (Nat.min_le_left _ _).trans hread⟩
        · exact .inr ⟨hnot, held, hheld, hidentity, hin, fun i hi a ha => (Nat.min_le_left _ _).trans (hafter i hi a ha)⟩
      · cases hc
        exact hcontent _ (h.record m hm).2.1 (hle.trans (Nat.min_le_right _ _))
    exact hacked.set hj trivial
  · rename_i a hroad hstage
    simp only [Job.Stands, hstage, Job.answered, hroad] at hstands
    exact h.actorAcked hj hstands.1 hstands.2
  · rename_i a hroad hstage
    simp only [Job.Stands, hstage, Job.answered, hroad] at hstands
    exact h.actorAcked hj hstands.1 hstands.2
  · exact h

end World.Kept

/-! ## Runs -/

theorem bodyBound_kept (hw : w.Kept) {bounds : GameBounds} (hbounds : ∀ identity game b, bounds identity game = some b → b ≤ w.record.last) {landed : Bool}
    {b : Body} : Job.Kept w ⟨.direct, b, w.bodyBound bounds landed b, .bounded⟩ := by
  refine ⟨fun bound hbound => ?_, fun h => (by cases h), fun hcarried => if_pos hcarried, trivial⟩
  simp only [World.bodyBound, Option.mem_def] at hbound
  split at hbound
  · cases hbound
  · split at hbound
    · rename_i seen hseen
      cases hbound
      exact boundOfGames_le hbounds hseen
    · split at hbound
      · cases hbound
        exact greatest_marksOf hw.record _ _
      · cases hbound

theorem World.Kept.step (h : w.Kept) (m : World.Move) : (w.step .code m).Kept := by
  cases m with
  | write row subjects =>
    simp only [World.step]
    split
    · exact h
    · rename_i hrow
      have hrow : row.txids ≠ [] := by simpa using hrow
      have hgrown := w.record.grown_write row subjects
      exact h.onward (.same rfl hgrown rfl rfl rfl rfl) (h.record.write hrow subjects) (fun a ha => .inl ha) rfl rfl rfl
  | marksBatch pairs =>
    have ho : w.Onward (w.step .code (.marksBatch pairs)) := .same rfl (.refl _) rfl rfl rfl rfl
    refine ⟨h.record, h.applies, fun bounds hbounds identity game b hb => ?_, fun j hj => (h.jobs j hj).onward ho, fun a ha => (h.acked a ha).onward h ho⟩
    rcases List.mem_append.mp hbounds with hold | hnew
    · exact h.batches bounds hold identity game b hb
    · rw [List.mem_singleton.mp hnew] at hb
      exact directSubjectsMany_le h.record pairs hb
  | actorThenD1 body =>
    refine h.add fun j hj => ?_
    rw [List.mem_singleton.mp hj]
    refine ⟨fun bound hbound => ?_, fun _ => rfl, fun h => (by cases h), trivial⟩
    cases hbound
    exact greatest_marksOf h.record _ _
  | asTheJudge body =>
    refine h.add fun j hj => ?_
    rw [List.mem_singleton.mp hj]
    refine ⟨fun bound hbound => ?_, fun h => (by cases h), fun h => (by cases h), trivial⟩
    cases hbound
    exact greatest_marksOf h.record _ _
  | callBodies bodies batch landed =>
    refine h.add fun j hj => ?_
    obtain ⟨b, -, rfl⟩ := List.mem_map.mp hj
    refine bodyBound_kept h fun identity game n hn => ?_
    cases hbatch : batch.bind (w.batches[·]?) with
    | none =>
      rw [hbatch] at hn
      cases hn
    | some bounds =>
      rw [hbatch] at hn
      obtain ⟨k, -, hk⟩ := Option.bind_eq_some_iff.mp hbatch
      exact h.batches bounds (List.mem_of_getElem? hk) identity game n hn
  | call i =>
    simp only [World.step]
    split
    · exact h
    · rename_i j hj
      split
      · exact h.called hj
      · exact h
  | answer i answer =>
    simp only [World.step]
    split
    · exact h
    · rename_i j hj
      split
      · rename_i made hstage
        exact h.answered hj hstage answer
      · exact h
  | next i =>
    simp only [World.step]
    split
    · exact h
    · exact h.next ‹_›
  | drop i =>
    simp only [World.step]
    split
    · exact h
    · exact h.set ‹_› trivial
  | read identity games touch covers =>
    refine h.onward (.read rfl) h.record (fun a ha => ?_) rfl rfl rfl
    rcases List.mem_append.mp ha with hold | hnew
    · exact .inl hold
    · rw [List.mem_singleton.mp hnew]
      exact .inr (h.record.read identity games touch covers)
  | commit i =>
    simp only [World.step]
    split
    · exact h.onward (.commit i) h.record (fun a ha => .inl ha) rfl rfl rfl
    · exact h
  | bootstrapped identity =>
    simp only [World.step]
    split
    · exact h.onward (.bootstrapped ‹_›) h.record (fun a ha => .inl ha) rfl rfl rfl
    · exact h
  | unstamped identity => exact h.onward (.unstamped identity) h.record (fun a ha => .inl ha) rfl rfl rfl

def Acked.Served (w : World) (a : Acked) : Prop :=
  (∀ content ∈ a.d1, a.mark.generation ∈ content) ∧ (w.actor a.mark.identity = false → a.d1.isSome = true) ∧
    (w.actor a.mark.identity = true →
      (∃ i ∈ w.commits, ∃ apply, w.applies[i]? = some apply ∧ apply.identity = a.mark.identity ∧ a.mark.game ∈ apply.games ∧ a.mark.generation ∈ apply.content) ∨
        (a.mark.identity ∉ w.bootstrapped ∧ ∃ h ∈ w.held, h.identity = a.mark.identity ∧ h.game = a.mark.game))

/-- Over every run of the roads, each mark deleted by one of them was read: its write is in what D1's judge read where it judged, and in what
    a committed apply of its game read, where an actor is bound for its identity and is not holding the game unserved. -/
theorem acked_served (actor : Identity → Bool) (moves : List World.Move) :
    ∀ a ∈ (World.run { actor := actor } .code moves).acked, a.Served (World.run { actor := actor } .code moves) := by
  have hstart : World.Kept { actor := actor } := ⟨fun _ h => (by cases h), fun _ h => (by cases h), fun _ h => (by cases h), fun _ h => (by cases h), fun _ h => (by cases h)⟩
  have hkept : (World.run { actor := actor } .code moves).Kept := Runs.inv_run (fun w m hw => hw.step m) hstart moves
  intro a ha
  have hserved := hkept.acked a ha
  refine ⟨hserved.d1, hserved.alone, fun hactor => ?_⟩
  rcases hserved.actor hactor with happlied | ⟨hnot, held, hheld, hidentity, hgame, -⟩
  · exact .inl happlied
  · exact .inr ⟨hnot, held, hheld, hidentity, hgame⟩

namespace Scene

def first : Txid := "1111111111111111111111111111111111111111111111111111111111111111"
def second : Txid := "2222222222222222222222222222222222222222222222222222222222222222"

def narrowed : List World.Move :=
  [.write ⟨"pot", first⟩ [("a", "g")], .write ⟨"pot", second⟩ [("a", "g")], .asTheJudge ⟨"a", ["g"], some [second], false⟩, .call 0,
    .read "a" ["g"] (some [second]) false, .commit 0, .answer 0 (some ⟨false, ["g"], []⟩), .next 0]

def unnamed : List World.Move :=
  [.write ⟨"pot", first⟩ [("a", "g"), ("a", "h")], .actorThenD1 ⟨"a", ["g", "h"], none, false⟩, .call 0, .read "a" ["g"] none false, .commit 0,
    .answer 0 (some ⟨false, ["g"], []⟩), .next 0, .next 0, .next 0]

structure Summary where
  generations : List Generation
  games : List Game
  contents : List (List Generation)
  applied : List (List Game)
  held : Nat
  bound : Bool

def summary (w : World) : Summary where
  generations := w.acked.map fun a => a.mark.generation
  games := w.acked.map fun a => a.mark.game
  contents := w.applies.map Apply.content
  applied := w.applies.map Apply.games
  held := w.held.length
  bound := w.acked.all fun a => w.actor a.mark.identity

theorem lower_ofList (cs : List Char) : lower (String.ofList cs) = String.ofList (cs.map Char.toLower) := by
  apply String.toList_inj.mp
  rw [lower, String.toLower, String.toList_map, String.toList_ofList, String.toList_ofList]

theorem txidsIn_replicate {c : Char} (hhex : isHexDigit c = true) (hlower : c.toLower = c) :
    txidsIn (String.ofList (List.replicate 64 c)) = [String.ofList (List.replicate 64 c)] := by
  have hsplit : (List.replicate 64 c).splitOnP (fun c => !isHexDigit c) = [List.replicate 64 c] := by
    refine List.splitOnP_eq_singleton fun d hd => ?_
    rw [(List.mem_replicate.mp hd).2, hhex]
    rfl
  rw [txidsIn, String.toList_ofList, hsplit]
  simp only [List.filter_cons, List.length_replicate, List.filter_nil, beq_self_eq_true, if_true, List.map_cons, List.map_nil, lower_ofList,
    List.map_replicate, hlower]

section
-- the runs over any texts: read from literals, each text is decoded anew at each look
variable {a g pot f s : String} (la : lower a = a) (lg : lower g = g) (hf : txidsIn f = [f]) (hs : txidsIn s = [s]) (hne : f ≠ s)
include la lg hf hs hne

theorem summary_narrowed : summary (World.run {} ⟨false, true⟩
    [.write ⟨pot, f⟩ [(a, g)], .write ⟨pot, s⟩ [(a, g)], .asTheJudge ⟨a, [g], some [s], false⟩, .call 0, .read a [g] (some [s]) false, .commit 0,
      .answer 0 (some ⟨false, [g], []⟩), .next 0]) = ⟨[1, 2], [g, g], [[2]], [[g]], 0, true⟩ := by
  simp [summary, World.run, World.step, Row.txids, hf, hs, hne, Record.write, Record.mark, directBound, Record.marksOf, la, lg, greatest, World.called,
    World.set, Record.read, World.answered, World.mayAnswer, World.mayName, World.appliedSince, Answer.named, World.hold, World.next, World.actorAcked,
    World.ack, Record.ack, Record.acked, Apply.reads, Job.named]

theorem generations_narrowed : (summary (World.run {} .code
    [.write ⟨pot, f⟩ [(a, g)], .write ⟨pot, s⟩ [(a, g)], .asTheJudge ⟨a, [g], some [s], false⟩, .call 0, .read a [g] (some [s]) false, .commit 0,
      .answer 0 (some ⟨false, [g], []⟩), .next 0])).generations = [1, 2] := by
  simp [summary, World.run, World.step, Row.txids, hf, hs, hne, Record.write, Record.mark, directBound, Record.marksOf, la, lg, greatest, World.called,
    World.set, Record.read, World.answered, World.mayAnswer, World.mayName, World.appliedSince, Answer.named, World.hold, World.next, World.actorAcked,
    World.ack, Record.ack, Record.acked, Apply.reads, Job.named, Promise.code]

end

theorem summary_unnamed {a g h pot f : String} (la : lower a = a) (lg : lower g = g) (lh : lower h = h) (hgh : g ≠ h)
    (hf : txidsIn f = [f]) : summary (World.run {} ⟨true, false⟩
      [.write ⟨pot, f⟩ [(a, g), (a, h)], .actorThenD1 ⟨a, [g, h], none, false⟩, .call 0, .read a [g] none false, .commit 0,
        .answer 0 (some ⟨false, [g], []⟩), .next 0, .next 0, .next 0]) = ⟨[1, 2], [g, h], [[1, 2]], [[g]], 0, true⟩ := by
  simp [summary, World.run, World.step, Row.txids, hf, Record.write, Record.mark, marksBound, Record.marksOf, la, lg, lh, greatest, World.called,
    World.set, Record.read, World.answered, World.mayAnswer, World.mayName, World.appliedSince, Answer.named, World.hold, World.next, World.judged,
    World.owedJudgeSubjectsPerInvocation, World.ack, Record.acked, Apply.reads, Job.named, List.eraseDups_cons, hgh, hgh.symm]

theorem summaries : summary (World.run {} ⟨false, true⟩ narrowed) = ⟨[1, 2], ["g", "g"], [[2]], [["g"]], 0, true⟩ ∧
    summary (World.run {} ⟨true, false⟩ unnamed) = ⟨[1, 2], ["g", "h"], [[1, 2]], [["g"]], 0, true⟩ ∧
    (summary (World.run {} .code narrowed)).generations = [1, 2] := by
  have hfirst : txidsIn first = [first] := txidsIn_replicate (c := '1') (by decide) (by decide)
  have hsecond : txidsIn second = [second] := txidsIn_replicate (c := '2') (by decide) (by decide)
  have hne : first ≠ second := fun h => by
    have hlists : List.replicate 64 '1' = List.replicate 64 '2' := String.ofList_injective h
    cases hlists
  have ha : lower "a" = "a" := lower_ofList ['a']
  have hg : lower "g" = "g" := lower_ofList ['g']
  have hh : lower "h" = "h" := lower_ofList ['h']
  exact ⟨summary_narrowed ha hg hfirst hsecond hne, summary_unnamed ha hg hh (by simp) hfirst,
    generations_narrowed ha hg hfirst hsecond hne⟩

theorem not_served {w : World} (hheld : (summary w).held = 0) (hbound : (summary w).bound = true)
    (hunread : (∃ g ∈ (summary w).generations, ∀ content ∈ (summary w).contents, g ∉ content) ∨
      ∃ g ∈ (summary w).games, ∀ games ∈ (summary w).applied, g ∉ games) : ¬ ∀ a ∈ w.acked, a.Served w := by
  intro h
  have hread {a : Acked} (ha : a ∈ w.acked) : ∃ apply ∈ w.applies, a.mark.game ∈ apply.games ∧ a.mark.generation ∈ apply.content := by
    rcases (h a ha).2.2 (List.all_eq_true.mp hbound a ha) with ⟨i, -, apply, happly, -, hgame, hread⟩ | ⟨-, held, hin, -⟩
    · exact ⟨apply, List.mem_of_getElem? happly, hgame, hread⟩
    · rw [List.eq_nil_of_length_eq_zero hheld] at hin
      cases hin
  rcases hunread with ⟨g, hg, hnot⟩ | ⟨g, hg, hnot⟩
  · obtain ⟨a, ha, rfl⟩ := List.mem_map.mp hg
    obtain ⟨apply, happly, -, hcontent⟩ := hread ha
    exact hnot apply.content (List.mem_map_of_mem happly) hcontent
  · obtain ⟨a, ha, rfl⟩ := List.mem_map.mp hg
    obtain ⟨apply, happly, hgame, -⟩ := hread ha
    exact hnot apply.games (List.mem_map_of_mem happly) hgame

end Scene

theorem acked_served_narrowed : ∃ a ∈ (World.run { actor := fun _ => true } .code Scene.narrowed).acked,
    a.mark.generation = 1 ∧ a.Served (World.run { actor := fun _ => true } .code Scene.narrowed) := by
  have hfirst : 1 ∈ (Scene.summary (World.run {} .code Scene.narrowed)).generations := by
    rw [Scene.summaries.2.2]
    simp
  obtain ⟨a, ha, hgeneration⟩ := List.mem_map.mp hfirst
  exact ⟨a, ha, hgeneration, acked_served (fun _ => true) Scene.narrowed a ha⟩

/-- Of an actor without one or the other promise: a mark is deleted of a write that no apply read, and of a game that none applied. -/
theorem acked_unread :
    ¬ (∀ a ∈ (World.run {} ⟨false, true⟩ Scene.narrowed).acked, a.Served (World.run {} ⟨false, true⟩ Scene.narrowed)) ∧
      ¬ (∀ a ∈ (World.run {} ⟨true, false⟩ Scene.unnamed).acked, a.Served (World.run {} ⟨true, false⟩ Scene.unnamed)) := by
  obtain ⟨hnarrowed, hunnamed, -⟩ := Scene.summaries
  constructor
  · refine Scene.not_served ?_ ?_ (.inl ⟨1, ?_⟩) <;> rw [hnarrowed]
    simp
  · refine Scene.not_served ?_ ?_ (.inr ⟨"h", ?_⟩) <;> rw [hunnamed]
    simp

end OverlayEngine.AckedMarks
