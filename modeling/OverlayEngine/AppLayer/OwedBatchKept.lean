import OverlayEngine.AppLayer.OwedBatch

/-!
# What coalescing a batch keeps

Under a judge whose calls fault exactly at a fixed set of subjects, the merged
pass lands every other subject of the messages it takes, once, and each message
of the batch is answered as the one-message arm answers it alone.
-/

namespace OverlayEngine.OwedBatch

/-! ## Plans -/

variable {list l chunk : List String}

theorem mem_addNew {xs : List String} {x : String} : x ∈ addNew l xs ↔ x ∈ l ∨ x ∈ xs := by
  unfold addNew
  induction xs generalizing l with
  | nil => simp
  | cons y rest ih =>
    rw [List.foldl_cons, ih]
    by_cases hy : y ∈ l
    · rw [if_pos hy, List.mem_cons]
      constructor
      · exact fun h => h.imp_right .inr
      · rintro (h | rfl | h)
        · exact .inl h
        · exact .inl hy
        · exact .inr h
    · rw [if_neg hy, List.mem_append, List.mem_singleton, List.mem_cons, or_assoc]

theorem nodup_addNew (h : l.Nodup) (xs : List String) : (addNew l xs).Nodup := by
  unfold addNew
  induction xs generalizing l with
  | nil => exact h
  | cons y rest ih =>
    rw [List.foldl_cons]
    by_cases hy : y ∈ l
    · rw [if_pos hy]
      exact ih h
    · rw [if_neg hy]
      exact ih (List.nodup_append.mpr ⟨h, List.nodup_singleton y, fun a ha b hb => by
        rw [List.mem_singleton.mp hb]
        exact fun he => hy (he ▸ ha)⟩)

structure Plan.Kept (p : Plan) : Prop where
  order : p.order.Nodup
  games : ∀ id, (p.games id).Nodup
  closed : ∀ id, id ∈ p.order ↔ p.games id ≠ []

theorem kept_empty (more : Bool) (n : Nat) : Plan.Kept { more := more, heldSubjects := n } where
  order := List.nodup_nil
  games _ := List.nodup_nil
  closed _ := ⟨fun h => (List.not_mem_nil h).elim, fun h => absurd rfl h⟩

variable {s : String × String} {p : Plan}

theorem mem_subjectPairs : s ∈ p.subjectPairs ↔ s.1 ∈ p.order ∧ s.2 ∈ p.games s.1 := by
  simp only [Plan.subjectPairs, List.mem_flatMap, List.mem_map]
  constructor
  · rintro ⟨id, hid, g, hg, rfl⟩
    exact ⟨hid, hg⟩
  · rintro ⟨hid, hg⟩
    exact ⟨s.1, hid, s.2, hg, rfl⟩

theorem Plan.Kept.mem (h : p.Kept) : s ∈ p.subjectPairs ↔ s.2 ∈ p.games s.1 := by
  rw [mem_subjectPairs]
  exact ⟨And.right, fun hg => ⟨(h.closed s.1).mpr (List.ne_nil_of_mem hg), hg⟩⟩

theorem Plan.Kept.nodup (h : p.Kept) : p.subjectPairs.Nodup := by
  refine List.nodup_flatMap.mpr ⟨fun id _ => (h.games id).map fun a b hab => congrArg Prod.snd hab, ?_⟩
  refine h.order.imp fun {a b} hab => ?_
  intro s ha hb
  obtain ⟨g, -, rfl⟩ := List.mem_map.mp ha
  obtain ⟨g', -, he⟩ := List.mem_map.mp hb
  exact hab (congrArg Prod.fst he).symm

theorem gameCount_eq (p : Plan) : p.gameCount = p.subjectPairs.length := by
  simp [Plan.gameCount, Plan.subjectPairs, List.length_flatMap]

/-! ## The merged plan -/

theorem games_foldl {into add : String → List String} (order : List String) (hinto : ∀ id, (into id).Nodup) :
    (∀ id g, g ∈ order.foldl (fun games id => Function.update games id (addNew (games id) (add id))) into id ↔
      g ∈ into id ∨ id ∈ order ∧ g ∈ add id) ∧
    ∀ id, (order.foldl (fun games id => Function.update games id (addNew (games id) (add id))) into id).Nodup := by
  induction order generalizing into with
  | nil => exact ⟨fun id g => by simp, hinto⟩
  | cons a rest ih =>
    have hstep : ∀ id, (Function.update into a (addNew (into a) (add a)) id).Nodup := by
      intro id
      by_cases ha : id = a
      · rw [ha, Function.update_self]
        exact nodup_addNew (hinto a) _
      · rw [Function.update_of_ne ha]
        exact hinto id
    obtain ⟨hmem, hnodup⟩ := ih hstep
    refine ⟨fun id g => ?_, hnodup⟩
    rw [List.foldl_cons, hmem]
    by_cases ha : id = a
    · rw [ha, Function.update_self, mem_addNew, List.mem_cons]
      tauto
    · rw [Function.update_of_ne ha, List.mem_cons]
      tauto

variable {out p : Plan}

theorem Plan.Kept.mergeInto (h : out.Kept) (hp : p.Kept) : (out.mergeInto p).Kept where
  order := nodup_addNew h.order _
  games := (games_foldl p.order h.games).2
  closed id := by
    have hgames := (@games_foldl out.games p.games p.order h.games).1 id
    constructor
    · intro hid
      rcases mem_addNew.mp hid with hid | hid
      · obtain ⟨g, hg⟩ := List.exists_mem_of_ne_nil _ ((h.closed id).mp hid)
        exact List.ne_nil_of_mem ((hgames g).mpr (.inl hg))
      · obtain ⟨g, hg⟩ := List.exists_mem_of_ne_nil _ ((hp.closed id).mp hid)
        exact List.ne_nil_of_mem ((hgames g).mpr (.inr ⟨hid, hg⟩))
    · intro hne
      obtain ⟨g, hg⟩ := List.exists_mem_of_ne_nil _ hne
      refine mem_addNew.mpr ?_
      rcases (hgames g).mp hg with hg | ⟨hid, -⟩
      · exact .inl ((h.closed id).mpr (List.ne_nil_of_mem hg))
      · exact .inr hid

theorem mem_mergeInto (h : out.Kept) (hp : p.Kept) :
    s ∈ (out.mergeInto p).subjectPairs ↔ s ∈ out.subjectPairs ∨ s ∈ p.subjectPairs := by
  rw [(h.mergeInto hp).mem, h.mem, mem_subjectPairs]
  exact (games_foldl p.order h.games).1 s.1 s.2

variable {plans : List Plan}

theorem merged_from (h : out.Kept) (hplans : ∀ p ∈ plans, p.Kept) :
    (plans.foldl Plan.mergeInto out).Kept ∧
      ∀ s, s ∈ (plans.foldl Plan.mergeInto out).subjectPairs ↔ s ∈ out.subjectPairs ∨ ∃ p ∈ plans, s ∈ p.subjectPairs := by
  induction plans generalizing out with
  | nil => exact ⟨h, fun s => by simp⟩
  | cons p rest ih =>
    have hp := hplans p List.mem_cons_self
    obtain ⟨hkept, hmem⟩ := ih (h.mergeInto hp) fun q hq => hplans q (List.mem_cons_of_mem p hq)
    refine ⟨hkept, fun s => ?_⟩
    rw [List.foldl_cons, hmem, mem_mergeInto h hp]
    simp only [List.mem_cons, exists_eq_or_imp, or_assoc]

theorem merged_kept (h : ∀ p ∈ plans, p.Kept) : (Plan.merged plans).Kept := (merged_from (kept_empty false 0) h).1

theorem mem_merged (h : ∀ p ∈ plans, p.Kept) :
    s ∈ (Plan.merged plans).subjectPairs ↔ ∃ p ∈ plans, s ∈ p.subjectPairs := by
  rw [Plan.merged, (merged_from (kept_empty false 0) h).2]
  simp [Plan.subjectPairs]

/-! ## A plan's bound -/

/-- What the marks read so far leave: a kept plan of `counted` subjects, within the message's bound. -/
structure Counted (p : Plan) (counted : Nat) : Prop where
  kept : p.Kept
  seen : ∃ seen : List (String × String), seen.length = counted ∧ ∀ s ∈ p.subjectPairs, s ∈ seen
  bound : counted ≤ maxGamesPerMessage

theorem Counted.step {acc : Plan × Nat} (h : Counted acc.1 acc.2) (m : DirtyRow) : Counted (markStep acc m).1 (markStep acc m).2 := by
  unfold markStep
  by_cases hempty : m.gameId = ""
  · rw [if_pos hempty]
    exact h
  · rw [if_neg hempty]
    dsimp only
    by_cases hin : m.gameId ∈ acc.1.games m.identity
    · rw [if_pos hin]
      exact ⟨⟨h.kept.order, h.kept.games, h.kept.closed⟩, h.seen, h.bound⟩
    · rw [if_neg hin]
      by_cases hfull : maxGamesPerMessage ≤ acc.2
      · rw [if_pos hfull]
        exact ⟨⟨h.kept.order, h.kept.games, h.kept.closed⟩, h.seen, h.bound⟩
      · rw [if_neg hfull]
        have hgames (id : String) : Function.update acc.1.games m.identity (acc.1.games m.identity ++ [m.gameId]) id =
            if id = m.identity then acc.1.games m.identity ++ [m.gameId] else acc.1.games id := by
          by_cases hid : id = m.identity
          · rw [hid, Function.update_self, if_pos rfl]
          · rw [Function.update_of_ne hid, if_neg hid]
        have hnew (id : String) : id ∈ (if (acc.1.games m.identity).isEmpty then acc.1.order ++ [m.identity] else acc.1.order) ↔
            id ∈ acc.1.order ∨ id = m.identity := by
          by_cases hfirst : (acc.1.games m.identity).isEmpty = true
          · rw [if_pos hfirst, List.mem_append, List.mem_singleton]
          · rw [if_neg hfirst]
            refine ⟨.inl, fun hold => hold.elim (fun hin => hin) fun hid => ?_⟩
            rw [hid]
            exact (h.kept.closed _).mpr (by simpa using hfirst)
        obtain ⟨seen, hlen, hseen⟩ := h.seen
        refine ⟨⟨?_, fun id => ?_, fun id => ?_⟩, ⟨(m.identity, m.gameId) :: seen, by simp [hlen], ?_⟩, by omega⟩
        · by_cases hfirst : (acc.1.games m.identity).isEmpty = true
          · rw [if_pos hfirst]
            refine List.nodup_append.mpr ⟨h.kept.order, List.nodup_singleton _, fun a ha b hb => ?_⟩
            rw [List.mem_singleton.mp hb]
            exact fun he => (h.kept.closed m.identity).mp (he ▸ ha) (by simpa using hfirst)
          · rw [if_neg hfirst]
            exact h.kept.order
        · dsimp only
          rw [hgames]
          by_cases hid : id = m.identity
          · rw [if_pos hid]
            exact List.nodup_append.mpr ⟨h.kept.games _, List.nodup_singleton _, fun a ha b hb => by
              rw [List.mem_singleton.mp hb]
              exact fun he => hin (he ▸ ha)⟩
          · rw [if_neg hid]
            exact h.kept.games id
        · dsimp only
          rw [hnew, hgames]
          by_cases hid : id = m.identity
          · rw [if_pos hid]
            simp [hid]
          · rw [if_neg hid, h.kept.closed id]
            simp [hid]
        · intro s hs
          have hg := (mem_subjectPairs.mp hs).2
          dsimp only at hg
          rw [hgames] at hg
          by_cases hid : s.1 = m.identity
          · rw [if_pos hid, List.mem_append, List.mem_singleton] at hg
            rcases hg with hg | hg
            · exact List.mem_cons_of_mem _ (hseen s (h.kept.mem.mpr (hid ▸ hg)))
            · rw [← hid, ← hg]
              exact List.mem_cons_self
          · rw [if_neg hid] at hg
            exact List.mem_cons_of_mem _ (hseen s (h.kept.mem.mpr hg))

variable {marks : List DirtyRow}

theorem counted_foldl {acc : Plan × Nat} (h : Counted acc.1 acc.2) :
    Counted (marks.foldl markStep acc).1 (marks.foldl markStep acc).2 := by
  induction marks generalizing acc with
  | nil => exact h
  | cons m rest ih => exact ih (h.step m)

theorem Counted.gameCount_le {n : Nat} (h : Counted p n) : p.gameCount ≤ maxGamesPerMessage := by
  obtain ⟨seen, hlen, hseen⟩ := h.seen
  have := (List.subperm_of_subset h.kept.nodup hseen).length_le
  have := h.bound
  rw [gameCount_eq]
  omega

theorem planOfMarks_counted (marks : List DirtyRow) (n : Nat) (more : Bool) : ∃ counted, Counted (planOfMarks marks n more) counted := by
  have h := @counted_foldl marks ({ more := more }, 0) ⟨kept_empty more 0, ⟨[], rfl, fun s hs => by cases hs⟩, Nat.zero_le _⟩
  exact ⟨_, ⟨h.kept.order, h.kept.games, h.kept.closed⟩, h.seen, h.bound⟩

structure Plan.Fits (p : Plan) : Prop where
  kept : p.Kept
  bound : p.gameCount ≤ maxGamesPerMessage

theorem planOfMarks_fits (marks : List DirtyRow) (n : Nat) (more : Bool) : (planOfMarks marks n more).Fits := by
  obtain ⟨counted, h⟩ := planOfMarks_counted marks n more
  exact ⟨h.kept, h.gameCount_le⟩

theorem fits_empty : Plan.Fits {} := ⟨kept_empty false 0, Nat.zero_le _⟩

/-! ## The plans of a batch -/

section
variable {c : Consumer} {db : Db}

def Unwanted (db : Db) (ev : OwedEvent) : Prop := ∀ m ∈ db.routeMarks ev.source ev.sourceKey, m.gameId ≠ ""

theorem planFinish_unwanted (h : ∀ m ∈ marks, m.gameId ≠ "") (n : Nat) (expanded : List (String × Int)) :
    planFinish c marks n expanded = .ok (planOfMarks marks n (routeReadLimit ≤ marks.length), expanded) := by
  have hnone : (marks.filter fun m => m.gameId = "") = [] := List.filter_eq_nil_iff.mpr fun m hm => by simpa using h m hm
  unfold planFinish
  rw [hnone]
  rfl

def ownPlan (db : Db) (ev : OwedEvent) : Plan :=
  if ev.source = txfacts then {}
  else planOfMarks (db.routeMarks ev.source ev.sourceKey) (db.routeHeld ev.source ev.sourceKey)
    (routeReadLimit ≤ (db.routeMarks ev.source ev.sourceKey).length)

theorem ownPlan_fits (db : Db) (ev : OwedEvent) : (ownPlan db ev).Fits := by
  unfold ownPlan
  split
  · exact fits_empty
  · exact planOfMarks_fits _ _ _

theorem plan_unwanted {ev : OwedEvent} (h : Unwanted db ev) : plan c db ev = .ok (ownPlan db ev) := by
  unfold plan ownPlan
  by_cases htx : ev.source = txfacts
  · rw [if_pos htx, if_pos htx]
  · rw [if_neg htx, if_neg htx, planFinish_unwanted h]
    rfl

variable {evs : List OwedEvent}

theorem mem_distinctPairs {ev : OwedEvent} (h : ev ∈ evs) (hne : ev.source ≠ txfacts) :
    (ev.source, ev.sourceKey) ∈ distinctPairs evs := by
  have hfold (l : List OwedEvent) (pairs : List (String × String)) (hin : (ev.source, ev.sourceKey) ∈ pairs ∨ ev ∈ l) :
      (ev.source, ev.sourceKey) ∈ l.foldl (fun pairs ev =>
        if (ev.source, ev.sourceKey) ∈ pairs then pairs else pairs ++ [(ev.source, ev.sourceKey)]) pairs := by
    induction l generalizing pairs with
    | nil => exact hin.resolve_right (by simp)
    | cons a rest ih =>
      rw [List.foldl_cons]
      refine ih _ ?_
      rcases hin with hin | hin
      · left
        by_cases ha : (a.source, a.sourceKey) ∈ pairs
        · rw [if_pos ha]
          exact hin
        · rw [if_neg ha]
          exact List.mem_append_left _ hin
      · rcases List.mem_cons.mp hin with rfl | hin
        · left
          by_cases ha : (ev.source, ev.sourceKey) ∈ pairs
          · rw [if_pos ha]
            exact ha
          · rw [if_neg ha]
            simp
        · exact .inr hin
  exact hfold _ [] (.inr (List.mem_filter.mpr ⟨h, by simpa using hne⟩))

theorem lookup_mapped {α β : Type} [BEq α] [LawfulBEq α] {k : α} {l : List α} (h : k ∈ l) (f : α → β) :
    (l.map fun a => (a, f a)).lookup k = some (f k) := by
  induction l with
  | nil => exact (List.not_mem_nil h).elim
  | cons a rest ih =>
    rw [List.map_cons, List.lookup_cons]
    by_cases ha : k = a
    · rw [← ha, beq_self_eq_true]
    · rw [beq_eq_false_iff_ne.mpr ha]
      exact ih ((List.mem_cons.mp h).resolve_left ha)

theorem plansMany_unwanted (h : ∀ ev ∈ evs, Unwanted db ev) : plansMany c db evs = .ok (evs.map (ownPlan db)) := by
  have hread (ev : OwedEvent) (hev : ev ∈ evs) (hne : ev.source ≠ txfacts) : (planReads db evs).lookup (ev.source, ev.sourceKey) =
      some (db.routeMarks ev.source ev.sourceKey, db.routeHeld ev.source ev.sourceKey) := by
    exact lookup_mapped (mem_distinctPairs hev hne) fun pair => (db.routeMarks pair.1 pair.2, db.routeHeld pair.1 pair.2)
  have hfrom (l : List OwedEvent) (hl : ∀ ev ∈ l, ev ∈ evs) (expanded : List (String × Int)) :
      plansFrom c (planReads db evs) l expanded = .ok (l.map (ownPlan db)) := by
    induction l generalizing expanded with
    | nil => rfl
    | cons ev rest ih =>
      have ih := ih fun e he => hl e (List.mem_cons_of_mem ev he)
      have hev := hl ev List.mem_cons_self
      unfold plansFrom
      by_cases htx : ev.source = txfacts
      · rw [if_pos htx]
        dsimp only
        rw [ih, List.map_cons, ownPlan, if_pos htx]
        rfl
      · rw [if_neg htx, hread ev hev htx]
        dsimp only
        rw [planFinish_unwanted (h ev hev)]
        dsimp only
        rw [ih, List.map_cons, ownPlan, if_neg htx]
        rfl
  exact hfrom evs (fun _ => id) []

end

/-! ## One identity judged -/

/-- The judge's word: a call that names a subject of `F` faults, any other lands its subjects. -/
structure Delivers (c : Consumer) (F : String → String → Bool) : Prop where
  faults : ∀ id games, games.any (F id) = true → ∃ e, c.deliver id games = .error e
  lands : ∀ id games, games ≠ [] → games.any (F id) = false → c.deliver id games = .ok games.length

/-- What a pass over `list` leaves of one identity. -/
structure JudgedOf (F : String → String → Bool) (identity : String) (held : Nat) (list : List String) (out : IdentityJudged) : Prop where
  landed : out.landed = (list.filter fun g => !F identity g).map fun g => (identity, g)
  faulted : out.faulted = (list.filter (F identity)).map fun g => (identity, g)
  subjects : out.subjects = out.landed.length
  held : out.held = held
  calls : out.landedCalls = 0 ↔ out.landed = []
  fault : out.firstFault = none ↔ out.faulted = []

section
variable {c : Consumer} {F : String → String → Bool} {identity : String} {marks : List (String × String)} {held : Nat}

theorem judgedOf_nil : JudgedOf F identity held [] { held := held } :=
  ⟨rfl, rfl, rfl, rfl, iff_of_true rfl rfl, iff_of_true rfl rfl⟩

variable {out : IdentityJudged}

theorem JudgedOf.land (h : JudgedOf F identity held list out) (hne : chunk ≠ [])
    (hout : chunk.any (F identity) = false) : JudgedOf F identity held (list ++ chunk) (out.land identity marks chunk chunk.length) := by
  have hfree : ∀ g ∈ chunk, F identity g = false := by simpa using hout
  have hkeep : (chunk.filter fun g => !F identity g) = chunk := List.filter_eq_self.mpr fun g hg => by rw [hfree g hg]; rfl
  have hdrop : chunk.filter (F identity) = [] := List.filter_eq_nil_iff.mpr fun g hg => by rw [hfree g hg]; exact Bool.false_ne_true
  refine ⟨?_, ?_, ?_, h.held, ?_, ?_⟩
  · simp only [IdentityJudged.land, List.filter_append, List.map_append, hkeep, h.landed]
  · simp only [IdentityJudged.land, List.filter_append, hdrop, List.append_nil, h.faulted]
  · simp only [IdentityJudged.land, List.length_append, List.length_map, h.subjects]
  · simp [IdentityJudged.land, hne]
  · exact h.fault

theorem JudgedOf.fault_one (h : JudgedOf F identity held list out) {game : String}
    (hin : F identity game = true) (e : String) : JudgedOf F identity held (list ++ [game]) (out.fault identity game e) := by
  refine ⟨?_, ?_, h.subjects, h.held, h.calls, ?_⟩
  · simp [IdentityJudged.fault, hin, h.landed]
  · simp [IdentityJudged.fault, hin, h.faulted]
  · simp [IdentityJudged.fault]

theorem judgeSingle_judged (hc : Delivers c F) (h : JudgedOf F identity held list out)
    (game : String) : JudgedOf F identity held (list ++ [game]) (judgeSingle c identity marks out game) := by
  unfold judgeSingle
  by_cases hin : F identity game = true
  · obtain ⟨e, he⟩ := hc.faults identity [game] (by simpa using hin)
    rw [he]
    exact h.fault_one hin e
  · have hfree : [game].any (F identity) = false := by simpa using hin
    rw [hc.lands identity [game] (List.cons_ne_nil _ _) hfree]
    exact h.land (List.cons_ne_nil _ _) hfree

theorem judgeSingles_judged (hc : Delivers c F) (chunk : List String)
    (h : JudgedOf F identity held list out) :
    JudgedOf F identity held (list ++ chunk) (chunk.foldl (judgeSingle c identity marks) out) := by
  induction chunk generalizing list out with
  | nil => simpa using h
  | cons game rest ih =>
    rw [List.foldl_cons, List.append_cons]
    exact ih (judgeSingle_judged hc h game)

theorem judgeChunk_judged (hc : Delivers c F) (h : JudgedOf F identity held list out)
    (hne : chunk ≠ []) : JudgedOf F identity held (list ++ chunk) (judgeChunk c identity marks out chunk) := by
  unfold judgeChunk
  by_cases hany : chunk.any (F identity) = true
  · obtain ⟨e, he⟩ := hc.faults identity chunk hany
    rw [he]
    dsimp only
    split
    · exact h.fault_one (by simpa using hany) e
    · exact judgeSingles_judged hc chunk h
  · have hfree := Bool.eq_false_iff.mpr hany
    rw [hc.lands identity chunk hne hfree]
    exact h.land hne hfree

theorem judgeChunks_judged (hc : Delivers c F) {parts : List (List String)} (hne : ∀ chunk ∈ parts, chunk ≠ [])
    (h : JudgedOf F identity held list out) :
    JudgedOf F identity held (list ++ parts.flatten) (parts.foldl (judgeChunk c identity marks) out) := by
  induction parts generalizing list out with
  | nil => simpa using h
  | cons chunk rest ih =>
    rw [List.foldl_cons, List.flatten_cons, ← List.append_assoc]
    exact ih (fun part hpart => hne part (List.mem_cons_of_mem chunk hpart)) (judgeChunk_judged hc h (hne chunk List.mem_cons_self))

end

section
variable {c : Consumer} {F : String → String → Bool}

theorem judgeIdentity_judged (hc : Delivers c F) (identity : String) (marks : List (String × String)) (games : List String)
    (memos : String → Option Int) (now : Int) :
    JudgedOf F identity (games.filter (memoHeld identity memos now)).length (games.filter fun g => !memoHeld identity memos now g)
      (judgeIdentity c identity marks games memos now) := by
  have hpos : 0 < subjectsPerInvocation := by decide
  have hflat := Chunks.flatten_chunks hpos (games.filter fun g => !memoHeld identity memos now g)
  have h : JudgedOf F identity (games.filter (memoHeld identity memos now)).length _ (judgeIdentity c identity marks games memos now) :=
    judgeChunks_judged hc (fun _ => Chunks.ne_nil_of_mem_chunks hpos) judgedOf_nil
  rwa [List.nil_append, hflat] at h

/-! ## One pass -/

theorem merge_foldl (js : List IdentityJudged) (r : Routed) :
    (js.foldl Routed.merge r).landed = r.landed ++ js.flatMap IdentityJudged.landed ∧
      (js.foldl Routed.merge r).faulted = r.faulted ++ js.flatMap IdentityJudged.faulted ∧
      (js.foldl Routed.merge r).subjects = r.subjects + (js.map IdentityJudged.subjects).sum ∧
      (js.foldl Routed.merge r).held = r.held + (js.map IdentityJudged.held).sum ∧
      (js.foldl Routed.merge r).more = r.more := by
  induction js generalizing r with
  | nil => simp
  | cons j rest ih =>
    obtain ⟨hl, hf, hs, hh, hm⟩ := ih (r.merge j)
    rw [List.foldl_cons, hl, hf, hs, hh, hm, List.flatMap_cons, List.flatMap_cons, List.map_cons, List.map_cons, List.sum_cons,
      List.sum_cons, ← List.append_assoc, ← List.append_assoc, ← Nat.add_assoc, ← Nat.add_assoc]
    exact ⟨rfl, rfl, rfl, rfl, rfl⟩

/-- What a pass over the plan routes: its unheld subjects outside `F` land, those in `F` fault. -/
structure Passed (F : String → String → Bool) (p : Plan) (heldBy : String × String → Bool) (r : Routed) : Prop where
  landed : r.landed.Perm (p.subjectPairs.filter fun s => !heldBy s && !F s.1 s.2)
  faulted : r.faulted.Perm (p.subjectPairs.filter fun s => !heldBy s && F s.1 s.2)
  subjects : r.subjects = r.landed.length
  held : r.held = p.heldSubjects + (p.subjectPairs.filter heldBy).length
  more : r.more = p.more

def heldIn (db : Db) (p : Plan) (s : String × String) : Bool :=
  memoHeld s.1 (db.memoHolds (p.subjectPairs.map fun s => subjectMemoName s.1 s.2)) db.now s.2

theorem subjectPairs_filter (p : Plan) (keep : String × String → Bool) :
    p.subjectPairs.filter keep = p.order.flatMap fun id => ((p.games id).filter fun g => keep (id, g)).map fun g => (id, g) := by
  unfold Plan.subjectPairs
  rw [List.filter_flatMap]
  simp only [List.filter_map, Function.comp_def]

variable {complete alone : List IdentityJudged → List IdentityJudged}

theorem passOf_passed (hc : Delivers c F) (hcomplete : ∀ l, (complete l).Perm l)
    (db : Db) (p : Plan) : Passed F p (heldIn db p) (passOf c complete db p) := by
  obtain ⟨hl, hf, hs, hh, hm⟩ := merge_foldl (judgedOf c complete db p) { more := p.more, held := p.heldSubjects }
  have hjudged (id : String) := judgeIdentity_judged hc id p.held (p.games id)
    (db.memoHolds (p.subjectPairs.map fun s => subjectMemoName s.1 s.2)) db.now
  have hperm := hcomplete (p.order.map fun id => judgeIdentity c id p.held (p.games id)
    (db.memoHolds (p.subjectPairs.map fun s => subjectMemoName s.1 s.2)) db.now)
  refine ⟨?_, ?_, ?_, ?_, hm⟩
  · rw [passOf, hl, List.nil_append, subjectPairs_filter]
    refine (hperm.flatMap_right _).trans (List.Perm.of_eq ?_)
    rw [List.flatMap_map]
    refine congrArg (fun f => List.flatMap f p.order) (funext fun id => ?_)
    rw [(hjudged id).landed, List.filter_filter]
    simp only [heldIn, Bool.and_comm]
  · rw [passOf, hf, List.nil_append, subjectPairs_filter]
    refine (hperm.flatMap_right _).trans (List.Perm.of_eq ?_)
    rw [List.flatMap_map]
    refine congrArg (fun f => List.flatMap f p.order) (funext fun id => ?_)
    rw [(hjudged id).faulted, List.filter_filter]
    simp only [heldIn, Bool.and_comm]
  · rw [passOf, hs, hl, List.nil_append, Nat.zero_add, List.length_flatMap]
    refine congrArg List.sum (List.map_congr_left fun j hj => ?_)
    obtain ⟨id, -, rfl⟩ := List.mem_map.mp (hperm.mem_iff.mp hj)
    exact (hjudged id).subjects
  · rw [passOf, hh, subjectPairs_filter, List.length_flatMap]
    refine congrArg (p.heldSubjects + ·) ?_
    rw [judgedOf, (hperm.map IdentityJudged.held).sum_nat, List.map_map]
    refine congrArg List.sum (List.map_congr_left fun id _ => ?_)
    rw [Function.comp_apply, (hjudged id).held, List.length_map]
    rfl

theorem judgePlan_cases (hc : Delivers c F) (hcomplete : ∀ l, (complete l).Perm l)
    (db : Db) (p : Plan) :
    ((∃ e, judgePlan c complete db p = .error e) ∧ (passOf c complete db p).landed = [] ∧ (passOf c complete db p).faulted ≠ []) ∨
      judgePlan c complete db p = .ok (passOf c complete db p) ∧
        ((passOf c complete db p).landed = [] → (passOf c complete db p).faulted = []) := by
  obtain ⟨hl, hf, -⟩ := merge_foldl (judgedOf c complete db p) { more := p.more, held := p.heldSubjects }
  have hjudged : ∀ j ∈ judgedOf c complete db p, (j.landedCalls = 0 ↔ j.landed = []) ∧ (j.firstFault = none ↔ j.faulted = []) := by
    intro j hj
    obtain ⟨id, -, rfl⟩ := List.mem_map.mp ((hcomplete _).mem_iff.mp hj)
    have h := judgeIdentity_judged hc id p.held (p.games id) (db.memoHolds (p.subjectPairs.map fun s => subjectMemoName s.1 s.2)) db.now
    exact ⟨h.calls, h.fault⟩
  have hcalls : ((judgedOf c complete db p).map IdentityJudged.landedCalls).sum = 0 ↔ (passOf c complete db p).landed = [] := by
    rw [passOf, hl, List.nil_append, List.flatMap_eq_nil_iff, List.sum_eq_zero_iff_forall_eq_nat]
    simp only [List.mem_map, forall_exists_index, and_imp, forall_apply_eq_imp_iff₂]
    exact ⟨fun h j hj => (hjudged j hj).1.mp (h j hj), fun h j hj => (hjudged j hj).1.mpr (h j hj)⟩
  have hfaults : (judgedOf c complete db p).findSome? IdentityJudged.firstFault = none ↔ (passOf c complete db p).faulted = [] := by
    rw [passOf, hf, List.nil_append, List.flatMap_eq_nil_iff, List.findSome?_eq_none_iff]
    exact ⟨fun h j hj => (hjudged j hj).2.mp (h j hj), fun h j hj => (hjudged j hj).2.mpr (h j hj)⟩
  unfold judgePlan
  dsimp only
  by_cases hzero : ((judgedOf c complete db p).map IdentityJudged.landedCalls).sum = 0
  · rw [if_pos hzero]
    have hnone := hcalls.mp hzero
    cases hfind : (judgedOf c complete db p).findSome? IdentityJudged.firstFault with
    | some fault =>
      refine .inl ⟨⟨fault, rfl⟩, hnone, fun he => ?_⟩
      rw [hfaults.mpr he] at hfind
      cases hfind
    | none => exact .inr ⟨rfl, fun _ => hfaults.mp hfind⟩
  · rw [if_neg hzero]
    exact .inr ⟨rfl, fun he => absurd (hcalls.mpr he) hzero⟩

/-! ## The fates -/

def Fate.undelayed : Fate → Fate
  | .fault _ => .fault none
  | .retry _ => .retry none
  | fate => fate

def verdict (F : String → String → Bool) (p : Plan) : Fate :=
  let landed := (p.subjectPairs.filter fun s => !F s.1 s.2).length
  if landed = 0 ∧ p.subjectPairs ≠ [] then .fault none else .ack (0 < landed || p.heldSubjects == 0) (p.more && 0 < landed)

def Free (db : Db) (p : Plan) : Prop := ∀ s ∈ p.subjectPairs, (db.memos.find? fun m => m.name = subjectMemoName s.1 s.2) = none

variable {db : Db}

theorem memoHolds_free {name : String} (h : (db.memos.find? fun m => m.name = name) = none) (names : List String) :
    db.memoHolds names name = none := by
  unfold Db.memoHolds
  rw [h]
  exact ite_self none

theorem heldIn_free (h : Free db p) (hs : s ∈ p.subjectPairs) : heldIn db p s = false := by
  rw [heldIn, memoHeld, memoHolds_free (h s hs)]
  rfl

theorem Passed.of_free {r : Routed} (h : Passed F p (heldIn db p) r) (hfree : Free db p) :
    Passed F p (fun _ => false) r := by
  have hlanded : (p.subjectPairs.filter fun s => !heldIn db p s && !F s.1 s.2) = p.subjectPairs.filter fun s => !false && !F s.1 s.2 :=
    List.filter_congr fun s hs => by rw [heldIn_free hfree hs]
  have hfaulted : (p.subjectPairs.filter fun s => !heldIn db p s && F s.1 s.2) = p.subjectPairs.filter fun s => !false && F s.1 s.2 :=
    List.filter_congr fun s hs => by rw [heldIn_free hfree hs]
  have hheld : p.subjectPairs.filter (heldIn db p) = p.subjectPairs.filter fun _ => false :=
    List.filter_congr fun s hs => heldIn_free hfree hs
  exact ⟨hlanded ▸ h.landed, hfaulted ▸ h.faulted, h.subjects, hheld ▸ h.held, h.more⟩

theorem split_pairs (F : String → String → Bool) (p : Plan) :
    (p.subjectPairs.filter fun s => !F s.1 s.2).length + (p.subjectPairs.filter fun s => F s.1 s.2).length = p.subjectPairs.length := by
  rw [List.length_eq_length_filter_add (l := p.subjectPairs) fun s => F s.1 s.2, Nat.add_comm]

theorem isFault_undelayed (fate : Fate) : fate.undelayed.isFault = fate.isFault := by
  cases fate <;> rfl

theorem isFault_verdict (p : Plan) :
    (verdict F p).isFault = true ↔ (∃ s ∈ p.subjectPairs, F s.1 s.2 = true) ∧ ∀ s ∈ p.subjectPairs, F s.1 s.2 = true := by
  have hall : (p.subjectPairs.filter fun s => !F s.1 s.2).length = 0 ↔ ∀ s ∈ p.subjectPairs, F s.1 s.2 = true := by
    rw [List.length_eq_zero_iff, List.filter_eq_nil_iff]
    simp
  unfold verdict
  dsimp only
  by_cases h : (p.subjectPairs.filter fun s => !F s.1 s.2).length = 0 ∧ p.subjectPairs ≠ []
  · rw [if_pos h]
    obtain ⟨s, hs⟩ := List.exists_mem_of_ne_nil _ h.2
    exact iff_of_true rfl ⟨⟨s, hs, hall.mp h.1 s hs⟩, hall.mp h.1⟩
  · rw [if_neg h]
    refine iff_of_false Bool.false_ne_true fun hf => h ⟨hall.mpr hf.2, ?_⟩
    obtain ⟨s, hs, -⟩ := hf.1
    exact List.ne_nil_of_mem hs

theorem aloneFate_verdict (hc : Delivers c F) (halone : ∀ l, (alone l).Perm l)
    {ev : OwedEvent} (hev : Unwanted db ev) (hfree : Free db (ownPlan db ev)) :
    (aloneFate c alone db ev).undelayed = verdict F (ownPlan db ev) := by
  unfold aloneFate consumeOne
  rw [plan_unwanted hev]
  dsimp only
  by_cases hempty : (ownPlan db ev).isEmpty = true
  · have hparts : (ownPlan db ev).order = [] ∧ (ownPlan db ev).more = false := by simpa [Plan.isEmpty] using hempty
    have hpairs : (ownPlan db ev).subjectPairs = [] := by rw [Plan.subjectPairs, hparts.1]; rfl
    rw [if_pos hempty, verdict, hpairs, hparts.2]
    simp [Fate.undelayed, Plan.emptyRouted, continues]
  · rw [if_neg hempty]
    have h := (passOf_passed hc halone db (ownPlan db ev)).of_free hfree
    have hlanded := h.landed.length_eq
    have hfaulted := h.faulted.length_eq
    have hsplit := split_pairs F (ownPlan db ev)
    have hheld := h.held
    simp only [Bool.not_false, Bool.true_and] at hlanded hfaulted
    rw [List.filter_false, List.length_nil, Nat.add_zero] at hheld
    unfold verdict
    dsimp only
    rcases judgePlan_cases hc halone db (ownPlan db ev) with ⟨⟨e, he⟩, hnone, hsome⟩ | ⟨hok, hnone⟩
    · have hpos := List.length_pos_of_ne_nil hsome
      have hzero : ((ownPlan db ev).subjectPairs.filter fun s => !F s.1 s.2).length = 0 := by rw [← hlanded, hnone]; rfl
      rw [he, if_pos ⟨hzero, List.ne_nil_of_length_pos (by omega)⟩]
      rfl
    · rw [hok, if_neg ?_]
      · simp only [Fate.undelayed, continues, h.subjects, hlanded, hheld, h.more]
      · intro hboth
        have hzero := hnone (List.eq_nil_of_length_eq_zero (hlanded.trans hboth.1))
        have hpos := List.length_pos_of_ne_nil hboth.2
        rw [hzero, List.length_nil] at hfaulted
        omega

theorem ownFate_verdict {routed : Routed} (hlanded : ∀ s ∈ p.subjectPairs, s ∈ routed.landed ↔ F s.1 s.2 = false)
    (hfaulted : ∀ s ∈ p.subjectPairs, s ∈ routed.faulted ↔ F s.1 s.2 = true) (noted : Nat) (ev : OwedEvent) :
    (ownFate c routed noted ev p).undelayed = verdict F p := by
  have hl : (p.subjectPairs.filter fun s => routed.landed.contains s) = p.subjectPairs.filter fun s => !F s.1 s.2 :=
    List.filter_congr fun s hs => by
      rw [Bool.eq_iff_iff, List.contains_iff_mem, hlanded s hs, Bool.not_eq_true']
  have hf : (p.subjectPairs.filter fun s => routed.faulted.contains s) = p.subjectPairs.filter fun s => F s.1 s.2 :=
    List.filter_congr fun s hs => by
      rw [Bool.eq_iff_iff, List.contains_iff_mem, hfaulted s hs]
  have hsplit := split_pairs F p
  have hpairs : p.subjectPairs ≠ [] ↔ 0 < p.subjectPairs.length := List.length_pos_iff.symm
  unfold ownFate verdict
  dsimp only
  rw [hl, hf]
  by_cases h : (p.subjectPairs.filter fun s => !F s.1 s.2).length = 0 ∧ 0 < (p.subjectPairs.filter fun s => F s.1 s.2).length
  · rw [if_pos h, if_pos ⟨h.1, hpairs.mpr (by omega)⟩]
    rfl
  · rw [if_neg h, if_neg fun hboth => h ⟨hboth.1, by have := hpairs.mp hboth.2; omega⟩]
    have hheld : p.emptyRouted.held + p.subjectPairs.length - (p.subjectPairs.filter fun s => !F s.1 s.2).length -
        (p.subjectPairs.filter fun s => F s.1 s.2).length = p.heldSubjects := by
      have hempty : p.emptyRouted.held = p.heldSubjects := rfl
      rw [hempty]
      omega
    rw [hheld]
    rfl

theorem fatesFrom_length (routed : Routed) (l : List ((OwedEvent × Plan) × Bool)) (noted : List (String × String)) :
    (fatesFrom c routed noted l).length = l.length := by
  induction l generalizing noted with
  | nil => rfl
  | cons m rest ih => exact congrArg (· + 1) (ih _)

theorem mem_fatesFrom {routed : Routed} {l : List ((OwedEvent × Plan) × Bool)} {noted : List (String × String)}
    {x : ((OwedEvent × Plan) × Bool) × Fate} (h : x ∈ l.zip (fatesFrom c routed noted l)) :
    ∃ n, x.2 = if x.1.2 then ownFate c routed n x.1.1.1 x.1.1.2 else .alone := by
  induction l generalizing noted with
  | nil => exact (List.not_mem_nil h).elim
  | cons m rest ih =>
    rw [fatesFrom, List.zip_cons_cons] at h
    rcases List.mem_cons.mp h with rfl | h
    · exact ⟨_, rfl⟩
    · exact ih h

/-! ## The messages taken -/

theorem selectFrom_length (l : List (Plan × Bool)) (taken : List Plan) : (selectFrom taken l).length = l.length := by
  induction l generalizing taken with
  | nil => rfl
  | cons m rest ih =>
    unfold selectFrom
    split
    · exact congrArg (· + 1) (ih taken)
    · dsimp only
      split
      · exact congrArg (· + 1) (ih _)
      · exact congrArg (· + 1) (ih taken)

variable {l : List (Plan × Bool)}

theorem selectFrom_unfaulted {taken : List Plan} {i : Nat} {m : Plan × Bool} (hm : l[i]? = some m)
    (htaken : (selectFrom taken l)[i]? = some true) : m.2 = false := by
  induction l generalizing taken i with
  | nil => cases hm
  | cons a rest ih =>
    unfold selectFrom at htaken
    by_cases ha : a.2 = true
    · rw [if_pos ha] at htaken
      cases i with
      | zero => cases htaken
      | succ i => exact ih hm htaken
    · rw [if_neg ha] at htaken
      cases i with
      | zero =>
        rw [← Option.some.inj hm]
        exact Bool.eq_false_iff.mpr ha
      | succ i =>
        dsimp only at htaken
        split at htaken
        · exact ih hm htaken
        · exact ih hm htaken

theorem merged_one (h : p.Fits) : (Plan.merged [p]).gameCount ≤ maxGamesPerMessage := by
  have hkept : ∀ q ∈ [p], q.Kept := by simpa using h.kept
  have hsub : (Plan.merged [p]).subjectPairs ⊆ p.subjectPairs := fun s hs => by simpa using (mem_merged hkept).mp hs
  have hlen := (List.subperm_of_subset (merged_kept hkept).nodup hsub).length_le
  have hbound := h.bound
  rw [gameCount_eq] at hbound ⊢
  omega

theorem selectFrom_bound {taken : List Plan} (hl : ∀ m ∈ l, m.1.Fits)
    (h : (Plan.merged taken).gameCount ≤ maxGamesPerMessage) :
    (Plan.merged (taken ++ (((l.map Prod.fst).zip (selectFrom taken l)).filter Prod.snd).map Prod.fst)).gameCount ≤ maxGamesPerMessage := by
  induction l generalizing taken with
  | nil => simpa [selectFrom] using h
  | cons m rest ih =>
    have hrest : ∀ q ∈ rest, q.1.Fits := fun q hq => hl q (List.mem_cons_of_mem m hq)
    unfold selectFrom
    by_cases hm : m.2 = true
    · rw [if_pos hm]
      exact ih hrest h
    · rw [if_neg hm]
      dsimp only
      split
      case isTrue hfits =>
        have hnext : (Plan.merged (taken ++ [m.1])).gameCount ≤ maxGamesPerMessage := by
          rcases hfits with hfits | hfirst
          · exact hfits.1
          · rw [List.isEmpty_iff.mp hfirst]
            exact merged_one (hl m List.mem_cons_self)
        have := ih hrest hnext
        rw [List.append_assoc] at this
        exact this
      case isFalse => exact ih hrest h

end

section
variable {db : Db} {evs : List OwedEvent} {plans : List Plan}

theorem takenOf_length (h : plans.length = evs.length) : (takenOf db evs plans).length = evs.length := by
  simp [takenOf, batchSelection, selectFrom_length, faultedOf, h]

variable {m : OwedEvent × Plan}

theorem taken_free {i : Nat} (hm : (evs.zip plans)[i]? = some m)
    (htaken : (takenOf db evs plans)[i]? = some true) : Free db m.2 := by
  have hplan := (List.getElem?_zip_eq_some.mp hm).2
  have hfault : (faultedOf db evs plans)[i]? = some (memoNamed db (batchNames evs plans) m) := by
    rw [faultedOf, List.getElem?_map, hm]
    rfl
  have hzip : (plans.zip (faultedOf db evs plans))[i]? = some (m.2, memoNamed db (batchNames evs plans) m) :=
    List.getElem?_zip_eq_some.mpr ⟨hplan, hfault⟩
  have hfalse : memoNamed db (batchNames evs plans) m = false := selectFrom_unfaulted hzip htaken
  intro s hs
  have hnone : db.memoHolds (batchNames evs plans) (subjectMemoName s.1 s.2) = none := by
    simpa using List.any_eq_false.mp (Bool.or_eq_false_iff.mp hfalse).2 s hs
  have hname : subjectMemoName s.1 s.2 ∈ batchNames evs plans :=
    List.mem_flatMap.mpr ⟨m, List.mem_of_getElem? hm, List.mem_cons_of_mem _ (List.mem_map.mpr ⟨s, hs, rfl⟩)⟩
  unfold Db.memoHolds at hnone
  rw [if_pos hname] at hnone
  exact Option.map_eq_none_iff.mp hnone

theorem mem_chosenOf : p ∈ chosenOf db evs plans ↔ ∃ i : Nat, plans[i]? = some p ∧ (takenOf db evs plans)[i]? = some true := by
  unfold chosenOf
  rw [List.mem_map]
  constructor
  · rintro ⟨m, hm, rfl⟩
    obtain ⟨hzip, htrue⟩ := List.mem_filter.mp hm
    obtain ⟨i, hi⟩ := List.mem_iff_getElem?.mp hzip
    obtain ⟨hp, ht⟩ := List.getElem?_zip_eq_some.mp hi
    exact ⟨i, hp, htrue ▸ ht⟩
  · rintro ⟨i, hp, ht⟩
    exact ⟨(p, true), List.mem_filter.mpr ⟨List.mem_of_getElem? (List.getElem?_zip_eq_some.mpr ⟨hp, ht⟩), rfl⟩, rfl⟩

theorem holds_free {identity game : String} (h : (db.memos.find? fun m => m.name = subjectMemoName identity game) = none) :
    db.holds identity game = false := by
  refine List.any_eq_false.mpr fun m hm => ?_
  have := List.find?_eq_none.mp h m hm
  simp only [decide_eq_true_eq] at this
  simp [this]

theorem chosen_free (hplans : plans = evs.map (ownPlan db)) (hp : p ∈ chosenOf db evs plans) : p.Kept ∧ Free db p := by
  obtain ⟨i, hi, htaken⟩ := mem_chosenOf.mp hp
  have hev := hi
  rw [hplans, List.getElem?_map, Option.map_eq_some_iff] at hev
  obtain ⟨ev, hev, hown⟩ := hev
  have hzip : (evs.zip plans)[i]? = some (ev, p) := List.getElem?_zip_eq_some.mpr ⟨hev, hi⟩
  exact ⟨hown ▸ (ownPlan_fits db ev).kept, taken_free hzip htaken⟩

theorem chosen_bound (hplans : plans = evs.map (ownPlan db)) : (Plan.merged (chosenOf db evs plans)).gameCount ≤ maxGamesPerMessage := by
  have hlen : plans.length ≤ (faultedOf db evs plans).length := by simp [faultedOf, hplans]
  have hfst : (plans.zip (faultedOf db evs plans)).map Prod.fst = plans := List.map_fst_zip hlen
  have h := @selectFrom_bound (plans.zip (faultedOf db evs plans)) [] (fun m hm => by
    obtain ⟨ev, -, hown⟩ := List.mem_map.mp (hplans ▸ (List.of_mem_zip hm).1)
    exact hown ▸ ownPlan_fits db ev) (Nat.zero_le _)
  rwa [hfst] at h

section
variable {c : Consumer} {F : String → String → Bool} (hc : Delivers c F) {complete : List IdentityJudged → List IdentityJudged}
  (hcomplete : ∀ l, (complete l).Perm l)
include hc hcomplete

theorem pass_judged (hplans : plans = evs.map (ownPlan db)) :
    Passed F (Plan.merged (chosenOf db evs plans)) (fun _ => false) (passOf c complete db (Plan.merged (chosenOf db evs plans))) := by
  refine (passOf_passed hc hcomplete db _).of_free fun s hs => ?_
  obtain ⟨p, hp, hs⟩ := (mem_merged fun p hp => (chosen_free hplans hp).1).mp hs
  exact (chosen_free hplans hp).2 s hs

theorem mem_landed (hplans : plans = evs.map (ownPlan db)) :
    s ∈ (passOf c complete db (Plan.merged (chosenOf db evs plans))).landed ↔
      (∃ p ∈ chosenOf db evs plans, s ∈ p.subjectPairs) ∧ F s.1 s.2 = false := by
  rw [(pass_judged hc hcomplete hplans).landed.mem_iff, List.mem_filter, mem_merged fun p hp => (chosen_free hplans hp).1]
  simp

theorem mem_faulted (hplans : plans = evs.map (ownPlan db)) :
    s ∈ (passOf c complete db (Plan.merged (chosenOf db evs plans))).faulted ↔
      (∃ p ∈ chosenOf db evs plans, s ∈ p.subjectPairs) ∧ F s.1 s.2 = true := by
  rw [(pass_judged hc hcomplete hplans).faulted.mem_iff, List.mem_filter, mem_merged fun p hp => (chosen_free hplans hp).1]
  simp

end

theorem fate_alone {c : Consumer} {F : String → String → Bool} (hc : Delivers c F) {alone : List IdentityJudged → List IdentityJudged}
    (halone : ∀ l, (alone l).Perm l) (hevs : ∀ ev ∈ evs, Unwanted db ev) (hplans : plans = evs.map (ownPlan db)) {i : Nat}
    (hm : (evs.zip plans)[i]? = some m) (htaken : (takenOf db evs plans)[i]? = some true) {fate : Fate}
    (hfate : fate.undelayed = verdict F m.2) {landed : List (String × String)}
    (hlanded : ∀ s ∈ m.2.subjectPairs, s ∈ landed ↔ F s.1 s.2 = false) :
    fate.undelayed = (aloneFate c alone db m.1).undelayed ∧
      (fate.isFault = true ↔ (∃ s ∈ m.2.subjectPairs, F s.1 s.2 = true) ∧ ∀ s ∈ m.2.subjectPairs, s ∉ landed) := by
  obtain ⟨hev, hp⟩ := List.getElem?_zip_eq_some.mp hm
  have hown : m.2 = ownPlan db m.1 := by
    rw [hplans, List.getElem?_map, hev] at hp
    exact (Option.some.inj hp).symm
  have hfree := taken_free hm htaken
  refine ⟨?_, ?_⟩
  · rw [hfate, hown, aloneFate_verdict hc halone (hevs m.1 (List.mem_of_getElem? hev)) (hown ▸ hfree)]
  · rw [← isFault_undelayed, hfate, isFault_verdict]
    refine and_congr_right fun _ => forall₂_congr fun s hs => ?_
    rw [hlanded s hs, Bool.not_eq_false]

end

theorem batchCore_cases {c : Consumer} {F : String → String → Bool} (hc : Delivers c F) {complete : List IdentityJudged → List IdentityJudged}
    (hcomplete : ∀ l, (complete l).Perm l) (db : Db) (evs : List OwedEvent) (plans : List Plan) :
    ((Plan.merged (chosenOf db evs plans)).order = [] ∧ batchCore c complete none db evs plans =
      .ok { fates := (plans.zip (takenOf db evs plans)).map fun m => if m.2 then .ack (m.1.emptyRouted.held == 0) false else .alone
            routed := (Plan.merged (chosenOf db evs plans)).emptyRouted
            coalesced := (chosenOf db evs plans).length }) ∨
    ((∃ e, batchCore c complete none db evs plans = .error e) ∧
      (passOf c complete db (Plan.merged (chosenOf db evs plans))).landed = [] ∧
      (passOf c complete db (Plan.merged (chosenOf db evs plans))).faulted ≠ []) ∨
    batchCore c complete none db evs plans =
      .ok { fates := fatesFrom c (passOf c complete db (Plan.merged (chosenOf db evs plans))) [] ((evs.zip plans).zip (takenOf db evs plans))
            routed := passOf c complete db (Plan.merged (chosenOf db evs plans))
            coalesced := (chosenOf db evs plans).length } := by
  unfold batchCore
  dsimp only
  by_cases hempty : (Plan.merged (chosenOf db evs plans)).isEmpty = true
  · rw [if_pos hempty]
    exact .inl ⟨List.isEmpty_iff.mp (Bool.and_eq_true_iff.mp hempty).1, rfl⟩
  · rw [if_neg hempty]
    rcases judgePlan_cases hc hcomplete db (Plan.merged (chosenOf db evs plans)) with ⟨⟨e, he⟩, hfault⟩ | ⟨hok, -⟩
    · rw [he]
      exact .inr (.inl ⟨⟨e, rfl⟩, hfault⟩)
    · rw [hok]
      exact .inr (.inr rfl)

/-- Coalescing changes no message's fate: what a batch answers a message is what the one-message arm answers it alone. -/
theorem batchCore_alone {c : Consumer} {F : String → String → Bool} (hc : Delivers c F)
    {complete alone : List IdentityJudged → List IdentityJudged} (hcomplete : ∀ l, (complete l).Perm l) (halone : ∀ l, (alone l).Perm l)
    (db : Db) (evs : List OwedEvent) (plans : List Plan) (hevs : ∀ ev ∈ evs, Unwanted db ev) (hplans : plansMany c db evs = .ok plans) :
    (∀ e, batchCore c complete none db evs plans = .error e →
      (passOf c complete db (Plan.merged (chosenOf db evs plans))).landed = [] ∧
        (passOf c complete db (Plan.merged (chosenOf db evs plans))).faulted ≠ []) ∧
    (∀ out, batchCore c complete none db evs plans = .ok out →
      out.fates.length = evs.length ∧ out.routed.landed = (passOf c complete db (Plan.merged (chosenOf db evs plans))).landed ∧
      ∀ m ∈ (evs.zip plans).zip out.fates, m.2 ≠ .alone → m.2.undelayed = (aloneFate c alone db m.1.1).undelayed ∧
        (m.2.isFault = true ↔ (∃ s ∈ m.1.2.subjectPairs, F s.1 s.2 = true) ∧ ∀ s ∈ m.1.2.subjectPairs, s ∉ out.routed.landed)) ∧
    (passOf c complete db (Plan.merged (chosenOf db evs plans))).landed.Nodup ∧
    (∀ s, s ∈ (passOf c complete db (Plan.merged (chosenOf db evs plans))).landed ↔
      (∃ p ∈ chosenOf db evs plans, s ∈ p.subjectPairs) ∧ F s.1 s.2 = false ∧ db.holds s.1 s.2 = false) ∧
    (Plan.merged (chosenOf db evs plans)).gameCount ≤ maxGamesPerMessage := by
  have hown : plans = evs.map (ownPlan db) := Except.ok.inj (hplans.symm.trans (plansMany_unwanted hevs))
  have hlen : plans.length = evs.length := by rw [hown, List.length_map]
  have htakenLen : (takenOf db evs plans).length = evs.length := takenOf_length hlen
  have hkept : (Plan.merged (chosenOf db evs plans)).Kept := merged_kept fun p hp => (chosen_free hown hp).1
  have hpass := pass_judged hc hcomplete hown
  -- A taken message's plan is among the chosen.
  have hchosen {i : Nat} {m : OwedEvent × Plan} (hm : (evs.zip plans)[i]? = some m) (htaken : (takenOf db evs plans)[i]? = some true) :
      m.2 ∈ chosenOf db evs plans :=
    mem_chosenOf.mpr ⟨i, (List.getElem?_zip_eq_some.mp hm).2, htaken⟩
  have hlanded {p : Plan} (hp : p ∈ chosenOf db evs plans) (s : String × String) (hs : s ∈ p.subjectPairs) :
      s ∈ (passOf c complete db (Plan.merged (chosenOf db evs plans))).landed ↔ F s.1 s.2 = false := by
    rw [mem_landed hc hcomplete hown]
    exact and_iff_right ⟨p, hp, hs⟩
  have hfaulted {p : Plan} (hp : p ∈ chosenOf db evs plans) (s : String × String) (hs : s ∈ p.subjectPairs) :
      s ∈ (passOf c complete db (Plan.merged (chosenOf db evs plans))).faulted ↔ F s.1 s.2 = true := by
    rw [mem_faulted hc hcomplete hown]
    exact and_iff_right ⟨p, hp, hs⟩
  refine ⟨?_, ?_, hpass.landed.nodup_iff.mpr (hkept.nodup.filter _), fun s => ?_, chosen_bound hown⟩
  · intro e he
    rcases batchCore_cases hc hcomplete db evs plans with ⟨-, hok⟩ | ⟨-, hfault⟩ | hok
    · rw [hok] at he
      cases he
    · exact hfault
    · rw [hok] at he
      cases he
  · intro out hout
    rcases batchCore_cases hc hcomplete db evs plans with ⟨hempty, hok⟩ | ⟨⟨e, he⟩, -⟩ | hok
    · have hnone : ∀ p ∈ chosenOf db evs plans, p.subjectPairs = [] := by
        intro p hp
        refine List.eq_nil_iff_forall_not_mem.mpr fun s hs => ?_
        have hin := (mem_merged fun q hq => (chosen_free hown hq).1).mpr ⟨p, hp, hs⟩
        rw [Plan.subjectPairs, hempty] at hin
        exact List.not_mem_nil hin
      have hzero : (passOf c complete db (Plan.merged (chosenOf db evs plans))).landed = [] := by
        refine List.eq_nil_iff_forall_not_mem.mpr fun s hs => ?_
        obtain ⟨⟨p, hp, hs⟩, -⟩ := (mem_landed hc hcomplete hown).mp hs
        rw [hnone p hp] at hs
        exact List.not_mem_nil hs
      obtain rfl := Except.ok.inj (hout.symm.trans hok)
      refine ⟨by simp [hlen, htakenLen], hzero.symm, fun m hm halone' => ?_⟩
      obtain ⟨i, hi⟩ := List.mem_iff_getElem?.mp hm
      obtain ⟨hmsg, hfate⟩ := List.getElem?_zip_eq_some.mp hi
      rw [List.getElem?_map, Option.map_eq_some_iff] at hfate
      obtain ⟨t, ht, hfate⟩ := hfate
      obtain ⟨hplan, htaken⟩ := List.getElem?_zip_eq_some.mp ht
      cases htrue : t.2 with
      | false =>
        rw [htrue] at hfate
        exact absurd hfate.symm halone'
      | true =>
        rw [htrue] at hfate htaken
        have hsame : t.1 = m.1.2 := Option.some.inj (hplan.symm.trans (List.getElem?_zip_eq_some.mp hmsg).2)
        have hpairs := hnone _ (hchosen hmsg htaken)
        refine fate_alone hc halone hevs hown hmsg htaken ?_ fun s hs => ?_
        · rw [← hfate, verdict, hpairs, hsame]
          simp [Fate.undelayed, Plan.emptyRouted]
        · rw [hpairs] at hs
          exact (List.not_mem_nil hs).elim
    · rw [he] at hout
      cases hout
    · obtain rfl := Except.ok.inj (hout.symm.trans hok)
      refine ⟨by simp [fatesFrom_length, hlen, htakenLen], rfl, fun m hm halone' => ?_⟩
      obtain ⟨i, hi⟩ := List.mem_iff_getElem?.mp hm
      obtain ⟨hmsg, hfate⟩ := List.getElem?_zip_eq_some.mp hi
      obtain ⟨t, htaken⟩ : ∃ t, (takenOf db evs plans)[i]? = some t := by
        have hbound := (List.getElem?_eq_some_iff.mp (List.getElem?_zip_eq_some.mp hmsg).1).1
        exact ⟨_, List.getElem?_eq_getElem (htakenLen ▸ hbound)⟩
      have hboth : ((evs.zip plans).zip (takenOf db evs plans))[i]? = some (m.1, t) := List.getElem?_zip_eq_some.mpr ⟨hmsg, htaken⟩
      have hall : (((evs.zip plans).zip (takenOf db evs plans)).zip (fatesFrom c _ [] _))[i]? = some ((m.1, t), m.2) :=
        List.getElem?_zip_eq_some.mpr ⟨hboth, hfate⟩
      obtain ⟨n, hn⟩ := mem_fatesFrom (List.mem_of_getElem? hall)
      dsimp only at hn
      cases t with
      | false => exact absurd hn halone'
      | true =>
        rw [if_pos rfl] at hn
        have hin := hchosen hmsg htaken
        refine fate_alone hc halone hevs hown hmsg htaken ?_ (hlanded hin)
        rw [hn]
        exact ownFate_verdict (hlanded hin) (hfaulted hin) n m.1.1
  · rw [mem_landed hc hcomplete hown]
    refine and_congr_right fun ⟨p, hp, hs⟩ => (and_iff_left ?_).symm
    exact holds_free ((chosen_free hown hp).2 s hs)

/-! ## A batch of three messages, one subject poisoned -/

def poisoned (_ game : String) : Bool := game == "g2"

def mixedConsumer : Consumer where
  deliver id games := if games.any (poisoned id) then .error "the judge faulted" else .ok games.length
  expandWanted _ _ := .error "no envelope"
  faultDelay _ noted := if noted < 2 then none else some 120

def mixedDb : Db where
  dirty := [⟨"ann", "g1", "age", "age", 1, 10⟩, ⟨"ann", "g2", "age", "age", 2, 11⟩, ⟨"ann", "g2", "tip", "gate", 3, 12⟩,
    ⟨"bob", "g1", "word", "t1", 4, 13⟩]
  memos := [⟨subjectMemoName "bob" "g1", none⟩]
  now := 20

def mixedEvents : List OwedEvent := [⟨1, "age", "age", 10⟩, ⟨2, "tip", "gate", 12⟩, ⟨3, "word", "t1", 13⟩]

theorem mixed_delivers : Delivers mixedConsumer poisoned where
  faults id games h := ⟨"the judge faulted", if_pos h⟩
  lands id games _ h := if_neg (by rw [h]; exact Bool.false_ne_true)

theorem mixed_unwanted : ∀ ev ∈ mixedEvents, Unwanted mixedDb ev := by
  unfold Unwanted
  decide

theorem batchCore_mixed :
    (batchCore mixedConsumer id none mixedDb mixedEvents (mixedEvents.map (ownPlan mixedDb))).map BatchOutcome.fates =
        .ok [.ack true false, .fault none, .alone] ∧
      ∀ out, batchCore mixedConsumer id none mixedDb mixedEvents (mixedEvents.map (ownPlan mixedDb)) = .ok out →
        ∀ m ∈ (mixedEvents.zip (mixedEvents.map (ownPlan mixedDb))).zip out.fates, m.2 ≠ .alone →
          m.2.undelayed = (aloneFate mixedConsumer List.reverse mixedDb m.1.1).undelayed := by
  have h := batchCore_alone mixed_delivers (fun l => List.Perm.refl (id l)) List.reverse_perm mixedDb mixedEvents _ mixed_unwanted
    (plansMany_unwanted mixed_unwanted)
  exact ⟨by decide, fun out hout m hm hne => ((h.2.1 out hout).2.2 m hm hne).1⟩

end OverlayEngine.OwedBatch
