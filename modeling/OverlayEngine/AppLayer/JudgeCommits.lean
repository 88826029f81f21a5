import Mathlib.Algebra.GroupWithZero.Nat
import OverlayEngine.Basis.Runs

/-!
# The judge's commits

`judge_with_write_bounded` of `crates/low-app-layer/src/owed_judge.rs`, for
one identity: a call reads the marks of its games, hydrates them by several
reads, and in one batch writes the rows it judged and acknowledges the marks
up to the generation it read. Other callers judge and the record is written
between any two of its reads.
-/

namespace OverlayEngine.JudgeCommits

abbrev Game := String

/-- A row of `owed_dirty`, and the move that wrote its source row. -/
structure Mark where
  gameId : Game
  source : String
  sourceKey : String
  generation : Nat
  writtenAt : Nat

def Mark.named (gameId : Game) (source sourceKey : String) (m : Mark) : Bool :=
  m.gameId == gameId && m.source == source && m.sourceKey == sourceKey

/-- A row of `owed_rows`. -/
structure OwedRow (β : Type) where
  outpoint : String
  gameId : Game
  body : β

/-- A call past its read of the marks; `hydrated` is its first read of the record. -/
structure Call (α : Type) where
  games : List Game
  ackBound : Option Int
  began : Nat
  seen : Nat
  hydrated : Option Nat := none
  inputs : List (List α) := []

/-- The identity's marks and rows and the record its games are judged from, table by table. `deleted` are the marks acknowledged
and `commits` each landed call's games and the start of its hydration, the last one first. -/
structure World (α β : Type) where
  clock : Nat := 0
  generation : Nat := 0
  record : List (String × α) := []
  marks : List Mark := []
  rows : List (OwedRow β) := []
  calls : List (Option (Call α)) := []
  deleted : List Mark := []
  commits : List (List Game × Nat) := []

inductive Move (α : Type) where
  | write (table : String) (row : α) (gameId : Game) (source sourceKey : String)
  | begin (games : List Game) (ackBound : Option Int)
  | read (call : Nat) (table : String)
  | commit (call : Nat) (landed : Bool)
  | drop (call : Nat)

/-! ## The statements -/

def markDirty (marks : List Mark) (new : Mark) : List Mark :=
  if marks.any (Mark.named new.gameId new.source new.sourceKey) then
    marks.map fun m => if m.named new.gameId new.source new.sourceKey then new else m
  else marks ++ [new]

/-- `MARKS_SQL`'s greatest generation. -/
def seenOf (marks : List Mark) (games : List Game) : Nat :=
  ((marks.filter fun m => games.contains m.gameId).map Mark.generation).foldl max 0

/-- The bound of `ACK_DIRTY_SQL`. -/
def Call.ack {α : Type} (c : Call α) : Int := c.ackBound.elim c.seen fun b => min b c.seen

/-- The `WHERE` of `ACK_DIRTY_SQL`, with no marks of its own. -/
def Call.acks {α : Type} (c : Call α) (m : Mark) : Bool := c.games.contains m.gameId && decide ((m.generation : Int) ≤ c.ack)

variable {α β : Type}

def putRow (rows : List (OwedRow β)) (r : OwedRow β) : List (OwedRow β) :=
  if rows.any fun s => s.outpoint == r.outpoint then rows.map fun s => if s.outpoint == r.outpoint then r else s else rows ++ [r]

/-- `GAME_DELETE_SQL`. -/
def gameDelete (rows : List (OwedRow β)) (games : List Game) (written : List String) : List (OwedRow β) :=
  rows.filter fun r => !(games.contains r.gameId && !written.contains r.outpoint)

def writeRows (rows : List (OwedRow β)) (games : List Game) (judged : List (OwedRow β)) : List (OwedRow β) :=
  gameDelete (judged.foldl putRow rows) games (judged.map OwedRow.outpoint)

/-! ## The steps -/

namespace World

def setCall (w : World α β) (i : Nat) (c : Option (Call α)) : World α β := { w with calls := w.calls.set i c }

def call (w : World α β) (i : Nat) : Option (Call α) := (w.calls[i]?).join

def due (w : World α β) (i : Nat) : Option (Call α × Nat) := (w.call i).bind fun c => c.hydrated.map fun at_ => (c, at_)

def commit (judgedRows : List Game → List (List α) → List (OwedRow β)) (w : World α β) (c : Call α) (hydrated : Nat) : World α β :=
  { w with
    rows := writeRows w.rows c.games (judgedRows c.games c.inputs)
    marks := w.marks.filter fun m => !c.acks m
    deleted := w.marks.filter c.acks ++ w.deleted
    commits := (c.games, hydrated) :: w.commits }

def act (judgedRows : List Game → List (List α) → List (OwedRow β)) (w : World α β) : Move α → World α β
  | .write table row gameId source sourceKey =>
    { w with
      record := w.record ++ [(table, row)]
      generation := w.generation + 1
      marks := markDirty w.marks ⟨gameId, source, sourceKey, w.generation + 1, w.clock⟩ }
  | .begin games ackBound => { w with calls := w.calls ++ [some { games, ackBound, began := w.clock, seen := seenOf w.marks games }] }
  | .read i table =>
    match w.call i with
    | some c =>
      let rows := (w.record.filter fun s => s.1 == table).map Prod.snd
      w.setCall i (some { c with hydrated := some (c.hydrated.getD w.clock), inputs := c.inputs ++ [rows] })
    | none => w
  | .commit i landed =>
    match w.due i with
    | some (c, at_) => (if landed then w.commit judgedRows c at_ else w).setCall i none
    | none => w
  | .drop i => w.setCall i none

def step (judgedRows : List Game → List (List α) → List (OwedRow β)) (w : World α β) (m : Move α) : World α β :=
  { w.act judgedRows m with clock := w.clock + 1 }

def run (judgedRows : List Game → List (List α) → List (OwedRow β)) (w : World α β) (moves : List (Move α)) : World α β :=
  moves.foldl (step judgedRows) w

def restsOn (w : World α β) (game : Game) : Option Nat := (w.commits.find? fun c => c.1.contains game).map Prod.snd

def Quiet (w : World α β) : Prop := ∀ c ∈ w.calls, c = none

def Judged (w : World α β) (game : Game) : Prop :=
  ∀ d ∈ w.deleted, d.gameId = game → (∃ at_, w.restsOn game = some at_ ∧ d.writtenAt < at_) ∨ ∃ m ∈ w.marks, m.gameId = game

def commitMeets (game : Game) (w : World α β) : Move α → Bool
  | .commit i true =>
    match w.due i with
    | some (c, at_) =>
      !c.games.contains game || (w.deleted.all fun d => d.gameId != game || decide (d.writtenAt < at_)) ||
        w.marks.any fun m => m.gameId == game && !c.acks m
    | none => true
  | _ => true

/-! ## The marks a call read -/

structure Sound (w : World α β) : Prop where
  fresh : ∀ m ∈ w.marks, m.generation ≤ w.generation ∧ m.writtenAt < w.clock
  calls : ∀ c, some c ∈ w.calls → c.seen ≤ w.generation ∧ c.began ≤ w.clock ∧ ∀ m ∈ w.marks, m.generation ≤ c.seen → m.writtenAt < c.began
  hydrated : ∀ c, some c ∈ w.calls → ∀ at_, c.hydrated = some at_ → c.began ≤ at_

theorem le_foldl_max (ns : List Nat) (a b : Nat) (ha : a ≤ b) (h : ∀ n ∈ ns, n ≤ b) : ns.foldl max a ≤ b := by
  induction ns generalizing a with
  | nil => exact ha
  | cons n ns ih =>
    apply ih
    · exact Nat.max_le.mpr ⟨ha, h n List.mem_cons_self⟩
    · exact fun k hk => h k (List.mem_cons_of_mem _ hk)

theorem mem_markDirty {marks : List Mark} {new m : Mark} (h : m ∈ markDirty marks new) : m = new ∨ m ∈ marks := by
  unfold markDirty at h
  split at h
  · obtain ⟨m', hm', rfl⟩ := List.mem_map.mp h
    split
    · exact .inl rfl
    · exact .inr hm'
  · rcases List.mem_append.mp h with hm | hm
    · exact .inr hm
    · exact .inl (List.mem_singleton.mp hm)

theorem markDirty_marks {marks : List Mark} {new m : Mark} (h : m ∈ marks) : ∃ m' ∈ markDirty marks new, m'.gameId = m.gameId := by
  unfold markDirty
  split
  · by_cases hn : m.named new.gameId new.source new.sourceKey = true
    · refine ⟨new, List.mem_map.mpr ⟨m, h, if_pos hn⟩, ?_⟩
      simp only [Mark.named, Bool.and_eq_true, beq_iff_eq] at hn
      exact hn.1.1.symm
    · exact ⟨m, List.mem_map.mpr ⟨m, h, if_neg hn⟩, rfl⟩
  · exact ⟨m, List.mem_append_left _ h, rfl⟩

variable {judgedRows : List Game → List (List α) → List (OwedRow β)} {w : World α β} {i : Nat} {c : Call α}

theorem call_mem (h : w.call i = some c) : some c ∈ w.calls := by
  unfold call at h
  rw [Option.join_eq_some_iff] at h
  exact List.mem_of_getElem? h

theorem due_mem {at_ : Nat} (h : w.due i = some (c, at_)) : some c ∈ w.calls ∧ c.hydrated = some at_ := by
  simp only [due, Option.bind_eq_some_iff, Option.map_eq_some_iff, Prod.mk.injEq] at h
  obtain ⟨c', hc, at', hat, rfl, rfl⟩ := h
  exact ⟨call_mem hc, hat⟩

theorem step_commit {at_ : Nat} (landed : Bool) (h : w.due i = some (c, at_)) :
    w.step judgedRows (.commit i landed) =
      { (if landed then w.commit judgedRows c at_ else w).setCall i none with clock := w.clock + 1 } := by
  simp only [step, act, h]

theorem step_commit_none (landed : Bool) (h : w.due i = none) : w.step judgedRows (.commit i landed) = { w with clock := w.clock + 1 } := by
  simp only [step, act, h]

theorem ack_le_seen (c : Call α) : c.ack ≤ c.seen := by
  unfold Call.ack
  cases c.ackBound with
  | none => exact Int.le_refl _
  | some b => exact Int.min_le_right _ _

theorem Sound.frame (h : w.Sound) {w' : World α β} (hclock : w'.clock = w.clock + 1) (hgen : w'.generation = w.generation)
    (hmarks : ∀ m ∈ w'.marks, m ∈ w.marks) (hcalls : ∀ c, some c ∈ w'.calls → some c ∈ w.calls) : w'.Sound where
  fresh m hm := by
    have := h.fresh m (hmarks m hm)
    omega
  calls c hc := by
    obtain ⟨hseen, hbegan, hold⟩ := h.calls c (hcalls c hc)
    exact ⟨by omega, by omega, fun m hm => hold m (hmarks m hm)⟩
  hydrated c hc := h.hydrated c (hcalls c hc)

theorem mem_set {γ : Type} {l : List γ} {x y : γ} (h : x ∈ l.set i y) : x = y ∨ x ∈ l := (List.mem_or_eq_of_mem_set h).symm

theorem mem_setCall {calls : List (Option (Call α))} (h : some c ∈ calls.set i none) : some c ∈ calls := by
  rcases mem_set h with heq | hc
  · cases heq
  · exact hc

theorem sound_step (m : Move α) (h : w.Sound) : (w.step judgedRows m).Sound := by
  cases m with
  | write table row gameId source sourceKey =>
    refine ⟨fun m hm => ?_, fun c hc => ?_, h.hydrated⟩
    · show m.generation ≤ w.generation + 1 ∧ m.writtenAt < w.clock + 1
      rcases mem_markDirty hm with rfl | hm
      · exact ⟨Nat.le_refl _, Nat.lt_succ_self _⟩
      · have := h.fresh m hm
        omega
    · obtain ⟨hseen, hbegan, hold⟩ := h.calls c hc
      refine ⟨Nat.le_succ_of_le hseen, Nat.le_succ_of_le hbegan, fun m hm hgen => ?_⟩
      rcases mem_markDirty hm with rfl | hm
      · -- the new mark's generation is past every one a call read
        exact absurd (Nat.le_trans hgen hseen) (Nat.not_succ_le_self _)
      · exact hold m hm hgen
  | begin games ackBound =>
    have hnew : seenOf w.marks games ≤ w.generation := by
      apply le_foldl_max _ _ _ (Nat.zero_le _)
      intro n hn
      obtain ⟨m, hm, rfl⟩ := List.mem_map.mp hn
      exact (h.fresh m (List.mem_filter.mp hm).1).1
    refine ⟨fun m hm => ?_, fun c hc => ?_, fun c hc => ?_⟩
    · have := h.fresh m hm
      exact ⟨this.1, Nat.lt_succ_of_lt this.2⟩
    · rcases List.mem_append.mp hc with hc | hc
      · obtain ⟨hseen, hbegan, hold⟩ := h.calls c hc
        exact ⟨hseen, Nat.le_succ_of_le hbegan, hold⟩
      · cases List.mem_singleton.mp hc
        exact ⟨hnew, Nat.le_succ _, fun m hm _ => (h.fresh m hm).2⟩
    · rcases List.mem_append.mp hc with hc | hc
      · exact h.hydrated c hc
      · cases List.mem_singleton.mp hc
        exact nofun
  | read i table =>
    cases hcall : w.call i with
    | none =>
      simp only [step, act, hcall]
      exact h.frame rfl rfl (fun _ hm => hm) (fun _ hc => hc)
    | some c =>
      simp only [step, act, hcall]
      have hc := call_mem hcall
      obtain ⟨hseen, hbegan, hold⟩ := h.calls c hc
      refine ⟨fun m hm => ?_, fun c' hc' => ?_, fun c' hc' at_ hat => ?_⟩
      · have := h.fresh m hm
        exact ⟨this.1, Nat.lt_succ_of_lt this.2⟩
      · rcases mem_set hc' with heq | hc'
        · cases heq
          exact ⟨hseen, Nat.le_succ_of_le hbegan, hold⟩
        · obtain ⟨hseen', hbegan', hold'⟩ := h.calls c' hc'
          exact ⟨hseen', Nat.le_succ_of_le hbegan', hold'⟩
      · rcases mem_set hc' with heq | hc'
        · cases heq
          cases hat
          cases hhyd : c.hydrated with
          | none => exact hbegan
          | some at_ => exact h.hydrated c hc at_ hhyd
        · exact h.hydrated c' hc' at_ hat
  | commit i landed =>
    cases hdue : w.due i with
    | none =>
      rw [step_commit_none landed hdue]
      exact h.frame rfl rfl (fun _ hm => hm) (fun _ hc => hc)
    | some due =>
      rw [step_commit landed hdue]
      cases landed with
      | false => exact h.frame rfl rfl (fun _ hm => hm) fun c hc => mem_setCall hc
      | true => exact h.frame rfl rfl (fun _ hm => (List.mem_filter.mp hm).1) fun c hc => mem_setCall hc
  | drop i =>
    simp only [step, act]
    exact h.frame rfl rfl (fun _ hm => hm) fun c hc => mem_setCall hc

theorem sound_start : ({} : World α β).Sound := ⟨by simp, by simp, by simp⟩

/-! ## The rows and the marks they cleared -/

theorem judged_commit {game : Game} {at_ : Nat} (hsound : w.Sound) (hc : some c ∈ w.calls) (hhyd : c.hydrated = some at_) (h : w.Judged game)
    (hmeets : c.games.contains game = true → (∀ d ∈ w.deleted, d.gameId = game → d.writtenAt < at_) ∨ ∃ m ∈ w.marks, m.gameId = game ∧ c.acks m = false) :
    (w.commit judgedRows c at_).Judged game := by
  intro d hd hgame
  by_cases hin : c.games.contains game = true
  · have hrests : (w.commit judgedRows c at_).restsOn game = some at_ := by
      have hfind := List.find?_cons_of_pos (p := fun l : List Game × Nat => l.1.contains game) (a := (c.games, at_)) (l := w.commits) hin
      exact congrArg (Option.map Prod.snd) hfind
    rcases List.mem_append.mp hd with hnew | hold
    · -- a mark this batch acknowledges was there when the call read the marks
      obtain ⟨hm, hacks⟩ := List.mem_filter.mp hnew
      refine .inl ⟨at_, hrests, ?_⟩
      have hseen : d.generation ≤ c.seen := by
        simp only [Call.acks, Bool.and_eq_true, decide_eq_true_eq] at hacks
        exact Int.ofNat_le.mp (Int.le_trans hacks.2 (ack_le_seen c))
      exact Nat.lt_of_lt_of_le ((hsound.calls c hc).2.2 d hm hseen) (hsound.hydrated c hc at_ hhyd)
    · rcases hmeets hin with hall | ⟨m, hm, hmgame, hkept⟩
      · exact .inl ⟨at_, hrests, hall d hold hgame⟩
      · refine .inr ⟨m, List.mem_filter.mpr ⟨hm, ?_⟩, hmgame⟩
        simp [hkept]
  · -- another game's call: its rows and its marks are as they were
    have hrests : (w.commit judgedRows c at_).restsOn game = w.restsOn game := by
      have hfind := List.find?_cons_of_neg (p := fun l : List Game × Nat => l.1.contains game) (a := (c.games, at_)) (l := w.commits) hin
      exact congrArg (Option.map Prod.snd) hfind
    have hkept : ∀ m : Mark, m.gameId = game → c.acks m = false := by
      rintro m rfl
      simp only [Call.acks, Bool.not_eq_true] at hin ⊢
      rw [hin]
      rfl
    rcases List.mem_append.mp hd with hnew | hold
    · have hacks := (List.mem_filter.mp hnew).2
      rw [hkept d hgame] at hacks
      cases hacks
    · rcases h d hold hgame with hleft | ⟨m, hm, hmgame⟩
      · exact .inl (by rw [hrests]; exact hleft)
      · exact .inr ⟨m, List.mem_filter.mpr ⟨hm, by simp [hkept m hmgame]⟩, hmgame⟩

theorem judged_step {game : Game} (m : Move α) (hsound : w.Sound) (h : w.Judged game) (hmeets : w.commitMeets game m = true) :
    (w.step judgedRows m).Judged game := by
  cases m with
  | write table row gameId source sourceKey =>
    intro d hd hgame
    rcases h d hd hgame with hleft | ⟨m, hm, hmgame⟩
    · exact .inl hleft
    · obtain ⟨m', hm', hsame⟩ := markDirty_marks hm
      exact .inr ⟨m', hm', hsame.trans hmgame⟩
  | begin games ackBound => exact h
  | read i table =>
    simp only [step, act]
    cases w.call i with
    | none => exact h
    | some c => exact h
  | drop i => exact h
  | commit i landed =>
    cases hdue : w.due i with
    | none =>
      rw [step_commit_none landed hdue]
      exact h
    | some due =>
      obtain ⟨c, at_⟩ := due
      obtain ⟨hc, hhyd⟩ := due_mem hdue
      rw [step_commit landed hdue]
      cases landed with
      | false => exact h
      | true =>
        simp only [commitMeets, hdue, Bool.or_eq_true, Bool.not_eq_true', List.all_eq_true, List.any_eq_true, bne_iff_ne, ne_eq,
          decide_eq_true_eq, Bool.and_eq_true, beq_iff_eq] at hmeets
        have hcommit : (w.commit judgedRows c at_).Judged game := by
          apply judged_commit hsound hc hhyd h
          intro hin
          rcases hmeets with (hout | hall) | hmark
          · rw [hin] at hout
            cases hout
          · exact .inl fun d hd hgame => (hall d hd).resolve_left fun hne => hne hgame
          · exact .inr hmark
        exact hcommit

/-- While every batch meets the condition, the rows of a game rest on no older reads than the marks they cleared. -/
theorem judgement_kept (judgedRows : List Game → List (List α) → List (OwedRow β)) (game : Game) (moves : List (Move α))
    (h : Runs.Along (step judgedRows) (fun w m => w.commitMeets game m = true) {} moves) :
    (({} : World α β).run judgedRows moves).Judged game := by
  have hinv : (({} : World α β).run judgedRows moves).Sound ∧ (({} : World α β).run judgedRows moves).Judged game :=
    Runs.inv_along (I := fun w : World α β => w.Sound ∧ w.Judged game)
      (fun _ m hi hm => ⟨sound_step m hi.1, judged_step m hi.1 hi.2 hm⟩) ⟨sound_start, nofun⟩ h
  exact hinv.2

/-! A slow call reads before a record write; a fast one judges the write and clears its mark; the slow one commits after it. -/

def judgeAll (games : List Game) (inputs : List (List Nat)) : List (OwedRow Nat) := games.map fun g => ⟨g ++ ":0", g, inputs.flatten.sum⟩

def slowAndFast : List (Move Nat) :=
  [.begin ["g"] none, .read 0 "pots", .write "pots" 5 "g" "pot" "aa", .begin ["g"] none, .read 1 "pots", .commit 1 true, .commit 0 true]

theorem slow_commit_unjudges :
    (({} : World Nat Nat).run judgeAll slowAndFast).Quiet ∧ ¬ (({} : World Nat Nat).run judgeAll slowAndFast).Judged "g" := by
  constructor
  · intro c hc
    have : (({} : World Nat Nat).run judgeAll slowAndFast).calls = [none, none] := rfl
    rw [this] at hc
    simpa using hc
  · intro h
    rcases h ⟨"g", "pot", "aa", 1, 2⟩ (List.mem_singleton.mpr rfl) rfl with ⟨at_, hat, hlt⟩ | ⟨m, hm, -⟩
    · cases hat
      exact absurd hlt (by decide)
    · cases hm

/-- The call that reads first commits first: the write after its reads keeps its mark until the other call commits. -/
def inReadOrder : List (Move Nat) :=
  [.write "pots" 5 "g" "pot" "aa", .begin ["g"] none, .read 0 "pots", .write "pots" 7 "g" "pot" "bb", .begin ["g"] none, .read 1 "pots",
    .commit 0 true, .commit 1 true]

theorem judgement_kept_overlapping : (({} : World Nat Nat).run judgeAll inReadOrder).Judged "g" :=
  judgement_kept judgeAll "g" inReadOrder (by decide)

end World

end OverlayEngine.JudgeCommits
