import OverlayEngine.Basis.Entrywise
import OverlayEngine.Worker.ChainFeed

/-!
# No window of the feed is lost

The journal has at most one envelope at a cursor. What a pass holds in memory
past the stored cursor, and what it has in its buffer, is the journal without a
gap; so every event the cursor passes was consumed, judged to its end or released.
-/

namespace OverlayEngine.ChainFeed

open ReorgLegs (Legs LegAnswers Page judgeWindowLegs Walked judgeWindowLegs_walked)
open Entrywise (forall_set)

section
variable {ε : Type} (decode : ε → Except String ChainEvent) (journal : Nat → Option ε)

def Windowed (event : ChainEvent) (lo hi : Nat) : Prop := match selection event with
  | .heights l h => lo = l ∧ hi = h
  | .belowTip => ∃ tip, lo = tip - invalidatedDepth ∧ hi = tip + invalidatedAboveTip
  | .none => False

/-- The journal's event at `c`, if any, decodes; one that selects rows was judged over its window or released on a stored document. -/
def Settled (log : List (Window × Page)) (docs : List FeedState) (c : Nat) : Prop :=
  ∀ env, journal c = some env → ∃ event, decode env = .ok event ∧
    (selection event = .none ∨ (∃ lo hi, Windowed event lo hi ∧ ReorgLegs.Judged log (c, lo, hi)) ∨ ∃ d ∈ docs, ∃ u ∈ d.unresolved, u.cursor = c)

/-- A page from `pos` onward: entries of the journal, repeats among them, none left out before a later one. -/
def NoGap (pos : Nat) (events : List (Nat × ε)) : Prop :=
  ∀ before e rest, events = before ++ e :: rest →
    journal e.1 = some e.2 ∧ ∀ c, pos < c → c < e.1 → journal c ≠ none → ∃ x ∈ before, x.1 = c

def Small (events : List (Nat × ε)) : Prop := ∀ e ∈ events, e.1 < 10 ^ 16

structure PendingOk (log : List (Window × Page)) (cursor : Nat) (p : PendingWindow) : Prop where
  gt : cursor < p.cursor
  small : p.cursor < 10 ^ 16
  gap : ∀ c, cursor < c → c < p.cursor → journal c = none
  event : ∃ env event, journal p.cursor = some env ∧ decode env = .ok event ∧ Windowed event p.lo p.hi
  walked : ∀ g, Walked log p.window g (p.legs.of g)

structure StateOk (log : List (Window × Page)) (docs : List FeedState) (base : Nat) (s : FeedState) : Prop where
  small : s.cursor < 10 ^ 16
  settled : ∀ c, base < c → c ≤ s.cursor → Settled decode journal log docs c
  pending : ∀ p, s.pending = some p → PendingOk decode journal log s.cursor p

def FeedState.head (s : FeedState) : Nat := (s.pending.map PendingWindow.cursor).getD s.cursor

structure Held (docs : List FeedState) (row : CasRow Stored) (m : Mem ε) : Prop where
  knows : row.Knows m.version (some { state := m.written, base := m.base })
  stored : m.written ∈ docs
  le : m.written.cursor ≤ m.state.cursor

def PassOk (log : List (Window × Page)) (docs : List FeedState) (row : CasRow Stored) : Pass ε → Prop
  | .seeding m => row.Knows none none ∧ m.state.cursor = m.base ∧ m.state.cursor < 10 ^ 16 ∧ m.state.pending = none ∧ m.buffer = [] ∧
      m.written = m.state
  | .looping m => Held docs row m ∧ StateOk decode journal log docs m.base m.state ∧ NoGap journal m.state.head m.buffer ∧ Small m.buffer
  | .writing m k => Held docs row m ∧ StateOk decode journal log (docs ++ [m.state]) m.base m.state ∧
      (k = .resume → NoGap journal m.state.head m.buffer ∧ Small m.buffer)
  | .levering base version next => row.Knows version base ∧ next.pending = none ∧ next.cursor < 10 ^ 16
  | .ended => True

structure Inv (σ : Sys ε) : Prop where
  row : ∀ s, σ.row.doc = some s → s.state ∈ σ.docs ∧ StateOk decode journal σ.log σ.docs s.base s.state
  passes : ∀ P ∈ σ.passes, PassOk decode journal σ.log σ.docs σ.row P

end

/-! ## Records only grow -/

section
variable {ε : Type} {decode : ε → Except String ChainEvent} {journal : Nat → Option ε}
variable {log log' : List (Window × Page)} {docs docs' : List FeedState} {pos c i : Nat}

theorem Settled.mono (h : Settled decode journal log docs c) (hlog : log ⊆ log') (hdocs : docs ⊆ docs') :
    Settled decode journal log' docs' c := by
  intro env henv
  obtain ⟨event, hdecode, hcase⟩ := h env henv
  refine ⟨event, hdecode, ?_⟩
  rcases hcase with hnone | ⟨lo, hi, hwin, hjudged⟩ | ⟨d, hd, hu⟩
  · exact .inl hnone
  · exact .inr (.inl ⟨lo, hi, hwin, hjudged.mono hlog⟩)
  · exact .inr (.inr ⟨d, hdocs hd, hu⟩)

variable {p : PendingWindow}

theorem PendingOk.mono {cursor : Nat} (h : PendingOk decode journal log cursor p) (hlog : log ⊆ log') :
    PendingOk decode journal log' cursor p :=
  ⟨h.gt, h.small, h.gap, h.event, fun g => (h.walked g).mono hlog⟩

variable {base : Nat} {s : FeedState}

theorem StateOk.mono (h : StateOk decode journal log docs base s) (hlog : log ⊆ log') (hdocs : docs ⊆ docs') :
    StateOk decode journal log' docs' base s :=
  ⟨h.small, fun c hb hc => (h.settled c hb hc).mono hlog hdocs, fun p hp => (h.pending p hp).mono hlog⟩

theorem subset_append_singleton {d : FeedState} (h : docs ⊆ docs') : docs ++ [d] ⊆ docs' ++ [d] := by
  intro x hx
  rcases List.mem_append.mp hx with hx | hx
  · exact List.mem_append_left _ (h hx)
  · exact List.mem_append_right _ hx

variable {P : Pass ε} {row row' : CasRow Stored}

theorem PassOk.mono (h : PassOk decode journal log docs row P) (hlog : log ⊆ log') (hdocs : docs ⊆ docs') :
    PassOk decode journal log' docs' row P := by
  cases P with
  | seeding m => exact h
  | looping m =>
    obtain ⟨hheld, hstate, hrest⟩ := h
    exact ⟨⟨hheld.knows, hdocs hheld.stored, hheld.le⟩, hstate.mono hlog hdocs, hrest⟩
  | writing m k =>
    obtain ⟨hheld, hstate, hrest⟩ := h
    exact ⟨⟨hheld.knows, hdocs hheld.stored, hheld.le⟩, hstate.mono hlog (subset_append_singleton hdocs), hrest⟩
  | levering base version next => exact h
  | ended => trivial

theorem PassOk.written {v : Option Nat} {d : Stored} (h : PassOk decode journal log docs row P)
    (hw : row.write v d = some row') : PassOk decode journal log docs row' P := by
  cases P with
  | seeding m =>
    obtain ⟨hknows, hrest⟩ := h
    exact ⟨hknows.write hw, hrest⟩
  | looping m =>
    obtain ⟨hheld, hrest⟩ := h
    exact ⟨⟨hheld.knows.write hw, hheld.stored, hheld.le⟩, hrest⟩
  | writing m k =>
    obtain ⟨hheld, hrest⟩ := h
    exact ⟨⟨hheld.knows.write hw, hheld.stored, hheld.le⟩, hrest⟩
  | levering base version next =>
    obtain ⟨hknows, hrest⟩ := h
    exact ⟨hknows.write hw, hrest⟩
  | ended => trivial

/-! ## The buffer -/

variable {rest : List (Nat × ε)}

theorem NoGap.tail {x : Nat × ε} (h : NoGap journal pos (x :: rest)) :
    NoGap journal (max pos x.1) rest := by
  intro before e rest' heq
  obtain ⟨hj, hgap⟩ := h (x :: before) e rest' (by rw [heq]; rfl)
  refine ⟨hj, fun c hpos hlt hc => ?_⟩
  obtain ⟨y, hy, rfl⟩ := hgap c (by omega) hlt hc
  rcases List.mem_cons.mp hy with rfl | hy
  · omega
  · exact ⟨y, hy, rfl⟩

theorem NoGap.cons {x : Nat × ε} (h : NoGap journal pos (x :: rest)) :
    journal x.1 = some x.2 ∧ ∀ c, pos < c → c < x.1 → journal c = none := by
  obtain ⟨hj, hgap⟩ := h [] x rest rfl
  refine ⟨hj, fun c hpos hlt => ?_⟩
  by_contra hc
  obtain ⟨y, hy, -⟩ := hgap c hpos hlt hc
  cases hy

theorem position_eq (h : s.cursor < 10 ^ 16) : s.position = s.cursor := by
  unfold FeedState.position parseCursor
  rw [if_pos h]
  rfl

/-! ## A turn -/

variable {row : CasRow Stored} {m : Mem ε}

theorem trailing_ok (hheld : Held docs row m) (hstate : StateOk decode journal log (docs ++ [m.state]) m.base m.state) :
    PassOk decode journal log docs row m.trailing := by
  unfold Mem.trailing
  split
  · trivial
  · exact ⟨hheld, hstate, fun h => by cases h⟩

theorem landed_ok {k : Then} (hheld : Held docs row m) (hstate : StateOk decode journal log docs m.base m.state)
    (hresume : k = .resume → NoGap journal m.state.head m.buffer ∧ Small m.buffer) : PassOk decode journal log docs row (m.landed k) := by
  cases k with
  | resume => exact ⟨⟨hheld.knows, hheld.stored, hheld.le⟩, hstate, (hresume rfl).1, (hresume rfl).2⟩
  | stop => exact trailing_ok hheld (hstate.mono (List.Subset.refl _) (List.subset_append_left _ _))
  | last => trivial

theorem notLanded_ok {k : Then} (hheld : Held docs row m) (hstate : StateOk decode journal log (docs ++ [m.state]) m.base m.state) :
    PassOk decode journal log docs row (m.notLanded k) := by
  cases k with
  | resume => exact trailing_ok hheld hstate
  | stop => exact trailing_ok hheld hstate
  | last => trivial

theorem writeNow_ok {k : Then} (hheld : Held docs row m) (hstate : StateOk decode journal log (docs ++ [m.state]) m.base m.state)
    (hresume : k = .resume → NoGap journal m.state.head m.buffer ∧ Small m.buffer) : PassOk decode journal log docs row (m.writeNow k) := by
  unfold Mem.writeNow
  split
  · rename_i hsame
    -- nothing to write: the state is a stored document already
    refine landed_ok hheld (hstate.mono (List.Subset.refl _) ?_) hresume
    intro d hd
    rcases List.mem_append.mp hd with hd | hd
    · exact hd
    · rw [List.mem_singleton.mp hd, hsame]
      exact hheld.stored
  · split
    · exact notLanded_ok hheld hstate
    · exact ⟨hheld, hstate, hresume⟩

theorem stateOk_kept {p' : PendingWindow} (hstate : StateOk decode journal log docs base s)
    (hp : PendingOk decode journal log s.cursor p) (hwindow : p'.window = p.window) (hw : ∀ g, Walked log' p.window g (p'.legs.of g)) (hlog : log ⊆ log') :
    StateOk decode journal log' docs base { s with pending := some p' } := by
  refine ⟨hstate.small, fun c hb hc => (hstate.settled c hb hc).mono hlog (List.Subset.refl _), fun q hq => ?_⟩
  cases hq
  simp only [PendingWindow.window, Prod.mk.injEq] at hwindow
  obtain ⟨hcursor, hlo, hhi⟩ := hwindow
  obtain ⟨env, event, hj, hd, hwin⟩ := hp.event
  refine ⟨?_, ?_, ?_, ⟨env, event, ?_, hd, ?_⟩, ?_⟩
  · rw [hcursor]
    exact hp.gt
  · rw [hcursor]
    exact hp.small
  · rw [hcursor]
    exact hp.gap
  · rw [hcursor]
    exact hj
  · rw [hlo, hhi]
    exact hwin
  · rw [show p'.window = p.window by simp [PendingWindow.window, hcursor, hlo, hhi]]
    exact hw

theorem stateOk_finished {next : FeedState} (hstate : StateOk decode journal log docs base s)
    (hp : PendingOk decode journal log s.cursor p) (hcursor : next.cursor = p.cursor) (hpending : next.pending = none) (hlog : log ⊆ log')
    (hdocs : docs ⊆ docs') (hdone : ReorgLegs.Judged log' p.window ∨ ∃ d ∈ docs', ∃ u ∈ d.unresolved, u.cursor = p.cursor) :
    StateOk decode journal log' docs' base next := by
  refine ⟨?_, fun c hb hc => ?_, fun q hq => ?_⟩
  · rw [hcursor]
    exact hp.small
  · rw [hcursor] at hc
    by_cases hold : c ≤ s.cursor
    · exact (hstate.settled c hb hold).mono hlog hdocs
    · by_cases heq : c = p.cursor
      · subst heq
        obtain ⟨env, event, hj, hd, hwin⟩ := hp.event
        intro env' henv'
        cases hj.symm.trans henv'
        refine ⟨event, hd, .inr ?_⟩
        exact hdone.imp (fun hjudged => ⟨p.lo, p.hi, hwin, hjudged⟩) id
      · intro env henv
        rw [hp.gap c (by omega) (by omega)] at henv
        cases henv
  · rw [hpending] at hq
    cases hq

theorem release_recorded (s : FeedState) (p : PendingWindow) (why : Why) (nowMs : Nat) :
    ∃ u ∈ (s.release p why nowMs).unresolved, u.cursor = p.cursor := by
  refine ⟨{ cursor := p.cursor, kind := p.kind, lo := p.lo, hi := p.hi, why := why, atMs := nowMs }, ?_, rfl⟩
  simp only [FeedState.release]
  rw [List.length_append, List.drop_append_of_le_length (by simp [unresolvedKept])]
  exact List.mem_append_right _ (List.mem_singleton.mpr rfl)

theorem judge_ok (a : Answers ε) (hok : PassOk decode journal log docs row (.looping m)) (hp : m.state.pending = some p) :
    PassOk decode journal (log ++ (m.judge p a).2.map (p.window, ·)) docs row (m.judge p a).1 := by
  obtain ⟨hheld, hstate, hbuffer, hsmall⟩ := hok
  have hpend := hstate.pending p hp
  have hhead : m.state.head = p.cursor := by simp [FeedState.head, hp]
  rw [hhead] at hbuffer
  have hgrow : m.written.cursor ≤ p.cursor := Nat.le_of_lt (Nat.lt_of_le_of_lt hheld.le hpend.gt)
  have done {s : FeedState} (hcursor : s.cursor = p.cursor) (hpending : s.pending = none) : NoGap journal s.head m.buffer ∧ Small m.buffer := by
    rw [FeedState.head, hpending, hcursor]
    exact ⟨hbuffer, hsmall⟩
  unfold Mem.judge
  split
  · rw [List.map_nil, List.append_nil]
    refine writeNow_ok ⟨hheld.knows, hheld.stored, hgrow⟩ ?_ fun _ => done rfl rfl
    exact stateOk_finished hstate hpend rfl rfl (List.Subset.refl _) (List.subset_append_left _ _)
      (.inr ⟨_, List.mem_append_right _ (List.mem_singleton.mpr rfl), release_recorded ..⟩)
  · split
    · rw [List.map_nil, List.append_nil]
      exact trailing_ok hheld (hstate.mono (List.Subset.refl _) (List.subset_append_left _ _))
    · have hwalked := judgeWindowLegs_walked a.legs hpend.walked
      have hlog := List.subset_append_left log ((judgeWindowLegs p.legs a.legs).2.2.map (p.window, ·))
      have kept {p' : PendingWindow} (hwindow : p'.window = p.window) (hlegs : p'.legs = (judgeWindowLegs p.legs a.legs).1) :
          PassOk decode journal (log ++ (judgeWindowLegs p.legs a.legs).2.2.map (p.window, ·)) docs row
            ({ m with state := { m.state with pending := some p' } }.writeNow .stop) := by
        refine writeNow_ok ⟨hheld.knows, hheld.stored, hheld.le⟩ ?_ fun h => by cases h
        exact (stateOk_kept hstate hpend hwindow (hlegs ▸ hwalked) hlog).mono (List.Subset.refl _) (List.subset_append_left _ _)
      dsimp only
      cases hv : (judgeWindowLegs p.legs a.legs).2.1 with
      | faulted => exact kept rfl rfl
      | budgetStop => exact kept rfl rfl
      | ran =>
        dsimp only
        split
        · rename_i hall
          refine writeNow_ok ⟨hheld.knows, hheld.stored, hgrow⟩ ?_ fun _ => done rfl rfl
          exact stateOk_finished hstate hpend rfl rfl hlog (List.subset_append_left _ _)
            (.inl fun g => ⟨_, hwalked g, (Legs.allExhausted_iff _).mp hall g⟩)
        · exact kept rfl rfl

theorem StateOk.congr {s' : FeedState} (h : StateOk decode journal log docs base s) (hc : s'.cursor = s.cursor)
    (hp : s'.pending = s.pending) : StateOk decode journal log docs base s' := by
  refine ⟨hc ▸ h.small, fun c hb hle => h.settled c hb (hc ▸ hle), fun p hq => ?_⟩
  rw [hc]
  exact h.pending p (hp ▸ hq)

theorem envelope_ok (a : Answers ε) (hheld : Held docs row m) (hstate : StateOk decode journal log docs m.base m.state)
    (hnone : m.state.pending = none) (hgap : NoGap journal m.state.cursor m.buffer) (hsmall : Small m.buffer) :
    PassOk decode journal log docs row (m.envelope decode a) := by
  have hback {s : FeedState} (hc : s.cursor = m.state.cursor) (hp : s.pending = m.state.pending) {buffer : List (Nat × ε)} :
      PassOk decode journal log docs row (Mem.trailing { m with state := s, buffer := buffer }) := by
    refine trailing_ok ⟨hheld.knows, hheld.stored, hc ▸ hheld.le⟩ ?_
    exact (hstate.congr hc hp).mono (List.Subset.refl _) (List.subset_append_left _ _)
  unfold Mem.envelope
  split
  · exact trailing_ok hheld (hstate.mono (List.Subset.refl _) (List.subset_append_left _ _))
  · rename_i place env buffer hbuffer
    rw [hbuffer] at hgap hsmall
    have hrest : Small buffer := fun e he => hsmall e (List.mem_cons_of_mem _ he)
    have hplace : place < 10 ^ 16 := hsmall _ (List.mem_cons_self ..)
    have htail := hgap.tail
    dsimp only at htail ⊢
    rw [position_eq hstate.small]
    split
    · rename_i hle
      rw [Nat.max_eq_left hle] at htail
      refine ⟨⟨hheld.knows, hheld.stored, hheld.le⟩, hstate, ?_, hrest⟩
      rw [FeedState.head, hnone]
      exact htail
    · rename_i hlt
      have hlt : m.state.cursor < place := Nat.lt_of_not_le hlt
      rw [Nat.max_eq_right (Nat.le_of_lt hlt)] at htail
      obtain ⟨hj, hahead⟩ := hgap.cons
      cases hd : decode env with
      | error e => exact hback (s := { m.state with stop := some { cursor := place, fault := e } }) rfl rfl
      | ok event =>
        have take {lo hi : Nat} (hwin : Windowed event lo hi) : PassOk decode journal log docs row (.looping { m with
            buffer := buffer
            state := { m.state with stop := none, pending := some { cursor := place, kind := kindName event, lo := lo, hi := hi } } }) := by
          refine ⟨⟨hheld.knows, hheld.stored, hheld.le⟩, ⟨hstate.small, hstate.settled, fun p hp => ?_⟩, htail, hrest⟩
          cases hp
          exact ⟨hlt, hplace, hahead, ⟨env, event, hj, hd, hwin⟩, fun g => by cases g <;> exact .start⟩
        dsimp only
        cases hsel : selection event with
        | none =>
          refine ⟨⟨hheld.knows, hheld.stored, Nat.le_trans hheld.le (Nat.le_of_lt hlt)⟩, ⟨hplace, fun c hb hc => ?_, fun p hp => ?_⟩, ?_, hrest⟩
          · by_cases hold : c ≤ m.state.cursor
            · exact hstate.settled c hb hold
            · change c ≤ place at hc
              by_cases heq : c = place
              · subst heq
                intro env' henv'
                cases hj.symm.trans henv'
                exact ⟨event, hd, .inl hsel⟩
              · intro env' henv'
                rw [hahead c (by omega) (by omega)] at henv'
                cases henv'
          · change m.state.pending = some p at hp
            rw [hnone] at hp
            cases hp
          · change NoGap journal ((m.state.pending.map PendingWindow.cursor).getD place) buffer
            rw [hnone]
            exact htail
        | heights lo hi =>
          dsimp only
          split
          · exact hback rfl rfl
          · exact take (by simp [Windowed, hsel])
        | belowTip =>
          dsimp only
          split
          · exact hback rfl rfl
          · cases a.tip with
            | none => exact hback rfl rfl
            | some tip => exact take (by simp only [Windowed, hsel]; exact ⟨tip, rfl, rfl⟩)

theorem turn_ok (a : Answers ε) (hok : PassOk decode journal log docs row (.looping m))
    (hpage : m.asks = true → ∀ events hasMore, a.page = .page events hasMore → NoGap journal m.state.cursor events ∧ Small events) :
    PassOk decode journal (log ++ ((m.state.pending.map fun p => (m.turn decode a).2.map (p.window, ·)).getD [])) docs row (m.turn decode a).1 := by
  cases hp : m.state.pending with
  | some p =>
    simp only [Mem.turn, hp, Option.map_some, Option.getD_some]
    exact judge_ok a hok hp
  | none =>
    obtain ⟨hheld, hstate, hbuffer, hsmall⟩ := hok
    have hhead : m.state.head = m.state.cursor := by simp [FeedState.head, hp]
    rw [hhead] at hbuffer
    simp only [Option.map_none, Option.getD_none, List.append_nil, Mem.turn, hp]
    have hback {s : FeedState} (hc : s.cursor = m.state.cursor) (hpend : s.pending = m.state.pending) {pages : Nat} :
        PassOk decode journal log docs row (Mem.trailing { m with state := s, pages := pages }) := by
      refine trailing_ok ⟨hheld.knows, hheld.stored, hc ▸ hheld.le⟩ ?_
      exact (hstate.congr hc hpend).mono (List.Subset.refl _) (List.subset_append_left _ _)
    split
    · exact envelope_ok a hheld hstate hp hbuffer hsmall
    · split
      · rename_i hasks
        cases hpg : a.page with
        | fault => exact hback rfl rfl
        | cursorAhead => 
          exact hback (s := { m.state with pending := none, stop := some { cursor := m.state.cursor, fault := "cursorAhead" } }) rfl hp.symm
        | page events hasMore =>
          obtain ⟨hgap, hsm⟩ := hpage hasks events hasMore hpg
          exact envelope_ok a ⟨hheld.knows, hheld.stored, hheld.le⟩ hstate hp hgap hsm
      · exact hback rfl rfl

/-! ## One step -/

variable {σ : Sys ε}

theorem inv_append (hinv : Inv decode journal σ) (hP : PassOk decode journal σ.log σ.docs σ.row P) :
    Inv decode journal { σ with passes := σ.passes ++ [P] } := by
  refine ⟨hinv.row, fun Q hQ => ?_⟩
  rcases List.mem_append.mp hQ with hQ | hQ
  · exact hinv.passes Q hQ
  · cases List.mem_singleton.mp hQ
    exact hP

theorem parseCursor_lt {n : Nat} (h : parseCursor n = some c) : c < 10 ^ 16 := by
  unfold parseCursor at h
  split at h
  · cases h
    assumption
  · cases h

theorem begin_ok (limits : PassLimits) (start : Option Nat) (nowMs : Nat) (hinv : Inv decode journal σ) :
    PassOk decode journal σ.log σ.docs σ.row (begin σ.row limits start nowMs) := by
  have hknows := σ.row.knows_read
  unfold begin
  cases hdoc : σ.row.doc with
  | some s =>
    dsimp only
    split
    · obtain ⟨hmem, hok⟩ := hinv.row s hdoc
      rw [hdoc] at hknows
      exact ⟨⟨hknows, hmem, Nat.le_refl _⟩, hok, fun before e rest h => by simp at h, fun e h => by cases h⟩
    · trivial
  | none =>
    dsimp only
    cases hseed : start.bind parseCursor with
    | none => trivial
    | some seed =>
      obtain ⟨n, -, hparse⟩ := Option.bind_eq_some_iff.mp hseed
      rw [hdoc, CasRow.version_of_doc_none hdoc] at hknows
      exact ⟨hknows, rfl, parseCursor_lt hparse, rfl, rfl, rfl⟩

theorem leverRead_ok (row : CasRow Stored) (cursor nowMs : Nat) : PassOk decode journal log docs row (leverRead row cursor nowMs) := by
  have hknows := row.knows_read
  unfold leverRead
  split
  · trivial
  · rename_i c hparse hdoc
    rw [hdoc, CasRow.version_of_doc_none hdoc] at hknows
    exact ⟨hknows, rfl, parseCursor_lt hparse⟩
  · rename_i c s hparse hdoc
    split
    · rw [hdoc] at hknows
      refine ⟨hknows, ?_, parseCursor_lt hparse⟩
      dsimp only
      split
      · rfl
      · assumption
    · trivial

theorem inv_turn (a : Answers ε) (hinv : Inv decode journal σ) (hi : σ.passes[i]? = some (.looping m))
    (hserved : ∀ r ∈ (σ.turn decode i m a).served, NoGap journal r.since r.events ∧ Small r.events) : Inv decode journal (σ.turn decode i m a) := by
  have hlog := List.subset_append_left σ.log ((m.state.pending.map fun p => (m.turn decode a).2.map (p.window, ·)).getD [])
  refine ⟨fun s hs => ⟨(hinv.row s hs).1, (hinv.row s hs).2.mono hlog (List.Subset.refl _)⟩, forall_set (fun P hP => (hinv.passes P hP).mono hlog (List.Subset.refl _)) ?_⟩
  refine turn_ok a (hinv.passes _ (List.mem_of_getElem? hi)) fun hasks events hasMore hpage => ?_
  refine hserved ⟨m.state.cursor, events⟩ ?_
  simp [Sys.turn, hasks, hpage]

variable {version : Option Nat} {stored : Stored}

theorem pending_ok (hok : PassOk decode journal log docs row P)
    (hp : P.pending = some (stored, version)) :
    StateOk decode journal log (docs ++ [stored.state]) stored.base stored.state ∧
      ∃ base, row.Knows version base ∧
        ((∃ b v next, P = .levering b v next) ∨ ∀ s, base = some s → s.state.cursor ≤ stored.state.cursor) := by
  cases P with
  | seeding m =>
    cases hp
    obtain ⟨hknows, hbase, hsmall, hnone, -, -⟩ := hok
    refine ⟨⟨hsmall, fun c hb hc => ?_, fun p hp => ?_⟩, none, hknows, .inr fun s hs => by cases hs⟩
    · dsimp only at hb hc
      omega
    · dsimp only at hp
      rw [hnone] at hp
      cases hp
  | looping m => cases hp
  | writing m k =>
    cases hp
    obtain ⟨hheld, hstate, -⟩ := hok
    refine ⟨hstate, _, hheld.knows, .inr fun s hs => ?_⟩
    cases hs
    exact hheld.le
  | levering b v next =>
    cases hp
    obtain ⟨hknows, hnone, hsmall⟩ := hok
    refine ⟨⟨hsmall, fun c hb hc => ?_, fun p hp => ?_⟩, b, hknows, .inl ⟨b, _, next, rfl⟩⟩
    · dsimp only at hb hc
      omega
    · dsimp only at hp
      rw [hnone] at hp
      cases hp
  | ended => cases hp

theorem answered_unwritten {answer : CasRow.Answer} (hok : PassOk decode journal log docs row P)
    (ha : answer = .contended ∨ answer = .faulted) : PassOk decode journal log docs row (P.answered answer) := by
  cases P with
  | writing m k =>
    obtain ⟨hheld, hstate, -⟩ := hok
    rcases ha with rfl | rfl
    · exact notLanded_ok ⟨hheld.knows, hheld.stored, hheld.le⟩ hstate
    · exact notLanded_ok hheld hstate
  | seeding m => rcases ha with rfl | rfl <;> trivial
  | looping m => rcases ha with rfl | rfl <;> trivial
  | levering b v next => rcases ha with rfl | rfl <;> trivial
  | ended => rcases ha with rfl | rfl <;> trivial

theorem answered_written (hok : PassOk decode journal log docs row P)
    (hp : P.pending = some (stored, version)) (hw : row.write version stored = some row') :
    PassOk decode journal log (docs ++ [stored.state]) row' (P.answered (.written row'.version)) := by
  have hread := row'.knows_read
  rw [(CasRow.write_version hw).1] at hread
  have hstored : stored.state ∈ docs ++ [stored.state] := List.mem_append_right _ (List.mem_singleton.mpr rfl)
  have hstate := (pending_ok hok hp).1
  cases P with
  | seeding m =>
    cases hp
    obtain ⟨-, -, -, hnone, hbuffer, hwritten⟩ := hok
    refine ⟨⟨?_, ?_, ?_⟩, hstate, ?_, ?_⟩
    · dsimp only
      rw [hwritten]
      exact hread
    · dsimp only
      rw [hwritten]
      exact hstored
    · dsimp only
      apply Nat.le_of_eq
      rw [hwritten]
    · dsimp only
      rw [hbuffer]
      exact fun before e rest h => by simp at h
    · dsimp only
      rw [hbuffer]
      exact fun e h => by cases h
  | looping m => cases hp
  | writing m k =>
    cases hp
    obtain ⟨-, -, hresume⟩ := hok
    exact landed_ok ⟨hread, hstored, Nat.le_refl _⟩ hstate hresume
  | levering b v next => trivial
  | ended => cases hp

theorem write_cases (σ : Sys ε) (i : Nat) (P : Pass ε) (stored : Stored) (version : Option Nat) (fate : CasRow.Fate) :
    (∃ answer, (answer = .contended ∨ answer = .faulted) ∧ σ.write i P stored version fate =
      { σ with passes := σ.passes.set i (P.answered answer), docs := σ.docs ++ σ.row.doc.toList.map Stored.state }) ∨
    ∃ row' answer, σ.row.write version stored = some row' ∧ (answer = .written row'.version ∨ answer = .faulted) ∧
      σ.write i P stored version fate =
        { σ with row := row', passes := σ.passes.set i (P.answered answer), docs := σ.docs ++ [stored.state] } := by
  rcases CasRow.issue_cases σ.row version stored fate with ⟨-, hissue⟩ | ⟨row', hw, hissue⟩
  · rcases hissue with hissue | hissue
    · exact .inl ⟨_, .inl rfl, by simp [Sys.write, hissue]⟩
    · exact .inl ⟨_, .inr rfl, by simp [Sys.write, hissue]⟩
  · have hdoc : row'.doc.toList.map Stored.state = [stored.state] := by rw [(CasRow.write_version hw).1]; rfl
    rcases hissue with ⟨-, hissue⟩ | ⟨-, hissue⟩
    · exact .inr ⟨row', _, hw, .inl rfl, by simp only [Sys.write, hissue, hdoc]⟩
    · exact .inr ⟨row', _, hw, .inr rfl, by simp only [Sys.write, hissue, hdoc]⟩

theorem inv_write (fate : CasRow.Fate) (hinv : Inv decode journal σ)
    (hi : σ.passes[i]? = some P) (hp : P.pending = some (stored, version)) : Inv decode journal (σ.write i P stored version fate) := by
  have hok := hinv.passes P (List.mem_of_getElem? hi)
  rcases write_cases σ i P stored version fate with ⟨answer, ha, heq⟩ | ⟨row', answer, hw, ha, heq⟩
  · rw [heq]
    have hdocs := List.subset_append_left σ.docs (σ.row.doc.toList.map Stored.state)
    refine ⟨fun s hs => ⟨hdocs (hinv.row s hs).1, (hinv.row s hs).2.mono (List.Subset.refl _) hdocs⟩, ?_⟩
    exact forall_set (fun Q hQ => (hinv.passes Q hQ).mono (List.Subset.refl _) hdocs) ((answered_unwritten hok ha).mono (List.Subset.refl _) hdocs)
  · rw [heq]
    have hdocs := List.subset_append_left σ.docs [stored.state]
    refine ⟨fun s hs => ?_, forall_set (fun Q hQ => ((hinv.passes Q hQ).written hw).mono (List.Subset.refl _) hdocs) ?_⟩
    · dsimp only at hs
      rw [(CasRow.write_version hw).1] at hs
      cases hs
      exact ⟨List.mem_append_right _ (List.mem_singleton.mpr rfl), (pending_ok hok hp).1⟩
    · rcases ha with rfl | rfl
      · exact answered_written hok hp hw
      · exact (answered_unwritten (hok.written hw) (.inr rfl)).mono (List.Subset.refl _) hdocs

variable {σ' : Sys ε} {a : Act ε}

theorem served_step (h : σ.step decode a = some σ') : σ.served ⊆ σ'.served := by
  cases a with
  | read limits start nowMs fault =>
    cases h
    exact List.Subset.refl _
  | lever cursor nowMs fault =>
    cases h
    exact List.Subset.refl _
  | turn i a =>
    simp only [Sys.step] at h
    split at h
    · cases h
      exact List.subset_append_left _ _
    · cases h
  | write i fate =>
    obtain ⟨P, -, h⟩ := Option.bind_eq_some_iff.mp h
    obtain ⟨⟨stored, version⟩, -, rfl⟩ := Option.map_eq_some_iff.mp h
    exact List.Subset.refl _

theorem served_run {acts : List (Act ε)} (h : σ.run decode acts = some σ') : σ.served ⊆ σ'.served := by
  induction acts generalizing σ with
  | nil =>
    cases h
    exact List.Subset.refl _
  | cons a acts ih =>
    obtain ⟨σ₁, hstep, hrest⟩ := Option.bind_eq_some_iff.mp h
    exact List.Subset.trans (served_step hstep) (ih hrest)

theorem inv_step (hinv : Inv decode journal σ) (h : σ.step decode a = some σ')
    (hserved : ∀ r ∈ σ'.served, NoGap journal r.since r.events ∧ Small r.events) : Inv decode journal σ' := by
  cases a with
  | read limits start nowMs fault =>
    cases h
    cases fault with
    | true => exact inv_append hinv trivial
    | false => exact inv_append hinv (begin_ok limits start nowMs hinv)
  | lever cursor nowMs fault =>
    cases h
    cases fault with
    | true => exact inv_append hinv trivial
    | false => exact inv_append hinv (leverRead_ok σ.row cursor nowMs)
  | turn i a =>
    simp only [Sys.step] at h
    split at h
    · rename_i m hi
      cases h
      exact inv_turn a hinv hi hserved
    · cases h
  | write i fate =>
    obtain ⟨P, hi, h⟩ := Option.bind_eq_some_iff.mp h
    obtain ⟨⟨stored, version⟩, hp, rfl⟩ := Option.map_eq_some_iff.mp h
    exact inv_write fate hinv hi hp

theorem inv_run {acts : List (Act ε)} (hinv : Inv decode journal σ) (h : σ.run decode acts = some σ')
    (hserved : ∀ r ∈ σ'.served, NoGap journal r.since r.events ∧ Small r.events) : Inv decode journal σ' := by
  induction acts generalizing σ with
  | nil =>
    cases h
    exact hinv
  | cons a acts ih =>
    obtain ⟨σ₁, hstep, hrest⟩ := Option.bind_eq_some_iff.mp h
    exact ih (inv_step hinv hstep fun r hr => hserved r (served_run hrest hr)) hrest

theorem inv_start : Inv decode journal {} where
  row := fun _ h => by cases h
  passes := fun _ h => by cases h

theorem step_cursor (hinv : Inv decode journal σ) (h : σ.step decode a = some σ') (hc : σ.cursor = some c) :
    (∃ c', σ'.cursor = some c' ∧ c ≤ c') ∨ ∃ i fate b v next, a = .write i fate ∧ σ.passes[i]? = some (.levering b v next) := by
  have same (hrow : σ'.row = σ.row) : ∃ c', σ'.cursor = some c' ∧ c ≤ c' := ⟨c, by rw [Sys.cursor, hrow]; exact hc, Nat.le_refl _⟩
  cases a with
  | read limits start nowMs fault =>
    cases h
    exact .inl (same rfl)
  | lever cursor nowMs fault =>
    cases h
    exact .inl (same rfl)
  | turn i a =>
    simp only [Sys.step] at h
    split at h
    · cases h
      exact .inl (same rfl)
    · cases h
  | write i fate =>
    obtain ⟨P, hi, h⟩ := Option.bind_eq_some_iff.mp h
    obtain ⟨⟨stored, version⟩, hp, heq'⟩ := Option.map_eq_some_iff.mp h
    dsimp only at heq'
    subst heq'
    rcases write_cases σ i P stored version fate with ⟨answer, -, heq⟩ | ⟨row', answer, hw, -, heq⟩
    · exact .inl (same (by rw [heq]))
    · obtain ⟨-, base, hknows, hcase⟩ := pending_ok (hinv.passes P (List.mem_of_getElem? hi)) hp
      rcases hcase with ⟨b, v, next, rfl⟩ | hle
      · exact .inr ⟨i, fate, b, v, next, rfl, hi⟩
      · left
        obtain ⟨s, hs, rfl⟩ := Option.map_eq_some_iff.mp hc
        rw [heq]
        refine ⟨stored.state.cursor, ?_, hle s ?_⟩
        · simp [Sys.cursor, (CasRow.write_version hw).1]
        · rw [← hknows.base hw]
          exact hs

/-- Over a journal served without gaps, every event between the position the row was last seeded or set to and its
cursor decodes, and one that selects rows was judged over its whole window or recorded as released; only the lever puts the cursor back. -/
theorem feed_loses_no_window (decode : ε → Except String ChainEvent) (journal : Nat → Option ε) (acts : List (Act ε)) {σ : Sys ε}
    (hrun : Sys.run decode {} acts = some σ) (hserved : ∀ r ∈ σ.served, NoGap journal r.since r.events)
    (hsmall : ∀ r ∈ σ.served, Small r.events) :
    (∀ s, σ.row.doc = some s → ∀ c, s.base < c → c ≤ s.state.cursor → Settled decode journal σ.log σ.docs c) ∧
    ∀ a σ' c, σ.step decode a = some σ' → σ.cursor = some c →
      (∃ c', σ'.cursor = some c' ∧ c ≤ c') ∨ ∃ i fate b v next, a = .write i fate ∧ σ.passes[i]? = some (.levering b v next) := by
  have hinv : Inv decode journal σ := inv_run inv_start hrun fun r hr => ⟨hserved r hr, hsmall r hr⟩
  exact ⟨fun s hs => (hinv.row s hs).2.settled, fun a σ' c hstep hc => step_cursor hinv hstep hc⟩

end

theorem noGap_cons {ε : Type} {journal : Nat → Option ε} {pos : Nat} {x : Nat × ε} {rest : List (Nat × ε)} (hj : journal x.1 = some x.2)
    (hgap : ∀ c, pos < c → c < x.1 → journal c = none) (hrest : NoGap journal x.1 rest) : NoGap journal pos (x :: rest) := by
  intro before e post heq
  cases before with
  | nil =>
    cases heq
    exact ⟨hj, fun c hpos hlt hc => (hc (hgap c hpos hlt)).elim⟩
  | cons y before =>
    cases heq
    obtain ⟨hje, hgape⟩ := hrest before e post rfl
    refine ⟨hje, fun c hpos hlt hc => ?_⟩
    by_cases heq : c = x.1
    · exact ⟨x, List.mem_cons_self .., heq.symm⟩
    · by_cases hle : c < x.1
      · exact (hc (hgap c hpos hle)).elim
      · obtain ⟨y, hy, rfl⟩ := hgape c (by omega) hlt hc
        exact ⟨y, List.mem_cons_of_mem _ hy, rfl⟩

theorem noGap_nil {ε : Type} {journal : Nat → Option ε} {pos : Nat} : NoGap journal pos [] := fun _ _ _ h => by simp at h

def decodeEnvelope : Option ChainEvent → Except String ChainEvent
  | some event => .ok event
  | none => .error "unreadable"

def reorgJournal (c : Nat) : Option (Option ChainEvent) :=
  if c = 8 then some (some (.reorg 965770 [965771] 965772)) else if c = 9 then some (some (.tip 965773)) else none

def reorgPage : List (Nat × Option ChainEvent) := [(8, some (.reorg 965770 [965771] 965772)), (9, some (.tip 965773))]

def exhausted : LegAnswers := { spenders := { exhausted := true }, potBeefs := { exhausted := true }, transactions := { exhausted := true } }

def reorgRun : List (Act (Option ChainEvent)) :=
  [.read {} (some 7) 0 false, .write 0 .ran, .turn 0 { page := .page reorgPage false }, .turn 0 { legs := exhausted }, .write 0 .ran,
   .turn 0 {}, .turn 0 {}, .write 0 .ran]

theorem feed_loses_no_window_reorg : ∃ σ, Sys.run decodeEnvelope {} reorgRun = some σ ∧ σ.cursor = some 9 ∧
    Settled decodeEnvelope reorgJournal σ.log σ.docs 8 := by
  have hrun : (Sys.run decodeEnvelope {} reorgRun).any (fun σ => (σ.row.doc.any fun s => decide (s.state.cursor = 9) && decide (s.base = 7)) &&
      σ.served.all fun r => decide (r.since = 7) && decide (r.events = reorgPage)) = true := by decide
  obtain ⟨σ, hσ, hfacts⟩ := (Option.any_eq_true _ _).mp hrun
  simp only [Bool.and_eq_true, List.all_eq_true, decide_eq_true_eq] at hfacts
  obtain ⟨hdoc, hserved⟩ := hfacts
  obtain ⟨s, hs, hcursor⟩ := (Option.any_eq_true _ _).mp hdoc
  simp only [Bool.and_eq_true, decide_eq_true_eq] at hcursor
  have hgap : NoGap reorgJournal 7 reorgPage :=
    noGap_cons rfl (fun c hlo hhi => by omega) (noGap_cons rfl (fun c hlo hhi => by omega) noGap_nil)
  have hsmall : Small reorgPage := by simp [Small, reorgPage]
  refine ⟨σ, hσ, by simp [Sys.cursor, hs, hcursor.1], ?_⟩
  refine (feed_loses_no_window decodeEnvelope reorgJournal reorgRun hσ (fun r hr => ?_) fun r hr => ?_).1 s hs 8 (by omega) (by omega)
  · rw [(hserved r hr).1, (hserved r hr).2]
    exact hgap
  · rw [(hserved r hr).2]
    exact hsmall

def wideJournal (c : Nat) : Option (Option ChainEvent) := if c = 5 ∨ c = 7 ∨ c = 10 ^ 16 then some (some (.tip 965773)) else none

def wideRun : List (Act (Option ChainEvent)) :=
  [.read {} (some 7) 0 false, .write 0 .ran,
   .turn 0 { page := .page [(10 ^ 16, some (.tip 965773)), (5, some (.tip 965773))] false }, .turn 0 {}, .turn 0 {}]

private def offLever (p : Option (Pass (Option ChainEvent))) : Bool := match p with
  | some (.levering ..) => false
  | _ => true

theorem wide_run_lowers_cursor : ¬∀ (journal : Nat → Option (Option ChainEvent)) (acts : List (Act (Option ChainEvent))) (σ : Sys (Option ChainEvent)),
    Sys.run decodeEnvelope {} acts = some σ → (∀ r ∈ σ.served, NoGap journal r.since r.events) →
    ∀ a σ' c, σ.step decodeEnvelope a = some σ' → σ.cursor = some c →
      (∃ c', σ'.cursor = some c' ∧ c ≤ c') ∨ ∃ i fate b v next, a = .write i fate ∧ σ.passes[i]? = some (.levering b v next) := by
  intro h
  have hrun : (Sys.run decodeEnvelope {} wideRun).any (fun σ => decide (σ.cursor = some 7) &&
      (σ.served.all fun r => decide (r.since = 7) && decide (r.events = [(10 ^ 16, some (.tip 965773)), (5, some (.tip 965773))])) &&
      offLever σ.passes[0]? &&
      (σ.step decodeEnvelope (.write 0 .ran)).any fun σ' => decide (σ'.cursor = some 5)) = true := by decide
  obtain ⟨σ, hσ, hfacts⟩ := (Option.any_eq_true _ _).mp hrun
  simp only [Bool.and_eq_true, List.all_eq_true, decide_eq_true_eq] at hfacts
  obtain ⟨⟨⟨hcursor, hserved⟩, hpass⟩, hstep⟩ := hfacts
  obtain ⟨σ', hσ', hlow⟩ := (Option.any_eq_true _ _).mp hstep
  rw [decide_eq_true_eq] at hlow
  have hgap : NoGap wideJournal 7 [(10 ^ 16, some (.tip 965773)), (5, some (.tip 965773))] := by
    refine noGap_cons (by decide) (fun c hlo hhi => ?_) (noGap_cons (by decide) (fun c hlo hhi => ?_) noGap_nil)
    · simp only [wideJournal]
      rw [if_neg (by omega)]
    · omega
  rcases h wideJournal wideRun σ hσ (fun r hr => by rw [(hserved r hr).1, (hserved r hr).2]; exact hgap) _ σ' 7 hσ' hcursor with
    ⟨c', hc', hle⟩ | ⟨i, fate, b, v, next, ha, hlever⟩
  · rw [hlow] at hc'
    cases hc'
    omega
  · cases ha
    rw [hlever] at hpass
    cases hpass

end OverlayEngine.ChainFeed
