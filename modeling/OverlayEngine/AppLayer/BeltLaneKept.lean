import OverlayEngine.AppLayer.BeltLane

/-!
# The ledger follows the dated rows

Batches take effect in the order they were queued, over every run. What a game's
ledger holds is what was last published of it, as long as no drain is dropped and
the call that takes a fault mark names every game it stands for.
-/

set_option linter.unusedSectionVars false

namespace OverlayEngine.BeltLane

/-! ## What a batch does to the ledger -/

section
variable {γ ν β : Type} [DecidableEq ν]

def named (asks : List (Ask γ ν β)) (n : ν) : Option (Cursor γ β) := (asks.find? fun a => a.name = n).map Ask.cursor

variable {asks : List (Ask γ ν β)}

theorem named_mem {n : ν} {c : Cursor γ β} (h : named asks n = some c) : ∃ a ∈ asks, a.name = n ∧ a.cursor = c := by
  obtain ⟨a, ha, hc⟩ := Option.map_eq_some_iff.mp h
  exact ⟨a, List.mem_of_find?_eq_some ha, by simpa using List.find?_some ha, hc⟩

theorem named_eq_none {n : ν} : named asks n = none ↔ n ∉ asks.map Ask.name := by
  simp only [named, Option.map_eq_none_iff, List.find?_eq_none, decide_eq_true_eq, List.mem_map, not_exists, not_and]

end

theorem putEntry_cursor {γ ν β : Type} [DecidableEq γ] [DecidableEq β] (a : Ask γ ν β) (o : Option (Entry γ β)) : (putEntry a o).cursor = a.cursor := by
  unfold putEntry
  split
  · rfl
  · split
    · assumption
    · rfl

section
variable {ι γ ν β : Type} [DecidableEq ι] [DecidableEq γ] [DecidableEq ν] [DecidableEq β]

structure AskBatch.Fit (gameOf : ι → ν → γ) (b : AskBatch ι γ ν β) : Prop where
  game : ∀ a ∈ b.asks, a.cursor.game ∈ b.games
  outpoint : ∀ a ∈ b.asks, a.cursor.game = gameOf b.identity a.name
  nodup : (b.asks.map Ask.name).Nodup

def Ledger.Fit (gameOf : ι → ν → γ) (L : Ledger ι γ ν β) : Prop := ∀ me n e, L me n = some e → e.cursor.game = gameOf me n

theorem foldl_put_cursor (me : ι) (asks : List (Ask γ ν β)) (L : Ledger ι γ ν β) (h : (asks.map Ask.name).Nodup) (i : ι) (n : ν) :
    (asks.foldl (put me) L i n).map Entry.cursor = if i = me then (named asks n).or ((L i n).map Entry.cursor) else (L i n).map Entry.cursor := by
  induction asks generalizing L with
  | nil => simp [named]
  | cons a asks ih =>
    rw [List.map_cons, List.nodup_cons] at h
    rw [List.foldl_cons, ih (put me L a) h.2]
    by_cases hi : i = me
    · by_cases hn : n = a.name
      · subst hn
        have hrest : named asks a.name = none := named_eq_none.mpr h.1
        have hhead : named (a :: asks) a.name = some a.cursor := by simp [named]
        simp [hi, hrest, hhead, put, putEntry_cursor]
      · have htail : named (a :: asks) n = named asks n := by
          simp [named, show ¬ a.name = n from fun h => hn h.symm]
        simp [hi, htail, put, hn]
    · simp [hi, put]

theorem clear_cursor (L : Ledger ι γ ν β) (me : ι) (games : List γ) (names : List ν) (i : ι) (n : ν) :
    (clear L me games names i n).map Entry.cursor =
      ((L i n).map Entry.cursor).filter fun c => !(decide (i = me) && decide (c.game ∈ games) && !decide (n ∈ names)) := by
  cases h : L i n with
  | none => simp [clear, h]
  | some e => simp only [clear, h, Option.map_some, Option.filter_some]; split <;> rfl

variable {b : AskBatch ι γ ν β} {gameOf : ι → ν → γ}

theorem land_cursor {L : Ledger ι γ ν β} (hb : b.Fit gameOf) (hL : L.Fit gameOf) (i : ι) (n : ν) :
    (b.land L i n).map Entry.cursor = if i = b.identity ∧ gameOf i n ∈ b.games then named b.asks n else (L i n).map Entry.cursor := by
  rw [AskBatch.land, foldl_put_cursor _ _ _ hb.nodup, clear_cursor]
  by_cases hi : i = b.identity
  · subst hi
    cases hn : named b.asks n with
    | some c =>
      obtain ⟨a, ha, hname, -⟩ := named_mem hn
      have hg : gameOf b.identity n ∈ b.games := by
        rw [← hname, ← hb.outpoint a ha]
        exact hb.game a ha
      simp [hg]
    | none =>
      have hnames : n ∉ b.asks.map Ask.name := named_eq_none.mp hn
      cases he : L b.identity n with
      | none => simp
      | some e =>
        have hgame := hL b.identity n e he
        by_cases hg : gameOf b.identity n ∈ b.games
        · simp [hg, hgame, hnames]
        · simp [hg, hgame]
  · cases he : L i n <;> simp [hi]

theorem land_fit {L : Ledger ι γ ν β} (hb : b.Fit gameOf) (hL : L.Fit gameOf) :
    Ledger.Fit gameOf (b.land L) := by
  intro i n e he
  have hc := land_cursor hb hL i n
  rw [he, Option.map_some] at hc
  split at hc
  next hin =>
    obtain ⟨a, ha, hname, hcur⟩ := named_mem hc.symm
    rw [← hcur, hb.outpoint a ha, hname, ← hin.1]
  next =>
    obtain ⟨e', he', hcur⟩ := Option.map_eq_some_iff.mp hc.symm
    rw [← hcur]
    exact hL i n e' he'

theorem named_about (hb : b.Fit gameOf) {g : γ} {n : ν} (hn : gameOf b.identity n = g) :
    named (b.about g) n = named b.asks n := by
  have hfind : ∀ asks : List (Ask γ ν β), (∀ a ∈ asks, a.cursor.game = gameOf b.identity a.name) →
      (asks.filter fun a => a.cursor.game = g).find? (fun a => a.name = n) = asks.find? fun a => a.name = n := by
    intro asks hall
    induction asks with
    | nil => rfl
    | cons a asks ih =>
      have hrest := ih fun a' h => hall a' (List.mem_cons_of_mem _ h)
      by_cases hname : a.name = n
      · have hgame : a.cursor.game = g := by rw [hall a List.mem_cons_self, hname, hn]
        simp [hgame, hname]
      · by_cases hgame : a.cursor.game = g
        · simpa [List.filter_cons, hgame, hname] using hrest
        · simpa [List.filter_cons, hgame, hname] using hrest
  rw [named, AskBatch.about, hfind b.asks hb.outpoint, named]

end

/-! ## The order of effects -/

section
variable {ι γ ν β δ : Type}

def Isolate.inFlight (s : Isolate ι γ ν β δ) : List (AskBatch ι γ ν β) :=
  match s.drain with
  | some (.running _ b rest _) => b :: rest
  | _ => []

def Isolate.pending (s : Isolate ι γ ν β δ) : List (AskBatch ι γ ν β) := s.inFlight ++ s.lane

structure Ordered (queued : Nat) (pending effects : List (AskBatch ι γ ν β)) : Prop where
  waiting : pending.Pairwise fun b b' => b.no < b'.no
  below : ∀ b ∈ pending, b.no < queued
  done : effects.Pairwise fun later earlier => earlier.no < later.no
  first : ∀ e ∈ effects, ∀ b ∈ pending, e.no < b.no
  under : ∀ e ∈ effects, e.no < queued

variable {queued : Nat} {pending pending' effects : List (AskBatch ι γ ν β)} {b : AskBatch ι γ ν β}

theorem Ordered.sublist (h : Ordered queued pending effects) (hs : pending'.Sublist pending) : Ordered queued pending' effects :=
  ⟨h.waiting.sublist hs, fun b hb => h.below b (hs.subset hb), h.done, fun e he b hb => h.first e he b (hs.subset hb), h.under⟩

theorem Ordered.land (h : Ordered queued (b :: pending) effects) : Ordered queued pending (b :: effects) := by
  have hw := List.pairwise_cons.mp h.waiting
  refine ⟨hw.2, fun b' hb => h.below b' (List.mem_cons_of_mem _ hb), ?_, ?_, ?_⟩
  · exact List.Pairwise.cons (fun e he => h.first e he b List.mem_cons_self) h.done
  · intro e he b' hb
    obtain rfl | he := List.mem_cons.mp he
    · exact hw.1 b' hb
    · exact h.first e he b' (List.mem_cons_of_mem _ hb)
  · intro e he
    obtain rfl | he := List.mem_cons.mp he
    · exact h.below e List.mem_cons_self
    · exact h.under e he

theorem Ordered.push (h : Ordered queued pending effects) (hb : b.no = queued) : Ordered (queued + 1) (pending ++ [b]) effects := by
  refine ⟨?_, ?_, h.done, ?_, fun e he => Nat.lt_succ_of_lt (h.under e he)⟩
  · rw [List.pairwise_append]
    refine ⟨h.waiting, List.pairwise_singleton _ _, ?_⟩
    intro b' hb' b'' hb''
    rw [List.mem_singleton.mp hb'', hb]
    exact h.below b' hb'
  · intro b' hb'
    obtain hm | hm := List.mem_append.mp hb'
    · exact Nat.lt_succ_of_lt (h.below b' hm)
    · rw [List.mem_singleton.mp hm, hb]
      exact Nat.lt_succ_self _
  · intro e he b' hb'
    obtain hm | hm := List.mem_append.mp hb'
    · exact h.first e he b' hm
    · rw [List.mem_singleton.mp hm, hb]
      exact h.under e he

theorem Ordered.ended (h : Ordered queued (b :: pending) effects) (landed : Bool) :
    Ordered queued pending (if landed then b :: effects else effects) := by
  cases landed with
  | false => exact h.sublist (List.sublist_cons_self _ _)
  | true => exact h.land

def Isolate.Ordered (s : Isolate ι γ ν β δ) : Prop := BeltLane.Ordered s.queued s.pending s.effects

end

section
variable {ι γ ν β δ : Type}

theorem pending_loop (s : Isolate ι γ ν β δ) (began : Nat) : (s.loop began).pending = s.lane := by
  unfold Isolate.loop
  split
  next h => simp [Isolate.pending, Isolate.inFlight, h]
  next b rest h => simp [Isolate.pending, Isolate.inFlight, h]

theorem loop_frame (s : Isolate ι γ ν β δ) (began : Nat) : ∃ lane draining drain returns,
    s.loop began = { s with lane := lane, draining := draining, drain := drain, returns := returns } := by
  unfold Isolate.loop
  split
  · exact ⟨_, _, _, _, rfl⟩
  · exact ⟨_, _, _, _, rfl⟩

theorem pending_goOn (s : Isolate ι γ ν β δ) (began : Nat) (rest : List (AskBatch ι γ ν β)) (asks : Nat) :
    (s.goOn began rest asks).pending = rest ++ s.lane := by
  unfold Isolate.goOn
  split
  · rfl
  · split
    · rfl
    · exact pending_loop s began

theorem goOn_frame (s : Isolate ι γ ν β δ) (began : Nat) (rest : List (AskBatch ι γ ν β)) (asks : Nat) : ∃ lane draining drain returns,
    s.goOn began rest asks = { s with lane := lane, draining := draining, drain := drain, returns := returns } := by
  unfold Isolate.goOn
  split
  · exact ⟨_, _, _, _, rfl⟩
  · split
    · exact ⟨_, _, _, _, rfl⟩
    · exact loop_frame s began

variable {s : Isolate ι γ ν β δ}

theorem Isolate.Ordered.loop (h : BeltLane.Ordered s.queued s.lane s.effects) (began : Nat) : (s.loop began).Ordered := by
  obtain ⟨lane, draining, drain, returns, heq⟩ := loop_frame s began
  rw [Isolate.Ordered, pending_loop, heq]
  exact h

variable {rest : List (AskBatch ι γ ν β)}

theorem Isolate.Ordered.goOn
    (h : BeltLane.Ordered s.queued (rest ++ s.lane) s.effects) (began asks : Nat) : (s.goOn began rest asks).Ordered := by
  obtain ⟨lane, draining, drain, returns, heq⟩ := goOn_frame s began rest asks
  rw [Isolate.Ordered, pending_goOn, heq]
  exact h

theorem pending_running {began asks : Nat} {b : AskBatch ι γ ν β}
    (h : s.drain = some (.running began b rest asks)) : s.pending = b :: (rest ++ s.lane) := by
  simp [Isolate.pending, Isolate.inFlight, h]

theorem pending_counting {began : Nat} (h : s.drain = some (.counting began)) : s.pending = s.lane := by
  simp [Isolate.pending, Isolate.inFlight, h]

end

section
variable {ι γ ν β δ : Type} [DecidableEq ι] [LinearOrder γ] [DecidableEq ν] [DecidableEq β] [DecidableEq δ]
variable {digest : List (Ask γ ν β) → δ} {s : Isolate ι γ ν β δ}

theorem ordered_step (h : s.Ordered) (m : Move ι γ ν β) : (s.step digest m).Ordered := by
  cases m with
  | apply me rows =>
    simp only [Isolate.step]
    split <;> exact h
  | ask me games =>
    simp only [Isolate.step]
    split <;> exact h
  | go me =>
    simp only [Isolate.step]
    split
    · exact h
    · exact h
    next b ds _ =>
      have hp := BeltLane.Ordered.push (b := { b with no := s.queued }) h rfl
      rw [Isolate.pending, List.append_assoc] at hp
      exact hp
  | drain =>
    simp only [Isolate.step]
    split
    · exact h
    · exact Isolate.Ordered.loop (s := { s with draining := true }) (BeltLane.Ordered.sublist h (List.sublist_append_right _ _)) _
  | record fate =>
    simp only [Isolate.step]
    split
    next began b rest asks hd =>
      have hord : BeltLane.Ordered s.queued (b :: (rest ++ s.lane)) s.effects := pending_running hd ▸ h
      refine Isolate.Ordered.goOn ?_ began _
      have hend := hord.ended fate.effect
      unfold Isolate.answer
      split
      next he => simpa [he, Isolate.land] using hend
      next he => simpa [he] using hend
    next => exact h
  | counted =>
    simp only [Isolate.step]
    split
    next began hd => exact Isolate.Ordered.loop (pending_counting hd ▸ h) began
    next => exact h
  | drop landed =>
    simp only [Isolate.step]
    split
    · exact h
    next b rest asks hd =>
      have hord : BeltLane.Ordered s.queued (b :: (rest ++ s.lane)) s.effects := pending_running hd ▸ h
      have hend := (hord.ended landed).sublist (List.sublist_append_right rest s.lane)
      cases landed with
      | false => exact hend
      | true => exact hend
    next hd =>
      have hord : BeltLane.Ordered s.queued s.lane s.effects := pending_counting hd ▸ h
      exact hord

theorem ordered_run (h : s.Ordered) (moves : List (Move ι γ ν β)) : (s.run digest moves).Ordered := by
  induction moves generalizing s with
  | nil => exact h
  | cons m moves ih => exact ih (ordered_step h m)

end

/-! ## The batch a call makes -/

section
variable {ι γ ν β : Type} [DecidableEq γ]

def OwedRows.Fit (gameOf : ν → γ) (rows : OwedRows γ ν β) : Prop := ∀ r ∈ rows.rows, r.game = gameOf r.outpoint

theorem names_sublist (l : List (DatedRow γ ν β)) : ((l.filterMap askOfRow).map Ask.name).Sublist (l.map DatedRow.outpoint) := by
  induction l with
  | nil => exact List.Sublist.slnil
  | cons r l ih =>
    cases hq : r.question with
    | none => simpa [askOfRow, hq] using ih.cons r.outpoint
    | some q => simpa [askOfRow, hq] using ih

variable {rows : OwedRows γ ν β}

theorem mem_asks {g : γ} {a : Ask γ ν β} (h : a ∈ rows.asks g) :
    a.cursor.game = g ∧ ∃ r ∈ rows.rows, askOfRow r = some a := by
  rw [OwedRows.asks, List.mem_filter] at h
  exact ⟨by simpa using h.2, List.mem_filterMap.mp h.1⟩

theorem asks_outpoint {gameOf : ν → γ} (hfit : rows.Fit gameOf) {g : γ} {a : Ask γ ν β} (h : a ∈ rows.asks g) :
    a.cursor.game = gameOf a.name := by
  obtain ⟨-, r, hr, hask⟩ := mem_asks h
  obtain ⟨q, -, rfl⟩ := Option.map_eq_some_iff.mp hask
  exact hfit r hr

theorem asks_unique {g g' : γ} {a a' : Ask γ ν β} (h : a ∈ rows.asks g) (h' : a' ∈ rows.asks g')
    (hn : a.name = a'.name) : a = a' := by
  have hnodup := rows.nodup.sublist (names_sublist rows.rows)
  exact List.inj_on_of_nodup_map hnodup (List.mem_filter.mp h).1 (List.mem_filter.mp h').1 hn

theorem about_flatMap {g : γ} : ∀ {changed : List γ}, changed.Nodup → g ∈ changed →
    (changed.flatMap rows.asks).filter (fun a => a.cursor.game = g) = rows.asks g
  | g' :: changed, hn, hm => by
    have hown : (rows.asks g').filter (fun a => a.cursor.game = g) = if g' = g then rows.asks g else [] := by
      split
      next he =>
        subst he
        exact List.filter_eq_self.mpr fun a ha => by simpa using (mem_asks ha).1
      next he =>
        refine List.filter_eq_nil_iff.mpr fun a ha => ?_
        rw [(mem_asks ha).1]
        simpa using he
    rw [List.flatMap_cons, List.filter_append, hown]
    obtain ⟨hnot, hrest⟩ := List.nodup_cons.mp hn
    by_cases he : g' = g
    · subst he
      have hnone : (changed.flatMap rows.asks).filter (fun a => a.cursor.game = g') = [] := by
        refine List.filter_eq_nil_iff.mpr fun a ha => ?_
        obtain ⟨g'', hg'', ha''⟩ := List.mem_flatMap.mp ha
        rw [(mem_asks ha'').1]
        simpa using fun h : g'' = g' => hnot (h ▸ hg'')
      rw [if_pos rfl, hnone, List.append_nil]
    · rw [if_neg he, List.nil_append]
      exact about_flatMap hrest ((List.mem_cons.mp hm).resolve_left fun h => he h.symm)

theorem fit_flatMap {gameOf : ι → ν → γ} {me : ι} (hfit : rows.Fit (gameOf me)) {changed : List γ}
    (hn : changed.Nodup) (no : Nat) : AskBatch.Fit gameOf ⟨no, me, changed, changed.flatMap rows.asks⟩ := by
  refine ⟨?_, ?_, ?_⟩
  · intro a ha
    obtain ⟨g, hg, ha'⟩ := List.mem_flatMap.mp ha
    exact (mem_asks ha').1 ▸ hg
  · intro a ha
    obtain ⟨g, -, ha'⟩ := List.mem_flatMap.mp ha
    exact asks_outpoint hfit ha'
  · have hall : (changed.flatMap rows.asks).Nodup := by
      rw [List.nodup_flatMap]
      constructor
      · intro g _
        exact (List.Nodup.of_map Ask.name (rows.nodup.sublist (names_sublist rows.rows))).filter _
      · refine hn.imp fun hne => ?_
        intro a ha ha'
        exact hne ((mem_asks ha).1.symm.trans (mem_asks ha').1)
    refine (List.nodup_map_iff_inj_on hall).mpr ?_
    intro a ha a' ha' hname
    obtain ⟨g, -, hag⟩ := List.mem_flatMap.mp ha
    obtain ⟨g', -, hag'⟩ := List.mem_flatMap.mp ha'
    exact asks_unique hag hag' hname

end

/-! ## What the ledger holds of a game -/

section
variable {ι γ ν β δ : Type} [DecidableEq ι] [LinearOrder γ] [DecidableEq ν] [DecidableEq β] [DecidableEq δ]

structure Written (gameOf : ι → ν → γ) (digest : List (Ask γ ν β) → δ) (read : γ → Option (List (Ask γ ν β))) (me : ι)
    (b : AskBatch ι γ ν β) (digests : List (γ × δ)) : Prop where
  identity : b.identity = me
  fit : b.Fit gameOf
  read : ∀ g ∈ b.games, read g = some (b.about g)
  digests : ∀ g, digests.lookup g = if g ∈ b.games then some (digest (b.about g)) else none

def Writing (s : Isolate ι γ ν β δ) (me : ι) (g : γ) : Prop := ∃ b digests, s.turn me = some (.writing b digests) ∧ g ∈ b.games

/-- What is last published of a game waits among `pending`, is in the ledger, or faulted under a mark. -/
structure Follow (gameOf : ι → ν → γ) (digest : List (Ask γ ν β) → δ) (pending : List (AskBatch ι γ ν β)) (s : Isolate ι γ ν β δ) : Prop where
  ordered : Ordered s.queued pending s.effects
  rows : ∀ me, (s.rows me).Fit (gameOf me)
  batches : ∀ b ∈ pending, b.Fit gameOf
  ledger : s.ledger.Fit gameOf
  turn : ∀ me b digests, s.turn me = some (.writing b digests) → Written gameOf digest (s.read me) me b digests
  latest : ∀ b ∈ pending, ∀ g ∈ b.games, ∃ l, s.last b.identity g = some l ∧ b.no ≤ l.no ∧ l.ended = .pending
  waits : ∀ me g l, s.last me g = some l → l.ended = .pending →
    ∃ b ∈ pending, b.no = l.no ∧ b.identity = me ∧ g ∈ b.games ∧ b.about g = l.asks
  landed : ∀ me g l, s.last me g = some l → l.ended = .landed → ∀ n, gameOf me n = g → (s.ledger me n).map Entry.cursor = named l.asks n
  absent : ∀ me g, s.last me g = none → ∀ n, gameOf me n = g → s.ledger me n = none
  faulted : ∀ me g l, s.last me g = some l → l.ended = .faulted → s.faulted me = true ∨ Writing s me g
  digests : ∀ me g, s.digests me g = (s.last me g).map fun l => digest l.asks
  read : ∀ me g asks, s.read me g = some asks → ¬ Writing s me g → (s.last me g).elim (asks = []) fun l => l.asks = asks

structure Flagged (s : Isolate ι γ ν β δ) : Prop where
  flag : s.draining = s.drain.isSome
  returns : ∀ r ∈ s.returns, r.alone = true → ∀ n ∈ r.left, r.began ≤ n

def Isolate.lastFaulted (s : Isolate ι γ ν β δ) (me : ι) (g : γ) : Bool := (s.last me g).any fun l => l.ended = .faulted

def Move.Meets (gameOf : ι → ν → γ) (s : Isolate ι γ ν β δ) : Move ι γ ν β → Prop
  | .apply me rows => rows.Fit (gameOf me)
  | .go me =>
    match s.turn me with
    | some (.reading games) => s.faulted me = true → ∀ g, s.lastFaulted me g = true → g ∈ games
    | _ => True
  | .drop _ => False
  | _ => True

def Meets (gameOf : ι → ν → γ) (digest : List (Ask γ ν β) → δ) : Isolate ι γ ν β δ → List (Move ι γ ν β) → Prop
  | _, [] => True
  | s, m :: moves => m.Meets gameOf s ∧ Meets gameOf digest (s.step digest m) moves

variable {gameOf : ι → ν → γ} {digest : List (Ask γ ν β) → δ} {s : Isolate ι γ ν β δ} {rest pending : List (AskBatch ι γ ν β)}

theorem Follow.frame {lane : List (AskBatch ι γ ν β)} {draining : Bool} {drain : Option (Drain ι γ ν β)} {returns : List Returned}
    (h : Follow gameOf digest pending s) : Follow gameOf digest pending { s with lane := lane, draining := draining, drain := drain, returns := returns } :=
  ⟨h.ordered, h.rows, h.batches, h.ledger, h.turn, h.latest, h.waits, h.landed, h.absent, h.faulted, h.digests, h.read⟩

theorem Follow.goOn (h : Follow gameOf digest (rest ++ s.lane) s) (began asks : Nat) :
    Follow gameOf digest (s.goOn began rest asks).pending (s.goOn began rest asks) := by
  rw [pending_goOn]
  obtain ⟨lane, draining, drain, returns, heq⟩ := goOn_frame s began rest asks
  rw [heq]
  exact h.frame

theorem Follow.loop (h : Follow gameOf digest s.lane s) (began : Nat) : Follow gameOf digest (s.loop began).pending (s.loop began) := by
  rw [pending_loop]
  obtain ⟨lane, draining, drain, returns, heq⟩ := loop_frame s began
  rw [heq]
  exact h.frame

theorem Flagged.loop (hr : ∀ r ∈ s.returns, r.alone = true → ∀ n ∈ r.left, r.began ≤ n) (hd : s.draining = true) (began : Nat) :
    Flagged (s.loop began) := by
  unfold Isolate.loop
  split
  · refine ⟨rfl, ?_⟩
    intro r hr'
    obtain rfl | hr' := List.mem_cons.mp hr'
    · intro _ n hn
      cases hn
    · exact hr r hr'
  · exact ⟨by simp [hd], hr⟩

theorem Flagged.goOn (hr : ∀ r ∈ s.returns, r.alone = true → ∀ n ∈ r.left, r.began ≤ n) (hd : s.draining = true) (began asks : Nat)
    (rest : List (AskBatch ι γ ν β)) : Flagged (s.goOn began rest asks) := by
  unfold Isolate.goOn
  split
  · exact ⟨by simp [hd], hr⟩
  · split
    · exact ⟨by simp [hd], hr⟩
    · exact Flagged.loop hr hd began

theorem changedGames_nodup (rows : OwedRows γ ν β) (stored : γ → Option δ) (refresh : Bool) (games : List γ) :
    (changedGames digest rows stored refresh games).Nodup :=
  (((List.perm_insertionSort _ _).nodup_iff).mpr (List.nodup_dedup games)).filter _

theorem mem_changedGames {rows : OwedRows γ ν β} {stored : γ → Option δ} {refresh : Bool} {games : List γ} {g : γ} :
    g ∈ changedGames digest rows stored refresh games ↔ g ∈ games ∧ (refresh = true ∨
      match stored g with
      | none => rows.asks g ≠ []
      | some d => d ≠ digest (rows.asks g)) := by
  rw [changedGames, List.mem_filter, List.mem_insertionSort, List.mem_dedup, Bool.or_eq_true]
  cases stored g with
  | none => simp
  | some d => simp

/-! ### The steps of a call -/

theorem lookup_map (f : γ → δ) (l : List γ) (g : γ) : (l.map fun g => (g, f g)).lookup g = if g ∈ l then some (f g) else none := by
  induction l with
  | nil => rfl
  | cons a l ih =>
    by_cases h : g = a
    · subst h
      simp
    · have hb : (g == a) = false := by simpa using h
      simp [List.lookup_cons, hb, h, ih]

theorem Follow.judge (h : Follow gameOf digest pending s) (hinj : Function.Injective digest)
    {me : ι} {games : List γ} (ht : s.turn me = some (.reading games))
    (hm : s.faulted me = true → ∀ g, s.lastFaulted me g = true → g ∈ games) :
    Follow gameOf digest pending (s.judge digest me games) := by
  have hnot : ∀ g, ¬ Writing s me g := by
    rintro g ⟨b, ds, hb, -⟩
    rw [ht] at hb
    cases hb
  let changed := changedGames digest (s.rows me) (s.digests me) (s.faulted me) games
  have hnodup : changed.Nodup := changedGames_nodup _ _ _ _
  have hturn : ∀ i, i ≠ me → (s.judge digest me games).turn i = s.turn i := fun i hi => Function.update_of_ne hi _ _
  have hwriting : ∀ g, g ∈ changed → Writing (s.judge digest me games) me g := by
    intro g hg
    have hne : changed ≠ [] := fun he => by rw [he] at hg; cases hg
    exact ⟨_, _, by simp only [Isolate.judge, Function.update_self]; exact if_neg hne, hg⟩
  have hread : ∀ g, g ∈ games → (s.judge digest me games).read me g = some ((s.rows me).asks g) := by
    intro g hg
    simp [Isolate.judge, hg]
  refine ⟨h.ordered, h.rows, h.batches, h.ledger, ?_, h.latest, h.waits, h.landed, h.absent, ?_, h.digests, ?_⟩
  · intro i b ds hb
    by_cases hi : i = me
    · subst hi
      simp only [Isolate.judge, Function.update_self] at hb
      split at hb
      · cases hb
      · cases hb
        refine ⟨rfl, fit_flatMap (h.rows i) hnodup _, ?_, ?_⟩
        · intro g hg
          rw [hread g (mem_changedGames.mp hg).1, AskBatch.about, about_flatMap hnodup hg]
        · intro g
          rw [lookup_map fun g => digest ((s.rows i).asks g)]
          split
          next hg => rw [AskBatch.about, about_flatMap hnodup hg]
          next => rfl
    · rw [hturn i hi] at hb
      have hw := h.turn i b ds hb
      refine ⟨hw.identity, hw.fit, ?_, hw.digests⟩
      intro g hg
      simp only [Isolate.judge, hi, false_and, if_false]
      exact hw.read g hg
  · intro i g l hl he
    by_cases hi : i = me
    · subst hi
      have hf : s.faulted i = true := (h.faulted i g l hl he).resolve_right (hnot g)
      have hl' : s.last i g = some l := hl
      right
      exact hwriting g (mem_changedGames.mpr ⟨hm hf g (by simp [Isolate.lastFaulted, hl', he]), Or.inl hf⟩)
    · obtain hf | hw := h.faulted i g l hl he
      · left
        simpa [Isolate.judge, Function.update_of_ne hi] using hf
      · right
        obtain ⟨b, ds, hb, hg⟩ := hw
        exact ⟨b, ds, (hturn i hi).trans hb, hg⟩
  · intro i g asks hr hw
    by_cases hi : i = me
    · subst hi
      by_cases hg : g ∈ games
      · -- a game left out of the batch: its asks are those of its last publish
        have hsame : ¬ g ∈ changed := fun hc => hw (hwriting g hc)
        rw [mem_changedGames, not_and] at hsame
        have hnot' := hsame hg
        rw [not_or] at hnot'
        rw [hread g hg] at hr
        cases hr
        have hd := h.digests i g
        show (s.last i g).elim _ _
        cases hl : s.last i g with
        | none =>
          rw [hl] at hd
          simpa [hd] using hnot'.2
        | some l =>
          rw [hl] at hd
          have heq : digest l.asks = digest ((s.rows i).asks g) := by simpa [hd] using hnot'.2
          exact hinj heq
      · refine h.read i g asks ?_ (hnot g)
        simpa [Isolate.judge, hg] using hr
    · refine h.read i g asks ?_ ?_
      · simpa [Isolate.judge, hi] using hr
      · rintro ⟨b, ds, hb, hg⟩
        exact hw ⟨b, ds, (hturn i hi).trans hb, hg⟩

variable {b : AskBatch ι γ ν β}

theorem Follow.push (h : Follow gameOf digest pending s) {me : ι}
    {ds : List (γ × δ)} (ht : s.turn me = some (.writing b ds)) :
    Follow gameOf digest (pending ++ [{ b with no := s.queued }]) (s.push me b ds) := by
  obtain ⟨hid, hfit, hread, hds⟩ := h.turn me b ds ht
  have hturn : ∀ i, i ≠ me → (s.push me b ds).turn i = s.turn i := fun i hi => Function.update_of_ne hi _ _
  have hself : ∀ g, ¬ Writing (s.push me b ds) me g := by
    rintro g ⟨b', ds', hb', -⟩
    simp [Isolate.push] at hb'
  have hlast : ∀ i g, (s.push me b ds).last i g = if i = me ∧ g ∈ b.games then some ⟨s.queued, b.about g, .pending⟩ else s.last i g := fun _ _ => rfl
  refine ⟨h.ordered.push rfl, h.rows, ?_, h.ledger, ?_, ?_, ?_, ?_, ?_, ?_, ?_, ?_⟩
  · intro b' hb'
    obtain hm | hm := List.mem_append.mp hb'
    · exact h.batches b' hm
    · rw [List.mem_singleton.mp hm]
      exact ⟨hfit.game, hfit.outpoint, hfit.nodup⟩
  · intro i b' ds' hb'
    by_cases hi : i = me
    · subst hi
      simp [Isolate.push] at hb'
    · rw [hturn i hi] at hb'
      exact h.turn i b' ds' hb'
  · intro b' hb' g hg
    rw [hlast]
    obtain hm | hm := List.mem_append.mp hb'
    · split
      · exact ⟨_, rfl, Nat.le_of_lt (h.ordered.below b' hm), rfl⟩
      · exact h.latest b' hm g hg
    · rw [List.mem_singleton.mp hm] at hg ⊢
      rw [if_pos ⟨hid, hg⟩]
      exact ⟨_, rfl, Nat.le_refl _, rfl⟩
  · intro i g l hl he
    rw [hlast] at hl
    split at hl
    next hin =>
      cases hl
      exact ⟨_, List.mem_append_right _ (List.mem_singleton.mpr rfl), rfl, hid.trans hin.1.symm, hin.2, rfl⟩
    next =>
      obtain ⟨b', hb', hrest⟩ := h.waits i g l hl he
      exact ⟨b', List.mem_append_left _ hb', hrest⟩
  · intro i g l hl he
    rw [hlast] at hl
    split at hl
    · cases hl
      cases he
    · exact h.landed i g l hl he
  · intro i g hl
    rw [hlast] at hl
    split at hl
    · cases hl
    · exact h.absent i g hl
  · intro i g l hl he
    rw [hlast] at hl
    split at hl
    next =>
      cases hl
      cases he
    next hin =>
      obtain hf | ⟨b', ds', hb', hg⟩ := h.faulted i g l hl he
      · exact Or.inl hf
      · by_cases hi : i = me
        · subst hi
          rw [ht] at hb'
          cases hb'
          exact absurd ⟨rfl, hg⟩ hin
        · exact Or.inr ⟨b', ds', (hturn i hi).trans hb', hg⟩
  · intro i g
    rw [hlast]
    show (if i = me then (ds.lookup g).or (s.digests i g) else s.digests i g) = _
    by_cases hi : i = me
    · by_cases hg : g ∈ b.games
      · simp [hi, hds g, hg]
      · simp [hi, hds g, hg, h.digests me g]
    · simp [hi, h.digests i g]
  · intro i g asks hr hw
    rw [hlast]
    by_cases hi : i = me
    · subst hi
      by_cases hg : g ∈ b.games
      · have hsome : s.read i g = some asks := hr
        rw [hread g hg] at hsome
        simpa [hg] using hsome
      · simp only [hg, and_false, if_false]
        refine h.read i g asks hr ?_
        rintro ⟨b', ds', hb', hg'⟩
        rw [ht] at hb'
        cases hb'
        exact hg hg'
    · simp only [hi, false_and, if_false]
      refine h.read i g asks hr ?_
      rintro ⟨b', ds', hb', hg'⟩
      exact hw ⟨b', ds', (hturn i hi).trans hb', hg'⟩

/-! ### The steps of a drain -/

theorem Follow.answer (h : Follow gameOf digest (b :: rest) s) (fate : Fate) :
    Follow gameOf digest rest (s.answer b fate) := by
  have hfit := h.batches b List.mem_cons_self
  have hafter := (List.pairwise_cons.mp h.ordered.waiting).1
  have hlast : ∀ i g, (s.answer b fate).last i g = (s.last i g).map fun l =>
      if i = b.identity ∧ g ∈ b.games ∧ l.no = b.no then { l with ended := if fate = .ok then .landed else .faulted } else l := by
    intro i g
    unfold Isolate.answer
    split <;> rfl
  -- of the games the batch does not name the ledger is as it was
  have hledger : ∀ i n, (s.answer b fate).ledger i n = if fate.effect then b.land s.ledger i n else s.ledger i n := by
    intro i n
    unfold Isolate.answer
    split <;> rfl
  have hother : ∀ i g n, ¬ (i = b.identity ∧ g ∈ b.games) → gameOf i n = g →
      ((s.answer b fate).ledger i n).map Entry.cursor = (s.ledger i n).map Entry.cursor := by
    intro i g n hnot hn
    rw [hledger]
    split
    · rw [land_cursor hfit h.ledger, hn, if_neg hnot]
    · rfl
  have hfaulted : ∀ i, (s.answer b fate).faulted i = true ↔ s.faulted i = true ∨ fate ≠ .ok ∧ i = b.identity := by
    intro i
    have hmark : (s.answer b fate).faulted = if fate = .ok then s.faulted else Function.update s.faulted b.identity true := by
      unfold Isolate.answer
      split <;> rfl
    rw [hmark]
    by_cases hok : fate = .ok
    · simp [hok]
    · rw [if_neg hok, Function.update_apply]
      split <;> simp [*]
  have hwriting : ∀ i g, Writing (s.answer b fate) i g ↔ Writing s i g := by
    intro i g
    unfold Writing Isolate.answer
    split <;> rfl
  have hnamed : ∀ i g l, i = b.identity ∧ g ∈ b.games → s.last i g = some l → l.ended = .pending ∧ b.no ≤ l.no := by
    rintro i g l ⟨rfl, hg⟩ hl
    obtain ⟨l', hl', hno, hp⟩ := h.latest b List.mem_cons_self g hg
    rw [hl] at hl'
    cases hl'
    exact ⟨hp, hno⟩
  have hown : ∀ i g l, s.last i g = some l → i = b.identity ∧ g ∈ b.games ∧ l.no = b.no → b.about g = l.asks := by
    rintro i g l hl ⟨hi, hg, hno⟩
    obtain ⟨b', hb', hno', -, -, habout⟩ := h.waits i g l hl (hnamed i g l ⟨hi, hg⟩ hl).1
    obtain rfl | hb' := List.mem_cons.mp hb'
    · exact habout
    · have := hafter b' hb'
      omega
  refine ⟨?_, ?_, fun b' hb' => h.batches b' (List.mem_cons_of_mem _ hb'), ?_, ?_, ?_, ?_, ?_, ?_, ?_, ?_, ?_⟩
  · have hend := h.ordered.ended fate.effect
    unfold Isolate.answer
    split
    next he => simpa [he, Isolate.land] using hend
    next he => simpa [he] using hend
  · intro me
    have hr := h.rows me
    unfold Isolate.answer
    split <;> exact hr
  · intro i n e he
    rw [hledger] at he
    split at he
    · exact land_fit hfit h.ledger i n e he
    · exact h.ledger i n e he
  · intro me b' ds hb'
    have ht := h.turn me b' ds
    unfold Isolate.answer at hb' ⊢
    split at hb'
    next he =>
      simp only [he, if_true]
      exact ht hb'
    next he =>
      simp only [he]
      exact ht hb'
  · intro b' hb' g hg
    obtain ⟨l, hl, hno, hp⟩ := h.latest b' (List.mem_cons_of_mem _ hb') g hg
    have hlt := hafter b' hb'
    have hne : ¬ (b'.identity = b.identity ∧ g ∈ b.games ∧ l.no = b.no) := fun hc => by omega
    exact ⟨l, by rw [hlast, hl, Option.map_some, if_neg hne], hno, hp⟩
  · intro i g l hl he
    rw [hlast] at hl
    obtain ⟨l₀, hl₀, rfl⟩ := Option.map_eq_some_iff.mp hl
    split at he
    next hin =>
      split at he <;> cases he
    next hin =>
      rw [if_neg hin]
      obtain ⟨b', hb', hno, hi, hg, habout⟩ := h.waits i g l₀ hl₀ he
      obtain rfl | hb' := List.mem_cons.mp hb'
      · exact absurd ⟨hi.symm, hg, hno.symm⟩ hin
      · exact ⟨b', hb', hno, hi, hg, habout⟩
  · intro i g l hl he n hn
    rw [hlast] at hl
    obtain ⟨l₀, hl₀, rfl⟩ := Option.map_eq_some_iff.mp hl
    split at he
    next hin =>
      rw [if_pos hin]
      split at he
      next hok =>
        -- this batch is the game's last publish, and it landed
        obtain ⟨hi, hg, hno⟩ := hin
        have heff : fate.effect = true := by rw [hok]; rfl
        rw [hledger, if_pos heff, land_cursor hfit h.ledger, if_pos ⟨hi, hn ▸ hg⟩, ← hown i g l₀ hl₀ ⟨hi, hg, hno⟩, named_about hfit (hi ▸ hn)]
      next => cases he
    next hin =>
      rw [if_neg hin]
      by_cases hb : i = b.identity ∧ g ∈ b.games
      · rw [(hnamed i g l₀ hb hl₀).1] at he
        cases he
      · rw [hother i g n hb hn]
        exact h.landed i g l₀ hl₀ he n hn
  · intro i g hl n hn
    rw [hlast, Option.map_eq_none_iff] at hl
    have hb : ¬ (i = b.identity ∧ g ∈ b.games) := by
      rintro ⟨rfl, hg⟩
      obtain ⟨l, hl', -⟩ := h.latest b List.mem_cons_self g hg
      rw [hl] at hl'
      cases hl'
    have hc := hother i g n hb hn
    rw [h.absent i g hl n hn] at hc
    simpa using hc
  · intro i g l hl he
    rw [hwriting]
    rw [hlast] at hl
    obtain ⟨l₀, hl₀, rfl⟩ := Option.map_eq_some_iff.mp hl
    split at he
    next hin =>
      split at he
      · cases he
      next hok => exact .inl ((hfaulted i).mpr (.inr ⟨hok, hin.1⟩))
    next hin => exact (h.faulted i g l₀ hl₀ he).imp_left fun hf => (hfaulted i).mpr (.inl hf)
  · intro i g
    have hd := h.digests i g
    have hsame : (s.answer b fate).digests i g = s.digests i g := by
      unfold Isolate.answer
      split <;> rfl
    rw [hsame, hd, hlast, Option.map_map]
    congr 1
    funext l
    simp only [Function.comp]
    split <;> rfl
  · intro i g asks hr hw
    have hread : s.read i g = some asks := by
      unfold Isolate.answer at hr
      split at hr <;> exact hr
    have hs := h.read i g asks hread fun hc => hw ((hwriting i g).mpr hc)
    rw [hlast]
    cases hl : s.last i g with
    | none =>
      rw [hl] at hs
      exact hs
    | some l =>
      rw [hl] at hs
      simp only [Option.map_some, Option.elim_some] at hs ⊢
      split <;> exact hs

/-! ### Every run -/

structure Inv (gameOf : ι → ν → γ) (digest : List (Ask γ ν β) → δ) (s : Isolate ι γ ν β δ) : Prop where
  follow : Follow gameOf digest s.pending s
  flagged : Flagged s

theorem draining_running {d : Drain ι γ ν β} (h : Flagged s) (hd : s.drain = some d) : s.draining = true := by
  rw [h.flag, hd]
  rfl

theorem inv_step (h : Inv gameOf digest s) (hinj : Function.Injective digest) {m : Move ι γ ν β} (hm : m.Meets gameOf s) :
    Inv gameOf digest (s.step digest m) := by
  obtain ⟨hfol, hflag⟩ := h
  cases m with
  | apply me rows =>
    simp only [Isolate.step]
    split
    next =>
      refine ⟨⟨hfol.ordered, ?_, hfol.batches, hfol.ledger, hfol.turn, hfol.latest, hfol.waits, hfol.landed, hfol.absent, hfol.faulted,
        hfol.digests, hfol.read⟩, hflag.flag, hflag.returns⟩
      intro i
      by_cases hi : i = me
      · subst hi
        simp only [Function.update_self]
        exact hm
      · simpa [Function.update_of_ne hi] using hfol.rows i
    next => exact ⟨hfol, hflag⟩
  | ask me games =>
    simp only [Isolate.step]
    split
    next hfree =>
      have hnone : s.turn me = none := by
        rw [Bool.and_eq_true, Option.isNone_iff_eq_none] at hfree
        exact hfree.1
      -- the call holds no batch yet, as its actor's turn held none before
      have hturn : ∀ i b ds, Function.update s.turn me (some (.reading games)) i = some (.writing b ds) ↔ s.turn i = some (.writing b ds) := by
        intro i b ds
        by_cases hi : i = me
        · subst hi
          simp [hnone]
        · simp [Function.update_of_ne hi]
      have hwriting : ∀ i g, Writing ({ s with turn := Function.update s.turn me (some (.reading games)) } : Isolate ι γ ν β δ) i g ↔ Writing s i g := by
        intro i g
        simp only [Writing, hturn]
      refine ⟨⟨hfol.ordered, hfol.rows, hfol.batches, hfol.ledger, ?_, hfol.latest, hfol.waits, hfol.landed, hfol.absent, ?_,
        hfol.digests, ?_⟩, hflag.flag, hflag.returns⟩
      · intro i b ds hb
        exact hfol.turn i b ds ((hturn i b ds).mp hb)
      · intro i g l hl he
        rw [hwriting]
        exact hfol.faulted i g l hl he
      · intro i g asks hr hw
        exact hfol.read i g asks hr fun hc => hw ((hwriting i g).mpr hc)
    next => exact ⟨hfol, hflag⟩
  | go me =>
    cases ht : s.turn me with
    | none =>
      simp only [Isolate.step, ht]
      exact ⟨hfol, hflag⟩
    | some a =>
      cases a with
      | reading games =>
        simp only [Isolate.step, ht]
        simp only [Move.Meets, ht] at hm
        exact ⟨hfol.judge hinj ht hm, hflag.flag, hflag.returns⟩
      | writing b ds =>
        simp only [Isolate.step, ht]
        have hp := hfol.push ht
        rw [Isolate.pending, List.append_assoc] at hp
        exact ⟨hp, hflag.flag, hflag.returns⟩
  | drain =>
    simp only [Isolate.step]
    split
    next hd =>
      refine ⟨hfol.frame, hflag.flag, ?_⟩
      intro r hr
      obtain rfl | hr := List.mem_cons.mp hr
      · intro halone
        have := hflag.flag
        rw [hd] at this
        simp only [Option.isNone_iff_eq_none] at halone
        simp [halone] at this
      · exact hflag.returns r hr
    next hd =>
      have hdrain : s.drain = none := by
        have := hflag.flag
        simp only [Bool.not_eq_true] at hd
        rw [hd] at this
        simpa using this.symm
      have hp : s.pending = s.lane := by simp [Isolate.pending, Isolate.inFlight, hdrain]
      rw [hp] at hfol
      exact ⟨Follow.loop (s := { s with draining := true }) hfol.frame _, Flagged.loop (s := { s with draining := true }) hflag.returns rfl _⟩
  | record fate =>
    simp only [Isolate.step]
    split
    next began b rest asks hd =>
      rw [pending_running hd] at hfol
      have hans := hfol.answer fate
      have hlane : (s.answer b fate).lane = s.lane := by
        unfold Isolate.answer
        split <;> rfl
      have hret : (s.answer b fate).returns = s.returns := by
        unfold Isolate.answer
        split <;> rfl
      have hdr : (s.answer b fate).draining = true := by
        rw [← draining_running hflag hd]
        unfold Isolate.answer
        split <;> rfl
      exact ⟨Follow.goOn (hlane ▸ hans) began _, Flagged.goOn (hret ▸ hflag.returns) hdr began _ rest⟩
    next => exact ⟨hfol, hflag⟩
  | counted =>
    simp only [Isolate.step]
    split
    next began hd =>
      rw [pending_counting hd] at hfol
      exact ⟨hfol.loop began, Flagged.loop hflag.returns (draining_running hflag hd) began⟩
    next => exact ⟨hfol, hflag⟩
  | drop landed => exact hm.elim

theorem inv_run (hinj : Function.Injective digest) (moves : List (Move ι γ ν β)) (h : Inv gameOf digest s) (hm : Meets gameOf digest s moves) :
    Inv gameOf digest (s.run digest moves) := by
  induction moves generalizing s with
  | nil => exact h
  | cons m moves ih => exact ih (inv_step h hinj hm.1) hm.2

structure AtRest (gameOf : ι → ν → γ) (digest : List (Ask γ ν β) → δ) (s : Isolate ι γ ν β δ) : Prop where
  lane : s.lane = []
  drain : s.drain = none
  draining : s.draining = false
  turn : ∀ me, s.turn me = none
  effects : s.effects = []
  returns : s.returns = []
  read : ∀ me g, s.read me g = none
  rows : ∀ me, (s.rows me).Fit (gameOf me)
  ledger : s.ledger.Fit gameOf
  digests : ∀ me g, s.digests me g = (s.last me g).map fun l => digest l.asks
  landed : ∀ me g l, s.last me g = some l → l.ended = .landed ∧ ∀ n, gameOf me n = g → (s.ledger me n).map Entry.cursor = named l.asks n
  absent : ∀ me g, s.last me g = none → ∀ n, gameOf me n = g → s.ledger me n = none

theorem AtRest.ordered (h : AtRest gameOf digest s) : s.Ordered := by
  have hp : s.pending = [] := by simp [Isolate.pending, Isolate.inFlight, h.drain, h.lane]
  rw [Isolate.Ordered, hp, h.effects]
  exact ⟨List.Pairwise.nil, fun _ hb => (by cases hb), List.Pairwise.nil, fun _ he => (by cases he), fun _ he => (by cases he)⟩

theorem AtRest.inv (h : AtRest gameOf digest s) : Inv gameOf digest s := by
  have hp : s.pending = [] := by simp [Isolate.pending, Isolate.inFlight, h.drain, h.lane]
  refine ⟨⟨h.ordered, h.rows, ?_, h.ledger, ?_, ?_, ?_, ?_, h.absent, ?_, h.digests, ?_⟩, ?_, ?_⟩
  · simp [hp]
  · intro me b ds hb
    rw [h.turn me] at hb
    cases hb
  · simp [hp]
  · intro me g l hl he
    rw [(h.landed me g l hl).1] at he
    cases he
  · intro me g l hl _
    exact (h.landed me g l hl).2
  · intro me g l hl he
    rw [(h.landed me g l hl).1] at he
    cases he
  · intro me g asks hr
    rw [h.read me g] at hr
    cases hr
  · rw [h.draining, h.drain]
    rfl
  · simp [h.returns]

/-! ## The lane over a run -/

structure LaneFollows (gameOf : ι → ν → γ) (digest : List (Ask γ ν β) → δ) (s : Isolate ι γ ν β δ) : Prop where
  /-- A drain called with no other live leaves nothing in the lane that was queued before it. -/
  drained : ∀ r ∈ s.returns, r.alone = true → ∀ n ∈ r.left, r.began ≤ n
  /-- The next call that names a game whose last publish faulted publishes its asks again. -/
  republished : ∀ me games g, s.turn me = some (.reading games) → g ∈ games → s.lastFaulted me g = true →
    ∃ b digests, (s.step digest (.go me)).turn me = some (.writing b digests) ∧ g ∈ b.games ∧ b.about g = (s.rows me).asks g
  /-- At rest, a game whose rows have not moved since a call named it has its asks in the ledger, or its last publish faulted. -/
  agrees : ∀ me g, s.drain = none → s.lane = [] → s.turn me = none → s.read me g = some ((s.rows me).asks g) →
    (∀ n, gameOf me n = g → (s.ledger me n).map Entry.cursor = named ((s.rows me).asks g) n) ∨ s.lastFaulted me g = true

theorem Inv.follows (h : Inv gameOf digest s) : LaneFollows gameOf digest s := by
  refine ⟨h.flagged.returns, ?_, ?_⟩
  · intro me games g ht hg hlast
    simp only [Isolate.lastFaulted, Option.any_eq_true, decide_eq_true_eq] at hlast
    obtain ⟨l, hl, he⟩ := hlast
    have hf : s.faulted me = true := by
      refine (h.follow.faulted me g l hl he).resolve_right ?_
      rintro ⟨b, ds, hb, -⟩
      rw [ht] at hb
      cases hb
    have hin : g ∈ changedGames digest (s.rows me) (s.digests me) (s.faulted me) games := mem_changedGames.mpr ⟨hg, Or.inl hf⟩
    have hne : changedGames digest (s.rows me) (s.digests me) (s.faulted me) games ≠ [] := fun hnil => by rw [hnil] at hin; cases hin
    let changed := changedGames digest (s.rows me) (s.digests me) (s.faulted me) games
    refine ⟨⟨s.queued, me, changed, changed.flatMap (s.rows me).asks⟩, changed.map fun g => (g, digest ((s.rows me).asks g)), ?_, hin,
      about_flatMap (changedGames_nodup _ _ _ _) hin⟩
    simp only [Isolate.step, ht, Isolate.judge, Function.update_self]
    exact if_neg hne
  · intro me g hd hl ht hr
    have hp : s.pending = [] := by simp [Isolate.pending, Isolate.inFlight, hd, hl]
    have hw : ¬ Writing s me g := by
      rintro ⟨b, ds, hb, -⟩
      rw [ht] at hb
      cases hb
    have hread := h.follow.read me g _ hr hw
    cases hlast : s.last me g with
    | none =>
      rw [hlast] at hread
      left
      intro n hn
      rw [h.follow.absent me g hlast n hn, show (s.rows me).asks g = [] from hread]
      rfl
    | some l =>
      rw [hlast] at hread
      rw [show (s.rows me).asks g = l.asks from hread.symm]
      cases he : l.ended with
      | pending =>
        obtain ⟨b, hb, -⟩ := h.follow.waits me g l hlast he
        rw [hp] at hb
        cases hb
      | landed => exact Or.inl (h.follow.landed me g l hlast he)
      | faulted => exact Or.inr (by simp [Isolate.lastFaulted, hlast, he])

/-- Batches take effect in the order they were queued, in every run. Where every step meets `Move.Meets`, no drain leaves an older
batch behind, a faulted game is published again by the next call that names it, and the ledger has the asks of the dated rows. -/
theorem ledger_follows_rows (hinj : Function.Injective digest) (h : AtRest gameOf digest s) :
    (∀ moves, (s.run digest moves).effects.Pairwise fun later earlier => earlier.no < later.no) ∧
      ∀ moves, Meets gameOf digest s moves → LaneFollows gameOf digest (s.run digest moves) :=
  ⟨fun moves => (ordered_run h.ordered moves).done, fun moves hm => (inv_run hinj moves h.inv hm).follows⟩

end

/-! ## Two games of one identity -/

abbrev Small := Isolate (Fin 1) (Fin 2) (Fin 2) Nat (List (Ask (Fin 2) (Fin 2) Nat))

def emptyRows : OwedRows (Fin 2) (Fin 2) Nat := ⟨[], List.nodup_nil⟩

def twoRows : OwedRows (Fin 2) (Fin 2) Nat := ⟨[⟨0, 0, some 7, 100⟩, ⟨1, 1, some 8, 100⟩], by decide⟩

def emptyIsolate : Small where
  rows _ := emptyRows
  digests _ _ := none
  turn _ := none
  lane := []
  faulted _ := false
  draining := false
  drain := none
  ledger _ _ := none
  queued := 0
  effects := []
  last _ _ := none
  read _ _ := none
  returns := []

theorem emptyIsolate_atRest : AtRest (fun _ n => n) id emptyIsolate where
  lane := rfl
  drain := rfl
  draining := rfl
  turn _ := rfl
  effects := rfl
  returns := rfl
  read _ _ := rfl
  rows _ := fun _ hr => by cases hr
  ledger _ _ _ he := by cases he
  digests _ _ := rfl
  landed _ _ _ hl := by cases hl
  absent _ _ _ _ _ := rfl

def faultedOnce : List (Move (Fin 1) (Fin 2) (Fin 2) Nat) :=
  [.apply 0 twoRows, .ask 0 [0], .go 0, .go 0, .drain, .record (.faulted false), .ask 0 [0], .go 0, .go 0, .drain, .record .ok, .counted]

theorem ledger_follows_rows_faulted : LaneFollows (fun _ n => n) id (Isolate.run id emptyIsolate faultedOnce) := by
  refine (ledger_follows_rows Function.injective_id emptyIsolate_atRest).2 faultedOnce ?_
  refine ⟨by unfold Move.Meets OwedRows.Fit; decide, trivial, ?_, trivial, trivial, trivial, trivial, ?_, trivial, trivial, trivial, trivial, trivial⟩
  · exact fun h => by cases h
  · exact fun _ => by decide

def markSpent : List (Move (Fin 1) (Fin 2) (Fin 2) Nat) :=
  [.apply 0 twoRows, .ask 0 [0], .go 0, .go 0, .drain, .record (.faulted false), .ask 0 [1], .go 0, .go 0, .drain, .record .ok, .counted,
    .ask 0 [0]]

/-- With the lane empty and no drain live, the call that names the faulted game publishes nothing, and the ledger lacks its ask. -/
theorem spent_mark_hides_fault :
    let s := Isolate.run id emptyIsolate markSpent
    s.drain.isNone = true ∧ s.lane = [] ∧ s.turn 0 = some (.reading [0]) ∧ s.lastFaulted 0 0 = true ∧
      (s.step id (.go 0)).turn 0 = none ∧ s.ledger 0 0 = none ∧ named ((s.rows 0).asks 0) 0 = some ⟨0, 7, 100⟩ := by
  decide

end OverlayEngine.BeltLane
