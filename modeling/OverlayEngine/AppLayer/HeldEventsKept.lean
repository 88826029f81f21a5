import OverlayEngine.AppLayer.HeldEvents

/-!
# A held event is applied before the actor is stamped

A held row goes only as the drain read it, and a re-hold counts itself: a row the
drain deletes was held by nobody since the drain listed it, and every game it
names was applied since. The one row that goes otherwise is one that does not
read: a re-hold makes a real of a write time past the range of an integer.
-/

namespace OverlayEngine.HeldEvents

open KeyedRows

variable (digest : List String → String) (publish : Bool)

def Event.Rereads (m : Meta) (ev : Event) : Prop :=
  ∀ old ∈ m.heldRow (ev.name digest),
    old.games.map lower = ev.loweredGames ∧ ∀ x ∈ old.atMs.or (ev.atMs.map .int), x.extract = x

def Move.Meets (w : World) : Move → Prop
  | .hold n fault => ∀ c ∈ w.calls[n]?, c.pc = .holding → fault = false → c.ev.Rereads digest w.table
  | .rearm n fault => ∀ c ∈ w.calls[n]?, c.pc = .rearming → ¬(fault = some 0 ∨ fault = some 1) → c.ev.Rereads digest w.table
  | _ => True

def World.Meeting : World → List Move → Prop
  | _, [] => True
  | w, m :: moves => m.Meets digest w ∧ (w.step digest publish m).Meeting moves

instance (m : Meta) (ev : Event) : Decidable (ev.Rereads digest m) := by
  unfold Event.Rereads
  infer_instance

instance (w : World) : (m : Move) → Decidable (m.Meets digest w)
  | .hold n _ => inferInstanceAs (Decidable (∀ c ∈ w.calls[n]?, _))
  | .rearm n _ => inferInstanceAs (Decidable (∀ c ∈ w.calls[n]?, _))
  | .submit _ | .passed .. | .noted _ | .boot .. | .page .. | .run .. | .tick _ => instDecidableTrue

instance meetingDecidable : (w : World) → (moves : List Move) → Decidable (w.Meeting digest publish moves)
  | _, [] => instDecidableTrue
  | w, m :: moves =>
    have := meetingDecidable (w.step digest publish m) moves
    inferInstanceAs (Decidable (m.Meets digest w ∧ (w.step digest publish m).Meeting digest publish moves))

/-- An apply of the game begun after the log's entry `j` was committed. -/
def Applied (log : List Mark) (j : Nat) (game : String) : Prop := ∃ games began, .committed games began ∈ log ∧ j < began ∧ game ∈ games

/-- What a drain that answers `more` did. -/
def Drain.Spent (d : Drain) : Prop :=
  d.chunks = drainChunksPerAlarm ∧ ∃ ev, d.oldest = some ev ∧
    (ev.games.length ≤ drainChunkGames * drainChunksPerAlarm → ev ∈ d.applied)

/-! ## The held rows -/

namespace Meta

variable {m : Meta} {name name' : String} {v old : HeldValue}

theorem hold_refused (hb : m.bootstrapped.isSome) : m.hold name v = (m, false) := if_pos hb

theorem hold_landed (hb : m.bootstrapped = none) (name : String) (v : HeldValue) : (m.hold name v).2 = true ∧ (m.hold name v).1.bootstrapped = none := by
  unfold hold
  rw [if_neg (by simp [hb])]
  split
  · exact ⟨rfl, hb⟩
  · exact ⟨rfl, hb⟩

theorem heldRow_hold (hb : m.bootstrapped = none) (name' : String) :
    (m.hold name v).1.heldRow name' = if name' = name then some ((m.heldRow name).elim v (·.rehold v)) else m.heldRow name' := by
  unfold hold
  rw [if_neg (by simp [hb])]
  cases hold : m.heldRow name with
  | none =>
    have hrow : row Prod.fst m.held name = none := Option.map_eq_none_iff.mp hold
    simp only [heldRow, row_append]
    by_cases h : name' = name
    · subst h
      simp [hrow]
    · simp [h, Ne.symm h]
  | some old =>
    simp only [heldRow]
    rw [row_modify (f := fun r : HeldRow => (r.1, old.rehold v)) (fun _ => rfl)]
    by_cases h : name' = name
    · subst h
      obtain ⟨r, hr, -⟩ := Option.map_eq_some_iff.mp hold
      simp [hr]
    · simp [h]

theorem keys_hold (h : (m.held.map Prod.fst).Nodup) : ((m.hold name v).1.held.map Prod.fst).Nodup := by
  unfold hold
  split
  · exact h
  · split
    · rename_i hn
      exact nodup_append (r := (name, v)) h (Option.map_eq_none_iff.mp hn)
    · rename_i old _
      dsimp only
      rw [keys_modify (f := fun r : HeldRow => (r.1, old.rehold v)) (fun _ => rfl)]
      exact h

theorem heldRow_heldDelete (name' : String) :
    (m.heldDelete name v).heldRow name' = if name' = name ∧ m.heldRow name = some v then none else m.heldRow name' := by
  unfold heldDelete
  by_cases hv : m.heldRow name = some v
  · rw [if_pos hv]
    by_cases h : name' = name
    · rw [if_pos ⟨h, hv⟩]
      simp [heldRow, row_remove, h]
    · rw [if_neg fun h' => h h'.1]
      simp [heldRow, row_remove, h]
  · rw [if_neg hv, if_neg fun h => hv h.2]

theorem keys_heldDelete (h : (m.held.map Prod.fst).Nodup) : ((m.heldDelete name v).held.map Prod.fst).Nodup := by
  unfold heldDelete
  split
  · dsimp only
    exact nodup_remove h
  · exact h

theorem mem_heldList (h : (m.held.map Prod.fst).Nodup) {r : HeldRow} (hr : r ∈ m.heldList) : m.heldRow r.1 = some r.2 := by
  have hm := (List.mem_insertionSort _).mp hr
  simp only [heldRow, row_of_mem h hm, Option.map_some]

end Meta

/-! ## The union of a drain -/

theorem drainUnion_fold (l : List String) (out : List String) :
    out <+: l.foldl (fun out g => if g ∈ out then out else out ++ [g]) out ∧
      (∀ g ∈ l, g ∈ l.foldl (fun out g => if g ∈ out then out else out ++ [g]) out) ∧
      (l.foldl (fun out g => if g ∈ out then out else out ++ [g]) out).length ≤ out.length + l.length := by
  induction l generalizing out with
  | nil => simp
  | cons g l ih =>
    rw [List.foldl_cons]
    by_cases hg : g ∈ out
    · rw [if_pos hg]
      obtain ⟨h1, h2, h3⟩ := ih out
      refine ⟨h1, ?_, ?_⟩
      · intro g' hg'
        rcases List.mem_cons.mp hg' with rfl | hg'
        · exact h1.subset hg
        · exact h2 g' hg'
      · simp only [List.length_cons]
        omega
    · rw [if_neg hg]
      obtain ⟨h1, h2, h3⟩ := ih (out ++ [g])
      refine ⟨(List.prefix_append _ _).trans h1, ?_, ?_⟩
      · intro g' hg'
        rcases List.mem_cons.mp hg' with rfl | hg'
        · exact h1.subset (by simp)
        · exact h2 g' hg'
      · rw [List.length_append, List.length_singleton] at h3
        rw [List.length_cons]
        omega

theorem drainUnion_head (ev : Event) (events : List Event) :
    ∃ games, games <+: drainUnion (ev :: events) ∧ games.length ≤ ev.games.length ∧ ∀ g ∈ ev.loweredGames, g ∈ games := by
  obtain ⟨-, h2, h3⟩ := drainUnion_fold ev.loweredGames []
  refine ⟨_, ?_, ?_, h2⟩
  · rw [drainUnion, List.flatMap_cons, List.foldl_append]
    exact (drainUnion_fold _ _).1
  · simpa [Event.loweredGames] using h3

/-! ## The table and the log -/

section
variable {digest} {m : Meta} {log : List Mark} {name : String} {v : HeldValue} {ev : Event} {j n : Nat} {game : String}

theorem Applied.mono (h : Applied log j game) (l : List Mark) : Applied (log ++ l) j game := by
  obtain ⟨games, began, hm, hb, hg⟩ := h
  exact ⟨games, began, List.mem_append_left _ hm, hb, hg⟩

theorem get_snoc {mark x : Mark} (h : (log ++ [mark])[j]? = some x) : log[j]? = some x ∨ j = log.length ∧ x = mark := by
  rw [List.getElem?_append] at h
  split at h
  · exact .inl h
  · obtain ⟨hj, hx⟩ := List.getElem?_eq_some_iff.mp h
    simp only [List.length_singleton] at hj
    simp only [List.getElem_singleton] at hx
    exact .inr ⟨by omega, hx.symm⟩

theorem lt_of_get {x : Mark} (h : log[j]? = some x) : j < log.length := (List.getElem?_eq_some_iff.mp h).1

structure Sound (m : Meta) (log : List Mark) : Prop where
  stamped : m.bootstrapped.isSome → m.held = []
  keys : (m.held.map Prod.fst).Nodup
  times : ∀ name v, m.heldRow name = some v → ∀ ms, v.atMs = some ms → ∃ n, ms = .int n
  kept : ∀ (j call : Nat) name games, log[j]? = some (.held call name games) →
    (∃ v, m.heldRow name = some v ∧ v.games.map lower = games) ∨ ∀ g ∈ games, Applied log j g

theorem Sound.reads (h : Sound m log) (hv : m.heldRow name = some v) : ∃ ev, v.read = some ev := by
  have hms := h.times name v hv
  cases hat : v.atMs with
  | none => exact ⟨_, by simp [HeldValue.read, hat]; rfl⟩
  | some ms =>
    obtain ⟨n, rfl⟩ := hms ms hat
    exact ⟨_, by simp [HeldValue.read, hat]; rfl⟩

theorem Sound.commit (h : Sound m log) (games : List String) (began : Nat) : Sound m (log ++ [.committed games began]) := by
  refine ⟨h.stamped, h.keys, h.times, ?_⟩
  intro j call name gs hj
  rcases get_snoc hj with hj | ⟨-, hx⟩
  · exact (h.kept j call name gs hj).imp_right fun hg g hgs => (hg g hgs).mono _
  · cases hx

theorem Sound.unstamp (h : Sound m log) : Sound m.unstamp log :=
  ⟨fun hs => by simp [Meta.unstamp] at hs, h.keys, h.times, h.kept⟩

theorem extract_int {a b : Option JsonNum} {ms : JsonNum} (ha : ∀ x, a = some x → ∃ n, x = .int n) (hb : ∀ x, b = some x → ∃ n, x = .int n)
    (hkeep : ∀ x ∈ a.or b, x.extract = x) (h : (a.map JsonNum.extract).or (b.map JsonNum.extract) = some ms) : ∃ n, ms = .int n := by
  rw [← Option.map_or] at h
  obtain ⟨x, hx, rfl⟩ := Option.map_eq_some_iff.mp h
  rw [hkeep x hx]
  rcases Option.or_eq_some_iff.mp hx with hx | ⟨-, hx⟩
  · exact ha x hx
  · exact hb x hx

theorem Sound.hold (h : Sound m log) (hb : m.bootstrapped = none) (hr : ev.Rereads digest m) (call : Nat) :
    Sound (m.hold (ev.name digest) ev.value).1 (log ++ [.held call (ev.name digest) ev.loweredGames]) := by
  refine ⟨fun hs => by simp [(Meta.hold_landed hb _ _).2] at hs, Meta.keys_hold h.keys, ?_, ?_⟩
  · intro name v hv ms hms
    have hint : ∀ x, ev.value.atMs = some x → ∃ n, x = .int n := by
      intro x hx
      obtain ⟨n, -, rfl⟩ := Option.map_eq_some_iff.mp hx
      exact ⟨n, rfl⟩
    rw [Meta.heldRow_hold hb] at hv
    by_cases hn : name = ev.name digest
    · rw [if_pos hn] at hv
      cases hold : m.heldRow (ev.name digest) with
      | none =>
        rw [hold] at hv
        cases hv
        exact hint ms hms
      | some old =>
        rw [hold] at hv
        cases hv
        exact extract_int (h.times _ old hold) hint (hr old hold).2 hms
    · rw [if_neg hn] at hv
      exact h.times name v hv ms hms
  · intro j call' name games hj
    rw [Meta.heldRow_hold hb]
    by_cases hn : name = ev.name digest
    · rw [if_pos hn]
      subst hn
      rcases get_snoc hj with hj | ⟨-, hx⟩
      · rcases h.kept j call' _ games hj with ⟨old, hold, rfl⟩ | hg
        · rw [hold]
          exact .inl ⟨_, rfl, (hr old hold).1.symm⟩
        · exact .inr fun g hgs => (hg g hgs).mono _
      · cases hx
        refine .inl ⟨_, rfl, ?_⟩
        cases m.heldRow (ev.name digest) with
        | none => rfl
        | some old => rfl
    · rw [if_neg hn]
      rcases get_snoc hj with hj | ⟨-, hx⟩
      · exact (h.kept j call' name games hj).imp_right fun hg g hgs => (hg g hgs).mono _
      · cases hx
        exact absurd rfl hn

def Stmt.Safe (m : Meta) (log : List Mark) : Stmt → Prop
  | .heldDelete name v => m.heldRow name = some v →
    ∀ (j call : Nat) games, log[j]? = some (.held call name games) → ∀ g ∈ games, Applied log j g
  | _ => True

theorem exec_row (s : Stmt) (h : (s.exec m).heldRow name = some v) : m.heldRow name = some v := by
  cases s with
  | heldDelete name' v' =>
    simp only [Stmt.exec, Meta.heldRow_heldDelete] at h
    split at h
    · cases h
    · exact h
  | _ => exact h

theorem Sound.exec (h : Sound m log) {s : Stmt} (hs : s.Safe m log) : Sound (s.exec m) log := by
  cases s with
  | heldDelete name v =>
    refine ⟨?_, Meta.keys_heldDelete h.keys, fun _ _ hv => h.times _ _ (exec_row (.heldDelete name v) hv), ?_⟩
    · intro hb
      have hheld : m.held = [] := h.stamped (by
        simp only [Stmt.exec, Meta.heldDelete] at hb
        split at hb <;> exact hb)
      simp only [Stmt.exec, Meta.heldDelete]
      split
      · simp [hheld, remove]
      · exact hheld
    · intro j call name' games hj
      simp only [Stmt.exec, Meta.heldRow_heldDelete]
      by_cases hn : name' = name ∧ m.heldRow name = some v
      · obtain ⟨rfl, hv⟩ := hn
        exact .inr (hs hv j call games hj)
      · rw [if_neg hn]
        exact h.kept j call name' games hj
  | applied kind seq games => exact h
  | coldFrom ms => exact ⟨h.stamped, h.keys, h.times, h.kept⟩

theorem Sound.execs (h : Sound m log) {stmts : List Stmt} (hs : ∀ s ∈ stmts, s.Safe m log) :
    Sound (stmts.foldl Stmt.exec m) log := by
  induction stmts generalizing m with
  | nil => exact h
  | cons s stmts ih =>
    refine ih (h.exec (hs s List.mem_cons_self)) fun s' hs' => ?_
    have hsafe := hs s' (List.mem_cons_of_mem _ hs')
    cases s' with
    | heldDelete name v => exact fun hv => hsafe (exec_row s hv)
    | _ => exact trivial

theorem read_games (h : v.read = some ev) : ev.games = v.games := by
  unfold HeldValue.read at h
  split at h <;> cases h <;> rfl

/-! ## A pass of the drain -/

def Listed (m : Meta) (log : List Mark) (since : Nat) (r : Read) : Prop :=
  r.1.2.read = some r.2 ∧ ∃ v, m.heldRow r.1.1 = some v ∧ r.1.2.n ≤ v.n ∧
    (v.n = r.1.2.n → v = r.1.2 ∧ ∀ (j call : Nat) games, log[j]? = some (.held call r.1.1 games) → j < since)

structure Pass (m : Meta) (log : List Mark) (since : Nat) (held : List Read) (done left : List String) : Prop where
  le : since ≤ log.length
  listed : ∀ r ∈ held, Listed m log since r
  since : ∀ g ∈ done, ∃ games began, .committed games began ∈ log ∧ since ≤ began ∧ g ∈ games
  union : done ++ left = drainUnion (held.map Prod.snd)

/-- The first event a drain read is finished, or heads this pass, which stands as `P` says. -/
def Drain.First (d : Drain) (held : List Read) (P : Prop) : Prop :=
  ∃ ev, d.oldest = some ev ∧
    (ev.games.length ≤ drainChunkGames * drainChunksPerAlarm → ev ∈ d.applied ∨ (held.map Prod.snd).head? = some ev ∧ P)

def Drain.Between (d : Drain) : Prop :=
  d.chunks ≤ drainChunksPerAlarm ∧ match d.oldest with
    | none => d.chunks = 0
    | some ev => ev.games.length ≤ drainChunkGames * drainChunksPerAlarm → ev ∈ d.applied

def DrainPc.Ok (m : Meta) (log : List Mark) (d : Drain) : DrainPc → Prop
  | .coldFrom | .list | .stamp | .clearing => d.Between
  | .dropping .. => False
  | .applying held chunk left done _ began =>
    d.chunks < drainChunksPerAlarm ∧ (∃ since, since ≤ began ∧ Pass m log since held done (chunk ++ left)) ∧
      d.First held (drainChunkGames * d.chunks ≤ done.length ∧ (left = [] ∨ chunk.length = drainChunkGames))
  | .asking held chunk left done _ =>
    d.chunks < drainChunksPerAlarm ∧ (∃ since, Pass m log since held (done ++ chunk) left) ∧
      d.First held (drainChunkGames * d.chunks ≤ done.length ∧ (left = [] ∨ chunk.length = drainChunkGames))
  | .finishing held done =>
    d.chunks ≤ drainChunksPerAlarm ∧ ∃ since left, Pass m log since held done left ∧
      d.First held (left = [] ∨ drainChunkGames * drainChunksPerAlarm ≤ done.length)

def BootPc.Ok (m : Meta) (log : List Mark) (mine : Prop) : BootPc → Prop
  | .paging | .pageAsks _ => mine
  | .draining d pc => mine ∧ pc.Ok m log d
  | .more d => d.Spent
  | _ => True

variable {since : Nat}

theorem Listed.commit {r : Read} (h : Listed m log since r) (games : List String) (began : Nat) :
    Listed m (log ++ [.committed games began]) since r := by
  obtain ⟨hr, v, hv, hn, hsame⟩ := h
  refine ⟨hr, v, hv, hn, fun he => ⟨(hsame he).1, ?_⟩⟩
  intro j call gs hj
  rcases get_snoc hj with hj | ⟨-, hx⟩
  · exact (hsame he).2 j call gs hj
  · cases hx

variable {held : List Read} {done left chunk : List String}

theorem Pass.commit {since began : Nat} (h : Pass m log since held done (chunk ++ left))
    (hs : since ≤ began) : Pass m (log ++ [.committed chunk began]) since held (done ++ chunk) left := by
  refine ⟨by rw [List.length_append]; exact Nat.le_add_right_of_le h.le, fun r hr => (h.listed r hr).commit _ _, ?_, by rw [List.append_assoc]; exact h.union⟩
  intro g hg
  rcases List.mem_append.mp hg with hg | hg
  · obtain ⟨games, b, hm, hb, hgs⟩ := h.since g hg
    exact ⟨games, b, List.mem_append_left _ hm, hb, hgs⟩
  · exact ⟨chunk, began, by simp, hs, hg⟩

theorem Listed.hold {r : Read} (h : Listed m log since r) (hb : m.bootstrapped = none) (v : HeldValue)
    (call : Nat) (games : List String) : Listed (m.hold name v).1 (log ++ [.held call name games]) since r := by
  obtain ⟨hr, v', hv, hle, hsame⟩ := h
  by_cases hname : r.1.1 = name
  · refine ⟨hr, v'.rehold v, ?_, ?_, ?_⟩
    · rw [Meta.heldRow_hold hb, if_pos hname, ← hname, hv]
      rfl
    · simp only [HeldValue.rehold]
      omega
    · simp only [HeldValue.rehold]
      omega
  · refine ⟨hr, v', ?_, hle, ?_⟩
    · rw [Meta.heldRow_hold hb, if_neg hname]
      exact hv
    · intro he
      refine ⟨(hsame he).1, fun j c gs hj => ?_⟩
      rcases get_snoc hj with hj | ⟨-, hx⟩
      · exact (hsame he).2 j c gs hj
      · cases hx
        exact absurd rfl hname

theorem Pass.hold (h : Pass m log since held done left)
    (hb : m.bootstrapped = none) (v : HeldValue) (call : Nat) (games : List String) :
    Pass (m.hold name v).1 (log ++ [.held call name games]) since held done left := by
  refine ⟨by rw [List.length_append]; exact Nat.le_add_right_of_le h.le, fun r hr => (h.listed r hr).hold hb v call games, ?_, h.union⟩
  intro g hg
  obtain ⟨gs, b, hm, hs⟩ := h.since g hg
  exact ⟨gs, b, List.mem_append_left _ hm, hs⟩

theorem DrainPc.Ok.hold {d : Drain} {pc : DrainPc} (h : pc.Ok m log d) (hb : m.bootstrapped = none) (v : HeldValue) (call : Nat)
    (games : List String) : pc.Ok (m.hold name v).1 (log ++ [.held call name games]) d := by
  cases pc with
  | applying held chunk left done tip began =>
    obtain ⟨hc, ⟨since, hs, hp⟩, hf⟩ := h
    exact ⟨hc, ⟨since, hs, hp.hold hb v call games⟩, hf⟩
  | asking held chunk left done tip =>
    obtain ⟨hc, ⟨since, hp⟩, hf⟩ := h
    exact ⟨hc, ⟨since, hp.hold hb v call games⟩, hf⟩
  | finishing held done =>
    obtain ⟨hc, since, left, hp, hf⟩ := h
    exact ⟨hc, since, left, hp.hold hb v call games, hf⟩
  | _ => exact h

theorem Pass.start (h : Sound m log) (hheld : ∀ r ∈ held, r.1 ∈ m.heldList ∧ r.1.2.read = some r.2) :
    Pass m log log.length held [] (drainUnion (held.map Prod.snd)) := by
  refine ⟨Nat.le_refl _, fun r hr => ?_, fun g hg => by simp at hg, rfl⟩
  obtain ⟨hm, hread⟩ := hheld r hr
  exact ⟨hread, r.1.2, Meta.mem_heldList h.keys hm, Nat.le_refl _, fun _ => ⟨rfl, fun j call games hj => lt_of_get hj⟩⟩

theorem Pass.safe (h : Pass m log since held done left)
    (hs : Sound m log) (first : Option Nat) {s : Stmt} (hmem : s ∈ World.finishStmts (World.finished held done) first) : s.Safe m log := by
  simp only [World.finishStmts, List.mem_append, List.mem_flatMap, List.mem_map] at hmem
  rcases hmem with ⟨r, hr, hmem | hmem⟩ | ⟨f, -, rfl⟩
  · split at hmem
    · rw [List.mem_singleton] at hmem
      subst hmem
      exact trivial
    · cases hmem
  · rw [List.mem_singleton] at hmem
    subst hmem
    obtain ⟨hheld, hdone⟩ := List.mem_filter.mp hr
    obtain ⟨hread, v, hv, -, hsame⟩ := h.listed r hheld
    intro hrow j call games hj
    rw [hv] at hrow
    cases hrow
    rcases hs.kept j call r.1.1 games hj with ⟨v, hv', rfl⟩ | happ
    · rw [hv] at hv'
      cases hv'
      have hlt := (hsame rfl).2 j call _ hj
      intro g hg
      rw [← read_games hread] at hg
      obtain ⟨gs, b, hm, hb, hgs⟩ := h.since g (of_decide_eq_true (List.all_eq_true.mp hdone g hg))
      exact ⟨gs, b, hm, Nat.lt_of_lt_of_le hlt hb, hgs⟩
    · exact happ
  · exact trivial

/-! ## The world -/

structure Kept (digest : List String → String) (w : World) : Prop where
  sound : Sound w.table w.log
  answered : ∀ n (c : Call), w.calls[n]? = some c → (∃ r, c.pc = .noting r ∨ c.pc = .held r) →
    ∃ j : Nat, w.log[j]? = some (.held n (c.ev.name digest) c.ev.loweredGames)
  boots : ∀ b (t : Boot), w.boots[b]? = some t → t.pc.Ok w.table w.log (w.turn = some b)

/-- Boot `b` holds the turn and runs. -/
structure Mid (digest : List String → String) (w : World) (b : Nat) (t : Boot) : Prop where
  sound : Sound w.table w.log
  answered : ∀ n (c : Call), w.calls[n]? = some c → (∃ r, c.pc = .noting r ∨ c.pc = .held r) →
    ∃ j : Nat, w.log[j]? = some (.held n (c.ev.name digest) c.ev.loweredGames)
  get : w.boots[b]? = some t
  turn : w.turn = some b
  others : ∀ b' (t' : Boot), b' ≠ b → w.boots[b']? = some t' → ∀ m log mine, t'.pc.Ok m log mine

variable {w : World} {b : Nat} {t : Boot} {d : Drain} {held : List Read} {done left : List String} {tip : Option Nat}

variable {pc : BootPc}

theorem BootPc.Ok.free {mine : Prop} (h : pc.Ok m log mine) (hm : ¬ mine) (m' : Meta) (log' : List Mark) (mine' : Prop) :
    pc.Ok m' log' mine' := by
  cases pc with
  | paging => exact absurd h hm
  | pageAsks page => exact absurd h hm
  | draining d pc => exact absurd h.1 hm
  | more d => exact h
  | _ => exact trivial

theorem Kept.mid (h : Kept digest w) (hb : w.boots[b]? = some t) (ht : w.turn = some b) : Mid digest w b t := by
  refine ⟨h.sound, h.answered, hb, ht, ?_⟩
  intro b' t' hne hb' m' log' mine'
  refine (h.boots b' t' hb').free ?_ m' log' mine'
  rw [ht]
  simpa using hne.symm

theorem get_modify {l : List Boot} {f : Boot → Boot} (hb : l[b]? = some t) (b' : Nat) :
    (l.modify b f)[b']? = if b' = b then some (f t) else l[b']? := by
  rw [List.getElem?_modify]
  by_cases h : b' = b
  · subst h
    simp [hb]
  · simp [h, Ne.symm h]

namespace Mid

theorem setBoot (h : Mid digest w b t) (f : Boot → Boot) (turn : Option Nat) (hok : (f t).pc.Ok w.table w.log (turn = some b)) :
    Kept digest { w.setBoot b f with turn := turn } := by
  refine ⟨h.sound, h.answered, ?_⟩
  intro b' t' (hb' : (w.boots.modify b f)[b']? = some t')
  rw [get_modify h.get] at hb'
  by_cases hne : b' = b
  · rw [if_pos hne] at hb'
    cases hb'
    exact hne ▸ hok
  · rw [if_neg hne] at hb'
    exact h.others b' t' hne hb' _ _ _

theorem setPc (h : Mid digest w b t) (pc : BootPc) (hok : pc.Ok w.table w.log (w.turn = some b)) : Kept digest (w.setPc b pc) :=
  h.setBoot (fun t => { t with pc := pc }) w.turn hok

theorem endBoot (h : Mid digest w b t) (pc : BootPc) (hok : pc.Ok w.table w.log False) : Kept digest (w.endBoot b pc) := by
  refine h.setBoot (fun t => { t with pc := pc }) none ?_
  simpa using hok

theorem drainPc (h : Mid digest w b t) (d : Drain) (pc : DrainPc) (hok : pc.Ok w.table w.log d) :
    Kept digest (w.setPc b (.draining d pc)) := h.setPc _ ⟨h.turn, hok⟩

theorem table (h : Mid digest w b t) {m' : Meta} (hs : Sound m' w.log) : Mid digest { w with table := m' } b t :=
  ⟨hs, h.answered, h.get, h.turn, h.others⟩

theorem commit (h : Mid digest w b t) (games : List String) (began : Nat) : Mid digest (w.mark (.committed games began)) b t := by
  refine ⟨h.sound.commit games began, ?_, h.get, h.turn, h.others⟩
  intro n c hc hpc
  obtain ⟨j, hj⟩ := h.answered n c hc hpc
  exact ⟨j, by rw [World.mark, List.getElem?_append_left (lt_of_get hj)]; exact hj⟩

theorem nextChunk (h : Mid digest w b t) (hc : d.chunks ≤ drainChunksPerAlarm) (hp : Pass w.table w.log since held done left)
    (hf : d.First held (left = [] ∨ drainChunkGames * d.chunks ≤ done.length)) : Kept digest (w.nextChunk b d held left done tip) := by
  unfold World.nextChunk
  by_cases hend : left = [] ∨ drainChunksPerAlarm ≤ d.chunks
  · rw [if_pos hend]
    refine h.drainPc d _ ⟨hc, since, left, hp, ?_⟩
    obtain ⟨ev, hev, himp⟩ := hf
    refine ⟨ev, hev, fun hlen => (himp hlen).imp_right fun ⟨hh, hl⟩ => ⟨hh, ?_⟩⟩
    rcases hl with hl | hl
    · exact .inl hl
    · rcases hend with hend | hend
      · exact .inl hend
      · exact .inr (Nat.le_trans (Nat.mul_le_mul_left _ hend) hl)
  · rw [if_neg hend]
    have hlt : d.chunks < drainChunksPerAlarm := by
      by_contra hlt
      exact hend (.inr (Nat.le_of_not_lt hlt))
    refine h.drainPc d _ ⟨hlt, ⟨since, hp.le, by rw [List.take_append_drop]; exact hp⟩, ?_⟩
    obtain ⟨ev, hev, himp⟩ := hf
    refine ⟨ev, hev, fun hlen => (himp hlen).imp_right fun ⟨hh, hl⟩ => ⟨hh, hl.resolve_left fun hl => hend (.inl hl), ?_⟩⟩
    rw [List.drop_eq_nil_iff, List.length_take]
    omega

theorem pass (h : Mid digest w b t) (hd : d.Between) (hheld : ∀ r ∈ held, r.1 ∈ w.table.heldList ∧ r.1.2.read = some r.2) :
    Kept digest (w.pass b d held) := by
  unfold World.pass
  by_cases hnil : held = []
  · rw [if_pos hnil]
    exact h.drainPc d .list hd
  rw [if_neg hnil]
  obtain ⟨r, rest, rfl⟩ := List.exists_cons_of_ne_nil hnil
  obtain ⟨hchunks, hold⟩ := hd
  dsimp only [List.head?_cons, Option.map_some]
  split
  · rename_i hspent
    refine h.endBoot _ ⟨Nat.le_antisymm hchunks hspent, ?_⟩
    cases ho : d.oldest with
    | none =>
      rw [ho] at hold
      rw [show d.chunks = 0 from hold] at hspent
      exact absurd hspent (by decide)
    | some ev =>
      rw [ho] at hold
      exact ⟨ev, by simp, fun hlen => (List.mem_insertionSort _).mpr (hold hlen)⟩
  · have hpass := Pass.start h.sound hheld
    refine h.nextChunk hchunks hpass ?_
    cases ho : d.oldest with
    | none =>
      rw [ho] at hold
      exact ⟨r.2, by simp, fun _ => .inr ⟨rfl, .inr (by rw [show d.chunks = 0 from hold]; exact Nat.le_refl _)⟩⟩
    | some ev =>
      rw [ho] at hold
      exact ⟨ev, by simp, fun hlen => .inl (hold hlen)⟩

theorem scan (h : Mid digest w b t) (hd : d.Between) : ∀ (rows : List HeldRow) (held : List Read), (∀ r ∈ rows, r ∈ w.table.heldList) →
    (∀ r ∈ held, r.1 ∈ w.table.heldList ∧ r.1.2.read = some r.2) → Kept digest (w.scan b d rows held) := by
  intro rows
  induction rows with
  | nil => exact fun held _ hheld => h.pass hd hheld
  | cons r rows ih =>
    intro held hrows hheld
    have hr := hrows r List.mem_cons_self
    obtain ⟨ev, hev⟩ := h.sound.reads (Meta.mem_heldList h.sound.keys hr)
    simp only [World.scan, hev]
    refine ih _ (fun r' hr' => hrows r' (List.mem_cons_of_mem _ hr')) ?_
    intro r' hr'
    rcases List.mem_append.mp hr' with hr' | hr'
    · exact hheld r' hr'
    · rw [List.mem_singleton.mp hr']
      exact ⟨hr, hev⟩

theorem finish (h : Mid digest w b t) (hok : (DrainPc.finishing held done).Ok w.table w.log d) (fault : Option Nat) : Kept digest (w.finish b d held done fault) := by
  obtain ⟨hchunks, since, left, hpass, ev, hev, hfirst⟩ := hok
  unfold World.finish
  dsimp only
  generalize (World.finished held done).foldl (fun f r => World.least f r.2.startedMs) d.first = first
  have hs : Sound ((fault.elim (World.finishStmts (World.finished held done) first)
      (World.finishStmts (World.finished held done) first).take).foldl Stmt.exec w.table) w.log := by
    apply h.sound.execs
    intro s hs
    apply hpass.safe h.sound first
    cases fault with
    | none => exact hs
    | some k => exact List.mem_of_mem_take hs
  split
  · exact (h.table hs).endBoot .failed trivial
  · refine (h.table hs).drainPc _ .list ⟨hchunks, ?_⟩
    dsimp only
    rw [hev]
    intro hlen
    rcases hfirst hlen with happ | ⟨hhead, hleft⟩
    · exact List.mem_append_left _ happ
    · apply List.mem_append_right
      obtain ⟨rest, hrest⟩ : ∃ rest, held.map Prod.snd = ev :: rest := by
        cases hm : held.map Prod.snd with
        | nil =>
          rw [hm] at hhead
          cases hhead
        | cons e rest =>
          rw [hm] at hhead
          cases hhead
          exact ⟨rest, rfl⟩
      obtain ⟨games, hpre, hglen, hgames⟩ := drainUnion_head ev rest
      rw [← hrest, ← hpass.union] at hpre
      -- The oldest event's games are the first of the union, and those are applied.
      have hdone : ∀ g ∈ ev.loweredGames, g ∈ done := by
        intro g hg
        have hg' := hgames g hg
        rcases hleft with rfl | hlong
        · rw [List.append_nil] at hpre
          exact hpre.subset hg'
        · have := List.prefix_of_prefix_length_le hpre (List.prefix_append done left) (by omega)
          exact this.subset hg'
      have hmem : ev ∈ held.map Prod.snd := by
        rw [hrest]
        exact List.mem_cons_self
      obtain ⟨r, hr, rfl⟩ := List.mem_map.mp hmem
      refine (List.mem_insertionSort _).mpr (List.mem_map.mpr ⟨r, List.mem_filter.mpr ⟨hr, ?_⟩, rfl⟩)
      exact List.all_eq_true.mpr fun g hg => decide_eq_true (hdone g hg)

theorem chunkDone (h : Mid digest w b t) (hc : d.chunks < drainChunksPerAlarm)
    (hp : Pass w.table w.log since held (done ++ chunk) left)
    (hf : d.First held (drainChunkGames * d.chunks ≤ done.length ∧ (left = [] ∨ chunk.length = drainChunkGames))) :
    Kept digest (w.nextChunk b { d with chunks := d.chunks + 1 } held left (done ++ chunk) tip) := by
  refine h.nextChunk hc hp ?_
  obtain ⟨ev, hev, himp⟩ := hf
  refine ⟨ev, hev, fun hlen => (himp hlen).imp_right fun ⟨hh, hl, hch⟩ => ⟨hh, hch.imp_right fun hch => ?_⟩⟩
  rw [List.length_append, hch]
  change drainChunkGames * (d.chunks + 1) ≤ _
  rw [Nat.mul_add_one]
  omega

theorem drain (h : Mid digest w b t) {pc : DrainPc} (hok : pc.Ok w.table w.log d) (fault : Option Nat) : Kept digest (w.drain publish b d fault pc) := by
  have hfail : Kept digest (w.endBoot b .failed) := h.endBoot .failed trivial
  cases pc with
  | coldFrom =>
    simp only [World.drain]
    split
    · exact hfail
    · exact h.drainPc _ .list hok
  | list =>
    simp only [World.drain]
    split
    · exact hfail
    split
    · exact h.drainPc d .stamp hok
    · exact h.scan hok _ [] (fun r hr => hr) (fun r hr => by simp at hr)
  | stamp =>
    simp only [World.drain]
    split
    · exact hfail
    unfold Meta.stamp
    by_cases hempty : w.table.held.isEmpty
    · rw [if_pos hempty]
      have hnil : w.table.held = [] := List.isEmpty_iff.mp hempty
      have hs : Sound { w.table with bootstrapped := some w.clock } w.log :=
        ⟨fun _ => hnil, h.sound.keys, h.sound.times, h.sound.kept⟩
      exact (h.table hs).drainPc _ .clearing hok
    · rw [if_neg hempty]
      exact h.drainPc d .list hok
  | dropping r rest held => exact absurd hok id
  | applying held chunk left done tip began =>
    obtain ⟨hc, ⟨since, hsince, hp⟩, hf⟩ := hok
    simp only [World.drain]
    split
    · exact hfail
    have hm := h.commit chunk began
    have hp' := hp.commit hsince
    split
    · exact hm.drainPc d _ ⟨hc, ⟨since, hp'⟩, hf⟩
    · exact hm.chunkDone hc hp' hf
  | asking held chunk left done tip =>
    obtain ⟨hc, ⟨since, hp⟩, hf⟩ := hok
    simp only [World.drain]
    split
    · exact hfail
    · exact h.chunkDone hc hp hf
  | finishing held done => exact h.finish hok fault
  | clearing =>
    simp only [World.drain]
    split
    · exact hfail
    · have hs : Sound { w.table with coldFrom := none } w.log :=
        ⟨h.sound.stamped, h.sound.keys, h.sound.times, h.sound.kept⟩
      exact (h.table hs).endBoot _ trivial

theorem pageEnd (h : Mid digest w b t) (rows : List (String × Int)) : Kept digest (w.pageEnd b rows) := by
  unfold World.pageEnd
  split
  · exact h.setBoot (fun t => { t with games := rows.length, pc := .drainWaiting }) none trivial
  · exact h.endBoot _ trivial

end Mid

namespace Kept

variable {n : Nat}

theorem setCall (h : Kept digest w) {pc : CallPc}
    (hpc : ∀ c, w.calls[n]? = some c → (∃ r, pc = .noting r ∨ pc = .held r) →
      ∃ j : Nat, w.log[j]? = some (.held n (c.ev.name digest) c.ev.loweredGames)) : Kept digest (w.setCall n pc) := by
  refine ⟨h.sound, ?_, h.boots⟩
  intro k c hc hr
  change (w.calls.modify n _)[k]? = some c at hc
  rw [List.getElem?_modify] at hc
  obtain ⟨c', hc', rfl⟩ := Option.map_eq_some_iff.mp hc
  by_cases hk : n = k
  · subst hk
    simp only [if_true] at hr ⊢
    exact hpc c' hc' hr
  · simp only [if_neg hk] at hr ⊢
    exact h.answered k c' hc' hr

theorem setCall_other (h : Kept digest w) (n : Nat) {pc : CallPc} (hpc : ∀ r, pc ≠ .noting r ∧ pc ≠ .held r) :
    Kept digest (w.setCall n pc) :=
  h.setCall fun _ _ ⟨r, hr⟩ => absurd hr (by simp [hpc r])

theorem boot_hold {mine : Prop} (h : pc.Ok m log mine) (hb : m.bootstrapped = none) (v : HeldValue) (call : Nat)
    (games : List String) : pc.Ok (m.hold name v).1 (log ++ [.held call name games]) mine := by
  cases pc with
  | draining d pc => exact ⟨h.1, h.2.hold hb v call games⟩
  | _ => exact h

theorem landHold (h : Kept digest w) (hr : ev.Rereads digest w.table) :
    Kept digest (w.landHold digest n ev).1 ∧
      ((w.landHold digest n ev).2 = true → ∃ j : Nat, (w.landHold digest n ev).1.log[j]? = some (.held n (ev.name digest) ev.loweredGames)) ∧
      (w.landHold digest n ev).1.calls = w.calls := by
  cases hb : w.table.bootstrapped with
  | some ms =>
    simp only [World.landHold, Meta.hold_refused (m := w.table) (by rw [hb]; rfl)]
    exact ⟨h, (fun hf => absurd hf Bool.false_ne_true), trivial⟩
  | none =>
    have hland := (Meta.hold_landed hb (ev.name digest) ev.value).1
    have heq : w.landHold digest n ev =
        ({ w with table := (w.table.hold (ev.name digest) ev.value).1 }.mark (.held n (ev.name digest) ev.loweredGames), true) := by
      unfold World.landHold
      split
      · rename_i m hm
        rw [hm]
      · rename_i m hm
        rw [hm] at hland
        cases hland
    rw [heq]
    refine ⟨⟨h.sound.hold hb hr n, ?_, ?_⟩, fun _ => ⟨w.log.length, by simp [World.mark]⟩, rfl⟩
    · intro k c hc hpc
      obtain ⟨j, hj⟩ := h.answered k c hc hpc
      exact ⟨j, by rw [World.mark, List.getElem?_append_left (lt_of_get hj)]; exact hj⟩
    · exact fun b t hbt => boot_hold (h.boots b t hbt) hb _ n _

theorem unstamp (h : Kept digest w) : Kept digest { w with table := w.table.unstamp } := by
  refine ⟨h.sound.unstamp, h.answered, ?_⟩
  intro b t hb
  have hok := h.boots b t hb
  cases hpc : t.pc with
  | draining d pc =>
    rw [hpc] at hok
    refine ⟨hok.1, ?_⟩
    have := hok.2
    cases pc with
    | applying held chunk left done tip began =>
      obtain ⟨hc, ⟨since, hs, hp⟩, hf⟩ := this
      exact ⟨hc, ⟨since, hs, hp.le, hp.listed, hp.since, hp.union⟩, hf⟩
    | asking held chunk left done tip =>
      obtain ⟨hc, ⟨since, hp⟩, hf⟩ := this
      exact ⟨hc, ⟨since, hp.le, hp.listed, hp.since, hp.union⟩, hf⟩
    | finishing held done =>
      obtain ⟨hc, since, left, hp, hf⟩ := this
      exact ⟨hc, since, left, ⟨hp.le, hp.listed, hp.since, hp.union⟩, hf⟩
    | _ => exact this
  | _ =>
    rw [hpc] at hok
    exact hok

theorem hold (h : Kept digest w) {fault : Bool} (hn : w.calls[n]? = some ⟨ev, .holding⟩)
    (hr : fault = false → ev.Rereads digest w.table) :
    Kept digest (w.hold digest n ev fault) := by
  unfold World.hold
  split
  · exact h.setCall_other n (by simp)
  · rename_i hfault
    obtain ⟨hk, hlog, hcalls⟩ := h.landHold (n := n) (hr (Bool.not_eq_true _ ▸ hfault))
    split
    · rename_i w' hw
      rw [hw] at hk hlog hcalls
      refine hk.setCall ?_
      intro c hc _
      rw [hcalls, hn] at hc
      cases hc
      exact hlog rfl
    · rename_i w' hw
      rw [hw] at hk
      exact hk.setCall_other n (by simp)

theorem rearm (h : Kept digest w) {fault : Option Nat} (hn : w.calls[n]? = some ⟨ev, .rearming⟩)
    (hr : ¬(fault = some 0 ∨ fault = some 1) → ev.Rereads digest w.table) :
    Kept digest (w.rearm digest n ev fault) := by
  unfold World.rearm
  split
  · exact h.setCall_other n (by simp)
  · rename_i hf0
    dsimp only
    split
    · exact h.unstamp.setCall_other n (by simp)
    · rename_i hf1
      have hre : ev.Rereads digest w.table.unstamp := hr fun hf => hf.elim hf0 hf1
      obtain ⟨hk, hlog, hcalls⟩ := h.unstamp.landHold (n := n) hre
      refine hk.setCall ?_
      intro c hc _
      rw [hcalls] at hc
      change w.calls[n]? = _ at hc
      rw [hn] at hc
      cases hc
      apply hlog
      -- Unstamped, the table refuses no hold.
      unfold World.landHold
      split
      · rfl
      · rename_i hm
        have := (Meta.hold_landed (m := w.table.unstamp) rfl (ev.name digest) ev.value).1
        dsimp only at hm
        rw [hm] at this
        cases this

theorem boot (h : Kept digest w) {t : Boot} (ht : ∀ m log mine, t.pc.Ok m log mine) : Kept digest { w with boots := w.boots ++ [t] } := by
  refine ⟨h.sound, h.answered, ?_⟩
  intro b t' (hb : (w.boots ++ [t])[b]? = some t')
  rw [List.getElem?_append] at hb
  split at hb
  · exact h.boots b t' hb
  · obtain ⟨-, rfl⟩ := List.getElem?_eq_some_iff.mp hb
    rw [List.getElem_singleton]
    exact ht _ _ _

theorem take (h : Kept digest w) (hb : w.boots[b]? = some t) (hturn : ¬ w.turn.isSome) (hok : pc.Ok w.table w.log True) :
    Kept digest { w.setPc b pc with turn := some b } := by
  have hnone : w.turn = none := Option.not_isSome_iff_eq_none.mp hturn
  refine ⟨h.sound, h.answered, ?_⟩
  intro b' t' (hb' : (w.boots.modify b _)[b']? = some t')
  rw [get_modify hb] at hb'
  by_cases hne : b' = b
  · rw [if_pos hne] at hb'
    cases hb'
    subst hne
    change pc.Ok w.table w.log (some b' = some b')
    rw [eq_self]
    exact hok
  · rw [if_neg hne] at hb'
    exact (h.boots b' t' hb').free (by simp [hnone]) _ _ _

theorem run (h : Kept digest w) (hb : w.boots[b]? = some t) (fault : Option Nat) : Kept digest (w.run publish b t fault) := by
  have hok := h.boots b t hb
  unfold World.run
  cases hpc : t.pc with
  | waiting =>
    dsimp only
    split
    · exact h
    · rename_i hturn
      exact h.take hb hturn trivial
  | pageAsks rows =>
    rw [hpc] at hok
    have hm := h.mid hb hok
    dsimp only
    split
    · exact hm.endBoot .failed trivial
    · exact hm.pageEnd rows
  | drainWaiting =>
    dsimp only
    split
    · exact h
    · rename_i hturn
      exact h.take hb hturn ⟨trivial, Nat.zero_le _, rfl⟩
  | draining d pc =>
    rw [hpc] at hok
    exact (h.mid hb hok.1).drain publish hok.2 fault
  | _ => exact h

theorem page (h : Kept digest w) (hb : w.boots[b]? = some t) (rows : Option (List (String × Int))) :
    Kept digest (w.page publish b t rows) := by
  by_cases hpc : t.pc = .paging
  · have hok := h.boots b t hb
    rw [hpc] at hok
    have hm := h.mid hb hok
    unfold World.page
    rw [hpc]
    cases rows with
    | none => exact hm.endBoot .failed trivial
    | some rows =>
      dsimp only
      rw [if_pos rfl]
      split
      · exact hm.setPc _ hm.turn
      · exact hm.pageEnd rows
  · have hkeep : w.page publish b t rows = w := by
      unfold World.page
      cases rows with
      | none => cases hp : t.pc <;> first | rfl | exact absurd hp hpc
      | some rows => cases hp : t.pc <;> first | rfl | exact absurd hp hpc
    rw [hkeep]
    exact h

theorem step (h : Kept digest w) {move : Move} (hmeets : move.Meets digest w) : Kept digest (w.step digest publish move) := by
  unfold World.step
  cases move with
  | submit ev =>
    refine ⟨h.sound, ?_, h.boots⟩
    intro n c (hc : (w.calls ++ [⟨ev, .holding⟩])[n]? = some c) hr
    rw [List.getElem?_append] at hc
    split at hc
    · exact h.answered n c hc hr
    · obtain ⟨hlt, rfl⟩ := List.getElem?_eq_some_iff.mp hc
      simp only [List.getElem_singleton] at hr
      obtain ⟨r, hr | hr⟩ := hr
      · cases hr
      · cases hr
  | hold n fault =>
    have hr : ∀ c ∈ w.calls[n]?, c.pc = .holding → fault = false → c.ev.Rereads digest w.table := hmeets
    dsimp only
    split
    · rename_i ev hn
      exact h.hold hn (hr ⟨ev, .holding⟩ hn rfl)
    · exact h
  | passed n how =>
    dsimp only
    split
    · cases how with
      | applied => exact h.setCall_other n (by simp)
      | closureBound => exact h.setCall_other n (by simp)
      | fault => exact h.setCall_other n (by simp)
    · exact h
  | rearm n fault =>
    have hr : ∀ c ∈ w.calls[n]?, c.pc = .rearming → ¬(fault = some 0 ∨ fault = some 1) → c.ev.Rereads digest w.table := hmeets
    dsimp only
    split
    · rename_i ev hn
      exact h.rearm hn (hr ⟨ev, .rearming⟩ hn rfl)
    · exact h
  | noted n =>
    dsimp only
    split
    · rename_i ev r hn
      exact h.setCall fun c hc _ => h.answered n c hc (by rw [hn] at hc; cases hc; exact ⟨r, .inl rfl⟩)
    · exact h
  | boot drain tip =>
    refine h.boot fun m log mine => ?_
    dsimp only
    split
    · exact trivial
    · exact trivial
  | page b rows =>
    dsimp only
    split
    · rename_i t hb
      exact h.page publish hb rows
    · exact h
  | run b fault =>
    dsimp only
    split
    · rename_i t hb
      exact h.run publish hb fault
    · exact h
  | tick ms => exact ⟨h.sound, h.answered, h.boots⟩

theorem moves (h : Kept digest w) {moves : List Move} (hmeets : w.Meeting digest publish moves) :
    Kept digest (w.runs digest publish moves) := by
  induction moves generalizing w with
  | nil => exact h
  | cons move moves ih =>
    refine ih ?_ hmeets.2
    exact h.step publish hmeets.1

theorem start : Kept digest World.start := by
  refine ⟨⟨?_, List.nodup_nil, ?_, ?_⟩, ?_, ?_⟩
  · intro h
    cases h
  · intro name v h
    cases h
  · intro j call name games h
    cases h
  · intro n c hc
    cases hc
  · intro b t hb
    cases hb

end Kept

end

/-- Of every event a call answered held, its row stands until an apply begun since of each game it names is committed;
no row stands once the actor is stamped; a drain that answers `more` finished the oldest event it read, where its games
fit the chunks of an alarm, and used every chunk. -/
theorem held_until_applied (moves : List Move) (h : World.start.Meeting digest publish moves) :
    (∀ (n : Nat) (c : Call) rearmed, (World.start.runs digest publish moves).calls[n]? = some c → c.pc = .held rearmed →
      ∃ j : Nat, (World.start.runs digest publish moves).log[j]? = some (.held n (c.ev.name digest) c.ev.loweredGames)) ∧
    (∀ (j call : Nat) name games, (World.start.runs digest publish moves).log[j]? = some (.held call name games) →
      (∃ v, (World.start.runs digest publish moves).table.heldRow name = some v ∧ v.games.map lower = games) ∨
        ∀ g ∈ games, Applied (World.start.runs digest publish moves).log j g) ∧
    ((World.start.runs digest publish moves).table.bootstrapped.isSome → (World.start.runs digest publish moves).table.held = []) ∧
    ∀ (b : Nat) (t : Boot) d, (World.start.runs digest publish moves).boots[b]? = some t → t.pc = .more d → d.Spent := by
  have hk := Kept.start.moves publish h
  generalize World.start.runs digest publish moves = w at hk
  refine ⟨?_, hk.sound.kept, hk.sound.stamped, ?_⟩
  · intro n c rearmed hc hpc
    exact hk.answered n c hc ⟨rearmed, .inr hpc⟩
  · intro b t d hb hpc
    have hok := hk.boots b t hb
    rw [hpc] at hok
    exact hok

def gDigest : List String → String := fun _ => "8b2e20a7057cb9a314a33887d82a8d038ac70e8d8420232a8e702d55470ce86c"

/-- One event delivered twice to a cold actor, written at `ms`, and one drain of it. -/
def twiceHeld (ms : Option Nat) : List Move :=
  [.submit ⟨some "potmove", some 3, ["g"], ms, false, none, 1700000000000⟩,
    .submit ⟨some "potmove", some 3, ["g"], ms, false, none, 1700000000500⟩,
    .hold 0 false, .hold 1 false, .noted 0, .noted 1, .boot true none] ++ List.replicate 8 (.run 0 none)

theorem held_until_applied_stamped :
    (World.start.runs gDigest true (twiceHeld (some 1700000000000))).table.bootstrapped = some 0 ∧
      ∀ g ∈ ["g"], Applied (World.start.runs gDigest true (twiceHeld (some 1700000000000))).log 1 g := by
  have hrun : World.start.Meeting gDigest true (twiceHeld (some 1700000000000)) ∧
      (World.start.runs gDigest true (twiceHeld (some 1700000000000))).table.bootstrapped = some 0 ∧
      (World.start.runs gDigest true (twiceHeld (some 1700000000000))).log[1]? =
        some (.held 1 "held:00000000000000000003:potmove:8b2e20a7057cb9a3" ["g"]) := by decide
  obtain ⟨hmeets, hb, hheld⟩ := hrun
  have h := held_until_applied gDigest true (twiceHeld (some 1700000000000)) hmeets
  refine ⟨hb, ?_⟩
  rcases h.2.1 1 1 _ ["g"] hheld with ⟨v, hv, -⟩ | happ
  · have hnil := h.2.2.1 (by rw [hb]; rfl)
    rw [Meta.heldRow, hnil] at hv
    cases hv
  · exact happ

/-- A write time of `2 ^ 63` does not read once held again: the drain drops the row, stamps the actor and applies nothing. -/
theorem held_dropped :
    (World.start.runs gDigest true (twiceHeld (some (2 ^ 63)))).calls.map (·.pc) = [.held false, .held false] ∧
      (World.start.runs gDigest true (twiceHeld (some (2 ^ 63)))).table.held = [] ∧
      (World.start.runs gDigest true (twiceHeld (some (2 ^ 63)))).table.bootstrapped = some 0 ∧
      ¬ ∃ j, Applied (World.start.runs gDigest true (twiceHeld (some (2 ^ 63)))).log j "g" := by
  have hrun : (World.start.runs gDigest true (twiceHeld (some (2 ^ 63)))).calls.map (·.pc) = [.held false, .held false] ∧
      (World.start.runs gDigest true (twiceHeld (some (2 ^ 63)))).table.held = [] ∧
      (World.start.runs gDigest true (twiceHeld (some (2 ^ 63)))).table.bootstrapped = some 0 ∧
      (World.start.runs gDigest true (twiceHeld (some (2 ^ 63)))).log =
        [.held 0 "held:00000000000000000003:potmove:8b2e20a7057cb9a3" ["g"], .held 1 "held:00000000000000000003:potmove:8b2e20a7057cb9a3" ["g"]] := by
    decide +kernel
  obtain ⟨hcalls, htable, hstamp, hlog⟩ := hrun
  refine ⟨hcalls, htable, hstamp, ?_⟩
  rintro ⟨j, games, began, hm, -⟩
  rw [hlog] at hm
  simp at hm

end OverlayEngine.HeldEvents
