import Mathlib.Data.String.Basic
import OverlayEngine.Worker.ParkTable
import OverlayEngine.Worker.ChangeFlush

/-!
# The drain of the parked changes

Any number of drains deliver the parked rows while the flushes park more: a
drain reads the due rows of a set, POSTs them, deletes the delivered and backs
off the refused, each at the generation it read, and sweeps last. The log keeps
what happened, newest first.
-/

namespace OverlayEngine.ChangePark

open ChangeFlush (Post shipIsolating)

def drainMaxRows : Nat := ChangeFlush.changeChunk * ChangeFlush.changeMaxChunks

def drainKinds : List Kind := [.word, .hop, .pot, .lobby]

inductive Event (α : Type) where
  | parked (k : Key α) (generation : Nat)
  | read (drain : Nat) (k : Key α) (generation : Nat)
  | accepted (drain : Nat) (k : Key α) (generation : Nat)
  | refused (k : Key α) (generation stamp : Nat) (exhausted : Bool)
  | swept (k : Key α) (generation now : Nat)

inductive Drain (α : Type) where
  | idle
  | reading (now : Nat) (left : List Kind)
  | posting (now : Nat) (kind : Kind) (rows : List (Row α)) (left : List Kind)
  | unparking (now : Nat) (delivered refused : List (Row α)) (left : List Kind)
  | refusing (now : Nat) (refused : List (Row α)) (left : List Kind)
  | sweeping (now : Nat) (left : List Kind)
  | done

structure Sys (α : Type) where
  table : Table α := {}
  drains : Nat → Drain α := fun _ => .idle
  log : List (Event α) := []

structure Answers where
  chunked : Nat → Post := fun _ => .past
  alone : Nat → Post := fun _ => .past

inductive Act (α : Type) where
  | park (now : Nat) (keys : List (Key α))
  | begin (i now : Nat)
  | read (i : Nat) (fault : Bool)
  | post (i : Nat) (answers : Answers)
  | unpark (i : Nat) (landed : Bool)
  | refuse (i now : Nat) (landed : Bool)
  | sweep (i : Nat) (landed : Bool)
  | cancel (i : Nat)

section
variable {α : Type} [LinearOrder α] (render : Kind → α → Option α)

/-- The rows of `rows` under the entries `items`. -/
def rowsOf (rows : List (Row α)) (items : List α) : List (Row α) :=
  items.filterMap fun item => rows.find? fun r => r.key.item = item

def shipParked (kind : Kind) (rows : List (Row α)) (answers : Answers) : List (Row α) × List (Row α) :=
  let items := rows.map fun r => r.key.item
  let fresh := fun item => (rows.find? fun r => r.key.item = item).any fun r => r.attempts = 0
  match kind with
  | .word =>
    let held := fun (p : Row α × Nat) => decide (answers.alone p.2 = .accepted 0)
    ((rows.zipIdx.filter held).map Prod.fst, (rows.zipIdx.filter fun p => !held p).map Prod.fst)
  | .hop =>
    let shipped := shipIsolating answers.chunked answers.alone (items.filter fresh) (items.filter fun i => !fresh i)
    (rowsOf rows shipped.1, rowsOf rows shipped.2)
  | .pot | .lobby =>
    let entries := items.filterMap (render kind)
    let shipped := shipIsolating answers.chunked answers.alone (entries.filter fresh) (entries.filter fun i => !fresh i)
    (rowsOf rows shipped.1, rowsOf rows (shipped.2 ++ items.filter fun i => (render kind i).isNone))

def unparkAll (rows : List (Row α)) (t : Table α) : Table α := rows.foldl (fun t r => t.unpark r.key r.generation) t

/-- The batch of `REFUSE_SQL`, with the refusals that changed a row. -/
def refuseAll (now : Nat) : List (Row α) → Table α → List (Event α) → Table α × List (Event α)
  | [], t, log => (t, log)
  | r :: rest, t, log =>
    let done := t.refuse now r.key r.generation
    let exhausted := (done.1.row r.key).any Row.exhausted
    refuseAll now rest done.1 (if done.2 then .refused r.key r.generation now exhausted :: log else log)

def parkedEvents (token : Nat) : List (Key α) → List Bool → List (Event α)
  | k :: ks, landed :: rest => parkedEvents token ks rest ++ if landed then [.parked k token] else []
  | _, _ => []

def Sys.set (σ : Sys α) (i : Nat) (d : Drain α) : Sys α := { σ with drains := fun j => if j = i then d else σ.drains j }

def Sys.step (σ : Sys α) : Act α → Option (Sys α)
  | .park now keys =>
    let parked := σ.table.parkBatch now keys
    some { σ with table := parked.1, log := parkedEvents (parked.1.seq.getD 0) keys parked.2 ++ σ.log }
  | .begin i now =>
    match σ.drains i with
    | .idle => some (σ.set i (.reading now drainKinds))
    | _ => none
  | .read i fault =>
    match σ.drains i with
    | .reading now (kind :: left) =>
      let rows := if fault then [] else σ.table.read kind now drainMaxRows
      if rows.isEmpty then some (σ.set i (.reading now left))
      else some { σ.set i (.posting now kind rows left) with log := rows.map (fun r => .read i r.key r.generation) ++ σ.log }
    | .reading now [] => some (σ.set i (.sweeping now drainKinds))
    | _ => none
  | .post i answers =>
    match σ.drains i with
    | .posting now kind rows left =>
      let shipped := shipParked render kind rows answers
      some { σ.set i (.unparking now shipped.1 shipped.2 left) with
        log := shipped.1.map (fun r => .accepted i r.key r.generation) ++ σ.log }
    | _ => none
  | .unpark i landed =>
    match σ.drains i with
    | .unparking now delivered refused left =>
      some { σ.set i (.refusing now refused left) with table := if landed then unparkAll delivered σ.table else σ.table }
    | _ => none
  | .refuse i now landed =>
    match σ.drains i with
    | .refusing began refused left =>
      let done := refuseAll now refused σ.table σ.log
      some (if landed then { σ.set i (.reading began left) with table := done.1, log := done.2 } else σ.set i (.reading began left))
    | _ => none
  | .sweep i landed =>
    match σ.drains i with
    | .sweeping now (kind :: left) =>
      let before := now - changeParkExhaustedKeepMs
      let gone := σ.table.swept kind before drainMaxRows
      some (if landed then
          { σ.set i (.sweeping now left) with
            table := σ.table.sweep kind before drainMaxRows
            log := gone.map (fun r => .swept r.key r.generation now) ++ σ.log }
        else σ.set i (.sweeping now left))
    | .sweeping _ [] => some (σ.set i .done)
    | _ => none
  | .cancel i => some (σ.set i .done)

def Sys.run (σ : Sys α) : List (Act α) → Option (Sys α)
  | [] => some σ
  | a :: rest => (σ.step render a).bind fun σ' => σ'.run rest

end

/-! ## What the log says of a row -/

section
variable {α : Type} [DecidableEq α]

def Event.generation : Event α → Nat
  | .parked _ g | .read _ _ g | .accepted _ _ g | .refused _ g _ _ | .swept _ g _ => g

/-- The generation of the last park of `k`. -/
def lastPark (k : Key α) : List (Event α) → Option Nat
  | [] => none
  | .parked k' g :: rest => if k' = k then some g else lastPark k rest
  | _ :: rest => lastPark k rest

def Event.isRefusal (k : Key α) (g : Nat) : Event α → Bool
  | .refused k' g' _ _ => decide (k' = k) && decide (g' = g)
  | _ => false

def refusals (k : Key α) (g : Nat) (log : List (Event α)) : Nat := log.countP (Event.isRefusal k g)

def Taken (log : List (Event α)) (k : Key α) (g : Nat) : Prop :=
  ∃ i, [.accepted i k g, .read i k g, .parked k g].Sublist log

def Lapsed (log : List (Event α)) (k : Key α) (g : Nat) : Prop :=
  refusals k g log = changeParkMaxAttempts ∧
  ∃ stamp now, (0 < stamp → stamp + changeParkExhaustedKeepMs ≤ now) ∧ [.swept k g now, .refused k g stamp true, .parked k g].Sublist log

structure Row.Told (r : Row α) (log : List (Event α)) : Prop where
  latest : lastPark r.key log = some r.generation
  parked : .parked r.key r.generation ∈ log
  attempts : r.attempts = refusals r.key r.generation log
  bound : r.attempts ≤ changeParkMaxAttempts
  exhausted : r.exhausted = true ↔ r.attempts = changeParkMaxAttempts
  stamp : r.exhausted = true → [.refused r.key r.generation r.nextAttemptAtMs true, .parked r.key r.generation].Sublist log

structure Table.Told (t : Table α) (log : List (Event α)) : Prop where
  keyed : t.Keyed
  room : t.rows.length ≤ changeParkedMaxRows
  lobby : t.lobbyRows ≤ changeParkedLobbyMaxRows
  tokens : ∀ e ∈ log, e.generation ≤ t.seq.getD 0
  few : ∀ k g, refusals k g log ≤ changeParkMaxAttempts
  rows : ∀ r ∈ t.rows, r.Told log
  kept : ∀ k g, lastPark k log = some g → (∃ r ∈ t.rows, r.key = k ∧ r.generation = g) ∨ Taken log k g ∨ Lapsed log k g

variable {r : Row α}

theorem Table.Told.generation {t : Table α} {log : List (Event α)} (h : t.Told log) (hr : r ∈ t.rows) :
    r.generation ≤ t.seq.getD 0 := h.tokens (.parked r.key r.generation) (h.rows r hr).parked

def Event.isOther : Event α → Bool
  | .parked .. | .refused .. => false
  | _ => true

variable {log : List (Event α)} {k : Key α} {g : Nat} {e : Event α}

omit [DecidableEq α] in
theorem Taken.cons (h : Taken log k g) : Taken (e :: log) k g := h.imp fun _ h => h.cons e

theorem refusals_cons_other (he : Event.isRefusal k g e = false) : refusals k g (e :: log) = refusals k g log := by
  simp [refusals, he]

theorem Lapsed.cons (h : Lapsed log k g) (he : Event.isRefusal k g e = false) : Lapsed (e :: log) k g := by
  obtain ⟨hn, stamp, now, hkeep, hs⟩ := h
  exact ⟨by rw [refusals_cons_other he, hn], stamp, now, hkeep, hs.cons e⟩

theorem isRefusal_other (he : e.isOther = true) : Event.isRefusal k g e = false := by
  cases e <;> first | rfl | cases he

theorem lastPark_other (he : e.isOther = true) : lastPark k (e :: log) = lastPark k log := by
  cases e <;> first | rfl | cases he

theorem Row.Told.other (h : r.Told log) (he : e.isOther = true) : r.Told (e :: log) where
  latest := by rw [lastPark_other he, h.latest]
  parked := List.mem_cons_of_mem _ h.parked
  attempts := by rw [refusals_cons_other (isRefusal_other he), h.attempts]
  bound := h.bound
  exhausted := h.exhausted
  stamp := fun hx => (h.stamp hx).cons e

theorem Table.Told.other {t : Table α} (h : t.Told log) (he : e.isOther = true) (hg : e.generation ≤ t.seq.getD 0) : t.Told (e :: log) where
  keyed := h.keyed
  room := h.room
  lobby := h.lobby
  tokens := List.forall_mem_cons.mpr ⟨hg, h.tokens⟩
  few := fun k g => by rw [refusals_cons_other (isRefusal_other he)]; exact h.few k g
  rows := fun r hr => (h.rows r hr).other he
  kept := fun k g hk => by
    rw [lastPark_other he] at hk
    exact (h.kept k g hk).imp_right fun h => h.imp Taken.cons fun h => h.cons (isRefusal_other he)

theorem Table.Told.others {t : Table α} (h : t.Told log) (new : List (Event α))
    (hnew : ∀ e ∈ new, e.isOther = true ∧ e.generation ≤ t.seq.getD 0) : t.Told (new ++ log) := by
  induction new with
  | nil => exact h
  | cons e new ih =>
    obtain ⟨⟨he, hg⟩, hrest⟩ := List.forall_mem_cons.mp hnew
    exact (ih hrest).other he hg

/-! ## A park -/

theorem refusals_fresh {t : Table α} (h : t.Told log) (now : Nat) (k : Key α) : refusals k ((t.bumpSeq now).seq.getD 0) log = 0 := by
  refine List.countP_eq_zero.mpr fun e he => ?_
  have hle := h.tokens e he
  have hlt := bumpSeq_lt t now
  cases e with
  | refused k' g' stamp exhausted =>
    simp only [Event.generation] at hle
    have : g' ≠ (t.bumpSeq now).seq.getD 0 := by omega
    simp [Event.isRefusal, this]
  | parked => simp [Event.isRefusal]
  | read => simp [Event.isRefusal]
  | accepted => simp [Event.isRefusal]
  | swept => simp [Event.isRefusal]

theorem told_bumpSeq {t : Table α} (h : t.Told log) (now : Nat) : (t.bumpSeq now).Told log where
  keyed := h.keyed
  room := h.room
  lobby := h.lobby
  tokens := fun e he => (h.tokens e he).trans (by cases hs : t.seq <;> simp [Table.bumpSeq, hs])
  few := h.few
  rows := h.rows
  kept := h.kept

theorem Row.Told.parkedElse (h : r.Told log) (hk : r.key ≠ k) : r.Told (.parked k g :: log) where
  latest := by simp [lastPark, hk.symm, h.latest]
  parked := List.mem_cons_of_mem _ h.parked
  attempts := by rw [refusals_cons_other rfl, h.attempts]
  bound := h.bound
  exhausted := h.exhausted
  stamp := fun hx => (h.stamp hx).cons _

theorem told_fresh (hk : r.key = k) (hg : r.generation = g) (ha : r.attempts = 0) (hx : r.exhausted = false)
    (hfresh : refusals k g log = 0) : r.Told (.parked k g :: log) where
  latest := by simp [lastPark, hk, hg]
  parked := by rw [hk, hg]; exact List.mem_cons_self
  attempts := by rw [refusals_cons_other rfl, hk, hg, ha, hfresh]
  bound := by rw [ha]; exact Nat.zero_le _
  exhausted := by rw [ha, hx]; simp [changeParkMaxAttempts]
  stamp := fun h => by rw [hx] at h; cases h

theorem told_park {t : Table α} (h : t.Told log) (now : Nat) (k : Key α) (hfresh : refusals k (t.seq.getD 0) log = 0) :
    (t.park now k).1.Told (if (t.park now k).2 then .parked k (t.seq.getD 0) :: log else log) := by
  -- what holds of every other key
  have kept (rows : List (Row α)) (hmem : ∀ r ∈ t.rows, r.key ≠ k → r ∈ rows) (hnew : ∃ r ∈ rows, r.key = k ∧ r.generation = t.seq.getD 0) :
      ∀ k' g, lastPark k' (.parked k (t.seq.getD 0) :: log) = some g →
        (∃ r ∈ rows, r.key = k' ∧ r.generation = g) ∨ Taken (.parked k (t.seq.getD 0) :: log) k' g ∨
          Lapsed (.parked k (t.seq.getD 0) :: log) k' g := by
    intro k' g hk'
    by_cases hkk : k = k'
    · subst hkk
      simp only [lastPark, if_true, Option.some.injEq] at hk'
      subst hk'
      exact .inl hnew
    · simp only [lastPark, if_neg hkk] at hk'
      rcases h.kept k' g hk' with ⟨r, hr, hrk, hrg⟩ | ht
      · exact .inl ⟨r, hmem r hr (by rw [hrk]; exact Ne.symm hkk), hrk, hrg⟩
      · exact .inr (ht.imp Taken.cons fun hl => hl.cons rfl)
  have tokens : ∀ e ∈ Event.parked k (t.seq.getD 0) :: log, e.generation ≤ t.seq.getD 0 :=
    List.forall_mem_cons.mpr ⟨le_refl _, h.tokens⟩
  have few : ∀ k' g, refusals k' g (.parked k (t.seq.getD 0) :: log) ≤ changeParkMaxAttempts :=
    fun k' g => by rw [refusals_cons_other rfl]; exact h.few k' g
  rcases park_cases t now k with ⟨hk, hp⟩ | ⟨hk, hroom, hlobby, hp⟩ | ⟨hk, hp⟩
  · rw [hp]
    have hkeys := keys_update (t := t) (k := k) (f := fun r => r.reparked (t.seq.getD 0) now) fun _ => rfl
    obtain ⟨r₀, hr₀, hk₀⟩ := holds_eq_true.mp hk
    refine ⟨?_, ?_, ?_, tokens, few, fun r hr => ?_, kept _ ?_ ?_⟩
    · rw [Table.Keyed, hkeys]; exact h.keyed
    · simpa [Table.update] using h.room
    · rw [lobbyRows_eq, hkeys, ← lobbyRows_eq]; exact h.lobby
    · obtain ⟨r', hr', rfl⟩ := mem_update.mp hr
      by_cases hk' : r'.key = k
      · rw [if_pos hk']
        exact told_fresh hk' rfl rfl rfl hfresh
      · rw [if_neg hk']
        exact (h.rows r' hr').parkedElse hk'
    · exact fun r hr hk' => mem_update.mpr ⟨r, hr, by rw [if_neg hk']⟩
    · exact ⟨_, mem_update.mpr ⟨r₀, hr₀, rfl⟩, by simp [hk₀, Row.reparked]⟩
  · rw [hp]
    have hnot := holds_eq_false.mp hk
    refine ⟨?_, ?_, ?_, tokens, few, fun r hr => ?_, kept _ ?_ ?_⟩
    · rw [Table.Keyed, List.map_append, List.map_singleton]
      apply List.Nodup.append h.keyed (List.nodup_singleton k)
      intro k' hk' hkk
      obtain ⟨r, hr, rfl⟩ := List.mem_map.mp hk'
      exact hnot r hr (List.mem_singleton.mp hkk)
    · simp only [List.length_append, List.length_singleton]; omega
    · have hl := h.lobby
      simp only [Table.lobbyRows, List.countP_append] at hlobby hl ⊢
      by_cases hkl : k.kind = .lobby
      · have := hlobby hkl
        simp [hkl]; omega
      · simp [hkl]; exact hl
    · rcases List.mem_append.mp hr with hr | hr
      · exact (h.rows r hr).parkedElse (hnot r hr)
      · rw [List.mem_singleton.mp hr]
        exact told_fresh rfl rfl rfl rfl hfresh
    · exact fun r hr _ => List.mem_append_left _ hr
    · exact ⟨_, List.mem_append_right _ (List.mem_singleton.mpr rfl), rfl, rfl⟩
  · rw [hp]; exact h

theorem told_parkAll {t : Table α} (now : Nat) (ks : List (Key α)) (h : t.Told log) (hfresh : ∀ k, refusals k (t.seq.getD 0) log = 0) :
    (Table.parkAll now ks t).1.Told (parkedEvents (t.seq.getD 0) ks (Table.parkAll now ks t).2 ++ log) := by
  induction ks generalizing t log with
  | nil => exact h
  | cons k ks ih =>
    simp only [Table.parkAll, parkedEvents]
    have hpark := told_park h now k (hfresh k)
    have := ih hpark fun k' => by
      rw [park_seq]
      cases (t.park now k).2
      · exact hfresh k'
      · rw [if_pos rfl, refusals_cons_other rfl]; exact hfresh k'
    rw [park_seq] at this
    rw [List.append_assoc]
    cases hb : (t.park now k).2 <;> simpa [hb] using this

theorem told_parkBatch {t : Table α} (now : Nat) (ks : List (Key α)) (h : t.Told log) :
    (t.parkBatch now ks).1.Told (parkedEvents ((t.parkBatch now ks).1.seq.getD 0) ks (t.parkBatch now ks).2 ++ log) := by
  unfold Table.parkBatch
  rw [parkAll_seq]
  exact told_parkAll now ks (told_bumpSeq h now) (refusals_fresh h now)

/-! ## A delete, a refusal and a sweep -/

theorem told_unpark {t : Table α} (h : t.Told log) (htaken : Taken log k g) : (t.unpark k g).Told log where
  keyed := h.keyed.sublist (List.filter_sublist.map _)
  room := (List.length_filter_le _ _).trans h.room
  lobby := (List.filter_sublist.countP_le).trans h.lobby
  tokens := h.tokens
  few := h.few
  rows := fun r hr => h.rows r (mem_unpark.mp hr).1
  kept := fun k' g' hk' => by
    rcases h.kept k' g' hk' with ⟨r, hr, rfl, rfl⟩ | ht
    · by_cases hgone : r.key = k ∧ r.generation = g
      · obtain ⟨rfl, rfl⟩ := hgone
        exact .inr (.inl htaken)
      · exact .inl ⟨r, mem_unpark.mpr ⟨hr, hgone⟩, rfl, rfl⟩
    · exact .inr ht

theorem told_unparkAll {α : Type} [LinearOrder α] {log : List (Event α)} {t : Table α} (rows : List (Row α)) (h : t.Told log)
    (htaken : ∀ r ∈ rows, Taken log r.key r.generation) : (unparkAll rows t).Told log := by
  induction rows generalizing t with
  | nil => exact h
  | cons r rows ih =>
    obtain ⟨hr, hrest⟩ := List.forall_mem_cons.mp htaken
    exact ih (told_unpark h hr) hrest

theorem refuse_cases {t : Table α} (h : t.Keyed) (now : Nat) (k : Key α) (g : Nat) :
    (∃ r ∈ t.rows, r.key = k ∧ r.generation = g ∧ r.exhausted = false ∧ t.refuse now k g = (t.update k fun r => r.refused now, true)) ∨
    t.refuse now k g = (t, false) := by
  unfold Table.refuse
  cases hr : t.row k with
  | none => exact .inr rfl
  | some r =>
    obtain ⟨hmem, hk⟩ := (row_eq_some h).mp hr
    by_cases hhit : r.generation = g ∧ r.exhausted = false
    · exact .inl ⟨r, hmem, hk, hhit.1, hhit.2, by simp [hhit]⟩
    · refine .inr ?_
      have : (decide (r.generation = g) && !r.exhausted) = false := by
        cases hx : r.exhausted <;> simp_all
      simp [this]

theorem told_refuse {t : Table α} (h : t.Told log) (now : Nat) (k : Key α) (g : Nat) :
    (t.refuse now k g).1.Told (if (t.refuse now k g).2 then
      .refused k g now (((t.refuse now k g).1.row k).any Row.exhausted) :: log else log) ∧ (t.refuse now k g).1.seq = t.seq := by
  rcases refuse_cases h.keyed now k g with ⟨r, hr, rfl, rfl, hx, heq⟩ | heq
  · have hkeys := keys_update (t := t) (k := r.key) (f := fun r => r.refused now) fun _ => rfl
    have hkeyed : (t.update r.key fun r => r.refused now).Keyed := by rw [Table.Keyed, hkeys]; exact h.keyed
    have hrow : (t.update r.key fun r => r.refused now).row r.key = some (r.refused now) :=
      (row_eq_some hkeyed).mpr ⟨mem_update.mpr ⟨r, hr, by rw [if_pos rfl]⟩, rfl⟩
    have htold := h.rows r hr
    have hfew : r.attempts + 1 ≤ changeParkMaxAttempts := by
      have hne : r.attempts ≠ changeParkMaxAttempts := fun hm => by rw [htold.exhausted.mpr hm] at hx; cases hx
      have := htold.bound
      omega
    have hcount : refusals r.key r.generation (.refused r.key r.generation now (r.refused now).exhausted :: log) = r.attempts + 1 := by
      rw [htold.attempts]
      simp [refusals, Event.isRefusal]
    have helse {k' : Key α} {g' : Nat} (hne : ¬(r.key = k' ∧ r.generation = g')) :
        Event.isRefusal k' g' (.refused r.key r.generation now (r.refused now).exhausted) = false := by
      simpa [Event.isRefusal] using fun hk hg => hne ⟨hk, hg⟩
    rw [heq]
    simp only [if_true, hrow, Option.any_some]
    refine ⟨⟨hkeyed, ?_, ?_, ?_, ?_, ?_, ?_⟩, rfl⟩
    · simpa [Table.update] using h.room
    · rw [lobbyRows_eq, hkeys, ← lobbyRows_eq]; exact h.lobby
    · exact List.forall_mem_cons.mpr ⟨h.generation hr, h.tokens⟩
    · intro k' g'
      by_cases hsame : r.key = k' ∧ r.generation = g'
      · obtain ⟨rfl, rfl⟩ := hsame
        rw [hcount]; exact hfew
      · rw [refusals_cons_other (helse hsame)]; exact h.few k' g'
    · intro r' hr'
      obtain ⟨r₀, hr₀, rfl⟩ := mem_update.mp hr'
      by_cases hk : r₀.key = r.key
      · obtain rfl := h.keyed.unique hr₀ hr hk
        rw [if_pos rfl]
        refine ⟨htold.latest, List.mem_cons_of_mem _ htold.parked, hcount.symm, hfew, ?_, fun hlast => ?_⟩
        · simp only [Row.refused, decide_eq_true_eq]; omega
        · have hnext : (r₀.refused now).nextAttemptAtMs = now := by
            simp only [Row.refused, decide_eq_true_eq] at hlast ⊢
            simp [hlast]
          rw [hnext, hlast]
          exact List.Sublist.cons_cons _ (List.singleton_sublist.mpr htold.parked)
      · rw [if_neg hk]
        have hne : ¬(r.key = r₀.key ∧ r.generation = r₀.generation) := fun hh => hk hh.1.symm
        have := h.rows r₀ hr₀
        exact ⟨this.latest, List.mem_cons_of_mem _ this.parked, by rw [refusals_cons_other (helse hne), this.attempts], this.bound,
          this.exhausted, fun hx => (this.stamp hx).cons _⟩
    · intro k' g' hk'
      by_cases hsame : r.key = k' ∧ r.generation = g'
      · obtain ⟨rfl, rfl⟩ := hsame
        exact .inl ⟨r.refused now, mem_update.mpr ⟨r, hr, by rw [if_pos rfl]⟩, rfl, rfl⟩
      · rcases h.kept k' g' hk' with ⟨r₀, hr₀, rfl, rfl⟩ | ht
        · refine .inl ⟨_, mem_update.mpr ⟨r₀, hr₀, rfl⟩, ?_⟩
          by_cases hk : r₀.key = r.key
          · rw [if_pos hk]; exact ⟨rfl, rfl⟩
          · rw [if_neg hk]; exact ⟨rfl, rfl⟩
        · exact .inr (ht.imp Taken.cons fun hl => hl.cons (helse hsame))
  · rw [heq]; exact ⟨h, rfl⟩

end

section
variable {α : Type} [LinearOrder α] {log : List (Event α)} {t : Table α}

theorem told_refuseAll (now : Nat) (rows : List (Row α)) (h : t.Told log) :
    (refuseAll now rows t log).1.Told (refuseAll now rows t log).2 ∧ log.Sublist (refuseAll now rows t log).2 := by
  induction rows generalizing t log with
  | nil => exact ⟨h, List.Sublist.refl _⟩
  | cons r rows ih =>
    obtain ⟨htold, hsub⟩ := ih (told_refuse h now r.key r.generation).1
    refine ⟨htold, List.Sublist.trans ?_ hsub⟩
    split
    · exact List.sublist_cons_self _ _
    · exact List.Sublist.refl _

theorem told_sweep (kind : Kind) (now limit : Nat) (h : t.Told log) :
    (t.sweep kind (now - changeParkExhaustedKeepMs) limit).Told
      ((t.swept kind (now - changeParkExhaustedKeepMs) limit).map (fun r => .swept r.key r.generation now) ++ log) := by
  have hnew := h.others ((t.swept kind (now - changeParkExhaustedKeepMs) limit).map fun r => .swept r.key r.generation now) (by
    intro e he
    obtain ⟨r, hr, rfl⟩ := List.mem_map.mp he
    exact ⟨rfl, h.generation (mem_swept hr).1⟩)
  refine ⟨h.keyed.sublist (List.filter_sublist.map _), (List.length_filter_le _ _).trans h.room,
    (List.filter_sublist.countP_le).trans h.lobby, hnew.tokens, hnew.few, fun r hr => hnew.rows r (mem_sweep.mp hr).1, ?_⟩
  intro k g hk
  rcases hnew.kept k g hk with ⟨r, hr, rfl, rfl⟩ | ht
  · by_cases hgone : r ∈ t.swept kind (now - changeParkExhaustedKeepMs) limit
    · obtain ⟨-, hx, hstamp⟩ := mem_swept hgone
      have htold := hnew.rows r hr
      refine .inr (.inr ⟨?_, r.nextAttemptAtMs, now, by omega, ?_⟩)
      · rw [← htold.attempts]; exact htold.exhausted.mp hx
      · have hswept : Event.swept r.key r.generation now ∈
            (t.swept kind (now - changeParkExhaustedKeepMs) limit).map fun r => Event.swept r.key r.generation now :=
          List.mem_map_of_mem hgone
        exact List.Sublist.append (List.singleton_sublist.mpr hswept) ((h.rows r hr).stamp hx)
    · exact .inl ⟨r, mem_sweep.mpr ⟨hr, hgone⟩, rfl, rfl⟩
  · exact .inr ht

/-! ## The runs -/

def Drain.Held (i : Nat) (log : List (Event α)) : Drain α → Prop
  | .posting _ _ rows _ => ∀ r ∈ rows, [.read i r.key r.generation, .parked r.key r.generation].Sublist log
  | .unparking _ delivered _ _ => ∀ r ∈ delivered, Taken log r.key r.generation
  | _ => True

omit [LinearOrder α] in
theorem Drain.Held.mono {i : Nat} {log' : List (Event α)} {d : Drain α} (h : d.Held i log) (hsub : log.Sublist log') : d.Held i log' := by
  cases d with
  | posting now kind rows left => exact fun r hr => (h r hr).trans hsub
  | unparking now delivered refused left => exact fun r hr => (h r hr).imp fun _ h => h.trans hsub
  | idle => trivial
  | reading => trivial
  | refusing => trivial
  | sweeping => trivial
  | done => trivial

structure Sys.Told (σ : Sys α) : Prop where
  table : σ.table.Told σ.log
  drains : ∀ i, (σ.drains i).Held i σ.log

theorem mem_rowsOf {rows : List (Row α)} {items : List α} {r : Row α} (h : r ∈ rowsOf rows items) : r ∈ rows := by
  obtain ⟨item, -, hf⟩ := List.mem_filterMap.mp h
  exact List.mem_of_find?_eq_some hf

theorem shipParked_read (render : Kind → α → Option α) (kind : Kind) (rows : List (Row α)) (answers : Answers) {r : Row α}
    (h : r ∈ (shipParked render kind rows answers).1) : r ∈ rows := by
  cases kind with
  | word =>
    obtain ⟨p, hp, rfl⟩ := List.mem_map.mp h
    exact List.mem_of_getElem? (List.mem_zipIdx_iff_getElem?.mp (List.mem_filter.mp hp).1)
  | hop => exact mem_rowsOf h
  | pot => exact mem_rowsOf h
  | lobby => exact mem_rowsOf h

variable {σ σ' : Sys α}

theorem Sys.Told.set (h : σ.Told) (i : Nat) {d : Drain α} {t : Table α} {log : List (Event α)} (htable : t.Told log)
    (hsub : σ.log.Sublist log) (hd : d.Held i log) : Sys.Told { σ.set i d with table := t, log := log } := by
  refine ⟨htable, fun j => ?_⟩
  by_cases hj : j = i
  · subst hj
    simpa [Sys.set] using hd
  · simpa [Sys.set, hj] using (h.drains j).mono hsub

variable (render : Kind → α → Option α)

theorem told_step {a : Act α} (h : σ.Told) (hstep : σ.step render a = some σ') : σ'.Told := by
  have hself := List.Sublist.refl σ.log
  cases a with
  | park now keys =>
    cases hstep
    exact ⟨told_parkBatch now keys h.table, fun i => (h.drains i).mono (List.sublist_append_right _ _)⟩
  | begin i now =>
    simp only [Sys.step] at hstep
    split at hstep <;> cases hstep
    exact h.set i h.table hself trivial
  | read i fault =>
    simp only [Sys.step] at hstep
    split at hstep
    · rename_i now kind left hi
      cases fault with
      | true =>
        cases hstep
        exact h.set i h.table hself trivial
      | false =>
        simp only [Bool.false_eq_true, if_false] at hstep
        by_cases hnone : (σ.table.read kind now drainMaxRows).isEmpty = true
        · rw [if_pos hnone] at hstep
          cases hstep
          exact h.set i h.table hself trivial
        · rw [if_neg hnone] at hstep
          cases hstep
          refine h.set i (h.table.others _ ?_) (List.sublist_append_right _ _) ?_
          · intro e he
            obtain ⟨r, hr, rfl⟩ := List.mem_map.mp he
            exact ⟨rfl, h.table.generation (mem_read hr).1⟩
          · intro r hr
            have hread : Event.read i r.key r.generation ∈
                (σ.table.read kind now drainMaxRows).map fun r => Event.read i r.key r.generation := List.mem_map_of_mem hr
            exact List.Sublist.append (List.singleton_sublist.mpr hread)
              (List.singleton_sublist.mpr (h.table.rows r (mem_read hr).1).parked)
    · cases hstep
      exact h.set i h.table hself trivial
    · cases hstep
  | post i answers =>
    simp only [Sys.step] at hstep
    split at hstep
    · rename_i now kind rows left hi
      cases hstep
      have hheld : ∀ r ∈ rows, [Event.read i r.key r.generation, .parked r.key r.generation].Sublist σ.log := by
        have := h.drains i
        rw [hi] at this
        exact this
      refine h.set i (h.table.others _ ?_) (List.sublist_append_right _ _) ?_
      · intro e he
        obtain ⟨r, hr, rfl⟩ := List.mem_map.mp he
        have hparked := (hheld r (shipParked_read render kind rows answers hr)).subset (List.mem_cons_of_mem _ List.mem_cons_self)
        exact ⟨rfl, h.table.tokens (.parked r.key r.generation) hparked⟩
      · intro r hr
        have haccepted : Event.accepted i r.key r.generation ∈
            (shipParked render kind rows answers).1.map fun r => Event.accepted i r.key r.generation := List.mem_map_of_mem hr
        exact ⟨i, List.Sublist.append (List.singleton_sublist.mpr haccepted) (hheld r (shipParked_read render kind rows answers hr))⟩
    · cases hstep
  | unpark i landed =>
    simp only [Sys.step] at hstep
    split at hstep
    · rename_i now delivered refused left hi
      cases hstep
      have hheld : ∀ r ∈ delivered, Taken σ.log r.key r.generation := by
        have := h.drains i
        rw [hi] at this
        exact this
      cases landed with
      | false => exact h.set i h.table hself trivial
      | true => exact h.set i (told_unparkAll delivered h.table hheld) hself trivial
    · cases hstep
  | refuse i now landed =>
    simp only [Sys.step] at hstep
    split at hstep
    · rename_i began refused left hi
      cases hstep
      obtain ⟨htold, hsub⟩ := told_refuseAll now refused h.table
      cases landed with
      | false => exact h.set i h.table hself trivial
      | true => exact h.set i htold hsub trivial
    · cases hstep
  | sweep i landed =>
    simp only [Sys.step] at hstep
    split at hstep
    · rename_i now kind left hi
      cases hstep
      cases landed with
      | false => exact h.set i h.table hself trivial
      | true => exact h.set i (told_sweep kind now drainMaxRows h.table) (List.sublist_append_right _ _) trivial
    · cases hstep
      exact h.set i h.table hself trivial
    · cases hstep
  | cancel i =>
    cases hstep
    exact h.set i h.table hself trivial

theorem told_run (acts : List (Act α)) (h : σ.Told) (hrun : σ.run render acts = some σ') : σ'.Told := by
  induction acts generalizing σ with
  | nil => cases hrun; exact h
  | cons a acts ih =>
    obtain ⟨σ₁, hstep, hrest⟩ := Option.bind_eq_some_iff.mp hrun
    exact ih (told_step render h hstep) hrest

theorem told_empty : Sys.Told ({} : Sys α) := by
  refine ⟨⟨List.nodup_nil, Nat.zero_le _, Nat.zero_le _, fun _ h => (by cases h), fun _ _ => Nat.zero_le _, fun _ h => (by cases h),
    fun _ _ h => (by cases h)⟩, fun i => trivial⟩

/-- Over every run from an empty table, the last park of a key keeps its row until a drain that read it had it
accepted, or it lapsed; attempts are counted exactly, and the table stays within its bounds. -/
theorem run_kept (acts : List (Act α)) {σ : Sys α} (hrun : ({} : Sys α).run render acts = some σ) :
    (∀ k g, lastPark k σ.log = some g →
      (∃ r ∈ σ.table.rows, r.key = k ∧ r.generation = g) ∨ Taken σ.log k g ∨ Lapsed σ.log k g) ∧
    (∀ k g, refusals k g σ.log ≤ changeParkMaxAttempts) ∧
    (∀ r ∈ σ.table.rows, r.attempts = refusals r.key r.generation σ.log ∧ (r.exhausted = true ↔ r.attempts = changeParkMaxAttempts)) ∧
    σ.table.rows.length ≤ changeParkedMaxRows ∧ σ.table.lobbyRows ≤ changeParkedLobbyMaxRows := by
  have h := (told_run render acts told_empty hrun).table
  exact ⟨h.kept, h.few, fun r hr => ⟨(h.rows r hr).attempts, (h.rows r hr).exhausted⟩, h.room, h.lobby⟩

end

/-! ## Runs of one word frame -/

def frameKey : Key String := ⟨.word, "frame"⟩

/-- A drain whose POST of the frame comes back with `answer`. -/
def frameDrain (i now : Nat) (answer : Post) : List (Act String) :=
  [.begin i now, .read i false, .post i { alone := fun _ => answer }, .unpark i true, .refuse i now true, .cancel i]

def frameSys (acts : List (Act String)) : Option (Sys String) := ({} : Sys String).run (fun _ item => some item) acts

def reparkedRun : List (Act String) :=
  [.park 5 [frameKey], .begin 0 6, .read 0 false, .park 7 [frameKey], .post 0 { alone := fun _ => .accepted 0 }, .unpark 0 true]

theorem reparkedRun_some : (frameSys reparkedRun).isSome = true := by decide +kernel

theorem run_kept_reparked : ∃ σ, frameSys reparkedRun = some σ ∧ lastPark frameKey σ.log = some 2058241 ∧
    ((∃ r ∈ σ.table.rows, r.key = frameKey ∧ r.generation = 2058241) ∨ Taken σ.log frameKey 2058241 ∨ Lapsed σ.log frameKey 2058241) := by
  obtain ⟨σ, hσ⟩ := Option.isSome_iff_exists.mp reparkedRun_some
  have hlast : (frameSys reparkedRun).bind (fun σ => lastPark frameKey σ.log) = some 2058241 := by decide +kernel
  rw [hσ] at hlast
  exact ⟨σ, hσ, hlast, (run_kept (fun _ item => some item) reparkedRun hσ).1 frameKey 2058241 hlast⟩

def epochRun : List (Act String) :=
  .park 0 [frameKey] :: (List.range changeParkMaxAttempts).flatMap (fun i => frameDrain i 0 .failed) ++
    [.begin 8 0, .read 8 false, .read 8 false, .read 8 false, .read 8 false, .read 8 false, .sweep 8 true]

/-- At the clock's zero the sweep's `saturating_sub` takes an exhausted row before its time. -/
theorem epoch_run_lost : ¬∀ acts σ, frameSys acts = some σ → ∀ k g, lastPark k σ.log = some g →
    (∃ r ∈ σ.table.rows, r.key = k ∧ r.generation = g) ∨ Taken σ.log k g ∨
    (refusals k g σ.log = changeParkMaxAttempts ∧ ∃ stamp now, stamp + changeParkExhaustedKeepMs ≤ now ∧
      [.swept k g now, .refused k g stamp true, .parked k g].Sublist σ.log) := by
  intro h
  have hrun : (frameSys epochRun).any (fun σ => decide (lastPark frameKey σ.log = some 2048000) && σ.table.rows.isEmpty &&
      σ.log.all fun e => match e with
        | .accepted .. => false
        | .swept _ _ now => now == 0
        | _ => true) = true := by decide +kernel
  obtain ⟨σ, hσ, hfacts⟩ := (Option.any_eq_true _ _).mp hrun
  simp only [Bool.and_eq_true, decide_eq_true_eq, List.isEmpty_iff, List.all_eq_true] at hfacts
  obtain ⟨⟨hlast, hrows⟩, hlog⟩ := hfacts
  rcases h epochRun σ hσ frameKey 2048000 hlast with ⟨r, hr, -⟩ | ⟨i, hi⟩ | ⟨-, stamp, now, hkeep, hs⟩
  · rw [hrows] at hr
    cases hr
  · have := hlog _ (hi.subset List.mem_cons_self)
    simp at this
  · have hnow := hlog _ (hs.subset List.mem_cons_self)
    simp only [beq_iff_eq] at hnow
    simp only [hnow, changeParkExhaustedKeepMs] at hkeep
    omega

end OverlayEngine.ChangePark
