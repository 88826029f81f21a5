import Mathlib.Data.List.Sort
import Mathlib.Order.Defs.LinearOrder

/-!
# The parked changes

A change the app layer was not told of waits in D1: one row for each set and
entry, with the generation of its last park and the refused POSTs of that
generation. One definition for each statement, and what each does to a row.
-/

namespace OverlayEngine.ChangePark

inductive Kind where
  | pot
  | hop
  | word
  | lobby
  deriving DecidableEq

structure Key (α : Type) where
  kind : Kind
  item : α
  deriving DecidableEq

structure Row (α : Type) where
  key : Key α
  parkedAtMs : Nat
  generation : Nat
  attempts : Nat := 0
  nextAttemptAtMs : Nat
  exhausted : Bool := false
  deriving DecidableEq

/-- `change_parked` and the one row of `change_parked_seq`. -/
structure Table (α : Type) where
  rows : List (Row α) := []
  seq : Option Nat := none

def changeParkMaxAttempts : Nat := 8
def changeParkBackoffBaseMs : Nat := 15 * 60 * 1000
def changeParkBackoffMaxMs : Nat := 24 * 60 * 60 * 1000
def changeParkExhaustedKeepMs : Nat := 7 * 24 * 60 * 60 * 1000
def changeParkedMaxRows : Nat := 2048
def changeParkedLobbyMaxRows : Nat := changeParkedMaxRows / 4

section
variable {α : Type} [DecidableEq α]

namespace Row

def reparked (r : Row α) (token now : Nat) : Row α :=
  { r with generation := token, attempts := 0, exhausted := false, nextAttemptAtMs := min r.nextAttemptAtMs now }

/-- `REFUSE_SQL` on its row. -/
def refused (r : Row α) (now : Nat) : Row α :=
  let last := decide (changeParkMaxAttempts ≤ r.attempts + 1)
  { r with
    attempts := r.attempts + 1
    exhausted := last
    nextAttemptAtMs :=
      if last then now
      else if r.key.kind = .word then now
      else now + min (changeParkBackoffBaseMs <<< min r.attempts 20) changeParkBackoffMaxMs }

def due (r : Row α) (kind : Kind) (now : Nat) : Bool :=
  decide (r.key.kind = kind) && !r.exhausted && decide (r.nextAttemptAtMs ≤ now)

def stale (r : Row α) (kind : Kind) (before : Nat) : Bool :=
  decide (r.key.kind = kind) && r.exhausted && decide (r.nextAttemptAtMs ≤ before)

end Row

namespace Table

def row (t : Table α) (k : Key α) : Option (Row α) := t.rows.find? fun r => r.key = k

def holds (t : Table α) (k : Key α) : Bool := (t.row k).isSome

def lobbyRows (t : Table α) : Nat := t.rows.countP fun r => r.key.kind = .lobby

/-- The ceilings of `PARK_SQL`, each count stopped at its bound. -/
def hasRoom (t : Table α) (kind : Kind) : Bool :=
  decide (min t.rows.length changeParkedMaxRows < changeParkedMaxRows) &&
    (kind != .lobby || decide (min t.lobbyRows changeParkedLobbyMaxRows < changeParkedLobbyMaxRows))

/-- `PARK_SEQ_BUMP_SQL`: the batch's token. -/
def bumpSeq (t : Table α) (now : Nat) : Table α :=
  { t with seq := some (match t.seq with
      | none => (now + 1000) * 2048
      | some n => n + 1) }

def update (t : Table α) (k : Key α) (f : Row α → Row α) : Table α :=
  { t with rows := t.rows.map fun r => if r.key = k then f r else r }

/-- `PARK_SQL`, and whether it returned a row. -/
def park (t : Table α) (now : Nat) (k : Key α) : Table α × Bool :=
  if t.holds k then (t.update k fun r => r.reparked (t.seq.getD 0) now, true)
  else if t.hasRoom k.kind then
    ({ t with rows := t.rows ++ [{ key := k, parkedAtMs := now, generation := t.seq.getD 0, nextAttemptAtMs := now }] }, true)
  else (t, false)

def parkAll (now : Nat) : List (Key α) → Table α → Table α × List Bool
  | [], t => (t, [])
  | k :: ks, t =>
    let parked := t.park now k
    let rest := parkAll now ks parked.1
    (rest.1, parked.2 :: rest.2)

def parkBatch (t : Table α) (now : Nat) (ks : List (Key α)) : Table α × List Bool := parkAll now ks (t.bumpSeq now)

/-- `UNPARK_SQL`. -/
def unpark (t : Table α) (k : Key α) (generation : Nat) : Table α :=
  { t with rows := t.rows.filter fun r => !(decide (r.key = k) && decide (r.generation = generation)) }

/-- `REFUSE_SQL`, and whether it returned a row. -/
def refuse (t : Table α) (now : Nat) (k : Key α) (generation : Nat) : Table α × Bool :=
  let hit := (t.row k).any fun r => decide (r.generation = generation) && !r.exhausted
  (if hit then t.update k fun r => r.refused now else t, hit)

end Table

end

section
variable {α : Type} [LinearOrder α]

/-- `PARKED_READ_SQL`: the eligible rows of one set, the most overdue first. -/
def Table.read (t : Table α) (kind : Kind) (now limit : Nat) : List (Row α) :=
  ((t.rows.filter fun r => r.due kind now).mergeSort fun a b =>
    decide (a.nextAttemptAtMs < b.nextAttemptAtMs) ||
      (decide (a.nextAttemptAtMs = b.nextAttemptAtMs) && decide (a.key.item ≤ b.key.item))).take limit

/-- The rows `SWEEP_EXHAUSTED_SQL` takes. -/
def Table.swept (t : Table α) (kind : Kind) (before limit : Nat) : List (Row α) :=
  ((t.rows.filter fun r => r.stale kind before).mergeSort fun a b => decide (a.nextAttemptAtMs ≤ b.nextAttemptAtMs)).take limit

def Table.sweep (t : Table α) (kind : Kind) (before limit : Nat) : Table α :=
  { t with rows := t.rows.filter fun r => !decide (r ∈ t.swept kind before limit) }

end

/-! ## What a statement does to the rows -/

section
variable {α : Type} {t : Table α}

def Table.Keyed (t : Table α) : Prop := (t.rows.map Row.key).Nodup

theorem Table.Keyed.unique (h : t.Keyed) {r r' : Row α} (hr : r ∈ t.rows) (hr' : r' ∈ t.rows) (hk : r.key = r'.key) : r = r' :=
  List.inj_on_of_nodup_map h hr hr' hk

theorem lobbyRows_eq (t : Table α) : t.lobbyRows = (t.rows.map Row.key).countP fun k => k.kind = .lobby := by
  simp [Table.lobbyRows, List.countP_map, Function.comp_def]

theorem mem_swept {r : Row α} {kind : Kind} {before limit : Nat} (h : r ∈ t.swept kind before limit) :
    r ∈ t.rows ∧ r.exhausted = true ∧ r.nextAttemptAtMs ≤ before := by
  have := List.mem_mergeSort.mp (List.mem_of_mem_take h)
  rw [List.mem_filter] at this
  simp only [Row.stale, Bool.and_eq_true, decide_eq_true_eq] at this
  exact ⟨this.1, this.2.1.2, this.2.2⟩

theorem swept_kind {r : Row α} {kind : Kind} {before limit : Nat} (h : r ∈ t.swept kind before limit) : r.key.kind = kind := by
  have := List.mem_mergeSort.mp (List.mem_of_mem_take h)
  rw [List.mem_filter] at this
  simp only [Row.stale, Bool.and_eq_true, decide_eq_true_eq] at this
  exact this.2.1.1

end

section
variable {α : Type} [DecidableEq α] {t : Table α} {k : Key α} {r : Row α} {now : Nat}

theorem row_eq_some (h : t.Keyed) : t.row k = some r ↔ r ∈ t.rows ∧ r.key = k := by
  constructor
  · intro hr
    exact ⟨List.mem_of_find?_eq_some hr, by simpa using List.find?_some hr⟩
  · rintro ⟨hr, hk⟩
    cases hf : t.row k with
    | none => exact absurd hk (by simpa using List.find?_eq_none.mp hf r hr)
    | some r' =>
      have hk' : r'.key = k := by simpa using List.find?_some hf
      rw [h.unique hr (List.mem_of_find?_eq_some hf) (hk.trans hk'.symm)]

theorem holds_eq_false : t.holds k = false ↔ ∀ r ∈ t.rows, r.key ≠ k := by
  simp [Table.holds, Table.row]

theorem holds_eq_true : t.holds k = true ↔ ∃ r ∈ t.rows, r.key = k := by
  simp [Table.holds, Table.row, List.find?_isSome]

theorem mem_update {f : Row α → Row α} : r ∈ (t.update k f).rows ↔ ∃ r₀ ∈ t.rows, r = if r₀.key = k then f r₀ else r₀ := by
  simp [Table.update, eq_comm]

theorem keys_update {f : Row α → Row α} (hf : ∀ r, (f r).key = r.key) : (t.update k f).rows.map Row.key = t.rows.map Row.key := by
  simp only [Table.update, List.map_map]
  apply List.map_congr_left
  intro r _
  by_cases h : r.key = k <;> simp [h, hf]

theorem park_cases (t : Table α) (now : Nat) (k : Key α) :
    (t.holds k = true ∧ t.park now k = (t.update k fun r => r.reparked (t.seq.getD 0) now, true)) ∨
    (t.holds k = false ∧ t.rows.length < changeParkedMaxRows ∧ (k.kind = .lobby → t.lobbyRows < changeParkedLobbyMaxRows) ∧
      t.park now k = ({ t with rows := t.rows ++ [{ key := k, parkedAtMs := now, generation := t.seq.getD 0, nextAttemptAtMs := now }] }, true)) ∨
    (t.holds k = false ∧ t.park now k = (t, false)) := by
  unfold Table.park
  cases hk : t.holds k with
  | true => exact .inl ⟨rfl, rfl⟩
  | false =>
    cases hroom : t.hasRoom k.kind with
    | false => exact .inr (.inr ⟨rfl, by simp⟩)
    | true =>
      refine .inr (.inl ⟨rfl, ?_, ?_, by simp⟩)
      · simp only [Table.hasRoom, Bool.and_eq_true, decide_eq_true_eq] at hroom
        omega
      · intro hl
        simp only [Table.hasRoom, Bool.and_eq_true, Bool.or_eq_true, decide_eq_true_eq, bne_iff_ne, hl] at hroom
        have := hroom.2.resolve_left fun h => h rfl
        omega

@[simp]
theorem park_seq (t : Table α) (now : Nat) (k : Key α) : (t.park now k).1.seq = t.seq := by
  unfold Table.park
  split
  · rfl
  · split <;> rfl

theorem parkAll_seq (now : Nat) (ks : List (Key α)) (t : Table α) : (Table.parkAll now ks t).1.seq = t.seq := by
  induction ks generalizing t with
  | nil => rfl
  | cons k ks ih => simp only [Table.parkAll]; rw [ih, park_seq]

omit [DecidableEq α] in
theorem bumpSeq_lt (t : Table α) (now : Nat) : t.seq.getD 0 < (t.bumpSeq now).seq.getD 0 := by
  cases hs : t.seq <;> simp [Table.bumpSeq, hs]

theorem park_keeps (now : Nat) (k : Key α) (hr : r ∈ t.rows) :
    ∃ r' ∈ (t.park now k).1.rows, r'.key = r.key ∧ (r'.generation = r.generation ∨ r'.generation = t.seq.getD 0) := by
  rcases park_cases t now k with ⟨-, hp⟩ | ⟨-, -, -, hp⟩ | ⟨-, hp⟩
  · rw [hp]
    refine ⟨_, mem_update.mpr ⟨r, hr, rfl⟩, ?_⟩
    by_cases hk : r.key = k
    · rw [if_pos hk]; exact ⟨rfl, .inr rfl⟩
    · rw [if_neg hk]; exact ⟨rfl, .inl rfl⟩
  · rw [hp]; exact ⟨r, List.mem_append_left _ hr, rfl, .inl rfl⟩
  · rw [hp]; exact ⟨r, hr, rfl, .inl rfl⟩

theorem park_comes (hr : r ∈ (t.park now k).1.rows) : (∃ r₀ ∈ t.rows, r₀.generation = r.generation) ∨ r.generation = t.seq.getD 0 := by
  rcases park_cases t now k with ⟨-, hp⟩ | ⟨-, -, -, hp⟩ | ⟨-, hp⟩
  · rw [hp] at hr
    obtain ⟨r₀, hr₀, rfl⟩ := mem_update.mp hr
    by_cases hk : r₀.key = k
    · rw [if_pos hk]; exact .inr rfl
    · rw [if_neg hk]; exact .inl ⟨r₀, hr₀, rfl⟩
  · rw [hp] at hr
    rcases List.mem_append.mp hr with hr | hr
    · exact .inl ⟨r, hr, rfl⟩
    · rw [List.mem_singleton.mp hr]; exact .inr rfl
  · rw [hp] at hr; exact .inl ⟨r, hr, rfl⟩

theorem park_landed (h : (t.park now k).2 = true) : ∃ r ∈ (t.park now k).1.rows, r.key = k ∧ r.generation = t.seq.getD 0 := by
  rcases park_cases t now k with ⟨hk, hp⟩ | ⟨-, -, -, hp⟩ | ⟨-, hp⟩
  · rw [hp]
    obtain ⟨r, hr, rfl⟩ := holds_eq_true.mp hk
    exact ⟨_, mem_update.mpr ⟨r, hr, rfl⟩, by rw [if_pos rfl]; exact ⟨rfl, rfl⟩⟩
  · rw [hp]; exact ⟨_, List.mem_append_right _ (List.mem_singleton.mpr rfl), rfl, rfl⟩
  · rw [hp] at h; cases h

theorem parkAll_keeps (now : Nat) (ks : List (Key α)) (hr : r ∈ t.rows) :
    ∃ r' ∈ (Table.parkAll now ks t).1.rows, r'.key = r.key ∧ (r'.generation = r.generation ∨ r'.generation = t.seq.getD 0) := by
  induction ks generalizing t r with
  | nil => exact ⟨r, hr, rfl, .inl rfl⟩
  | cons k ks ih =>
    obtain ⟨r₁, hr₁, hk₁, hg₁⟩ := park_keeps now k hr
    obtain ⟨r₂, hr₂, hk₂, hg₂⟩ := ih hr₁
    rw [park_seq] at hg₂
    refine ⟨r₂, hr₂, hk₂.trans hk₁, ?_⟩
    rcases hg₂ with hg₂ | hg₂
    · rw [hg₂]; exact hg₁
    · exact .inr hg₂

theorem parkAll_comes (ks : List (Key α)) (hr : r ∈ (Table.parkAll now ks t).1.rows) :
    (∃ r₀ ∈ t.rows, r₀.generation = r.generation) ∨ r.generation = t.seq.getD 0 := by
  induction ks generalizing t with
  | nil => exact .inl ⟨r, hr, rfl⟩
  | cons k ks ih =>
    rcases ih hr with ⟨r₁, hr₁, hg₁⟩ | hg
    · rw [← hg₁]; exact park_comes hr₁
    · rw [park_seq] at hg; exact .inr hg

theorem parkAll_landed (ks : List (Key α)) (n : Nat) (hk : ks[n]? = some k) (h : (Table.parkAll now ks t).2[n]? = some true) :
    ∃ r ∈ (Table.parkAll now ks t).1.rows, r.key = k ∧ r.generation = t.seq.getD 0 := by
  induction ks generalizing t n with
  | nil => cases hk
  | cons k' ks ih =>
    cases n with
    | zero =>
      simp only [List.getElem?_cons_zero, Option.some.injEq, Table.parkAll] at hk h
      subst hk
      obtain ⟨r₁, hr₁, rfl, hg₁⟩ := park_landed h
      obtain ⟨r₂, hr₂, hk₂, hg₂⟩ := parkAll_keeps now ks hr₁
      rw [park_seq] at hg₂
      exact ⟨r₂, hr₂, hk₂, hg₂.elim (fun hg => hg.trans hg₁) id⟩
    | succ n =>
      obtain ⟨r, hr, hk', hg⟩ := ih n hk h
      rw [park_seq] at hg
      exact ⟨r, hr, hk', hg⟩

theorem parkBatch_seq_lt (t : Table α) (now : Nat) (ks : List (Key α)) : t.seq.getD 0 < (t.parkBatch now ks).1.seq.getD 0 := by
  rw [Table.parkBatch, parkAll_seq]
  exact bumpSeq_lt t now

theorem mem_unpark {g : Nat} : r ∈ (t.unpark k g).rows ↔ r ∈ t.rows ∧ ¬(r.key = k ∧ r.generation = g) := by
  simp [Table.unpark, imp_iff_not_or]

end

section
variable {α : Type} [LinearOrder α] {t : Table α} {kind : Kind} {now limit : Nat} {r : Row α}

theorem mem_read (h : r ∈ t.read kind now limit) : r ∈ t.rows ∧ r.key.kind = kind ∧ r.exhausted = false := by
  have := List.mem_mergeSort.mp (List.mem_of_mem_take h)
  rw [List.mem_filter] at this
  simp only [Row.due, Bool.and_eq_true, decide_eq_true_eq, Bool.not_eq_true'] at this
  exact ⟨this.1, this.2.1.1, this.2.1.2⟩

theorem mem_sweep : r ∈ (t.sweep kind now limit).rows ↔ r ∈ t.rows ∧ r ∉ t.swept kind now limit := by
  simp [Table.sweep]

end

end OverlayEngine.ChangePark
