import OverlayEngine.Basis.Chunks

/-!
# The flush of a change set

The change sets reach the app layer through one loop: POSTs of at most eight
entries, at most sixteen of them, none started past the flush's wall. What a
POST did not deliver is noted back, within the isolate's bounded memory.
-/

namespace OverlayEngine.ChangeFlush

open Chunks (chunks)

def changeChunk : Nat := 8
def changeMaxChunks : Nat := 16
def retryMemoryMax : Nat := 1024
def deferMemoryMax : Nat := 4096

inductive Post where
  | past
  | accepted (dropped : Nat)
  | failed
  | unacknowledged
  deriving DecidableEq

structure Shipped (α : Type) where
  posts : Nat := 0
  delivered : List α := []
  refused : Nat := 0
  failed : List α := []
  deferred : List α := []

section
variable {α : Type}

/-- One turn of `ship_chunks`: the `i`th chunk. -/
def Shipped.chunk (s : Shipped α) (i : Nat) (chunk : List α) (answer : Post) : Shipped α :=
  if changeMaxChunks ≤ i then { s with deferred := s.deferred ++ chunk }
  else match answer with
    | .past => { s with deferred := s.deferred ++ chunk }
    | .accepted dropped =>
      { s with posts := s.posts + 1, refused := s.refused + dropped, delivered := s.delivered ++ chunk }
    | .failed => { s with posts := s.posts + 1, failed := s.failed ++ chunk }
    | .unacknowledged => { s with posts := s.posts + 1, deferred := s.deferred ++ chunk }

def shipFrom (answer : Nat → Post) : Nat → List (List α) → Shipped α → Shipped α
  | _, [], s => s
  | i, chunk :: rest, s => shipFrom answer (i + 1) rest (s.chunk i chunk (answer i))

/-- `ship_chunks`, `answer i` what becomes of the `i`th POST. -/
def shipChunks (answer : Nat → Post) (items : List α) : Shipped α := shipFrom answer 0 (chunks changeChunk items) {}

/-- The part of `ship_isolating` after the chunks: each row alone, `answer i` its POST. -/
def isolate (answer : Nat → Post) : Nat → Nat → List α → List α × List α
  | _, _, [] => ([], [])
  | i, posts, item :: rest =>
    if changeMaxChunks ≤ posts then ([], [])
    else match answer i with
      | .past => ([], [])
      | .accepted _ => let done := isolate answer (i + 1) (posts + 1) rest; (item :: done.1, done.2)
      | .failed | .unacknowledged => let done := isolate answer (i + 1) (posts + 1) rest; (done.1, item :: done.2)

/-- `ship_isolating`: the fresh rows in chunks, then each row a POST already refused, alone. -/
def shipIsolating (chunked alone : Nat → Post) (fresh retry : List α) : List α × List α :=
  let shipped := shipChunks chunked fresh
  let isolated := isolate alone 0 shipped.posts retry
  (shipped.delivered ++ isolated.1, shipped.failed ++ isolated.2)

end

/-! ## What a flush owes after its POSTs -/

structure NotedBack (α : Type) where
  retried : List α := []
  deferred : List α := []

structure Tally where
  undelivered : Nat
  retryFailed : Nat
  retried : Nat
  deferred : Nat
  resent : Nat

structure Settled (α : Type) where
  memory : NotedBack α
  back : List α
  letGo : List α
  tally : Tally

section
variable {α : Type} [DecidableEq α]

/-- The loop of `settle_failed_splitting`: the memory, the entries to note back, the count lost, those let go. -/
def settleEach : List α → List α → List α × List α × Nat × List α
  | retried, [] => (retried, [], 0, [])
  | retried, f :: rest =>
    if f ∈ retried then
      let done := settleEach (retried.erase f) rest
      (done.1, done.2.1, done.2.2.1 + 1, done.2.2.2)
    else if retryMemoryMax ≤ retried.length then
      let done := settleEach retried rest
      (done.1, done.2.1, done.2.2.1, f :: done.2.2.2)
    else
      let done := settleEach (f :: retried) rest
      (done.1, f :: done.2.1, done.2.2.1, done.2.2.2)

def settleFailedSplitting (retried delivered failed : List α) : List α × List α × Nat × List α :=
  settleEach (retried.filter fun x => x ∉ delivered) failed

/-- The deferred loop of `settle_splitting`: the deferred memory, the entries noted back, the new ones counted, those let go. -/
def settleDeferred (retried : List α) : List α → List α → List α × List α × Nat × List α
  | deferred, [] => (deferred, [], 0, [])
  | deferred, d :: rest =>
    if d ∈ retried ∨ d ∈ deferred then
      let done := settleDeferred retried deferred rest
      (done.1, d :: done.2.1, done.2.2.1, done.2.2.2)
    else if deferred.length < deferMemoryMax then
      let done := settleDeferred retried (d :: deferred) rest
      (done.1, d :: done.2.1, done.2.2.1 + 1, done.2.2.2)
    else
      let done := settleDeferred retried deferred rest
      (done.1, done.2.1, done.2.2.1, d :: done.2.2.2)

def settleSplitting (m : NotedBack α) (s : Shipped α) : Settled α :=
  let posted := s.delivered ++ s.failed
  let resent := posted.countP fun x => x ∈ m.deferred ∨ x ∈ m.retried
  let deferred := m.deferred.filter fun x => x ∉ posted
  let retryFailed := s.failed.countP fun f => f ∈ m.retried
  let failed := settleFailedSplitting m.retried s.delivered s.failed
  let late := settleDeferred failed.1 deferred s.deferred
  let letGo := failed.2.2.2 ++ late.2.2.2
  { memory := ⟨failed.1, late.1⟩
    back := failed.2.1 ++ late.2.1
    letGo := letGo
    tally :=
      { undelivered := s.refused + failed.2.2.1 + letGo.length
        retryFailed := retryFailed
        retried := failed.2.1.length
        deferred := late.2.2.1
        resent := resent } }

/-- `settle_noting`: with the entries no earlier flush had noted back, those let go first. -/
def settleNoting (m : NotedBack α) (s : Shipped α) : Settled α × List α :=
  let held := (s.failed ++ s.deferred).filter fun e => e ∈ m.retried ∨ e ∈ m.deferred
  let settled := settleSplitting m s
  (settled, settled.letGo ++ settled.back.filter fun e => e ∉ held)

/-! ## Where a settle leaves an entry -/

variable {m : NotedBack α} {s : Shipped α} {x : α}

theorem mem_settleEach (retried : List α) {failed : List α} (h : x ∈ failed) :
    x ∈ retried ∨ x ∈ (settleEach retried failed).2.1 ∨ x ∈ (settleEach retried failed).2.2.2 := by
  induction failed generalizing retried with
  | nil => cases h
  | cons f rest ih =>
    rw [settleEach]
    split
    · rename_i hf
      rcases List.mem_cons.mp h with rfl | h
      · exact .inl hf
      · exact (ih _ h).imp_left List.mem_of_mem_erase
    · split
      · rcases List.mem_cons.mp h with rfl | h
        · exact .inr (.inr List.mem_cons_self)
        · exact (ih _ h).imp_right fun h => h.imp_right (List.mem_cons_of_mem f)
      · rcases List.mem_cons.mp h with rfl | h
        · exact .inr (.inl List.mem_cons_self)
        · rcases ih (f :: retried) h with hr | hb | hl
          · rcases List.mem_cons.mp hr with rfl | hr
            · exact .inr (.inl List.mem_cons_self)
            · exact .inl hr
          · exact .inr (.inl (List.mem_cons_of_mem f hb))
          · exact .inr (.inr hl)

theorem mem_settleEach_retried {retried failed : List α} (h : x ∈ (settleEach retried failed).1) :
    x ∈ retried ∨ x ∈ (settleEach retried failed).2.1 := by
  induction failed generalizing retried with
  | nil => exact .inl h
  | cons f rest ih =>
    rw [settleEach] at h ⊢
    split
    · rename_i hf
      rw [if_pos hf] at h
      exact (ih h).imp_left List.mem_of_mem_erase
    · rename_i hf
      rw [if_neg hf] at h
      split
      · rename_i hfull
        rw [if_pos hfull] at h
        exact ih h
      · rename_i hfull
        rw [if_neg hfull] at h
        rcases ih h with hr | hb
        · rcases List.mem_cons.mp hr with rfl | hr
          · exact .inr List.mem_cons_self
          · exact .inl hr
        · exact .inr (List.mem_cons_of_mem f hb)

theorem mem_settleDeferred (retried deferred : List α) {late : List α} (h : x ∈ late) :
    x ∈ (settleDeferred retried deferred late).2.1 ∨ x ∈ (settleDeferred retried deferred late).2.2.2 := by
  induction late generalizing deferred with
  | nil => cases h
  | cons d rest ih =>
    rw [settleDeferred]
    split
    · rcases List.mem_cons.mp h with rfl | h
      · exact .inl List.mem_cons_self
      · exact (ih _ h).imp_left (List.mem_cons_of_mem d)
    · split
      · rcases List.mem_cons.mp h with rfl | h
        · exact .inl List.mem_cons_self
        · exact (ih _ h).imp_left (List.mem_cons_of_mem d)
      · rcases List.mem_cons.mp h with rfl | h
        · exact .inr List.mem_cons_self
        · exact (ih _ h).imp_right (List.mem_cons_of_mem d)

theorem mem_settleDeferred_deferred {retried deferred late : List α} (h : x ∈ (settleDeferred retried deferred late).1) :
    x ∈ deferred ∨ x ∈ (settleDeferred retried deferred late).2.1 := by
  induction late generalizing deferred with
  | nil => exact .inl h
  | cons d rest ih =>
    rw [settleDeferred] at h ⊢
    split
    · rename_i hd
      rw [if_pos hd] at h
      exact (ih h).imp_right (List.mem_cons_of_mem d)
    · rename_i hd
      rw [if_neg hd] at h
      split
      · rename_i hroom
        rw [if_pos hroom] at h
        rcases ih h with hr | hb
        · rcases List.mem_cons.mp hr with rfl | hr
          · exact .inr List.mem_cons_self
          · exact .inl hr
        · exact .inr (List.mem_cons_of_mem d hb)
      · rename_i hroom
        rw [if_neg hroom] at h
        exact ih h

def NotedBack.holds (m : NotedBack α) (x : α) : Prop := x ∈ m.retried ∨ x ∈ m.deferred

theorem settleNoting_back (h : x ∈ (settleNoting m s).1.back) : m.holds x ∨ x ∈ (settleNoting m s).2 := by
  by_cases hheld : x ∈ m.retried ∨ x ∈ m.deferred
  · exact .inl hheld
  · refine .inr (List.mem_append_right _ (List.mem_filter.mpr ⟨h, ?_⟩))
    simp [List.mem_filter, hheld]

theorem settleNoting_failed (h : x ∈ s.failed) :
    x ∈ m.retried ∨ x ∈ (settleNoting m s).1.back ∨ x ∈ (settleNoting m s).2 := by
  rcases mem_settleEach (m.retried.filter fun x => x ∉ s.delivered) h with hr | hb | hl
  · exact .inl (List.mem_of_mem_filter hr)
  · exact .inr (.inl (List.mem_append_left _ hb))
  · exact .inr (.inr (List.mem_append_left _ (List.mem_append_left _ hl)))

theorem settleNoting_deferred (h : x ∈ s.deferred) : x ∈ (settleNoting m s).1.back ∨ x ∈ (settleNoting m s).2 := by
  rcases mem_settleDeferred (settleFailedSplitting m.retried s.delivered s.failed).1
    (m.deferred.filter fun x => x ∉ s.delivered ++ s.failed) h with hb | hl
  · exact .inl (List.mem_append_right _ hb)
  · exact .inr (List.mem_append_left _ (List.mem_append_right _ hl))

theorem settleNoting_memory (h : (settleNoting m s).1.memory.holds x) : m.holds x ∨ x ∈ (settleNoting m s).2 := by
  rcases h with hr | hd
  · rcases mem_settleEach_retried hr with hr | hb
    · exact .inl (.inl (List.mem_of_mem_filter hr))
    · exact settleNoting_back (List.mem_append_left _ hb)
  · rcases mem_settleDeferred_deferred hd with hd | hb
    · exact .inl (.inr (List.mem_of_mem_filter hd))
    · exact settleNoting_back (List.mem_append_right _ hb)

end

end OverlayEngine.ChangeFlush
