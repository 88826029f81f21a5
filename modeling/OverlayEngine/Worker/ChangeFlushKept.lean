import Mathlib.Data.List.Perm.Basic
import Mathlib.Data.List.Nodup
import OverlayEngine.Worker.ChangeFlush

/-!
# The account of the notes back

Every flush of an isolate ships a duplicate-free list and settles it against the
isolate's memory. Over any sequence of flushes the two sets of the memory stay
apart and bounded, and the three totals differ by what the memory holds.
-/

namespace OverlayEngine.ChangeFlush

open Chunks (chunks flatten_chunks length_le_of_mem_chunks)

/-! ## What the loop ships -/

section
variable {α : Type}

/-- The bodies of the POSTs started, the first chunk the `i`th. -/
def bodiesFrom (answer : Nat → Post) : Nat → List (List α) → List (List α)
  | _, [] => []
  | i, chunk :: rest =>
    if i < changeMaxChunks ∧ answer i ≠ .past then chunk :: bodiesFrom answer (i + 1) rest else bodiesFrom answer (i + 1) rest

theorem bodiesFrom_sublist (answer : Nat → Post) (i : Nat) (chunks : List (List α)) : (bodiesFrom answer i chunks).Sublist chunks := by
  induction chunks generalizing i with
  | nil => exact List.Sublist.refl []
  | cons chunk rest ih =>
    rw [bodiesFrom]
    split
    · exact (ih (i + 1)).cons_cons chunk
    · exact (ih (i + 1)).cons chunk

theorem length_bodiesFrom_le (answer : Nat → Post) (i : Nat) (chunks : List (List α)) :
    (bodiesFrom answer i chunks).length ≤ changeMaxChunks - i := by
  induction chunks generalizing i with
  | nil => exact Nat.zero_le _
  | cons chunk rest ih =>
    have hrest := ih (i + 1)
    rw [bodiesFrom]
    split
    · rw [List.length_cons]
      omega
    · omega

theorem posts_chunk (s : Shipped α) (i : Nat) (chunk : List α) (answer : Post) :
    (s.chunk i chunk answer).posts = s.posts + if i < changeMaxChunks ∧ answer ≠ .past then 1 else 0 := by
  simp only [Shipped.chunk]
  by_cases hmax : changeMaxChunks ≤ i
  · simp [hmax, Nat.not_lt.mpr hmax]
  · cases answer <;> simp [hmax, Nat.lt_of_not_le hmax]

theorem posts_shipFrom (answer : Nat → Post) (i : Nat) (chunks : List (List α)) (s : Shipped α) :
    (shipFrom answer i chunks s).posts = s.posts + (bodiesFrom answer i chunks).length := by
  induction chunks generalizing i s with
  | nil => rfl
  | cons chunk rest ih =>
    rw [shipFrom, ih, posts_chunk, bodiesFrom]
    split
    · rw [List.length_cons]
      omega
    · rfl

structure Parts (items : List α) (s t : Shipped α) (d f l : List α) : Prop where
  delivered : t.delivered = s.delivered ++ d
  failed : t.failed = s.failed ++ f
  deferred : t.deferred = s.deferred ++ l
  ordered : d.Sublist items ∧ f.Sublist items ∧ l.Sublist items
  parted : (d ++ f ++ l).Perm items

theorem Shipped.parts_chunk (s : Shipped α) (i : Nat) (chunk : List α) (answer : Post) :
    ∃ d f l, Parts chunk s (s.chunk i chunk answer) d f l := by
  have hnil : ([] : List α).Sublist chunk := List.nil_sublist chunk
  have hself : chunk.Sublist chunk := List.Sublist.refl chunk
  simp only [Shipped.chunk]
  by_cases hmax : changeMaxChunks ≤ i
  · rw [if_pos hmax]
    exact ⟨[], [], chunk, by simp, by simp, rfl, ⟨hnil, hnil, hself⟩, by simp⟩
  · rw [if_neg hmax]
    cases answer with
    | past => exact ⟨[], [], chunk, by simp, by simp, rfl, ⟨hnil, hnil, hself⟩, by simp⟩
    | accepted dropped => exact ⟨chunk, [], [], rfl, by simp, by simp, ⟨hself, hnil, hnil⟩, by simp⟩
    | failed => exact ⟨[], chunk, [], by simp, rfl, by simp, ⟨hnil, hself, hnil⟩, by simp⟩
    | unacknowledged => exact ⟨[], [], chunk, by simp, by simp, rfl, ⟨hnil, hnil, hself⟩, by simp⟩

theorem Parts.append {items rest d f l d' f' l' : List α} {s t u : Shipped α} (h : Parts items s t d f l)
    (h' : Parts rest t u d' f' l') : Parts (items ++ rest) s u (d ++ d') (f ++ f') (l ++ l') where
  delivered := by rw [h'.delivered, h.delivered, List.append_assoc]
  failed := by rw [h'.failed, h.failed, List.append_assoc]
  deferred := by rw [h'.deferred, h.deferred, List.append_assoc]
  ordered := ⟨h.ordered.1.append h'.ordered.1, h.ordered.2.1.append h'.ordered.2.1, h.ordered.2.2.append h'.ordered.2.2⟩
  parted := by
    classical
    refine List.Perm.trans (List.perm_iff_count.mpr fun x => ?_) (h.parted.append h'.parted)
    simp only [List.count_append]
    omega

theorem parts_shipFrom (answer : Nat → Post) (i : Nat) (chunks : List (List α)) (s : Shipped α) :
    ∃ d f l, Parts chunks.flatten s (shipFrom answer i chunks s) d f l := by
  induction chunks generalizing i s with
  | nil => exact ⟨[], [], [], by simp [shipFrom], by simp [shipFrom], by simp [shipFrom], by simp, by simp⟩
  | cons chunk rest ih =>
    obtain ⟨d, f, l, hchunk⟩ := s.parts_chunk i chunk (answer i)
    obtain ⟨d', f', l', hrest⟩ := ih (i + 1) (s.chunk i chunk (answer i))
    exact ⟨d ++ d', f ++ f', l ++ l', hchunk.append hrest⟩

variable (answer : Nat → Post) (items : List α)

theorem shipChunks_ordered : (shipChunks answer items).delivered.Sublist items ∧ (shipChunks answer items).failed.Sublist items ∧
    (shipChunks answer items).deferred.Sublist items := by
  obtain ⟨d, f, l, h⟩ := parts_shipFrom answer 0 (chunks changeChunk items) {}
  have hordered := h.ordered
  rw [flatten_chunks (by decide)] at hordered
  rw [shipChunks, h.delivered, h.failed, h.deferred]
  simpa using hordered

theorem shipChunks_parted :
    ((shipChunks answer items).delivered ++ (shipChunks answer items).failed ++ (shipChunks answer items).deferred).Perm items := by
  obtain ⟨d, f, l, h⟩ := parts_shipFrom answer 0 (chunks changeChunk items) {}
  have hparted := h.parted
  rw [flatten_chunks (by decide)] at hparted
  rw [shipChunks, h.delivered, h.failed, h.deferred]
  simpa using hparted

end

/-! ## What a settle does to the two sets -/

section
variable {α : Type} [DecidableEq α]

structure Retries (retried failed : List α) (r : List α × List α × Nat × List α) : Prop where
  nodup : r.1.Nodup
  bounded : r.1.length ≤ retryMemoryMax
  balance : r.1.length + r.2.2.1 = retried.length + r.2.1.length
  lost : r.2.2.1 = (failed.filter (· ∈ retried)).length
  parted : (r.2.1 ++ failed.filter (· ∈ retried) ++ r.2.2.2).Perm failed
  held : ∀ x, x ∈ r.1 ↔ (x ∈ retried ∧ x ∉ failed) ∨ x ∈ r.2.1
  fresh : ∀ x ∈ r.2.1, x ∉ retried

theorem settleEach_retries {retried failed : List α} (hr : retried.Nodup) (hmax : retried.length ≤ retryMemoryMax) (hf : failed.Nodup) :
    Retries retried failed (settleEach retried failed) := by
  induction failed generalizing retried with
  | nil => exact ⟨hr, hmax, rfl, rfl, .refl _, by simp [settleEach], by simp [settleEach]⟩
  | cons f rest ih =>
    obtain ⟨hnot, hrest⟩ := List.nodup_cons.mp hf
    rw [settleEach]
    by_cases hin : f ∈ retried
    · rw [if_pos hin]
      have hlength : (retried.erase f).length + 1 = retried.length := by
        rw [List.length_erase_of_mem hin]
        have := List.length_pos_of_mem hin
        omega
      have h := ih (hr.erase f) (by omega) hrest
      have hsame : rest.filter (· ∈ retried.erase f) = rest.filter (· ∈ retried) := List.filter_congr fun x hx => by
        have hne : x ≠ f := fun heq => hnot (heq ▸ hx)
        simp [List.mem_erase_of_ne hne]
      have hlost := h.lost
      have hparted := h.parted
      rw [hsame] at hlost hparted
      refine ⟨h.nodup, h.bounded, ?_, ?_, ?_, fun x => ?_, fun x hx hold => ?_⟩
      · have := h.balance
        simp only
        omega
      · simp [hin, hlost]
      · simp only [List.filter_cons, hin, decide_true, if_true]
        refine List.Perm.trans (List.perm_iff_count.mpr fun x => ?_) (hparted.cons f)
        simp only [List.count_append, List.count_cons]
        omega
      · rw [h.held x, hr.mem_erase_iff]
        simp only [List.mem_cons, not_or]
        tauto
      · by_cases hxf : x = f
        · subst hxf
          have hrest : x ∈ rest := hparted.subset (List.mem_append_left _ (List.mem_append_left _ hx))
          exact hnot hrest
        · exact h.fresh x hx ((List.mem_erase_of_ne hxf).mpr hold)
    · rw [if_neg hin]
      by_cases hfull : retryMemoryMax ≤ retried.length
      · rw [if_pos hfull]
        have h := ih hr hmax hrest
        refine ⟨h.nodup, h.bounded, h.balance, ?_, ?_, fun x => ?_, h.fresh⟩
        · simp [hin, h.lost]
        · simp only [List.filter_cons, hin, decide_false, Bool.false_eq_true, if_false]
          exact List.perm_middle.trans (h.parted.cons f)
        · rw [h.held x]
          have hne : x ∈ retried → x ≠ f := fun hx heq => hin (heq ▸ hx)
          simp only [List.mem_cons, not_or]
          tauto
      · rw [if_neg hfull]
        have h := ih (List.nodup_cons.mpr ⟨hin, hr⟩) (by rw [List.length_cons]; omega) hrest
        have hsame : rest.filter (· ∈ f :: retried) = rest.filter (· ∈ retried) := List.filter_congr fun x hx => by
          have hne : x ≠ f := fun heq => hnot (heq ▸ hx)
          simp [hne]
        have hlost := h.lost
        have hparted := h.parted
        rw [hsame] at hlost hparted
        refine ⟨h.nodup, h.bounded, ?_, ?_, ?_, fun x => ?_, fun x hx hold => ?_⟩
        · have := h.balance
          simp only [List.length_cons] at this ⊢
          omega
        · simp [hin, hlost]
        · simp only [List.filter_cons, hin, decide_false, Bool.false_eq_true, if_false]
          exact hparted.cons f
        · rw [h.held x]
          by_cases hxf : x = f
          · subst hxf
            simp [hnot]
          · simp [hxf]
        · rcases List.mem_cons.mp hx with rfl | hx
          · exact hin hold
          · exact h.fresh x hx (List.mem_cons_of_mem f hold)

structure Deferrals (retried deferred late : List α) (r : List α × List α × Nat × List α) : Prop where
  nodup : r.1.Nodup
  bounded : r.1.length ≤ deferMemoryMax
  balance : r.1.length = deferred.length + r.2.2.1
  parted : (r.2.1 ++ r.2.2.2).Perm late
  held : ∀ x ∈ r.1, x ∈ deferred ∨ x ∉ retried

theorem settleDeferred_deferrals (retried : List α) {deferred : List α} (late : List α) (hd : deferred.Nodup)
    (hmax : deferred.length ≤ deferMemoryMax) : Deferrals retried deferred late (settleDeferred retried deferred late) := by
  induction late generalizing deferred with
  | nil => exact ⟨hd, hmax, rfl, .refl _, fun x hx => .inl hx⟩
  | cons d rest ih =>
    rw [settleDeferred]
    by_cases hin : d ∈ retried ∨ d ∈ deferred
    · rw [if_pos hin]
      have h := ih hd hmax
      exact ⟨h.nodup, h.bounded, h.balance, h.parted.cons d, h.held⟩
    · rw [if_neg hin]
      obtain ⟨hretried, hdeferred⟩ := not_or.mp hin
      by_cases hroom : deferred.length < deferMemoryMax
      · rw [if_pos hroom]
        have h := ih (List.nodup_cons.mpr ⟨hdeferred, hd⟩) (by rw [List.length_cons]; omega)
        refine ⟨h.nodup, h.bounded, ?_, h.parted.cons d, fun x hx => ?_⟩
        · have := h.balance
          simp only [List.length_cons] at this ⊢
          omega
        · rcases h.held x hx with hx | hx
          · rcases List.mem_cons.mp hx with rfl | hx
            · exact .inr hretried
            · exact .inl hx
          · exact .inr hx
      · rw [if_neg hroom]
        have h := ih hd hmax
        exact ⟨h.nodup, h.bounded, h.balance, List.perm_middle.trans (h.parted.cons d), h.held⟩

/-! ## One flush against the memory -/

structure Flush (α : Type) where
  items : List α
  answer : Nat → Post

structure NotedBack.Kept (m : NotedBack α) : Prop where
  retried : m.retried.Nodup
  deferred : m.deferred.Nodup
  apart : ∀ x ∈ m.retried, x ∉ m.deferred
  retriedMax : m.retried.length ≤ retryMemoryMax
  deferredMax : m.deferred.length ≤ deferMemoryMax

namespace Flush

variable (f : Flush α) (m : NotedBack α)

def shipped : Shipped α := shipChunks f.answer f.items

def bodies : List (List α) := bodiesFrom f.answer 0 (chunks changeChunk f.items)

def settled : Settled α := (settleNoting m f.shipped).1

def again : List α := (settleFailedSplitting m.retried f.shipped.delivered f.shipped.failed).2.1

def lost : List α := f.shipped.failed.filter (· ∈ m.retried)

def undelivered : List α := f.lost m ++ (f.settled m).letGo

structure Accounted : Prop where
  shipped : (f.shipped.delivered ++ f.shipped.failed ++ f.shipped.deferred).Perm f.items
  ordered : f.shipped.delivered.Sublist f.items ∧ f.shipped.failed.Sublist f.items ∧ f.shipped.deferred.Sublist f.items
  posts : f.shipped.posts = f.bodies.length ∧ f.bodies.length ≤ changeMaxChunks ∧ ∀ body ∈ f.bodies, body.length ≤ changeChunk
  settled : (f.shipped.delivered ++ (f.settled m).back ++ f.undelivered m).Perm f.items
  undelivered : (f.settled m).tally.undelivered = f.shipped.refused + (f.undelivered m).length

variable {f m}

section
variable (hitems : f.items.Nodup)
include hitems

omit [DecidableEq α] in
theorem nodup_shipped : (f.shipped.delivered ++ f.shipped.failed ++ f.shipped.deferred).Nodup :=
  (shipChunks_parted f.answer f.items).nodup_iff.mpr hitems

omit [DecidableEq α] in
theorem nodup_posted : (f.shipped.delivered ++ f.shipped.failed).Nodup := (List.nodup_append.mp (nodup_shipped hitems)).1

variable {x : α}

omit [DecidableEq α] in
theorem not_delivered (h : x ∈ f.shipped.failed) : x ∉ f.shipped.delivered := fun hx =>
  (List.nodup_append.mp (nodup_posted hitems)).2.2 x hx x h rfl

theorem lost_eq : (f.shipped.failed.filter (· ∈ m.retried.filter fun x => x ∉ f.shipped.delivered)) = f.lost m :=
  List.filter_congr fun x hx => by simp [not_delivered hitems hx]

theorem retries (hm : m.Kept) : Retries (m.retried.filter fun x => x ∉ f.shipped.delivered) f.shipped.failed
    (settleFailedSplitting m.retried f.shipped.delivered f.shipped.failed) := by
  have hposted := List.nodup_append.mp (nodup_posted hitems)
  refine settleEach_retries (hm.retried.filter _) ?_ hposted.2.1
  exact Nat.le_trans (List.length_filter_le _ _) hm.retriedMax

omit hitems in
theorem deferrals (f : Flush α) (hm : m.Kept) : Deferrals (f.settled m).memory.retried (m.deferred.filter fun x => x ∉ f.shipped.delivered ++ f.shipped.failed)
    f.shipped.deferred (settleDeferred (f.settled m).memory.retried (m.deferred.filter fun x => x ∉ f.shipped.delivered ++ f.shipped.failed)
      f.shipped.deferred) := by
  refine settleDeferred_deferrals _ _ (hm.deferred.filter _) ?_
  exact Nat.le_trans (List.length_filter_le _ _) hm.deferredMax

theorem mem_retried (hm : m.Kept) : x ∈ (f.settled m).memory.retried ↔
    (x ∈ m.retried ∧ x ∉ f.shipped.delivered ∧ x ∉ f.shipped.failed) ∨ x ∈ f.again m := by
  have h := (retries hitems hm).held x
  simp only [List.mem_filter, decide_eq_true_eq, and_assoc] at h
  exact h

theorem again_failed (hm : m.Kept) (h : x ∈ f.again m) : x ∈ f.shipped.failed :=
  (retries hitems hm).parted.subset (List.mem_append_left _ (List.mem_append_left _ h))

theorem not_retried_of_again (hm : m.Kept) (h : x ∈ f.again m) : x ∉ m.retried := by
  intro hx
  refine (retries hitems hm).fresh x h (List.mem_filter.mpr ⟨hx, ?_⟩)
  simpa using not_delivered hitems (again_failed hitems hm h)

theorem kept_settled (hm : m.Kept) : (f.settled m).memory.Kept where
  retried := (retries hitems hm).nodup
  deferred := (deferrals f hm).nodup
  retriedMax := (retries hitems hm).bounded
  deferredMax := (deferrals f hm).bounded
  apart := by
    intro x hx hd
    rcases (deferrals f hm).held x hd with hold | hnot
    · obtain ⟨hdeferred, hposted⟩ := List.mem_filter.mp hold
      simp only [List.mem_append, decide_eq_true_eq, not_or] at hposted
      rcases (mem_retried hitems hm).mp hx with ⟨hretried, -, -⟩ | hagain
      · exact hm.apart x hretried hdeferred
      · exact hposted.2 (again_failed hitems hm hagain)
    · exact hnot hx

end

end Flush

variable {s t : List α}

theorem length_filter_mem_comm (hs : s.Nodup) (ht : t.Nodup) : (s.filter (· ∈ t)).length = (t.filter (· ∈ s)).length := by
  refine ((List.perm_ext_iff_of_nodup (hs.filter _) (ht.filter _)).mpr fun x => ?_).length_eq
  simp only [List.mem_filter, decide_eq_true_eq]
  exact and_comm

theorem length_filter_not_mem (hs : s.Nodup) (ht : t.Nodup) :
    (s.filter fun x => x ∉ t).length + (t.filter (· ∈ s)).length = s.length := by
  have hsplit := List.length_eq_length_filter_add (l := s) (fun x => decide (x ∈ t))
  rw [length_filter_mem_comm hs ht] at hsplit
  have hnot : (s.filter fun x => x ∉ t) = s.filter fun x => !decide (x ∈ t) := List.filter_congr fun x _ => by simp
  rw [hnot]
  omega

theorem countP_or (happart : ∀ x ∈ t, x ∉ s) (l : List α) :
    (l.countP fun x => x ∈ s ∨ x ∈ t) = (l.filter (· ∈ s)).length + (l.filter (· ∈ t)).length := by
  induction l with
  | nil => rfl
  | cons x rest ih =>
    rw [List.countP_cons, List.filter_cons, List.filter_cons, ih]
    by_cases hs : x ∈ s
    · have ht : x ∉ t := fun h => happart x h hs
      simp [hs, ht]
      omega
    · by_cases ht : x ∈ t
      · simp [hs, ht]
        omega
      · simp [hs, ht]

namespace Flush

variable {f : Flush α} {m : NotedBack α}

theorem balance_settled (hitems : f.items.Nodup) (hm : m.Kept) :
    (f.settled m).memory.retried.length + (f.settled m).memory.deferred.length + (f.settled m).tally.resent =
      m.retried.length + m.deferred.length + (f.settled m).tally.retried + (f.settled m).tally.deferred := by
  have hposted := nodup_posted hitems
  have hparts := List.nodup_append.mp hposted
  have hretried := (retries hitems hm).balance
  have hlost := (retries hitems hm).lost
  rw [lost_eq hitems] at hlost
  have hdeferred := (deferrals f hm).balance
  have hfromRetried := length_filter_not_mem hm.retried hparts.1
  have hfromDeferred := length_filter_not_mem hm.deferred hposted
  have hresent : (f.settled m).tally.resent = ((f.shipped.delivered ++ f.shipped.failed).filter (· ∈ m.deferred)).length +
      ((f.shipped.delivered.filter (· ∈ m.retried)).length + (f.lost m).length) := by
    have h := countP_or (fun x hx => hm.apart x hx) (f.shipped.delivered ++ f.shipped.failed)
    have hboth : ((f.shipped.delivered ++ f.shipped.failed).filter (· ∈ m.retried)).length =
        (f.shipped.delivered.filter (· ∈ m.retried)).length + (f.lost m).length := by
      rw [List.filter_append, List.length_append]
      rfl
    exact h.trans (congrArg _ hboth)
  have hmemory : (f.settled m).memory.retried.length = (settleFailedSplitting m.retried f.shipped.delivered f.shipped.failed).1.length := rfl
  have hagain : (f.settled m).tally.retried = (settleFailedSplitting m.retried f.shipped.delivered f.shipped.failed).2.1.length := rfl
  have hlate : (f.settled m).memory.deferred.length = _ := hdeferred
  have hnew : (f.settled m).tally.deferred = (settleDeferred (f.settled m).memory.retried
    (m.deferred.filter fun x => x ∉ f.shipped.delivered ++ f.shipped.failed) f.shipped.deferred).2.2.1 := rfl
  omega

theorem accounted (hitems : f.items.Nodup) (hm : m.Kept) : f.Accounted m where
  shipped := shipChunks_parted f.answer f.items
  ordered := shipChunks_ordered f.answer f.items
  posts := by
    refine ⟨?_, length_bodiesFrom_le f.answer 0 _, fun body hbody => ?_⟩
    · have h := posts_shipFrom f.answer 0 (chunks changeChunk f.items) {}
      rw [Nat.zero_add] at h
      exact h
    · exact length_le_of_mem_chunks ((bodiesFrom_sublist f.answer 0 _).subset hbody)
  settled := by
    have hfailed := (retries hitems hm).parted
    rw [lost_eq hitems] at hfailed
    have hlate := (deferrals f hm).parted
    refine List.Perm.trans ?_ (shipChunks_parted f.answer f.items)
    refine List.Perm.trans (List.perm_iff_count.mpr fun x => ?_) ((hfailed.append_left f.shipped.delivered).append hlate)
    have hback : (f.settled m).back = (settleFailedSplitting m.retried f.shipped.delivered f.shipped.failed).2.1 ++ (settleDeferred
      (f.settled m).memory.retried (m.deferred.filter fun x => x ∉ f.shipped.delivered ++ f.shipped.failed) f.shipped.deferred).2.1 := rfl
    have hletGo : (f.settled m).letGo = (settleFailedSplitting m.retried f.shipped.delivered f.shipped.failed).2.2.2 ++ (settleDeferred
      (f.settled m).memory.retried (m.deferred.filter fun x => x ∉ f.shipped.delivered ++ f.shipped.failed) f.shipped.deferred).2.2.2 := rfl
    simp only [Flush.undelivered, hback, hletGo, List.count_append]
    omega
  undelivered := by
    have hlost := (retries hitems hm).lost
    rw [lost_eq hitems] at hlost
    rw [Flush.undelivered, List.length_append, ← hlost, ← Nat.add_assoc]
    rfl

end Flush

/-! ## Every sequence of flushes -/

def memoryAfter (m : NotedBack α) (flushes : List (Flush α)) : NotedBack α := flushes.foldl (fun m f => (f.settled m).memory) m

def total (counter : Tally → Nat) : NotedBack α → List (Flush α) → Nat
  | _, [] => 0
  | m, f :: rest => counter (f.settled m).tally + total counter (f.settled m).memory rest

variable {flushes : List (Flush α)} {m : NotedBack α}

theorem kept_memoryAfter (hm : m.Kept) (hitems : ∀ f ∈ flushes, f.items.Nodup) :
    (memoryAfter m flushes).Kept := by
  induction flushes generalizing m with
  | nil => exact hm
  | cons f rest ih => exact ih (Flush.kept_settled (hitems f List.mem_cons_self) hm) fun g hg => hitems g (List.mem_cons_of_mem f hg)

theorem balance_memoryAfter (hm : m.Kept) (hitems : ∀ f ∈ flushes, f.items.Nodup) :
    m.retried.length + m.deferred.length + total Tally.retried m flushes + total Tally.deferred m flushes =
      total Tally.resent m flushes + (memoryAfter m flushes).retried.length + (memoryAfter m flushes).deferred.length := by
  induction flushes generalizing m with
  | nil => simp [total, memoryAfter]
  | cons f rest ih =>
    have hf := hitems f List.mem_cons_self
    have hone := Flush.balance_settled hf hm
    have hrest := ih (Flush.kept_settled hf hm) fun g hg => hitems g (List.mem_cons_of_mem f hg)
    simp only [total, memoryAfter, List.foldl_cons] at hrest ⊢
    omega

theorem retried_apart {x : α} (hm : m.Kept) (hx : x ∈ m.retried) {g : Flush α}
    (hitems : ∀ f ∈ flushes, f.items.Nodup) (hg : g.items.Nodup) (hagain : x ∈ g.again (memoryAfter m flushes)) :
    ∃ first f rest, flushes = first ++ f :: rest ∧ (x ∈ f.shipped.delivered ∨ x ∈ f.lost (memoryAfter m first)) := by
  induction flushes generalizing m with
  | nil => exact absurd hx (Flush.not_retried_of_again hg hm hagain)
  | cons f rest ih =>
    have hf := hitems f List.mem_cons_self
    by_cases hleaves : x ∈ f.shipped.delivered ∨ x ∈ f.shipped.failed
    · refine ⟨[], f, rest, rfl, hleaves.imp_right fun hfailed => ?_⟩
      exact List.mem_filter.mpr ⟨hfailed, decide_eq_true hx⟩
    · obtain ⟨hdelivered, hfailed⟩ := not_or.mp hleaves
      have hstays : x ∈ (f.settled m).memory.retried := (Flush.mem_retried hf hm).mpr (.inl ⟨hx, hdelivered, hfailed⟩)
      obtain ⟨first, e, tail, hsplit, hout⟩ :=
        ih (Flush.kept_settled hf hm) hstays (fun h hh => hitems h (List.mem_cons_of_mem f hh)) hagain
      exact ⟨f :: first, e, tail, by rw [hsplit, List.cons_append], hout⟩

omit [DecidableEq α] in
theorem kept_empty : ({} : NotedBack α).Kept := ⟨List.nodup_nil, List.nodup_nil, nofun, Nat.zero_le _, Nat.zero_le _⟩

/-- Over every sequence of flushes of an isolate from an empty memory: the two sets are apart and bounded, the totals differ by what they
    hold, each flush accounts for each of its entries once, and an entry retried twice was accepted or lost in between. -/
theorem note_back_balances (flushes : List (Flush α)) (hitems : ∀ f ∈ flushes, f.items.Nodup) :
    (memoryAfter {} flushes).Kept ∧
      total Tally.retried {} flushes + total Tally.deferred {} flushes =
        total Tally.resent {} flushes + (memoryAfter {} flushes).retried.length + (memoryAfter {} flushes).deferred.length ∧
      (∀ first f rest, flushes = first ++ f :: rest → f.Accounted (memoryAfter {} first)) ∧
      ∀ first f middle g rest, flushes = first ++ f :: middle ++ g :: rest → ∀ x ∈ f.again (memoryAfter {} first),
        x ∈ g.again (memoryAfter {} (first ++ f :: middle)) →
          ∃ before e after, middle = before ++ e :: after ∧
            (x ∈ e.shipped.delivered ∨ x ∈ e.lost (memoryAfter {} (first ++ f :: before))) := by
  refine ⟨kept_memoryAfter kept_empty hitems, ?_, ?_, ?_⟩
  · have h := balance_memoryAfter kept_empty hitems
    simpa using h
  · rintro first f rest rfl
    have hfirst := kept_memoryAfter kept_empty fun g hg => hitems g (List.mem_append_left _ hg)
    exact Flush.accounted (hitems f (List.mem_append_right _ List.mem_cons_self)) hfirst
  · rintro first f middle g rest rfl x hx hagain
    have hfirst := kept_memoryAfter kept_empty fun h hh => hitems h (List.mem_append_left _ (List.mem_append_left _ hh))
    have hf : f.items.Nodup := hitems f (by simp)
    have hin : x ∈ (f.settled (memoryAfter {} first)).memory.retried := (Flush.mem_retried hf hfirst).mpr (.inr hx)
    have hsplit (l : List (Flush α)) : memoryAfter {} (first ++ f :: l) = memoryAfter (f.settled (memoryAfter {} first)).memory l := by
      simp [memoryAfter]
    rw [hsplit] at hagain
    obtain ⟨before, e, after, hmiddle, hout⟩ := retried_apart (Flush.kept_settled hf hfirst) hin (fun h hh => hitems h (by simp [hh]))
      (hitems g (by simp)) hagain
    exact ⟨before, e, after, hmiddle, by rwa [hsplit]⟩

/-- Twelve entries: the first POST fails and the second is never started; then the first is accepted and the second fails. -/
def partlySent : List (Flush Nat) :=
  [⟨List.range 12, fun i => if i = 0 then .failed else .past⟩, ⟨List.range 12, fun i => if i = 0 then .accepted 0 else .failed⟩]

theorem note_back_balances_partlySent :
    (total Tally.retried {} partlySent, total Tally.deferred {} partlySent) = (12, 4) ∧
      total Tally.retried {} partlySent + total Tally.deferred {} partlySent =
        total Tally.resent {} partlySent + (memoryAfter {} partlySent).retried.length + (memoryAfter {} partlySent).deferred.length :=
  ⟨by decide, (note_back_balances partlySent (by decide)).2.1⟩

end

end OverlayEngine.ChangeFlush
