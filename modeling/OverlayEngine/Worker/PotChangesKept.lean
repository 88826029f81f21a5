import OverlayEngine.Worker.PotChanges

/-!
# A noted outpoint is at rest somewhere

A settle drops a failed retry on the ground that an earlier flush parked it. The
ground holds for the note that flush shipped: the entry has its row, unless a
POST started after the note was accepted. It does not hold for a later note of
the same outpoint.
-/

namespace OverlayEngine.PotChanges

open ChangeFlush (Post Shipped NotedBack settleNoting changeChunk changeMaxChunks settleNoting_failed settleNoting_deferred settleNoting_memory)
open ChangePark (Kind Row Table drainMaxRows rowsOf unparkAll refuseAll)

section
variable {α : Type} [DecidableEq α]

/-- `o` is delivered, or at a POST started before the note of `n`. -/
def Ship.Late (s : Ship α) (n : Nat) (o : α) : Prop :=
  o ∈ s.out.delivered ∨ ∃ chunk stamp, s.flight = some (chunk, stamp) ∧ o ∈ chunk ∧ stamp < n

/-- The drain read the row of `o` at generation `g`, and may delete it for an earlier note. -/
def Drain.Threat (dr : Drain α) (n : Nat) (o : α) (g : Nat) : Prop :=
  (∃ r ∈ dr.rows, r.key = potKey o ∧ r.generation = g) ∧ dr.ship.Late n o

def Standing (t : Table α) (drains : Nat → Drain α) (n : Nat) (o : α) : Prop :=
  ∃ r ∈ t.rows, r.key = potKey o ∧ ∀ d, ¬(drains d).Threat n o r.generation

/-- The flush's batch still has to park `o`. -/
def Flush.Parks (o : α) : Flush α → Prop
  | .committing parks => o ∈ parks
  | _ => False

namespace Sys

def Rowed (σ : Sys α) (o : α) : Prop := Standing σ.table σ.drains (σ.noted o) o

def Batched (σ : Sys α) (o : α) : Prop := ∃ i, (σ.flushes i).Parks o

def Backed (σ : Sys α) (o : α) : Prop := σ.Rowed o ∨ σ.Batched o ∨ σ.counted o = true

def Covered (σ : Sys α) (o : α) : Prop := σ.Owed o → σ.Backed o

end Sys

/-- The flush still owes `o` a delivery or a note back. -/
def Ship.Carries (s : Ship α) (n : Nat) (o : α) : Prop :=
  o ∈ s.left.flatten ∨ (∃ chunk stamp, s.flight = some (chunk, stamp) ∧ o ∈ chunk ∧ n ≤ stamp) ∨ o ∈ s.out.failed ∨ o ∈ s.out.deferred

def Flush.Carries (n : Nat) (o : α) : Flush α → Prop
  | .shipping s => s.Carries n o
  | _ => False

def Sys.Carried (σ : Sys α) (o : α) : Prop := ∃ i, (σ.flushes i).Carries (σ.noted o) o

def Isolate.Noted (s : Isolate α) (o : α) : Prop := ∃ v, (o, v) ∈ s.set

def Act.Meets (σ : Sys α) : Act α → Prop
  | .settle i => ∀ s, σ.flushes i = .shipping s → ∀ o ∈ s.out.failed, o ∈ σ.isolate.memory.retried → σ.entered o < σ.noted o →
      σ.isolate.Noted o ∨ σ.Rowed o
  | .sweep kind now => kind = .pot → σ.table.swept .pot (now - ChangePark.changeParkExhaustedKeepMs) drainMaxRows = []
  | _ => True

def Skip.Old (version : Nat) : Skip α → Prop
  | .parking copy => ∀ p ∈ copy, p.2 ≤ version
  | .forgetting parked => ∀ p ∈ parked, p.2 ≤ version
  | _ => True

structure Sys.Timed (σ : Sys α) : Prop where
  noted : ∀ o, σ.noted o ≤ σ.clock
  entered : ∀ o, σ.entered o ≤ σ.clock
  set : ∀ p ∈ σ.isolate.set, p.2 ≤ σ.isolate.version
  skips : ∀ j, (σ.skips j).Old σ.isolate.version
  rows : ∀ r ∈ σ.table.rows, r.generation ≤ σ.table.seq.getD 0
  read : ∀ d, ∀ r ∈ (σ.drains d).rows, r.generation ≤ σ.table.seq.getD 0

structure Sys.Kept (σ : Sys α) : Prop where
  memory : ∀ o, σ.isolate.memory.holds o → σ.noted o ≤ σ.entered o → σ.Covered o
  skips : ∀ j parked, σ.skips j = .forgetting parked → ∀ p ∈ parked, p ∈ σ.isolate.set → σ.Covered p.1
  owed : ∀ o, σ.Owed o → σ.isolate.Noted o ∨ σ.Carried o ∨ σ.Backed o

end

/-! ## The POSTs -/

section
variable {α : Type} {s s' : Ship α} {o : α} {clock n : Nat} {post : Post}

theorem start_some (h : s.start clock = some s') :
    ∃ chunk rest, s.flight = none ∧ s.left = chunk :: rest ∧ s' = { s with left := rest, flight := some (chunk, clock) } := by
  unfold Ship.start at h
  split at h
  · rename_i chunk rest hf hl
    split at h
    · exact ⟨chunk, rest, hf, hl, (Option.some.inj h).symm⟩
    · cases h
  · cases h

theorem pass_some (h : s.pass = some s') :
    ∃ chunk rest, s.left = chunk :: rest ∧ s' = { s with left := rest, i := s.i + 1, out := s.out.chunk s.i chunk .past } := by
  unfold Ship.pass at h
  split at h
  · rename_i chunk rest hf hl
    exact ⟨chunk, rest, hl, (Option.some.inj h).symm⟩
  · cases h

theorem answer_some (h : s.answer post = some s') :
    ∃ chunk stamp, s.flight = some (chunk, stamp) ∧
      s' = { s with flight := none, i := s.i + 1, out := s.out.chunk s.i chunk post } := by
  unfold Ship.answer at h
  split at h
  · rename_i chunk stamp hf
    exact ⟨chunk, stamp, hf, (Option.some.inj h).symm⟩
  · cases h

variable {chunk : List α}

theorem chunk_delivered {out : Shipped α} {i : Nat} (h : o ∈ (out.chunk i chunk post).delivered) :
    o ∈ out.delivered ∨ o ∈ chunk ∧ ∃ dropped, post = .accepted dropped := by
  unfold Shipped.chunk at h
  split at h
  · exact .inl h
  · cases post with
    | accepted dropped => exact (List.mem_append.mp h).imp_right fun h => ⟨h, dropped, rfl⟩
    | past => exact .inl h
    | failed => exact .inl h
    | unacknowledged => exact .inl h

theorem chunk_kept {out : Shipped α} {i : Nat} (h : o ∈ out.failed ∨ o ∈ out.deferred) :
    o ∈ (out.chunk i chunk post).failed ∨ o ∈ (out.chunk i chunk post).deferred := by
  unfold Shipped.chunk
  split
  · exact h.imp_right (List.mem_append_left _)
  · cases post with
    | accepted dropped => exact h
    | past => exact h.imp_right (List.mem_append_left _)
    | failed => exact h.imp_left (List.mem_append_left _)
    | unacknowledged => exact h.imp_right (List.mem_append_left _)

theorem chunk_answered (out : Shipped α) (i : Nat) (post : Post) (h : o ∈ chunk) :
    (∃ dropped, post = .accepted dropped) ∨ o ∈ (out.chunk i chunk post).failed ∨ o ∈ (out.chunk i chunk post).deferred := by
  unfold Shipped.chunk
  split
  · exact .inr (.inr (List.mem_append_right _ h))
  · cases post with
    | accepted dropped => exact .inl ⟨dropped, rfl⟩
    | past => exact .inr (.inr (List.mem_append_right _ h))
    | failed => exact .inr (.inl (List.mem_append_right _ h))
    | unacknowledged => exact .inr (.inr (List.mem_append_right _ h))

theorem Ship.Carries.start (h : s.Carries n o) (hn : n ≤ clock) (hs : s.start clock = some s') : s'.Carries n o := by
  obtain ⟨chunk, rest, hf, hl, rfl⟩ := start_some hs
  rcases h with h | ⟨c, stamp, hc, -⟩ | h
  · rw [hl, List.flatten_cons, List.mem_append] at h
    rcases h with h | h
    · exact .inr (.inl ⟨chunk, clock, rfl, h, hn⟩)
    · exact .inl h
  · rw [hf] at hc; cases hc
  · exact .inr (.inr h)

theorem Ship.Carries.pass (h : s.Carries n o) (hs : s.pass = some s') : s'.Carries n o := by
  obtain ⟨chunk, rest, hl, rfl⟩ := pass_some hs
  rcases h with h | h | h
  · rw [hl, List.flatten_cons, List.mem_append] at h
    rcases h with h | h
    · rcases chunk_answered s.out s.i .past h with ⟨dropped, hp⟩ | h
      · cases hp
      · exact .inr (.inr h)
    · exact .inl h
  · exact .inr (.inl h)
  · exact .inr (.inr (chunk_kept h))

theorem Ship.Carries.answer (h : s.Carries n o) (hs : s.answer post = some s') :
    s'.Carries n o ∨ ∃ chunk stamp dropped, s.flight = some (chunk, stamp) ∧ o ∈ chunk ∧ n ≤ stamp ∧ post = .accepted dropped := by
  obtain ⟨chunk, stamp, hf, rfl⟩ := answer_some hs
  rcases h with h | ⟨c, st, hc, ho, hst⟩ | h
  · exact .inl (.inl h)
  · rw [hf] at hc
    cases hc
    rcases chunk_answered s.out s.i post ho with ⟨dropped, hp⟩ | h
    · exact .inr ⟨chunk, stamp, dropped, hf, ho, hst, hp⟩
    · exact .inl (.inr (.inr h))
  · exact .inl (.inr (.inr (chunk_kept h)))

theorem Ship.Late.start (hs : s.start clock = some s') (hn : n ≤ clock) (h : s'.Late n o) : s.Late n o := by
  obtain ⟨chunk, rest, hf, hl, rfl⟩ := start_some hs
  rcases h with h | ⟨c, stamp, hc, -, hlt⟩
  · exact .inl h
  · cases hc
    omega

theorem Ship.Late.startAlone {row : α} (hs : s.startAlone row clock = some s') (hn : n ≤ clock) (h : s'.Late n o) : s.Late n o := by
  unfold Ship.startAlone at hs
  split at hs
  · split at hs
    · cases hs
      rcases h with h | ⟨c, stamp, hc, -, hlt⟩
      · exact .inl h
      · cases hc
        omega
    · cases hs
  · cases hs

theorem Ship.Late.pass (hs : s.pass = some s') (h : s'.Late n o) : s.Late n o := by
  obtain ⟨chunk, rest, hl, rfl⟩ := pass_some hs
  rcases h with h | h
  · rcases chunk_delivered h with h | ⟨-, dropped, hp⟩
    · exact .inl h
    · cases hp
  · exact .inr h

end

section
variable {α : Type} [LinearOrder α] {s s' : Ship α} {o : α} {n : Nat} {post : Post} {heard : α → Nat}

theorem le_hearing (post : Post) (flight : Option (List α × Nat)) (o : α) : heard o ≤ hearing heard post flight o := by
  unfold hearing
  split
  · split
    · split
      · exact le_max_left _ _
      · exact le_rfl
    · exact le_rfl
  · exact le_rfl

theorem le_hearing_of_mem {chunk : List α} {stamp dropped : Nat} (ho : o ∈ chunk) :
    stamp ≤ hearing heard (.accepted dropped) (some (chunk, stamp)) o := by
  simp only [hearing, if_pos ho]
  exact le_max_right _ _

theorem Ship.Late.answer (hs : s.answer post = some s') (howed : hearing heard post s.flight o < n) (h : s'.Late n o) : s.Late n o := by
  obtain ⟨chunk, stamp, hf, rfl⟩ := answer_some hs
  rcases h with h | ⟨c, st, hc, -⟩
  · rcases chunk_delivered h with h | ⟨ho, dropped, rfl⟩
    · exact .inl h
    · rw [hf] at howed
      exact .inr ⟨chunk, stamp, hf, ho, (le_hearing_of_mem ho).trans_lt howed⟩
  · cases hc

theorem Ship.Late.answerAlone {accepted : Bool} (haccepted : accepted = true → ∃ dropped, post = .accepted dropped)
    (hs : s.answerAlone accepted = some s') (howed : hearing heard post s.flight o < n) (h : s'.Late n o) : s.Late n o := by
  unfold Ship.answerAlone at hs
  split at hs
  · rename_i row stamp hf
    cases hs
    rcases h with h | ⟨c, st, hc, -⟩
    · cases accepted with
      | false => exact .inl h
      | true =>
        obtain ⟨dropped, rfl⟩ := haccepted rfl
        rcases List.mem_append.mp h with h | ho
        · exact .inl h
        · rw [hf] at howed
          exact .inr ⟨row, stamp, hf, ho, (le_hearing_of_mem ho).trans_lt howed⟩
    · cases hc
  · cases hs

end

/-! ## The rows and the drains in flight -/

section
variable {α : Type} {t : Table α} {drains : Nat → Drain α} {o : α} {n g : Nat}

theorem standing_token (hread : ∀ d, ∀ r ∈ (drains d).rows, r.generation < g) (h : ∃ r ∈ t.rows, r.key = potKey o ∧ r.generation = g) :
    Standing t drains n o := by
  obtain ⟨r, hr, hk, rfl⟩ := h
  refine ⟨r, hr, hk, ?_⟩
  rintro d ⟨⟨r', hr', -, hg⟩, -⟩
  have := hread d r' hr'
  omega

theorem standing_keeps {t' : Table α} (hkeeps : ∀ r ∈ t.rows, r.key = potKey o → (∀ d, ¬(drains d).Threat n o r.generation) →
    ∃ r' ∈ t'.rows, r'.key = r.key ∧ r'.generation = r.generation) (h : Standing t drains n o) : Standing t' drains n o := by
  obtain ⟨r, hr, hk, hsafe⟩ := h
  obtain ⟨r', hr', hk', hg'⟩ := hkeeps r hr hk hsafe
  exact ⟨r', hr', hk'.trans hk, hg' ▸ hsafe⟩

theorem standing_setDrain {d : Nat} {dr : Drain α} (hthreat : ∀ g, dr.Threat n o g → (drains d).Threat n o g)
    (h : Standing t drains n o) : Standing t (Function.update drains d dr) n o := by
  obtain ⟨r, hr, hk, hsafe⟩ := h
  refine ⟨r, hr, hk, fun j hj => ?_⟩
  by_cases hd : j = d
  · subst hd
    rw [Function.update_self] at hj
    exact hsafe j (hthreat _ hj)
  · rw [Function.update_of_ne hd] at hj
    exact hsafe j hj

end

section
variable {α : Type} [LinearOrder α] {t : Table α} {drains : Nat → Drain α} {o : α} {n g : Nat}

theorem standing_parkBatch (now : Nat) (ks : List (ChangePark.Key α)) (hread : ∀ d, ∀ r ∈ (drains d).rows, r.generation ≤ t.seq.getD 0)
    (h : Standing t drains n o) : Standing (t.parkBatch now ks).1 drains n o := by
  obtain ⟨r, hr, hk, hsafe⟩ := h
  obtain ⟨r', hr', hk', hg'⟩ := ChangePark.parkAll_keeps (t := t.bumpSeq now) now ks hr
  rcases hg' with hg' | hg'
  · exact ⟨r', hr', hk'.trans hk, hg' ▸ hsafe⟩
  · refine standing_token (fun d r hr => ?_) ⟨r', hr', hk'.trans hk, hg'⟩
    exact (hread d r hr).trans_lt (ChangePark.bumpSeq_lt t now)

variable {r : Row α}

theorem mem_unparkAll {rows : List (Row α)} :
    r ∈ (unparkAll rows t).rows ↔ r ∈ t.rows ∧ ∀ r' ∈ rows, ¬(r.key = r'.key ∧ r.generation = r'.generation) := by
  induction rows generalizing t with
  | nil => simp [unparkAll]
  | cons r' rows ih =>
    have : unparkAll (r' :: rows) t = unparkAll rows (t.unpark r'.key r'.generation) := rfl
    rw [this, ih, ChangePark.mem_unpark, List.forall_mem_cons, and_assoc]

theorem standing_unparkAll {dr : Drain α} {d : Nat} (hd : drains d = dr) (h : Standing t drains n o) :
    Standing (unparkAll (rowsOf dr.rows dr.ship.out.delivered) t) drains n o := by
  refine standing_keeps (fun r hr hk hsafe => ⟨r, mem_unparkAll.mpr ⟨hr, fun r' hr' hsame => ?_⟩, rfl, rfl⟩) h
  obtain ⟨item, hitem, hfind⟩ := List.mem_filterMap.mp hr'
  have hitem' : r'.key.item = item := by simpa using List.find?_some hfind
  have ho : item = o := by rw [← hitem', ← hsame.1, hk]; rfl
  refine hsafe d ⟨⟨r', ?_, hsame.1 ▸ hk, hsame.2.symm⟩, .inl ?_⟩
  · rw [hd]; exact List.mem_of_find?_eq_some hfind
  · rw [hd, ← ho]; exact hitem

theorem refuse_keeps (now : Nat) (k : ChangePark.Key α) (g : Nat) (hr : r ∈ t.rows) :
    ∃ r' ∈ (t.refuse now k g).1.rows, r'.key = r.key ∧ r'.generation = r.generation := by
  unfold Table.refuse
  dsimp only
  split
  · refine ⟨_, ChangePark.mem_update.mpr ⟨r, hr, rfl⟩, ?_⟩
    by_cases hk : r.key = k
    · rw [if_pos hk]; exact ⟨rfl, rfl⟩
    · rw [if_neg hk]; exact ⟨rfl, rfl⟩
  · exact ⟨r, hr, rfl, rfl⟩

theorem refuse_comes {now : Nat} {k : ChangePark.Key α} {g : Nat} (hr : r ∈ (t.refuse now k g).1.rows) :
    ∃ r₀ ∈ t.rows, r₀.generation = r.generation := by
  unfold Table.refuse at hr
  dsimp only at hr
  split at hr
  · obtain ⟨r₀, hr₀, rfl⟩ := ChangePark.mem_update.mp hr
    refine ⟨r₀, hr₀, ?_⟩
    by_cases hk : r₀.key = k
    · rw [if_pos hk]; rfl
    · rw [if_neg hk]
  · exact ⟨r, hr, rfl⟩

theorem refuse_seq (now : Nat) (k : ChangePark.Key α) (g : Nat) : (t.refuse now k g).1.seq = t.seq := by
  unfold Table.refuse
  dsimp only
  split <;> rfl

theorem refuseAll_keeps (now : Nat) (rows : List (Row α)) (log : List (ChangePark.Event α)) (hr : r ∈ t.rows) :
    ∃ r' ∈ (refuseAll now rows t log).1.rows, r'.key = r.key ∧ r'.generation = r.generation := by
  induction rows generalizing t log r with
  | nil => exact ⟨r, hr, rfl, rfl⟩
  | cons x rows ih =>
    obtain ⟨r₁, hr₁, hk₁, hg₁⟩ := refuse_keeps now x.key x.generation hr
    obtain ⟨r₂, hr₂, hk₂, hg₂⟩ := ih _ hr₁
    exact ⟨r₂, hr₂, hk₂.trans hk₁, hg₂.trans hg₁⟩

theorem refuseAll_comes {now : Nat} {rows : List (Row α)} {log : List (ChangePark.Event α)}
    (hr : r ∈ (refuseAll now rows t log).1.rows) : ∃ r₀ ∈ t.rows, r₀.generation = r.generation := by
  induction rows generalizing t log with
  | nil => exact ⟨r, hr, rfl⟩
  | cons x rows ih =>
    obtain ⟨r₁, hr₁, hg₁⟩ := ih hr
    obtain ⟨r₀, hr₀, hg₀⟩ := refuse_comes hr₁
    exact ⟨r₀, hr₀, hg₀.trans hg₁⟩

theorem refuseAll_seq (now : Nat) (rows : List (Row α)) (log : List (ChangePark.Event α)) : (refuseAll now rows t log).1.seq = t.seq := by
  induction rows generalizing t log with
  | nil => rfl
  | cons x rows ih =>
    rw [refuseAll, ih]
    exact refuse_seq now x.key x.generation

theorem unparkAll_seq (rows : List (Row α)) : (unparkAll rows t).seq = t.seq := by
  induction rows generalizing t with
  | nil => rfl
  | cons x rows ih => exact ih

end

/-! ## One step -/

section
variable {α : Type} {σ σ' : Sys α} {o : α}

theorem exists_update {P : Flush α → Prop} {C : Prop} {flushes : Nat → Flush α} {i : Nat} (f : Flush α) (h : ∃ j, P (flushes j))
    (hi : P (flushes i) → C) : (∃ j, P (Function.update flushes i f j)) ∨ C := by
  obtain ⟨j, hj⟩ := h
  by_cases hij : j = i
  · subst hij
    exact .inr (hi hj)
  · exact .inl ⟨j, by rw [Function.update_of_ne hij]; exact hj⟩

theorem covered_of (hnoted : σ'.noted o = σ.noted o) (hheard : σ.heard o ≤ σ'.heard o) (hrow : σ'.Owed o → σ.Rowed o → σ'.Rowed o)
    (hbatch : σ.Batched o → σ'.Backed o) (hcount : σ.counted o = true → σ'.counted o = true) (h : σ.Covered o) : σ'.Covered o := by
  intro howed
  have hbefore : σ.Owed o := by
    unfold Sys.Owed at howed ⊢
    omega
  rcases h hbefore with hr | hb | hc
  · exact .inl (hrow howed hr)
  · exact hbatch hb
  · exact .inr (.inr (hcount hc))

structure Follows (σ σ' : Sys α) : Prop where
  timed : σ'.Timed
  noted : σ'.noted = σ.noted
  heard : ∀ o, σ.heard o ≤ σ'.heard o
  covered : ∀ o, σ.Covered o → σ'.Covered o

theorem Follows.owed (h : Follows σ σ') (howed : σ'.Owed o) : σ.Owed o := by
  have := h.heard o
  unfold Sys.Owed at howed ⊢
  rw [h.noted] at howed
  omega

theorem Follows.kept (h : Follows σ σ') (hk : σ.Kept)
    (hmemory : ∀ o, σ'.isolate.memory.holds o → σ'.noted o ≤ σ'.entered o →
      (σ.isolate.memory.holds o ∧ σ.noted o ≤ σ.entered o) ∨ σ'.Covered o)
    (hskips : ∀ j parked, σ'.skips j = .forgetting parked → ∀ p ∈ parked, p ∈ σ'.isolate.set →
      (σ.skips j = .forgetting parked ∧ p ∈ σ.isolate.set) ∨ σ'.Covered p.1)
    (howed : ∀ o, σ'.Owed o → σ.isolate.Noted o ∨ σ.Carried o → σ'.isolate.Noted o ∨ σ'.Carried o ∨ σ'.Backed o) : σ'.Kept where
  memory := fun o hm hn => by
    rcases hmemory o hm hn with ⟨hm, hn⟩ | hc
    · exact h.covered o (hk.memory o hm hn)
    · exact hc
  skips := fun j parked hj p hp hset => by
    rcases hskips j parked hj p hp hset with ⟨hj, hset⟩ | hc
    · exact h.covered p.1 (hk.skips j parked hj p hp hset)
    · exact hc
  owed := fun o ho => by
    rcases hk.owed o (h.owed ho) with hn | hc | hb
    · exact howed o ho (.inl hn)
    · exact howed o ho (.inr hc)
    · exact .inr (.inr (h.covered o (fun _ => hb) ho))

theorem Follows.keptOf (h : Follows σ σ') (hk : σ.Kept) (hisolate : σ'.isolate = σ.isolate) (hentered : σ'.entered = σ.entered)
    (hskips : σ'.skips = σ.skips) (hcarried : ∀ o, σ'.Owed o → σ.Carried o → σ'.Carried o ∨ σ'.Backed o) : σ'.Kept := by
  refine h.kept hk ?_ ?_ ?_
  · rw [hisolate, hentered, h.noted]
    exact fun o hm hn => .inl ⟨hm, hn⟩
  · rw [hisolate, hskips]
    exact fun j parked hj p _ hset => .inl ⟨hj, hset⟩
  · intro o ho hb
    rw [hisolate]
    rcases hb with hn | hc
    · exact .inl hn
    · exact .inr (hcarried o ho hc)

end

structure Sys.Sound {α : Type} (σ : Sys α) : Prop where
  timed : σ.Timed
  kept : σ.Kept

section
variable {α : Type} {σ : Sys α} {o : α} {i d v : Nat}

theorem Skip.Old.mono {v' : Nat} {s : Skip α} (h : s.Old v) (hv : v ≤ v') : s.Old v' := by
  cases s with
  | parking copy => exact fun p hp => (h p hp).trans hv
  | forgetting parked => exact fun p hp => (h p hp).trans hv
  | idle => trivial
  | done => trivial

theorem Skip.Old.not_new {parked : List (α × Nat)} (h : (Skip.forgetting parked).Old v) : (o, v + 1) ∉ parked := fun hp => by
  have := h _ hp
  simp at this

theorem batched_update {flushes : Nat → Flush α} (f : Flush α) (hi : ¬(flushes i).Parks o) (h : ∃ j, (flushes j).Parks o) :
    ∃ j, (Function.update flushes i f j).Parks o :=
  (exists_update f h hi).resolve_right id

variable {t : Table α}

theorem Sys.Timed.table (h : σ.Timed) (hrows : ∀ r ∈ t.rows, r.generation ≤ t.seq.getD 0)
    (hseq : σ.table.seq.getD 0 ≤ t.seq.getD 0) : Sys.Timed { σ with table := t } :=
  { h with rows := hrows, read := fun d r hr => (h.read d r hr).trans hseq }

theorem update_read {drains : Nat → Drain α} {m : Nat} (h : ∀ d, ∀ r ∈ (drains d).rows, r.generation ≤ m) (d : Nat) {dr : Drain α}
    (hrows : ∀ r ∈ dr.rows, r.generation ≤ m) : ∀ j, ∀ r ∈ (Function.update drains d dr j).rows, r.generation ≤ m := by
  intro j r hr
  by_cases hj : j = d
  · subst hj
    rw [Function.update_self] at hr
    exact hrows r hr
  · rw [Function.update_of_ne hj] at hr
    exact h j r hr

theorem follows_update (ht : σ.Timed) (f : Flush α) (hi : ∀ o, ¬(σ.flushes i).Parks o) (heard : α → Nat)
    (hheard : ∀ o, σ.heard o ≤ heard o) : Follows σ { σ with flushes := Function.update σ.flushes i f, heard := heard } where
  timed := { ht with }
  noted := rfl
  heard := hheard
  covered := fun o => covered_of rfl (hheard o) (fun _ h => h) (fun h => .inr (.inl (batched_update f (hi o) h))) id

theorem Sys.Sound.ship (h : σ.Sound) {s s' : Ship α} (hi : σ.flushes i = .shipping s) (heard : α → Nat)
    (hheard : ∀ o, σ.heard o ≤ heard o)
    (hcarries : ∀ o, heard o < σ.noted o → s.Carries (σ.noted o) o → s'.Carries (σ.noted o) o) :
    Sys.Sound { σ with flushes := Function.update σ.flushes i (.shipping s'), heard := heard } := by
  have hf := follows_update h.timed (.shipping s') (i := i) (fun o hp => by rw [hi] at hp; exact hp) heard hheard
  refine ⟨hf.timed, hf.keptOf h.kept rfl rfl rfl fun o ho hc => .inl ?_⟩
  rcases exists_update (i := i) (.shipping s') hc fun hp => by rw [hi] at hp; exact hcarries o ho hp with hc | hc
  · exact hc
  · refine ⟨i, ?_⟩
    change (Function.update σ.flushes i (.shipping s') i).Carries _ o
    rw [Function.update_self]
    exact hc

theorem Sys.Sound.setDrain (h : σ.Sound) {dr : Drain α} (heard : α → Nat) (hheard : ∀ o, σ.heard o ≤ heard o)
    (hrows : ∀ r ∈ dr.rows, r.generation ≤ σ.table.seq.getD 0)
    (hthreat : ∀ o g, heard o < σ.noted o → dr.Threat (σ.noted o) o g → (σ.drains d).Threat (σ.noted o) o g) :
    Sys.Sound { σ with drains := Function.update σ.drains d dr, heard := heard } := by
  have hf : Follows σ { σ with drains := Function.update σ.drains d dr, heard := heard } := by
    refine ⟨{ h.timed with read := update_read h.timed.read d hrows }, rfl, hheard, fun o => ?_⟩
    exact covered_of rfl (hheard o) (fun ho hr => standing_setDrain (fun g => hthreat o g ho) hr) (fun h => .inr (.inl h)) id
  exact ⟨hf.timed, hf.keptOf h.kept rfl rfl rfl fun o _ hc => .inl hc⟩

theorem Sys.Sound.setTable (h : σ.Sound) (hrows : ∀ r ∈ t.rows, r.generation ≤ t.seq.getD 0)
    (hseq : σ.table.seq.getD 0 ≤ t.seq.getD 0) (hkeeps : ∀ o, σ.Rowed o → Standing t σ.drains (σ.noted o) o) :
    Sys.Sound { σ with table := t } := by
  have hf : Follows σ { σ with table := t } :=
    ⟨h.timed.table hrows hseq, rfl, fun _ => le_rfl, fun o => covered_of rfl le_rfl (fun _ => hkeeps o) (fun h => .inr (.inl h)) id⟩
  exact ⟨hf.timed, hf.keptOf h.kept rfl rfl rfl fun o _ hc => .inl hc⟩

theorem Sys.Sound.setSkip (h : σ.Sound) (j : Nat) (s : Skip α) (hold : s.Old σ.isolate.version)
    (hcovered : ∀ parked, s = .forgetting parked → ∀ p ∈ parked, σ.Covered p.1) : (σ.setSkip j s).Sound := by
  have hf : Follows σ (σ.setSkip j s) := by
    refine ⟨{ h.timed with skips := fun k => ?_ }, rfl, fun _ => le_rfl, fun o => covered_of rfl le_rfl (fun _ hr => hr) (fun hb => .inr (.inl hb)) id⟩
    by_cases hk : k = j
    · subst hk
      simpa [Sys.setSkip] using hold
    · simpa [Sys.setSkip, hk] using h.timed.skips k
  refine ⟨hf.timed, hf.kept h.kept (fun o hm hn => .inl ⟨hm, hn⟩) (fun k parked hk p hp hset => ?_) fun o _ hb => ?_⟩
  · by_cases hkj : k = j
    · subst hkj
      simp only [Sys.setSkip, Function.update_self] at hk
      exact .inr (hf.covered p.1 (hcovered parked hk p hp))
    · simp only [Sys.setSkip, Function.update_of_ne hkj] at hk
      exact .inl ⟨hk, hset⟩
  · exact hb.elim .inl fun hc => .inr (.inl hc)

theorem Sys.Sound.drainShip (h : σ.Sound) (d : Nat) (phase : Phase) (s : Ship α) (retry : List α) (heard : α → Nat)
    (hheard : ∀ o, σ.heard o ≤ heard o)
    (hlate : ∀ o, heard o < σ.noted o → s.Late (σ.noted o) o → (σ.drains d).ship.Late (σ.noted o) o) :
    Sys.Sound { σ with drains := Function.update σ.drains d ⟨phase, (σ.drains d).rows, s, retry⟩, heard := heard } :=
  h.setDrain heard hheard (fun r hr => h.timed.read d r hr) fun o _ ho ht => ⟨ht.1, hlate o ho ht.2⟩

theorem Sys.Sound.others (h : σ.Sound) (hseq : t.seq = σ.table.seq) (hsub : ∀ r ∈ t.rows, r ∈ σ.table.rows)
    (hpots : ∀ r ∈ σ.table.rows, r.key.kind = .pot → r ∈ t.rows) : Sys.Sound { σ with table := t } := by
  refine h.setTable (fun r hr => hseq ▸ h.timed.rows r (hsub r hr)) (by rw [hseq]) fun o hr => ?_
  exact standing_keeps (fun r hr hk _ => ⟨r, hpots r hr (by rw [hk]; rfl), rfl, rfl⟩) hr

theorem sound_empty : Sys.Sound ({} : Sys α) := by
  refine ⟨⟨fun _ => le_rfl, fun _ => le_rfl, ?_, fun _ => trivial, ?_, ?_⟩, ⟨?_, ?_, ?_⟩⟩
  · exact fun _ h => by cases h
  · exact fun _ h => by cases h
  · exact fun _ _ h => by cases h
  · exact fun _ h => by rcases h with h | h <;> cases h
  · exact fun _ _ h => by cases h
  · exact fun _ h => (Nat.lt_irrefl 0 h).elim

end

section
variable {α : Type} [LinearOrder α] {σ : Sys α} {o : α}

theorem Sys.Sound.parkBatch (h : σ.Sound) (now : Nat) (ks : List (ChangePark.Key α)) : Sys.Sound { σ with table := (σ.table.parkBatch now ks).1 } := by
  have hlt := ChangePark.parkBatch_seq_lt σ.table now ks
  refine h.setTable (fun r hr => ?_) hlt.le fun o hr => standing_parkBatch now ks h.timed.read hr
  rcases ChangePark.parkAll_comes ks hr with ⟨r₀, hr₀, hg⟩ | hg
  · rw [← hg]
    exact (h.timed.rows r₀ hr₀).trans hlt.le
  · rw [hg, Table.parkBatch, ChangePark.parkAll_seq]

theorem Sys.Sound.parked (h : σ.Sound) (now : Nat) (others : List (ChangePark.Key α)) (pots : List α) (later : List (ChangePark.Key α)) :
    Sys.Sound { σ with table := (σ.parked now others pots later).1 } := by
  unfold Sys.parked
  dsimp only
  split
  · exact h
  · exact h.parkBatch now _

/-! ### A note -/

variable {s : Isolate α} {p : α × Nat}

theorem mem_note : p ∈ (s.note o).set ↔ p = (o, s.version + 1) ∨ p ∈ s.set ∧ p.1 ≠ o := by
  simp [Isolate.note]

theorem Sys.Sound.note (h : σ.Sound) (o : α) :
    Sys.Sound { σ with
      isolate := σ.isolate.note o
      clock := σ.clock + 1
      noted := Function.update σ.noted o (σ.clock + 1)
      counted := Function.update σ.counted o false } := by
  -- nothing changes for the other outpoints
  have covered {x : α} (hx : x ≠ o) (hc : σ.Covered x) : Sys.Covered { σ with
      isolate := σ.isolate.note o, clock := σ.clock + 1, noted := Function.update σ.noted o (σ.clock + 1),
      counted := Function.update σ.counted o false } x := by
    have hn : Function.update σ.noted o (σ.clock + 1) x = σ.noted x := Function.update_of_ne hx _ _
    refine covered_of hn le_rfl (fun _ hr => ?_) (fun hb => .inr (.inl hb)) (fun hc => ?_) hc
    · unfold Sys.Rowed
      simp only [hn]
      exact hr
    · simpa only [Function.update_of_ne hx] using hc
  refine ⟨⟨fun x => ?_, fun x => (h.timed.entered x).trans (Nat.le_succ _), fun p hp => ?_, fun j => (h.timed.skips j).mono (Nat.le_succ _),
    h.timed.rows, h.timed.read⟩, ⟨fun x hm hn => ?_, fun j parked hj p hp hset => ?_, fun x hx => ?_⟩⟩
  · by_cases hx : x = o
    · subst hx
      simp
    · simp only [Function.update_of_ne hx]
      exact (h.timed.noted x).trans (Nat.le_succ _)
  · rcases mem_note.mp hp with rfl | ⟨hp, -⟩
    · exact le_rfl
    · exact (h.timed.set p hp).trans (Nat.le_succ _)
  · by_cases hx : x = o
    · subst hx
      have := h.timed.entered x
      simp only [Function.update_self] at hn
      omega
    · simp only [Function.update_of_ne hx] at hn
      exact covered hx (h.kept.memory x hm hn)
  · rcases mem_note.mp hset with rfl | ⟨hset, hne⟩
    · have hold := h.timed.skips j
      rw [show σ.skips j = _ from hj] at hold
      exact (hold.not_new hp).elim
    · exact covered hne (h.kept.skips j parked hj p hp hset)
  · by_cases hxo : x = o
    · subst hxo
      exact .inl ⟨_, mem_note.mpr (.inl rfl)⟩
    · have hn : Function.update σ.noted o (σ.clock + 1) x = σ.noted x := Function.update_of_ne hxo _ _
      have hbefore : σ.Owed x := by
        unfold Sys.Owed at hx ⊢
        simp only [hn] at hx
        exact hx
      rcases h.kept.owed x hbefore with ⟨v, hv⟩ | hc | hb
      · exact .inl ⟨v, mem_note.mpr (.inr ⟨hv, hxo⟩)⟩
      · refine .inr (.inl ?_)
        unfold Sys.Carried
        simp only [hn]
        exact hc
      · exact .inr (.inr (covered hxo (fun _ => hb) hx))

theorem noteAll_version (s : Isolate α) (os : List α) : s.version ≤ (s.noteAll os).version := by
  induction os generalizing s with
  | nil => exact le_rfl
  | cons x os ih => exact (Nat.le_succ _).trans (ih (s.note x))

variable {os parks : List α}

theorem noteAll_set (h : p ∈ (s.noteAll os).set) :
    p ∈ s.set ∨ s.version < p.2 ∧ p.2 ≤ (s.noteAll os).version := by
  induction os generalizing s with
  | nil => exact .inl h
  | cons x os ih =>
    rcases ih h with hp | ⟨hlt, hle⟩
    · rcases mem_note.mp hp with rfl | ⟨hp, -⟩
      · exact .inr ⟨Nat.lt_succ_self _, noteAll_version (s.note x) os⟩
      · exact .inl hp
    · exact .inr ⟨(Nat.lt_succ_self _).trans hlt, hle⟩

theorem Isolate.Noted.note (x : α) (h : s.Noted o) : (s.note x).Noted o := by
  obtain ⟨v, hv⟩ := h
  by_cases hx : o = x
  · subst hx
    exact ⟨_, mem_note.mpr (.inl rfl)⟩
  · exact ⟨v, mem_note.mpr (.inr ⟨hv, hx⟩)⟩

theorem Isolate.Noted.noteAll (os : List α) (h : s.Noted o) : (s.noteAll os).Noted o := by
  induction os generalizing s with
  | nil => exact h
  | cons x os ih => exact ih (h.note x)

theorem noted_noteAll (h : o ∈ os) : (s.noteAll os).Noted o := by
  induction os generalizing s with
  | nil => cases h
  | cons x os ih =>
    rcases List.mem_cons.mp h with rfl | h
    · exact Isolate.Noted.noteAll os ⟨_, mem_note.mpr (.inl rfl)⟩
    · exact ih h

/-! ### A flush -/

variable {i now : Nat}

theorem Sys.Sound.drain (h : σ.Sound) (hi : σ.flushes i = .idle) :
    Sys.Sound { σ with
      flushes := Function.update σ.flushes i (.shipping { left := Chunks.chunks changeChunk σ.isolate.drain.1 })
      isolate := σ.isolate.drain.2 } := by
  have hf : Follows σ { σ with
      flushes := Function.update σ.flushes i (.shipping { left := Chunks.chunks changeChunk σ.isolate.drain.1 })
      isolate := σ.isolate.drain.2 } := by
    refine ⟨{ h.timed with set := fun p hp => (by cases hp) }, rfl, fun _ => le_rfl, fun o => ?_⟩
    refine covered_of rfl le_rfl (fun _ hr => hr) (fun hb => .inr (.inl (batched_update _ ?_ hb))) id
    rw [hi]
    exact id
  refine ⟨hf.timed, hf.kept h.kept (fun o hm hn => .inl ⟨hm, hn⟩) (fun j parked hj p hp hset => by cases hset) fun o _ hb => .inr (.inl ?_)⟩
  rcases hb with ⟨v, hv⟩ | hc
  · refine ⟨i, ?_⟩
    change (Function.update σ.flushes i _ i).Carries _ o
    rw [Function.update_self]
    refine .inl ?_
    rw [Chunks.flatten_chunks (by decide)]
    exact List.mem_mergeSort.mpr (List.mem_map_of_mem (f := Prod.fst) hv)
  · refine (exists_update (C := False) _ hc fun hp => ?_).resolve_right id
    rw [hi] at hp
    exact hp

theorem mem_outbox (kept : List α) {items : List α} (h : o ∈ kept ∨ o ∈ items) : o ∈ (outbox kept items).1 ∨ o ∈ (outbox kept items).2 := by
  induction items generalizing kept with
  | nil => exact .inl (h.resolve_right (by simp))
  | cons x rest ih =>
    rw [outbox]
    rw [List.mem_cons] at h
    split
    · rename_i hx
      refine ih _ ?_
      rcases h with h | rfl | h
      · exact .inl h
      · exact .inl hx
      · exact .inr h
    · split
      · refine ih _ ?_
        rw [List.mem_append, List.mem_singleton]
        tauto
      · rcases h with h | rfl | h
        · exact (ih _ (.inl h)).imp_right (List.mem_cons_of_mem x)
        · exact .inr List.mem_cons_self
        · exact (ih _ (.inr h)).imp_right (List.mem_cons_of_mem x)

theorem Sys.Sound.settle (h : σ.Sound) {s : Ship α} (hi : σ.flushes i = .shipping s) (hover : s.shipped = true)
    (hmeets : ∀ o ∈ s.out.failed, o ∈ σ.isolate.memory.retried → σ.entered o < σ.noted o → σ.isolate.Noted o ∨ σ.Rowed o) :
    Sys.Sound { (σ.setFlush i (.committing (outbox [] (settleNoting σ.isolate.memory s.out).2).1)).count
        (outbox [] (settleNoting σ.isolate.memory s.out).2).2 with
      isolate := { σ.isolate.noteAll (settleNoting σ.isolate.memory s.out).1.back with
        memory := (settleNoting σ.isolate.memory s.out).1.memory }
      entered := fun o => if o ∈ (settleNoting σ.isolate.memory s.out).2 then σ.clock else σ.entered o } := by
  generalize hσ' : ({ (σ.setFlush i (.committing (outbox [] (settleNoting σ.isolate.memory s.out).2).1)).count
      (outbox [] (settleNoting σ.isolate.memory s.out).2).2 with
    isolate := { σ.isolate.noteAll (settleNoting σ.isolate.memory s.out).1.back with
      memory := (settleNoting σ.isolate.memory s.out).1.memory }
    entered := fun o => if o ∈ (settleNoting σ.isolate.memory s.out).2 then σ.clock else σ.entered o } : Sys α) = σ'
  have hset : σ'.isolate.set = (σ.isolate.noteAll (settleNoting σ.isolate.memory s.out).1.back).set := by rw [← hσ']
  -- an entry the settle answers as new is in the batch, or counted past its bound
  have fresh {o : α} (ho : o ∈ (settleNoting σ.isolate.memory s.out).2) : σ'.Backed o := by
    rw [← hσ']
    rcases mem_outbox [] (.inr ho) with hb | hover
    · refine .inr (.inl ⟨i, ?_⟩)
      change (Function.update σ.flushes i _ i).Parks o
      rw [Function.update_self]
      exact hb
    · refine .inr (.inr ?_)
      simp [Sys.count, hover]
  have hf : Follows σ σ' := by
    rw [← hσ']
    refine ⟨⟨h.timed.noted, fun o => ?_, fun p hp => ?_, fun j => (h.timed.skips j).mono (noteAll_version _ _), h.timed.rows, h.timed.read⟩,
      rfl, fun _ => le_rfl, fun o => ?_⟩
    · dsimp only
      split
      · exact le_rfl
      · exact h.timed.entered o
    · rcases noteAll_set hp with hp | hp
      · exact (h.timed.set p hp).trans (noteAll_version _ _)
      · exact hp.2
    · refine covered_of rfl le_rfl (fun _ hr => hr) (fun hb => .inr (.inl (batched_update _ ?_ hb))) (fun hc => ?_)
      · rw [hi]
        exact id
      · simp [Sys.count, Sys.setFlush, hc]
  refine ⟨hf.timed, hf.kept h.kept (fun o hm hn => ?_) (fun j parked hj p hp hpset => ?_) fun o ho hb => ?_⟩
  · by_cases ho : o ∈ (settleNoting σ.isolate.memory s.out).2
    · exact .inr fun _ => fresh ho
    · rw [← hσ'] at hm hn
      simp only [if_neg ho] at hn
      exact .inl ⟨(settleNoting_memory hm).resolve_right ho, hn⟩
  · have hj' : σ.skips j = .forgetting parked := by rw [← hσ'] at hj; exact hj
    have hold := h.timed.skips j
    rw [hj'] at hold
    rw [hset] at hpset
    rcases noteAll_set hpset with hp' | ⟨hlt, -⟩
    · exact .inl ⟨hj', hp'⟩
    · exact (Nat.not_lt.mpr (hold p hp) hlt).elim
  · have back {o : α} (ho : o ∈ (settleNoting σ.isolate.memory s.out).1.back) : σ'.isolate.Noted o := by
      unfold Isolate.Noted
      rw [hset]
      exact noted_noteAll ho
    have noted {o : α} (hn : σ.isolate.Noted o) : σ'.isolate.Noted o := by
      unfold Isolate.Noted
      rw [hset]
      exact hn.noteAll _
    rcases hb with hn | hc
    · exact .inl (noted hn)
    · have hcarried := exists_update (i := i) (.committing (outbox [] (settleNoting σ.isolate.memory s.out).2).1) hc id
      rw [hi] at hcarried
      rcases hcarried with hc | hc
      · rw [← hσ']
        exact .inr (.inl hc)
      · simp only [Ship.shipped, Bool.and_eq_true, Option.isNone_iff_eq_none, List.isEmpty_iff] at hover
        rcases hc with hl | ⟨c, st, hfl, -⟩ | hfailed | hdeferred
        · rw [hover.2] at hl
          cases hl
        · rw [hover.1] at hfl
          cases hfl
        · rcases settleNoting_failed (m := σ.isolate.memory) hfailed with hr | hb | hfr
          · -- dropped: the earlier flush parked it, and the note may be a later one
            by_cases hlate : σ.entered o < σ.noted o
            · rcases hmeets o hfailed hr hlate with hn | hrow
              · exact .inl (noted hn)
              · exact .inr (.inr (hf.covered o (fun _ => .inl hrow) ho))
            · exact .inr (.inr (hf.covered o (h.kept.memory o (.inl hr) (Nat.not_lt.mp hlate)) ho))
          · exact .inl (back hb)
          · exact .inr (.inr (fresh hfr))
        · rcases settleNoting_deferred (m := σ.isolate.memory) hdeferred with hb | hfr
          · exact .inl (back hb)
          · exact .inr (.inr (fresh hfr))

variable {others later : List (ChangePark.Key α)}

theorem standing_parked (ht : σ.Timed) {pots : List α} (ho : o ∈ pots)
    (h : ∃ r ∈ (σ.parked now others pots later).1.rows, r.key = potKey o ∧ r.generation = (σ.parked now others pots later).1.seq.getD 0) :
    Standing (σ.parked now others pots later).1 σ.drains (σ.noted o) o := by
  refine standing_token (fun d r hr => (ht.read d r hr).trans_lt ?_) h
  have hne : (others ++ pots.map potKey ++ later).isEmpty = false := by
    cases pots with
    | nil => cases ho
    | cons => simp
  simp only [Sys.parked, hne]
  exact ChangePark.parkBatch_seq_lt σ.table now _

theorem Sys.Sound.commit (h : σ.Sound) (hi : σ.flushes i = .committing parks) (missed : List α)
    (hmissed : ∀ o ∈ parks, o ∈ missed ∨ σ.Rowed o) : Sys.Sound ((σ.setFlush i .done).count missed) := by
  have hf : Follows σ ((σ.setFlush i .done).count missed) := by
    refine ⟨{ h.timed with }, rfl, fun _ => le_rfl, fun o => covered_of rfl le_rfl (fun _ hr => hr) (fun hb => ?_) (fun hc => ?_)⟩
    · rcases exists_update (i := i) .done hb id with hb | hp
      · exact .inr (.inl hb)
      · rw [hi] at hp
        rcases hmissed o hp with hm | hr
        · exact .inr (.inr (by simp [Sys.count, hm]))
        · exact .inl hr
    · simp [Sys.count, Sys.setFlush, hc]
  refine ⟨hf.timed, hf.keptOf h.kept rfl rfl rfl fun o _ hc => .inl ?_⟩
  refine (exists_update (C := False) _ hc fun hp => ?_).resolve_right id
  rw [hi] at hp
  exact hp

theorem mem_parkFull {t : Table α} (ho : o ∈ parks) :
    o ∈ parkFull t parks ∨ ∃ r ∈ t.rows, r.key = potKey o ∧ r.generation = t.seq.getD 0 := by
  by_cases hrow : (t.row (potKey o)).any (fun r => r.generation = t.seq.getD 0) = true
  · obtain ⟨r, hr, hg⟩ := (Option.any_eq_true _ _).mp hrow
    refine .inr ⟨r, List.mem_of_find?_eq_some hr, by simpa using List.find?_some hr, by simpa using hg⟩
  · exact .inl (List.mem_filter.mpr ⟨ho, by simpa using hrow⟩)

/-! ### A skip -/

theorem standing_landed (ht : σ.Timed) {copy : List (α × Nat)}
    (hp : p ∈ ((copy.zip ((σ.parked now others (copy.map Prod.fst) later).2.drop others.length)).filter Prod.snd).map Prod.fst) :
    p ∈ copy ∧ Standing (σ.parked now others (copy.map Prod.fst) later).1 σ.drains (σ.noted p.1) p.1 := by
  obtain ⟨⟨q, landed⟩, hq, rfl⟩ := List.mem_map.mp hp
  obtain ⟨hzip, hlanded⟩ := List.mem_filter.mp hq
  obtain ⟨m, hm⟩ := List.mem_iff_getElem?.mp hzip
  obtain ⟨hcopy, hbit⟩ := List.getElem?_zip_eq_some.mp hm
  have hmem := List.mem_of_getElem? hcopy
  refine ⟨hmem, standing_parked ht (List.mem_map_of_mem (f := Prod.fst) hmem) ?_⟩
  have hne : (others ++ (copy.map Prod.fst).map potKey ++ later).isEmpty = false := by
    cases copy with
    | nil => cases hmem
    | cons => simp
  simp only at hlanded
  rw [hlanded, List.getElem?_drop] at hbit
  simp only [Sys.parked, hne, Bool.false_eq_true, if_false] at hbit ⊢
  rw [Table.parkBatch, ChangePark.parkAll_seq]
  refine ChangePark.parkAll_landed _ (others.length + m) ?_ hbit
  rw [List.getElem?_append_left, List.getElem?_append_right (Nat.le_add_right _ _)]
  · simp [hcopy]
  · simp only [List.length_append, List.length_map]
    have := (List.getElem?_eq_some_iff.mp hcopy).1
    omega

theorem Sys.Sound.forget (h : σ.Sound) {j : Nat} {parked : List (α × Nat)} (hj : σ.skips j = .forgetting parked) :
    Sys.Sound { σ with isolate := σ.isolate.forget parked } := by
  have hsub {p : α × Nat} (hp : p ∈ (σ.isolate.forget parked).set) : p ∈ σ.isolate.set := List.mem_of_mem_filter hp
  have hf : Follows σ { σ with isolate := σ.isolate.forget parked } :=
    ⟨{ h.timed with set := fun p hp => h.timed.set p (hsub hp) }, rfl, fun _ => le_rfl,
      fun o => covered_of rfl le_rfl (fun _ hr => hr) (fun hb => .inr (.inl hb)) id⟩
  refine ⟨hf.timed, hf.kept h.kept (fun o hm hn => .inl ⟨hm, hn⟩) (fun k l hk p hp hset => .inl ⟨hk, hsub hset⟩) fun o ho hb => ?_⟩
  rcases hb with ⟨v, hv⟩ | hc
  · by_cases hgone : (o, v) ∈ parked
    · exact .inr (.inr (hf.covered o (h.kept.skips j parked hj (o, v) hgone hv) ho))
    · exact .inl ⟨v, List.mem_filter.mpr ⟨hv, by simpa using hgone⟩⟩
  · exact .inr (.inl hc)

/-! ### A drain of the parked rows -/

theorem Sys.Sound.unpark (h : σ.Sound) (d : Nat) :
    Sys.Sound { σ with table := unparkAll (rowsOf (σ.drains d).rows (σ.drains d).ship.out.delivered) σ.table } := by
  refine h.setTable (fun r hr => ?_) (by rw [unparkAll_seq]) fun o hr => standing_unparkAll rfl hr
  rw [unparkAll_seq]
  exact h.timed.rows r (mem_unparkAll.mp hr).1

theorem Sys.Sound.refuse (h : σ.Sound) (now : Nat) (rows : List (Row α)) :
    Sys.Sound { σ with table := (refuseAll now rows σ.table []).1 } := by
  refine h.setTable (fun r hr => ?_) (by rw [refuseAll_seq]) fun o hr => standing_keeps (fun r hr _ _ => refuseAll_keeps now rows [] hr) hr
  obtain ⟨r₀, hr₀, hg⟩ := refuseAll_comes hr
  rw [refuseAll_seq, ← hg]
  exact h.timed.rows r₀ hr₀

variable (readable : α → Bool)

theorem sound_step {σ σ' : Sys α} {a : Act α} (h : σ.Sound) (hmeets : a.Meets σ) (hstep : σ.step readable a = some σ') : σ'.Sound := by
  cases a with
  | note o =>
    cases hstep
    exact h.note o
  | drain i =>
    simp only [Sys.step] at hstep
    split at hstep
    · rename_i hi
      cases hstep
      exact h.drain hi
    · cases hstep
  | start i =>
    simp only [Sys.step] at hstep
    split at hstep
    · rename_i s hi
      obtain ⟨s', hs, rfl⟩ := Option.map_eq_some_iff.mp hstep
      exact h.ship hi σ.heard (fun _ => le_rfl) fun o _ hc => hc.start (h.timed.noted o) hs
    · cases hstep
  | pass i =>
    simp only [Sys.step] at hstep
    split at hstep
    · rename_i s hi
      obtain ⟨s', hs, rfl⟩ := Option.map_eq_some_iff.mp hstep
      exact h.ship hi σ.heard (fun _ => le_rfl) fun o _ hc => hc.pass hs
    · cases hstep
  | answer i post =>
    simp only [Sys.step] at hstep
    split at hstep
    · rename_i s hi
      obtain ⟨s', hs, rfl⟩ := Option.map_eq_some_iff.mp hstep
      refine h.ship hi (hearing σ.heard post s.flight) (le_hearing post s.flight) fun o ho hc => (hc.answer hs).resolve_right ?_
      rintro ⟨chunk, stamp, dropped, hf, hmem, hle, rfl⟩
      rw [hf] at ho
      exact (ho.trans_le (hle.trans (le_hearing_of_mem hmem))).false
    · cases hstep
  | settle i =>
    simp only [Sys.step] at hstep
    split at hstep
    · rename_i s hi
      split at hstep
      · rename_i hover
        cases hstep
        exact h.settle hi hover (hmeets s hi)
      · cases hstep
    · cases hstep
  | commit i now others later outcome =>
    simp only [Sys.step] at hstep
    split at hstep
    · rename_i parks hi
      have hp := h.parked now others parks later
      cases outcome with
      | ran =>
        cases hstep
        exact hp.commit hi _ fun o ho => (mem_parkFull ho).imp_right (standing_parked h.timed ho)
      | faulted landed =>
        cases hstep
        cases landed with
        | false => exact h.commit hi parks fun o ho => .inl ho
        | true => exact hp.commit hi parks fun o ho => .inl ho
    · cases hstep
  | snapshot j =>
    simp only [Sys.step] at hstep
    split at hstep
    · cases hstep
      exact h.setSkip j _ h.timed.set fun _ hc => by cases hc
    · cases hstep
  | park j now others later outcome =>
    simp only [Sys.step] at hstep
    split at hstep
    · rename_i copy hj
      have hp := h.parked now others (copy.map Prod.fst) later
      have hold : (Skip.parking copy).Old σ.isolate.version := hj ▸ h.timed.skips j
      cases outcome with
      | ran =>
        cases hstep
        refine hp.setSkip j (.forgetting _) (fun p hp => hold p (standing_landed h.timed hp).1) fun l hl p hp => ?_
        cases hl
        exact fun _ => .inl (standing_landed h.timed hp).2
      | faulted landed =>
        cases hstep
        cases landed with
        | false => exact h.setSkip j .done trivial fun _ hc => by cases hc
        | true => exact hp.setSkip j .done trivial fun _ hc => by cases hc
    · cases hstep
  | forget j =>
    simp only [Sys.step] at hstep
    split at hstep
    · rename_i parked hj
      cases hstep
      exact (h.forget hj).setSkip j .done trivial fun _ hc => by cases hc
    · cases hstep
  | read d now =>
    simp only [Sys.step] at hstep
    split at hstep
    · cases hstep
      refine h.setDrain σ.heard (fun _ => le_rfl) (fun r hr => h.timed.rows r (ChangePark.mem_read hr).1) ?_
      rintro o g - ⟨-, hd | ⟨c, st, hc, -⟩⟩
      · cases hd
      · cases hc
    · cases hstep
  | startParked d =>
    simp only [Sys.step] at hstep
    split at hstep
    · obtain ⟨s', hs, rfl⟩ := Option.map_eq_some_iff.mp hstep
      exact h.drainShip d _ s' _ σ.heard (fun _ => le_rfl) fun o _ hl => Ship.Late.start hs (h.timed.noted o) hl
    · obtain ⟨s', hs, rfl⟩ := Option.map_eq_some_iff.mp hstep
      exact h.drainShip d _ s' _ σ.heard (fun _ => le_rfl) fun o _ hl => Ship.Late.startAlone hs (h.timed.noted o) hl
    · cases hstep
  | passParked d =>
    simp only [Sys.step] at hstep
    split at hstep
    · obtain ⟨s', hs, rfl⟩ := Option.map_eq_some_iff.mp hstep
      exact h.drainShip d _ s' _ σ.heard (fun _ => le_rfl) fun o _ hl => Ship.Late.pass hs hl
    · cases hstep
  | answerParked d post =>
    simp only [Sys.step] at hstep
    split at hstep
    · obtain ⟨s', hs, rfl⟩ := Option.map_eq_some_iff.mp hstep
      exact h.drainShip d _ s' _ (hearing σ.heard post _) (le_hearing post _) fun o ho hl => Ship.Late.answer hs ho hl
    · obtain ⟨s', hs, rfl⟩ := Option.map_eq_some_iff.mp hstep
      refine h.drainShip d _ s' _ (hearing σ.heard post _) (le_hearing post _) fun o ho hl => Ship.Late.answerAlone ?_ hs ho hl
      intro haccepted
      cases post with
      | accepted dropped => exact ⟨dropped, rfl⟩
      | past => cases haccepted
      | failed => cases haccepted
      | unacknowledged => cases haccepted
    · cases hstep
  | isolate d =>
    simp only [Sys.step] at hstep
    split at hstep
    · cases hstep
      exact h.drainShip d _ _ _ σ.heard (fun _ => le_rfl) fun o _ hl => hl
    · cases hstep
  | stop d =>
    simp only [Sys.step] at hstep
    split at hstep
    · cases hstep
      exact h.drainShip d _ _ _ σ.heard (fun _ => le_rfl) fun o _ hl => hl
    · cases hstep
  | unpark d landed =>
    simp only [Sys.step] at hstep
    split at hstep
    · cases hstep
      cases landed with
      | false => exact h.drainShip d _ _ _ σ.heard (fun _ => le_rfl) fun o _ hl => hl
      | true => exact (h.unpark d).drainShip d _ _ _ σ.heard (fun _ => le_rfl) fun o _ hl => hl
    · cases hstep
  | refuse d now landed =>
    simp only [Sys.step] at hstep
    split at hstep
    · cases hstep
      have idle {σ : Sys α} (h : σ.Sound) : Sys.Sound { σ with drains := Function.update σ.drains d { phase := .done }, heard := σ.heard } := by
        refine h.setDrain σ.heard (fun _ => le_rfl) (by simp) ?_
        rintro o g - ⟨⟨r, hr, -⟩, -⟩
        cases hr
      cases landed with
      | false => exact idle h
      | true => exact idle (h.refuse now _)
    · cases hstep
  | cancel d =>
    cases hstep
    refine h.setDrain σ.heard (fun _ => le_rfl) (by simp) ?_
    rintro o g - ⟨⟨r, hr, -⟩, -⟩
    cases hr
  | sweep kind now =>
    cases hstep
    refine h.others rfl (fun r hr => (ChangePark.mem_sweep.mp hr).1) fun r hr hk => ChangePark.mem_sweep.mpr ⟨hr, fun hgone => ?_⟩
    have hkind : kind = .pot := (ChangePark.swept_kind hgone).symm.trans hk
    subst hkind
    rw [hmeets rfl] at hgone
    cases hgone
  | parkElse now keys =>
    cases hstep
    exact h.parkBatch now keys
  | unparkElse k g =>
    simp only [Sys.step] at hstep
    split at hstep
    · cases hstep
    · rename_i hk
      cases hstep
      refine h.others rfl (fun r hr => (ChangePark.mem_unpark.mp hr).1) fun r hr hpot => ChangePark.mem_unpark.mpr ⟨hr, fun hsame => hk ?_⟩
      rw [← hsame.1]
      exact hpot

/-! ## The runs -/

def MeetsAll : Sys α → List (Act α) → Prop
  | _, [] => True
  | σ, a :: rest => a.Meets σ ∧ ∀ σ', σ.step readable a = some σ' → MeetsAll σ' rest

theorem sound_run {σ σ' : Sys α} (acts : List (Act α)) (h : σ.Sound) (hmeets : MeetsAll readable σ acts)
    (hrun : σ.run readable acts = some σ') : σ'.Sound := by
  induction acts generalizing σ with
  | nil =>
    cases hrun
    exact h
  | cons a acts ih =>
    obtain ⟨σ₁, hstep, hrest⟩ := Option.bind_eq_some_iff.mp hrun
    exact ih (sound_step readable h hmeets.1 hstep) (hmeets.2 σ₁ hstep) hrest

/-- Where no flush is in flight, an outpoint noted after the start of the last
accepted POST that carried it is in the set, has a row, or was counted as missed. -/
theorem noted_at_rest (acts : List (Act α)) {σ : Sys α} (hrun : ({} : Sys α).run readable acts = some σ)
    (hmeets : MeetsAll readable {} acts) (hquiet : ∀ i, σ.flushes i = .idle ∨ σ.flushes i = .done) (o : α) (howed : σ.Owed o) :
    σ.isolate.Noted o ∨ (∃ r ∈ σ.table.rows, r.key = potKey o) ∨ σ.counted o = true := by
  rcases (sound_run readable acts sound_empty hmeets hrun).kept.owed o howed with hn | ⟨i, hi⟩ | ⟨r, hr, hk, -⟩ | ⟨i, hi⟩ | hc
  · exact .inl hn
  · rcases hquiet i with hq | hq <;> rw [hq] at hi <;> exact hi.elim
  · exact .inr (.inl ⟨r, hr, hk⟩)
  · rcases hquiet i with hq | hq <;> rw [hq] at hi <;> exact hi.elim
  · exact .inr (.inr hc)

end

/-! ## Runs of one outpoint -/

section
variable {α : Type} [LinearOrder α] (readable : α → Bool)

def Act.flush : Act α → Option Nat
  | .drain i | .start i | .pass i | .answer i _ | .settle i | .commit i _ _ _ _ => some i
  | _ => none

variable {σ σ' : Sys α}

theorem step_flushes {a : Act α} {i : Nat} (hi : a.flush ≠ some i) (hstep : σ.step readable a = some σ') :
    σ'.flushes i = σ.flushes i := by
  have update {j : Nat} (f : Flush α) (hj : some j ≠ some i) : Function.update σ.flushes j f i = σ.flushes i :=
    Function.update_of_ne (fun h => hj (by rw [h])) _ _
  cases a <;> simp only [Sys.step] at hstep <;>
    first
    | (cases hstep; rfl)
    | (split at hstep <;> first
        | contradiction
        | (cases hstep; exact update _ hi)
        | (cases hstep; rfl)
        | (obtain ⟨s, -, rfl⟩ := Option.map_eq_some_iff.mp hstep; exact update _ hi)
        | (obtain ⟨s, -, rfl⟩ := Option.map_eq_some_iff.mp hstep; rfl)
        | (split at hstep <;> first | contradiction | (cases hstep; exact update _ hi) | (cases hstep; rfl)))

theorem run_flushes {acts : List (Act α)} {i : Nat} (hi : ∀ a ∈ acts, a.flush ≠ some i)
    (hrun : σ.run readable acts = some σ') : σ'.flushes i = σ.flushes i := by
  induction acts generalizing σ with
  | nil =>
    cases hrun
    rfl
  | cons a acts ih =>
    obtain ⟨σ₁, hstep, hrest⟩ := Option.bind_eq_some_iff.mp hrun
    obtain ⟨ha, hacts⟩ := List.forall_mem_cons.mp hi
    rw [ih hacts hrest, step_flushes readable ha hstep]

local instance lawfulKept : LawfulBEq α := inferInstance

def Act.calm (σ : Sys α) : Act α → Bool
  | .settle i => match σ.flushes i with
    | .shipping s => s.out.failed.all fun o => decide (o ∉ σ.isolate.memory.retried) || decide (σ.noted o ≤ σ.entered o)
    | _ => true
  | .sweep kind _ => kind != .pot
  | _ => true

def calmAll : Sys α → List (Act α) → Bool
  | _, [] => true
  | σ, a :: rest => a.calm σ && (σ.step readable a).all fun σ' => calmAll σ' rest

theorem meets_of_calm {a : Act α} (h : a.calm σ = true) : a.Meets σ := by
  cases a with
  | settle i =>
    intro s hs o ho hm hlt
    simp only [Act.calm, hs, List.all_eq_true, Bool.or_eq_true, decide_eq_true_eq] at h
    rcases h o ho with hm' | hle
    · exact (hm' hm).elim
    · omega
  | sweep kind now =>
    intro hk
    simp [Act.calm, hk] at h
  | _ => trivial

theorem meetsAll_of_calm {acts : List (Act α)} (h : calmAll readable σ acts = true) : MeetsAll readable σ acts := by
  induction acts generalizing σ with
  | nil => trivial
  | cons a acts ih =>
    simp only [calmAll, Bool.and_eq_true] at h
    refine ⟨meets_of_calm h.1, fun σ' hstep => ih ?_⟩
    simpa [hstep] using h.2

end

def potOutpoint : String := "5e5e5e5e5e5e5e5e5e5e5e5e5e5e5e5e5e5e5e5e5e5e5e5e5e5e5e5e5e5e5e5e:0"

def failedFlush (i now : Nat) : List (Act String) := [.drain i, .start i, .answer i .failed, .settle i, .commit i now [] [] .ran]

def acceptedDrain (d now : Nat) : List (Act String) :=
  [.read d now, .startParked d, .answerParked d (.accepted 0), .isolate d, .stop d, .unpark d true, .refuse d now true]

def potSys (acts : List (Act String)) : Option (Sys String) := ({} : Sys String).run (fun _ => true) acts

def Flush.isDone : Flush String → Bool
  | .done => true
  | _ => false

/-- The outpoint is owed, and the flushes `0` and `1`, the only ones of the run, are done. -/
def owedQuiet (acts : List (Act String)) (σ : Sys String) : Bool :=
  decide (σ.heard potOutpoint < σ.noted potOutpoint) && (σ.flushes 0).isDone && (σ.flushes 1).isDone &&
    acts.all fun a => a.flush.all fun i => decide (i < 2)

theorem owedQuiet_spec {acts : List (Act String)} {σ : Sys String} (hrun : potSys acts = some σ) (h : owedQuiet acts σ = true) :
    σ.Owed potOutpoint ∧ ∀ i, σ.flushes i = .idle ∨ σ.flushes i = .done := by
  simp only [owedQuiet, Bool.and_eq_true, decide_eq_true_eq, List.all_eq_true] at h
  obtain ⟨⟨⟨howed, h₀⟩, h₁⟩, hacts⟩ := h
  refine ⟨howed, fun i => ?_⟩
  have isDone {f : Flush String} (hf : f.isDone = true) : f = .done := by
    cases f <;> first | rfl | cases hf
  by_cases hi : i < 2
  · obtain rfl | rfl : i = 0 ∨ i = 1 := by omega
    · exact .inr (isDone h₀)
    · exact .inr (isDone h₁)
  · refine .inl (run_flushes _ (fun a ha hf => hi ?_) hrun)
    have := hacts a ha
    rw [hf] at this
    simpa using this

def parkedRun : List (Act String) := .note potOutpoint :: failedFlush 0 5 ++ failedFlush 1 6

theorem noted_at_rest_parked : ∃ σ, potSys parkedRun = some σ ∧ σ.Owed potOutpoint ∧
    (σ.isolate.Noted potOutpoint ∨ (∃ r ∈ σ.table.rows, r.key = potKey potOutpoint) ∨ σ.counted potOutpoint = true) := by
  have hmeets : MeetsAll (fun _ => true) ({} : Sys String) parkedRun := meetsAll_of_calm _ (by decide +kernel)
  have hrun : (potSys parkedRun).any (owedQuiet parkedRun) = true := by decide +kernel
  obtain ⟨σ, hσ, hfacts⟩ := (Option.any_eq_true _ _).mp hrun
  obtain ⟨howed, hquiet⟩ := owedQuiet_spec hσ hfacts
  exact ⟨σ, hσ, howed, noted_at_rest _ parkedRun hσ hmeets hquiet potOutpoint howed⟩

def droppedRun : List (Act String) :=
  .note potOutpoint :: failedFlush 0 5 ++ acceptedDrain 0 6 ++ .note potOutpoint :: failedFlush 1 7

theorem dropped_run_lost : ¬∀ acts σ, potSys acts = some σ → (∀ i, σ.flushes i = .idle ∨ σ.flushes i = .done) → ∀ o, σ.Owed o →
    σ.isolate.Noted o ∨ (∃ r ∈ σ.table.rows, r.key = potKey o) ∨ σ.counted o = true := by
  intro h
  have hrun : (potSys droppedRun).any (fun σ => owedQuiet droppedRun σ && σ.isolate.set.isEmpty && σ.table.rows.isEmpty &&
      !σ.counted potOutpoint) = true := by decide +kernel
  obtain ⟨σ, hσ, hfacts⟩ := (Option.any_eq_true _ _).mp hrun
  simp only [Bool.and_eq_true, List.isEmpty_iff, Bool.not_eq_true'] at hfacts
  obtain ⟨⟨⟨hq, hset⟩, hrows⟩, hcounted⟩ := hfacts
  obtain ⟨howed, hquiet⟩ := owedQuiet_spec hσ hq
  rcases h droppedRun σ hσ hquiet potOutpoint howed with ⟨v, hv⟩ | ⟨r, hr, -⟩ | hc
  · rw [hset] at hv
    cases hv
  · rw [hrows] at hr
    cases hr
  · rw [hcounted] at hc
    cases hc

end OverlayEngine.PotChanges
