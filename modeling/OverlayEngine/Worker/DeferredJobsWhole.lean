import OverlayEngine.Worker.DeferredJobs

/-!
# An open deferred job keeps its bytes

A job row that is queued or running names bytes that are at rest, or that a save
under way still writes. The statements of a run do not read whether the row was
settled, released or queued anew since the run took it: the condition says which
row each of them must find.
-/

namespace OverlayEngine.DeferredJobs

open DeferredGraphs (Fate)

/-! ## The chunks joined are the stream -/

theorem flatten_spans (stream : List UInt8) (c n : Nat) :
    ((List.range n).map fun i => (stream.drop (i * c)).take (min ((i + 1) * c) stream.length - i * c)).flatten = stream.take (n * c) := by
  induction n with
  | zero => simp
  | succ n ih =>
    have hlast : (stream.drop (n * c)).take (min ((n + 1) * c) stream.length - n * c) = (stream.drop (n * c)).take c := by
      rw [List.take_eq_take_iff, List.length_drop, Nat.succ_mul]
      omega
    rw [List.range_succ, List.map_append, List.flatten_append, ih, List.map_singleton, List.flatten_singleton, hlast, Nat.succ_mul, List.take_add]

theorem Submission.join (sub : Submission) : sub.spans.flatten = sub.stream := by
  by_cases hlen : sub.stream.length = 0
  · have hnil : sub.stream = [] := List.length_eq_zero_iff.mp hlen
    simp [Submission.spans, chunkSpans, Submission.span, hnil]
  · simp only [Submission.spans, chunkSpans, if_neg hlen, List.map_map]
    refine (flatten_spans sub.stream atRestChunkBytes _).trans (List.take_of_length_le ?_)
    have hdiv := Nat.div_add_mod (sub.stream.length + atRestChunkBytes - 1) atRestChunkBytes
    have hmod := Nat.mod_lt (sub.stream.length + atRestChunkBytes - 1) (show 0 < atRestChunkBytes by decide)
    rw [Nat.mul_comm]
    unfold atRestChunkBytes at *
    omega

theorem Submission.spans_pos (sub : Submission) : 0 < sub.spans.length := by
  rw [Submission.spans, List.length_map, chunkSpans]
  split
  · exact Nat.one_pos
  · rename_i hlen
    rw [List.length_map, List.length_range]
    exact Nat.div_pos (by unfold atRestChunkBytes; omega) (by decide)

/-! ## The condition -/

def Job.writes : Job → Option Nat
  | .chunk i _ _ => some i
  | _ => none

/-- A save under way that has bytes at rest under `store`, its row still to come. -/
def Job.relies (store : AtRest) : Job → Bool
  | .chunk i _ _ => decide (store = .d1) && decide (0 < i)
  | .upsert s _ _ => decide (s = store)
  | _ => false

def Job.took : Job → Option Nat
  | .loadObject _ t | .loadChunk _ t _ _ | .arm _ t | .advance _ _ t => some t
  | .settle _ _ _ t => t
  | _ => none

namespace World
variable (sub : Submission)

def HeldChunk (w : World) (k : Nat) : Prop := w.chunks k = sub.spans[k]? ∨ ∃ j ∈ w.jobs, ∃ m ≤ k, j.writes = some m

def Held (w : World) : AtRest → Prop
  | .r2 => w.object = some sub.stream
  | .d1 => ∀ k < sub.spans.length, w.HeldChunk sub k

def Safe (w : World) (store : AtRest) : Prop := w.Held sub store ∧ .release store ∉ w.jobs

/-- Someone other than job `i` needs the bytes under `store`: an open row names them, or a save has written some. -/
def Needs (w : World) (store : AtRest) (i : Nat) : Prop :=
  (∃ r, w.row = some r ∧ r.state.isOpen = true ∧ r.atRest = store) ∨ ∃ j ∈ w.jobs.set i .finished, j.relies store = true

/-- Where a save ends before its last chunk: nobody else needs the chunks, or what stands in `chunks` and the other saves cover them. -/
def Spared (w : World) (i : Nat) (chunks : Nat → Option (List UInt8)) : Prop :=
  w.Needs .d1 i → ∀ k < sub.spans.length, chunks k = sub.spans[k]? ∨ ∃ j ∈ w.jobs.set i .finished, ∃ m ≤ k, j.writes = some m

def MayOpen (w : World) : Prop := ∀ r, w.row = some r → r.state.isOpen = true ∨ w.Safe sub r.atRest

def Finds (w : World) (i : Nat) (fate : Fate) : Job → Prop
  | .wipe _ _ => fate = .faulted true → w.Spared sub i fun _ => none
  | .chunk _ _ _ => fate ≠ .ok → w.Spared sub i w.chunks
  | .upsert store _ _ => fate.effect = true → .release store ∉ w.jobs ∧ ∀ j ∈ w.jobs, j.took = none
  | .take _ _ => fate.effect = true → w.MayOpen sub
  | .touch _ => fate.effect = true → w.MayOpen sub
  | .advance reached _ _ => fate.effect = true → (∀ r, w.row = some r → r.legsFrom < reached) → w.MayOpen sub
  | .settle state _ frees _ =>
    (fate.effect = true → state.isOpen = true → w.MayOpen sub) ∧
      ∀ store, frees = some store → fate.effect = true ∨ ∀ r, w.row = some r → r.state.isOpen = true → r.atRest ≠ store
  | .release store => fate.effect = true → ∀ j ∈ w.jobs, j.relies store = false
  | _ => True

def Meets (w : World) : Move → Prop
  | .go i fate _ => ∀ job, w.jobs[i]? = some job → w.Finds sub i fate job
  | .die i => ∀ m legsFrom now, w.jobs[i]? = some (.chunk m legsFrom now) → w.Spared sub i w.chunks
  | _ => True

def MeetsAll (w : World) : List Move → Prop
  | [] => True
  | m :: ms => w.Meets sub m ∧ (w.step sub m).MeetsAll ms

end World

/-! ## What stands -/

def Job.Sound (sub : Submission) (w : World) (j : Job) : Prop :=
  (∀ t, j.took = some t → t = w.upserts) ∧
    match j with
    | .chunk m _ _ => ∀ k < m, k < sub.spans.length → w.HeldChunk sub k
    | .upsert store _ _ => w.Held sub store
    | .settle state _ frees _ => state.isOpen = true ↔ frees = none
    | _ => True

structure World.Sound (sub : Submission) (w : World) : Prop where
  row : ∀ r, w.row = some r → (r.atRest = .d1 → r.chunks = sub.spans.length) ∧ (r.state.isOpen = true → w.Safe sub r.atRest)
  jobs : ∀ j ∈ w.jobs, j.Sound sub w
  kept : w.overwritten = 0

section
variable {sub : Submission} {w w' : World} {i : Nat} {job job' : Job}

/-! ## Replacing one call's step -/

theorem mem_set_or {l : List Job} {j a : Job} (b : Job) (h : j ∈ l.set i a) : j = a ∨ j ∈ l.set i b ∧ j ∈ l := by
  obtain ⟨k, hk⟩ := List.mem_iff_getElem?.mp h
  rw [List.getElem?_set] at hk
  by_cases hik : i = k
  · rw [if_pos hik] at hk
    split at hk
    · exact Or.inl (Option.some.inj hk).symm
    · cases hk
  · rw [if_neg hik] at hk
    refine Or.inr ⟨List.mem_iff_getElem?.mpr ⟨k, ?_⟩, List.mem_of_getElem? hk⟩
    rw [List.getElem?_set, if_neg hik]
    exact hk

theorem mem_set_of_ne {l : List Job} {j a b : Job} (hi : l[i]? = some a) (hj : j ∈ l) (hne : j ≠ a) : j ∈ l.set i b := by
  obtain ⟨k, hk⟩ := List.mem_iff_getElem?.mp hj
  refine List.mem_iff_getElem?.mpr ⟨k, ?_⟩
  rw [List.getElem?_set]
  by_cases hik : i = k
  · subst hik
    rw [hi] at hk
    exact absurd (Option.some.inj hk).symm hne
  · rw [if_neg hik]
    exact hk

variable {legsFrom k m status : Nat}

theorem writes_set (hi : w.jobs[i]? = some job) (hw : job.writes = none) (b : Job) (h : ∃ j ∈ w.jobs, ∃ m ≤ k, j.writes = some m) :
    ∃ j ∈ w.jobs.set i b, ∃ m ≤ k, j.writes = some m := by
  obtain ⟨j, hj, m, hm, hjw⟩ := h
  refine ⟨j, mem_set_of_ne hi hj ?_, m, hm, hjw⟩
  rintro rfl
  rw [hw] at hjw
  cases hjw

/-- What someone needs of `w` is kept in `w'`. -/
def Keeps (sub : Submission) (w w' : World) : AtRest → Prop
  | .r2 => w.object = some sub.stream → w'.object = some sub.stream
  | .d1 => ∀ k < sub.spans.length, w.HeldChunk sub k → w'.HeldChunk sub k

variable {store : AtRest}

theorem Keeps.held (h : Keeps sub w w' store) (hh : w.Held sub store) : w'.Held sub store := by
  cases store with
  | r2 => exact h hh
  | d1 => exact fun k hk => h k hk (hh k hk)

variable (job') in
theorem World.Sound.move (h : w.Sound sub) (hrow : w'.row = w.row) (hups : w'.upserts = w.upserts) (hover : w'.overwritten = w.overwritten)
    (hjobs : w'.jobs = w.jobs.set i job') (hkeeps : ∀ store, w.Needs store i → Keeps sub w w' store) (hj : job'.Sound sub w')
    (hrel : ∀ store, job' = .release store → ∀ r, w.row = some r → r.state.isOpen = true → r.atRest ≠ store) : w'.Sound sub where
  row := by
    intro r hr
    rw [hrow] at hr
    obtain ⟨hc, hs⟩ := h.row r hr
    refine ⟨hc, fun ho => ⟨(hkeeps r.atRest (Or.inl ⟨r, hr, ho, rfl⟩)).held (hs ho).1, fun hm => ?_⟩⟩
    rw [hjobs] at hm
    rcases mem_set_or .finished hm with he | ⟨-, hm⟩
    · exact hrel r.atRest he.symm r hr ho rfl
    · exact (hs ho).2 hm
  jobs := by
    intro j hm
    rw [hjobs] at hm
    rcases mem_set_or .finished hm with rfl | ⟨hset, hm⟩
    · exact hj
    · obtain ⟨ht, hs⟩ := h.jobs j hm
      refine ⟨fun t he => by rw [hups]; exact ht t he, ?_⟩
      cases j with
      | chunk m legsFrom now =>
        intro k hk hn
        have hneeds : w.Needs .d1 i := Or.inr ⟨_, hset, by simp [Job.relies]; omega⟩
        exact hkeeps .d1 hneeds k hn (hs k hk hn)
      | upsert store legsFrom now => exact (hkeeps store (Or.inr ⟨_, hset, by simp [Job.relies]⟩)).held hs
      | settle state status frees took => exact hs
      | _ => trivial
  kept := by
    rw [hover]
    exact h.kept

variable (job') in
theorem World.Sound.put (h : w.Sound sub) (hi : w.jobs[i]? = some job) (hw : job.writes = none) (hj : job'.Sound sub (w.put i job'))
    (hrel : ∀ store, job' = .release store → ∀ r, w.row = some r → r.state.isOpen = true → r.atRest ≠ store) : (w.put i job').Sound sub := by
  refine h.move job' rfl rfl rfl rfl ?_ hj hrel
  rintro (_ | _) -
  · exact fun k _ hh => hh.imp id (writes_set hi hw job')
  · exact id

theorem World.Sound.row_put (h : w.Sound sub) {row : Option Row} (hr : ∀ r, row = some r →
    (r.atRest = .d1 → r.chunks = sub.spans.length) ∧ (r.state.isOpen = true → w.Safe sub r.atRest)) : World.Sound sub { w with row := row } where
  row := hr
  jobs := h.jobs
  kept := h.kept

theorem World.Sound.row_map (h : w.Sound sub) {f : Row → Row} (hf : ∀ r, (f r).atRest = r.atRest ∧ (f r).chunks = r.chunks)
    (ho : ∀ r, w.row = some r → (f r).state.isOpen = true → r.state.isOpen = true ∨ w.Safe sub r.atRest) :
    World.Sound sub { w with row := w.row.map f } := by
  refine h.row_put fun r' hr' => ?_
  obtain ⟨r, hr, rfl⟩ := Option.map_eq_some_iff.mp hr'
  obtain ⟨hc, hs⟩ := h.row r hr
  rw [(hf r).1, (hf r).2]
  exact ⟨hc, fun hopen => (ho r hr hopen).elim hs id⟩

theorem World.Sound.row_if (h : w.Sound sub) {c : Prop} [Decidable c] (row : Option Row) (hc : c → World.Sound sub { w with row := row }) :
    World.Sound sub { w with row := if c then row else w.row } := by
  by_cases hcc : c
  · rw [if_pos hcc]
    exact hc hcc
  · rw [if_neg hcc]
    exact h

def Job.Easy (n : Nat) : Job → Prop
  | .chunk _ _ _ | .upsert _ _ _ | .release _ => False
  | .settle state _ frees took => (state.isOpen = true ↔ frees = none) ∧ ∀ t, took = some t → t = n
  | .loadObject _ t | .loadChunk _ t _ _ | .arm _ t | .advance _ _ t => t = n
  | _ => True

theorem Job.Easy.sound (h : job.Easy w.upserts) : job.Sound sub w := by
  cases job with
  | chunk m legsFrom now => exact h.elim
  | upsert store legsFrom now => exact h.elim
  | settle state status frees took => exact ⟨h.2, h.1⟩
  | loadObject r t => exact ⟨fun t' he => Option.some.inj he ▸ h, trivial⟩
  | loadChunk r t k out => exact ⟨fun t' he => Option.some.inj he ▸ h, trivial⟩
  | arm r t => exact ⟨fun t' he => Option.some.inj he ▸ h, trivial⟩
  | advance reached status t => exact ⟨fun t' he => Option.some.inj he ▸ h, trivial⟩
  | _ => exact ⟨fun _ h => (by cases h), trivial⟩

variable (job') in
theorem World.Sound.easy (h : w.Sound sub) (hi : w.jobs[i]? = some job) (hw : job.writes = none) (he : job'.Easy w.upserts) :
    (w.put i job').Sound sub := by
  refine h.put job' hi hw (Job.Easy.sound he) ?_
  rintro store rfl
  exact he.elim

variable {fate : Fate}

theorem easy_orEnd {n : Nat} (h : job.Easy n) : (orEnd fate job).Easy n := by
  unfold orEnd
  split
  · exact h
  · trivial

theorem easy_unreadable (r : Row) (n : Nat) : (unreadable r n).Easy n := ⟨by simp [State.isOpen], fun _ he => (Option.some.inj he).symm⟩

theorem easy_verified (r : Row) (n : Nat) (bytes : List UInt8) : (verified sub r n bytes).Easy n := by
  unfold verified
  split
  · exact rfl
  · exact easy_unreadable r n

theorem easy_nextRead (r : Row) (n k : Nat) (out : List UInt8) : (nextRead sub r n k out).Easy n := by
  unfold nextRead
  split
  · exact rfl
  · exact easy_verified r n out

theorem easy_load (r : Row) (n : Nat) : (load sub r n).Easy n := by
  unfold load
  split
  · exact rfl
  · exact easy_nextRead r n 0 []

theorem easy_afterRead (r : Row) (now : Int) (n : Nat) : (afterRead r now).Easy n := by
  unfold afterRead
  split
  · trivial
  · trivial
  · split
    · trivial
    · split
      · exact ⟨by simp [State.isOpen], fun _ h => (by cases h)⟩
      · trivial

theorem easy_afterArm (r : Row) (n : Nat) (a : Answer) : (afterArm r n a).Easy n := by
  have hagain : (Job.settle .queued a.status none (some n)).Easy n := ⟨by simp [State.isOpen], fun _ he => (Option.some.inj he).symm⟩
  unfold afterArm
  split
  · split
    · exact rfl
    · exact hagain
  · split
    · exact ⟨by simp [State.isOpen], fun _ he => (Option.some.inj he).symm⟩
    · exact hagain

/-! ## A save's statements -/

theorem keeps_writers (hi : w.jobs[i]? = some job) (hw : job.writes = none) (hc : w'.chunks = w.chunks) (hj : w'.jobs = w.jobs.set i job') :
    Keeps sub w w' .d1 := by
  intro k _ hh
  unfold World.HeldChunk
  rw [hc, hj]
  exact hh.imp id (writes_set hi hw job')

variable {env : Env} {now : Int}

theorem sound_putObject (h : w.Sound sub) (hi : w.jobs[i]? = some (.putObject legsFrom now)) :
    (w.go sub i fate env (.putObject legsFrom now)).Sound sub := by
  refine h.move (orEnd fate (.upsert .r2 legsFrom now)) rfl rfl rfl rfl ?_ ?_ ?_
  · rintro (_ | _) -
    · exact keeps_writers hi rfl rfl rfl
    · intro hobj
      show (if fate.effect = true then some sub.stream else w.object) = some sub.stream
      rw [hobj, ite_self]
  · cases fate with
    | ok => exact ⟨fun _ h => (by cases h), rfl⟩
    | faulted landed => exact ⟨fun _ h => (by cases h), trivial⟩
  · intro store he
    cases fate <;> cases he

variable {chunks : Nat → Option (List UInt8)}

theorem keeps_spared (hs : w.Spared sub i chunks) (hn : w.Needs .d1 i)
    (hc : ∀ k < sub.spans.length, chunks k = sub.spans[k]? → w'.chunks k = sub.spans[k]?) (hj : w'.jobs = w.jobs.set i .finished) :
    Keeps sub w w' .d1 := by
  intro k hk _
  unfold World.HeldChunk
  rw [hj]
  exact (hs hn k hk).imp (hc k hk) id

theorem sound_wipe (h : w.Sound sub) (hi : w.jobs[i]? = some (.wipe legsFrom now))
    (hm : w.Finds sub i fate (.wipe legsFrom now)) : (w.go sub i fate env (.wipe legsFrom now)).Sound sub := by
  have hlt : i < w.jobs.length := (List.getElem?_eq_some_iff.mp hi).1
  cases fate with
  | ok =>
    have hnext : nextChunk sub 0 legsFrom now = .chunk 0 legsFrom now := if_pos sub.spans_pos
    refine h.move (nextChunk sub 0 legsFrom now) rfl rfl rfl rfl ?_ ?_ ?_
    · rintro (_ | _) -
      · intro k _ _
        refine Or.inr ⟨nextChunk sub 0 legsFrom now, List.mem_set hlt _, 0, Nat.zero_le k, ?_⟩
        rw [hnext]
        rfl
      · exact id
    · rw [hnext]
      exact ⟨fun _ h => (by cases h), fun k hk => absurd hk (Nat.not_lt_zero k)⟩
    · rw [hnext]
      nofun
  | faulted landed =>
    cases landed with
    | false => exact h.easy .finished hi rfl trivial
    | true =>
      refine h.move .finished rfl rfl rfl rfl ?_ ⟨fun _ h => (by cases h), trivial⟩ (by simp)
      rintro (_ | _) hn
      · exact keeps_spared (hm rfl) hn (fun _ _ => id) rfl
      · exact id

theorem update_span (h : chunks k = sub.spans[k]?) :
    Function.update chunks m sub.spans[m]? k = sub.spans[k]? := by
  by_cases hkm : k = m
  · subst hkm
    exact Function.update_self ..
  · rw [Function.update_of_ne hkm]
    exact h

theorem sound_chunk (h : w.Sound sub) (hi : w.jobs[i]? = some (.chunk m legsFrom now))
    (hm : w.Finds sub i fate (.chunk m legsFrom now)) : (w.go sub i fate env (.chunk m legsFrom now)).Sound sub := by
  have hlt : i < w.jobs.length := (List.getElem?_eq_some_iff.mp hi).1
  obtain ⟨-, hbefore⟩ := h.jobs _ (List.mem_of_getElem? hi)
  cases fate with
  | ok =>
    have hkeep : Keeps sub w (w.go sub i .ok env (.chunk m legsFrom now)) .d1 := by
      rintro k hk (hc | ⟨j, hj, m', hm', hjw⟩)
      · exact Or.inl (update_span hc)
      · by_cases hkm : k = m
        · subst hkm
          exact Or.inl (Function.update_self ..)
        · by_cases hji : j = .chunk m legsFrom now
          · subst hji
            cases hjw
            have hnext : nextChunk sub (m + 1) legsFrom now = .chunk (m + 1) legsFrom now := if_pos (by omega)
            refine Or.inr ⟨nextChunk sub (m + 1) legsFrom now, List.mem_set hlt _, m + 1, by omega, ?_⟩
            rw [hnext]
            rfl
          · exact Or.inr ⟨j, mem_set_of_ne hi hj hji, m', hm', hjw⟩
    have hthrough : ∀ k < m + 1, k < sub.spans.length → (w.go sub i .ok env (.chunk m legsFrom now)).HeldChunk sub k := by
      intro k hk hn
      by_cases hkm : k = m
      · subst hkm
        exact Or.inl (Function.update_self ..)
      · exact hkeep k hn (hbefore k (by omega) hn)
    refine h.move (nextChunk sub (m + 1) legsFrom now) rfl rfl rfl rfl ?_ ?_ ?_
    · rintro (_ | _) -
      · exact hkeep
      · exact id
    · by_cases hn : m + 1 < sub.spans.length
      · rw [nextChunk, if_pos hn]
        exact ⟨fun _ h => (by cases h), hthrough⟩
      · rw [nextChunk, if_neg hn]
        exact ⟨fun _ h => (by cases h), fun k hk => hthrough k (by omega) hk⟩
    · intro store he
      unfold nextChunk at he
      split at he <;> cases he
  | faulted landed =>
    refine h.move .finished rfl rfl rfl rfl ?_ ⟨fun _ h => (by cases h), trivial⟩ (by simp)
    rintro (_ | _) hn
    · refine keeps_spared (hm (by simp)) hn (fun k _ hc => ?_) rfl
      show (if (Fate.faulted landed).effect = true then Function.update w.chunks m sub.spans[m]? else w.chunks) k = _
      split
      · exact update_span hc
      · exact hc
    · exact id

theorem sound_upsert (h : w.Sound sub)
    (hi : w.jobs[i]? = some (.upsert store legsFrom now)) (hm : w.Finds sub i fate (.upsert store legsFrom now)) :
    (w.go sub i fate env (.upsert store legsFrom now)).Sound sub := by
  by_cases heff : fate.effect = true
  · obtain ⟨hrel, hruns⟩ := hm heff
    obtain ⟨-, hheld⟩ := h.jobs _ (List.mem_of_getElem? hi)
    have hw : World.Sound sub { w with row := some (sub.queued store legsFrom now), upserts := w.upserts + 1 } := by
      refine ⟨?_, fun j hj => ⟨fun t ht => ?_, (h.jobs j hj).2⟩, h.kept⟩
      · intro r hr
        cases hr
        refine ⟨fun hd => ?_, fun _ => ⟨hheld, hrel⟩⟩
        subst hd
        rfl
      · rw [hruns j hj] at ht
        cases ht
    simp only [World.go, heff, if_true]
    exact hw.easy (orEnd fate .send) hi rfl (easy_orEnd trivial)
  · simp only [World.go, heff, Bool.false_eq_true, if_false]
    exact h.easy (orEnd fate .send) hi rfl (easy_orEnd trivial)

/-! ## A run's statements, the release and the cron -/

theorem past_false {j : Job} (h : j.Sound sub w) : w.past j.took = false := by
  cases ht : j.took with
  | none => rfl
  | some t =>
    rw [h.1 t ht]
    exact decide_eq_false (Nat.lt_irrefl _)

theorem sound_take (h : w.Sound sub) {r : Row} (hi : w.jobs[i]? = some (.take r now))
    (hm : w.Finds sub i fate (.take r now)) : (w.go sub i fate env (.take r now)).Sound sub := by
  have hw := h.row_if (c := fate.effect = true) (w.row.map (·.take now)) fun heff =>
    h.row_map (fun _ => ⟨rfl, rfl⟩) fun r' hr' _ => hm heff r' hr'
  exact hw.easy (orEnd fate (load sub r w.upserts)) hi rfl (easy_orEnd (easy_load r w.upserts))

theorem sound_touch (h : w.Sound sub) (hi : w.jobs[i]? = some (.touch now))
    (hm : w.Finds sub i fate (.touch now)) : (w.go sub i fate env (.touch now)).Sound sub := by
  have hw := h.row_if (c := fate.effect = true) (w.row.map (·.touch now)) fun heff =>
    h.row_map (fun _ => ⟨rfl, rfl⟩) fun r' hr' _ => hm heff r' hr'
  exact hw.easy .finished hi rfl trivial

theorem sound_advance (h : w.Sound sub) {reached took : Nat} (hi : w.jobs[i]? = some (.advance reached status took))
    (hm : w.Finds sub i fate (.advance reached status took)) : (w.go sub i fate env (.advance reached status took)).Sound sub := by
  have hpast : w.past (some took) = false := past_false (h.jobs _ (List.mem_of_getElem? hi))
  have hw := h.row_if (c := (fate.effect && w.row.any fun r => decide (r.legsFrom < reached)) = true) (w.row.map (·.advance reached status w.now))
    fun hl => by
      obtain ⟨heff, hany⟩ := Bool.and_eq_true_iff.mp hl
      refine h.row_map (fun _ => ⟨rfl, rfl⟩) fun r' hr' _ => hm heff (fun r hr => ?_) r' hr'
      rw [hr] at hany
      exact of_decide_eq_true hany
  simp only [World.go, hpast, Bool.and_false, Bool.false_eq_true, if_false]
  exact hw.easy (orEnd fate .send) hi rfl (easy_orEnd trivial)

theorem sound_settle (h : w.Sound sub) {state : State} {frees : Option AtRest} {took : Option Nat}
    (hi : w.jobs[i]? = some (.settle state status frees took)) (hm : w.Finds sub i fate (.settle state status frees took)) :
    (w.go sub i fate env (.settle state status frees took)).Sound sub := by
  obtain ⟨ht, hopen⟩ := h.jobs _ (List.mem_of_getElem? hi)
  have hpast : w.past took = false := past_false (h.jobs _ (List.mem_of_getElem? hi))
  have hw := h.row_if (c := (fate.effect && w.row.isSome) = true) (w.row.map (·.settle state status w.now))
    fun hl => h.row_map (fun _ => ⟨rfl, rfl⟩) fun r' hr' ho => hm.1 (Bool.and_eq_true_iff.mp hl).1 ho r' hr'
  simp only [World.go, hpast, Bool.and_false, Bool.false_eq_true, if_false]
  cases frees with
  | none => exact hw.easy .finished hi rfl trivial
  | some store =>
    refine hw.put (.release store) hi rfl ⟨fun _ h => (by cases h), trivial⟩ ?_
    rintro store' he r hr ho
    cases he
    by_cases hl : (fate.effect && w.row.isSome) = true
    · rw [if_pos hl] at hr
      obtain ⟨r', -, rfl⟩ := Option.map_eq_some_iff.mp hr
      cases hopen.mp ho
    · rw [if_neg hl] at hr
      rcases hm.2 store rfl with heff | hne
      · rw [heff, hr] at hl
        exact absurd rfl hl
      · exact hne r hr ho

theorem sound_release (h : w.Sound sub) (hi : w.jobs[i]? = some (.release store))
    (hm : w.Finds sub i fate (.release store)) : (w.go sub i fate env (.release store)).Sound sub := by
  have hin : Job.release store ∈ w.jobs := List.mem_of_getElem? hi
  have hnone : fate.effect = true → ¬w.Needs store i := by
    rintro heff (⟨r, hr, ho, rfl⟩ | ⟨j, hj, hrel⟩)
    · exact ((h.row r hr).2 ho).2 hin
    · rcases List.mem_or_eq_of_mem_set hj with hj | rfl
      · rw [hm heff j hj] at hrel
        cases hrel
      · cases hrel
  by_cases heff : fate.effect = true
  · cases store with
    | r2 =>
      refine h.move .finished rfl rfl rfl rfl ?_ ⟨fun _ h => (by cases h), trivial⟩ (by simp)
      rintro (_ | _) hn
      · exact keeps_writers hi rfl rfl rfl
      · exact absurd hn (hnone heff)
    | d1 =>
      refine h.move .finished rfl rfl rfl rfl ?_ ⟨fun _ h => (by cases h), trivial⟩ (by simp)
      rintro (_ | _) hn
      · exact absurd hn (hnone heff)
      · exact id
  · have hsame : w.go sub i fate env (.release store) = w.put i .finished := by
      cases store <;> simp only [World.go, heff, Bool.false_eq_true, if_false] <;> rfl
    rw [hsame]
    exact h.easy _ hi rfl trivial

theorem sound_sweep (h : w.Sound sub) (hi : w.jobs[i]? = some (.sweep now)) :
    (w.go sub i fate env (.sweep now)).Sound sub := by
  have hw := h.row_if (c := fate.effect = true ∧ (w.row.filter fun r => r.expired (now - jobKeepMs)).isSome = true) none
    fun _ => h.row_put (by simp)
  cases hdue : w.row.filter fun r => r.expired (now - jobKeepMs) with
  | none =>
    simp only [World.go, hdue] at hw ⊢
    exact hw.easy (orEnd fate .finished) hi rfl (easy_orEnd trivial)
  | some r =>
    simp only [World.go, hdue] at hw ⊢
    cases fate with
    | ok =>
      refine hw.put (.release r.atRest) hi rfl ⟨fun _ h => (by cases h), trivial⟩ ?_
      intro store _ r' hr'
      cases hr'
    | faulted landed => exact hw.easy .finished hi rfl trivial

theorem World.Sound.sending (h : w.Sound sub) (sent : Nat) : World.Sound sub { w with sent := sent } := ⟨h.row, h.jobs, h.kept⟩

theorem sound_go (h : w.Sound sub) (hi : w.jobs[i]? = some job) (hm : w.Finds sub i fate job) :
    (w.go sub i fate env job).Sound sub := by
  cases job with
  | putRead store legsFrom now =>
    refine h.easy _ hi rfl (easy_orEnd ?_)
    split
    · trivial
    · split <;> trivial
  | putObject legsFrom now => exact sound_putObject h hi
  | wipe legsFrom now => exact sound_wipe h hi hm
  | chunk m legsFrom now => exact sound_chunk h hi hm
  | upsert store legsFrom now => exact sound_upsert h hi hm
  | send => exact (h.sending (if fate.effect then w.sent + 1 else w.sent)).easy .finished hi rfl trivial
  | runRead =>
    refine h.easy _ hi rfl (easy_orEnd ?_)
    split
    · trivial
    · exact easy_afterRead _ w.now w.upserts
  | take r now => exact sound_take h hi hm
  | loadObject r took =>
    have ht : took = w.upserts := (h.jobs _ (List.mem_of_getElem? hi)).1 took rfl
    refine h.easy _ hi rfl ?_
    split
    · exact ht ▸ easy_verified r took _
    · exact ht ▸ easy_unreadable r took
  | loadChunk r took k out =>
    have ht : took = w.upserts := (h.jobs _ (List.mem_of_getElem? hi)).1 took rfl
    refine h.easy _ hi rfl ?_
    split
    · exact ht ▸ easy_nextRead r took (k + 1) _
    · exact ht ▸ easy_unreadable r took
  | arm r took =>
    have ht : took = w.upserts := (h.jobs _ (List.mem_of_getElem? hi)).1 took rfl
    exact h.easy _ hi rfl (ht ▸ easy_afterArm r took env.answer)
  | advance reached status took => exact sound_advance h hi hm
  | settle state status frees took => exact sound_settle h hi hm
  | release store => exact sound_release h hi hm
  | quietRead now =>
    refine h.easy _ hi rfl (easy_orEnd ?_)
    split <;> trivial
  | handBack now =>
    exact (h.sending (if fate.effect then w.sent + 1 else w.sent)).easy (orEnd fate (.touch now)) hi rfl (easy_orEnd trivial)
  | touch now => exact sound_touch h hi hm
  | expiredRead now =>
    refine h.easy _ hi rfl (easy_orEnd ?_)
    split <;> trivial
  | sweep now => exact sound_sweep h hi
  | finished => exact h

theorem World.Sound.spawn (h : w.Sound sub) (he : job.Easy w.upserts) : World.Sound sub { w with jobs := w.jobs ++ [job] } := by
  have hheld : ∀ k, w.HeldChunk sub k → World.HeldChunk sub { w with jobs := w.jobs ++ [job] } k := fun k hh =>
    hh.imp id fun ⟨j, hj, hw⟩ => ⟨j, List.mem_append_left _ hj, hw⟩
  have hstore : ∀ store, w.Held sub store → World.Held sub { w with jobs := w.jobs ++ [job] } store := by
    rintro (_ | _) hs
    · exact fun k hk => hheld k (hs k hk)
    · exact hs
  refine ⟨fun r hr => ⟨(h.row r hr).1, fun ho => ⟨hstore _ ((h.row r hr).2 ho).1, fun hm => ?_⟩⟩, fun j hj => ?_, h.kept⟩
  · rcases List.mem_append.mp hm with hm | hm
    · exact ((h.row r hr).2 ho).2 hm
    · rw [← List.mem_singleton.mp hm] at he
      exact he
  · rcases List.mem_append.mp hj with hj | hj
    · obtain ⟨ht, hs⟩ := h.jobs j hj
      refine ⟨ht, ?_⟩
      cases j with
      | chunk m legsFrom now => exact fun k hk hn => hheld k (hs k hk hn)
      | upsert store legsFrom now => exact hstore store hs
      | settle state status frees took => exact hs
      | _ => trivial
    · rw [List.mem_singleton.mp hj]
      exact Job.Easy.sound he

theorem sound_die (h : w.Sound sub) (hm : w.Meets sub (.die i)) : (w.put i .finished).Sound sub := by
  cases hi : w.jobs[i]? with
  | none =>
    have hsame : w.put i .finished = w := by
      rw [World.put, List.set_eq_of_length_le (List.getElem?_eq_none_iff.mp hi)]
    rw [hsame]
    exact h
  | some job =>
    cases hw : job.writes with
    | none => exact h.easy _ hi hw trivial
    | some m =>
      cases job with
      | chunk m' legsFrom now =>
        refine h.move .finished rfl rfl rfl rfl ?_ ⟨fun _ h => (by cases h), trivial⟩ (by simp)
        rintro (_ | _) hn
        · exact keeps_spared (hm m' legsFrom now hi) hn (fun _ _ => id) rfl
        · exact id
      | _ => cases hw

theorem sound_step (h : w.Sound sub) {m : Move} (hm : w.Meets sub m) : (w.step sub m).Sound sub := by
  cases m with
  | put store legsFrom => exact h.spawn trivial
  | run => exact h.spawn trivial
  | handBack => exact h.spawn trivial
  | sweep => exact h.spawn trivial
  | go i fate env =>
    simp only [World.step]
    cases hi : w.jobs[i]? with
    | none => exact h
    | some job => exact sound_go h hi (hm job hi)
  | die i => exact sound_die h hm
  | tick ms => exact ⟨h.row, h.jobs, h.kept⟩

theorem sound_run (h : w.Sound sub) {moves : List Move} (hm : w.MeetsAll sub moves) : (w.run sub moves).Sound sub := by
  induction moves generalizing w with
  | nil => exact h
  | cons m ms ih => exact ih (sound_step h hm.1) hm.2

end

/-! ## The claim's words -/

/-- No `put_at_rest` and no release is in flight. -/
def Job.idle : Job → Bool
  | .putRead _ _ _ | .putObject _ _ | .wipe _ _ | .chunk _ _ _ | .upsert _ _ _ | .release _ => false
  | _ => true

def World.Whole (sub : Submission) (w : World) (r : Row) : Prop :=
  match r.atRest with
  | .r2 => w.object = some sub.stream
  | .d1 => ∃ parts : List (List UInt8), parts.length = r.chunks ∧ (∀ k p, parts[k]? = some p → w.chunks k = some p) ∧ parts.flatten = sub.stream

theorem World.Sound.whole {sub : Submission} {w : World} (h : w.Sound sub) (hidle : w.jobs.all Job.idle = true) {r : Row} (hr : w.row = some r)
    (ho : r.state.isOpen = true) : w.Whole sub r := by
  obtain ⟨hc, hs⟩ := h.row r hr
  have hheld := (hs ho).1
  unfold World.Whole
  cases hat : r.atRest with
  | r2 =>
    rw [hat] at hheld
    exact hheld
  | d1 =>
    rw [hat] at hheld
    refine ⟨sub.spans, (hc hat).symm, fun k p hk => ?_, sub.join⟩
    rcases hheld k (List.getElem?_eq_some_iff.mp hk).1 with he | ⟨j, hj, m, -, hjw⟩
    · exact he.trans hk
    · have hji := List.all_eq_true.mp hidle j hj
      cases j with
      | chunk m' legsFrom now => cases hji
      | _ => cases hjw

/-- In every run whose steps meet the condition: while no save and no release is in flight, an open job's bytes are at rest
whole, and no run has written its answer past a re-presentation that queued the job anew after the run took it. -/
theorem open_job_keeps_bytes (sub : Submission) (now : Int) (moves : List Move) (hm : World.MeetsAll sub { now := now } moves) :
    ((World.run sub { now := now } moves).jobs.all Job.idle = true → ∀ r, (World.run sub { now := now } moves).row = some r →
      r.state.isOpen = true → (World.run sub { now := now } moves).Whole sub r) ∧
      (World.run sub { now := now } moves).overwritten = 0 := by
  have hs : World.Sound sub { now := now } := ⟨fun _ h => (by cases h), fun j hj => absurd hj List.not_mem_nil, rfl⟩
  have hr := sound_run hs hm
  exact ⟨fun hidle r he ho => hr.whole hidle he ho, hr.kept⟩

private def oneByte : Submission := ⟨[7], fun _ => "ref"⟩

private def runTo (settled : Fate) : List Move :=
  [.put .r2 0, .go 0 .ok {}, .go 0 .ok {}, .go 0 .ok {}, .go 0 .ok {}, .run, .go 1 .ok {}, .go 1 .ok {}, .go 1 .ok {}, .go 1 .ok {},
    .go 1 settled {}, .go 1 .ok {}]

private theorem finds_go {sub : Submission} {w : World} {i : Nat} {fate : Fate} {env : Env} (job : Job) (hi : w.jobs[i]? = some job)
    (hf : w.Finds sub i fate job) : w.Meets sub (.go i fate env) := by
  intro job' hj
  rw [hi] at hj
  cases hj
  exact hf

/-- A run has taken the job, and its row is open. -/
theorem open_job_keeps_bytes_running : ∃ r, (World.run oneByte {} ((runTo .ok).take 8)).row = some r ∧ r.state = .running ∧
    (World.run oneByte {} ((runTo .ok).take 8)).Whole oneByte r := by
  have hkeeps := (open_job_keeps_bytes oneByte 0 ((runTo .ok).take 8) ⟨trivial, finds_go (.putRead .r2 0 0) rfl trivial,
    finds_go (.putObject 0 0) rfl trivial, finds_go (.upsert .r2 0 0) rfl fun _ => by decide, finds_go .send rfl trivial, trivial,
    finds_go .runRead rfl trivial, finds_go (.take (oneByte.queued .r2 0 0) 0) rfl fun _ r hr => ?_, trivial⟩).1
  · exact ⟨⟨1, .r2, 1, .running, 1, none, 0, 0⟩, by decide, rfl, hkeeps (by decide) _ (by decide) rfl⟩
  · cases hr
    exact Or.inl rfl

/-- The settle faults and does not land; the bytes are released all the same, and the row stays `running`. -/
theorem settle_fault_loses_bytes : ¬∀ moves : List Move, (World.run oneByte {} moves).jobs.all Job.idle = true →
    ∀ r, (World.run oneByte {} moves).row = some r → r.state.isOpen = true → (World.run oneByte {} moves).Whole oneByte r := by
  intro h
  have hw : (World.run oneByte {} (runTo (.faulted false))).object = some [7] :=
    h (runTo (.faulted false)) (by decide) ⟨1, .r2, 1, .running, 1, none, 0, 0⟩ (by decide) (by decide)
  revert hw
  decide

end OverlayEngine.DeferredJobs
