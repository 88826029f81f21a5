import OverlayEngine.Worker.DeferredGraphs
import Mathlib.Data.Set.Function

/-!
# A stored deferred graph is whole

The parts of a save in flight and the parts the head names stand while every
statement that deletes parts spares both. No such statement reads the saves in
flight, so two saves of one key can take each other's parts, as a fault memo put
between a save's parts and its head does, and a read that a save overtakes removes
the record saved: the condition says when none of it happens.
-/

namespace OverlayEngine.DeferredGraphs

/-! ## The parts joined are the JSON -/

theorem splitBytes_append (n : Nat) (cs : List Char) : (splitBytes n cs).1 ++ (splitBytes n cs).2 = cs := by
  induction cs generalizing n with
  | nil => rfl
  | cons c cs ih =>
    simp only [splitBytes]
    split
    · simp [ih]
    · rfl

theorem cut_flatten (chunk fuel : Nat) (cs : List Char) : (cut chunk fuel cs).1 ++ (cut chunk fuel cs).2.flatten = cs := by
  induction fuel generalizing cs with
  | zero => simp [cut]
  | succ fuel ih =>
    simp only [cut]
    split
    · rw [List.flatten_cons, ih, splitBytes_append]
    · simp

theorem foldl_append (ps : List (List Char)) (p : List Char) :
    (ps.map String.ofList).foldl (· ++ ·) (String.ofList p) = String.ofList (p ++ ps.flatten) := by
  induction ps generalizing p with
  | nil => simp
  | cons q ps ih =>
    simp only [List.map_cons, List.foldl_cons, List.flatten_cons, ← String.ofList_append]
    rw [ih, List.append_assoc]

theorem chunkPlan_join (hash : String → String) (json : String) (chunk : Nat) :
    (chunkPlan hash json chunk).rest.foldl (· ++ ·) (chunkPlan hash json chunk).head = json := by
  simp only [chunkPlan]
  rw [foldl_append, cut_flatten, String.ofList_toList]

theorem chunkPlan_gen {hash : String → String} {json : String} {chunk : Nat} (h : (chunkPlan hash json chunk).rest ≠ []) :
    (chunkPlan hash json chunk).gen = hash json := by
  simp only [chunkPlan, ne_eq, List.map_eq_nil_iff] at h ⊢
  rw [if_neg (by simpa using h)]

section
variable {Rec Memo : Type} {C : Codec Rec Memo} {S : Set String}

theorem Save.join (s : Save C) : s.plan.rest.foldl (· ++ ·) s.plan.head = C.json s.record := by
  rw [s.plan_eq]
  exact chunkPlan_join _ _ _

theorem Save.plan_of_gen (hS : Set.InjOn C.hash S) {s s' : Save C} (hs : C.json s.record ∈ S) (hs' : C.json s'.record ∈ S)
    (hr : s.plan.rest ≠ []) (hr' : s'.plan.rest ≠ []) (hg : s.plan.gen = s'.plan.gen) : s.plan = s'.plan := by
  have hj : C.json s.record = C.json s'.record := by
    refine hS hs hs' ?_
    rw [s.plan_eq] at hr hg
    rw [s'.plan_eq] at hr' hg
    rwa [chunkPlan_gen hr, chunkPlan_gen hr'] at hg
  rw [s.plan_eq, s'.plan_eq, hj]

/-! ## The condition -/

def Job.saving : Job C → Option (Save C × Nat × Int)
  | .part s i since => some (s, i, since)
  | .upsert s since => some (s, s.plan.rest.length, since)
  | _ => none

/-- A delete of the parts of the generations `gone` picks takes none of a save in flight. -/
def World.SparesSaves (w : World C) (gone : String → Bool) : Prop :=
  ∀ j ∈ w.jobs, ∀ s n since, j.saving = some (s, n, since) → 0 < n → gone s.plan.gen = false

/-- It takes none the head names either. -/
def World.Spares (w : World C) (gone : String → Bool) : Prop :=
  (∀ h, w.head = some h → 0 < h.chunks → gone h.gen = false) ∧ w.SparesSaves gone

def Job.Meets (w : World C) (fate : Fate) (env : Env) : Job C → Prop
  | .keep s => fate.effect = true → w.Spares (s.others C)
  | .undo s _ => fate.effect = true → w.Spares (s.own C w.head)
  | .dropParts _ => fate.effect = true → w.Spares fun _ => true
  | .read h seq _ => fate = .ok → w.parts h.gen seq = none → w.head = none ∧ w.memo = none
  | .upsert s _ => fate.effect = true → fits C env.others w.head.isSome s = true → .dropMemo true ∉ w.jobs ∧ .dropHead true ∉ w.jobs
  -- the batch takes the head with the parts
  | .putMemo _ => fate.effect = true → .dropMemo true ∉ w.jobs ∧ w.SparesSaves fun _ => true
  | _ => True

def World.Meets (w : World C) : Move C → Prop
  | .go i fate env => ∀ job, w.jobs[i]? = some job → job.Meets w fate env
  | _ => True

/-- No save has lasted `DEFERRED_GRAPH_ORPHAN_CHUNK_SECS` when the cron sweeps. -/
def World.Brief (w : World C) : Move C → Prop
  | .sweepParts _ => ∀ j ∈ w.jobs, ∀ s n since, j.saving = some (s, n, since) → w.now ≤ since + deferredGraphOrphanChunkSecs
  | _ => True

def World.Along (P : World C → Move C → Prop) (w : World C) : List (Move C) → Prop
  | [] => True
  | m :: ms => P w m ∧ (w.step m).Along P ms

/-! ## What stands -/

/-- The first `n` further parts of `s` are at rest, none older than `since`. -/
def Parts.Hold (t : Parts) (s : Save C) (n : Nat) (since : Int) : Prop :=
  ∀ k < n, ∃ p, t s.plan.gen (k + 1) = some p ∧ s.plan.rest[k]? = some p.part ∧ since ≤ p.writtenAt

def Job.Sound (S : Set String) (w : World C) : Job C → Prop
  | .part s i since => s.record ∈ w.puts ∧ C.json s.record ∈ S ∧ since ≤ w.now ∧ i < s.plan.rest.length ∧ w.parts.Hold s i since
  | .upsert s since => s.record ∈ w.puts ∧ C.json s.record ∈ S ∧ since ≤ w.now ∧ w.parts.Hold s s.plan.rest.length since
  | .dropMemo byGet => byGet = true → w.head = none ∧ w.memo = none
  | .dropHead byGet => byGet = true → w.head = none
  | _ => True

def Head.Of (h : Head) (s : Save C) (t : Parts) : Prop :=
  h.record = s.plan.head ∧ h.chunks = s.plan.rest.length ∧ h.gen = s.plan.gen ∧ ∃ since, t.Hold s s.plan.rest.length since

structure World.Sound (S : Set String) (w : World C) : Prop where
  head : ∀ h, w.head = some h → ∃ s : Save C, s.record ∈ w.puts ∧ C.json s.record ∈ S ∧ h.Of s w.parts
  jobs : ∀ j ∈ w.jobs, j.Sound S w
  lost : w.lost = 0

variable {t : Parts} {s : Save C} {n : Nat} {since : Int} {w w' : World C}

theorem Parts.Hold.rest_ne {k : Nat} (h : t.Hold s n since) (hk : k < n) : s.plan.rest ≠ [] := by
  obtain ⟨p, -, hp, -⟩ := h k hk
  rintro hnil
  rw [hnil] at hp
  cases hp

variable {i : Nat}

theorem Parts.Hold.put (hS : Set.InjOn C.hash S) (h : t.Hold s n since) {s' : Save C} {now : Int} (hs : C.json s.record ∈ S)
    (hs' : C.json s'.record ∈ S) (hi : i < s'.plan.rest.length) (hnow : since ≤ now) :
    (t.put s'.plan.gen (i + 1) ⟨s'.plan.rest.getD i "", now⟩).Hold s n since := by
  intro k hk
  by_cases hc : s.plan.gen = s'.plan.gen ∧ k + 1 = i + 1
  · obtain rfl : k = i := by omega
    have hne' : s'.plan.rest ≠ [] := List.ne_nil_of_length_pos (by omega)
    have hplan := Save.plan_of_gen hS hs hs' (h.rest_ne hk) hne' hc.1
    refine ⟨_, by rw [Parts.put, if_pos hc], ?_, hnow⟩
    rw [hplan, List.getD_eq_getElem?_getD, List.getElem?_eq_getElem hi]
    rfl
  · obtain ⟨p, hp, hrest⟩ := h k hk
    exact ⟨p, by rw [Parts.put, if_neg hc, hp], hrest⟩

theorem Parts.Hold.drop (h : t.Hold s n since) {gone : String → Bool} (hg : 0 < n → gone s.plan.gen = false) : (t.drop gone).Hold s n since := by
  intro k hk
  obtain ⟨p, hp, hrest⟩ := h k hk
  exact ⟨p, by rw [Parts.drop, hg (by omega), if_neg Bool.false_ne_true, hp], hrest⟩

variable {head : Option Head}

theorem Parts.Hold.sweep (h : t.Hold s n since) {now : Int}
    (hn : (head.any fun h => h.gen = s.plan.gen) = true ∨ now ≤ since + deferredGraphOrphanChunkSecs) : (t.sweep head now).Hold s n since := by
  intro k hk
  obtain ⟨p, hp, hrest, hat⟩ := h k hk
  refine ⟨p, ?_, hrest, hat⟩
  rw [Parts.sweep, hp]
  refine Option.filter_eq_some_iff.mpr ⟨rfl, ?_⟩
  rcases hn with hn | hn
  · simp [hn]
  · have hold : ¬p.writtenAt < now - deferredGraphOrphanChunkSecs := by omega
    simp [hold]

/-! ## One statement -/

variable {job : Job C}

theorem World.Sound.put (h : w.Sound S) (i : Nat) (hj : job.Sound S w) : (w.put i job).Sound S where
  head := h.head
  jobs := by
    intro j hm
    rcases List.mem_or_eq_of_mem_set hm with hm | rfl
    · exact h.jobs j hm
    · exact hj
  lost := h.lost

theorem World.Sound.spawn (h : w.Sound S) (hj : job.Sound S w) : World.Sound S { w with jobs := w.jobs ++ [job] } where
  head := h.head
  jobs := by
    intro j hm
    rcases List.mem_append.mp hm with hm | hm
    · exact h.jobs j hm
    · rw [List.mem_singleton.mp hm]
      exact hj
  lost := h.lost

theorem Job.Sound.parts {j : Job C} (h : j.Sound S w) (ht : ∀ s n since, j.saving = some (s, n, since) → C.json s.record ∈ S →
    since ≤ w.now → w.parts.Hold s n since → t.Hold s n since) : j.Sound S { w with parts := t } := by
  cases j with
  | part s i since =>
    obtain ⟨hp, hj, hn, hi, hh⟩ := h
    exact ⟨hp, hj, hn, hi, ht s i since rfl hj hn hh⟩
  | upsert s since =>
    obtain ⟨hp, hj, hn, hh⟩ := h
    exact ⟨hp, hj, hn, ht s _ since rfl hj hn hh⟩
  | dropMemo byGet => exact h
  | dropHead byGet => exact h
  | _ => trivial

theorem World.Sound.parts (h : w.Sound S)
    (ht : ∀ j ∈ w.jobs, ∀ s n since, j.saving = some (s, n, since) → C.json s.record ∈ S → since ≤ w.now →
      w.parts.Hold s n since → t.Hold s n since)
    (hh : ∀ h, w.head = some h → ∀ s : Save C, C.json s.record ∈ S → h.Of s w.parts → h.Of s t) : World.Sound S { w with parts := t } where
  head := by
    intro hd he
    obtain ⟨s, hp, hj, hof⟩ := h.head hd he
    exact ⟨s, hp, hj, hh hd he s hj hof⟩
  jobs := fun j hm => (h.jobs j hm).parts (ht j hm)
  lost := h.lost

theorem World.Sound.drop (h : w.Sound S) {gone : String → Bool} (hs : w.Spares gone) : World.Sound S { w with parts := w.parts.drop gone } := by
  refine h.parts (fun j hm s n since hsv _ _ hh => hh.drop (hs.2 j hm s n since hsv)) ?_
  rintro hd he s - ⟨hr, hc, hg, since, hh⟩
  refine ⟨hr, hc, hg, since, hh.drop fun hpos => ?_⟩
  rw [← hg]
  exact hs.1 hd he (hc ▸ hpos)

theorem Job.Sound.gone {j : Job C} (h : j.Sound S w) {memo : Option Memo} (hh : w.head = none → head = none)
    (hm : j = .dropMemo true → w.memo = none → memo = none) : j.Sound S { w with head := head, memo := memo } := by
  cases j with
  | dropMemo byGet =>
    intro hg
    subst hg
    exact ⟨hh (h rfl).1, hm rfl (h rfl).2⟩
  | dropHead byGet => exact fun hg => hh (h hg)
  | part s i since => exact h
  | upsert s since => exact h
  | _ => trivial

theorem World.Sound.gone (h : w.Sound S) {m : Option Memo} (hh : head = w.head ∨ head = none)
    (hm : m = w.memo ∨ m = none) : World.Sound S { w with head := head, memo := m } where
  head := by
    intro hd he
    rcases hh with rfl | rfl
    · exact h.head hd he
    · cases he
  jobs := fun j hj => (h.jobs j hj).gone (fun hn => hh.elim (·.trans hn) id) fun _ hn => hm.elim (·.trans hn) id
  lost := h.lost

theorem sound_next (hp : s.record ∈ w.puts) (hj : C.json s.record ∈ S) (hn : since ≤ w.now) (hi : i ≤ s.plan.rest.length)
    (hh : w.parts.Hold s i since) : (s.next i since).Sound S w := by
  unfold Save.next
  split
  · rename_i hlt
    exact ⟨hp, hj, hn, hlt, hh⟩
  · rename_i hle
    obtain rfl : i = s.plan.rest.length := le_antisymm hi (not_lt.mp hle)
    exact ⟨hp, hj, hn, hh⟩

variable {fate : Fate}

theorem sound_then (h : fate = .ok → job.Sound S w) : (fate.then job).Sound S w := by
  cases fate with
  | ok => exact h rfl
  | faulted landed => trivial

theorem sound_reading (hd : Head) (seq : Nat) (json : String) : (hd.reading (C := C) seq json).Sound S w := by
  unfold Head.reading
  split <;> trivial

theorem sound_undoing (s : Save C) (answer : Answer Rec Memo) : (s.undoing answer).Sound S w := by
  unfold Save.undoing
  split <;> trivial

theorem sound_due (due : Bool) : (if due = true then .dropParts false else .finished .done : Job C).Sound S w := by
  split <;> trivial

variable {env : Env}

theorem sound_part (hS : Set.InjOn C.hash S) (h : w.Sound S) {since : Int} (hi : w.jobs[i]? = some (.part s n since)) :
    (w.go i fate env (.part s n since)).Sound S := by
  obtain ⟨hp, hj, hn, hlt, hh⟩ := h.jobs _ (List.mem_of_getElem? hi)
  by_cases heff : fate.effect = true
  · have hw : World.Sound S { w with parts := w.parts.put s.plan.gen (n + 1) ⟨s.plan.rest.getD n "", w.now⟩ } := by
      refine h.parts (fun j hm s' n' since' _ hj' hn' hh' => hh'.put hS hj' hj hlt hn') ?_
      rintro hd he s' hj' ⟨hr, hc, hg, since', hh'⟩
      refine ⟨hr, hc, hg, min since' w.now, ?_⟩
      refine Parts.Hold.put hS (fun k hk => ?_) hj' hj hlt (min_le_right _ _)
      obtain ⟨p, h1, h2, h3⟩ := hh' k hk
      exact ⟨p, h1, h2, le_trans (min_le_left _ _) h3⟩
    simp only [World.go, heff, if_true]
    refine hw.put i ?_
    split
    · refine sound_next hp hj hn hlt ?_
      intro k hk
      by_cases hkn : k = n
      · subst hkn
        refine ⟨⟨s.plan.rest.getD k "", w.now⟩, if_pos ⟨rfl, rfl⟩, ?_, hn⟩
        rw [List.getD_eq_getElem?_getD, List.getElem?_eq_getElem hlt]
        rfl
      · obtain ⟨p, h1, h2, h3⟩ := hh k (by omega)
        exact ⟨p, (if_neg fun hc => hkn (by omega)).trans h1, h2, h3⟩
    · trivial
  · simp only [World.go, heff, Bool.false_eq_true, if_false]
    refine h.put i ?_
    rw [if_neg fun hok => heff (by rw [hok]; rfl)]
    trivial

theorem sound_upsert (h : w.Sound S) (hi : w.jobs[i]? = some (.upsert s since))
    (hm : (Job.upsert s since).Meets w fate env) : (w.go i fate env (.upsert s since)).Sound S := by
  obtain ⟨hp, hj, hn, hh⟩ := h.jobs _ (List.mem_of_getElem? hi)
  have hnext : ∀ w' : World C, (if fate = .ok then if fits C env.others w.head.isSome s = true then .keep s else s.undoing .atCeiling
      else s.undoing .fault : Job C).Sound S w' := by
    intro w'
    split
    · split
      · trivial
      · exact sound_undoing s _
    · exact sound_undoing s _
  by_cases hsaved : fate.effect = true ∧ fits C env.others w.head.isSome s = true
  · obtain ⟨hnm, hnh⟩ := hm hsaved.1 hsaved.2
    have hw : World.Sound S { w with head := some (s.head C w.now) } := by
      refine ⟨?_, fun j hjm => ?_, h.lost⟩
      · intro hd he
        cases he
        exact ⟨s, hp, hj, rfl, rfl, rfl, since, hh⟩
      · have hjs := h.jobs j hjm
        cases j with
        | dropMemo byGet =>
          rintro rfl
          exact absurd hjm hnm
        | dropHead byGet =>
          rintro rfl
          exact absurd hjm hnh
        | part s' i' since' => exact hjs
        | upsert s' since' => exact hjs
        | _ => trivial
    simp only [World.go]
    rw [if_pos hsaved]
    exact hw.put i (hnext _)
  · simp only [World.go]
    rw [if_neg hsaved]
    exact h.put i (hnext _)

theorem sound_putMemo (h : w.Sound S) {m : Memo} (hm : (Job.putMemo m : Job C).Meets w fate env) :
    (w.go i fate env (.putMemo m)).Sound S := by
  have hnext : ∀ w' : World C, (fate.then (.finished .saved) : Job C).Sound S w' := fun w' => sound_then fun _ => trivial
  simp only [World.go]
  by_cases heff : fate.effect = true
  · obtain ⟨hnot, hspares⟩ := hm heff
    have hhead : World.Sound S { w with head := none } := h.gone (Or.inr rfl) (Or.inl rfl)
    have hparts : World.Sound S { w with head := none, parts := w.parts.drop fun _ => true } := hhead.drop ⟨nofun, hspares⟩
    have hmemo : World.Sound S { w with head := none, parts := w.parts.drop fun _ => true, memo := some (C.putMemo w.memo m w.now) } := by
      refine ⟨nofun, fun j hj => ?_, h.lost⟩
      refine (hparts.jobs j hj).gone id fun he => ?_
      subst he
      exact absurd hj hnot
    simp only [heff, if_true]
    exact hmemo.put i (hnext _)
  · simp only [heff, Bool.false_eq_true, if_false]
    exact h.put i (hnext _)

theorem World.Sound.dropIf (h : w.Sound S) {c : Prop} [Decidable c] {gone : String → Bool} (hs : c → w.Spares gone) :
    World.Sound S { w with parts := if c then w.parts.drop gone else w.parts } := by
  by_cases hc : c
  · rw [if_pos hc]
    exact h.drop (hs hc)
  · rw [if_neg hc]
    exact h

theorem ite_none {α : Type} {c : Prop} [Decidable c] (a : Option α) : (if c then none else a) = a ∨ (if c then none else a) = none := by
  by_cases hc : c
  · exact Or.inr (if_pos hc)
  · exact Or.inl (if_neg hc)

theorem sound_dropMemo (h : w.Sound S) {byGet : Bool} (hi : w.jobs[i]? = some (.dropMemo byGet)) :
    (w.go i fate env (.dropMemo byGet)).Sound S := by
  have hj := h.jobs _ (List.mem_of_getElem? hi)
  have hlost : ¬(byGet = true ∧ fate.effect = true ∧ w.memo.isSome = true) := by
    rintro ⟨hg, -, hm⟩
    rw [(hj hg).2] at hm
    cases hm
  simp only [World.go]
  rw [if_neg hlost]
  refine (h.gone (Or.inl rfl) (ite_none w.memo)).put i (sound_then fun _ => ?_)
  exact fun hg => (hj hg).1

theorem sound_dropHead (h : w.Sound S) {byGet : Bool} (hi : w.jobs[i]? = some (.dropHead byGet)) :
    (w.go i fate env (.dropHead byGet)).Sound S := by
  have hj := h.jobs _ (List.mem_of_getElem? hi)
  have hlost : ¬(byGet = true ∧ fate.effect = true ∧ w.head.isSome = true) := by
    rintro ⟨hg, -, hm⟩
    rw [hj hg] at hm
    cases hm
  simp only [World.go]
  rw [if_neg hlost]
  exact (h.gone (ite_none w.head) (Or.inl rfl)).put i (sound_then fun _ => trivial)

theorem sound_go (hS : Set.InjOn C.hash S) (h : w.Sound S) (hi : w.jobs[i]? = some job)
    (hm : job.Meets w fate env) : (w.go i fate env job).Sound S := by
  cases job with
  | putMemo m => exact sound_putMemo h hm
  | part s n since => exact sound_part hS h hi
  | upsert s since => exact sound_upsert h hi hm
  | keep s => exact (h.dropIf hm).put i trivial
  | unmemo => exact (h.gone (Or.inl rfl) (ite_none w.memo)).put i (sound_then fun _ => trivial)
  | undo s answer => exact (h.dropIf hm).put i trivial
  | getMemo =>
    refine h.put i (sound_then fun _ => ?_)
    split <;> trivial
  | head =>
    refine h.put i (sound_then fun _ => ?_)
    split
    · exact sound_reading _ _ _
    · trivial
  | read hd seq json =>
    refine h.put i (sound_then fun hok => ?_)
    split
    · exact sound_reading _ _ _
    · rename_i hnone
      exact fun _ => hm hok hnone
  | dropMemo byGet => exact sound_dropMemo h hi
  | dropHead byGet => exact sound_dropHead h hi
  | dropParts byGet => exact (h.dropIf hm).put i (sound_then fun _ => trivial)
  | expire => exact (h.gone (ite_none w.head) (Or.inl rfl)).put i (sound_then fun _ => sound_due _)
  | finished answer => exact h

theorem World.Sound.filed (h : w.Sound S) (r : Rec) : World.Sound S { w with puts := w.puts ++ [r] } where
  head := by
    intro hd he
    obtain ⟨s, hp, hrest⟩ := h.head hd he
    exact ⟨s, List.mem_append_left _ hp, hrest⟩
  jobs := by
    intro j hm
    have hj := h.jobs j hm
    cases j with
    | part s i since => exact ⟨List.mem_append_left _ hj.1, hj.2⟩
    | upsert s since => exact ⟨List.mem_append_left _ hj.1, hj.2⟩
    | dropMemo byGet => exact hj
    | dropHead byGet => exact hj
    | _ => trivial
  lost := h.lost

theorem World.Sound.tick (h : w.Sound S) (secs : Nat) : World.Sound S { w with now := w.now + secs } where
  head := h.head
  jobs := by
    intro j hm
    have hj := h.jobs j hm
    cases j with
    | part s i since => exact ⟨hj.1, hj.2.1, by have := hj.2.2.1; show since ≤ w.now + secs; omega, hj.2.2.2⟩
    | upsert s since => exact ⟨hj.1, hj.2.1, by have := hj.2.2.1; show since ≤ w.now + secs; omega, hj.2.2.2⟩
    | dropMemo byGet => exact hj
    | dropHead byGet => exact hj
    | _ => trivial
  lost := h.lost

theorem sound_step (hS : Set.InjOn C.hash S) (h : w.Sound S) {m : Move C} (hp : ∀ s, m = .put s → C.json s.record ∈ S) (hb : w.Brief m)
    (hm : w.Meets m) : (w.step m).Sound S := by
  cases m with
  | put s =>
    refine (h.filed s.record).spawn ?_
    split
    · trivial
    · refine sound_next (List.mem_append_right _ (List.mem_singleton_self _)) (hp s rfl) (le_refl w.now) (Nat.zero_le _) ?_
      exact fun k hk => absurd hk (Nat.not_lt_zero k)
  | get => exact h.spawn trivial
  | delete => exact h.spawn nofun
  | expire => exact h.spawn trivial
  | go i fate env =>
    simp only [World.step]
    cases hi : w.jobs[i]? with
    | none => exact h
    | some job => exact sound_go hS h hi (hm job hi)
  | sweepStale fate =>
    refine h.gone (m := w.memo) ?_ (Or.inl rfl)
    split
    · cases hh : w.head with
      | none => exact Or.inl rfl
      | some hd =>
        by_cases hs : hd.stale w.now = true
        · exact Or.inr (by simp [Option.filter, hs])
        · exact Or.inl (by simp [Option.filter, hs])
    · exact Or.inl rfl
  | sweepParts fate =>
    simp only [World.step]
    split
    · refine h.parts (fun j hj s n since hsv _ _ hh => hh.sweep (Or.inr (hb j hj s n since hsv))) ?_
      rintro hd he s - ⟨hr, hc, hg, since, hh⟩
      refine ⟨hr, hc, hg, since, hh.sweep (Or.inl ?_)⟩
      rw [he]
      exact decide_eq_true hg
    · exact h
  | sweepMemo => exact h.gone (Or.inl rfl) (Or.inr rfl)
  | tick secs => exact h.tick secs

theorem sound_run (hS : Set.InjOn C.hash S) (h : w.Sound S) {moves : List (Move C)} (hp : ∀ s, .put s ∈ moves → C.json s.record ∈ S)
    (hb : w.Along World.Brief moves) (hm : w.Along World.Meets moves) : (w.run moves).Sound S := by
  induction moves generalizing w with
  | nil => exact h
  | cons m ms ih =>
    refine ih (sound_step hS h ?_ hb.1 hm.1) (fun s hs => hp s (List.mem_cons_of_mem _ hs)) hb.2 hm.2
    rintro s rfl
    exact hp s List.mem_cons_self

def World.Whole (w : World C) : Prop :=
  ∀ h, w.head = some h → ∃ r ∈ w.puts, ∃ ps : List String, ps.length = h.chunks ∧
    (∀ k p, ps[k]? = some p → (w.parts h.gen (k + 1)).map Part.part = some p) ∧ ps.foldl (· ++ ·) h.record = C.json r

theorem World.Sound.whole (h : w.Sound S) : w.Whole := by
  intro hd he
  obtain ⟨s, hp, -, hr, hc, hg, since, hh⟩ := h.head hd he
  refine ⟨s.record, hp, s.plan.rest, hc.symm, ?_, by rw [hr]; exact s.join⟩
  intro k p hk
  obtain ⟨p', h1, h2, -⟩ := hh k (List.getElem?_eq_some_iff.mp hk).1
  rw [hg, h1, Option.map_some]
  exact h2.symm.trans hk

theorem Save.others_head (s : Save C) (now : Int) : s.others C (s.head C now).gen = false := decide_eq_false fun hne => hne rfl

def Job.idle : Job C → Bool
  | .getMemo | .head | .read _ _ _ | .finished _ => true
  | _ => false

end

/-- In every interleaving whose statements meet the condition, the graph stored is whole or absent in every state, and no
read has removed a record. -/
theorem graph_whole {Rec Memo : Type} (C : Codec Rec Memo) (S : Set String) (hS : Set.InjOn C.hash S) (now : Int) (moves : List (Move C))
    (hp : ∀ s, .put s ∈ moves → C.json s.record ∈ S) (hb : World.Along World.Brief { now := now } moves)
    (hm : World.Along World.Meets { now := now } moves) :
    (World.run { now := now } moves).Whole ∧ (World.run { now := now } moves).lost = 0 := by
  have hs : World.Sound S (C := C) { now := now } := ⟨nofun, fun j hj => absurd hj List.not_mem_nil, rfl⟩
  have hr := sound_run hS hs hp hb hm
  exact ⟨hr.whole, hr.lost⟩

/-! ## Two saves of one key -/

theorem splitBytes_replicate {c : Char} (hc : c.utf8Size = 1) (n k : Nat) :
    splitBytes n (List.replicate (n + k) c) = (List.replicate n c, List.replicate k c) := by
  induction n with
  | zero =>
    cases k with
    | zero => rfl
    | succ k => simp [List.replicate_succ, splitBytes, hc]
  | succ n ih =>
    rw [Nat.succ_add, List.replicate_succ]
    simp only [splitBytes, hc]
    rw [if_pos (by omega), Nat.add_sub_cancel, ih]
    rfl

theorem len_replicate {c : Char} (hc : c.utf8Size = 1) (n : Nat) : len (List.replicate n c) = n := by
  simp [len, hc]

theorem chunkPlan_replicate {c : Char} (hc : c.utf8Size = 1) (hash : String → String) {n : Nat} (hn : 4 ≤ n) :
    chunkPlan hash (String.ofList (List.replicate (n + 1) c)) n =
      ⟨String.ofList (List.replicate n c), [String.ofList [c]], hash (String.ofList (List.replicate (n + 1) c))⟩ := by
  have hcut : cut n (n + 1) (List.replicate (n + 1) c) = (List.replicate n c, [[c]]) := by
    obtain ⟨k, rfl⟩ : ∃ k, n = k + 1 := ⟨n - 1, by omega⟩
    rw [cut, if_pos (by rw [len_replicate hc]; omega), splitBytes_replicate hc]
    simp only [cut]
    rw [if_neg (by rw [len_replicate hc]; omega)]
    rfl
  simp only [chunkPlan, String.toList_ofList, List.length_replicate, max_eq_left hn, hcut]
  rfl

private def texts : Codec String Unit where
  json := id
  parse := some
  reason := fun _ => "calls"
  configured := fun _ => true
  cursorPassable := fun _ => false
  memoOf := fun _ => none
  intoRecord := fun _ => ""
  putMemo := fun _ m _ => m
  expiry := fun _ => none
  hash := fun s => String.ofList (s.toList.take 1)

private def long (c : Char) (hc : c.utf8Size = 1) : Save texts where
  record := String.ofList (List.replicate (deferredGraphChunkBytes + 1) c)
  bytes := deferredGraphChunkBytes + 1
  plan := ⟨String.ofList (List.replicate deferredGraphChunkBytes c), [String.ofList [c]], String.ofList [c]⟩
  bytes_eq := by
    show _ = len (String.ofList _).toList
    rw [String.toList_ofList, len_replicate hc]
  plan_eq := by
    show _ = chunkPlan texts.hash (String.ofList (List.replicate (deferredGraphChunkBytes + 1) c)) deferredGraphChunkBytes
    rw [chunkPlan_replicate hc texts.hash (by decide)]
    show _ = ChunkPlan.mk _ _ (String.ofList ((String.ofList (List.replicate (deferredGraphChunkBytes + 1) c)).toList.take 1))
    rw [String.toList_ofList, List.replicate_succ, List.take_succ_cons, List.take_zero]

private def recordA : Save texts := long 'a' (by decide)
private def recordB : Save texts := long 'b' (by decide)

private def ok (i : Nat) : Move texts := .go i .ok ⟨⟨0, 0, 0, 0, 0, 0⟩, false⟩

private theorem hash_long (c : Char) (hc : c.utf8Size = 1) : texts.hash (texts.json (long c hc).record) = String.ofList [c] := by
  show String.ofList ((String.ofList (List.replicate (deferredGraphChunkBytes + 1) c)).toList.take 1) = _
  rw [String.toList_ofList, List.replicate_succ, List.take_succ_cons, List.take_zero]

private theorem texts_injOn : Set.InjOn texts.hash {texts.json recordA.record, texts.json recordB.record} := by
  have hne : texts.hash (texts.json recordA.record) ≠ texts.hash (texts.json recordB.record) := by
    rw [recordA, recordB, hash_long, hash_long]
    decide
  rintro x (rfl | rfl) y (rfl | rfl) h
  · rfl
  · exact absurd h hne
  · exact absurd h.symm hne
  · rfl

theorem graph_whole_saved : (World.run {} [.put recordA, ok 0, ok 0, ok 0, ok 0]).Whole ∧ (World.run {} [.put recordA, ok 0, ok 0, ok 0, ok 0]).lost = 0 := by
  refine graph_whole texts _ texts_injOn 0 [.put recordA, ok 0, ok 0, ok 0, ok 0] ?_ ⟨trivial, trivial, trivial, trivial, trivial, trivial⟩
    ⟨trivial, ?_, ?_, ?_, ?_, trivial⟩
  · intro s hs
    simp only [ok, List.mem_cons, Move.put.injEq, reduceCtorEq, List.not_mem_nil, or_false] at hs
    simp [hs]
  · intro job hj
    change some (Job.part recordA 0 0) = some job at hj
    cases hj
    trivial
  · intro job hj
    change some (Job.upsert recordA 0) = some job at hj
    cases hj
    intro _ _
    change Job.dropMemo true ∉ [Job.upsert recordA 0] ∧ Job.dropHead true ∉ [Job.upsert recordA 0]
    simp
  · intro job hj
    change some (Job.keep recordA) = some job at hj
    cases hj
    refine fun _ => ⟨?_, ?_⟩
    · intro hd he _
      change some (recordA.head texts 0) = some hd at he
      rw [← Option.some.inj he]
      exact recordA.others_head 0
    · intro j hj s n since hs
      change j ∈ [Job.keep recordA] at hj
      rw [List.mem_singleton.mp hj] at hs
      cases hs
  · intro job hj
    change some Job.unmemo = some job at hj
    cases hj
    trivial

private def overtaken : List (Move texts) := [.put recordA, ok 0, .put recordB, ok 1, ok 1, ok 1, ok 1, ok 0, ok 0, ok 0]

theorem overtaken_torn : ¬∀ (S : Set String), Set.InjOn texts.hash S → ∀ moves : List (Move texts), (∀ s, .put s ∈ moves → texts.json s.record ∈ S) →
    World.Along World.Brief {} moves → (World.run {} moves).jobs.all Job.idle = true →
    (World.run {} moves).Whole ∧ (World.run {} moves).lost = 0 := by
  intro h
  have hw := (h _ texts_injOn overtaken ?_ ?_ (by decide)).1
  · have hrun : ((World.run {} overtaken).head.map fun h => (h.chunks, h.gen)) = some (1, "a") := by decide
    obtain ⟨hd, he, hcg⟩ := Option.map_eq_some_iff.mp hrun
    obtain ⟨r, -, ps, hlen, hps, -⟩ := hw hd he
    obtain ⟨hc, hg⟩ := Prod.mk.inj hcg
    have hp := hps 0 (ps.get ⟨0, by omega⟩) (List.getElem?_eq_getElem _)
    have hnone : ((World.run {} overtaken).parts "a" 1).isNone = true := by decide
    rw [hg, Option.isNone_iff_eq_none.mp hnone] at hp
    cases hp
  · intro s hs
    simp only [overtaken, ok, List.mem_cons, Move.put.injEq, reduceCtorEq, List.not_mem_nil, or_false, false_or] at hs
    rcases hs with rfl | rfl <;> simp
  · simp [overtaken, ok, World.Along, World.Brief]

end OverlayEngine.DeferredGraphs
