import OverlayEngine.Worker.DeadLetters

/-!
# The objects the parks of one letter drop

A dead letter whose BEEF is an R2 object parks the object's key. The copy rule
keeps one of two messages, and the consumer deletes the object of the other: it
knows the key held before its park from the ceiling read, a statement earlier.
Any number of consumers interleave here, one statement or delete a move, with
the acks and the operator's discards of the key.
-/

namespace OverlayEngine.DeadLetters

open KeyedRows

def Letter.object (l : Letter) : Option String := l.r2.map Prod.fst

def droppedObject (kept : Option Kept) (held new : Option String) : Option String :=
  match kept with
  | some .new => held.filter fun h => some h ≠ new
  | some .old => new.filter fun n => some n ≠ held
  | none => none

def Table.named (t : Table) (k : Key) : Option String := (t.row k).bind Row.r2Key

/-- `WHERE` of the park's `DO UPDATE`: these very bytes are not parked yet. -/
def Row.meets (r : Row) (l : Letter) : Bool := decide (r.status ≠ .parked) || decide (r.message ≠ l.message)

namespace DroppedObjects

abbrev LetterOf (k : Key) := { l : Letter // l.key = k }

inductive Job (k : Key) where
  | ceiling (l : LetterOf k) (now : Int)
  | park (l : LetterOf k) (now : Int) (held : Option String)
  | delete (key : String)
  | finished
  deriving DecidableEq

def Job.deleting {k : Key} : Option String → Job k
  | some key => .delete key
  | none => .finished

structure World (k : Key) where
  table : Table
  objects : List String
  jobs : List (Job k) := []

inductive Move (k : Key) where
  | deliver (l : LetterOf k) (now : Int)
  | go (job : Nat) (fate : Fate)
  | resolve (fate : Fate)
  | discard (topics : Option String) (maxRows : Nat) (fate : Fate)
  | others (t : Table)

section
variable (C : Codec) {k : Key}

/-- The delivery after its ceiling read: `held_key` is the row's key as read here. -/
def afterCeiling (t : Table) (l : LetterOf k) (now : Int) : Job k :=
  let c := t.ceiling k (dayCutoff now)
  match ceilingVerdict c with
  | .ok _ => .park l now c.r2Key
  | .error _ => .finished

def afterPark (l : LetterOf k) (held : Option String) (fate : Fate) (ret : Option ParkedReturn) : Job k :=
  match fate, ret with
  | .ok, some r => .deleting (droppedObject r.kept held l.1.object)
  | _, _ => .finished

def World.go (w : World k) (i : Nat) (fate : Fate) : Job k → World k
  | .ceiling l now => { w with jobs := w.jobs.set i (if fate = .ok then afterCeiling w.table l now else .finished) }
  | .park l now held =>
    let after := w.table.park C l.1 now
    { w with table := if fate.effect then after.1 else w.table, jobs := w.jobs.set i (afterPark l held fate after.2) }
  | .delete key => { w with objects := if fate.effect then w.objects.filter (· ≠ key) else w.objects, jobs := w.jobs.set i .finished }
  | .finished => w

def World.step (w : World k) : Move k → World k
  | .deliver l now => { w with jobs := w.jobs ++ [.ceiling l now] }
  | .go i fate =>
    match w.jobs[i]? with
    | none => w
    | some job => w.go C i fate job
  | .resolve fate =>
    { w with
      table := if fate.effect then w.table.resolve k else w.table
      jobs := w.jobs ++ [if fate = .ok then .deleting (w.table.named k) else .finished] }
  | .discard topics maxRows fate =>
    let taken := (w.table.discarded k.txid topics maxRows).contains k
    { w with
      table := if fate.effect then w.table.discard k.txid topics maxRows else w.table
      jobs := w.jobs ++ [if taken = true ∧ fate = .ok then .deleting (w.table.named k) else .finished] }
  -- the notes, the lever and every statement on another key: none of them writes the key's `r2_key`
  | .others t => if t.named k = w.table.named k then { w with table := t } else w

def World.run (w : World k) (moves : List (Move k)) : World k := moves.foldl (World.step C) w

def Takes (t : Table) (l : Letter) : Prop := ∀ r, t.row l.key = some r → r.meets l = true ∧ r.carried C < l.carried C

def KeepsOld (t : Table) (l : Letter) : Prop := ∃ r, t.row l.key = some r ∧ r.meets l = true ∧ l.carried C ≤ r.carried C

def World.Meets (w : World k) : Move k → Prop
  | .go i fate => ∀ l now held key, w.jobs[i]? = some (.park l now held) → w.table.room k (dayCutoff now) = true →
      l.1.object = some key →
      (fate.effect = true → Takes C w.table l.1 → key ∈ w.objects ∧ .delete key ∉ w.jobs) ∧
      (fate = .ok → KeepsOld C w.table l.1 → w.table.named k = some key → held = some key)
  | _ => True

def World.MeetsAll (w : World k) : List (Move k) → Prop
  | [] => True
  | m :: ms => w.Meets C m ∧ (w.step C m).MeetsAll ms

end

section
variable {C : Codec} {k : Key} {w : World k} {t : Table}

def World.Safe (w : World k) : Prop := ∀ key, w.table.named k = some key → key ∈ w.objects ∧ Job.delete key ∉ w.jobs

/-! ## What a park names and drops -/

variable {now : Int}

theorem named_fresh {l : Letter} (hr : t.row l.key = none) : Table.named (t ++ [l.fresh now]) l.key = l.object := by
  have hk : (l.fresh now).key = l.key := rfl
  simp only [Table.named, Table.row, row_append, show row Row.key t l.key = none from hr, hk, if_true]
  rfl

theorem named_modify {l : Letter} {r : Row} (hr : t.row l.key = some r) :
    Table.named (modify Row.key (· = l.key) (fun r => r.parkedBy C l now) t) l.key =
      if r.carried C < l.carried C then l.object else r.r2Key := by
  have hkey : ∀ r : Row, (r.parkedBy C l now).key = r.key := fun _ => rfl
  simp only [Table.named, Table.row]
  rw [row_modify hkey, show row Row.key t l.key = some r from hr]
  simp only [Option.map_some, decide_true, if_true, Option.bind_some]
  by_cases hc : r.carried C < l.carried C <;> simp [Row.parkedBy, hc, Letter.object]

variable {key : String} {held : Option String}

theorem dropped_ne {new : Option String} {kept : Kept} (h : droppedObject (some kept) held new = some key) :
    (kept = .new ∧ held = some key ∧ new ≠ some key) ∨ (kept = .old ∧ new = some key ∧ held ≠ some key) := by
  cases kept with
  | new =>
    obtain ⟨hk, hne⟩ := Option.filter_eq_some_iff.mp h
    exact Or.inl ⟨rfl, hk, fun hn => (of_decide_eq_true hne) hn.symm⟩
  | old =>
    obtain ⟨hk, hne⟩ := Option.filter_eq_some_iff.mp h
    exact Or.inr ⟨rfl, hk, fun hn => (of_decide_eq_true hne) hn.symm⟩

theorem park_cases (t : Table) (l : Letter) (now : Int) :
    (t.room l.key (dayCutoff now) = true ∧ Takes C t l ∧ (t.park C l now).1.named l.key = l.object ∧
        ∀ held key, (t.park C l now).2.bind (fun r => droppedObject r.kept held l.object) = some key → l.object ≠ some key) ∨
      (t.room l.key (dayCutoff now) = true ∧ KeepsOld C t l ∧ (t.park C l now).1.named l.key = t.named l.key ∧
        ∀ held key, (t.park C l now).2.bind (fun r => droppedObject r.kept held l.object) = some key → l.object = some key ∧ held ≠ some key) ∨
      t.park C l now = (t, none) := by
  by_cases hroom : t.room l.key (dayCutoff now) = true
  · cases hr : t.row l.key with
    | none =>
      have hp : t.park C l now = (t ++ [l.fresh now], some ⟨l.startRedrives, .park, none⟩) := by
        simp only [Table.park, hroom, if_true, hr]
      refine Or.inl ⟨hroom, fun r h => ?_, ?_, fun held key h => ?_⟩
      · rw [hr] at h
        cases h
      · rw [hp, named_fresh hr]
      · rw [hp] at h
        cases h
    | some r =>
      by_cases hmeets : r.meets l = true
      · have hor : r.status ≠ .parked ∨ r.message ≠ l.message := by simpa [Row.meets] using hmeets
        have hp : t.park C l now = (modify Row.key (· = l.key) (fun r => r.parkedBy C l now) t,
            some ⟨r.redrives, if r.status = .parked then .copy else .park, some (if r.carried C < l.carried C then .new else .old)⟩) := by
          simp only [Table.park, hroom, if_true, hr, if_pos hor]
        by_cases hc : r.carried C < l.carried C
        · refine Or.inl ⟨hroom, fun r' h => ?_, ?_, fun held key h => ?_⟩
          · rw [hr] at h
            cases h
            exact ⟨hmeets, hc⟩
          · rw [hp, named_modify hr, if_pos hc]
          · rw [hp, if_pos hc] at h
            simp only [Option.bind_some] at h
            rcases dropped_ne h with ⟨-, -, hne⟩ | ⟨hk, -⟩
            · exact hne
            · cases hk
        · refine Or.inr (Or.inl ⟨hroom, ⟨r, hr, hmeets, not_lt.mp hc⟩, ?_, fun held key h => ?_⟩)
          · rw [hp, named_modify hr, if_neg hc]
            simp only [Table.named, hr, Option.bind_some]
          · rw [hp, if_neg hc] at h
            simp only [Option.bind_some] at h
            rcases dropped_ne h with ⟨hk, -⟩ | ⟨-, hn, hne⟩
            · cases hk
            · exact ⟨hn, hne⟩
      · have hor : ¬(r.status ≠ .parked ∨ r.message ≠ l.message) := by simpa [Row.meets] using hmeets
        refine Or.inr (Or.inr ?_)
        simp only [Table.park, hroom, if_true, hr, if_neg hor]
  · refine Or.inr (Or.inr ?_)
    simp only [Table.park, if_neg hroom]

/-! ## One move -/

theorem deleting_eq {o : Option String} (h : Job.deleting (k := k) o = .delete key) : o = some key := by
  cases o with
  | none => cases h
  | some key' =>
    cases h
    rfl

variable {fate : Fate}

theorem afterPark_eq {l : LetterOf k} {ret : Option ParkedReturn}
    (h : afterPark l held fate ret = .delete key) :
    fate = .ok ∧ ret.bind (fun r => droppedObject r.kept held l.1.object) = some key := by
  cases fate with
  | faulted e landed => cases h
  | ok =>
    cases ret with
    | none => cases h
    | some r => exact ⟨rfl, deleting_eq h⟩

theorem World.Safe.set (h : w.Safe) (i : Nat) {j : Job k} (hj : ∀ key, j ≠ .delete key) : World.Safe { w with jobs := w.jobs.set i j } := by
  intro key hn
  refine ⟨(h key hn).1, fun hm => ?_⟩
  rcases List.mem_or_eq_of_mem_set hm with hm | hm
  · exact (h key hn).2 hm
  · exact hj key hm.symm

theorem afterCeiling_ne (t : Table) (l : LetterOf k) (now : Int) (key : String) : afterCeiling t l now ≠ .delete key := by
  simp only [afterCeiling]
  split <;> simp

theorem safe_park (h : w.Safe) {i : Nat} {l : LetterOf k}
    (hi : w.jobs[i]? = some (.park l now held)) (hm : w.Meets C (.go i fate)) : (w.go C i fate (.park l now held)).Safe := by
  obtain ⟨l, rfl⟩ := l
  have hm := fun key => hm ⟨l, rfl⟩ now held key hi
  intro key hn
  have hgone : ∀ job : Job l.key, job ≠ .delete key → Job.delete key ∉ w.jobs → Job.delete key ∉ w.jobs.set i job := by
    intro job hj hd hmem
    exact (List.mem_or_eq_of_mem_set hmem).elim hd fun he => hj he.symm
  simp only [World.go] at hn ⊢
  by_cases heff : fate.effect = true
  · rw [if_pos heff] at hn
    rcases park_cases (C := C) w.table l now with ⟨hroom, ht, hnamed, hdrop⟩ | ⟨hroom, hk, hnamed, hdrop⟩ | hp
    · have hobj : l.object = some key := hnamed.symm.trans hn
      obtain ⟨hat, hnot⟩ := (hm key hroom hobj).1 heff ht
      exact ⟨hat, hgone _ (fun he => hdrop held key (afterPark_eq he).2 hobj) hnot⟩
    · have hrow : w.table.named l.key = some key := hnamed.symm.trans hn
      refine ⟨(h key hrow).1, hgone _ (fun he => ?_) (h key hrow).2⟩
      obtain ⟨hok, hd⟩ := afterPark_eq he
      obtain ⟨hobj, hne⟩ := hdrop held key hd
      exact hne ((hm key hroom hobj).2 hok hk hrow)
    · rw [hp] at hn
      refine ⟨(h key hn).1, hgone _ (fun he => ?_) (h key hn).2⟩
      have hd := (afterPark_eq he).2
      rw [hp] at hd
      cases hd
  · rw [if_neg heff] at hn
    refine ⟨(h key hn).1, hgone _ (fun he => ?_) (h key hn).2⟩
    rw [(afterPark_eq he).1] at heff
    exact heff rfl

theorem safe_go (h : w.Safe) {i : Nat} {job : Job k} (hi : w.jobs[i]? = some job) (hm : w.Meets C (.go i fate)) :
    (w.go C i fate job).Safe := by
  cases job with
  | ceiling l now =>
    refine h.set i fun key => ?_
    split
    · exact afterCeiling_ne w.table l now key
    · exact fun h => (by cases h)
  | park l now held => exact safe_park h hi hm
  | delete gone =>
    have hin : Job.delete gone ∈ w.jobs := List.mem_of_getElem? hi
    intro key hn
    have hs := (World.Safe.set h i (j := .finished) fun _ => (by simp)) key hn
    refine ⟨?_, hs.2⟩
    simp only [World.go]
    split
    · have hne : key ≠ gone := fun he => (h key hn).2 (he ▸ hin)
      exact List.mem_filter.mpr ⟨hs.1, decide_eq_true hne⟩
    · exact hs.1
  | finished => exact h

theorem safe_taken (h : w.Safe) {t : Table} {job : Job k} (ht : t.named k = none ∨ t.named k = w.table.named k ∧ ∀ key, job ≠ .delete key) :
    World.Safe { w with table := t, jobs := w.jobs ++ [job] } := by
  intro key hn
  rcases ht with ht | ⟨ht, hj⟩
  · rw [show t.named k = some key from hn] at ht
    cases ht
  · have hs := h key (ht.symm.trans hn)
    refine ⟨hs.1, fun hm => ?_⟩
    rcases List.mem_append.mp hm with hm | hm
    · exact hs.2 hm
    · exact hj key (List.mem_singleton.mp hm).symm

theorem named_removed (sel : Key → Bool) (t : Table) : Table.named (remove Row.key sel t) k = if sel k then none else t.named k := by
  simp only [Table.named, Table.row, row_remove]
  split <;> rfl

theorem safe_step (h : w.Safe) {m : Move k} (hm : w.Meets C m) : (w.step C m).Safe := by
  cases m with
  | deliver l now => exact safe_taken h (Or.inr ⟨rfl, fun _ => (by simp)⟩)
  | go i fate =>
    simp only [World.step]
    cases hi : w.jobs[i]? with
    | none => exact h
    | some job => exact safe_go h hi hm
  | resolve fate =>
    refine safe_taken h ?_
    cases fate with
    | ok => exact Or.inl (by simp [Fate.effect, Table.resolve, named_removed])
    | faulted e landed =>
      cases landed
      · refine Or.inr ⟨rfl, fun key => ?_⟩
        rw [if_neg (by simp)]
        exact fun h => (by cases h)
      · exact Or.inl (by simp [Fate.effect, Table.resolve, named_removed])
  | discard topics maxRows fate =>
    refine safe_taken h ?_
    by_cases htaken : (w.table.discarded k.txid topics maxRows).contains k = true
    · by_cases heff : fate.effect = true
      · exact Or.inl (by rw [if_pos heff, Table.discard, named_removed, if_pos htaken])
      · refine Or.inr ⟨by rw [if_neg heff], fun key => ?_⟩
        rw [if_neg fun hok => heff (by rw [hok.2]; rfl)]
        exact fun h => (by cases h)
    · refine Or.inr ⟨?_, fun key => ?_⟩
      · split
        · rw [Table.discard, named_removed, if_neg htaken]
        · rfl
      · rw [if_neg fun hok => htaken hok.1]
        exact fun h => (by cases h)
  | others t =>
    simp only [World.step]
    split
    · rename_i ht
      exact fun key hn => h key (ht.symm.trans hn)
    · exact h

theorem safe_run (h : w.Safe) {moves : List (Move k)} (hm : w.MeetsAll C moves) : (w.run C moves).Safe := by
  induction moves generalizing w with
  | nil => exact h
  | cons m ms ih => exact ih (safe_step h hm.1) hm.2

end

/-- From every row whose object is at rest, in every interleaving whose parks meet the condition, the object the row
names is at rest. -/
theorem park_keeps_object (C : Codec) (k : Key) (t : Table) (objects : List String)
    (ht : ∀ key, t.named k = some key → key ∈ objects) (moves : List (Move k)) (hm : World.MeetsAll C ⟨t, objects, []⟩ moves) :
    ∀ key, (World.run C ⟨t, objects, []⟩ moves).table.named k = some key → key ∈ (World.run C ⟨t, objects, []⟩ moves).objects := by
  have hs : World.Safe (k := k) ⟨t, objects, []⟩ := fun key hn => ⟨ht key hn, List.not_mem_nil⟩
  exact fun key hn => (safe_run hs hm key hn).1

private def sizes : Codec := ⟨fun m => m.beefB64.length, fun _ => none, id⟩

private def letterKey : Key := ⟨"aa", "tm_pot"⟩

/-- A message of the key under the text `s`: its BEEF is `bytes` bytes in the object `key`. -/
private def keyed (s key : String) (bytes : Nat) : LetterOf letterKey := ⟨⟨letterKey, .raw s, "f", 0, some (key, bytes)⟩, rfl⟩

private def parkedLight : Table := [(keyed "m0" "k0" 30).1.fresh 1]

private theorem parkedLight_named {key : String} (h : parkedLight.named letterKey = some key) : key ∈ ["k0", "k1", "k2"] := by
  rw [show parkedLight.named letterKey = some "k0" by decide] at h
  cases h
  decide

/-- Two consumers read the ceilings; the heavier copy is parked first, and the lighter one drops its own object. -/
private def heavier : List (Move letterKey) :=
  [.deliver (keyed "m1" "k1" 60) 2, .deliver (keyed "m2" "k2" 45) 2, .go 0 .ok, .go 1 .ok, .go 0 .ok, .go 1 .ok, .go 1 .ok, .go 0 .ok]

private theorem heavier_meets : World.MeetsAll sizes ⟨parkedLight, ["k0", "k1", "k2"], []⟩ heavier := by
  refine ⟨trivial, trivial, ?_, ?_, ?_, ?_, ?_, ?_, trivial⟩
  · intro l now held key hi
    rw [show (_ : List (Job letterKey))[0]? = some (.ceiling (keyed "m1" "k1" 60) 2) by decide] at hi
    cases hi
  · intro l now held key hi
    rw [show (_ : List (Job letterKey))[1]? = some (.ceiling (keyed "m2" "k2" 45) 2) by decide] at hi
    cases hi
  · intro l now held key hi _ hobj
    rw [show (_ : List (Job letterKey))[0]? = some (.park (keyed "m1" "k1" 60) 2 (some "k0")) by decide] at hi
    cases hi
    cases hobj
    exact ⟨fun _ _ => ⟨by decide, by decide⟩, fun _ _ hn => absurd hn (by decide)⟩
  · intro l now held key hi _ hobj
    rw [show (_ : List (Job letterKey))[1]? = some (.park (keyed "m2" "k2" 45) 2 (some "k0")) by decide] at hi
    cases hi
    cases hobj
    exact ⟨fun _ _ => ⟨by decide, by decide⟩, fun _ _ hn => absurd hn (by decide)⟩
  · intro l now held key hi
    rw [show (_ : List (Job letterKey))[1]? = some (.delete "k2") by decide] at hi
    cases hi
  · intro l now held key hi
    rw [show (_ : List (Job letterKey))[0]? = some (.delete "k0") by decide] at hi
    cases hi

theorem park_keeps_object_heavier :
    (World.run sizes ⟨parkedLight, ["k0", "k1", "k2"], []⟩ heavier).table.named letterKey = some "k1" ∧
      "k1" ∈ (World.run sizes ⟨parkedLight, ["k0", "k1", "k2"], []⟩ heavier).objects :=
  ⟨by decide, park_keeps_object sizes letterKey parkedLight ["k0", "k1", "k2"] (fun _ => parkedLight_named) heavier heavier_meets _
    (by decide)⟩

/-- A second consumer parks the heavy copy between the ceiling read and the park of another text of it: that park keeps
the row and deletes the object the row names. -/
theorem park_deletes_held : ¬∀ (C : Codec) (k : Key) (t : Table) (objects : List String), (∀ key, t.named k = some key → key ∈ objects) →
    ∀ moves : List (Move k), (∀ l now, Move.deliver l now ∈ moves → ∀ key, l.1.object = some key → key ∈ objects) →
      (∀ key, Job.delete key ∉ (World.run C ⟨t, objects, []⟩ moves).jobs) →
      ∀ key, (World.run C ⟨t, objects, []⟩ moves).table.named k = some key → key ∈ (World.run C ⟨t, objects, []⟩ moves).objects := by
  intro h
  have hk := h sizes letterKey parkedLight ["k0", "k1", "k2"] (fun _ => parkedLight_named)
    [.deliver (keyed "m1" "k1" 60) 2, .deliver (keyed "m2" "k1" 60) 2, .go 0 .ok, .go 1 .ok, .go 1 .ok, .go 1 .ok, .go 0 .ok, .go 0 .ok]
    ?_ ?_ "k1" (by decide)
  · revert hk
    decide
  · intro l now hm key hobj
    have hl : l = keyed "m1" "k1" 60 ∨ l = keyed "m2" "k1" 60 := by
      simp only [List.mem_cons, Move.deliver.injEq, reduceCtorEq, List.not_mem_nil, or_false] at hm
      exact hm.imp And.left And.left
    rcases hl with rfl | rfl <;> cases hobj <;> decide
  · intro key
    rw [show (World.run sizes _ _).jobs = [.finished, .finished] by decide]
    simp

end DroppedObjects

end OverlayEngine.DeadLetters
