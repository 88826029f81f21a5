import OverlayEngine.Worker.DeadLettersKept

/-!
# The bounds on the dead letters

A park reads the bounds again, so no park breaks one. The class of a letter is
written by notes, also while the letter is re-driven and holds its bytes: only
such a note can take the "not now" letters past their bounds.
-/

namespace OverlayEngine.DeadLetters

open KeyedRows

inductive Stmt where
  | note (k : Key) (fault : String) (now : Int) (cls : Option LetterClass)
  | park (l : Letter) (now : Int)
  | claim (row : ParkedRow) (now : Int) (forced : Bool)
  | revert (row : ParkedRow)
  | staleReturn (now : Int) (limit : Nat)
  | resolve (k : Key)
  | discard (txid : String) (topics : Option String) (maxRows : Nat)

def Table.exec (C : Codec) (t : Table) : Stmt → Table
  | .note k fault now cls => t.note k fault now cls
  | .park l now => (t.park C l now).1
  | .claim row now forced => (t.claim row now forced).1
  | .revert row => t.revert row
  | .staleReturn now limit => t.staleReturn now limit
  | .resolve k => t.resolve k
  | .discard txid topics maxRows => t.discard txid topics maxRows

def Table.execAll (C : Codec) (t : Table) (ss : List Stmt) : Table := ss.foldl (Table.exec C) t

def Table.notNow (t : Table) : Nat := t.countP fun r => decide (r.cls = .notNow) && r.held

def Table.notNowOf (t : Table) (txid : String) : Nat :=
  t.countP fun r => decide (r.key.txid = txid) && decide (r.cls = .notNow) && r.held

structure Table.NotNowBounded (t : Table) : Prop where
  share : t.notNow ≤ notNowMax
  perTxid : ∀ txid, t.notNowOf txid ≤ notNowPerTxid

def Table.Meets (t : Table) : Stmt → Prop
  | .note k _ _ (some .notNow) => ∀ r, t.row k = some r → r.status = .redriven → r.cls = .fault →
      t.notNow < notNowMax ∧ t.notNowOf k.txid < notNowPerTxid
  | _ => True

def Table.MeetsAll (C : Codec) (t : Table) : List Stmt → Prop
  | [] => True
  | s :: ss => t.Meets s ∧ (t.exec C s).MeetsAll C ss

/-! ## The verdict -/

theorem verdict_iff_room (t : Table) (k : Key) (cut : Int) : (∃ near, ceilingVerdict (t.ceiling k cut) = .ok near) ↔ t.room k cut = true := by
  have hknown : 1 ≤ (t.ceiling k cut).known ↔ (t.any fun r => decide (r.key = k) && r.held) = true := by
    rw [List.any_eq_true]
    exact List.countP_pos_iff
  unfold Table.room
  by_cases h : (t.any fun r => decide (r.key = k) && r.held) = true
  · rw [ceilingVerdict, if_pos (hknown.mpr h), h]
    simp
  · have hk : ¬1 ≤ (t.ceiling k cut).known := fun hk => h (hknown.mp hk)
    rw [ceilingVerdict, if_neg hk, Bool.eq_false_iff.mpr h]
    by_cases hheld : t.countP Row.held < parkedRowsCeiling
    · have hc : ¬((t.ceiling k cut).known < 1 ∧ parkedRowsCeiling ≤ (t.ceiling k cut).held) := fun hc => absurd hheld (Nat.not_lt.mpr hc.2)
      rw [if_neg hc]
      by_cases hcls : t.classOf k = .notNow
      · rw [if_pos (show (t.ceiling k cut).cls = .notNow from hcls)]
        by_cases h1 : notNowPerTxid ≤ (t.ceiling k cut).notNowTxid
        · rw [if_pos h1]
          have := Nat.not_lt.mpr h1
          simp_all [Table.ceiling]
        · rw [if_neg h1]
          by_cases h2 : notNowMax ≤ (t.ceiling k cut).notNow
          · rw [if_pos h2]
            have := Nat.not_lt.mpr h2
            simp_all [Table.ceiling]
          · rw [if_neg h2]
            by_cases h3 : notNowPerDay ≤ (t.ceiling k cut).notNowDay
            · rw [if_pos h3]
              have := Nat.not_lt.mpr h3
              simp_all [Table.ceiling]
            · rw [if_neg h3]
              simp_all [Table.ceiling]
      · rw [if_neg (show (t.ceiling k cut).cls ≠ .notNow from hcls)]
        simp [hheld, hcls]
    · have hc : (t.ceiling k cut).known < 1 ∧ parkedRowsCeiling ≤ (t.ceiling k cut).held := ⟨Nat.not_le.mp hk, Nat.not_lt.mp hheld⟩
      rw [if_pos hc]
      simp [hheld]

/-! ## What a statement does to a count -/

/-- The letters with bytes that `g` picks by key and class. -/
def Table.count (g : Key → LetterClass → Bool) (t : Table) : Nat := t.countP fun r => g r.key r.cls && r.held

theorem count_held (t : Table) : t.countP Row.held = t.count fun _ _ => true := rfl

theorem count_notNow (t : Table) : t.notNow = t.count fun _ c => decide (c = .notNow) := rfl

theorem count_notNowOf (t : Table) (txid : String) :
    t.notNowOf txid = t.count fun k c => decide (k.txid = txid) && decide (c = .notNow) := rfl

section
variable {C : Codec} {t : Table} {k : Key} (g : Key → LetterClass → Bool)

theorem count_append (t : Table) (r : Row) : Table.count g (t ++ [r]) = t.count g + if g r.key r.cls && r.held then 1 else 0 := by
  rw [Table.count, List.countP_append, List.countP_singleton, Table.count]

theorem count_modify_row {f : Row → Row} {r : Row} (h : (t.map Row.key).Nodup) (hr : t.row k = some r) :
    Table.count g (modify Row.key (· = k) f t) + (if g r.key r.cls && r.held then 1 else 0) =
      t.count g + if g (f r).key (f r).cls && (f r).held then 1 else 0 := countP_modify_row _ h hr

theorem count_note (h : (t.map Row.key).Nodup) (fault : String) (now : Int) (cls : Option LetterClass) :
    (∃ r, t.row k = some r ∧ r.status = .redriven ∧
      (t.note k fault now cls).count g + (if g k r.cls then 1 else 0) = t.count g + if g k (cls.getD r.cls) then 1 else 0) ∨
    ((∀ r, t.row k = some r → r.status ≠ .redriven) ∧ (t.note k fault now cls).count g = t.count g) := by
  unfold Table.note
  cases hr : t.row k with
  | none =>
    refine Or.inr ⟨by simp, ?_⟩
    rw [count_append]
    simp [Row.held]
  | some r =>
    have hk := row_key hr
    have hc := count_modify_row g (f := fun r : Row => if r.status = .parked then r else { r with fault := some (boundedFault fault), attempts := r.attempts + 1, cls := cls.getD r.cls }) h hr
    cases hs : r.status with
    | redriven =>
      refine Or.inl ⟨r, rfl, hs, ?_⟩
      simpa [hs, hk, Row.held] using hc
    | parked =>
      refine Or.inr ⟨by simp [hs], ?_⟩
      simpa [hs] using hc
    | failing =>
      refine Or.inr ⟨by simp [hs], ?_⟩
      simpa [hs, Row.held] using hc

theorem count_claim_le (h : (t.map Row.key).Nodup) (row : ParkedRow) (now : Int) (forced : Bool) :
    (t.claim row now forced).1.count g ≤ t.count g := by
  unfold Table.claim
  split
  · exact Nat.le_refl _
  · rename_i r hr
    split
    · rename_i hs
      have hc := count_modify_row g (f := fun r => r.claimed now forced) h hr
      simp only [Row.claimed, Row.held, hs.1] at hc
      exact Nat.le_of_eq (Nat.add_right_cancel hc)
    · exact Nat.le_refl _

theorem count_revert_le (h : (t.map Row.key).Nodup) (row : ParkedRow) : (t.revert row).count g ≤ t.count g := by
  unfold Table.revert
  split
  · rename_i hv
    simp only [Table.reverts, Option.any_eq_true, Bool.and_eq_true, decide_eq_true_eq] at hv
    obtain ⟨r, hr, hs⟩ := hv
    have hc := count_modify_row g (f := fun r : Row => { r with status := .parked, redrives := r.redrives - 1, redrivenAt := row.redrivenAt }) h hr
    simp only [Row.held, hs.1] at hc
    exact Nat.le_of_eq (Nat.add_right_cancel hc)
  · exact Nat.le_refl _

theorem count_staleReturn_le (h : (t.map Row.key).Nodup) (now : Int) (limit : Nat) : (t.staleReturn now limit).count g ≤ t.count g := by
  apply countP_modify_le
  intro r hr hs hq
  obtain ⟨r', hr', hk, hp⟩ := mem_oldest (List.contains_iff_mem.mp hs)
  have he : r' = r := List.inj_on_of_nodup_map h hr' hr hk
  rw [he] at hp
  simp only [Bool.and_eq_true, decide_eq_true_eq] at hp
  simp only [Row.returned, Bool.and_eq_true] at hq
  simp [Row.held, hp.1, hq.1]

theorem count_park (h : (t.map Row.key).Nodup) (l : Letter) (now : Int) :
    (t.park C l now).1.count g ≤ t.count g ∨
      (t.room l.key (dayCutoff now) = true ∧ (∀ r, t.row l.key = some r → r.held = false) ∧
        (t.park C l now).1.count g = t.count g + if g l.key (t.classOf l.key) then 1 else 0) := by
  unfold Table.park
  split
  next hroom =>
    split
    next hn =>
      refine Or.inr ⟨hroom, by simp [hn], ?_⟩
      dsimp only
      rw [count_append]
      simp [Letter.fresh, Row.held, Table.classOf, hn]
    next r hr =>
      split
      next =>
        have hc := count_modify_row g (f := fun r => r.parkedBy C l now) h hr
        have hk := row_key hr
        by_cases hh : r.held = true
        · refine Or.inl ?_
          simp only [Row.parkedBy, hh] at hc
          exact Nat.le_of_eq (Nat.add_right_cancel hc)
        · have hf := Bool.eq_false_iff.mpr hh
          refine Or.inr ⟨hroom, by simp [hr, hf], ?_⟩
          have hcls : t.classOf l.key = r.cls := by rw [Table.classOf, hr]; rfl
          rw [hf, hk, Bool.and_false] at hc
          rw [hcls, ← hk]
          simpa [Row.parkedBy, Row.held, hk] using hc
      next => exact Or.inl (Nat.le_refl _)
  next => exact Or.inl (Nat.le_refl _)

/-! ## The bounds -/

theorem keyed_exec (h : (t.map Row.key).Nodup) (s : Stmt) : ((t.exec C s).map Row.key).Nodup := by
  cases s with
  | note k fault now cls =>
    dsimp only [Table.exec, Table.note]
    split
    next hn => exact nodup_append h hn
    next r hr =>
      refine nodup_modify ?_ h
      intro r
      split <;> rfl
  | park l now =>
    dsimp only [Table.exec, Table.park]
    split
    · split
      next hn => exact nodup_append h hn
      next r hr =>
        split
        · dsimp only
          exact nodup_modify (f := fun r => r.parkedBy C l now) (fun _ => rfl) h
        · exact h
    · exact h
  | claim row now forced =>
    dsimp only [Table.exec, Table.claim]
    split
    · exact h
    · split
      · dsimp only
        exact nodup_modify (f := fun r => r.claimed now forced) (fun _ => rfl) h
      · exact h
  | revert row =>
    dsimp only [Table.exec, Table.revert]
    split
    · exact nodup_modify (fun _ => rfl) h
    · exact h
  | staleReturn now limit => exact nodup_modify (fun _ => rfl) h
  | resolve k =>
    dsimp only [Table.exec, Table.resolve]
    exact nodup_remove h
  | discard txid topics maxRows => exact nodup_remove h

theorem room_new (h : (t.map Row.key).Nodup) {k : Key} {cut : Int} (hroom : t.room k cut = true)
    (hn : ∀ r, t.row k = some r → r.held = false) :
    t.countP Row.held < parkedRowsCeiling ∧ (t.classOf k = .notNow → t.notNowOf k.txid < notNowPerTxid ∧ t.notNow < notNowMax) := by
  have hany : (t.any fun r => decide (r.key = k) && r.held) = false := by
    rw [List.any_eq_false]
    intro r hr
    by_cases hk : r.key = k
    · subst hk
      simp [hn r (row_of_mem h hr)]
    · simp [hk]
  unfold Table.room at hroom
  rw [hany, Bool.false_or, Bool.and_eq_true, decide_eq_true_eq] at hroom
  refine ⟨hroom.1, fun hc => ?_⟩
  have hb := hroom.2
  simp only [hc, ne_eq, not_true_eq_false, decide_false, Bool.false_or, Bool.and_eq_true, decide_eq_true_eq] at hb
  exact hb.1

theorem exec_count (h : (t.map Row.key).Nodup) {s : Stmt} (hs : ∀ k fault now cls, s ≠ .note k fault now cls) :
    (t.exec C s).count g ≤ t.count g ∨
      ∃ k, t.countP Row.held < parkedRowsCeiling ∧ (t.classOf k = .notNow → t.notNowOf k.txid < notNowPerTxid ∧ t.notNow < notNowMax) ∧
        (t.exec C s).count g = t.count g + if g k (t.classOf k) then 1 else 0 := by
  cases s with
  | note k fault now cls => exact absurd rfl (hs k fault now cls)
  | park l now =>
    rcases count_park g h l now with hle | ⟨hroom, hn, he⟩
    · exact Or.inl hle
    · obtain ⟨hheld, hcls⟩ := room_new h hroom hn
      exact Or.inr ⟨l.key, hheld, hcls, he⟩
  | claim row now forced => exact Or.inl (count_claim_le g h row now forced)
  | revert row => exact Or.inl (count_revert_le g h row)
  | staleReturn now limit => exact Or.inl (count_staleReturn_le g h now limit)
  | resolve k =>
    dsimp only [Table.exec, Table.resolve]
    exact Or.inl (countP_remove_le _ t)
  | discard txid topics maxRows => exact Or.inl (countP_remove_le _ t)

end

section
variable {C : Codec} {t : Table}

theorem held_exec (h : (t.map Row.key).Nodup) (hb : t.countP Row.held ≤ parkedRowsCeiling) (s : Stmt) :
    (t.exec C s).countP Row.held ≤ parkedRowsCeiling := by
  by_cases hs : ∃ k fault now cls, s = .note k fault now cls
  · obtain ⟨k, fault, now, cls, rfl⟩ := hs
    rw [count_held] at hb ⊢
    -- a note keeps the status, so the letters with bytes stay the same
    rcases count_note (fun _ _ => true) h (k := k) fault now cls with ⟨r, -, -, he⟩ | ⟨-, he⟩
    · simp only [if_true] at he
      exact Nat.le_trans (Nat.le_of_eq (Nat.add_right_cancel he)) hb
    · exact Nat.le_trans (Nat.le_of_eq he) hb
  · rw [count_held] at hb ⊢
    rcases exec_count (C := C) (fun _ _ => true) h fun k fault now cls he => hs ⟨k, fault, now, cls, he⟩ with hle | ⟨k, hlt, -, he⟩
    · exact hle.trans hb
    · rw [he, if_pos rfl]
      exact hlt

theorem note_bounded_iff (h : (t.map Row.key).Nodup) (hb : t.NotNowBounded) (k : Key) (fault : String) (now : Int) (cls : Option LetterClass) :
    (t.note k fault now cls).NotNowBounded ↔ t.Meets (.note k fault now cls) := by
  have hshare := count_note (fun _ c => decide (c = .notNow)) h (k := k) fault now cls
  have htxid := fun x => count_note (fun k c => decide (k.txid = x) && decide (c = .notNow)) h (k := k) fault now cls
  simp only [← count_notNow, ← count_notNowOf] at hshare htxid
  by_cases hr : ∃ r, t.row k = some r ∧ r.status = .redriven
  · obtain ⟨r, hr, hs⟩ := hr
    have hshare' : (t.note k fault now cls).notNow + (if decide (r.cls = .notNow) then 1 else 0) =
        t.notNow + if decide (cls.getD r.cls = .notNow) then 1 else 0 := by
      rcases hshare with ⟨r', hr', -, he⟩ | ⟨hno, -⟩
      · rw [hr] at hr'
        cases hr'
        exact he
      · exact absurd hs (hno r hr)
    have htxid' : ∀ x, (t.note k fault now cls).notNowOf x + (if decide (k.txid = x) && decide (r.cls = .notNow) then 1 else 0) =
        t.notNowOf x + if decide (k.txid = x) && decide (cls.getD r.cls = .notNow) then 1 else 0 := by
      intro x
      rcases htxid x with ⟨r', hr', -, he⟩ | ⟨hno, -⟩
      · rw [hr] at hr'
        cases hr'
        exact he
      · exact absurd hs (hno r hr)
    by_cases hw : cls = some .notNow ∧ r.cls = .fault
    · obtain ⟨rfl, hc⟩ := hw
      simp only [hc, Option.getD_some, reduceCtorEq, decide_false, decide_true, Bool.and_false, Bool.and_true, Bool.false_eq_true,
        if_false, if_true, decide_eq_true_eq, Nat.add_zero] at hshare' htxid'
      have hmeets : t.Meets (.note k fault now (some .notNow)) ↔ t.notNow < notNowMax ∧ t.notNowOf k.txid < notNowPerTxid := by
        constructor
        · exact fun hm => hm r hr hs hc
        · intro hm r' _ _ _
          exact hm
      rw [hmeets]
      constructor
      · intro hb'
        have h1 := hb'.share
        have h2 := hb'.perTxid k.txid
        rw [htxid' k.txid, if_pos rfl] at h2
        exact ⟨by omega, h2⟩
      · rintro ⟨h1, h2⟩
        refine ⟨by omega, fun x => ?_⟩
        rw [htxid' x]
        by_cases hx : k.txid = x
        · subst hx
          rw [if_pos rfl]
          exact h2
        · rw [if_neg hx]
          exact hb.perTxid x
    · -- the class stays, or a "not now" letter becomes a fault letter
      have hge : ∀ b : Bool, (if b && decide (cls.getD r.cls = .notNow) then 1 else 0) ≤ if b && decide (r.cls = .notNow) then 1 else 0 := by
        intro b
        cases b
        · simp
        · cases hrc : r.cls with
          | notNow => simp only [Bool.true_and, decide_true, if_true]; split <;> omega
          | fault =>
            cases cls with
            | none => simp
            | some c =>
              cases c with
              | notNow => exact absurd ⟨rfl, hrc⟩ hw
              | fault => simp
      have hmeets : t.Meets (.note k fault now cls) := by
        cases cls with
        | none => trivial
        | some c =>
          cases c with
          | fault => trivial
          | notNow =>
            intro r' hr' _ hc'
            rw [hr] at hr'
            cases hr'
            exact absurd ⟨rfl, hc'⟩ hw
      refine iff_of_true ⟨?_, fun x => ?_⟩ hmeets
      · have hg := hge true
        simp only [Bool.true_and] at hg
        have := hb.share
        omega
      · have hg := hge (decide (k.txid = x))
        have := hb.perTxid x
        have := htxid' x
        omega
  · have hno : ∀ r, t.row k = some r → r.status ≠ .redriven := fun r hr' hs => hr ⟨r, hr', hs⟩
    have hmeets : t.Meets (.note k fault now cls) := by
      cases cls with
      | none => trivial
      | some c =>
        cases c with
        | fault => trivial
        | notNow => exact fun r hr' hs => absurd hs (hno r hr')
    refine iff_of_true ⟨?_, fun x => ?_⟩ hmeets
    · rcases hshare with ⟨r, hr', hs, -⟩ | ⟨-, he⟩
      · exact absurd hs (hno r hr')
      · exact he ▸ hb.share
    · rcases htxid x with ⟨r, hr', hs, -⟩ | ⟨-, he⟩
      · exact absurd hs (hno r hr')
      · exact he ▸ hb.perTxid x

theorem bounded_exec_iff (h : (t.map Row.key).Nodup) (hb : t.NotNowBounded) (s : Stmt) : (t.exec C s).NotNowBounded ↔ t.Meets s := by
  by_cases hs : ∃ k fault now cls, s = .note k fault now cls
  · obtain ⟨k, fault, now, cls, rfl⟩ := hs
    exact note_bounded_iff h hb k fault now cls
  · have hs' : ∀ k fault now cls, s ≠ .note k fault now cls := fun k fault now cls he => hs ⟨k, fault, now, cls, he⟩
    have hmeets : t.Meets s := by
      cases s with
      | note k fault now cls => exact absurd rfl (hs' k fault now cls)
      | _ => trivial
    refine iff_of_true ⟨?_, fun x => ?_⟩ hmeets
    · have hshare := hb.share
      rw [count_notNow] at hshare ⊢
      rcases exec_count (C := C) (fun _ c => decide (c = .notNow)) h hs' with hle | ⟨k, -, hcls, he⟩
      · exact hle.trans hshare
      · rw [he]
        by_cases hc : t.classOf k = .notNow
        · rw [if_pos (by simpa using hc)]
          exact (hcls hc).2
        · rw [if_neg (by simpa using hc)]
          exact hshare
    · have htxid := hb.perTxid x
      rw [count_notNowOf] at htxid ⊢
      rcases exec_count (C := C) (fun k c => decide (k.txid = x) && decide (c = .notNow)) h hs' with hle | ⟨k, -, hcls, he⟩
      · exact hle.trans htxid
      · rw [he]
        by_cases hc : k.txid = x ∧ t.classOf k = .notNow
        · rw [if_pos (by simpa using hc), ← hc.1]
          exact (hcls hc.2).1
        · rw [if_neg (by simpa using hc)]
          exact htxid

theorem held_execAll (h : (t.map Row.key).Nodup) (hb : t.countP Row.held ≤ parkedRowsCeiling) (ss : List Stmt) :
    (t.execAll C ss).countP Row.held ≤ parkedRowsCeiling := by
  induction ss generalizing t with
  | nil => exact hb
  | cons s ss ih => exact ih (keyed_exec h s) (held_exec h hb s)

theorem bounded_execAll_iff (h : (t.map Row.key).Nodup) (hb : t.NotNowBounded) (ss : List Stmt) :
    (∀ pre, pre <+: ss → (t.execAll C pre).NotNowBounded) ↔ t.MeetsAll C ss := by
  induction ss generalizing t with
  | nil =>
    refine iff_of_true ?_ trivial
    intro pre hp
    rw [List.prefix_nil.mp hp]
    exact hb
  | cons s ss ih =>
    constructor
    · intro hall
      have hs : (t.exec C s).NotNowBounded := hall [s] (by simp)
      refine ⟨(bounded_exec_iff h hb s).mp hs, (ih (keyed_exec h s) hs).mp ?_⟩
      exact fun pre hp => hall (s :: pre) (List.cons_prefix_cons.mpr ⟨rfl, hp⟩)
    · rintro ⟨hm, hms⟩ pre hp
      have hs : (t.exec C s).NotNowBounded := (bounded_exec_iff h hb s).mpr hm
      cases pre with
      | nil => exact hb
      | cons s' pre =>
        obtain ⟨rfl, hp'⟩ := List.cons_prefix_cons.mp hp
        exact (ih (keyed_exec h s') hs).mpr hms pre hp'

/-- The verdict is the park's own rule; no sequence of statements takes the letters with bytes past the ceiling; and
the "not now" letters stay within their bounds exactly while every note that turns a re-driven fault letter finds room. -/
theorem letters_bounded (C : Codec) (t : Table) (h : (t.map Row.key).Nodup) (hheld : t.countP Row.held ≤ parkedRowsCeiling)
    (hb : t.NotNowBounded) (ss : List Stmt) :
    (∀ (t : Table) (k : Key) (now : Int), (∃ near, ceilingVerdict (t.ceiling k (dayCutoff now)) = .ok near) ↔ t.room k (dayCutoff now) = true) ∧
      (t.execAll C ss).countP Row.held ≤ parkedRowsCeiling ∧
      ((∀ pre, pre <+: ss → (t.execAll C pre).NotNowBounded) ↔ t.MeetsAll C ss) :=
  ⟨fun t k now => verdict_iff_room t k (dayCutoff now), held_execAll h hheld ss, bounded_execAll_iff h hb ss⟩

end

private def twoRedriven : List Stmt :=
  let letter := fun topics => (⟨⟨"aa", topics⟩, .raw "m", faultUnrecorded, 0, none⟩ : Letter)
  [.park (letter "tm_a") 1, .park (letter "tm_b") 1, .claim ⟨⟨"aa", "tm_a"⟩, none, 0, none⟩ 2 false, .claim ⟨⟨"aa", "tm_b"⟩, none, 0, none⟩ 2 false]

private theorem empty_bounded : Table.NotNowBounded [] := ⟨by decide, fun _ => by simp [Table.notNowOf]⟩

theorem letters_bounded_redriven :
    (Table.execAll inlineCodec [] (twoRedriven ++ [.note ⟨"aa", "tm_a"⟩ "not now" 3 (some .notNow)])).countP Row.held ≤ parkedRowsCeiling ∧
      ∀ pre, pre <+: twoRedriven ++ [.note ⟨"aa", "tm_a"⟩ "not now" 3 (some .notNow)] → (Table.execAll inlineCodec [] pre).NotNowBounded := by
  obtain ⟨-, hheld, hbounded⟩ := letters_bounded inlineCodec [] .nil (by decide) empty_bounded (twoRedriven ++ [.note ⟨"aa", "tm_a"⟩ "not now" 3 (some .notNow)])
  refine ⟨hheld, hbounded.mpr ⟨trivial, trivial, trivial, trivial, ?_, trivial⟩⟩
  exact fun _ _ _ _ => by decide

/-- Both re-drives fail "not now": two "not now" letters of one transaction hold bytes. -/
theorem redriven_pass_the_bound :
    ¬∀ ss : List Stmt, (Table.execAll inlineCodec [] ss).NotNowBounded := by
  intro h
  have hb := (h (twoRedriven ++ [.note ⟨"aa", "tm_a"⟩ "not now" 3 (some .notNow), .note ⟨"aa", "tm_b"⟩ "not now" 3 (some .notNow)])).perTxid "aa"
  revert hb
  decide

end OverlayEngine.DeadLetters
