import OverlayEngine.Worker.EvictionsOpen

/-!
# The evictions lose no row

A table and its twin taken together: an eviction moves a row from the one to the
other, a readmission copies it back and drops it from the twin. A copy back
leaves out a row whose primary key the table has, so what is kept of every store
is the keys, and the rows themselves where no two share a key.
-/

namespace OverlayEngine.Evictions.Store

variable {τ β : Type}

/-- A row without its spend pointer and the columns that go with one. -/
def unpointed (r : Row τ β) : Row τ β := { r with spent := false, spendingTxid := none, spend := {} }

/-- The rows of a table and of its twin, each without its spend pointer. -/
def kept (σ : Store τ β) (t : Tbl) : List (Row τ β) := (σ.table t ++ σ.twin t).map unpointed

variable {κ : Type} (pk : Tbl → Option τ → Nat → β → κ)

/-- The primary keys that stand in a table or in its twin. -/
def keys (σ : Store τ β) (t : Tbl) : List κ := (σ.kept t).map fun r => r.pk pk t

/-- What every statement keeps. -/
structure Keeps (σ σ' : Store τ β) : Prop where
  keys : ∀ t k, k ∈ σ'.keys pk t ↔ k ∈ σ.keys pk t
  rows : ∀ t, (σ.keys pk t).Nodup → (σ'.kept t).Perm (σ.kept t)

variable {σ σ' : Store τ β}

theorem Keeps.of_perm (h : ∀ t, (σ'.kept t).Perm (σ.kept t)) : Keeps pk σ σ' where
  keys := fun t _ => ((h t).map _).mem_iff
  rows := fun t _ => h t

theorem Keeps.refl (σ : Store τ β) : Keeps pk σ σ := Keeps.of_perm pk fun _ => List.Perm.refl _

theorem Keeps.trans {σ₁ σ₂ σ₃ : Store τ β} (h₁ : Keeps pk σ₁ σ₂) (h₂ : Keeps pk σ₂ σ₃) : Keeps pk σ₁ σ₃ where
  keys := fun t k => (h₂.keys t k).trans (h₁.keys t k)
  rows := fun t hnodup => by
    have hperm := h₁.rows t hnodup
    exact (h₂.rows t ((hperm.map _).nodup_iff.mpr hnodup)).trans hperm

theorem Keeps.foldl {α : Type} {f : Store τ β → α → Store τ β} (hf : ∀ σ a, Keeps pk σ (f σ a)) (as : List α) (σ : Store τ β) :
    Keeps pk σ (as.foldl f σ) := by
  induction as generalizing σ with
  | nil => exact Keeps.refl pk σ
  | cons a as ih => exact (hf σ a).trans pk (ih (f σ a))

/-! ## The statements -/

/-- A statement that rewrites the pointers of the pot rows. -/
theorem keeps_map (σ : Store τ β) {f : Row τ β → Row τ β} (hf : ∀ r, unpointed (f r) = unpointed r) :
    Keeps pk σ { σ with table := Function.update σ.table .potRecords ((σ.table .potRecords).map f) } := by
  refine Keeps.of_perm pk fun t => ?_
  by_cases ht : t = .potRecords
  · subst ht
    simp [kept, Function.comp_def, hf]
  · simp only [kept, Function.update_of_ne ht, List.Perm.refl]

/-- A statement on the ledger alone. -/
theorem keeps_ledger (σ : Store τ β) (ledger : τ → Option (Ledger τ)) : Keeps pk σ { σ with ledger := ledger } :=
  Keeps.of_perm pk fun _ => List.Perm.refl _

theorem keys_eq (σ : Store τ β) (t : Tbl) : σ.keys pk t = (σ.table t ++ σ.twin t).map fun r => r.pk pk t := by
  rw [keys, kept, List.map_map]
  rfl

variable [DecidableEq τ]

theorem keeps_move (x : τ) (σ : Store τ β) (p : Tbl × KeyCol) : Keeps pk σ (σ.move x p) := by
  refine Keeps.of_perm pk fun t => List.Perm.map _ ?_
  by_cases ht : t = p.1
  · subst ht
    simp only [move, Function.update_self]
    have hsplit := List.filter_append_perm (fun r => r.keyed p.2 x) (σ.table p.1)
    -- what stays is brought next to what moves
    refine List.perm_append_comm.trans (List.Perm.trans ?_ List.perm_append_comm)
    rw [List.append_assoc]
    exact hsplit.append_left _
  · simp only [move, Function.update_of_ne ht, List.Perm.refl]

theorem keeps_release (x : τ) (σ : Store τ β) : Keeps pk σ (σ.release x) :=
  keeps_map pk σ fun r => by split <;> rfl

theorem keeps_remarkSpends (x : τ) (now : Nat) (os : List (τ × Nat)) (σ : Store τ β) : Keeps pk σ (σ.remarkSpends x now os) :=
  Keeps.foldl pk (fun σ _ => keeps_map pk σ fun r => by split <;> rfl) os σ

theorem keeps_joinHopSpends (x : τ) (os : List (Hop τ)) (σ : Store τ β) : Keeps pk σ (σ.joinHopSpends x os) :=
  Keeps.foldl pk (fun σ _ => keeps_map pk σ fun r => by split <;> rfl) os σ

variable [DecidableEq κ]

omit [DecidableEq τ] in
theorem mem_keys_insertIgnore {t : Tbl} (new rows : List (Row τ β)) (k : κ) :
    k ∈ (new.foldl (insertIgnore pk t) rows).map (fun r => r.pk pk t) ↔
      k ∈ rows.map (fun r => r.pk pk t) ∨ k ∈ new.map fun r => r.pk pk t := by
  induction new generalizing rows with
  | nil => simp
  | cons r new ih =>
    rw [List.foldl_cons, ih, List.map_cons, List.mem_cons, ← or_assoc]
    refine or_congr_left ?_
    unfold insertIgnore
    split
    · rename_i hin
      -- the row left out has the key of a row that stands
      have hmem : r.pk pk t ∈ rows.map fun r => r.pk pk t := by
        simpa [List.any_eq_true] using hin
      exact ⟨.inl, fun h => h.elim id fun h => h ▸ hmem⟩
    · simp [or_comm]

omit [DecidableEq τ] in
theorem foldl_insertIgnore {t : Tbl} (new rows : List (Row τ β)) (h : ((rows ++ new).map fun r => r.pk pk t).Nodup) :
    new.foldl (insertIgnore pk t) rows = rows ++ new := by
  induction new generalizing rows with
  | nil => simp
  | cons r new ih =>
    have hfresh : rows.any (fun r' => r'.pk pk t = r.pk pk t) = false := by
      rw [List.any_eq_false]
      intro r' hr' heq
      rw [List.map_append, List.map_cons, List.nodup_append] at h
      exact h.2.2 _ (List.mem_map_of_mem hr') _ List.mem_cons_self (of_decide_eq_true heq)
    rw [List.foldl_cons, insertIgnore, hfresh, if_neg Bool.false_ne_true, ih _ (by simpa using h), List.append_assoc, List.singleton_append]

/-- The copy back and the drop from the twin, of one key. -/
theorem keeps_copyBack_dropTwin (x : τ) (σ : Store τ β) (p : Tbl × KeyCol) : Keeps pk σ ((σ.copyBack pk x p).dropTwin x p) := by
  have hsplit := List.filter_append_perm (fun r => r.keyed p.2 x) (σ.twin p.1)
  constructor
  · intro t k
    rw [keys_eq, keys_eq]
    by_cases ht : t = p.1
    · subst ht
      simp only [copyBack, dropTwin, Function.update_self, List.map_append, List.mem_append, mem_keys_insertIgnore, or_assoc]
      rw [← List.mem_append, ← List.map_append, (hsplit.map _).mem_iff]
    · simp only [copyBack, dropTwin, Function.update_of_ne ht]
  · intro t hnodup
    refine List.Perm.map _ ?_
    by_cases ht : t = p.1
    · subst ht
      rw [keys_eq] at hnodup
      have hsub : ((σ.table p.1 ++ (σ.twin p.1).filter fun r => r.keyed p.2 x).map fun r => r.pk pk p.1).Nodup :=
        hnodup.sublist ((List.filter_sublist.append_left _).map _)
      simp only [copyBack, dropTwin, Function.update_self]
      rw [foldl_insertIgnore pk _ _ hsub, List.append_assoc]
      exact hsplit.append_left _
    · simp only [copyBack, dropTwin, Function.update_of_ne ht, List.Perm.refl]

theorem keeps_restoreKey {x : τ} {p : Tbl × KeyCol} (h : σ.restoreKey pk x p = some σ') : Keeps pk σ σ' := by
  unfold restoreKey at h
  split at h
  · cases h
    exact Keeps.refl pk σ
  · dsimp only at h
    split at h <;> cases h
    exact keeps_copyBack_dropTwin pk x σ p

/-! ## The operations -/

theorem keeps_restoreTwins {x : τ} (h : σ.restoreTwins pk x = some σ') : Keeps pk σ σ' :=
  restoreTwins_induct pk (P := Keeps pk σ) (fun _ _ _ _ hs hk => hs.trans pk (keeps_restoreKey pk hk)) (Keeps.refl pk σ) h

omit [DecidableEq κ] in
theorem keeps_pass (x : τ) (now : Nat) (repointed : List (τ × Nat)) (σ : Store τ β) : Keeps pk σ (σ.pass x now repointed) := by
  unfold pass batch
  dsimp only
  split
  · have hopened := keeps_ledger pk σ (σ.openMarker x now).ledger
    have hmoved : Keeps pk (σ.openMarker x now) ((σ.openMarker x now).moveAll x) := Keeps.foldl pk (keeps_move pk x) movedTables _
    refine (hopened.trans pk hmoved).trans pk ?_
    refine Keeps.trans pk (keeps_ledger pk _ _) (Keeps.trans pk (keeps_release pk x _) (keeps_ledger pk _ _))
  · exact Keeps.refl pk σ

theorem keeps_evict {x : τ} {now : Nat} {repointed : List (τ × Nat)} (h : σ.evict pk x now repointed = some σ') :
    Keeps pk σ σ' := by
  have hopened : Keeps pk σ (σ.openMarker x now) := keeps_ledger pk σ _
  unfold evict at h
  dsimp only at h
  split at h
  · cases h
    exact hopened
  · have hfirst := hopened.trans pk (keeps_pass pk x now repointed _)
    generalize (σ.openMarker x now).pass x now repointed = first at h hfirst
    have hsecond : Keeps pk σ (if (first.snapshot x repointed).work then first.pass x now repointed else first) := by
      split
      · exact hfirst.trans pk (keeps_pass pk x now repointed first)
      · exact hfirst
    generalize (if (first.snapshot x repointed).work then first.pass x now repointed else first) = second at h hsecond
    split at h
    · exact hsecond.trans pk (keeps_restoreTwins pk h)
    · cases h
      exact hsecond

theorem keeps_readmitIfEvicted {joins : Store τ β → τ → List (Hop τ)} {x : τ} {now : Nat}
    (h : σ.readmitIfEvicted pk joins x now = some σ') : Keeps pk σ σ' := by
  unfold readmitIfEvicted at h
  split at h
  · cases h
    exact Keeps.refl pk σ
  · rename_i l _
    split at h
    · cases h
      exact Keeps.refl pk σ
    · obtain ⟨restored, hres, h⟩ := Option.bind_eq_some_iff.mp h
      obtain ⟨done, hbelt, rfl⟩ := Option.map_eq_some_iff.mp h
      have hstamped : Keeps pk σ ((restored.remarkSpends x now l.releasedSpends).stamp x now) :=
        (keeps_restoreTwins pk hres).trans pk ((keeps_remarkSpends pk x now _ restored).trans pk (keeps_ledger pk _ _))
      refine Keeps.trans pk ?_ (keeps_joinHopSpends pk x _ done)
      split at hbelt
      · obtain ⟨again, hagain, rfl⟩ := Option.map_eq_some_iff.mp hbelt
        exact hstamped.trans pk ((keeps_restoreTwins pk hagain).trans pk (keeps_remarkSpends pk x now _ again))
      · cases hbelt
        exact hstamped

/-- Over every sequence, a primary key stands in its table or in its twin exactly where it stood before; where no two
rows of the two share a key, their rows together are the same rows, but for the pointers and the columns that go with them. -/
theorem run_keeps_rows (joins : Store τ β → τ → List (Hop τ)) (ops : List (Op τ)) {σ σ' : Store τ β}
    (h : σ.run pk joins ops = some σ') : Keeps pk σ σ' := by
  induction ops generalizing σ with
  | nil =>
    cases h
    exact Keeps.refl pk _
  | cons op ops ih =>
    obtain ⟨σ₁, hstep, hrest⟩ := Option.bind_eq_some_iff.mp h
    refine Keeps.trans pk ?_ (ih hrest)
    cases op with
    | evict x now repointed => exact keeps_evict pk hstep
    | readmitIfEvicted x now => exact keeps_readmitIfEvicted pk hstep

theorem run_keeps_rows_marker :
    ∃ σ, markerRun [.evict potTxid 10 [], .readmitIfEvicted potTxid 20] = some σ ∧ Keeps outpointKey markerStore σ := by
  have hrun : (markerRun [.evict potTxid 10 [], .readmitIfEvicted potTxid 20]).isSome = true := by decide
  obtain ⟨σ, hσ⟩ := Option.isSome_iff_exists.mp hrun
  exact ⟨σ, hσ, run_keeps_rows outpointKey (fun _ _ => []) _ hσ⟩

end OverlayEngine.Evictions.Store
