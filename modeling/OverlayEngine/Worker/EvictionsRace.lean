import OverlayEngine.Worker.EvictionsOpen

/-!
# An eviction and a readmission of one transaction

The two run statement by statement over one store: a batch of the eviction is
one statement, a restore counts, copies, counts and drops key by key. A schedule
says which of the two takes the next statement.
-/

namespace OverlayEngine.Evictions

inductive Stage where
  | count
  | copy
  | check
  | drop

/-- `restore_twins` between two statements. -/
structure Restore where
  left : List (Tbl × KeyCol) := movedTables
  stage : Stage := .count

/-- `evict` between two statements; `second` is its verification pass. -/
inductive Evict (τ : Type) where
  | opening
  | asking
  | reading (second : Bool) (left : List Tbl) (work : Bool)
  | spends (second : Bool) (work : Bool)
  | listing (second : Bool) (work : Bool) (released : List (τ × Nat))
  | committing (second : Bool) (released : List (τ × Nat))
  | fenced
  | checking
  | restoring (ρ : Restore)
  | done

/-- `readmit_if_evicted` between two statements; `done` with whether a readmission happened. -/
inductive Readmission (τ : Type) where
  | looking
  | restoring (released : List (τ × Nat)) (ρ : Restore)
  | remarking (left : List (τ × Nat))
  | stamping
  | counting (left : List (Tbl × KeyCol)) (found : Bool)
  | mine
  | again (ρ : Restore)
  | relisting
  | remarkingAgain (left : List (τ × Nat))
  | joining (left : List (Hop τ))
  | done (readmitted : Bool)

structure Race (τ β : Type) where
  store : Store τ β
  evict : Evict τ := .opening
  readmission : Readmission τ := .looking

inductive Who where
  | evict
  | readmission

def tables : List Tbl := (movedTables.map Prod.fst).dedup

section
variable {τ β κ : Type} [DecidableEq τ] [DecidableEq κ] (pk : Tbl → Option τ → Nat → β → κ)

/-- A row keyed by `x` under any of its table's keys. -/
def Row.owned (r : Row τ β) (t : Tbl) (x : τ) : Bool := movedTables.any fun p => decide (p.1 = t) && r.keyed p.2 x

def Restore.step (ρ : Restore) (σ : Store τ β) (x : τ) : Option (Store τ β × Restore) :=
  match ρ.left with
  | [] => none
  | p :: rest => match ρ.stage with
    | .count => some (σ, if Store.count (σ.twin p.1) p.2 x = 0 then ⟨rest, .count⟩ else ⟨p :: rest, .copy⟩)
    | .copy => some (σ.copyBack pk x p, ⟨p :: rest, .check⟩)
    | .check => if Store.count (σ.table p.1) p.2 x = 0 then none else some (σ, ⟨p :: rest, .drop⟩)
    | .drop => some (σ.dropTwin x p, ⟨rest, .count⟩)

/-- The next statement of the eviction, stamped `asked`. -/
def Evict.step (x : τ) (asked : Nat) (repointed : List (τ × Nat)) (σ : Store τ β) : Evict τ → Option (Store τ β × Evict τ)
  | .opening => some (σ.openMarker x asked, .asking)
  | .asking => some (σ, if σ.readmittedAfter x asked then .done else .reading false tables false)
  | .reading second (t :: left) work => some (σ, .reading second left (work || (σ.table t).any fun r => r.owned t x))
  | .reading second [] work => some (σ, .spends second work)
  | .spends second work =>
    some (σ, .listing second (work || (σ.table .potRecords).any fun r => r.names x) (σ.namedBy x ++ repointed))
  | .listing second work released =>
    let merged := (((σ.ledger x).map Ledger.releasedSpends).getD [] ++ released).dedup
    some (σ, if second && !work then .checking else .committing second merged)
  | .committing second released =>
    match σ.batch x asked released with
    | some σ' => some (σ', if second then .checking else .reading true tables false)
    | none => some (σ, .fenced)
  | .fenced => if σ.readmittedAfter x asked then some (σ, .checking) else none
  | .checking => some (σ, if σ.readmittedAfter x asked then .restoring {} else .done)
  | .restoring ρ => if ρ.left.isEmpty then some (σ, .done) else (ρ.step pk σ x).map fun p => (p.1, .restoring p.2)
  | .done => none

/-- The next statement of the readmission, stamped `stamped`. -/
def Readmission.step (joins : Store τ β → τ → List (Hop τ)) (x : τ) (stamped : Nat) (σ : Store τ β) :
    Readmission τ → Option (Store τ β × Readmission τ)
  | .looking => some (σ, match σ.ledger x with
    | some l => if l.readmittedAt.isNone then .restoring l.releasedSpends {} else .done false
    | none => .done false)
  | .restoring released ρ =>
    if ρ.left.isEmpty then some (σ, .remarking released) else (ρ.step pk σ x).map fun p => (p.1, .restoring released p.2)
  | .remarking (o :: left) => some (σ.remark x stamped o, .remarking left)
  | .remarking [] => some (σ, .stamping)
  | .stamping => some (σ.stamp x stamped, .counting movedTables false)
  | .counting (p :: left) found => some (σ, .counting left (found || decide (0 < Store.count (σ.twin p.1) p.2 x)))
  | .counting [] found => some (σ, if found then .mine else .joining (joins σ x))
  | .mine => some (σ, if (σ.ledger x).any fun l => l.readmittedAt = some stamped then .again {} else .done true)
  | .again ρ => if ρ.left.isEmpty then some (σ, .relisting) else (ρ.step pk σ x).map fun p => (p.1, .again p.2)
  | .relisting => some (σ, .remarkingAgain (((σ.ledger x).map Ledger.releasedSpends).getD []))
  | .remarkingAgain (o :: left) => some (σ.remark x stamped o, .remarkingAgain left)
  | .remarkingAgain [] => some (σ, .joining (joins σ x))
  | .joining (o :: left) => some (σ.markIfUnpointed x o, .joining left)
  | .joining [] => some (σ, .done true)
  | .done _ => none

variable (joins : Store τ β → τ → List (Hop τ)) (x : τ) (asked stamped : Nat) (repointed : List (τ × Nat))

def Race.step (s : Race τ β) : Who → Option (Race τ β)
  | .evict => (s.evict.step pk x asked repointed s.store).map fun p => { s with store := p.1, evict := p.2 }
  | .readmission => (s.readmission.step pk joins x stamped s.store).map fun p => { s with store := p.1, readmission := p.2 }

def Race.run (s : Race τ β) : List Who → Option (Race τ β)
  | [] => some s
  | w :: rest => (s.step pk joins x asked stamped repointed w).bind fun s' => s'.run rest

end

/-! ## The rows, wherever they are -/

section
variable {τ β κ : Type} [DecidableEq τ] [DecidableEq κ] {pk : Tbl → Option τ → Nat → β → κ}

def Row.ident (pk : Tbl → Option τ → Nat → β → κ) (t : Tbl) (r : Row τ β) : Option τ × Option τ × κ := (r.txid, r.potTxid, r.pk pk t)

def Holds (pk : Tbl → Option τ → Nat → β → κ) (t : Tbl) (rows : List (Row τ β)) (i : Option τ × Option τ × κ) : Prop :=
  ∃ r ∈ rows, r.ident pk t = i

def Store.Held (pk : Tbl → Option τ → Nat → β → κ) (σ : Store τ β) (t : Tbl) (i : Option τ × Option τ × κ) : Prop :=
  Holds pk t (σ.table t) i ∨ Holds pk t (σ.twin t) i

/-- No row of the primary key of a row of `x` has other keys. -/
def Store.Tight (pk : Tbl → Option τ → Nat → β → κ) (σ : Store τ β) (x : τ) : Prop :=
  ∀ t, ∀ r ∈ σ.table t ++ σ.twin t, ∀ r' ∈ σ.table t ++ σ.twin t, r.owned t x = true → r'.pk pk t = r.pk pk t →
    r'.ident pk t = r.ident pk t

/-- No row of `x` is in a twin. -/
def Store.NoTwin (σ : Store τ β) (x : τ) : Prop := ∀ t, ∀ r ∈ σ.twin t, r.owned t x = false

/-- No released outpoint of `os` is left without a spender. -/
def Store.Marked (σ : Store τ β) (os : List (τ × Nat)) : Prop :=
  ∀ o ∈ os, ∀ r ∈ σ.table .potRecords, r.txid = some o.1 → r.outputIndex = o.2 → r.spendingTxid ≠ none

variable {t : Tbl}

omit [DecidableEq κ] in
theorem keyed_ident {r r' : Row τ β} (h : r.ident pk t = r'.ident pk t) (c : KeyCol) (x : τ) : r.keyed c x = r'.keyed c x := by
  simp only [Row.ident, Prod.mk.injEq] at h
  exact Store.keyed_congr h.1 h.2.1 c x

omit [DecidableEq κ] in
theorem owned_ident {r r' : Row τ β} (h : r.ident pk t = r'.ident pk t) (x : τ) : r.owned t x = r'.owned t x := by
  unfold Row.owned
  congr 1
  funext p
  rw [keyed_ident h]

variable {r : Row τ β}

theorem owned_of_keyed {p : Tbl × KeyCol} {x : τ} (hp : p ∈ movedTables) (h : r.keyed p.2 x = true) : r.owned p.1 x = true :=
  List.any_eq_true.mpr ⟨p, hp, by simp [h]⟩

theorem owned_eq_false {x : τ} : r.owned t x = false ↔ ∀ p ∈ movedTables, p.1 = t → r.keyed p.2 x = false := by
  simp [Row.owned]

variable {i : Option τ × Option τ × κ}

omit [DecidableEq τ] [DecidableEq κ] in
theorem holds_append {a b : List (Row τ β)} : Holds pk t (a ++ b) i ↔ Holds pk t a i ∨ Holds pk t b i := by
  simp [Holds, or_and_right, exists_or]

variable {f : Row τ β → Row τ β} {rows : List (Row τ β)}

omit [DecidableEq τ] [DecidableEq κ] in
theorem holds_map (hf : ∀ r, (f r).ident pk t = r.ident pk t)
    : Holds pk t (rows.map f) i ↔ Holds pk t rows i := by
  simp [Holds, hf]

namespace Store

variable {σ : Store τ β} {x : τ} {p : Tbl × KeyCol} {t : Tbl} {i : Option τ × Option τ × κ}

omit [DecidableEq κ] in
theorem held_move : (σ.move x p).Held pk t i ↔ σ.Held pk t i := by
  by_cases ht : t = p.1
  · subst ht
    simp only [Held, move, Function.update_self, holds_append]
    constructor
    · rintro (⟨r, hr, hi⟩ | h | ⟨r, hr, hi⟩)
      · exact .inl ⟨r, List.mem_of_mem_filter hr, hi⟩
      · exact .inr h
      · exact .inl ⟨r, List.mem_of_mem_filter hr, hi⟩
    · rintro (⟨r, hr, hi⟩ | h)
      · cases hk : r.keyed p.2 x with
        | true => exact .inr (.inr ⟨r, List.mem_filter.mpr ⟨hr, hk⟩, hi⟩)
        | false => exact .inl ⟨r, List.mem_filter.mpr ⟨hr, by simp [hk]⟩, hi⟩
      · exact .inr (.inl h)
  · simp only [Held, move, Function.update_of_ne ht]

omit [DecidableEq κ] in
theorem held_moveAll : (σ.moveAll x).Held pk t i ↔ σ.Held pk t i := by
  unfold moveAll
  induction movedTables generalizing σ with
  | nil => rfl
  | cons p ps ih => exact ih.trans held_move

omit [DecidableEq τ] [DecidableEq κ] in
theorem held_pointers (hf : ∀ r, (f r).txid = r.txid ∧ (f r).potTxid = r.potTxid ∧ (f r).outputIndex = r.outputIndex ∧ (f r).rest = r.rest) :
    Held pk { σ with table := Function.update σ.table .potRecords ((σ.table .potRecords).map f) } t i ↔ σ.Held pk t i := by
  by_cases ht : t = .potRecords
  · subst ht
    simp only [Held, Function.update_self]
    rw [holds_map fun r => ?_]
    obtain ⟨h₁, h₂, h₃, h₄⟩ := hf r
    simp only [Row.ident, Row.pk, h₁, h₂, h₃, h₄]
  · simp only [Held, Function.update_of_ne ht]

omit [DecidableEq κ] in
theorem held_batch {σ' : Store τ β} {now : Nat} {released : List (τ × Nat)} (h : σ.batch x now released = some σ') :
    σ'.Held pk t i ↔ σ.Held pk t i := by
  unfold batch at h
  dsimp only at h
  split at h
  · cases h
    refine Iff.trans (held_pointers (σ := ((σ.openMarker x now).moveAll x).mergeReleases x released) fun r => ?_) ?_
    · split <;> exact ⟨rfl, rfl, rfl, rfl⟩
    · exact held_moveAll (σ := σ.openMarker x now)
  · cases h

omit [DecidableEq τ] in
theorem mem_inserted (new : List (Row τ β)) (h : r ∈ rows) : r ∈ new.foldl (insertIgnore pk t) rows := by
  induction new generalizing rows with
  | nil => exact h
  | cons n new ih =>
    refine ih ?_
    unfold insertIgnore
    split
    · exact h
    · exact List.mem_append_left _ h

variable (pk) in
omit [DecidableEq τ] in
theorem pk_inserted (rows : List (Row τ β)) {new : List (Row τ β)} (h : r ∈ new) :
    ∃ r' ∈ new.foldl (insertIgnore pk t) rows, r'.pk pk t = r.pk pk t := by
  induction new generalizing rows with
  | nil => cases h
  | cons n new ih =>
    rcases List.mem_cons.mp h with rfl | h
    · by_cases hin : rows.any (fun r' => r'.pk pk t = r.pk pk t) = true
      · obtain ⟨r', hr', hpk⟩ := List.any_eq_true.mp hin
        refine ⟨r', mem_inserted new ?_, by simpa using hpk⟩
        rw [insertIgnore, if_pos hin]
        exact hr'
      · refine ⟨r, mem_inserted new ?_, rfl⟩
        rw [insertIgnore, if_neg hin]
        exact List.mem_append_right _ (List.mem_singleton.mpr rfl)
    · exact ih _ h

theorem table_copyBack (h : r ∈ σ.table t) : r ∈ (σ.copyBack pk x p).table t := by
  by_cases ht : t = p.1
  · subst ht
    simp only [copyBack, Function.update_self]
    exact mem_inserted _ h
  · simpa only [copyBack, Function.update_of_ne ht] using h

theorem copyBack_holds (hp : p ∈ movedTables) (htight : σ.Tight pk x) (hr : r ∈ σ.twin p.1) (hk : r.keyed p.2 x = true) :
    Holds pk p.1 ((σ.copyBack pk x p).table p.1) (r.ident pk p.1) := by
  have hcopied : r ∈ (σ.twin p.1).filter fun r => r.keyed p.2 x := List.mem_filter.mpr ⟨hr, hk⟩
  obtain ⟨r', hr', hpk⟩ := pk_inserted pk (t := p.1) (σ.table p.1) hcopied
  have hmem : r' ∈ (σ.copyBack pk x p).table p.1 := by
    simp only [copyBack, Function.update_self]
    exact hr'
  refine ⟨r', hmem, htight p.1 r (List.mem_append_right _ hr) r' ?_ (owned_of_keyed hp hk) hpk⟩
  rcases mem_copyBack pk hmem with h | ⟨-, h, -⟩
  · exact List.mem_append_left _ h
  · exact List.mem_append_right _ h

theorem held_copyBack : (σ.copyBack pk x p).Held pk t i ↔ σ.Held pk t i := by
  constructor
  · rintro (⟨r, hr, hi⟩ | h)
    · rcases mem_copyBack pk hr with hr | ⟨rfl, hr, -⟩
      · exact .inl ⟨r, hr, hi⟩
      · exact .inr ⟨r, hr, hi⟩
    · exact .inr h
  · rintro (⟨r, hr, hi⟩ | h)
    · exact .inl ⟨r, table_copyBack hr, hi⟩
    · exact .inr h

omit [DecidableEq κ] in
theorem held_dropTwin (h : ∀ r ∈ σ.twin p.1, r.keyed p.2 x = true → Holds pk p.1 (σ.table p.1) (r.ident pk p.1)) :
    (σ.dropTwin x p).Held pk t i ↔ σ.Held pk t i := by
  constructor
  · rintro (ht | ⟨r, hr, hi⟩)
    · exact .inl ht
    · exact .inr ⟨r, mem_dropTwin hr, hi⟩
  · rintro (ht | ⟨r, hr, hi⟩)
    · exact .inl ht
    · by_cases ht : t = p.1
      · subst ht
        cases hk : r.keyed p.2 x with
        | true => exact .inl (hi ▸ h r hr hk)
        | false =>
          refine .inr ⟨r, ?_, hi⟩
          simp only [dropTwin, Function.update_self]
          exact List.mem_filter.mpr ⟨hr, by simp [hk]⟩
      · refine .inr ⟨r, ?_, hi⟩
        simpa only [dropTwin, Function.update_of_ne ht] using hr

omit [DecidableEq κ] in
theorem held_remark {now : Nat} {o : τ × Nat} : (σ.remark x now o).Held pk t i ↔ σ.Held pk t i :=
  held_pointers fun r => by split <;> exact ⟨rfl, rfl, rfl, rfl⟩

omit [DecidableEq κ] in
theorem held_markIfUnpointed {o : Hop τ} : (σ.markIfUnpointed x o).Held pk t i ↔ σ.Held pk t i :=
  held_pointers fun r => by split <;> exact ⟨rfl, rfl, rfl, rfl⟩

/-! ### Where nothing of the transaction is in a twin -/

theorem copyBack_noTwin (hp : p ∈ movedTables) (h : σ.NoTwin x) : σ.copyBack pk x p = σ := by
  have hnone : (σ.twin p.1).filter (fun r => r.keyed p.2 x) = [] :=
    List.filter_eq_nil_iff.mpr fun r hr => by simp [owned_eq_false.mp (h p.1 r hr) p hp rfl]
  simp [copyBack, hnone]

omit [DecidableEq κ] in
theorem dropTwin_noTwin (hp : p ∈ movedTables) (h : σ.NoTwin x) : σ.dropTwin x p = σ := by
  have hall : (σ.twin p.1).filter (fun r => !r.keyed p.2 x) = σ.twin p.1 :=
    List.filter_eq_self.mpr fun r hr => by simp [owned_eq_false.mp (h p.1 r hr) p hp rfl]
  simp [dropTwin, hall]

/-! ### The pointers -/

variable {os : List (τ × Nat)}

omit [DecidableEq τ] in
theorem marked_pointers
    (hf : ∀ r, f r = r ∨ (f r).txid = r.txid ∧ (f r).outputIndex = r.outputIndex ∧ (f r).spendingTxid = some x) (h : σ.Marked os) :
    Marked { σ with table := Function.update σ.table .potRecords ((σ.table .potRecords).map f) } os := by
  intro o ho r hr ht hv
  simp only [Function.update_self, List.mem_map] at hr
  obtain ⟨r₀, hr₀, rfl⟩ := hr
  rcases hf r₀ with heq | ⟨-, -, hs⟩
  · rw [heq] at ht hv ⊢
    exact h o ho r₀ hr₀ ht hv
  · simp [hs]

theorem marked_remark (now : Nat) (o : τ × Nat) (h : σ.Marked os) : (σ.remark x now o).Marked os :=
  marked_pointers (x := x) (fun r => by split; exact .inr ⟨rfl, rfl, rfl⟩; exact .inl rfl) h

theorem marked_markIfUnpointed (o : Hop τ) (h : σ.Marked os) : (σ.markIfUnpointed x o).Marked os :=
  marked_pointers (x := x) (fun r => by split; exact .inr ⟨rfl, rfl, rfl⟩; exact .inl rfl) h

theorem remark_marks (now : Nat) (o : τ × Nat) : (σ.remark x now o).Marked [o] := by
  intro o' ho r hr ht hv
  obtain rfl := List.mem_singleton.mp ho
  simp only [remark, Function.update_self, List.mem_map] at hr
  obtain ⟨r₀, -, rfl⟩ := hr
  split
  · simp
  · rename_i hne
    rw [if_neg hne] at ht hv
    exact fun hs => hne ⟨ht, hv, hs⟩

end Store

end

/-! ## The invariant -/

section
variable {τ β κ : Type} [DecidableEq τ] [DecidableEq κ] (pk : Tbl → Option τ → Nat → β → κ)

def Evict.moved : Evict τ → Bool
  | .reading second _ _ | .spends second _ | .listing second _ _ | .committing second _ => second
  | .checking | .done => true
  | _ => false

def Evict.begun : Evict τ → Bool
  | .opening => false
  | _ => true

def Evict.unmet : Evict τ → Bool
  | .fenced | .restoring _ => false
  | _ => true

def Readmission.between : Readmission τ → Bool
  | .restoring .. | .remarking _ | .stamping => true
  | _ => false

def Readmission.stamped : Readmission τ → Bool
  | .looking | .restoring .. | .remarking _ | .stamping | .done false => false
  | _ => true

structure Restore.Sound (σ : Store τ β) (x : τ) (ρ : Restore) : Prop where
  behind : ∃ gone, movedTables = gone ++ ρ.left ∧ ∀ p ∈ gone, ∀ r ∈ σ.twin p.1, r.keyed p.2 x = false
  copied : ρ.stage = .check ∨ ρ.stage = .drop → ∀ p rest, ρ.left = p :: rest → ∀ r ∈ σ.twin p.1, r.keyed p.2 x = true →
    Holds pk p.1 (σ.table p.1) (r.ident pk p.1)

def Restore.Of (ρ : Restore) : Prop := ∀ p ∈ ρ.left, p ∈ movedTables

def Alone (σ₀ : Store τ β) (x : τ) (asked : Nat) (s : Race τ β) : Prop :=
  (s.evict = .opening ∧ s.store = σ₀) ∨
  ((s.evict = .asking ∨ s.evict = .done) ∧ s.store = σ₀ ∧ σ₀.readmittedAfter x asked = true) ∨
  (s.evict.begun = true ∧ s.evict.unmet = true ∧ s.store.isOpen x = true ∧ (s.evict.moved = true → s.store.Clear x))

structure Opened (x : τ) (s : Race τ β) (l : Ledger τ) : Prop where
  ledger : s.store.ledger x = some l
  unstamped : l.readmittedAt = none
  unmet : s.evict.unmet = true

structure Closed (x : τ) (stamped : Nat) (s : Race τ β) (l : Ledger τ) : Prop where
  ledger : s.store.ledger x = some l
  stamped : l.readmittedAt = some stamped
  noTwin : s.store.NoTwin x
  marked : s.store.Marked l.releasedSpends
  restoring : ∀ ρ, s.evict = .restoring ρ → ρ.Of
  again : ∀ ρ, s.readmission = .again ρ → ρ.Of

def Race.At (σ₀ : Store τ β) (x : τ) (asked stamped : Nat) (s : Race τ β) : Prop :=
  match s.readmission with
  | .looking | .done false => Alone σ₀ x asked s
  | .restoring released ρ => ∃ l, Opened x s l ∧ released = l.releasedSpends ∧ ρ.Sound pk s.store x
  | .remarking left => ∃ l, Opened x s l ∧ s.store.NoTwin x ∧ ∃ gone, l.releasedSpends = gone ++ left ∧ s.store.Marked gone
  | .stamping => ∃ l, Opened x s l ∧ s.store.NoTwin x ∧ s.store.Marked l.releasedSpends
  | _ => ∃ l, Closed x stamped s l

structure Race.Inv (σ₀ : Store τ β) (x : τ) (asked stamped : Nat) (s : Race τ β) : Prop where
  held : ∀ t i, s.store.Held pk t i ↔ σ₀.Held pk t i
  place : s.At pk σ₀ x asked stamped

def Race.Meets (s : Race τ β) : Who → Prop
  | .evict => (∃ second released, s.evict = .committing second released) → s.readmission.between = false
  | .readmission => True

end

/-! ## One statement -/

section
variable {τ β κ : Type} [DecidableEq τ] [DecidableEq κ] {pk : Tbl → Option τ → Nat → β → κ}
variable {σ σ₀ σ' : Store τ β} {x : τ} {asked stamped : Nat} {repointed : List (τ × Nat)}

omit [DecidableEq κ] in
theorem Store.Tight.of_held (h : σ₀.Tight pk x) (hheld : ∀ t i, σ.Held pk t i ↔ σ₀.Held pk t i) : σ.Tight pk x := by
  have back {t : Tbl} {r : Row τ β} (hr : r ∈ σ.table t ++ σ.twin t) : ∃ r₀ ∈ σ₀.table t ++ σ₀.twin t, r₀.ident pk t = r.ident pk t := by
    have : σ.Held pk t (r.ident pk t) := (List.mem_append.mp hr).imp (fun h => ⟨r, h, rfl⟩) fun h => ⟨r, h, rfl⟩
    rcases (hheld t _).mp this with ⟨r₀, hr₀, hi⟩ | ⟨r₀, hr₀, hi⟩
    · exact ⟨r₀, List.mem_append_left _ hr₀, hi⟩
    · exact ⟨r₀, List.mem_append_right _ hr₀, hi⟩
  intro t r hr r' hr' ho hpk
  obtain ⟨a, ha, hia⟩ := back hr
  obtain ⟨b, hb, hib⟩ := back hr'
  have hpka : a.pk pk t = r.pk pk t := congrArg (fun i => i.2.2) hia
  have hpkb : b.pk pk t = r'.pk pk t := congrArg (fun i => i.2.2) hib
  rw [← hia, ← hib]
  exact h t a ha b hb (by rw [owned_ident hia]; exact ho) (by rw [hpka, hpkb]; exact hpk)

variable {l : Ledger τ}

theorem openMarker_kept (hl : σ.ledger x = some l) (hm : Store.marked asked (some l) = l) : σ.openMarker x asked = σ := by
  unfold Store.openMarker
  rw [hl, hm, ← hl, Function.update_eq_self]

theorem openMarker_open (hl : σ.ledger x = some l) (hr : l.readmittedAt = none) : σ.openMarker x asked = σ :=
  openMarker_kept hl (Store.marked_open hr asked)

theorem openMarker_after (h : σ.readmittedAfter x asked = true) : σ.openMarker x asked = σ := by
  obtain ⟨l, hl, ha⟩ := (Option.any_eq_true _ _).mp h
  obtain ⟨a, hr, hlt⟩ := (Option.any_eq_true _ _).mp ha
  refine openMarker_kept hl ?_
  simp only [decide_eq_true_eq] at hlt
  simp [Store.marked, hr, hlt]

theorem batch_after (h : σ.readmittedAfter x asked = true) (released : List (τ × Nat)) : σ.batch x asked released = none := by
  unfold Store.batch
  dsimp only
  rw [openMarker_after h, if_neg]
  intro hopen
  rw [Store.not_readmittedAfter hopen] at h
  cases h

variable {ρ ρ' : Restore}

theorem restore_noTwin (hof : ρ.Of) (h : σ.NoTwin x) (hs : ρ.step pk σ x = some (σ', ρ')) : σ' = σ ∧ ρ'.Of := by
  unfold Restore.step at hs
  split at hs
  · cases hs
  · rename_i p rest hleft
    have hp : p ∈ movedTables := hof p (by rw [hleft]; exact List.mem_cons_self)
    have hrest : Restore.Of ⟨rest, .count⟩ := fun q hq => hof q (by rw [hleft]; exact List.mem_cons_of_mem p hq)
    have hsame (stage : Stage) : Restore.Of ⟨p :: rest, stage⟩ := fun q hq => hof q (by rw [hleft]; exact hq)
    split at hs
    · cases hs
      refine ⟨rfl, ?_⟩
      split
      · exact hrest
      · exact hsame .copy
    · cases hs
      exact ⟨Store.copyBack_noTwin hp h, hsame .check⟩
    · split at hs
      · cases hs
      · cases hs
        exact ⟨rfl, hsame .drop⟩
    · cases hs
      exact ⟨Store.dropTwin_noTwin hp h, hrest⟩

variable {e e' : Evict τ}

theorem evict_open (hopen : σ.isOpen x = true) (hunmet : e.unmet = true)
    (hcommit : ∀ second released, e ≠ .committing second released) (hs : e.step pk x asked repointed σ = some (σ', e')) :
    σ' = σ ∧ e'.unmet = true ∧ e'.begun = true ∧ (e'.moved = true → e.moved = true) := by
  have hafter := Store.not_readmittedAfter hopen asked
  obtain ⟨l, hl, hr⟩ := Store.isOpen_iff.mp hopen
  cases e with
  | opening =>
    cases hs
    exact ⟨openMarker_open hl hr, rfl, rfl, id⟩
  | asking =>
    simp only [Evict.step, hafter, Bool.false_eq_true, if_false] at hs
    cases hs
    exact ⟨rfl, rfl, rfl, id⟩
  | reading second left work =>
    cases left <;> cases hs <;> exact ⟨rfl, rfl, rfl, id⟩
  | spends second work =>
    cases hs
    exact ⟨rfl, rfl, rfl, id⟩
  | listing second work released =>
    cases hs
    refine ⟨rfl, ?_, ?_, ?_⟩ <;> split
    · rfl
    · rfl
    · rfl
    · rfl
    · rename_i hskip
      exact fun _ => (Bool.and_eq_true_iff.mp hskip).1
    · exact id
  | committing second released => exact (hcommit second released rfl).elim
  | fenced => cases hunmet
  | checking =>
    simp only [Evict.step, hafter, Bool.false_eq_true, if_false] at hs
    cases hs
    exact ⟨rfl, rfl, rfl, id⟩
  | restoring ρ => cases hunmet
  | done => cases hs

theorem evict_closed (hafter : σ.readmittedAfter x asked = true) (hnone : σ.NoTwin x)
    (hof : ∀ ρ, e = .restoring ρ → ρ.Of) (hs : e.step pk x asked repointed σ = some (σ', e')) :
    σ' = σ ∧ ∀ ρ, e' = .restoring ρ → ρ.Of := by
  have hfresh : Restore.Of {} := fun _ hp => hp
  cases e with
  | opening =>
    cases hs
    exact ⟨openMarker_after hafter, fun _ h => by cases h⟩
  | asking =>
    simp only [Evict.step, hafter, if_true] at hs
    cases hs
    exact ⟨rfl, fun _ h => by cases h⟩
  | reading second left work =>
    cases left <;> cases hs <;> exact ⟨rfl, fun _ h => by cases h⟩
  | spends second work =>
    cases hs
    exact ⟨rfl, fun _ h => by cases h⟩
  | listing second work released =>
    cases hs
    refine ⟨rfl, fun ρ h => ?_⟩
    split at h <;> cases h
  | committing second released =>
    simp only [Evict.step, batch_after hafter] at hs
    cases hs
    exact ⟨rfl, fun _ h => by cases h⟩
  | fenced =>
    simp only [Evict.step, hafter, if_true] at hs
    cases hs
    exact ⟨rfl, fun _ h => by cases h⟩
  | checking =>
    simp only [Evict.step, hafter, if_true] at hs
    cases hs
    refine ⟨rfl, fun ρ h => ?_⟩
    cases h
    exact hfresh
  | restoring ρ =>
    simp only [Evict.step] at hs
    split at hs
    · cases hs
      exact ⟨rfl, fun _ h => by cases h⟩
    · obtain ⟨⟨σ₁, ρ₁⟩, hstep, heq⟩ := Option.map_eq_some_iff.mp hs
      cases heq
      obtain ⟨hσ, hρ⟩ := restore_noTwin (hof ρ rfl) hnone hstep
      refine ⟨hσ, fun ρ' h => ?_⟩
      cases h
      exact hρ
  | done => cases hs

variable {s s' : Race τ β}

theorem evict_alone (h : Alone σ₀ x asked s) (hs : s.evict.step pk x asked repointed s.store = some (σ', e')) :
    Alone σ₀ x asked { s with store := σ', evict := e' } ∧ ∀ t i, σ'.Held pk t i ↔ s.store.Held pk t i := by
  rcases h with ⟨he, hσ⟩ | ⟨he, hσ, hafter⟩ | ⟨hbegun, hunmet, hopen, hclear⟩
  · rw [he, hσ] at hs
    cases hs
    refine ⟨?_, fun t i => by rw [hσ]; rfl⟩
    cases hafter : σ₀.readmittedAfter x asked with
    | true => exact .inr (.inl ⟨.inl rfl, openMarker_after hafter, hafter⟩)
    | false =>
      refine .inr (.inr ⟨rfl, rfl, ?_, fun h => by cases h⟩)
      refine (Store.openMarker_cases σ₀ x asked).resolve_right fun h => ?_
      obtain ⟨l, hl, ha⟩ := (Option.any_eq_true _ _).mp h
      rw [Store.openMarker_self] at hl
      cases hl
      -- the marker stamps no readmission of its own
      cases hl₀ : σ₀.ledger x with
      | none =>
        rw [hl₀] at ha
        cases ha
      | some l₀ =>
        rw [hl₀] at ha
        cases hr : l₀.readmittedAt with
        | none =>
          rw [Store.marked_open hr, hr] at ha
          cases ha
        | some a =>
          by_cases hlt : asked < a
          · simp [Store.readmittedAfter, hl₀, hr, hlt] at hafter
          · simp [Store.marked, hr, hlt] at ha
  · rcases he with he | he
    · rw [he, hσ] at hs
      simp only [Evict.step, hafter, if_true] at hs
      cases hs
      exact ⟨.inr (.inl ⟨.inr rfl, rfl, hafter⟩), fun t i => by rw [hσ]⟩
    · rw [he] at hs
      cases hs
  · by_cases hcommit : ∃ second released, s.evict = .committing second released
    · obtain ⟨second, released, he⟩ := hcommit
      obtain ⟨σ₁, hb, -, hc, ho, -⟩ := Store.batch_open hopen asked released
      rw [he] at hs
      simp only [Evict.step, hb, Option.some.injEq, Prod.mk.injEq] at hs
      obtain ⟨rfl, rfl⟩ := hs
      refine ⟨.inr (.inr ⟨?_, ?_, ho, fun _ => hc⟩), fun t i => Store.held_batch hb⟩ <;> cases second <;> rfl
    · have hne : ∀ second released, s.evict ≠ .committing second released := fun second released he => hcommit ⟨second, released, he⟩
      obtain ⟨rfl, hu, hb, hm⟩ := evict_open hopen hunmet hne hs
      exact ⟨.inr (.inr ⟨hb, hu, hopen, fun h => hclear (hm h)⟩), fun _ _ => Iff.rfl⟩

theorem restore_sound (h : ρ.Sound pk σ x) (htight : σ.Tight pk x) (hs : ρ.step pk σ x = some (σ', ρ')) :
    ρ'.Sound pk σ' x ∧ (∀ t i, σ'.Held pk t i ↔ σ.Held pk t i) ∧ σ'.ledger = σ.ledger := by
  unfold Restore.step at hs
  split at hs
  · cases hs
  · rename_i p rest hleft
    obtain ⟨gone, hall, hgone⟩ := h.behind
    rw [hleft] at hall
    have hp : p ∈ movedTables := by rw [hall]; exact List.mem_append_right _ List.mem_cons_self
    -- the key is behind once its twin rows are gone
    have past {σ' : Store τ β} (hsub : ∀ t, ∀ r ∈ σ'.twin t, r ∈ σ.twin t) (hnone : ∀ r ∈ σ'.twin p.1, r.keyed p.2 x = false) :
        Restore.Sound pk σ' x ⟨rest, .count⟩ := by
      refine ⟨⟨gone ++ [p], by rw [hall]; simp, fun q hq r hr => ?_⟩, fun h => by rcases h with h | h <;> cases h⟩
      rcases List.mem_append.mp hq with hq | hq
      · exact hgone q hq r (hsub _ r hr)
      · rw [List.mem_singleton.mp hq] at hr ⊢
        exact hnone r hr
    split at hs
    · cases hs
      refine ⟨?_, fun _ _ => Iff.rfl, rfl⟩
      split
      · rename_i hzero
        refine past (fun _ _ h => h) fun r hr => ?_
        have := List.countP_eq_zero.mp hzero r hr
        simpa using this
      · exact ⟨⟨gone, hall, hgone⟩, fun h => by rcases h with h | h <;> cases h⟩
    · cases hs
      refine ⟨⟨⟨gone, hall, hgone⟩, ?_⟩, fun _ _ => Store.held_copyBack, rfl⟩
      rintro - q rest' hq r hr hk
      cases hq
      exact Store.copyBack_holds hp htight hr hk
    · rename_i hstage
      split at hs
      · cases hs
      · cases hs
        refine ⟨⟨⟨gone, hall, hgone⟩, ?_⟩, fun _ _ => Iff.rfl, rfl⟩
        rintro - q rest' hq
        cases hq
        exact h.copied (.inl hstage) p rest hleft
    · rename_i hstage
      cases hs
      refine ⟨past (fun _ _ hr => Store.mem_dropTwin hr) fun r hr => ?_, fun _ _ => Store.held_dropTwin (h.copied (.inr hstage) p rest hleft), rfl⟩
      simp only [Store.dropTwin, Function.update_self, List.mem_filter, Bool.not_eq_true'] at hr
      exact hr.2

omit [DecidableEq κ] in
theorem Restore.Sound.noTwin (h : ρ.Sound pk σ x) (hleft : ρ.left = []) : σ.NoTwin x := by
  obtain ⟨gone, hall, hgone⟩ := h.behind
  rw [hleft, List.append_nil] at hall
  intro t r hr
  rw [owned_eq_false]
  rintro p hp rfl
  exact hgone p (hall ▸ hp) r hr

variable {joins : Store τ β → τ → List (Hop τ)} {s : Race τ β} {r' r : Readmission τ}

theorem readmit_closed (h : Closed x stamped s l)
    (hs : s.readmission.step pk joins x stamped s.store = some (σ', r'))
    (hstamped : s.readmission.stamped = true) :
    Closed x stamped { s with store := σ', readmission := r' } l ∧ (∀ t i, σ'.Held pk t i ↔ s.store.Held pk t i) ∧ r'.stamped = true := by
  have hfresh : Restore.Of {} := fun _ hp => hp
  have same {r' : Readmission τ} (hr' : ∀ ρ, r' = .again ρ → ρ.Of) : Closed x stamped { s with store := s.store, readmission := r' } l :=
    ⟨h.ledger, h.stamped, h.noTwin, h.marked, h.restoring, hr'⟩
  cases hr : s.readmission with
  | looking => rw [hr] at hstamped; cases hstamped
  | restoring released ρ => rw [hr] at hstamped; cases hstamped
  | remarking left => rw [hr] at hstamped; cases hstamped
  | stamping => rw [hr] at hstamped; cases hstamped
  | counting left found =>
    rw [hr] at hs
    cases left with
    | nil =>
      cases hs
      cases found
      · exact ⟨same fun _ h => (by cases h), fun _ _ => Iff.rfl, rfl⟩
      · exact ⟨same fun _ h => (by cases h), fun _ _ => Iff.rfl, rfl⟩
    | cons p left =>
      cases hs
      exact ⟨same fun _ h => (by cases h), fun _ _ => Iff.rfl, rfl⟩
  | mine =>
    rw [hr] at hs
    simp only [Readmission.step, h.ledger, Option.any_some, h.stamped, decide_true, if_true] at hs
    cases hs
    refine ⟨same fun ρ h => ?_, fun _ _ => Iff.rfl, rfl⟩
    cases h
    exact hfresh
  | again ρ =>
    rw [hr] at hs
    simp only [Readmission.step] at hs
    split at hs
    · cases hs
      exact ⟨same fun _ h => (by cases h), fun _ _ => Iff.rfl, rfl⟩
    · obtain ⟨⟨σ₁, ρ₁⟩, hstep, heq⟩ := Option.map_eq_some_iff.mp hs
      cases heq
      obtain ⟨rfl, hρ⟩ := restore_noTwin (h.again ρ hr) h.noTwin hstep
      refine ⟨same fun ρ' h => ?_, fun _ _ => Iff.rfl, rfl⟩
      cases h
      exact hρ
  | relisting =>
    rw [hr] at hs
    cases hs
    exact ⟨same fun _ h => (by cases h), fun _ _ => Iff.rfl, rfl⟩
  | remarkingAgain left =>
    rw [hr] at hs
    cases left with
    | nil =>
      cases hs
      exact ⟨same fun _ h => (by cases h), fun _ _ => Iff.rfl, rfl⟩
    | cons o left =>
      cases hs
      exact ⟨⟨h.ledger, h.stamped, h.noTwin, Store.marked_remark stamped o h.marked, h.restoring, fun _ h => by cases h⟩,
        fun _ _ => Store.held_remark, rfl⟩
  | joining left =>
    rw [hr] at hs
    cases left with
    | nil =>
      cases hs
      exact ⟨same fun _ h => (by cases h), fun _ _ => Iff.rfl, rfl⟩
    | cons o left =>
      cases hs
      exact ⟨⟨h.ledger, h.stamped, h.noTwin, Store.marked_markIfUnpointed o h.marked, h.restoring, fun _ h => by cases h⟩,
        fun _ _ => Store.held_markIfUnpointed, rfl⟩
  | done b =>
    rw [hr] at hs
    cases hs

omit [DecidableEq κ] in
theorem at_stamped (h : r.stamped = true) :
    Race.At pk σ₀ x asked stamped ⟨σ, e, r⟩ ↔ ∃ l, Closed x stamped ⟨σ, e, r⟩ l := by
  cases r with
  | looking => cases h
  | restoring released ρ => cases h
  | remarking left => cases h
  | stamping => cases h
  | done b =>
    cases b
    · cases h
    · exact Iff.rfl
  | _ => exact Iff.rfl

omit [DecidableEq τ] in
theorem Closed.after [DecidableEq τ] (h : Closed x stamped s l) (hlt : asked < stamped) : s.store.readmittedAfter x asked = true := by
  simp [Store.readmittedAfter, h.ledger, h.stamped, hlt]

theorem readmit_unstamped (htight : σ.Tight pk x) (h : Race.At pk σ₀ x asked stamped ⟨σ, e, r⟩)
    (hr : r.stamped = false) (hs : r.step pk joins x stamped σ = some (σ', r')) :
    Race.At pk σ₀ x asked stamped ⟨σ', e, r'⟩ ∧ ∀ t i, σ'.Held pk t i ↔ σ.Held pk t i := by
  cases r with
  | looking =>
    cases hs
    refine ⟨?_, fun _ _ => Iff.rfl⟩
    cases hl : σ.ledger x with
    | none => exact h
    | some l =>
      cases hra : l.readmittedAt with
      | some a =>
        simp only [hra, Option.isNone_some, Bool.false_eq_true, if_false]
        exact h
      | none =>
        simp only [hra, Option.isNone_none, if_true]
        refine ⟨l, ⟨hl, hra, ?_⟩, rfl, ⟨[], rfl, fun _ hp => by cases hp⟩, fun h => by rcases h with h | h <;> cases h⟩
        rcases h with ⟨he, -⟩ | ⟨-, hσ, hafter⟩ | ⟨-, hu, -⟩
        · change e = .opening at he
          rw [he]
          rfl
        · change σ = σ₀ at hσ
          rw [← hσ] at hafter
          simp [Store.readmittedAfter, hl, hra] at hafter
        · exact hu
  | restoring released ρ =>
    obtain ⟨l, hop, hlist, hρ⟩ := h
    simp only [Readmission.step] at hs
    split at hs
    · rename_i hdone
      cases hs
      exact ⟨⟨l, ⟨hop.ledger, hop.unstamped, hop.unmet⟩, hρ.noTwin (List.isEmpty_iff.mp hdone), [], hlist.symm, fun _ ho => by cases ho⟩, fun _ _ => Iff.rfl⟩
    · obtain ⟨⟨σ₁, ρ₁⟩, hstep, heq⟩ := Option.map_eq_some_iff.mp hs
      cases heq
      obtain ⟨hρ₁, hheld, hledger⟩ := restore_sound hρ htight hstep
      exact ⟨⟨l, ⟨hledger ▸ hop.ledger, hop.unstamped, hop.unmet⟩, hlist, hρ₁⟩, hheld⟩
  | remarking left =>
    obtain ⟨l, hop, hnone, gone, hlist, hmarked⟩ := h
    cases left with
    | nil =>
      cases hs
      rw [List.append_nil] at hlist
      exact ⟨⟨l, ⟨hop.ledger, hop.unstamped, hop.unmet⟩, hnone, hlist ▸ hmarked⟩, fun _ _ => Iff.rfl⟩
    | cons o left =>
      cases hs
      refine ⟨⟨l, ⟨hop.ledger, hop.unstamped, hop.unmet⟩, hnone, gone ++ [o], by rw [hlist]; simp, fun o' ho' => ?_⟩, fun _ _ => Store.held_remark⟩
      rcases List.mem_append.mp ho' with ho' | ho'
      · exact Store.marked_remark stamped o hmarked o' ho'
      · exact Store.remark_marks stamped o o' ho'
  | stamping =>
    obtain ⟨l, hop, hnone, hmarked⟩ := h
    cases hs
    refine ⟨⟨{ l with readmittedAt := some stamped }, ?_, rfl, hnone, hmarked, fun ρ hρ => ?_, fun _ h => by cases h⟩, fun _ _ => Iff.rfl⟩
    · have hl : σ.ledger x = some l := hop.ledger
      simp [Store.stamp, hl, hop.unstamped]
    · have hu := hop.unmet
      rw [show e = _ from hρ] at hu
      cases hu
  | done b => cases hs
  | _ => cases hr

theorem inv_step {w : Who} (hlt : asked < stamped) (htight : σ₀.Tight pk x) (h : s.Inv pk σ₀ x asked stamped)
    (hmeets : s.Meets w) (hstep : s.step pk joins x asked stamped repointed w = some s') : s'.Inv pk σ₀ x asked stamped := by
  obtain ⟨hheld, hplace⟩ := h
  obtain ⟨σ, e, r⟩ := s
  have htight' : σ.Tight pk x := htight.of_held hheld
  cases w with
  | readmission =>
    obtain ⟨⟨σ₁, r₁⟩, hs, rfl⟩ := Option.map_eq_some_iff.mp hstep
    cases hr : r.stamped with
    | false =>
      obtain ⟨hat, hh⟩ := readmit_unstamped htight' hplace hr hs
      exact ⟨fun t i => (hh t i).trans (hheld t i), hat⟩
    | true =>
      obtain ⟨l, hcl⟩ := (at_stamped hr).mp hplace
      obtain ⟨hcl', hh, hr'⟩ := readmit_closed hcl hs hr
      exact ⟨fun t i => (hh t i).trans (hheld t i), (at_stamped hr').mpr ⟨l, hcl'⟩⟩
  | evict =>
    obtain ⟨⟨σ₁, e₁⟩, hs, rfl⟩ := Option.map_eq_some_iff.mp hstep
    -- between the read and the stamp the eviction writes nothing
    have opened {l : Ledger τ} (hop : Opened x ⟨σ, e, r⟩ l) (hb : r.between = true) : σ₁ = σ ∧ Opened x ⟨σ₁, e₁, r⟩ l := by
      have hopen : σ.isOpen x = true := Store.isOpen_iff.mpr ⟨l, hop.ledger, hop.unstamped⟩
      have hne : ∀ second released, e ≠ .committing second released := fun second released he => by
        have := hmeets ⟨second, released, he⟩
        rw [show Race.readmission ⟨σ, e, r⟩ = r from rfl, hb] at this
        cases this
      obtain ⟨rfl, hu, -, -⟩ := evict_open hopen hop.unmet hne hs
      exact ⟨rfl, hop.ledger, hop.unstamped, hu⟩
    cases hr : r.stamped with
    | true =>
      obtain ⟨l, hcl⟩ := (at_stamped hr).mp hplace
      obtain ⟨rfl, hof⟩ := evict_closed (hcl.after hlt) hcl.noTwin hcl.restoring hs
      exact ⟨hheld, (at_stamped hr).mpr ⟨l, hcl.ledger, hcl.stamped, hcl.noTwin, hcl.marked, hof, hcl.again⟩⟩
    | false =>
      cases r with
      | looking =>
        obtain ⟨ha, hh⟩ := evict_alone hplace hs
        exact ⟨fun t i => (hh t i).trans (hheld t i), ha⟩
      | done b =>
        cases b with
        | true => cases hr
        | false =>
          obtain ⟨ha, hh⟩ := evict_alone hplace hs
          exact ⟨fun t i => (hh t i).trans (hheld t i), ha⟩
      | restoring released ρ =>
        obtain ⟨l, hop, hrest⟩ := hplace
        obtain ⟨rfl, hop'⟩ := opened hop rfl
        exact ⟨hheld, l, hop', hrest⟩
      | remarking left =>
        obtain ⟨l, hop, hrest⟩ := hplace
        obtain ⟨rfl, hop'⟩ := opened hop rfl
        exact ⟨hheld, l, hop', hrest⟩
      | stamping =>
        obtain ⟨l, hop, hrest⟩ := hplace
        obtain ⟨rfl, hop'⟩ := opened hop rfl
        exact ⟨hheld, l, hop', hrest⟩
      | _ => cases hr

variable (pk joins x asked stamped repointed)

def Race.MeetsAll : Race τ β → List Who → Prop
  | _, [] => True
  | s, w :: rest => s.Meets w ∧ ∀ s', s.step pk joins x asked stamped repointed w = some s' → MeetsAll s' rest

variable {pk joins x asked stamped repointed}

theorem inv_run (ws : List Who) (hlt : asked < stamped) (htight : σ₀.Tight pk x) (h : s.Inv pk σ₀ x asked stamped)
    (hmeets : s.MeetsAll pk x asked stamped repointed joins ws) (hrun : s.run pk joins x asked stamped repointed ws = some s') :
    s'.Inv pk σ₀ x asked stamped := by
  induction ws generalizing s with
  | nil =>
    cases hrun
    exact h
  | cons w ws ih =>
    obtain ⟨s₁, hstep, hrest⟩ := Option.bind_eq_some_iff.mp hrun
    exact ih (inv_step hlt htight h hmeets.1 hstep) (hmeets.2 s₁ hstep) hrest

/-- `Meets` for a schedule that can be run. -/
def Race.apart (s : Race τ β) : Who → Bool
  | .evict => match s.evict with
    | .committing _ _ => !s.readmission.between
    | _ => true
  | .readmission => true

end

def Race.returned (s : Race String Unit) : Bool := match s.evict, s.readmission with
  | .done, .done _ => true
  | _, _ => false

end OverlayEngine.Evictions
