import OverlayEngine.AppLayer.MirrorFacts

/-!
# The mirror's facts are the record's

A `len` row vouches for the facts beside it: they were decoded from bytes of its
lengths and marks. So a txid the narrowed read leaves out has the record's facts
still. A txid none of whose BEEFs is left in the record comes back with no row,
and its facts stay as they were.
-/

namespace OverlayEngine.MirrorFacts

open KeyedRows

variable {Facts : Type} (d : Decoder Facts)

def Decoder.Faithful : Prop :=
  ∀ txid b b', b.length = b'.length → (d.marks txid b).1.held b' = true → (d.marks txid b).2.held b' = true → d.facts txid b = d.facts txid b'

def Txfacts.Of (m : Txfacts Facts) (txid : String) (p t : Option Bytes) : Prop :=
  (m.facts txid .pot).map Prod.fst = p.bind (d.facts txid) ∧
    (m.facts txid .stored).map Prod.fst = (p.bind (d.facts txid)).or (t.bind (d.facts txid))

def Txfacts.Right (m : Txfacts Facts) (r : Record) (txid : String) : Prop := m.Of d txid (r.potBeefs txid) (r.transactionsHex txid)

def Txfacts.Bare (m : Txfacts Facts) (txid : String) : Prop := m.facts txid .pot = none ∧ m.facts txid .stored = none

def Record.Has (r : Record) (txid : String) : Prop := (r.potBeefs txid).isSome ∨ (r.transactions txid).isSome

/-- A write that faults wrote no `len` row. -/
def unmeasured (stmts : List (Stmt Facts)) (fault : Option Nat) : Bool :=
  fault.all fun k => stmts.length ≤ k || (stmts.take k).all (!·.isLens)

def Source.meets (seq : Int) (fault : Option Nat) : Source Facts → Bool
  | .mirror => true
  | .closure keys read | .record keys read => unmeasured (writeRoundOf d keys read seq) fault

def Progress.meeting (a : Apply Facts) : Progress Facts → List (Round Facts) → Bool
  | _, [] => true
  | p, r :: rounds => (!p.ok || (laterRead a.first p.fetched r).meets d a.seq r.fault) && (p.later d a r).meeting a rounds

def Apply.meets (a : Apply Facts) (m : Txfacts Facts) : Bool :=
  match a.rounds with
  | [] => true
  | r :: rounds =>
    (firstRead m r a.first).meets d a.seq r.fault &&
      (Progress.take d ⟨m, [], [], true⟩ a.seq r (firstRead m r a.first)).meeting d a rounds

def meeting : Txfacts Facts → List (Move Facts) → Bool
  | _, [] => true
  | m, .apply a :: moves => a.meets d m && meeting (a.run d m).table moves
  | m, move :: moves => meeting (step d m move) moves

/-! ## The rows of a read -/

variable {α β : Type}

theorem cell_filterMap (f : String → Option α) (g : String → α → β) : ∀ (keys : List String) (txid : String),
    cell (keys.filterMap fun t => (f t).map fun a => (t, g t a)) txid = if txid ∈ keys then (f txid).map (g txid) else none := by
  intro keys
  induction keys with
  | nil => simp [cell, row]
  | cons t keys ih =>
    intro txid
    cases hf : f t with
    | none =>
      rw [List.filterMap_cons_none (by simp [hf]), ih]
      by_cases h : txid = t
      · subst h
        simp [hf]
      · simp [h]
    | some a =>
      rw [List.filterMap_cons_some (b := (t, g t a)) (by simp [hf])]
      by_cases h : t = txid
      · subst h
        simp [cell, row, hf]
      · have := ih txid
        simp only [cell, row] at this ⊢
        rw [List.find?_cons_of_neg (by simpa using h), this]
        simp [Ne.symm h]

theorem keys_filterMap (f : String → Option α) (g : String → α → β) {keys : List String} (h : keys.Nodup) :
    ((keys.filterMap fun t => (f t).map fun a => (t, g t a)).map Prod.fst).Nodup := by
  refine h.sublist ?_
  clear h
  induction keys with
  | nil => exact List.Sublist.slnil
  | cons t keys ih =>
    cases hf : f t with
    | none =>
      rw [List.filterMap_cons_none (by simp [hf])]
      exact ih.cons _
    | some a =>
      rw [List.filterMap_cons_some (b := (t, g t a)) (by simp [hf])]
      exact ih.cons_cons _

theorem cell_filter (p : String → Bool) (rows : List (String × α)) (txid : String) :
    cell (rows.filter fun r => p r.1) txid = if p txid then cell rows txid else none := by
  have h : row Prod.fst (remove Prod.fst (fun k => !p k) rows) txid = if !p txid then none else row Prod.fst rows txid := row_remove rows txid
  simp only [remove, Bool.not_not] at h
  rw [cell, h]
  cases p txid <;> rfl

theorem cell_mem {κ : Type} [DecidableEq κ] {rows : List (κ × α)} {txid : κ} {a : α} (h : cell rows txid = some a) : (txid, a) ∈ rows := by
  obtain ⟨r, hr, rfl⟩ := Option.map_eq_some_iff.mp h
  have hk := row_key hr
  exact hk ▸ row_mem hr

/-! ## What a read measures and decodes -/

section
variable {d} {read : Read Facts} {keys : List String} {txid : String}

structure Read.Single (read : Read Facts) : Prop where
  pot : (read.pot.map Prod.fst).Nodup
  transactions : (read.transactions.map Prod.fst).Nodup

def lensRow (table : Table) (txid : String) (l : Option Lens) : Beef Facts → Option Lens
  | .hex b =>
    match table with
    | .potBeefs => some { l.getD noLens with p := b.length, pb := (d.marks txid b).1, pe := (d.marks txid b).2 }
    | .transactions => some { l.getD noLens with t := b.length, tb := (d.marks txid b).1, te := (d.marks txid b).2 }
  | _ => l

theorem row_lens (table : Table) (acc : Measured) (r : String × Beef Facts) :
    cell (Measured.row d table acc r).lens txid = if r.1 = txid then lensRow (d := d) table txid (cell acc.lens txid) r.2 else cell acc.lens txid := by
  obtain ⟨k, b⟩ := r
  cases b with
  | facts f => simp [Measured.row, lensRow]
  | held => simp [Measured.row, lensRow]
  | hex b =>
    by_cases h : k = txid
    · subst h
      cases table <;> simp [Measured.row, lensRow, cell_entry]
    · cases table <;> simp [Measured.row, cell_entry, h, Ne.symm h]

theorem row_skipped (table : Table) (acc : Measured) (r : String × Beef Facts) :
    (Measured.row d table acc r).skipped.contains txid =
      if r.1 = txid then acc.skipped.contains txid || r.2.isHeld else acc.skipped.contains txid := by
  obtain ⟨k, b⟩ := r
  by_cases h : k = txid
  · subst h
    cases b with
    | hex b => cases table <;> simp [Measured.row, Beef.isHeld]
    | facts f => simp [Measured.row, Beef.isHeld]
    | held => simp [Measured.row, Beef.isHeld]
  · cases b with
    | hex b => cases table <;> simp [Measured.row, h]
    | facts f => simp [Measured.row, h]
    | held => simp [Measured.row, h, Ne.symm h]

theorem measure_skipped (h : read.Single) :
    txid ∈ (measure d read).skipped ↔ (cell read.pot txid).any (·.isHeld) = true ∨ (cell read.transactions txid).any (·.isHeld) = true := by
  have hpot := foldl_view (Measured.row d .potBeefs) (fun a => a.skipped.contains txid) (fun s b => s || b.isHeld) txid
    (fun a r => row_skipped .potBeefs a r) read.pot ⟨[], []⟩ h.pot
  have htx := foldl_view (Measured.row d .transactions) (fun a => a.skipped.contains txid) (fun s b => s || b.isHeld) txid
    (fun a r => row_skipped .transactions a r) read.transactions (read.pot.foldl (Measured.row d .potBeefs) ⟨[], []⟩) h.transactions
  rw [← List.contains_iff_mem, measure, htx, hpot]
  cases cell read.pot txid with
  | none => cases cell read.transactions txid <;> simp
  | some p => cases cell read.transactions txid <;> simp

theorem measure_lens (h : read.Single) :
    cell (measure d read).lens txid =
      (cell read.transactions txid).elim ((cell read.pot txid).elim none (lensRow (d := d) .potBeefs txid none))
        (lensRow (d := d) .transactions txid ((cell read.pot txid).elim none (lensRow (d := d) .potBeefs txid none))) := by
  have hpot := foldl_view (Measured.row d .potBeefs) (fun a => cell a.lens txid) (lensRow (d := d) .potBeefs txid) txid
    (fun a r => row_lens .potBeefs a r) read.pot ⟨[], []⟩ h.pot
  have htx := foldl_view (Measured.row d .transactions) (fun a => cell a.lens txid) (lensRow (d := d) .transactions txid) txid
    (fun a r => row_lens .transactions a r) read.transactions (read.pot.foldl (Measured.row d .potBeefs) ⟨[], []⟩) h.transactions
  rw [measure, htx, hpot]
  rfl

theorem row_keys (table : Table) (acc : Measured) (r : String × Beef Facts) (h : (acc.lens.map Prod.fst).Nodup) :
    ((Measured.row d table acc r).lens.map Prod.fst).Nodup := by
  obtain ⟨k, b⟩ := r
  cases b with
  | facts f => exact h
  | held => exact h
  | hex b =>
    cases table with
    | potBeefs =>
      simp only [Measured.row]
      exact nodup_entry h k noLens _
    | transactions =>
      simp only [Measured.row]
      exact nodup_entry h k noLens _

theorem measure_keys (read : Read Facts) : ((measure d read).lens.map Prod.fst).Nodup := by
  have hfold : ∀ (table : Table) (rows : BeefRows Facts) (acc : Measured), (acc.lens.map Prod.fst).Nodup →
      ((rows.foldl (Measured.row d table) acc).lens.map Prod.fst).Nodup := by
    intro table rows
    induction rows with
    | nil => exact fun _ h => h
    | cons r rows ih => exact fun acc h => ih _ (row_keys table acc r h)
  exact hfold .transactions _ _ (hfold .potBeefs _ _ List.nodup_nil)

/-! ### The facts to write -/

theorem factsRow_pot (table : Table) (pending : Pending Facts) (r : String × Beef Facts) :
    cell (factsRow d table pending r) (txid, .pot) =
      if r.1 = txid then (if table = .potBeefs then some (r.2.decoded d txid) else cell pending (txid, .pot)) else cell pending (txid, .pot) := by
  obtain ⟨k, b⟩ := r
  by_cases h : k = txid
  · subst h
    cases table <;> simp [factsRow, cell_entry]
  · cases table <;> simp [factsRow, cell_entry, h, Ne.symm h]

theorem factsRow_stored (table : Table) (pending : Pending Facts) (r : String × Beef Facts) :
    cell (factsRow d table pending r) (txid, .stored) =
      if r.1 = txid then some (((cell pending (txid, .stored)).getD none).or (r.2.decoded d txid)) else cell pending (txid, .stored) := by
  obtain ⟨k, b⟩ := r
  by_cases h : k = txid
  · subst h
    cases table <;> simp [factsRow, cell_entry]
  · cases table <;> simp [factsRow, cell_entry, h, Ne.symm h]

theorem factsRow_event (table : Table) (pending : Pending Facts) (r : String × Beef Facts) :
    cell (factsRow d table pending r) (txid, .event) = cell pending (txid, .event) := by
  cases table <;> simp [factsRow, cell_entry]

theorem factsRow_keys (table : Table) (pending : Pending Facts) (r : String × Beef Facts) (h : (pending.map Prod.fst).Nodup) :
    ((factsRow d table pending r).map Prod.fst).Nodup := by
  cases table with
  | potBeefs =>
    simp only [factsRow, if_true]
    exact nodup_entry (nodup_entry h _ _ _) _ _ _
  | transactions =>
    simp only [factsRow]
    exact nodup_entry h _ _ _

variable {skipped : List String}

theorem cell_unskipped (rows : BeefRows Facts) : cell (unskipped skipped rows) txid = if txid ∈ skipped then none else cell rows txid := by
  have h := cell_filter (fun t => decide (t ∉ skipped)) rows txid
  rw [unskipped, h]
  by_cases hs : txid ∈ skipped
  · simp [hs]
  · simp [hs]

theorem keys_unskipped {rows : BeefRows Facts} (h : (rows.map Prod.fst).Nodup) : ((unskipped skipped rows).map Prod.fst).Nodup :=
  h.sublist (List.filter_sublist.map Prod.fst)

theorem pendingOf_keys (read : Read Facts) : ((pendingOf d skipped read).map Prod.fst).Nodup := by
  have hfold : ∀ (table : Table) (rows : BeefRows Facts) (acc : Pending Facts), (acc.map Prod.fst).Nodup →
      ((rows.foldl (factsRow d table) acc).map Prod.fst).Nodup := by
    intro table rows
    induction rows with
    | nil => exact fun _ h => h
    | cons r rows ih => exact fun acc h => ih _ (factsRow_keys table acc r h)
  exact hfold .transactions _ _ (hfold .potBeefs _ _ List.nodup_nil)

theorem pendingOf_pot (h : read.Single) (hs : txid ∉ skipped) :
    cell (pendingOf d skipped read) (txid, .pot) = (cell read.pot txid).map (·.decoded d txid) := by
  have hpot := foldl_view (factsRow d .potBeefs) (fun a => cell a (txid, .pot)) (fun _ b => some (b.decoded d txid))
    txid (fun a r => by rw [factsRow_pot, if_pos rfl]) (unskipped skipped read.pot) [] (keys_unskipped h.pot)
  have htx := foldl_view (factsRow d .transactions) (fun a => cell a (txid, .pot)) (fun o _ => o)
    txid (fun a r => by simp [factsRow_pot]) (unskipped skipped read.transactions)
    ((unskipped skipped read.pot).foldl (factsRow d .potBeefs) []) (keys_unskipped h.transactions)
  rw [pendingOf, htx, hpot, cell_unskipped, cell_unskipped, if_neg hs, if_neg hs]
  cases cell read.pot txid with
  | none => cases cell read.transactions txid <;> rfl
  | some p => cases cell read.transactions txid <;> rfl

theorem pendingOf_stored (h : read.Single) (hs : txid ∉ skipped) :
    cell (pendingOf d skipped read) (txid, .stored) =
      match cell read.pot txid, cell read.transactions txid with
      | none, none => none
      | some p, none => some (p.decoded d txid)
      | none, some t => some (t.decoded d txid)
      | some p, some t => some ((p.decoded d txid).or (t.decoded d txid)) := by
  have hpot := foldl_view (factsRow d .potBeefs) (fun a => cell a (txid, .stored))
    (fun o b => some ((o.getD none).or (b.decoded d txid))) txid (fun a r => factsRow_stored .potBeefs a r)
    (unskipped skipped read.pot) [] (keys_unskipped h.pot)
  have htx := foldl_view (factsRow d .transactions) (fun a => cell a (txid, .stored))
    (fun o b => some ((o.getD none).or (b.decoded d txid))) txid (fun a r => factsRow_stored .transactions a r)
    (unskipped skipped read.transactions) ((unskipped skipped read.pot).foldl (factsRow d .potBeefs) []) (keys_unskipped h.transactions)
  rw [pendingOf, htx, hpot, cell_unskipped, cell_unskipped, if_neg hs, if_neg hs]
  cases cell read.pot txid with
  | none => cases cell read.transactions txid <;> simp [cell, row]
  | some p => cases cell read.transactions txid <;> simp [cell, row]

theorem mem_pendingOf (h : read.Single) :
    txid ∈ (pendingOf d skipped read).map (·.1.1) ↔
      txid ∉ skipped ∧ ((cell read.pot txid).isSome ∨ (cell read.transactions txid).isSome) := by
  have hevent : cell (pendingOf d skipped read) (txid, .event) = none := by
    have hfold : ∀ (table : Table) (rows : BeefRows Facts) (acc : Pending Facts),
        cell (rows.foldl (factsRow d table) acc) (txid, .event) = cell acc (txid, .event) := by
      intro table rows
      induction rows with
      | nil => exact fun _ => rfl
      | cons r rows ih => exact fun acc => (ih _).trans (factsRow_event table acc r)
    exact (hfold .transactions _ _).trans (hfold .potBeefs _ _)
  have hnone : txid ∈ skipped → ∀ src, cell (pendingOf d skipped read) (txid, src) = none := by
    intro hs src
    have hfold : ∀ (table : Table) (rows : BeefRows Facts) (acc : Pending Facts), cell rows txid = none →
        cell (rows.foldl (factsRow d table) acc) (txid, src) = cell acc (txid, src) := by
      intro table rows
      induction rows with
      | nil => exact fun _ _ => rfl
      | cons r rows ih =>
        intro acc hrows
        have hr : r.1 ≠ txid := by
          intro hr
          simp [cell, row, hr] at hrows
        have hrest : cell rows txid = none := by simpa [cell, row, hr] using hrows
        rw [List.foldl_cons, ih _ hrest]
        cases src with
        | pot => rw [factsRow_pot, if_neg hr]
        | stored => rw [factsRow_stored, if_neg hr]
        | event => exact factsRow_event table acc r
    rw [pendingOf, hfold .transactions _ _ (by rw [cell_unskipped, if_pos hs]), hfold .potBeefs _ _ (by rw [cell_unskipped, if_pos hs])]
    rfl
  constructor
  · intro hmem
    obtain ⟨⟨⟨t, src⟩, f⟩, he, rfl⟩ := List.mem_map.mp hmem
    have hcell : cell (pendingOf d skipped read) (t, src) = some f := by
      have hrow : row Prod.fst (pendingOf d skipped read) (t, src) = some ((t, src), f) := row_of_mem (pendingOf_keys read) he
      rw [cell, hrow]
      rfl
    have hs : t ∉ skipped := fun hs => by simp [hnone hs src] at hcell
    refine ⟨hs, ?_⟩
    cases src with
    | event => simp [hevent] at hcell
    | pot =>
      rw [pendingOf_pot h hs] at hcell
      obtain ⟨p, hp, -⟩ := Option.map_eq_some_iff.mp hcell
      exact .inl (by simp [hp])
    | stored =>
      rw [pendingOf_stored h hs] at hcell
      cases hp : cell read.pot t with
      | some p => exact .inl rfl
      | none =>
        cases ht : cell read.transactions t with
        | some x => exact .inr rfl
        | none => simp [hp, ht] at hcell
  · rintro ⟨hs, hrow⟩
    have hstored := pendingOf_stored (d := d) h hs
    cases hc : cell (pendingOf d skipped read) (txid, .stored) with
    | some f => exact List.mem_map.mpr ⟨_, cell_mem hc, rfl⟩
    | none =>
      rw [hc] at hstored
      cases hp : cell read.pot txid with
      | some p => cases ht : cell read.transactions txid <;> simp [hp, ht] at hstored
      | none =>
        cases ht : cell read.transactions txid with
        | some x => simp [hp, ht] at hstored
        | none => simp [hp, ht] at hrow

/-! ## The write of a round -/

def Stmt.Touches (txid : String) : Stmt Facts → Prop
  | .factsDelete txids => txid ∈ txids
  | .factsUpsert t _ _ _ => t = txid
  | _ => False

variable {m : Txfacts Facts} {seq : Int} {src : Src}

theorem exec_untouched {s : Stmt Facts} (h : ¬ s.Touches txid) : (s.exec m).facts txid src = m.facts txid src := by
  cases s with
  | factsDelete txids =>
    simp only [Stmt.exec]
    rw [if_neg fun hm => h hm.1]
  | factsUpsert t src' f seq =>
    simp only [Stmt.exec]
    rw [if_neg fun hm => h hm.1.symm]
  | _ => rfl

variable {stmts : List (Stmt Facts)}

theorem execs_untouched (h : ∀ s ∈ stmts, ¬ s.Touches txid) (m : Txfacts Facts) :
    (stmts.foldl Stmt.exec m).facts txid src = m.facts txid src := by
  induction stmts generalizing m with
  | nil => rfl
  | cons s stmts ih =>
    rw [List.foldl_cons, ih fun s' hs' => h s' (List.mem_cons_of_mem _ hs')]
    exact exec_untouched (h s List.mem_cons_self)

theorem execs_unmeasured (h : ∀ s ∈ stmts, s.isLens = false) (m : Txfacts Facts) :
    (stmts.foldl Stmt.exec m).lens txid = m.lens txid ∨ (stmts.foldl Stmt.exec m).lens txid = none := by
  induction stmts generalizing m with
  | nil => exact .inl rfl
  | cons s stmts ih =>
    rw [List.foldl_cons]
    have hs : (s.exec m).lens txid = m.lens txid ∨ (s.exec m).lens txid = none := by
      cases s with
      | lensDelete txids =>
        simp only [Stmt.exec]
        split
        · exact .inr rfl
        · exact .inl rfl
      | lensUpsert t l seq => exact absurd (h _ List.mem_cons_self) (by simp [Stmt.isLens])
      | _ => exact .inl rfl
    rcases ih (fun s' hs' => h s' (List.mem_cons_of_mem _ hs')) (s.exec m) with hl | hl
    · rw [hl]
      exact hs
    · exact .inr hl

theorem execs_lensUpserts (rows : List (String × Lens)) (h : (rows.map Prod.fst).Nodup) (m : Txfacts Facts) :
    ((rows.map fun e => Stmt.lensUpsert e.1 e.2 seq).foldl Stmt.exec m).lens txid =
      (cell rows txid).elim (m.lens txid) fun l => upserted (m.lens txid) (l, seq) := by
  rw [List.foldl_map]
  refine foldl_view (fun m (e : String × Lens) => (Stmt.lensUpsert e.1 e.2 seq).exec m) (fun m => m.lens txid)
    (fun o l => upserted o (l, seq)) txid (fun a r => ?_) rows m h
  by_cases hr : r.1 = txid
  · simp [Stmt.exec, hr]
  · simp [Stmt.exec, hr, Ne.symm hr]

theorem execs_factsUpserts (pending : Pending Facts) (h : (pending.map Prod.fst).Nodup) (m : Txfacts Facts) :
    ((pending.filterMap fun e => e.2.map fun f => Stmt.factsUpsert e.1.1 e.1.2 f seq).foldl Stmt.exec m).facts txid src =
      (cell pending (txid, src)).elim (m.facts txid src) fun o => o.elim (m.facts txid src) fun f => upserted (m.facts txid src) (f, seq) := by
  rw [List.foldl_filterMap]
  refine foldl_view _ (fun m => m.facts txid src) (fun o f => f.elim o fun f => upserted o (f, seq)) (txid, src) (fun a r => ?_) pending m h
  obtain ⟨⟨t, src'⟩, f⟩ := r
  cases f with
  | none => simp
  | some f =>
    by_cases hr : t = txid ∧ src' = src
    · obtain ⟨rfl, rfl⟩ := hr
      simp [Stmt.exec]
    · simp only [Stmt.exec, Option.map_some, Prod.mk.injEq]
      rw [if_neg fun h => hr ⟨h.1.symm, h.2.symm⟩, if_neg hr]

def Read.Within (read : Read Facts) (keys : List String) : Prop :=
  ∀ txid, txid ∉ keys → cell read.pot txid = none ∧ cell read.transactions txid = none

theorem touches_pending {s : Stmt Facts} (hs : s ∈ writeRoundOf d keys read seq) (ht : s.Touches txid) :
    txid ∈ (pendingOf d (measure d read).skipped read).map (·.1.1) := by
  simp only [writeRoundOf, List.mem_append, List.mem_map, List.mem_filterMap] at hs
  rcases hs with (((hs | ⟨e, -, rfl⟩) | hs) | hs) | ⟨e, he, hs⟩
  · split at hs
    · cases hs
    · rw [List.mem_singleton] at hs
      subst hs
      exact absurd ht id
  · exact absurd ht id
  · simp only [List.mem_cons, List.not_mem_nil, or_false] at hs
    rcases hs with rfl | rfl
    · exact absurd ht id
    · exact absurd ht id
  · split at hs
    · cases hs
    · rw [List.mem_singleton] at hs
      subst hs
      exact ht
  · obtain ⟨f, -, rfl⟩ := Option.map_eq_some_iff.mp hs
    exact List.mem_map.mpr ⟨e, he, ht⟩

theorem pending_dropped (h : read.Single) (hw : read.Within keys) (ht : txid ∈ (pendingOf d (measure d read).skipped read).map (·.1.1)) :
    txid ∈ keys.filter (· ∉ (measure d read).skipped) := by
  obtain ⟨hs, hrow⟩ := (mem_pendingOf h).mp ht
  refine List.mem_filter.mpr ⟨?_, by simpa using hs⟩
  by_contra hk
  obtain ⟨hp, hx⟩ := hw txid hk
  rw [hp, hx] at hrow
  simp at hrow

theorem write_untouched {k : Option Nat} (h : txid ∉ (pendingOf d (measure d read).skipped read).map (·.1.1)) :
    (writeRound d m keys read seq k).1.facts txid src = m.facts txid src := by
  apply execs_untouched
  intro s hs ht
  apply h
  have hmem : s ∈ writeRoundOf d keys read seq := by
    cases k with
    | none => exact hs
    | some k => exact List.mem_of_mem_take hs
  exact touches_pending hmem ht

theorem write_torn {k : Nat} (hdrop : txid ∈ (pendingOf d (measure d read).skipped read).map (·.1.1) → txid ∈ keys.filter (· ∉ (measure d read).skipped))
    (hk : ∀ s ∈ (writeRoundOf d keys read seq).take k, s.isLens = false) :
    (writeRound d m keys read seq (some k)).1.lens txid = none ∨
      (writeRound d m keys read seq (some k)).1.lens txid = m.lens txid ∧
        ∀ src, (writeRound d m keys read seq (some k)).1.facts txid src = m.facts txid src := by
  change (((writeRoundOf d keys read seq).take k).foldl Stmt.exec m).lens txid = none ∨ _
  by_cases ht : txid ∈ (pendingOf d (measure d read).skipped read).map (·.1.1)
  · have hdrop := hdrop ht
    -- The batch begins with the drop of the `len` rows.
    have hcons : ∃ rest, writeRoundOf d keys read seq = .lensDelete (keys.filter (· ∉ (measure d read).skipped)) :: rest := by
      unfold writeRoundOf
      dsimp only
      rw [if_neg (List.ne_nil_of_mem hdrop)]
      exact ⟨_, rfl⟩
    obtain ⟨rest, hrest⟩ := hcons
    cases k with
    | zero => exact .inr ⟨rfl, fun _ => rfl⟩
    | succ k =>
      left
      rw [hrest, List.take_succ_cons] at hk ⊢
      rw [List.foldl_cons]
      have hnone : ((Stmt.lensDelete (keys.filter (· ∉ (measure d read).skipped))).exec m).lens txid = none := if_pos hdrop
      rcases execs_unmeasured (fun s hs => hk s (List.mem_cons_of_mem _ hs)) ((Stmt.lensDelete _).exec m) with hl | hl
      · exact hl.trans hnone
      · exact hl
  · rcases execs_unmeasured hk m with hl | hl
    · exact .inr ⟨hl, fun src => write_untouched ht⟩
    · exact .inl hl

theorem execs_facts_lens (h : ∀ s ∈ stmts, (∀ ts, s ≠ .lensDelete ts) ∧ s.isLens = false) (m : Txfacts Facts) :
    (stmts.foldl Stmt.exec m).lens = m.lens := by
  induction stmts generalizing m with
  | nil => rfl
  | cons s stmts ih =>
    rw [List.foldl_cons, ih fun s' hs' => h s' (List.mem_cons_of_mem _ hs')]
    obtain ⟨hd, hl⟩ := h s List.mem_cons_self
    cases s with
    | lensDelete ts => exact absurd rfl (hd ts)
    | lensUpsert t l seq => cases hl
    | _ => rfl

theorem whole_lens : ((writeRoundOf d keys read seq).foldl Stmt.exec m).lens txid =
    if txid ∈ (measure d read).skipped then m.lens txid
    else (cell (measure d read).lens txid).elim (if txid ∈ keys then none else m.lens txid)
      fun l => upserted (if txid ∈ keys then none else m.lens txid) (l, seq) := by
  unfold writeRoundOf
  dsimp only
  generalize hdrop : (if keys.filter (· ∉ (measure d read).skipped) = [] then [] else
    [(.lensDelete (keys.filter (· ∉ (measure d read).skipped)) : Stmt Facts)]) = drop
  rw [List.append_assoc, List.append_assoc, List.append_assoc, List.foldl_append, List.foldl_append]
  refine Eq.trans (congrFun (execs_facts_lens ?_ _) txid) ?_
  rotate_left
  · rw [execs_lensUpserts _ ((measure_keys read).sublist (List.filter_sublist.map Prod.fst))]
    have hbase : (drop.foldl Stmt.exec m).lens txid = if txid ∈ keys ∧ txid ∉ (measure d read).skipped then none else m.lens txid := by
      subst hdrop
      by_cases h : txid ∈ keys ∧ txid ∉ (measure d read).skipped
      · have hmem : txid ∈ keys.filter (· ∉ (measure d read).skipped) := List.mem_filter.mpr ⟨h.1, by simpa using h.2⟩
        rw [if_neg (List.ne_nil_of_mem hmem), if_pos h]
        exact if_pos hmem
      · rw [if_neg h]
        split
        · rfl
        · refine if_neg fun hmem => h ?_
          obtain ⟨hk, hs⟩ := List.mem_filter.mp hmem
          exact ⟨hk, by simpa using hs⟩
    have hcell := cell_filter (fun t => decide (t ∉ (measure d read).skipped)) (measure d read).lens txid
    rw [hcell, hbase]
    by_cases hs : txid ∈ (measure d read).skipped
    · simp [hs]
    · simp [hs]
  · intro s hs
    simp only [List.mem_append, List.mem_filterMap] at hs
    rcases hs with hs | hs | ⟨e, -, hs⟩
    · simp only [List.mem_cons, List.not_mem_nil, or_false] at hs
      rcases hs with rfl | rfl
      · exact ⟨fun _ => by simp, rfl⟩
      · exact ⟨fun _ => by simp, rfl⟩
    · split at hs
      · cases hs
      · rw [List.mem_singleton] at hs
        subst hs
        exact ⟨fun _ => by simp, rfl⟩
    · obtain ⟨f, -, rfl⟩ := Option.map_eq_some_iff.mp hs
      exact ⟨fun _ => by simp, rfl⟩

theorem whole_facts (hsrc : src ≠ .event) (h : txid ∈ (pendingOf d (measure d read).skipped read).map (·.1.1)) :
    (((writeRoundOf d keys read seq).foldl Stmt.exec m).facts txid src).map Prod.fst =
      (cell (pendingOf d (measure d read).skipped read) (txid, src)).bind id := by
  unfold writeRoundOf
  dsimp only
  have hne : pendingOf d (measure d read).skipped read ≠ [] := by
    intro hnil
    rw [hnil] at h
    cases h
  rw [if_neg hne, List.foldl_append, execs_factsUpserts _ (pendingOf_keys read), List.foldl_append]
  have hbase : ∀ m' : Txfacts Facts, ([Stmt.factsDelete ((pendingOf d (measure d read).skipped read).map (·.1.1))].foldl Stmt.exec m').facts txid src =
      none := fun m' => if_pos ⟨h, hsrc⟩
  rw [hbase]
  cases cell (pendingOf d (measure d read).skipped read) (txid, src) with
  | none => rfl
  | some f => cases f <;> rfl

/-! ## A `len` row vouches for its facts -/

/-- The `len` row of these BEEFs. -/
def lensOf (d : Decoder Facts) (txid : String) (p t : Option Bytes) : Lens where
  p := p.elim (-1) fun b => (b.length : Int)
  t := t.elim (-1) fun b => (b.length : Int)
  pb := p.elim .none fun b => (d.marks txid b).1
  tb := t.elim .none fun b => (d.marks txid b).1
  pe := p.elim .none fun b => (d.marks txid b).2
  te := t.elim .none fun b => (d.marks txid b).2
  v := decoderVersion

def Vouched (d : Decoder Facts) (m : Txfacts Facts) : Prop :=
  ∀ txid l s, m.lens txid = some (l, s) → ∃ p t, l = lensOf d txid p t ∧ m.Of d txid p t

/-- How a read of the record answers its keys: the bytes of both families, or nothing of either, held by a `len` row. -/
structure Answers (m : Txfacts Facts) (r : Record) (keys : List String) (read : Read Facts) : Prop where
  single : read.Single
  within : read.Within keys
  rows : ∀ txid ∈ keys,
    cell read.pot txid = (r.potBeefs txid).map .hex ∧ cell read.transactions txid = (r.transactionsHex txid).map .hex ∨
      r.Has txid ∧ (∃ l s, m.lens txid = some (l, s) ∧ (∀ b, r.potBeefs txid = some b → r.heldPot (some l) txid b = true) ∧
        ∀ x, r.transactions txid = some x → r.heldTransactions (some l) txid x = true) ∧
      cell read.pot txid = (r.potBeefs txid).map (fun _ => .held) ∧ cell read.transactions txid = (r.transactions txid).map fun _ => .held

variable {r : Record}

theorem read_single (lens : String → Option Lens) (h : keys.Nodup) : (r.read lens keys : Read Facts).Single :=
  ⟨keys_filterMap _ _ h, keys_filterMap _ _ h⟩

theorem cell_potRows (lens : String → Option Lens) (keys : List String) (txid : String) :
    cell (r.potRows lens keys : BeefRows Facts) txid =
      if txid ∈ keys then (r.potBeefs txid).map fun b => if r.heldPot (lens txid) txid b then .held else .hex b else none :=
  cell_filterMap r.potBeefs (fun t b => if r.heldPot (lens t) t b then Beef.held else Beef.hex b) keys txid

theorem cell_transactionsRows (lens : String → Option Lens) (keys : List String) (txid : String) :
    cell (r.transactionsRows lens keys : BeefRows Facts) txid =
      if txid ∈ keys then (r.transactions txid).map fun x => if r.heldTransactions (lens txid) txid x then .held else .hex (x.getD [])
      else none :=
  cell_filterMap r.transactions (fun t x => if r.heldTransactions (lens t) t x then Beef.held else Beef.hex (x.getD [])) keys txid

theorem read_within (lens : String → Option Lens) (keys : List String) : (r.read lens keys : Read Facts).Within keys := by
  intro txid h
  refine ⟨?_, ?_⟩
  · exact (cell_potRows lens keys txid).trans (if_neg h)
  · exact (cell_transactionsRows lens keys txid).trans (if_neg h)

theorem answers_plain (m : Txfacts Facts) (r : Record) (h : keys.Nodup) : Answers m r keys (r.readPlain keys) := by
  refine ⟨read_single _ h, read_within _ keys, ?_⟩
  intro txid hk
  left
  refine ⟨?_, ?_⟩
  · rw [show (r.readPlain keys : Read Facts).pot = r.potRows (fun _ => none) keys from rfl, cell_potRows, if_pos hk]
    rfl
  · rw [show (r.readPlain keys : Read Facts).transactions = r.transactionsRows (fun _ => none) keys from rfl, cell_transactionsRows, if_pos hk,
      Record.transactionsHex, Option.map_map]
    cases r.transactions txid with
    | none => rfl
    | some x => cases x <;> rfl

theorem disagrees_of {read : Read Facts} {a b : Beef Facts} (ha : (txid, a) ∈ read.pot ++ read.transactions)
    (hb : (txid, b) ∈ read.pot ++ read.transactions) (hha : a.isHeld = true) (hhb : b.isHeld = false) : read.disagrees = true := by
  unfold Read.disagrees
  refine List.any_eq_true.mpr ⟨_, ha, List.any_eq_true.mpr ⟨_, hb, ?_⟩⟩
  simp [hha, hhb]

variable {m : Txfacts Facts}

theorem answers_held {n : List String} (h : keys.Nodup)
    (hagree : (r.read (fun t => if t ∈ n then (m.lens t).map Prod.fst else none) keys : Read Facts).disagrees = false) :
    Answers m r keys (r.read (fun t => if t ∈ n then (m.lens t).map Prod.fst else none) keys) := by
  refine ⟨read_single _ h, read_within _ keys, ?_⟩
  intro txid hk
  generalize hlens : (fun t => if t ∈ n then (m.lens t).map Prod.fst else none) = lens at hagree ⊢
  have hsome : ∀ l, lens txid = some l → ∃ s, m.lens txid = some (l, s) := by
    intro l hl
    rw [← hlens] at hl
    dsimp only at hl
    split at hl
    · obtain ⟨⟨l', s⟩, hm, rfl⟩ := Option.map_eq_some_iff.mp hl
      exact ⟨s, hm⟩
    · cases hl
  have hpot : cell (r.potRows lens keys : BeefRows Facts) txid = _ := cell_potRows lens keys txid
  have htx : cell (r.transactionsRows lens keys : BeefRows Facts) txid = _ := cell_transactionsRows lens keys txid
  rw [if_pos hk] at hpot htx
  change cell (r.read lens keys).pot txid = _ at hpot
  change cell (r.read lens keys).transactions txid = _ at htx
  by_cases hheld : (∃ b, r.potBeefs txid = some b ∧ r.heldPot (lens txid) txid b = true) ∨
      ∃ x, r.transactions txid = some x ∧ r.heldTransactions (lens txid) txid x = true
  · -- One row is held, so no row of the txid was read again.
    have hrow : (txid, Beef.held) ∈ (r.read lens keys : Read Facts).pot ++ (r.read lens keys : Read Facts).transactions := by
      rcases hheld with ⟨b, hb, hh⟩ | ⟨x, hx, hh⟩
      · exact List.mem_append_left _ (cell_mem (by rw [hpot, hb, Option.map_some, if_pos hh]))
      · exact List.mem_append_right _ (cell_mem (by rw [htx, hx, Option.map_some, if_pos hh]))
    have hallPot : ∀ b, r.potBeefs txid = some b → r.heldPot (lens txid) txid b = true := by
      intro b hb
      by_contra hh
      have hmem : (txid, Beef.hex b) ∈ (r.read lens keys : Read Facts).pot ++ (r.read lens keys : Read Facts).transactions :=
        List.mem_append_left _ (cell_mem (by rw [hpot, hb, Option.map_some, if_neg hh]))
      rw [disagrees_of hrow hmem rfl rfl] at hagree
      cases hagree
    have hallTx : ∀ x, r.transactions txid = some x → r.heldTransactions (lens txid) txid x = true := by
      intro x hx
      by_contra hh
      have hmem : (txid, Beef.hex (x.getD [])) ∈ (r.read lens keys : Read Facts).pot ++ (r.read lens keys : Read Facts).transactions :=
        List.mem_append_right _ (cell_mem (by rw [htx, hx, Option.map_some, if_neg hh]))
      rw [disagrees_of hrow hmem rfl rfl] at hagree
      cases hagree
    right
    have hl : ∃ l, lens txid = some l := by
      cases hl : lens txid with
      | some l => exact ⟨l, rfl⟩
      | none =>
        rw [hl] at hheld
        rcases hheld with ⟨b, -, hh⟩ | ⟨x, -, hh⟩
        · cases hh
        · cases x <;> cases hh
    obtain ⟨l, hl⟩ := hl
    obtain ⟨s, hs⟩ := hsome l hl
    rw [hl] at hpot htx hallPot hallTx
    refine ⟨?_, ⟨l, s, hs, hallPot, hallTx⟩, ?_, ?_⟩
    · rcases hheld with ⟨b, hb, -⟩ | ⟨x, hx, -⟩
      · exact .inl (by rw [hb]; rfl)
      · exact .inr (by rw [hx]; rfl)
    · rw [hpot]
      cases hb : r.potBeefs txid with
      | none => rfl
      | some b => simp [hallPot b hb]
    · rw [htx]
      cases hx : r.transactions txid with
      | none => rfl
      | some x => simp [hallTx x hx]
  · left
    refine ⟨?_, ?_⟩
    · rw [hpot]
      cases hb : r.potBeefs txid with
      | none => rfl
      | some b => rw [Option.map_some, Option.map_some, if_neg fun hh => hheld (.inl ⟨b, hb, hh⟩)]
    · rw [htx, Record.transactionsHex]
      cases hx : r.transactions txid with
      | none => rfl
      | some x => simp only [Option.map_some, if_neg fun hh => hheld (.inr ⟨x, hx, hh⟩)]

theorem right_of_held (hd : d.Faithful) (hm : Vouched d m) {l : Lens} {s : Int} (hl : m.lens txid = some (l, s))
    (hhas : r.Has txid) (hpot : ∀ b, r.potBeefs txid = some b → r.heldPot (some l) txid b = true)
    (htx : ∀ x, r.transactions txid = some x → r.heldTransactions (some l) txid x = true) : m.Right d r txid := by
  obtain ⟨p, t, rfl, hof⟩ := hm txid l s hl
  have hsame : ∀ {a b : Option Bytes}, (∀ x, b = some x → ∃ y, a = some y ∧ y.length = x.length ∧ (d.marks txid y).1.held x = true ∧
      (d.marks txid y).2.held x = true) → (b = none → a = none) → a.bind (d.facts txid) = b.bind (d.facts txid) := by
    intro a b hsome hnone
    cases b with
    | none => rw [hnone rfl]
    | some x =>
      obtain ⟨y, rfl, hlen, h1, h2⟩ := hsome x rfl
      exact hd txid y x hlen h1 h2
  have hget : ∀ {o : Option Bytes} {n : Nat}, (n : Int) = o.elim (-1) (fun b => (b.length : Int)) → ∃ y, o = some y ∧ y.length = n := by
    intro o n ho
    cases o with
    | none =>
      simp only [Option.elim_none] at ho
      omega
    | some y =>
      simp only [Option.elim_some] at ho
      exact ⟨y, rfl, by omega⟩
  have hgone : ∀ {o : Option Bytes}, (-1 : Int) = o.elim (-1) (fun b => (b.length : Int)) → o = none := by
    intro o ho
    cases o with
    | none => rfl
    | some y =>
      simp only [Option.elim_some] at ho
      omega
  have hp : p.bind (d.facts txid) = (r.potBeefs txid).bind (d.facts txid) := by
    apply hsame
    · intro x hx
      have h := hpot x hx
      simp only [Record.heldPot, lensOf, Bool.and_eq_true, decide_eq_true_eq] at h
      obtain ⟨⟨⟨⟨⟨hlen, -⟩, -⟩, h1⟩, h2⟩, -⟩ := h
      obtain ⟨y, rfl, hy⟩ := hget (of_decide_eq_true hlen)
      exact ⟨y, rfl, hy, h1, h2⟩
    · intro hnone
      rcases hhas with hhas | hhas
      · rw [hnone] at hhas
        cases hhas
      · obtain ⟨x, hx⟩ := Option.isSome_iff_exists.mp hhas
        have h := htx x hx
        cases x with
        | none => cases h
        | some x =>
          simp only [Record.heldTransactions, lensOf, Bool.and_eq_true, decide_eq_true_eq, hnone, Option.elim_none] at h
          exact hgone h.1.1.1.1.2
  have ht : t.bind (d.facts txid) = (r.transactionsHex txid).bind (d.facts txid) := by
    apply hsame
    · intro x hx
      obtain ⟨o, ho, rfl⟩ := Option.map_eq_some_iff.mp hx
      have h := htx o ho
      cases o with
      | none => cases h
      | some x =>
        simp only [Record.heldTransactions, lensOf, Bool.and_eq_true, decide_eq_true_eq] at h
        obtain ⟨⟨⟨⟨⟨hlen, -⟩, -⟩, h1⟩, h2⟩, -⟩ := h
        obtain ⟨y, rfl, hy⟩ := hget (of_decide_eq_true hlen)
        exact ⟨y, rfl, hy, h1, h2⟩
    · intro hnone
      have hnone' := Option.map_eq_none_iff.mp hnone
      rcases hhas with hhas | hhas
      · obtain ⟨b, hb⟩ := Option.isSome_iff_exists.mp hhas
        have h := hpot b hb
        simp only [Record.heldPot, lensOf, Bool.and_eq_true, decide_eq_true_eq, hnone', Option.bind_none, Option.elim_none] at h
        exact hgone h.1.1.1.1.2
      · rw [hnone'] at hhas
        cases hhas
  unfold Txfacts.Right Txfacts.Of at *
  rw [← hp, ← ht]
  exact hof

/-! ## One write -/

theorem Answers.aside (h : Answers m r keys read) (ht : txid ∉ keys ∨ txid ∈ (measure d read).skipped) :
    txid ∉ (pendingOf d (measure d read).skipped read).map (·.1.1) := by
  intro hmem
  obtain ⟨hs, hrow⟩ := (mem_pendingOf h.single).mp hmem
  rcases ht with ht | ht
  · obtain ⟨hp, hx⟩ := h.within txid ht
    rw [hp, hx] at hrow
    simp at hrow
  · exact hs ht

theorem Answers.reread (h : Answers m r keys read) (hk : txid ∈ keys) (hs : txid ∉ (measure d read).skipped) :
    cell read.pot txid = (r.potBeefs txid).map .hex ∧ cell read.transactions txid = (r.transactionsHex txid).map .hex := by
  rcases h.rows txid hk with hrows | ⟨hhas, -, hp, hx⟩
  · exact hrows
  · refine absurd ((measure_skipped h.single).mpr ?_) hs
    rcases hhas with hb | hb
    · obtain ⟨b, hb⟩ := Option.isSome_iff_exists.mp hb
      exact .inl (by rw [hp, hb]; rfl)
    · obtain ⟨x, hb⟩ := Option.isSome_iff_exists.mp hb
      exact .inr (by rw [hx, hb]; rfl)

theorem Answers.lens (h : Answers m r keys read) (hk : txid ∈ keys) (hs : txid ∉ (measure d read).skipped) :
    cell (measure d read).lens txid = if (r.potBeefs txid).isSome ∨ (r.transactions txid).isSome
      then some (lensOf d txid (r.potBeefs txid) (r.transactionsHex txid)) else none := by
  obtain ⟨hp, hx⟩ := h.reread hk hs
  rw [measure_lens h.single, hp, hx, Record.transactionsHex]
  cases r.potBeefs txid with
  | none => cases r.transactions txid <;> rfl
  | some b => cases r.transactions txid <;> rfl

theorem Answers.right (h : Answers m r keys read) (hk : txid ∈ keys) (hs : txid ∉ (measure d read).skipped) (hhas : r.Has txid) :
    ((writeRoundOf d keys read seq).foldl Stmt.exec m).Right d r txid := by
  obtain ⟨hp, hx⟩ := h.reread hk hs
  have hmem : txid ∈ (pendingOf d (measure d read).skipped read).map (·.1.1) := by
    refine (mem_pendingOf h.single).mpr ⟨hs, ?_⟩
    rw [hp, hx, Record.transactionsHex]
    simpa [Record.Has] using hhas
  refine ⟨?_, ?_⟩
  · rw [whole_facts (by simp) hmem, pendingOf_pot h.single hs, hp]
    cases r.potBeefs txid <;> rfl
  · rw [whole_facts (by simp) hmem, pendingOf_stored h.single hs, hp, hx]
    cases r.potBeefs txid with
    | none =>
      cases r.transactionsHex txid with
      | none => rfl
      | some x => simp [Beef.decoded]
    | some b =>
      cases r.transactionsHex txid with
      | none => simp [Beef.decoded]
      | some x => simp [Beef.decoded]

theorem Of_congr {m m' : Txfacts Facts} {p t : Option Bytes} (h : ∀ src, m'.facts txid src = m.facts txid src) :
    m'.Of d txid p t ↔ m.Of d txid p t := by
  unfold Txfacts.Of
  rw [h .pot, h .stored]

theorem Answers.vouched (h : Answers m r keys read) (hm : Vouched d m) {fault : Option Nat}
    (hf : unmeasured (writeRoundOf d keys read seq) fault = true) : Vouched d (writeRound d m keys read seq fault).1 := by
  have hwhole : Vouched d ((writeRoundOf d keys read seq).foldl Stmt.exec m) := by
    intro txid l s hl
    rw [whole_lens] at hl
    by_cases hs : txid ∈ (measure d read).skipped
    · rw [if_pos hs] at hl
      obtain ⟨p, t, rfl, hof⟩ := hm txid l s hl
      exact ⟨p, t, rfl, (Of_congr fun src => write_untouched (k := none) (h.aside (.inr hs))).mpr hof⟩
    rw [if_neg hs] at hl
    by_cases hk : txid ∈ keys
    · rw [if_pos hk, h.lens hk hs] at hl
      by_cases hhas : (r.potBeefs txid).isSome ∨ (r.transactions txid).isSome
      · rw [if_pos hhas] at hl
        cases hl
        exact ⟨_, _, rfl, h.right hk hs hhas⟩
      · rw [if_neg hhas] at hl
        cases hl
    · obtain ⟨hp, hx⟩ := h.within txid hk
      rw [if_neg hk, measure_lens h.single, hp, hx] at hl
      obtain ⟨p, t, rfl, hof⟩ := hm txid l s hl
      exact ⟨p, t, rfl, (Of_congr fun src => write_untouched (k := none) (h.aside (.inl hk))).mpr hof⟩
  cases fault with
  | none => exact hwhole
  | some k =>
    simp only [unmeasured, Option.all_some, Bool.or_eq_true, decide_eq_true_eq] at hf
    rcases hf with hf | hf
    · change Vouched d (((writeRoundOf d keys read seq).take k).foldl Stmt.exec m)
      rw [List.take_of_length_le hf]
      exact hwhole
    · intro txid l s hl
      have hno : ∀ s ∈ (writeRoundOf d keys read seq).take k, s.isLens = false := by
        intro s hs
        simpa using List.all_eq_true.mp hf s hs
      rcases write_torn (m := m) (pending_dropped h.single h.within) hno with hnone | ⟨hsame, hfacts⟩
      · rw [hnone] at hl
        cases hl
      · rw [hsame] at hl
        obtain ⟨p, t, rfl, hof⟩ := hm txid l s hl
        exact ⟨p, t, rfl, (Of_congr hfacts).mpr hof⟩

theorem Answers.right_iff (h : Answers m r keys read) (hd : d.Faithful) (hm : Vouched d m) (hk : txid ∈ keys) :
    ((writeRoundOf d keys read seq).foldl Stmt.exec m).Right d r txid ↔ r.Has txid ∨ m.Bare txid := by
  by_cases hhas : r.Has txid
  · refine iff_of_true ?_ (.inl hhas)
    by_cases hs : txid ∈ (measure d read).skipped
    · rcases h.rows txid hk with ⟨hp, hx⟩ | ⟨-, ⟨l, s, hl, hpot, htx⟩, -⟩
      · have := (measure_skipped h.single).mp hs
        rw [hp, hx] at this
        simp [Option.any_map, Beef.isHeld] at this
      · exact (Of_congr fun src => write_untouched (k := none) (h.aside (.inr hs))).mpr (right_of_held hd hm hl hhas hpot htx)
    · exact h.right hk hs hhas
  · have hb : r.potBeefs txid = none := Option.not_isSome_iff_eq_none.mp fun hb => hhas (.inl hb)
    have hx : r.transactions txid = none := Option.not_isSome_iff_eq_none.mp fun hx => hhas (.inr hx)
    have haside : txid ∉ (pendingOf d (measure d read).skipped read).map (·.1.1) := by
      intro hmem
      obtain ⟨-, hrow⟩ := (mem_pendingOf h.single).mp hmem
      rcases h.rows txid hk with ⟨hp, ht⟩ | ⟨hh, -⟩
      · rw [hp, ht, Record.transactionsHex, hb, hx] at hrow
        simp at hrow
      · exact hhas hh
    have hsame : ((writeRoundOf d keys read seq).foldl Stmt.exec m).Right d r txid ↔ m.Right d r txid :=
      Of_congr fun src => write_untouched (k := none) haside
    rw [hsame, Txfacts.Right, Txfacts.Of, Record.transactionsHex, hb, hx]
    simp only [Option.bind_none, Option.map_none, Option.or_none, Option.map_eq_none_iff]
    exact ⟨fun hb => .inr hb, fun hb => hb.resolve_left hhas⟩

/-! ## A closure's write -/

theorem pendingOf_forall {P : String → Prop} {skipped : List String} (hp : ∀ r ∈ read.pot, P r.1) (hx : ∀ r ∈ read.transactions, P r.1) :
    ∀ e ∈ pendingOf d skipped read, P e.1.1 := by
  have hentry : ∀ (acc : Pending Facts) (t : String) (src : Src) (o : Option Facts) (f : Option Facts → Option Facts), P t →
      (∀ e ∈ acc, P e.1.1) → ∀ e ∈ entry acc (t, src) o f, P e.1.1 := by
    intro acc t src o f ht hacc e he
    unfold entry at he
    split at he
    · obtain ⟨e', he', rfl⟩ := List.mem_map.mp he
      split
      · exact hacc e' he'
      · exact hacc e' he'
    · rcases List.mem_append.mp he with he | he
      · exact hacc e he
      · rw [List.mem_singleton.mp he]
        exact ht
  have hfold : ∀ (table : Table) (rows : BeefRows Facts) (acc : Pending Facts), (∀ r ∈ rows, P r.1) → (∀ e ∈ acc, P e.1.1) →
      ∀ e ∈ rows.foldl (factsRow d table) acc, P e.1.1 := by
    intro table rows
    induction rows with
    | nil => exact fun _ _ h => h
    | cons r rows ih =>
      intro acc hrows hacc
      have hr := hrows r List.mem_cons_self
      refine ih _ (fun r' hr' => hrows r' (List.mem_cons_of_mem _ hr')) ?_
      cases table with
      | potBeefs =>
        simp only [factsRow, if_true]
        exact hentry _ _ _ _ _ hr (hentry _ _ _ _ _ hr hacc)
      | transactions =>
        simp only [factsRow]
        exact hentry _ _ _ _ _ hr hacc
  apply hfold .transactions
  · exact fun r hr => hx r (List.mem_filter.mp hr).1
  · apply hfold .potBeefs
    · exact fun r hr => hp r (List.mem_filter.mp hr).1
    · intro e he
      cases he

theorem measure_facts (hp : ∀ r ∈ read.pot, ∃ f, r.2 = .facts f) (hx : ∀ r ∈ read.transactions, ∃ f, r.2 = .facts f) :
    measure d read = ⟨[], []⟩ := by
  have hfold : ∀ (table : Table) (rows : BeefRows Facts) (acc : Measured), (∀ r ∈ rows, ∃ f, r.2 = .facts f) →
      rows.foldl (Measured.row d table) acc = acc := by
    intro table rows
    induction rows with
    | nil => exact fun _ _ => rfl
    | cons r rows ih =>
      intro acc hr
      obtain ⟨f, hf⟩ := hr r List.mem_cons_self
      obtain ⟨k, b⟩ := r
      subst hf
      exact ih acc fun r' hr' => hr r' (List.mem_cons_of_mem _ hr')
  unfold measure
  rw [hfold .potBeefs _ _ hp, hfold .transactions _ _ hx]

theorem closure_rows (c : Closure Facts) (keys : List String) :
    (∀ r ∈ (c.rowsOf keys).pot, r.1 ∈ keys ∧ ∃ f, r.2 = .facts f) ∧ ∀ r ∈ (c.rowsOf keys).transactions, r.1 ∈ keys ∧ ∃ f, r.2 = .facts f := by
  have hrows : ∀ (l : List (String × Option Facts)), ∀ r ∈ (l.filter (·.1 ∈ keys)).map fun r => (r.1, (Beef.facts r.2 : Beef Facts)),
      r.1 ∈ keys ∧ ∃ f, r.2 = .facts f := by
    intro l r hr
    obtain ⟨r', hr', rfl⟩ := List.mem_map.mp hr
    exact ⟨by simpa using (List.mem_filter.mp hr').2, _, rfl⟩
  exact ⟨hrows c.pot, hrows c.transactions⟩

theorem closure_aside (c : Closure Facts) {keys : List String} (hk : txid ∉ keys) (fault : Option Nat) :
    (writeRound d m keys (c.rowsOf keys) seq fault).1.facts txid src = m.facts txid src := by
  apply write_untouched
  intro hmem
  obtain ⟨e, he, rfl⟩ := List.mem_map.mp hmem
  obtain ⟨hp, hx⟩ := closure_rows c keys
  exact hk (pendingOf_forall (P := (· ∈ keys)) (fun r hr => (hp r hr).1) (fun r hr => (hx r hr).1) e he)

theorem closure_vouched (c : Closure Facts) (keys : List String) (hm : Vouched d m) (fault : Option Nat) :
    Vouched d (writeRound d m keys (c.rowsOf keys) seq fault).1 := by
  obtain ⟨hp, hx⟩ := closure_rows c keys
  have hmeasure : measure d (c.rowsOf keys) = ⟨[], []⟩ := measure_facts (fun r hr => (hp r hr).2) fun r hr => (hx r hr).2
  have hnolens : ∀ s ∈ writeRoundOf d keys (c.rowsOf keys) seq, s.isLens = false := by
    intro s hs
    simp only [writeRoundOf, hmeasure, List.filter_nil, List.map_nil, List.append_nil, List.mem_append, List.mem_filterMap] at hs
    rcases hs with ((hs | hs) | hs) | ⟨e, -, hs⟩
    · split at hs
      · cases hs
      · rw [List.mem_singleton] at hs
        subst hs
        rfl
    · simp only [List.mem_cons, List.not_mem_nil, or_false] at hs
      rcases hs with rfl | rfl
      · rfl
      · rfl
    · split at hs
      · cases hs
      · rw [List.mem_singleton] at hs
        subst hs
        rfl
    · obtain ⟨f, -, rfl⟩ := Option.map_eq_some_iff.mp hs
      rfl
  have htake : ∃ k, (writeRound d m keys (c.rowsOf keys) seq fault).1 = (writeRound d m keys (c.rowsOf keys) seq (some k)).1 := by
    cases fault with
    | some k => exact ⟨k, rfl⟩
    | none =>
      refine ⟨(writeRoundOf d keys (c.rowsOf keys) seq).length, ?_⟩
      simp only [writeRound, Option.elim_none, Option.elim_some, List.take_length]
  obtain ⟨k, hk⟩ := htake
  intro txid l s hl
  rw [hk] at hl ⊢
  have hdrop : txid ∈ (pendingOf d (measure d (c.rowsOf keys)).skipped (c.rowsOf keys)).map (·.1.1) →
      txid ∈ keys.filter (· ∉ (measure d (c.rowsOf keys)).skipped) := by
    intro hmem
    obtain ⟨e, he, rfl⟩ := List.mem_map.mp hmem
    refine List.mem_filter.mpr ⟨pendingOf_forall (P := (· ∈ keys)) (fun r hr => (hp r hr).1) (fun r hr => (hx r hr).1) e he, ?_⟩
    rw [hmeasure]
    simp
  rcases write_torn (m := m) hdrop fun s hs => hnolens s (List.mem_of_mem_take hs) with hnone | ⟨hsame, hfacts⟩
  · rw [hnone] at hl
    cases hl
  · rw [hsame] at hl
    obtain ⟨p, t, rfl, hof⟩ := hm txid l s hl
    exact ⟨p, t, rfl, (Of_congr hfacts).mpr hof⟩

/-! ## The rounds of an apply -/

inductive Source.From (m : Txfacts Facts) (r : Record) (fetched : List String) : Source Facts → Prop
  | record {keys : List String} {read : Read Facts} (h : Answers m r keys read) (hk : ∀ t ∈ keys, t ∉ fetched) : From m r fetched (.record keys read)
  | closure (c : Closure Facts) (keys : List String) (hk : ∀ t ∈ keys, t ∉ fetched) : From m r fetched (.closure keys (c.rowsOf keys))
  | mirror : From m r fetched .mirror

variable {r : Round Facts}

theorem firstRead_from (m : Txfacts Facts) (r : Round Facts) (first : First) : (firstRead m r first).From m r.record [] := by
  unfold firstRead
  cases first with
  | full => exact .record (answers_plain m r.record (List.nodup_dedup _)) (by simp)
  | page marks => exact .record (answers_plain m r.record (List.nodup_dedup _)) (by simp)
  | narrowed touch marks fits =>
    dsimp only
    split
    · rename_i hfits
      simp only [Bool.and_eq_true, Bool.not_eq_true'] at hfits
      exact .record (answers_held (List.nodup_dedup _) hfits.2) (by simp)
    · exact .record (answers_plain m r.record (List.nodup_dedup _)) (by simp)
  | carried => exact .mirror

theorem laterRead_from (m : Txfacts Facts) (first : First) (fetched : List String) (r : Round Facts) :
    (laterRead first fetched r).From m r.record fetched := by
  have hk : ∀ t ∈ (r.named.filter (· ∉ fetched)).dedup, t ∉ fetched := by
    intro t ht
    simpa using (List.mem_filter.mp (List.mem_dedup.mp ht)).2
  unfold laterRead
  dsimp only
  split
  · exact .closure _ _ hk
  · exact .record (answers_plain m r.record (List.nodup_dedup _)) hk

/-- An apply from the table `m₀`, some rounds in. -/
structure Progress.Kept (d : Decoder Facts) (m₀ : Txfacts Facts) (p : Progress Facts) : Prop where
  vouched : Vouched d p.table
  aside : ∀ txid, txid ∉ p.fetched → ∀ src, p.table.facts txid src = m₀.facts txid src
  fetched : ∀ keys r, (keys, r) ∈ p.reads → ∀ txid ∈ keys, txid ∈ p.fetched
  right : p.ok = true → ∀ keys r, (keys, r) ∈ p.reads → ∀ txid ∈ keys, (p.table.Right d r txid ↔ r.Has txid ∨ m₀.Bare txid)

theorem writeRound_ok {fault : Option Nat} (h : (writeRound d m keys read seq fault).2 = true) :
    (writeRound d m keys read seq fault).1 = (writeRoundOf d keys read seq).foldl Stmt.exec m := by
  cases fault with
  | none => rfl
  | some k =>
    simp only [writeRound, Option.all_some, decide_eq_true_eq] at h
    simp only [writeRound, Option.elim_some, List.take_of_length_le h]

variable {source : Source Facts}

theorem Progress.Kept.take {m₀ : Txfacts Facts} {p : Progress Facts} (h : p.Kept d m₀) (hok : p.ok = true) (hd : d.Faithful)
    (hs : source.From p.table r.record p.fetched) (hmeets : source.meets d seq r.fault = true) :
    (p.take d seq r source).Kept d m₀ := by
  cases hs with
  | mirror =>
    refine ⟨h.vouched, ?_, ?_, h.right⟩
    · intro txid ht
      exact h.aside txid fun hf => ht (List.mem_append_left _ hf)
    · intro keys r' hr txid ht
      exact List.mem_append_left _ (h.fetched keys r' hr txid ht)
  | closure c keys hk =>
    refine ⟨closure_vouched c keys h.vouched r.fault, ?_, ?_, ?_⟩
    · intro txid ht src
      change (writeRound d p.table keys (c.rowsOf keys) seq r.fault).1.facts txid src = _
      rw [closure_aside c (fun hf => ht (List.mem_append_right _ hf))]
      exact h.aside txid (fun hf => ht (List.mem_append_left _ hf)) src
    · intro keys' r' hr txid ht
      exact List.mem_append_left _ (h.fetched keys' r' hr txid ht)
    · intro _ keys' r' hr txid ht
      have hne : txid ∉ keys := fun hf => hk txid hf (h.fetched keys' r' hr txid ht)
      exact (Of_congr fun src => closure_aside c hne r.fault).trans (h.right hok keys' r' hr txid ht)
  | record hans hk =>
    rename_i keys read
    have haside : ∀ txid, txid ∉ keys → ∀ src, (writeRound d p.table keys read seq r.fault).1.facts txid src = p.table.facts txid src :=
      fun txid ht src => write_untouched (hans.aside (.inl ht))
    refine ⟨hans.vouched h.vouched hmeets, ?_, ?_, ?_⟩
    · intro txid ht src
      exact (haside txid (fun hf => ht (List.mem_append_right _ hf)) src).trans
        (h.aside txid (fun hf => ht (List.mem_append_left _ hf)) src)
    · intro keys' r' hr txid ht
      rcases List.mem_append.mp hr with hr | hr
      · exact List.mem_append_left _ (h.fetched keys' r' hr txid ht)
      · cases List.mem_singleton.mp hr
        exact List.mem_append_right _ ht
    · intro hwhole keys' r' hr txid ht
      rcases List.mem_append.mp hr with hr | hr
      · have hne : txid ∉ keys := fun hf => hk txid hf (h.fetched keys' r' hr txid ht)
        exact (Of_congr fun src => haside txid hne src).trans (h.right hok keys' r' hr txid ht)
      · cases List.mem_singleton.mp hr
        change (writeRound d p.table keys read seq r.fault).1.Right d r.record txid ↔ _
        rw [writeRound_ok hwhole, hans.right_iff hd h.vouched ht]
        have hbare : p.table.Bare txid ↔ m₀.Bare txid := by
          unfold Txfacts.Bare
          rw [h.aside txid (hk txid ht) .pot, h.aside txid (hk txid ht) .stored]
        rw [hbare]

theorem Progress.Kept.later {m₀ : Txfacts Facts} (hd : d.Faithful) (a : Apply Facts) : ∀ (rounds : List (Round Facts)) (p : Progress Facts),
    p.Kept d m₀ → p.meeting d a rounds = true → (rounds.foldl (fun p r => p.later d a r) p).Kept d m₀ := by
  intro rounds
  induction rounds with
  | nil => exact fun p h _ => h
  | cons r rounds ih =>
    intro p h hmeets
    simp only [Progress.meeting, Bool.and_eq_true, Bool.or_eq_true, Bool.not_eq_true'] at hmeets
    refine ih _ ?_ hmeets.2
    change (p.later d a r).Kept d m₀
    unfold Progress.later
    split
    · rename_i hok
      exact h.take hok hd (laterRead_from p.table a.first p.fetched r) (hmeets.1.resolve_left (by simp [hok]))
    · exact h

theorem Apply.kept (hd : d.Faithful) (a : Apply Facts) (hm : Vouched d m) (hmeets : a.meets d m = true) :
    (a.run d m).Kept d m := by
  have hstart : (⟨m, [], [], true⟩ : Progress Facts).Kept d m :=
    ⟨hm, fun _ _ _ => rfl, (fun _ _ h => absurd h List.not_mem_nil), fun _ _ _ h => absurd h List.not_mem_nil⟩
  unfold Apply.run
  unfold Apply.meets at hmeets
  cases hrounds : a.rounds with
  | nil => exact hstart
  | cons r rounds =>
    rw [hrounds] at hmeets
    simp only [Bool.and_eq_true] at hmeets
    exact Progress.Kept.later hd a rounds _ (hstart.take rfl hd (firstRead_from m r a.first) hmeets.1) hmeets.2

theorem take_ok {p : Progress Facts} (h : (p.take d seq r source).ok = true) : source.meets d seq r.fault = true := by
  have hwhole : ∀ keys read, (writeRound d p.table keys read seq r.fault).2 = true → unmeasured (writeRoundOf d keys read seq) r.fault = true := by
    intro keys read hk
    unfold unmeasured
    cases hf : r.fault with
    | none => rfl
    | some k =>
      rw [hf] at hk
      simp only [writeRound, Option.all_some] at hk
      simp only [Option.all_some, hk, Bool.true_or]
  cases source with
  | mirror => rfl
  | closure keys read => exact hwhole keys read h
  | record keys read => exact hwhole keys read h

theorem later_ok (a : Apply Facts) : ∀ (rounds : List (Round Facts)) (p : Progress Facts),
    (rounds.foldl (fun p r => p.later d a r) p).ok = true → p.ok = true ∧ p.meeting d a rounds = true := by
  intro rounds
  induction rounds with
  | nil => exact fun p h => ⟨h, rfl⟩
  | cons r rounds ih =>
    intro p h
    obtain ⟨hok, hmeets⟩ := ih (p.later d a r) h
    have hp : p.ok = true := by
      by_contra hp
      unfold Progress.later at hok
      rw [if_neg hp] at hok
      exact hp hok
    refine ⟨hp, ?_⟩
    simp only [Progress.meeting, Bool.and_eq_true, Bool.or_eq_true, Bool.not_eq_true']
    refine ⟨.inr ?_, hmeets⟩
    unfold Progress.later at hok
    rw [if_pos hp] at hok
    exact take_ok hok

theorem Apply.meets_of_ok (a : Apply Facts) (h : (a.run d m).ok = true) : a.meets d m = true := by
  unfold Apply.run at h
  unfold Apply.meets
  cases hrounds : a.rounds with
  | nil => rfl
  | cons r rounds =>
    rw [hrounds] at h
    obtain ⟨hok, hmeets⟩ := later_ok a rounds _ h
    simp only [Bool.and_eq_true]
    exact ⟨take_ok hok, hmeets⟩

/-! ## The actor's life -/

theorem runs_vouched (hd : d.Faithful) : ∀ (moves : List (Move Facts)) (m : Txfacts Facts), Vouched d m → meeting d m moves = true →
    Vouched d (runs d m moves) := by
  intro moves
  induction moves with
  | nil => exact fun m h _ => h
  | cons move moves ih =>
    intro m h hmeets
    cases move with
    | apply a =>
      simp only [meeting, Bool.and_eq_true] at hmeets
      exact ih _ (a.kept hd h hmeets.1).vouched hmeets.2
    | event txid f seq =>
      refine ih _ ?_ hmeets
      intro t l s hl
      obtain ⟨p, x, rfl, hof⟩ := h t l s hl
      refine ⟨p, x, rfl, ?_⟩
      have hpot : ((Stmt.factsUpsert txid .event f seq).exec m).facts t .pot = m.facts t .pot := if_neg fun he => by cases he.2
      have hstored : ((Stmt.factsUpsert txid .event f seq).exec m).facts t .stored = m.facts t .stored := if_neg fun he => by cases he.2
      unfold Txfacts.Of at hof ⊢
      change (((Stmt.factsUpsert txid .event f seq).exec m).facts t .pot).map Prod.fst = _ ∧
        (((Stmt.factsUpsert txid .event f seq).exec m).facts t .stored).map Prod.fst = _
      rw [hpot, hstored]
      exact hof
    | reset =>
      refine ih _ ?_ hmeets
      intro t l s hl
      cases hl

end

/-- After an apply whose writes all landed, the facts of each key it read of the record are the record's exactly when
the record holds a BEEF of it or the actor held no fact of it. -/
theorem facts_of_record (hd : d.Faithful) (moves : List (Move Facts)) (hm : meeting d empty moves = true) (a : Apply Facts)
    (hok : (a.run d (runs d empty moves)).ok = true) (keys : List String) (r : Record)
    (hr : (keys, r) ∈ (a.run d (runs d empty moves)).reads) (txid : String) (ht : txid ∈ keys) :
    (a.run d (runs d empty moves)).table.Right d r txid ↔ r.Has txid ∨ (runs d empty moves).Bare txid :=
  (a.kept hd (runs_vouched hd moves empty (fun _ _ _ hl => by cases hl) hm) (a.meets_of_ok hok)).right hok keys r hr txid ht

def firstByte : Decoder Nat := ⟨fun _ b => b.head?.map UInt8.toNat, fun _ b => (.none, .at 1 b 1 b)⟩

theorem firstByte_faithful : firstByte.Faithful := by
  intro txid b b' hlen _ hheld
  simp only [firstByte, EntryMark.held, window, Bool.and_eq_true, decide_eq_true_eq, Nat.sub_self, List.drop_zero] at hheld
  have hb : b' = b := by
    have := hheld.1
    rwa [hlen, List.take_length] at this
  rw [hb]

def oneBeef (b : Option Bytes) : Record := ⟨fun t => if t = "x" then b else none, fun _ => none⟩

def readOf (first : First) (b : Option Bytes) (fault : Option Nat) : Apply Nat := ⟨1, first, [⟨oneBeef b, ["x"], none, fault⟩]⟩

theorem facts_of_record_held :
    ((readOf (.narrowed [] [] true) (some [7]) none).run firstByte (runs firstByte empty [.apply (readOf .full (some [7]) none)])).table.Right
      firstByte (oneBeef (some [7])) "x" :=
  (facts_of_record firstByte firstByte_faithful [.apply (readOf .full (some [7]) none)] (by decide)
    (readOf (.narrowed [] [] true) (some [7]) none) (by decide) ["x"] (oneBeef (some [7])) (List.mem_singleton.mpr rfl) "x"
    (List.mem_singleton.mpr rfl)).mpr (.inl (.inl rfl))

/-- The facts of a txid stay when the record deletes its BEEFs; and a write torn between a `len` row and its facts
leaves the next narrowed read facts the record's BEEF does not have. -/
theorem facts_survive :
    ((readOf .full none none).run firstByte (runs firstByte empty [.apply (readOf .full (some [7]) none)])).ok = true ∧
      ¬ ((readOf .full none none).run firstByte (runs firstByte empty [.apply (readOf .full (some [7]) none)])).table.Right
        firstByte (oneBeef none) "x" ∧
      ((readOf (.narrowed [] [] true) (some [8, 8]) none).run firstByte
        (runs firstByte empty [.apply (readOf .full (some [7]) none), .apply (readOf (.narrowed [] [] true) (some [8, 8]) (some 2))])).ok = true ∧
      ¬ ((readOf (.narrowed [] [] true) (some [8, 8]) none).run firstByte
        (runs firstByte empty [.apply (readOf .full (some [7]) none), .apply (readOf (.narrowed [] [] true) (some [8, 8]) (some 2))])).table.Right
        firstByte (oneBeef (some [8, 8])) "x" := by
  unfold Txfacts.Right Txfacts.Of
  decide

end OverlayEngine.MirrorFacts
