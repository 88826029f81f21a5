import Mathlib.Data.List.Sort
import OverlayEngine.Worker.ReorgLegs

/-!
# The routine revalidation sweep

Every pass walks, on each leg, one page of the rows anchored in a window of
heights, newest first, and persists where it stopped. A window stays until it is
exhausted; the next one begins at most one height above its end.
-/

namespace OverlayEngine.ReorgSweep

open ReorgLegs (Leg RowKey LegAnswer)

/-! ## The walk's state -/

structure SweepState where
  lo : Nat
  hi : Nat
  cursor : Option RowKey := none
  exhausted : Bool := false
  deriving DecidableEq

def nextSweepWindow (prev : Option SweepState) (tip depth : Nat) : Option SweepState :=
  if depth = 0 ∨ tip = 0 then none
  else
    let floor := max (tip - (depth - 1)) 1
    match prev with
    | some p =>
      if !p.exhausted then some p
      else
        let lo := max (min (p.hi + 1) floor) 1
        some { lo := lo, hi := max tip lo }
    | none => some { lo := floor, hi := max tip floor }

/-! ## A page -/

structure Row where
  key : RowKey
  emptyBeef : Bool := false
  deriving DecidableEq

def walks (a b : RowKey) : Prop := b.height < a.height ∨ (b.height = a.height ∧ b.rowid ≤ a.rowid)

instance (a b : RowKey) : Decidable (walks a b) := inferInstanceAs (Decidable (_ ∨ _))

def walkOrder (a b : Row) : Prop := walks a.key b.key

instance : DecidableRel walkOrder := fun a b => inferInstanceAs (Decidable (walks a.key b.key))

/-- `ORDER BY height DESC, rowid DESC LIMIT limit`. -/
def ordered (rows : List Row) (limit : Nat) : List Row := (rows.insertionSort walkOrder).take limit

def sameHeightSql (rows : List Row) (a : RowKey) (limit : Nat) : List Row :=
  ordered (rows.filter fun r => decide (r.key.height = a.height ∧ r.key.rowid < a.rowid)) limit

def headSql (rows : List Row) (lo hi limit : Nat) : List Row :=
  ordered (rows.filter fun r => decide (lo ≤ r.key.height ∧ r.key.height ≤ hi)) limit

def keyed (leg : Leg) (rows : List Row) : List Row := rows.filter fun r => !(leg == .potBeefs && r.emptyBeef)

/-- One page of a leg: the rest of the cursor's height over `same`, then the heights below it over `head`. -/
def windowPage (leg : Leg) (same head : List Row) (lo hi : Nat) (after : Option RowKey) (limit : Nat) : List Row :=
  if limit = 0 ∨ hi < lo then []
  else match after with
    | some a =>
      let out := keyed leg (sameHeightSql same a limit)
      if limit - out.length = 0 ∨ a.height ≤ lo then out
      else out ++ keyed leg (headSql head lo (a.height - 1) (limit - out.length))
    | none => keyed leg (headSql head lo hi limit)

/-! ## A pass -/

inductive RowAnswer where
  | judged
  | fault
  | error
  | budget
  deriving DecidableEq

def judgeRows (leg : Leg) (answer : RowKey → RowAnswer) : Option RowKey → List Row → LegAnswer → LegAnswer × List RowKey
  | _, [], s => (s, [])
  | last, r :: rest, s =>
    if leg = .spenders ∧ answer r.key = .budget then ({ s with budgetExhausted := true, exhausted := false, nextCursor := last }, [])
    else match answer r.key with
      | .fault => judgeRows leg answer (some r.key) rest { s with faults := s.faults + 1 }
      | .error => judgeRows leg answer (some r.key) rest { s with errors := s.errors + 1 }
      | _ =>
        let (s', keys) := judgeRows leg answer (some r.key) rest s
        (s', r.key :: keys)

structure LegInput where
  tip : Nat
  depth : Nat
  limit : Nat
  readFault : Bool := false
  page : Option (List Row × List Row) := none
  answer : RowKey → RowAnswer := fun _ => .judged
  writeLost : Bool := false

def reverifyWindow (leg : Leg) (inp : LegInput) (w : SweepState) : LegAnswer × List RowKey :=
  match inp.page with
  | none => ({ nextCursor := w.cursor, errors := 1 }, [])
  | some (same, head) =>
    let rows := windowPage leg same head w.lo w.hi w.cursor inp.limit
    judgeRows leg inp.answer w.cursor rows
      { exhausted := decide (rows.length < inp.limit), nextCursor := (rows.getLast?.map Row.key).or w.cursor }

/-- A leg's row of `reorg_sweep_state`; beside it the keys it judged and where its first window began. -/
structure LegState where
  stored : Option SweepState := none
  judged : List RowKey := []
  first : Option Nat := none

def sweepLeg (leg : Leg) (σ : LegState) (inp : LegInput) : LegState :=
  -- a state row that does not read walks the newest window
  let prev := if inp.readFault then none else σ.stored
  match nextSweepWindow prev inp.tip inp.depth with
  | none => σ
  | some w =>
    let (s, judged) := reverifyWindow leg inp w
    let state : SweepState := { lo := w.lo, hi := w.hi, cursor := if s.exhausted then none else s.nextCursor, exhausted := s.exhausted }
    { stored := if inp.writeLost then σ.stored else some state
      judged := σ.judged ++ judged
      first := σ.first.or (some w.lo) }

structure PassInput where
  tracker : Bool := true
  txStore : Bool := true
  legs : Leg → LegInput

/-- `reorg_revalidation_sweep_with`. -/
def sweep (σ : Leg → LegState) (inp : PassInput) : Leg → LegState := fun leg =>
  if !inp.tracker || (leg == .transactions && !inp.txStore) then σ leg else sweepLeg leg (σ leg) (inp.legs leg)

def run (σ : Leg → LegState) : List PassInput → Leg → LegState
  | [] => σ
  | inp :: rest => run (sweep σ inp) rest

/-! ## Pages of a walk -/

theorem walks_trans {a b c : RowKey} (h₁ : walks a b) (h₂ : walks b c) : walks a c := by
  unfold walks at *
  omega

theorem walks_total (a b : RowKey) : walks a b ∨ walks b a := by
  unfold walks
  omega

theorem walks_antisymm {a b : RowKey} (h₁ : walks a b) (h₂ : walks b a) : a = b := by
  obtain ⟨h, r⟩ := a
  obtain ⟨h', r'⟩ := b
  simp only [walks, RowKey.mk.injEq] at *
  omega

instance : Std.Total walkOrder := ⟨fun a b => walks_total a.key b.key⟩

instance : IsTrans Row walkOrder := ⟨fun _ _ _ => walks_trans⟩

theorem ordered_sorted (rows : List Row) (limit : Nat) : (ordered rows limit).Pairwise walkOrder :=
  (List.pairwise_insertionSort walkOrder rows).sublist (List.take_sublist _ _)

variable {r : Row}

theorem mem_of_ordered {rows : List Row} {limit : Nat} (h : r ∈ ordered rows limit) : r ∈ rows :=
  (List.mem_insertionSort walkOrder).mp (List.mem_of_mem_take h)

theorem ordered_cut {rows : List Row} {limit : Nat} (hr : r ∈ rows) (hout : r ∉ ordered rows limit) :
    (ordered rows limit).length = limit ∧ ∀ x ∈ ordered rows limit, walks x.key r.key := by
  have hsorted := List.pairwise_insertionSort walkOrder rows
  have hr' : r ∈ rows.insertionSort walkOrder := (List.mem_insertionSort walkOrder).mpr hr
  rw [← List.take_append_drop limit (rows.insertionSort walkOrder)] at hsorted hr'
  have hdrop : r ∈ (rows.insertionSort walkOrder).drop limit := (List.mem_append.mp hr').resolve_left hout
  refine ⟨?_, fun x hx => (List.pairwise_append.mp hsorted).2.2 x hx r hdrop⟩
  have hlt := List.length_pos_of_mem hdrop
  rw [List.length_drop] at hlt
  rw [ordered, List.length_take]
  omega

section
variable {leg : Leg} {same head : List Row} {lo hi limit : Nat} {after : Option RowKey} {k : RowKey}

def Full (leg : Leg) (rows : List Row) : Prop := leg = .potBeefs → ∀ r ∈ rows, r.emptyBeef = false

theorem keyed_full {rows : List Row} (h : Full leg rows) : keyed leg rows = rows := by
  refine List.filter_eq_self.mpr fun r hr => ?_
  cases leg with
  | potBeefs => simp [h rfl r hr]
  | _ => rfl

theorem Full.sameHeight (h : Full leg same) (a : RowKey) : keyed leg (sameHeightSql same a limit) = sameHeightSql same a limit :=
  keyed_full fun hleg r hr => h hleg r (List.mem_of_mem_filter (mem_of_ordered hr))

theorem Full.headPage (h : Full leg head) (lo hi limit : Nat) : keyed leg (headSql head lo hi limit) = headSql head lo hi limit :=
  keyed_full fun hleg r hr => h hleg r (List.mem_of_mem_filter (mem_of_ordered hr))

theorem sameHeight_of_mem {a : RowKey} (h : r ∈ sameHeightSql same a limit) : r.key.height = a.height ∧ r.key.rowid < a.rowid := by
  simpa using (List.mem_filter.mp (mem_of_ordered h)).2

theorem head_of_mem (h : r ∈ headSql head lo hi limit) : lo ≤ r.key.height ∧ r.key.height ≤ hi := by
  simpa using (List.mem_filter.mp (mem_of_ordered h)).2

theorem page_sorted (lo hi : Nat) (after : Option RowKey) (limit : Nat) (hsame : Full leg same) (hhead : Full leg head) : (windowPage leg same head lo hi after limit).Pairwise walkOrder := by
  unfold windowPage
  split
  · exact .nil
  · split
    · rename_i a
      dsimp only
      rw [hsame.sameHeight]
      split
      · exact ordered_sorted _ _
      · rename_i hrest
        rw [hhead.headPage]
        refine List.pairwise_append.mpr ⟨ordered_sorted _ _, ordered_sorted _ _, fun x hx y hy => .inl ?_⟩
        have hx' := sameHeight_of_mem hx
        have hy' := head_of_mem hy
        omega
    · rw [hhead.headPage]
      exact ordered_sorted _ _

theorem page_covers (limit : Nat) (hsame : Full leg same) (hhead : Full leg head) (hins : ∃ r ∈ same, r.key = k) (hinh : ∃ r ∈ head, r.key = k)
    (hlo : lo ≤ k.height) (hhi : k.height ≤ hi) (hafter : ∀ a, after = some a → ¬walks k a) :
    (∃ r ∈ windowPage leg same head lo hi after limit, r.key = k) ∨
      ((windowPage leg same head lo hi after limit).length = limit ∧ ∀ r ∈ windowPage leg same head lo hi after limit, walks r.key k) := by
  obtain ⟨r, hr, hrk⟩ := hins
  obtain ⟨r', hr', hrk'⟩ := hinh
  unfold windowPage
  split
  · rename_i hempty
    exact .inr ⟨by simp; omega, fun x hx => by cases hx⟩
  · rename_i hne
    split
    · rename_i a
      have hpast : k.height < a.height ∨ (k.height = a.height ∧ k.rowid < a.rowid) := by
        have := hafter a rfl
        unfold walks at this
        omega
      dsimp only
      rw [hsame.sameHeight]
      have hcut : (sameHeightSql same a limit).length ≤ limit := by
        unfold sameHeightSql ordered
        rw [List.length_take]
        omega
      rcases hpast with hbelow | ⟨hsameh, hrowid⟩
      · -- the row is below the cursor's height
        have hfirst : ∀ x ∈ sameHeightSql same a limit, walks x.key k := fun x hx => by
          have := sameHeight_of_mem hx
          exact .inl (by omega)
        split
        · rename_i hstop
          exact .inr ⟨by omega, hfirst⟩
        · rename_i hgo
          rw [hhead.headPage]
          have hmem : r' ∈ head.filter fun x => decide (lo ≤ x.key.height ∧ x.key.height ≤ a.height - 1) :=
            List.mem_filter.mpr ⟨hr', by simp [hrk']; omega⟩
          by_cases hin : r' ∈ headSql head lo (a.height - 1) (limit - (sameHeightSql same a limit).length)
          · exact .inl ⟨r', List.mem_append_right _ hin, hrk'⟩
          · obtain ⟨hlen, hbefore⟩ := ordered_cut hmem hin
            refine .inr ⟨?_, fun x hx => ?_⟩
            · rw [List.length_append]
              unfold headSql
              omega
            · rcases List.mem_append.mp hx with hx | hx
              · exact hfirst x hx
              · exact hrk' ▸ hbefore x hx
      · -- the row shares the cursor's height
        have hmem : r ∈ same.filter fun x => decide (x.key.height = a.height ∧ x.key.rowid < a.rowid) :=
          List.mem_filter.mpr ⟨hr, by simp [hrk]; omega⟩
        by_cases hin : r ∈ sameHeightSql same a limit
        · left
          split
          · exact ⟨r, hin, hrk⟩
          · exact ⟨r, List.mem_append_left _ hin, hrk⟩
        · obtain ⟨hlen, hbefore⟩ := ordered_cut hmem hin
          have hfull : limit - (sameHeightSql same a limit).length = 0 := by
            unfold sameHeightSql
            omega
          rw [if_pos (.inl hfull)]
          exact .inr ⟨hlen, fun x hx => hrk ▸ hbefore x hx⟩
    · rw [hhead.headPage]
      have hmem : r' ∈ head.filter fun x => decide (lo ≤ x.key.height ∧ x.key.height ≤ hi) :=
        List.mem_filter.mpr ⟨hr', by simp [hrk']; omega⟩
      by_cases hin : r' ∈ headSql head lo hi limit
      · exact .inl ⟨r', hin, hrk'⟩
      · obtain ⟨hlen, hbefore⟩ := ordered_cut hmem hin
        exact .inr ⟨hlen, fun x hx => hrk' ▸ hbefore x hx⟩

/-! ## One page judged -/

theorem judgeRows_seen (leg : Leg) {answer : RowKey → RowAnswer} (rows : List Row) (last : Option RowKey) (s : LegAnswer)
    (hclean : ∀ r ∈ rows, answer r.key ≠ .fault ∧ answer r.key ≠ .error) :
    ∃ seen left, rows = seen ++ left ∧ (judgeRows leg answer last rows s).2 = seen.map Row.key ∧
      (left = [] ∧ (judgeRows leg answer last rows s).1 = s ∨
        left ≠ [] ∧ (judgeRows leg answer last rows s).1 =
          { s with budgetExhausted := true, exhausted := false, nextCursor := (seen.getLast?.map Row.key).or last }) := by
  induction rows generalizing last with
  | nil => exact ⟨[], [], rfl, rfl, .inl ⟨rfl, rfl⟩⟩
  | cons r rest ih =>
    have hr := hclean r (List.mem_cons_self ..)
    by_cases hstop : leg = .spenders ∧ answer r.key = .budget
    · refine ⟨[], r :: rest, rfl, ?_, .inr ⟨by simp, ?_⟩⟩ <;> simp [judgeRows, hstop]
    · obtain ⟨seen, left, hrest, hkeys, hcase⟩ := ih (some r.key) fun x hx => hclean x (List.mem_cons_of_mem _ hx)
      have heq : judgeRows leg answer last (r :: rest) s =
          ((judgeRows leg answer (some r.key) rest s).1, r.key :: (judgeRows leg answer (some r.key) rest s).2) := by
        rw [judgeRows, if_neg hstop]
        cases ha : answer r.key with
        | fault => exact (hr.1 ha).elim
        | error => exact (hr.2 ha).elim
        | judged => rfl
        | budget => rfl
      refine ⟨r :: seen, left, by rw [hrest]; rfl, by rw [heq, hkeys]; rfl, ?_⟩
      rw [heq]
      rcases hcase with ⟨hnil, hs⟩ | ⟨hne, hs⟩
      · exact .inl ⟨hnil, hs⟩
      · refine .inr ⟨hne, ?_⟩
        rw [hs]
        cases seen with
        | nil => rfl
        | cons x seen => simp [List.getLast?_cons]

variable {w : SweepState} {inp : LegInput}

def LegInput.Present (inp : LegInput) (k : RowKey) : Prop :=
  ∀ same head, inp.page = some (same, head) → (∃ r ∈ same, r.key = k) ∧ ∃ r ∈ head, r.key = k

def LegInput.Clean (inp : LegInput) (leg : Leg) (w : SweepState) : Prop :=
  ∀ same head, inp.page = some (same, head) → Full leg same ∧ Full leg head ∧
    ∀ r ∈ windowPage leg same head w.lo w.hi w.cursor inp.limit, inp.answer r.key ≠ .fault ∧ inp.answer r.key ≠ .error

def Walked (cursor : Option RowKey) (k : RowKey) : Prop := ∃ c, cursor = some c ∧ walks k c

theorem reverify_covers (hclean : inp.Clean leg w) (hpresent : inp.Present k) (hlo : w.lo ≤ k.height) (hhi : k.height ≤ w.hi)
    (hat : Walked (reverifyWindow leg inp w).1.nextCursor k ∨ (reverifyWindow leg inp w).1.exhausted = true) :
    Walked w.cursor k ∨ k ∈ (reverifyWindow leg inp w).2 := by
  by_cases hold : Walked w.cursor k
  · exact .inl hold
  right
  have hafter : ∀ a, w.cursor = some a → ¬walks k a := fun a ha hw => hold ⟨a, ha, hw⟩
  unfold reverifyWindow at hat ⊢
  cases hp : inp.page with
  | none =>
    rw [hp] at hat
    rcases hat with hat | hat
    · exact (hold hat).elim
    · cases hat
  | some pages =>
    obtain ⟨same, head⟩ := pages
    rw [hp] at hat
    dsimp only at hat ⊢
    obtain ⟨hfs, hfh, hrows⟩ := hclean same head hp
    obtain ⟨hins, hinh⟩ := hpresent same head hp
    have hsorted := page_sorted w.lo w.hi w.cursor inp.limit hfs hfh
    have hcovers := page_covers inp.limit hfs hfh hins hinh hlo hhi hafter
    generalize windowPage leg same head w.lo w.hi w.cursor inp.limit = page at hsorted hcovers hrows hat ⊢
    obtain ⟨seen, left, hsplit, hkeys, hcase⟩ := judgeRows_seen leg page w.cursor
      { exhausted := decide (page.length < inp.limit), nextCursor := (page.getLast?.map Row.key).or w.cursor } hrows
    rw [hkeys]
    have hmem {r : Row} (hr : r ∈ seen) (hk : r.key = k) : k ∈ seen.map Row.key := hk ▸ List.mem_map_of_mem hr
    -- the last row seen is the walk's new place: nothing of the page at or before it is unseen
    have hplace (hw : Walked ((seen.getLast?.map Row.key).or w.cursor) k) : k ∈ seen.map Row.key := by
      cases hl : seen.getLast? with
      | none =>
        rw [hl] at hw
        exact (hold hw).elim
      | some l =>
        rw [hl] at hw
        obtain ⟨c, hc, hwalk⟩ := hw
        cases hc
        have hlseen : l ∈ seen := List.mem_of_getLast? hl
        have hbefore : (∃ r ∈ seen, r.key = k) ∨ walks l.key k := by
          rcases hcovers with ⟨r, hr, hk⟩ | ⟨-, hall⟩
          · rw [hsplit] at hr hsorted
            rcases List.mem_append.mp hr with hr | hr
            · exact .inl ⟨r, hr, hk⟩
            · exact .inr (hk ▸ (List.pairwise_append.mp hsorted).2.2 l hlseen r hr)
          · exact .inr (hall l (hsplit ▸ List.mem_append_left _ hlseen))
        rcases hbefore with ⟨r, hr, hk⟩ | hback
        · exact hmem hr hk
        · exact hmem hlseen (walks_antisymm hback hwalk)
    rcases hcase with ⟨rfl, hs⟩ | ⟨-, hs⟩
    · rw [List.append_nil] at hsplit
      subst hsplit
      rw [hs] at hat
      rcases hat with hat | hat
      · exact hplace hat
      · rcases hcovers with ⟨r, hr, hk⟩ | ⟨hlen, -⟩
        · exact hmem hr hk
        · simp only [decide_eq_true_eq] at hat
          omega
    · rw [hs] at hat
      rcases hat with hat | hat
      · exact hplace hat
      · cases hat

/-! ## A walk over passes -/

structure Behind (σ : LegState) (k : RowKey) : Prop where
  first_none : σ.first = none ↔ σ.stored = none
  done : ∀ s lo, σ.stored = some s → σ.first = some lo → lo ≤ k.height → s.exhausted = true → k.height ≤ s.hi → k ∈ σ.judged
  below : ∀ s lo, σ.stored = some s → σ.first = some lo → lo ≤ k.height → s.exhausted = false → k.height < s.lo → k ∈ σ.judged
  walked : ∀ s, σ.stored = some s → s.exhausted = false → s.lo ≤ k.height → k.height ≤ s.hi → Walked s.cursor k → k ∈ σ.judged

structure Meets (leg : Leg) (σ : LegState) (inp : LegInput) : Prop where
  reads : inp.readFault = false
  lands : σ.stored = none → inp.writeLost = false
  clean : ∀ w, nextSweepWindow σ.stored inp.tip inp.depth = some w → inp.Clean leg w

theorem nextSweepWindow_cases {prev : Option SweepState} {tip depth : Nat} (h : nextSweepWindow prev tip depth = some w) :
    (prev = some w ∧ w.exhausted = false) ∨
      (w.cursor = none ∧ w.exhausted = false ∧ (prev = none ∨ ∃ p, prev = some p ∧ p.exhausted = true ∧ w.lo ≤ p.hi + 1)) := by
  unfold nextSweepWindow at h
  split at h
  · cases h
  · dsimp only at h
    split at h
    · rename_i p
      split at h
      · rename_i hex
        cases h
        exact .inl ⟨rfl, by simpa using hex⟩
      · rename_i hex
        cases h
        refine .inr ⟨rfl, rfl, .inr ⟨p, rfl, by simpa using hex, ?_⟩⟩
        dsimp only
        omega
    · cases h
      exact .inr ⟨rfl, rfl, .inl rfl⟩

theorem window_behind {σ : LegState} (hinv : Behind σ k) (h : nextSweepWindow σ.stored inp.tip inp.depth = some w) :
    (∀ lo, σ.first.or (some w.lo) = some lo → lo ≤ k.height → k.height < w.lo → k ∈ σ.judged) ∧
      (w.lo ≤ k.height → k.height ≤ w.hi → Walked w.cursor k → k ∈ σ.judged) := by
  rcases nextSweepWindow_cases h with ⟨hprev, hex⟩ | ⟨hcursor, -, hprev⟩
  · refine ⟨fun lo hfirst hk hlt => ?_, fun hl hh hw => hinv.walked w hprev hex hl hh hw⟩
    cases hf : σ.first with
    | none =>
      rw [hinv.first_none.mp hf] at hprev
      cases hprev
    | some first =>
      rw [hf] at hfirst
      cases hfirst
      exact hinv.below w _ hprev hf hk hex hlt
  · refine ⟨fun lo hfirst hk hlt => ?_, fun _ _ ⟨c, hc, _⟩ => ?_⟩
    · rcases hprev with hprev | ⟨p, hprev, hex, hle⟩
      · rw [hinv.first_none.mpr hprev] at hfirst
        cases hfirst
        omega
      · cases hf : σ.first with
        | none =>
          rw [hinv.first_none.mp hf] at hprev
          cases hprev
        | some first =>
          rw [hf] at hfirst
          cases hfirst
          exact hinv.done p _ hprev hf hk hex (by omega)
    · rw [hcursor] at hc
      cases hc

theorem sweepLeg_behind {σ : LegState} (hinv : Behind σ k) (hmeets : Meets leg σ inp) (hpresent : inp.Present k) :
    Behind (sweepLeg leg σ inp) k := by
  unfold sweepLeg
  simp only [hmeets.reads, Bool.false_eq_true, if_false]
  cases hw : nextSweepWindow σ.stored inp.tip inp.depth with
  | none => exact hinv
  | some w =>
    dsimp only
    have hcovers := reverify_covers (k := k) (hmeets.clean w hw) hpresent
    obtain ⟨hbelow, hbehind⟩ := window_behind hinv hw
    generalize reverifyWindow leg inp w = page at hcovers ⊢
    obtain ⟨s, judged⟩ := page
    -- a row of the window that the new place covers is judged now if it was not before
    have hwindow (hl : w.lo ≤ k.height) (hh : k.height ≤ w.hi) (hat : Walked s.nextCursor k ∨ s.exhausted = true) :
        k ∈ σ.judged ++ judged := by
      rcases hcovers hl hh hat with hold | hnew
      · exact List.mem_append_left _ (hbehind hl hh hold)
      · exact List.mem_append_right _ hnew
    cases hl : inp.writeLost with
    | true =>
      have hstored : σ.stored ≠ none := by
        intro hnone
        rw [hmeets.lands hnone] at hl
        cases hl
      obtain ⟨first, hf⟩ := Option.ne_none_iff_exists'.mp fun h => hstored (hinv.first_none.mp h)
      simp only [if_true, hf, Option.some_or]
      constructor
      · simp [hstored]
      · intro p lo hp hlo hk hex hhi
        exact List.mem_append_left _ (hinv.done p lo hp (hf.trans hlo) hk hex hhi)
      · intro p lo hp hlo hk hex hlt
        exact List.mem_append_left _ (hinv.below p lo hp (hf.trans hlo) hk hex hlt)
      · intro p hp hex hlo hhi hwk
        exact List.mem_append_left _ (hinv.walked p hp hex hlo hhi hwk)
    | false =>
      simp only [Bool.false_eq_true, if_false]
      constructor
      · simp
      · intro p lo hp hlo hk hex hhi
        cases hp
        by_cases hlt : k.height < w.lo
        · exact List.mem_append_left _ (hbelow lo hlo hk hlt)
        · exact hwindow (by omega) hhi (.inr hex)
      · intro p lo hp hlo hk _ hlt
        cases hp
        exact List.mem_append_left _ (hbelow lo hlo hk hlt)
      · intro p hp hex hlo hhi hwk
        cases hp
        dsimp only at hex hwk
        rw [hex] at hwk
        exact hwindow hlo hhi (.inl hwk)

end

/-! ## Whole runs -/

def PassInput.walksLeg (inp : PassInput) (leg : Leg) : Bool := inp.tracker && !(leg == .transactions && !inp.txStore)

def MeetsAll (leg : Leg) : (Leg → LegState) → List PassInput → Prop
  | _, [] => True
  | σ, inp :: rest => (inp.walksLeg leg = true → Meets leg (σ leg) (inp.legs leg)) ∧ MeetsAll leg (sweep σ inp) rest

theorem sweep_eq (σ : Leg → LegState) (inp : PassInput) (leg : Leg) :
    sweep σ inp leg = if inp.walksLeg leg then sweepLeg leg (σ leg) (inp.legs leg) else σ leg := by
  unfold sweep PassInput.walksLeg
  cases inp.tracker <;> cases (leg == .transactions && !inp.txStore) <;> rfl

theorem behind_start (k : RowKey) : Behind {} k where
  first_none := by simp
  done := fun _ _ hs => by cases hs
  below := fun _ _ hs => by cases hs
  walked := fun _ hs => by cases hs

theorem run_behind {leg : Leg} {k : RowKey} {σ : Leg → LegState} (passes : List PassInput) (hinv : Behind (σ leg) k)
    (hmeets : MeetsAll leg σ passes) (hpresent : ∀ inp ∈ passes, (inp.legs leg).Present k) : Behind (run σ passes leg) k := by
  induction passes generalizing σ with
  | nil => exact hinv
  | cons inp rest ih =>
    obtain ⟨hnow, hrest⟩ := hmeets
    refine ih ?_ hrest fun x hx => hpresent x (List.mem_cons_of_mem _ hx)
    rw [sweep_eq]
    split
    · rename_i hwalk
      exact sweepLeg_behind hinv (hnow hwalk) (hpresent inp (List.mem_cons_self ..))
    · exact hinv

/-- A walk that comes to the end of a window has judged every row from where it first began. -/
theorem exhausted_leaves_none_behind (leg : Leg) (passes : List PassInput) (hmeets : MeetsAll leg (fun _ => {}) passes) {s : SweepState} {lo : Nat}
    {k : RowKey} (hstored : (run (fun _ => {}) passes leg).stored = some s) (hex : s.exhausted = true)
    (hfirst : (run (fun _ => {}) passes leg).first = some lo) (hlo : lo ≤ k.height) (hhi : k.height ≤ s.hi)
    (hpresent : ∀ inp ∈ passes, (inp.legs leg).Present k) : k ∈ (run (fun _ => {}) passes leg).judged :=
  (run_behind passes (behind_start k) hmeets hpresent).done s lo hstored hfirst hlo hex hhi

/-- A pass at `tip` over two rows, one row a page. -/
def pagedPass (tip : Nat) : PassInput where
  legs _ := { tip := tip, depth := 2, limit := 1, page := some ([⟨⟨100, 2⟩, false⟩, ⟨⟨99, 1⟩, false⟩], [⟨⟨100, 2⟩, false⟩, ⟨⟨99, 1⟩, false⟩]) }

def pagedRun : List PassInput := [pagedPass 100, pagedPass 103, pagedPass 98]

theorem pagedPass_meets (tip : Nat) (σ : LegState) : Meets .spenders σ ((pagedPass tip).legs .spenders) where
  reads := rfl
  lands := fun _ => rfl
  clean := by
    intro w _ same head _
    refine ⟨?_, ?_, fun r _ => ?_⟩
    · intro h
      cases h
    · intro h
      cases h
    · simp [pagedPass]

theorem exhausted_leaves_none_behind_paged : (run (fun _ => {}) pagedRun .spenders).stored = some ⟨99, 100, none, true⟩ ∧
    ⟨99, 1⟩ ∈ (run (fun _ => {}) pagedRun .spenders).judged := by
  have hstored : (run (fun _ => {}) pagedRun .spenders).stored = some ⟨99, 100, none, true⟩ := by decide
  have hfirst : (run (fun _ => {}) pagedRun .spenders).first = some 99 := by decide
  have hmeets : MeetsAll .spenders (fun _ => {}) pagedRun :=
    ⟨fun _ => pagedPass_meets 100 _, fun _ => pagedPass_meets 103 _, fun _ => pagedPass_meets 98 _, trivial⟩
  refine ⟨hstored, exhausted_leaves_none_behind .spenders pagedRun hmeets hstored rfl hfirst (by decide) (by decide) ?_⟩
  intro inp hinp same head hpage
  simp only [pagedRun, List.mem_cons, List.not_mem_nil, or_false] at hinp
  rcases hinp with rfl | rfl | rfl <;> cases hpage <;> simp

def faultedRun : List PassInput :=
  [{ legs := fun _ => { tip := 100, depth := 1, limit := 10, page := some ([⟨⟨100, 1⟩, false⟩], [⟨⟨100, 1⟩, false⟩]), answer := fun _ => .fault } }]

theorem faulted_run_leaves_behind : ¬∀ (leg : Leg) (passes : List PassInput) (s : SweepState) (lo : Nat) (k : RowKey),
    (run (fun _ => {}) passes leg).stored = some s → s.exhausted = true → (run (fun _ => {}) passes leg).first = some lo →
    lo ≤ k.height → k.height ≤ s.hi → (∀ inp ∈ passes, (inp.legs leg).Present k) → k ∈ (run (fun _ => {}) passes leg).judged := by
  intro h
  have hstored : (run (fun _ => {}) faultedRun .spenders).stored = some ⟨100, 100, none, true⟩ := by decide
  have hfirst : (run (fun _ => {}) faultedRun .spenders).first = some 100 := by decide
  have hjudged : (run (fun _ => {}) faultedRun .spenders).judged = [] := by decide
  have hin := h .spenders faultedRun _ 100 ⟨100, 1⟩ hstored rfl hfirst (by decide) (by decide) fun inp hinp same head hpage => by
    rw [List.mem_singleton.mp hinp] at hpage
    cases hpage
    simp
  rw [hjudged] at hin
  cases hin

end OverlayEngine.ReorgSweep
