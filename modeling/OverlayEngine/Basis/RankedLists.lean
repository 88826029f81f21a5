import Mathlib.Data.List.Sort
import Mathlib.Data.List.Dedup
import Mathlib.Data.Finset.Card
import Mathlib.Logic.Function.Basic

/-!
# Lists sorted and ranked by a key

A stable sort by a key in a linear order, the loops that rank a sorted list by
comparing neighbours, and the map that collects a list under its keys. Each is
a function of the list's keys as far as the list's order does not show in them.
-/

namespace RankedLists

variable {α β κ σ τ : Type} [LinearOrder κ]

def sortOn (key : α → κ) (l : List α) : List α := l.insertionSort fun a b => key a ≤ key b

section
variable {key : α → κ} {l l' : List α}

theorem perm_sortOn (key : α → κ) (l : List α) : (sortOn key l).Perm l := List.perm_insertionSort _ _

theorem sorted_sortOn (key : α → κ) (l : List α) : (sortOn key l).Pairwise fun a b => key a ≤ key b := List.pairwise_insertionSort _ _

theorem keys_sorted (key : α → κ) (l : List α) : ((sortOn key l).map key).Pairwise (· ≤ ·) := List.pairwise_map.mpr (sorted_sortOn key l)

theorem keys_sortOn (h : l.Perm l') : (sortOn key l).map key = (sortOn key l').map key := by
  have hperm : ((sortOn key l).map key).Perm ((sortOn key l').map key) :=
    ((perm_sortOn key l).trans (h.trans (perm_sortOn key l').symm)).map key
  exact hperm.eq_of_pairwise (fun _ _ _ _ hab hba => le_antisymm hab hba) (keys_sorted key l) (keys_sorted key l')

theorem filter_orderedInsert {p : α → Bool} {a : α} {s : List α} (h : ∀ b ∈ s, p a = true → p b = true → key a ≤ key b) :
    (s.orderedInsert (fun a b => key a ≤ key b) a).filter p = (a :: s).filter p := by
  induction s with
  | nil => rfl
  | cons b s ih =>
    rw [List.orderedInsert_cons]
    split
    · rfl
    · rename_i hlt
      rw [List.filter_cons, ih fun c hc => h c (List.mem_cons_of_mem b hc)]
      by_cases ha : p a = true
      · have hb : ¬ p b = true := fun hb => hlt (h b List.mem_cons_self ha hb)
        rw [if_neg hb, List.filter_cons_of_pos ha, List.filter_cons_of_pos ha, List.filter_cons_of_neg hb]
      · rw [List.filter_cons_of_neg ha, List.filter_cons_of_neg ha, List.filter_cons]

theorem filter_sortOn {p : α → Bool} (h : ∀ a ∈ l, ∀ b ∈ l, p a = true → p b = true → key a = key b) : (sortOn key l).filter p = l.filter p := by
  induction l with
  | nil => rfl
  | cons a l ih =>
    have hrest := ih fun b hb c hc => h b (List.mem_cons_of_mem a hb) c (List.mem_cons_of_mem a hc)
    have hinsert : (sortOn key (a :: l)).filter p = (a :: sortOn key l).filter p := filter_orderedInsert fun b hb ha hpb =>
      le_of_eq (h a List.mem_cons_self b (List.mem_cons_of_mem a ((perm_sortOn key l).mem_iff.mp hb)) ha hpb)
    rw [hinsert, List.filter_cons, hrest, List.filter_cons]

theorem pairwise_orderedInsert {R : α → α → Prop} {a : α} {s : List α} (ha : ∀ b ∈ s, R a b)
    (h : s.Pairwise fun a b => key a < key b ∨ (key a = key b ∧ R a b)) :
    (s.orderedInsert (fun a b => key a ≤ key b) a).Pairwise fun a b => key a < key b ∨ (key a = key b ∧ R a b) := by
  induction s with
  | nil => exact List.pairwise_singleton _ a
  | cons b s ih =>
    obtain ⟨hb, hs⟩ := List.pairwise_cons.mp h
    rw [List.orderedInsert_cons]
    split
    · rename_i hle
      refine List.pairwise_cons.mpr ⟨fun c hc => ?_, h⟩
      have hbc : key b ≤ key c := by
        rcases List.mem_cons.mp hc with rfl | hc
        · exact le_rfl
        · exact (hb c hc).elim le_of_lt fun heq => le_of_eq heq.1
      rcases lt_or_eq_of_le (le_trans hle hbc) with hlt | heq
      · exact .inl hlt
      · exact .inr ⟨heq, ha c hc⟩
    · rename_i hlt
      refine List.pairwise_cons.mpr ⟨fun c hc => ?_, ih (fun c hc => ha c (List.mem_cons_of_mem b hc)) hs⟩
      rcases (List.mem_orderedInsert _).mp hc with rfl | hc
      · exact .inl (lt_of_not_ge hlt)
      · exact hb c hc

theorem lex_sortOn {R : α → α → Prop} (h : l.Pairwise R) : (sortOn key l).Pairwise fun a b => key a < key b ∨ (key a = key b ∧ R a b) := by
  induction l with
  | nil => exact List.Pairwise.nil
  | cons a l ih =>
    obtain ⟨ha, hl⟩ := List.pairwise_cons.mp h
    exact pairwise_orderedInsert (fun b hb => ha b ((perm_sortOn key l).mem_iff.mp hb)) (ih hl)

theorem filter_take (h : l.Pairwise fun a b => key a ≤ key b) (n : Nat) (k : κ) :
    (l.take n).filter (fun a => decide (key a = k)) = (l.filter fun a => decide (key a = k)).take (n - l.countP fun a => decide (key a < k)) := by
  induction l generalizing n with
  | nil => simp
  | cons a l ih =>
    obtain ⟨ha, hl⟩ := List.pairwise_cons.mp h
    cases n with
    | zero => simp
    | succ n =>
      rw [List.take_succ_cons, List.filter_cons, List.filter_cons, List.countP_cons, ih hl]
      rcases lt_trichotomy (key a) k with hlt | heq | hgt
      · simp [hlt, ne_of_lt hlt]
      · have hnone : (l.countP fun b => decide (key b < k)) = 0 := List.countP_eq_zero.mpr fun b hb => by
          simpa using heq ▸ ha b hb
        simp [heq, hnone]
      · have hnone : (l.filter fun b => decide (key b = k)) = [] := List.filter_eq_nil_iff.mpr fun b hb => by
          simpa using ne_of_gt (lt_of_lt_of_le hgt (ha b hb))
        simp [hnone, ne_of_gt hgt]

end

variable {l l' : List α}

theorem perm_of_filter (key : α → κ) (h : ∀ k, (l.filter fun a => decide (key a = k)).Perm (l'.filter fun a => decide (key a = k))) : l.Perm l' := by
  classical
  refine List.perm_iff_count.mpr fun a => ?_
  have hcount (m : List α) : m.count a = (m.filter fun b => decide (key b = key a)).count a :=
    (List.count_filter (p := fun b => decide (key b = key a)) (decide_eq_true rfl)).symm
  rw [hcount l, hcount l', (h (key a)).count_eq]

variable {keys : List κ} {k j : κ}

omit [LinearOrder κ] in
theorem filter_flatMap (hkeys : keys.Nodup) {g : κ → List β} {p : β → Bool}
    (hother : ∀ j ∈ keys, j ≠ k → (g j).filter p = []) (hnone : k ∉ keys → (g k).filter p = []) : (keys.flatMap g).filter p = (g k).filter p := by
  induction keys with
  | nil => exact (hnone List.not_mem_nil).symm
  | cons j rest ih =>
    obtain ⟨hj, hrest⟩ := List.nodup_cons.mp hkeys
    rw [List.flatMap_cons, List.filter_append]
    by_cases hk : j = k
    · subst hk
      have hempty : (rest.flatMap g).filter p = [] := by
        refine List.filter_eq_nil_iff.mpr fun b hb hp => ?_
        obtain ⟨i, hi, hbi⟩ := List.mem_flatMap.mp hb
        have hi' := hother i (List.mem_cons_of_mem j hi) fun heq => hj (heq ▸ hi)
        exact List.filter_eq_nil_iff.mp hi' b hbi hp
      rw [hempty, List.append_nil]
    · rw [hother j List.mem_cons_self hk, List.nil_append]
      refine ih hrest (fun i hi => hother i (List.mem_cons_of_mem j hi)) fun hnot => hnone fun hin => ?_
      exact (List.mem_cons.mp hin).elim (fun heq => hk heq.symm) hnot

theorem take_perm (h : l.Perm l') {n : Nat} (hsame : 0 < n → n < l.length → ∀ a ∈ l, ∀ b ∈ l, a = b) : (l.take n).Perm (l'.take n) := by
  by_cases hzero : 0 < n
  · by_cases hall : n < l.length
    · cases l with
      | nil => cases hall
      | cons a l =>
        have hl : a :: l = List.replicate (a :: l).length a := List.eq_replicate_iff.mpr ⟨rfl, fun b hb => hsame hzero hall b hb a List.mem_cons_self⟩
        have hl' : l' = a :: l := List.perm_replicate.mp (hl ▸ h.symm) |>.trans hl.symm
        rw [hl']
    · have hlen := Nat.le_of_not_lt hall
      rw [List.take_of_length_le hlen, List.take_of_length_le (h.length_eq ▸ hlen)]
      exact h
  · rw [Nat.le_zero.mp (Nat.le_of_not_lt hzero), List.take_zero, List.take_zero]

theorem countP_take {p : α → Bool} {a b : List α} (ha : ∀ v ∈ a, p v = true) (hb : ∀ v ∈ b, p v = false) (n : Nat) :
    ((a ++ b).take n).countP p = min n a.length ∧ ((b ++ a).take n).countP p = min (n - b.length) a.length := by
  have hall (k : Nat) : (a.take k).countP p = min k a.length := by
    rw [List.countP_eq_length.mpr fun v hv => ha v (List.mem_of_mem_take hv), List.length_take]
  have hnone (k : Nat) : (b.take k).countP p = 0 := List.countP_eq_zero.mpr fun v hv => by
    rw [hb v (List.mem_of_mem_take hv)]
    exact Bool.false_ne_true
  rw [List.take_append, List.take_append, List.countP_append, List.countP_append, hall, hall, hnone, hnone]
  omega

/-! ## Loops along a sorted list -/

def scan (step : σ → κ → σ × τ) : σ → List κ → List τ
  | _, [] => []
  | s, k :: rest => (step s k).2 :: scan step (step s k).1 rest

theorem scan_eq_map {step : σ → κ → σ × τ} (hstep : ∀ s k, step (step s k).1 k = step s k) (s : σ) (h : keys.Pairwise (· ≤ ·)) :
    ∃ f : κ → τ, scan step s keys = keys.map f := by
  induction keys generalizing s with
  | nil => exact ⟨fun k => (step s k).2, rfl⟩
  | cons k rest ih =>
    obtain ⟨hk, hrest⟩ := List.pairwise_cons.mp h
    obtain ⟨g, hg⟩ := ih (step s k).1 hrest
    refine ⟨fun x => if x = k then (step s k).2 else g x, ?_⟩
    rw [scan, List.map_cons, if_pos rfl, hg]
    congr 1
    refine List.map_congr_left fun x hx => ?_
    by_cases hxk : x = k
    · subst hxk
      rw [if_pos rfl]
      -- the key again: the rest begins with it
      cases rest with
      | nil => cases hx
      | cons y rest =>
        have hy : y = x := by
          rcases List.mem_cons.mp hx with heq | hin
          · exact heq.symm
          · exact le_antisymm ((List.pairwise_cons.mp hrest).1 x hin) (hk y List.mem_cons_self)
        subst hy
        rw [scan, List.map_cons, List.cons.injEq] at hg
        rw [← hg.1, hstep]
    · rw [if_neg hxk]

def rankStep (s : Option κ × Nat) (k : κ) : (Option κ × Nat) × Nat :=
  if s.1 = some k then (s, s.2) else ((some k, s.2 + 1), s.2 + 1)

def ranks (keys : List κ) : List Nat := scan rankStep (none, 0) keys

def denseRank (keys : List κ) (k : κ) : Nat := (keys.filter fun x => decide (x ≤ k)).dedup.length

theorem length_dedup_cons (k : κ) (l : List κ) : (k :: l).dedup.length = (l.filter fun x => decide (x ≠ k)).dedup.length + 1 := by
  have herase : (l.filter fun x => decide (x ≠ k)).toFinset = l.toFinset.erase k := by
    ext x
    simp [and_comm]
  rw [← List.card_toFinset, ← List.card_toFinset, herase, List.toFinset_cons]
  by_cases hk : k ∈ l.toFinset
  · rw [Finset.insert_eq_of_mem hk, Finset.card_erase_add_one hk]
  · rw [Finset.card_insert_of_notMem hk, Finset.erase_eq_of_notMem hk]

theorem scan_rankStep (h : keys.Pairwise (· ≤ ·)) (prev : Option κ) (hprev : ∀ p ∈ prev, ∀ k ∈ keys, p ≤ k) (n : Nat) :
    scan rankStep (prev, n) keys = keys.map fun k => n + (keys.filter fun x => decide (x ≤ k) && decide (some x ≠ prev)).dedup.length := by
  induction keys generalizing prev n with
  | nil => rfl
  | cons k rest ih =>
    obtain ⟨hk, hrest⟩ := List.pairwise_cons.mp h
    by_cases hsame : prev = some k
    · subst hsame
      have hstep : rankStep (some k, n) k = ((some k, n), n) := if_pos rfl
      have hnone : ((k :: rest).filter fun x => decide (x ≤ k) && decide (some x ≠ some k)) = [] := by
        refine List.filter_eq_nil_iff.mpr fun x hx hin => ?_
        simp only [Bool.and_eq_true, decide_eq_true_eq, ne_eq, Option.some.injEq] at hin
        exact hin.2 (le_antisymm hin.1 (hprev k rfl x hx))
      rw [scan, hstep, ih hrest (some k) (fun p hp x hx => hprev p hp x (List.mem_cons_of_mem k hx)) n, List.map_cons, hnone]
      congr 1
      refine List.map_congr_left fun x _ => ?_
      simp
    · have hstep : rankStep (prev, n) k = ((some k, n + 1), n + 1) := if_neg hsame
      have hnew : some k ≠ prev := fun h => hsame h.symm
      rw [scan, hstep, ih hrest (some k) (fun p hp x hx => Option.some.inj hp ▸ hk x hx) (n + 1), List.map_cons]
      congr 1
      · have hnone : ((rest.filter fun x => decide (x ≤ k) && decide (some x ≠ prev)).filter fun x => decide (x ≠ k)) = [] := by
          refine List.filter_eq_nil_iff.mpr fun x hx hne => ?_
          obtain ⟨hin, hle⟩ := List.mem_filter.mp hx
          simp only [Bool.and_eq_true, decide_eq_true_eq] at hle hne
          exact hne (le_antisymm hle.1 (hk x hin))
        rw [List.filter_cons, if_pos (by simp [hnew]), length_dedup_cons, hnone]
        rfl
      · refine List.map_congr_left fun y hy => ?_
        have hsplit : ((rest.filter fun x => decide (x ≤ y) && decide (some x ≠ prev)).filter fun x => decide (x ≠ k)) =
            rest.filter fun x => decide (x ≤ y) && decide (some x ≠ some k) := by
          rw [List.filter_filter]
          refine List.filter_congr fun x hx => ?_
          by_cases hxk : x = k
          · simp [hxk]
          · have hother : some x ≠ prev := fun h => hxk (le_antisymm (hprev x h.symm k List.mem_cons_self) (hk x hx))
            simp [hxk, hother]
        rw [List.filter_cons, if_pos (by simp [hnew, hk y hy]), length_dedup_cons, hsplit]
        omega

theorem ranks_eq (h : keys.Pairwise (· ≤ ·)) : ranks keys = keys.map (denseRank keys) := by
  rw [ranks, scan_rankStep h none (by simp) 0]
  refine List.map_congr_left fun k _ => ?_
  simp [denseRank]

theorem denseRank_lt (hk : k ∈ keys) (h : j < k) : denseRank keys j < denseRank keys k := by
  rw [denseRank, denseRank, ← List.card_toFinset, ← List.card_toFinset]
  apply Finset.card_lt_card
  refine Finset.ssubset_iff_of_subset (fun x hx => ?_) |>.mpr ⟨k, ?_, ?_⟩
  · simp only [List.mem_toFinset, List.mem_filter, decide_eq_true_eq] at hx ⊢
    exact ⟨hx.1, le_trans hx.2 (le_of_lt h)⟩
  · simp [hk]
  · simp [not_le_of_gt h]

theorem denseRank_inj (hj : j ∈ keys) (hk : k ∈ keys) : denseRank keys j = denseRank keys k ↔ j = k := by
  refine ⟨fun h => ?_, fun h => by rw [h]⟩
  rcases lt_trichotomy j k with hlt | heq | hgt
  · exact absurd h (ne_of_lt (denseRank_lt hk hlt))
  · exact heq
  · exact absurd h (ne_of_gt (denseRank_lt hj hgt))

/-! ## A list collected under its keys -/

def collect (key : α → κ) (f : Option β → α → β) (l : List α) : κ → Option β :=
  l.foldl (fun m a => Function.update m (key a) (some (f (m (key a)) a))) fun _ => none

def sortedKeys (key : α → κ) (l : List α) : List κ := (l.map key).dedup.insertionSort (· ≤ ·)

def intoValues (key : α → κ) (f : Option β → α → β) (l : List α) : List β := (sortedKeys key l).filterMap (collect key f l)

theorem collect_eq (key : α → κ) (f : Option β → α → β) (l : List α) (k : κ) :
    collect key f l k = (l.filter fun a => decide (key a = k)).foldl (fun m a => some (f m a)) none := by
  have go (m : κ → Option β) : l.foldl (fun m a => Function.update m (key a) (some (f (m (key a)) a))) m k =
      (l.filter fun a => decide (key a = k)).foldl (fun m a => some (f m a)) (m k) := by
    induction l generalizing m with
    | nil => rfl
    | cons a l ih =>
      rw [List.foldl_cons, ih]
      by_cases hk : key a = k
      · subst hk
        simp
      · rw [Function.update_of_ne (Ne.symm hk), List.filter_cons_of_neg (by simpa using hk)]
  exact go _

theorem mem_sortedKeys {key : α → κ} : k ∈ sortedKeys key l ↔ ∃ a ∈ l, key a = k := by
  simp [sortedKeys]

theorem sortedKeys_nodup (key : α → κ) (l : List α) : (sortedKeys key l).Nodup :=
  (List.perm_insertionSort _ _).nodup_iff.mpr (List.nodup_dedup _)

theorem sortedKeys_perm {key : α → κ} (h : l.Perm l') : sortedKeys key l = sortedKeys key l' := by
  have hperm : (sortedKeys key l).Perm (sortedKeys key l') :=
    (List.perm_ext_iff_of_nodup (sortedKeys_nodup key l) (sortedKeys_nodup key l')).mpr fun k => by
      rw [mem_sortedKeys, mem_sortedKeys]
      simp only [h.mem_iff]
  exact hperm.eq_of_pairwise (fun _ _ _ _ hab hba => le_antisymm hab hba) (List.pairwise_insertionSort _ _) (List.pairwise_insertionSort _ _)

end RankedLists
