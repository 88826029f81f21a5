import OverlayEngine.AppLayer.JudgeRankKept

/-!
# Whether the hops' selection reads the order of its candidates

An outpoint keeps its oldest markers and every kept one is a row, so two markers
of one age show their order in two ways: where the quota of an outpoint's rows
ends between them, and where no later sort tells them apart.
-/

namespace OverlayEngine.JudgeRank

open RankedLists

variable {ρ : Type}

/-! ## An outpoint's group -/

def hopsInEra (candidates : List (Hop ρ)) (era : Option Int) : List (Hop ρ) := candidates.filter fun v => !beforeEra v.stamp era

def ofHop (candidates : List (Hop ρ)) (era : Option Int) (k : OutputKey) : List (Hop ρ) := (hopsInEra candidates era).filter fun v => decide (v.key = k)

def keptOf (group : List (Hop ρ)) : List (Hop ρ) := (sortOn Hop.age group).take rowsPerOutpoint

def firstOf (group : List (Hop ρ)) : Option Int := least ((sortOn Hop.age group).filterMap Hop.createdAt)

def annotate (now : Int) (group : List (Hop ρ)) (v : Hop ρ) : Marked ρ where
  hop := v
  firstMarkerAt := firstOf group
  outpointMarkerRank := (greatest ((keptOf group).map Hop.rank)).getD 0
  outpointPaidTier := (least ((keptOf group).map Hop.paidTier)).getD 0
  freshUnknown := if v.unknownHop = some 1 ∧ now - unknownHopMaxAgeSecs ≤ (firstOf group).getD 0 then 1 else 0

theorem mark_eq (now : Int) (group : List (Hop ρ)) : mark now group = (keptOf group).map (annotate now group) := rfl

def marks (candidates : List (Hop ρ)) (era : Option Int) (now : Int) : List (Marked ρ) := (groups candidates era).flatMap (mark now)

def earlier (group : List (Hop ρ)) (age : Lex (Num × Num)) : Nat := group.countP fun v => decide (v.age < age)
def tied (group : List (Hop ρ)) (age : Lex (Num × Num)) : List (Hop ρ) := group.filter fun v => decide (v.age = age)

variable {candidates candidates' : List (Hop ρ)} {era : Option Int} {now : Int} {x y : Hop ρ} {group group' : List (Hop ρ)}

variable {k : OutputKey}

theorem mem_ofHop : x ∈ ofHop candidates era k ↔ x ∈ hopsInEra candidates era ∧ x.key = k := by
  rw [ofHop, List.mem_filter, decide_eq_true_eq]

theorem ofHop_perm (h : candidates.Perm candidates') (k : OutputKey) : (ofHop candidates era k).Perm (ofHop candidates' era k) := (h.filter _).filter _

theorem push_all (l : List (Hop ρ)) (before : List (Hop ρ)) :
    l.foldl (fun m v => some (m.getD [] ++ [v])) (some before) = some (before ++ l) := by
  induction l generalizing before with
  | nil => simp
  | cons v rest ih =>
    rw [List.foldl_cons, Option.getD_some, ih]
    simp

theorem groups_eq (candidates : List (Hop ρ)) (era : Option Int) :
    groups candidates era = (sortedKeys Hop.key (hopsInEra candidates era)).map (ofHop candidates era) := by
  rw [groups, intoValues, ← hopsInEra, ← List.filterMap_eq_map]
  refine List.filterMap_congr fun k hk => ?_
  obtain ⟨v, hv, hkey⟩ := mem_sortedKeys.mp hk
  have hmem : v ∈ ofHop candidates era k := mem_ofHop.mpr ⟨hv, hkey⟩
  rw [collect_eq, ← ofHop, Function.comp_apply]
  cases hclass : ofHop candidates era k with
  | nil => rw [hclass] at hmem; cases hmem
  | cons w rest =>
    rw [List.foldl_cons]
    exact push_all rest [w]

theorem keptOf_mem (h : x ∈ keptOf group) : x ∈ group := (perm_sortOn _ _).mem_iff.mp (List.mem_of_mem_take h)

theorem marks_eq (candidates : List (Hop ρ)) (era : Option Int) (now : Int) :
    marks candidates era now = (sortedKeys Hop.key (hopsInEra candidates era)).flatMap fun k => mark now (ofHop candidates era k) := by
  rw [marks, groups_eq, List.flatMap_map]

theorem mem_mark {m : Marked ρ} (h : m ∈ mark now (ofHop candidates era k)) :
    m.hop.key = k ∧ m.hop ∈ keptOf (ofHop candidates era k) ∧ m = annotate now (ofHop candidates era k) m.hop := by
  rw [mark_eq] at h
  obtain ⟨v, hv, rfl⟩ := List.mem_map.mp h
  exact ⟨(mem_ofHop.mp (keptOf_mem hv)).2, hv, rfl⟩

theorem mem_marks {m : Marked ρ} (h : m ∈ marks candidates era now) :
    m.hop ∈ keptOf (ofHop candidates era m.hop.key) ∧ m = annotate now (ofHop candidates era m.hop.key) m.hop := by
  rw [marks_eq] at h
  obtain ⟨k, -, hm⟩ := List.mem_flatMap.mp h
  obtain ⟨hkey, hkept, hann⟩ := mem_mark hm
  subst hkey
  exact ⟨hkept, hann⟩

theorem marks_filter {p : Marked ρ → Bool} (hp : ∀ m, p m = true → m.hop.key = k) :
    (marks candidates era now).filter p = (mark now (ofHop candidates era k)).filter p := by
  rw [marks_eq]
  refine filter_flatMap (sortedKeys_nodup _ _) (fun j _ hj => ?_) fun hk => ?_
  · refine List.filter_eq_nil_iff.mpr fun m hm hpm => hj ?_
    rw [← (mem_mark hm).1, hp m hpm]
  · refine List.filter_eq_nil_iff.mpr fun m hm _ => hk ?_
    have hkept := mem_ofHop.mp (keptOf_mem (mem_mark hm).2.1)
    exact mem_sortedKeys.mpr ⟨m.hop, hkept⟩

/-! ## What a group keeps -/

theorem keptOf_tied (group : List (Hop ρ)) (age : Lex (Num × Num)) :
    (keptOf group).filter (fun v => decide (v.age = age)) = (tied group age).take (rowsPerOutpoint - earlier group age) := by
  have hcount : (sortOn Hop.age group).countP (fun v => decide (v.age < age)) = earlier group age := (perm_sortOn _ _).countP_eq _
  have htied : (sortOn Hop.age group).filter (fun v => decide (v.age = age)) = tied group age := filter_sortOn fun a _ b _ ha hb =>
    (of_decide_eq_true ha).trans (of_decide_eq_true hb).symm
  rw [keptOf, filter_take (sorted_sortOn _ _), hcount, htied]

theorem earlier_perm (h : group.Perm group') (age : Lex (Num × Num)) : earlier group age = earlier group' age := h.countP_eq _

theorem tied_perm (h : group.Perm group') (age : Lex (Num × Num)) : (tied group age).Perm (tied group' age) := h.filter _

theorem earlier_lt (h : x ∈ keptOf group) : earlier group x.age < rowsPerOutpoint := by
  have hmem : x ∈ (keptOf group).filter fun v => decide (v.age = x.age) := List.mem_filter.mpr ⟨h, decide_eq_true rfl⟩
  rw [keptOf_tied] at hmem
  by_contra hge
  rw [Nat.sub_eq_zero_of_le (Nat.le_of_not_lt hge), List.take_zero] at hmem
  cases hmem

theorem least_perm {l l' : List Int} (h : l.Perm l') : least l = least l' := by
  have hsame : l.insertionSort (· ≤ ·) = l'.insertionSort (· ≤ ·) :=
    ((List.perm_insertionSort _ _).trans (h.trans (List.perm_insertionSort _ _).symm)).eq_of_pairwise
      (fun _ _ _ _ hab hba => le_antisymm hab hba) (List.pairwise_insertionSort _ _) (List.pairwise_insertionSort _ _)
  rw [least, least, hsame]

theorem greatest_perm {l l' : List Int} (h : l.Perm l') : greatest l = greatest l' := by
  have hsame : l.insertionSort (· ≥ ·) = l'.insertionSort (· ≥ ·) :=
    ((List.perm_insertionSort _ _).trans (h.trans (List.perm_insertionSort _ _).symm)).eq_of_pairwise
      (fun _ _ _ _ hab hba => le_antisymm hba hab) (List.pairwise_insertionSort _ _) (List.pairwise_insertionSort _ _)
  rw [greatest, greatest, hsame]

theorem firstOf_perm (h : group.Perm group') : firstOf group = firstOf group' :=
  least_perm (((perm_sortOn _ _).trans (h.trans (perm_sortOn _ _).symm)).filterMap _)

theorem annotate_perm (h : group.Perm group') (hkept : (keptOf group).Perm (keptOf group')) (v : Hop ρ) :
    annotate now group v = annotate now group' v := by
  rw [annotate, annotate, firstOf_perm h, greatest_perm (hkept.map _), least_perm (hkept.map _)]
def Hop.shown (first : Option Int) (v : Hop ρ) : Option Int × Int × Option Int × Option Int × Int :=
  (v.unknownHop, v.paidTier, v.hopSatsOnChain, v.potCreatedAt <|> first, v.rank)

def DecidedHops (candidates : List (Hop ρ)) (era : Option Int) : Prop :=
  ∀ x ∈ hopsInEra candidates era, ∀ y ∈ hopsInEra candidates era, x.key = y.key → x.age = y.age →
    earlier (ofHop candidates era x.key) x.age < rowsPerOutpoint →
    (rowsPerOutpoint < earlier (ofHop candidates era x.key) x.age + (tied (ofHop candidates era x.key) x.age).length ∨
      x.shown (firstOf (ofHop candidates era x.key)) = y.shown (firstOf (ofHop candidates era x.key))) → x = y

theorem mem_tied {age : Lex (Num × Num)} :
    x ∈ tied (ofHop candidates era k) age ↔ x ∈ hopsInEra candidates era ∧ x.key = k ∧ x.age = age := by
  rw [tied, List.mem_filter, mem_ofHop, decide_eq_true_eq, and_assoc]

theorem keptOf_perm (h : DecidedHops candidates era) (hperm : candidates.Perm candidates') (k : OutputKey) :
    (keptOf (ofHop candidates era k)).Perm (keptOf (ofHop candidates' era k)) := by
  have hgroup : (ofHop candidates era k).Perm (ofHop candidates' era k) := ofHop_perm hperm k
  refine perm_of_filter Hop.age fun age => ?_
  rw [keptOf_tied, keptOf_tied, earlier_perm hgroup]
  refine take_perm (tied_perm hgroup age) fun hroom hends x hx y hy => ?_
  obtain ⟨hxera, hxkey, hxage⟩ := mem_tied.mp hx
  obtain ⟨hyera, hykey, hyage⟩ := mem_tied.mp hy
  subst hxkey hxage
  rw [← earlier_perm hgroup] at hroom hends
  exact h x hxera y hyera hykey.symm hyage.symm (by omega) (.inl (by omega))

theorem marks_perm (h : DecidedHops candidates era) (hperm : candidates.Perm candidates') :
    (marks candidates era now).Perm (marks candidates' era now) := by
  have hkeys : sortedKeys Hop.key (hopsInEra candidates era) = sortedKeys Hop.key (hopsInEra candidates' era) := sortedKeys_perm (hperm.filter _)
  rw [marks_eq, marks_eq, ← hkeys]
  refine List.Perm.flatMap_left _ fun k _ => ?_
  have hkept := keptOf_perm h hperm k
  rw [mark_eq, mark_eq, List.map_congr_left fun v _ => annotate_perm (ofHop_perm hperm k) hkept v]
  exact hkept.map _

theorem annotate_tied (hkey : x.key = y.key) (hage : x.age = y.age) (hshown : x.shown (firstOf group) = y.shown (firstOf group)) :
    (annotate now group x).place = (annotate now group y).place ∧ (∀ tier, hopOrder (annotate now group x, tier) = hopOrder (annotate now group y, tier)) ∧
      ∀ tier, (annotate now group x).service tier = (annotate now group y).service tier := by
  simp only [Hop.shown, Prod.mk.injEq] at hshown
  obtain ⟨hunknown, hpaid, hsats, hpot, hrank⟩ := hshown
  refine ⟨?_, fun tier => ?_, fun tier => ?_⟩
  · simp only [Marked.place, annotate, hunknown, hkey]
  · simp only [hopOrder, Marked.order, annotate, hsats, hpot, hkey]
  · simp only [Marked.service, Marked.order, annotate, hpaid, hsats, hpot, hkey, hrank, hage]

theorem asc_inj {a b : Option Int} (h : asc a = asc b) : a = b := h

theorem key_of_place (hplace : (annotate now group x).place = (annotate now group' y).place) : x.key = y.key := by
  simp only [Marked.place, annotate, toLex_inj, Prod.mk.injEq] at hplace
  exact hplace.2.2

theorem shown_of_service {t u : Int} (hplace : (annotate now group x).place = (annotate now group y).place)
    (hservice : (annotate now group x).service t = (annotate now group y).service u) :
    x.age = y.age ∧ x.shown (firstOf group) = y.shown (firstOf group) := by
  simp only [Marked.place, Marked.service, Marked.order, annotate, toLex_inj, Prod.mk.injEq, OrderDual.toDual_inj, desc] at hplace hservice
  obtain ⟨⟨hunknown, -⟩, -⟩ := hplace
  obtain ⟨⟨-, hpaid, -, hsats, hpot, -⟩, hrank, hage⟩ := hservice
  exact ⟨hage, Prod.ext (asc_inj hunknown) (Prod.ext hpaid (Prod.ext (asc_inj hsats) (Prod.ext (asc_inj hpot) hrank)))⟩

/-! ## The rows of a selection -/

theorem tiers (l : List (Marked ρ)) : ∃ f : Place → Int, scan tierStep {} ((sortOn Marked.place l).map Marked.place) = ((sortOn Marked.place l).map Marked.place).map f :=
  scan_eq_map tierStep_again {} (keys_sorted _ _)

theorem selectHops_perm (h : DecidedHops candidates era) (hperm : candidates'.Perm candidates) : selectHops candidates' era now = selectHops candidates era now := by
  have hmarks : (marks candidates era now).Perm (marks candidates' era now) := marks_perm h hperm.symm
  obtain ⟨f, hf⟩ := tiers (marks candidates era now)
  have hf' := hf
  rw [keys_sortOn hmarks] at hf'
  rw [selectHops_eq hf, selectHops_eq hf']
  refine (servedRows_perm hmarks fun a ha b hb hplace hservice => ?_).symm
  obtain ⟨hakept, ha⟩ := mem_marks ha
  obtain ⟨hbkept, hb⟩ := mem_marks hb
  have hkey : a.hop.key = b.hop.key := by
    rw [ha, hb] at hplace
    exact key_of_place hplace
  rw [← hkey] at hb hbkept
  rw [ha, hb] at hplace hservice
  obtain ⟨hage, hshown⟩ := shown_of_service hplace hservice
  have haera := (mem_ofHop.mp (keptOf_mem hakept)).1
  have hbera := (mem_ofHop.mp (keptOf_mem hbkept)).1
  have hhop : a.hop = b.hop := h a.hop haera b.hop hbera hkey hage (earlier_lt hakept) (.inr hshown)
  rw [ha, hb, hhop]

theorem selectHops_marks (candidates : List (Hop ρ)) (era : Option Int) (now : Int) :
    ((selectHops candidates era now).map HopRow.marked).Perm (marks candidates era now) := by
  obtain ⟨f, hf⟩ := tiers (marks candidates era now)
  rw [selectHops_eq hf]
  exact servedRows_marks

theorem selectHops_quota (candidates : List (Hop ρ)) (era : Option Int) (now : Int) (k : OutputKey) :
    ((selectHops candidates era now).filter fun r => decide (r.marked.hop.key = k)).length ≤ rowsPerOutpoint := by
  have hrows : ((selectHops candidates era now).filter fun r => decide (r.marked.hop.key = k)).length =
      ((marks candidates era now).filter fun m => decide (m.hop.key = k)).length := by
    rw [← ((selectHops_marks candidates era now).filter _).length_eq, List.filter_map, List.length_map]
    rfl
  rw [hrows, marks_filter fun m hm => of_decide_eq_true hm]
  refine le_trans (List.length_filter_le _ _) ?_
  rw [mark_eq, List.length_map, keptOf, List.length_take]
  exact Nat.min_le_left _ _

theorem keptOf_hops (now : Int) (group : List (Hop ρ)) : (mark now group).map Marked.hop = keptOf group := by
  rw [mark_eq, List.map_map]
  exact List.map_id _

/-- The markers a group's sorts do not tell from `x`. -/
def like (first : Option Int) (x v : Hop ρ) : Bool := decide (v.key = x.key ∧ v.age = x.age ∧ v.shown first = x.shown first)

theorem like_iff {first : Option Int} {v : Hop ρ} : like first x v = true ↔ v.key = x.key ∧ v.age = x.age ∧ v.shown first = x.shown first := decide_eq_true_iff

theorem selectHops_like (candidates : List (Hop ρ)) (era : Option Int) (now : Int) (x : Hop ρ) :
    ((selectHops candidates era now).map fun r => r.marked.hop).filter (like (firstOf (ofHop candidates era x.key)) x) =
      (keptOf (ofHop candidates era x.key)).filter (like (firstOf (ofHop candidates era x.key)) x) := by
  obtain ⟨f, hf⟩ := tiers (marks candidates era now)
  have hserved := servedRows_filter (f := f) (l := marks candidates era now) (p := fun m => like (firstOf (ofHop candidates era x.key)) x m.hop) fun a ha b hb hpa hpb => by
    obtain ⟨hakey, haage, hashown⟩ := like_iff.mp hpa
    obtain ⟨hbkey, hbage, hbshown⟩ := like_iff.mp hpb
    have ha := (mem_marks ha).2
    have hb := (mem_marks hb).2
    rw [hakey] at ha
    rw [hbkey] at hb
    rw [ha, hb]
    exact annotate_tied (hakey.trans hbkey.symm) (haage.trans hbage.symm) (hashown.trans hbshown.symm)
  have hrows : selectHops candidates era now = servedRows f (marks candidates era now) := selectHops_eq hf
  rw [marks_filter fun m hm => (like_iff.mp hm).1, ← hrows] at hserved
  have hhops := congrArg (List.map Marked.hop) hserved
  rw [← keptOf_hops now, List.filter_map, List.filter_map]
  rw [List.filter_map, List.map_map] at hhops
  exact hhops

theorem selectHops_first {rest : List (Hop ρ)} (hera : beforeEra x.stamp era = false)
    (hroom : earlier (ofHop (x :: rest) era x.key) x.age < rowsPerOutpoint) :
    ((selectHops (x :: rest) era now).map fun r => r.marked.hop).find? (like (firstOf (ofHop (x :: rest) era x.key)) x) = some x := by
  have hself : like (firstOf (ofHop (x :: rest) era x.key)) x x = true := like_iff.mpr ⟨rfl, rfl, rfl⟩
  have hgroup : ofHop (x :: rest) era x.key = x :: ofHop rest era x.key := by
    have hkey : decide (x.key = x.key) = true := decide_eq_true rfl
    rw [ofHop, hopsInEra, List.filter_cons_of_pos (by simp [hera]), List.filter_cons, if_pos hkey]
    rfl
  have htied : tied (ofHop (x :: rest) era x.key) x.age = x :: tied (ofHop rest era x.key) x.age := by
    have hage : decide (x.age = x.age) = true := decide_eq_true rfl
    rw [hgroup, tied, List.filter_cons, if_pos hage]
    rfl
  have hkept : (keptOf (ofHop (x :: rest) era x.key)).filter (like (firstOf (ofHop (x :: rest) era x.key)) x) =
      ((tied (ofHop (x :: rest) era x.key) x.age).take (rowsPerOutpoint - earlier (ofHop (x :: rest) era x.key) x.age)).filter
        (like (firstOf (ofHop (x :: rest) era x.key)) x) := by
    rw [← keptOf_tied, List.filter_filter]
    refine List.filter_congr fun v _ => ?_
    by_cases hv : like (firstOf (ofHop (x :: rest) era x.key)) x v = true
    · simp [hv, (like_iff.mp hv).2.1]
    · simp [hv]
  obtain ⟨n, hn⟩ : ∃ n, rowsPerOutpoint - earlier (ofHop (x :: rest) era x.key) x.age = n + 1 := ⟨_, (Nat.sub_add_cancel (by omega : 1 ≤ _)).symm⟩
  rw [← List.head?_filter, selectHops_like, hkept, hn, htied, List.take_succ_cons, List.filter_cons_of_pos hself, List.head?_cons]

theorem selectHops_count [DecidableEq ρ] (candidates : List (Hop ρ)) (era : Option Int) (now : Int) (x : Hop ρ) :
    ((selectHops candidates era now).map fun r => r.marked.hop).countP (fun v => decide (v = x)) =
      ((tied (ofHop candidates era x.key) x.age).take (rowsPerOutpoint - earlier (ofHop candidates era x.key) x.age)).countP fun v => decide (v = x) := by
  have hserved := (selectHops_marks candidates era now).countP_eq fun m => decide (m.hop = x)
  have hmarks : (marks candidates era now).countP (fun m => decide (m.hop = x)) = (mark now (ofHop candidates era x.key)).countP fun m => decide (m.hop = x) := by
    rw [List.countP_eq_length_filter, List.countP_eq_length_filter, marks_filter fun m hm => by rw [of_decide_eq_true hm]]
  have hkept : (keptOf (ofHop candidates era x.key)).countP (fun v => decide (v = x)) =
      ((keptOf (ofHop candidates era x.key)).filter fun v => decide (v.age = x.age)).countP fun v => decide (v = x) := by
    rw [List.countP_filter]
    refine List.countP_congr fun v _ => ?_
    by_cases hv : v = x
    · simp [hv]
    · simp [hv]
  rw [← keptOf_tied, ← hkept, ← keptOf_hops now, List.countP_map]
  rw [hmarks, List.countP_map] at hserved
  rw [List.countP_map]
  exact hserved

theorem straddle_shows (h : ∀ candidates' : List (Hop ρ), candidates'.Perm candidates → selectHops candidates' era now = selectHops candidates era now)
    (hx : x ∈ hopsInEra candidates era) (hy : y ∈ hopsInEra candidates era) (hkey : x.key = y.key) (hage : x.age = y.age)
    (hroom : earlier (ofHop candidates era x.key) x.age < rowsPerOutpoint)
    (hends : rowsPerOutpoint < earlier (ofHop candidates era x.key) x.age + (tied (ofHop candidates era x.key) x.age).length) : x = y := by
  classical
  by_contra hne
  have hfirst : ((candidates.filter fun v => decide (v = x)) ++ candidates.filter fun v => !decide (v = x)).Perm candidates := List.filter_append_perm _ _
  have hlast : ((candidates.filter fun v => !decide (v = x)) ++ candidates.filter fun v => decide (v = x)).Perm candidates := List.perm_append_comm.trans hfirst
  have hsame := (h _ hfirst).trans (h _ hlast).symm
  have hcounts := congrArg (fun rows : List (HopRow ρ) => (rows.map fun r => r.marked.hop).countP fun v => decide (v = x)) hsame
  simp only [selectHops_count] at hcounts
  rw [earlier_perm (ofHop_perm hfirst x.key), earlier_perm (ofHop_perm hlast x.key)] at hcounts
  have hsplit (a b : List (Hop ρ)) : tied (ofHop (a ++ b) era x.key) x.age = tied (ofHop a era x.key) x.age ++ tied (ofHop b era x.key) x.age := by
    simp only [tied, ofHop, hopsInEra, List.filter_append]
  have hxs (v : Hop ρ) (hv : v ∈ tied (ofHop (candidates.filter fun v => decide (v = x)) era x.key) x.age) : decide (v = x) = true :=
    (List.mem_filter.mp (List.mem_filter.mp (mem_tied.mp hv).1).1).2
  have hothers (v : Hop ρ) (hv : v ∈ tied (ofHop (candidates.filter fun v => !decide (v = x)) era x.key) x.age) : decide (v = x) = false := by
    simpa using (List.mem_filter.mp (List.mem_filter.mp (mem_tied.mp hv).1).1).2
  obtain ⟨hbefore, hafter⟩ := countP_take hxs hothers (rowsPerOutpoint - earlier (ofHop candidates era x.key) x.age)
  rw [hsplit, hsplit, hbefore, hafter] at hcounts
  have hgroup : (ofHop _ era x.key).Perm (ofHop candidates era x.key) := ofHop_perm hfirst x.key
  have hlength := (tied_perm hgroup x.age).length_eq
  rw [hsplit, List.length_append] at hlength
  obtain ⟨hxmem, hxera⟩ := List.mem_filter.mp hx
  obtain ⟨hymem, hyera⟩ := List.mem_filter.mp hy
  have hxin : x ∈ tied (ofHop (candidates.filter fun v => decide (v = x)) era x.key) x.age :=
    mem_tied.mpr ⟨List.mem_filter.mpr ⟨List.mem_filter.mpr ⟨hxmem, decide_eq_true rfl⟩, hxera⟩, rfl, rfl⟩
  have hyin : y ∈ tied (ofHop (candidates.filter fun v => !decide (v = x)) era x.key) x.age :=
    mem_tied.mpr ⟨List.mem_filter.mpr ⟨List.mem_filter.mpr ⟨hymem, by simpa using Ne.symm hne⟩, hyera⟩, hkey.symm, hage.symm⟩
  have hone := List.length_pos_of_mem hxin
  have hother := List.length_pos_of_mem hyin
  omega

theorem selectHops_perm_iff (candidates : List (Hop ρ)) (era : Option Int) (now : Int) :
    (∀ candidates' : List (Hop ρ), candidates'.Perm candidates → selectHops candidates' era now = selectHops candidates era now) ↔
      DecidedHops candidates era := by
  constructor
  · intro h x hx y hy hkey hage hroom htie
    rcases htie with hends | hshown
    · exact straddle_shows h hx hy hkey hage hroom hends
    · have hserved (z : Hop ρ) (hz : z ∈ hopsInEra candidates era) (hzkey : z.key = x.key) (hzage : z.age = x.age) :
          ((selectHops candidates era now).map fun r => r.marked.hop).find? (like (firstOf (ofHop candidates era x.key)) z) = some z := by
        obtain ⟨hzmem, hzera⟩ := List.mem_filter.mp hz
        obtain ⟨front, back, hsplit⟩ := List.append_of_mem hzmem
        have hperm : (z :: (front ++ back)).Perm candidates := hsplit ▸ List.perm_middle.symm
        have hgroup : (ofHop (z :: (front ++ back)) era z.key).Perm (ofHop candidates era x.key) := hzkey ▸ ofHop_perm hperm z.key
        have hzroom : earlier (ofHop (z :: (front ++ back)) era z.key) z.age < rowsPerOutpoint := by
          rw [earlier_perm hgroup, hzage]
          exact hroom
        have hfirst : ((selectHops (z :: (front ++ back)) era now).map fun r => r.marked.hop).find? _ = some z :=
          selectHops_first (by simpa using hzera) hzroom
        rw [h _ hperm, firstOf_perm hgroup] at hfirst
        exact hfirst
      have hlike : like (firstOf (ofHop candidates era x.key)) x = like (firstOf (ofHop candidates era x.key)) y := by
        funext v
        rw [like, like, hkey, hage, ← hkey, hshown]
      have hx' := hserved x hx rfl rfl
      rw [hlike, hserved y hy hkey.symm hage.symm] at hx'
      exact (Option.some.inj hx').symm
  · exact fun h candidates' hperm => selectHops_perm h hperm

/-- The judge's rows read no order just where no two candidates tie for what is kept; what they are is what they are to be in every case. -/
theorem rows_of_any_order {σ : Type} (parties : List (Party σ)) (hops : List (Hop ρ)) (era : Option Int) (quota : Nat) (now : Int) :
    ((∀ parties' : List (Party σ), parties'.Perm parties → select parties' era quota = select parties era quota) ↔ Decided parties era) ∧
      Selected parties era quota (select parties era quota) ∧
      ((∀ hops' : List (Hop ρ), hops'.Perm hops → selectHops hops' era now = selectHops hops era now) ↔ DecidedHops hops era) ∧
      ∀ k, ((selectHops hops era now).filter fun r => decide (r.marked.hop.key = k)).length ≤ rowsPerOutpoint :=
  ⟨select_perm_iff parties era quota, select_selected parties era quota, selectHops_perm_iff hops era now, selectHops_quota hops era now⟩

def twoTables : List (Party String) :=
  [{ potTxid := "pot", potVout := 0, sigValid := some 1, createdAt := some 5, markerRowid := some 7, rest := "potparty" },
   { potTxid := "pot", potVout := 0, sigValid := some 1, createdAt := some 5, markerRowid := some 7, rest := "hopparty" }]

theorem first_read_wins : twoTables.reverse.Perm twoTables ∧ select twoTables.reverse none 10 ≠ select twoTables none 10 :=
  ⟨List.reverse_perm twoTables, by decide⟩

end OverlayEngine.JudgeRank
