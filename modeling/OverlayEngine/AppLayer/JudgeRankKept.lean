import OverlayEngine.AppLayer.JudgeRank

/-!
# Whether the judge's selection reads the order of its candidates

Two candidates of one output may tie in all that a selection compares: the rowids
of two tables may coincide. The condition says which ties show; under it every
order of the candidates selects the same rows.
-/

namespace OverlayEngine.JudgeRank

open RankedLists

/-! ## A pot's representative -/

section
variable {ρ : Type}

def Party.rating (v : Party ρ) : Lex (Intᵒᵈ × Lex (Num × Num)) := toLex (OrderDual.toDual v.rank, v.age)

theorem Party.replaces_iff {v old : Party ρ} : v.replaces old = true ↔ v.rating < old.rating := by
  rw [rating, rating, Prod.Lex.toLex_lt_toLex, replaces, Bool.or_eq_true, Bool.and_eq_true, decide_eq_true_eq, decide_eq_true_eq, decide_eq_true_eq]
  exact Iff.rfl

def best (l : List (Party ρ)) : Option (Party ρ) := l.foldl (fun m v => some (choose m v)) none

theorem foldl_choose (l : List (Party ρ)) (old : Party ρ) :
    ∃ x, l.foldl (fun m v => some (choose m v)) (some old) = some x ∧ (x = old ∨ x ∈ l) ∧ x.rating ≤ old.rating ∧ (∀ y ∈ l, x.rating ≤ y.rating) ∧
      ((∀ y ∈ l, old.rating ≤ y.rating) → x = old) := by
  induction l generalizing old with
  | nil => exact ⟨old, rfl, .inl rfl, le_rfl, List.forall_mem_nil _, fun _ => rfl⟩
  | cons v rest ih =>
    rw [List.foldl_cons]
    by_cases hreplaces : v.replaces old = true
    · have hlt := Party.replaces_iff.mp hreplaces
      obtain ⟨x, hx, hmem, hle, hall, -⟩ := ih v
      have hchoose : choose (some old) v = v := if_pos hreplaces
      rw [hchoose]
      refine ⟨x, hx, .inr ?_, le_trans hle (le_of_lt hlt), fun y hy => ?_, fun hold => absurd (hold v List.mem_cons_self) (not_le_of_gt hlt)⟩
      · exact hmem.elim (fun heq => heq ▸ List.mem_cons_self) (List.mem_cons_of_mem v)
      · rcases List.mem_cons.mp hy with rfl | hy
        · exact hle
        · exact hall y hy
    · have hle := le_of_not_gt fun hlt => hreplaces (Party.replaces_iff.mpr hlt)
      obtain ⟨x, hx, hmem, hxold, hall, hkeeps⟩ := ih old
      have hchoose : choose (some old) v = old := if_neg hreplaces
      rw [hchoose]
      refine ⟨x, hx, hmem.imp_right (List.mem_cons_of_mem v), hxold, fun y hy => ?_, fun hold => hkeeps fun y hy => hold y (List.mem_cons_of_mem v hy)⟩
      rcases List.mem_cons.mp hy with rfl | hy
      · exact le_trans hxold hle
      · exact hall y hy

theorem best_eq_some {l : List (Party ρ)} {x : Party ρ} (h : best l = some x) : x ∈ l ∧ ∀ y ∈ l, x.rating ≤ y.rating := by
  cases l with
  | nil => cases h
  | cons v rest =>
    obtain ⟨x', hx', hmem, hle, hall, -⟩ := foldl_choose rest v
    have hsame : x' = x := Option.some.inj (hx'.symm.trans h)
    subst hsame
    refine ⟨hmem.elim (fun heq => heq ▸ List.mem_cons_self) (List.mem_cons_of_mem v), fun y hy => ?_⟩
    rcases List.mem_cons.mp hy with rfl | hy
    · exact hle
    · exact hall y hy

theorem best_isSome {l : List (Party ρ)} (h : l ≠ []) : ∃ x, best l = some x := by
  cases l with
  | nil => exact absurd rfl h
  | cons v rest =>
    obtain ⟨x, hx, -⟩ := foldl_choose rest v
    exact ⟨x, hx⟩

theorem best_cons {l : List (Party ρ)} {x : Party ρ} (h : ∀ y ∈ l, x.rating ≤ y.rating) : best (x :: l) = some x := by
  obtain ⟨x', hx', -, -, -, hkeeps⟩ := foldl_choose l x
  rw [hkeeps h] at hx'
  exact hx'

/-! ## The representatives -/

def inEra (candidates : List (Party ρ)) (era : Option Int) : List (Party ρ) := candidates.filter fun v => !beforeEra v.stamp era

def ofPot (candidates : List (Party ρ)) (era : Option Int) (k : OutputKey) : List (Party ρ) := (inEra candidates era).filter fun v => decide (v.key = k)

variable {candidates candidates' : List (Party ρ)} {era : Option Int} {x y : Party ρ}

theorem mem_ofPot {k : OutputKey} : x ∈ ofPot candidates era k ↔ x ∈ inEra candidates era ∧ x.key = k := by
  rw [ofPot, List.mem_filter, decide_eq_true_eq]

theorem collect_choose (k : OutputKey) : collect Party.key choose (inEra candidates era) k = best (ofPot candidates era k) := collect_eq _ _ _ _

theorem pots_eq (candidates : List (Party ρ)) (era : Option Int) :
    pots candidates era = (sortedKeys Party.key (inEra candidates era)).filterMap fun k => best (ofPot candidates era k) := by
  simp only [← collect_choose]
  rfl

theorem mem_pots : x ∈ pots candidates era ↔ best (ofPot candidates era x.key) = some x := by
  rw [pots_eq, List.mem_filterMap]
  constructor
  · rintro ⟨k, -, hk⟩
    have hkey := (mem_ofPot.mp (best_eq_some hk).1).2
    rwa [hkey]
  · intro h
    exact ⟨x.key, mem_sortedKeys.mpr ⟨x, (mem_ofPot.mp (best_eq_some h).1).1, rfl⟩, h⟩

theorem pots_congr (hperm : candidates.Perm candidates') (h : ∀ k, best (ofPot candidates era k) = best (ofPot candidates' era k)) :
    pots candidates era = pots candidates' era := by
  have hera : (inEra candidates era).Perm (inEra candidates' era) := hperm.filter _
  have hkeys : sortedKeys Party.key (inEra candidates era) = sortedKeys Party.key (inEra candidates' era) := sortedKeys_perm hera
  have hcollect : collect Party.key choose (inEra candidates era) = collect Party.key choose (inEra candidates' era) := by
    funext k
    rw [collect_choose, collect_choose, h]
  rw [pots, pots, intoValues, intoValues, ← inEra, ← inEra, hkeys, hcollect]

/-! ## The rows selected -/

theorem tiered_parties (quota unknown : Nat) (l : List (Party ρ)) : (tiered quota unknown l).map Prod.fst = l := by
  induction l generalizing unknown with
  | nil => rfl
  | cons v rest ih =>
    rw [tiered]
    split <;> rw [List.map_cons, ih]

theorem tiered_quota (quota unknown : Nat) (l : List (Party ρ)) :
    ((tiered quota unknown l).filter fun r => decide (r.1.unknownPot = some 1) && decide (r.2 = 0)).length ≤ quota - unknown := by
  induction l generalizing unknown with
  | nil => exact Nat.zero_le _
  | cons v rest ih =>
    have hrest := ih (unknown + 1)
    have hsame := ih unknown
    rw [tiered]
    by_cases hunknown : v.unknownPot = some 1
    · rw [if_pos hunknown, List.filter_cons]
      by_cases hquota : quota < unknown + 1
      · simp [hquota]
        omega
      · simp [hquota, hunknown]
        omega
    · rw [if_neg hunknown, List.filter_cons]
      simpa [hunknown] using hsame

def Ranked.order (r : Ranked ρ) : Lex (Intᵒᵈ × Lex (Int × Lex (Numᵒᵈ × Lex (Numᵒᵈ × Numᵒᵈ)))) := r.party.order r.tier

def tierOrder (r : Party ρ × Int) : Lex (Intᵒᵈ × Lex (Int × Lex (Numᵒᵈ × Lex (Numᵒᵈ × Numᵒᵈ)))) := r.1.order r.2

def tieredRows (pots : List (Party ρ)) (quota : Nat) : List (Party ρ × Int) := sortOn tierOrder (tiered quota 0 (sortOn Party.recency pots))

theorem select_eq (candidates : List (Party ρ)) (era : Option Int) (quota : Nat) :
    select candidates era quota = (tieredRows (pots candidates era) quota).map fun r =>
      { party := r.1, tier := r.2, potBestSigRank := r.1.rank,
        finalRank := denseRank ((tieredRows (pots candidates era) quota).map tierOrder) (tierOrder r) } := by
  have hranks : ranks ((tieredRows (pots candidates era) quota).map tierOrder) =
      ((tieredRows (pots candidates era) quota).map tierOrder).map (denseRank ((tieredRows (pots candidates era) quota).map tierOrder)) :=
    ranks_eq (keys_sorted _ _)
  have hzip : select candidates era quota = (tieredRows (pots candidates era) quota).zipWith
      (fun r n => ({ party := r.1, tier := r.2, potBestSigRank := r.1.rank, finalRank := n } : Ranked ρ))
      (ranks ((tieredRows (pots candidates era) quota).map tierOrder)) := rfl
  rw [hzip, hranks, List.map_map, List.zipWith_map_right, List.zipWith_self]
  rfl

theorem select_parties (candidates : List (Party ρ)) (era : Option Int) (quota : Nat) :
    ((select candidates era quota).map Ranked.party).Perm (pots candidates era) := by
  have hrows : (select candidates era quota).map Ranked.party = (tieredRows (pots candidates era) quota).map Prod.fst := by
    rw [select_eq, List.map_map]
    rfl
  rw [hrows]
  refine ((perm_sortOn _ _).map Prod.fst).trans ?_
  rw [tiered_parties]
  exact perm_sortOn _ _

theorem select_orders (candidates : List (Party ρ)) (era : Option Int) (quota : Nat) :
    (select candidates era quota).map Ranked.order = (tieredRows (pots candidates era) quota).map tierOrder := by
  rw [select_eq, List.map_map]
  rfl

theorem mem_select {quota : Nat} {r : Ranked ρ} (h : r ∈ select candidates era quota) : r.party ∈ pots candidates era :=
  (select_parties candidates era quota).subset (List.mem_map_of_mem h)

structure Selected (candidates : List (Party ρ)) (era : Option Int) (quota : Nat) (rows : List (Ranked ρ)) : Prop where
  /-- A row is a candidate of the era, the best-ranked of its pot and the oldest of these. -/
  chosen : ∀ r ∈ rows, r.party ∈ inEra candidates era ∧ ∀ y ∈ inEra candidates era, y.key = r.party.key → r.party.rating ≤ y.rating
  /-- A pot that has a candidate of the era has one row. -/
  every : ∀ y ∈ inEra candidates era, ∃ r ∈ rows, r.party.key = y.key
  once : (rows.map fun r => r.party.key).Nodup
  quota : (rows.filter fun r => decide (r.party.unknownPot = some 1) && decide (r.tier = 0)).length ≤ quota
  /-- A rank counts the orders up to its row's own. -/
  dense : ∀ r ∈ rows, r.finalRank = denseRank (rows.map Ranked.order) r.order
  ranked : ∀ r ∈ rows, ∀ s ∈ rows, r.finalRank = s.finalRank ↔ r.order = s.order

theorem pots_nodup (candidates : List (Party ρ)) (era : Option Int) : ((pots candidates era).map Party.key).Nodup := by
  rw [pots_eq]
  refine List.pairwise_map.mpr (List.Pairwise.filterMap _ ?_ (sortedKeys_nodup Party.key (inEra candidates era)))
  intro j k hne x hx y hy heq
  rw [← (mem_ofPot.mp (best_eq_some hx).1).2, ← (mem_ofPot.mp (best_eq_some hy).1).2] at hne
  exact hne heq

theorem select_dense {quota : Nat} {r : Ranked ρ} (h : r ∈ select candidates era quota) :
    r.finalRank = denseRank ((select candidates era quota).map Ranked.order) r.order := by
  rw [select_orders]
  rw [select_eq] at h
  obtain ⟨row, -, rfl⟩ := List.mem_map.mp h
  rfl

theorem select_selected (candidates : List (Party ρ)) (era : Option Int) (quota : Nat) : Selected candidates era quota (select candidates era quota) where
  chosen := by
    intro r hr
    obtain ⟨hmem, hleast⟩ := best_eq_some (mem_pots.mp (mem_select hr))
    exact ⟨(mem_ofPot.mp hmem).1, fun y hy hkey => hleast y (mem_ofPot.mpr ⟨hy, hkey⟩)⟩
  every := by
    intro y hy
    obtain ⟨x, hx⟩ := best_isSome (List.ne_nil_of_mem (mem_ofPot.mpr ⟨hy, rfl⟩))
    have hkey := (mem_ofPot.mp (best_eq_some hx).1).2
    have hpot : x ∈ pots candidates era := mem_pots.mpr (hkey ▸ hx)
    obtain ⟨r, hr, hparty⟩ := List.mem_map.mp ((select_parties candidates era quota).mem_iff.mpr hpot)
    exact ⟨r, hr, by rw [hparty, hkey]⟩
  once := by
    have hkeys := ((select_parties candidates era quota).map Party.key).nodup_iff.mpr (pots_nodup candidates era)
    rwa [List.map_map] at hkeys
  quota := by
    have hrows : ((select candidates era quota).filter fun r => decide (r.party.unknownPot = some 1) && decide (r.tier = 0)).length =
        ((tieredRows (pots candidates era) quota).filter fun r => decide (r.1.unknownPot = some 1) && decide (r.2 = 0)).length := by
      rw [select_eq, List.filter_map, List.length_map]
      rfl
    rw [hrows, tieredRows, ((perm_sortOn _ _).filter _).length_eq]
    exact tiered_quota quota 0 _
  dense := fun r hr => select_dense hr
  ranked := by
    intro r hr s hs
    rw [select_dense hr, select_dense hs]
    exact denseRank_inj (List.mem_map_of_mem hr) (List.mem_map_of_mem hs)

def Decided (candidates : List (Party ρ)) (era : Option Int) : Prop :=
  ∀ x ∈ inEra candidates era, ∀ y ∈ inEra candidates era, x.key = y.key → x.rating = y.rating →
    (∀ z ∈ inEra candidates era, z.key = x.key → x.rating ≤ z.rating) → x = y

theorem best_perm (h : Decided candidates era) (hperm : candidates'.Perm candidates) (k : OutputKey) :
    best (ofPot candidates' era k) = best (ofPot candidates era k) := by
  have hclass : (ofPot candidates' era k).Perm (ofPot candidates era k) := (hperm.filter _).filter _
  cases hx : best (ofPot candidates era k) with
  | none =>
    by_cases hnil : ofPot candidates' era k = []
    · rw [hnil]
      rfl
    · have hsome : ofPot candidates era k ≠ [] := fun h => hnil (List.perm_nil.mp (h ▸ hclass))
      obtain ⟨y, hy⟩ := best_isSome hsome
      rw [hy] at hx
      cases hx
  | some x =>
    obtain ⟨hxmem, hxleast⟩ := best_eq_some hx
    obtain ⟨y, hy⟩ := best_isSome (List.ne_nil_of_mem (hclass.mem_iff.mpr hxmem))
    obtain ⟨hymem, hyleast⟩ := best_eq_some hy
    obtain ⟨hxera, hxkey⟩ := mem_ofPot.mp hxmem
    obtain ⟨hyera, hykey⟩ := mem_ofPot.mp (hclass.mem_iff.mp hymem)
    have htie : x.rating = y.rating := le_antisymm (hxleast y (hclass.mem_iff.mp hymem)) (hyleast x (hclass.mem_iff.mpr hxmem))
    have hsame := h x hxera y hyera (hxkey.trans hykey.symm) htie fun z hz hkey => hxleast z (mem_ofPot.mpr ⟨hz, hkey.trans hxkey⟩)
    rw [hy, hsame]

theorem select_perm_iff (candidates : List (Party ρ)) (era : Option Int) (quota : Nat) :
    (∀ candidates' : List (Party ρ), candidates'.Perm candidates → select candidates' era quota = select candidates era quota) ↔
      Decided candidates era := by
  constructor
  · intro h x hx y hy hkey htie hleast
    have hpot {z : Party ρ} (hz : z ∈ inEra candidates era) (hzkey : z.key = x.key) (hzrating : z.rating = x.rating) : z ∈ pots candidates era := by
      have hin : z ∈ candidates := (List.mem_filter.mp hz).1
      obtain ⟨front, back, hsplit⟩ := List.append_of_mem hin
      have hperm : (z :: (front ++ back)).Perm candidates := hsplit ▸ List.perm_middle.symm
      have hchosen : z ∈ pots (z :: (front ++ back)) era := by
        have hfirst : ofPot (z :: (front ++ back)) era z.key = z :: ofPot (front ++ back) era z.key := by
          have hera : (!beforeEra z.stamp era) = true := (List.mem_filter.mp hz).2
          rw [ofPot, ofPot, inEra, inEra, List.filter_cons, if_pos hera, List.filter_cons, if_pos (decide_eq_true rfl)]
        rw [mem_pots, hfirst]
        refine best_cons fun w hw => ?_
        obtain ⟨hwera, hwkey⟩ := mem_ofPot.mp hw
        obtain ⟨hwmem, hwstamp⟩ := List.mem_filter.mp hwera
        have hwin : w ∈ inEra candidates era := List.mem_filter.mpr ⟨hperm.subset (List.mem_cons_of_mem z hwmem), hwstamp⟩
        rw [hzrating]
        exact hleast w hwin (hwkey.trans hzkey)
      have hsame := (select_parties (z :: (front ++ back)) era quota).mem_iff.mpr hchosen
      rw [h _ hperm] at hsame
      exact (select_parties candidates era quota).mem_iff.mp hsame
    have hbestx := mem_pots.mp (hpot hx rfl rfl)
    have hbesty := mem_pots.mp (hpot hy hkey.symm htie.symm)
    rw [hkey, hbesty] at hbestx
    exact (Option.some.inj hbestx).symm
  · intro h candidates' hperm
    have hpots : pots candidates' era = pots candidates era := pots_congr hperm (best_perm h hperm)
    rw [select_eq, select_eq, hpots]

end

/-! ## The sorts of the hops -/

section
variable {ρ : Type}

/-- An outpoint's place among the tiers, as `Marked.place` has it. -/
abbrev Place := Lex (Lex (Num × Int) × Lex (Int × OutputKey))

theorem tierStep_again (s : TierState) (k : Place) : tierStep (tierStep s k).1 k = tierStep s k := by
  by_cases hpart : s.partition = some (ofLex k).1
  · by_cases hprev : s.previous = some (ofLex k).2 <;> simp [tierStep, hpart, hprev]
  · simp [tierStep, hpart]

def hopOrder (r : Marked ρ × Int) : Lex (Intᵒᵈ × Lex (Int × Lex (Int × Lex (Numᵒᵈ × Lex (Num × OutputKey))))) :=
  r.1.order r.1.outpointPaidTier r.2

variable (f : Place → Int) (l : List (Marked ρ))

def withTiers : List (Marked ρ × Int) := (sortOn Marked.place l).map fun m => (m, f m.place)

def ordered : List (Marked ρ × Int) := sortOn hopOrder (withTiers f l)

def rankedRows : List (HopRow ρ) := (ordered f l).map fun r => ⟨r.1, r.2, denseRank ((ordered f l).map hopOrder) (hopOrder r)⟩

def servedRows : List (HopRow ρ) := sortOn (fun r : HopRow ρ => r.marked.service r.tier) (rankedRows f l)

variable {f l}

theorem selectHops_eq {candidates : List (Hop ρ)} {era : Option Int} {now : Int}
    (hf : scan tierStep {} ((sortOn Marked.place ((groups candidates era).flatMap (mark now))).map Marked.place) =
      ((sortOn Marked.place ((groups candidates era).flatMap (mark now))).map Marked.place).map f) :
    selectHops candidates era now = servedRows f ((groups candidates era).flatMap (mark now)) := by
  have hzip (rows : List (Marked ρ)) (h : scan tierStep {} (rows.map Marked.place) = (rows.map Marked.place).map f) :
      rows.zip (scan tierStep {} (rows.map Marked.place)) = rows.map fun m => (m, f m.place) := by
    rw [h, List.map_map, List.zip_map_right, List.zip_eq_zipWith, List.zipWith_self, List.map_map]
    rfl
  have hranks : ranks ((ordered f ((groups candidates era).flatMap (mark now))).map hopOrder) =
      ((ordered f ((groups candidates era).flatMap (mark now))).map hopOrder).map
        (denseRank ((ordered f ((groups candidates era).flatMap (mark now))).map hopOrder)) := ranks_eq (keys_sorted _ _)
  have hrows : (ordered f ((groups candidates era).flatMap (mark now))).zipWith (fun r n => HopRow.mk r.1 r.2 n)
      (ranks ((ordered f ((groups candidates era).flatMap (mark now))).map hopOrder)) =
        rankedRows f ((groups candidates era).flatMap (mark now)) := by
    rw [hranks, List.map_map, List.zipWith_map_right, List.zipWith_self]
    rfl
  rw [servedRows, ← hrows, ordered, withTiers, ← hzip _ hf]
  rfl

theorem rankedRows_marks : ((rankedRows f l).map HopRow.marked).Perm l := by
  have hmarks : (rankedRows f l).map HopRow.marked = (ordered f l).map Prod.fst := by
    rw [rankedRows, List.map_map]
    rfl
  have htiers : (withTiers f l).map Prod.fst = sortOn Marked.place l := by
    rw [withTiers, List.map_map]
    exact List.map_id _
  rw [hmarks]
  refine ((perm_sortOn _ _).map Prod.fst).trans ?_
  rw [htiers]
  exact perm_sortOn _ _

theorem servedRows_marks : ((servedRows f l).map HopRow.marked).Perm l := ((perm_sortOn _ _).map _).trans rankedRows_marks

theorem mem_ordered {r : Marked ρ × Int} (h : r ∈ ordered f l) : r.1 ∈ l ∧ r.2 = f r.1.place := by
  obtain ⟨m, hm, rfl⟩ := List.mem_map.mp ((perm_sortOn _ _).mem_iff.mp h)
  exact ⟨(perm_sortOn _ _).mem_iff.mp hm, rfl⟩

theorem mem_rankedRows {r : HopRow ρ} (h : r ∈ rankedRows f l) : r.marked ∈ l ∧ r.tier = f r.marked.place ∧
    r.finalRank = denseRank ((ordered f l).map hopOrder) (hopOrder (r.marked, r.tier)) := by
  obtain ⟨row, hrow, rfl⟩ := List.mem_map.mp h
  obtain ⟨hmem, htier⟩ := mem_ordered hrow
  exact ⟨hmem, htier, rfl⟩

theorem servedRows_filter {p : Marked ρ → Bool} (h : ∀ a ∈ l, ∀ b ∈ l, p a = true → p b = true → a.place = b.place ∧
    (∀ tier, hopOrder (a, tier) = hopOrder (b, tier)) ∧ ∀ tier, a.service tier = b.service tier) :
    ((servedRows f l).map HopRow.marked).filter p = l.filter p := by
  have hplaced : (sortOn Marked.place l).filter p = l.filter p := filter_sortOn fun a ha b hb hpa hpb => (h a ha b hb hpa hpb).1
  have hwith (m : Marked ρ) (hm : m ∈ sortOn Marked.place l) : m ∈ l := (perm_sortOn _ _).mem_iff.mp hm
  have hordered : (ordered f l).filter (fun r => p r.1) = (withTiers f l).filter fun r => p r.1 := by
    apply filter_sortOn
    intro a ha b hb hpa hpb
    obtain ⟨m, hm, rfl⟩ := List.mem_map.mp ha
    obtain ⟨n, hn, rfl⟩ := List.mem_map.mp hb
    obtain ⟨hplace, horder, -⟩ := h m (hwith m hm) n (hwith n hn) hpa hpb
    rw [hplace]
    exact horder _
  have hserved : (servedRows f l).filter (fun r => p r.marked) = (rankedRows f l).filter fun r => p r.marked := by
    apply filter_sortOn
    intro a ha b hb hpa hpb
    obtain ⟨ham, hat, -⟩ := mem_rankedRows ha
    obtain ⟨hbm, hbt, -⟩ := mem_rankedRows hb
    obtain ⟨hplace, -, hservice⟩ := h a.marked ham b.marked hbm hpa hpb
    rw [hat, hbt, hplace]
    exact hservice _
  have hfst : ((servedRows f l).map HopRow.marked).filter p = ((ordered f l).filter fun r => p r.1).map Prod.fst := by
    rw [List.filter_map]
    have hfun : (p ∘ HopRow.marked) = fun r : HopRow ρ => p r.marked := rfl
    rw [hfun, hserved, rankedRows, List.filter_map, List.map_map]
    rfl
  rw [hfst, hordered, withTiers, List.filter_map, List.map_map, ← hplaced]
  exact List.map_id _

theorem servedRows_perm {l' : List (Marked ρ)} (hl : l.Perm l')
    (h : ∀ a ∈ l, ∀ b ∈ l, a.place = b.place → a.service (f a.place) = b.service (f b.place) → a = b) : servedRows f l = servedRows f l' := by
  have hwith : (withTiers f l).Perm (withTiers f l') := ((perm_sortOn _ l).trans (hl.trans (perm_sortOn _ l').symm)).map _
  have hkeys : (ordered f l).map hopOrder = (ordered f l').map hopOrder := keys_sortOn hwith
  have hranked : (rankedRows f l).Perm (rankedRows f l') := by
    rw [rankedRows, rankedRows, hkeys]
    exact ((perm_sortOn _ _).trans (hwith.trans (perm_sortOn _ _).symm)).map _
  have hlex (k : List (Marked ρ)) : (servedRows f k).Pairwise fun a b => a.marked.service a.tier < b.marked.service b.tier ∨
      (a.marked.service a.tier = b.marked.service b.tier ∧ (hopOrder (a.marked, a.tier) < hopOrder (b.marked, b.tier) ∨
        (hopOrder (a.marked, a.tier) = hopOrder (b.marked, b.tier) ∧ a.marked.place ≤ b.marked.place))) := by
    have hplaces : (withTiers f k).Pairwise fun a b => a.1.place ≤ b.1.place := List.pairwise_map.mpr (sorted_sortOn Marked.place k)
    exact lex_sortOn (List.pairwise_map.mpr (lex_sortOn hplaces))
  refine List.Perm.eq_of_pairwise (fun a b ha hb hab hba => ?_) (hlex l) (hlex l') ((perm_sortOn _ _).trans (hranked.trans (perm_sortOn _ _).symm))
  obtain ⟨ham, hat, har⟩ := mem_rankedRows ((perm_sortOn _ _).mem_iff.mp ha)
  obtain ⟨hbm, hbt, hbr⟩ := mem_rankedRows (hranked.mem_iff.mpr ((perm_sortOn _ _).mem_iff.mp hb))
  have hservice : a.marked.service a.tier = b.marked.service b.tier := by
    rcases hab with hlt | ⟨heq, -⟩
    · rcases hba with hgt | ⟨heq, -⟩
      · exact absurd hgt (lt_asymm hlt)
      · exact heq.symm
    · exact heq
  have hplace : a.marked.place = b.marked.place := by
    rcases hab with hlt | ⟨-, hab⟩
    · exact absurd hservice (ne_of_lt hlt)
    · rcases hba with hlt | ⟨-, hba⟩
      · exact absurd hservice.symm (ne_of_lt hlt)
      · rcases hab with hlt | ⟨hsame, hle⟩
        · rcases hba with hgt | ⟨hsame, -⟩
          · exact absurd hgt (lt_asymm hlt)
          · exact absurd hsame (ne_of_gt hlt)
        · rcases hba with hgt | ⟨-, hge⟩
          · exact absurd hsame (ne_of_gt hgt)
          · exact le_antisymm hle hge
  have hmarked : a.marked = b.marked := h a.marked ham b.marked hbm hplace (by rw [← hat, ← hbt]; exact hservice)
  have htier : a.tier = b.tier := by rw [hat, hbt, hmarked]
  cases a
  cases b
  simp only at hmarked htier har hbr
  subst hmarked htier
  rw [har, hbr]

end

end OverlayEngine.JudgeRank
