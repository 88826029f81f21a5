import Mathlib.Logic.Relation
import Mathlib.Data.List.Basic
import Mathlib.Tactic.Common

/-!
# Releasing a node of a graph of uses

A node lists its inputs and its users. `release` takes a node out if it has no
user, and in either case drops it from the users of each of its stored inputs
and releases those in turn. On a ranked graph the order does not matter: what
is left is `after`, which says of each node alone whether it stays and with
which users (`release_after`).
-/

namespace Release

structure Node (κ : Type) where
  inputs : List κ
  users : List κ

abbrev Graph (κ : Type) := κ → Option (Node κ)

section
variable {κ : Type} [DecidableEq κ]

def releaseInputs (recur : κ → Node κ → Graph κ → Graph κ) (k : κ) : List κ → Graph κ → Graph κ
  | [], g => g
  | c :: rest, g =>
    match g c with
    | none => releaseInputs recur k rest g
    | some n =>
      let dropped : Node κ := { n with users := n.users.filter (· ≠ k) }
      releaseInputs recur k rest (recur c dropped (Function.update g c (some dropped)))

/-- `release fuel k n g` where `n` is what `g` stores at `k`. -/
def release : Nat → κ → Node κ → Graph κ → Graph κ
  | 0, _, _, g => g
  | fuel + 1, k, n, g =>
    releaseInputs (release fuel) k n.inputs (if n.users = [] then Function.update g k none else g)

end

section
variable {κ : Type}

/-- `x` is stored and names the stored node `c` as an input. -/
def Edge (g : Graph κ) (x c : κ) : Prop := (∃ n, g x = some n ∧ c ∈ n.inputs) ∧ (g c).isSome

def Reach (g : Graph κ) : κ → κ → Prop := Relation.ReflTransGen (Edge g)

open Classical in
noncomputable def without (P : κ → Prop) (l : List κ) : List κ := l.filter fun x => ¬ P x

variable {c x k : κ}

theorem mem_without {P : κ → Prop} {l : List κ} : x ∈ without P l ↔ x ∈ l ∧ ¬ P x := by simp [without]

theorem without_eq_nil {P : κ → Prop} {l : List κ} : without P l = [] ↔ ∀ x ∈ l, P x := by
  simp [without, List.filter_eq_nil_iff]

theorem filter_without [DecidableEq κ] (P : κ → Prop) (l : List κ) (k : κ) :
    (without P l).filter (· ≠ k) = without (fun x => P x ∨ x = k) l := by
  unfold without
  rw [List.filter_filter]
  refine List.filter_congr fun x _ => ?_
  by_cases h : P x <;> by_cases e : x = k <;> simp [h, e]

open Classical in
/-- What is left of `g` once the nodes of `V` are visited and the users of `D` dropped. -/
noncomputable def after (g : Graph κ) (V : κ → Prop) (D : κ → κ → Prop) : Graph κ := fun k =>
  (g k).bind fun n =>
    if V k ∧ ∀ x ∈ n.users, D x k then none else some { n with users := without (D · k) n.users }

/-- Every node of `V` below `r` has its inputs in `V` and is dropped from their users. -/
def Closed (g : Graph κ) (rank : κ → Nat) (r : Nat) (V : κ → Prop) (D : κ → κ → Prop) : Prop :=
  ∀ x, V x → rank x < r → ∀ c, Edge g x c → V c ∧ D x c

/-- `depth` goes down along the edges of `g`. -/
def Descends (depth : κ → Nat) (g : Graph κ) : Prop := ∀ x c, Edge g x c → depth c < depth x

/-- `g'` has no node `g` has not, and the same inputs. -/
def Within (g' g : Graph κ) : Prop := ∀ k n', g' k = some n' → ∃ n, g k = some n ∧ n.inputs = n'.inputs

variable {x c : κ} {g' g : Graph κ}

theorem Within.edge (h : Within g' g) (he : Edge g' x c) : Edge g x c := by
  obtain ⟨⟨n', hx, hc⟩, hs⟩ := he
  obtain ⟨n, hn, hi⟩ := h x n' hx
  obtain ⟨m', hm'⟩ := Option.isSome_iff_exists.mp hs
  obtain ⟨m, hm, -⟩ := h c m' hm'
  exact ⟨⟨n, hn, by rw [hi]; exact hc⟩, by rw [hm]; rfl⟩

variable {depth : κ → Nat}

theorem Within.descends (h : Within g' g) (hd : Descends depth g) :
    Descends depth g' := fun x c he => hd x c (h.edge he)

section
variable {g : Graph κ} {V V' : κ → Prop} {D D' : κ → κ → Prop} {k : κ} {n : Node κ}

theorem after_none (h : g k = none) : after g V D k = none := by simp [after, h]

theorem after_gone (h : g k = some n) (hV : V k) (hD : ∀ x ∈ n.users, D x k) : after g V D k = none := by
  unfold after
  rw [h]
  exact if_pos ⟨hV, hD⟩

theorem after_kept (h : g k = some n) (hk : ¬ (V k ∧ ∀ x ∈ n.users, D x k)) :
    after g V D k = some { n with users := without (D · k) n.users } := by
  unfold after
  rw [h]
  exact if_neg hk

theorem after_some {m : Node κ} (h : after g V D k = some m) :
    ∃ n, g k = some n ∧ ¬ (V k ∧ ∀ x ∈ n.users, D x k) ∧ m = { n with users := without (D · k) n.users } := by
  unfold after at h
  obtain ⟨n, hn, h⟩ := Option.bind_eq_some_iff.mp h
  split at h
  · cases h
  · rename_i hk
    exact ⟨n, hn, hk, (Option.some.inj h).symm⟩

theorem gone_of_after (hn : g k = some n) (h : after g V D k = none) : V k ∧ ∀ x ∈ n.users, D x k := by
  by_contra hk
  rw [after_kept hn hk] at h
  cases h

theorem after_at (hk : g k = g' k) (hV : V k ↔ V' k) (hD : ∀ x, D x k ↔ D' x k) :
    after g V D k = after g' V' D' k := by
  have eD : (fun x => D x k) = fun x => D' x k := funext fun x => propext (hD x)
  cases h' : g' k with
  | none => rw [after_none (hk.trans h'), after_none h']
  | some n =>
    by_cases h : V k ∧ ∀ x ∈ n.users, D x k
    · rw [after_gone (hk.trans h') h.1 h.2, after_gone h' (hV.mp h.1) fun x hx => (hD x).mp (h.2 x hx)]
    · rw [after_kept (hk.trans h') h, after_kept h' fun h'' => h ⟨hV.mpr h''.1, fun x hx => (hD x).mpr (h''.2 x hx)⟩, eD]

theorem after_congr (hV : ∀ x, V x ↔ V' x) (hD : ∀ x c, D x c ↔ D' x c) : after g V D = after g V' D' :=
  funext fun k => after_at rfl (hV k) fun x => hD x k

theorem within_after (hV : ∀ x, V x → V' x) (hD : ∀ x c, D x c → D' x c) : Within (after g V' D') (after g V D) := by
  intro k n' h
  obtain ⟨n, hn, hk, rfl⟩ := after_some h
  refine ⟨_, after_kept hn fun hk' => hk ⟨hV k hk'.1, fun x hx => hD x k (hk'.2 x hx)⟩, rfl⟩

theorem after_empty (h : ∀ x, ¬ V x) (h' : ∀ x c, ¬ D x c) : after g V D = g := by
  funext k
  cases hk : g k with
  | none => exact after_none hk
  | some n =>
    rw [after_kept hk fun hv => h k hv.1]
    simp [without, h']

end

/-! ## The order does not matter -/

section
variable {g : Graph κ} {rank : κ → Nat} (hrank : Descends rank g)
include hrank

variable {V : κ → Prop} {r fuel : Nat}

omit hrank in
theorem Closed.mono {D D' : κ → κ → Prop} (h : Closed g rank r V D)
    (hD : ∀ x c, D x c → D' x c) : Closed g rank r V D' :=
  fun x hx hr c he => ⟨(h x hx hr c he).1, hD _ _ (h x hx hr c he).2⟩

variable {D : κ → κ → Prop}

omit hrank in
theorem Closed.visit (h : Closed g rank r V D) (k : κ) :
    Closed g rank r (fun x => V x ∨ Reach g k x) fun x c => D x c ∨ Reach g k x ∧ Edge g x c := by
  intro x hx hr c he
  rcases hx with hx | hx
  · exact ⟨Or.inl (h x hx hr c he).1, Or.inl (h x hx hr c he).2⟩
  · exact ⟨Or.inr (hx.tail he), Or.inr ⟨hx, he⟩⟩

theorem Closed.reach (h : Closed g rank r V D) (hc : V c)
    (hr : rank c < r) (hx : Reach g c x) : V x ∧ rank x < r := by
  induction hx with
  | refl => exact ⟨hc, hr⟩
  | tail _ he ih => exact ⟨(h _ ih.1 ih.2 _ he).1, Nat.lt_trans (hrank _ _ he) ih.2⟩

variable [DecidableEq κ]

/-- What `release fuel` of a node `k` with `depth k < fuel` leaves, once `V` is visited and `D` dropped. -/
def Releases (g : Graph κ) (rank depth : κ → Nat) (fuel : Nat) : Prop :=
  ∀ k n V D, g k = some n → Closed g rank (rank k) V D →
    Descends depth (Function.update (after g V D) k (some { n with users := without (D · k) n.users })) → depth k < fuel →
    release fuel k { n with users := without (D · k) n.users }
        (Function.update (after g V D) k (some { n with users := without (D · k) n.users })) =
      after g (fun x => V x ∨ Reach g k x) fun x c => D x c ∨ Reach g k x ∧ Edge g x c

omit hrank in
theorem update_drop (k c : κ) (m : Option (Node κ)) :
    Function.update (after g V D) c m = Function.update (after g V fun x y => D x y ∨ x = k ∧ y = c) c m := by
  funext y
  by_cases e : y = c
  · subst e; simp
  · rw [Function.update_of_ne e, Function.update_of_ne e]
    exact after_at rfl Iff.rfl fun x => ⟨Or.inl, fun h => h.resolve_right fun h' => e h'.2⟩

variable {m n : Node κ}

omit hrank in
theorem within_drop (k c : κ) (hg : g c = some m)
    (hkept : ¬ (V c ∧ ∀ x ∈ m.users, D x c)) :
    Within (Function.update (after g V fun x y => D x y ∨ x = k ∧ y = c) c
      (some { m with users := without (fun x => D x c ∨ x = k ∧ c = c) m.users })) (after g V D) := by
  intro y n' h
  by_cases e : y = c
  · subst e
    rw [Function.update_self] at h
    exact ⟨_, after_kept hg hkept, by rw [← Option.some.inj h]⟩
  · rw [Function.update_of_ne e] at h
    exact within_after (fun _ h => h) (fun _ _ => Or.inl) y n' h

/-- What the stored nodes of `l` reach. -/
def Visited (g : Graph κ) (l : List κ) (x : κ) : Prop := ∃ c ∈ l, (g c).isSome ∧ Reach g c x

/-- The users dropped by the loop of `k` over `l`. -/
def Dropped (g : Graph κ) (k : κ) (l : List κ) (x y : κ) : Prop :=
  (x = k ∧ y ∈ l ∧ (g y).isSome) ∨ Visited g l x ∧ Edge g x y

omit hrank [DecidableEq κ] in
theorem visited_cons (h : (g c).isSome) (l : List κ) (x : κ) :
    Visited g (c :: l) x ↔ Reach g c x ∨ Visited g l x := by simp [Visited, h]

omit hrank [DecidableEq κ] in
theorem dropped_cons (h : (g c).isSome) (k : κ) (l : List κ) (x y : κ) :
    Dropped g k (c :: l) x y ↔ x = k ∧ y = c ∨ Reach g c x ∧ Edge g x y ∨ Dropped g k l x y := by
  unfold Dropped
  rw [visited_cons h, List.mem_cons]
  by_cases e : y = c
  · subst e
    simp only [true_or, h, and_self, and_true]
    tauto
  · simp only [e, false_or, and_false]
    tauto

omit hrank [DecidableEq κ] in
theorem visited_skip (h : g c = none) (l : List κ) (x : κ) : Visited g (c :: l) x ↔ Visited g l x := by
  simp [Visited, h]

omit hrank [DecidableEq κ] in
theorem dropped_skip (h : g c = none) (k : κ) (l : List κ) (x y : κ) :
    Dropped g k (c :: l) x y ↔ Dropped g k l x y := by
  unfold Dropped
  rw [visited_skip h, List.mem_cons]
  by_cases e : y = c
  · subst e; simp [h]
  · simp [e]

theorem releaseInputs_after (hrec : Releases g rank depth fuel)
    (hk : g k = some n) : ∀ l V D, (∀ c ∈ l, c ∈ n.inputs) → Closed g rank (rank k) V D →
    Descends depth (after g V D) → (∀ c ∈ l, (after g V D c).isSome → depth c < fuel) →
    releaseInputs (release fuel) k l (after g V D) =
      after g (fun x => V x ∨ Visited g l x) fun x y => D x y ∨ Dropped g k l x y
  | [], V, D, _, _, _, _ => by simp [releaseInputs, Visited, Dropped]
  | c :: rest, V, D, hl, hclosed, hdesc, hdepth => by
    have ih := releaseInputs_after hrec hk rest
    have hrest : ∀ c ∈ rest, c ∈ n.inputs := fun c' h => hl c' (List.mem_cons_of_mem _ h)
    have hdepth' : ∀ c ∈ rest, (after g V D c).isSome → depth c < fuel := fun c' h => hdepth c' (List.mem_cons_of_mem _ h)
    unfold releaseInputs
    cases hg : g c with
    | none =>
      rw [after_none hg]
      simp only
      rw [ih V D hrest hclosed hdesc hdepth']
      exact after_congr (fun x => by rw [visited_skip hg]) fun x y => by rw [dropped_skip hg]
    | some m =>
      have hs : (g c).isSome := by rw [hg]; rfl
      have hedge : Edge g k c := ⟨⟨n, hk, hl c (List.mem_cons_self ..)⟩, hs⟩
      have hlt : rank c < rank k := hrank k c hedge
      have hclosed' : Closed g rank (rank k) V fun x y => D x y ∨ x = k ∧ y = c := hclosed.mono fun _ _ => Or.inl
      by_cases hkept : V c ∧ ∀ x ∈ m.users, D x c
      · -- already taken out, with everything it reaches
        have hsame : after g V D = after g V fun x y => D x y ∨ x = k ∧ y = c := by
          funext y
          by_cases e : y = c
          · subst e
            rw [after_gone hg hkept.1 hkept.2, after_gone hg hkept.1 fun x hx => Or.inl (hkept.2 x hx)]
          · exact after_at rfl Iff.rfl fun x => ⟨Or.inl, fun h => h.resolve_right fun h' => e h'.2⟩
        have hreach : ∀ x, Reach g c x → V x ∧ rank x < rank k := fun x hx => hclosed.reach hrank hkept.1 hlt hx
        rw [after_gone hg hkept.1 hkept.2]
        simp only
        rw [hsame] at hdesc hdepth' ⊢
        rw [ih V _ hrest hclosed' hdesc hdepth']
        refine after_congr (fun x => ?_) fun x y => ?_
        · rw [visited_cons hs, ← or_assoc, or_iff_left_of_imp fun h => (hreach x h).1]
        · have hgone : Reach g c x ∧ Edge g x y → D x y ∨ x = k ∧ y = c :=
            fun h => .inl (hclosed x (hreach x h.1).1 (hreach x h.1).2 y h.2).2
          rw [dropped_cons hs, ← or_assoc, ← or_assoc, or_iff_left_of_imp hgone]
      · have hnext := within_drop k c hg hkept
        have hd : depth c < fuel := hdepth c (List.mem_cons_self ..) (by rw [after_kept hg hkept]; rfl)
        have hreleased := hrec c m V (fun x y => D x y ∨ x = k ∧ y = c) hg
          (fun x hx hr => hclosed' x hx (Nat.lt_trans hr hlt)) (hnext.descends hdesc) hd
        rw [after_kept hg hkept]
        simp only
        rw [update_drop k c, filter_without]
        simp only [and_true] at hreleased
        rw [hreleased]
        have hwithin : Within (after g (fun x => V x ∨ Reach g c x)
            fun x y => (D x y ∨ x = k ∧ y = c) ∨ Reach g c x ∧ Edge g x y) (after g V D) :=
          within_after (fun _ => Or.inl) fun _ _ h => Or.inl (Or.inl h)
        rw [ih _ _ hrest (hclosed'.visit c) (hwithin.descends hdesc) ?_]
        · refine after_congr (fun x => ?_) fun x y => ?_
          · rw [visited_cons hs, or_assoc]
          · rw [dropped_cons hs, or_assoc, or_assoc]
        · intro c' hc' hsome
          obtain ⟨n', hn'⟩ := Option.isSome_iff_exists.mp hsome
          obtain ⟨n'', hn'', -⟩ := hwithin c' n' hn'
          exact hdepth' c' hc' (by rw [hn'']; rfl)

omit hrank [DecidableEq κ] in
theorem reach_iff (hk : g k = some n) (x : κ) : Reach g k x ↔ k = x ∨ Visited g n.inputs x := by
  constructor
  · intro h
    rcases Relation.ReflTransGen.cases_head h with rfl | ⟨c, he, hr⟩
    · exact Or.inl rfl
    · obtain ⟨⟨n', hn', hc⟩, hs⟩ := he
      rw [hk] at hn'
      cases hn'
      exact Or.inr ⟨c, hc, hs, hr⟩
  · rintro (rfl | ⟨c, hc, hs, hr⟩)
    · exact Relation.ReflTransGen.refl
    · exact Relation.ReflTransGen.head ⟨⟨n, hk, hc⟩, hs⟩ hr

theorem releases : ∀ fuel, Releases g rank depth fuel
  | 0 => fun _ _ _ _ _ _ _ hd => absurd hd (Nat.not_lt_zero _)
  | fuel + 1 => by
    intro k n V D hk hclosed hdesc hdepth
    generalize hm : ({ n with users := without (D · k) n.users } : Node κ) = m at hdesc ⊢
    have hmi : m.inputs = n.inputs := by rw [← hm]
    have hmu : m.users = [] ↔ ∀ x ∈ n.users, D x k := by rw [← hm]; exact without_eq_nil
    have hvisit : (if m.users = [] then Function.update (Function.update (after g V D) k (some m)) k none
        else Function.update (after g V D) k (some m)) = after g (fun x => V x ∨ k = x) D := by
      funext y
      by_cases e : y = k
      · subst e
        by_cases hu : m.users = []
        · rw [if_pos hu, Function.update_self, after_gone hk (Or.inr rfl) (hmu.mp hu)]
        · rw [if_neg hu, Function.update_self, after_kept hk fun h => hu (hmu.mpr h.2), hm]
      · have hat : after g V D y = after g (fun x => V x ∨ k = x) D y :=
          after_at rfl ⟨Or.inl, fun h => h.resolve_right (Ne.symm e)⟩ fun _ => Iff.rfl
        by_cases hu : m.users = []
        · rw [if_pos hu, Function.update_of_ne e, Function.update_of_ne e, hat]
        · rw [if_neg hu, Function.update_of_ne e, hat]
    have hwithin : Within (after g (fun x => V x ∨ k = x) D) (Function.update (after g V D) k (some m)) := by
      intro y n' h
      by_cases e : y = k
      · subst e
        obtain ⟨n'', hn'', -, rfl⟩ := after_some h
        rw [hk] at hn''
        cases hn''
        exact ⟨m, Function.update_self .., hmi⟩
      · rw [Function.update_of_ne e]
        exact within_after (fun _ => Or.inl) (fun _ _ h => h) y n' h
    unfold release
    rw [hvisit, hmi, releaseInputs_after hrank (releases fuel) hk n.inputs _ D (fun _ h => h) ?_ (hwithin.descends hdesc) ?_]
    · refine after_congr (fun x => ?_) fun x y => ?_
      · rw [reach_iff hk]; tauto
      · have hedge : Edge g k y ↔ y ∈ n.inputs ∧ (g y).isSome := by simp [Edge, hk]
        rw [reach_iff hk]
        unfold Dropped
        by_cases e : x = k
        · subst e; rw [← hedge]; tauto
        · simp only [e, Ne.symm e, false_and, false_or]
    · intro x hx hr
      rcases hx with hx | rfl
      · exact fun c he => ⟨Or.inl (hclosed x hx hr c he).1, (hclosed x hx hr c he).2⟩
      · exact absurd hr (Nat.lt_irrefl _)
    · intro c hc hsome
      obtain ⟨n', hn'⟩ := Option.isSome_iff_exists.mp hsome
      obtain ⟨n'', hn'', -⟩ := hwithin c n' hn'
      have := hdesc k c ⟨⟨m, Function.update_self .., by rw [hmi]; exact hc⟩, by rw [hn'']; rfl⟩
      omega

end

/-! ## The release of several roots -/

noncomputable def released (g : Graph κ) (roots : List κ) : Graph κ :=
  after g (Visited g roots) fun x c => Visited g roots x ∧ Edge g x c

theorem released_nil (g : Graph κ) : released g [] = g := after_empty (by simp [Visited]) (by simp [Visited])

variable {g : Graph κ} {roots : List κ}

theorem visited_edge (h : Visited g roots x) (he : Edge g x c) :
    Visited g roots c := by
  obtain ⟨r, hr, hs, hx⟩ := h
  exact ⟨r, hr, hs, hx.tail he⟩

theorem visited_reach {y : κ} (h : Visited g roots x) (hr : Reach g x y) :
    Visited g roots y := by
  induction hr with
  | refl => exact h
  | tail _ he ih => exact visited_edge ih he

theorem released_congr {roots roots' : List κ} (h : ∀ k, k ∈ roots ↔ k ∈ roots') :
    released g roots = released g roots' := by
  have hv : ∀ x, Visited g roots x ↔ Visited g roots' x := fun x => by simp only [Visited, h]
  exact after_congr hv fun x c => by rw [hv]

variable {k : κ}

theorem released_skip (h : released g roots k = none) :
    released g (k :: roots) = released g roots := by
  cases hk : g k with
  | none => exact after_congr (fun x => visited_skip hk _ x) fun x c => by rw [visited_skip hk]
  | some n =>
    have hv : Visited g roots k := (gone_of_after hk h).1
    have hiff : ∀ x, Visited g (k :: roots) x ↔ Visited g roots x := by
      intro x
      rw [visited_cons (by rw [hk]; rfl)]
      exact ⟨fun h => h.elim (visited_reach hv) id, Or.inr⟩
    exact after_congr hiff fun x c => by rw [hiff]

variable {m n n' : Node κ}

theorem release_released [DecidableEq κ] {rank : κ → Nat} (hrank : Descends rank g)
    {fuel : Nat} (hk : released g roots k = some m) (hdesc : Descends depth (released g roots))
    (hdepth : depth k < fuel) : release fuel k m (released g roots) = released g (k :: roots) := by
  obtain ⟨n, hn, -, hm⟩ := after_some hk
  have hself : Function.update (released g roots) k (some m) = released g roots := by
    rw [← hk]; exact Function.update_eq_self k _
  have hclosed : Closed g rank (rank k) (Visited g roots) fun x c => Visited g roots x ∧ Edge g x c :=
    fun x hx _ c he => ⟨visited_edge hx he, hx, he⟩
  have hreleased : release fuel k m (Function.update (released g roots) k (some m)) =
      after g (fun x => Visited g roots x ∨ Reach g k x)
        fun x c => (Visited g roots x ∧ Edge g x c) ∨ Reach g k x ∧ Edge g x c := by
    rw [← hself] at hdesc
    rw [hm] at hdesc ⊢
    exact releases hrank fuel k n _ _ hn hclosed hdesc hdepth
  rw [hself] at hreleased
  rw [hreleased]
  have hs : (g k).isSome := by rw [hn]; rfl
  refine after_congr (fun x => ?_) fun x c => ?_
  · rw [visited_cons hs]; tauto
  · rw [visited_cons hs]; tauto

/-! ## Links -/

def Linked (g : Graph κ) : Prop := ∀ x c n m, g x = some n → c ∈ n.inputs → g c = some m → x ∈ m.users

/-- No node of `g` is gone from `g'` while a node of `g'` still names it. -/
def NoOrphan (g g' : Graph κ) : Prop := ∀ x c n, g' x = some n → c ∈ n.inputs → (g c).isSome → (g' c).isSome

/-- The release of `roots` leaves `x` a user. -/
def Keeps (g : Graph κ) (roots : List κ) (x : κ) (n : Node κ) : Prop :=
  ∃ u ∈ n.users, ¬ (Visited g roots u ∧ Edge g u x)

def Spares (g : Graph κ) (roots : List κ) : Prop :=
  ∀ x n, Visited g roots x → g x = some n → Keeps g roots x n → ∀ c ∈ n.inputs, g c = none

theorem released_gone (hn : g k = some n) :
    released g roots k = none ↔ Visited g roots k ∧ ¬ Keeps g roots k n := by
  have hkeeps : ¬ Keeps g roots k n ↔ ∀ u ∈ n.users, Visited g roots u ∧ Edge g u k := by
    constructor
    · intro h u hu
      by_contra hd
      exact h ⟨u, hu, hd⟩
    · rintro h ⟨u, hu, hd⟩
      exact hd (h u hu)
  rw [hkeeps]
  exact ⟨gone_of_after hn, fun h => after_gone hn h.1 h.2⟩

theorem released_some (h : released g roots k = some m) :
    ∃ n, g k = some n ∧ m.inputs = n.inputs ∧ (Visited g roots k → Keeps g roots k n) ∧
      ∀ u, u ∈ m.users ↔ u ∈ n.users ∧ ¬ (Visited g roots u ∧ Edge g u k) := by
  obtain ⟨n, hn, hkept, rfl⟩ := after_some h
  refine ⟨n, hn, rfl, fun hv => ?_, fun u => mem_without⟩
  by_contra hk
  exact hkept (((released_gone hn).mpr ⟨hv, hk⟩ |> gone_of_after hn))

theorem released_kept (hn : g k = some n)
    (h : Visited g roots k → Keeps g roots k n) : (released g roots k).isSome := by
  rw [Option.isSome_iff_ne_none]
  intro hgone
  obtain ⟨hv, hk⟩ := (released_gone hn).mp hgone
  exact hk (h hv)

theorem released_linked (hg : Linked g) :
    (Linked (released g roots) ∧ NoOrphan g (released g roots)) ↔ Spares g roots := by
  constructor
  · rintro ⟨hlinked, horphan⟩ x n hv hx hkeeps c hc
    by_contra hstored
    obtain ⟨m, hm⟩ := Option.ne_none_iff_exists'.mp hstored
    obtain ⟨n', hn'⟩ := Option.isSome_iff_exists.mp (released_kept hx fun _ => hkeeps)
    obtain ⟨n'', hn'', hi, -⟩ := released_some hn'
    rw [hx] at hn''
    cases hn''
    have hc' : c ∈ n'.inputs := by rw [hi]; exact hc
    obtain ⟨m', hm'⟩ := Option.isSome_iff_exists.mp (horphan x c n' hn' hc' (by rw [hm]; rfl))
    obtain ⟨m'', hm'', -, -, husers⟩ := released_some hm'
    -- `x` was dropped from the users of `c`
    exact ((husers x).mp (hlinked x c n' m' hn' hc' hm')).2 ⟨hv, ⟨n, hx, hc⟩, by rw [hm]; rfl⟩
  · intro hspares
    have kept : ∀ x n', released g roots x = some n' → ∀ c ∈ n'.inputs, (g c).isSome → ¬ (Visited g roots x ∧ Edge g x c) := by
      rintro x n' hx c hc hs ⟨hv, -⟩
      obtain ⟨n, hn, hi, hk, -⟩ := released_some hx
      rw [hspares x n hv hn (hk hv) c (by rw [← hi]; exact hc)] at hs
      cases hs
    constructor
    · intro x c n' m' hx hc hm'
      obtain ⟨n, hn, hi, -⟩ := released_some hx
      obtain ⟨m, hm, -, -, husers⟩ := released_some hm'
      exact (husers x).mpr ⟨hg x c n m hn (by rw [← hi]; exact hc) hm, kept x n' hx c hc (by rw [hm]; rfl)⟩
    · intro x c n' hx hc hs
      obtain ⟨n, hn, hi, -⟩ := released_some hx
      obtain ⟨m, hm⟩ := Option.isSome_iff_exists.mp hs
      have huser : x ∈ m.users := hg x c n m hn (by rw [← hi]; exact hc) hm
      exact released_kept hm fun _ => ⟨x, huser, kept x n' hx c hc hs⟩

/-! ## Nodes that come in -/

section
variable [DecidableEq κ]

/-- The nodes of `news` that are not stored come in, with the inputs `coins`. -/
def entered (g : Graph κ) (news coins : List κ) : Graph κ := fun k =>
  if k ∈ news ∧ (g k).isNone then some ⟨coins, []⟩ else g k

/-- The nodes of `coins` gain the users `news`. -/
def link (g : Graph κ) (news coins : List κ) : Graph κ := fun k =>
  (g k).map fun n =>
    if k ∈ coins then { n with users := news.foldl (fun l u => if u ∈ l then l else l ++ [u]) n.users } else n

theorem mem_foldl_link {u : κ} : ∀ news l : List κ,
    u ∈ news.foldl (fun l u => if u ∈ l then l else l ++ [u]) l ↔ u ∈ l ∨ u ∈ news
  | [], l => by simp
  | v :: rest, l => by
    rw [List.foldl_cons, mem_foldl_link rest, List.mem_cons]
    by_cases h : v ∈ l
    · simp only [h, if_true]
      constructor
      · tauto
      · rintro (h' | rfl | h') <;> tauto
    · simp only [h, if_false, List.mem_append, List.mem_singleton]
      tauto

theorem entered_entered (g : Graph κ) (k : κ) (news coins : List κ) :
    entered (entered g [k] coins) news coins = entered g (k :: news) coins := by
  funext x
  unfold entered
  cases hg : g x with
  | some n => simp
  | none =>
    by_cases e : x = k
    · simp [e]
    · simp [e]

theorem link_cons (g : Graph κ) (news : List κ) (c : κ) (coins : List κ) :
    link (link g news [c]) news coins = link g news (c :: coins) := by
  have again : ∀ l, (∀ u ∈ news, u ∈ l) → news.foldl (fun l u => if u ∈ l then l else l ++ [u]) l = l := by
    intro l
    induction news with
    | nil => exact fun _ => rfl
    | cons u rest ih =>
      intro h
      rw [List.foldl_cons, if_pos (h u (List.mem_cons_self ..))]
      exact ih fun v hv => h v (List.mem_cons_of_mem _ hv)
  funext k
  unfold link
  cases g k with
  | none => rfl
  | some n =>
    by_cases e : k = c
    · by_cases hc : k ∈ coins
      · subst e
        simp [hc, again _ fun u hu => (mem_foldl_link news n.users).mpr (Or.inr hu)]
      · subst e
        simp [hc]
    · simp [e]

theorem link_some {news coins : List κ} (h : link g news coins k = some n') :
    ∃ n, g k = some n ∧ n'.inputs = n.inputs ∧ ∀ u, u ∈ n'.users ↔ u ∈ n.users ∨ k ∈ coins ∧ u ∈ news := by
  obtain ⟨n, hn, rfl⟩ := Option.map_eq_some_iff.mp h
  refine ⟨n, hn, ?_, fun u => ?_⟩
  · split <;> rfl
  · split
    · rename_i hc
      simp [mem_foldl_link, hc]
    · rename_i hc
      simp [hc]

theorem link_isSome (g : Graph κ) (news coins : List κ) (k : κ) : (link g news coins k).isSome = (g k).isSome := by
  simp [link]

noncomputable def turnover (g : Graph κ) (news coins stale : List κ) : Graph κ :=
  link (released (entered g news coins) stale) news coins

variable {g : Graph κ} {news coins stale : List κ} (hbelow : ∀ k ∈ news, ¬ Visited (entered g news coins) stale k)

theorem entered_old (h : k ∉ news ∨ (g k).isSome) : entered g news coins k = g k := by
  refine if_neg fun hk => ?_
  rcases h with h | h
  · exact h hk.1
  · rw [Option.isSome_iff_ne_none] at h
    exact h (Option.isNone_iff_eq_none.mp hk.2)

theorem entered_new (h : k ∈ news) (hk : g k = none) : entered g news coins k = some ⟨coins, []⟩ :=
  if_pos ⟨h, by rw [hk]; rfl⟩

theorem edge_entered (h : Edge g x c) : Edge (entered g news coins) x c := by
  obtain ⟨⟨n, hx, hc⟩, hs⟩ := h
  refine ⟨⟨n, ?_, hc⟩, ?_⟩
  · rw [entered_old (Or.inr (by rw [hx]; rfl)), hx]
  · rw [entered_old (Or.inr hs)]; exact hs

include hbelow in
theorem visited_edge_entered (hx : Visited (entered g news coins) stale x) (he : Edge (entered g news coins) x c) :
    Edge g x c := by
  have hc : Visited (entered g news coins) stale c := visited_edge hx he
  obtain ⟨⟨n, hn, hi⟩, hs⟩ := he
  rw [entered_old (Or.inl fun h => hbelow x h hx)] at hn
  rw [entered_old (Or.inl fun h => hbelow c h hc)] at hs
  exact ⟨⟨n, hn, hi⟩, hs⟩

include hbelow in
theorem visited_entered (x : κ) : Visited (entered g news coins) stale x ↔ Visited g stale x := by
  constructor
  · rintro ⟨r, hr, hs, hx⟩
    have hv : Visited (entered g news coins) stale r := ⟨r, hr, hs, Relation.ReflTransGen.refl⟩
    rw [entered_old (Or.inl fun h => hbelow r h hv)] at hs
    refine ⟨r, hr, hs, ?_⟩
    clear hs
    induction hx with
    | refl => exact Relation.ReflTransGen.refl
    | tail hpath he ih => exact ih.tail (visited_edge_entered hbelow (visited_reach hv hpath) he)
  · rintro ⟨r, hr, hs, hx⟩
    refine ⟨r, hr, ?_, Relation.ReflTransGen.mono (fun _ _ => edge_entered) _ _ hx⟩
    rw [entered_old (Or.inr hs)]
    exact hs

include hbelow in
theorem dropped_entered (x c : κ) :
    (Visited (entered g news coins) stale x ∧ Edge (entered g news coins) x c) ↔ Visited g stale x ∧ Edge g x c := by
  constructor
  · rintro ⟨hv, he⟩
    exact ⟨(visited_entered hbelow x).mp hv, visited_edge_entered hbelow hv he⟩
  · rintro ⟨hv, he⟩
    exact ⟨(visited_entered hbelow x).mpr hv, edge_entered he⟩

include hbelow in
theorem released_old (h : k ∉ news ∨ (g k).isSome) :
    released (entered g news coins) stale k = released g stale k :=
  after_at (entered_old h) (visited_entered hbelow k) fun x => dropped_entered hbelow x k

include hbelow in
theorem released_new (h : k ∈ news) (hk : g k = none) :
    released (entered g news coins) stale k = some ⟨coins, []⟩ := by
  unfold released
  rw [after_kept (entered_new h hk) fun hv => hbelow k h hv.1]
  simp [without]

theorem turnover_old (hbelow : ∀ k ∈ news, ¬ Visited (entered g news coins) stale k)
    (h : k ∉ news ∨ (g k).isSome) (hk : turnover g news coins stale k = some n') :
    ∃ n, released g stale k = some n ∧ n'.inputs = n.inputs ∧ ∀ u, u ∈ n'.users ↔ u ∈ n.users ∨ k ∈ coins ∧ u ∈ news := by
  obtain ⟨n, hn, hi, hu⟩ := link_some hk
  rw [released_old hbelow h] at hn
  exact ⟨n, hn, hi, hu⟩

theorem turnover_isSome (hbelow : ∀ k ∈ news, ¬ Visited (entered g news coins) stale k)
    (h : k ∉ news ∨ (g k).isSome) : (turnover g news coins stale k).isSome = (released g stale k).isSome := by
  unfold turnover
  rw [link_isSome, released_old hbelow h]

theorem turnover_new (hbelow : ∀ k ∈ news, ¬ Visited (entered g news coins) stale k) (hk : k ∈ news)
    (hg : g k = none) (hcoin : k ∉ coins) : turnover g news coins stale k = some ⟨coins, []⟩ := by
  unfold turnover link
  rw [released_new hbelow hk hg]
  simp [hcoin]

structure Clear (g : Graph κ) (news coins stale : List κ) : Prop where
  spares : Spares g stale
  coins : ∀ k ∈ news, g k = none → ∀ c ∈ coins, ∀ n, g c = some n → Visited g stale c → Keeps g stale c n
  fresh : ∀ k ∈ news, g k = none → ∀ x n, g x = some n → k ∉ n.inputs

theorem turnover_linked (hg : Linked g) (hbelow : ∀ k ∈ news, ¬ Visited (entered g news coins) stale k)
    (hcoins : ∀ k ∈ news, k ∉ coins) :
    (Linked (turnover g news coins stale) ∧ NoOrphan g (turnover g news coins stale)) ↔ Clear g news coins stale := by
  have stored {k : κ} {n : Node κ} (h : g k = some n) : k ∉ news ∨ (g k).isSome := Or.inr (by rw [h]; rfl)
  -- a stored node of the release is one of the turnover, with the same inputs
  have lift {k : κ} {n : Node κ} (h : released g stale k = some n) :
      ∃ n', turnover g news coins stale k = some n' ∧ n'.inputs = n.inputs ∧
        ∀ u, u ∈ n'.users ↔ u ∈ n.users ∨ k ∈ coins ∧ u ∈ news := by
    obtain ⟨m, hm, -⟩ := released_some h
    have hs : (turnover g news coins stale k).isSome := by rw [turnover_isSome hbelow (stored hm), h]; rfl
    obtain ⟨n', hn'⟩ := Option.isSome_iff_exists.mp hs
    obtain ⟨n'', hn'', hi, hu⟩ := turnover_old hbelow (stored hm) hn'
    rw [h] at hn''
    cases hn''
    exact ⟨n', hn', hi, hu⟩
  have unvisited {k : κ} (h : k ∈ news) : ¬ Visited g stale k := fun hv => hbelow k h ((visited_entered hbelow k).mpr hv)
  constructor
  · rintro ⟨hlinked, horphan⟩
    refine ⟨(released_linked hg).mp ⟨?_, ?_⟩, ?_, ?_⟩
    · intro x c n m hx hc hm
      obtain ⟨n', hn', hi, -⟩ := lift hx
      obtain ⟨m', hm', -, hu⟩ := lift hm
      rcases (hu x).mp (hlinked x c n' m' hn' (by rw [hi]; exact hc) hm') with h | ⟨-, hnew⟩
      · exact h
      · obtain ⟨n₀, hn₀, hi₀, -⟩ := released_some hx
        obtain ⟨m₀, hm₀, -, -, hu₀⟩ := released_some hm
        exact (hu₀ x).mpr ⟨hg x c n₀ m₀ hn₀ (by rw [← hi₀]; exact hc) hm₀, fun hv => unvisited hnew hv.1⟩
    · intro x c n hx hc hs
      obtain ⟨n', hn', hi, -⟩ := lift hx
      have := horphan x c n' hn' (by rw [hi]; exact hc) hs
      rwa [turnover_isSome hbelow (Or.inr hs)] at this
    · intro k hk hnone c hc n hn hv
      have := horphan k c _ (turnover_new hbelow hk hnone (hcoins k hk)) hc (by rw [hn]; rfl)
      rw [turnover_isSome hbelow (stored hn)] at this
      obtain ⟨n', hn'⟩ := Option.isSome_iff_exists.mp this
      obtain ⟨n'', hn'', -, hkeeps, -⟩ := released_some hn'
      rw [hn] at hn''
      cases hn''
      exact hkeeps hv
    · intro k hk hnone x n hx hi
      -- `x` is not visited, since `k` would be too
      have hedge : Edge (entered g news coins) x k := by
        refine ⟨⟨n, (entered_old (stored hx)).trans hx, hi⟩, ?_⟩
        rw [entered_new hk hnone]; rfl
      have hv : ¬ Visited g stale x := fun hv =>
        hbelow k hk (visited_edge ((visited_entered hbelow x).mpr hv) hedge)
      obtain ⟨m, hm⟩ := Option.isSome_iff_exists.mp (released_kept hx fun h => absurd h hv)
      obtain ⟨n', hn', hi', -⟩ := lift hm
      obtain ⟨n₀, hn₀, hi₀, -⟩ := released_some hm
      rw [hx] at hn₀
      cases hn₀
      have := hlinked x k n' _ hn' (by rw [hi', hi₀]; exact hi) (turnover_new hbelow hk hnone (hcoins k hk))
      cases this
  · rintro ⟨hspares, hkept, hfresh⟩
    obtain ⟨hlinked, horphan⟩ := (released_linked hg).mpr hspares
    have isNew {k : κ} (h : ¬ (k ∉ news ∨ (g k).isSome)) : k ∈ news ∧ g k = none := by
      refine ⟨by_contra fun h' => h (Or.inl h'), ?_⟩
      by_contra h'
      exact h (Or.inr (Option.isSome_iff_ne_none.mpr h'))
    constructor
    · intro x c n' m' hx hc hm
      by_cases hcn : c ∉ news ∨ (g c).isSome
      · obtain ⟨m, hm1, -, hu⟩ := turnover_old hbelow hcn hm
        by_cases hxn : x ∉ news ∨ (g x).isSome
        · obtain ⟨n, hn1, hi, -⟩ := turnover_old hbelow hxn hx
          exact (hu x).mpr (Or.inl (hlinked x c n m hn1 (by rw [← hi]; exact hc) hm1))
        · obtain ⟨hnew, hnone⟩ := isNew hxn
          rw [turnover_new hbelow hnew hnone (hcoins x hnew)] at hx
          cases hx
          exact (hu x).mpr (Or.inr ⟨hc, hnew⟩)
      · obtain ⟨hnew, hnone⟩ := isNew hcn
        by_cases hxn : x ∉ news ∨ (g x).isSome
        · obtain ⟨n, hn1, hi, -⟩ := turnover_old hbelow hxn hx
          obtain ⟨n₀, hn₀, hi₀, -⟩ := released_some hn1
          exact absurd (by rw [← hi₀, ← hi]; exact hc) (hfresh c hnew hnone x n₀ hn₀)
        · obtain ⟨hnew', hnone'⟩ := isNew hxn
          rw [turnover_new hbelow hnew' hnone' (hcoins x hnew')] at hx
          cases hx
          exact absurd hc (hcoins c hnew)
    · intro x c n' hx hc hs
      rw [turnover_isSome hbelow (Or.inr hs)]
      by_cases hxn : x ∉ news ∨ (g x).isSome
      · obtain ⟨n, hn1, hi, -⟩ := turnover_old hbelow hxn hx
        exact horphan x c n hn1 (by rw [← hi]; exact hc) hs
      · obtain ⟨hnew, hnone⟩ := isNew hxn
        rw [turnover_new hbelow hnew hnone (hcoins x hnew)] at hx
        cases hx
        obtain ⟨m, hm⟩ := Option.isSome_iff_exists.mp hs
        exact released_kept hm (hkept x hnew hnone c hc m hm)

end

end

end Release
