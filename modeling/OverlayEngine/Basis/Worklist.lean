import Mathlib.Data.List.Nodup
import Mathlib.Logic.Relation

/-!
# A worklist walk

A walk pops a node off a stack, skips it where it was seen, and otherwise visits
it: a visit changes the walk's state and pushes the node's successors, or ends
the walk with an error. A walk that ends well has visited every node reachable
through unseen ones just once; and only the visit of a reachable node ends it
otherwise. It ends, since a node pushes its successors at most once.
-/

namespace Worklist

variable {α σ ε : Type} [DecidableEq α]

/-- `none`: the fuel ran out. The top of the stack is the list's head. -/
def run (visit : σ → α → Except ε (σ × List α)) : Nat → List α → List α → σ → Option (Except ε σ)
  | _, [], _, s => some (.ok s)
  | 0, _ :: _, _, _ => none
  | fuel + 1, x :: stack, seen, s =>
    if x ∈ seen then run visit fuel stack seen s
    else
      match visit s x with
      | .error e => some (.error e)
      | .ok (s', next) => run visit fuel (next.reverse ++ stack) (x :: seen) s'

inductive Visits (visit : σ → α → Except ε (σ × List α)) : σ → List α → σ → Prop where
  | nil (s : σ) : Visits visit s [] s
  | cons {s s₁ s' : σ} {x : α} {next order : List α} : visit s x = .ok (s₁, next) → Visits visit s₁ order s' → Visits visit s (x :: order) s'

variable {visit : σ → α → Except ε (σ × List α)}

/-! ## The walk ends -/

def unspent (weight : α → Nat) (seen : List α) : List α → Nat
  | [] => 0
  | k :: keys => (if k ∈ seen then 0 else weight k) + unspent weight seen keys

theorem unspent_anti (weight : α → Nat) {seen seen' : List α} (h : ∀ x ∈ seen, x ∈ seen') (keys : List α) :
    unspent weight seen' keys ≤ unspent weight seen keys := by
  induction keys with
  | nil => exact Nat.le_refl _
  | cons k keys ih =>
    simp only [unspent]
    by_cases hk : k ∈ seen
    · rw [if_pos hk, if_pos (h k hk)]
      omega
    · rw [if_neg hk]
      split <;> omega

theorem unspent_cons_le (weight : α → Nat) (seen keys : List α) (x : α) : unspent weight (x :: seen) keys ≤ unspent weight seen keys :=
  unspent_anti weight (fun _ hy => List.mem_cons_of_mem x hy) keys

theorem unspent_cons {weight : α → Nat} {seen keys : List α} {x : α} (hx : x ∈ keys) (hfresh : x ∉ seen) :
    unspent weight (x :: seen) keys + weight x ≤ unspent weight seen keys := by
  induction keys with
  | nil => cases hx
  | cons k keys ih =>
    simp only [unspent]
    by_cases hkx : k = x
    · subst hkx
      have hle := unspent_cons_le weight seen keys k
      rw [if_pos List.mem_cons_self, if_neg hfresh]
      omega
    · have hrest := ih ((List.mem_cons.mp hx).resolve_left fun h => hkx h.symm)
      by_cases hk : k ∈ seen
      · rw [if_pos hk, if_pos (List.mem_cons_of_mem x hk)]
        omega
      · rw [if_neg hk, if_neg (by simp [hkx, hk])]
        omega

theorem run_isSome {weight : α → Nat} {keys : List α} (hweight : ∀ s x s' next, visit s x = .ok (s', next) → next.length ≤ weight x)
    (hout : ∀ x, x ∉ keys → weight x = 0) (fuel : Nat) (stack seen : List α) (s : σ)
    (hfuel : stack.length + unspent weight seen keys ≤ fuel) : (run visit fuel stack seen s).isSome = true := by
  induction fuel generalizing stack seen s with
  | zero =>
    cases stack with
    | nil => rfl
    | cons x stack => simp at hfuel
  | succ fuel ih =>
    cases stack with
    | nil => rfl
    | cons x stack =>
      rw [List.length_cons] at hfuel
      rw [run]
      by_cases hx : x ∈ seen
      · rw [if_pos hx]
        exact ih stack seen s (by omega)
      · rw [if_neg hx]
        cases hv : visit s x with
        | error e => rfl
        | ok r =>
          obtain ⟨s', next⟩ := r
          have hpushed := hweight s x s' next hv
          apply ih
          rw [List.length_append, List.length_reverse]
          by_cases hkey : x ∈ keys
          · have hspent : unspent weight (x :: seen) keys + weight x ≤ unspent weight seen keys := unspent_cons hkey hx
            omega
          · have hspent := unspent_cons_le weight seen keys x
            have hzero := hout x hkey
            omega

/-! ## What a walk has visited -/

abbrev Edge (succ : α → List α) (x y : α) : Prop := y ∈ succ x

variable {stack seen : List α} {succ : α → List α} {fuel : Nat}

theorem run_ok {I : σ → Prop}
    (hvisit : ∀ s x s' next, I s → visit s x = .ok (s', next) → I s' ∧ next = succ x) {s s' : σ}
    (hs : I s) (h : run visit fuel stack seen s = some (.ok s')) :
    ∃ order, Visits visit s order s' ∧ order.Nodup ∧ (∀ x ∈ order, x ∉ seen) ∧ (∀ x ∈ stack, x ∈ order ∨ x ∈ seen) ∧
      (∀ x ∈ order, ∀ y ∈ succ x, y ∈ order ∨ y ∈ seen) ∧ ∀ x ∈ order, ∃ root ∈ stack, Relation.ReflTransGen (Edge succ) root x := by
  induction fuel generalizing stack seen s with
  | zero =>
    cases stack with
    | nil =>
      cases h
      exact ⟨[], .nil _, List.nodup_nil, nofun, nofun, nofun, nofun⟩
    | cons x stack => cases h
  | succ fuel ih =>
    cases stack with
    | nil =>
      cases h
      exact ⟨[], .nil _, List.nodup_nil, nofun, nofun, nofun, nofun⟩
    | cons x stack =>
      rw [run] at h
      by_cases hx : x ∈ seen
      · rw [if_pos hx] at h
        obtain ⟨order, hvisits, hnodup, hfresh, hstack, hclosed, hreach⟩ := ih hs h
        refine ⟨order, hvisits, hnodup, hfresh, fun y hy => ?_, hclosed, fun y hy => ?_⟩
        · rcases List.mem_cons.mp hy with rfl | hy
          · exact .inr hx
          · exact hstack y hy
        · obtain ⟨root, hroot, hpath⟩ := hreach y hy
          exact ⟨root, List.mem_cons_of_mem x hroot, hpath⟩
      · rw [if_neg hx] at h
        cases hv : visit s x with
        | error e => rw [hv] at h; cases h
        | ok r =>
          obtain ⟨s₁, next⟩ := r
          rw [hv] at h
          obtain ⟨hs₁, hnext⟩ := hvisit s x s₁ next hs hv
          subst hnext
          obtain ⟨order, hvisits, hnodup, hfresh, hstack, hclosed, hreach⟩ := ih hs₁ h
          have hin {y : α} (hy : y ∈ order ∨ y ∈ x :: seen) : y ∈ x :: order ∨ y ∈ seen := by
            rcases hy with hy | hy
            · exact .inl (List.mem_cons_of_mem x hy)
            · rcases List.mem_cons.mp hy with rfl | hy
              · exact .inl List.mem_cons_self
              · exact .inr hy
          refine ⟨x :: order, .cons hv hvisits, List.nodup_cons.mpr ⟨fun hin => hfresh x hin List.mem_cons_self, hnodup⟩, ?_, ?_, ?_, ?_⟩
          · intro y hy
            rcases List.mem_cons.mp hy with rfl | hy
            · exact hx
            · exact fun hseen => hfresh y hy (List.mem_cons_of_mem x hseen)
          · intro y hy
            rcases List.mem_cons.mp hy with rfl | hy
            · exact .inl List.mem_cons_self
            · exact hin (hstack y (List.mem_append_right _ hy))
          · intro y hy z hz
            rcases List.mem_cons.mp hy with rfl | hy
            · exact hin (hstack z (List.mem_append_left _ (List.mem_reverse.mpr hz)))
            · exact hin (hclosed y hy z hz)
          · intro y hy
            rcases List.mem_cons.mp hy with rfl | hy
            · exact ⟨y, List.mem_cons_self, .refl⟩
            · obtain ⟨root, hroot, hpath⟩ := hreach y hy
              rcases List.mem_append.mp hroot with hroot | hroot
              · exact ⟨x, List.mem_cons_self, .head (List.mem_reverse.mp hroot) hpath⟩
              · exact ⟨root, List.mem_cons_of_mem x hroot, hpath⟩

omit [DecidableEq α] in
theorem mem_order_iff {order stack : List α} (hstack : ∀ x ∈ stack, x ∈ order ∨ x ∈ ([] : List α))
    (hclosed : ∀ x ∈ order, ∀ y ∈ succ x, y ∈ order ∨ y ∈ ([] : List α))
    (hreach : ∀ x ∈ order, ∃ root ∈ stack, Relation.ReflTransGen (Edge succ) root x) (x : α) :
    x ∈ order ↔ ∃ root ∈ stack, Relation.ReflTransGen (Edge succ) root x := by
  refine ⟨hreach x, ?_⟩
  rintro ⟨root, hroot, hpath⟩
  induction hpath with
  | refl => exact (hstack root hroot).resolve_right (List.not_mem_nil)
  | tail _ hedge ih => exact (hclosed _ ih _ hedge).resolve_right (List.not_mem_nil)

theorem run_error {I : σ → Prop}
    (hvisit : ∀ s x s' next, I s → visit s x = .ok (s', next) → I s' ∧ next = succ x) {s : σ} {e : ε}
    (hs : I s) (h : run visit fuel stack seen s = some (.error e)) :
    ∃ x s', I s' ∧ visit s' x = .error e ∧ ∃ root ∈ stack, Relation.ReflTransGen (Edge succ) root x := by
  induction fuel generalizing stack seen s with
  | zero => cases stack <;> cases h
  | succ fuel ih =>
    cases stack with
    | nil => cases h
    | cons x stack =>
      rw [run] at h
      by_cases hx : x ∈ seen
      · rw [if_pos hx] at h
        obtain ⟨y, s', hs', herror, root, hroot, hpath⟩ := ih hs h
        exact ⟨y, s', hs', herror, root, List.mem_cons_of_mem x hroot, hpath⟩
      · rw [if_neg hx] at h
        cases hv : visit s x with
        | error e' =>
          rw [hv] at h
          cases h
          exact ⟨x, s, hs, hv, x, List.mem_cons_self, .refl⟩
        | ok r =>
          obtain ⟨s₁, next⟩ := r
          rw [hv] at h
          obtain ⟨hs₁, hnext⟩ := hvisit s x s₁ next hs hv
          subst hnext
          obtain ⟨y, s', hs', herror, root, hroot, hpath⟩ := ih hs₁ h
          refine ⟨y, s', hs', herror, ?_⟩
          rcases List.mem_append.mp hroot with hroot | hroot
          · exact ⟨x, List.mem_cons_self, .head (List.mem_reverse.mp hroot) hpath⟩
          · exact ⟨root, List.mem_cons_of_mem x hroot, hpath⟩

/-! ## The nodes a walk comes to -/

/-- The walk pops `x` unseen, and visits it with the state `t`. -/
inductive Comes (visit : σ → α → Except ε (σ × List α)) : List α → List α → σ → α → σ → Prop where
  | here {x : α} {stack seen : List α} {s : σ} : x ∉ seen → Comes visit (x :: stack) seen s x s
  | skip {x y : α} {stack seen : List α} {s t : σ} : x ∈ seen → Comes visit stack seen s y t → Comes visit (x :: stack) seen s y t
  | later {x y : α} {next stack seen : List α} {s s' t : σ} : x ∉ seen → visit s x = .ok (s', next) →
      Comes visit (next.reverse ++ stack) (x :: seen) s' y t → Comes visit (x :: stack) seen s y t

abbrev FreshEdge (seen : List α) (succ : α → List α) (x y : α) : Prop := x ∉ seen ∧ y ∈ succ x

omit [DecidableEq α] in
theorem Comes.reach (hvisit : ∀ s x s' next, visit s x = .ok (s', next) → next = succ x) {s t : σ}
    {y : α} (h : Comes visit stack seen s y t) : y ∉ seen ∧ ∃ root ∈ stack, Relation.ReflTransGen (FreshEdge seen succ) root y := by
  induction h with
  | here hx => exact ⟨hx, _, List.mem_cons_self, .refl⟩
  | skip _ _ ih =>
    obtain ⟨hy, root, hroot, hpath⟩ := ih
    exact ⟨hy, root, List.mem_cons_of_mem _ hroot, hpath⟩
  | @later x y next stack seen s s' t hx hv _ ih =>
    obtain ⟨hy, root, hroot, hpath⟩ := ih
    have hpath : Relation.ReflTransGen (FreshEdge seen succ) root y :=
      Relation.ReflTransGen.mono (fun _ _ hedge => ⟨fun hin => hedge.1 (List.mem_cons_of_mem x hin), hedge.2⟩) _ _ hpath
    refine ⟨fun hin => hy (List.mem_cons_of_mem x hin), ?_⟩
    rcases List.mem_append.mp hroot with hroot | hroot
    · rw [hvisit s x s' next hv] at hroot
      exact ⟨x, List.mem_cons_self, .head ⟨hx, List.mem_reverse.mp hroot⟩ hpath⟩
    · exact ⟨root, List.mem_cons_of_mem x hroot, hpath⟩

theorem Comes.visited {s t : σ} {y : α} (h : Comes visit stack seen s y t) {s' : σ}
    (hrun : run visit fuel stack seen s = some (.ok s')) : ∃ r, visit t y = .ok r := by
  induction h generalizing fuel with
  | @here x stack seen s hx =>
    cases fuel with
    | zero => cases hrun
    | succ fuel =>
      rw [run, if_neg hx] at hrun
      cases hv : visit s x with
      | error e => rw [hv] at hrun; cases hrun
      | ok r => exact ⟨r, rfl⟩
  | skip hx _ ih =>
    cases fuel with
    | zero => cases hrun
    | succ fuel =>
      rw [run, if_pos hx] at hrun
      exact ih hrun
  | later hx hv _ ih =>
    cases fuel with
    | zero => cases hrun
    | succ fuel =>
      simp only [run, if_neg hx, hv] at hrun
      exact ih hrun

theorem comes_closed (hvisit : ∀ s x s' next, visit s x = .ok (s', next) → next = succ x)
    {s s' : σ} (h : run visit fuel stack seen s = some (.ok s')) :
    (∀ x ∈ stack, x ∈ seen ∨ ∃ t, Comes visit stack seen s x t) ∧
      ∀ x t, Comes visit stack seen s x t → ∀ y ∈ succ x, y ∈ seen ∨ ∃ t', Comes visit stack seen s y t' := by
  induction fuel generalizing stack seen s with
  | zero =>
    cases stack with
    | nil => exact ⟨fun x hx => absurd hx List.not_mem_nil, fun x t hcomes => by cases hcomes⟩
    | cons x stack => cases h
  | succ fuel ih =>
    cases stack with
    | nil => exact ⟨fun x hx => absurd hx List.not_mem_nil, fun x t hcomes => by cases hcomes⟩
    | cons x stack =>
      rw [run] at h
      by_cases hx : x ∈ seen
      · rw [if_pos hx] at h
        obtain ⟨hstack, hclosed⟩ := ih h
        have hskip {y : α} (hy : y ∈ seen ∨ ∃ t, Comes visit stack seen s y t) : y ∈ seen ∨ ∃ t, Comes visit (x :: stack) seen s y t :=
          hy.imp_right fun ⟨t, hcomes⟩ => ⟨t, .skip hx hcomes⟩
        refine ⟨fun y hy => ?_, fun y t hcomes z hz => ?_⟩
        · rcases List.mem_cons.mp hy with rfl | hy
          · exact .inl hx
          · exact hskip (hstack y hy)
        · cases hcomes with
          | here hfresh => exact absurd hx hfresh
          | skip _ hcomes => exact hskip (hclosed y t hcomes z hz)
          | later hfresh _ _ => exact absurd hx hfresh
      · rw [if_neg hx] at h
        cases hv : visit s x with
        | error e => rw [hv] at h; cases h
        | ok r =>
          obtain ⟨s₁, next⟩ := r
          rw [hv] at h
          obtain ⟨hstack, hclosed⟩ := ih h
          have hlater {y : α} (hy : y ∈ x :: seen ∨ ∃ t, Comes visit (next.reverse ++ stack) (x :: seen) s₁ y t) :
              y ∈ seen ∨ ∃ t, Comes visit (x :: stack) seen s y t := by
            rcases hy with hy | ⟨t, hcomes⟩
            · rcases List.mem_cons.mp hy with rfl | hy
              · exact .inr ⟨s, .here hx⟩
              · exact .inl hy
            · exact .inr ⟨t, .later hx hv hcomes⟩
          refine ⟨fun y hy => ?_, fun y t hcomes z hz => ?_⟩
          · rcases List.mem_cons.mp hy with rfl | hy
            · exact .inr ⟨s, .here hx⟩
            · exact hlater (hstack y (List.mem_append_right _ hy))
          · cases hcomes with
            | here _ =>
              rw [← hvisit s x s₁ next hv] at hz
              exact hlater (hstack z (List.mem_append_left _ (List.mem_reverse.mpr hz)))
            | skip hin _ => exact absurd hin hx
            | later _ hv' hcomes =>
              rw [hv] at hv'
              cases hv'
              exact hlater (hclosed y t hcomes z hz)

theorem comes_of_reach (hvisit : ∀ s x s' next, visit s x = .ok (s', next) → next = succ x)
    {s s' : σ} (h : run visit fuel stack seen s = some (.ok s')) {root x : α} (hroot : root ∈ stack)
    (hpath : Relation.ReflTransGen (FreshEdge seen succ) root x) (hx : x ∉ seen) : ∃ t, Comes visit stack seen s x t := by
  obtain ⟨hstack, hclosed⟩ := comes_closed hvisit h
  induction hpath with
  | refl => exact (hstack root hroot).resolve_left hx
  | tail _ hedge ih =>
    obtain ⟨t, hcomes⟩ := ih hedge.1
    exact (hclosed _ t hcomes _ hedge.2).resolve_left hx

end Worklist
