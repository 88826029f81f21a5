import Mathlib.Data.List.Nodup
import Mathlib.Logic.Function.Basic

/-!
# The latest of a key wins

Concurrent calls each bring a state under a key. A state is sent by its own call,
waits in a table of one slot a key, or is in the batch of a call that sends for
others; a later state of the key takes the slot. The ledger keeps which states
were handed over, accepted and turned down. The invariant says where the latest
state of every key is; one lemma for each thing a call can do keeps it.
-/

namespace LatestWins

variable {κ : Type}

/-- A call that is `starting` has placed nothing; `done true` gave up. -/
inductive Phase where
  | starting
  | leading
  | waits (seq : Nat)
  | sending (seq : Nat)
  | done (gaveUp : Bool)

structure Slot (κ : Type) where
  key : κ
  call : Nat
  seq : Nat

@[ext]
structure View (κ : Type) where
  key : Nat → Option κ
  phase : Nat → Phase
  batch : Nat → List (Slot κ)
  own : Nat → Bool
  refusals : Nat → Nat
  state : κ → Option (Slot κ)
  seq : Nat
  handed : List Nat
  accepted : List Nat
  turnedDown : List Nat

inductive Place where
  | nowhere
  | table
  | batch (holder : Nat)

namespace View

def Newest (V : View κ) (n : Nat) : Prop := ∀ m, n < m → V.key m = V.key n → V.phase m = .starting

def InTable (V : View κ) (n : Nat) : Prop := ∃ k x, V.state k = some x ∧ x.call = n

def InBatch (V : View κ) (n : Nat) : Prop := ∃ h, ∃ x ∈ V.batch h, x.call = n

def Carried (V : View κ) (n : Nat) : Prop :=
  V.InTable n ∨ V.InBatch n ∨ V.phase n = .leading ∨ ∃ s, V.phase n = .sending s

def Has (V : View κ) (n s : Nat) : Prop :=
  V.phase n = .waits s ∨ V.phase n = .sending s ∨ ∃ h, ∃ x ∈ V.batch h, x.call = n ∧ x.seq = s

def GivenUp (V : View κ) (n : Nat) : Prop :=
  V.phase n = .done true ∧ ∀ j, j < n → V.key j = V.key n → ∀ s, V.phase j ≠ .waits s

end View

structure Kept (limit : Nat) (V : View κ) (place : Nat → Place) : Prop where
  keyed : ∀ n, V.phase n ≠ .starting → V.key n ≠ none
  owner : ∀ k x, V.state k = some x →
    x.key = k ∧ V.key x.call = some k ∧ V.Newest x.call ∧ V.phase x.call = .waits x.seq ∧ place x.call = .table
  entry : ∀ n, ∀ x ∈ V.batch n,
    V.key x.call = some x.key ∧ (V.phase x.call = .waits x.seq ∨ V.phase x.call = .done false) ∧ place x.call = .batch n
  nodup : ∀ n, ((V.batch n).map Slot.call).Nodup
  holder : ∀ n, V.batch n ≠ [] → ∃ s, V.phase n = .waits s
  bound : ∀ n s, V.Has n s → s ≤ V.seq
  unique : ∀ n m s, V.Has n s → V.Has m s → n = m
  own : ∀ n, V.own n = true → (∃ s, V.phase n = .waits s) ∧ place n = .nowhere ∧ n ∈ V.accepted
  placed : ∀ n ∈ V.handed, V.key n ≠ none → V.phase n ≠ .starting
  mono : V.handed.Pairwise fun x y => ∀ k, V.key x = some k → V.key y = some k → y ≤ x
  accepted : ∀ n ∈ V.accepted, V.key n ≠ none → n ∈ V.handed
  leading : ∀ n, V.phase n = .leading → n ∈ V.handed
  sending : ∀ n s, V.phase n = .sending s → n ∈ V.handed
  counted : ∀ n, V.refusals n ≤ V.turnedDown.count n
  gaveUp : ∀ n, V.phase n = .done true → limit < V.turnedDown.count n
  last : ∀ n, V.phase n ≠ .starting → V.Newest n → n ∈ V.accepted ∨ V.Carried n ∨ V.GivenUp n

namespace View

variable (V : View κ) (n : Nat)

def begin (k : κ) : View κ := { V with key := Function.update V.key n (some k) }

def hand : View κ := { V with handed := n :: V.handed }

def accept : View κ := { V with accepted := n :: V.accepted }

def turnDown : View κ := { V with turnedDown := n :: V.turnedDown }

def setPhase (p : Phase) : View κ := { V with phase := Function.update V.phase n p }

def setBatch (b : List (Slot κ)) : View κ := { V with batch := Function.update V.batch n b }

def setOwn (b : Bool) : View κ := { V with own := Function.update V.own n b }

def setRefusals (r : Nat) : View κ := { V with refusals := Function.update V.refusals n r }

def setState [DecidableEq κ] (k : κ) (x : Option (Slot κ)) : View κ := { V with state := Function.update V.state k x }

def setCall (p : Phase) (b : List (Slot κ)) (o : Bool) (r : Nat) : View κ :=
  (((V.setPhase n p).setBatch n b).setOwn n o).setRefusals n r

section
variable {V n} {p : Phase} {b : List (Slot κ)} {o : Bool} {r : Nat}

@[simp] theorem setCall_key : (V.setCall n p b o r).key = V.key := rfl
@[simp] theorem setCall_phase : (V.setCall n p b o r).phase = Function.update V.phase n p := rfl
@[simp] theorem setCall_batch : (V.setCall n p b o r).batch = Function.update V.batch n b := rfl
@[simp] theorem setCall_own : (V.setCall n p b o r).own = Function.update V.own n o := rfl
@[simp] theorem setCall_refusals : (V.setCall n p b o r).refusals = Function.update V.refusals n r := rfl
@[simp] theorem setCall_state : (V.setCall n p b o r).state = V.state := rfl
@[simp] theorem setCall_seq : (V.setCall n p b o r).seq = V.seq := rfl
@[simp] theorem setCall_handed : (V.setCall n p b o r).handed = V.handed := rfl
@[simp] theorem setCall_accepted : (V.setCall n p b o r).accepted = V.accepted := rfl
@[simp] theorem setCall_turnedDown : (V.setCall n p b o r).turnedDown = V.turnedDown := rfl

end

theorem setCall_self : V.setCall n (V.phase n) (V.batch n) (V.own n) (V.refusals n) = V := by
  simp [setCall, setPhase, setBatch, setOwn, setRefusals]

end View

namespace Kept

variable {limit : Nat} {V : View κ} {place : Nat → Place} {n s : Nat} {k : κ} {x : Slot κ} {rest : List (Slot κ)}

theorem batch_nil (h : Kept limit V place) (hn : ∀ s, V.phase n ≠ .waits s) : V.batch n = [] := by
  by_contra hb
  obtain ⟨s, hs⟩ := h.holder n hb
  exact hn s hs

theorem own_false (h : Kept limit V place) (hn : ∀ s, V.phase n ≠ .waits s) : V.own n = false := by
  cases ho : V.own n with
  | false => rfl
  | true =>
    obtain ⟨s, hs⟩ := (h.own n ho).1
    exact absurd hs (hn s)

theorem hand_of (h : Kept limit V place) (hp : V.key n ≠ none → V.phase n ≠ .starting)
    (hm : ∀ m ∈ V.handed, ∀ k, V.key n = some k → V.key m = some k → m ≤ n) : Kept limit (V.hand n) place :=
  { h with
    placed := by
      intro m hm'
      rcases List.mem_cons.mp hm' with rfl | hm'
      · exact hp
      · exact h.placed m hm'
    mono := List.pairwise_cons.mpr ⟨hm, h.mono⟩
    accepted := fun m hm' hk => List.mem_cons_of_mem _ (h.accepted m hm' hk)
    leading := fun m hm' => List.mem_cons_of_mem _ (h.leading m hm')
    sending := fun m s hm' => List.mem_cons_of_mem _ (h.sending m s hm') }

theorem accept_of (h : Kept limit V place) (hn : V.key n ≠ none → n ∈ V.handed) : Kept limit (V.accept n) place :=
  { h with
    own := fun m hm => ⟨(h.own m hm).1, (h.own m hm).2.1, List.mem_cons_of_mem _ (h.own m hm).2.2⟩
    accepted := by
      intro m hm
      rcases List.mem_cons.mp hm with rfl | hm
      · exact hn
      · exact h.accepted m hm
    last := fun m hp hm => (h.last m hp hm).imp_left (List.mem_cons_of_mem _) }

theorem turnDown (h : Kept limit V place) (n : Nat) : Kept limit (V.turnDown n) place :=
  { h with
    counted := fun m => Nat.le_trans (h.counted m) List.count_le_count_cons
    gaveUp := fun m hm => Nat.lt_of_lt_of_le (h.gaveUp m hm) List.count_le_count_cons }

theorem begin_of (h : Kept limit V place) (hn : V.phase n = .starting) (hh : n ∉ V.handed) (ha : n ∉ V.accepted) (k : κ) :
    Kept limit (V.begin n k) place := by
  have key_of : ∀ m, m ≠ n → (V.begin n k).key m = V.key m := fun m hm => Function.update_of_ne hm _ _
  have ne_of : ∀ m, V.phase m ≠ .starting → m ≠ n := fun m hm e => hm (e ▸ hn)
  have newest_iff : ∀ m, m ≠ n → ((V.begin n k).Newest m ↔ V.Newest m) := by
    intro m hm
    refine forall_congr' fun j => imp_congr_right fun _ => ?_
    by_cases hj : j = n
    · simp [View.begin, hj, hn]
    · rw [key_of m hm, key_of j hj]
      rfl
  exact
    { h with
      keyed := fun m hm => by rw [key_of m (ne_of m hm)]; exact h.keyed m hm
      owner := by
        intro k' x hx
        obtain ⟨hk, hkey, hnew, hp, hpl⟩ := h.owner k' x hx
        have hne := ne_of x.call (by rw [hp]; simp)
        exact ⟨hk, by rw [key_of _ hne]; exact hkey, (newest_iff _ hne).mpr hnew, hp, hpl⟩
      entry := by
        intro m x hx
        obtain ⟨hkey, hp, hpl⟩ := h.entry m x hx
        have hne := ne_of x.call (by rcases hp with hp | hp <;> rw [hp] <;> simp)
        exact ⟨by rw [key_of _ hne]; exact hkey, hp, hpl⟩
      placed := by
        intro m hm hk
        have hne : m ≠ n := fun e => hh (e ▸ hm)
        rw [key_of m hne] at hk
        exact h.placed m hm hk
      mono := by
        refine List.Pairwise.imp_of_mem ?_ h.mono
        intro x y hx hy hxy
        rw [key_of x fun e => hh (e ▸ hx), key_of y fun e => hh (e ▸ hy)]
        exact hxy
      accepted := by
        intro m hm hk
        rw [key_of m fun e => ha (e ▸ hm)] at hk
        exact h.accepted m hm hk
      last := by
        intro m hp hnew
        have hne := ne_of m hp
        rcases h.last m hp ((newest_iff m hne).mp hnew) with h1 | h1 | ⟨h1, h2⟩
        · exact .inl h1
        · exact .inr (.inl h1)
        · refine .inr (.inr ⟨h1, fun j hj hk s => ?_⟩)
          by_cases hj' : j = n
          · rw [hj']
            exact fun e => by simp [View.begin, hn] at e
          · rw [key_of m hne, key_of j hj'] at hk
            exact h2 j hj hk s }

section Transitions

theorem lead_of (h : Kept limit V place) (hn : V.phase n = .starting) (hk : V.key n = some k) (hnew : V.Newest n)
    (hs : V.state k = none) : Kept limit ((V.setPhase n .leading).hand n) place := by
  obtain ⟨keyed, owner, entry, nodup, holder, bound, unique, own, placed, mono, accepted, leading, sending, counted, gaveUp, last⟩ := id h
  simp only [View.Newest, View.Has, View.Carried, View.InTable, View.InBatch, View.GivenUp] at *
  constructor
  all_goals simp only [View.setPhase, View.hand, Function.update_apply, List.mem_cons, List.pairwise_cons, View.Newest, View.Has,
    View.Carried, View.InTable, View.InBatch, View.GivenUp]
  all_goals grind -linarith

/-- A newest call waits in the table, under a fresh number or under the one it was sent with. -/
theorem wait_of [DecidableEq κ] (h : Kept limit V place) (hk : V.key n = some k) (hnew : V.Newest n) {r : Nat}
    (hr : r ≤ V.turnedDown.count n) {q : Nat} (hs : s ≤ q) (hq : V.seq ≤ q)
    (hn : (V.phase n = .starting ∨ V.phase n = .leading) ∧ V.seq < s ∨ V.phase n = .sending s) :
    Kept limit { ((V.setPhase n (.waits s)).setState k (some ⟨k, n, s⟩)).setRefusals n r with seq := q } (Function.update place n .table) := by
  obtain ⟨keyed, owner, entry, nodup, holder, bound, unique, own, placed, mono, accepted, leading, sending, counted, gaveUp, last⟩ := id h
  simp only [View.Newest, View.Has] at *
  constructor
  case last =>
    intro m hp hm
    by_cases hmn : m = n
    · subst hmn
      exact .inr (.inl (.inl ⟨k, _, Function.update_self _ _ _, rfl⟩))
    · have hkm : V.key m ≠ some k := by
        intro hkm
        simp only [View.setPhase, View.setState, View.setRefusals, View.Newest, Function.update_apply] at hp hm hnew
        grind -linarith
      simp only [View.setPhase, View.setState, View.setRefusals, Function.update_apply, View.Newest, View.Carried, View.InTable,
        View.InBatch, View.GivenUp] at *
      grind -linarith
  all_goals simp only [View.setPhase, View.setState, View.setRefusals, Function.update_apply, View.Newest, View.Has]
  all_goals grind -linarith

theorem enqueue_of [DecidableEq κ] (h : Kept limit V place) (hn : V.phase n = .starting ∨ V.phase n = .leading) (hk : V.key n = some k)
    (hnew : V.Newest n) {r : Nat} (hr : r ≤ V.turnedDown.count n) :
    Kept limit { ((V.setPhase n (.waits (V.seq + 1))).setState k (some ⟨k, n, V.seq + 1⟩)).setRefusals n r with seq := V.seq + 1 }
      (Function.update place n .table) :=
  h.wait_of hk hnew hr (Nat.le_refl _) (Nat.le_succ _) (.inl ⟨hn, Nat.lt_succ_self _⟩)

theorem take_of [DecidableEq κ] (h : Kept limit V place) (hx : V.state k = some x) (hn : V.phase n = .waits s) :
    Kept limit ((V.setState k none).setBatch n (V.batch n ++ [x])) (Function.update place x.call (.batch n)) := by
  obtain ⟨keyed, owner, entry, nodup, holder, bound, unique, own, placed, mono, accepted, leading, sending, counted, gaveUp, last⟩ := id h
  have hhas : ∀ m s, ((V.setState k none).setBatch n (V.batch n ++ [x])).Has m s → V.Has m s := by
    simp only [View.setState, View.setBatch, View.Has, Function.update_apply]
    grind -linarith
  have hcar : ∀ m, V.Carried m → ((V.setState k none).setBatch n (V.batch n ++ [x])).Carried m := by
    simp only [View.setState, View.setBatch, View.Carried, View.InTable, View.InBatch, Function.update_apply]
    grind -linarith
  simp only [View.Newest] at *
  constructor
  case unique => exact fun m m' s hm hm' => h.unique m m' s (hhas m s hm) (hhas m' s hm')
  case bound => exact fun m s hm => h.bound m s (hhas m s hm)
  case last => exact fun m hp hm => (h.last m hp hm).imp_right (Or.imp_left (hcar m))
  all_goals simp only [View.setState, View.setBatch, Function.update_apply, View.Newest]
  all_goals grind -linarith

theorem drop_of (h : Kept limit V place) (hb : V.batch n = x :: rest) (hx : x.call ∈ V.accepted ∨ V.state x.key ≠ none) :
    Kept limit (V.setBatch n rest) (Function.update place x.call .nowhere) := by
  obtain ⟨keyed, owner, entry, nodup, holder, bound, unique, own, placed, mono, accepted, leading, sending, counted, gaveUp, last⟩ := id h
  have hhas : ∀ m s, (V.setBatch n rest).Has m s → V.Has m s := by
    simp only [View.setBatch, View.Has, Function.update_apply]
    grind -linarith
  have hcar : ∀ m, V.Newest m → V.Carried m → m ∈ V.accepted ∨ (V.setBatch n rest).Carried m := by
    intro m hm hc
    by_cases hxm : x.call = m
    · subst hxm
      rcases hx with hx | hx
      · exact .inl hx
      · obtain ⟨y, hy⟩ := Option.ne_none_iff_exists'.mp hx
        obtain ⟨hyk, hykey, hynew, hyp, -⟩ := h.owner _ _ hy
        have hxe := (h.entry n x (by rw [hb]; exact List.mem_cons_self)).1
        have hxy : y.call = x.call := by
          simp only [View.Newest] at hm hynew
          have hxp := (h.entry n x (by rw [hb]; exact List.mem_cons_self)).2.1
          grind -linarith
        exact .inr (.inl ⟨_, y, hy, hxy⟩)
    · simp only [View.setBatch, View.Carried, View.InTable, View.InBatch, Function.update_apply] at hc ⊢
      grind -linarith
  simp only [View.Newest] at *
  constructor
  case unique => exact fun m m' s hm hm' => h.unique m m' s (hhas m s hm) (hhas m' s hm')
  case bound => exact fun m s hm => h.bound m s (hhas m s hm)
  case last =>
    intro m hp hm
    rcases h.last m hp hm with h1 | h1 | h1
    · exact .inl h1
    · exact (hcar m hm h1).imp_right .inl
    · exact .inr (.inr h1)
  all_goals simp only [View.setBatch, Function.update_apply, View.Newest]
  all_goals grind -linarith

theorem putBack_of [DecidableEq κ] (h : Kept limit V place) (hb : V.batch n = x :: rest) (hs : V.state x.key = none) (hnew : V.Newest x.call)
    (hw : V.phase x.call = .waits x.seq) :
    Kept limit ((V.setState x.key (some x)).setBatch n rest) (Function.update place x.call .table) := by
  obtain ⟨keyed, owner, entry, nodup, holder, bound, unique, own, placed, mono, accepted, leading, sending, counted, gaveUp, last⟩ := id h
  have hhas : ∀ m s, ((V.setState x.key (some x)).setBatch n rest).Has m s → V.Has m s := by
    simp only [View.setState, View.setBatch, View.Has, Function.update_apply]
    grind -linarith
  have hcar : ∀ m, V.Carried m → ((V.setState x.key (some x)).setBatch n rest).Carried m := by
    simp only [View.setState, View.setBatch, View.Carried, View.InTable, View.InBatch, Function.update_apply]
    grind -linarith
  simp only [View.Newest] at *
  constructor
  case unique => exact fun m m' s hm hm' => h.unique m m' s (hhas m s hm) (hhas m' s hm')
  case bound => exact fun m s hm => h.bound m s (hhas m s hm)
  case last => exact fun m hp hm => (h.last m hp hm).imp_right (Or.imp_left (hcar m))
  all_goals simp only [View.setState, View.setBatch, Function.update_apply, View.Newest]
  all_goals grind -linarith

theorem own_of (h : Kept limit V place) (hn : V.phase n = .waits s) (hp : place n = .nowhere) (ha : n ∈ V.accepted) :
    Kept limit (V.setOwn n true) place :=
  { h with
    own := by
      intro m hm
      by_cases hmn : m = n
      · subst hmn
        exact ⟨⟨s, hn⟩, hp, ha⟩
      · exact h.own m (by simpa [View.setOwn, Function.update_of_ne hmn] using hm) }

theorem send_of [DecidableEq κ] (h : Kept limit V place) (hx : V.state k = some x) (hc : x.call = n) (hb : V.batch n = []) :
    Kept limit (((V.setState k none).setPhase n (.sending x.seq)).hand n) (Function.update place n .nowhere) := by
  obtain ⟨keyed, owner, entry, nodup, holder, bound, unique, own, placed, mono, accepted, leading, sending, counted, gaveUp, last⟩ := id h
  subst hc
  simp only [View.Newest, View.Has, View.Carried, View.InTable, View.InBatch, View.GivenUp] at *
  constructor
  case mono =>
    refine List.pairwise_cons.mpr ⟨?_, h.mono⟩
    intro y hy k' (hk' : V.key x.call = some k') (hy' : V.key y = some k')
    obtain ⟨-, -, hnew, -, -⟩ := h.owner k x hx
    by_contra hlt
    exact h.placed y hy (by rw [hy']; simp) (hnew y (by omega) (hy'.trans hk'.symm))
  all_goals simp only [View.setPhase, View.hand, View.setState, Function.update_apply, View.Newest, View.Has, View.Carried,
    View.InTable, View.InBatch, View.GivenUp, List.mem_cons]
  all_goals grind -linarith

theorem resend_of [DecidableEq κ] (h : Kept limit V place) (hn : V.phase n = .sending s) (hk : V.key n = some k)
    (hnew : V.Newest n) {r : Nat} (hr : r ≤ V.turnedDown.count n) :
    Kept limit (((V.setState k (some ⟨k, n, s⟩)).setPhase n (.waits s)).setRefusals n r) (Function.update place n .table) :=
  h.wait_of hk hnew hr (h.bound n s (.inr (.inl hn))) (Nat.le_refl _) (.inr hn)

theorem return_of (h : Kept limit V place) (hn : V.phase n ≠ .starting) (ht : ¬ V.InTable n) (hb : V.batch n = [])
    (ho : V.Newest n → n ∈ V.accepted ∨ V.InBatch n) :
    Kept limit (((V.setPhase n (.done false)).setOwn n false).setRefusals n 0) place := by
  obtain ⟨keyed, owner, entry, nodup, holder, bound, unique, own, placed, mono, accepted, leading, sending, counted, gaveUp, last⟩ := id h
  simp only [View.Newest, View.Has, View.InTable] at *
  constructor
  case last =>
    intro m hp hm
    by_cases hmn : m = n
    · subst hmn
      have hm' : V.Newest m := by
        simp only [View.setPhase, View.setOwn, View.setRefusals, View.Newest, Function.update_apply] at hm ⊢
        grind -linarith
      exact (ho hm').imp_right fun hc => .inl (.inr (.inl hc))
    · simp only [View.setPhase, View.setOwn, View.setRefusals, Function.update_apply, View.Newest, View.Carried, View.InTable,
        View.InBatch, View.GivenUp] at *
      grind -linarith
  all_goals simp only [View.setPhase, View.setOwn, View.setRefusals, Function.update_apply, View.Newest, View.Has]
  all_goals grind -linarith

theorem giveUp_of (h : Kept limit V place) (hn : V.phase n = .sending s) (hc : limit < V.turnedDown.count n)
    (ho : ¬ V.Newest n ∨ ∀ j, j < n → V.key j = V.key n → ∀ s, V.phase j ≠ .waits s) :
    Kept limit (((V.setPhase n (.done true)).setOwn n false).setRefusals n 0) place := by
  obtain ⟨keyed, owner, entry, nodup, holder, bound, unique, own, placed, mono, accepted, leading, sending, counted, gaveUp, last⟩ := id h
  simp only [View.Newest, View.Has] at *
  constructor
  case last =>
    intro m hp hm
    by_cases hmn : m = n
    · subst hmn
      simp only [View.setPhase, View.setOwn, View.setRefusals, Function.update_apply, View.Newest, View.GivenUp] at *
      grind -linarith
    · simp only [View.setPhase, View.setOwn, View.setRefusals, Function.update_apply, View.Newest, View.Carried, View.InTable,
        View.InBatch, View.GivenUp] at *
      grind -linarith
  all_goals simp only [View.setPhase, View.setOwn, View.setRefusals, Function.update_apply, View.Newest, View.Has]
  all_goals grind -linarith

end Transitions

end Kept

end LatestWins
