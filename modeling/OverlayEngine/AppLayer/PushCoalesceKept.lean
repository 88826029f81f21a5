import OverlayEngine.Basis.LatestWins
import OverlayEngine.AppLayer.PushCoalesce

/-!
# The newest state of a key is delivered

A refused send puts an older body back where a newer one has been, or back to a
waiter that has left. Where no refusal does, the calls keep the invariant of the
newest state, and what they leave behind at the end follows from it.
-/

set_option linter.unusedSectionVars false

namespace OverlayEngine.PushCoalesce

open KeyedRows LatestWins

section
variable {ι κ β : Type} [DecidableEq ι] [LinearOrder κ]

/-! ## What the calls come to -/

namespace World

def keyOf (w : World ι κ β) (n : Nat) : Option (ι × κ) := w.calls[n]?.bind fun c => c.key.map (c.identity, ·)

def Latest (w : World ι κ β) (n : Nat) : Prop := ∀ m, n < m → w.keyOf m ≠ w.keyOf n

def Waits (w : World ι κ β) (n : Nat) : Prop :=
  ∃ c, w.calls[n]? = some c ∧ match c.pc with
    | .waiting .. | .releasing .. => True
    | _ => False

def Returned (w : World ι κ β) (n : Nat) (a : Answer) : Prop := ∃ c, w.calls[n]? = some c ∧ c.pc = .returned a

/-- Call `h` has not returned and carries the body of call `n`. -/
def CarriedBy (w : World ι κ β) (h n : Nat) : Prop :=
  ∃ c k, w.calls[h]? = some c ∧ c.key = some k ∧ match c.pc with
    | .leading => h = n
    | .sending _ _ _ _ p => p.call = n
    | .waiting seq .. => ∃ p, w.coalescer.state c.identity k = some p ∧ p.seq = seq ∧ p.call = n
    | .releasing seq _ _ e rest _ =>
      (∃ x ∈ e :: rest, x.2.call = n) ∨ ∃ p, w.coalescer.state c.identity k = some p ∧ p.seq = seq ∧ p.call = n
    | _ => False

/-- The body of call `n`, or one submitted later for its key, was sent or is being carried. -/
def Covered (w : World ι κ β) (n : Nat) : Prop :=
  ∃ j, (j = n ∨ n < j ∧ w.keyOf n ≠ none ∧ w.keyOf j = w.keyOf n) ∧ (j ∈ w.accepted ∨ ∃ h, w.CarriedBy h j)

def empty : World ι κ β := ⟨⟨fun _ => none, [], none, 0, 0, []⟩, [], 0, [], [], []⟩

end World

def Move.Meets (w : World ι κ β) : Move ι β → Prop
  | .answer n a => ∀ c k, w.calls[n]? = some c → c.key = some k → match c.pc with
    | .leading => a = .budgetRefused → w.Latest n
    | .sending _ _ refusals _ _ =>
      a = .budgetRefused →
        if pushBudgetRetryWindows < refusals + 1 then ¬ w.Latest n ∨ ∀ j < n, w.keyOf j = w.keyOf n → ¬ w.Waits j
        else (w.coalescer.state c.identity k).isSome ∨ w.Latest n
    | .releasing _ _ _ e rest _ =>
      (a = .budgetRefused → (w.coalescer.state c.identity e.1).isSome ∨ w.Latest e.2.call ∧ w.Waits e.2.call) ∧
        ∀ e' ∈ rest.head?, ∀ m ∈ w.handed, w.keyOf m = some (c.identity, e'.1) → m ≤ e'.2.call
    | _ => True
  | _ => True

def World.Meeting (coalesceKey : β → Option κ) (knobs : Knobs) : World ι κ β → List (Move ι β) → Prop
  | _, [] => True
  | w, m :: moves => m.Meets w ∧ (w.step coalesceKey knobs m).Meeting coalesceKey knobs moves

/-! ## The calls as a view -/

def slot (i : ι) (e : κ × Pending β) : Slot (ι × κ) := ⟨(i, e.1), e.2.call, e.2.seq⟩

namespace Pc

def phase : Pc κ β → Phase
  | .passing => .starting
  | .leading => .leading
  | .releasing seq .. => .waits seq
  | .waiting seq .. => .waits seq
  | .sending seq .. => .sending seq
  | .returned a => .done (decide (a = .budgetRefused))

def batch (i : ι) : Pc κ β → List (Slot (ι × κ))
  | .releasing _ _ _ e rest _ => (e :: rest).map (slot i)
  | _ => []

def own : Pc κ β → Bool
  | .releasing _ _ _ _ _ mine => mine.isSome
  | _ => false

def refusals : Pc κ β → Nat
  | .releasing _ _ refusals .. => refusals
  | .waiting _ _ refusals .. => refusals
  | .sending _ _ refusals .. => refusals
  | _ => 0

def Ok (handed : List Nat) (n : Nat) : Pc κ β → Prop
  | .passing => False
  | .sending _ _ _ _ p => p.call = n
  | .releasing _ _ _ e _ mine => e.2.call ∈ handed ∧ mine ≠ some .budgetRefused
  | _ => True

end Pc

namespace World

def view (w : World ι κ β) : View (ι × κ) where
  key := w.keyOf
  phase n := (w.calls[n]?.filter fun c => c.key.isSome).elim .starting fun c => c.pc.phase
  batch n := (w.calls[n]?.filter fun c => c.key.isSome).elim [] fun c => c.pc.batch c.identity
  own n := (w.calls[n]?.filter fun c => c.key.isSome).elim false fun c => c.pc.own
  refusals n := (w.calls[n]?.filter fun c => c.key.isSome).elim 0 fun c => c.pc.refusals
  state k := (row Prod.fst w.coalescer.pending k).map fun e => ⟨e.1, e.2.call, e.2.seq⟩
  seq := w.coalescer.seq
  handed := w.handed
  accepted := w.accepted
  turnedDown := w.turnedDown

end World

/-! ## What the table and the calls do to the view -/

namespace Coalescer

variable (c : Coalescer ι κ β) (i : ι)

@[simp] theorem prune_pending (now : Nat) : (c.prune now).pending = c.pending := rfl
@[simp] theorem prune_seq (now : Nat) : (c.prune now).seq = c.seq := rfl
@[simp] theorem noteSend_pending (now : Nat) : (c.noteSend now).pending = c.pending := rfl
@[simp] theorem noteSend_seq (now : Nat) : (c.noteSend now).seq = c.seq := rfl
@[simp] theorem setSeat_pending (s : Seat) : (c.setSeat i s).pending = c.pending := rfl
@[simp] theorem setSeat_seq (s : Seat) : (c.setSeat i s).seq = c.seq := rfl
@[simp] theorem setWindow_pending (e : Nat) : (c.setWindow i e).pending = c.pending := rfl
@[simp] theorem setWindow_seq (e : Nat) : (c.setWindow i e).seq = c.seq := rfl
@[simp] theorem force_pending : (c.force i).pending = c.pending := rfl
@[simp] theorem force_seq : (c.force i).seq = c.seq := rfl

theorem take_pending (k : Option κ) (t : Option Nat) (knobs : Knobs) (now : Nat) :
    (c.take i k t knobs now).1.pending = c.pending ∧ (c.take i k t knobs now).1.seq = c.seq := by
  unfold take
  dsimp only
  split <;> exact ⟨rfl, rfl⟩

@[simp] theorem tidy_pending (knobs : Knobs) (now : Nat) : (c.tidy i knobs now).pending = c.pending := by
  unfold tidy
  dsimp only
  split <;> rfl

@[simp] theorem tidy_seq (knobs : Knobs) (now : Nat) : (c.tidy i knobs now).seq = c.seq := by
  unfold tidy
  dsimp only
  split <;> rfl

end Coalescer

namespace World

variable {w : World ι κ β} {n : Nat} {c : Call ι κ β} {k : κ}

theorem keyOf_of (hc : w.calls[n]? = some c) (hk : c.key = some k) : w.keyOf n = some (c.identity, k) := by
  simp [keyOf, hc, hk]

theorem keyOf_of_calls {calls : List (Call ι κ β)} (h : w.calls = calls) (m : Nat) :
    w.keyOf m = calls[m]?.bind fun c => c.key.map (c.identity, ·) := by rw [keyOf, h]

theorem keyed (hc : w.calls[n]? = some c) (hk : c.key = some k) : w.calls[n]?.filter (fun c => c.key.isSome) = some c := by
  simp [hc, hk]

theorem view_coalescer {c' : Coalescer ι κ β} (hp : c'.pending = w.coalescer.pending) (hs : c'.seq = w.coalescer.seq) :
    { w with coalescer := c' }.view = w.view := by
  simp only [view, hp, hs]
  rfl

theorem state_insert (co : Coalescer ι κ β) (i : ι) (k : κ) (p : Pending β) (key : ι × κ) :
    row Prod.fst (co.insert i k p).pending key = if key = (i, k) then some ((i, k), p) else row Prod.fst co.pending key := by
  simp only [Coalescer.insert]
  rw [row_append, row_remove]
  by_cases h : key = (i, k)
  · simp [h]
  · simp [h, Ne.symm h]

theorem calls_setPc (hc : w.calls[n]? = some c) (pc : Pc κ β) (m : Nat) :
    (w.setPc n pc).calls[m]? = if m = n then some { c with pc := pc } else w.calls[m]? := by
  by_cases h : m = n
  · subst h
    simp [setPc, hc]
  · simp [setPc, h, Ne.symm h]

theorem view_setPc (hc : w.calls[n]? = some c) (hk : c.key = some k) (pc : Pc κ β) :
    (w.setPc n pc).view = w.view.setCall n pc.phase (pc.batch c.identity) pc.own pc.refusals := by
  ext1
  case key =>
    funext m
    simp only [view, keyOf, calls_setPc hc, View.setCall_key]
    by_cases h : m = n
    · subst h
      simp [hc]
    · simp [h]
  case state => rfl
  case seq => rfl
  case handed => rfl
  case accepted => rfl
  case turnedDown => rfl
  all_goals
    funext m
    simp only [view, calls_setPc hc, View.setCall_phase, View.setCall_batch, View.setCall_own, View.setCall_refusals]
    by_cases h : m = n
    · subst h
      simp [Option.filter, hk]
    · simp [h]

theorem phase_of (hc : w.calls[n]? = some c) (hk : c.key = some k) : w.view.phase n = c.pc.phase := by
  simp [view, keyed hc hk]

theorem batch_of (hc : w.calls[n]? = some c) (hk : c.key = some k) : w.view.batch n = c.pc.batch c.identity := by
  simp [view, keyed hc hk]

theorem own_of (hc : w.calls[n]? = some c) (hk : c.key = some k) : w.view.own n = c.pc.own := by
  simp [view, keyed hc hk]

theorem refusals_of (hc : w.calls[n]? = some c) (hk : c.key = some k) : w.view.refusals n = c.pc.refusals := by
  simp [view, keyed hc hk]

variable {key : ι × κ}

theorem call_of_key (h : w.keyOf n = some key) : ∃ c, w.calls[n]? = some c ∧ c.key = some key.2 ∧ c.identity = key.1 := by
  unfold keyOf at h
  obtain ⟨c, hc, hk⟩ := Option.bind_eq_some_iff.mp h
  obtain ⟨k, hk', rfl⟩ := Option.map_eq_some_iff.mp hk
  exact ⟨c, hc, hk', rfl⟩

theorem call_of_phase (h : w.view.phase n ≠ .starting) : ∃ c k, w.calls[n]? = some c ∧ c.key = some k ∧ w.view.phase n = c.pc.phase := by
  cases hc : w.calls[n]? with
  | none => simp [view, hc] at h
  | some c =>
    cases hk : c.key with
    | none => simp [view, hc, Option.filter, hk] at h
    | some k => exact ⟨c, k, rfl, hk, phase_of hc hk⟩

theorem lt_of_get (hc : w.calls[n]? = some c) : n < w.calls.length := (List.getElem?_eq_some_iff.mp hc).1

theorem view_unqueue (co : Coalescer ι κ β) (i : ι) (k : κ) :
    { w with coalescer := co.unqueue i k }.view = { w with coalescer := co }.view.setState (i, k) none := by
  ext1
  case state =>
    funext key
    simp only [view, View.setState, Coalescer.unqueue, row_remove, Function.update_apply]
    by_cases h : key = (i, k) <;> simp [h]
  all_goals rfl

theorem view_insert (co : Coalescer ι κ β) (i : ι) (k : κ) (p : Pending β) :
    { w with coalescer := co.insert i k p }.view = { w with coalescer := co }.view.setState (i, k) (some (slot i (k, p))) := by
  ext1
  case state =>
    funext key
    simp only [view, View.setState, state_insert, Function.update_apply]
    by_cases h : key = (i, k) <;> simp [h, slot]
  all_goals rfl

theorem view_hold (co : Coalescer ι κ β) (i : ι) (k : κ) :
    { w with coalescer := co.hold i k }.view = { w with coalescer := co }.view := by
  ext1
  case state =>
    funext key
    simp only [view, Coalescer.hold]
    rw [row_modify (f := fun e : (ι × κ) × Pending β => (e.1, { e.2 with held := true })) (fun _ => rfl), Option.map_map]
    refine Option.map_congr fun e _ => ?_
    by_cases h : key = (i, k) <;> simp [h]
  all_goals rfl

theorem view_state (i : ι) (k : κ) : w.view.state (i, k) = (w.coalescer.state i k).map fun p => slot i (k, p) := by
  simp only [view, Coalescer.state, Option.map_map]
  refine Option.map_congr fun e he => ?_
  simp [slot, row_key (Option.mem_def.mp he)]

theorem latest_newest (h : w.Latest n) : w.view.Newest n := fun m hm hkey => absurd hkey (h m hm)

/-! ## One move of a call -/

structure Sound (w : World ι κ β) : Prop where
  kept : ∃ place, Kept pushBudgetRetryWindows w.view place
  calls : ∀ n (c : Call ι κ β) k, w.calls[n]? = some c → c.key = some k → c.pc.Ok w.handed n
  handed : ∀ m ∈ w.handed, m < w.calls.length
  accepted : ∀ m ∈ w.accepted, m < w.calls.length

/-- Call `n` is running. -/
structure Midway (w : World ι κ β) (n : Nat) (c : Call ι κ β) (k : κ) : Prop where
  get : w.calls[n]? = some c
  key : c.key = some k
  calls : ∀ m (c : Call ι κ β) k, m ≠ n → w.calls[m]? = some c → c.key = some k → c.pc.Ok w.handed m
  handed : ∀ m ∈ w.handed, m < w.calls.length
  accepted : ∀ m ∈ w.accepted, m < w.calls.length

/-- Call `n` ran to its next await. -/
structure Ran (calls : List (Call ι κ β)) (n : Nat) (w' : World ι κ β) : Prop where
  sound : w'.Sound
  covered : w'.Returned n .sent → w'.Covered n
  others : ∀ m, m ≠ n → w'.calls[m]? = calls[m]?

variable {j : Nat}

theorem carried_of (h : w.Sound) (hj : w.view.Carried j) : ∃ h, w.CarriedBy h j := by
  obtain ⟨place, hkept⟩ := h.kept
  rcases hj with ⟨key, x, hx, rfl⟩ | ⟨m, x, hx, rfl⟩ | hj | ⟨s, hj⟩
  · obtain ⟨-, hkey, -, hp, -⟩ := hkept.owner key x hx
    obtain ⟨c, hc, hk, hi⟩ := call_of_key (w := w) hkey
    have hstate : ∃ p, w.coalescer.state c.identity key.2 = some p ∧ p.seq = x.seq ∧ p.call = x.call := by
      obtain ⟨e, he, rfl⟩ := Option.map_eq_some_iff.mp hx
      exact ⟨e.2, by rw [hi]; simp [Coalescer.state, he], rfl, rfl⟩
    rw [phase_of hc hk] at hp
    refine ⟨x.call, c, key.2, hc, hk, ?_⟩
    cases hpc : c.pc <;> rw [hpc] at hp <;> simp only [Pc.phase, Phase.waits.injEq, reduceCtorEq] at hp <;> subst hp
    · exact .inr hstate
    exact hstate
  · have hb : w.view.batch m ≠ [] := List.ne_nil_of_mem hx
    obtain ⟨s, hs⟩ := hkept.holder m hb
    obtain ⟨c, k, hc, hk, hp⟩ := call_of_phase (w := w) (n := m) (by rw [hs]; simp)
    refine ⟨m, c, k, hc, hk, ?_⟩
    rw [batch_of hc hk] at hx
    cases hpc : c.pc <;> rw [hpc] at hx <;> simp only [Pc.batch, List.not_mem_nil] at hx
    obtain ⟨e, he, rfl⟩ := List.mem_map.mp hx
    exact .inl ⟨e, he, rfl⟩
  · obtain ⟨c, k, hc, hk, hp⟩ := call_of_phase (w := w) (n := j) (by rw [hj]; simp)
    refine ⟨j, c, k, hc, hk, ?_⟩
    rw [hj] at hp
    cases hpc : c.pc <;> rw [hpc] at hp <;> simp only [Pc.phase, reduceCtorEq] at hp
  · obtain ⟨c, k, hc, hk, hp⟩ := call_of_phase (w := w) (n := j) (by rw [hj]; simp)
    refine ⟨j, c, k, hc, hk, ?_⟩
    have hok := h.calls j c k hc hk
    rw [hj] at hp
    cases hpc : c.pc <;> rw [hpc] at hp hok <;> simp only [Pc.phase, reduceCtorEq] at hp
    exact hok

namespace Midway

variable {pc : Pc κ β} {place : Nat → Place} {seq ticket refusals held : Nat} {mine : Option Answer} {batch : List (κ × Pending β)}
  {knobs : Knobs}

theorem coalescer (h : w.Midway n c k) (co : Coalescer ι κ β) : { w with coalescer := co }.Midway n c k :=
  ⟨h.get, h.key, h.calls, h.handed, h.accepted⟩

theorem ok_mono {l : List Nat} (h : pc.Ok l n) : pc.Ok (j :: l) n := by
  cases pc with
  | releasing seq ticket refusals e rest mine => exact ⟨List.mem_cons_of_mem _ h.1, h.2⟩
  | _ => exact h

theorem hand (h : w.Midway n c k) (hj : j < w.calls.length) : (w.hand j).Midway n c k where
  get := h.get
  key := h.key
  calls := fun m c k hm hc hk => ok_mono (h.calls m c k hm hc hk)
  handed := by
    intro m hm
    rcases List.mem_cons.mp hm with rfl | hm
    · exact hj
    · exact h.handed m hm
  accepted := h.accepted

theorem setPc (h : w.Midway n c k) (pc : Pc κ β) (place : Nat → Place)
    (hk : Kept pushBudgetRetryWindows (w.view.setCall n pc.phase (pc.batch c.identity) pc.own pc.refusals) place)
    (hok : pc.Ok w.handed n) (hcov : (w.setPc n pc).Sound → pc = .returned .sent → (w.setPc n pc).Covered n) : Ran w.calls n (w.setPc n pc) := by
  have hlen : (w.setPc n pc).calls.length = w.calls.length := by simp [World.setPc]
  have hs : (w.setPc n pc).Sound := by
    refine ⟨⟨place, by rwa [view_setPc h.get h.key]⟩, ?_, ?_, ?_⟩
    · intro m c' k' hc' hk'
      rw [calls_setPc h.get] at hc'
      by_cases hm : m = n
      · rw [if_pos hm] at hc'
        cases hc'
        exact hm ▸ hok
      · rw [if_neg hm] at hc'
        exact h.calls m c' k' hm hc' hk'
    · rw [hlen]
      exact h.handed
    · rw [hlen]
      exact h.accepted
  refine ⟨hs, ?_, ?_⟩
  · rintro ⟨c', hc', hr⟩
    rw [calls_setPc h.get, if_pos rfl] at hc'
    cases hc'
    exact hcov hs hr
  · intro m hm
    rw [calls_setPc h.get, if_neg hm]

theorem wait (h : w.Midway n c k) (hk : Kept pushBudgetRetryWindows (w.view.setCall n (.waits seq) [] false refusals) place) :
    Ran w.calls n (w.wait knobs n c.identity k seq ticket refusals held) :=
  h.setPc _ place hk trivial fun _ hr => by cases hr

theorem lt_of_batch {V : View (ι × κ)} (hV : V.key = w.keyOf) (hk : Kept pushBudgetRetryWindows V place)
    {x : Slot (ι × κ)} (hx : x ∈ V.batch n) : x.call < w.calls.length := by
  have hkey := (hk.entry n x hx).1
  rw [hV] at hkey
  obtain ⟨c', hc', -⟩ := call_of_key hkey
  exact lt_of_get hc'

theorem releaseNext (h : w.Midway n c k)
    (hk : Kept pushBudgetRetryWindows (w.view.setCall n (.waits seq) (batch.map (slot c.identity)) mine.isSome refusals) place)
    (hmine : mine ≠ some .budgetRefused)
    (hhead : ∀ e ∈ batch.head?, ∀ m ∈ w.handed, w.keyOf m = some (c.identity, e.1) → m ≤ e.2.call) :
    Ran w.calls n (w.releaseNext knobs n c.identity k seq ticket refusals mine batch) := by
  cases batch with
  | nil =>
    have hv : ∀ co : Coalescer ι κ β, co.pending = w.coalescer.pending → co.seq = w.coalescer.seq →
        { w with coalescer := co }.view = w.view := fun co => view_coalescer
    have hv' := hv _ (Coalescer.tidy_pending w.coalescer c.identity knobs w.clock) (Coalescer.tidy_seq _ _ _ _)
    have h' := h.coalescer (w.coalescer.tidy c.identity knobs w.clock)
    cases mine with
    | none => exact h'.wait (by rw [hv']; exact hk)
    | some a =>
      have hown : n ∈ w.accepted := (hk.own n (by simp)).2.2
      have hplace := (hk.own n (by simp)).2.1
      have hret := hk.return_of (n := n) (by simp) (by
          rintro ⟨key, x, hx, hxn⟩
          have := (hk.owner key x hx).2.2.2.2
          rw [hxn, hplace] at this
          cases this) (by simp) fun _ => .inl hown
      have ha : a ≠ .budgetRefused := fun e => hmine (by rw [e])
      refine h'.setPc (.returned a) place ?_ trivial fun _ _ => ⟨n, .inl rfl, .inl hown⟩
      rw [hv']
      simpa [View.setCall, View.setPhase, View.setBatch, View.setOwn, View.setRefusals, Pc.phase, Pc.batch, Pc.own, Pc.refusals, ha]
        using hret
  | cons e rest =>
    have hmem : slot c.identity e ∈ (w.view.setCall n (.waits seq) ((e :: rest).map (slot c.identity)) mine.isSome refusals).batch n := by
      simp
    obtain ⟨hkey, hp, -⟩ := hk.entry n _ hmem
    have hhand := hk.hand_of (n := e.2.call) (fun _ => by rcases hp with hp | hp <;> exact fun hs => by cases hs.symm.trans hp)
      (by
        intro m hm key hkey' hm'
        have := hkey'.symm.trans hkey
        cases this
        exact hhead e rfl m hm hm')
    exact (h.hand (lt_of_batch rfl hk hmem)).setPc (.releasing seq ticket refusals e rest mine) place hhand
      ⟨List.mem_cons_self, hmine⟩ fun _ hr => by cases hr

theorem releaseBatch_kept (now : Nat) : ∀ (keys : List κ) (co : Coalescer ι κ β) (pre : List (Slot (ι × κ))) (place),
    Kept pushBudgetRetryWindows ({ w with coalescer := co }.view.setCall n (.waits seq) pre false refusals) place →
    (∀ x ∈ pre, (w.view.setCall n (.waits seq) [] false refusals).Newest x.call) →
    ∃ place', Kept pushBudgetRetryWindows ({ w with coalescer := (releaseBatch knobs now c.identity keys co).2 }.view.setCall n (.waits seq)
        (pre ++ (releaseBatch knobs now c.identity keys co).1.map (slot c.identity)) false refusals) place' ∧
      ∀ x ∈ pre ++ (releaseBatch knobs now c.identity keys co).1.map (slot c.identity),
        (w.view.setCall n (.waits seq) [] false refusals).Newest x.call := by
  intro keys
  induction keys with
  | nil =>
    intro co pre place hk hnew
    exact ⟨place, by simpa [releaseBatch] using hk, by simpa [releaseBatch] using hnew⟩
  | cons key keys ih =>
    intro co pre place hk hnew
    rw [releaseBatch]
    dsimp only
    split
    · exact ⟨place, by rw [List.map_nil, List.append_nil]; exact hk, by simpa using hnew⟩
    · split
      · exact ih _ pre place hk hnew
      · rename_i p hp
        have hx : ({ w with coalescer := co }.view.setCall n (.waits seq) pre false refusals).state (c.identity, key) =
            some (slot c.identity (key, p)) := by
          have hst := view_state (w := { w with coalescer := co }) c.identity key
          rw [show Coalescer.state co c.identity key = some p from hp] at hst
          exact hst
        have htake := hk.take_of hx (n := n) (s := seq) (by simp)
        have hnew' : (w.view.setCall n (.waits seq) [] false refusals).Newest p.call := (hk.owner _ _ hx).2.2.1
        let co' := ((((co.prune now).force c.identity).unqueue c.identity key).setWindow c.identity (now + knobs.windowMs)).noteSend now
        have hv : { w with coalescer := co' }.view = { w with coalescer := co }.view.setState (c.identity, key) none :=
          view_unqueue co c.identity key
        have hstep : Kept pushBudgetRetryWindows ({ w with coalescer := co' }.view.setCall n (.waits seq)
            (pre ++ [slot c.identity (key, p)]) false refusals) (Function.update place p.call (.batch n)) := by
          rw [hv]
          simpa [View.setCall, View.setState, View.setBatch, View.setPhase, View.setOwn, View.setRefusals, slot] using htake
        obtain ⟨place', hk', hn'⟩ := ih co' (pre ++ [slot c.identity (key, p)]) _ hstep (by
          intro x hx
          rcases List.mem_append.mp hx with hx | hx
          · exact hnew x hx
          · rw [List.mem_singleton.mp hx]
            exact hnew')
        rw [List.append_assoc] at hk' hn'
        exact ⟨place', hk', hn'⟩

theorem newest_handed {V : View (ι × κ)} (hk : Kept pushBudgetRetryWindows V place) {j m : Nat} (hj : V.Newest j) (hm : m ∈ V.handed)
    (hkey : V.key m = V.key j) (hne : V.key m ≠ none) : m ≤ j := by
  by_contra hlt
  exact hk.placed m hm hne (hj m (by omega) hkey)

theorem releaseSeat (h : w.Midway n c k) (hk : Kept pushBudgetRetryWindows (w.view.setCall n (.waits seq) [] false refusals) place) :
    Ran w.calls n (w.releaseSeat knobs n c.identity k seq ticket refusals) := by
  unfold World.releaseSeat
  dsimp only
  generalize hkeys : List.insertionSort (· ≤ ·) (List.map (fun e : (ι × κ) × Pending β => e.1.2)
    (List.filter (fun e => decide (e.1.1 = c.identity)) w.coalescer.pending)) = keys
  obtain ⟨place', hk', hnew⟩ := releaseBatch_kept (w := w) w.clock keys w.coalescer [] place hk (by simp)
  rw [List.nil_append] at hk' hnew
  generalize releaseBatch knobs w.clock c.identity keys w.coalescer = out at hk' hnew ⊢
  apply (h.coalescer out.2).releaseNext hk' (by simp)
  intro e he m hm hkey
  have hmem := List.mem_map_of_mem (f := slot c.identity) (List.mem_of_mem_head? he)
  have hent := (hk'.entry n _ (by simpa using hmem)).1
  exact newest_handed hk' (hnew _ hmem) hm (hkey.trans hent.symm)
    (ne_of_eq_of_ne (show w.keyOf m = some (c.identity, e.1) from hkey) (Option.some_ne_none _))

theorem enqueue (h : w.Midway n c k) (hk : Kept pushBudgetRetryWindows w.view place)
    (hp : w.view.phase n = .starting ∨ w.view.phase n = .leading) (hl : w.Latest n) (hr : refusals ≤ w.turnedDown.count n)
    {p : Pending β} (hs : p.seq = w.coalescer.seq + 1) (hc : p.call = n) (t e : Nat) :
    Kept pushBudgetRetryWindows
      ({ w with
          coalescer := ({ w.coalescer with seq := w.coalescer.seq + 1, ticket := t }.insert c.identity k p).setWindow c.identity e }.view.setCall n
        (.waits (w.coalescer.seq + 1)) [] false refusals) (Function.update place n .table) := by
  have hnw : ∀ s, w.view.phase n ≠ .waits s := by rcases hp with hp | hp <;> simp [hp]
  have henq := hk.enqueue_of hp (keyOf_of h.get h.key) (latest_newest hl) hr
  have hb : Function.update w.view.batch n [] = w.view.batch := by rw [← hk.batch_nil hnw, Function.update_eq_self]
  have ho : Function.update w.view.own n false = w.view.own := by rw [← hk.own_false hnw, Function.update_eq_self]
  have hv : { w with
      coalescer := ({ w.coalescer with seq := w.coalescer.seq + 1, ticket := t }.insert c.identity k p).setWindow c.identity e }.view =
      { w.view with seq := w.coalescer.seq + 1 }.setState (c.identity, k) (some ⟨(c.identity, k), n, w.coalescer.seq + 1⟩) := by
    rw [← hs, ← hc]
    exact view_insert { w.coalescer with seq := p.seq, ticket := t } _ _ p
  rw [hv]
  simp only [View.setCall, View.setState, View.setBatch, View.setPhase, View.setOwn, View.setRefusals, hb, ho] at henq ⊢
  exact henq

theorem queue (h : w.Midway n c k) (hk : Kept pushBudgetRetryWindows w.view place)
    (hp : w.view.phase n = .starting ∨ w.view.phase n = .leading) (hl : w.Latest n) (hr : refusals ≤ w.turnedDown.count n)
    (messageId : Option String) (body : β) : Ran w.calls n (w.queue knobs n c.identity k messageId body refusals) := by
  unfold World.queue
  dsimp only
  split
  · exact (h.coalescer _).releaseSeat (h.enqueue hk hp hl hr rfl rfl _ _)
  · exact (h.coalescer _).wait (h.enqueue hk hp hl hr rfl rfl _ _)

theorem lead (h : w.Midway n c k) (hk : Kept pushBudgetRetryWindows w.view place) (hp : w.view.phase n = .starting) (hl : w.Latest n)
    (hs : w.coalescer.state c.identity k = none) : Ran w.calls n ((w.hand n).setPc n .leading) := by
  have hnw : ∀ s, w.view.phase n ≠ .waits s := by simp [hp]
  have hv : w.view.state (c.identity, k) = none := by rw [view_state, hs]; rfl
  have hlead := hk.lead_of hp (keyOf_of h.get h.key) (latest_newest hl) hv
  have hb : Function.update w.view.batch n [] = w.view.batch := by rw [← hk.batch_nil hnw, Function.update_eq_self]
  have ho : Function.update w.view.own n false = w.view.own := by rw [← hk.own_false hnw, Function.update_eq_self]
  have hr : Function.update w.view.refusals n 0 = w.view.refusals := by
    have : w.view.refusals n = 0 := by
      rw [phase_of h.get h.key] at hp
      rw [refusals_of h.get h.key]
      cases hpc : c.pc <;> rw [hpc] at hp <;> simp_all [Pc.phase, Pc.refusals]
    rw [← this, Function.update_eq_self]
  refine (h.hand (lt_of_get h.get)).setPc .leading place ?_ trivial fun _ hr => by cases hr
  have hw : (w.hand n).view = w.view.hand n := rfl
  rw [hw]
  simp only [View.setCall, View.setBatch, View.setPhase, View.setOwn, View.setRefusals, View.hand, hb, ho, hr, Pc.phase, Pc.batch, Pc.own,
    Pc.refusals] at hlead ⊢
  exact hlead

theorem sendOwn (h : w.Midway n c k) (hk : Kept pushBudgetRetryWindows w.view place) {p : Pending β}
    (hst : w.coalescer.state c.identity k = some p) (hcall : p.call = n) (hseq : p.seq = seq) (hb : w.view.batch n = [])
    (ho : w.view.own n = false) (hr : w.view.refusals n = refusals) (e now : Nat) :
    Ran w.calls n (({ w with coalescer := ((w.coalescer.setWindow c.identity e).unqueue c.identity k).noteSend now }.hand p.call).setPc n
      (.sending seq ticket refusals held p)) := by
  have hx : w.view.state (c.identity, k) = some (slot c.identity (k, p)) := by rw [view_state, hst]; rfl
  have hsent := hk.send_of hx hcall hb
  have hb' : Function.update w.view.batch n [] = w.view.batch := by rw [← hb, Function.update_eq_self]
  have ho' : Function.update w.view.own n false = w.view.own := by rw [← ho, Function.update_eq_self]
  have hr' : Function.update w.view.refusals n refusals = w.view.refusals := by rw [← hr, Function.update_eq_self]
  generalize hco : ((w.coalescer.setWindow c.identity e).unqueue c.identity k).noteSend now = co
  have hv : ({ w with coalescer := co }.hand p.call).view = (w.view.setState (c.identity, k) none).hand n := by
    rw [← hco, ← hcall]
    exact congrArg (View.hand · p.call) (view_unqueue w.coalescer c.identity k)
  refine ((h.coalescer co).hand (by rw [hcall]; exact lt_of_get h.get)).setPc (.sending seq ticket refusals held p)
    (Function.update place n .nowhere) ?_ hcall fun _ hr => by cases hr
  rw [hv]
  simp only [View.setCall, View.setState, View.setBatch, View.setPhase, View.setOwn, View.setRefusals, View.hand, hb', ho', hr', Pc.phase,
    Pc.batch, Pc.own, Pc.refusals, slot, hseq] at hsent ⊢
  exact hsent

end Midway

theorem Sound.midway (h : w.Sound) (hc : w.calls[n]? = some c) (hk : c.key = some k) : w.Midway n c k :=
  ⟨hc, hk, fun m c k _ => h.calls m c k, h.handed, h.accepted⟩

variable {coalesceKey : β → Option κ} {knobs : Knobs} {m seq ticket refusals held : Nat}

theorem get_append (calls : List (Call ι κ β)) (call : Call ι κ β) (hm : m ≠ calls.length) :
    (calls ++ [call])[m]? = calls[m]? := by
  rw [List.getElem?_append]
  split
  · rfl
  · rw [List.getElem?_eq_none (by simp; omega), List.getElem?_eq_none (by omega)]

theorem get_append_self (calls : List (Call ι κ β)) (call : Call ι κ β) : (calls ++ [call])[calls.length]? = some call := by simp

theorem get_self_none (calls : List (Call ι κ β)) : calls[calls.length]? = none := List.getElem?_eq_none (Nat.le_refl _)

theorem view_append (i : ι) (k : κ) (m : Option String) (body : β) :
    { w with calls := w.calls ++ [(⟨i, some k, m, body, .passing⟩ : Call ι κ β)] }.view = w.view.begin w.calls.length (i, k) := by
  ext1
  case key =>
    funext j
    by_cases hj : j = w.calls.length
    · subst hj
      simp [view, keyOf, View.begin]
    · simp only [view, keyOf, View.begin, get_append _ _ hj, Function.update_of_ne hj]
  case state => rfl
  case seq => rfl
  case handed => rfl
  case accepted => rfl
  case turnedDown => rfl
  all_goals
    funext j
    by_cases hj : j = w.calls.length
    · subst hj
      simp only [view, View.begin, get_append_self, get_self_none, Option.filter, Option.isSome_some, if_true, Option.elim, Pc.phase,
        Pc.batch, Pc.own, Pc.refusals]
    · simp only [view, View.begin, get_append _ _ hj]

theorem view_append_keyless (i : ι) (m : Option String) (body : β) (pc : Pc κ β) :
    { w with calls := w.calls ++ [(⟨i, none, m, body, pc⟩ : Call ι κ β)] }.view = w.view := by
  ext1
  case key =>
    funext j
    by_cases hj : j = w.calls.length
    · subst hj
      simp [view, keyOf]
    · simp only [view, keyOf, get_append _ _ hj]
  case state => rfl
  case seq => rfl
  case handed => rfl
  case accepted => rfl
  case turnedDown => rfl
  all_goals
    funext j
    by_cases hj : j = w.calls.length
    · subst hj
      simp only [view, get_append_self, get_self_none, Option.filter, Option.isSome_none, Bool.false_eq_true, if_false, Option.elim]
    · simp only [view, get_append _ _ hj]

theorem Ran.of_get {calls calls' : List (Call ι κ β)} {w' : World ι κ β} (h : Ran calls n w') (hc : ∀ m, m ≠ n → calls[m]? = calls'[m]?) :
    Ran calls' n w' := ⟨h.sound, h.covered, fun m hm => (h.others m hm).trans (hc m hm)⟩

theorem submit_ran (h : w.Sound) (i : ι) (messageId : Option String) (body : β) :
    Ran w.calls w.calls.length (w.submit coalesceKey knobs i messageId body) := by
  obtain ⟨place, hk⟩ := h.kept
  have hphase : w.view.phase w.calls.length = .starting := by simp [view]
  have hnh : w.calls.length ∉ w.handed := fun hm => Nat.lt_irrefl _ (h.handed _ hm)
  have hna : w.calls.length ∉ w.accepted := fun hm => Nat.lt_irrefl _ (h.accepted _ hm)
  unfold World.submit
  cases hb : coalesceKey body with
  | none =>
    dsimp only
    generalize hcall : (⟨i, none, messageId, body, .passing⟩ : Call ι κ β) = call
    have hv : ({ w with coalescer := w.coalescer.noteSend w.clock, calls := w.calls ++ [call] }.hand w.calls.length).view =
        w.view.hand w.calls.length := by
      rw [← view_append_keyless (w := w) i messageId body .passing, hcall]
      rfl
    have hkey : w.view.key w.calls.length = none := by simp [view, keyOf]
    refine ⟨⟨⟨place, ?_⟩, ?_, ?_, ?_⟩, ?_, fun m hm => get_append _ _ hm⟩
    · rw [hv]
      exact hk.hand_of (fun hne => absurd hkey hne) fun m _ k hk' => by simp [hkey] at hk'
    · intro m c' k' hc' hk'
      by_cases hm : m = w.calls.length
      · subst hm
        cases (get_append_self w.calls call).symm.trans hc'
        rw [← hcall] at hk'
        cases hk'
      · exact Midway.ok_mono (h.calls m c' k' ((get_append w.calls call hm).symm.trans hc') hk')
    · intro m hm
      simp only [hand, List.length_append, List.length_singleton]
      rcases List.mem_cons.mp hm with rfl | hm
      · omega
      · exact Nat.lt_succ_of_lt (h.handed m hm)
    · intro m hm
      simp only [hand, List.length_append, List.length_singleton]
      exact Nat.lt_succ_of_lt (h.accepted m hm)
    · rintro ⟨c', hc', hr⟩
      cases (get_append_self w.calls call).symm.trans hc'
      rw [← hcall] at hr
      cases hr
  | some k =>
    dsimp only
    generalize hcall : (⟨i, some k, messageId, body, .passing⟩ : Call ι κ β) = call
    have hmid : { w with calls := w.calls ++ [call] }.Midway w.calls.length call k := by
      refine ⟨get_append_self _ _, by rw [← hcall], ?_, ?_, ?_⟩
      · intro m c' k' hm hc' hk'
        exact h.calls m c' k' (by rwa [get_append _ _ hm] at hc') hk'
      · intro m hm
        have := h.handed m hm
        simp
        omega
      · intro m hm
        have := h.accepted m hm
        simp
        omega
    have hkept : Kept pushBudgetRetryWindows { w with calls := w.calls ++ [call] }.view place := by
      rw [← hcall, view_append]
      exact hk.begin_of hphase hnh hna (i, k)
    have hl : { w with calls := w.calls ++ [call] }.Latest w.calls.length := by
      intro m hm hkey
      rw [keyOf_of hmid.get hmid.key] at hkey
      obtain ⟨c', hc', -⟩ := call_of_key hkey
      have := lt_of_get hc'
      simp at this
      omega
    have hp : { w with calls := w.calls ++ [call] }.view.phase w.calls.length = .starting := by
      rw [phase_of hmid.get hmid.key, ← hcall]
      rfl
    have hi : call.identity = i := by rw [← hcall]
    refine Ran.of_get ?_ fun m hm => get_append w.calls call hm
    obtain ⟨htp, hts⟩ := Coalescer.take_pending w.coalescer i none none knobs w.clock
    split
    · exact hi ▸ hmid.queue hkept (.inl hp) hl (Nat.zero_le _) messageId body
    · rename_i hq
      have hs : w.coalescer.state i k = none := by
        cases hst : w.coalescer.state i k with
        | none => rfl
        | some p => exact absurd (by simp [hst]) hq
      have hpend : ∀ co : Coalescer ι κ β, co.pending = w.coalescer.pending → co.seq = w.coalescer.seq →
          { w with calls := w.calls ++ [call], coalescer := co }.view = { w with calls := w.calls ++ [call] }.view :=
        fun co => view_coalescer (w := { w with calls := w.calls ++ [call] })
      cases htake : w.coalescer.take i none none knobs w.clock with
      | mk co paid =>
        rw [htake] at htp hts
        have hv := hpend co htp hts
        cases paid with
        | true =>
          dsimp only
          apply (hmid.coalescer ((co.setWindow i (w.clock + knobs.windowMs)).noteSend w.clock)).lead
          · exact (hpend _ (by simpa using htp) (by simpa using hts)).symm ▸ hkept
          · exact (hpend _ (by simpa using htp) (by simpa using hts)).symm ▸ hp
          · exact hl
          · rw [hi]
            change Option.map Prod.snd (row Prod.fst co.pending (i, k)) = none
            rw [show co.pending = w.coalescer.pending from htp]
            exact hs
        | false =>
          exact hi ▸ (hmid.coalescer co).queue (hv.symm ▸ hkept) (.inl (hv.symm ▸ hp)) hl (Nat.zero_le _) messageId body

theorem newest_of_key (hkey : w.keyOf n = some key) :
    ∃ m, n ≤ m ∧ w.keyOf m = some key ∧ w.Latest m := by
  have hlt : ∀ m, w.keyOf m = some key → m ≤ w.calls.length := by
    intro m hm
    obtain ⟨c, hc, -⟩ := call_of_key hm
    exact Nat.le_of_lt (lt_of_get hc)
  refine ⟨Nat.findGreatest (fun m => w.keyOf m = some key) w.calls.length, Nat.le_findGreatest (hlt n hkey) hkey,
    Nat.findGreatest_spec (P := fun m => w.keyOf m = some key) (hlt n hkey) hkey, ?_⟩
  intro m hm hk
  rw [Nat.findGreatest_spec (P := fun m => w.keyOf m = some key) (hlt n hkey) hkey] at hk
  exact Nat.findGreatest_is_greatest hm (hlt m hk) hk

theorem Sound.last (h : w.Sound) (hkey : w.keyOf n = some key) :
    ∃ m, n ≤ m ∧ w.keyOf m = some key ∧ w.Latest m ∧ (m ∈ w.accepted ∨ w.view.Carried m ∨ w.view.GivenUp m) := by
  obtain ⟨place, hk⟩ := h.kept
  obtain ⟨m, hnm, hm, hl⟩ := newest_of_key hkey
  obtain ⟨c, hc, hck, -⟩ := call_of_key hm
  refine ⟨m, hnm, hm, hl, hk.last m ?_ (latest_newest hl)⟩
  rw [phase_of hc hck]
  have hok := h.calls m c _ hc hck
  cases hpc : c.pc <;> rw [hpc] at hok <;> simp [Pc.phase]
  exact hok

theorem covered_of (h : w.Sound) (hn : w.keyOf n = some key) (hm : w.keyOf m = some key) (hle : n ≤ m)
    (hc : m ∈ w.accepted ∨ w.view.Carried m) : w.Covered n := by
  refine ⟨m, ?_, hc.imp_right (carried_of h)⟩
  rcases Nat.eq_or_lt_of_le hle with rfl | hlt
  · exact .inl rfl
  · exact .inr ⟨hlt, by simp [hn], hm.trans hn.symm⟩

theorem wakeUp_ran (h : w.Sound) (hc : w.calls[n]? = some c) (hk : c.key = some k) {wakeAt : Nat}
    (hpc : c.pc = .waiting seq ticket refusals held wakeAt) :
    Ran w.calls n (w.wakeUp knobs n c.identity k seq ticket refusals held) := by
  obtain ⟨place, hkept⟩ := h.kept
  have hmid := h.midway hc hk
  have hkey : w.view.key n = some (c.identity, k) := keyOf_of hc hk
  have hphase : w.view.phase n = .waits seq := by rw [phase_of hc hk, hpc]; rfl
  have hbatch : w.view.batch n = [] := by rw [batch_of hc hk, hpc]; rfl
  have hown : w.view.own n = false := by rw [own_of hc hk, hpc]; rfl
  have hrefusals : w.view.refusals n = refusals := by rw [refusals_of hc hk, hpc]; rfl
  have hself : w.view.setCall n (.waits seq) [] false refusals = w.view := by
    rw [← hphase, ← hbatch, ← hown, ← hrefusals]
    exact View.setCall_self _ _
  unfold World.wakeUp
  dsimp only
  split
  · -- Superseded: the newest state of the key is with another call.
    rename_i hf
    have hnt : ¬ w.view.InTable n := by
      rintro ⟨key, x, hx, hxn⟩
      obtain ⟨-, hkey', -, hp, -⟩ := hkept.owner key x hx
      rw [hxn, hkey] at hkey'
      rw [hxn, hphase] at hp
      cases hkey'
      cases hp
      rw [view_state] at hx
      obtain ⟨p, hp, rfl⟩ := Option.map_eq_some_iff.mp hx
      rw [hp] at hf
      simp [Option.filter, slot] at hf
    have hv : { w with coalescer := w.coalescer.tidy c.identity knobs w.clock }.view = w.view :=
      view_coalescer (Coalescer.tidy_pending _ _ _ _) (Coalescer.tidy_seq _ _ _ _)
    have hret := hkept.return_of (n := n) (by simp [hphase]) hnt hbatch (by
      intro hnew
      rcases hkept.last n (by simp [hphase]) hnew with h1 | (h1 | h1 | h1 | ⟨s, h1⟩) | ⟨h1, -⟩
      · exact .inl h1
      · exact absurd h1 hnt
      · exact .inr h1
      · exact absurd (hphase.symm.trans h1) (by simp)
      · exact absurd (hphase.symm.trans h1) (by simp)
      · exact absurd (hphase.symm.trans h1) (by simp))
    have hb : Function.update w.view.batch n [] = w.view.batch := by rw [← hbatch, Function.update_eq_self]
    have hfinal : Kept pushBudgetRetryWindows (w.view.setCall n (.done false) [] false 0) place := by
      simp only [View.setCall, View.setBatch, View.setPhase, View.setOwn, View.setRefusals, hb] at hret ⊢
      exact hret
    refine (hmid.coalescer _).setPc (.returned .sent) place (by rw [hv]; exact hfinal) trivial fun hs _ => ?_
    obtain ⟨m, hnm, hm, -, hlast⟩ := h.last hkey
    have hview : ({ w with coalescer := w.coalescer.tidy c.identity knobs w.clock }.setPc n (.returned .sent)).view =
        w.view.setCall n (.done false) [] false 0 := by
      rw [view_setPc (w := { w with coalescer := w.coalescer.tidy c.identity knobs w.clock }) hc hk, hv]
      rfl
    have hkeys := congrArg View.key hview
    refine covered_of hs ((congrFun hkeys n).trans hkey) ((congrFun hkeys m).trans hm) hnm ?_
    rcases hlast with h1 | h1 | ⟨h1, h2⟩
    · exact .inl h1
    · right
      rw [hview]
      simp only [View.Carried, View.InTable, View.InBatch, View.setCall_state, View.setCall_batch, View.setCall_phase,
        Function.update_apply] at h1 ⊢
      grind
    · rcases Nat.eq_or_lt_of_le hnm with rfl | hlt
      · exact absurd (hphase.symm.trans h1) (by simp)
      · exact absurd hphase (h2 n hlt (hkey.trans hm.symm) seq)
  · rename_i p hf
    obtain ⟨hst, hseq⟩ := Option.filter_eq_some_iff.mp hf
    have hx : w.view.state (c.identity, k) = some (slot c.identity (k, p)) := by rw [view_state, hst]; rfl
    have hpseq : p.seq = seq := of_decide_eq_true hseq
    have hcall : p.call = n := by
      obtain ⟨-, -, -, hp, -⟩ := hkept.owner _ _ hx
      exact hkept.unique p.call n seq (.inl (hpseq ▸ hp)) (.inl hphase)
    obtain ⟨htp, hts⟩ := Coalescer.take_pending w.coalescer c.identity (some k) (some ticket) knobs w.clock
    cases htake : w.coalescer.take c.identity (some k) (some ticket) knobs w.clock with
    | mk co paid =>
      rw [htake] at htp hts
      have hst' : co.state c.identity k = some p := by rw [Coalescer.state, htp]; exact hst
      have hv : { w with coalescer := co }.view = w.view := view_coalescer htp hts
      have hco := hmid.coalescer co
      cases paid with
      | true =>
        exact hco.sendOwn (hv.symm ▸ hkept) hst' hcall hpseq (hv.symm ▸ hbatch) (hv.symm ▸ hown) (hv.symm ▸ hrefusals) _ _
      | false =>
        dsimp only
        split
        · exact (hco.coalescer (co.force c.identity)).sendOwn (hv.symm ▸ hkept) hst' hcall hpseq (hv.symm ▸ hbatch) (hv.symm ▸ hown)
            (hv.symm ▸ hrefusals) _ _
        · have hh : { w with coalescer := (co.setWindow c.identity (w.clock + max knobs.windowMs 1)).hold c.identity k }.view = w.view :=
            (view_hold (co.setWindow c.identity (w.clock + max knobs.windowMs 1)) c.identity k).trans hv
          apply (hmid.coalescer ((co.setWindow c.identity (w.clock + max knobs.windowMs 1)).hold c.identity k)).wait
          rw [hh, hself]
          exact hkept

/-! ## The relay's answers -/

theorem Midway.settle (h : w.Midway n c k) (hj : j < w.calls.length) (a : Answer) : (w.settle j a).Midway n c k := by
  unfold World.settle
  split
  · exact ⟨h.get, h.key, h.calls, h.handed, h.accepted⟩
  · refine ⟨h.get, h.key, h.calls, h.handed, ?_⟩
    intro m hm
    rcases List.mem_cons.mp hm with rfl | hm
    · exact hj
    · exact h.accepted m hm

variable {a : Answer}

theorem settle_accepted (j : Nat) (ha : a ≠ .budgetRefused) : w.settle j a = { w with accepted := j :: w.accepted } :=
  if_neg ha

variable {place : Nat → Place}

theorem Midway.finish (h : w.Midway n c k) (hk : Kept pushBudgetRetryWindows w.view place)
    (hp : w.view.phase n = .leading ∨ ∃ s, w.view.phase n = .sending s) (hacc : n ∈ w.accepted) (ha : a ≠ .budgetRefused) :
    Ran w.calls n (w.setPc n (.returned a)) := by
  have hnw : ∀ s, w.view.phase n ≠ .waits s := by rcases hp with hp | ⟨s, hp⟩ <;> simp [hp]
  have hret := hk.return_of (n := n) (by rcases hp with hp | ⟨s, hp⟩ <;> simp [hp]) (by
      rintro ⟨key, x, hx, rfl⟩
      exact hnw _ (hk.owner key x hx).2.2.2.1) (hk.batch_nil hnw) fun _ => .inl hacc
  have hb : Function.update w.view.batch n [] = w.view.batch := by rw [← hk.batch_nil hnw, Function.update_eq_self]
  refine h.setPc (.returned a) place ?_ trivial fun _ _ => ⟨n, .inl rfl, .inl hacc⟩
  simp only [View.setCall, View.setBatch, View.setPhase, View.setOwn, View.setRefusals, hb, Pc.phase, Pc.batch, Pc.own, Pc.refusals, ha,
    decide_false] at hret ⊢
  exact hret

theorem newest_latest (h : w.Sound) (hnew : w.view.Newest n) : w.Latest n ∨ w.keyOf n = none := by
  by_cases hkey : w.keyOf n = none
  · exact .inr hkey
  refine .inl fun m hm hkm => ?_
  obtain ⟨key, hkey'⟩ := Option.ne_none_iff_exists'.mp hkey
  obtain ⟨c, hc, hck, -⟩ := call_of_key (hkm.trans hkey')
  have hp := hnew m hm hkm
  rw [phase_of hc hck] at hp
  have hok := h.calls m c _ hc hck
  cases hpc : c.pc <;> rw [hpc] at hok hp <;> simp [Pc.phase] at hp
  exact hok

theorem waits_of {s : Nat} (h : w.view.phase n = .waits s) : w.Waits n := by
  obtain ⟨c, k, hc, hk, hp⟩ := call_of_phase (w := w) (n := n) (by simp [h])
  rw [h] at hp
  refine ⟨c, hc, ?_⟩
  cases hpc : c.pc <;> rw [hpc] at hp <;> simp [Pc.phase] at hp ⊢

theorem phase_waits (h : w.Waits n) (hkey : w.keyOf n ≠ none) : ∃ s, w.view.phase n = .waits s := by
  obtain ⟨key, hkey⟩ := Option.ne_none_iff_exists'.mp hkey
  obtain ⟨c, hc, hck, -⟩ := call_of_key hkey
  obtain ⟨c', hc', hw⟩ := h
  cases hc.symm.trans hc'
  rw [phase_of hc hck]
  cases hpc : c.pc <;> rw [hpc] at hw <;> simp [Pc.phase] at hw ⊢

theorem Midway.refused {p : Pending β} (h : w.Midway n c k)
    (hk : Kept pushBudgetRetryWindows w.view place) (hpc : c.pc = .sending seq ticket refusals held p) (hcall : p.call = n)
    (hcount : refusals + 1 ≤ w.turnedDown.count n)
    (hm : if pushBudgetRetryWindows < refusals + 1 then
        ¬ w.view.Newest n ∨ ∀ j, j < n → w.view.key j = w.view.key n → ∀ s, w.view.phase j ≠ .waits s
      else (w.coalescer.state c.identity k).isSome ∨ w.Latest n) :
    Ran w.calls n (w.refused knobs n c.identity k seq ticket refusals held p) := by
  have hkey : w.view.key n = some (c.identity, k) := keyOf_of h.get h.key
  have hphase : w.view.phase n = .sending seq := by rw [phase_of h.get h.key, hpc]; rfl
  have hbatch : w.view.batch n = [] := by rw [batch_of h.get h.key, hpc]; rfl
  have hown : w.view.own n = false := by rw [own_of h.get h.key, hpc]; rfl
  have hb : Function.update w.view.batch n [] = w.view.batch := by rw [← hbatch, Function.update_eq_self]
  have ho : Function.update w.view.own n false = w.view.own := by rw [← hown, Function.update_eq_self]
  unfold World.refused
  dsimp only
  by_cases hlimit : pushBudgetRetryWindows < refusals + 1
  · rw [if_pos hlimit] at hm ⊢
    have hgive := hk.giveUp_of (n := n) hphase (Nat.lt_of_lt_of_le hlimit hcount) hm
    refine h.setPc (.returned .budgetRefused) place ?_ trivial fun _ hr => by cases hr
    simp only [View.setCall, View.setBatch, View.setPhase, View.setOwn, View.setRefusals, Pc.phase, Pc.batch, Pc.own, Pc.refusals,
      decide_true, hb] at hgive ⊢
    exact hgive
  rw [if_neg hlimit] at hm ⊢
  by_cases hst : (w.coalescer.state c.identity k).isSome = true
  · rw [if_pos hst]
    obtain ⟨q, hq⟩ := Option.isSome_iff_exists.mp hst
    have hx : w.view.state (c.identity, k) = some (slot c.identity (k, q)) := by rw [view_state, hq]; rfl
    obtain ⟨-, hqkey, hqnew, hqp, -⟩ := hk.owner _ _ hx
    -- The newer state's call waits, so it is another one, and it is the newest.
    have hlater : n < q.call := by
      rcases Nat.lt_trichotomy n q.call with hlt | heq | hgt
      · exact hlt
      · rw [show (slot c.identity (k, q)).call = n from heq.symm, hphase] at hqp
        cases hqp
      · have := hqnew n hgt (hkey.trans hqkey.symm)
        rw [hphase] at this
        cases this
    have hret := hk.return_of (n := n) (by simp [hphase])
      (by
        rintro ⟨key, x, hx', rfl⟩
        have := (hk.owner key x hx').2.2.2.1
        rw [hphase] at this
        cases this) hbatch (by
        intro hnew
        have := hnew q.call hlater (hqkey.trans hkey.symm)
        exact absurd (hqp.symm.trans this) (by simp))
    refine h.setPc (.returned .sent) place ?_ trivial fun hs _ => ?_
    · simp only [View.setCall, View.setBatch, View.setPhase, View.setOwn, View.setRefusals, hb, Pc.phase, Pc.batch, Pc.own,
        Pc.refusals] at hret ⊢
      exact hret
    · have hview := view_setPc h.get h.key (.returned .sent)
      have hkeys := congrArg View.key hview
      refine covered_of hs ((congrFun hkeys n).trans hkey) ((congrFun hkeys q.call).trans hqkey) (Nat.le_of_lt hlater) (.inr (.inl ?_))
      exact ⟨_, _, (congrFun (congrArg View.state hview) (c.identity, k)).trans hx, rfl⟩
  · rw [if_neg hst]
    have hl : w.Latest n := hm.resolve_left hst
    have hre := hk.resend_of hphase hkey (latest_newest hl) hcount
    apply (h.coalescer ((w.coalescer.insert c.identity k { p with seq := seq }).setWindow c.identity (w.clock + max knobs.windowMs 1))).wait
    have hv : { w with
        coalescer := (w.coalescer.insert c.identity k { p with seq := seq }).setWindow c.identity (w.clock + max knobs.windowMs 1) }.view =
        w.view.setState (c.identity, k) (some ⟨(c.identity, k), n, seq⟩) := by
      rw [← hcall]
      exact view_insert w.coalescer c.identity k { p with seq := seq }
    rw [hv]
    simp only [View.setCall, View.setState, View.setBatch, View.setPhase, View.setOwn, View.setRefusals, hb, ho] at hre ⊢
    exact hre

theorem refused_ran (h : w.Sound) (hc : w.calls[n]? = some c) (hk : c.key = some k) {p : Pending β}
    (hpc : c.pc = .sending seq ticket refusals held p)
    (hm : if pushBudgetRetryWindows < refusals + 1 then ¬ w.Latest n ∨ ∀ j < n, w.keyOf j = w.keyOf n → ¬ w.Waits j
      else (w.coalescer.state c.identity k).isSome ∨ w.Latest n) :
    Ran w.calls n ((w.settle p.call .budgetRefused).refused knobs n c.identity k seq ticket refusals held p) := by
  obtain ⟨place, hkept⟩ := h.kept
  have hcall : p.call = n := by
    have hok := h.calls n c k hc hk
    rw [hpc] at hok
    exact hok
  have hmid := (h.midway hc hk).settle (j := p.call) (by rw [hcall]; exact lt_of_get hc) .budgetRefused
  have hcount : refusals + 1 ≤ (n :: w.turnedDown).count n := by
    rw [List.count_cons_self]
    have hr := hkept.counted n
    rw [refusals_of hc hk, hpc] at hr
    exact Nat.succ_le_succ hr
  refine hmid.refused (hkept.turnDown p.call) hpc hcall (hcall ▸ hcount) ?_
  split
  · rw [if_pos (by assumption)] at hm
    refine hm.imp ?_ ?_
    · intro hm hnew
      rcases newest_latest h hnew with hl | hl
      · exact hm hl
      · exact absurd ((keyOf_of hc hk).symm.trans hl) (by simp)
    · intro hm j hj hkj s hs
      exact hm j hj hkj (waits_of hs)
  · rw [if_neg (by assumption)] at hm
    exact hm

theorem update_self {α : Type} {f : Nat → α} {a : α} (h : f n = a) : Function.update f n a = f := by
  rw [← h, Function.update_eq_self]

variable {rest : List (κ × Pending β)} {seq ticket refusals : Nat} {mine : Option Answer} {e : κ × Pending β}

theorem setCall_rest
    (hc : w.calls[n]? = some c) (hk : c.key = some k) (hpc : c.pc = .releasing seq ticket refusals e rest mine) (b : List (Slot (ι × κ)))
    (o : Bool) : w.view.setCall n (.waits seq) b o refusals = (w.view.setBatch n b).setOwn n o := by
  have hp : Function.update w.view.phase n (.waits seq) = w.view.phase := update_self (by rw [phase_of hc hk, hpc]; rfl)
  have hr : Function.update w.view.refusals n refusals = w.view.refusals := update_self (by rw [refusals_of hc hk, hpc]; rfl)
  simp only [View.setCall, View.setBatch, View.setPhase, View.setOwn, View.setRefusals, hp, hr]

theorem setOwn_self
    (hc : w.calls[n]? = some c) (hk : c.key = some k) (hpc : c.pc = .releasing seq ticket refusals e rest mine) (b : List (Slot (ι × κ))) :
    (w.view.setBatch n b).setOwn n mine.isSome = w.view.setBatch n b := by
  have ho : Function.update w.view.own n mine.isSome = w.view.own := update_self (by rw [own_of hc hk, hpc]; rfl)
  simp only [View.setBatch, View.setOwn, ho]

theorem Midway.putBack
    (h : w.Midway n c k) (hk : Kept pushBudgetRetryWindows w.view place)
    (hpc : c.pc = .releasing seq ticket refusals e rest mine) (hmine : mine ≠ some .budgetRefused)
    (hm : (w.coalescer.state c.identity e.1).isSome ∨ w.Latest e.2.call ∧ w.view.phase e.2.call = .waits e.2.seq)
    (hhead : ∀ e' ∈ rest.head?, ∀ m ∈ w.handed, w.keyOf m = some (c.identity, e'.1) → m ≤ e'.2.call) :
    Ran w.calls n ((w.putBack c.identity e).releaseNext knobs n c.identity k seq ticket refusals mine rest) := by
  have hbatch : w.view.batch n = slot c.identity e :: rest.map (slot c.identity) := by rw [batch_of h.get h.key, hpc]; rfl
  unfold World.putBack
  split
  · rename_i hs
    obtain ⟨q, hq⟩ := Option.isSome_iff_exists.mp hs
    have hx : w.view.state (c.identity, e.1) = some (slot c.identity (e.1, q)) := by rw [view_state, hq]; rfl
    have hdrop := hk.drop_of hbatch (.inr (by
      rw [show w.view.state (slot c.identity e).key = _ from hx]
      simp))
    apply h.releaseNext ?_ hmine hhead
    · exact Function.update place e.2.call .nowhere
    · rw [setCall_rest h.get h.key hpc, setOwn_self h.get h.key hpc]
      exact hdrop
  · rename_i hs
    obtain ⟨hl, hw⟩ := hm.resolve_left hs
    have hx : w.view.state (slot c.identity e).key = none := by
      rw [show (slot c.identity e).key = (c.identity, e.1) from rfl, view_state, Option.not_isSome_iff_eq_none.mp hs]
      rfl
    have hback := hk.putBack_of hbatch hx (latest_newest hl) hw
    generalize hco : (w.coalescer.setSeat c.identity (w.coalescer.seat c.identity)).insert c.identity e.1 e.2 = co
    have hv : { w with coalescer := co }.view = w.view.setState (c.identity, e.1) (some (slot c.identity e)) := by
      rw [← hco]
      exact view_insert w.coalescer c.identity e.1 e.2
    have hget : { w with coalescer := co }.calls[n]? = some c := h.get
    apply (h.coalescer co).releaseNext ?_ hmine hhead
    · exact Function.update place e.2.call .table
    · rw [setCall_rest hget h.key hpc, setOwn_self hget h.key hpc, hv]
      exact hback

theorem releasing_refused (h : w.Sound) (hc : w.calls[n]? = some c) (hk : c.key = some k)
    (hpc : c.pc = .releasing seq ticket refusals e rest mine)
    (hm : (w.coalescer.state c.identity e.1).isSome ∨ w.Latest e.2.call ∧ w.Waits e.2.call)
    (hhead : ∀ e' ∈ rest.head?, ∀ m ∈ w.handed, w.keyOf m = some (c.identity, e'.1) → m ≤ e'.2.call) :
    Ran w.calls n (((w.settle e.2.call .budgetRefused).putBack c.identity e).releaseNext knobs n c.identity k seq ticket refusals mine rest) := by
  obtain ⟨place, hkept⟩ := h.kept
  have hbatch : w.view.batch n = slot c.identity e :: rest.map (slot c.identity) := by rw [batch_of hc hk, hpc]; rfl
  have hmem : slot c.identity e ∈ w.view.batch n := by rw [hbatch]; exact List.mem_cons_self
  have hok := h.calls n c k hc hk
  rw [hpc] at hok
  obtain ⟨hekey, hep, -⟩ := hkept.entry n _ hmem
  refine ((h.midway hc hk).settle (Midway.lt_of_batch rfl hkept hmem) .budgetRefused).putBack (hkept.turnDown e.2.call) hpc hok.2 ?_ hhead
  refine hm.imp_right fun ⟨hl, hw⟩ => ⟨hl, ?_⟩
  obtain ⟨s, hs⟩ := phase_waits hw (by rw [show w.keyOf e.2.call = _ from hekey]; simp)
  rcases hep with hep | hep
  · exact hep
  · exact absurd (hs.symm.trans hep) (by simp)

theorem releasing_accepted (h : w.Sound) (hc : w.calls[n]? = some c) (hk : c.key = some k)
    (hpc : c.pc = .releasing seq ticket refusals e rest mine)
    (ha : a ≠ .budgetRefused)
    (hhead : ∀ e' ∈ rest.head?, ∀ m ∈ w.handed, w.keyOf m = some (c.identity, e'.1) → m ≤ e'.2.call) :
    Ran w.calls n ((w.settle e.2.call a).releaseNext knobs n c.identity k seq ticket refusals
      (if e.1 = k ∧ e.2.seq = seq then some a else mine) rest) := by
  obtain ⟨place, hkept⟩ := h.kept
  have hbatch : w.view.batch n = slot c.identity e :: rest.map (slot c.identity) := by rw [batch_of hc hk, hpc]; rfl
  have hmem : slot c.identity e ∈ w.view.batch n := by rw [hbatch]; exact List.mem_cons_self
  have hphase : w.view.phase n = .waits seq := by rw [phase_of hc hk, hpc]; rfl
  have hok := h.calls n c k hc hk
  rw [hpc] at hok
  have hmid : (w.settle e.2.call a).Midway n c k := (h.midway hc hk).settle (Midway.lt_of_batch rfl hkept hmem) a
  rw [settle_accepted _ ha] at hmid ⊢
  have hacc := hkept.accept_of (n := e.2.call) fun _ => hok.1
  have hdrop := hacc.drop_of hbatch (.inl List.mem_cons_self)
  have hget : { w with accepted := e.2.call :: w.accepted }.calls[n]? = some c := hc
  split
  · rename_i hown
    have hcall : e.2.call = n :=
      hkept.unique _ _ seq (.inr (.inr ⟨n, _, hmem, rfl, hown.2⟩)) (.inl hphase)
    apply hmid.releaseNext ?_ (by simp [ha]) hhead
    · exact Function.update place e.2.call .nowhere
    · rw [setCall_rest hget hk hpc]
      exact hdrop.own_of hphase (by rw [← hcall]; exact Function.update_self _ _ _) (by rw [← hcall]; exact List.mem_cons_self)
  · apply hmid.releaseNext ?_ hok.2 hhead
    · exact Function.update place e.2.call .nowhere
    · rw [setCall_rest hget hk hpc, setOwn_self hget hk hpc]
      exact hdrop

theorem view_setPc_keyless (hc : w.calls[n]? = some c) (hk : c.key = none) (pc : Pc κ β) : (w.setPc n pc).view = w.view := by
  ext1
  case key =>
    funext m
    simp only [view, keyOf, calls_setPc hc]
    by_cases h : m = n
    · subst h
      simp [hc]
    · simp [h]
  case state => rfl
  case seq => rfl
  case handed => rfl
  case accepted => rfl
  case turnedDown => rfl
  all_goals
    funext m
    simp only [view, calls_setPc hc]
    by_cases h : m = n
    · subst h
      simp [hc, Option.filter, hk]
    · simp [h]

theorem passed_ran (h : w.Sound) (hc : w.calls[n]? = some c) (hk : c.key = none) (a : Answer) :
    Ran w.calls n ((w.settle n a).setPc n (.returned a)) := by
  obtain ⟨place, hkept⟩ := h.kept
  have hget : (w.settle n a).calls[n]? = some c := by
    unfold settle
    split <;> exact hc
  have hcalls : (w.settle n a).calls = w.calls := by
    unfold settle
    split <;> rfl
  have hhanded : (w.settle n a).handed = w.handed := by
    unfold settle
    split <;> rfl
  have hacc : ∀ m ∈ (w.settle n a).accepted, m < w.calls.length := by
    intro m hm
    unfold settle at hm
    split at hm
    · exact h.accepted m hm
    · rcases List.mem_cons.mp hm with rfl | hm
      · exact lt_of_get hc
      · exact h.accepted m hm
  have hlen : ((w.settle n a).setPc n (.returned a)).calls.length = w.calls.length := by simp [World.setPc, hcalls]
  refine ⟨⟨⟨place, ?_⟩, ?_, ?_, ?_⟩, ?_, ?_⟩
  · rw [view_setPc_keyless hget hk]
    unfold settle
    split
    · exact hkept.turnDown n
    · exact hkept.accept_of fun hne => absurd (show w.view.key n = none by simp [view, keyOf, hc, hk]) hne
  · intro m c' k' hc' hk'
    rw [calls_setPc hget, hcalls] at hc'
    rw [show ((w.settle n a).setPc n (.returned a)).handed = w.handed from hhanded]
    by_cases hm : m = n
    · rw [if_pos hm] at hc'
      cases hc'
      exact trivial
    · rw [if_neg hm] at hc'
      exact h.calls m c' k' hc' hk'
  · rw [hlen, show ((w.settle n a).setPc n (.returned a)).handed = w.handed from hhanded]
    exact h.handed
  · rw [hlen]
    exact hacc
  · rintro ⟨c', hc', hr⟩
    rw [calls_setPc hget, if_pos rfl] at hc'
    cases hc'
    cases hr
    exact ⟨n, .inl rfl, .inl List.mem_cons_self⟩
  · intro m hm
    rw [calls_setPc hget, if_neg hm, hcalls]

theorem step_ran (coalesceKey : β → Option κ) (knobs : Knobs) (h : w.Sound) (m : Move ι β) (hm : m.Meets w) :
    w.step coalesceKey knobs m = w ∨ (∃ ms, w.step coalesceKey knobs m = { w with clock := w.clock + ms }) ∨
      ∃ n, Ran w.calls n (w.step coalesceKey knobs m) := by
  cases m with
  | submit i messageId body => exact .inr (.inr ⟨_, submit_ran h i messageId body⟩)
  | tick ms => exact .inr (.inl ⟨ms, rfl⟩)
  | wake n =>
    cases hc : w.calls[n]? with
    | none => exact .inl (by simp [step, hc])
    | some c =>
      cases hk : c.key with
      | none => exact .inl (by simp [step, hc, hk])
      | some k =>
        cases hpc : c.pc with
        | waiting seq ticket refusals held wakeAt =>
          by_cases hw : wakeAt ≤ w.clock
          · refine .inr (.inr ⟨n, ?_⟩)
            simp only [step, hc, hk, hpc, hw, if_true]
            exact wakeUp_ran h hc hk hpc
          · exact .inl (by simp [step, hc, hk, hpc, hw])
        | _ => exact .inl (by simp [step, hc, hk, hpc])
  | answer n a =>
    cases hc : w.calls[n]? with
    | none => exact .inl (by simp [step, answer, hc])
    | some c =>
      cases hk : c.key with
      | none =>
        cases hpc : c.pc with
        | passing =>
          refine .inr (.inr ⟨n, ?_⟩)
          simp only [step, answer, hc, hk, hpc]
          exact passed_ran h hc hk a
        | _ => exact .inl (by simp [step, answer, hc, hk, hpc])
      | some k =>
        have hmeets := hm c k hc hk
        have hok := h.calls n c k hc hk
        obtain ⟨place, hkept⟩ := h.kept
        cases hpc : c.pc with
        | passing => exact .inl (by simp [step, answer, hc, hk, hpc])
        | returned b => exact .inl (by simp [step, answer, hc, hk, hpc])
        | waiting seq ticket refusals held wakeAt => exact .inl (by simp [step, answer, hc, hk, hpc])
        | leading =>
          rw [hpc] at hmeets
          refine .inr (.inr ⟨n, ?_⟩)
          have hphase : w.view.phase n = .leading := by rw [phase_of hc hk, hpc]; rfl
          have hmid := (h.midway hc hk).settle (lt_of_get hc) a
          simp only [step, answer, hc, hk, hpc]
          split
          · rename_i ha
            subst ha
            exact hmid.queue (hkept.turnDown n) (.inr hphase) (hmeets rfl) (List.count_pos_iff.mpr List.mem_cons_self) _ _
          · rename_i ha
            have hacc := hkept.accept_of (n := n) fun _ => hkept.leading n hphase
            rw [settle_accepted _ ha] at hmid ⊢
            exact hmid.finish hacc (.inl hphase) List.mem_cons_self ha
        | sending seq ticket refusals held p =>
          rw [hpc] at hmeets hok
          refine .inr (.inr ⟨n, ?_⟩)
          have hphase : w.view.phase n = .sending seq := by rw [phase_of hc hk, hpc]; rfl
          simp only [step, answer, hc, hk, hpc]
          split
          · rename_i ha
            subst ha
            exact refused_ran h hc hk hpc (hmeets rfl)
          · rename_i ha
            have hcall : p.call = n := hok
            rw [hcall]
            have hacc := hkept.accept_of (n := n) fun _ => hkept.sending n seq hphase
            have hmid := ((h.midway hc hk).coalescer (w.coalescer.tidy c.identity knobs w.clock)).settle (lt_of_get hc) a
            have hv : { w with coalescer := w.coalescer.tidy c.identity knobs w.clock }.view = w.view :=
              view_coalescer (Coalescer.tidy_pending _ _ _ _) (Coalescer.tidy_seq _ _ _ _)
            have hacc' : Kept pushBudgetRetryWindows ({ w with coalescer := w.coalescer.tidy c.identity knobs w.clock }.view.accept n) place :=
              hv.symm ▸ hacc
            rw [settle_accepted _ ha] at hmid ⊢
            exact hmid.finish hacc' (.inr ⟨seq, (congrFun (congrArg View.phase hv) n).trans hphase⟩) List.mem_cons_self ha
        | releasing seq ticket refusals e rest mine =>
          rw [hpc] at hmeets
          refine .inr (.inr ⟨n, ?_⟩)
          simp only [step, answer, hc, hk, hpc]
          split
          · rename_i ha
            subst ha
            exact releasing_refused h hc hk hpc (hmeets.1 rfl) hmeets.2
          · rename_i ha
            exact releasing_accepted h hc hk hpc ha hmeets.2

theorem Sound.step (h : w.Sound) {m : Move ι β} (hm : m.Meets w) : (w.step coalesceKey knobs m).Sound := by
  rcases step_ran coalesceKey knobs h m hm with he | ⟨ms, he⟩ | ⟨n, hr⟩
  · rw [he]
    exact h
  · rw [he]
    exact ⟨h.kept, h.calls, h.handed, h.accepted⟩
  · exact hr.sound

theorem Sound.run (h : w.Sound) {moves : List (Move ι β)} (hm : w.Meeting coalesceKey knobs moves) :
    (w.run coalesceKey knobs moves).Sound := by
  induction moves generalizing w with
  | nil => exact h
  | cons m moves ih => exact ih (h.step hm.1) hm.2

theorem sound_empty : (empty : World ι κ β).Sound := by
  refine ⟨⟨fun _ => .nowhere, ?_⟩, ?_, ?_, ?_⟩
  · constructor <;> simp [empty, view, keyOf, View.Has]
  · simp [empty]
  · simp [empty]
  · simp [empty]

/-! ## At the end -/

def AllReturned (w : World ι κ β) : Prop := ∀ c ∈ w.calls, ∃ a, c.pc = .returned a

def Delivered (w : World ι κ β) : Prop :=
  w.coalescer.pending = [] ∧ ∀ n key, w.keyOf n = some key → w.Latest n →
    w.handed.find? (fun m => decide (w.keyOf m = some key)) = some n ∨
      w.Returned n .budgetRefused ∧ pushBudgetRetryWindows < w.turnedDown.count n

theorem not_carriedBy (h : w.AllReturned) (m j : Nat) : ¬ w.CarriedBy m j := by
  rintro ⟨c, k, hc, -, hpc⟩
  obtain ⟨a, ha⟩ := h c (List.mem_of_getElem? hc)
  rw [ha] at hpc
  exact hpc

theorem first_of_mono {l : List Nat} {R : Nat → Nat → Prop} {p : Nat → Bool} (hl : l.Pairwise R) (hn : n ∈ l) (hp : p n = true) :
    ∃ m ∈ l, l.find? p = some m ∧ p m = true ∧ (n = m ∨ R m n) := by
  cases hf : l.find? p with
  | none => exact absurd hp (List.find?_eq_none.mp hf n hn)
  | some m =>
    obtain ⟨hpm, as, bs, rfl, has⟩ := List.find?_eq_some_iff_append.mp hf
    refine ⟨m, by simp, rfl, hpm, ?_⟩
    rcases List.mem_append.mp hn with hn | hn
    · have := has n hn
      rw [hp] at this
      cases this
    · rcases List.mem_cons.mp hn with rfl | hn
      · exact .inl rfl
      · exact .inr ((List.pairwise_cons.mp (List.pairwise_append.mp hl).2.1).1 n hn)

theorem Sound.delivered (h : w.Sound) (hr : w.AllReturned) : w.Delivered := by
  obtain ⟨place, hk⟩ := h.kept
  refine ⟨?_, ?_⟩
  · by_contra hne
    obtain ⟨e, he⟩ := List.exists_mem_of_ne_nil _ hne
    have hrow : row Prod.fst w.coalescer.pending e.1 ≠ none := fun hn => row_eq_none.mp hn e he rfl
    obtain ⟨e', he'⟩ := Option.ne_none_iff_exists'.mp hrow
    have hx : w.view.state e.1 = some ⟨e'.1, e'.2.call, e'.2.seq⟩ := by simp [view, he']
    have hcar : w.view.Carried e'.2.call := .inl ⟨_, _, hx, rfl⟩
    obtain ⟨m, hm⟩ := carried_of h hcar
    exact not_carriedBy hr m _ hm
  · intro n key hkey hl
    obtain ⟨c, hc, hck, -⟩ := call_of_key hkey
    obtain ⟨a, ha⟩ := hr c (List.mem_of_getElem? hc)
    have hphase : w.view.phase n = .done (decide (a = .budgetRefused)) := by rw [phase_of hc hck, ha]; rfl
    rcases hk.last n (by simp [hphase]) (latest_newest hl) with hacc | hcar | ⟨hgave, -⟩
    · left
      have hmem := hk.accepted n hacc (by rw [show w.view.key n = _ from hkey]; simp)
      obtain ⟨m, hm, hf, hpm, hnm⟩ := first_of_mono hk.mono hmem (p := fun m => decide (w.keyOf m = some key)) (by simpa using hkey)
      have hkm : w.keyOf m = some key := by simpa using hpm
      have heq : n = m := by
        rcases hnm with hnm | hnm
        · exact hnm
        · rcases Nat.eq_or_lt_of_le (hnm key hkm hkey) with heq | hlt
          · exact heq
          · exact absurd (hkm.trans hkey.symm) (hl m hlt)
      rw [heq]
      exact hf
    · obtain ⟨m, hm⟩ := carried_of h hcar
      exact absurd hm (not_carriedBy hr m n)
    · right
      rw [hphase] at hgave
      have : a = .budgetRefused := by simpa using hgave
      exact ⟨⟨c, hc, this ▸ ha⟩, hk.gaveUp n (by rw [hphase]; exact hgave)⟩

end World

/-- Where no refusal puts an older body after a newer one, nor back to a call that is gone: when every call has returned no state is left
and the latest of every key was handed over last, and a call that answers sent is covered. -/
theorem newest_state_delivered (coalesceKey : β → Option κ) (knobs : Knobs) (moves : List (Move ι β))
    (h : World.empty.Meeting coalesceKey knobs moves) :
    ((World.empty.run coalesceKey knobs moves).AllReturned → (World.empty.run coalesceKey knobs moves).Delivered) ∧
      ∀ m : Move ι β, m.Meets (World.empty.run coalesceKey knobs moves) → ∀ n,
        ((World.empty.run coalesceKey knobs moves).step coalesceKey knobs m).Returned n .sent →
          ¬ (World.empty.run coalesceKey knobs moves).Returned n .sent →
            ((World.empty.run coalesceKey knobs moves).step coalesceKey knobs m).Covered n := by
  have hs := World.sound_empty.run h
  refine ⟨hs.delivered, ?_⟩
  intro m hm n hret hnot
  rcases World.step_ran coalesceKey knobs hs m hm with he | ⟨ms, he⟩ | ⟨j, hr⟩
  · exact absurd (he ▸ hret) hnot
  · rw [he] at hret
    exact absurd hret hnot
  · by_cases hj : n = j
    · exact hj ▸ hr.covered (hj ▸ hret)
    · obtain ⟨c, hc, hpc⟩ := hret
      exact absurd ⟨c, (hr.others n hj).symm.trans hc, hpc⟩ hnot

end

def parityKey (b : Nat) : Option Nat := some (b % 2)

def seatRun (moves : List (Move Nat Nat)) : World Nat Nat Nat := World.empty.run parityKey {} moves

theorem latest_of_last {w : World Nat Nat Nat} {n : Nat} (hlen : w.calls.length = n + 1) (hkey : w.keyOf n ≠ none) : w.Latest n := by
  intro m hm heq
  rw [World.keyOf, List.getElem?_eq_none (by omega)] at heq
  exact hkey heq.symm

/-- Two states of one key: the first is sent at once; the second waits, is refused at the window's end and is sent at the next. -/
def retriedMoves : List (Move Nat Nat) :=
  [.submit 0 none 10, .answer 0 .sent, .submit 0 none 20, .tick 2000, .wake 1, .answer 1 .budgetRefused, .tick 2000, .wake 1, .answer 1 .sent]

/-- The leading edge of the older body is refused after the newer one was queued: it takes the newer one's place. -/
def olderLastMoves : List (Move Nat Nat) :=
  [.submit 0 none 10, .submit 0 none 20, .answer 0 .budgetRefused, .tick 2000, .wake 1, .wake 0, .answer 0 .sent]

theorem seat_runs : (seatRun (retriedMoves.take 1)).calls = [⟨0, some 0, none, 10, .leading⟩] ∧
    (seatRun (retriedMoves.take 5)).calls =
      [⟨0, some 0, none, 10, .returned .sent⟩, ⟨0, some 0, none, 20, .sending 1 1 0 0 ⟨1, 1, 0, false, 20, none, 1⟩⟩] ∧
    (seatRun (retriedMoves.take 8)).calls =
      [⟨0, some 0, none, 10, .returned .sent⟩, ⟨0, some 0, none, 20, .sending 1 1 1 0 ⟨1, 1, 0, false, 20, none, 1⟩⟩] ∧
    (seatRun retriedMoves).calls = [⟨0, some 0, none, 10, .returned .sent⟩, ⟨0, some 0, none, 20, .returned .sent⟩] ∧
    (seatRun olderLastMoves).calls = [⟨0, some 0, none, 10, .returned .sent⟩, ⟨0, some 0, none, 20, .returned .sent⟩] ∧
    (seatRun olderLastMoves).handed = [0, 0] := by decide +kernel

theorem retried_meeting : World.Meeting parityKey {} World.empty retriedMoves := by
  obtain ⟨hfirst, hrefused, hsent, -⟩ := seat_runs
  refine ⟨trivial, ?_, trivial, trivial, trivial, ?_, trivial, trivial, ?_, trivial⟩
  · intro c k hc _
    have hc := (congrArg (fun calls => calls[0]?) hfirst).symm.trans hc
    cases hc
    exact fun ha => by cases ha
  · intro c k hc _
    have hc' := (congrArg (fun calls => calls[1]?) hrefused).symm.trans hc
    cases hc'
    refine fun _ => .inr (latest_of_last (congrArg List.length hrefused) ?_)
    exact fun hnone => by
      rw [World.keyOf, hc] at hnone
      cases hnone
  · intro c k hc _
    have hc := (congrArg (fun calls => calls[1]?) hsent).symm.trans hc
    cases hc
    exact fun ha => by cases ha

theorem newest_state_delivered_retried : (seatRun retriedMoves).AllReturned ∧ (seatRun retriedMoves).Delivered := by
  have hcalls := seat_runs.2.2.2.1
  have hr : (seatRun retriedMoves).AllReturned := by
    intro c hc
    rw [hcalls] at hc
    rcases List.mem_cons.mp hc with rfl | hc
    · exact ⟨.sent, rfl⟩
    · rw [List.mem_singleton.mp hc]
      exact ⟨.sent, rfl⟩
  exact ⟨hr, (newest_state_delivered _ _ _ retried_meeting).1 hr⟩

theorem older_body_sent_last : (seatRun olderLastMoves).AllReturned ∧ ¬ (seatRun olderLastMoves).Delivered := by
  obtain ⟨-, -, -, -, hcalls, hhanded⟩ := seat_runs
  constructor
  · intro c hc
    rw [hcalls] at hc
    rcases List.mem_cons.mp hc with rfl | hc
    · exact ⟨.sent, rfl⟩
    · rw [List.mem_singleton.mp hc]
      exact ⟨.sent, rfl⟩
  · rintro ⟨-, hlast⟩
    have hkey := World.keyOf_of_calls hcalls
    rcases hlast 1 (0, 0) (hkey 1) (by
      intro m hm
      rw [hkey m, hkey 1, List.getElem?_eq_none (by simp; omega)]
      simp) with hfound | ⟨⟨c, hc, hpc⟩, -⟩
    · have := List.mem_of_find?_eq_some hfound
      rw [hhanded] at this
      simp at this
    · rw [hcalls] at hc
      cases hc
      cases hpc

end OverlayEngine.PushCoalesce
