import Mathlib.Data.List.Rotate
import OverlayEngine.Pot.SpendProof
import OverlayEngine.Basis.Runs

/-!
# The windows of a wide JOIN

An examination reads a window of a JOIN's candidate inputs that begins at the
hour times the allowance, round the candidates. Windows of several hours read
every candidate exactly when each is met by another. The reserve of a pass
leaves every JOIN after the first its two reads.
-/

namespace OverlayEngine.Pot.SpendProof

/-! ## The windows -/

def windowStart (n k hour : Nat) : Nat := hour * k % n

def windowPlaces (n maxReads hour : Nat) : List Nat :=
  let take := min n (min maxReads joinHopInputsMax)
  ((List.range n).rotate (if take < n ∧ 0 < take then hour * take % n else 0)).take take

/-- The window that an examination reads is the candidates at the places. -/
theorem joinHopWindow_eq (candidates : List (Outpoint × Bool)) (maxReads hour : Nat) :
    (joinHopWindow candidates maxReads hour).map some = (windowPlaces candidates.length maxReads hour).map fun i => candidates[i]? := by
  have hplaces : candidates.map some = (List.range candidates.length).map fun i => candidates[i]? := by
    refine List.ext_getElem (by simp) fun i h _ => ?_
    simp
  unfold joinHopWindow windowPlaces
  rw [List.map_take, List.map_take, List.map_rotate, List.map_rotate, hplaces]

/-- How far round the candidates the place `j` is from `i`. -/
def ahead (n i j : Nat) : Nat := (j + (n - i)) % n

theorem add_ahead {n i j : Nat} (hi : i < n) (hj : j < n) : (i + ahead n i j) % n = j := by
  unfold ahead
  rw [Nat.add_mod_mod, show i + (j + (n - i)) = j + n by omega, Nat.add_mod_right, Nat.mod_eq_of_lt hj]

theorem ahead_add {n i d : Nat} (hi : i < n) (hd : d < n) : ahead n i ((i + d) % n) = d := by
  unfold ahead
  rw [Nat.mod_add_mod, show i + d + (n - i) = d + n by omega, Nat.add_mod_right, Nat.mod_eq_of_lt hd]

theorem ahead_ahead {n i j p : Nat} (hi : i < n) (hj : j < n) (hp : p < n) (h : ahead n i j ≤ ahead n i p) :
    ahead n j p = ahead n i p - ahead n i j := by
  have hlt : ahead n i p < n := Nat.mod_lt _ (by omega)
  have hpe : (j + (ahead n i p - ahead n i j)) % n = p := by
    have hje := add_ahead hi hj
    have hsum := add_ahead hi hp
    generalize ahead n i j = a at h hje ⊢
    rw [← hje, Nat.mod_add_mod, show i + a + (ahead n i p - a) = i + ahead n i p by omega, hsum]
  have := ahead_add (d := ahead n i p - ahead n i j) hj (by omega)
  rwa [hpe] at this

theorem mem_windowPlaces {n k hour p : Nat} (hk : 0 < k) (hmax : k ≤ joinHopInputsMax) (hn : k < n) (hp : p < n) :
    p ∈ windowPlaces n k hour ↔ ahead n (windowStart n k hour) p < k := by
  have htake : min n (min k joinHopInputsMax) = k := by omega
  have hs : windowStart n k hour < n := Nat.mod_lt _ (by omega)
  unfold windowPlaces
  simp only [htake, hn, hk, and_self, if_true]
  rw [List.mem_take_iff_getElem]
  constructor
  · intro ⟨d, hd, he⟩
    rw [List.getElem_rotate, List.getElem_range, List.length_range] at he
    have hdk : d < k := by omega
    have := ahead_add (d := d) hs (by omega)
    rw [show (windowStart n k hour + d) % n = p by rw [Nat.add_comm]; exact he] at this
    omega
  · intro hlt
    refine ⟨ahead n (windowStart n k hour) p, ?_, ?_⟩
    · rw [List.length_rotate, List.length_range]
      omega
    · rw [List.getElem_rotate, List.getElem_range, List.length_range, Nat.add_comm]
      exact add_ahead hs hp

/-- The window of `hour` is met by that of `hour'`, which begins in it or right after it. -/
def Meets (n k hour hour' : Nat) : Prop :=
  1 ≤ ahead n (windowStart n k hour) (windowStart n k hour') ∧ ahead n (windowStart n k hour) (windowStart n k hour') ≤ k

instance (n k hour hour' : Nat) : Decidable (Meets n k hour hour') := inferInstanceAs (Decidable (_ ∧ _))

/-- Every candidate of `n` is read in some examination at the hours. -/
def ReadsAll (n k : Nat) (hours : List Nat) : Prop := ∀ i < n, ∃ hour ∈ hours, i ∈ windowPlaces n k hour

instance (n k : Nat) (hours : List Nat) : Decidable (ReadsAll n k hours) :=
  inferInstanceAs (Decidable (∀ i < n, ∃ hour ∈ hours, i ∈ windowPlaces n k hour))

section
variable {n k : Nat} {hours : List Nat}

theorem readsAll_of_le (hmax : k ≤ joinHopInputsMax) (hn : n ≤ k) (hne : hours ≠ []) : ReadsAll n k hours := by
  intro i hi
  obtain ⟨hour, hm⟩ := List.exists_mem_of_ne_nil hours hne
  refine ⟨hour, hm, ?_⟩
  have htake : min n (min k joinHopInputsMax) = n := by omega
  unfold windowPlaces
  simp only [htake, Nat.lt_irrefl, false_and, if_false]
  rw [List.rotate_zero, List.take_of_length_le (by rw [List.length_range])]
  exact List.mem_range.mpr hi

theorem readsAll_of_meets (hk : 0 < k) (hmax : k ≤ joinHopInputsMax) (hn : k < n) (hne : hours ≠ [])
    (h : ∀ hour ∈ hours, ∃ hour' ∈ hours, Meets n k hour hour') : ReadsAll n k hours := by
  intro p hp
  have start (hour : Nat) : windowStart n k hour < n := Nat.mod_lt _ (by omega)
  -- the window that begins nearest before the place
  have nearer (d : Nat) : ∀ hour ∈ hours, ahead n (windowStart n k hour) p = d → ∃ hour ∈ hours, ahead n (windowStart n k hour) p < k := by
    induction d using Nat.strong_induction_on with
    | _ d ih =>
      intro hour hm hd
      by_cases hlt : d < k
      · exact ⟨hour, hm, by omega⟩
      · obtain ⟨hour', hm', h1, h2⟩ := h hour hm
        have hahead := ahead_ahead (start hour) (start hour') hp (by omega)
        exact ih _ (by omega) hour' hm' hahead
  obtain ⟨hour, hm⟩ := List.exists_mem_of_ne_nil hours hne
  obtain ⟨hour, hm, hlt⟩ := nearer _ hour hm rfl
  exact ⟨hour, hm, (mem_windowPlaces hk hmax hn hp).mpr hlt⟩

theorem meets_of_readsAll (hk : 0 < k) (hmax : k ≤ joinHopInputsMax) (hn : k < n) (h : ReadsAll n k hours) :
    ∀ hour ∈ hours, ∃ hour' ∈ hours, Meets n k hour hour' := by
  intro hour hm
  have start (hour : Nat) : windowStart n k hour < n := Nat.mod_lt _ (by omega)
  have hp : (windowStart n k hour + k) % n < n := Nat.mod_lt _ (by omega)
  obtain ⟨hour', hm', hin⟩ := h _ hp
  rw [mem_windowPlaces hk hmax hn hp] at hin
  refine ⟨hour', hm', ?_⟩
  have hnext := ahead_add (start hour) hn
  have hback := add_ahead (start hour') hp
  generalize (windowStart n k hour + k) % n = p at hp hin hnext hback
  have hlt : ahead n (windowStart n k hour) (windowStart n k hour') < n := Nat.mod_lt _ (by omega)
  unfold Meets
  by_cases hle : ahead n (windowStart n k hour) (windowStart n k hour') ≤ k
  · have := ahead_ahead (start hour) (start hour') hp (by omega)
    omega
  · -- the other window would begin after the candidate and come round to it
    exfalso
    have hround := ahead_ahead (start hour) hp (start hour') (by omega)
    have hto : (p + ahead n p (windowStart n k hour')) % n = windowStart n k hour' := add_ahead hp (start hour')
    generalize hd : ahead n p (windowStart n k hour') = d at hround hto
    have hsum := ahead_add (d := n - d) (start hour') (by omega)
    have hz : (windowStart n k hour' + (n - d)) % n = p := by
      rw [← hto, Nat.mod_add_mod, show p + d + (n - d) = p + n by omega, Nat.add_mod_right, Nat.mod_eq_of_lt hp]
    rw [hz] at hsum
    omega

theorem readsAll_iff (hk : 0 < k) (hmax : k ≤ joinHopInputsMax) (hne : hours ≠ []) :
    ReadsAll n k hours ↔ n ≤ k ∨ ∀ hour ∈ hours, ∃ hour' ∈ hours, Meets n k hour hour' := by
  by_cases hn : n ≤ k
  · exact ⟨fun _ => Or.inl hn, fun _ => readsAll_of_le hmax hn hne⟩
  · have hn : k < n := by omega
    constructor
    · exact fun h => Or.inr (meets_of_readsAll hk hmax hn h)
    · rintro (h | h)
      · omega
      · exact readsAll_of_meets hk hmax hn hne h

end

/-! ## The reserve of a pass -/

def potCount (todo : List Candidate) : Nat := (todo.filter fun c => !c.hop).length

structure Reserved (d : Discover) : Prop where
  begun : d.stage ≠ .scan
  pots : d.potsAfter = potCount d.todo
  reads : d.potsAfter * joinHopReadsReservedPerJoin ≤ d.readsLeft

section
variable {μ : Type} (x : Sdk μ) {d : Discover}

theorem Reserved.goto (h : Reserved d) {stage : DiscoverStage} (hs : stage ≠ .scan) : Reserved (d.goto stage) :=
  ⟨hs, h.pots, h.reads⟩

theorem length_joinHopWindow (candidates : List (Outpoint × Bool)) (maxReads hour : Nat) :
    (joinHopWindow candidates maxReads hour).length ≤ maxReads := by
  unfold joinHopWindow
  simp only [List.length_take, List.length_rotate]
  omega

theorem allowance_of_reserved {readsLeft potsAfter : Nat} (h : (potsAfter + 1) * joinHopReadsReservedPerJoin ≤ readsLeft) :
    2 ≤ joinHopAllowance readsLeft potsAfter ∧ joinHopAllowance readsLeft potsAfter + potsAfter * joinHopReadsReservedPerJoin ≤ readsLeft := by
  unfold joinHopAllowance
  unfold joinHopReadsReservedPerJoin joinHopInputsMax at *
  omega

theorem reserved_next (h : Reserved d) (env : Env) (s : Store) : Reserved (d.next x env s).2 := by
  unfold Discover.next
  cases htodo : d.todo with
  | nil => exact h.goto (by simp)
  | cons c rest =>
    have hpots := h.pots
    have hreads := h.reads
    rw [htodo] at hpots
    cases hc : c.hop with
    | true =>
      have hrest : d.potsAfter = potCount rest := by rw [hpots]; simp [potCount, hc]
      simp only [hc, if_true]
      exact ⟨fun h => (by cases h), hrest, hreads⟩
    | false =>
      have hrest : d.potsAfter = potCount rest + 1 := by rw [hpots]; simp [potCount, hc]
      simp only [hc, Bool.false_eq_true, if_false]
      rw [hrest] at hreads ⊢
      simp only [Nat.add_sub_cancel]
      obtain ⟨-, hkeeps⟩ := allowance_of_reserved hreads
      have fewer : potCount rest * joinHopReadsReservedPerJoin ≤ d.readsLeft := by omega
      split
      · exact ⟨fun h => (by cases h), rfl, fewer⟩
      · split
        · exact ⟨fun h => (by cases h), rfl, fewer⟩
        · rename_i join left hjoin
          refine ⟨fun h => (by cases h), rfl, ?_⟩
          have hleft : left.length ≤ joinHopAllowance d.readsLeft (potCount rest) := by
            unfold Discover.joinHops at hjoin
            obtain ⟨b, -, hb⟩ := Option.bind_eq_some_iff.mp hjoin
            split at hb
            · cases hb
              exact length_joinHopWindow ..
            · cases hb
          show potCount rest * joinHopReadsReservedPerJoin ≤ d.readsLeft - left.length
          omega

theorem reserved_bound (h : Reserved d) (c : Candidate) (spender : Txid) (env : Env) (s : Store)
    {refused fault : DiscoverStage} (hr : refused ≠ .scan) (hf : fault ≠ .scan) : Reserved (d.bound x c spender env s refused fault).2 := by
  unfold Discover.bound
  simp only
  split
  · exact h.goto (by simp)
  · exact h.goto hr
  · exact h.goto hf

theorem reserved_step (h : Reserved d) (env : Env) (s : Store) : Reserved (d.step x env s).2 := by
  unfold Discover.step
  split
  · rename_i hs
    exact absurd hs h.begun
  · exact reserved_next x h env s
  · exact h.goto (by simp)
  · split
    · exact h.goto (by simp)
    · split <;> exact h.goto (by simp)
  · exact h.goto (by simp)
  · split
    · exact h.goto (by simp)
    · refine h.goto ?_
      split <;> nofun
  · exact h.goto (by simp)
  · exact reserved_bound x h _ _ env s (by simp) (by simp)
  · exact reserved_bound x h _ _ env s (by simp) (by simp)
  · exact h.goto (by simp)
  · exact h

def passes (d : Discover) (moves : List (Env × Store)) : Discover := moves.foldl (fun d m => (d.step x m.1 m.2).2) d

theorem reserved_scan (fetcher : Nat) (env : Env) (s : Store)
    (h : potCount (({ fetcher := fetcher } : Discover).step x env s).2.todo ≤ 32) : Reserved (({ fetcher := fetcher } : Discover).step x env s).2 := by
  refine ⟨fun h => (by cases h), rfl, ?_⟩
  have hp : (({ fetcher := fetcher } : Discover).step x env s).2.potsAfter ≤ 32 := h
  have hr : (({ fetcher := fetcher } : Discover).step x env s).2.readsLeft = 64 := rfl
  rw [hr]
  unfold joinHopReadsReservedPerJoin
  omega

theorem allowance_of_pass (fetcher : Nat) (env : Env) (s : Store) (moves : List (Env × Store)) {c : Candidate} {rest : List Candidate}
    (h : potCount (({ fetcher := fetcher } : Discover).step x env s).2.todo ≤ 32)
    (htodo : (passes x (({ fetcher := fetcher } : Discover).step x env s).2 moves).todo = c :: rest) (hc : c.hop = false) :
    2 ≤ joinHopAllowance (passes x (({ fetcher := fetcher } : Discover).step x env s).2 moves).readsLeft
      ((passes x (({ fetcher := fetcher } : Discover).step x env s).2 moves).potsAfter - 1) := by
  have hd : Reserved (passes x (({ fetcher := fetcher } : Discover).step x env s).2 moves) := by
    unfold passes
    exact Runs.inv_run (fun d m (hd : Reserved d) => reserved_step x hd m.1 m.2) (reserved_scan x fetcher env s h) moves
  have hpots := hd.pots
  have hreads := hd.reads
  rw [htodo] at hpots
  rw [show potCount (c :: rest) = potCount rest + 1 by simp [potCount, hc]] at hpots
  rw [hpots] at hreads ⊢
  rw [Nat.add_sub_cancel]
  exact (allowance_of_reserved hreads).1

end

/-- The examinations of a JOIN read all its candidates exactly when there are no more than one
window of them or the window of each hour is met by another's; and every pot of a pass over at
most 32 is given two reads at least. -/
theorem windows_read_all (n : Nat) :
    (∀ k hours, 0 < k → k ≤ joinHopInputsMax → hours ≠ [] →
      (ReadsAll n k hours ↔ n ≤ k ∨ ∀ hour ∈ hours, ∃ hour' ∈ hours, Meets n k hour hour')) ∧
    ∀ (μ : Type) (x : Sdk μ) (fetcher : Nat) (env : Env) (s : Store) (moves : List (Env × Store)) (c : Candidate) (rest : List Candidate),
      potCount (({ fetcher := fetcher } : Discover).step x env s).2.todo ≤ 32 →
      (passes x (({ fetcher := fetcher } : Discover).step x env s).2 moves).todo = c :: rest → c.hop = false →
      2 ≤ joinHopAllowance (passes x (({ fetcher := fetcher } : Discover).step x env s).2 moves).readsLeft
        ((passes x (({ fetcher := fetcher } : Discover).step x env s).2 moves).potsAfter - 1) :=
  ⟨fun _ _ hk hmax hne => readsAll_iff hk hmax hne,
    fun _ x fetcher env s moves _ _ h htodo hc => allowance_of_pass x fetcher env s moves h htodo hc⟩

/-- Two examinations two hours apart read the same half of 32 candidates. -/
theorem windows_miss : ¬ ∀ n k hours, 0 < k → k ≤ joinHopInputsMax → hours.Pairwise (· < ·) → hours.length = (n + k - 1) / k →
    ReadsAll n k hours :=
  fun h => absurd (h 32 16 [0, 2] (by decide) (by decide) (by decide) (by decide)) (by decide)

end OverlayEngine.Pot.SpendProof
