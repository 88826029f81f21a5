import OverlayEngine.AppLayer.PotHook
import OverlayEngine.Basis.Runs

/-!
# A parked wake-up is kept

What each statement does to the rows and the log keeps one invariant: the tokens
grow, a row counts no more attempts than its token failed deliveries, and every
token handed out has its row, a later one, or a reason in the log. The attempts
of a token grow where a settle's retry finds no more of them than it writes.
-/

namespace OverlayEngine.PotHook

/-! ## What the log says of a token -/

def tokens (log : List Event) : List Nat := log.filterMap fun
  | .parked _ g => some g
  | _ => none

def failures (log : List Event) (wake : Wake) (generation : Nat) : Nat := log.countP fun e => decide (e = .answered wake generation false)

def Excused (log : List Event) (wake : Wake) (generation : Nat) : Prop :=
  .answered wake generation true ∈ log ∨
    (∃ r : Row, r.wake = wake ∧ r.generation = generation ∧ r.exhaustedAtMs.isSome = true ∧ (.gone r .swept ∈ log ∨ .gone r .room ∈ log)) ∨
    ∃ r : Row, r.wake = wake ∧ r.generation = generation ∧ .gone r .room ∈ log ∧ parkDisplaceMinAttempts ≤ failures log wake generation

def Kept (rows : List Row) (log : List Event) (wake : Wake) (generation : Nat) : Prop :=
  (∃ r ∈ rows, r.wake = wake ∧ generation ≤ r.generation) ∨ ∃ g, generation ≤ g ∧ Excused log wake g

section
variable {log more : List Event} {wake : Wake} {generation : Nat} {rows : List Row}

theorem failures_append : failures (more ++ log) wake generation = failures more wake generation + failures log wake generation := by
  simp [failures]

theorem failures_mono : failures log wake generation ≤ failures (more ++ log) wake generation := by
  rw [failures_append]
  omega

theorem failures_pos (h : .answered wake generation false ∈ log) : 1 ≤ failures log wake generation :=
  List.countP_pos_iff.mpr ⟨_, h, by simp⟩

theorem Excused.mono (h : Excused log wake generation) (more : List Event) : Excused (more ++ log) wake generation := by
  rcases h with h | ⟨r, hw, hg, he, h⟩ | ⟨r, hw, hg, h, hf⟩
  · exact .inl (List.mem_append_right _ h)
  · exact .inr (.inl ⟨r, hw, hg, he, h.imp (List.mem_append_right _) (List.mem_append_right _)⟩)
  · exact .inr (.inr ⟨r, hw, hg, List.mem_append_right _ h, hf.trans failures_mono⟩)

theorem Kept.mono (h : Kept rows log wake generation) (more : List Event) : Kept rows (more ++ log) wake generation :=
  h.imp_right fun ⟨g, hg, he⟩ => ⟨g, hg, he.mono more⟩

theorem tokens_append : tokens (more ++ log) = tokens more ++ tokens log := List.filterMap_append

theorem tokens_of_gone {gone : List Row} {way : Way} : tokens (gone.map fun r => .gone r way) = [] := by
  simp [tokens, List.filterMap_map]

theorem tokens_of_answered (calls : List (Call × Option Delivery)) : tokens (answeredEvents calls) = [] := by
  rw [tokens, List.filterMap_eq_nil_iff]
  intro e he
  obtain ⟨s, -, hs⟩ := List.mem_filterMap.mp he
  obtain ⟨g, -, rfl⟩ := Option.map_eq_some_iff.mp hs
  rfl

end

/-- The parked rows under a log whose tokens are at most `bound`. -/
structure Good (bound : Nat) (rows : List Row) (log : List Event) : Prop where
  once : (rows.map Row.wake).Nodup
  fresh : ∀ r ∈ rows, r.generation ≤ bound
  handed : ∀ g ∈ tokens log, g ≤ bound
  ordered : (tokens log).Pairwise (· > ·)
  counted : ∀ r ∈ rows, r.attempts ≤ failures log r.wake r.generation
  kept : ∀ wake g, .parked wake g ∈ log → Kept rows log wake g

theorem mem_tokens {log : List Event} {wake : Wake} {g : Nat} (h : .parked wake g ∈ log) : g ∈ tokens log :=
  List.mem_filterMap.mpr ⟨_, h, rfl⟩

def ParkOp.Fair (log : List Event) : ParkOp → Prop
  | .delivered wake generation => .answered wake generation true ∈ log
  | .retry wake generation attempts _ _ => attempts ≤ failures log wake generation
  | _ => True

theorem ParkOp.Fair.mono {op : ParkOp} {log : List Event} (h : op.Fair log) (more : List Event) : op.Fair (more ++ log) := by
  cases op with
  | delivered wake generation => exact List.mem_append_right _ h
  | retry wake generation attempts nextMs exhaustedAtMs => exact Nat.le_trans h failures_mono
  | _ => trivial

namespace Good

variable {bound : Nat} {rows : List Row} {log : List Event}

theorem widen (h : Good bound rows log) {bound' : Nat} (hb : bound ≤ bound') : Good bound' rows log :=
  { h with
    fresh := fun r hr => (h.fresh r hr).trans hb
    handed := fun g hg => (h.handed g hg).trans hb }

theorem heard (h : Good bound rows log) {more : List Event} (hm : tokens more = []) : Good bound rows (more ++ log) where
  once := h.once
  fresh := h.fresh
  handed := by
    rw [tokens_append, hm]
    exact h.handed
  ordered := by
    rw [tokens_append, hm]
    exact h.ordered
  counted r hr := (h.counted r hr).trans failures_mono
  kept wake g hp := by
    rcases List.mem_append.mp hp with hp | hp
    · have := mem_tokens hp
      simp [hm] at this
    · exact (h.kept wake g hp).mono more

theorem update (h : Good bound rows log) {f : Row → Row} (hw : ∀ r, (f r).wake = r.wake) (hg : ∀ r, (f r).generation = r.generation)
    (hc : ∀ r ∈ rows, (f r).attempts ≤ failures log r.wake r.generation) : Good bound (rows.map f) log where
  once := by
    rw [List.map_map, show Row.wake ∘ f = Row.wake from funext hw]
    exact h.once
  fresh r hr := by
    obtain ⟨r', hr', rfl⟩ := List.mem_map.mp hr
    rw [hg]
    exact h.fresh r' hr'
  handed := h.handed
  ordered := h.ordered
  counted r hr := by
    obtain ⟨r', hr', rfl⟩ := List.mem_map.mp hr
    rw [hw, hg]
    exact hc r' hr'
  kept wake g hp := by
    rcases h.kept wake g hp with ⟨r, hr, hwake, hge⟩ | he
    · exact .inl ⟨f r, List.mem_map_of_mem hr, (hw r).trans hwake, (hg r).symm ▸ hge⟩
    · exact .inr he

theorem taken (h : Good bound rows log) {p : Row → Bool} {way : Way}
    (he : ∀ r ∈ rows, p r = true → Excused ((rows.filter p).map (fun r => .gone r way) ++ log) r.wake r.generation) :
    Good bound (rows.filter fun r => !p r) ((rows.filter p).map (fun r => .gone r way) ++ log) := by
  have hh : Good bound rows ((rows.filter p).map (fun r => .gone r way) ++ log) := h.heard tokens_of_gone
  refine { hh with
    once := h.once.sublist (List.filter_sublist.map _)
    fresh := fun r hr => h.fresh r (List.mem_of_mem_filter hr)
    counted := fun r hr => hh.counted r (List.mem_of_mem_filter hr)
    kept := fun wake g hp => ?_ }
  rcases hh.kept wake g hp with ⟨r, hr, rfl, hge⟩ | hex
  · by_cases hpr : p r = true
    · exact .inr ⟨r.generation, hge, he r hr hpr⟩
    · exact .inl ⟨r, List.mem_filter.mpr ⟨hr, by simp [hpr]⟩, rfl, hge⟩
  · exact .inr hex

theorem parked (h : Good bound rows log) {row : Row} (ha : row.attempts = 0) (hb : bound < row.generation) :
    Good row.generation (PotHook.park rows row).rows ((PotHook.park rows row).events ++ log) ∧
      (PotHook.park rows row).out.generation = some row.generation ∧ (PotHook.park rows row).events = [.parked row.wake row.generation] := by
  have hh : ∀ rows', (rows'.map Row.wake).Nodup → (∀ r ∈ rows', r = row ∨ r ∈ rows) → row ∈ rows' →
      (∀ r ∈ rows, r ∈ rows' ∨ r.wake = row.wake) → Good row.generation rows' (.parked row.wake row.generation :: log) := by
    intro rows' hnodup hsub hrow hold
    refine ⟨hnodup, fun r hr => ?_, fun g hg => ?_, ?_, fun r hr => ?_, fun wake g hp => ?_⟩
    · rcases hsub r hr with rfl | hr
      · exact Nat.le_refl _
      · exact (h.fresh r hr).trans hb.le
    · rcases List.mem_cons.mp hg with rfl | hg
      · exact Nat.le_refl _
      · exact (h.handed g hg).trans hb.le
    · exact List.pairwise_cons.mpr ⟨fun g hg => (h.handed g hg).trans_lt hb, h.ordered⟩
    · rcases hsub r hr with rfl | hr
      · rw [ha]
        exact Nat.zero_le _
      · show _ ≤ failures ([.parked row.wake row.generation] ++ log) r.wake r.generation
        exact (h.counted r hr).trans failures_mono
    · rcases List.mem_cons.mp hp with heq | hp
      · obtain ⟨rfl, rfl⟩ := Event.parked.inj heq
        exact .inl ⟨row, hrow, rfl, Nat.le_refl _⟩
      · rcases (h.kept wake g hp).mono [.parked row.wake row.generation] with ⟨r, hr, hw, hge⟩ | hex
        · rcases hold r hr with hr' | hkey
          · exact .inl ⟨r, hr', hw, hge⟩
          · exact .inl ⟨row, hrow, hkey.symm.trans hw, hge.trans ((h.fresh r hr).trans hb.le)⟩
        · exact .inr hex
  unfold PotHook.park
  cases hheld : KeyedRows.row Row.wake rows row.wake with
  | none =>
    refine ⟨hh _ (KeyedRows.nodup_append h.once hheld) (fun r hr => ?_) (by simp) (fun r hr => .inl (List.mem_append_left _ hr)), rfl, rfl⟩
    rcases List.mem_append.mp hr with hr | hr
    · exact .inr hr
    · exact .inl (List.mem_singleton.mp hr)
  | some held =>
    have hlt : held.generation < row.generation := (h.fresh held (KeyedRows.row_mem hheld)).trans_lt hb
    simp only [if_pos hlt]
    refine ⟨hh _ ?_ (fun r hr => ?_) ?_ (fun r hr => ?_), trivial, trivial⟩
    · have hmap : (rows.map fun r => if r.wake = row.wake then row else r).map Row.wake = rows.map Row.wake := by
        rw [List.map_map]
        refine List.map_congr_left fun r _ => ?_
        by_cases hk : r.wake = row.wake
        · simp [hk]
        · simp [hk]
      rw [hmap]
      exact h.once
    · obtain ⟨r', hr', rfl⟩ := List.mem_map.mp hr
      by_cases hk : r'.wake = row.wake
      · exact .inl (if_pos hk)
      · exact .inr (by rw [if_neg hk]; exact hr')
    · exact List.mem_map.mpr ⟨held, KeyedRows.row_mem hheld, if_pos (KeyedRows.row_key hheld)⟩
    · by_cases hk : r.wake = row.wake
      · exact .inr hk
      · exact .inl (List.mem_map.mpr ⟨r, hr, if_neg hk⟩)

end Good

/-! ## A batch -/

section
variable {bound base pos : Nat} {rows : List Row} {log : List Event} {op : ParkOp} {ops : List ParkOp}

theorem isAt_iff {r : Row} {wake : Wake} {generation : Nat} : r.isAt wake generation = true ↔ r.wake = wake ∧ r.generation = generation := by
  simp [Row.isAt]

theorem mem_firstKeys {p : Row → Bool} {limit : Nat} {k : Wake} (h : k ∈ firstKeys p limit rows) : ∃ r ∈ rows, r.wake = k ∧ p r = true := by
  obtain ⟨r, hr, rfl⟩ := List.mem_map.mp h
  have hm := List.mem_filter.mp (List.mem_of_mem_take hr)
  exact ⟨r, hm.1, rfl, hm.2⟩

theorem takeOut_good (h : Good bound rows log) {keys : List Wake} {p : Row → Bool} {way : Way} (hk : ∀ k ∈ keys, ∃ r ∈ rows, r.wake = k ∧ p r = true)
    (he : ∀ r ∈ rows, p r = true → r.exhaustedAtMs.isSome = true ∧ (way = .swept ∨ way = .room) ∨ way = .room ∧ parkDisplaceMinAttempts ≤ r.attempts) :
    Good bound (takeOut keys rows way).rows ((takeOut keys rows way).events ++ log) := by
  refine h.taken fun r hr hin => ?_
  obtain ⟨k, hk', heq⟩ := List.any_eq_true.mp hin
  obtain ⟨r', hr', hw, hp⟩ := hk k hk'
  obtain rfl : r' = r := List.inj_on_of_nodup_map h.once hr' hr (hw.trans (by simpa using heq))
  have hgone : .gone r' way ∈ (rows.filter fun r => keys.any fun k => k = r.wake).map (fun r => Event.gone r way) ++ log :=
    List.mem_append_left _ (List.mem_map.mpr ⟨r', List.mem_filter.mpr ⟨hr, hin⟩, rfl⟩)
  rcases he r' hr hp with ⟨hx, rfl | rfl⟩ | ⟨rfl, hd⟩
  · exact .inr (.inl ⟨r', rfl, rfl, hx, .inl hgone⟩)
  · exact .inr (.inl ⟨r', rfl, rfl, hx, .inr hgone⟩)
  · exact .inr (.inr ⟨r', rfl, rfl, hgone, hd.trans ((h.counted r' hr).trans failures_mono)⟩)

theorem exec_good (h : Good (base + pos) rows log) (hf : op.Fair log) {pos' : Nat} (hpos : pos' = if op.isPark then pos + 1 else pos) :
    Good (base + pos') (op.exec base pos' rows).rows ((op.exec base pos' rows).events ++ log) := by
  cases op with
  | park wake atMs nextMs =>
    subst hpos
    let row : Row := { wake, atMs, nextAttemptAtMs := nextMs, generation := base + (pos + 1) }
    exact (h.parked (show row.attempts = 0 from rfl) (Nat.lt_add_one (base + pos))).1
  | delivered wake generation =>
    subst hpos
    refine h.taken fun r _ hin => .inl (List.mem_append_right _ ?_)
    obtain ⟨rfl, rfl⟩ := isAt_iff.mp hin
    exact hf
  | retry wake generation attempts nextMs exhaustedAtMs =>
    subst hpos
    refine h.update (fun r => ?_) (fun r => ?_) fun r hr => ?_
    · split <;> rfl
    · split <;> rfl
    · by_cases hat : r.isAt wake generation = true
      · rw [if_pos hat]
        obtain ⟨rfl, rfl⟩ := isAt_iff.mp hat
        exact hf
      · rw [if_neg hat]
        exact h.counted r hr
  | sweep beforeMs limit =>
    subst hpos
    refine takeOut_good h (fun k hk => mem_firstKeys hk) fun r _ hp => .inl ⟨?_, .inl rfl⟩
    cases he : r.exhaustedAtMs with
    | none => simp [he] at hp
    | some e => rfl
  | age beforeMs nowMs limit =>
    subst hpos
    refine h.update (fun r => ?_) (fun r => ?_) fun r hr => ?_
    · split <;> rfl
    · split <;> rfl
    · split <;> exact h.counted r hr

theorem exec_length (base pos : Nat) (rows : List Row) (op : ParkOp) :
    (op.exec base pos rows).rows.length ≤ rows.length + if op.isPark then 1 else 0 := by
  cases op with
  | park wake atMs nextMs =>
    simp only [ParkOp.exec, park]
    split
    · simp [ParkOp.isPark]
    · split <;> simp [ParkOp.isPark]
  | delivered wake generation => exact List.length_filter_le _ _
  | retry wake generation attempts nextMs exhaustedAtMs => simp [ParkOp.exec, ParkOp.isPark]
  | sweep beforeMs limit => exact List.length_filter_le _ _
  | age beforeMs nowMs limit => simp [ParkOp.exec, ParkOp.isPark]

theorem runOps_good (h : Good (base + pos) rows log) (hf : ∀ op ∈ ops, op.Fair log) :
    Good (base + (pos + ops.countP ParkOp.isPark)) (runOps base pos ops rows log).1 (runOps base pos ops rows log).2.2 := by
  induction ops generalizing pos rows log with
  | nil => exact h
  | cons op ops ih =>
    have hop := exec_good h (hf op List.mem_cons_self) rfl
    have hrest := ih hop fun op' hop' => (hf op' (List.mem_cons_of_mem _ hop')).mono _
    rw [List.countP_cons]
    have hpos : pos + (ops.countP ParkOp.isPark + if op.isPark = true then 1 else 0) =
        (if op.isPark = true then pos + 1 else pos) + ops.countP ParkOp.isPark := by
      split <;> omega
    rw [hpos]
    exact hrest

theorem runOps_log (base pos : Nat) (ops : List ParkOp) (rows : List Row) (log : List Event) : ∃ more, (runOps base pos ops rows log).2.2 = more ++ log := by
  induction ops generalizing pos rows log with
  | nil => exact ⟨[], rfl⟩
  | cons op ops ih =>
    obtain ⟨more, hm⟩ := ih (if op.isPark then pos + 1 else pos) (op.exec base (if op.isPark then pos + 1 else pos) rows).rows
      ((op.exec base (if op.isPark then pos + 1 else pos) rows).events ++ log)
    exact ⟨more ++ (op.exec base (if op.isPark then pos + 1 else pos) rows).events, by simp only [runOps, hm, List.append_assoc]⟩

theorem runOps_length (base pos : Nat) (ops : List ParkOp) (rows : List Row) (log : List Event) :
    (runOps base pos ops rows log).1.length ≤ rows.length + ops.countP ParkOp.isPark := by
  induction ops generalizing pos rows log with
  | nil => exact Nat.le_refl _
  | cons op ops ih =>
    refine (ih _ _ _).trans ?_
    rw [List.countP_cons]
    have := exec_length base (if op.isPark then pos + 1 else pos) rows op
    omega

theorem runOps_parked {wakes : List Wake} (atMs nextMs : Nat) (h : Good (base + pos) rows log) {i : Nat} {wake : Wake} (hi : wakes[i]? = some wake) :
    ∃ out g, (runOps base pos (wakes.map fun wake => .park wake atMs nextMs) rows log).2.1[i]? = some out ∧ out.generation = some g ∧
      .parked wake g ∈ (runOps base pos (wakes.map fun wake => .park wake atMs nextMs) rows log).2.2 := by
  induction wakes generalizing pos rows log i with
  | nil => simp at hi
  | cons w wakes ih =>
    let row : Row := { wake := w, atMs, nextAttemptAtMs := nextMs, generation := base + (pos + 1) }
    obtain ⟨hgood, hout, hevents⟩ := h.parked (show row.attempts = 0 from rfl) (Nat.lt_add_one (base + pos))
    cases i with
    | zero =>
      obtain rfl : w = wake := by simpa using hi
      refine ⟨(park rows row).out, base + (pos + 1), rfl, hout, ?_⟩
      obtain ⟨more, hm⟩ := runOps_log base (pos + 1) (wakes.map fun wake => .park wake atMs nextMs) (park rows row).rows ((park rows row).events ++ log)
      have hin : .parked w (base + (pos + 1)) ∈ more ++ ((park rows row).events ++ log) := by
        rw [hevents]
        simp [row]
      rw [← hm] at hin
      exact hin
    | succ i =>
      have hnext : Good (base + (pos + 1)) (park rows row).rows ((park rows row).events ++ log) := hgood
      exact ih hnext (by simpa using hi)

theorem runOps_base (hops : ops.countP ParkOp.isPark = 0) (base' : Nat) : runOps base pos ops rows log = runOps base' pos ops rows log := by
  induction ops generalizing pos rows log with
  | nil => rfl
  | cons op ops ih =>
    rw [List.countP_cons] at hops
    have hop : op.isPark = false := by
      by_contra hne
      simp [hne] at hops
    have hexec : ∀ pos, op.exec base pos rows = op.exec base' pos rows := by
      intro pos
      cases op <;> first | rfl | simp [ParkOp.isPark] at hop
    simp only [runOps, hexec, ih (by omega)]

/-! ## The room a batch makes -/

theorem length_takeOut (once : (rows.map Row.wake).Nodup) {keys : List Wake} (hn : keys.Nodup) (hk : ∀ k ∈ keys, ∃ r ∈ rows, r.wake = k) (way : Way) :
    (takeOut keys rows way).rows.length + keys.length = rows.length := by
  have hgone : ((rows.filter fun r => keys.any fun k => k = r.wake).map Row.wake).Perm keys := by
    refine (List.perm_ext_iff_of_nodup (once.sublist (List.filter_sublist.map _)) hn).mpr fun k => ?_
    constructor
    · intro hin
      obtain ⟨r, hr, rfl⟩ := List.mem_map.mp hin
      obtain ⟨k, hk', heq⟩ := List.any_eq_true.mp (List.mem_filter.mp hr).2
      exact (of_decide_eq_true heq) ▸ hk'
    · intro hin
      obtain ⟨r, hr, rfl⟩ := hk k hin
      exact List.mem_map.mpr ⟨r, List.mem_filter.mpr ⟨hr, List.any_eq_true.mpr ⟨r.wake, hin, by simp⟩⟩, rfl⟩
  have hlen := hgone.length_eq
  rw [List.length_map] at hlen
  have hsplit := List.length_eq_countP_add_countP (fun r : Row => keys.any fun k => k = r.wake) (l := rows)
  simp only [takeOut]
  rw [← hlen, hsplit, ← List.countP_eq_length_filter, ← List.countP_eq_length_filter, Nat.add_comm]
  congr 1
  exact List.countP_congr fun r _ => by cases keys.any fun k => decide (k = r.wake) <;> simp

theorem oldest_length {p : Row → Bool} {le : Row → Row → Bool} {limit : Nat} (h : limit ≤ (rows.filter p).length) :
    (KeyedRows.oldest Row.wake p le limit rows).length = limit := by
  simp only [KeyedRows.oldest, List.length_map, List.length_take, List.length_insertionSort]
  omega

theorem room_made (h : Good bound rows log) {parks : Nat} (hlen : rows.length ≤ parkMaxRows + parks)
    (hguard : min rows.length (parkMaxRows + parks) - parkMaxRows ≤ (rows.filter (Row.mayMakeRoom base)).length) :
    let made := takeOut (KeyedRows.oldest Row.wake (Row.mayMakeRoom base) roomOrder (min rows.length (parkMaxRows + parks) - parkMaxRows) rows) rows .room
    Good bound made.rows (made.events ++ log) ∧ made.rows.length ≤ parkMaxRows := by
  rw [Nat.min_eq_left hlen] at hguard ⊢
  have hkeys : ∀ k ∈ KeyedRows.oldest Row.wake (Row.mayMakeRoom base) roomOrder (rows.length - parkMaxRows) rows,
      ∃ r ∈ rows, r.wake = k ∧ r.mayMakeRoom base = true := fun k hk => KeyedRows.mem_oldest hk
  constructor
  · refine takeOut_good h hkeys fun r _ hp => ?_
    rcases Bool.or_eq_true_iff.mp hp with hx | hd
    · exact .inl ⟨hx, .inr rfl⟩
    · exact .inr ⟨rfl, by simpa using (Bool.and_eq_true_iff.mp hd).1⟩
  · have hout := length_takeOut h.once (KeyedRows.nodup_oldest h.once) (fun k hk => (hkeys k hk).imp fun r hr => ⟨hr.1, hr.2.1⟩) .room
    rw [oldest_length hguard] at hout
    exact Nat.le_of_add_le_add_right (hout.le.trans (Nat.sub_le_iff_le_add'.mp (Nat.le_refl _)))

theorem write_good {s s' : Store} {now : Nat} {outs : List OpOut} {log' : List Event} (h : Good (s.n.getD 0) s.rows log)
    (hroom : s.rows.length ≤ parkMaxRows) (hf : ∀ op ∈ ops, op.Fair log) (hw : s.write now ops log = some (s', outs, log')) :
    Good (s'.n.getD 0) s'.rows log' ∧ s'.rows.length ≤ parkMaxRows := by
  have hlen := runOps_length (s.n.getD (now * 1000)) 0 ops s.rows log
  by_cases hparks : ops.countP ParkOp.isPark = 0
  · simp only [Store.write, hparks, if_true, Option.some.injEq, Prod.mk.injEq] at hw
    obtain ⟨rfl, -, rfl⟩ := hw
    have hgood : Good (s.n.getD 0 + 0) s.rows log := h
    have hrun := runOps_good hgood hf
    rw [hparks] at hrun hlen
    rw [runOps_base hparks (s.n.getD 0)] at hlen ⊢
    exact ⟨hrun, hlen.trans hroom⟩
  · have hbase : s.n.getD 0 ≤ s.n.getD (now * 1000) := by
      cases s.n with
      | none => exact Nat.zero_le _
      | some n => exact Nat.le_refl _
    have hgood : Good (s.n.getD (now * 1000) + 0) s.rows log := h.widen hbase
    have hrun := runOps_good hgood hf
    rw [Nat.zero_add] at hrun
    simp only [Store.write, hparks, if_false] at hw
    split at hw
    · exact nomatch hw
    · rename_i hguard
      rw [List.length_take, Nat.not_lt, Nat.le_min] at hguard
      obtain ⟨rfl, -, rfl⟩ := Prod.mk.inj (Option.some.inj hw) |>.imp_right Prod.mk.inj
      exact room_made hrun (hlen.trans (Nat.add_le_add_right hroom _)) hguard.2

end

/-! ## The jobs -/

def AnnouncePlan.Heard (plan : AnnouncePlan) (got : List (Option Delivery)) (log : List Event) : Prop :=
  ∀ (i : Nat) (wake : Wake) (g : Nat) (d : Option Delivery), plan.wakes[i]? = some wake → plan.generations[i]? = some (some g) → got[i]? = some d → .answered wake g (landed d) ∈ log

def Drained (log : List Event) (p : Parked) (d : Option Delivery) : Prop :=
  if landed d = true then .answered p.wake p.generation true ∈ log else p.attempts + 1 ≤ failures log p.wake p.generation

def Job.Fair (log : List Event) : Job → Prop
  | .hook _ (.write out) => out.writeFault = none
  | .announce _ plan (.redrive _ _ got _) => plan.Heard got log
  | .announce _ plan (.settle got) => plan.Heard got log
  | .drain (.deliver _ due) => ∀ p ∈ due, p.attempts ≤ failures log p.wake p.generation
  | .drain (.settle _ due got _) => ∀ p ∈ due.zip got, Drained log p.1 p.2
  | _ => True

theorem Job.Fair.mono {j : Job} {log : List Event} (h : j.Fair log) (more : List Event) : j.Fair (more ++ log) := by
  have hheard : ∀ {plan : AnnouncePlan} {got : List (Option Delivery)}, plan.Heard got log → plan.Heard got (more ++ log) :=
    fun h i wake g d hw hg hd => List.mem_append_right _ (h i wake g d hw hg hd)
  cases j with
  | hook tries stage =>
    cases stage with
    | write out => exact h
    | _ => trivial
  | announce tries plan stage =>
    cases stage with
    | redrive t0 left got pending => exact hheard h
    | settle got => exact hheard h
    | _ => trivial
  | drain stage =>
    cases stage with
    | deliver round due => exact fun p hp => (h p hp).trans failures_mono
    | settle round due got walled =>
      intro p hp
      have hd := h p hp
      unfold Drained at hd ⊢
      by_cases hl : landed p.2 = true
      · rw [if_pos hl] at hd ⊢
        exact List.mem_append_right _ hd
      · rw [if_neg hl] at hd ⊢
        exact hd.trans failures_mono
    | _ => trivial

/-! ## A turn -/

def PotChangedOutcome.Handed (out : PotChangedOutcome) (log : List Event) : Prop :=
  out.writeFault = none → ∀ (i : Nat) (wake : Wake), out.plan.wakes[i]? = some wake → ∃ g, out.plan.generations[i]? = some (some g) ∧ .parked wake g ∈ log

structure World.Sound (w : World) : Prop where
  good : Good (w.store.n.getD 0) w.store.rows w.log
  room : w.store.rows.length ≤ parkMaxRows
  jobs : ∀ j ∈ w.jobs, j.Fair w.log
  outcomes : ∀ out ∈ w.outcomes, out.Handed w.log

structure World.Onto (w w' : World) : Prop where
  grows : ∃ more, w'.log = more ++ w.log
  good : Good (w'.store.n.getD 0) w'.store.rows w'.log
  room : w'.store.rows.length ≤ parkMaxRows

namespace World

variable {w : World} {env : Env}

theorem Onto.refl (h : w.Sound) : w.Onto w := ⟨⟨[], rfl⟩, h.good, h.room⟩

theorem Onto.answered (h : w.Sound) (calls : List (Call × Option Delivery)) : w.Onto { w with log := answeredEvents calls ++ w.log } :=
  ⟨⟨_, rfl⟩, h.good.heard (tokens_of_answered calls), h.room⟩

theorem write_grows {s s' : Store} {now : Nat} {ops : List ParkOp} {log log' : List Event} {outs : List OpOut}
    (hw : s.write now ops log = some (s', outs, log')) : ∃ more, log' = more ++ log := by
  obtain ⟨more, hm⟩ := runOps_log (s.n.getD (now * 1000)) 0 ops s.rows log
  simp only [Store.write] at hw
  split at hw
  · obtain ⟨-, -, rfl⟩ := Prod.mk.inj (Option.some.inj hw) |>.imp_right Prod.mk.inj
    exact ⟨more, hm⟩
  · split at hw
    · exact nomatch hw
    · obtain ⟨-, -, rfl⟩ := Prod.mk.inj (Option.some.inj hw) |>.imp_right Prod.mk.inj
      exact ⟨_ ++ more, by rw [hm, List.append_assoc]⟩

theorem batch_cases (w : World) (env : Env) (ops : List ParkOp) :
    w.batch env ops = (w, none) ∨ ∃ s outs log, env.fault = none ∧ w.store.write env.now ops w.log = some (s, outs, log) ∧
      w.batch env ops = ({ w with store := s, log }, some outs) := by
  unfold batch
  split
  · rename_i done hf hw
    split
    · exact .inl rfl
    · exact .inr ⟨done.1, done.2.1, done.2.2, hf, hw, rfl⟩
  · exact .inl rfl

theorem batch_onto (h : w.Sound) {ops : List ParkOp} (hf : ∀ op ∈ ops, op.Fair w.log) : w.Onto (w.batch env ops).1 := by
  rcases w.batch_cases env ops with hb | ⟨s, outs, log, -, hw, hb⟩
  · rw [hb]
    exact .refl h
  · rw [hb]
    obtain ⟨hgood, hroom⟩ := write_good h.good h.room hf hw
    exact ⟨write_grows hw, hgood, hroom⟩

theorem batch_jobs (w : World) (env : Env) (ops : List ParkOp) : (w.batch env ops).1.jobs = w.jobs ∧ (w.batch env ops).1.outcomes = w.outcomes := by
  rcases w.batch_cases env ops with hb | ⟨s, outs, log, -, -, hb⟩ <;> rw [hb] <;> exact ⟨rfl, rfl⟩

structure Turned (w : World) (next : World × Job) : Prop where
  onto : w.Onto next.1
  own : next.2.Fair next.1.log
  others : ∀ j ∈ next.1.jobs, j ∈ w.jobs ∨ j.Fair next.1.log
  outcomes : ∀ out ∈ next.1.outcomes, out ∈ w.outcomes ∨ out.Handed next.1.log

theorem Turned.sound {next : World × Job} (h : w.Sound) (ht : w.Turned next) (i : Nat) :
    World.Sound { next.1 with jobs := next.1.jobs.set i next.2 } where
  good := ht.onto.good
  room := ht.onto.room
  jobs j hj := by
    obtain ⟨more, hm⟩ := ht.onto.grows
    rcases List.mem_or_eq_of_mem_set hj with hj | rfl
    · rcases ht.others j hj with hj | hj
      · exact hm ▸ (h.jobs j hj).mono more
      · exact hj
    · exact ht.own
  outcomes out hout := by
    obtain ⟨more, hm⟩ := ht.onto.grows
    rcases ht.outcomes out hout with hout | hout
    · intro hnone i wake hi
      obtain ⟨g, hg, hp⟩ := h.outcomes out hout hnone i wake hi
      exact ⟨g, hg, hm ▸ List.mem_append_right _ hp⟩
    · exact hout

theorem Turned.of_onto {next : World × Job} (ho : w.Onto next.1) (hj : next.2.Fair next.1.log) (hjobs : next.1.jobs = w.jobs)
    (hout : next.1.outcomes = w.outcomes) : w.Turned next :=
  ⟨ho, hj, fun _ h => .inl (hjobs ▸ h), fun _ h => .inl (hout ▸ h)⟩

/-! ### The hook -/

theorem write_parked {s s' : Store} {now : Nat} {wakes : List Wake} {atMs nextMs : Nat} {log log' : List Event} {outs : List OpOut}
    (h : Good (s.n.getD 0) s.rows log) (hw : s.write now (wakes.map fun wake => .park wake atMs nextMs) log = some (s', outs, log')) {i : Nat} {wake : Wake}
    (hi : wakes[i]? = some wake) : ∃ out g, outs[i]? = some out ∧ out.generation = some g ∧ .parked wake g ∈ log' := by
  have hbase : s.n.getD 0 ≤ s.n.getD (now * 1000) := by
    cases s.n with
    | none => exact Nat.zero_le _
    | some n => exact Nat.le_refl _
  have hgood : Good (s.n.getD (now * 1000) + 0) s.rows log := h.widen hbase
  obtain ⟨out, g, hout, hg, hp⟩ := runOps_parked atMs nextMs hgood hi
  simp only [Store.write] at hw
  split at hw
  · obtain ⟨-, rfl, rfl⟩ := Prod.mk.inj (Option.some.inj hw) |>.imp_right Prod.mk.inj
    exact ⟨out, g, hout, hg, hp⟩
  · split at hw
    · exact nomatch hw
    · obtain ⟨-, rfl, rfl⟩ := Prod.mk.inj (Option.some.inj hw) |>.imp_right Prod.mk.inj
      exact ⟨out, g, hout, hg, List.mem_append_right _ hp⟩

theorem parks_fair (out : PotChangedOutcome) (log : List Event) : ∀ op ∈ out.parks, op.Fair log := by
  intro op hop
  obtain ⟨wake, -, rfl⟩ := List.mem_map.mp hop
  trivial

theorem faulted_fault (out : PotChangedOutcome) (e : String) : (out.faulted e).writeFault ≠ none := by
  unfold PotChangedOutcome.faulted
  split <;> simp

theorem note_fault (out : PotChangedOutcome) (o : String × Nat) (read : OutpointRead) : (out.note o read).writeFault = out.writeFault := by
  cases read with
  | decoded seats named => cases seats <;> rfl
  | _ => rfl

theorem applyReads_fault (outpoints : List (String × Nat)) (atMs : Nat) (admittedAtMs : Option Nat) (reads : List OutpointRead) :
    (applyReads outpoints atMs admittedAtMs reads).writeFault = none := by
  have hfold : ∀ (rs : List ((String × Nat) × OutpointRead)) (out : PotChangedOutcome),
      (rs.foldl (fun out r => out.note r.1 r.2) out).writeFault = out.writeFault := by
    intro rs
    induction rs with
    | nil => exact fun _ => rfl
    | cons r rs ih => exact fun out => (ih _).trans (note_fault out r.1 r.2)
  exact hfold _ _

theorem hook_turned (h : w.Sound) (tries : Nat) (stage : HookStage) : w.Turned (w.hookStep env tries stage) := by
  cases stage with
  | read outpoints atMs admittedAtMs => exact .of_onto (.refl h) (applyReads_fault outpoints atMs admittedAtMs env.reads) rfl rfl
  | answered => exact .of_onto (.refl h) trivial rfl rfl
  | write out =>
    have honto : w.Onto (w.batch { env with deadline := false } out.parks).1 := batch_onto h (parks_fair out w.log)
    simp only [hookStep]
    rcases w.batch_cases { env with deadline := false } out.parks with hb | ⟨s, outs, log, -, hw, hb⟩
    · rw [hb] at honto ⊢
      refine ⟨⟨honto.grows, honto.good, honto.room⟩, trivial, fun j hj => .inl hj, fun o ho => ?_⟩
      rcases List.mem_append.mp ho with ho | ho
      · exact .inl ho
      · rw [List.mem_singleton.mp ho]
        exact .inr fun hnone => absurd hnone (faulted_fault _ _)
    · rw [hb] at honto ⊢
      refine ⟨⟨honto.grows, honto.good, honto.room⟩, trivial, fun j hj => ?_, fun o ho => ?_⟩
      · rcases List.mem_append.mp hj with hj | hj
        · exact .inl hj
        · rw [List.mem_singleton.mp hj]
          exact .inr trivial
      · rcases List.mem_append.mp ho with ho | ho
        · exact .inl ho
        · rw [List.mem_singleton.mp ho]
          refine .inr fun _ i wake hi => ?_
          obtain ⟨o, g, ho, hg, hp⟩ := write_parked h.good hw hi
          exact ⟨g, by simp [PotChangedOutcome.committed, ho, hg], hp⟩

/-! ### The announce -/

section
variable {plan : AnnouncePlan} {got : List (Option Delivery)} {log : List Event} {t i g : Nat} {wake : Wake} {s : Call}

theorem sends_some (h : (plan.sends t)[i]? = some s) : plan.wakes[i]? = some s.wake ∧ (s.generation = some g → plan.generations[i]? = some (some g)) := by
  simp only [AnnouncePlan.sends, List.getElem?_map, List.getElem?_zipIdx, Option.map_map, Option.map_eq_some_iff] at h
  obtain ⟨w, hw, rfl⟩ := h
  refine ⟨hw, fun hg => ?_⟩
  simpa [Option.join_eq_some_iff] using hg

theorem some_sends (hw : plan.wakes[i]? = some wake) (hg : plan.generations[i]? = some (some g)) (t : Nat) :
    ∃ s, (plan.sends t)[i]? = some s ∧ s.wake = wake ∧ s.generation = some g := by
  simp only [AnnouncePlan.sends, List.getElem?_map, List.getElem?_zipIdx, Option.map_map, hw]
  exact ⟨_, rfl, rfl, by simp [hg]⟩

theorem mem_answered {calls : List (Call × Option Delivery)} {d : Option Delivery} (h : (s, d) ∈ calls) (hg : s.generation = some g) :
    .answered s.wake g (landed d) ∈ answeredEvents calls :=
  List.mem_filterMap.mpr ⟨_, h, by simp [hg]⟩

theorem heard_deliver (plan : AnnouncePlan) (got : List (Option Delivery)) (log : List Event) (t : Nat) :
    plan.Heard got (answeredEvents ((plan.sends t).zip got) ++ log) := by
  intro i wake g d hw hg hd
  obtain ⟨s, hs, rfl, hsg⟩ := some_sends hw hg t
  exact List.mem_append_left _ (mem_answered (List.mem_of_getElem? (List.getElem?_zip_eq_some.mpr ⟨hs, hd⟩)) hsg)

theorem foldl_set {ps : List (Nat × Option Delivery)} {d : Option Delivery} (h : (ps.foldl (fun got r => got.set r.1 r.2) got)[i]? = some d) :
    got[i]? = some d ∨ (i, d) ∈ ps := by
  induction ps generalizing got with
  | nil => exact .inl h
  | cons p ps ih =>
    rcases ih h with hset | hin
    · by_cases hi : p.1 = i
      · subst hi
        rw [List.getElem?_set_self'] at hset
        cases hgot : got[p.1]? with
        | none => simp [hgot] at hset
        | some x =>
          have hp : p.2 = d := by simpa [hgot] using hset
          exact .inr (by rw [← hp]; exact List.mem_cons_self)
      · rw [List.getElem?_set_ne hi] at hset
        exact .inl hset
    · exact .inr (List.mem_cons_of_mem _ hin)

theorem heard_redrive (h : plan.Heard got log) (redriven : List (Nat × Option Delivery)) (t : Nat) :
    plan.Heard (redriven.foldl (fun got r => got.set r.1 r.2) got)
      (answeredEvents (redriven.filterMap fun r => ((plan.sends t)[r.1]?).map fun s => (s, r.2)) ++ log) := by
  intro i wake g d hw hg hd
  rcases foldl_set hd with hd | hin
  · exact List.mem_append_right _ (h i wake g d hw hg hd)
  · obtain ⟨s, hs, rfl, hsg⟩ := some_sends hw hg t
    exact List.mem_append_left _ (mem_answered (List.mem_filterMap.mpr ⟨(i, d), hin, by simp [hs]⟩) hsg)

theorem announceOps_fair (h : plan.Heard got log) (now : Nat) : ∀ op ∈ announceOps now plan got, op.Fair log := by
  intro op hop
  obtain ⟨⟨s, d⟩, hsd, hsettle⟩ := List.mem_filterMap.mp hop
  obtain ⟨i, hi⟩ := List.getElem?_of_mem hsd
  obtain ⟨hs, hd⟩ := List.getElem?_zip_eq_some.mp hi
  obtain ⟨g, hg, rfl⟩ := Option.map_eq_some_iff.mp hsettle
  have hheard := h i s.wake g d (sends_some hs (g := g)).1 ((sends_some hs).2 hg) hd
  by_cases hl : landed d = true
  · rw [if_pos hl]
    rw [hl] at hheard
    exact hheard
  · rw [if_neg hl]
    rw [Bool.eq_false_iff.mpr hl] at hheard
    exact failures_pos hheard

end

theorem announce_turned (h : w.Sound) {tries : Nat} {plan : AnnouncePlan} {stage : AnnounceStage} (hf : (Job.announce tries plan stage).Fair w.log) :
    w.Turned (w.jobStep env (.announce tries plan stage)) := by
  cases stage with
  | deliver => exact .of_onto (.answered h _) (heard_deliver plan _ w.log env.now) rfl rfl
  | redrive t0 left got pending =>
    simp only [jobStep, announceStep]
    split
    · exact .of_onto (.refl h) hf rfl rfl
    · exact .of_onto (.answered h _) (heard_redrive hf _ t0) rfl rfl
  | settle got =>
    simp only [jobStep, announceStep]
    split
    · exact .of_onto (.refl h) trivial rfl rfl
    · exact .of_onto (batch_onto h (announceOps_fair hf env.now)) trivial (w.batch_jobs env _).1 (w.batch_jobs env _).2
  | done => exact .of_onto (.refl h) trivial rfl rfl

/-! ### The drain -/

theorem due_counted (h : w.Sound) (now limit : Nat) : ∀ p ∈ w.store.dueParked now limit, p.attempts ≤ failures w.log p.wake p.generation := by
  intro p hp
  obtain ⟨r, hr, rfl⟩ := List.mem_map.mp hp
  exact h.good.counted r (List.mem_filter.mp ((List.mem_insertionSort _).mp (List.mem_of_mem_take hr))).1

theorem drained_deliver {due : List Parked} {log : List Event} (h : ∀ p ∈ due, p.attempts ≤ failures log p.wake p.generation) (got : List (Option Delivery))
    (now : Nat) : ∀ p ∈ due.zip got,
      Drained (answeredEvents ((due.map fun p => Call.mk p.wake p.atMs none now (some p.generation)).zip got) ++ log) p.1 p.2 := by
  intro p hp
  have hcall : (Call.mk p.1.wake p.1.atMs none now (some p.1.generation), p.2) ∈
      (due.map fun p => Call.mk p.wake p.atMs none now (some p.generation)).zip got := by
    rw [List.zip_map_left]
    exact List.mem_map.mpr ⟨p, hp, rfl⟩
  have hev := mem_answered hcall rfl
  change Event.answered p.1.wake p.1.generation (landed p.2) ∈ _ at hev
  unfold Drained
  by_cases hl : landed p.2 = true
  · rw [if_pos hl]
    rw [hl] at hev
    exact List.mem_append_left _ hev
  · rw [if_neg hl, failures_append]
    rw [Bool.eq_false_iff.mpr hl] at hev
    have hpos := failures_pos hev
    have hcount := h p.1 (List.of_mem_zip hp).1
    omega

theorem drainOps_fair {due : List Parked} {got : List (Option Delivery)} {log : List Event} (h : ∀ p ∈ due.zip got, Drained log p.1 p.2)
    (round now : Nat) : ∀ op ∈ drainOps round now due got, op.Fair log := by
  intro op hop
  rcases List.mem_append.mp hop with hop | hop
  · obtain ⟨p, hp, rfl⟩ := List.mem_map.mp hop
    have hd := h p hp
    unfold Drained at hd
    by_cases hl : landed p.2 = true
    · rw [if_pos hl] at hd
      rw [settleDrained, if_pos hl]
      exact hd
    · rw [if_neg hl] at hd
      rw [settleDrained, if_neg hl]
      exact hd
  · split at hop
    · simp only [List.mem_cons, List.not_mem_nil, or_false] at hop
      rcases hop with rfl | rfl <;> trivial
    · exact nomatch hop

theorem drain_turned (h : w.Sound) {stage : DrainStage} (hf : (Job.drain stage).Fair w.log) : w.Turned (w.jobStep env (.drain stage)) := by
  cases stage with
  | read round =>
    refine .of_onto (.refl h) ?_ rfl rfl
    simp only [jobStep, drainStep]
    split
    · trivial
    · exact due_counted h env.now drainMaxPerPass
  | deliver round due => exact .of_onto (.answered h _) (drained_deliver hf _ env.now) rfl rfl
  | settle round due got walled =>
    have hfair : ∀ (p : Prop) [Decidable p] (log : List Event), (Job.drain (if p then .read (round + 1) else .done)).Fair log := by
      intro p _ log
      split <;> trivial
    simp only [jobStep, drainStep]
    by_cases hops : drainOps round env.now due got = []
    · rw [if_pos hops]
      exact .of_onto (.refl h) (hfair _ _) rfl rfl
    · rw [if_neg hops]
      exact .of_onto (batch_onto h (drainOps_fair hf round env.now)) (hfair _ _) (w.batch_jobs env _).1 (w.batch_jobs env _).2
  | done => exact .of_onto (.refl h) trivial rfl rfl

theorem sound_step (h : w.Sound) (m : Move) : (w.step m).Sound := by
  have hadd : ∀ j : Job, j.Fair w.log → World.Sound { w with jobs := w.jobs ++ [j] } := by
    refine fun j hj => ⟨h.good, h.room, fun j' hj' => ?_, h.outcomes⟩
    rcases List.mem_append.mp hj' with hj' | hj'
    · exact h.jobs j' hj'
    · rw [List.mem_singleton.mp hj']
      exact hj
  cases m with
  | hook outpoints atMs admittedAtMs tries => exact hadd _ trivial
  | drain => exact hadd _ trivial
  | turn i env =>
    simp only [step]
    split
    · rename_i j hj
      have hfair := h.jobs j (List.mem_of_getElem? hj)
      cases j with
      | hook tries stage => exact (hook_turned h tries stage).sound h i
      | announce tries plan stage => exact (announce_turned h hfair).sound h i
      | drain stage => exact (drain_turned h hfair).sound h i
    · exact h

theorem sound_start : World.Sound {} :=
  ⟨⟨List.nodup_nil, fun _ h => (by cases h), fun _ h => (by cases h), .nil, fun _ h => (by cases h), nofun⟩, Nat.zero_le _, fun _ h => (by cases h), fun _ h => (by cases h)⟩

end World

/-! ## The attempts of a token -/

def ParkOp.Meets (rows : List Row) : ParkOp → Prop
  | .retry wake generation attempts _ exhaustedAtMs => ∀ r ∈ rows, r.isAt wake generation = true →
    r.attempts ≤ attempts ∧ (r.exhaustedAtMs.isSome = true → exhaustedAtMs.isSome = true)
  | _ => True

instance ParkOp.decidableMeets (rows : List Row) : (op : ParkOp) → Decidable (op.Meets rows)
  | .retry wake generation attempts _ exhaustedAtMs => inferInstanceAs (Decidable (∀ r ∈ rows, r.isAt wake generation = true →
    r.attempts ≤ attempts ∧ (r.exhaustedAtMs.isSome = true → exhaustedAtMs.isSome = true)))
  | .park .. | .delivered .. | .sweep .. | .age .. => isTrue trivial

def OpsMeet (base : Nat) : Nat → List ParkOp → List Row → Prop
  | _, [], _ => True
  | pos, op :: ops, rows =>
    let pos := if op.isPark then pos + 1 else pos
    op.Meets rows ∧ OpsMeet base pos ops (op.exec base pos rows).rows

instance decidableOpsMeet (base : Nat) : (pos : Nat) → (ops : List ParkOp) → (rows : List Row) → Decidable (OpsMeet base pos ops rows)
  | _, [], _ => isTrue trivial
  | _, op :: ops, rows => @instDecidableAnd _ _ (ParkOp.decidableMeets rows op) (decidableOpsMeet base _ ops _)

def Job.ops (env : Env) : Job → List ParkOp
  | .hook _ (.write out) => out.parks
  | .announce _ plan (.settle got) => announceOps env.now plan got
  | .drain (.settle round due got _) => drainOps round env.now due got
  | _ => []

def World.Meets (w : World) (m : Move) : Prop :=
  ∀ i env j, m = .turn i env → w.jobs[i]? = some j → OpsMeet (w.store.n.getD (env.now * 1000)) 0 (j.ops env) w.store.rows

def World.Forward (w : World) (m : Move) : Prop :=
  ∀ r ∈ w.store.rows, ∀ r' ∈ (w.step m).store.rows, r'.wake = r.wake → r'.generation = r.generation →
    r.attempts ≤ r'.attempts ∧ (r.exhaustedAtMs.isSome = true → r'.exhaustedAtMs.isSome = true)

/-- Every row is of a token past `base`, or was there with no more attempts. -/
def Grown (base : Nat) (rows rows' : List Row) : Prop :=
  ∀ r' ∈ rows', base < r'.generation ∨ ∃ r ∈ rows, r.wake = r'.wake ∧ r.generation = r'.generation ∧ r.attempts ≤ r'.attempts ∧
    (r.exhaustedAtMs.isSome = true → r'.exhaustedAtMs.isSome = true)

section
variable {base pos : Nat} {rows rows' rows'' : List Row} {ops : List ParkOp}

theorem Grown.of_subset (h : ∀ r ∈ rows', r ∈ rows) : Grown base rows rows' := fun r hr => .inr ⟨r, h r hr, rfl, rfl, Nat.le_refl _, id⟩

theorem Grown.trans (h : Grown base rows rows') (h' : Grown base rows' rows'') : Grown base rows rows'' := by
  intro r'' hr''
  rcases h' r'' hr'' with hb | ⟨r', hr', hw', hg', ha', he'⟩
  · exact .inl hb
  · rcases h r' hr' with hb | ⟨r, hr, hw, hg, ha, he⟩
    · exact .inl (hg' ▸ hb)
    · exact .inr ⟨r, hr, hw.trans hw', hg.trans hg', ha.trans ha', he' ∘ he⟩

theorem exec_grown {op : ParkOp} (hm : op.Meets rows) {pos' : Nat} (hpos : pos' = if op.isPark then pos + 1 else pos) :
    Grown base rows (op.exec base pos' rows).rows := by
  cases op with
  | park wake atMs nextMs =>
    intro r hr
    have hnew : r.generation = base + pos' ∨ r ∈ rows := by
      simp only [ParkOp.exec, park] at hr
      split at hr
      · rcases List.mem_append.mp hr with hr | hr
        · exact .inr hr
        · exact .inl (congrArg Row.generation (List.mem_singleton.mp hr))
      · split at hr
        · obtain ⟨r', hr', rfl⟩ := List.mem_map.mp hr
          split
          · exact .inl rfl
          · exact .inr hr'
        · exact .inr hr
    rcases hnew with hg | hr
    · have hp : pos' = pos + 1 := hpos
      exact .inl (by omega)
    · exact .inr ⟨r, hr, rfl, rfl, Nat.le_refl _, id⟩
  | delivered wake generation => exact .of_subset fun r hr => (List.mem_filter.mp hr).1
  | retry wake generation attempts nextMs exhaustedAtMs =>
    intro r' hr'
    obtain ⟨r, hr, rfl⟩ := List.mem_map.mp hr'
    refine .inr ⟨r, hr, ?_⟩
    by_cases hat : r.isAt wake generation = true
    · rw [if_pos hat]
      exact ⟨rfl, rfl, hm r hr hat⟩
    · rw [if_neg hat]
      exact ⟨rfl, rfl, Nat.le_refl _, id⟩
  | sweep beforeMs limit => exact .of_subset fun r hr => (List.mem_filter.mp hr).1
  | age beforeMs nowMs limit =>
    intro r' hr'
    obtain ⟨r, hr, rfl⟩ := List.mem_map.mp hr'
    refine .inr ⟨r, hr, ?_⟩
    split
    · exact ⟨rfl, rfl, Nat.le_refl _, fun _ => rfl⟩
    · exact ⟨rfl, rfl, Nat.le_refl _, id⟩

theorem runOps_grown (hm : OpsMeet base pos ops rows) (log : List Event) : Grown base rows (runOps base pos ops rows log).1 := by
  induction ops generalizing pos rows log with
  | nil => exact .of_subset fun _ h => h
  | cons op ops ih => exact (exec_grown hm.1 rfl).trans (ih hm.2 _)

theorem write_grown {s s' : Store} {now : Nat} {log log' : List Event} {outs : List OpOut} (hm : OpsMeet (s.n.getD (now * 1000)) 0 ops s.rows)
    (hw : s.write now ops log = some (s', outs, log')) : Grown (s.n.getD (now * 1000)) s.rows s'.rows := by
  have hgrown := runOps_grown hm log
  simp only [Store.write] at hw
  split at hw
  · obtain ⟨rfl, -⟩ := Prod.mk.inj (Option.some.inj hw)
    exact hgrown
  · split at hw
    · exact nomatch hw
    · obtain ⟨rfl, -⟩ := Prod.mk.inj (Option.some.inj hw)
      exact hgrown.trans (.of_subset fun r hr => (List.mem_filter.mp hr).1)

end

namespace World

variable {w : World} {env : Env}

theorem batch_grown {env' : Env} {ops : List ParkOp} (hnow : env'.now = env.now) (hm : OpsMeet (w.store.n.getD (env.now * 1000)) 0 ops w.store.rows) :
    Grown (w.store.n.getD (env.now * 1000)) w.store.rows (w.batch env' ops).1.store.rows := by
  rcases w.batch_cases env' ops with hb | ⟨s, outs, log, -, hw, hb⟩
  · rw [hb]
    exact .of_subset fun _ h => h
  · rw [hb]
    rw [hnow] at hw
    exact write_grown hm hw

theorem jobStep_grown {j : Job} (hm : OpsMeet (w.store.n.getD (env.now * 1000)) 0 (j.ops env) w.store.rows) :
    Grown (w.store.n.getD (env.now * 1000)) w.store.rows (w.jobStep env j).1.store.rows := by
  cases j with
  | hook tries stage =>
    cases stage with
    | write out =>
      have hgrown : Grown (w.store.n.getD (env.now * 1000)) w.store.rows (w.batch { env with deadline := false } out.parks).1.store.rows := batch_grown rfl hm
      simp only [jobStep, hookStep]
      rcases w.batch_cases { env with deadline := false } out.parks with hb | ⟨s, outs, log, -, -, hb⟩ <;> rw [hb] at hgrown ⊢ <;> exact hgrown
    | _ => exact .of_subset fun _ h => h
  | announce tries plan stage =>
    cases stage with
    | settle got =>
      simp only [jobStep, announceStep]
      split
      · exact .of_subset fun _ h => h
      · exact batch_grown rfl hm
    | redrive t0 left got pending =>
      simp only [jobStep, announceStep]
      split <;> exact .of_subset fun _ h => h
    | _ => exact .of_subset fun _ h => h
  | drain stage =>
    cases stage with
    | settle round due got walled =>
      simp only [jobStep, drainStep]
      split
      · exact .of_subset fun _ h => h
      · exact batch_grown rfl hm
    | _ => exact .of_subset fun _ h => h

theorem forward_of_meets (h : w.Sound) (m : Move) (hm : w.Meets m) : w.Forward m := by
  have hforward : ∀ {base : Nat} {rows' : List Row}, w.store.n.getD 0 ≤ base → Grown base w.store.rows rows' → ∀ r ∈ w.store.rows, ∀ r' ∈ rows',
      r'.wake = r.wake → r'.generation = r.generation → r.attempts ≤ r'.attempts ∧ (r.exhaustedAtMs.isSome = true → r'.exhaustedAtMs.isSome = true) := by
    intro base rows' hbase hg r hr r' hr' hw hgen
    rcases hg r' hr' with hlt | ⟨r₀, hr₀, hw₀, -, ha, he⟩
    · have := h.good.fresh r hr
      omega
    · obtain rfl : r₀ = r := List.inj_on_of_nodup_map h.good.once hr₀ hr (hw₀.trans hw)
      exact ⟨ha, he⟩
  cases m with
  | turn i env =>
    have hbase : w.store.n.getD 0 ≤ w.store.n.getD (env.now * 1000) := by
      cases w.store.n with
      | none => exact Nat.zero_le _
      | some n => exact Nat.le_refl _
    refine hforward hbase ?_
    simp only [step]
    split
    · rename_i j hj
      exact jobStep_grown (hm i env j rfl hj)
    · exact .of_subset fun _ h => h
  | _ => exact hforward (Nat.le_refl _) (.of_subset fun _ h => h)

def Refused (w : World) (m : Move) : Prop :=
  ∀ out, (w.step m).outcomes = w.outcomes ++ [out] → out.writeFault.isSome = true → (w.step m).store = w.store

theorem refused (h : w.Sound) (m : Move) : w.Refused m := by
  intro out hout hfault
  have hsame : w.outcomes ≠ w.outcomes ++ [out] := fun he => by simp at he
  cases m with
  | turn i env =>
    simp only [step] at hout ⊢
    cases hj : w.jobs[i]? with
    | none => rfl
    | some j =>
      simp only [hj] at hout ⊢
      cases j with
      | hook tries stage =>
        cases stage with
        | write asked =>
          have hasked : asked.writeFault = none := h.jobs _ (List.mem_of_getElem? hj)
          simp only [jobStep, hookStep] at hout ⊢
          rcases w.batch_cases { env with deadline := false } asked.parks with hb | ⟨s, outs, log, -, -, hb⟩
          · rw [hb]
          · rw [hb] at hout
            obtain rfl := List.singleton_inj.mp (List.append_cancel_left hout)
            rw [show (asked.committed outs).writeFault = none from hasked] at hfault
            exact nomatch hfault
        | _ => exact absurd hout hsame
      | announce tries plan stage =>
        cases stage with
        | settle got =>
          simp only [jobStep, announceStep] at hout
          split at hout
          · exact absurd hout hsame
          · rw [(w.batch_jobs env _).2] at hout
            exact absurd hout hsame
        | redrive t0 left got pending =>
          simp only [jobStep, announceStep] at hout
          split at hout <;> exact absurd hout hsame
        | _ => exact absurd hout hsame
      | drain stage =>
        cases stage with
        | settle round due got walled =>
          simp only [jobStep, drainStep] at hout
          split at hout
          · exact absurd hout hsame
          · rw [(w.batch_jobs env _).2] at hout
            exact absurd hout hsame
        | _ => exact absurd hout hsame
  | _ => exact absurd hout hsame

theorem sound_run (h : w.Sound) (moves : List Move) : (w.run moves).Sound :=
  Runs.inv_run (I := World.Sound) (fun _ m h => sound_step h m) h moves

end World

/-- In every run the table keeps its ceiling, the tokens grow in commit order, a wake-up answered without a write fault is kept
at its token, and a refused body writes nothing; the attempts of a token only grow where every settle's retry finds no more than it writes. -/
theorem wakeups_kept (moves : List Move) :
    (World.run {} moves).store.rows.length ≤ parkMaxRows ∧ (tokens (World.run {} moves).log).Pairwise (· > ·) ∧
      (∀ out ∈ (World.run {} moves).outcomes, out.writeFault = none → ∀ (i : Nat) (wake : Wake), out.plan.wakes[i]? = some wake →
        ∃ g, out.plan.generations[i]? = some (some g) ∧ Kept (World.run {} moves).store.rows (World.run {} moves).log wake g) ∧
      Runs.Along World.step World.Refused {} moves ∧
      (Runs.Along World.step World.Meets {} moves → Runs.Along World.step World.Forward {} moves) := by
  have hsound := World.sound_run World.sound_start moves
  refine ⟨hsound.room, hsound.good.ordered, fun out hout hnone i wake hi => ?_, ?_, fun hm => ?_⟩
  · obtain ⟨g, hg, hp⟩ := hsound.outcomes out hout hnone i wake hi
    exact ⟨g, hg, hsound.good.kept wake g hp⟩
  · exact Runs.along_always (I := World.Sound) (fun _ m h => World.sound_step h m) (fun _ m h => World.refused h m) World.sound_start moves
  · exact Runs.along_of_inv (I := World.Sound) (fun _ m h _ => World.sound_step h m) (fun _ m h hm => World.forward_of_meets h m hm) World.sound_start hm

/-! A hook's announce fails and settles late, after two drains of its row. -/

section

def hooked : List Move := [.hook [("aa", 0)] 1 none 0, .turn 0 { reads := [.noParams []] }, .turn 0 { now := 1 }, .turn 1 { now := 2 }, .turn 1 { now := 2 }]

/-- One round of a drain at `now`, under job `i`, whose call fails. -/
def drained (i now : Nat) : List Move := [.drain, .turn i { now }, .turn i { now, got := [some .failed] }, .turn i { now }]

def settledLate : List Move := hooked ++ drained 2 40000 ++ drained 3 200000

def settledFirst : List Move := hooked ++ [.turn 1 { now := 3 }]

theorem late_settle_decreases :
    ¬ Runs.Along World.step World.Forward {} (settledLate ++ [.turn 1 { now := 200001 }]) ∧
      (World.run {} settledLate).store.rows.map (fun r => r.attempts) = [2] ∧
      (World.run {} (settledLate ++ [.turn 1 { now := 200001 }])).store.rows.map (fun r => r.attempts) = [1] := by
  refine ⟨fun h => ?_, by decide, by decide⟩
  have hlast := (Runs.along_append.mp h).2.1
  have hkey := hlast { wake := { txid := "aa", vout := 0 }, atMs := 1, attempts := 2, nextAttemptAtMs := 320000, generation := 1001 } (by decide)
    { wake := { txid := "aa", vout := 0 }, atMs := 1, attempts := 1, nextAttemptAtMs := 260001, generation := 1001 } (by decide) rfl rfl
  exact absurd hkey.1 (by decide)

theorem wakeups_kept_settled :
    Runs.Along World.step World.Forward {} settledFirst ∧ (World.run {} settledFirst).store.rows.map (fun r => r.attempts) = [1] := by
  have hturn : ∀ {w : World} {i : Nat} {env : Env} (j : Job), w.jobs[i]? = some j →
      OpsMeet (w.store.n.getD (env.now * 1000)) 0 (j.ops env) w.store.rows → w.Meets (.turn i env) := by
    intro w i env j hj hops i' env' j' hm hj'
    cases hm
    obtain rfl := Option.some.inj (hj.symm.trans hj')
    exact hops
  have hmeets : Runs.Along World.step World.Meets {} settledFirst :=
    ⟨fun _ _ _ hm => (by cases hm), hturn _ rfl (by decide), hturn _ rfl (by decide), hturn _ rfl (by decide), hturn _ rfl (by decide), hturn _ rfl (by decide), trivial⟩
  exact ⟨(wakeups_kept settledFirst).2.2.2.2 hmeets, by decide⟩

end

end OverlayEngine.PotHook
