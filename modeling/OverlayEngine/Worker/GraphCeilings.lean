import OverlayEngine.Basis.Runs
import OverlayEngine.Worker.DeferredGraphs

/-!
# The ceilings of the deferred graphs' table

Every save is one statement, which reads the table in its `WHERE`: a new key
under the row bounds and the byte bounds, a held key under the byte bounds
alone, a configured peer's under the global bounds alone.
-/

namespace OverlayEngine.DeferredGraphs.Ceilings

structure Key where
  host : String
  topic : String
  outpoint : String
  deriving DecidableEq

/-- What the ceilings read of a row of `gasp_deferred_graphs`; `bytes` is the whole record's size. -/
structure Row where
  key : Key
  origin : String
  configured : Bool
  bytes : Nat

def Row.discovered (r : Row) : Bool := !r.configured

def Row.of (origin : String) (r : Row) : Bool := decide (r.origin = origin) && !r.configured

abbrev Table := List Row

namespace Table

variable (t : Table)

def held (key : Key) : Bool := t.any fun r => r.key = key

def others (key : Key) : Table := t.filter fun r => r.key ≠ key

/-- `SUM(bytes)` of the rows a condition picks. -/
def bytes (p : Row → Bool) : Nat := ((t.filter p).map Row.bytes).sum

/-- `WHERE` of `DEFERRED_GRAPH_UPSERT_SQL`. -/
def fits (r : Row) : Bool :=
  (t.held r.key || (decide (t.length < deferredGraphsMaxRows) && (r.configured ||
      (decide (t.countP (Row.of r.origin) < deferredGraphsMaxRowsPerHost) && decide (t.countP Row.discovered < deferredGraphsDiscoveredMaxRows))))) &&
    decide (bytes (t.others r.key) (fun _ => true) + r.bytes ≤ deferredGraphsMaxTotalBytes) &&
    (r.configured || (decide (bytes (t.others r.key) (Row.of r.origin) + r.bytes ≤ deferredGraphsMaxBytesPerHost) &&
      decide (bytes (t.others r.key) Row.discovered + r.bytes ≤ deferredGraphsDiscoveredMaxBytes)))

/-- `DEFERRED_GRAPH_UPSERT_SQL`; a refused save changes nothing. -/
def save (r : Row) : Table := if t.fits r then t.others r.key ++ [r] else t

inductive Move where
  | save (r : Row)
  | delete (key : Key)
  | sweep (picked : Row → Bool)

def step : Move → Table
  | .save r => t.save r
  | .delete key => t.others key
  | .sweep picked => t.filter fun r => !picked r

def run (moves : List Move) : Table := moves.foldl step t

/-! ## What is to hold of the table -/

structure Bounded : Prop where
  rows : t.length ≤ deferredGraphsMaxRows
  bytes : bytes t (fun _ => true) ≤ deferredGraphsMaxTotalBytes
  discoveredRows : t.countP Row.discovered ≤ deferredGraphsDiscoveredMaxRows
  discoveredBytes : Table.bytes t Row.discovered ≤ deferredGraphsDiscoveredMaxBytes
  originRows : ∀ origin, t.countP (Row.of origin) ≤ deferredGraphsMaxRowsPerHost
  originBytes : ∀ origin, Table.bytes t (Row.of origin) ≤ deferredGraphsMaxBytesPerHost

def Reserved : Prop := ∀ r : Row, r.configured = true → t.held r.key = false → t.fits r = false →
  deferredGraphsMaxRows - deferredGraphsDiscoveredMaxRows ≤ t.countP Row.configured ∨
    deferredGraphsMaxTotalBytes - deferredGraphsDiscoveredMaxBytes < bytes t Row.configured + r.bytes

def Meets : Move → Prop
  | .save r => t.held r.key = true → t.fits r = true → r.configured = false →
    (t.others r.key).countP Row.discovered < deferredGraphsDiscoveredMaxRows ∧ (t.others r.key).countP (Row.of r.origin) < deferredGraphsMaxRowsPerHost
  | .delete _ => True
  | .sweep _ => True

/-! ## Fewer rows -/

variable {t}

theorem bytes_append (u : Table) (p : Row → Bool) : bytes (t ++ u) p = bytes t p + bytes u p := by
  rw [bytes, bytes, bytes, List.filter_append, List.map_append, List.sum_append]

theorem bytes_cons (r : Row) (p : Row → Bool) : bytes (r :: t) p = (if p r then r.bytes else 0) + bytes t p := by
  rw [bytes, bytes, List.filter_cons]
  split
  · rw [List.map_cons, List.sum_cons]
  · rw [Nat.zero_add]

theorem bytes_sublist {u : Table} (h : u.Sublist t) (p : Row → Bool) : bytes u p ≤ bytes t p := by
  induction h with
  | slnil => exact Nat.le_refl _
  | cons r _ ih =>
    rw [bytes_cons]
    omega
  | cons_cons r _ ih =>
    rw [bytes_cons, bytes_cons]
    omega

theorem Bounded.sublist (h : t.Bounded) {u : Table} (hu : u.Sublist t) : Bounded u where
  rows := Nat.le_trans hu.length_le h.rows
  bytes := Nat.le_trans (bytes_sublist hu _) h.bytes
  discoveredRows := Nat.le_trans (hu.countP_le) h.discoveredRows
  discoveredBytes := Nat.le_trans (bytes_sublist hu _) h.discoveredBytes
  originRows := fun origin => Nat.le_trans hu.countP_le (h.originRows origin)
  originBytes := fun origin => Nat.le_trans (bytes_sublist hu _) (h.originBytes origin)

theorem bytes_snoc (r : Row) (p : Row → Bool) : bytes (t ++ [r]) p = bytes t p + if p r then r.bytes else 0 := by
  rw [bytes_append, bytes_cons]
  rfl

theorem countP_snoc (r : Row) (p : Row → Bool) : (t ++ [r]).countP p = t.countP p + if p r then 1 else 0 := by
  rw [List.countP_append, List.countP_singleton]

theorem others_sublist (key : Key) : (t.others key).Sublist t := List.filter_sublist

theorem length_others {key : Key} (h : t.held key = true) : (t.others key).length < t.length := by
  obtain ⟨r, hr, hkey⟩ := List.any_eq_true.mp h
  exact List.length_filter_lt_length_iff_exists.mpr ⟨r, hr, by simpa using hkey⟩

theorem others_eq {key : Key} (h : t.held key = false) : t.others key = t := by
  apply List.filter_eq_self.mpr
  intro r hr
  have hnot := List.any_eq_false.mp h r hr
  simpa using hnot

/-! ## One save -/

variable {r : Row}

theorem fits_iff : t.fits r = true ↔
    (t.held r.key = false → t.length < deferredGraphsMaxRows ∧ (r.configured = false →
      t.countP (Row.of r.origin) < deferredGraphsMaxRowsPerHost ∧ t.countP Row.discovered < deferredGraphsDiscoveredMaxRows)) ∧
    bytes (t.others r.key) (fun _ => true) + r.bytes ≤ deferredGraphsMaxTotalBytes ∧
    (r.configured = false → bytes (t.others r.key) (Row.of r.origin) + r.bytes ≤ deferredGraphsMaxBytesPerHost ∧
      bytes (t.others r.key) Row.discovered + r.bytes ≤ deferredGraphsDiscoveredMaxBytes) := by
  rw [fits]
  cases t.held r.key <;> cases r.configured <;> simp [and_assoc]

theorem of_eq {origin : String} (h : Row.of origin r = true) : r.origin = origin ∧ r.configured = false := by
  simpa [Row.of] using h

theorem bounded_save (h : t.Bounded) (hfits : t.fits r = true) : Bounded (t.save r) ↔ t.Meets (.save r) := by
  obtain ⟨hnew, hbytes, hshare⟩ := fits_iff.mp hfits
  have hrest : Bounded (t.others r.key) := h.sublist (others_sublist r.key)
  rw [save, if_pos hfits]
  constructor
  · intro hafter _ _ hconfigured
    have hdiscovered := hafter.discoveredRows
    have horigin := hafter.originRows r.origin
    rw [countP_snoc] at hdiscovered horigin
    simp only [Row.discovered, Row.of, hconfigured, Bool.not_false, Bool.and_true, decide_true, if_true] at hdiscovered horigin ⊢
    omega
  · intro hmeets
    have hroom (hconfigured : r.configured = false) : (t.others r.key).countP Row.discovered < deferredGraphsDiscoveredMaxRows ∧
        (t.others r.key).countP (Row.of r.origin) < deferredGraphsMaxRowsPerHost := by
      by_cases hheld : t.held r.key = true
      · exact hmeets hheld hfits hconfigured
      · have hnot : t.held r.key = false := Bool.eq_false_iff.mpr hheld
        rw [others_eq hnot]
        exact ((hnew hnot).2 hconfigured).symm
    refine ⟨?_, ?_, ?_, ?_, fun origin => ?_, fun origin => ?_⟩
    · rw [List.length_append, List.length_singleton]
      by_cases hheld : t.held r.key = true
      · have hless := length_others hheld
        have hmax := h.rows
        omega
      · have hnot : t.held r.key = false := Bool.eq_false_iff.mpr hheld
        have hmax := (hnew hnot).1
        rw [others_eq hnot]
        omega
    · rw [bytes_snoc]
      exact hbytes
    · rw [countP_snoc]
      cases hconfigured : r.configured with
      | true => simpa [Row.discovered, hconfigured] using hrest.discoveredRows
      | false => simpa [Row.discovered, hconfigured] using Nat.succ_le_of_lt (hroom hconfigured).1
    · rw [bytes_snoc]
      cases hconfigured : r.configured with
      | true => simpa [Row.discovered, hconfigured] using hrest.discoveredBytes
      | false => simpa [Row.discovered, hconfigured] using (hshare hconfigured).2
    · rw [countP_snoc]
      by_cases hof : Row.of origin r = true
      · obtain ⟨rfl, hconfigured⟩ := of_eq hof
        rw [if_pos hof]
        exact (hroom hconfigured).2
      · rw [if_neg hof]
        exact hrest.originRows origin
    · rw [bytes_snoc]
      by_cases hof : Row.of origin r = true
      · obtain ⟨rfl, hconfigured⟩ := of_eq hof
        rw [if_pos hof]
        exact (hshare hconfigured).1
      · rw [if_neg hof]
        exact hrest.originBytes origin

theorem bounded_step (h : t.Bounded) (m : Move) : Bounded (t.step m) ↔ t.Meets m := by
  cases m with
  | save r =>
    by_cases hfits : t.fits r = true
    · exact bounded_save h hfits
    · have hkept : t.step (.save r) = t := if_neg hfits
      rw [hkept]
      exact ⟨fun _ _ hlands => absurd hlands hfits, fun _ => h⟩
  | delete key => exact ⟨fun _ => trivial, fun _ => h.sublist (others_sublist key)⟩
  | sweep picked => exact ⟨fun _ => trivial, fun _ => h.sublist List.filter_sublist⟩

/-! ## The other half -/

theorem countP_halves (t : Table) : t.countP Row.configured + t.countP Row.discovered = t.length := by
  have hsplit := List.length_eq_countP_add_countP Row.configured (l := t)
  rw [hsplit]
  congr 1
  exact List.countP_congr fun r _ => by simp [Row.discovered]

theorem bytes_halves (t : Table) : bytes t Row.configured + bytes t Row.discovered = bytes t fun _ => true := by
  induction t with
  | nil => rfl
  | cons r rest ih =>
    rw [bytes_cons, bytes_cons, bytes_cons]
    cases hconfigured : r.configured <;> simp [Row.discovered, hconfigured] <;> omega

theorem Bounded.reserved (h : t.Bounded) : t.Reserved := by
  intro r hconfigured hheld hrefused
  have hrows := countP_halves t
  have hbytes := bytes_halves t
  have hmaxRows := h.discoveredRows
  have hmaxBytes := h.discoveredBytes
  have hhalfRows : deferredGraphsDiscoveredMaxRows ≤ deferredGraphsMaxRows := by decide
  have hhalfBytes : deferredGraphsDiscoveredMaxBytes ≤ deferredGraphsMaxTotalBytes := by decide
  by_contra hroom
  obtain ⟨hfew, hsmall⟩ := not_or.mp hroom
  have hfits : t.fits r = true := by
    refine fits_iff.mpr ⟨fun _ => ⟨by omega, fun hfalse => ?_⟩, ?_, fun hfalse => ?_⟩
    · rw [hconfigured] at hfalse
      cases hfalse
    · rw [others_eq hheld]
      omega
    · rw [hconfigured] at hfalse
      cases hfalse
  rw [hfits] at hrefused
  cases hrefused

theorem bounded_empty : Bounded [] := by
  constructor <;> simp [bytes]

/-- Over every sequence of saves, deletes and sweeps from an empty table, the ceilings and the configured peers' half stand in every state just
    where each save of a discovered peer that lands on a held key finds room for its row beside the other keys'. -/
theorem ceilings_kept (moves : List Move) :
    (∀ first, first <+: moves → Bounded (run [] first) ∧ Reserved (run [] first)) ↔ Runs.Along step Meets [] moves := by
  have hpast : Runs.Along step (fun _ _ => True) [] moves := Runs.along_always (I := fun _ => True) (fun _ _ _ => trivial) (fun _ _ _ => trivial) trivial moves
  have halways := Runs.always_iff (fun t m (h : Bounded t) _ => bounded_step h m) hpast
  constructor
  · intro h
    exact (halways.mp fun first hfirst => (h first hfirst).1).2
  · intro h first hfirst
    have hbounded := halways.mpr ⟨bounded_empty, h⟩ first hfirst
    exact ⟨hbounded, hbounded.reserved⟩

/-! ## A configured peer's rows become a discovered peer's -/

theorem bytes_le_all (t : Table) (p : Row → Bool) : bytes t p ≤ bytes t fun _ => true := by
  induction t with
  | nil => exact Nat.le_refl _
  | cons r rest ih =>
    rw [bytes_cons, bytes_cons, if_pos rfl]
    split <;> omega

theorem save_fresh (hheld : t.held r.key = false) (hconfigured : r.configured = true) (hrows : t.length < deferredGraphsMaxRows)
    (hbytes : bytes t (fun _ => true) + r.bytes ≤ deferredGraphsMaxTotalBytes) : t.save r = t ++ [r] := by
  have hfits : t.fits r = true := by
    rw [fits_iff, others_eq hheld]
    simp [hrows, hconfigured, hbytes]
  rw [save, if_pos hfits, others_eq hheld]

theorem save_held (hheld : t.held r.key = true) (hbytes : bytes t (fun _ => true) + r.bytes ≤ deferredGraphsMaxBytesPerHost) :
    t.save r = t.others r.key ++ [r] := by
  have hother (p : Row → Bool) : bytes (t.others r.key) p + r.bytes ≤ deferredGraphsMaxBytesPerHost := by
    have hall := bytes_le_all (t.others r.key) p
    have hless := bytes_sublist (others_sublist (t := t) r.key) fun _ => true
    omega
  have htotal : deferredGraphsMaxBytesPerHost ≤ deferredGraphsMaxTotalBytes := by decide
  have hhalf : deferredGraphsMaxBytesPerHost ≤ deferredGraphsDiscoveredMaxBytes := by decide
  have hfits : t.fits r = true := by
    refine fits_iff.mpr ⟨fun hnot => ?_, Nat.le_trans (hother _) htotal, fun _ => ⟨hother _, Nat.le_trans (hother _) hhalf⟩⟩
    rw [hheld] at hnot
    cases hnot
  rw [save, if_pos hfits]

def topicOf (i : Nat) : String := if i % 3 = 0 then "tm_pot" else if i % 3 = 1 then "tm_lowfund" else "tm_ship"

def outpointOf (i : Nat) : List Char := List.replicate i 'a' ++ List.replicate (64 - i) '0' ++ ['.', '0']

/-- The `i`th graph of one peer, a third of them of each topic, which is first configured and then not. -/
def graph (configured : Bool) (i : Nat) : Row :=
  { key := ⟨"https://peer", topicOf i, String.ofList (outpointOf i)⟩, origin := "https://peer", configured, bytes := 700 }

theorem count_outpointOf (i : Nat) : (outpointOf i).count 'a' = i := by
  rw [outpointOf, List.count_append, List.count_append, List.count_replicate_self, List.count_replicate, if_neg (by decide)]
  rfl

theorem graph_key {a b : Bool} {i j : Nat} : (graph a i).key = (graph b j).key ↔ i = j := by
  constructor
  · intro h
    have houtpoint := congrArg (fun key => key.outpoint.toList.count 'a') h
    simpa [graph, count_outpointOf] using houtpoint
  · intro h
    rw [h]
    rfl

theorem graph_bytes (configured : Bool) (i : Nat) : (graph configured i).bytes = 700 := rfl

theorem others_graphs {a b : Bool} {k : Nat} {l : List Nat} (h : k ∉ l) : others (l.map (graph a)) (graph b k).key = l.map (graph a) := by
  apply List.filter_eq_self.mpr
  intro r hr
  obtain ⟨i, hi, rfl⟩ := List.mem_map.mp hr
  rw [decide_eq_true_eq, Ne, graph_key]
  exact fun heq => h (heq ▸ hi)

def saves (configured : Bool) (n : Nat) : List Move := (List.range n).map fun i => .save (graph configured i)

theorem bytes_graphs (configured : Bool) (l : List Nat) : bytes (l.map (graph configured)) (fun _ => true) = 700 * l.length := by
  induction l with
  | nil => rfl
  | cons i rest ih =>
    rw [List.map_cons, bytes_cons, ih, if_pos rfl, List.length_cons, graph_bytes]
    omega

theorem saves_succ (t : Table) (configured : Bool) (n : Nat) : run t (saves configured (n + 1)) = (run t (saves configured n)).save (graph configured n) := by
  rw [run, saves, List.range_succ, List.map_append, List.foldl_append]
  rfl

theorem run_configured {n : Nat} (hn : n ≤ 33) : run [] (saves true n) = (List.range n).map (graph true) := by
  induction n with
  | zero => rfl
  | succ n ih =>
    have hheld : Table.held ((List.range n).map (graph true)) (graph true n).key = false := by
      simp only [held, List.any_map, List.any_eq_false, Function.comp_apply, decide_eq_true_eq, graph_key, List.mem_range]
      intro i hi
      omega
    have hmax : deferredGraphsMaxRows = 256 := rfl
    have hbytes : deferredGraphsMaxTotalBytes = 67108864 := rfl
    rw [saves_succ, ih (by omega), save_fresh hheld rfl (by rw [List.length_map, List.length_range]; omega)
      (by rw [bytes_graphs, List.length_range, graph_bytes]; omega), List.range_succ, List.map_append]
    rfl

theorem run_discovered {n k : Nat} (hn : n ≤ 33) (hk : k ≤ n) : run ((List.range n).map (graph true)) (saves false k) =
    (List.range' k (n - k)).map (graph true) ++ (List.range k).map (graph false) := by
  induction k with
  | zero =>
    rw [List.range_eq_range']
    simp [saves, run]
  | succ k ih =>
    have hsplit : List.range' k (n - k) = k :: List.range' (k + 1) (n - (k + 1)) := by
      have hpos : n - k = (n - (k + 1)) + 1 := by omega
      rw [hpos, List.range'_succ]
    have hheld : Table.held ((k :: List.range' (k + 1) (n - (k + 1))).map (graph true) ++ (List.range k).map (graph false)) (graph false k).key = true := by
      rw [List.map_cons, List.cons_append, held, List.any_cons, decide_eq_true (graph_key.mpr rfl), Bool.true_or]
    have hmax : deferredGraphsMaxBytesPerHost = 8388608 := rfl
    rw [saves_succ, ih (by omega), hsplit, save_held hheld]
    · have hrest : k ∉ List.range' (k + 1) (n - (k + 1)) := fun hin => by
        have := (List.mem_range'_1.mp hin).1
        omega
      have hdone : k ∉ List.range k := by simp
      have hown : ¬ decide ((graph true k).key ≠ (graph false k).key) = true := by simpa using graph_key.mpr rfl
      rw [others, List.filter_append, List.map_cons, List.filter_cons, if_neg hown]
      rw [← others, ← others, others_graphs hrest, others_graphs hdone, List.range_succ, List.map_append, List.append_assoc]
      rfl
    · rw [bytes_append, bytes_graphs, bytes_graphs, List.length_cons, List.length_range', List.length_range, graph_bytes]
      omega

/-- Thirty-three rows of a configured peer, eleven of each topic, saved again once it is a discovered one: past its origin's rows. -/
theorem ceilings_replaced : ¬ ∀ first, first <+: saves true 33 ++ saves false 33 → Bounded (run [] first) ∧ Reserved (run [] first) := by
  intro h
  have hrun : run [] (saves true 33 ++ saves false 33) = (List.range 33).map (graph false) := by
    rw [run, List.foldl_append, ← run, ← run, run_configured (Nat.le_refl _), run_discovered (Nat.le_refl _) (Nat.le_refl _)]
    rfl
  have hrows := (h _ (List.prefix_refl _)).1.originRows "https://peer"
  have hall : ((List.range 33).map (graph false)).countP (Row.of "https://peer") = 33 := by
    rw [List.countP_map]
    exact (List.countP_eq_length.mpr fun i _ => rfl).trans (List.length_range)
  rw [hrun, hall] at hrows
  exact absurd hrows (by decide)

end Table

end OverlayEngine.DeferredGraphs.Ceilings
