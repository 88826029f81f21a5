import Mathlib.Data.List.Forall2
import OverlayEngine.Worker.EfBatch

/-!
# The order of an Extended Format batch

The batch is every unproven transaction whose sources the body carries, in the
order of the sort. The sort puts a transaction that depends on a missing source
before the others and keeps the order given among such: there a transaction may
stand before one it spends.
-/

namespace OverlayEngine.Ef

/-! ## What bsv-rs gives -/

def Absent (txs : List BeefTx) (t : BeefTx) : Prop := t.hasProof = false ∧ ∃ src ∈ t.sources, src ∉ txs.map BeefTx.txid

inductive Lacks (txs : List BeefTx) : BeefTx → Prop where
  | absent {t : BeefTx} (h : Absent txs t) : Lacks txs t
  | spends {t u : BeefTx} (ht : t.hasProof = false) (hu : u ∈ txs) (hsrc : u.txid ∈ t.sources) (h : Lacks txs u) : Lacks txs t

def Dependent (txs : List BeefTx) (t : BeefTx) : Prop := ¬Absent txs t ∧ Lacks txs t

structure Sorted (txs absent dependents txidOnly rest : List BeefTx) : Prop where
  perm : (absent ++ dependents ++ txidOnly ++ rest).Perm txs
  isAbsent : ∀ t ∈ absent, Absent txs t
  isDependent : ∀ t ∈ dependents, Dependent txs t
  given : dependents.Sublist txs
  isTxidOnly : ∀ t ∈ txidOnly, t.tx = none
  isWhole : ∀ t ∈ rest, ¬Lacks txs t
  parentsFirst : rest.Pairwise fun t u => t.hasProof = false → u.txid ∉ t.sources

/-- `sort_txs`, on every rearrangement of the body `bytes` parses to. -/
def BeefSdk.Sorts (sdk : BeefSdk) (bytes : Bytes) : Prop :=
  ∀ b, sdk.parse bytes = .ok b → ∀ txs, txs.Perm b.txs →
    ∃ absent dependents txidOnly rest,
      sdk.sortTxs txs = absent ++ dependents ++ txidOnly ++ rest ∧ Sorted txs absent dependents txidOnly rest

structure BeefSdk.Reads (sdk : BeefSdk) : Prop where
  unlinked : ∀ bytes b, sdk.parse bytes = .ok b → ∀ t ∈ b.txs, ∀ i ∈ t.inputs, i.sourceTransaction = none
  named : ∀ bytes b, sdk.parse bytes = .ok b → ∀ t ∈ b.txs, ∀ u ∈ b.txs, t.txid = u.txid →
    ∀ x y, t.tx = some x → u.tx = some y → x = y

/-! ## The batch in order -/

def Linked (txs : List BeefTx) : List (TransactionInput Transaction) → List (TransactionInput Transaction) → Prop :=
  List.Forall₂ fun i linked => ∃ src source, i.sourceTxid = some src ∧ (∃ u ∈ txs, u.txid = src ∧ u.tx = some source) ∧
    linked = { i with sourceTransaction := some source }

variable (sdk : BeefSdk)

/-- `e` is the entry of `t`: unproven, its sources carried, its linked form accepted by `to_ef`. -/
def EntryOf (txs : List BeefTx) (t : BeefTx) (e : EfTx) : Prop :=
  t.hasProof = false ∧ e.txid = t.txid ∧
    ∃ tx linked, t.tx = some tx ∧ Linked txs tx.inputs linked ∧ sdk.toEf (.mk tx.id linked) = .ok e.ef

/-- `t` goes out. -/
def Leg (txs : List BeefTx) (t : BeefTx) : Prop := ∃ e, EntryOf sdk txs t e

/-- The transaction of `txid` spends one of `src`. -/
def Spends (txs : List BeefTx) (txid src : String) : Prop := ∃ t ∈ txs, t.txid = txid ∧ src ∈ t.sources

structure Broadcastable (txs : List BeefTx) (efs : List EfTx) (subject : String) : Prop where
  entries : ∀ e, e ∈ efs ↔ ∃ t ∈ txs, EntryOf sdk txs t e
  once : (efs.map EfTx.txid).Nodup
  subject : ∀ t ∈ txs, t.txid = subject → t.hasProof = false → subject ∈ efs.map EfTx.txid
  parentsFirst : efs.Pairwise fun e f => ¬Spends txs e.txid f.txid

structure InOrder (txs : List BeefTx) : Prop where
  once : txs.Pairwise fun t u => Leg sdk txs t → Leg sdk txs u → t.txid ≠ u.txid
  given : txs.Pairwise fun t u => Leg sdk txs t → Leg sdk txs u → Lacks txs t → Lacks txs u → u.txid ∉ t.sources
  whole : ∀ t ∈ txs, ∀ u ∈ txs, Leg sdk txs t → Leg sdk txs u → Lacks txs t → ¬Lacks txs u → u.txid ∉ t.sources

/-! ## The loop over the sorted body -/

section
variable {sdk : BeefSdk} {txs : List BeefTx} {map : String → Option Transaction}

theorem linkInputs_ok {txid : String} {inputs linked : List (TransactionInput Transaction)}
    (hflat : ∀ i ∈ inputs, i.sourceTransaction = none) :
    linkInputs map txid inputs = .ok linked ↔
      List.Forall₂ (fun i l => ∃ src source, i.sourceTxid = some src ∧ map src = some source ∧
        l = { i with sourceTransaction := some source }) inputs linked := by
  induction inputs generalizing linked with
  | nil =>
    rw [List.forall₂_nil_left_iff]
    exact ⟨fun h => by cases h; rfl, fun h => by rw [h]; rfl⟩
  | cons i rest ih =>
    have hi : i.sourceTransaction = none := hflat i (by simp)
    have ih := fun l => @ih l fun j hj => hflat j (List.mem_cons_of_mem i hj)
    rw [List.forall₂_cons_left_iff]
    simp only [linkInputs, hi, Option.isSome_none, Bool.false_eq_true, if_false]
    constructor
    · intro h
      cases hs : i.sourceTxid with
      | none => rw [hs] at h; cases h
      | some src =>
        rw [hs] at h
        dsimp only at h
        cases hm : map src with
        | none => rw [hm] at h; cases h
        | some source =>
          rw [hm] at h
          cases hr : linkInputs map txid rest with
          | error e => rw [hr] at h; cases h
          | ok l =>
            rw [hr] at h
            cases h
            exact ⟨_, l, ⟨src, source, rfl, hm, rfl⟩, (ih l).mp hr, rfl⟩
    · rintro ⟨_, l, ⟨src, source, hs, hm, rfl⟩, hl, rfl⟩
      simp only [hs, hm, (ih l).mpr hl, Except.map]

def Named (txs : List BeefTx) : Prop :=
  ∀ t ∈ txs, ∀ u ∈ txs, t.txid = u.txid → ∀ x y, t.tx = some x → u.tx = some y → x = y

theorem txMap_some (hnamed : Named txs) {src : String} {source : Transaction} :
    txMap txs src = some source ↔ ∃ u ∈ txs, u.txid = src ∧ u.tx = some source := by
  unfold txMap
  constructor
  · intro h
    obtain ⟨u, hu, hsource⟩ := Option.bind_eq_some_iff.mp h
    have hmem := List.mem_filter.mp (List.mem_of_getLast? hu)
    rw [Bool.and_eq_true, beq_iff_eq] at hmem
    exact ⟨u, hmem.1, hmem.2.1, hsource⟩
  · rintro ⟨u, hu, hid, hsource⟩
    have hmem : u ∈ txs.filter fun t => t.txid == src && t.tx.isSome :=
      List.mem_filter.mpr ⟨hu, by rw [hid, hsource, beq_self_eq_true]; rfl⟩
    have hne : (txs.filter fun t => t.txid == src && t.tx.isSome).getLast? ≠ none :=
      fun h => List.ne_nil_of_mem hmem (List.getLast?_eq_none_iff.mp h)
    obtain ⟨last, hlast⟩ := Option.ne_none_iff_exists'.mp hne
    have hin := List.mem_filter.mp (List.mem_of_getLast? hlast)
    rw [Bool.and_eq_true, beq_iff_eq] at hin
    obtain ⟨y, hy⟩ := Option.isSome_iff_exists.mp hin.2.2
    rw [hlast, Option.bind_some, hy, hnamed last hin.1 u hu (hin.2.1.trans hid.symm) y source hy hsource]

def entry (map : String → Option Transaction) (sdk : BeefSdk) (t : BeefTx) : Option EfTx :=
  if t.hasProof then none else (convert sdk map t).toOption.map fun ef => ⟨t.txid, ef⟩

theorem efLegs_ok {subject : String} {efs : List EfTx} (h : efLegs sdk map subject txs = .ok efs) :
    efs = txs.filterMap (entry map sdk) ∧
      ∀ t ∈ txs, t.txid = subject → t.hasProof = false → (entry map sdk t).isSome = true := by
  induction txs generalizing efs with
  | nil => cases h; exact ⟨rfl, fun _ ht => by cases ht⟩
  | cons t rest ih =>
    unfold efLegs at h
    by_cases hp : t.hasProof = true
    · rw [if_pos hp] at h
      obtain ⟨hefs, hsubject⟩ := ih h
      refine ⟨by rw [List.filterMap_cons, entry, if_pos hp]; exact hefs, fun u hu hid hu' => ?_⟩
      rcases List.mem_cons.mp hu with rfl | hu
      · rw [hp] at hu'; cases hu'
      · exact hsubject u hu hid hu'
    · rw [if_neg hp] at h
      cases hc : convert sdk map t with
      | ok ef =>
        rw [hc] at h
        cases hr : efLegs sdk map subject rest with
        | error e => rw [hr] at h; cases h
        | ok l =>
          rw [hr] at h
          cases h
          obtain ⟨hl, hsubject⟩ := ih hr
          have hentry : entry map sdk t = some ⟨t.txid, ef⟩ := by rw [entry, if_neg hp, hc]; rfl
          refine ⟨by rw [List.filterMap_cons, hentry, ← hl], fun u hu hid hu' => ?_⟩
          rcases List.mem_cons.mp hu with rfl | hu
          · rw [hentry]; rfl
          · exact hsubject u hu hid hu'
      | error e =>
        rw [hc] at h
        dsimp only at h
        by_cases hs : t.txid = subject
        · rw [if_pos hs] at h; cases h
        · rw [if_neg hs] at h
          obtain ⟨hl, hsubject⟩ := ih h
          have hentry : entry map sdk t = none := by rw [entry, if_neg hp, hc]; rfl
          refine ⟨by rw [List.filterMap_cons, hentry]; exact hl, fun u hu hid hu' => ?_⟩
          rcases List.mem_cons.mp hu with rfl | hu
          · exact absurd hid hs
          · exact hsubject u hu hid hu'

variable {t : BeefTx}

theorem entry_iff {e : EfTx} (hnamed : Named txs) (hflat : ∀ i ∈ t.inputs, i.sourceTransaction = none) :
    entry (txMap txs) sdk t = some e ↔ EntryOf sdk txs t e := by
  have hlinks (tx : Transaction) (htx : t.tx = some tx) (linked : List (TransactionInput Transaction)) :
      linkInputs (txMap txs) t.txid tx.inputs = .ok linked ↔ Linked txs tx.inputs linked := by
    have hin : t.inputs = tx.inputs := by rw [BeefTx.inputs, htx]; rfl
    rw [linkInputs_ok (hin ▸ hflat), Linked]
    simp only [txMap_some hnamed]
  unfold entry EntryOf
  cases hp : t.hasProof with
  | true => simp
  | false =>
    rw [if_neg Bool.false_ne_true, Option.map_eq_some_iff]
    constructor
    · rintro ⟨ef, hef, rfl⟩
      refine ⟨rfl, rfl, ?_⟩
      unfold convert at hef
      cases htx : t.tx with
      | none => rw [htx] at hef; cases hef
      | some tx =>
        rw [htx] at hef
        dsimp only at hef
        cases hl : linkInputs (txMap txs) t.txid tx.inputs with
        | error e => rw [hl] at hef; cases hef
        | ok linked =>
          rw [hl] at hef
          dsimp only at hef
          cases ho : sdk.toEf (.mk tx.id linked) with
          | error e => rw [ho] at hef; cases hef
          | ok bytes =>
            rw [ho] at hef
            cases hef
            exact ⟨tx, linked, rfl, (hlinks tx htx linked).mp hl, ho⟩
    · rintro ⟨-, hid, tx, linked, htx, hl, ho⟩
      refine ⟨e.ef, ?_, by cases e; cases hid; rfl⟩
      unfold convert
      rw [htx]
      dsimp only
      rw [(hlinks tx htx linked).mpr hl]
      dsimp only
      rw [ho]
      rfl

/-! ## The sorted body -/

variable {txs' txs : List BeefTx}

theorem Absent.perm (h : txs.Perm txs') (ha : Absent txs t) : Absent txs' t := by
  obtain ⟨hp, src, hsrc, hno⟩ := ha
  exact ⟨hp, src, hsrc, fun hin => hno ((h.map BeefTx.txid).mem_iff.mpr hin)⟩

theorem Lacks.perm (h : txs.Perm txs') (hl : Lacks txs t) : Lacks txs' t := by
  induction hl with
  | absent ha => exact .absent (ha.perm h)
  | spends ht hu hsrc _ ih => exact .spends ht (h.mem_iff.mp hu) hsrc ih

theorem Dependent.perm (h : txs.Perm txs') (hd : Dependent txs t) : Dependent txs' t :=
  ⟨fun ha => hd.1 (ha.perm h.symm), hd.2.perm h⟩

theorem EntryOf.perm (h : txs.Perm txs') {e : EfTx} (he : EntryOf sdk txs t e) : EntryOf sdk txs' t e := by
  obtain ⟨hp, hid, tx, linked, htx, hl, ho⟩ := he
  refine ⟨hp, hid, tx, linked, htx, hl.imp ?_, ho⟩
  rintro i l ⟨src, source, hs, ⟨u, hu, hsource⟩, hlinked⟩
  exact ⟨src, source, hs, ⟨u, h.mem_iff.mp hu, hsource⟩, hlinked⟩

theorem not_absent_of_entry {e : EfTx} (h : EntryOf sdk txs t e) : ¬Absent txs t := by
  rintro ⟨-, src, hsrc, hno⟩
  obtain ⟨-, -, tx, linked, htx, hl, -⟩ := h
  obtain ⟨i, hi, hsome⟩ := List.mem_filterMap.mp hsrc
  have hin : i ∈ tx.inputs := by rw [BeefTx.inputs, htx] at hi; exact hi
  have hnames : ∀ j ∈ tx.inputs, ∃ s, j.sourceTxid = some s ∧ s ∈ txs.map BeefTx.txid := by
    refine (List.forall₂_and_left (R := fun _ _ => True) tx.inputs linked).mp (hl.imp ?_) |>.1
    rintro j l ⟨s, source, hs, ⟨u, hu, hid, -⟩, -⟩
    exact ⟨⟨s, hs, List.mem_map.mpr ⟨u, hu, hid⟩⟩, trivial⟩
  obtain ⟨s, hs, hmem⟩ := hnames i hin
  rw [hsome] at hs
  cases hs
  exact hno hmem

section
variable {absent dependents txidOnly rest : List BeefTx}

theorem not_lacks_of_txidOnly (h : t.tx = none) : ¬Lacks txs t := by
  have hsources : t.sources = [] := by rw [BeefTx.sources, BeefTx.inputs, h]; rfl
  intro hl
  cases hl with
  | absent ha =>
    obtain ⟨-, src, hsrc, -⟩ := ha
    rw [hsources] at hsrc
    cases hsrc
  | spends _ _ hsrc _ => rw [hsources] at hsrc; cases hsrc

open Classical in
theorem Sorted.filter_groups (h : Sorted txs absent dependents txidOnly rest) :
    (absent ++ dependents ++ txidOnly ++ rest).filter (fun t => Dependent txs t) = dependents := by
  have kept : dependents.filter (fun t => Dependent txs t) = dependents :=
    List.filter_eq_self.mpr fun t ht => decide_eq_true (h.isDependent t ht)
  have dropped (l : List BeefTx) (hl : ∀ t ∈ l, ¬Dependent txs t) : l.filter (fun t => Dependent txs t) = [] :=
    List.filter_eq_nil_iff.mpr fun t ht hd => hl t ht (of_decide_eq_true hd)
  rw [List.filter_append, List.filter_append, List.filter_append, kept, dropped absent fun t ht hd => hd.1 (h.isAbsent t ht),
    dropped txidOnly fun t ht hd => not_lacks_of_txidOnly (h.isTxidOnly t ht) hd.2, dropped rest fun t ht hd => h.isWhole t ht hd.2]
  simp

open Classical in
theorem Sorted.dependents_eq (h : Sorted txs absent dependents txidOnly rest) : dependents = txs.filter fun t => Dependent txs t := by
  have hsub : dependents.Sublist (txs.filter fun t => Dependent txs t) := by
    have := h.given.filter fun t => decide (Dependent txs t)
    rwa [List.filter_eq_self.mpr fun t ht => decide_eq_true (h.isDependent t ht)] at this
  have hlen := (h.perm.filter fun t => decide (Dependent txs t)).length_eq
  rw [h.filter_groups] at hlen
  exact hsub.eq_of_length hlen

theorem Sorted.of_perm {given : List BeefTx} (h : Sorted given absent dependents txidOnly rest) (hperm : given.Perm txs)
    (hgiven : dependents.Sublist txs) : Sorted txs absent dependents txidOnly rest where
  perm := h.perm.trans hperm
  isAbsent t ht := (h.isAbsent t ht).perm hperm
  isDependent t ht := (h.isDependent t ht).perm hperm
  given := hgiven
  isTxidOnly := h.isTxidOnly
  isWhole t ht hl := h.isWhole t ht (hl.perm hperm.symm)
  parentsFirst := h.parentsFirst

theorem subject_leaves (b : Beef) : (subjectTxidOf sdk b).2.txs = b.txs ∨ (subjectTxidOf sdk b).2.txs = sdk.sortTxs b.txs := by
  unfold subjectTxidOf
  split
  · exact .inl rfl
  · split
    · exact .inl rfl
    · exact .inr rfl

theorem sorted_body {bytes : Bytes} (hsort : sdk.Sorts bytes) {b : Beef} (hparse : sdk.parse bytes = .ok b) :
    ∃ absent dependents txidOnly rest,
      sdk.sortTxs (subjectTxidOf sdk b).2.txs = absent ++ dependents ++ txidOnly ++ rest ∧ Sorted b.txs absent dependents txidOnly rest := by
  classical
  rcases @subject_leaves sdk b with he | he
  · rw [he]
    exact hsort b hparse b.txs (.refl _)
  · obtain ⟨a, d, n, r, hfirst, hs⟩ := hsort b hparse b.txs (.refl _)
    have hperm : (sdk.sortTxs b.txs).Perm b.txs := hfirst ▸ hs.perm
    obtain ⟨a', d', n', r', hagain, hs'⟩ := hsort b hparse (sdk.sortTxs b.txs) hperm
    rw [he]
    refine ⟨a', d', n', r', hagain, hs'.of_perm hperm ?_⟩
    have hsame : (fun t => decide (Dependent (sdk.sortTxs b.txs) t)) = fun t => decide (Dependent b.txs t) :=
      funext fun t => decide_eq_decide.mpr ⟨fun h => h.perm hperm, fun h => h.perm hperm.symm⟩
    rw [hs'.dependents_eq, hsame, hfirst, hs.filter_groups]
    exact hs.given

end

/-! ## The order -/

theorem spends_iff (hnamed : Named txs) {tx : Transaction} (ht : t ∈ txs) (htx : t.tx = some tx) {src : String} :
    Spends txs t.txid src ↔ src ∈ t.sources := by
  constructor
  · rintro ⟨u, hu, hid, hsrc⟩
    cases hux : u.tx with
    | none => rw [BeefTx.sources, BeefTx.inputs, hux] at hsrc; cases hsrc
    | some x =>
      have hx : x = tx := hnamed u hu t ht hid x tx hux htx
      rw [BeefTx.sources, BeefTx.inputs, hux, hx] at hsrc
      rw [BeefTx.sources, BeefTx.inputs, htx]
      exact hsrc
  · intro h
    exact ⟨t, ht, rfl, h⟩

def LegsInOrder (sdk : BeefSdk) (txs sorted : List BeefTx) : Prop :=
  sorted.Pairwise fun t u => Leg sdk txs t → Leg sdk txs u → u.txid ∉ t.sources

theorem legsInOrder_iff {absent dependents txidOnly rest : List BeefTx} (h : Sorted txs absent dependents txidOnly rest) :
    LegsInOrder sdk txs (absent ++ dependents ++ txidOnly ++ rest) ↔
      (txs.Pairwise fun t u => Leg sdk txs t → Leg sdk txs u → Lacks txs t → Lacks txs u → u.txid ∉ t.sources) ∧
        ∀ t ∈ txs, ∀ u ∈ txs, Leg sdk txs t → Leg sdk txs u → Lacks txs t → ¬Lacks txs u → u.txid ∉ t.sources := by
  classical
  have noAbsent (t : BeefTx) (ht : t ∈ absent) : ¬Leg sdk txs t := fun ⟨e, he⟩ => not_absent_of_entry he (h.isAbsent t ht)
  have noTxidOnly (t : BeefTx) (ht : t ∈ txidOnly) : ¬Leg sdk txs t := by
    rintro ⟨e, -, -, tx, -, htx, -⟩
    rw [h.isTxidOnly t ht] at htx
    cases htx
  have unproven (t : BeefTx) (hleg : Leg sdk txs t) : t.hasProof = false := by
    obtain ⟨e, he⟩ := hleg
    exact he.1
  have leg_lacks (t : BeefTx) (ht : t ∈ txs) (hleg : Leg sdk txs t) (hl : Lacks txs t) : t ∈ dependents := by
    obtain ⟨e, he⟩ := hleg
    rw [h.dependents_eq]
    exact List.mem_filter.mpr ⟨ht, decide_eq_true ⟨not_absent_of_entry he, hl⟩⟩
  have leg_whole (t : BeefTx) (ht : t ∈ txs) (hleg : Leg sdk txs t) (hl : ¬Lacks txs t) : t ∈ rest := by
    rcases List.mem_append.mp (h.perm.mem_iff.mpr ht) with ht | ht
    · rcases List.mem_append.mp ht with ht | ht
      · rcases List.mem_append.mp ht with ht | ht
        · exact absurd hleg (noAbsent t ht)
        · exact absurd (h.isDependent t ht).2 hl
      · exact absurd hleg (noTxidOnly t ht)
    · exact ht
  unfold LegsInOrder
  rw [List.pairwise_append, List.pairwise_append, List.pairwise_append]
  constructor
  · rintro ⟨⟨⟨-, hdep, -⟩, -, -⟩, -, hcross⟩
    refine ⟨?_, fun t ht u hu hlegt hlegu hlt hlu => ?_⟩
    · rw [h.dependents_eq, List.pairwise_filter] at hdep
      refine hdep.imp fun {t u} ho hlegt hlegu hlt hlu => ?_
      obtain ⟨e, he⟩ := hlegt
      obtain ⟨f, hf⟩ := hlegu
      exact ho (decide_eq_true ⟨not_absent_of_entry he, hlt⟩) (decide_eq_true ⟨not_absent_of_entry hf, hlu⟩) ⟨e, he⟩ ⟨f, hf⟩
    · refine hcross t ?_ u (leg_whole u hu hlegu hlu) hlegt hlegu
      simp [leg_lacks t ht hlegt hlt]
  · rintro ⟨hgiven, hwhole⟩
    have hin (t : BeefTx) (ht : t ∈ absent ++ dependents ++ txidOnly ++ rest) : t ∈ txs := h.perm.mem_iff.mp ht
    refine ⟨⟨⟨?_, ?_, fun t ht _ _ hleg => absurd hleg (noAbsent t ht)⟩, ?_, fun t _ u hu _ hleg => absurd hleg (noTxidOnly u hu)⟩, ?_, ?_⟩
    · exact List.pairwise_of_forall_mem_list fun t ht _ _ hleg => absurd hleg (noAbsent t ht)
    · refine (List.Pairwise.and_mem.mp (hgiven.sublist h.given)).imp ?_
      rintro t u ⟨ht, hu, ho⟩ hlegt hlegu
      exact ho hlegt hlegu (h.isDependent t ht).2 (h.isDependent u hu).2
    · exact List.pairwise_of_forall_mem_list fun t ht _ _ hleg => absurd hleg (noTxidOnly t ht)
    · exact h.parentsFirst.imp fun {t u} ho hleg _ => ho (unproven t hleg)
    · intro t ht u hu hlegt hlegu
      rcases List.mem_append.mp ht with ht | ht
      · rcases List.mem_append.mp ht with ht | ht
        · exact absurd hlegt (noAbsent t ht)
        · exact hwhole t (hin t (by simp [ht])) u (hin u (by simp [hu])) hlegt hlegu (h.isDependent t ht).2 (h.isWhole u hu)
      · exact absurd hlegt (noTxidOnly t ht)

theorem pairwise_legs {b : Beef} {sorted : List BeefTx} (hperm : sorted.Perm b.txs)
    (hentry : ∀ t ∈ b.txs, ∀ e, entry (txMap sorted) sdk t = some e ↔ EntryOf sdk b.txs t e) {R : String → String → Prop}
    {Q : BeefTx → BeefTx → Prop} (hRQ : ∀ t ∈ b.txs, ∀ u, Leg sdk b.txs t → (R t.txid u.txid ↔ Q t u)) :
    (sorted.Pairwise fun t u => ∀ e, entry (txMap sorted) sdk t = some e → ∀ f, entry (txMap sorted) sdk u = some f → R e.txid f.txid) ↔
      sorted.Pairwise fun t u => Leg sdk b.txs t → Leg sdk b.txs u → Q t u := by
  refine List.Pairwise.iff_of_mem fun {t u} ht hu => ?_
  have ht := hperm.mem_iff.mp ht
  have hu := hperm.mem_iff.mp hu
  constructor
  · rintro h ⟨e, he⟩ ⟨f, hf⟩
    have hr := h e ((hentry t ht e).mpr he) f ((hentry u hu f).mpr hf)
    rw [he.2.1, hf.2.1] at hr
    exact (hRQ t ht u ⟨e, he⟩).mp hr
  · intro h e he f hf
    have he := (hentry t ht e).mp he
    have hf := (hentry u hu f).mp hf
    rw [he.2.1, hf.2.1]
    exact (hRQ t ht u ⟨e, he⟩).mpr (h ⟨e, he⟩ ⟨f, hf⟩)

/-- The batch of an accepted body is broadcastable in order exactly where no leg that lacks an ancestor spends a later or a whole one. -/
theorem batch_broadcastable (hreads : sdk.Reads) {bytes : Bytes} (hsort : sdk.Sorts bytes) {efs : List EfTx} {subject : String}
    (h : beefToEfBatch sdk bytes = .ok (efs, subject)) :
    ∃ b, sdk.parse bytes = .ok b ∧ subject = (subjectTxidOf sdk b).1.getD "" ∧ (Broadcastable sdk b.txs efs subject ↔ InOrder sdk b.txs) := by
  unfold beefToEfBatch at h
  cases hparse : sdk.parse bytes with
  | error e => rw [hparse] at h; cases h
  | ok b =>
    rw [hparse] at h
    obtain ⟨absent, dependents, txidOnly, rest, hsorted, hs⟩ := sorted_body hsort hparse
    set sorted := sdk.sortTxs (subjectTxidOf sdk b).2.txs with hdef
    have hperm : sorted.Perm b.txs := hsorted ▸ hs.perm
    dsimp only at h
    rw [← hdef] at h
    cases hlegs : efLegs sdk (txMap sorted) ((subjectTxidOf sdk b).1.getD "") sorted with
    | error e => rw [hlegs] at h; cases h
    | ok l =>
      rw [hlegs] at h
      cases h
      refine ⟨b, rfl, rfl, ?_⟩
      obtain ⟨hefs, hsubject⟩ := efLegs_ok hlegs
      have hnamed : Named sorted := fun t ht u hu => hreads.named bytes b hparse t (hperm.mem_iff.mp ht) u (hperm.mem_iff.mp hu)
      have hentry (t : BeefTx) (ht : t ∈ b.txs) (e : EfTx) : entry (txMap sorted) sdk t = some e ↔ EntryOf sdk b.txs t e :=
        (entry_iff hnamed (hreads.unlinked bytes b hparse t ht)).trans ⟨fun h => h.perm hperm, fun h => h.perm hperm.symm⟩
      have hmem (e : EfTx) : e ∈ efs ↔ ∃ t ∈ b.txs, EntryOf sdk b.txs t e := by
        rw [hefs, List.mem_filterMap]
        constructor
        · rintro ⟨t, ht, he⟩
          exact ⟨t, hperm.mem_iff.mp ht, (hentry t (hperm.mem_iff.mp ht) e).mp he⟩
        · rintro ⟨t, ht, he⟩
          exact ⟨t, hperm.mem_iff.mpr ht, (hentry t ht e).mpr he⟩
      have honce : (efs.map EfTx.txid).Nodup ↔ b.txs.Pairwise fun t u => Leg sdk b.txs t → Leg sdk b.txs u → t.txid ≠ u.txid := by
        have hsymm {t u : BeefTx} (h : Leg sdk b.txs t → Leg sdk b.txs u → t.txid ≠ u.txid) :
            Leg sdk b.txs u → Leg sdk b.txs t → u.txid ≠ t.txid := fun hu ht => (h ht hu).symm
        rw [← hperm.pairwise_iff hsymm, List.Nodup, List.pairwise_map, hefs, List.pairwise_filterMap]
        exact pairwise_legs hperm hentry fun _ _ _ _ => Iff.rfl
      have horder : (efs.Pairwise fun e f => ¬Spends b.txs e.txid f.txid) ↔ LegsInOrder sdk b.txs sorted := by
        rw [hefs, List.pairwise_filterMap]
        refine pairwise_legs (R := fun x y => ¬Spends b.txs x y) hperm hentry fun t ht u hleg => not_congr ?_
        obtain ⟨e, -, -, tx, -, htx, -⟩ := hleg
        exact spends_iff (hreads.named bytes b hparse) ht htx
      rw [hsorted, legsInOrder_iff hs] at horder
      constructor
      · intro hb
        obtain ⟨hgiven, hwhole⟩ := horder.mp hb.parentsFirst
        exact ⟨honce.mp hb.once, hgiven, hwhole⟩
      · intro ho
        refine ⟨hmem, honce.mpr ho.once, fun t ht hid hp => ?_, horder.mpr ⟨ho.given, ho.whole⟩⟩
        obtain ⟨e, he⟩ := Option.isSome_iff_exists.mp (hsubject t (hperm.mem_iff.mpr ht) hid hp)
        have hent := (hentry t ht e).mp he
        rw [← hid, ← hent.2.1]
        exact List.mem_map_of_mem ((hmem e).mpr ⟨t, ht, hent⟩)

end

/-! ## A join with one incomplete hop, and one with none -/

def spending (id : String) (sources : List String) : Transaction := .mk id (sources.map fun src => ⟨some src, none⟩)

def fund : BeefTx := ⟨"fund", spending "fund" ["coin"], some 0⟩
def hop : BeefTx := ⟨"hop", spending "hop" ["fund"], none⟩
def bare : BeefTx := ⟨"bare", spending "bare" ["gone"], none⟩
def join : BeefTx := ⟨"join", spending "join" ["bare", "hop"], none⟩
def whole : BeefTx := ⟨"join", spending "join" ["hop"], none⟩

def joinBody : Beef := ⟨none, [[]], [fund, hop, bare, join]⟩
def wholeBody : Beef := ⟨none, [[]], [whole, fund, hop]⟩

def joinSdk : BeefSdk where
  parse bytes := if bytes = [1] then .ok joinBody else if bytes = [2] then .ok wholeBody else .error "no BEEF"
  sortTxs txs := if txs.length = 4 then [bare, join, fund, hop] else [fund, hop, whole]
  toEf _ := .ok []

variable {b : Beef}

theorem parse_join {bytes : Bytes} (h : joinSdk.parse bytes = .ok b) : b = joinBody ∨ b = wholeBody := by
  simp only [joinSdk] at h
  split at h
  · cases h; exact .inl rfl
  · split at h
    · cases h; exact .inr rfl
    · cases h

theorem join_txids (hb : b = joinBody ∨ b = wholeBody) {t u : BeefTx} (ht : t ∈ b.txs) (hu : u ∈ b.txs) (h : t.txid = u.txid) :
    t = u := by
  rcases hb with rfl | rfl <;> exact List.inj_on_of_nodup_map (f := BeefTx.txid) (by decide) ht hu h

theorem joinSdk_reads : joinSdk.Reads where
  unlinked := by
    intro bytes b h t ht i hi
    have hin : t ∈ [fund, hop, bare, join, whole] := by
      rcases parse_join h with rfl | rfl
      · exact List.mem_append_left [whole] ht
      · simp only [wholeBody, List.mem_cons, List.not_mem_nil, or_false] at ht ⊢
        tauto
    simp only [List.mem_cons, List.not_mem_nil, or_false] at hin
    rcases hin with rfl | rfl | rfl | rfl | rfl <;>
      · obtain ⟨src, -, rfl⟩ := List.mem_map.mp hi
        rfl
  named := by
    intro bytes b h t ht u hu hid x y hx hy
    rw [join_txids (parse_join h) ht hu hid, hy] at hx
    exact (Option.some.inj hx).symm

theorem not_lacks_fund : ¬Lacks b.txs fund := by
  intro h
  cases h with
  | absent ha => exact absurd ha.1 (by decide)
  | spends hp => exact absurd hp (by decide)

/-- A transaction whose one source is carried and whole is whole. -/
theorem not_lacks_of_source (hb : b = joinBody ∨ b = wholeBody) {t u : BeefTx} (hu : u ∈ b.txs) (hs : t.sources = [u.txid])
    (hwhole : ¬Lacks b.txs u) : ¬Lacks b.txs t := by
  intro h
  cases h with
  | absent ha =>
    obtain ⟨-, src, hsrc, hno⟩ := ha
    rw [hs, List.mem_singleton] at hsrc
    exact hno (hsrc ▸ List.mem_map_of_mem hu)
  | @spends _ v _ hv hsrc hl =>
    rw [hs, List.mem_singleton] at hsrc
    exact hwhole (join_txids hb hv hu hsrc ▸ hl)

theorem not_lacks_hop (hb : b = joinBody ∨ b = wholeBody) : ¬Lacks b.txs hop :=
  not_lacks_of_source hb (u := fund) (by rcases hb with rfl | rfl <;> simp [joinBody, wholeBody]) rfl not_lacks_fund

theorem not_lacks_whole : ¬Lacks wholeBody.txs whole :=
  not_lacks_of_source (.inr rfl) (u := hop) (by simp [wholeBody]) rfl (not_lacks_hop (.inr rfl))

theorem sorted_join : Sorted joinBody.txs [bare] [join] [] [fund, hop] := by
  have hbare : Absent joinBody.txs bare := ⟨rfl, "gone", by decide, by decide⟩
  refine ⟨?_, ?_, ?_, ?_, by simp, ?_, ?_⟩
  · exact @List.perm_append_comm _ [bare, join] [fund, hop]
  · simpa using hbare
  · rw [List.forall_mem_singleton]
    refine ⟨?_, .spends (u := bare) rfl (by simp [joinBody]) (by decide) (.absent hbare)⟩
    rintro ⟨-, src, hsrc, hno⟩
    rw [show join.sources = ["bare", "hop"] from rfl] at hsrc
    simp only [List.mem_cons, List.not_mem_nil, or_false] at hsrc
    rcases hsrc with rfl | rfl <;> exact hno (by decide)
  · simp [joinBody]
  · simp [not_lacks_fund, not_lacks_hop (.inl rfl)]
  · simp [fund, BeefTx.hasProof]

theorem joinSdk_sorts : joinSdk.Sorts [1] := by
  rintro b ⟨⟩ txs hperm
  refine ⟨[bare], [join], [], [fund, hop], if_pos hperm.length_eq, sorted_join.of_perm hperm.symm ?_⟩
  exact List.singleton_sublist.mpr (hperm.mem_iff.mpr (by simp [joinBody]))

theorem joinSdk_sorts_whole : joinSdk.Sorts [2] := by
  rintro b ⟨⟩ txs hperm
  have hlen : txs.length ≠ 4 := by rw [hperm.length_eq]; decide
  have hs : Sorted wholeBody.txs [] [] [] [fund, hop, whole] := by
    refine ⟨?_, by simp, by simp, by simp, by simp, ?_, ?_⟩
    · exact @List.perm_append_comm _ [fund, hop] [whole]
    · simp [not_lacks_fund, not_lacks_hop (.inr rfl), not_lacks_whole]
    · simp [fund, hop, whole, BeefTx.hasProof, BeefTx.sources, BeefTx.inputs, spending, Transaction.inputs]
  exact ⟨[], [], [], [fund, hop, whole], if_neg hlen, hs.of_perm hperm.symm (List.nil_sublist _)⟩

/-- The join goes out before the hop it spends. -/
theorem join_before_hop : joinSdk.Reads ∧ joinSdk.Sorts [1] ∧ joinSdk.parse [1] = .ok joinBody ∧
    beefToEfBatch joinSdk [1] = .ok ([⟨"join", []⟩, ⟨"hop", []⟩], "join") ∧
      ¬Broadcastable joinSdk joinBody.txs [⟨"join", []⟩, ⟨"hop", []⟩] "join" := by
  refine ⟨joinSdk_reads, joinSdk_sorts, rfl, rfl, fun h => ?_⟩
  have hfirst := (List.pairwise_cons.mp h.parentsFirst).1 ⟨"hop", []⟩ (by simp)
  exact hfirst ⟨join, by simp [joinBody], rfl, by decide⟩

/-- With every source carried the batch is broadcastable. -/
theorem whole_broadcastable : Broadcastable joinSdk wholeBody.txs [⟨"hop", []⟩, ⟨"join", []⟩] "join" := by
  have hbatch : beefToEfBatch joinSdk [2] = .ok ([⟨"hop", []⟩, ⟨"join", []⟩], "join") := rfl
  obtain ⟨b, hparse, -, hiff⟩ := batch_broadcastable joinSdk_reads joinSdk_sorts_whole hbatch
  cases hparse
  have hwhole : ∀ t ∈ wholeBody.txs, ¬Lacks wholeBody.txs t := by
    intro t ht
    simp only [wholeBody, List.mem_cons, List.not_mem_nil, or_false] at ht
    rcases ht with rfl | rfl | rfl
    · exact not_lacks_whole
    · exact not_lacks_fund (b := wholeBody)
    · exact not_lacks_hop (.inr rfl)
  refine hiff.mpr ⟨?_, ?_, fun t ht u hu _ _ hl => absurd hl (hwhole t ht)⟩
  · simp [wholeBody, whole, fund, hop]
  · exact List.pairwise_of_forall_mem_list fun t ht u _ _ _ hl => absurd hl (hwhole t ht)

end OverlayEngine.Ef
