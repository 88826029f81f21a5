import OverlayEngine.Pot.SpendProof

/-!
# The bump a spend is confirmed by

The spend hook looks a subject's bump up in the parsed BEEF, as the first that
contains its id. The completion pass streams the same bytes twice, for the bump
the subject's own entry names. Both ask one header source of the root.
-/

namespace OverlayEngine.Pot.SpendProof

/-! ## A BEEF as the reader hands it out -/

inductive Entry where
  | tx (txid : Txid) (bumpIndex : Option Nat)
  | txidOnly (txid : Txid)

structure Beef (μ : Type) where
  bumps : List μ := []
  txs : List Entry := []

inductive Element (μ : Type) where
  | bump (path : μ)
  | entry (e : Entry)

def Beef.elements {μ : Type} (beef : Beef μ) : List (Element μ) := beef.bumps.map .bump ++ beef.txs.map .entry

abbrev Headers := String → Nat → RootAnswer

section
variable {μ : Type}

/-- `own_bump_index`: the index the last entry of the id names. -/
def ownBumpIndex (elements : List (Element μ)) (txid : Txid) : Option Nat :=
  (elements.foldl (fun found element => match element with
    | .entry (.tx id bumpIndex) => if id = txid then some bumpIndex else found
    | .entry (.txidOnly id) => if id = txid then some none else found
    | .bump _ => found) none).join

/-- One element of the second pass of `own_proof`: the BUMPs seen, and the one wanted. -/
def ownProofStep (wanted : Nat) (seen : Nat × Option μ) : Element μ → Nat × Option μ
  | .bump path => (seen.1 + 1, if seen.1 = wanted then some path else seen.2)
  | .entry _ => seen

/-- `own_proof`, and `own_bump`. -/
def ownBump (elements : List (Element μ)) (txid : Txid) : Option μ :=
  (ownBumpIndex elements txid).bind fun wanted => (elements.foldl (ownProofStep wanted) (0, none)).2

namespace Sdk

variable (x : Sdk μ) (toHex : μ → String) (headers : Headers)

def answerOf (bump : μ) (txid : Txid) : RootAnswer :=
  ((x.computeRoot bump txid).map fun root => headers root (x.blockHeight bump)).getD .fault

/-- `spend_confirmed_height`, its header source a function. -/
def hookHeight (subject : Transaction) (beef : Beef μ) : Option Nat :=
  let spending : SpendingBeef μ := { subject, bumps := beef.bumps }
  (x.spendConfirmedHeight true spending subject.id (((x.findBump spending subject.id).map (x.answerOf headers · subject.id)).getD .fault)).1

def verifyProof (hex : String) (txid : Txid) : Bool :=
  decide ((x.verifyBumpOutcome true hex txid (((x.proofFromHex hex).map (x.answerOf headers · txid)).getD .fault)).1 = .valid)

/-- The fast path of `complete_pot_beef_latches`: the anchor it latches, from `own_bump_hex`. -/
def passHeight (beef : Beef μ) (txid : Txid) : Option Nat :=
  match (ownBump beef.elements txid).map toHex with
  | none => none
  | some hex => if x.verifyProof headers hex txid then (x.proofFromHex hex).map x.blockHeight else none

def stated (bump : μ) (txid : Txid) : Option (String × Nat) := (x.computeRoot bump txid).map fun root => (root, x.blockHeight bump)

def foundStated (beef : Beef μ) (txid : Txid) : Option (String × Nat) := (beef.bumps.find? fun b => x.hasLeaf b txid).bind (x.stated · txid)

def ownStated (beef : Beef μ) (txid : Txid) : Option (String × Nat) :=
  ((ownBump beef.elements txid).filter fun b => decide ((toHex b).utf8ByteSize ≤ courierProofMaxBytes * 2)).bind (x.stated · txid)

/-! ## What each of them latches -/

variable {x toHex headers}

def held (headers : Headers) (s : Option (String × Nat)) : Option Nat := (s.filter fun s => decide (headers s.1 s.2 = .ok true)).map Prod.snd

theorem hookHeight_eq (subject : Transaction) (beef : Beef μ) : x.hookHeight headers subject beef = held headers (x.foundStated beef subject.id) := by
  have hfound : x.foundStated beef subject.id = (x.findBump { subject, bumps := beef.bumps } subject.id).bind (x.stated · subject.id) := rfl
  rw [hfound]
  cases hfind : x.findBump { subject, bumps := beef.bumps } subject.id with
  | none =>
    simp only [hookHeight, spendConfirmedHeight, hfind]
    rfl
  | some bump =>
    simp only [hookHeight, spendConfirmedHeight, hfind, bumpVerifies, Option.map_some, Option.getD_some, Option.bind_some, answerOf, stated]
    cases x.computeRoot bump subject.id with
    | none => rfl
    | some root =>
      by_cases hroot : headers root (x.blockHeight bump) = .ok true
      · simp [held, hroot]
      · simp [held, hroot]

theorem of_eq_valid {answer : RootAnswer} : BumpVerdict.of answer = .valid ↔ answer = .ok true := by
  cases answer with
  | ok valid => cases valid <;> simp [BumpVerdict.of]
  | blockNotFound => simp [BumpVerdict.of]
  | fault => simp [BumpVerdict.of]

theorem passHeight_eq (hhex : ∀ b, x.proofFromHex (toHex b) = some b) (beef : Beef μ) (txid : Txid) :
    x.passHeight toHex headers beef txid = held headers (x.ownStated toHex beef txid) := by
  rw [passHeight, ownStated]
  cases ownBump beef.elements txid with
  | none => rfl
  | some bump =>
    simp only [Option.map_some, verifyProof, verifyBumpOutcome, merklePathFromHex, hhex, Option.getD_some, Option.filter_some]
    by_cases hfits : (toHex bump).utf8ByteSize ≤ courierProofMaxBytes * 2
    · simp only [Nat.not_lt.mpr hfits, if_false, hfits, decide_true, if_true, Option.bind_some, answerOf, stated]
      cases x.computeRoot bump txid with
      | none => rfl
      | some root =>
        by_cases hroot : headers root (x.blockHeight bump) = .ok true
        · simp [held, hroot, BumpVerdict.of]
        · simp [held, hroot, of_eq_valid]
    · simp [held, hfits, Nat.lt_of_not_le hfits]

/-! ## Where the two agree -/

def SameWord (headers : Headers) (a b : Option (String × Nat)) : Prop :=
  a = b ∨ (held headers a = none ∧ held headers b = none) ∨
    ∃ s t, a = some s ∧ b = some t ∧ s.2 = t.2 ∧ headers s.1 s.2 = .ok true ∧ headers t.1 t.2 = .ok true

variable {a b : Option (String × Nat)}

theorem held_eq_some {h : Nat} : held headers a = some h ↔ ∃ s, a = some s ∧ headers s.1 s.2 = .ok true ∧ s.2 = h := by
  simp [held, Option.map_eq_some_iff, Option.filter_eq_some_iff, and_assoc]

theorem held_eq_iff : held headers a = held headers b ↔ SameWord headers a b := by
  constructor
  · intro h
    cases ha : held headers a with
    | none => exact .inr (.inl ⟨ha, h ▸ ha⟩)
    | some height =>
      obtain ⟨s, hs, hsok, hsheight⟩ := held_eq_some.mp ha
      obtain ⟨t, ht, htok, htheight⟩ := held_eq_some.mp (h ▸ ha)
      exact .inr (.inr ⟨s, t, hs, ht, hsheight.trans htheight.symm, hsok, htok⟩)
  · intro h
    rcases h with rfl | ⟨ha, hb⟩ | ⟨s, t, rfl, rfl, hheight, hs, ht⟩
    · rfl
    · rw [ha, hb]
    · rw [held, held, Option.filter_some, Option.filter_some, decide_eq_true hs, decide_eq_true ht]
      simp [hheight]

def only (a : Option (String × Nat)) : Headers := fun root height => .ok (decide (a = some (root, height)))

theorem held_only : held (only a) b = (b.filter fun s => decide (a = some s)).map Prod.snd := by
  cases b <;> simp [held, only]

theorem eq_of_held_eq (h : ∀ headers, held headers a = held headers b) : a = b := by
  cases ha : a with
  | none =>
    cases hb : b with
    | none => rfl
    | some t =>
      have hother := h (only b)
      simp [held_only, ha, hb] at hother
  | some s =>
    have hown := h (only a)
    rw [held_only, held_only, ha, Option.filter_some] at hown
    cases hb : b with
    | none => simp [hb] at hown
    | some t =>
      by_cases hst : s = t
      · rw [hst]
      · rw [hb, Option.filter_some] at hown
        simp [hst] at hown

/-- The hook and the pass latch one height just where the header source answers one word on the BUMP that is first to contain the subject's
    id and on the subject's own; whatever the header source, just where the two state one root at one height. -/
theorem latches_agree (hhex : ∀ b, x.proofFromHex (toHex b) = some b) (subject : Transaction) (beef : Beef μ) :
    (∀ headers, x.hookHeight headers subject beef = x.passHeight toHex headers beef subject.id ↔
        SameWord headers (x.foundStated beef subject.id) (x.ownStated toHex beef subject.id)) ∧
      ((∀ headers, x.hookHeight headers subject beef = x.passHeight toHex headers beef subject.id) ↔
        x.foundStated beef subject.id = x.ownStated toHex beef subject.id) := by
  have hheld (headers : Headers) : x.hookHeight headers subject beef = x.passHeight toHex headers beef subject.id ↔
      held headers (x.foundStated beef subject.id) = held headers (x.ownStated toHex beef subject.id) := by
    rw [hookHeight_eq, passHeight_eq hhex]
  refine ⟨fun headers => (hheld headers).trans held_eq_iff, fun h => eq_of_held_eq fun headers => (hheld headers).mp (h headers), ?_⟩
  intro h headers
  rw [hheld headers, h]

/-! ## The own BUMP among the others -/

theorem ownProofStep_past {wanted seen : Nat} (h : wanted < seen) (bumps : List μ) (own : Option μ) :
    ((bumps.map Element.bump).foldl (ownProofStep wanted) (seen, own)).2 = own := by
  induction bumps generalizing seen with
  | nil => rfl
  | cons b rest ih =>
    rw [List.map_cons, List.foldl_cons, ownProofStep, if_neg (by simp only; omega)]
    exact ih (Nat.lt_succ_of_lt h)

theorem ownProofStep_bumps {wanted seen : Nat} (h : seen ≤ wanted) (bumps : List μ) :
    ((bumps.map Element.bump).foldl (ownProofStep wanted) (seen, none)).2 = bumps[wanted - seen]? := by
  induction bumps generalizing seen with
  | nil => rfl
  | cons b rest ih =>
    rw [List.map_cons, List.foldl_cons, ownProofStep]
    by_cases heq : seen = wanted
    · subst heq
      rw [if_pos rfl, ownProofStep_past (Nat.lt_succ_self seen), Nat.sub_self]
      rfl
    · have hindex : wanted - seen = (wanted - (seen + 1)) + 1 := by omega
      rw [if_neg heq, ih (by omega), hindex, List.getElem?_cons_succ]

theorem ownProofStep_entries (wanted : Nat) (txs : List Entry) (seen : Nat × Option μ) :
    (txs.map Element.entry).foldl (ownProofStep wanted) seen = seen := by
  induction txs with
  | nil => rfl
  | cons e rest ih => exact ih

theorem ownBump_eq (beef : Beef μ) (txid : Txid) : ownBump beef.elements txid = (ownBumpIndex beef.elements txid).bind fun i => beef.bumps[i]? := by
  rw [ownBump]
  refine Option.bind_congr fun wanted _ => ?_
  rw [Beef.elements, List.foldl_append, ownProofStep_entries]
  exact ownProofStep_bumps (Nat.zero_le wanted) beef.bumps

theorem agree_of_first {beef : Beef μ} {txid : Txid} {i : Nat} {own : μ} (hindex : ownBumpIndex beef.elements txid = some i)
    (hown : beef.bumps[i]? = some own) (hleaf : x.hasLeaf own txid = true) (hfits : (toHex own).utf8ByteSize ≤ courierProofMaxBytes * 2)
    (hfirst : ∀ b ∈ beef.bumps.take i, x.hasLeaf b txid = false) : x.foundStated beef txid = x.ownStated toHex beef txid := by
  have hfind : (beef.bumps.find? fun b => x.hasLeaf b txid) = some own := by
    obtain ⟨hlength, rfl⟩ := List.getElem?_eq_some_iff.mp hown
    have hsplit : beef.bumps = beef.bumps.take i ++ beef.bumps[i] :: beef.bumps.drop (i + 1) := by simp
    refine List.find?_eq_some_iff_append.mpr ⟨hleaf, _, _, hsplit, fun b hb => ?_⟩
    simp [hfirst b hb]
  rw [foundStated, ownStated, ownBump_eq, hindex, hfind, Option.bind_some, Option.bind_some, hown, Option.filter_some, decide_eq_true hfits]
  rfl

end Sdk

end

/-! ## Another BUMP before the own one -/

namespace OwnBump

inductive Path where
  | carrier
  | own
  deriving DecidableEq

def toHex : Path → String
  | .carrier => "00"
  | .own => "01"

def sdk : Sdk Path where
  fromHex _ := none
  proofFromHex hex := if hex = "00" then some .carrier else if hex = "01" then some .own else none
  hasLeaf _ _ := true
  computeRoot path _ := match path with
    | .carrier => some "aa"
    | .own => some "bb"
  blockHeight path := match path with
    | .carrier => 800000
    | .own => 900000
  isPotCovenantScript _ := false
  isP2pkhScript _ := false

theorem proofFromHex_toHex : ∀ b, sdk.proofFromHex (toHex b) = some b := by
  intro b
  cases b <;> decide

def subject : Transaction := { id := "11", inputs := [{ sourceTxid := some "22", sourceOutputIndex := 0 }], outputs := [] }

def moved : Beef Path := { bumps := [.carrier, .own], txs := [.tx "11" (some 1)] }
def plain : Beef Path := { bumps := [.own, .carrier], txs := [.tx "11" (some 0)] }

def chain : Headers := fun root height => .ok (root == "bb" && height == 900000)

end OwnBump

theorem latches_agree_plain : OwnBump.sdk.hookHeight OwnBump.chain OwnBump.subject OwnBump.plain =
    OwnBump.sdk.passHeight OwnBump.toHex OwnBump.chain OwnBump.plain OwnBump.subject.id :=
  (Sdk.latches_agree OwnBump.proofFromHex_toHex OwnBump.subject OwnBump.plain).2.mpr
    (Sdk.agree_of_first (i := 0) rfl rfl rfl (by decide) (by simp)) OwnBump.chain

/-- The hook reads the BUMP that comes first, and latches nothing where the subject's own BUMP verifies. -/
theorem latches_disagree : OwnBump.sdk.hookHeight OwnBump.chain OwnBump.subject OwnBump.moved = none ∧
    OwnBump.sdk.passHeight OwnBump.toHex OwnBump.chain OwnBump.moved OwnBump.subject.id = some 900000 := by decide

end OverlayEngine.Pot.SpendProof
