import Mathlib.Algebra.GroupWithZero.Nat
import Mathlib.Algebra.BigOperators.Group.List.Basic
import Mathlib.Tactic.Common

/-!
# A transaction's size and fee

`facts_from_atomic_beef` of `crates/overlay-discovery/src/tx_facts.rs`. The two
sums of satoshis meet the top of `u64` in different ways: the inputs' saturates,
the outputs' is `Iterator::sum`, which panics in a build that checks overflow
and wraps in one that does not.

Taken from outside: bsv-rs's `Beef`, its parse and its lookup by txid.
-/

namespace OverlayEngine.FeeFacts

abbrev Bytes := List UInt8

structure TxInput where
  sourceTxid : Option String
  sourceOutputIndex : UInt32

structure TxOutput where
  satoshis : Option UInt64

structure Transaction where
  inputs : List TxInput
  outputs : List TxOutput

structure BeefTx where
  tx : Option Transaction
  rawTx : Option Bytes

structure Sdk (Beef : Type) where
  parseBeef : Bytes → Except String Beef
  findTxid : Beef → String → Option BeefTx
  toBinary : Transaction → Bytes

structure TxFacts where
  sizeBytes : UInt64
  feeSats : Option UInt64
  deriving DecidableEq

def saturatingAdd (a b : UInt64) : UInt64 := if a.toNat + b.toNat < 2 ^ 64 then a + b else UInt64.ofNat (2 ^ 64 - 1)

/-- `Iterator::sum`, in a build that checks overflow or not; `none`: it panics. -/
def sumU64 (checked : Bool) : List UInt64 → UInt64 → Option UInt64
  | [], acc => some acc
  | v :: vs, acc => if checked && decide (2 ^ 64 ≤ acc.toNat + v.toNat) then none else sumU64 checked vs (acc + v)

variable {Beef : Type} (sdk : Sdk Beef)

def sourceValue (beef : Beef) (input : TxInput) : Option UInt64 := do
  let srcTxid ← input.sourceTxid
  let found ← sdk.findTxid beef srcTxid
  let src ← found.tx
  let output ← src.outputs[input.sourceOutputIndex.toNat]?
  output.satoshis

/-- The inputs' loop; `none`: it broke at an input whose source is not in the body. -/
def addInputs (beef : Beef) : List TxInput → UInt64 → Option UInt64
  | [], inSum => some inSum
  | input :: rest, inSum =>
    match sourceValue sdk beef input with
    | none => none
    | some value => addInputs beef rest (saturatingAdd inSum value)

def outputValues (tx : Transaction) : List UInt64 := tx.outputs.map fun o => o.satoshis.getD 0

/-- The outer `none`: it panics. -/
def factsFromAtomicBeef (checked : Bool) (atomicBeef : Bytes) (txid : String) : Option (Option TxFacts) :=
  match sdk.parseBeef atomicBeef with
  | .error _ => some none
  | .ok beef =>
    match sdk.findTxid beef txid with
    | none => some none
    | some subject =>
      match subject.tx with
      | none => some none
      | some tx =>
        let sizeBytes := UInt64.ofNat ((subject.rawTx.getD (sdk.toBinary tx)).length)
        match sumU64 checked (outputValues tx) 0 with
        | none => none
        | some outSum =>
          let inSum := if tx.inputs.isEmpty then none else addInputs sdk beef tx.inputs 0
          some (some ⟨sizeBytes, inSum.bind fun inSum => if outSum ≤ inSum then some (inSum - outSum) else none⟩)

/-! ## The sums -/

def total (values : List UInt64) : Nat := (values.map UInt64.toNat).sum

@[simp] theorem total_nil : total [] = 0 := rfl

@[simp] theorem total_cons (v : UInt64) (vs : List UInt64) : total (v :: vs) = v.toNat + total vs := rfl

theorem toNat_saturatingAdd (a b : UInt64) : (saturatingAdd a b).toNat = min (a.toNat + b.toNat) (2 ^ 64 - 1) := by
  unfold saturatingAdd
  split
  case isTrue h =>
    rw [UInt64.toNat_add, Nat.mod_eq_of_lt h]
    omega
  case isFalse h =>
    rw [UInt64.toNat_ofNat']
    omega

theorem sumU64_checked (vs : List UInt64) (acc : UInt64) :
    (∀ sum, sumU64 true vs acc = some sum → sum.toNat = acc.toNat + total vs) ∧
      ((sumU64 true vs acc).isSome = true ↔ acc.toNat + total vs < 2 ^ 64) := by
  induction vs generalizing acc with
  | nil =>
    refine ⟨fun sum h => ?_, ?_⟩
    · cases h
      rfl
    · simpa [sumU64] using acc.toNat_lt
  | cons v vs ih =>
    obtain ⟨hvalue, hsome⟩ := ih (acc + v)
    by_cases hlarge : 2 ^ 64 ≤ acc.toNat + v.toNat
    · have hnone : sumU64 true (v :: vs) acc = none := by
        rw [sumU64, if_pos]
        exact decide_eq_true hlarge
      rw [hnone, total_cons]
      refine ⟨fun sum h => (by cases h), fun h => (by cases h), fun h => ?_⟩
      omega
    · have hstep : sumU64 true (v :: vs) acc = sumU64 true vs (acc + v) := by
        rw [sumU64, if_neg]
        exact fun h => hlarge (of_decide_eq_true h)
      have hadd : (acc + v).toNat = acc.toNat + v.toNat := by
        rw [UInt64.toNat_add]
        exact Nat.mod_eq_of_lt (Nat.lt_of_not_le hlarge)
      rw [hadd] at hvalue hsome
      rw [hstep, total_cons, ← Nat.add_assoc]
      exact ⟨hvalue, hsome⟩

theorem sumU64_wrapping (vs : List UInt64) (acc : UInt64) :
    ∃ sum, sumU64 false vs acc = some sum ∧ sum.toNat = (acc.toNat + total vs) % 2 ^ 64 := by
  induction vs generalizing acc with
  | nil => exact ⟨acc, rfl, (Nat.mod_eq_of_lt acc.toNat_lt).symm⟩
  | cons v vs ih =>
    obtain ⟨sum, hsum, hvalue⟩ := ih (acc + v)
    refine ⟨sum, hsum, ?_⟩
    rw [hvalue, total_cons, UInt64.toNat_add]
    omega

def inputValues (beef : Beef) (inputs : List TxInput) : Option (List UInt64) := inputs.mapM (sourceValue sdk beef)

variable {sdk}

theorem inputValues_cons (beef : Beef) (input : TxInput) (rest : List TxInput) :
    inputValues sdk beef (input :: rest) = (sourceValue sdk beef input).bind fun v => (inputValues sdk beef rest).map (v :: ·) := by
  simp only [inputValues, List.mapM_cons]
  cases sourceValue sdk beef input with
  | none => rfl
  | some v => cases rest.mapM (sourceValue sdk beef) <;> rfl

theorem addInputs_eq (sdk : Sdk Beef) (beef : Beef) (inputs : List TxInput) (inSum : UInt64) :
    (addInputs sdk beef inputs inSum).map UInt64.toNat =
      (inputValues sdk beef inputs).map fun values => min (inSum.toNat + total values) (2 ^ 64 - 1) := by
  induction inputs generalizing inSum with
  | nil =>
    have hlt := inSum.toNat_lt
    simp only [addInputs, inputValues, List.mapM_nil, Option.map_some]
    show some inSum.toNat = some (min (inSum.toNat + 0) (2 ^ 64 - 1))
    congr 1
    omega
  | cons input rest ih =>
    rw [inputValues_cons, addInputs]
    cases sourceValue sdk beef input with
    | none => rfl
    | some v =>
      simp only [Option.bind_some, Option.map_map]
      rw [ih, toNat_saturatingAdd]
      congr 1
      funext values
      simp only [Function.comp_apply, total_cons]
      omega

/-! ## The fee -/

structure Subject (sdk : Sdk Beef) (atomicBeef : Bytes) (txid : String) (beef : Beef) (tx : Transaction) : Prop where
  parses : sdk.parseBeef atomicBeef = .ok beef
  carries : ∃ subject, sdk.findTxid beef txid = some subject ∧ subject.tx = some tx

def FeeExact (sdk : Sdk Beef) (checked : Bool) (atomicBeef : Bytes) (txid : String) : Prop :=
  ∃ facts, factsFromAtomicBeef sdk checked atomicBeef txid = some facts ∧ ∀ t fee, facts = some t → t.feeSats = some fee →
    ∃ beef tx values, Subject sdk atomicBeef txid beef tx ∧ inputValues sdk beef tx.inputs = some values ∧
      (fee.toNat : Int) = (total values : Int) - (total (outputValues tx) : Int)

def SumsAgree (checked : Bool) (ins outs : Nat) : Prop :=
  if checked then ins < 2 ^ 64 else min ins (2 ^ 64 - 1) < outs % 2 ^ 64 ∨ ins - min ins (2 ^ 64 - 1) = outs - outs % 2 ^ 64

/-- The outputs' sum fits `u64` where overflow is checked, and where each input's value is in the body the two sums agree. -/
def SumsFit (sdk : Sdk Beef) (checked : Bool) (beef : Beef) (tx : Transaction) : Prop :=
  (checked = true → total (outputValues tx) < 2 ^ 64) ∧ (tx.inputs ≠ [] → ∀ values, inputValues sdk beef tx.inputs = some values →
    SumsAgree checked (total values) (total (outputValues tx)))

def feeOf (sdk : Sdk Beef) (checked : Bool) (beef : Beef) (tx : Transaction) : Option (Option UInt64) :=
  (sumU64 checked (outputValues tx) 0).map fun outSum =>
    (if tx.inputs.isEmpty then none else addInputs sdk beef tx.inputs 0).bind fun inSum => if outSum ≤ inSum then some (inSum - outSum) else none

variable {atomicBeef : Bytes} {txid : String} {beef : Beef} {tx : Transaction}

theorem facts_of_subject (checked : Bool)
    (h : Subject sdk atomicBeef txid beef tx) :
    ∃ size, factsFromAtomicBeef sdk checked atomicBeef txid = (feeOf sdk checked beef tx).map fun fee => some ⟨size, fee⟩ := by
  obtain ⟨hparses, subject, hfound, htx⟩ := h
  refine ⟨UInt64.ofNat ((subject.rawTx.getD (sdk.toBinary tx)).length), ?_⟩
  simp only [factsFromAtomicBeef, hparses, hfound, htx, feeOf]
  cases sumU64 checked (outputValues tx) 0 <;> rfl

variable {checked : Bool}

theorem facts_of_no_subject (h : ¬ ∃ beef tx, Subject sdk atomicBeef txid beef tx) :
    factsFromAtomicBeef sdk checked atomicBeef txid = some none := by
  unfold factsFromAtomicBeef
  cases hparses : sdk.parseBeef atomicBeef with
  | error e => rfl
  | ok beef =>
    cases hfound : sdk.findTxid beef txid with
    | none => simp only [hfound]
    | some subject =>
      cases htx : subject.tx with
      | none => simp only [hfound, htx]
      | some tx => exact absurd ⟨beef, tx, hparses, subject, hfound, htx⟩ h

theorem Subject.unique {beef beef' : Beef} {tx' : Transaction} (h : Subject sdk atomicBeef txid beef tx)
    (h' : Subject sdk atomicBeef txid beef' tx') : beef' = beef ∧ tx' = tx := by
  obtain ⟨hparses, subject, hfound, htx⟩ := h
  obtain ⟨hparses', subject', hfound', htx'⟩ := h'
  rw [hparses] at hparses'
  cases hparses'
  rw [hfound] at hfound'
  cases hfound'
  rw [htx] at htx'
  cases htx'
  exact ⟨rfl, rfl⟩

variable {outSum inSum : UInt64}

theorem sum_outputs {values : List UInt64} (h : sumU64 checked values 0 = some outSum) :
    outSum.toNat = total values % 2 ^ 64 ∧ (checked = true → total values < 2 ^ 64) := by
  cases checked with
  | true =>
    have hsum := (sumU64_checked values 0).1 outSum h
    rw [UInt64.toNat_zero, Nat.zero_add] at hsum
    have hlt := outSum.toNat_lt
    rw [hsum] at hlt
    exact ⟨by rw [hsum, Nat.mod_eq_of_lt hlt], fun _ => hlt⟩
  | false =>
    obtain ⟨sum, hsum, hvalue⟩ := sumU64_wrapping values 0
    rw [hsum] at h
    cases h
    rw [UInt64.toNat_zero, Nat.zero_add] at hvalue
    exact ⟨hvalue, fun h => (by cases h)⟩

theorem sum_inputs {inputs : List TxInput} (h : addInputs sdk beef inputs 0 = some inSum) :
    ∃ values, inputValues sdk beef inputs = some values ∧ inSum.toNat = min (total values) (2 ^ 64 - 1) := by
  have heq := addInputs_eq sdk beef inputs 0
  rw [h, Option.map_some] at heq
  obtain ⟨values, hvalues, hmin⟩ := Option.map_eq_some_iff.mp heq.symm
  rw [UInt64.toNat_zero, Nat.zero_add] at hmin
  exact ⟨values, hvalues, hmin.symm⟩

theorem fee_agrees {ins outs : Nat} (hin : inSum.toNat = min ins (2 ^ 64 - 1))
    (hout : outSum.toNat = outs % 2 ^ 64) (hfits : checked = true → outs < 2 ^ 64) :
    (outSum ≤ inSum → ((inSum - outSum).toNat : Int) = (ins : Int) - (outs : Int)) ↔ SumsAgree checked ins outs := by
  have hmod : outs % 2 ^ 64 ≤ outs := Nat.mod_le _ _
  have hle : outSum ≤ inSum ↔ outs % 2 ^ 64 ≤ min ins (2 ^ 64 - 1) := by rw [UInt64.le_iff_toNat_le, hin, hout]
  have hsub (h : outSum ≤ inSum) : (inSum - outSum).toNat = min ins (2 ^ 64 - 1) - outs % 2 ^ 64 := by
    rw [UInt64.toNat_sub_of_le _ _ h, hin, hout]
  constructor
  · intro hfee
    unfold SumsAgree
    cases checked with
    | true =>
      have houts := hfits rfl
      rw [Nat.mod_eq_of_lt houts] at hle hsub
      by_cases hlow : outs ≤ min ins (2 ^ 64 - 1)
      · have hfee := hfee (hle.mpr hlow)
        rw [hsub (hle.mpr hlow)] at hfee
        simp only [if_true]
        omega
      · simp only [if_true]
        omega
    | false =>
      simp only [Bool.false_eq_true, if_false]
      by_cases hlow : outs % 2 ^ 64 ≤ min ins (2 ^ 64 - 1)
      · have hfee := hfee (hle.mpr hlow)
        rw [hsub (hle.mpr hlow)] at hfee
        omega
      · exact .inl (Nat.lt_of_not_le hlow)
  · intro hagree hlow
    rw [hsub hlow]
    have hlow := hle.mp hlow
    unfold SumsAgree at hagree
    cases checked with
    | true =>
      have houts := hfits rfl
      rw [if_pos rfl] at hagree
      rw [Nat.mod_eq_of_lt houts] at hlow ⊢
      omega
    | false =>
      simp only [Bool.false_eq_true, if_false] at hagree
      omega

theorem fits_of_exact
    (hsubject : Subject sdk atomicBeef txid beef tx) (h : FeeExact sdk checked atomicBeef txid) : SumsFit sdk checked beef tx := by
  obtain ⟨size, hfacts⟩ := facts_of_subject checked hsubject
  obtain ⟨facts, hcall, hexact⟩ := h
  rw [hfacts, feeOf] at hcall
  cases hsum : sumU64 checked (outputValues tx) 0 with
  | none =>
    rw [hsum] at hcall
    cases hcall
  | some outSum =>
    rw [hsum] at hcall
    obtain ⟨hout, hfits⟩ := sum_outputs hsum
    refine ⟨hfits, fun hinputs values hvalues => ?_⟩
    have hempty : tx.inputs.isEmpty = false := by simpa using hinputs
    have hmap := addInputs_eq sdk beef tx.inputs 0
    rw [hvalues, Option.map_some] at hmap
    obtain ⟨inSum, hins, -⟩ := Option.map_eq_some_iff.mp hmap
    obtain ⟨values', hvalues', hin⟩ := sum_inputs hins
    rw [hvalues] at hvalues'
    cases hvalues'
    refine (fee_agrees hin hout hfits).mp fun hle => ?_
    simp only [hempty, Bool.false_eq_true, if_false, hins, Option.map_some, Option.bind_some, if_pos hle, Option.some_inj] at hcall
    obtain ⟨beef', tx', values', hsubject', hvalues', hfee⟩ := hexact _ _ hcall.symm rfl
    obtain ⟨rfl, rfl⟩ := hsubject.unique hsubject'
    rw [hvalues] at hvalues'
    cases hvalues'
    exact hfee

theorem exact_of_fits
    (hsubject : Subject sdk atomicBeef txid beef tx) (h : SumsFit sdk checked beef tx) : FeeExact sdk checked atomicBeef txid := by
  obtain ⟨size, hfacts⟩ := facts_of_subject checked hsubject
  obtain ⟨hfits, hagree⟩ := h
  have hreturns : ∃ outSum, sumU64 checked (outputValues tx) 0 = some outSum := by
    cases checked with
    | true =>
      refine Option.isSome_iff_exists.mp ((sumU64_checked (outputValues tx) 0).2.mpr ?_)
      rw [UInt64.toNat_zero, Nat.zero_add]
      exact hfits rfl
    | false =>
      obtain ⟨sum, hsum, -⟩ := sumU64_wrapping (outputValues tx) 0
      exact ⟨sum, hsum⟩
  obtain ⟨outSum, hsum⟩ := hreturns
  obtain ⟨hout, -⟩ := sum_outputs hsum
  rw [FeeExact, hfacts, feeOf, hsum]
  refine ⟨_, rfl, fun t fee ht hfee => ?_⟩
  cases ht
  cases hempty : tx.inputs.isEmpty with
  | true =>
    rw [hempty] at hfee
    cases hfee
  | false =>
    simp only [hempty, Bool.false_eq_true, if_false] at hfee
    cases hins : addInputs sdk beef tx.inputs 0 with
    | none =>
      rw [hins] at hfee
      cases hfee
    | some inSum =>
      rw [hins, Option.bind_some] at hfee
      obtain ⟨values, hvalues, hin⟩ := sum_inputs hins
      have hne : tx.inputs ≠ [] := by simpa using hempty
      split at hfee
      · cases hfee
        exact ⟨beef, tx, values, hsubject, hvalues, (fee_agrees hin hout hfits).mpr (hagree hne values hvalues) ‹_›⟩
      · cases hfee

/-- A fee is exact, and the call returns, exactly where the subject's sums fit. -/
theorem fee_exact_iff (sdk : Sdk Beef) (checked : Bool) (atomicBeef : Bytes) (txid : String) :
    FeeExact sdk checked atomicBeef txid ↔ ∀ beef tx, Subject sdk atomicBeef txid beef tx → SumsFit sdk checked beef tx := by
  refine ⟨fun h beef tx hsubject => fits_of_exact hsubject h, fun hfit => ?_⟩
  by_cases hsubject : ∃ beef tx, Subject sdk atomicBeef txid beef tx
  · obtain ⟨beef, tx, hsubject⟩ := hsubject
    exact exact_of_fits hsubject (hfit beef tx hsubject)
  · exact ⟨none, facts_of_no_subject hsubject, fun t fee h => (by cases h)⟩

/-! 8785 inputs of 21 million coins each pass `u64`, though no transaction's own values pass 21 million coins. -/

namespace Saturated

/-- The satoshis of 21 million coins: the parser refuses a transaction whose outputs pass them. -/
def allCoins : UInt64 := 2100000000000000

def parentId (i : Nat) : String := String.ofList (List.replicate (i + 1) 'p')

def parent (i : Nat) : Transaction := ⟨[⟨some (String.ofList (List.replicate (i + 1) 'g')), 0⟩], [⟨some allCoins⟩]⟩

def child : Transaction := ⟨(List.range 8785).map fun i => ⟨some (parentId i), 0⟩, [⟨some allCoins⟩]⟩

def body : List (String × Transaction) := ((List.range 8785).map fun i => (parentId i, parent i)) ++ [("c", child)]

def reader : Sdk (List (String × Transaction)) where
  parseBeef bytes :=
    if bytes = [1] then
      if body.all fun e => total (outputValues e.2) ≤ allCoins.toNat then .ok body else .error "ValueOutOfRange"
    else .error "BadVersion"
  findTxid beef txid := (beef.find? fun e => e.1 == txid).map fun e => ⟨some e.2, none⟩
  toBinary _ := []

theorem parentId_ne (i : Nat) : parentId i ≠ "c" := by
  intro h
  have hlist := congrArg String.toList h
  rw [parentId, String.toList_ofList, List.replicate_succ] at hlist
  exact absurd (List.cons.inj hlist).1 (by decide)

theorem outputs_of_mem {e : String × Transaction} (he : e ∈ body) : e.2.outputs = [⟨some allCoins⟩] := by
  rcases List.mem_append.mp he with he | he
  · obtain ⟨i, -, rfl⟩ := List.mem_map.mp he
    rfl
  · rw [List.mem_singleton.mp he]
    rfl

theorem parses : reader.parseBeef [1] = .ok body := by
  have hall : body.all (fun e => total (outputValues e.2) ≤ allCoins.toNat) = true := by
    refine List.all_eq_true.mpr fun e he => ?_
    rw [outputValues, outputs_of_mem he]
    decide
  simp only [reader, if_true, hall]

theorem subject : Subject reader [1] "c" body child := by
  refine ⟨parses, ⟨some child, none⟩, ?_, rfl⟩
  have hnone : ((List.range 8785).map fun i => (parentId i, parent i)).find? (fun e => e.1 == "c") = none := by
    refine List.find?_eq_none.mpr fun e he => ?_
    obtain ⟨i, -, rfl⟩ := List.mem_map.mp he
    simpa using parentId_ne i
  simp only [reader, body, List.find?_append, hnone]
  rfl

theorem sourceValue_parent {i : Nat} (hi : i < 8785) : sourceValue reader body ⟨some (parentId i), 0⟩ = some allCoins := by
  have hmem : (parentId i, parent i) ∈ body := List.mem_append_left _ (List.mem_map_of_mem (List.mem_range.mpr hi))
  cases hfind : body.find? fun e => e.1 == parentId i with
  | none => exact absurd (beq_self_eq_true (parentId i)) (List.find?_eq_none.mp hfind _ hmem)
  | some e =>
    have hout := outputs_of_mem (List.mem_of_find?_eq_some hfind)
    simp only [sourceValue, reader, hfind, Option.map_some, Option.bind_eq_bind, Option.bind_some, hout]
    rfl

theorem inputValues_parents (first n : Nat) (h : first + n ≤ 8785) :
    inputValues reader body ((List.range' first n).map fun i => ⟨some (parentId i), 0⟩) = some (List.replicate n allCoins) := by
  induction n generalizing first with
  | zero => rfl
  | succ n ih =>
    rw [List.range'_succ, List.map_cons, inputValues_cons, sourceValue_parent (by omega), ih (first + 1) (by omega)]
    rfl

theorem inputValues_child : inputValues reader body child.inputs = some (List.replicate 8785 allCoins) := by
  rw [child, List.range_eq_range']
  exact inputValues_parents 0 8785 (by omega)

theorem total_replicate (n : Nat) (v : UInt64) : total (List.replicate n v) = n * v.toNat := by
  rw [total, List.map_replicate, List.sum_replicate_nat]

end Saturated

/-- Neither build's fee is exact: the inputs' sum is cut at `u64::MAX`. -/
theorem saturated_fee : ¬FeeExact Saturated.reader true [1] "c" ∧ ¬FeeExact Saturated.reader false [1] "c" := by
  have hfits {checked : Bool} (h : FeeExact Saturated.reader checked [1] "c") :
      SumsAgree checked (8785 * 2100000000000000) 2100000000000000 := by
    have hne : Saturated.child.inputs ≠ [] := by simp [Saturated.child]
    have hagree := (fits_of_exact Saturated.subject h).2 hne _ Saturated.inputValues_child
    rwa [Saturated.total_replicate] at hagree
  refine ⟨fun h => ?_, fun h => ?_⟩
  · have hlow : 8785 * 2100000000000000 < 2 ^ 64 := hfits h
    exact absurd hlow (by decide)
  · have hcut := hfits h
    simp [SumsAgree] at hcut

end OverlayEngine.FeeFacts
