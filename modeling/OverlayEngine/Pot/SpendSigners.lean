import Mathlib.Data.List.Basic
import OverlayEngine.Basis.PushWalk

/-!
# The signers of a pot's spend

A covenant pot is spent by two of its three keys. `classify_spend_signers` takes
every push of the unlocking script for a signature, the first sixteen at most, and
names the first pair of keys, in lock order, that two of them verify under.

Taken from outside: the transaction's parse, its BIP-143 digest, and the check of
a DER signature under a key.
-/

namespace OverlayEngine.SpendSigners

open PushWalk

abbrev Bytes := List UInt8
abbrev Key := Vector UInt8 33
abbrev Digest := Vector UInt8 32

inductive SettleSigners where
  | coop
  | towerA
  | towerB
  deriving DecidableEq

structure Params where
  pubA : Key
  pubB : Key
  pubTower : Key

structure TxInput where
  script : Bytes

structure Transaction where
  inputs : List TxInput

structure Sdk where
  parseTransaction : Bytes → Option Transaction
  sighash : Transaction → Nat → Bytes → UInt64 → Digest
  verifies : Key → Digest → Bytes → Bool

def maxSigCandidates : Nat := 16

def derOf (push : Bytes) : Option Bytes := if push.dropLast.isEmpty then none else some push.dropLast

def candidates (script : Bytes) : List Bytes := ((readPushes script).filterMap derOf).take maxSigCandidates

/-- Two places of `ders`, one that `p` takes and another that `q` takes. -/
def pairSigned (ders : List Bytes) (p q : Bytes → Bool) : Bool :=
  ders.zipIdx.any fun a => p a.1 && ders.zipIdx.any fun b => b.2 != a.2 && q b.1

def scan (sdk : Sdk) (params : Params) (digest : Digest) (ders : List Bytes) : Option SettleSigners :=
  if ders.length < 2 then none
  else if pairSigned ders (sdk.verifies params.pubA digest) (sdk.verifies params.pubB digest) then some .coop
  else if pairSigned ders (sdk.verifies params.pubA digest) (sdk.verifies params.pubTower digest) then some .towerA
  else if pairSigned ders (sdk.verifies params.pubB digest) (sdk.verifies params.pubTower digest) then some .towerB
  else none

def signersOf (sdk : Sdk) (params : Params) (digest : Digest) (script : Bytes) : Option SettleSigners := scan sdk params digest (candidates script)

def classifySpendSigners (sdk : Sdk) (params : Params) (fundingLock : Bytes) (potSats : UInt64) (spenderRaw : Bytes) (potInputIndex : Nat) :
    Option SettleSigners :=
  (sdk.parseTransaction spenderRaw).bind fun parsed => parsed.inputs[potInputIndex]?.bind fun input =>
    signersOf sdk params (sdk.sighash parsed potInputIndex fundingLock potSats) input.script

/-! ## The pairs -/

namespace SettleSigners

def keys (params : Params) : SettleSigners → Key × Key
  | coop => (params.pubA, params.pubB)
  | towerA => (params.pubA, params.pubTower)
  | towerB => (params.pubB, params.pubTower)

def earlier : SettleSigners → List SettleSigners
  | coop => []
  | towerA => [coop]
  | towerB => [coop, towerA]

end SettleSigners

section
variable (sdk : Sdk) (params : Params) (digest : Digest)

/-- The pushes at `a` and `b` verify, one under each key of the pair. -/
def SignsAt (ders : List Bytes) (s : SettleSigners) (a b : Nat) : Prop :=
  a ≠ b ∧ (∃ x, ders[a]? = some x ∧ sdk.verifies (s.keys params).1 digest x = true) ∧
    ∃ y, ders[b]? = some y ∧ sdk.verifies (s.keys params).2 digest y = true

def Signs (ders : List Bytes) (s : SettleSigners) : Prop := ∃ a b, SignsAt sdk params digest ders s a b

def FirstSigns (ders : List Bytes) (s : SettleSigners) : Prop :=
  Signs sdk params digest ders s ∧ ∀ s' ∈ s.earlier, ¬ Signs sdk params digest ders s'

variable {sdk params digest} {ders : List Bytes}

theorem pairSigned_iff {p q : Bytes → Bool} : pairSigned ders p q = true ↔
    ∃ a b : Nat, a ≠ b ∧ (∃ x, ders[a]? = some x ∧ p x = true) ∧ ∃ y, ders[b]? = some y ∧ q y = true := by
  simp only [pairSigned, List.any_eq_true, Bool.and_eq_true, bne_iff_ne]
  constructor
  · rintro ⟨⟨x, a⟩, ha, hp, ⟨y, b⟩, hb, hne, hq⟩
    exact ⟨a, b, hne.symm, ⟨x, List.mem_zipIdx_iff_getElem?.mp ha, hp⟩, y, List.mem_zipIdx_iff_getElem?.mp hb, hq⟩
  · rintro ⟨a, b, hne, ⟨x, ha, hp⟩, y, hb, hq⟩
    exact ⟨(x, a), List.mem_zipIdx_iff_getElem?.mpr ha, hp, (y, b), List.mem_zipIdx_iff_getElem?.mpr hb, hne.symm, hq⟩

variable {s : SettleSigners}

theorem Signs.two_le (h : Signs sdk params digest ders s) : 2 ≤ ders.length := by
  obtain ⟨a, b, hne, ⟨x, ha, -⟩, y, hb, -⟩ := h
  have ha := (List.getElem?_eq_some_iff.mp ha).1
  have hb := (List.getElem?_eq_some_iff.mp hb).1
  omega

theorem scan_eq_some : scan sdk params digest ders = some s ↔ FirstSigns sdk params digest ders s := by
  have hcoop : pairSigned ders (sdk.verifies params.pubA digest) (sdk.verifies params.pubB digest) = true ↔ Signs sdk params digest ders .coop :=
    pairSigned_iff
  have htowerA : pairSigned ders (sdk.verifies params.pubA digest) (sdk.verifies params.pubTower digest) = true ↔
      Signs sdk params digest ders .towerA := pairSigned_iff
  have htowerB : pairSigned ders (sdk.verifies params.pubB digest) (sdk.verifies params.pubTower digest) = true ↔
      Signs sdk params digest ders .towerB := pairSigned_iff
  unfold scan
  by_cases hfew : ders.length < 2
  · rw [if_pos hfew]
    refine ⟨fun h => (by cases h), fun h => ?_⟩
    have := h.1.two_le
    omega
  · rw [if_neg hfew]
    by_cases hc : Signs sdk params digest ders .coop
    · rw [if_pos (hcoop.mpr hc)]
      cases s <;> simp [FirstSigns, SettleSigners.earlier, hc]
    · rw [if_neg (mt hcoop.mp hc)]
      by_cases ha : Signs sdk params digest ders .towerA
      · rw [if_pos (htowerA.mpr ha)]
        cases s <;> simp [FirstSigns, SettleSigners.earlier, hc, ha]
      · rw [if_neg (mt htowerA.mp ha)]
        by_cases hb : Signs sdk params digest ders .towerB
        · rw [if_pos (htowerB.mpr hb)]
          cases s <;> simp [FirstSigns, SettleSigners.earlier, hc, ha, hb]
        · rw [if_neg (mt htowerB.mp hb)]
          cases s <;> simp [FirstSigns, hc, ha, hb]

theorem classify_eq_some {fundingLock spenderRaw : Bytes} {potSats : UInt64} {potInputIndex : Nat} :
    classifySpendSigners sdk params fundingLock potSats spenderRaw potInputIndex = some s ↔
      ∃ tx input, sdk.parseTransaction spenderRaw = some tx ∧ tx.inputs[potInputIndex]? = some input ∧
        FirstSigns sdk params (sdk.sighash tx potInputIndex fundingLock potSats) (candidates input.script) s := by
  simp only [classifySpendSigners, signersOf, Option.bind_eq_some_iff, scan_eq_some]
  exact exists_congr fun tx => ⟨fun ⟨hparse, input, hinput, h⟩ => ⟨input, hparse, hinput, h⟩, fun ⟨input, hparse, hinput, h⟩ => ⟨hparse, input, hinput, h⟩⟩

/-! ## Padding -/

/-- Where the place `k` goes when `added` are put in at `at_`. -/
def shifted (at_ added k : Nat) : Nat := if k < at_ then k else k + added

theorem shifted_inj {at_ added a b : Nat} (h : shifted at_ added a = shifted at_ added b) : a = b := by
  unfold shifted at h
  split at h <;> split at h <;> omega

theorem getElem?_shifted (front junk back : List Bytes) (k : Nat) :
    (front ++ junk ++ back)[shifted front.length junk.length k]? = (front ++ back)[k]? := by
  unfold shifted
  split
  · rename_i hk
    rw [List.append_assoc, List.getElem?_append_left hk, List.getElem?_append_left hk]
  · rename_i hk
    rw [List.getElem?_append_right (by rw [List.length_append]; omega), List.getElem?_append_right (by omega), List.length_append]
    congr 1
    omega

theorem getElem?_take_some {n k : Nat} {x : Bytes} : (ders.take n)[k]? = some x ↔ k < n ∧ ders[k]? = some x := by
  rw [List.getElem?_take]
  split
  · rename_i hk
    exact ⟨fun h => ⟨hk, h⟩, And.right⟩
  · rename_i hk
    exact ⟨fun h => (by cases h), fun h => absurd h.1 hk⟩

theorem unshifted (front junk back : List Bytes) {k : Nat} {x : Bytes} (h : (front ++ junk ++ back)[k]? = some x) (hx : x ∉ junk) :
    ∃ k', shifted front.length junk.length k' = k ∧ k' ≤ k ∧ (front ++ back)[k']? = some x := by
  by_cases hfront : k < front.length
  · refine ⟨k, if_pos hfront, Nat.le_refl k, ?_⟩
    rw [List.append_assoc, List.getElem?_append_left hfront] at h
    rw [List.getElem?_append_left hfront, h]
  · by_cases hjunk : k < (front ++ junk).length
    · rw [List.getElem?_append_left hjunk, List.getElem?_append_right (by omega)] at h
      exact absurd (List.mem_of_getElem? h) hx
    · rw [List.length_append] at hjunk
      have hk : shifted front.length junk.length (k - junk.length) = k := by
        rw [shifted, if_neg (by omega)]
        omega
      refine ⟨k - junk.length, hk, Nat.sub_le _ _, ?_⟩
      rw [← getElem?_shifted front junk back, hk, h]

variable {front junk back : List Bytes} (hjunk : ∀ x ∈ junk, ∀ key ∈ [params.pubA, params.pubB, params.pubTower], sdk.verifies key digest x = false)
include hjunk

theorem signs_of_padded {n : Nat} (h : Signs sdk params digest ((front ++ junk ++ back).take n) s) :
    Signs sdk params digest ((front ++ back).take n) s := by
  have hout (key : Key) (hkey : key ∈ [params.pubA, params.pubB, params.pubTower]) (k : Nat) (x : Bytes)
      (hx : ((front ++ junk ++ back).take n)[k]? = some x) (hv : sdk.verifies key digest x = true) :
      ∃ k', shifted front.length junk.length k' = k ∧ ((front ++ back).take n)[k']? = some x := by
    rw [getElem?_take_some] at hx
    have hnot : x ∉ junk := fun hin => by rw [hjunk x hin key hkey] at hv; cases hv
    obtain ⟨k', hk', hle, hsome⟩ := unshifted front junk back hx.2 hnot
    exact ⟨k', hk', getElem?_take_some.mpr ⟨by omega, hsome⟩⟩
  have hfirst : (s.keys params).1 ∈ [params.pubA, params.pubB, params.pubTower] := by cases s <;> simp [SettleSigners.keys]
  have hsecond : (s.keys params).2 ∈ [params.pubA, params.pubB, params.pubTower] := by cases s <;> simp [SettleSigners.keys]
  obtain ⟨a, b, hne, ⟨x, ha, hxv⟩, y, hb, hyv⟩ := h
  obtain ⟨a', rfl, ha'⟩ := hout _ hfirst a x ha hxv
  obtain ⟨b', rfl, hb'⟩ := hout _ hsecond b y hb hyv
  exact ⟨a', b', fun heq => hne (congrArg _ heq), ⟨x, ha', hxv⟩, y, hb', hyv⟩

theorem scan_padded {n : Nat} (hstay : ∀ s, FirstSigns sdk params digest ((front ++ back).take n) s → ∃ a b,
      SignsAt sdk params digest ((front ++ back).take n) s a b ∧ shifted front.length junk.length a < n ∧ shifted front.length junk.length b < n) :
    scan sdk params digest ((front ++ junk ++ back).take n) = scan sdk params digest ((front ++ back).take n) := by
  apply Option.ext
  intro s
  rw [scan_eq_some, scan_eq_some]
  have hkept (s : SettleSigners) (h : FirstSigns sdk params digest ((front ++ back).take n) s) :
      FirstSigns sdk params digest ((front ++ junk ++ back).take n) s := by
    obtain ⟨a, b, ⟨hne, ⟨x, ha, hxv⟩, y, hb, hyv⟩, hlta, hltb⟩ := hstay s h
    refine ⟨⟨shifted front.length junk.length a, shifted front.length junk.length b, fun heq => hne (shifted_inj heq), ⟨x, ?_, hxv⟩, y, ?_, hyv⟩, fun s' hs' hsigns => h.2 s' hs' (signs_of_padded hjunk hsigns)⟩
    · exact getElem?_take_some.mpr ⟨hlta, by rw [getElem?_shifted]; exact (getElem?_take_some.mp ha).2⟩
    · exact getElem?_take_some.mpr ⟨hltb, by rw [getElem?_shifted]; exact (getElem?_take_some.mp hb).2⟩
  constructor
  · intro h
    have hsigns := signs_of_padded hjunk h.1
    cases hscan : scan sdk params digest ((front ++ back).take n) with
    | none =>
      exfalso
      have hno (s : SettleSigners) : ¬ FirstSigns sdk params digest ((front ++ back).take n) s := fun hfirst => by
        rw [scan_eq_some.mpr hfirst] at hscan
        cases hscan
      have hcoop : ¬ Signs sdk params digest ((front ++ back).take n) .coop := fun hc => hno .coop ⟨hc, fun s' hs' => (by cases hs')⟩
      have htowerA : ¬ Signs sdk params digest ((front ++ back).take n) .towerA := fun ha =>
        hno .towerA ⟨ha, by simpa [SettleSigners.earlier] using hcoop⟩
      cases s with
      | coop => exact hcoop hsigns
      | towerA => exact htowerA hsigns
      | towerB => exact hno .towerB ⟨hsigns, by simpa [SettleSigners.earlier] using ⟨hcoop, htowerA⟩⟩
    | some s' =>
      have hfirst := scan_eq_some.mp hscan
      have hboth := (scan_eq_some.mpr h).symm.trans (scan_eq_some.mpr (hkept s' hfirst))
      rw [Option.some_inj.mp hboth]
      exact hfirst
  · exact hkept s

end

/-! ## Pushes put in between -/

/-- `bytes` are an encoding of each of `data`. -/
def Pushes (data : List Bytes) (bytes : Bytes) : Prop := ∃ encs, List.Forall₂ Encodes data encs ∧ bytes = encs.flatten

theorem readPushes_append {data : List Bytes} {bytes : Bytes} (h : Pushes data bytes) (rest : Bytes) :
    readPushes (bytes ++ rest) = data ++ readPushes rest := by
  obtain ⟨encs, hencs, rfl⟩ := h
  obtain ⟨encs', tail, hencs', htail, hrest⟩ := readPushes_eq.mp (rfl : readPushes rest = readPushes rest)
  refine readPushes_eq.mpr ⟨encs ++ encs', tail, List.rel_append hencs hencs', htail, ?_⟩
  rw [List.flatten_append, List.append_assoc, ← hrest]

/-- No push of `data` verifies under a key of the lock. -/
def Foreign (sdk : Sdk) (params : Params) (digest : Digest) (data : List Bytes) : Prop :=
  ∀ x ∈ data.filterMap derOf, ∀ key ∈ [params.pubA, params.pubB, params.pubTower], sdk.verifies key digest x = false

/-- A pair is named only where it is the first that signs; pushes that verify under no key, put in before, between or after the script's own,
change nothing while the signatures that were found stay among the candidates. -/
theorem signers_tolerant (sdk : Sdk) (params : Params) (fundingLock : Bytes) (potSats : UInt64) (spenderRaw : Bytes) (potInputIndex : Nat) :
    (∀ s, classifySpendSigners sdk params fundingLock potSats spenderRaw potInputIndex = some s ↔
      ∃ tx input, sdk.parseTransaction spenderRaw = some tx ∧ tx.inputs[potInputIndex]? = some input ∧
        FirstSigns sdk params (sdk.sighash tx potInputIndex fundingLock potSats) (candidates input.script) s) ∧
    ∀ (digest : Digest) (front junk : List Bytes) (f j t : Bytes), Pushes front f → Pushes junk j → Foreign sdk params digest junk →
      (∀ s, signersOf sdk params digest (f ++ t) = some s → ∃ a b, SignsAt sdk params digest (candidates (f ++ t)) s a b ∧
        shifted (front.filterMap derOf).length (junk.filterMap derOf).length a < maxSigCandidates ∧
        shifted (front.filterMap derOf).length (junk.filterMap derOf).length b < maxSigCandidates) →
      signersOf sdk params digest (f ++ j ++ t) = signersOf sdk params digest (f ++ t) := by
  refine ⟨fun s => classify_eq_some, fun digest front junk f j t hfront hj hforeign hstay => ?_⟩
  have hold : candidates (f ++ t) = (front.filterMap derOf ++ (readPushes t).filterMap derOf).take maxSigCandidates := by
    rw [candidates, readPushes_append hfront, List.filterMap_append]
  have hnew : candidates (f ++ j ++ t) =
      (front.filterMap derOf ++ junk.filterMap derOf ++ (readPushes t).filterMap derOf).take maxSigCandidates := by
    rw [candidates, List.append_assoc, readPushes_append hfront, readPushes_append hj, ← List.append_assoc, List.filterMap_append,
      List.filterMap_append]
  rw [signersOf, signersOf, hold, hnew]
  refine scan_padded hforeign fun s hs => ?_
  rw [← hold] at hs ⊢
  exact hstay s (scan_eq_some.mpr hs)

namespace Marked

def sdk : Sdk where
  parseTransaction _ := none
  sighash _ _ _ _ := Vector.replicate 32 0
  verifies key _ der := der == [key.head]

def params : Params := ⟨Vector.replicate 33 1, Vector.replicate 33 2, Vector.replicate 33 3⟩

def digest : Digest := Vector.replicate 32 0

def signed : Bytes := [0x02, 1, 0x41, 0x02, 3, 0x41]

end Marked

open Marked in
theorem signers_tolerant_prepended : signersOf sdk params digest ([0x02, 9, 9] ++ signed) = signersOf sdk params digest signed :=
  (signers_tolerant sdk params [] 0 [] 0).2 digest [] [[9, 9]] [] [0x02, 9, 9] signed ⟨[], .nil, rfl⟩
    ⟨[[0x02, 9, 9]], .cons (.direct (by decide)) .nil, rfl⟩ (by unfold Foreign; decide)
    fun s hs => ⟨0, 1, by
      have hanswer : signersOf sdk params digest signed = some .towerA := by decide
      rw [List.nil_append, hanswer] at hs
      cases hs
      exact ⟨⟨by decide, ⟨[1], by decide, by decide⟩, [3], by decide, by decide⟩, by decide, by decide⟩⟩

open Marked in
/-- Put in inside a push, the bytes move its end: the second seat's signature, hidden in it, comes out. -/
theorem inside_push_changes : ¬∀ (sdk : Sdk) (params : Params) (digest : Digest) (f j t : Bytes) (junk data : List Bytes), Pushes data (f ++ t) →
    Pushes junk j → Foreign sdk params digest junk →
    (∀ s, signersOf sdk params digest (f ++ t) = some s → Signs sdk params digest (candidates (f ++ j ++ t)) s) →
    signersOf sdk params digest (f ++ j ++ t) = signersOf sdk params digest (f ++ t) := by
  intro h
  have hold : signersOf sdk params digest ([0x04] ++ ([9, 0x02, 2, 0x41] ++ signed)) = some .towerA := by decide
  have hchanged := h sdk params digest [0x04] [0x02, 9, 9] ([9, 0x02, 2, 0x41] ++ signed) [[9, 9]] [[9, 0x02, 2, 0x41], [1, 0x41], [3, 0x41]]
    ⟨[[0x04, 9, 0x02, 2, 0x41], [0x02, 1, 0x41], [0x02, 3, 0x41]],
      .cons (.direct (by decide)) (.cons (.direct (by decide)) (.cons (.direct (by decide)) .nil)), rfl⟩
    ⟨[[0x02, 9, 9]], .cons (.direct (by decide)) .nil, rfl⟩ (by unfold Foreign; decide) (fun s hs => by
      rw [hold] at hs
      cases hs
      exact ⟨2, 3, by decide, ⟨[1], by decide, by decide⟩, [3], by decide, by decide⟩)
  rw [hold] at hchanged
  have hnew : signersOf sdk params digest ([0x04] ++ [0x02, 9, 9] ++ ([9, 0x02, 2, 0x41] ++ signed)) = some .coop := by decide
  rw [hnew] at hchanged
  cases hchanged

end OverlayEngine.SpendSigners
