import Mathlib.Algebra.GroupWithZero.Nat
import OverlayEngine.Basis.CountedRuns
import OverlayEngine.ScriptDoorSound

/-!
# What a read of a BEEF will hold

`estimate` of `crates/overlay-engine/src/stream_sizing.rs`: the frame is walked
by its lengths and counts alone, each thing charged, until the estimate passes
the limit. Every count is whatever 64-bit varint the sender wrote.
-/

namespace OverlayEngine.StreamSizing

open ScriptDoor (Sdk StreamEstimate)
open ScriptDoor.Fields (Read take u32 varint script)
open CountedRuns

structure StreamCharges where
  keptTx : Nat
  keptInput : Nat
  keptOutput : Nat
  keptProven : Nat
  txByte : Nat
  txInput : Nat
  txOutput : Nat
  bumpLeaf : Nat

def StreamCharges.stream : StreamCharges := ⟨0, 0, 0, 0, 3, 192, 96, 576⟩

def u64Max : Nat := 2 ^ 64 - 1

/-- `saturating_add` and `saturating_mul` of `u64`. -/
def satAdd (a b : Nat) : Nat := min (a + b) u64Max

def satMul (a b : Nat) : Nat := min (a * b) u64Max

/-- The `Sizer`'s fields that change; `turns` counts the iterations of its loops, which the source does not. -/
structure Sizer where
  at_ : Nat := 0
  kept : Nat := 0
  largest : Nat := 0
  overAt : Option Nat := none
  turns : Nat := 0

def Sizer.bytes (s : Sizer) : Nat := satAdd s.kept s.largest

abbrev Sizing := Run Sizer

section
variable {S : Type} (sdk : Sdk S) (raw : Bytes) (charges : StreamCharges) (limit : Nat)

def read {α : Type} (field : Read α) : Sizing α := fun s =>
  match field s.at_ with
  | some (a, at_) => (some a, { s with at_ := at_ })
  | none => (none, s)

/-- `*take(1)?.first()?`. -/
def byte (raw : Bytes) : Read UInt8 := do
  let bytes ← take raw 1
  bytes.head?

def place : Sizing Nat := do
  let s ← Run.state
  return s.at_

def turn : Sizing Unit := Run.modify fun s => { s with turns := s.turns + 1 }

def keep (bytes : Nat) : Sizing Unit := Run.modify fun s => { s with kept := satAdd s.kept bytes }

def keepProven (level : Nat) (isHashed : Bool) : Sizing Unit := if level = 0 ∧ isHashed = true then keep charges.keptProven else pure ()

def keepTx (inputs outputs : Nat) : Sizing Unit := do
  keep charges.keptTx
  keep (satMul inputs charges.keptInput)
  keep (satMul outputs charges.keptOutput)

/-- `in_hand`: an element at `at_` holds `bytes` in hand. -/
def inHand (at_ bytes : Nat) : Sizing Unit := fun s =>
  let s := { s with largest := max s.largest bytes }
  if limit < s.bytes then (none, { s with overAt := some at_ }) else (some (), s)

def hashed (flag : UInt8) : Sizing Bool := do
  if flag = 1 then return false
  else if flag = 0 ∨ flag = 2 then
    let _ ← read (take raw 32)
    return true
  else Run.stop

def leaf (at_ level leaves : Nat) : Sizing Nat := do
  turn
  let _ ← read (varint sdk raw)
  let flag ← read (byte raw)
  let isHashed ← hashed raw flag
  keepProven charges level isHashed
  inHand limit at_ (satMul (leaves + 1) charges.bumpLeaf)
  return leaves + 1

def level (at_ : Nat) (acc : Nat × Nat) : Sizing (Nat × Nat) := do
  turn
  let count ← read (varint sdk raw)
  let leaves ← Run.times (leaf sdk raw charges limit at_ acc.1) count acc.2
  return (acc.1 + 1, leaves)

def bump : Sizing Unit := do
  let at_ ← place
  let _ ← read (varint sdk raw)
  let levels ← read (byte raw)
  let _ ← Run.times (level sdk raw charges limit at_) levels.toNat (0, 0)
  return ()

def txInHand (at_ inputs outputs : Nat) : Sizing Unit := do
  let s ← Run.state
  inHand limit at_ (satAdd (satAdd (satMul (s.at_ - at_) charges.txByte) (satMul inputs charges.txInput)) (satMul outputs charges.txOutput))

def input (at_ inputs : Nat) : Sizing Nat := do
  turn
  let _ ← read (take raw 36)
  let _ ← read (script sdk raw)
  let _ ← read (take raw 4)
  txInHand charges limit at_ (inputs + 1) 0
  return inputs + 1

def output (at_ inputs outputs : Nat) : Sizing Nat := do
  turn
  let _ ← read (take raw 8)
  let _ ← read (script sdk raw)
  txInHand charges limit at_ inputs (outputs + 1)
  return outputs + 1

def tx : Sizing Unit := do
  let at_ ← place
  let _ ← read (take raw 4)
  let inputCount ← read (varint sdk raw)
  let inputs ← Run.times (input sdk raw charges limit at_) inputCount 0
  let outputCount ← read (varint sdk raw)
  let outputs ← Run.times (output sdk raw charges limit at_ inputs) outputCount 0
  let _ ← read (take raw 4)
  txInHand charges limit at_ inputs outputs
  keepTx charges inputs outputs
  inHand limit at_ 0

def entryV2 (_ : Unit) : Sizing Unit := do
  turn
  let kind ← read (byte raw)
  if kind = 0 then tx sdk raw charges limit
  else if kind = 1 then
    let _ ← read (varint sdk raw)
    tx sdk raw charges limit
  else if kind = 2 then
    let _ ← read (take raw 32)
    return ()
  else Run.stop

def entryV1 (_ : Unit) : Sizing Unit := do
  turn
  tx sdk raw charges limit
  let flag ← read (byte raw)
  if flag = 0 then return ()
  else if flag = 1 then
    let _ ← read (varint sdk raw)
    return ()
  else Run.stop

def bumps (_ : Unit) : Sizing Unit := do
  turn
  bump sdk raw charges limit

def atomicBeef : Nat := 0x01010101
def beefV1 : Nat := 4022206465
def beefV2 : Nat := 4022206466

def version : Sizing Nat := do
  let word ← read (u32 raw)
  if word = atomicBeef then
    let _ ← read (take raw 32)
    read (u32 raw)
  else return word

def frame : Sizing Unit := do
  let word ← version raw
  if word = beefV1 ∨ word = beefV2 then
    let bumpCount ← read (varint sdk raw)
    Run.times (bumps sdk raw charges limit) bumpCount ()
    let count ← read (varint sdk raw)
    Run.times (if word = beefV2 then entryV2 sdk raw charges limit else entryV1 sdk raw charges limit) count ()
  else Run.stop

/-- `estimate`, and the state it leaves. -/
def estimated : Option Unit × Sizer := frame sdk raw charges limit {}

def estimate : StreamEstimate :=
  let sized := estimated sdk raw charges limit
  { bytes := sized.2.bytes, overAt := sized.2.overAt, read := sized.1.isSome }

end

/-! ## The limit -/

theorem satAdd_le (a b : Nat) : satAdd a b ≤ u64Max := Nat.min_le_right _ _

theorem satAdd_mono {a a' b b' : Nat} (ha : min a u64Max ≤ a') (hb : b ≤ b') : satAdd a b ≤ satAdd a' b' := by
  unfold satAdd
  omega

theorem le_satAdd (a b : Nat) : min a u64Max ≤ satAdd a b := by
  unfold satAdd
  omega

def Stopped (s : Sizer) : Prop := s.overAt.isSome = true

variable {S : Type} {sdk : Sdk S} {raw : Bytes} {charges : StreamCharges} {limit : Nat}

abbrev Limited {α : Type} (limit : Nat) (m : Nat → Sizing α) : Prop := Paced Sizer.bytes Stopped limit (m limit) (m u64Max)

variable {α β : Type}

theorem limited_read (field : Read α) : Limited limit fun _ => read field := by
  have hread (s : Sizer) : (read field s).2.bytes = s.bytes ∧ (read field s).2.overAt = s.overAt := by
    unfold read
    split <;> exact ⟨rfl, rfl⟩
  refine .refl (fun s => (hread s).1) fun s h => ?_
  rwa [Stopped, (hread s).2] at h

theorem limited_place : Limited limit fun _ => place := .bind .state fun _ => .pure _

theorem limited_turn : Limited limit fun _ => turn := .refl (fun _ => rfl) fun _ h => h

/-- The state with something charged, the heaviest element at least `bytes`. -/
def charged (g : Sizer → Sizer) (bytes : Nat) (s : Sizer) : Sizer := { g s with largest := max (g s).largest bytes }

theorem charge_run (g : Sizer → Sizer) (limit at_ bytes : Nat) (s : Sizer) : (Run.modify g >>= fun _ => inHand limit at_ bytes) s =
    if limit < (charged g bytes s).bytes then (none, { charged g bytes s with overAt := some at_ }) else (some (), charged g bytes s) := rfl

theorem limited_charge {g : Sizer → Sizer} (hkept : ∀ s, min s.kept u64Max ≤ (g s).kept) (hlargest : ∀ s, (g s).largest = s.largest)
    (hover : ∀ s, (g s).overAt = s.overAt) (at_ bytes : Nat) : Limited limit fun l => Run.modify g >>= fun _ => inHand l at_ bytes := by
  have hgrows (s : Sizer) : s.bytes ≤ (charged g bytes s).bytes :=
    satAdd_mono (hkept s) (Nat.le_trans (Nat.le_of_eq (hlargest s).symm) (Nat.le_max_left _ _))
  have hfree (s : Sizer) : (Run.modify g >>= fun _ => inHand u64Max at_ bytes) s = (some (), charged g bytes s) :=
    if_neg (Nat.not_lt.mpr (satAdd_le _ _))
  refine ⟨fun s => ?_, fun s _ hgoes => ?_⟩ <;> beta_reduce <;> rw [hfree]
  · exact hgrows s
  · rw [charge_run]
    by_cases hpast : limit < (charged g bytes s).bytes
    · rw [if_pos hpast]
      exact .inr ⟨rfl, rfl, hpast, hpast⟩
    · rw [if_neg hpast]
      refine .inl ⟨rfl, Nat.not_lt.mp hpast, ?_⟩
      show ¬ (g s).overAt.isSome = true
      rw [hover]
      exact hgoes

theorem limited_inHand (at_ bytes : Nat) : Limited limit fun l => inHand l at_ bytes :=
  @limited_charge limit id (fun _ => Nat.min_le_left _ _) (fun _ => rfl) (fun _ => rfl) at_ bytes

theorem limited_txInHand (at_ inputs outputs : Nat) : Limited limit fun l => txInHand charges l at_ inputs outputs :=
  .bind .state fun _ => limited_inHand at_ _

theorem limited_keepProven (level : Nat) (isHashed : Bool) (at_ bytes : Nat) :
    Limited limit fun l => keepProven charges level isHashed >>= fun _ => inHand l at_ bytes := by
  unfold keepProven
  split
  · exact @limited_charge limit (fun s => { s with kept := satAdd s.kept charges.keptProven }) (fun _ => le_satAdd _ _) (fun _ => rfl) (fun _ => rfl) at_ bytes
  · exact limited_inHand at_ bytes

def keptWith (charges : StreamCharges) (inputs outputs kept : Nat) : Nat :=
  satAdd (satAdd (satAdd kept charges.keptTx) (satMul inputs charges.keptInput)) (satMul outputs charges.keptOutput)

theorem le_keptWith (inputs outputs kept : Nat) : min kept u64Max ≤ keptWith charges inputs outputs kept := by
  have h₁ := le_satAdd kept charges.keptTx
  have h₂ := le_satAdd (satAdd kept charges.keptTx) (satMul inputs charges.keptInput)
  have h₃ := le_satAdd (satAdd (satAdd kept charges.keptTx) (satMul inputs charges.keptInput)) (satMul outputs charges.keptOutput)
  unfold keptWith
  omega

theorem limited_keepTx (inputs outputs at_ bytes : Nat) :
    Limited limit fun l => keepTx charges inputs outputs >>= fun _ => inHand l at_ bytes :=
  @limited_charge limit (fun s => { s with kept := keptWith charges inputs outputs s.kept }) (fun s => le_keptWith inputs outputs s.kept)
    (fun _ => rfl) (fun _ => rfl) at_ bytes

theorem limited_hashed (flag : UInt8) : Limited limit fun _ => hashed raw flag := by
  unfold hashed
  split
  · exact .pure _
  · split
    · exact .bind (limited_read _) fun _ => .pure _
    · exact .stop

theorem limited_leaf (at_ lvl leaves : Nat) : Limited limit fun l => leaf sdk raw charges l at_ lvl leaves := by
  refine .bind limited_turn fun _ => .bind (limited_read _) fun _ => .bind (limited_read _) fun flag => .bind (limited_hashed flag) fun isHashed => ?_
  rw [← Run.bind_assoc, ← Run.bind_assoc]
  exact .bind (limited_keepProven lvl isHashed at_ _) fun _ => .pure _

theorem limited_level (at_ : Nat) (acc : Nat × Nat) : Limited limit fun l => level sdk raw charges l at_ acc :=
  .bind limited_turn fun _ => .bind (limited_read _) fun count => .bind (.times (limited_leaf at_ acc.1) count acc.2) fun _ => .pure _

theorem limited_bump : Limited limit fun l => bump sdk raw charges l :=
  .bind limited_place fun at_ => .bind (limited_read _) fun _ => .bind (limited_read _) fun levels =>
    .bind (.times (limited_level at_) levels.toNat (0, 0)) fun _ => .pure _

theorem limited_input (at_ inputs : Nat) : Limited limit fun l => input sdk raw charges l at_ inputs :=
  .bind limited_turn fun _ => .bind (limited_read _) fun _ => .bind (limited_read _) fun _ => .bind (limited_read _) fun _ =>
    .bind (limited_txInHand at_ _ _) fun _ => .pure _

theorem limited_output (at_ inputs outputs : Nat) : Limited limit fun l => output sdk raw charges l at_ inputs outputs :=
  .bind limited_turn fun _ => .bind (limited_read _) fun _ => .bind (limited_read _) fun _ =>
    .bind (limited_txInHand at_ _ _) fun _ => .pure _

theorem limited_tx : Limited limit fun l => tx sdk raw charges l :=
  .bind limited_place fun at_ => .bind (limited_read _) fun _ => .bind (limited_read _) fun inputCount =>
    .bind (.times (limited_input at_) inputCount 0) fun inputs => .bind (limited_read _) fun outputCount =>
      .bind (.times (limited_output at_ inputs) outputCount 0) fun outputs => .bind (limited_read _) fun _ =>
        .bind (limited_txInHand at_ inputs outputs) fun _ => limited_keepTx inputs outputs at_ 0

theorem limited_entryV2 (u : Unit) : Limited limit fun l => entryV2 sdk raw charges l u := by
  refine .bind limited_turn fun _ => .bind (limited_read _) fun kind => ?_
  split
  · exact limited_tx
  · split
    · exact .bind (limited_read _) fun _ => limited_tx
    · split
      · exact .bind (limited_read _) fun _ => .pure _
      · exact .stop

theorem limited_entryV1 (u : Unit) : Limited limit fun l => entryV1 sdk raw charges l u := by
  refine .bind limited_turn fun _ => .bind limited_tx fun _ => .bind (limited_read _) fun flag => ?_
  split
  · exact .pure _
  · split
    · exact .bind (limited_read _) fun _ => .pure _
    · exact .stop

theorem limited_version : Limited limit fun _ => version raw := by
  refine .bind (limited_read _) fun word => ?_
  split
  · exact .bind (limited_read _) fun _ => limited_read _
  · exact .pure _

theorem limited_frame : Limited limit fun l => frame sdk raw charges l := by
  refine .bind limited_version fun word => ?_
  split
  · refine .bind (limited_read _) fun bumpCount => .bind (.times (fun _ => .bind limited_turn fun _ => limited_bump) bumpCount ()) fun _ =>
      .bind (limited_read _) fun count => .times (fun u => ?_) count ()
    split
    · exact limited_entryV2 u
    · exact limited_entryV1 u
  · exact .stop

/-! ## The turns -/

def VarIntTakes (sdk : Sdk S) : Prop := ∀ bytes value width, sdk.fromVarInt bytes = some (value, width) → 0 < width ∧ width ≤ bytes.length

def reached (raw : Bytes) (s : Sizer) : Nat := min s.at_ raw.length

abbrev Paid {α : Type} (raw : Bytes) (k : Nat) (m : Sizing α) : Prop := Spends Sizer.turns (reached raw) k m

def Takes {α : Type} (raw : Bytes) (field : Read α) : Prop := ∀ at_ a at', field at_ = some (a, at') → at_ < at' ∧ at' ≤ raw.length

theorem takes_take {n : Nat} (hn : 0 < n) : Takes raw (take raw n) := by
  intro at_ a at' h
  unfold take at h
  split at h
  · cases h
    omega
  · cases h

variable {field : Read α}

theorem takes_map (h : Takes raw field) (f : α → β) : Takes raw (f <$> field) := by
  intro at_ b at' hb
  obtain ⟨⟨a, at''⟩, ha, hres⟩ := Option.bind_eq_some_iff.mp (show (field at_).bind _ = some (b, at') from hb)
  cases hres
  exact h at_ a _ ha

theorem takes_bind {f : α → Read β} (h : Takes raw field)
    (hf : ∀ a at_ b at', f a at_ = some (b, at') → at_ ≤ raw.length → at_ ≤ at' ∧ at' ≤ raw.length) : Takes raw (field >>= f) := by
  intro at_ b at' hb
  obtain ⟨⟨a, at''⟩, ha, hres⟩ := Option.bind_eq_some_iff.mp (show (field at_).bind _ = some (b, at') from hb)
  obtain ⟨hlt, hle⟩ := h at_ a at'' ha
  obtain ⟨hge, hend⟩ := hf a at'' b at' hres hle
  exact ⟨Nat.lt_of_lt_of_le hlt hge, hend⟩

theorem takes_u32 : Takes raw (u32 raw) := takes_map (takes_take (by decide)) _

theorem takes_byte : Takes raw (byte raw) := by
  refine takes_bind (takes_take Nat.one_pos) fun bytes at_ b at' h hle => ?_
  cases hhead : bytes.head? with
  | none =>
    rw [hhead] at h
    cases h
  | some c =>
    rw [hhead] at h
    cases h
    exact ⟨Nat.le_refl _, hle⟩

theorem takes_varint (hvarint : VarIntTakes sdk) : Takes raw (varint sdk raw) := by
  intro at_ a at' h
  unfold varint at h
  split at h
  · obtain ⟨⟨value, width⟩, hread, hres⟩ := Option.map_eq_some_iff.mp h
    cases hres
    obtain ⟨hpos, hle⟩ := hvarint _ _ _ hread
    rw [List.length_drop] at hle
    dsimp only
    omega
  · cases h

theorem takes_script (hvarint : VarIntTakes sdk) : Takes raw (script sdk raw) := by
  refine takes_bind (takes_varint hvarint) fun len at_ b at' h hle => ?_
  obtain ⟨⟨_, at''⟩, htake, hres⟩ := Option.bind_eq_some_iff.mp (show (take raw len at_).bind _ = some (b, at') from h)
  cases hres
  unfold take at htake
  split at htake
  · cases htake
    omega
  · cases htake

theorem paid_read (h : Takes raw field) : Paid raw 1 (read field) where
  goesOn _ _ s' hs := by
    unfold read at hs
    split at hs
    · cases hs
      obtain ⟨hlt, hle⟩ := h _ _ _ ‹_›
      unfold reached
      dsimp only
      omega
    · cases hs
  stops s s' hs := by
    unfold read at hs
    split at hs
    · cases hs
    · cases hs
      exact Nat.le_refl _

theorem paid_place : Paid raw 0 place := .bind .state fun _ => .pure _

theorem place_goes (s : Sizer) : (place s).1 ≠ none := nofun

theorem paid_turn {m : Sizing α} (h : Paid raw 1 m) : Paid raw 0 (turn >>= fun _ => m) :=
  .turn (fun _ => ⟨_, rfl, rfl, rfl⟩) h

theorem paid_keep (bytes : Nat) : Paid raw 0 (keep bytes) := .free (fun _ => rfl) fun _ => Nat.le_refl _

theorem paid_inHand (at_ bytes : Nat) : Paid raw 0 (inHand limit at_ bytes) := by
  have hsame (s : Sizer) : (inHand limit at_ bytes s).2.turns = s.turns ∧ (inHand limit at_ bytes s).2.at_ = s.at_ := by
    unfold inHand
    dsimp only
    split <;> exact ⟨rfl, rfl⟩
  refine .free (fun s => (hsame s).1) fun s => ?_
  unfold reached
  rw [(hsame s).2]

theorem paid_txInHand (at_ inputs outputs : Nat) : Paid raw 0 (txInHand charges limit at_ inputs outputs) :=
  .bind .state fun _ => paid_inHand at_ _

theorem paid_keepProven (lvl : Nat) (isHashed : Bool) : Paid raw 0 (keepProven charges lvl isHashed) := by
  unfold keepProven
  split
  · exact paid_keep _
  · exact .pure _

theorem paid_hashed (flag : UInt8) : Paid raw 0 (hashed raw flag) := by
  unfold hashed
  split
  · exact .pure _
  · split
    · exact .bind (paid_read (takes_take (by decide))).weaken fun _ => .pure _
    · exact .stop (Nat.zero_le 1)

section
variable (hvarint : VarIntTakes sdk)
include hvarint

theorem paid_leaf (at_ lvl leaves : Nat) : Paid raw 0 (leaf sdk raw charges limit at_ lvl leaves) :=
  paid_turn <| .bind (paid_read (takes_varint hvarint)) fun _ => .bind (paid_read takes_byte).weaken fun flag => .bind (paid_hashed flag) fun isHashed =>
    .bind (paid_keepProven lvl isHashed) fun _ => .bind (paid_inHand at_ _) fun _ => .pure _

theorem paid_level (at_ : Nat) (acc : Nat × Nat) : Paid raw 0 (level sdk raw charges limit at_ acc) :=
  paid_turn <| .bind (paid_read (takes_varint hvarint)) fun count => .bind (.times (paid_leaf hvarint at_ acc.1) count acc.2) fun _ => .pure _

theorem paid_bump : Paid raw 1 (bump sdk raw charges limit) :=
  .after paid_place place_goes fun at_ => .bind (paid_read (takes_varint hvarint)) fun _ => .bind (paid_read takes_byte).weaken fun levels =>
    .bind (.times (paid_level hvarint at_) levels.toNat (0, 0)) fun _ => .pure _

theorem paid_input (at_ inputs : Nat) : Paid raw 0 (input sdk raw charges limit at_ inputs) :=
  paid_turn <| .bind (paid_read (takes_take (by decide))) fun _ => .bind (paid_read (takes_script hvarint)).weaken fun _ =>
    .bind (paid_read (takes_take (by decide))).weaken fun _ => .bind (paid_txInHand at_ _ _) fun _ => .pure _

theorem paid_output (at_ inputs outputs : Nat) : Paid raw 0 (output sdk raw charges limit at_ inputs outputs) :=
  paid_turn <| .bind (paid_read (takes_take (by decide))) fun _ => .bind (paid_read (takes_script hvarint)).weaken fun _ =>
    .bind (paid_txInHand at_ _ _) fun _ => .pure _

theorem paid_tx : Paid raw 1 (tx sdk raw charges limit) :=
  .after paid_place place_goes fun at_ => .bind (paid_read (takes_take (by decide))) fun _ =>
    .bind (paid_read (takes_varint hvarint)).weaken fun inputCount => .bind (.times (paid_input hvarint at_) inputCount 0) fun inputs =>
      .bind (paid_read (takes_varint hvarint)).weaken fun outputCount => .bind (.times (paid_output hvarint at_ inputs) outputCount 0) fun outputs =>
        .bind (paid_read (takes_take (by decide))).weaken fun _ => .bind (paid_txInHand at_ inputs outputs) fun _ =>
          .bind (.bind (paid_keep _) fun _ => .bind (paid_keep _) fun _ => paid_keep _) fun _ => paid_inHand at_ 0

theorem paid_entryV2 (u : Unit) : Paid raw 0 (entryV2 sdk raw charges limit u) := by
  refine paid_turn <| .bind (paid_read takes_byte) fun kind => ?_
  split
  · exact (paid_tx hvarint).weaken
  · split
    · exact .bind (paid_read (takes_varint hvarint)).weaken fun _ => (paid_tx hvarint).weaken
    · split
      · exact .bind (paid_read (takes_take (by decide))).weaken fun _ => .pure _
      · exact .stop (Nat.zero_le 1)

theorem paid_entryV1 (u : Unit) : Paid raw 0 (entryV1 sdk raw charges limit u) := by
  refine paid_turn <| .bind (paid_tx hvarint) fun _ => .bind (paid_read takes_byte).weaken fun flag => ?_
  split
  · exact .pure _
  · split
    · exact .bind (paid_read (takes_varint hvarint)).weaken fun _ => .pure _
    · exact .stop (Nat.zero_le 1)

theorem paid_frame : Paid raw 1 (frame sdk raw charges limit) := by
  have hversion : Paid raw 1 (version raw) := by
    refine .bind (paid_read takes_u32) fun word => ?_
    split
    · exact .bind (paid_read (takes_take (by decide))).weaken fun _ => (paid_read takes_u32).weaken
    · exact .pure _
  refine .bind hversion fun word => ?_
  split
  · refine .bind (paid_read (takes_varint hvarint)).weaken fun bumpCount => .bind (.times (fun _ => paid_turn (paid_bump hvarint)) bumpCount ()) fun _ =>
      .bind (paid_read (takes_varint hvarint)).weaken fun count => .times (fun u => ?_) count ()
    split
    · exact paid_entryV2 hvarint u
    · exact paid_entryV1 hvarint u
  · exact .stop (Nat.zero_le 1)

end

theorem turns_le (hvarint : VarIntTakes sdk) : (estimated sdk raw charges limit).2.turns ≤ raw.length := by
  have hpaid := @paid_frame S sdk raw charges limit hvarint
  have hend : reached raw (estimated sdk raw charges limit).2 ≤ raw.length := Nat.min_le_right _ _
  cases hres : estimated sdk raw charges limit with
  | mk result s =>
    rw [hres] at hend
    dsimp only at hend ⊢
    have hstart : reached raw ({} : Sizer) = 0 := Nat.zero_min _
    cases result with
    | none =>
      have h := hpaid.stops {} s hres
      rw [hstart] at h
      dsimp only at h
      omega
    | some _ =>
      have h := hpaid.goesOn {} _ s hres
      rw [hstart] at h
      dsimp only at h
      omega

/-- Under a limit the estimate is the whole one, or it is over; and its loops turn at most once a byte of the body. -/
theorem estimate_limit (hvarint : VarIntTakes sdk) (raw : Bytes) (charges : StreamCharges) (limit : Nat) :
    ((estimate sdk raw charges u64Max).bytes ≤ limit → estimate sdk raw charges limit = estimate sdk raw charges u64Max) ∧
      (limit < (estimate sdk raw charges u64Max).bytes →
        (estimate sdk raw charges limit).overAt.isSome = true ∧ limit < (estimate sdk raw charges limit).bytes) ∧
      (estimated sdk raw charges limit).2.turns ≤ raw.length := by
  have hstart : ({} : Sizer).bytes ≤ limit := Nat.zero_le _
  refine ⟨fun hfits => ?_, fun hpast => ?_, turns_le hvarint⟩
  · rcases (@limited_frame S sdk raw charges limit).within {} hstart nofun with ⟨hsame, -, -⟩ | ⟨-, -, -, hpast⟩
    · unfold estimate estimated
      rw [show frame sdk raw charges limit {} = frame sdk raw charges u64Max {} from hsame]
    · exact absurd hpast (Nat.not_lt.mpr hfits)
  · rcases (@limited_frame S sdk raw charges limit).within {} hstart nofun with ⟨hsame, hfits, -⟩ | ⟨-, hstops, hover, -⟩
    · have hbytes : (estimate sdk raw charges u64Max).bytes ≤ limit := by
        unfold estimate estimated
        rw [← show frame sdk raw charges limit {} = frame sdk raw charges u64Max {} from hsame]
        exact hfits
      exact absurd hpast (Nat.not_lt.mpr hbytes)
    · exact ⟨hstops, hover⟩

open ScriptDoor.TwoTxs (reader beef)

theorem varIntTakes_reader : VarIntTakes reader := by
  intro bytes value width h
  obtain ⟨b, hb, h⟩ := Option.bind_eq_some_iff.mp (show (bytes.head?.bind fun b => if b < 0xfd then some (b.toNat, 1) else none) = _ from h)
  split at h
  · cases h
    cases bytes with
    | nil => cases hb
    | cons c rest => exact ⟨Nat.one_pos, Nat.le_add_left 1 rest.length⟩
  · cases h

theorem estimate_limit_two : estimate reader beef .stream 1152 = estimate reader beef .stream u64Max ∧
    ((estimate reader beef .stream 500).overAt.isSome = true ∧ 500 < (estimate reader beef .stream 500).bytes) ∧
      (estimated reader beef .stream 500).2.turns ≤ beef.length := by
  have hbytes : (estimate reader beef .stream u64Max).bytes = 1152 := by decide +kernel
  have hwhole := estimate_limit varIntTakes_reader beef .stream 1152
  have hover := estimate_limit varIntTakes_reader beef .stream 500
  rw [hbytes] at hwhole hover
  exact ⟨hwhole.1 (Nat.le_refl _), hover.2.1 (by decide), hover.2.2⟩

end OverlayEngine.StreamSizing
