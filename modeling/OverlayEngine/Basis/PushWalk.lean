import Mathlib.Algebra.GroupWithZero.Nat
import Mathlib.Data.List.Forall2
import Mathlib.Tactic.Common

/-!
# Little-endian numbers and pushed bytes

A push is a length, in its opcode or in one, two or four bytes after it, and that
many bytes. A walk reads pushes up to the first place where none stands.
-/

namespace PushWalk

def ofLe : List UInt8 → Nat
  | [] => 0
  | b :: bs => b.toNat + 256 * ofLe bs

def toLe : Nat → Nat → List UInt8
  | 0, _ => []
  | k + 1, n => UInt8.ofNat n :: toLe k (n / 256)

@[simp] theorem length_toLe (k n : Nat) : (toLe k n).length = k := by
  induction k generalizing n with
  | zero => rfl
  | succ k ih => simp [toLe, ih]

variable {k n : Nat}

theorem ofLe_toLe (h : n < 256 ^ k) : ofLe (toLe k n) = n := by
  induction k generalizing n with
  | zero =>
    have hn : n = 0 := by simpa using h
    rw [hn]
    rfl
  | succ k ih =>
    rw [Nat.pow_succ] at h
    rw [toLe, ofLe, ih (Nat.div_lt_of_lt_mul (by omega)), UInt8.toNat_ofNat']
    omega

theorem toLe_ofLe (bs : List UInt8) : toLe bs.length (ofLe bs) = bs := by
  induction bs with
  | nil => rfl
  | cons b bs ih =>
    have hb := b.toNat_lt
    have hdiv : (b.toNat + 256 * ofLe bs) / 256 = ofLe bs := by omega
    have hhead : UInt8.ofNat (b.toNat + 256 * ofLe bs) = b := by
      apply UInt8.toNat_inj.mp
      rw [UInt8.toNat_ofNat']
      omega
    rw [List.length_cons, ofLe, toLe, hdiv, ih, hhead]

theorem ofLe_lt (bs : List UInt8) : ofLe bs < 256 ^ bs.length := by
  induction bs with
  | nil => exact Nat.one_pos
  | cons b bs ih =>
    have hb := b.toNat_lt
    rw [List.length_cons, Nat.pow_succ, ofLe]
    omega

/-- The array of exactly `n` bytes. -/
def sized (n : Nat) (b : List UInt8) : Option (Vector UInt8 n) := if h : b.toArray.size = n then some ⟨b.toArray, h⟩ else none

theorem sized_eq_some {b : List UInt8} {v : Vector UInt8 n} : sized n b = some v ↔ b = v.toList := by
  unfold sized
  constructor
  · intro h
    split at h
    · cases h
      rfl
    · cases h
  · rintro rfl
    exact dif_pos v.length_toList

/-! ## One push -/

def lengthIn (k : Nat) (bytes : List UInt8) : Option (Nat × List UInt8) :=
  if k ≤ bytes.length then some (ofLe (bytes.take k), bytes.drop k) else none

def pushLength : List UInt8 → Option (Nat × List UInt8)
  | [] => none
  | op :: rest =>
    if op.toNat < 0x4c then some (op.toNat, rest)
    else if op = 0x4c then lengthIn 1 rest
    else if op = 0x4d then lengthIn 2 rest
    else if op = 0x4e then lengthIn 4 rest
    else none

def readPush (bytes : List UInt8) : Option (List UInt8 × List UInt8) :=
  (pushLength bytes).bind fun p => if p.1 ≤ p.2.length then some (p.2.take p.1, p.2.drop p.1) else none

/-- `op` announces a length in the `k` bytes after it. -/
inductive LengthOp : UInt8 → Nat → Prop
  | one : LengthOp 0x4c 1
  | two : LengthOp 0x4d 2
  | four : LengthOp 0x4e 4

inductive Encodes (d : List UInt8) : List UInt8 → Prop
  | direct (h : d.length < 0x4c) : Encodes d (UInt8.ofNat d.length :: d)
  | sized {op : UInt8} {k : Nat} (hop : LengthOp op k) (h : d.length < 256 ^ k) : Encodes d (op :: (toLe k d.length ++ d))

variable {bytes rest d enc : List UInt8}

theorem lengthIn_eq_some :
    lengthIn k bytes = some (n, rest) ↔ n < 256 ^ k ∧ bytes = toLe k n ++ rest := by
  unfold lengthIn
  constructor
  · intro h
    split at h
    case isFalse => cases h
    case isTrue hk =>
      cases h
      have hlen : (bytes.take k).length = k := List.length_take_of_le hk
      have hlt := ofLe_lt (bytes.take k)
      have hto := toLe_ofLe (bytes.take k)
      rw [hlen] at hlt hto
      exact ⟨hlt, by rw [hto, List.take_append_drop]⟩
  · rintro ⟨hn, rfl⟩
    have hlen := length_toLe k n
    rw [if_pos (by simp), List.take_left' hlen, List.drop_left' hlen, ofLe_toLe hn]

theorem lengthOp_iff {op : UInt8} : LengthOp op k ↔ op = 0x4c ∧ k = 1 ∨ op = 0x4d ∧ k = 2 ∨ op = 0x4e ∧ k = 4 := by
  constructor
  · rintro (_ | _ | _) <;> simp
  · rintro (⟨rfl, rfl⟩ | ⟨rfl, rfl⟩ | ⟨rfl, rfl⟩)
    · exact .one
    · exact .two
    · exact .four

theorem pushLength_sized {op : UInt8} (h : LengthOp op k) (rest : List UInt8) : pushLength (op :: rest) = lengthIn k rest := by
  cases h <;> rfl

theorem pushLength_eq_some (h : pushLength bytes = some (n, rest)) :
    n < 0x4c ∧ bytes = UInt8.ofNat n :: rest ∨ ∃ op k, LengthOp op k ∧ n < 256 ^ k ∧ bytes = op :: (toLe k n ++ rest) := by
  cases bytes with
  | nil => cases h
  | cons op tail =>
    by_cases hop : op.toNat < 0x4c
    · rw [pushLength, if_pos hop] at h
      cases h
      exact .inl ⟨hop, by rw [UInt8.ofNat_toNat]⟩
    · by_cases hk : ∃ k, LengthOp op k
      · obtain ⟨k, hk⟩ := hk
        rw [pushLength_sized hk] at h
        obtain ⟨hn, rfl⟩ := lengthIn_eq_some.mp h
        exact .inr ⟨op, k, hk, hn, rfl⟩
      · have hne (o : UInt8) (k : Nat) (ho : LengthOp o k) : op ≠ o := fun he => hk ⟨k, he ▸ ho⟩
        rw [pushLength, if_neg hop, if_neg (hne _ _ .one), if_neg (hne _ _ .two), if_neg (hne _ _ .four)] at h
        cases h

theorem readPush_eq_some : readPush bytes = some (d, rest) ↔ ∃ enc, Encodes d enc ∧ bytes = enc ++ rest := by
  unfold readPush
  constructor
  · intro h
    obtain ⟨⟨n, tail⟩, hlength, h⟩ := Option.bind_eq_some_iff.mp h
    split at h
    case isFalse => cases h
    case isTrue hle =>
      cases h
      have hn : (tail.take n).length = n := List.length_take_of_le hle
      have htail : tail = tail.take n ++ tail.drop n := (List.take_append_drop n tail).symm
      rcases pushLength_eq_some hlength with ⟨hlt, hbytes⟩ | ⟨op, k, hop, hlt, hbytes⟩
      · refine ⟨_, .direct (by rw [hn]; exact hlt), ?_⟩
        rw [hbytes, hn, List.cons_append, ← htail]
      · refine ⟨_, .sized hop (by rw [hn]; exact hlt), ?_⟩
        rw [hbytes, hn, List.cons_append, List.append_assoc, ← htail]
  · rintro ⟨enc, henc, rfl⟩
    have htaken : (if d.length ≤ (d ++ rest).length then some ((d ++ rest).take d.length, (d ++ rest).drop d.length) else none) =
        some (d, rest) := by
      rw [if_pos (by simp), List.take_left, List.drop_left]
    cases henc with
    | direct h =>
      have hop : (UInt8.ofNat d.length).toNat = d.length := by
        rw [UInt8.toNat_ofNat']
        omega
      rw [List.cons_append, pushLength, if_pos (by rw [hop]; exact h), hop]
      exact htaken
    | sized hop h =>
      rw [List.cons_append, pushLength_sized hop, List.append_assoc, lengthIn_eq_some.mpr ⟨h, rfl⟩]
      exact htaken

theorem Encodes.ne_nil (h : Encodes d enc) : enc ≠ [] := by
  cases h <;> exact List.cons_ne_nil _ _

/-! ## A walk -/

def pushesFrom : Nat → List UInt8 → List (List UInt8)
  | 0, _ => []
  | fuel + 1, bytes => match readPush bytes with
    | some (d, rest) => d :: pushesFrom fuel rest
    | none => []

def readPushes (bytes : List UInt8) : List (List UInt8) := pushesFrom bytes.length bytes

/-- No push stands at the head of `rest`. -/
def Ends (rest : List UInt8) : Prop := ∀ d enc, Encodes d enc → ¬ enc <+: rest

theorem ends_iff : Ends rest ↔ readPush rest = none := by
  rw [Option.eq_none_iff_forall_ne_some]
  constructor
  · rintro h ⟨d, tail⟩ hread
    obtain ⟨enc, henc, rfl⟩ := readPush_eq_some.mp hread
    exact h d enc henc (List.prefix_append _ _)
  · rintro h d enc henc ⟨tail, rfl⟩
    exact h (d, tail) (readPush_eq_some.mpr ⟨enc, henc, rfl⟩)

variable {ds : List (List UInt8)}

theorem pushesFrom_eq {fuel : Nat} (hfuel : bytes.length ≤ fuel) :
    pushesFrom fuel bytes = ds ↔ ∃ encs rest, List.Forall₂ Encodes ds encs ∧ Ends rest ∧ bytes = encs.flatten ++ rest := by
  induction fuel generalizing bytes ds with
  | zero =>
    have hnil : bytes = [] := List.length_eq_zero_iff.mp (Nat.le_zero.mp hfuel)
    subst hnil
    constructor
    · rintro rfl
      exact ⟨[], [], .nil, fun d enc henc hpre => henc.ne_nil (List.prefix_nil.mp hpre), rfl⟩
    · rintro ⟨encs, rest, hencs, -, hbytes⟩
      cases hencs with
      | nil => rfl
      | cons henc _ => exact absurd (List.append_eq_nil_iff.mp (List.append_eq_nil_iff.mp hbytes.symm).1).1 henc.ne_nil
  | succ fuel ih =>
    rw [pushesFrom]
    cases hread : readPush bytes with
    | none =>
      constructor
      · rintro rfl
        exact ⟨[], bytes, .nil, ends_iff.mpr hread, rfl⟩
      · rintro ⟨encs, rest, hencs, -, rfl⟩
        cases hencs with
        | nil => rfl
        | cons henc _ =>
          rw [List.flatten_cons, List.append_assoc] at hread
          exact absurd (List.prefix_append _ _) (ends_iff.mpr hread _ _ henc)
    | some p =>
      obtain ⟨d, tail⟩ := p
      obtain ⟨enc, henc, rfl⟩ := readPush_eq_some.mp hread
      have htail : tail.length ≤ fuel := by
        have hpos := List.length_pos_iff.mpr henc.ne_nil
        rw [List.length_append] at hfuel
        omega
      constructor
      · rintro rfl
        obtain ⟨encs, rest, hencs, hrest, hsplit⟩ := (ih htail).mp rfl
        exact ⟨enc :: encs, rest, .cons henc hencs, hrest, by rw [List.flatten_cons, List.append_assoc, ← hsplit]⟩
      · rintro ⟨encs, rest, hencs, hrest, hsplit⟩
        cases hencs with
        | nil =>
          rw [List.flatten_nil, List.nil_append] at hsplit
          exact absurd ⟨tail, hsplit⟩ (hrest d enc henc)
        | @cons d' enc' ds' encs' henc' hencs' =>
          rw [List.flatten_cons, List.append_assoc] at hsplit
          have hagain := readPush_eq_some.mpr ⟨enc', henc', hsplit⟩
          rw [hread] at hagain
          obtain ⟨rfl, rfl⟩ := Prod.mk.inj (Option.some.inj hagain)
          exact congrArg _ ((ih htail).mpr ⟨encs', rest, hencs', hrest, rfl⟩)

theorem readPushes_eq :
    readPushes bytes = ds ↔ ∃ encs rest, List.Forall₂ Encodes ds encs ∧ Ends rest ∧ bytes = encs.flatten ++ rest :=
  pushesFrom_eq (Nat.le_refl _)

/-! ## The shortest encodings -/

def pushData (d : List UInt8) : List UInt8 :=
  if d.length < 0x4c then UInt8.ofNat d.length :: d
  else if d.length ≤ 0xff then 0x4c :: (toLe 1 d.length ++ d)
  else 0x4d :: (toLe 2 d.length ++ d)

theorem encodes_pushData (h : d.length < 0x10000) : Encodes d (pushData d) := by
  unfold pushData
  split
  · exact .direct ‹_›
  · split
    · exact .sized .one (by omega)
    · exact .sized .two (by omega)

theorem length_pushData_le (hd : d.length < 0x4c) (h : Encodes d enc) :
    (pushData d).length ≤ enc.length ∧ (enc.length = (pushData d).length → enc = pushData d) := by
  rw [pushData, if_pos hd]
  cases h with
  | direct => exact ⟨Nat.le_refl _, fun _ => rfl⟩
  | sized hop =>
    have hk := lengthOp_iff.mp hop
    simp only [List.length_cons, List.length_append, length_toLe]
    omega

theorem length_flatten_le {encs : List (List UInt8)} (hds : ∀ d ∈ ds, d.length < 0x4c) (h : List.Forall₂ Encodes ds encs) :
    (ds.flatMap pushData).length ≤ encs.flatten.length ∧
      (encs.flatten.length = (ds.flatMap pushData).length → encs.flatten = ds.flatMap pushData) := by
  induction h with
  | nil => exact ⟨Nat.le_refl _, fun _ => rfl⟩
  | cons henc _ ih =>
    obtain ⟨hle, heq⟩ := length_pushData_le (hds _ List.mem_cons_self) henc
    obtain ⟨hrest, hsame⟩ := ih fun d hd => hds d (List.mem_cons_of_mem _ hd)
    simp only [List.flatMap_cons, List.flatten_cons, List.length_append]
    refine ⟨by omega, fun hlen => ?_⟩
    rw [heq (by omega), hsame (by omega)]

end PushWalk
