import Mathlib.Data.List.Infix

/-!
# Slices of a text, and computations that panic

A text is its characters and a slice counts its bytes in UTF-8. A computation
over a state ends with a value or an error, or it panics.
-/

namespace OverlayEngine.Slices

def byteLen : List Char → Nat
  | [] => 0
  | c :: cs => c.utf8Size + byteLen cs

/-- `&s[..n]`; `none`: it panics. -/
def sliceTo : List Char → Nat → Option (List Char)
  | _, 0 => some []
  | [], _ + 1 => none
  | c :: cs, n + 1 => if c.utf8Size ≤ n + 1 then (sliceTo cs (n + 1 - c.utf8Size)).map (c :: ·) else none

def IsCharBoundary (s : List Char) (n : Nat) : Prop := ∃ head, head <+: s ∧ byteLen head = n

theorem sliceTo_eq_some {s : List Char} {n : Nat} {head : List Char} : sliceTo s n = some head ↔ head <+: s ∧ byteLen head = n := by
  induction s generalizing n head with
  | nil =>
    cases n with
    | zero =>
      rw [sliceTo, Option.some_inj, List.prefix_nil]
      exact ⟨fun h => ⟨h.symm, by rw [← h]; rfl⟩, fun h => h.1.symm⟩
    | succ n =>
      rw [sliceTo, List.prefix_nil]
      refine ⟨fun h => (by cases h), fun ⟨hnil, hlen⟩ => ?_⟩
      rw [hnil] at hlen
      cases hlen
  | cons c cs ih =>
    have hc : 0 < c.utf8Size := c.utf8Size_pos
    cases n with
    | zero =>
      rw [sliceTo, Option.some_inj]
      refine ⟨fun h => ⟨h ▸ List.nil_prefix, by rw [← h]; rfl⟩, fun ⟨_, hlen⟩ => ?_⟩
      cases head with
      | nil => rfl
      | cons d ds =>
        have hd : 0 < d.utf8Size := d.utf8Size_pos
        simp only [byteLen] at hlen
        omega
    | succ n =>
      rw [sliceTo]
      split
      case isTrue hfits =>
        rw [Option.map_eq_some_iff]
        constructor
        · rintro ⟨rest, hrest, rfl⟩
          obtain ⟨hpre, hlen⟩ := ih.mp hrest
          refine ⟨List.cons_prefix_cons.mpr ⟨rfl, hpre⟩, ?_⟩
          simp only [byteLen]
          omega
        · rintro ⟨hpre, hlen⟩
          cases head with
          | nil => cases hlen
          | cons d ds =>
            obtain ⟨rfl, hds⟩ := List.cons_prefix_cons.mp hpre
            simp only [byteLen] at hlen
            exact ⟨ds, ih.mpr ⟨hds, by omega⟩, rfl⟩
      case isFalse hlarge =>
        refine ⟨fun h => (by cases h), fun ⟨hpre, hlen⟩ => ?_⟩
        cases head with
        | nil => cases hlen
        | cons d ds =>
          obtain ⟨rfl, _⟩ := List.cons_prefix_cons.mp hpre
          simp only [byteLen] at hlen
          omega

theorem sliceTo_isSome {s : List Char} {n : Nat} : (sliceTo s n).isSome = true ↔ IsCharBoundary s n := by
  rw [Option.isSome_iff_exists]
  exact exists_congr fun _ => sliceTo_eq_some

/-! ## Computations that panic -/

/-- A value or an error, and the state; `none`: a panic. -/
abbrev Run (σ ε α : Type) := ExceptT ε (StateT σ Option) α

variable {σ ε α β : Type}

namespace Run

def result (m : Run σ ε α) (s : σ) : Option (Except ε α × σ) := StateT.run (ExceptT.run m) s

def Ends (m : Run σ ε α) (s : σ) : Prop := (m.result s).isSome = true

instance (m : Run σ ε α) (s : σ) : Decidable (m.Ends s) := inferInstanceAs (Decidable (_ = true))

def orPanic (value : Option α) : Run σ ε α := fun s => value.map fun a => (.ok a, s)

@[simp] theorem result_orPanic (value : Option α) (s : σ) : (orPanic value : Run σ ε α).result s = value.map fun a => (.ok a, s) := rfl

theorem result_bind (m : Run σ ε α) (f : α → Run σ ε β) (s : σ) :
    (m >>= f).result s = (m.result s).bind fun r => r.1.casesOn (fun e => some (.error e, r.2)) fun a => (f a).result r.2 := by
  change (m s).bind (fun r => (ExceptT.bindCont f r.1) r.2) = (m s).bind _
  congr 1
  funext r
  rcases r with ⟨e | a, s'⟩ <;> rfl

theorem ends_pure (a : α) (s : σ) : (pure a : Run σ ε α).Ends s := rfl

theorem ends_throw (e : ε) (s : σ) : (throw e : Run σ ε α).Ends s := rfl

theorem ends_orPanic {value : Option α} {s : σ} : (orPanic value : Run σ ε α).Ends s ↔ value.isSome = true := by
  rw [Ends, result_orPanic, Option.isSome_map]

theorem ends_bind {m : Run σ ε α} {f : α → Run σ ε β} {s : σ} :
    (m >>= f).Ends s ↔ m.Ends s ∧ ∀ a s', m.result s = some (.ok a, s') → (f a).Ends s' := by
  unfold Ends
  rw [result_bind]
  cases hm : m.result s with
  | none => exact ⟨fun h => (by cases h), fun h => (by cases h.1)⟩
  | some r =>
    rcases r with ⟨e | a, s'⟩
    · exact ⟨fun _ => ⟨rfl, fun _ _ h => (by cases h)⟩, fun _ => rfl⟩
    · refine ⟨fun h => ⟨rfl, fun b s'' hb => ?_⟩, fun h => h.2 a s' rfl⟩
      cases hb
      exact h

theorem ends_orPanic_bind {value : Option α} {f : α → Run σ ε β} {s : σ} :
    (orPanic value >>= f).Ends s ↔ ∃ a, value = some a ∧ (f a).Ends s := by
  rw [ends_bind, ends_orPanic]
  cases value with
  | none => exact ⟨fun h => (by cases h.1), fun ⟨_, h, _⟩ => (by cases h)⟩
  | some a =>
    constructor
    · rintro ⟨-, h⟩
      exact ⟨a, rfl, h a s rfl⟩
    · rintro ⟨b, hb, h⟩
      cases hb
      refine ⟨rfl, fun a' s' hres => ?_⟩
      cases hres
      exact h

theorem ends_get_bind {f : σ → Run σ ε β} {s : σ} : (get >>= f).Ends s ↔ (f s).Ends s := by
  rw [ends_bind]
  refine ⟨fun h => h.2 s s rfl, fun h => ⟨rfl, fun a s' hres => ?_⟩⟩
  cases hres
  exact h

theorem ends_modify (g : σ → σ) (s : σ) : (modify g : Run σ ε PUnit).Ends s := rfl

end Run

end OverlayEngine.Slices
