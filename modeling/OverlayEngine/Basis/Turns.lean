import OverlayEngine.Basis.Faulty

/-!
# Loops whose turns spend

What a run answers in every world, how many calls it makes, and when a loop
ends of itself: a measure falls at each turn that goes on. A loop written with
fuel computes what its turns do as long as they end within the fuel.
-/

namespace Faulty

variable {σ α β : Type}

/-! ## Answers -/

/-- Whatever the world, `x` answers in `F`. -/
def Yields (x : Run σ α) (F : α → Prop) : Prop := ∀ w, F (x w).1

section
variable {x : Run σ α} {f : α → Run σ β} {F F' : α → Prop} {G : β → Prop}

theorem yields_pure {a : α} (h : F a) : Yields (pure a : Run σ α) F := fun _ => h

theorem yields_bind (hx : Yields x F) (hf : ∀ a, F a → Yields (f a) G) : Yields (x >>= f) G :=
  fun w => hf _ (hx w) (x w).2

theorem yields_after (hf : ∀ a, Yields (f a) G) : Yields (x >>= f) G := fun w => hf _ (x w).2

theorem Yields.mono (hx : Yields x F) (h : ∀ a, F a → F' a) : Yields x F' := fun w => h _ (hx w)

end

/-! ## Calls made -/

def World.left (w : World σ) : Nat := w.outcomes.length + w.due.toNat

/-- `x` makes at most `k` calls and answers `a`, in `Q a k`. -/
def Charges (x : Run σ α) (Q : α → Nat → Prop) : Prop := ∀ w, ∃ k, w.left ≤ (x w).2.left + k ∧ Q (x w).1 k

section
variable {x : Run σ α} {f : α → Run σ β} {Q Q' : α → Nat → Prop} {R : β → Nat → Prop}

theorem charges_pure {a : α} (h : Q a 0) : Charges (pure a : Run σ α) Q := fun _ => ⟨0, Nat.le_refl _, h⟩

theorem charges_bind (hx : Charges x Q) (hf : ∀ a k, Q a k → Charges (f a) fun b j => R b (k + j)) :
    Charges (x >>= f) R := by
  intro w
  obtain ⟨k, hk, hq⟩ := hx w
  obtain ⟨j, hj, hr⟩ := hf _ k hq (x w).2
  refine ⟨k + j, ?_, hr⟩
  show w.left ≤ (f (x w).1 (x w).2).2.left + (k + j)
  omega

theorem Charges.mono (hx : Charges x Q) (h : ∀ a k, Q a k → Q' a k) : Charges x Q' := by
  intro w
  obtain ⟨k, hk, hq⟩ := hx w
  exact ⟨k, hk, h _ _ hq⟩

theorem Charges.yields {F : α → Prop} (hx : Charges x Q) (h : ∀ a k, Q a k → F a) : Yields x F := by
  intro w
  obtain ⟨k, -, hq⟩ := hx w
  exact h _ _ hq

end

/-- `x` makes no call. -/
abbrev Free (x : Run σ α) : Prop := Charges x fun _ k => k = 0

theorem charges_after {x : Run σ α} {f : α → Run σ β} {R : β → Nat → Prop} (hx : Free x) (hf : ∀ a, Charges (f a) R) :
    Charges (x >>= f) R := by
  refine charges_bind hx fun a k hk => ?_
  subst hk
  exact (hf a).mono fun b j h => by rw [Nat.zero_add]; exact h

theorem charges_call {bound : Option Nat} {effect : σ → σ} {answer : σ → α} :
    Charges (call bound effect answer) fun _ k => k = 1 := by
  intro w
  refine ⟨1, ?_, rfl⟩
  obtain ⟨s, os, due⟩ := w
  unfold call
  split
  · exact Nat.le_succ _
  · split
    · exact Nat.le_succ _
    · rename_i h
      cases h
      simp only [World.left, List.length_cons]
      omega
    · rename_i h
      cases h
      simp only [World.left, List.length_cons]
      omega
    · rename_i h
      cases h
      split
      · simp only [World.left, List.length_cons]
        omega
      · simp only [World.left, List.length_cons, Bool.toNat_true]
        have := Bool.toNat_le due
        omega

theorem free_asked {bound : Option Nat} : Free (asked bound : Run σ _) := by
  intro w
  refine ⟨0, ?_, rfl⟩
  obtain ⟨s, os, due⟩ := w
  unfold asked
  split
  · exact Nat.le_refl _
  · exact Nat.le_refl _
  · split
    · rename_i hdue _ _ _ h
      cases h
      cases hdue
      simp [World.left]
    · exact Nat.le_refl _

theorem free_update {f : σ → σ} : Free (update f) := fun _ => ⟨0, Nat.le_refl _, rfl⟩

theorem free_read {f : σ → α} : Free (read f) := fun _ => ⟨0, Nat.le_refl _, rfl⟩

/-! ## Turns -/

/-- The first `n` turns of a loop: `none` when it has not ended by then. -/
def turns (turn : α → Run σ (α ⊕ β)) : Nat → α → Run σ (Option β)
  | 0, _ => pure none
  | n + 1, a => turn a >>= Sum.elim (turns turn n) fun b => pure (some b)

/-- A turn that goes on from a state in `I` stays in `I` and lowers `μ`. -/
def Descends (I : α → Prop) (μ : α → Nat) (turn : α → Run σ (α ⊕ β)) : Prop :=
  ∀ a, I a → Yields (turn a) fun r => ∀ a', r = .inl a' → I a' ∧ μ a' < μ a

section
variable {turn : α → Run σ (α ⊕ β)} {I : α → Prop} {μ : α → Nat}

theorem turns_end (h : Descends I μ turn) : ∀ n a, I a → μ a < n → Yields (turns turn n a) fun r => r.isSome = true
  | 0, _, _, hn => by omega
  | n + 1, a, ha, hn => by
    refine yields_bind (h a ha) fun r hr => ?_
    cases r with
    | inl a' =>
      obtain ⟨ha', hμ⟩ := hr a' rfl
      exact turns_end h n a' ha' (by omega)
    | inr b => exact yields_pure rfl

theorem fueled_eq {loop : Nat → α → Run σ β} (hl : ∀ n a, loop (n + 1) a = turn a >>= Sum.elim (loop n) pure) :
    ∀ n a w, ((turns turn n a w).1.isSome = true) → some (loop n a w).1 = (turns turn n a w).1 ∧
      (loop n a w).2 = (turns turn n a w).2
  | 0, _, _, h => by cases h
  | n + 1, a, w, h => by
    rw [hl]
    have ht : turns turn (n + 1) a w = (Sum.elim (turns turn n) (fun b => pure (some b)) (turn a w).1) (turn a w).2 := rfl
    have hr : (turn a >>= Sum.elim (loop n) pure) w = (Sum.elim (loop n) pure (turn a w).1) (turn a w).2 := rfl
    rw [ht] at h
    rw [ht, hr]
    generalize (turn a w).2 = w' at h ⊢
    cases hd : (turn a w).1 with
    | inl a' =>
      rw [hd] at h
      exact fueled_eq hl n a' w' h
    | inr b => exact ⟨rfl, rfl⟩

theorem yields_turns {F : β → Prop} (hturn : ∀ a, I a → Yields (turn a) fun r => r.elim I F) :
    ∀ n a, I a → Yields (turns turn n a) fun r => ∀ b, r = some b → F b
  | 0, _, _ => yields_pure fun _ h => by cases h
  | n + 1, a, ha => by
    refine yields_bind (hturn a ha) fun r hr => ?_
    cases r with
    | inl a' => exact yields_turns hturn n a' hr
    | inr b =>
      refine yields_pure fun b' h => ?_
      cases h
      exact hr

theorem yields_fueled {F : β → Prop} {loop : Nat → α → Run σ β} (hl : ∀ n a, loop (n + 1) a = turn a >>= Sum.elim (loop n) pure)
    (hturn : ∀ a, I a → Yields (turn a) fun r => r.elim (fun a' => I a' ∧ μ a' < μ a) F) {n : Nat} {a : α} (ha : I a) (hn : μ a < n) :
    Yields (loop n a) F := by
  intro w
  have descends : Descends I μ turn := fun a ha => (hturn a ha).mono fun r hr a' h => by cases h; exact hr
  have stays (a : α) (ha : I a) : Yields (turn a) fun r => r.elim I F :=
    (hturn a ha).mono fun r hr => by
      cases r with
      | inl a' => exact hr.1
      | inr b => exact hr
  obtain ⟨h, -⟩ := fueled_eq hl n a w (turns_end descends n a ha hn w)
  exact yields_turns stays n a ha w _ h.symm

end

end Faulty
