import Mathlib.Tactic.Common

/-!
# Counted loops over a state that outlives a stop

A run leaves a state behind also where it stops. Two measures of that state are
followed through the sequences and the counted loops of a run: a weight, with a
limit past which one of two runs stops and the other goes on; and a position,
against which the turns of the loops are counted.
-/

namespace OverlayEngine.CountedRuns

/-- A run: its value, or `none` where it stopped, and the state it leaves. -/
def Run (σ α : Type) := σ → Option α × σ

variable {σ α β : Type}

instance : Monad (Run σ) where
  pure a := fun s => (some a, s)
  bind m f := fun s =>
    match m s with
    | (some a, s') => f a s'
    | (none, s') => (none, s')

namespace Run

def stop : Run σ α := fun s => (none, s)

def state : Run σ σ := fun s => (some s, s)

def modify (g : σ → σ) : Run σ Unit := fun s => (some (), g s)

/-- A loop counted in advance, `step` carrying its accumulator. -/
def times (step : α → Run σ α) : Nat → α → Run σ α
  | 0, acc => pure acc
  | n + 1, acc => do
    let acc ← step acc
    times step n acc

theorem bind_apply (m : Run σ α) (f : α → Run σ β) (s : σ) :
    (m >>= f) s = match m s with
      | (some a, s') => f a s'
      | (none, s') => (none, s') := rfl

theorem bind_some {m : Run σ α} {f : α → Run σ β} {s s' : σ} {a : α} (h : m s = (some a, s')) : (m >>= f) s = f a s' := by
  rw [bind_apply, h]

theorem bind_none {m : Run σ α} {f : α → Run σ β} {s s' : σ} (h : m s = (none, s')) : (m >>= f) s = (none, s') := by
  rw [bind_apply, h]

theorem bind_assoc {γ : Type} (m : Run σ α) (f : α → Run σ β) (g : β → Run σ γ) : m >>= f >>= g = m >>= fun a => f a >>= g := by
  funext s
  rw [bind_apply, bind_apply, bind_apply]
  rcases m s with ⟨a | a, s'⟩ <;> rfl

end Run

open Run

/-! ## A weight and its limit -/

section
variable (weight : σ → Nat) (stopped : σ → Prop) (limit : Nat)

def Grows (m : Run σ α) : Prop := ∀ s, weight s ≤ weight (m s).2

/-- From a state within the limit, `m` ends as `m'` within the limit, or stops past it, where `m'` comes past it too. -/
def Within (m m' : Run σ α) : Prop := ∀ s, weight s ≤ limit → ¬ stopped s →
  m s = m' s ∧ weight (m s).2 ≤ limit ∧ ¬ stopped (m s).2 ∨
    (m s).1 = none ∧ stopped (m s).2 ∧ limit < weight (m s).2 ∧ limit < weight (m' s).2

/-- `m` is `m'` with the limit observed. -/
structure Paced (m m' : Run σ α) : Prop where
  grows : Grows weight m'
  within : Within weight stopped limit m m'

variable {weight stopped limit}

theorem Paced.refl {m : Run σ α} (hweight : ∀ s, weight (m s).2 = weight s) (hstopped : ∀ s, stopped (m s).2 → stopped s) :
    Paced weight stopped limit m m where
  grows s := Nat.le_of_eq (hweight s).symm
  within s hs hstop := .inl ⟨rfl, by rw [hweight]; exact hs, fun h => hstop (hstopped s h)⟩

theorem Paced.pure (a : α) : Paced weight stopped limit (pure a : Run σ α) (pure a) :=
  .refl (fun _ => rfl) fun _ h => h

theorem Paced.stop : Paced weight stopped limit (Run.stop : Run σ α) Run.stop := .refl (fun _ => rfl) fun _ h => h

theorem Paced.state : Paced weight stopped limit (Run.state : Run σ σ) Run.state := .refl (fun _ => rfl) fun _ h => h

theorem Grows.bind {m : Run σ α} {f : α → Run σ β} (hm : Grows weight m) (hf : ∀ a, Grows weight (f a)) : Grows weight (m >>= f) := by
  intro s
  have hs := hm s
  rw [bind_apply]
  rcases h : m s with ⟨a | a, s'⟩
  · rwa [h] at hs
  · rw [h] at hs
    exact Nat.le_trans hs (hf a s')

theorem Paced.bind {m m' : Run σ α} {f f' : α → Run σ β} (hm : Paced weight stopped limit m m')
    (hf : ∀ a, Paced weight stopped limit (f a) (f' a)) : Paced weight stopped limit (m >>= f) (m' >>= f') where
  grows := hm.grows.bind fun a => (hf a).grows
  within s hs hstop := by
    rcases hm.within s hs hstop with ⟨hsame, hin, hgoes⟩ | ⟨hnone, hstops, hpast, hpast'⟩
    · rw [bind_apply, bind_apply, ← hsame]
      rcases h : m s with ⟨a | a, s'⟩
      · rw [h] at hin hgoes
        exact .inl ⟨rfl, hin, hgoes⟩
      · rw [h] at hin hgoes
        exact (hf a).within s' hin hgoes
    · -- the limited run stopped in `m`; the other may go on, its weight already past the limit
      refine .inr ?_
      have hm' : limit < weight ((m' >>= f') s).2 := by
        rw [bind_apply]
        rcases h : m' s with ⟨a | a, s'⟩
        · rwa [h] at hpast'
        · rw [h] at hpast'
          exact Nat.lt_of_lt_of_le hpast' ((hf a).grows s')
      rcases h : m s with ⟨a | a, s'⟩
      · rw [h] at hstops hpast
        rw [bind_none h]
        exact ⟨rfl, hstops, hpast, hm'⟩
      · rw [h] at hnone
        cases hnone

theorem Paced.times {step step' : α → Run σ α} (h : ∀ a, Paced weight stopped limit (step a) (step' a)) (n : Nat) (acc : α) :
    Paced weight stopped limit (times step n acc) (times step' n acc) := by
  induction n generalizing acc with
  | zero => exact .pure acc
  | succ n ih => exact (h acc).bind ih

end

/-! ## Turns and positions -/

section
variable (turns position : σ → Nat)

/-- Each turn is paid for by a step of the position, up to the one turn in which a run stops; with `k = 1` one step
is left when the run goes on. -/
structure Spends (k : Nat) (m : Run σ α) : Prop where
  goesOn : ∀ s a s', m s = (some a, s') → turns s' + position s + k ≤ turns s + position s'
  stops : ∀ s s', m s = (none, s') → turns s' + position s + k ≤ turns s + position s' + 1

variable {turns position} {m : Run σ α}

theorem Spends.free (hturns : ∀ s, turns (m s).2 = turns s) (hposition : ∀ s, position s ≤ position (m s).2) :
    Spends turns position 0 m where
  goesOn s a s' h := by
    have ht := hturns s
    have hp := hposition s
    rw [h] at ht hp
    dsimp only at ht hp
    omega
  stops s s' h := by
    have ht := hturns s
    have hp := hposition s
    rw [h] at ht hp
    dsimp only at ht hp
    omega

theorem Spends.pure (a : α) : Spends turns position 0 (pure a : Run σ α) := .free (fun _ => rfl) fun _ => Nat.le_refl _

theorem Spends.stop {k : Nat} (hk : k ≤ 1) : Spends turns position k (Run.stop : Run σ α) where
  goesOn s a s' h := by cases h
  stops s s' h := by
    cases h
    omega

theorem Spends.state : Spends turns position 0 (Run.state : Run σ σ) := .free (fun _ => rfl) fun _ => Nat.le_refl _

theorem Spends.weaken (h : Spends turns position 1 m) : Spends turns position 0 m where
  goesOn s a s' hs := Nat.le_of_succ_le (h.goesOn s a s' hs)
  stops s s' hs := Nat.le_of_succ_le (h.stops s s' hs)

theorem Spends.bind {k : Nat} {f : α → Run σ β} (hm : Spends turns position k m) (hf : ∀ a, Spends turns position 0 (f a)) :
    Spends turns position k (m >>= f) where
  goesOn s b s' h := by
    rcases hres : m s with ⟨a | a, s₁⟩
    · rw [bind_none hres] at h
      cases h
    · rw [bind_some hres] at h
      have h₁ := hm.goesOn s a s₁ hres
      have h₂ := (hf a).goesOn s₁ b s' h
      omega
  stops s s' h := by
    rcases hres : m s with ⟨a | a, s₁⟩
    · rw [bind_none hres] at h
      cases h
      exact hm.stops s s' hres
    · rw [bind_some hres] at h
      have h₁ := hm.goesOn s a s₁ hres
      have h₂ := (hf a).stops s₁ s' h
      omega

theorem Spends.after {f : α → Run σ β} (hm : Spends turns position 0 m) (hgoes : ∀ s, (m s).1 ≠ none)
    (hf : ∀ a, Spends turns position 1 (f a)) : Spends turns position 1 (m >>= f) where
  goesOn s b s' h := by
    rcases hres : m s with ⟨a | a, s₁⟩
    · exact absurd (congrArg Prod.fst hres) (hgoes s)
    · rw [bind_some hres] at h
      have h₁ := hm.goesOn s a s₁ hres
      have h₂ := (hf a).goesOn s₁ b s' h
      omega
  stops s s' h := by
    rcases hres : m s with ⟨a | a, s₁⟩
    · exact absurd (congrArg Prod.fst hres) (hgoes s)
    · rw [bind_some hres] at h
      have h₁ := hm.goesOn s a s₁ hres
      have h₂ := (hf a).stops s₁ s' h
      omega

theorem Spends.turn {turn : Run σ Unit} (hturn : ∀ s, ∃ s', turn s = (some (), s') ∧ turns s' = turns s + 1 ∧ position s' = position s)
    (hm : Spends turns position 1 m) : Spends turns position 0 (turn >>= fun _ => m) where
  goesOn s b s' h := by
    obtain ⟨s₁, hres, ht, hp⟩ := hturn s
    rw [bind_some hres] at h
    have h₂ := hm.goesOn s₁ b s' h
    omega
  stops s s' h := by
    obtain ⟨s₁, hres, ht, hp⟩ := hturn s
    rw [bind_some hres] at h
    have h₂ := hm.stops s₁ s' h
    omega

theorem Spends.times {step : α → Run σ α} (h : ∀ a, Spends turns position 0 (step a)) (n : Nat) (acc : α) :
    Spends turns position 0 (times step n acc) := by
  induction n generalizing acc with
  | zero => exact .pure acc
  | succ n ih => exact (h acc).bind ih

end

end OverlayEngine.CountedRuns
