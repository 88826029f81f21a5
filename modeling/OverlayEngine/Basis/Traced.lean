import Mathlib.Tactic.Common

/-!
# Programs that leave a trace

A program over a state that also leaves events, newest first. Assertions are
about the state and the trace so far; a program's rule says what it makes of
them, and the rules compose along its text.
-/

abbrev Traced (σ ε : Type) := StateM (σ × List ε)

namespace Traced

variable {σ ε α β : Type}

abbrev Assn (σ ε : Type) := σ → List ε → Prop

def emit (e : ε) : Traced σ ε Unit := fun s => ((), s.1, e :: s.2)

def Triple (P : Assn σ ε) (m : Traced σ ε α) (Q : α → Assn σ ε) : Prop :=
  ∀ s t, P s t → Q (m (s, t)).1 (m (s, t)).2.1 (m (s, t)).2.2

namespace Triple

variable {P P' : Assn σ ε} {Q Q' : α → Assn σ ε} {R : β → Assn σ ε} {m : Traced σ ε α} {f : α → Traced σ ε β}

theorem pure (a : α) : Triple (Q a) (Pure.pure a : Traced σ ε α) Q := fun _ _ h => h

theorem bind (hm : Triple P m Q) (hf : ∀ a, Triple (Q a) (f a) R) : Triple P (m >>= f) R := by
  intro s t h
  exact hf (m (s, t)).1 (m (s, t)).2.1 (m (s, t)).2.2 (hm s t h)

theorem conseq (hm : Triple P m Q) (hp : ∀ s t, P' s t → P s t) (hq : ∀ a s t, Q a s t → Q' a s t) : Triple P' m Q' :=
  fun s t h => hq _ _ _ (hm s t (hp s t h))

theorem pre (hm : Triple P m Q) (hp : ∀ s t, P' s t → P s t) : Triple P' m Q := hm.conseq hp fun _ _ _ h => h

theorem post (hm : Triple P m Q) (hq : ∀ a s t, Q a s t → Q' a s t) : Triple P m Q' := hm.conseq (fun _ _ h => h) hq

theorem ex {γ : Type} {P : γ → Assn σ ε} (h : ∀ c, Triple (P c) m Q) : Triple (fun s t => ∃ c, P c s t) m Q :=
  fun s t ⟨c, hc⟩ => h c s t hc

theorem emit {e : ε} {P : Assn σ ε} : Triple P (Traced.emit e) fun _ s t => ∃ t', t = e :: t' ∧ P s t' := fun _ t h => ⟨t, rfl, h⟩

theorem foldlM {γ : Type} {I : Assn σ ε} {g : α → γ → Traced σ ε α} (hg : ∀ a c, Triple I (g a c) fun _ => I) (l : List γ) (a : α) :
    Triple I (l.foldlM g a) fun _ => I := by
  induction l generalizing a with
  | nil => exact fun _ _ h => h
  | cons c rest ih =>
    rw [List.foldlM_cons]
    exact (hg a c).bind ih

end Triple

end Traced
