import Mathlib.Algebra.GroupWithZero.Nat

/-!
# A depth-first walk with an explicit stack

A frame is an open node with the successors it has yet to visit. To enter a node
is to skip it, to open it with its successors, or to end the walk with an error;
an open node closes after its last successor. The walk computes what the plain
recursion does, and it ends where each node that opens pays for its successors.
-/

namespace DepthFirst

variable {α φ σ ε : Type}

section
variable (enter : σ → α → Except ε (σ × Option (φ × List α))) (close : σ → φ → Except ε σ)

/-- `none`: the fuel ran out. -/
def run : Nat → List (φ × List α) → σ → Option (Except ε σ)
  | _, [], s => some (.ok s)
  | 0, _ :: _, _ => none
  | fuel + 1, (f, []) :: frames, s =>
    match close s f with
    | .error e => some (.error e)
    | .ok s' => run fuel frames s'
  | fuel + 1, (f, x :: xs) :: frames, s =>
    match enter s x with
    | .error e => some (.error e)
    | .ok (s', none) => run fuel ((f, xs) :: frames) s'
    | .ok (s', some (g, next)) => run fuel ((g, next) :: (f, xs) :: frames) s'

def walk (fuel : Nat) (s : σ) (x : α) : Option (Except ε σ) :=
  match enter s x with
  | .error e => some (.error e)
  | .ok (s', none) => some (.ok s')
  | .ok (s', some (f, next)) => run enter close fuel [(f, next)] s'

inductive Visits : σ → List α → Except ε σ → Prop where
  | nil (s : σ) : Visits s [] (.ok s)
  | fail {s : σ} {x : α} {xs : List α} {e : ε} : enter s x = .error e → Visits s (x :: xs) (.error e)
  | skip {s s' : σ} {x : α} {xs : List α} {r : Except ε σ} : enter s x = .ok (s', none) → Visits s' xs r → Visits s (x :: xs) r
  | inside {s s₁ : σ} {x : α} {xs next : List α} {f : φ} {e : ε} : enter s x = .ok (s₁, some (f, next)) → Visits s₁ next (.error e) →
      Visits s (x :: xs) (.error e)
  | closing {s s₁ s₂ : σ} {x : α} {xs next : List α} {f : φ} {e : ε} : enter s x = .ok (s₁, some (f, next)) → Visits s₁ next (.ok s₂) →
      close s₂ f = .error e → Visits s (x :: xs) (.error e)
  | node {s s₁ s₂ s₃ : σ} {x : α} {xs next : List α} {f : φ} {r : Except ε σ} : enter s x = .ok (s₁, some (f, next)) →
      Visits s₁ next (.ok s₂) → close s₂ f = .ok s₃ → Visits s₃ xs r → Visits s (x :: xs) r

def Unwinds : σ → List (φ × List α) → Except ε σ → Prop
  | s, [], r => r = .ok s
  | s, (f, xs) :: frames, r => (∃ e, Visits enter close s xs (.error e) ∧ r = .error e) ∨ ∃ s₁, Visits enter close s xs (.ok s₁) ∧
      ((∃ e, close s₁ f = .error e ∧ r = .error e) ∨ ∃ s₂, close s₁ f = .ok s₂ ∧ Unwinds s₂ frames r)

end

variable {enter : σ → α → Except ε (σ × Option (φ × List α))} {close : σ → φ → Except ε σ} {r : Except ε σ} {I : σ → Prop} {s : σ}

theorem Visits.keeps {E : ε → Prop}
    (henter : ∀ s x, I s → (∀ e, enter s x = .error e → E e) ∧ ∀ s' opened, enter s x = .ok (s', opened) → I s')
    (hclose : ∀ s f, I s → (∀ e, close s f = .error e → E e) ∧ ∀ s', close s f = .ok s' → I s') {xs : List α}
    (h : Visits enter close s xs r) (hs : I s) : (∀ s', r = .ok s' → I s') ∧ ∀ e, r = .error e → E e := by
  induction h with
  | nil s => exact ⟨fun s' heq => (by cases heq; exact hs), fun e heq => by cases heq⟩
  | fail h => exact ⟨fun s' heq => (by cases heq), fun e heq => by cases heq; exact (henter _ _ hs).1 _ h⟩
  | skip h _ ih => exact ih ((henter _ _ hs).2 _ _ h)
  | inside h _ ih => exact ⟨fun s' heq => (by cases heq), fun e heq => by cases heq; exact (ih ((henter _ _ hs).2 _ _ h)).2 _ rfl⟩
  | closing h _ hc ih =>
    have hs₂ := (ih ((henter _ _ hs).2 _ _ h)).1 _ rfl
    exact ⟨fun s' heq => (by cases heq), fun e heq => by cases heq; exact (hclose _ _ hs₂).1 _ hc⟩
  | node h _ hc _ ih ihrest => exact ihrest ((hclose _ _ ((ih ((henter _ _ hs).2 _ _ h)).1 _ rfl)).2 _ hc)

/-! ## The stack and the recursion -/

variable {frames : List (φ × List α)}

theorem Unwinds.lift {s' : σ} {f : φ} {x : α} {xs : List α}
    (h : Unwinds enter close s' ((f, xs) :: frames) r)
    (hlift : ∀ r, Visits enter close s' xs r → Visits enter close s (x :: xs) r) : Unwinds enter close s ((f, x :: xs) :: frames) r := by
  rcases h with ⟨e, hvisits, rfl⟩ | ⟨s₁, hvisits, hclose⟩
  · exact .inl ⟨e, hlift _ hvisits, rfl⟩
  · exact .inr ⟨s₁, hlift _ hvisits, hclose⟩

variable {fuel : Nat}

theorem run_unwinds (h : run enter close fuel frames s = some r) :
    Unwinds enter close s frames r := by
  induction fuel generalizing frames s with
  | zero =>
    cases frames with
    | nil => exact (Option.some.inj h).symm
    | cons frame frames => cases h
  | succ fuel ih =>
    match frames with
    | [] => exact (Option.some.inj h).symm
    | (f, []) :: frames =>
      rw [run] at h
      refine .inr ⟨s, .nil s, ?_⟩
      cases hclose : close s f with
      | error e =>
        rw [hclose] at h
        exact .inl ⟨e, rfl, (Option.some.inj h).symm⟩
      | ok s' =>
        rw [hclose] at h
        exact .inr ⟨s', rfl, ih h⟩
    | (f, x :: xs) :: frames =>
      rw [run] at h
      cases henter : enter s x with
      | error e =>
        rw [henter] at h
        exact .inl ⟨e, .fail henter, (Option.some.inj h).symm⟩
      | ok entered =>
        rw [henter] at h
        obtain ⟨s', opened⟩ := entered
        cases opened with
        | none => exact (ih h).lift fun r hr => .skip henter hr
        | some opened =>
          obtain ⟨g, next⟩ := opened
          rcases ih h with ⟨e, hvisits, rfl⟩ | ⟨s₁, hvisits, hrest⟩
          · exact .inl ⟨e, .inside henter hvisits, rfl⟩
          · rcases hrest with ⟨e, hclose, rfl⟩ | ⟨s₂, hclose, hrest⟩
            · exact .inl ⟨e, .closing henter hvisits hclose, rfl⟩
            · exact hrest.lift fun r hr => .node henter hvisits hclose hr

theorem walk_visits {x : α} (h : walk enter close fuel s x = some r) : Visits enter close s [x] r := by
  unfold walk at h
  cases henter : enter s x with
  | error e =>
    rw [henter] at h
    exact Option.some.inj h ▸ .fail henter
  | ok entered =>
    rw [henter] at h
    obtain ⟨s', opened⟩ := entered
    cases opened with
    | none => exact Option.some.inj h ▸ .skip henter (.nil s')
    | some opened =>
      obtain ⟨f, next⟩ := opened
      rcases run_unwinds h with ⟨e, hvisits, rfl⟩ | ⟨s₁, hvisits, hrest⟩
      · exact .inside henter hvisits
      · rcases hrest with ⟨e, hclose, rfl⟩ | ⟨s₂, hclose, hr⟩
        · exact .closing henter hvisits hclose
        · exact (show r = .ok s₂ from hr) ▸ .node henter hvisits hclose (.nil s₂)

/-! ## The walk ends -/

structure Pays (enter : σ → α → Except ε (σ × Option (φ × List α))) (close : σ → φ → Except ε σ) (I : σ → Prop) (room : σ → Nat) : Prop where
  skip : ∀ s x s', I s → enter s x = .ok (s', none) → I s' ∧ room s' ≤ room s
  opening : ∀ s x s' f next, I s → enter s x = .ok (s', some (f, next)) → I s' ∧ next.length + 1 + room s' ≤ room s
  close : ∀ s f s', I s → close s f = .ok s' → I s' ∧ room s' ≤ room s

def owed (frames : List (φ × List α)) : Nat := (frames.map fun frame => frame.2.length + 1).sum

theorem run_isSome {room : σ → Nat} (hpays : Pays enter close I room) (fuel : Nat) (frames : List (φ × List α)) (s : σ) (hs : I s)
    (hfuel : owed frames + room s ≤ fuel) : (run enter close fuel frames s).isSome = true := by
  induction fuel generalizing frames s with
  | zero =>
    cases frames with
    | nil => rfl
    | cons frame frames =>
      rw [owed, List.map_cons, List.sum_cons] at hfuel
      omega
  | succ fuel ih =>
    match frames with
    | [] => rfl
    | (f, []) :: frames =>
      rw [run]
      rw [owed, List.map_cons, List.sum_cons, ← owed] at hfuel
      cases hclose : close s f with
      | error e => rfl
      | ok s' =>
        obtain ⟨hs', hroom⟩ := hpays.close s f s' hs hclose
        exact ih frames s' hs' (by dsimp only at hfuel; omega)
    | (f, x :: xs) :: frames =>
      rw [run]
      rw [owed, List.map_cons, List.sum_cons, ← owed] at hfuel
      dsimp only [List.length_cons] at hfuel
      cases henter : enter s x with
      | error e => rfl
      | ok entered =>
        obtain ⟨s', opened⟩ := entered
        cases opened with
        | none =>
          obtain ⟨hs', hroom⟩ := hpays.skip s x s' hs henter
          refine ih _ s' hs' ?_
          rw [owed, List.map_cons, List.sum_cons, ← owed]
          dsimp only
          omega
        | some opened =>
          obtain ⟨g, next⟩ := opened
          obtain ⟨hs', hroom⟩ := hpays.opening s x s' g next hs henter
          refine ih _ s' hs' ?_
          rw [owed, List.map_cons, List.sum_cons, List.map_cons, List.sum_cons, ← owed]
          dsimp only
          omega

theorem walk_isSome {room : σ → Nat} (hpays : Pays enter close I room) (hs : I s) (hfuel : room s ≤ fuel)
    (x : α) : (walk enter close fuel s x).isSome = true := by
  unfold walk
  cases henter : enter s x with
  | error e => rfl
  | ok entered =>
    obtain ⟨s', opened⟩ := entered
    cases opened with
    | none => rfl
    | some opened =>
      obtain ⟨f, next⟩ := opened
      obtain ⟨hs', hroom⟩ := hpays.opening s x s' f next hs henter
      refine run_isSome hpays fuel _ s' hs' ?_
      rw [owed, List.map_cons, List.sum_cons, List.map_nil, List.sum_nil]
      dsimp only
      omega

end DepthFirst
