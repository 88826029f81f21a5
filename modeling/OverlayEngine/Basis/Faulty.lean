import Mathlib.Data.List.Basic
import Mathlib.Tactic.Common

/-!
# Programs over calls that may fault

A program changes a state only through `call`. Each call takes its outcome
from the schedule of the world: it answers, or it faults, and a call that
faults may have taken effect all the same. A bounded caller stops waiting
once its deadline is due and starts no further call until it renews it.

A `Triple` is about the schedules its `Faults` allow: any, or none that
faults. `One` is a triple over a schedule with at most one fault.
-/

namespace Faulty

inductive Outcome where
  | ok
  | fault (error : String) (landed : Bool)
  | noAnswer (landed : Bool)

structure World (σ : Type) where
  state : σ
  outcomes : List Outcome := []
  due : Bool := false

abbrev Run (σ : Type) := StateM (World σ)

section
variable {σ α β : Type}

/-- What an unanswered call under a deadline of `ms` reports. -/
def unanswered (ms : Nat) : String := "no answer within " ++ toString ms ++ " ms"

/-- A call under `bound` (its deadline in ms, or none). -/
def call (bound : Option Nat) (effect : σ → σ) (answer : σ → α) : Run σ (Except String α) := fun w =>
  match bound, w.due with
  | some ms, true => (.error (unanswered ms), w)
  | bound, _ =>
    match w.outcomes with
    | [] => (.ok (answer w.state), { w with state := effect w.state })
    | .ok :: rest => (.ok (answer w.state), { w with state := effect w.state, outcomes := rest })
    | .fault e landed :: rest =>
      (.error e, { w with state := if landed then effect w.state else w.state, outcomes := rest })
    | .noAnswer landed :: rest =>
      match bound with
      -- with no deadline the caller waits for the answer
      | none => (.ok (answer w.state), { w with state := effect w.state, outcomes := rest })
      | some ms =>
        (.error (unanswered ms),
          { state := if landed then effect w.state else w.state, outcomes := rest, due := true })

def asked (bound : Option Nat) : Run σ (Except String Unit) := fun w =>
  match bound, w.due with
  | none, _ => (.ok (), w)
  | some ms, true => (.error (unanswered ms), w)
  | some ms, false =>
    match w.outcomes with
    | .noAnswer _ :: rest => (.error (unanswered ms), { w with outcomes := rest, due := true })
    | _ => (.ok (), w)

def renew (bound : Option Nat) : Run σ Unit := fun w =>
  match bound with
  | none => ((), w)
  | some _ => ((), { w with due := false })

def isDue (bound : Option Nat) : Run σ Bool := fun w => (bound.isSome && w.due, w)

def update (f : σ → σ) : Run σ Unit := fun w => ((), { w with state := f w.state })

def read (f : σ → α) : Run σ α := fun w => (f w.state, w)

variable {x : Run σ α} {w w' : World σ} {a : α}

theorem bind_run (h : x w = (a, w')) (f : α → Run σ β) :
    (x >>= f) w = f a w' := by
  show f (x w).1 (x w).2 = f a w'
  rw [h]

/-! ## Weakest preconditions -/

def wp (x : Run σ α) (Q : α → World σ → Prop) (w : World σ) : Prop := Q (x w).1 (x w).2

variable {bound : Option Nat} {answer : σ → α} {effect : σ → σ} {w : World σ} {Q : Except String α → World σ → Prop}

theorem wp_call
    (hok : ∀ w', w'.state = effect w.state → Q (.ok (answer w.state)) w')
    (herr : ∀ e w', (w'.state = w.state ∨ w'.state = effect w.state) → Q (.error e) w') :
    wp (call bound effect answer) Q w := by
  unfold wp call
  split
  · exact herr _ _ (Or.inl rfl)
  · split
    · exact hok _ rfl
    · exact hok _ rfl
    · rename_i landed _ _
      cases landed with
      | true => exact herr _ _ (Or.inr rfl)
      | false => exact herr _ _ (Or.inl rfl)
    · rename_i landed _ _
      split
      · exact hok _ rfl
      · cases landed with
        | true => exact herr _ _ (Or.inr rfl)
        | false => exact herr _ _ (Or.inl rfl)

/-- `w'` comes after `w`: outcomes are taken from the front, and a deadline
falls due only at a call that goes unanswered. -/
structure Later (w w' : World σ) : Prop where
  outcomes : w'.outcomes <:+ w.outcomes
  due : w'.due = true → w.due = true ∨ ∃ landed, Outcome.noAnswer landed ∈ w.outcomes

theorem Later.refl (w : World σ) : Later w w := ⟨List.suffix_refl _, Or.inl⟩

theorem Later.trans {w w1 w2 : World σ} (h : Later w w1) (h' : Later w1 w2) : Later w w2 := by
  refine ⟨h'.outcomes.trans h.outcomes, fun hd => ?_⟩
  rcases h'.due hd with hd | ⟨landed, hm⟩
  · exact h.due hd
  · exact Or.inr ⟨landed, h.outcomes.subset hm⟩

theorem later_call (bound : Option Nat) (effect : σ → σ) (answer : σ → α) (w : World σ) :
    Later w (call bound effect answer w).2 := by
  obtain ⟨s, os, due⟩ := w
  unfold call
  split
  · exact Later.refl _
  · split
    · exact ⟨List.suffix_refl _, Or.inl⟩
    · rename_i h
      exact ⟨by rw [h]; exact List.suffix_cons .., Or.inl⟩
    · rename_i h
      exact ⟨by rw [h]; exact List.suffix_cons .., Or.inl⟩
    · rename_i landed _ h
      split
      · exact ⟨by rw [h]; exact List.suffix_cons .., Or.inl⟩
      · exact ⟨by rw [h]; exact List.suffix_cons .., fun _ => Or.inr ⟨landed, by rw [h]; exact List.mem_cons_self ..⟩⟩

/-! ## Triples -/

/-- The schedules a triple is about, and whether a deadline may be due. -/
class Faults where
  allowed : List Outcome → Bool → Prop
  later : ∀ {σ : Type} {w w' : World σ}, Later w w' → allowed w.outcomes w.due → allowed w'.outcomes w'.due

instance anyFaults : Faults := ⟨fun _ _ => True, fun _ _ => trivial⟩

@[reducible] def noFaults : Faults where
  allowed l due := (∀ o ∈ l, o = .ok) ∧ due = false
  later := by
    intro σ w w' h hw
    refine ⟨fun o ho => hw.1 o (h.outcomes.subset ho), ?_⟩
    cases hd : w'.due with
    | false => rfl
    | true =>
      rcases h.due hd with hd | ⟨landed, hm⟩
      · rw [hw.2] at hd; cases hd
      · cases hw.1 _ hm

section
variable [Faults]

def Allowed (w : World σ) : Prop := Faults.allowed w.outcomes w.due

theorem Allowed.later (h : Allowed w) (hl : Later w w') : Allowed w' := Faults.later hl h

/-- From a state in `P`, `x` ends in `Q`. -/
def Triple (P : σ → Prop) (x : Run σ α) (Q : α → σ → Prop) : Prop :=
  ∀ w, Allowed w → P w.state → Q (x w).1 (x w).2.state ∧ Later w (x w).2

variable {P : σ → Prop} {Q : α → σ → Prop}

theorem triple_pure (h : ∀ s, P s → Q a s) :
    Triple P (pure a : Run σ α) Q := fun w _ hw => ⟨h w.state hw, Later.refl _⟩

variable {Q Q' R : α → σ → Prop} {f : α → Run σ β}

theorem triple_bind {Q : β → σ → Prop}
    (hx : Triple P x R) (hf : ∀ a, Triple (R a) (f a) Q) : Triple P (x >>= f) Q := by
  intro w ha hw
  obtain ⟨h1, s1⟩ := hx w ha hw
  obtain ⟨h2, s2⟩ := hf _ _ (ha.later s1) h1
  exact ⟨h2, s1.trans s2⟩

variable {P P' I : σ → Prop}

theorem Triple.conseq (h : Triple P x Q)
    (hP : ∀ s, P' s → P s) (hQ : ∀ a s, Q a s → Q' a s) : Triple P' x Q' := by
  intro w ha hw
  obtain ⟨h1, s1⟩ := h w ha (hP _ hw)
  exact ⟨hQ _ _ h1, s1⟩

theorem Triple.and (h : Triple P x Q) (h' : Triple P' x Q') :
    Triple (fun s => P s ∧ P' s) x fun a s => Q a s ∧ Q' a s :=
  fun w ha hw => ⟨⟨(h w ha hw.1).1, (h' w ha hw.2).1⟩, (h w ha hw.1).2⟩

theorem triple_fact {F : Prop} (h : ∀ s, P s → F)
    (hx : F → Triple P x Q) : Triple P x Q := fun w ha hP => hx (h w.state hP) w ha hP

theorem triple_ghost (hx : ∀ s₀, P s₀ → Triple (fun s => s = s₀) x Q) :
    Triple P x Q := fun w ha hP => hx w.state hP w ha rfl

theorem triple_call
    {Q : Except String α → σ → Prop} (hok : ∀ s, P s → Q (.ok (answer s)) (effect s))
    (herr : ∀ e s, P s → Q (.error e) s ∧ Q (.error e) (effect s)) : Triple P (call bound effect answer) Q := by
  intro w _ hw
  refine ⟨?_, later_call bound effect answer w⟩
  refine wp_call (Q := fun r w' => Q r w'.state) (fun w' e => ?_) (fun er w' e => ?_)
  · rw [e]; exact hok _ hw
  · obtain ⟨h1, h2⟩ := herr er w.state hw
    rcases e with e | e
    · rw [e]; exact h1
    · rw [e]; exact h2

theorem triple_get {Q : Except String α → σ → Prop}
    (hok : ∀ s, P s → Q (.ok (answer s)) s) (herr : ∀ e s, P s → Q (.error e) s) :
    Triple P (call bound id answer) Q := triple_call hok fun e s h => ⟨herr e s h, herr e s h⟩

theorem triple_asked : Triple P (asked bound) fun _ => P := by
  intro w _ hw
  obtain ⟨s, os, due⟩ := w
  unfold asked
  split
  · exact ⟨hw, Later.refl _⟩
  · exact ⟨hw, Later.refl _⟩
  · split
    · rename_i h
      refine ⟨hw, ⟨?_, fun _ => Or.inr ⟨_, by rw [h]; exact List.mem_cons_self ..⟩⟩⟩
      rw [h]
      exact List.suffix_cons ..
    · exact ⟨hw, Later.refl _⟩

theorem triple_update {f : σ → σ} {Q : Unit → σ → Prop} (h : ∀ s, P s → Q () (f s)) :
    Triple P (update f) Q := fun w _ hw => ⟨h w.state hw, ⟨List.suffix_refl _, Or.inl⟩⟩

theorem triple_read {f : σ → α} (h : ∀ s, P s → Q (f s) s) :
    Triple P (read f) Q := fun w _ hw => ⟨h w.state hw, Later.refl _⟩

/-- `x` keeps every state in `I` and answers in `F`. -/
def Ensures (I : σ → Prop) (x : Run σ α) (F : α → Prop) : Prop := Triple I x fun a s => I s ∧ F a

theorem ensures_pure {F : α → Prop} (h : F a) : Ensures I (pure a : Run σ α) F :=
  triple_pure fun _ hs => ⟨hs, h⟩

theorem ensures_bind {F : α → Prop} {G : β → Prop}
    (hx : Ensures I x F) (hf : ∀ a, F a → Ensures I (f a) G) : Ensures I (x >>= f) G := by
  refine triple_bind hx fun a w ha hw => ?_
  exact hf a hw.2 w ha hw.1

theorem Ensures.mono {F G : α → Prop} (hx : Ensures I x F) (h : ∀ a, F a → G a) :
    Ensures I x G := hx.conseq (fun _ hs => hs) fun a _ hs => ⟨hs.1, h a hs.2⟩

/-- `x` keeps every state in `I`. -/
def Keeps (I : σ → Prop) (x : Run σ α) : Prop := Triple I x fun _ => I

section
variable {I : σ → Prop}

theorem Keeps.triple (h : Keeps I x) : Triple I x fun _ => I := h

theorem keeps_pure (a : α) : Keeps I (pure a : Run σ α) := triple_pure fun _ h => h

theorem keeps_bind (hx : Keeps I x) (hf : ∀ a, Keeps I (f a)) :
    Keeps I (x >>= f) := triple_bind hx hf

theorem keeps_call
    (h : ∀ s, I s → I (effect s)) : Keeps I (call bound effect answer) := triple_call h fun _ s hs => ⟨hs, h s hs⟩

theorem keeps_asked : Keeps I (asked (σ := σ) bound) := triple_asked

theorem keeps_renew : Keeps I (renew (σ := σ) bound) := by
  intro w _ hw
  unfold renew
  split
  · exact ⟨hw, Later.refl _⟩
  · exact ⟨hw, ⟨List.suffix_refl _, fun h => by cases h⟩⟩

theorem keeps_isDue : Keeps I (isDue (σ := σ) bound) := fun _ _ h => ⟨h, Later.refl _⟩

theorem keeps_update {f : σ → σ} (h : ∀ s, I s → I (f s)) : Keeps I (update f) := triple_update h

theorem keeps_read (f : σ → α) : Keeps I (read f) := triple_read fun _ h => h

end

end

theorem calm_call {P : σ → Prop}
    {Q : Except String α → σ → Prop} (hok : ∀ s, P s → Q (.ok (answer s)) (effect s)) :
    @Triple _ _ noFaults P (call bound effect answer) Q := by
  intro w ha hw
  refine ⟨?_, later_call bound effect answer w⟩
  obtain ⟨s, os, due⟩ := w
  obtain ⟨hos, hdue⟩ := ha
  cases hdue
  cases os with
  | nil => cases bound <;> exact hok _ hw
  | cons o os =>
    have ho : o = .ok := hos o (List.mem_cons_self ..)
    subst ho
    cases bound <;> exact hok _ hw

/-! ## Few faults -/

def Quiet (w : World σ) : Prop := ∀ o ∈ w.outcomes, o = Outcome.ok

def atMostOne : List Outcome → Prop
  | [] => True
  | .ok :: rest => atMostOne rest
  | _ :: rest => ∀ o ∈ rest, o = Outcome.ok

def AtMostOne (w : World σ) : Prop := atMostOne w.outcomes

theorem atMostOne_of_ok : ∀ {l : List Outcome}, (∀ o ∈ l, o = Outcome.ok) → atMostOne l
  | [], _ => trivial
  | o :: l, h => by
    have ho : o = .ok := h o (List.mem_cons_self ..)
    subst ho
    exact atMostOne_of_ok (l := l) fun o' ho' => h o' (List.mem_cons_of_mem _ ho')

theorem atMostOne_tail : ∀ {o : Outcome} {l : List Outcome}, atMostOne (o :: l) → atMostOne l
  | .ok, _, h => h
  | .fault .., _, h => atMostOne_of_ok h
  | .noAnswer .., _, h => atMostOne_of_ok h

/-- The schedule whose call `n` has outcome `o`. -/
def faultAt (n : Nat) (o : Outcome) : List Outcome := List.replicate n .ok ++ [o]

theorem atMostOne_faultAt (n : Nat) (o : Outcome) : atMostOne (faultAt n o) := by
  induction n with
  | zero => cases o <;> simp [faultAt, atMostOne]
  | succ n ih => exact ih

theorem Quiet.atMostOne (h : Quiet w) : AtMostOne w := atMostOne_of_ok h

theorem Quiet.of_suffix (h : Quiet w) (hs : w'.outcomes <:+ w.outcomes) : Quiet w' :=
  fun o ho => h o (hs.subset ho)

theorem AtMostOne.of_suffix (h : AtMostOne w) (hs : w'.outcomes <:+ w.outcomes) : AtMostOne w' := by
  obtain ⟨t, ht⟩ := hs
  unfold AtMostOne at h ⊢
  rw [← ht] at h
  clear ht
  induction t with
  | nil => exact h
  | cons o t ih => exact ih (atMostOne_tail h)

theorem wp_call_quiet
    (hq : Quiet w) (hok : ∀ w', w'.state = effect w.state → Quiet w' → Q (.ok (answer w.state)) w') :
    wp (call none effect answer) Q w := by
  obtain ⟨s, os, due⟩ := w
  cases os with
  | nil => exact hok _ rfl hq
  | cons o os =>
    have ho : o = .ok := hq o (List.mem_cons_self ..)
    subst ho
    exact hok _ rfl fun o' ho' => hq o' (List.mem_cons_of_mem _ ho')

theorem wp_call_one
    (h1 : AtMostOne w) (hok : ∀ w', w'.state = effect w.state → AtMostOne w' → Q (.ok (answer w.state)) w')
    (herr : ∀ e w', (w'.state = w.state ∨ w'.state = effect w.state) → Quiet w' → Q (.error e) w') :
    wp (call none effect answer) Q w := by
  obtain ⟨s, os, due⟩ := w
  cases os with
  | nil => exact hok _ rfl h1
  | cons o os =>
    cases o with
    | ok => exact hok _ rfl h1
    | fault e landed =>
      cases landed with
      | true => exact herr _ _ (Or.inr rfl) h1
      | false => exact herr _ _ (Or.inl rfl) h1
    | noAnswer landed => exact hok _ rfl (atMostOne_of_ok h1)

/-! ## Triples with one fault to spend -/

/-- What the schedule still holds once the one fault is `spent`, or is not. -/
def Budget : Bool → World σ → Prop
  | false, w => AtMostOne w
  | true, w => Quiet w

theorem Budget.of_suffix : ∀ {b : Bool}, Budget b w → w'.outcomes <:+ w.outcomes → Budget b w'
  | false, h, hs => AtMostOne.of_suffix h hs
  | true, h, hs => Quiet.of_suffix h hs

/-- A triple over a schedule with at most one fault: `P` and `Q` read whether it is spent. -/
def One (P : Bool → σ → Prop) (x : Run σ α) (Q : α → Bool → σ → Prop) : Prop :=
  ∀ b w, Budget b w → P b w.state → ∃ b', Budget b' (x w).2 ∧ Q (x w).1 b' (x w).2.state

variable {P : Bool → σ → Prop} {Q : α → Bool → σ → Prop}

theorem one_pure (h : ∀ b s, P b s → Q a b s) :
    One P (pure a : Run σ α) Q := fun b w hb hP => ⟨b, hb, h b w.state hP⟩

theorem one_bind {f : α → Run σ β} {R : α → Bool → σ → Prop}
    {Q : β → Bool → σ → Prop} (hx : One P x R) (hf : ∀ a, One (R a) (f a) Q) : One P (x >>= f) Q := by
  intro b w hb hP
  obtain ⟨b1, hb1, h1⟩ := hx b w hb hP
  exact hf _ b1 _ hb1 h1

variable {P P' : Bool → σ → Prop}

theorem One.conseq {Q Q' : α → Bool → σ → Prop} (h : One P x Q)
    (hP : ∀ b s, P' b s → P b s) (hQ : ∀ a b s, Q a b s → Q' a b s) : One P' x Q' := by
  intro b w hb hw
  obtain ⟨b1, hb1, h1⟩ := h b w hb (hP _ _ hw)
  exact ⟨b1, hb1, hQ _ _ _ h1⟩

theorem one_of_triple
    (h : ∀ b, Triple (P b) x fun a s => Q a b s) : One P x Q := by
  intro b w hb hP
  obtain ⟨h1, h2⟩ := h b w trivial hP
  exact ⟨b, hb.of_suffix h2.outcomes, h1⟩

theorem one_call {Q : Except String α → Bool → σ → Prop}
    (hok : ∀ b s, P b s → Q (.ok (answer s)) b (effect s))
    (herr : ∀ e s, P false s → Q (.error e) true s ∧ Q (.error e) true (effect s)) :
    One P (call none effect answer) Q := by
  intro b w hb hP
  cases b with
  | true =>
    refine wp_call_quiet (Q := fun r w' => ∃ b', Budget b' w' ∧ Q r b' w'.state) hb fun w' e hq => ?_
    exact ⟨true, hq, by rw [e]; exact hok _ _ hP⟩
  | false =>
    refine wp_call_one (Q := fun r w' => ∃ b', Budget b' w' ∧ Q r b' w'.state) hb (fun w' e h1 => ?_)
      fun er w' e hq => ?_
    · exact ⟨false, h1, by rw [e]; exact hok _ _ hP⟩
    · obtain ⟨hs, hl⟩ := herr er w.state hP
      rcases e with e | e
      · exact ⟨true, hq, by rw [e]; exact hs⟩
      · exact ⟨true, hq, by rw [e]; exact hl⟩

theorem one_fact {F : Prop} (h : ∀ b s, P b s → F)
    (hx : F → One P x Q) : One P x Q := fun b w hb hP => hx (h b w.state hP) b w hb hP

theorem one_ghost
    (hx : ∀ s₀, One (fun b s => s = s₀ ∧ P b s) x Q) : One P x Q := fun b w hb hP => hx w.state b w hb ⟨rfl, hP⟩

theorem one_or (h : One P x Q) (h' : One P' x Q) :
    One (fun b s => P b s ∨ P' b s) x Q := fun b w hb hP => hP.elim (h b w hb) (h' b w hb)

theorem One.and_quiet {P P' : σ → Prop} {Q Q' : α → σ → Prop}
    (h : One (fun b s => b = true ∧ P s) x fun a b s => b = true ∧ Q a s)
    (h' : One (fun b s => b = true ∧ P' s) x fun a b s => b = true ∧ Q' a s) :
    One (fun b s => b = true ∧ P s ∧ P' s) x fun a b s => b = true ∧ Q a s ∧ Q' a s := by
  intro b w hb hP
  obtain ⟨b1, hb1, e1, h1⟩ := h b w hb ⟨hP.1, hP.2.1⟩
  obtain ⟨b2, hb2, e2, h2⟩ := h' b w hb ⟨hP.1, hP.2.2⟩
  exact ⟨b1, hb1, e1, h1, h2⟩

theorem one_update {f : σ → σ} {Q : Unit → Bool → σ → Prop} (h : ∀ b s, P b s → Q () b (f s)) :
    One P (update f) Q := one_of_triple fun b => triple_update (h b)

theorem one_read {f : σ → α} (h : ∀ b s, P b s → Q (f s) b s) :
    One P (read f) Q := one_of_triple fun b => triple_read (h b)

theorem One.and_triple {T : σ → Prop}
    {R : α → σ → Prop} (h : One P x Q) (ht : Triple T x R) :
    One (fun b s => P b s ∧ T s) x fun a b s => Q a b s ∧ R a s := by
  intro b w hb hP
  obtain ⟨b1, hb1, h1⟩ := h b w hb hP.1
  exact ⟨b1, hb1, h1, (ht w trivial hP.2).1⟩

end

end Faulty
