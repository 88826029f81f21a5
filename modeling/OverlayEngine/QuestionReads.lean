import OverlayEngine.Submit
import OverlayEngine.Basis.Turns

/-!
# The reads of the predecessor question

One counter bounds the question over every topic, landing and re-judgement of
a submit. It stays within the allowance, covers every read the question makes
and never falls below what a landing was charged. A turn of the asking loop
that goes on, and a turn of the landing stack, spend from it; a turn of the
walk lowers what the walk can still ask.
-/

namespace OverlayEngine

open Faulty

/-- From `reads` to `reads'` within the allowance. -/
structure Within (reads reads' : Nat) : Prop where
  monotone : reads ≤ reads'
  allowance : reads' ≤ predecessorReadsPerSubmit

variable {a b k c reads : Nat}

theorem Within.trans (h : Within a b) (h' : Within b c) : Within a c := ⟨Nat.le_trans h.monotone h'.monotone, h'.allowance⟩

/-- From `reads` to `reads'` over `k` calls. -/
structure Spent (reads k reads' : Nat) : Prop where
  counted : reads + k ≤ reads'
  allowance : reads ≤ predecessorReadsPerSubmit → reads' ≤ predecessorReadsPerSubmit

theorem spent_refl (reads : Nat) : Spent reads 0 reads := ⟨Nat.le_refl _, id⟩

theorem Spent.trans {j : Nat} (h : Spent a k b) (h' : Spent b j c) : Spent a (k + j) c := by
  have := h.counted
  have := h'.counted
  exact ⟨by omega, fun ha => h'.allowance (h.allowance ha)⟩

theorem Spent.within (h : Spent a k b) (ha : a ≤ predecessorReadsPerSubmit) : Within a b :=
  ⟨Nat.le_trans (Nat.le_add_right _ _) h.counted, h.allowance ha⟩

theorem Spent.count {k' : Nat} (h : Spent a k b) (hk : k = k') : Spent a k' b := hk ▸ h

theorem spent_read (h : ¬ reads ≥ predecessorReadsPerSubmit) : Spent reads 1 (reads + 1) := ⟨Nat.le_refl _, fun _ => by omega⟩

/-! ## The question of one candidate -/

section
variable {E : Engine} {bound : Bound} {manager : TopicManager} {tx : Tx} {beef : Beef} {topic : Topic} {mode : SubmitMode}

theorem free_nextAsk : Free nextAsk :=
  charges_after free_read fun _ => charges_after free_update fun _ => charges_pure rfl

theorem free_namedHistory (b : Beef) : Free (namedHistory bound manager b) := by
  refine charges_after free_nextAsk fun n => charges_after free_asked fun r => ?_
  match r with
  | .error e => exact charges_pure rfl
  | .ok () =>
    simp only
    split <;> exact charges_pure rfl

theorem free_askSubjectNames (names : Option (List Outpoint)) : Free (askSubjectNames bound manager beef names) := by
  unfold askSubjectNames
  split
  · exact charges_pure rfl
  · exact free_namedHistory _

theorem charges_askCoins (candidate : Txid) : ∀ inputs reads, Charges (askCoins bound topic candidate reads inputs) fun r k =>
    Spent reads k r.1 ∧ ∀ unheld, r.2 = .ok unheld → unheld.length ≤ inputs.length
  | [], reads => charges_pure ⟨spent_refl reads, fun _ h => by cases h; exact Nat.le_refl _⟩
  | input :: rest, reads => by
    unfold askCoins
    split
    · exact (charges_askCoins candidate rest reads).mono fun r k h => ⟨h.1, fun u hu => Nat.le_succ_of_le (h.2 u hu)⟩
    · split
      · exact charges_pure ⟨spent_refl reads, fun _ h => by cases h⟩
      · rename_i hreads
        refine charges_bind charges_call fun r k hk => ?_
        subst hk
        match r with
        | .ok (some row) => exact charges_pure ⟨spent_read hreads, fun _ h => by cases h⟩
        | .error e => exact charges_pure ⟨spent_read hreads, fun _ h => by cases h⟩
        | .ok none =>
          refine charges_bind (charges_askCoins candidate rest (reads + 1)) fun a j ha => ?_
          obtain ⟨reads', answer⟩ := a
          refine charges_pure ⟨(spent_read hreads).trans ha.1, fun unheld h => ?_⟩
          cases answer with
          | error e => cases h
          | ok l =>
            cases h
            exact Nat.succ_le_succ (ha.2 l rfl)

structure SameWalk (q q' : Question) : Prop where
  ask : q'.ask = q.ask
  asked : q'.asked = q.asked
  reads : q'.reads = q.reads

theorem sameWalk_refl (q : Question) : SameWalk q q := ⟨rfl, rfl, rfl⟩

variable {q q' : Question}

theorem SameWalk.trans {q'' : Question} (h : SameWalk q q') (h' : SameWalk q' q'') : SameWalk q q'' :=
  ⟨h'.ask.trans h.ask, h'.asked.trans h.asked, h'.reads.trans h.reads⟩

theorem charges_spenderNames (spender : Txid) (q : Question) :
    Charges (spenderNames E bound manager tx beef spender q) fun r k => k = 0 ∧ SameWalk q r.1 := by
  unfold spenderNames
  split
  · exact charges_after (free_askSubjectNames _) fun _ => charges_pure ⟨rfl, rfl, rfl, rfl⟩
  · split
    · exact charges_pure ⟨rfl, sameWalk_refl q⟩
    · exact charges_after (free_namedHistory _) fun _ => charges_pure ⟨rfl, rfl, rfl, rfl⟩
    · exact charges_pure ⟨rfl, rfl, rfl, rfl⟩

theorem charges_namedOutputs (candidate : Txid) : ∀ l q,
    Charges (namedOutputs E bound manager tx beef candidate q l) fun r k => k = 0 ∧ SameWalk q r.1
  | [], q => charges_pure ⟨rfl, sameWalk_refl q⟩
  | (spender, vout) :: rest, q => by
    refine charges_bind (charges_spenderNames spender q) fun a k ha => ?_
    refine charges_bind (charges_namedOutputs candidate rest a.1) fun b j hb => charges_pure ⟨?_, ha.2.trans hb.2⟩
    omega

theorem charges_asksStore (foundCoin : Bool) (direct : List Txid) (candidate : Txid) (spentOutputs : List (Txid × Nat)) (q : Question) :
    Charges (asksStore bound manager beef foundCoin direct candidate spentOutputs q) fun r k => k = 0 ∧ SameWalk q r.1 := by
  unfold asksStore
  split
  · exact charges_pure ⟨rfl, sameWalk_refl q⟩
  · split
    · exact charges_pure ⟨rfl, sameWalk_refl q⟩
    · exact charges_after (free_askSubjectNames _) fun _ => charges_pure ⟨rfl, rfl, rfl, rfl⟩

theorem free_dryRun (candidate : Txid) (body : Tx) (named : List Nat) : Free (dryRun bound manager mode candidate body named) := by
  refine charges_after free_nextAsk fun n => charges_after free_asked fun r => ?_
  match r with
  | .error e => exact charges_pure rfl
  | .ok () =>
    simp only
    split
    · split <;> exact charges_pure rfl
    · exact charges_pure rfl
    · exact charges_pure rfl

structure AddsSources (beef : Beef) (candidate : Txid) (q q' : Question) : Prop where
  asked : q'.asked = q.asked
  ask : q'.ask.length ≤ q.ask.length + (beef.body candidate).elim 0 fun body => body.inputs.length

theorem SameWalk.adds (h : SameWalk q q') (candidate : Txid) : AddsSources beef candidate q q' :=
  ⟨h.asked, by rw [h.ask]; exact Nat.le_add_right _ _⟩

theorem charges_askCandidate (foundCoin : Bool) (direct : List Txid) (candidate : Txid) (q : Question) :
    Charges (askCandidate E bound manager tx beef topic mode foundCoin direct candidate q) fun r k =>
      Spent q.reads k r.1.reads ∧ AddsSources beef candidate q r.1 := by
  unfold askCandidate
  simp only
  refine charges_bind (charges_asksStore foundCoin direct candidate _ q) fun a k ha => ?_
  obtain ⟨q1, asks⟩ := a
  obtain ⟨rfl, h1⟩ := ha
  have adds : AddsSources beef candidate q q1 := h1.adds candidate
  rw [← h1.reads]
  simp only
  split
  · exact charges_pure ⟨spent_refl _, adds⟩
  · split
    · exact charges_pure ⟨spent_refl _, adds⟩
    · rename_i hreads
      refine charges_bind charges_call fun applied k hk => ?_
      subst hk
      match applied with
      | .error e => exact charges_pure ⟨spent_read hreads, adds.asked, adds.ask⟩
      | .ok true => exact charges_pure ⟨spent_read hreads, adds.asked, adds.ask⟩
      | .ok false =>
        simp only
        split
        · exact charges_pure ⟨spent_read hreads, adds.asked, adds.ask⟩
        · rename_i hreads'
          refine charges_bind charges_call fun outputs k hk => ?_
          subst hk
          have two : Spent q1.reads (0 + (1 + 1)) (q1.reads + 1 + 1) := (spent_read hreads).trans (spent_read hreads')
          match outputs with
          | .error e => exact charges_pure ⟨two, adds.asked, adds.ask⟩
          | .ok outputs =>
            simp only
            split
            · exact charges_pure ⟨two, adds.asked, adds.ask⟩
            · split
              · exact charges_pure ⟨two, adds.asked, adds.ask⟩
              · rename_i body hbody
                refine charges_bind (charges_askCoins candidate body.inputs _) fun c j hc => ?_
                obtain ⟨reads, coins⟩ := c
                obtain ⟨hspent, hunheld⟩ := hc
                have spent := two.trans hspent
                simp only at hunheld ⊢
                cases coins with
                | error notNow => exact charges_pure ⟨spent.count (by omega), adds.asked, adds.ask⟩
                | ok unheld =>
                  have hlen := hunheld unheld rfl
                  refine charges_bind (charges_namedOutputs candidate _ _) fun d j hd => ?_
                  obtain ⟨q2, named⟩ := d
                  obtain ⟨rfl, h2⟩ := hd
                  have adds2 : AddsSources beef candidate q q2 := by
                    refine ⟨h2.asked.trans adds.asked, ?_⟩
                    rw [h2.ask, List.length_append, List.length_map, hbody, h1.ask]
                    exact Nat.add_le_add_left hlen _
                  rw [show reads = q2.reads from h2.reads.symm] at spent
                  simp only
                  split
                  · exact charges_pure ⟨spent.count (by omega), adds2⟩
                  · refine charges_after (free_dryRun candidate body named) fun verdict => ?_
                    exact charges_pure ⟨spent.count (by omega), adds2⟩

/-! ## The walk -/

variable (E bound manager tx beef topic mode) in
def askTurn (foundCoin : Bool) (direct : List Txid) (q : Question) : M (Question ⊕ Question × Option NotNow) :=
  match q.ask with
  | [] => pure (.inr (q, none))
  | candidate :: rest =>
    if candidate ∈ q.asked then pure (.inl { q with ask := rest })
    else do
      let (q, answer) ← askCandidate E bound manager tx beef topic mode foundCoin direct candidate
        { q with ask := rest, asked := candidate :: q.asked }
      match answer with
      | some notNow => pure (.inr (q, some notNow))
      | none => pure (.inl q)

theorem askWalk_turn (foundCoin : Bool) (direct : List Txid) (n : Nat) (q : Question) :
    askWalk E bound manager tx beef topic mode foundCoin direct (n + 1) q =
      askTurn E bound manager tx beef topic mode foundCoin direct q >>=
        Sum.elim (askWalk E bound manager tx beef topic mode foundCoin direct n) pure := by
  unfold askWalk askTurn
  cases q.ask with
  | nil => rfl
  | cons candidate rest =>
    simp only
    split
    · rfl
    · rw [bind_assoc]
      refine bind_congr fun a => ?_
      obtain ⟨q', answer⟩ := a
      cases answer <;> rfl

def unaskedInputs (asked : List Txid) : List Tx → Nat
  | [] => 0
  | body :: rest => (if body.id ∈ asked then 0 else body.inputs.length) + unaskedInputs asked rest

theorem unaskedInputs_cons_le (candidate : Txid) (asked : List Txid) : ∀ bodies,
    unaskedInputs (candidate :: asked) bodies ≤ unaskedInputs asked bodies
  | [] => Nat.le_refl _
  | body :: rest => by
    have ih := unaskedInputs_cons_le candidate asked rest
    unfold unaskedInputs
    by_cases hm : body.id ∈ asked
    · rw [if_pos hm, if_pos (List.mem_cons_of_mem _ hm)]
      omega
    · rw [if_neg hm]
      split <;> omega

theorem unaskedInputs_cons {asked : List Txid} {body : Tx} (hnew : body.id ∉ asked) : ∀ {bodies : List Tx}, body ∈ bodies →
    unaskedInputs (body.id :: asked) bodies + body.inputs.length ≤ unaskedInputs asked bodies
  | [], hm => by cases hm
  | b :: rest, hm => by
    unfold unaskedInputs
    rcases List.mem_cons.mp hm with rfl | hm
    · have := unaskedInputs_cons_le body.id asked rest
      rw [if_pos (List.mem_cons_self ..), if_neg hnew]
      omega
    · have ih := unaskedInputs_cons hnew hm
      by_cases hb : b.id ∈ asked
      · rw [if_pos hb, if_pos (List.mem_cons_of_mem _ hb)]
        omega
      · rw [if_neg hb]
        split <;> omega

theorem unaskedInputs_le (asked : List Txid) : ∀ bodies : List Tx,
    unaskedInputs asked bodies ≤ (bodies.map fun body => body.inputs.length).sum
  | [] => Nat.le_refl _
  | body :: rest => by
    have ih := unaskedInputs_le asked rest
    unfold unaskedInputs
    rw [List.map_cons, List.sum_cons]
    split <;> omega

def Question.toAsk (beef : Beef) (q : Question) : Nat := q.ask.length + unaskedInputs q.asked beef.bodies

theorem toAsk_lt {candidate : Txid} {rest : List Txid} (hask : q.ask = candidate :: rest) (hnew : candidate ∉ q.asked)
    (h : AddsSources beef candidate { q with ask := rest, asked := candidate :: q.asked } q') : q'.toAsk beef < q.toAsk beef := by
  unfold Question.toAsk
  have hlen : q'.ask.length ≤ rest.length + (beef.body candidate).elim 0 fun body => body.inputs.length := h.ask
  rw [show q'.asked = candidate :: q.asked from h.asked, hask, List.length_cons]
  cases hbody : beef.body candidate with
  | none =>
    have := unaskedInputs_cons_le candidate q.asked beef.bodies
    rw [hbody, Option.elim_none] at hlen
    omega
  | some body =>
    obtain ⟨hm, rfl⟩ := Beef.body_mem hbody
    have := unaskedInputs_cons hnew hm
    rw [hbody, Option.elim_some] at hlen
    omega

theorem askTurn_descends (foundCoin : Bool) (direct : List Txid) :
    Descends (fun _ => True) (Question.toAsk beef) (askTurn E bound manager tx beef topic mode foundCoin direct) := by
  intro q _
  unfold askTurn
  split
  · exact yields_pure fun q' h => by cases h
  · rename_i candidate rest hask
    split
    · refine yields_pure fun q' h => ?_
      cases h
      refine ⟨trivial, ?_⟩
      simp only [Question.toAsk, hask, List.length_cons]
      omega
    · rename_i hnew
      refine yields_bind ((charges_askCandidate foundCoin direct candidate _).yields fun a k h => h.2) fun a ha => ?_
      obtain ⟨q1, answer⟩ := a
      cases answer with
      | some notNow => exact yields_pure fun q' h => by cases h
      | none =>
        refine yields_pure fun q' h => ?_
        cases h
        exact ⟨trivial, toAsk_lt hask hnew ha⟩

theorem charges_askWalk (foundCoin : Bool) (direct : List Txid) : ∀ fuel q,
    Charges (askWalk E bound manager tx beef topic mode foundCoin direct fuel q) fun r k => Spent q.reads k r.1.reads
  | 0, q => charges_pure (spent_refl _)
  | fuel + 1, q => by
    unfold askWalk
    split
    · exact charges_pure (spent_refl _)
    · rename_i candidate rest _
      split
      · exact charges_askWalk foundCoin direct fuel { q with ask := rest }
      · refine charges_bind (charges_askCandidate foundCoin direct candidate _) fun a k ha => ?_
        obtain ⟨q1, answer⟩ := a
        cases answer with
        | some notNow => exact charges_pure ha.1
        | none => exact (charges_askWalk foundCoin direct fuel q1).mono fun r j h => ha.1.trans h

theorem charges_unlandedPredecessor (namedOnly : Bool) (held : List Outpoint) (foundCoin : Bool) (names : Option (List Outpoint))
    (reads : Nat) : Charges (unlandedPredecessor E bound manager tx beef topic mode namedOnly held foundCoin names reads)
      fun r k => Spent reads k r.2.1 := by
  unfold unlandedPredecessor
  simp only
  split
  · exact charges_pure (spent_refl _)
  · refine charges_bind (charges_askWalk foundCoin _ _ _) fun a k ha => charges_pure ha

theorem askWalk_ends (foundCoin : Bool) (q : Question) (hq : q.ask.length ≤ tx.spent.length) (direct : List Txid) (w : World Db) :
    (turns (askTurn E bound manager tx beef topic mode foundCoin direct) (walkLength tx beef) q w).1 =
      some (askWalk E bound manager tx beef topic mode foundCoin direct (walkLength tx beef) q w).1 := by
  have hlen : q.toAsk beef < walkLength tx beef := by
    have := unaskedInputs_le q.asked beef.bodies
    unfold Question.toAsk walkLength
    omega
  exact (fueled_eq (askWalk_turn foundCoin direct) _ q w
    (turns_end (askTurn_descends foundCoin direct) _ q trivial hlen w)).1.symm

end

/-! ## The asking loop -/

def LanderCounts (lander : Option Lander) : Prop :=
  ∀ land, lander = some land → ∀ topic c reads, reads ≤ predecessorReadsPerSubmit → Yields (land topic c reads) fun r => Within reads r.1

section
variable (E : Engine) (bound : Bound) (sub : Subject) (beef : Beef) (mode : SubmitMode) (lander : Option Lander) (manager : TopicManager)

local instance notLandedKey : LawfulBEq (Txid × Topic) := inferInstance

def askingTurn (a : TopicValidation × Option (List Outpoint) × Rule) :
    M ((TopicValidation × Option (List Outpoint) × Rule) ⊕ TopicValidation × Rule) := do
  let (v, subjectNames, rule) := a
  let namedOnly := !v.admittance.outputsToAdmit.isEmpty || !v.previousOutputs.isEmpty
  let subjectNames ← namesIf bound beef namedOnly manager subjectNames
  let held := heldOf sub.tx v
  if !v.previousOutputs.isEmpty && !(sub.tx.spent.any fun o =>
      decide (o ∉ held) && subjectNames.any fun named => decide (o ∈ named)) then pure (.inr (v, rule))
  else do
    let notLanded ← read Db.notLanded
    match sub.tx.spent.find? fun o =>
        (!namedOnly || subjectNames.any fun named => decide (o ∈ named)) &&
          decide ((o.txid, v.topic) ∈ notLanded) with
    | some o => pure (.inr (v, { rule with waits := rule.waits.insert v.topic (o.txid ++ " has not landed") }))
    | none =>
      if sub.finalize then pure (.inr (v, rule))
      else do
        let (subjectNames, reads, answer) ← unlandedPredecessor E bound manager sub.tx beef v.topic mode namedOnly
          held (!v.previousOutputs.isEmpty) subjectNames rule.reads
        let rule := { rule with reads := reads }
        match answer with
        | none => pure (.inr (v, rule))
        | some notNow =>
          let wait (why : String) : Rule := { rule with waits := rule.waits.insert v.topic why }
          match notNow.carried, lander with
          | none, _ => pure (.inr (v, wait notNow.why))
          | some carried, none => pure (.inr (v, { wait notNow.why with blocked := rule.blocked.insert v.topic carried }))
          | some carried, some land =>
            let rejudge := 1 + sub.tx.spent.length
            if !landsWithoutValues E v.topic then pure (.inr (v, wait (notNow.why ++
              "; not landed first from the BEEF: the topic's manager or a lookup service reads off-chain values, and only the predecessor's own submit carries them")))
            else if rule.reads + rejudge > predecessorReadsPerSubmit then pure (.inr (v, wait (notNow.why ++
              "; its landing and the re-judgement after it do not fit in the submit's 256 reads")))
            else do
              let (reads, landed, breaches, outcome) ← land v.topic carried (rule.reads + rejudge)
              let rule := { rule with
                reads := reads, landed := rule.landed ++ landed, breaches := rule.breaches ++ breaches }
              match outcome with
              | .error didNotLand => pure (.inr (v, { rule with
                  reads := rule.reads - rejudge
                  waits := rule.waits.insert v.topic (notNow.why ++
                    "; submitted first from the BEEF, it did not land (" ++ didNotLand ++ ")") }))
              | .ok () => do
                let v ← validateTopic E bound sub.tx v.topic sub.offChainValues mode false
                let rule := { rule with steak := rule.steak.insert v.topic v.admittance }
                if v.judged then pure (.inl (v, subjectNames, rule))
                else pure (.inr (v, rule))

/-- The asking loop with `n` turns. -/
def askingLoop (n : Nat) (a : TopicValidation × Option (List Outpoint) × Rule) : M (TopicValidation × Rule) :=
  successorLoop E bound sub beef mode lander manager n a.1 a.2.1 a.2.2

theorem askingLoop_turn (n : Nat) (a : TopicValidation × Option (List Outpoint) × Rule) :
    askingLoop E bound sub beef mode lander manager (n + 1) a =
      askingTurn E bound sub beef mode lander manager a >>= Sum.elim (askingLoop E bound sub beef mode lander manager n) pure := by
  obtain ⟨v, names, rule⟩ := a
  show successorLoop E bound sub beef mode lander manager (n + 1) v names rule = _
  unfold successorLoop askingTurn
  simp only
  rw [bind_assoc]
  refine bind_congr fun names => ?_
  split
  · rfl
  · rw [bind_assoc]
    refine bind_congr fun notLanded => ?_
    generalize sub.tx.spent.find? (fun o =>
      (!(!v.admittance.outputsToAdmit.isEmpty || !v.previousOutputs.isEmpty) || names.any fun named => decide (o ∈ named)) &&
        decide ((o.txid, v.topic) ∈ notLanded)) = remembered
    cases remembered with
    | some o => rfl
    | none =>
      simp only
      split
      · rfl
      · rw [bind_assoc]
        refine bind_congr fun answered => ?_
        obtain ⟨names, reads, answer⟩ := answered
        cases answer with
        | none => rfl
        | some notNow =>
          simp only
          cases notNow.carried with
          | none => rfl
          | some carried =>
            cases lander with
            | none => rfl
            | some land =>
              simp only
              split
              · rfl
              · split
                · rfl
                · rw [bind_assoc]
                  refine bind_congr fun landing => ?_
                  obtain ⟨reads, landed, breaches, outcome⟩ := landing
                  cases outcome with
                  | error e => rfl
                  | ok =>
                    simp only
                    rw [bind_assoc]
                    refine bind_congr fun v' => ?_
                    split <;> rfl

end

section
variable {E : Engine} {bound : Bound} {sub : Subject} {beef : Beef} {mode : SubmitMode} {lander : Option Lander}
  {manager : TopicManager}

theorem askingTurn_within (hl : LanderCounts lander) (a : TopicValidation × Option (List Outpoint) × Rule)
    (ha : a.2.2.reads ≤ predecessorReadsPerSubmit) : Yields (askingTurn E bound sub beef mode lander manager a) fun r =>
      r.elim (fun a' => Within a.2.2.reads a'.2.2.reads ∧ a.2.2.reads < a'.2.2.reads) fun b => Within a.2.2.reads b.2.reads := by
  obtain ⟨v, names, rule⟩ := a
  have same : Within rule.reads rule.reads := ⟨Nat.le_refl _, ha⟩
  unfold askingTurn
  simp only
  refine yields_after fun names => ?_
  split
  · exact yields_pure same
  · refine yields_after fun notLanded => ?_
    split
    · exact yields_pure same
    · split
      · exact yields_pure same
      · refine yields_bind ((charges_unlandedPredecessor _ _ _ _ _).yields fun r k h => h.within ha) fun answered hanswered => ?_
        obtain ⟨names, reads, answer⟩ := answered
        have hreads : Within rule.reads reads := hanswered
        cases answer with
        | none => exact yields_pure hreads
        | some notNow =>
          simp only
          split
          · exact yields_pure hreads
          · exact yields_pure hreads
          · rename_i carried land _
            split
            · exact yields_pure hreads
            · split
              · exact yields_pure hreads
              · rename_i hfits
                refine yields_bind (hl land rfl _ _ _ (by omega)) fun landing hland => ?_
                obtain ⟨reads', landed, breaches, outcome⟩ := landing
                have hlanding : Within (reads + (1 + sub.tx.spent.length)) reads' := hland
                have h1 := hlanding.monotone
                have h2 := hlanding.allowance
                have h3 := hreads.monotone
                cases outcome with
                | error e => exact yields_pure (show Within rule.reads (reads' - (1 + sub.tx.spent.length)) from ⟨by omega, by omega⟩)
                | ok =>
                  refine yields_after fun v' => ?_
                  have higher : Within rule.reads reads' := ⟨by omega, h2⟩
                  simp only
                  split
                  · exact yields_pure (show Within rule.reads reads' ∧ rule.reads < reads' from ⟨higher, by omega⟩)
                  · exact yields_pure (show Within rule.reads reads' from higher)

def readsLeft (a : TopicValidation × Option (List Outpoint) × Rule) : Nat := predecessorReadsPerSubmit - a.2.2.reads

theorem askingTurn_descends (hl : LanderCounts lander) : Descends
    (fun a : TopicValidation × Option (List Outpoint) × Rule => a.2.2.reads ≤ predecessorReadsPerSubmit) readsLeft
    (askingTurn E bound sub beef mode lander manager) := by
  intro a ha
  refine (askingTurn_within hl a ha).mono fun r hr a' h => ?_
  subst h
  have h1 := hr.1.allowance
  have h2 := hr.2
  exact ⟨h1, by unfold readsLeft; omega⟩

theorem successorLoop_ends (hl : LanderCounts lander) (v : TopicValidation) (names : Option (List Outpoint)) (rule : Rule)
    (ha : rule.reads ≤ predecessorReadsPerSubmit) (w : World Db) :
    (turns (askingTurn E bound sub beef mode lander manager) (predecessorReadsPerSubmit + 1) (v, names, rule) w).1 =
      some (successorLoop E bound sub beef mode lander manager (predecessorReadsPerSubmit + 1) v names rule w).1 :=
  (fueled_eq (askingLoop_turn E bound sub beef mode lander manager) _ (v, names, rule) w
    (turns_end (askingTurn_descends hl) _ _ ha (by unfold readsLeft; omega) w)).1.symm

theorem within_successorLoop (hl : LanderCounts lander) (v : TopicValidation) (names : Option (List Outpoint)) (rule : Rule)
    (ha : rule.reads ≤ predecessorReadsPerSubmit) :
    Yields (successorLoop E bound sub beef mode lander manager (predecessorReadsPerSubmit + 1) v names rule) fun r =>
      Within rule.reads r.2.reads := by
  show Yields (askingLoop E bound sub beef mode lander manager (predecessorReadsPerSubmit + 1) (v, names, rule)) _
  refine yields_fueled (μ := readsLeft) (I := fun a => Within rule.reads a.2.2.reads)
    (askingLoop_turn E bound sub beef mode lander manager) (fun a ha => ?_) ⟨Nat.le_refl _, ha⟩ (by unfold readsLeft; omega)
  refine (askingTurn_within hl a ha.allowance).mono fun r hr => ?_
  cases r with
  | inl a' =>
    have h1 : Within a.2.2.reads a'.2.2.reads ∧ a.2.2.reads < a'.2.2.reads := hr
    have h2 := h1.1.allowance
    exact ⟨ha.trans h1.1, by unfold readsLeft; omega⟩
  | inr b => exact ha.trans hr

theorem within_finishHeld (topic : Topic) (rule : Rule) (ha : rule.reads ≤ predecessorReadsPerSubmit) :
    Yields (finishHeld bound sub topic rule) fun r => Within rule.reads r.reads := by
  have same : Within rule.reads rule.reads := ⟨Nat.le_refl _, ha⟩
  unfold finishHeld
  split
  · rename_i h
    have hlt : rule.reads < predecessorReadsPerSubmit := by
      simp only [Bool.and_eq_true, decide_eq_true_eq] at h
      exact h.2
    have one : Within rule.reads (rule.reads + 1) := ⟨Nat.le_succ _, hlt⟩
    refine yields_after fun outputs => ?_
    match outputs with
    | .error e => exact yields_pure one
    | .ok outputs =>
      simp only
      split <;> exact yields_pure one
  · exact yields_pure same

theorem within_successorTopic (hl : LanderCounts lander) (v : TopicValidation) (rule : Rule)
    (ha : rule.reads ≤ predecessorReadsPerSubmit) :
    Yields (successorTopic E bound sub beef mode lander v rule) fun r => Within rule.reads r.2.reads := by
  have same : Within rule.reads rule.reads := ⟨Nat.le_refl _, ha⟩
  unfold successorTopic
  simp only
  split
  · exact yields_pure same
  · split
    · exact yields_pure same
    · refine yields_bind (within_successorLoop hl _ _ _ ha) fun a h1 => ?_
      exact yields_bind (within_finishHeld _ _ h1.allowance) fun rule' h2 => yields_pure (h1.trans h2)

theorem within_successorsWaiting (hl : LanderCounts lander) : ∀ vs rule, rule.reads ≤ predecessorReadsPerSubmit →
    Yields (successorsWaiting E bound sub beef mode lander vs rule) fun r => Within rule.reads r.2.reads
  | [], _, ha => yields_pure ⟨Nat.le_refl _, ha⟩
  | v :: rest, rule, ha => by
    unfold successorsWaiting
    split
    · exact yields_pure ⟨Nat.le_refl _, ha⟩
    · refine yields_bind (within_successorTopic hl v rule ha) fun a h1 => ?_
      exact yields_bind (within_successorsWaiting hl rest a.2 h1.allowance) fun b h2 => yields_pure (h1.trans h2)

theorem within_submitCounted {finalize : Bool} {walked : Option (List Txid)} {lander : Tx → Beef → Bool → Option Lander}
    (hl : ∀ tx beef ran, LanderCounts (lander tx beef ran)) (tagged : TaggedBeef) (mode : SubmitMode) (policy : WalkBreachPolicy)
    (ha : reads ≤ predecessorReadsPerSubmit) :
    Yields (submitCounted E bound finalize walked lander tagged mode policy reads) fun r => ∀ c, r = .ok c → Within reads c.reads := by
  have prepared : Yields (prepare E bound finalize walked lander tagged mode policy reads) fun r =>
      ∀ p, r = .ok p → Within reads p.2.2.2.reads := by
    unfold prepare
    refine yields_after fun r => ?_
    match r with
    | .error e => exact yields_pure fun p h => by cases h
    | .ok (vs, tx, couldNotRun) =>
      refine yields_after fun now => ?_
      refine yields_bind (within_successorsWaiting (hl _ _ _) _ _ ha) fun a h1 => yields_after fun b => yields_pure fun p h => ?_
      cases h
      exact h1
  refine yields_bind prepared fun r hr => ?_
  match r with
  | .error e => exact yields_pure fun c h => by cases h
  | .ok (vs, sub, couldNotRun, rule) =>
    refine yields_after fun a => yields_pure fun c h => ?_
    cases h
    exact hr _ rfl

end

/-! ## The landing stack -/

section
variable (E : Engine) (bound : Bound) (beef : Beef) (topic : Topic) (mode : SubmitMode) (policy : WalkBreachPolicy)

def landTurn (l : Landing) : M (Landing ⊕ Landing × Except String Unit) :=
  match l.stack with
  | [] => pure (.inr (l, .ok ()))
  | next :: under =>
    match beef.body next with
    | none => pure (.inr (l, .error (next ++ ": its body is not in the BEEF")))
    | some body => do
      let (l, allowed) ← guardLanding E bound next topic l
      match allowed with
      | .error e => pure (.inr (l, .error e))
      | .ok () =>
        let cost := 1 + 2 * body.inputs.length
        if l.reads + cost > predecessorReadsPerSubmit then
          pure (.inr (l, .error (next ++ ": its submit does not fit in the submit's 256 reads")))
        else match E.toAtomicBeef beef next with
          | none => pure (.inr (l, .error (next ++ ": its BEEF could not be built")))
          | some atomic => do
            match ← submitCarried E bound l.walked ⟨atomic, [topic], none⟩ mode policy (l.reads + cost) with
            | .error (.walkCouldNotRun stop) =>
              pure (.inr ({ l with reads := l.reads + cost, breaches := l.breaches ++ [stop] },
                .error (next ++ ": " ++ stop.text)))
            | .error e => pure (.inr ({ l with reads := l.reads + cost }, .error (next ++ ": " ++ e.text)))
            | .ok counted =>
              let l := { l with
                reads := counted.reads
                breaches := l.breaches ++ counted.report.walkCouldNotRun.toList
                walked := if counted.report.walkCouldNotRun.isSome ∨ mode = .historicalTxNoSpv ∨ next ∈ l.walked
                  then l.walked else l.walked ++ E.walkCover beef next }
              let landedNow := decide (topic ∈ counted.report.appliedTopics)
              if counted.report.isDurable && (landedNow || decide (topic ∈ counted.report.dedupedTopics)) then
                pure (.inl { l with stack := under, landed := if landedNow then l.landed ++ [(next, topic)] else l.landed })
              else match (counted.blocked.lookup topic).filter (· ∉ l.stack) with
                | some blocker => pure (.inl { l with stack := blocker :: l.stack })
                | none =>
                  if counted.report.isDurable then pure (.inr (l, .error (next ++ ": the manager failed it")))
                  else pure (.inr (l, .error (next ++ ": " ++ counted.report.summary)))

theorem landLoop_turn (n : Nat) (l : Landing) : landLoop E bound beef topic mode policy (n + 1) l =
    landTurn E bound beef topic mode policy l >>= Sum.elim (landLoop E bound beef topic mode policy n) pure := by
  unfold landTurn
  rw [landLoop]
  cases l.stack with
  | nil => rfl
  | cons next under =>
    simp only
    cases beef.body next with
    | none => rfl
    | some body =>
      simp only
      rw [bind_assoc]
      refine bind_congr fun guarded => ?_
      obtain ⟨l1, allowed⟩ := guarded
      cases allowed with
      | error e => rfl
      | ok =>
        simp only
        split
        · rfl
        · cases E.toAtomicBeef beef next with
          | none => rfl
          | some atomic =>
            simp only
            rw [bind_assoc]
            refine bind_congr fun answered => ?_
            cases answered with
            | error e => cases e <;> rfl
            | ok counted =>
              simp only
              split
              · rfl
              · generalize (counted.blocked.lookup topic).filter (· ∉ l1.stack) = blocker
                cases blocker with
                | some blocker => rfl
                | none =>
                  simp only
                  split <;> rfl

end

section
variable {E : Engine} {bound : Bound} {beef : Beef} {topic : Topic} {mode : SubmitMode} {policy : WalkBreachPolicy}

theorem landerCounts_none : LanderCounts none := fun _ h => by cases h

theorem landTurn_within (l : Landing) (ha : l.reads ≤ predecessorReadsPerSubmit) :
    Yields (landTurn E bound beef topic mode policy l) fun r =>
      r.elim (fun l' => Within l.reads l'.reads ∧ l.reads < l'.reads) fun b => Within l.reads b.1.reads := by
  have same : Within l.reads l.reads := ⟨Nat.le_refl _, ha⟩
  unfold landTurn
  split
  · exact yields_pure same
  · rename_i next under _
    split
    · exact yields_pure same
    · rename_i body _
      refine yields_bind (F := fun a => a.1.reads = l.reads) ?_ fun guarded hguarded => ?_
      · unfold guardLanding
        split
        · exact yields_pure rfl
        · split
          · exact yields_pure rfl
          · exact yields_after fun _ => yields_pure rfl
      obtain ⟨l1, allowed⟩ := guarded
      have hreads : l1.reads = l.reads := hguarded
      cases allowed with
      | error e => exact yields_pure (show Within l.reads l1.reads from hreads ▸ same)
      | ok =>
        simp only
        split
        · exact yields_pure (show Within l.reads l1.reads from hreads ▸ same)
        · rename_i hfits
          split
          · exact yields_pure (show Within l.reads l1.reads from hreads ▸ same)
          · rename_i atomic _
            have charged : Within l.reads (l1.reads + (1 + 2 * body.inputs.length)) := ⟨by omega, by omega⟩
            refine yields_bind (within_submitCounted (fun _ _ _ => landerCounts_none) ⟨atomic, [topic], none⟩ mode policy charged.allowance)
              fun answered hanswered => ?_
            cases answered with
            | error e => cases e <;> exact yields_pure charged
            | ok counted =>
              have counts := hanswered counted rfl
              have h1 := counts.monotone
              have higher : Within l.reads counted.reads ∧ l.reads < counted.reads := ⟨charged.trans counts, by omega⟩
              simp only
              split
              · exact yields_pure higher
              · split
                · exact yields_pure higher
                · split <;> exact yields_pure higher.1

def Landing.readsLeft (l : Landing) : Nat := predecessorReadsPerSubmit - l.reads

theorem landTurn_descends : Descends (fun l : Landing => l.reads ≤ predecessorReadsPerSubmit) Landing.readsLeft
    (landTurn E bound beef topic mode policy) := by
  intro l ha
  refine (landTurn_within l ha).mono fun r hr l' h => ?_
  subst h
  have h1 := hr.1.allowance
  have h2 := hr.2
  exact ⟨h1, by unfold Landing.readsLeft; omega⟩

theorem landLoop_ends (l : Landing) (ha : l.reads ≤ predecessorReadsPerSubmit) (w : World Db) :
    (turns (landTurn E bound beef topic mode policy) (predecessorReadsPerSubmit + 1) l w).1 =
      some (landLoop E bound beef topic mode policy (predecessorReadsPerSubmit + 1) l w).1 :=
  (fueled_eq (landLoop_turn E bound beef topic mode policy) _ l w
    (turns_end landTurn_descends _ l ha (by unfold Landing.readsLeft; omega) w)).1.symm

theorem landerCounts_landCarried (tx : Tx) (ran : Bool) : LanderCounts (some (landCarried E bound mode policy tx beef ran)) := by
  intro land hland topic c reads ha
  cases hland
  unfold landCarried
  simp only
  refine yields_bind (F := fun r => Within reads r.1.reads) ?_ fun r hr => yields_pure hr
  refine yields_fueled (μ := Landing.readsLeft) (I := fun l => Within reads l.reads) (landLoop_turn E bound beef topic _ policy)
    (fun l hl => ?_) ⟨Nat.le_refl _, ha⟩ (by unfold Landing.readsLeft; omega)
  refine (landTurn_within l hl.allowance).mono fun r hr => ?_
  cases r with
  | inl l' =>
    have h1 : Within l.reads l'.reads ∧ l.reads < l'.reads := hr
    have h2 := h1.1.allowance
    exact ⟨hl.trans h1.1, by unfold Landing.readsLeft; omega⟩
  | inr b => exact hl.trans hr

end

/-! ## One submit -/

/-- The question of a submit under `E`: `lander` is the one its topics land with,
the engine's own submit's or none. -/
structure QuestionBounded (E : Engine) (bound : Bound) (mode : SubmitMode) (policy : WalkBreachPolicy)
    (lander : Tx → Beef → Bool → Option Lander) : Prop where
  /-- The counter of a submit, from what it is given. -/
  counter : ∀ finalize walked tagged reads, reads ≤ predecessorReadsPerSubmit →
    Yields (submitCounted E bound finalize walked lander tagged mode policy reads) fun r => ∀ c, r = .ok c → Within reads c.reads
  /-- The counter after each turn of the asking loop. -/
  asking : ∀ sub tx beef ran manager a, a.2.2.reads ≤ predecessorReadsPerSubmit →
    Yields (askingTurn E bound sub beef mode (lander tx beef ran) manager a) fun r =>
      r.elim (fun a' => Within a.2.2.reads a'.2.2.reads) fun b => Within a.2.2.reads b.2.reads
  /-- The counter after each turn of the landing stack. -/
  landing : ∀ beef topic mode l, l.reads ≤ predecessorReadsPerSubmit →
    Yields (landTurn E bound beef topic mode policy l) fun r =>
      r.elim (fun l' => Within l.reads l'.reads) fun b => Within l.reads b.1.reads
  /-- What a landing is charged is still there to give back. -/
  refund : ∀ tx beef ran land, lander tx beef ran = some land → ∀ topic c reads rejudge, reads + rejudge ≤ predecessorReadsPerSubmit →
    Yields (land topic c (reads + rejudge)) fun r => rejudge ≤ r.1 ∧ reads ≤ r.1 - rejudge
  /-- Every read of the question is counted within the allowance. -/
  counted : ∀ manager tx beef topic namedOnly held foundCoin names reads,
    Charges (unlandedPredecessor E bound manager tx beef topic mode namedOnly held foundCoin names reads) fun r k => Spent reads k r.2.1
  /-- The turns of the asking loop end it, at what the loop computes. -/
  askingEnds : ∀ sub tx beef ran manager v names rule w, rule.reads ≤ predecessorReadsPerSubmit →
    (turns (askingTurn E bound sub beef mode (lander tx beef ran) manager) (predecessorReadsPerSubmit + 1) (v, names, rule) w).1 =
      some (successorLoop E bound sub beef mode (lander tx beef ran) manager (predecessorReadsPerSubmit + 1) v names rule w).1
  /-- So do the turns of the landing stack. -/
  landingEnds : ∀ beef topic mode l w, l.reads ≤ predecessorReadsPerSubmit →
    (turns (landTurn E bound beef topic mode policy) (predecessorReadsPerSubmit + 1) l w).1 =
      some (landLoop E bound beef topic mode policy (predecessorReadsPerSubmit + 1) l w).1
  /-- And the turns of a question's walk. -/
  walkEnds : ∀ manager tx beef topic foundCoin direct q w, q.ask.length ≤ tx.spent.length →
    (turns (askTurn E bound manager tx beef topic mode foundCoin direct) (walkLength tx beef) q w).1 =
      some (askWalk E bound manager tx beef topic mode foundCoin direct (walkLength tx beef) q w).1

theorem questionBounded_of_counts {E : Engine} {bound : Bound} {mode : SubmitMode} {policy : WalkBreachPolicy}
    {lander : Tx → Beef → Bool → Option Lander} (hl : ∀ tx beef ran, LanderCounts (lander tx beef ran)) :
    QuestionBounded E bound mode policy lander where
  counter finalize walked tagged reads ha := within_submitCounted hl tagged mode policy ha
  asking sub tx beef ran manager a ha := by
    refine (askingTurn_within (hl tx beef ran) a ha).mono fun r hr => ?_
    cases r with
    | inl a' => exact hr.1
    | inr b => exact hr
  landing beef topic mode l ha := by
    refine (landTurn_within l ha).mono fun r hr => ?_
    cases r with
    | inl l' => exact hr.1
    | inr b => exact hr
  refund tx beef ran land hland topic c reads rejudge ha := by
    refine (hl tx beef ran land hland topic c _ ha).mono fun r hr => ?_
    have := hr.monotone
    omega
  counted _ _ _ _ namedOnly held foundCoin names reads := charges_unlandedPredecessor namedOnly held foundCoin names reads
  askingEnds sub tx beef ran manager v names rule w ha := successorLoop_ends (hl tx beef ran) v names rule ha w
  landingEnds beef topic mode l w ha := landLoop_ends l ha w
  walkEnds manager tx beef topic foundCoin direct q w hq := askWalk_ends foundCoin q hq direct w

/-- The question of the engine's own submit, and of a carried predecessor's, is bounded. -/
theorem question_bounded (E : Engine) (bound : Bound) (mode : SubmitMode) (policy : WalkBreachPolicy) :
    QuestionBounded E bound mode policy (fun tx beef ran => some (landCarried E bound mode policy tx beef ran)) ∧
      QuestionBounded E bound mode policy fun _ _ _ => none :=
  ⟨questionBounded_of_counts fun tx _ ran => landerCounts_landCarried tx ran, questionBounded_of_counts fun _ _ _ => landerCounts_none⟩

end OverlayEngine
