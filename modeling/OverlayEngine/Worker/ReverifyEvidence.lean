import OverlayEngine.Worker.Reverify

/-!
# A confirmation is withdrawn on evidence

Every write of the pass that un-confirms a row finds it still naming the judged
spender at the judged height, and before it, in the judgement of that row, stands
what refutes the confirmation.
-/

namespace OverlayEngine.Reverify

open Traced (Triple Assn emit)

/-! ## What a demotion rests on -/

def PotRecord.outpoint (r : PotRecord) : String × Nat := (r.txid, r.outputIndex)

structure Headers where
  answered : Nat → String → Bool → Prop
  served : Nat → String → Prop

section
variable {β μ : Type}

def Demotes (before after : World β) (op : String × Nat) : Prop :=
  (∃ r ∈ before.records, r.outpoint = op ∧ r.spentConfirmed = true) ∧ ∀ r ∈ after.records, r.outpoint = op → r.spentConfirmed = false

namespace Event

def marks : Event β → Bool
  | judging _ => true
  | _ => false

def faults : Event β → Bool
  | headerFault => true
  | courierFault => true
  | _ => false

def writes : Event β → Bool
  | wrote _ _ => true
  | _ => false

end Event

structure RootMemo.From (H : Headers) (t : List (Event β)) (m : RootMemo) : Prop where
  verdict : ∀ k v, (k, v) ∈ m.verdicts → H.answered k.1 k.2 v ∨ .answered k.1 k.2 v ∈ t
  root : ∀ h c, (h, c) ∈ m.canonical → ∃ root, H.served h root ∧ ArcadeReorg.eqIgnoreAsciiCase c root = true

variable (x : Bsv β μ) (H : Headers)

def HeaderRefutes (t : List (Event β)) (hex txid : String) : Prop :=
  ∃ path root, x.proofFromHex hex = some path ∧ x.computeRoot path txid = some root ∧
    (H.answered (x.blockHeight path) root false ∨ .answered (x.blockHeight path) root false ∈ t ∨
      ∃ c, H.served (x.blockHeight path) c ∧ ArcadeReorg.eqIgnoreAsciiCase c root = false)

def Rootless (hex txid : String) : Prop := ((x.proofFromHex hex).bind fun path => x.computeRoot path txid) = none

def NoOwnBump (spender : String) (mine : List (Event β)) : Prop :=
  ∃ beef, .read spender beef ∈ mine ∧ (beef.bind fun bytes => x.storedBumpHex bytes spender) = none

def Holds (beef : Option β) (hex spender : String) : Prop :=
  (x.pushedAnchor hex spender).isSome ∧ x.pushedAnchor hex spender = beef.bind fun bytes => x.storedBumpAnchor bytes spender

def LadderSilent (spender : String) (mine : List (Event β)) : Prop :=
  ∃ late budget served early, mine = late ++ .asked true spender budget served :: early ∧ budget ≠ some 0 ∧
    ∀ hex, served = some hex → ∃ after beef between, late = after ++ .read spender beef :: between ∧ (∀ e ∈ after, e.writes = false) ∧
      ¬Holds x beef hex spender

/-- The evidence in the judgement of one row; `refuted` says it of a bump. -/
inductive Evidence (mode : ReverifyMode) (courier : Option Courier) (refuted : String → Prop) (rec : PotRecord) (spender : String)
    (mine : List (Event β)) : Prop
  | stale {beef : β} {hex : String} (read : .read spender (some beef) ∈ mine) (own : x.storedBumpHex beef spender = some hex)
      (against : refuted hex) (ladder : mode.reanchorFirst = true → courier.isSome = true → LadderSilent x spender mine)
  | blind (proofless : mode.demoteProofless = true) (own : NoOwnBump x spender mine)
  | elsewhere {budget : Option Nat} {hex : String} {h : Nat} (own : NoOwnBump x spender mine)
      (asked : .asked false spender budget (some hex) ∈ mine) (left : budget ≠ some 0)
      (height : (x.proofFromHex hex).map x.blockHeight = some h) (other : rec.spentHeight ≠ some h)

structure Given (β μ : Type) where
  bsv : Bsv β μ
  tracker : Option Tracker := none
  headers : Headers
  courier : Option Courier := none
  mode : ReverifyMode := {}
  page : Option (List (ReorgLegs.RowKey × PotRecord)) := none

def Given.rows (g : Given β μ) : List (ReorgLegs.RowKey × PotRecord) := g.page.getD []

def Given.reverify (g : Given β μ) (o : Outside β) (after : Option ReorgLegs.RowKey) (limit : Nat) : Pass β ReverifyPassSummary :=
  reverifyWindowWith g.bsv o g.tracker g.courier g.mode g.page after limit

def Warranted (g : Given β μ) (refuted : List (Event β) → String → String → Prop) (before : World β) (op : String × Nat) (t : List (Event β)) : Prop :=
  ∃ key rec mine pre spender, (key, rec) ∈ g.rows ∧ rec.outpoint = op ∧ rec.spendingTxid = some spender ∧
    t = mine ++ .judging rec :: pre ∧ (∀ e ∈ mine, e.marks = false ∧ e.faults = false) ∧
    (∃ r ∈ before.records, r.outpoint = op ∧ r.spentConfirmed = true ∧ r.spendingTxid = some spender ∧ r.spentHeight = rec.spentHeight) ∧
    Evidence g.bsv g.mode g.courier (refuted t · spender) rec spender mine

def Sound (g : Given β μ) (refuted : List (Event β) → String → String → Prop) (t : List (Event β)) : Prop :=
  ∀ later before after earlier op, t = later ++ .wrote before after :: earlier → Demotes before after op →
    Warranted g refuted before op earlier

end

/-! ## The store's statements -/

section
variable {β : Type} {w : World β} {guard : PotRecord → Bool} {set : PotRecord → PotRecord} {op : String × Nat}

theorem guard_of_demotes (h : Demotes w (w.update guard set).1 op) : ∃ r ∈ w.records, r.outpoint = op ∧ guard r = true := by
  obtain ⟨⟨r, hr, hop, hconf⟩, hnone⟩ := h
  refine ⟨r, hr, hop, ?_⟩
  by_contra hg
  have hkept : r ∈ (w.update guard set).1.records := List.mem_map.mpr ⟨r, hr, by simp [hg]⟩
  rw [hnone r hkept hop] at hconf
  cases hconf

theorem not_demotes_update (hset : ∀ r, (set r).outpoint = r.outpoint) (hkeeps : ∀ r, r.spentConfirmed = true → (set r).spentConfirmed = true) :
    ¬Demotes w (w.update guard set).1 op := by
  intro ⟨⟨r, hr, hop, hconf⟩, hnone⟩
  have hnew : (if guard r then set r else r) ∈ (w.update guard set).1.records := List.mem_map_of_mem hr
  have hconf' : (if guard r then set r else r).spentConfirmed = true := by
    split
    · exact hkeeps r hconf
    · exact hconf
  rw [hnone _ hnew (by split <;> simp [hset, hop])] at hconf'
  cases hconf'

theorem not_demotes_of_records {w' : World β} (h : w'.records = w.records) : ¬Demotes w w' op := by
  intro ⟨⟨r, hr, hop, hconf⟩, hnone⟩
  rw [hnone r (h ▸ hr) hop] at hconf
  cases hconf

theorem not_demotes_markConfirmed (txid : String) (i : Nat) (spender : String) (height : Option Nat) :
    ¬Demotes w (w.markConfirmed txid i spender height).1 op := not_demotes_update (fun _ => rfl) fun _ _ => rfl

theorem not_demotes_reanchorConfirmed (txid : String) (i : Nat) (spender : String) (height : Nat) :
    ¬Demotes w (w.reanchorConfirmed txid i spender height).1 op := not_demotes_update (fun _ => rfl) fun _ h => h

theorem row_of_demoteConfirmedAt {txid spender : String} {i : Nat} {judged : Option Nat} (h : Demotes w (w.demoteConfirmedAt txid i spender judged).1 op) :
    op = (txid, i) ∧ ∃ r ∈ w.records, r.outpoint = op ∧ r.spentConfirmed = true ∧ r.spendingTxid = some spender ∧ r.spentHeight = judged := by
  obtain ⟨r, hr, hop, hguard⟩ := guard_of_demotes h
  simp only [World.names, Bool.and_eq_true, beq_iff_eq] at hguard
  obtain ⟨⟨⟨⟨htx, hi⟩, hsp⟩, hconf⟩, hh⟩ := hguard
  refine ⟨?_, r, hr, hop, hconf, hsp, hh⟩
  rw [← hop, PotRecord.outpoint, htx, hi]

end

/-! ## Rules of the pass -/

section
variable {β μ α : Type}

def Refuted (g : Given β μ) (t : List (Event β)) (hex txid : String) : Prop := Rootless g.bsv hex txid ∨ HeaderRefutes g.bsv g.headers t hex txid

variable {seg m t t' a b : List (Event β)} {hex txid spender root : String} {x : Bsv β μ}

theorem HeaderRefutes.mono {H : Headers} (h : HeaderRefutes x H t hex txid)
    (hsub : ∀ e ∈ t, e ∈ t') : HeaderRefutes x H t' hex txid := by
  obtain ⟨path, root, hpath, hroot, hsays⟩ := h
  refine ⟨path, root, hpath, hroot, ?_⟩
  rcases hsays with h | h | h
  · exact .inl h
  · exact .inr (.inl (hsub _ h))
  · exact .inr (.inr h)

theorem Refuted.mono {g : Given β μ} (h : Refuted g t hex txid) (hsub : ∀ e ∈ t, e ∈ t') :
    Refuted g t' hex txid := h.imp_right fun h => h.mono hsub

def Calm (seg : List (Event β)) : Prop := ∀ e ∈ seg, e.marks = false ∧ e.faults = false

def Reads (seg : List (Event β)) : Prop := ∀ e ∈ seg, e.marks = false ∧ e.faults = false ∧ e.writes = false

theorem Reads.calm (h : Reads seg) : Calm seg := fun e he => ⟨(h e he).1, (h e he).2.1⟩

theorem Calm.append (ha : Calm a) (hb : Calm b) : Calm (a ++ b) := by
  intro e he
  rcases List.mem_append.mp he with h | h
  · exact ha e h
  · exact hb e h

theorem Reads.append (ha : Reads a) (hb : Reads b) : Reads (a ++ b) := by
  intro e he
  rcases List.mem_append.mp he with h | h
  · exact ha e h
  · exact hb e h

theorem calm_nil : Calm ([] : List (Event β)) := by simp [Calm]

theorem reads_nil : Reads ([] : List (Event β)) := by simp [Reads]

/-- The events were added to some for which `F` held. -/
def Adds (S F : List (Event β) → Prop) (mine : List (Event β)) : Prop := ∃ seg old, mine = seg ++ old ∧ S seg ∧ F old

variable {mine : List (Event β)}

theorem adds_calm {F : List (Event β) → Prop} (h : Adds Calm (Adds Calm F) mine) : Adds Calm F mine := by
  obtain ⟨seg, old, rfl, hseg, seg', old', rfl, hseg', hF⟩ := h
  exact ⟨seg ++ seg', old', (List.append_assoc ..).symm, hseg.append hseg', hF⟩

theorem adds_nil {S F : List (Event β) → Prop} (hS : S []) (h : F mine) : Adds S F mine := ⟨[], mine, rfl, hS, h⟩

structure Between (g : Given β μ) (s : St β) (t : List (Event β)) : Prop where
  memo : s.memo.From g.headers t
  sound : Sound g (Refuted g) t

/-- In the judgement of `rec`, of whose events so far `F` holds. -/
structure At (g : Given β μ) (rec : PotRecord) (pre : List (Event β)) (F : List (Event β) → Prop) (s : St β) (t : List (Event β)) : Prop
    extends Between g s t where
  row : ∃ mine, t = mine ++ .judging rec :: pre ∧ (∀ e ∈ mine, e.marks = false) ∧ F mine

variable {g : Given β μ} {rec : PotRecord} {pre : List (Event β)} {F G : List (Event β) → Prop} {o : Outside β}

variable {t : List (Event β)} {s : St β}

theorem At.mono (h : At g rec pre F s t) (hFG : ∀ m, F m → G m) :
    At g rec pre G s t := by
  obtain ⟨mine, ht, hm, hF⟩ := h.row
  exact ⟨h.toBetween, mine, ht, hm, hFG mine hF⟩

theorem From.cons {H : Headers} {m : RootMemo} (h : m.From H t) (e : Event β) : m.From H (e :: t) :=
  ⟨fun k v hk => (h.verdict k v hk).imp_right (List.mem_cons_of_mem _), h.root⟩

theorem Sound.cons {R : List (Event β) → String → String → Prop} {e : Event β} (h : Sound g R t)
    (he : ∀ before after op, e = .wrote before after → Demotes before after op → Warranted g R before op t) :
    Sound g R (e :: t) := by
  intro later before after earlier op ht hdem
  cases later with
  | nil =>
    obtain ⟨rfl, rfl⟩ := List.cons.inj ht
    exact he before after op rfl hdem
  | cons e' later =>
    obtain ⟨-, rfl⟩ := List.cons.inj ht
    exact h later before after earlier op rfl hdem

theorem At.cons {e : Event β} (h : At g rec pre F s t) (hmark : e.marks = false)
    (he : ∀ before after op, e = .wrote before after → Demotes before after op → Warranted g (Refuted g) before op t) :
    At g rec pre (fun m => ∃ m', m = e :: m' ∧ F m') s (e :: t) := by
  obtain ⟨mine, ht, hm, hF⟩ := h.row
  refine ⟨⟨From.cons h.memo e, h.sound.cons he⟩, e :: mine, by rw [ht]; rfl, ?_, mine, rfl, hF⟩
  intro e' he'
  rcases List.mem_cons.mp he' with rfl | he'
  · exact hmark
  · exact hm e' he'

theorem At.moved (h : At g rec pre F s t) (clock : Nat) (world : World β) :
    At g rec pre F { s with clock, world } t := ⟨⟨h.memo, h.sound⟩, h.row⟩

theorem readStore_at (f : World β → α) :
    Triple (At g rec pre F) (readStore o f) fun _ => At g rec pre F :=
  fun _ _ h => h.moved _ _

theorem writeStore_at {f : World β → World β × α} (hq : ∀ w op, ¬Demotes w (f w).1 op) :
    Triple (At g rec pre F) (writeStore o f) fun _ => At g rec pre (Adds Calm F) := by
  intro s t h
  have hwrote : At g rec pre (Adds Calm F) { s.turn o with world := (f (s.turn o).world).1 }
      (.wrote (s.turn o).world (f (s.turn o).world).1 :: t) := by
    refine ((h.moved _ _).cons (e := .wrote _ _) rfl ?_).mono ?_
    · intro before after op heq hdem
      cases heq
      exact (hq _ _ hdem).elim
    · rintro m ⟨m', rfl, hF⟩
      exact ⟨[_], m', rfl, by simp [Calm, Event.marks, Event.faults], hF⟩
  unfold writeStore
  dsimp only
  cases o.fate s.clock with
  | ran => exact hwrote
  | lost => exact (h.moved (s.clock + 1) (o.env s.clock s.world)).mono fun _ => adds_nil calm_nil
  | landed => exact hwrote

theorem getBeef_at (txid : String) :
    Triple (At g rec pre F) (getBeef o txid) fun got =>
      match got with
      | none => At g rec pre F
      | some beef => At g rec pre fun m => ∃ m', m = .read txid beef :: m' ∧ F m' := by
  unfold getBeef
  refine (readStore_at (World.getBeef txid)).bind fun got => ?_
  cases got with
  | none => exact .pure _
  | some beef =>
    intro s t h
    exact h.cons rfl fun _ _ _ heq => by cases heq

theorem getMemo_at : Triple (At g rec pre F) getMemo fun m s t => At g rec pre F s t ∧ m = s.memo := fun _ _ h => ⟨h, rfl⟩

theorem At.refuted (h : At g rec pre F s t) (hK : Refuted g t hex txid) :
    At g rec pre (fun m => Refuted g (m ++ .judging rec :: pre) hex txid ∧ F m) s t := by
  obtain ⟨mine, rfl, hm, hF⟩ := h.row
  exact ⟨h.toBetween, mine, rfl, hm, hK, hF⟩

theorem mem_of_lookup {κ ν : Type} [BEq κ] [LawfulBEq κ] {k : κ} {v : ν} {l : List (κ × ν)} (h : l.lookup k = some v) : (k, v) ∈ l := by
  obtain ⟨l₁, l₂, rfl, -⟩ := List.lookup_eq_some_iff.mp h
  simp

theorem eqIgnore_false {c root' : String} (h : ArcadeReorg.eqIgnoreAsciiCase c root' = false) (hc : ArcadeReorg.eqIgnoreAsciiCase c root = true) :
    ArcadeReorg.eqIgnoreAsciiCase root root' = false := by
  unfold ArcadeReorg.eqIgnoreAsciiCase at *
  rw [beq_iff_eq] at hc
  rw [← hc]
  exact h

theorem askHeader_at {tracker : Tracker} {bump : μ} (hbump : g.bsv.proofFromHex hex = some bump)
    (hroot : g.bsv.computeRoot bump txid = some root) :
    Triple (At g rec pre F) (askHeader tracker (g.bsv.blockHeight bump) root) fun v =>
      match v with
      | none => At g rec pre fun _ => True
      | some true => At g rec pre (Adds Reads F)
      | some false => At g rec pre fun m => Refuted g (m ++ .judging rec :: pre) hex txid ∧ Adds Reads F m := by
  intro s t h
  unfold askHeader
  dsimp only
  cases hans : tracker s.clock (g.bsv.blockHeight bump) root with
  | none =>
    exact ((h.moved (s.clock + 1) s.world).cons (e := .headerFault) rfl fun _ _ _ heq => by cases heq).mono fun _ _ => trivial
  | some v =>
    have hcons := (h.moved (s.clock + 1) s.world).cons (e := .answered (g.bsv.blockHeight bump) root v) rfl fun _ _ _ heq => by cases heq
    have hmemo : ({ s.memo with verdicts := ((g.bsv.blockHeight bump, root), v) :: s.memo.verdicts } : RootMemo).From g.headers
        (.answered (g.bsv.blockHeight bump) root v :: t) := by
      refine ⟨fun k v' hk => ?_, h.memo.root⟩
      rcases List.mem_cons.mp hk with hk | hk
      · cases hk
        exact .inr (List.mem_cons_self ..)
      · exact (From.cons h.memo _).verdict k v' hk
    have hat : At g rec pre (Adds Reads F)
        { s with clock := s.clock + 1, memo := { s.memo with verdicts := ((g.bsv.blockHeight bump, root), v) :: s.memo.verdicts } }
        (.answered (g.bsv.blockHeight bump) root v :: t) := by
      refine At.mono (F := fun m => ∃ m', m = .answered (g.bsv.blockHeight bump) root v :: m' ∧ F m') ⟨⟨hmemo, hcons.sound⟩, hcons.row⟩ ?_
      rintro m ⟨m', rfl, hF⟩
      exact ⟨[_], m', rfl, by simp [Reads, Event.marks, Event.faults, Event.writes], hF⟩
    cases v with
    | true => exact hat
    | false => exact hat.refuted (.inr ⟨bump, root, hbump, hroot, .inr (.inl (List.mem_cons_self ..))⟩)

theorem verifyBumpMemoized_at (tracker : Tracker) (hex txid : String) :
    Triple (At g rec pre F) (verifyBumpMemoized g.bsv tracker hex txid) fun v =>
      match v with
      | none => At g rec pre fun _ => True
      | some true => At g rec pre (Adds Reads F)
      | some false => At g rec pre fun m => Refuted g (m ++ .judging rec :: pre) hex txid ∧ Adds Reads F m := by
  have hquiet {s : St β} {t : List (Event β)} (h : At g rec pre F s t) : At g rec pre (Adds Reads F) s t := h.mono fun _ => adds_nil reads_nil
  unfold verifyBumpMemoized
  cases hbump : g.bsv.proofFromHex hex with
  | none => exact fun s t h => (hquiet h).refuted (.inl (by simp [Rootless, hbump]))
  | some bump =>
    dsimp only
    cases hroot : g.bsv.computeRoot bump txid with
    | none => exact fun s t h => (hquiet h).refuted (.inl (by simp [Rootless, hbump, hroot]))
    | some root =>
      refine getMemo_at.bind fun memo => ?_
      cases hcanon : memo.canonical.lookup (g.bsv.blockHeight bump) with
      | some canonical =>
        intro s t ⟨h, hm⟩
        subst hm
        cases heq : ArcadeReorg.eqIgnoreAsciiCase canonical root with
        | true =>
          simp only [heq]
          exact hquiet h
        | false =>
          obtain ⟨c, hserved, hc⟩ := h.memo.root _ _ (mem_of_lookup hcanon)
          simp only [heq]
          exact (hquiet h).refuted (.inr ⟨bump, root, hbump, hroot, .inr (.inr ⟨c, hserved, eqIgnore_false heq hc⟩)⟩)
      | none =>
        dsimp only
        cases hv : memo.verdicts.lookup (g.bsv.blockHeight bump, root) with
        | none => exact (askHeader_at hbump hroot).pre fun _ _ h => h.1
        | some v =>
          intro s t ⟨h, hm⟩
          subst hm
          cases v with
          | true => exact hquiet h
          | false =>
            refine (hquiet h).refuted (.inr ⟨bump, root, hbump, hroot, ?_⟩)
            exact (h.memo.verdict _ _ (mem_of_lookup hv)).imp_right .inl

/-! ## The ladder's proof -/

theorem compactPotBeef_at (txid : String) (beef : β) :
    Triple (At g rec pre F) (compactPotBeef g.bsv o txid beef) fun _ => At g rec pre (Adds Calm F) := by
  unfold compactPotBeef
  split
  · exact writeStore_at fun w op => not_demotes_of_records rfl
  · exact fun _ _ h => h.mono fun _ => adds_nil calm_nil

theorem stitchPushed_at (txid hex : String) (verified : Bool) (pushed : BumpAnchor) :
    Triple (At g rec pre F) (stitchPushed g.bsv o txid hex verified pushed) fun _ => At g rec pre (Adds Calm F) := by
  have hread (beef : Option β) {m : List (Event β)} (h : ∃ m', m = .read txid beef :: m' ∧ F m') : Adds Calm F m := by
    obtain ⟨m', rfl, hF⟩ := h
    exact ⟨[_], m', rfl, by simp [Calm, Event.marks, Event.faults], hF⟩
  unfold stitchPushed
  refine (getBeef_at txid).bind fun got => ?_
  match got with
  | none => exact fun _ _ h => h.mono fun _ => adds_nil calm_nil
  | some none => exact fun _ _ h => h.mono fun _ => hread none
  | some (some stored) =>
    dsimp only
    split
    · split
      · exact fun _ _ h => h.mono fun _ => hread _
      · refine (compactPotBeef_at txid _).bind fun wrote => ?_
        have hdone {a : PushedPotSummary} : Triple (At g rec pre (Adds Calm fun m => ∃ m', m = .read txid (some stored) :: m' ∧ F m'))
            (pure a : Pass β PushedPotSummary) fun _ => At g rec pre (Adds Calm F) := by
          intro s t h
          refine h.mono fun m hm => ?_
          obtain ⟨seg, old, rfl, hseg, hold⟩ := hm
          exact adds_calm ⟨seg, old, rfl, hseg, hread _ hold⟩
        cases wrote <;> exact hdone
    · exact fun _ _ h => h.mono fun _ => hread _

theorem confirmSpend_at (txid : String) (height : Nat) (s : PushedPotSummary) (r : PotRecord) :
    Triple (At g rec pre (Adds Calm F)) (confirmSpend o txid height s r) fun _ => At g rec pre (Adds Calm F) := by
  unfold confirmSpend
  refine (writeStore_at fun w op => not_demotes_markConfirmed r.txid r.outputIndex txid (some height)).bind fun hit => ?_
  match hit with
  | none | some true | some false => exact fun _ _ h => h.mono fun _ => adds_calm

theorem reanchorSpend_at (txid : String) (height : Nat) (s : PushedPotSummary) (r : PotRecord) :
    Triple (At g rec pre (Adds Calm F)) (reanchorSpend o txid height s r) fun _ => At g rec pre (Adds Calm F) := by
  unfold reanchorSpend
  split
  · exact .pure _
  · refine (writeStore_at fun w op => not_demotes_reanchorConfirmed r.txid r.outputIndex txid height).bind fun hit => ?_
    match hit with
    | none | some true | some false => exact fun _ _ h => h.mono fun _ => adds_calm

theorem applyPushed_at (txid hex : String) :
    Triple (At g rec pre F) (applyPushedProofToPotStores g.bsv o txid hex) fun _ => At g rec pre (Adds Calm F) := by
  unfold applyPushedProofToPotStores
  split
  · exact fun _ _ h => h.mono fun _ => adds_nil calm_nil
  · refine (readStore_at _).bind fun verified => (stitchPushed_at txid hex _ _).bind fun s => (readStore_at _).bind fun unconfirmed => ?_
    refine (Triple.foldlM (fun s r => confirmSpend_at txid _ s r) _ s).bind fun s => (readStore_at _).bind fun confirmed => ?_
    exact Triple.foldlM (fun s r => reanchorSpend_at txid _ s r) _ s

theorem askLadder_at {c : Courier} (exhaustive : Bool) (txid : String) :
    Triple (fun s t => At g rec pre F s t ∧ c.budgetRemaining s.clock ≠ some 0) (askLadder c exhaustive txid) fun got =>
      match got with
      | none => At g rec pre fun _ => True
      | some served => At g rec pre fun m => ∃ budget m', m = .asked exhaustive txid budget served :: m' ∧ budget ≠ some 0 ∧ F m' := by
  intro s t ⟨h, hbudget⟩
  unfold askLadder
  dsimp only
  cases c.verifiedProof s.clock exhaustive txid with
  | none => exact ((h.moved (s.clock + 1) s.world).cons (e := .courierFault) rfl fun _ _ _ heq => by cases heq).mono fun _ _ => trivial
  | some served =>
    refine ((h.moved (s.clock + 1) s.world).cons (e := .asked exhaustive txid (c.budgetRemaining s.clock) served) rfl
      fun _ _ _ heq => by cases heq).mono ?_
    rintro m ⟨m', rfl, hF⟩
    exact ⟨_, m', rfl, hbudget, hF⟩

theorem budgetSpent_at (courier : Option Courier) :
    Triple (At g rec pre F) (budgetSpent courier) fun spent s t =>
      At g rec pre F s t ∧ (spent = false → ∀ c, courier = some c → c.budgetRemaining s.clock ≠ some 0) := by
  intro s t h
  refine ⟨h, fun hspent c hc => ?_⟩
  subst hc
  simpa [budgetSpent] using hspent

theorem reanchorFromLadder_at (c : Courier) (spender : String) :
    Triple (At g rec pre F) (reanchorFromLadder g.bsv o c spender) fun r =>
      match r with
      | .noCanonicalProof => At g rec pre (Adds (fun seg => Calm seg ∧ LadderSilent g.bsv spender seg) F)
      | _ => At g rec pre fun _ => True := by
  unfold reanchorFromLadder
  refine (budgetSpent_at (some c)).bind fun spent => ?_
  cases spent with
  | true => exact fun _ _ h => h.1.mono fun _ _ => trivial
  | false =>
    simp only [Bool.false_eq_true, if_false]
    refine ((askLadder_at true spender).pre fun _ _ h => ⟨h.1, h.2 trivial c rfl⟩).bind fun got => ?_
    match got with
    | none => exact .pure _
    | some none =>
      intro s t h
      refine h.mono ?_
      rintro m ⟨budget, m', rfl, hbudget, hF⟩
      refine ⟨[_], m', rfl, ⟨by simp [Calm, Event.marks, Event.faults], [], budget, none, [], rfl, hbudget, fun hex h => by cases h⟩, hF⟩
    | some (some hex) =>
      dsimp only
      refine (applyPushed_at spender hex).bind fun applied => ?_
      split
      · exact fun _ _ h => h.mono fun _ _ => trivial
      · refine (getBeef_at spender).bind fun got => ?_
        match got with
        | none => exact fun _ _ h => h.mono fun _ _ => trivial
        | some beef =>
          dsimp only
          split
          · exact fun _ _ h => h.mono fun _ _ => trivial
          · rename_i hholds
            intro s t h
            refine h.mono ?_
            rintro m ⟨m₁, rfl, seg, m₂, rfl, hseg, budget, m₃, rfl, hbudget, hF⟩
            refine ⟨.read spender beef :: seg ++ [.asked true spender budget (some hex)], m₃, by simp, ⟨?_, ?_⟩, hF⟩
            · exact Calm.append (a := .read spender beef :: seg) (Calm.append (a := [_]) (by simp [Calm, Event.marks, Event.faults]) hseg)
                (by simp [Calm, Event.marks, Event.faults])
            · refine ⟨.read spender beef :: seg, budget, some hex, [], by simp, hbudget, fun hex' heq => ?_⟩
              cases heq
              exact ⟨[], beef, seg, rfl, by simp, hholds⟩

theorem LadderSilent.older (h : LadderSilent x spender m) (old : List (Event β)) :
    LadderSilent x spender (m ++ old) := by
  obtain ⟨late, budget, served, early, rfl, hbudget, hread⟩ := h
  exact ⟨late, budget, served, early ++ old, by simp, hbudget, hread⟩

theorem LadderSilent.reads (h : LadderSilent x spender m) (hseg : Reads seg) :
    LadderSilent x spender (seg ++ m) := by
  obtain ⟨late, budget, served, early, rfl, hbudget, hread⟩ := h
  refine ⟨seg ++ late, budget, served, early, by simp, hbudget, fun hex heq => ?_⟩
  obtain ⟨after, beef, between, rfl, hafter, hholds⟩ := hread hex heq
  refine ⟨seg ++ after, beef, between, by simp, fun e he => ?_, hholds⟩
  rcases List.mem_append.mp he with he | he
  · exact (hseg e he).2.2
  · exact hafter e he

/-! ## A row -/

variable {spender : String}

theorem demote_at (hrow : ∃ key, (key, rec) ∈ g.rows) (hsp : rec.spendingTxid = some spender)
    (hE : ∀ m, F m → Calm m ∧ Evidence g.bsv g.mode g.courier (Refuted g (m ++ .judging rec :: pre) · spender) rec spender m) :
    Triple (At g rec pre F) (writeStore o (World.demoteConfirmedAt rec.txid rec.outputIndex spender rec.spentHeight)) fun _ =>
      At g rec pre fun _ => True := by
  intro s t h
  have hwrote : At g rec pre (fun _ => True) { s.turn o with world := ((s.turn o).world.demoteConfirmedAt rec.txid rec.outputIndex spender rec.spentHeight).1 }
      (.wrote (s.turn o).world ((s.turn o).world.demoteConfirmedAt rec.txid rec.outputIndex spender rec.spentHeight).1 :: t) := by
    refine ((h.moved _ _).cons (e := .wrote _ _) rfl ?_).mono fun _ _ => trivial
    intro before after op heq hdem
    cases heq
    obtain ⟨hop, hnames⟩ := row_of_demoteConfirmedAt hdem
    obtain ⟨key, hkey⟩ := hrow
    obtain ⟨mine, ht, -, hF⟩ := h.row
    obtain ⟨hcalm, hev⟩ := hE mine hF
    rw [← ht] at hev
    exact ⟨key, rec, mine, pre, spender, hkey, hop.symm, hsp, ht, hcalm, hnames, hev⟩
  unfold writeStore
  dsimp only
  cases o.fate s.clock with
  | ran => exact hwrote
  | lost => exact (h.moved (s.clock + 1) (o.env s.clock s.world)).mono fun _ _ => trivial
  | landed => exact hwrote

theorem demoteStale_at (sum : ReverifyPassSummary) (hrow : ∃ key, (key, rec) ∈ g.rows) (hsp : rec.spendingTxid = some spender)
    (hE : ∀ m, F m → Calm m ∧ Evidence g.bsv g.mode g.courier (Refuted g (m ++ .judging rec :: pre) · spender) rec spender m) :
    Triple (At g rec pre F) (demoteStale o rec spender sum) fun _ => At g rec pre fun _ => True := by
  unfold demoteStale
  refine (demote_at hrow hsp hE).bind fun hit => ?_
  match hit with
  | none | some false => exact .pure _
  | some true =>
    refine (writeStore_at fun w op => not_demotes_of_records rfl).bind fun hit => ?_
    cases hit <;> exact fun _ _ h => h.mono fun _ _ => trivial

theorem demoteBlind_at (sum : ReverifyPassSummary) (hrow : ∃ key, (key, rec) ∈ g.rows) (hsp : rec.spendingTxid = some spender)
    (hE : ∀ m, F m → Calm m ∧ Evidence g.bsv g.mode g.courier (Refuted g (m ++ .judging rec :: pre) · spender) rec spender m) :
    Triple (At g rec pre F) (demoteBlind o rec spender sum) fun _ => At g rec pre fun _ => True := by
  unfold demoteBlind
  refine (demote_at hrow hsp hE).bind fun hit => ?_
  match hit with
  | none | some false | some true => exact .pure _

section
variable {stored : Option β} (hrow : ∃ key, (key, rec) ∈ g.rows) (hsp : rec.spendingTxid = some spender)
  (hnone : (stored.bind fun bytes => g.bsv.storedBumpHex bytes spender) = none)
include hrow hsp hnone

theorem courierRecheck_at (sum : ReverifyPassSummary) :
    Triple (fun s t => At g rec pre (· = [.read spender stored]) s t ∧ ∀ c, g.courier = some c → c.budgetRemaining s.clock ≠ some 0)
      (courierRecheck g.bsv o g.courier rec spender stored sum) fun _ => At g rec pre fun _ => True := by
  unfold courierRecheck
  cases hc : g.courier with
  | none => exact fun _ _ h => h.1.mono fun _ _ => trivial
  | some c =>
    dsimp only
    refine ((askLadder_at false spender).pre fun _ _ h => ⟨h.1, h.2 c rfl⟩).bind fun got => ?_
    match got with
    | none => exact .pure _
    | some none => exact fun _ _ h => h.mono fun _ _ => trivial
    | some (some hex) =>
      dsimp only
      cases hh : (g.bsv.proofFromHex hex).map g.bsv.blockHeight with
      | none => exact fun _ _ h => h.mono fun _ _ => trivial
      | some height =>
        dsimp only
        split
        · split
          · exact fun _ _ h => h.mono fun _ _ => trivial
          · refine (compactPotBeef_at spender _).bind fun wrote => ?_
            cases wrote <;> exact fun _ _ h => h.mono fun _ _ => trivial
        · rename_i hother
          refine demoteStale_at sum hrow hsp ?_
          rintro m ⟨budget, m', rfl, hbudget, rfl⟩
          refine ⟨by simp [Calm, Event.marks, Event.faults], ?_⟩
          have hasked : Event.asked false spender budget (some hex) ∈ [.asked false spender budget (some hex), .read spender stored] :=
            List.mem_cons_self ..
          exact .elsewhere ⟨stored, by simp, hnone⟩ hasked hbudget hh hother

theorem judgeProofless_at (sum : ReverifyPassSummary) :
    Triple (At g rec pre (· = [.read spender stored])) (judgeProofless g.bsv o g.courier g.mode rec spender stored sum) fun _ =>
      At g rec pre fun _ => True := by
  unfold judgeProofless
  split
  · rename_i hmode
    refine (demoteBlind_at sum hrow hsp ?_).bind fun s => .pure _
    rintro m rfl
    exact ⟨by simp [Calm, Event.marks, Event.faults], .blind hmode ⟨stored, by simp, hnone⟩⟩
  · refine (budgetSpent_at g.courier).bind fun spent => ?_
    cases spent with
    | true => exact fun _ _ h => h.1.mono fun _ _ => trivial
    | false => exact ((courierRecheck_at hrow hsp hnone sum).pre fun _ _ h => ⟨h.1, h.2 rfl⟩).bind fun s => .pure _

end

structure Stale (g : Given β μ) (rec : PotRecord) (pre : List (Event β)) (spender hex : String) (m : List (Event β)) : Prop where
  calm : Calm m
  refuted : Refuted g (m ++ .judging rec :: pre) hex spender
  own : ∃ beef, .read spender (some beef) ∈ m ∧ g.bsv.storedBumpHex beef spender = some hex

theorem Stale.adds (h : Stale g rec pre spender hex m) (hseg : Calm seg) :
    Stale g rec pre spender hex (seg ++ m) := by
  obtain ⟨beef, hread, hown⟩ := h.own
  refine ⟨hseg.append h.calm, h.refuted.mono fun e he => ?_, beef, List.mem_append_right _ hread, hown⟩
  rw [List.append_assoc]
  exact List.mem_append_right _ he

theorem recheckStoredBump_at (tracker : Tracker) (judged : String) :
    Triple (At g rec pre F) (recheckStoredBump g.bsv o tracker spender judged) fun r =>
      match r with
      | .stillRefuted => At g rec pre (Adds Reads F)
      | _ => At g rec pre fun _ => True := by
  have hread (beef : Option β) {m : List (Event β)} (h : ∃ m', m = .read spender beef :: m' ∧ F m') : Adds Reads F m := by
    obtain ⟨m', rfl, hF⟩ := h
    exact ⟨[_], m', rfl, by simp [Reads, Event.marks, Event.faults, Event.writes], hF⟩
  unfold recheckStoredBump
  refine (getBeef_at spender).bind fun got => ?_
  cases got with
  | none => exact fun _ _ h => h.mono fun _ _ => trivial
  | some beef =>
    dsimp only
    split
    · exact fun _ _ h => h.mono fun _ => hread beef
    · split
      · exact fun _ _ h => h.mono fun _ => hread beef
      · refine (verifyBumpMemoized_at tracker _ spender).bind fun v => ?_
        match v with
        | none | some true => exact fun _ _ h => h.mono fun _ _ => trivial
        | some false =>
          intro s t h
          refine h.mono ?_
          rintro m ⟨-, seg, old, rfl, hseg, hold⟩
          obtain ⟨seg', old', rfl, hseg', hF⟩ := hread beef hold
          exact ⟨seg ++ seg', old', by simp, hseg.append hseg', hF⟩

theorem judgeStanding_at (stored : Option β) (sum : ReverifyPassSummary) :
    Triple (At g rec pre F) (judgeStanding g.bsv o rec spender stored sum) fun _ => At g rec pre fun _ => True := by
  unfold judgeStanding
  dsimp only
  split
  · exact fun _ _ h => h.mono fun _ _ => trivial
  · split
    · exact fun _ _ h => h.mono fun _ _ => trivial
    · refine (writeStore_at fun w op => not_demotes_reanchorConfirmed rec.txid rec.outputIndex spender _).bind fun hit => ?_
      match hit with
      | none | some true | some false => exact fun _ _ h => h.mono fun _ _ => trivial

theorem reanchorFirst_at :
    Triple (At g rec pre (Stale g rec pre spender hex)) (reanchorFirst g.bsv o g.courier g.mode spender) fun r =>
      match r with
      | .noCanonicalProof => At g rec pre fun m => Stale g rec pre spender hex m ∧
          (g.mode.reanchorFirst = true → g.courier.isSome = true → LadderSilent g.bsv spender m)
      | _ => At g rec pre fun _ => True := by
  unfold reanchorFirst
  split
  · rename_i c _ _
    refine (reanchorFromLadder_at c spender).post fun r s t h => ?_
    cases r with
    | noCanonicalProof =>
      refine h.mono ?_
      rintro m ⟨seg, old, rfl, ⟨hcalm, hladder⟩, hold⟩
      exact ⟨hold.adds hcalm, fun _ _ => hladder.older old⟩
    | _ => exact h
  · rename_i hno
    intro s t h
    refine h.mono fun m hm => ⟨hm, fun hmode hc => ?_⟩
    obtain ⟨c, hc⟩ := Option.isSome_iff_exists.mp hc
    exact (hno c hmode hc).elim

theorem judgeStale_at (tracker : Tracker) (sum : ReverifyPassSummary) (hrow : ∃ key, (key, rec) ∈ g.rows)
    (hsp : rec.spendingTxid = some spender) :
    Triple (At g rec pre (Stale g rec pre spender hex)) (judgeStale g.bsv o tracker g.courier g.mode rec spender hex sum) fun _ =>
      At g rec pre fun _ => True := by
  unfold judgeStale
  refine reanchorFirst_at.bind fun ladder => ?_
  cases ladder with
  | reanchored | budgetExhausted | fault => exact .pure _
  | noCanonicalProof =>
    dsimp only
    unfold recheckThenDemote
    refine ((recheckStoredBump_at tracker hex).bind fun r => ?_).bind fun s => .pure _
    cases r with
    | stands | fault | error => exact .pure _
    | stillRefuted =>
      refine demoteStale_at sum hrow hsp ?_
      rintro m ⟨seg, old, rfl, hseg, hstale, hladder⟩
      have hstale' := hstale.adds hseg.calm
      obtain ⟨beef, hread, hown⟩ := hstale'.own
      exact ⟨hstale'.calm, .stale hread hown hstale'.refuted fun hmode hc => (hladder hmode hc).reads hseg⟩

theorem judgeRow_at (tracker : Tracker) (sum : ReverifyPassSummary) (hrow : ∃ key, (key, rec) ∈ g.rows) :
    Triple (At g rec pre (· = [])) (judgeRow g.bsv o tracker g.courier g.mode rec sum) fun _ => At g rec pre fun _ => True := by
  unfold judgeRow
  cases hsp : rec.spendingTxid with
  | none => exact fun _ _ h => h.mono fun _ _ => trivial
  | some spender =>
    dsimp only
    refine (getBeef_at spender).bind fun got => ?_
    cases got with
    | none => exact fun _ _ h => h.mono fun _ _ => trivial
    | some stored =>
      dsimp only
      have hread {m : List (Event β)} (h : ∃ m', m = .read spender stored :: m' ∧ m' = []) : m = [.read spender stored] := by
        obtain ⟨m', rfl, rfl⟩ := h
        rfl
      cases hown : stored.bind fun bytes => g.bsv.storedBumpHex bytes spender with
      | none => exact (judgeProofless_at hrow hsp hown sum).pre fun _ _ h => h.mono fun _ => hread
      | some hex =>
        dsimp only
        refine (verifyBumpMemoized_at tracker hex spender).bind fun v => ?_
        match v with
        | none => exact .pure _
        | some true => exact (judgeStanding_at stored sum).bind fun s => .pure _
        | some false =>
          refine (judgeStale_at tracker sum hrow hsp).pre fun _ _ h => h.mono ?_
          rintro m ⟨hrefuted, seg, old, rfl, hseg, hold⟩
          rw [hread hold] at hrefuted ⊢
          obtain ⟨beef, rfl, hbeef⟩ := Option.bind_eq_some_iff.mp hown
          exact ⟨hseg.calm.append (by simp [Calm, Event.marks, Event.faults]), hrefuted, beef, by simp, hbeef⟩

/-! ## The pass -/

theorem judgeRows_between (tracker : Tracker) (rest : List (ReorgLegs.RowKey × PotRecord)) (last : Option ReorgLegs.RowKey)
    (sum : ReverifyPassSummary) (hrest : ∀ r ∈ rest, r ∈ g.rows) :
    Triple (Between g) (judgeRows g.bsv o tracker g.courier g.mode last rest sum) fun _ => Between g := by
  induction rest generalizing last sum with
  | nil => exact .pure _
  | cons r rest ih =>
    obtain ⟨key, rec⟩ := r
    rw [judgeRows]
    have hturn : Triple (Between g) (emit (.judging rec)) fun _ s t => ∃ pre, At g rec pre (· = []) s t := by
      refine Triple.emit.post fun _ s t ⟨pre, ht, h⟩ => ⟨pre, ?_⟩
      subst ht
      exact ⟨⟨From.cons h.memo _, h.sound.cons fun _ _ _ heq => by cases heq⟩, [], rfl, by simp, rfl⟩
    refine hturn.bind fun _ => Triple.ex fun pre => (judgeRow_at tracker sum ⟨key, hrest _ (List.mem_cons_self ..)⟩).bind fun judged => ?_
    cases judged with
    | next sum => exact (ih (some key) sum fun x hx => hrest x (List.mem_cons_of_mem _ hx)).pre fun _ _ h => h.toBetween
    | stop sum => exact fun _ _ h => h.toBetween

end

/-- A pass un-confirms a row only through the guard, in the judgement of that row and on its evidence. -/
theorem demotes_on_evidence {β μ : Type} (g : Given β μ) (o : Outside β) (after : Option ReorgLegs.RowKey) (limit : Nat) (s : St β)
    (hmemo : s.memo.From g.headers ([] : List (Event β))) {later earlier : List (Event β)} {w w' : World β} {op : String × Nat}
    (htrace : (g.reverify o after limit (s, [])).2.2 = later ++ .wrote w w' :: earlier) (hdemotes : Demotes w w' op) :
    g.tracker.isSome = true ∧ Warranted g (Refuted g) w op earlier := by
  have hstart : Between g s [] := ⟨hmemo, fun later _ _ _ _ h => by simp at h⟩
  unfold Given.reverify at htrace
  cases htracker : g.tracker with
  | none =>
    rw [htracker] at htrace
    have hnone : [] = later ++ .wrote w w' :: earlier := htrace
    simp at hnone
  | some tracker =>
    refine ⟨rfl, ?_⟩
    cases hpage : g.page with
    | none =>
      rw [htracker, hpage] at htrace
      have hnone : [] = later ++ .wrote w w' :: earlier := htrace
      simp at hnone
    | some rows =>
      rw [htracker, hpage] at htrace
      have hrun := judgeRows_between (g := g) (o := o) tracker rows after
        { scanned := rows.length, exhausted := decide (rows.length < limit), nextCursor := (rows.getLast?.map Prod.fst).or after }
        (fun r hr => by rw [Given.rows, hpage]; exact hr) s [] hstart
      exact hrun.sound later w w' earlier op htrace hdemotes

def plainBsv : Bsv String String where
  ownBump beef _ := some beef
  toHex path := path
  proofFromHex hex := some hex
  blockHeight _ := 100
  computeRoot path txid := if path = "path of " ++ txid then some "aa" else none
  hasProof _ _ := true
  stitchAndTrim _ _ _ := none

def confirmedRow : PotRecord where
  txid := "pot"
  outputIndex := 0
  spendingTxid := some "settle"
  spentConfirmed := true
  spentHeight := some 100

def potWorld (row : PotRecord) (bump : String) (verified : Bool) : World String where
  records := [row]
  beefs := [{ txid := "settle", beef := some bump, proofVerified := verified }]

def seenRow : PotRecord := { confirmedRow with spentConfirmed := false, spentHeight := none }

/-- The header source answers `v` for every root; it had said nothing before. -/
def confirmedGiven (v : Bool) (courier : Option Courier) (mode : ReverifyMode) : Given String String where
  bsv := plainBsv
  tracker := some fun _ _ _ => some v
  headers := { answered := fun _ _ _ => False, served := fun _ _ => False }
  courier := courier
  mode := mode
  page := some [(⟨100, 1⟩, confirmedRow)]

def silentCourier : Courier where
  budgetRemaining _ := some 3
  verifiedProof _ _ _ := some none

theorem from_empty (H : Headers) : RootMemo.From H ([] : List (Event String)) {} where
  verdict := fun _ _ h => by cases h
  root := fun _ _ h => by cases h

theorem demotes_seenRow (bump : String) : Demotes (potWorld confirmedRow bump true) (potWorld seenRow bump true) ("pot", 0) :=
  ⟨⟨confirmedRow, by simp [potWorld], rfl, rfl⟩, by simp [potWorld, seenRow]⟩

theorem demotes_on_evidence_refuted : ∃ later earlier,
    ((confirmedGiven false (some silentCourier) { reanchorFirst := true }).reverify {} none 10
        ({ world := potWorld confirmedRow "path of settle" true }, [])).2.2 =
      later ++ .wrote (potWorld confirmedRow "path of settle" true) (potWorld seenRow "path of settle" true) :: earlier ∧
    Warranted (confirmedGiven false (some silentCourier) { reanchorFirst := true })
      (Refuted (confirmedGiven false (some silentCourier) { reanchorFirst := true })) (potWorld confirmedRow "path of settle" true) ("pot", 0) earlier := by
  have htrace : ((confirmedGiven false (some silentCourier) { reanchorFirst := true }).reverify {} none 10
        ({ world := potWorld confirmedRow "path of settle" true }, [])).2.2 =
      [.wrote (potWorld seenRow "path of settle" true) (potWorld seenRow "path of settle" false)] ++
        .wrote (potWorld confirmedRow "path of settle" true) (potWorld seenRow "path of settle" true) ::
        [.read "settle" (some "path of settle"), .asked true "settle" (some 3) none, .answered 100 "aa" false,
          .read "settle" (some "path of settle"), .judging confirmedRow] := by decide
  exact ⟨_, _, htrace, (demotes_on_evidence _ {} none 10 _ (from_empty _) htrace (demotes_seenRow _)).2⟩

/-- The stored bump names another transaction's path: it computes no root for the spender, and the header source, which would hold any,
is not asked. -/
theorem rootless_bump_demotes : ¬∀ (g : Given String String) (o : Outside String) (after : Option ReorgLegs.RowKey) (limit : Nat) (s : St String)
    (later earlier : List (Event String)) (w w' : World String) (op : String × Nat), s.memo.From g.headers ([] : List (Event String)) →
    (g.reverify o after limit (s, [])).2.2 = later ++ .wrote w w' :: earlier → Demotes w w' op →
    g.tracker.isSome = true ∧ Warranted g (HeaderRefutes g.bsv g.headers) w op earlier := by
  intro h
  have htrace : ((confirmedGiven true none {}).reverify {} none 10 ({ world := potWorld confirmedRow "path of other" true }, [])).2.2 =
      [.wrote (potWorld seenRow "path of other" true) (potWorld seenRow "path of other" false)] ++
        .wrote (potWorld confirmedRow "path of other" true) (potWorld seenRow "path of other" true) ::
        [.read "settle" (some "path of other"), .read "settle" (some "path of other"), .judging confirmedRow] := by decide
  obtain ⟨-, key, rec, mine, pre, spender, -, -, -, ht, -, -, hev⟩ :=
    h _ _ _ _ _ _ _ _ _ _ (from_empty _) htrace (demotes_seenRow _)
  have hmine {e : Event String} (he : e ∈ mine) : e = .read "settle" (some "path of other") ∨ e = .judging confirmedRow := by
    have hin := List.mem_append_left (.judging rec :: pre) he
    rw [← ht] at hin
    simpa using hin
  cases hev with
  | stale hread hown hagainst _ =>
    rcases hmine hread with heq | heq
    · cases heq
      cases hown
      obtain ⟨path, root, hpath, hroot, -⟩ := hagainst
      cases hpath
      simp [confirmedGiven, plainBsv] at hroot
    · cases heq
  | blind hmode _ => cases hmode
  | elsewhere _ hasked _ _ _ =>
    rcases hmine hasked with heq | heq <;> cases heq

end OverlayEngine.Reverify
