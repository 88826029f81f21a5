import OverlayEngine.Basis.Entrywise
import OverlayEngine.Worker.ProofReplay

/-!
# One transcript, one showdown

Every bundle accepted over one transcript proves a seat the same five cards:
each card is fixed by the deck, the seat's final position and the two scalars
that open the commitments there. No bundle takes an index past a list's end.
-/

namespace OverlayEngine.ProofReplay

open Entrywise

/-! ## Answers -/

namespace Answer

variable {α β : Type}

@[simp] theorem bind_found {x : Answer α} {f : α → Answer β} {b : β} : (x >>= f) = found b ↔ ∃ a, x = found a ∧ f a = found b := by
  cases x with
  | found a => exact ⟨fun h => ⟨a, rfl, h⟩, fun ⟨a', ha, h⟩ => Answer.found.inj ha ▸ h⟩
  | refused => exact ⟨fun h => (by cases h), fun ⟨_, ha, _⟩ => (by cases ha)⟩
  | outOfRange => exact ⟨fun h => (by cases h), fun ⟨_, ha, _⟩ => (by cases ha)⟩

@[simp] theorem pure_found {a b : α} : (pure a : Answer α) = found b ↔ a = b :=
  ⟨Answer.found.inj, fun h => congrArg found h⟩

@[simp] theorem of_found {o : Option α} {a : α} : of o = found a ↔ o = some a := by
  cases o with
  | none => exact ⟨fun h => (by cases h), fun h => (by cases h)⟩
  | some b => exact ⟨fun h => congrArg some (Answer.found.inj h), fun h => congrArg found (Option.some.inj h)⟩

@[simp] theorem require_found {b : Bool} {u : Unit} : require b = found u ↔ b = true := by
  cases b with
  | false => exact ⟨fun h => (by cases h), fun h => (by cases h)⟩
  | true => exact ⟨fun _ => rfl, fun _ => rfl⟩

variable {l : List α}

@[simp] theorem index_found {i : Nat} {a : α} : index l i = found a ↔ l[i]? = some a := by
  unfold index
  cases l[i]? with
  | none => exact ⟨fun h => (by cases h), fun h => (by cases h)⟩
  | some b => exact ⟨fun h => congrArg some (Answer.found.inj h), fun h => congrArg found (Option.some.inj h)⟩

def InRange (x : Answer α) : Prop := x ≠ outOfRange

theorem InRange.bind {x : Answer α} {f : α → Answer β} (hx : x.InRange) (hf : ∀ a, x = found a → (f a).InRange) : (x >>= f).InRange := by
  cases x with
  | found a => exact hf a rfl
  | refused => exact fun h => by cases h
  | outOfRange => exact absurd rfl hx

theorem inRange_pure (a : α) : (pure a : Answer α).InRange := fun h => by cases h

theorem inRange_of (o : Option α) : (of o).InRange := by
  cases o with
  | none => exact fun h => by cases h
  | some a => exact fun h => by cases h

theorem inRange_require (b : Bool) : (require b).InRange := by
  cases b with
  | false => exact fun h => by cases h
  | true => exact fun h => by cases h

theorem inRange_index {i : Nat} (h : i < l.length) : (index l i).InRange := by
  unfold index
  rw [List.getElem?_eq_getElem h]
  exact fun h => by cases h

theorem inRange_slice {start stop : Nat} (h : start ≤ stop ∧ stop ≤ l.length) : (slice l start stop).InRange := by
  unfold slice
  rw [if_pos h]
  exact fun h => by cases h

end Answer

open Answer

/-! ## Lists read whole -/

variable {i p n : Nat}

theorem sized_some {α : Type} {l k : List α} : sized n l = some k ↔ l = k ∧ l.length = n := by
  unfold sized
  by_cases h : l.length = n
  · rw [if_pos h]
    exact ⟨fun he => ⟨Option.some.inj he, h⟩, fun he => congrArg some he.1⟩
  · rw [if_neg h]
    exact ⟨fun he => (by cases he), fun he => absurd he.2 h⟩

variable {gameId b body winner : Bytes}

theorem h33_length {s : List Char} (h : h33 s = some b) : b.length = 33 := by
  unfold h33 at h
  split at h
  · cases h
  · obtain ⟨raw, -, hsized⟩ := Option.bind_eq_some_iff.mp h
    obtain ⟨rfl, hlen⟩ := sized_some.mp hsized
    exact hlen

theorem seatKey_length {v : Value} (h : seatKey v = some b) : b.length = 33 := by
  unfold seatKey at h
  obtain ⟨s, -, h⟩ := Option.bind_eq_some_iff.mp h
  split at h
  · cases h
  · split at h
    · cases h
    · exact h33_length h

variable {w : Wire}

theorem parseHex32Array_length {l : List Bytes} (h : parseHex32Array w body (some n) none = some l) : l.length = n := by
  unfold parseHex32Array at h
  obtain ⟨v, -, h⟩ := Option.bind_eq_some_iff.mp h
  obtain ⟨raw, -, h⟩ := Option.bind_eq_some_iff.mp h
  by_cases hn : raw.length = n
  · rw [if_neg (by simp [hn]), if_neg (by simp)] at h
    rw [← (mapM_some_iff.mp h).length_eq, hn]
  · rw [if_pos (by simpa using hn)] at h
    cases h

theorem parseReveal_length {r : RevealView} (h : parseReveal w body = some r) : r.hand.length = 5 ∧ r.scalars.length = 5 := by
  unfold parseReveal at h
  obtain ⟨v, -, h⟩ := Option.bind_eq_some_iff.mp h
  obtain ⟨nonce, -, h⟩ := Option.bind_eq_some_iff.mp h
  obtain ⟨text, -, h⟩ := Option.bind_eq_some_iff.mp h
  obtain ⟨hand, -, h⟩ := Option.bind_eq_some_iff.mp h
  obtain ⟨raw, -, h⟩ := Option.bind_eq_some_iff.mp h
  obtain ⟨scalars, -, h⟩ := Option.bind_eq_some_iff.mp h
  obtain ⟨hand5, hhand, h⟩ := Option.bind_eq_some_iff.mp h
  obtain ⟨scalars5, hscalars, h⟩ := Option.bind_eq_some_iff.mp h
  obtain ⟨rfl, hh⟩ := sized_some.mp hhand
  obtain ⟨rfl, hs⟩ := sized_some.mp hscalars
  rw [← Option.some.inj h]
  exact ⟨hh, hs⟩

def ReleasedKeys.Five (keys : ReleasedKeys) : Prop := ∀ l, keys.deal = some l → l.length = 5

variable {gameId seat : Bytes} {keys keys' : ReleasedKeys}

theorem releaseStep_five {wire : Value} (h : keys.Five)
    (hstep : releaseStep w gameId seat keys wire = some keys') : keys'.Five := by
  unfold releaseStep at hstep
  obtain ⟨kv, -, hstep⟩ := Option.bind_eq_some_iff.mp hstep
  split at hstep
  · split at hstep
    · cases hstep
    · obtain ⟨scalars, hscalars, hstep⟩ := Option.bind_eq_some_iff.mp hstep
      rw [← Option.some.inj hstep]
      intro l hl
      rw [← Option.some.inj hl]
      exact parseHex32Array_length hscalars
  · split at hstep
    · cases hstep
    · obtain ⟨scalars, -, hstep⟩ := Option.bind_eq_some_iff.mp hstep
      rw [← Option.some.inj hstep]
      exact h

theorem release_five {wires : List Value} (h : keys.Five)
    (hrun : wires.foldlM (releaseStep w gameId seat) keys = some keys') : keys'.Five := by
  induction wires generalizing keys with
  | nil =>
    rw [← Option.some.inj hrun]
    exact h
  | cons wire rest ih =>
    rw [List.foldlM_cons] at hrun
    obtain ⟨mid, hstep, hrun⟩ := Option.bind_eq_some_iff.mp hrun
    exact ih (releaseStep_five h hstep) hrun

theorem parseReleasedKeys_length {wires : Option Value} {released : List Bytes × Option (List Bytes)}
    (h : parseReleasedKeys w wires gameId seat = some released) : released.1.length = 5 := by
  unfold parseReleasedKeys at h
  obtain ⟨v, -, h⟩ := Option.bind_eq_some_iff.mp h
  obtain ⟨l, -, h⟩ := Option.bind_eq_some_iff.mp h
  split at h
  · cases h
  · obtain ⟨keys, hkeys, h⟩ := Option.bind_eq_some_iff.mp h
    obtain ⟨deal, hdeal, h⟩ := Option.bind_eq_some_iff.mp h
    rw [← Option.some.inj h]
    exact release_five (fun l hl => by cases hl) hkeys deal hdeal

/-! ## A card opened -/

def Opened (w : Wire) (t : Transcript) (p : Nat) (card : UInt8) : Prop :=
  ∃ commitA commitB point sA sB, t.commits.1[p]? = some commitA ∧ t.commits.2[p]? = some commitB ∧ t.d4[p]? = some point ∧
    w.verifyScalarCommitment commitA t.gameId .a p sA = true ∧ w.verifyScalarCommitment commitB t.gameId .b p sB = true ∧
    w.unmask point sA sB = some card

structure Laws (w : Wire) : Prop where
  /-- A commitment binds its scalar. -/
  binds : ∀ {commit gameId seat p s s'}, w.verifyScalarCommitment commit gameId seat p s = true →
    w.verifyScalarCommitment commit gameId seat p s' = true → s = s'
  /-- The exchange gives five slots a seat. -/
  exchange : ∀ {m n positions}, w.exchangePositions m n = some positions → positions.1.Nodup ∧ positions.2.Nodup ∧
    positions.1.Disjoint positions.2 ∧ ∀ seat : Seat, (seat.of positions).length = 5 ∧
      ∀ i p, (seat.of positions)[i]? = some p → p = seat.index + 2 * i ∨ 10 ≤ p
  /-- An accepted deck has 52 points. -/
  deck : ∀ {d}, w.validateDeck d = true → d.length = 52

variable {t : Transcript}

theorem opened_unique (hw : Laws w) {card card' : UInt8} (h : Opened w t p card) (h' : Opened w t p card') :
    card = card' := by
  obtain ⟨cA, cB, pt, sA, sB, hcA, hcB, hpt, hA, hB, hcard⟩ := h
  obtain ⟨cA', cB', pt', sA', sB', hcA', hcB', hpt', hA', hB', hcard'⟩ := h'
  obtain rfl := Option.some.inj (hcA.symm.trans hcA')
  obtain rfl := Option.some.inj (hcB.symm.trans hcB')
  obtain rfl := Option.some.inj (hpt.symm.trans hpt')
  obtain rfl := hw.binds hA hA'
  obtain rfl := hw.binds hB hB'
  exact Option.some.inj (hcard.symm.trans hcard')

variable {positions ownDraw : List Nat} {draw : Option (List Bytes)}

theorem slotOrdinal_opened {ownSeat : Seat} {reveal : RevealView} {deal : List Bytes}
    {card : UInt8} (h : slotOrdinal w t ownSeat reveal deal draw ownDraw i p = found card) :
    Opened w t p card := by
  unfold slotOrdinal at h
  simp only [bind_found, of_found, require_found, index_found, pure_found] at h
  obtain ⟨-, -, sOwn, -, sPeer, -, ownCommit, hown, -, hownOpen, peerCommit, hpeer, -, hpeerOpen, point, hpoint, ordinal, hunmask, claimed, -, -,
    -, rfl⟩ := h
  cases ownSeat with
  | a => exact ⟨ownCommit, peerCommit, point, sOwn, sPeer, hown, hpeer, hpoint, hownOpen, hpeerOpen, hunmask⟩
  | b => exact ⟨peerCommit, ownCommit, point, sPeer, sOwn, hpeer, hown, hpoint, hpeerOpen, hownOpen, hunmask⟩

variable {ordinals cards : List UInt8} {slot : Nat → Nat → Answer UInt8}

theorem ordinalsFrom_all {R : Nat → UInt8 → Prop} (hslot : ∀ i p card, slot i p = found card → R p card)
    (h : ordinalsFrom slot i positions = found ordinals) :
    List.Forall₂ R positions ordinals := by
  induction positions generalizing i ordinals with
  | nil =>
    rw [← pure_found.mp h]
    exact .nil
  | cons p rest ih =>
    unfold ordinalsFrom at h
    simp only [bind_found, pure_found] at h
    obtain ⟨card, hcard, tail, htail, rfl⟩ := h
    exact .cons (hslot i p card hcard) (ih htail)

theorem deriveSeatHand_opened {ownSeat : Seat} {revealWire keysWire : Option Value}
    {hand : List UInt8 × List Bytes} (h : deriveSeatHand w t ownSeat revealWire keysWire positions = found hand) :
    List.Forall₂ (Opened w t) positions hand.1 ∧ hand.2.length = 5 := by
  unfold deriveSeatHand at h
  simp only [bind_found, of_found, require_found, pure_found] at h
  obtain ⟨env, -, reveal, -, released, hreleased, -, -, ordinals, hordinals, -, -, rfl⟩ := h
  have hall : List.Forall₂ (Opened w t) positions ordinals := ordinalsFrom_all (R := Opened w t) (fun i p card hslot => slotOrdinal_opened hslot) hordinals
  exact ⟨hall, parseReleasedKeys_length hreleased⟩

/-! ## In range -/

theorem findIdx_lt {l : List Nat} {k : Nat} (h : l.findIdx? (· == p) = some k) : k < l.length :=
  (List.findIdx?_eq_some_iff_getElem.mp h).1

structure Transcript.Whole (t : Transcript) : Prop where
  commits : ∀ s : Seat, (s.of t.commits).length = 52
  d4 : t.d4.length = 52
  seats : ∀ s : Seat, (s.of t.seats).length = 33

section
variable {t : Transcript} (ht : t.Whole)
include ht

theorem slotOrdinal_inRange (ownSeat : Seat) {reveal : RevealView} (hreveal : reveal.hand.length = 5 ∧ reveal.scalars.length = 5)
    {deal : List Bytes} (hdeal : deal.length = 5)
    (hdraw : ownDraw = [] ∨ ∃ d, draw = some d ∧ d.length = ownDraw.length) (hi : i < 5) (p : Nat) :
    (slotOrdinal w t ownSeat reveal deal draw ownDraw i p).InRange := by
  unfold slotOrdinal
  refine (inRange_require _).bind fun _ hp => ?_
  have hp : p < 52 := by simpa [ht.d4] using require_found.mp hp
  refine (inRange_index (by omega)).bind fun sOwn _ => ?_
  refine InRange.bind ?_ fun sPeer _ => ?_
  · unfold peerScalar
    split
    · refine (inRange_of _).bind fun k hk => inRange_index ?_
      rw [hdeal]
      exact findIdx_lt (of_found.mp hk)
    · refine (inRange_of _).bind fun k hk => (inRange_of _).bind fun d hd => inRange_index ?_
      have hlt := findIdx_lt (of_found.mp hk)
      rcases hdraw with rfl | ⟨d', hd', hlen⟩
      · exact absurd hlt (Nat.not_lt_zero k)
      · rw [of_found, hd'] at hd
        rwa [← Option.some.inj hd, hlen]
  · refine (inRange_index (by rw [ht.commits]; exact hp)).bind fun _ _ => (inRange_require _).bind fun _ _ => ?_
    refine (inRange_index (by rw [ht.commits]; exact hp)).bind fun _ _ => (inRange_require _).bind fun _ _ => ?_
    refine (inRange_index (by rw [ht.d4]; exact hp)).bind fun _ _ => (inRange_of _).bind fun _ _ => ?_
    exact (inRange_index (by omega)).bind fun _ _ => (inRange_require _).bind fun _ _ => inRange_pure _

omit ht in
theorem ordinalsFrom_inRange (hslot : ∀ i, i < 5 → ∀ p, (slot i p).InRange)
    (hi : i + positions.length ≤ 5) : (ordinalsFrom slot i positions).InRange := by
  induction positions generalizing i with
  | nil => exact inRange_pure _
  | cons p rest ih =>
    rw [List.length_cons] at hi
    exact (hslot i (by omega) p).bind fun _ _ => (ih (by omega)).bind fun _ _ => inRange_pure _

theorem deriveSeatHand_inRange (ownSeat : Seat) (revealWire keysWire : Option Value) (hpos : positions.length = 5) :
    (deriveSeatHand w t ownSeat revealWire keysWire positions).InRange := by
  unfold deriveSeatHand
  refine (inRange_of _).bind fun env _ => (inRange_of _).bind fun reveal hreveal => (inRange_of _).bind fun released hreleased => ?_
  refine (inRange_require _).bind fun _ hdraw => InRange.bind ?_ fun _ _ => (inRange_require _).bind fun _ _ => inRange_pure _
  have hdraw := require_found.mp hdraw
  refine ordinalsFrom_inRange (fun i hi p => ?_) (by omega)
  refine slotOrdinal_inRange ht ownSeat (parseReveal_length (of_found.mp hreveal)) (parseReleasedKeys_length (of_found.mp hreleased)) ?_ hi p
  rcases Bool.or_eq_true_iff.mp hdraw with hempty | hsome
  · exact .inl (List.isEmpty_iff.mp hempty)
  · obtain ⟨d, hd, hlen⟩ := (Option.any_eq_true _ _).mp hsome
    exact .inr ⟨d, hd, beq_iff_eq.mp hlen⟩

theorem checkDiscards_inRange (winner : Seat) (positions : List Nat) {loserDeal : List Bytes} (hdeal : loserDeal.length = 5)
    (entries : List (String × Value)) : (checkDiscards w t winner positions loserDeal entries).InRange := by
  induction entries with
  | nil => exact inRange_pure _
  | cons entry rest ih =>
    refine InRange.bind ?_ fun _ _ => ih
    unfold checkDiscard
    split
    · exact inRange_pure _
    · split
      · exact inRange_pure _
      · refine (inRange_of _).bind fun _ _ => (inRange_of _).bind fun _ _ => (inRange_require _).bind fun _ hp => ?_
        have hp : _ < 52 := ht.d4 ▸ of_decide_eq_true (require_found.mp hp)
        refine (inRange_of _).bind fun k hk => (inRange_index ?_).bind fun _ _ => ?_
        · rw [hdeal]
          exact findIdx_lt (of_found.mp hk)
        · refine (inRange_index (by rw [ht.commits]; exact hp)).bind fun _ _ => (inRange_require _).bind fun _ _ => ?_
          refine (inRange_index (by rw [ht.commits]; exact hp)).bind fun _ _ => (inRange_require _).bind fun _ _ => ?_
          exact (inRange_index (by rw [ht.d4]; exact hp)).bind fun _ _ => (inRange_of _).bind fun _ _ => inRange_require _

theorem loserHand_inRange (loser : Seat) (env : Value) (hpos : positions.length = 5) (derived : List UInt8) :
    (loserHand w t loser env positions derived).InRange := by
  unfold loserHand
  split
  · exact (deriveSeatHand_inRange ht loser _ _ hpos).bind fun _ _ => (inRange_of _).bind fun _ _ => (inRange_require _).bind fun _ _ =>
      inRange_pure _
  · exact inRange_pure _

end

theorem readMask_inRange (env : Value) (gameId : Bytes) {seat : Bytes} (hseat : seat.length = 33) (commitKey revealKey : String) :
    (readMask w env gameId seat commitKey revealKey).InRange := by
  unfold readMask
  refine (inRange_of _).bind fun _ _ => (inRange_of _).bind fun _ _ => (inRange_of _).bind fun _ _ => (inRange_require _).bind fun _ hbody => ?_
  have hbody := beq_iff_eq.mp (require_found.mp hbody)
  refine (inRange_index (by omega)).bind fun _ _ => (inRange_slice (by omega)).bind fun _ _ => (inRange_of _).bind fun _ _ => ?_
  exact (inRange_slice (by omega)).bind fun _ _ => (inRange_of _).bind fun _ _ => (inRange_require _).bind fun _ _ => inRange_pure _

variable {seats : Bytes × Bytes}

theorem finalPositions_inRange (env : Value) (gameId : Bytes) (hseats : ∀ s : Seat, (s.of seats).length = 33) :
    (finalPositions w env gameId seats).InRange := by
  unfold finalPositions
  refine (inRange_require _).bind fun _ _ => ?_
  split
  · exact (readMask_inRange env gameId (hseats .a) _ _).bind fun _ _ => (readMask_inRange env gameId (hseats .b) _ _).bind fun _ _ => inRange_of _
  · exact inRange_pure _

variable {env : Value}

theorem finalPositions_five (hw : Laws w) {positions : List Nat × List Nat}
    (h : finalPositions w env gameId seats = found positions) (s : Seat) : (s.of positions).length = 5 := by
  unfold finalPositions at h
  obtain ⟨_, _, h⟩ := bind_found.mp h
  split at h
  · simp only [bind_found, of_found] at h
    obtain ⟨_, _, _, _, h⟩ := h
    exact ((hw.exchange h).2.2.2 s).1
  · rw [← pure_found.mp h]
    cases s <;> rfl

variable {env env' b : Value}

theorem readHead_some {head : Head} (h : readHead b gameId winner = some head) :
    b.get "envelopes" = some head.env ∧ ∀ s : Seat, (s.of head.seats).length = 33 := by
  unfold readHead at h
  obtain ⟨v, -, h⟩ := Option.bind_eq_some_iff.mp h
  split at h
  · cases h
  obtain ⟨text, -, h⟩ := Option.bind_eq_some_iff.mp h
  obtain ⟨game, -, h⟩ := Option.bind_eq_some_iff.mp h
  split at h
  · cases h
  obtain ⟨key, -, h⟩ := Option.bind_eq_some_iff.mp h
  split at h
  · cases h
  obtain ⟨seat, -, h⟩ := Option.bind_eq_some_iff.mp h
  obtain ⟨raw, -, h⟩ := Option.bind_eq_some_iff.mp h
  obtain ⟨pair, -, h⟩ := Option.bind_eq_some_iff.mp h
  obtain ⟨seatA, hA, h⟩ := Option.bind_eq_some_iff.mp h
  obtain ⟨seatB, hB, h⟩ := Option.bind_eq_some_iff.mp h
  split at h
  · cases h
  obtain ⟨cards, -, h⟩ := Option.bind_eq_some_iff.mp h
  obtain ⟨env, henv, h⟩ := Option.bind_eq_some_iff.mp h
  obtain ⟨-, -, h⟩ := Option.bind_eq_some_iff.mp h
  rw [← Option.some.inj h]
  exact ⟨henv, fun s => by cases s; exacts [seatKey_length hA, seatKey_length hB]⟩

theorem readTranscript_whole (hw : Laws w)
    (hseats : ∀ s : Seat, (s.of seats).length = 33) (h : readTranscript w gameId seats env = some t) : t.Whole := by
  unfold readTranscript at h
  obtain ⟨commitA, -, h⟩ := Option.bind_eq_some_iff.mp h
  obtain ⟨commitB, -, h⟩ := Option.bind_eq_some_iff.mp h
  obtain ⟨scalarsA, hA, h⟩ := Option.bind_eq_some_iff.mp h
  obtain ⟨scalarsB, hB, h⟩ := Option.bind_eq_some_iff.mp h
  obtain ⟨remask, -, h⟩ := Option.bind_eq_some_iff.mp h
  obtain ⟨deck, -, h⟩ := Option.bind_eq_some_iff.mp h
  obtain ⟨points, -, h⟩ := Option.bind_eq_some_iff.mp h
  obtain ⟨d4, -, h⟩ := Option.bind_eq_some_iff.mp h
  split at h
  · cases h
  · rename_i hdeck
    rw [← Option.some.inj h]
    exact ⟨fun s => by cases s; exacts [parseHex32Array_length hA, parseHex32Array_length hB], hw.deck (by simpa using hdeck), hseats⟩

theorem replay_inRange (hw : Laws w) (b : Value) (gameId winner : Bytes) : (replay w b gameId winner).InRange := by
  unfold replay
  refine (inRange_of _).bind fun head hhead => (inRange_of _).bind fun t ht => ?_
  have hseats := (readHead_some (of_found.mp hhead)).2
  have hwhole := readTranscript_whole hw hseats (of_found.mp ht)
  refine (finalPositions_inRange head.env gameId hseats).bind fun positions hpositions => ?_
  have hfive := finalPositions_five hw hpositions
  refine (deriveSeatHand_inRange hwhole _ _ _ (hfive _)).bind fun hand hhand => (inRange_of _).bind fun derived _ => ?_
  refine (inRange_require _).bind fun _ _ => InRange.bind ?_ fun entries _ => ?_
  · unfold discardEntries
    split
    · exact inRange_of _
    · exact inRange_pure _
  · refine (checkDiscards_inRange hwhole _ _ (deriveSeatHand_opened hhand).2 entries).bind fun _ _ => ?_
    exact (loserHand_inRange hwhole _ _ (hfive _) derived).bind fun _ _ => inRange_pure _

/-! ## One showdown -/

def ProvedHands.handOf (h : ProvedHands) (seat : Seat) : Option (List UInt8) :=
  if seat = h.winnerSeat then some h.winnerCards else h.loserCards

def envelopes (b : Value) : Value := (b.get "envelopes").getD .null

def bodyAt (w : Wire) (env : Value) (key : String) : Option Bytes := (wireEnvelope w (env.get key)).map fun e => e.fields.body

theorem verifiedEnvelope_body {key : String} {kinds : List String} {f : Fields}
    (h : verifiedEnvelope w (env.get key) gameId seat kinds = some f) : bodyAt w env key = some f.body := by
  unfold verifiedEnvelope at h
  obtain ⟨e, he, h⟩ := Option.bind_eq_some_iff.mp h
  rw [bodyAt, he]
  split at h
  · cases h
  split at h
  · cases h
  split at h
  · cases h
  split at h
  · cases h
  rw [← Option.some.inj h]
  rfl

structure SameTranscript (w : Wire) (env env' : Value) : Prop where
  commitA : bodyAt w env "scalarCommitA" = bodyAt w env' "scalarCommitA"
  commitB : bodyAt w env "scalarCommitB" = bodyAt w env' "scalarCommitB"
  remask : bodyAt w env "finalRemask" = bodyAt w env' "finalRemask"
  masks : ∀ key ∈ maskKeys, env.get key = env'.get key ∨ env.carries key = false ∧ env'.carries key = false

theorem readTranscript_same (hsame : SameTranscript w env env')
    {t t' : Transcript} (h : readTranscript w gameId seats env = some t) (h' : readTranscript w gameId seats env' = some t') : t = t' := by
  unfold readTranscript at h h'
  obtain ⟨commitA, hcA, h⟩ := Option.bind_eq_some_iff.mp h
  obtain ⟨commitB, hcB, h⟩ := Option.bind_eq_some_iff.mp h
  obtain ⟨scalarsA, hA, h⟩ := Option.bind_eq_some_iff.mp h
  obtain ⟨scalarsB, hB, h⟩ := Option.bind_eq_some_iff.mp h
  obtain ⟨remask, hremask, h⟩ := Option.bind_eq_some_iff.mp h
  obtain ⟨commitA', hcA', h'⟩ := Option.bind_eq_some_iff.mp h'
  obtain ⟨commitB', hcB', h'⟩ := Option.bind_eq_some_iff.mp h'
  obtain ⟨scalarsA', hA', h'⟩ := Option.bind_eq_some_iff.mp h'
  obtain ⟨scalarsB', hB', h'⟩ := Option.bind_eq_some_iff.mp h'
  obtain ⟨remask', hremask', h'⟩ := Option.bind_eq_some_iff.mp h'
  have hbodyA : commitA.body = commitA'.body :=
    Option.some.inj ((verifiedEnvelope_body hcA).symm.trans (hsame.commitA.trans (verifiedEnvelope_body hcA')))
  have hbodyB : commitB.body = commitB'.body :=
    Option.some.inj ((verifiedEnvelope_body hcB).symm.trans (hsame.commitB.trans (verifiedEnvelope_body hcB')))
  have hbody : remask.body = remask'.body :=
    Option.some.inj ((verifiedEnvelope_body hremask).symm.trans (hsame.remask.trans (verifiedEnvelope_body hremask')))
  rw [hbodyA] at hA
  rw [hbodyB] at hB
  rw [hbody] at h
  obtain rfl := Option.some.inj (hA.symm.trans hA')
  obtain rfl := Option.some.inj (hB.symm.trans hB')
  exact Option.some.inj (h.symm.trans h')

theorem carries_same (hsame : SameTranscript w env env') {key : String} (hkey : key ∈ maskKeys) :
    env.carries key = env'.carries key := by
  rcases hsame.masks key hkey with h | ⟨h, h'⟩
  · rw [Value.carries, Value.carries, h]
  · rw [h, h']

theorem finalPositions_same (hsame : SameTranscript w env env') (gameId : Bytes) (seats : Bytes × Bytes) :
    finalPositions w env gameId seats = finalPositions w env' gameId seats := by
  have hfilter : maskKeys.filter env.carries = maskKeys.filter env'.carries := List.filter_congr fun key hkey => carries_same hsame hkey
  unfold finalPositions
  rw [hfilter]
  by_cases hall : (maskKeys.filter env'.carries).length = maskKeys.length
  · -- All four are carried, so each is the other bundle's.
    have hget (key : String) (hkey : key ∈ maskKeys) : env.get key = env'.get key := by
      refine (hsame.masks key hkey).resolve_right fun habsent => ?_
      have hcarried := List.filter_eq_self.mp (List.filter_sublist.eq_of_length hall) key hkey
      rw [habsent.2] at hcarried
      cases hcarried
    unfold readMask
    rw [hget "maskCommitA" (by decide), hget "maskRevealA" (by decide), hget "maskCommitB" (by decide), hget "maskRevealB" (by decide)]
  · rw [if_neg hall, if_neg hall]

theorem canonical_some (h : canonical ordinals = some cards) : cards.length = 5 ∧ ∀ c ∈ cards, c ∈ ordinals := by
  unfold canonical at h
  split at h
  · obtain ⟨rfl, hlen⟩ := sized_some.mp h
    exact ⟨hlen, fun c hc => (List.mem_insertionSort _).mp hc⟩
  · cases h

def Shown (w : Wire) (t : Transcript) (positions : List Nat) (cards : List UInt8) : Prop :=
  ∃ ordinals, List.Forall₂ (Opened w t) positions ordinals ∧ canonical ordinals = some cards

theorem loserHand_found {loser : Seat} {derived : List UInt8}
    (h : loserHand w t loser env positions derived = found (some cards)) :
    Shown w t positions cards ∧ cards.Disjoint derived := by
  unfold loserHand at h
  split at h
  · simp only [bind_found, of_found, require_found, pure_found] at h
    obtain ⟨hand, hhand, mine, hcards, -, hapart, hsome⟩ := h
    obtain rfl := Option.some.inj hsome
    refine ⟨⟨hand.1, (deriveSeatHand_opened hhand).1, hcards⟩, fun c hc hd => ?_⟩
    simp only [Bool.not_eq_true', List.any_eq_false, List.contains_iff_mem] at hapart
    exact hapart c hc hd
  · cases pure_found.mp h

theorem replay_found {h : ProvedHands} (hreplay : replay w b gameId winner = found h) :
    ∃ t positions, readTranscript w gameId h.seats (envelopes b) = some t ∧ finalPositions w (envelopes b) gameId h.seats = found positions ∧
      (∀ seat cards, h.handOf seat = some cards → Shown w t (seat.of positions) cards) ∧
      ∀ cards, h.loserCards = some cards → cards.Disjoint h.winnerCards := by
  unfold replay at hreplay
  simp only [bind_found, of_found, require_found, pure_found] at hreplay
  obtain ⟨head, hhead, t, ht, positions, hpositions, hand, hhand, derived, hderived, -, -, entries, -, -, -, loserCards, hloser, rfl⟩ := hreplay
  have henv : envelopes b = head.env := by rw [envelopes, (readHead_some hhead).1, Option.getD_some]
  refine ⟨t, positions, henv ▸ ht, henv ▸ hpositions, fun seat cards hcards => ?_, fun cards hcards => ?_⟩
  · unfold ProvedHands.handOf at hcards
    dsimp only at hcards
    split at hcards
    case isTrue hseat =>
      rw [← Option.some.inj hcards, hseat]
      exact ⟨hand.1, (deriveSeatHand_opened hhand).1, hderived⟩
    case isFalse hseat =>
      have hpeer : seat = head.winnerSeat.peer := by
        cases seat <;> cases hside : head.winnerSeat <;> simp_all [Seat.peer]
      rw [hcards] at hloser
      rw [hpeer]
      exact (loserHand_found hloser).1
  · dsimp only at hcards ⊢
    rw [hcards] at hloser
    exact (loserHand_found hloser).2

/-- One transcript, one showdown. -/
theorem one_showdown (hw : Laws w) (gameId : Bytes) :
    (∀ b winner, replay w b gameId winner ≠ .outOfRange) ∧
    (∀ b winner h, replay w b gameId winner = .found h →
      (∀ cards, h.loserCards = some cards → cards.Disjoint h.winnerCards) ∧
      ∃ t positions, readTranscript w gameId h.seats (envelopes b) = some t ∧
        finalPositions w (envelopes b) gameId h.seats = .found positions ∧
        ∀ seat cards, h.handOf seat = some cards → cards.length = 5 ∧ ∀ card ∈ cards, ∃ p ∈ seat.of positions, Opened w t p card) ∧
    ∀ b b' winner winner' h h', replay w b gameId winner = .found h → replay w b' gameId winner' = .found h' →
      SameTranscript w (envelopes b) (envelopes b') → h.seats = h'.seats →
      ∀ seat cards cards', h.handOf seat = some cards → h'.handOf seat = some cards' → cards = cards' := by
  refine ⟨fun b winner => replay_inRange hw b gameId winner, fun b winner h hreplay => ?_, ?_⟩
  · obtain ⟨t, positions, ht, hpositions, hshown, hapart⟩ := replay_found hreplay
    refine ⟨hapart, t, positions, ht, hpositions, fun seat cards hcards => ?_⟩
    obtain ⟨ordinals, hopened, hcanonical⟩ := hshown seat cards hcards
    obtain ⟨hlen, hmem⟩ := canonical_some hcanonical
    exact ⟨hlen, fun card hcard => forall₂_mem_left hopened.flip (hmem card hcard)⟩
  · intro b b' winner winner' h h' hreplay hreplay' hsame hseats seat cards cards' hcards hcards'
    obtain ⟨t, positions, ht, hpositions, hshown, -⟩ := replay_found hreplay
    obtain ⟨t', positions', ht', hpositions', hshown', -⟩ := replay_found hreplay'
    rw [← hseats] at ht' hpositions'
    obtain rfl := readTranscript_same hsame ht ht'
    rw [finalPositions_same hsame, hpositions'] at hpositions
    obtain rfl := Answer.found.inj hpositions
    obtain ⟨ordinals, hopened, hcanonical⟩ := hshown seat cards hcards
    obtain ⟨ordinals', hopened', hcanonical'⟩ := hshown' seat cards' hcards'
    have hunique : Relator.RightUnique (Opened w t) := fun _ _ _ => opened_unique hw
    obtain rfl := List.right_unique_forall₂' hunique hopened hopened'
    exact Option.some.inj (hcanonical.symm.trans hcanonical')

/-! ## A hand told by both seats -/

section
open Value

def zeros (n : Nat) : List Char := List.replicate n '0'

def keyText (sign : Char) : Value := string ('0' :: sign :: zeros 64)

def keyA : Bytes := 2 :: List.replicate 32 0
def keyB : Bytes := 3 :: List.replicate 32 0

def drawnDeck : List Value :=
  (['0', '1', '2', '3', '4', '5', '6', '7', '8', '9', 'a', 'b'].map fun p => string ('0' :: '2' :: zeros 63 ++ [p])) ++
    List.replicate 40 (keyText '2')

def drawnKind (kind : UInt8) : String :=
  if kind = 1 then "scalar_commit" else if kind = 2 then "remask_pass" else if kind = 3 then "reveal_hand"
  else if kind = 4 then "deal_keys" else if kind = 5 then "commit_discard" else if kind = 6 then "reveal_discard" else "draw_keys"

def drawnReveal (hand : List UInt64) : Value :=
  object [("nonce", string []), ("hand", array (hand.map fun n => number (.posInt n))),
    ("scalars", array (List.replicate 5 (string (zeros 64))))]

/-- The first seat changes its first card, the second its second. -/
def drawnWire : Wire where
  parseJson body :=
    if body = [1] then some (array (List.replicate 52 (string (zeros 64))))
    else if body = [2] then some (array drawnDeck)
    else if body = [3] then some (drawnReveal [10, 2, 4, 6, 8])
    else if body = [4] then some (drawnReveal [1, 11, 5, 7, 9])
    else some (array (List.replicate (if body = [5] then 5 else 1) (string (zeros 64))))
  envelopeFromWire bytes :=
    some { signature := [], fields :=
      { networkId := 0, moduleId := "", contractId := List.replicate 32 0, protocolVersion := 1,
        seatPubkey := (bytes.drop 1).take 1 ++ List.replicate 32 0, sequenceNo := 0, priorTranscriptHash := [],
        messageKind := drawnKind (bytes.headD 0), body := bytes.drop 2 } }
  verifyEnvelope _ _ := true
  validateDeck d := d.length == 52
  verifyScalarCommitment commit _ _ _ s := commit == s
  unmask point _ _ := point.getLast?
  exchangePositions m n := if m = 1 ∧ n = 2 then some ([10, 2, 4, 6, 8], [1, 11, 5, 7, 9]) else none
  verifyDiscardReveal commit mask nonce _ _ := commit == mask :: nonce.take 31

def wireOf (kind seat body : Char) (rest : List Char := []) : Value := string (['0', kind, '0', seat, '0', body] ++ rest)

def drawnCards : List UInt8 × List UInt8 := ([2, 4, 6, 8, 10], [1, 5, 7, 9, 11])

def drawnEnvelopes (winner : Seat) : List (String × Value) :=
  let reveals := (wireOf '3' '2' '3', wireOf '3' '3' '4')
  let keys := (array [wireOf '4' '2' '5', wireOf '7' '2' '6'], array [wireOf '4' '3' '5', wireOf '7' '3' '6'])
  [("scalarCommitA", wireOf '1' '2' '1'), ("scalarCommitB", wireOf '1' '3' '1'), ("finalRemask", wireOf '2' '3' '2'),
    ("maskCommitA", wireOf '5' '2' '1' (zeros 62)), ("maskRevealA", wireOf '6' '2' '1' (zeros 64)),
    ("maskCommitB", wireOf '5' '3' '2' (zeros 62)), ("maskRevealB", wireOf '6' '3' '2' (zeros 64)),
    ("winnerReveal", winner.of reveals), ("loserKeys", winner.peer.of keys),
    ("loserReveal", winner.peer.of reveals), ("winnerKeys", winner.of keys)]

def drawnBundle (winner : Seat) : Value :=
  object [("v", number (.posInt 1)), ("gameId", string (zeros 64)), ("winner", winner.of (keyText '2', keyText '3')),
    ("winnerSeat", number (.posInt (winner.of (0, 1)))), ("seats", array [keyText '2', keyText '3']),
    ("cards", array ((winner.of drawnCards).map fun n => number (.posInt n.toUInt64))),
    ("discards", object [(winner.of ("0", "3"), string (zeros 64))]), ("envelopes", object (drawnEnvelopes winner))]

def drawnHands (winner : Seat) : ProvedHands where
  winnerSeat := winner
  seats := (keyA, keyB)
  winnerCards := winner.of drawnCards
  loserCards := some (winner.peer.of drawnCards)

theorem drawn_laws : Laws drawnWire where
  binds h h' := (beq_iff_eq.mp h).symm.trans (beq_iff_eq.mp h')
  exchange h := by
    simp only [drawnWire] at h
    split at h
    · cases h
      refine ⟨by decide, by decide, by simp, fun seat => ?_⟩
      cases seat with
      | a => exact ⟨rfl, fun i p hp => by rcases i with _ | _ | _ | _ | _ | i <;> simp_all [Seat.of, Seat.index]⟩
      | b =>
        refine ⟨rfl, fun i p hp => ?_⟩
        rcases i with _ | _ | _ | _ | _ | i <;> simp_all [Seat.of, Seat.index]
        omega
    · cases h
  deck h := beq_iff_eq.mp h

theorem drawn_replay (winner : Seat) :
    replay drawnWire (drawnBundle winner) (List.replicate 32 0) (winner.of (keyA, keyB)) = .found (drawnHands winner) := by
  cases winner <;> decide

/-- The two seats' bundles of one drawn hand tell the same five cards of the first seat. -/
theorem one_showdown_drawn : ((drawnHands .a).handOf .a).isSome = true ∧ (drawnHands .a).handOf .a = (drawnHands .b).handOf .a := by
  have hmasks : ∀ key ∈ maskKeys, (envelopes (drawnBundle .a)).get key = (envelopes (drawnBundle .b)).get key := by
    intro key hkey
    simp only [maskKeys, List.mem_cons, List.not_mem_nil, or_false] at hkey
    rcases hkey with rfl | rfl | rfl | rfl <;> rfl
  have hsame : SameTranscript drawnWire (envelopes (drawnBundle .a)) (envelopes (drawnBundle .b)) :=
    ⟨rfl, rfl, rfl, fun key hkey => .inl (hmasks key hkey)⟩
  exact ⟨rfl, congrArg some ((one_showdown drawn_laws (List.replicate 32 0)).2.2 _ _ _ _ _ _ (drawn_replay .a) (drawn_replay .b) hsame rfl .a _ _ rfl rfl)⟩

end

end OverlayEngine.ProofReplay
