import OverlayEngine.Basis.PushWalk

/-!
# The seat, hop and result markers

A marker is `OP_FALSE OP_RETURN` and the pushes of its version: a tag, and fields
of fixed lengths (`parse_potparty_marker`, `parse_hopparty_marker` and
`parse_result_marker`). The three parsers walk their pushes alike; an index that
the source's checked additions carry past `usize` is past the script's end too.
-/

namespace OverlayEngine.Markers

open PushWalk

abbrev Bytes := List UInt8

def tag (text : String) : Bytes := text.toList.map fun c => UInt8.ofNat c.toNat

def u32Of (b : Bytes) : UInt32 := UInt32.ofNat (ofLe b)

def u64Of (b : Bytes) : UInt64 := UInt64.ofNat (ofLe b)

variable {b : Bytes}

theorem toLe_u32Of (h : b.length = 4) : toLe 4 (u32Of b).toNat = b := by
  have hlt := ofLe_lt b
  have hback := toLe_ofLe b
  rw [h] at hlt hback
  rw [u32Of, UInt32.toNat_ofNat_of_lt' hlt, hback]

theorem u32Of_toLe (n : UInt32) : u32Of (toLe 4 n.toNat) = n := by
  rw [u32Of, ofLe_toLe n.toNat_lt, UInt32.ofNat_toNat]

theorem toLe_u64Of (h : b.length = 8) : toLe 8 (u64Of b).toNat = b := by
  have hlt := ofLe_lt b
  have hback := toLe_ofLe b
  rw [h] at hlt hback
  rw [u64Of, UInt64.toNat_ofNat_of_lt' hlt, hback]

theorem u64Of_toLe (n : UInt64) : u64Of (toLe 8 n.toNat) = n := by
  rw [u64Of, ofLe_toLe n.toNat_lt, UInt64.ofNat_toNat]

/-! ## The seat's marker -/

def potpartyTag : Bytes := tag "LOW/potparty/v1"
def potpartyTagV2 : Bytes := tag "LOW/potparty/v2"
def sigMinLen : Nat := 67
def sigMaxLen : Nat := 74

def SigLen (b : Bytes) : Prop := sigMinLen ≤ b.length ∧ b.length ≤ sigMaxLen

instance (b : Bytes) : Decidable (SigLen b) := inferInstanceAs (Decidable (_ ∧ _))

structure PotpartyMarker where
  identity : Bytes
  opponent : Bytes
  gameId : Vector UInt8 32
  potTxid : Vector UInt8 32
  potVout : UInt32
  recoveryHeight : UInt32
  sig : Bytes
  seatSettlePubkey : Option Bytes
  seatSig : Option Bytes

def SeatOk (seat : Option (Bytes × Bytes)) : Prop := ∀ p ∈ seat, p.1.length = 33 ∧ SigLen p.2

instance (seat : Option (Bytes × Bytes)) : Decidable (SeatOk seat) := inferInstanceAs (Decidable (∀ p ∈ seat, _))

def potpartyOf (identity opponent gameId potTxid potVout recoveryHeight : Bytes) (seat : Option (Bytes × Bytes)) (sig : Bytes) : Option PotpartyMarker :=
  if (identity.length = 33 ∧ opponent.length = 33 ∧ identity ≠ opponent) ∧ (potVout.length = 4 ∧ recoveryHeight.length = 4) ∧ SigLen sig ∧ SeatOk seat then
    (sized 32 gameId).bind fun gameId => (sized 32 potTxid).map fun potTxid =>
      ⟨identity, opponent, gameId, potTxid, u32Of potVout, u32Of recoveryHeight, sig, seat.map Prod.fst, seat.map Prod.snd⟩
  else none

def potpartyV1 : List Bytes → Option PotpartyMarker
  | [identity, opponent, gameId, potTxid, potVout, recoveryHeight, sig] => potpartyOf identity opponent gameId potTxid potVout recoveryHeight none sig
  | _ => none

def potpartyV2 : List Bytes → Option PotpartyMarker
  | [identity, opponent, gameId, potTxid, potVout, recoveryHeight, seatSettlePubkey, seatSig, sig] =>
    potpartyOf identity opponent gameId potTxid potVout recoveryHeight (some (seatSettlePubkey, seatSig)) sig
  | _ => none

def potpartyFields : List Bytes → Option PotpartyMarker
  | [] => none
  | tag :: data => if tag = potpartyTag then potpartyV1 data else if tag = potpartyTagV2 then potpartyV2 data else none

/-- The pushes after the two opcodes, read as `fields` reads them. -/
def parse {M : Type} (fields : List Bytes → Option M) : Bytes → Option M
  | 0x00 :: 0x6a :: rest => fields (readPushes rest)
  | _ => none

def parsePotpartyMarker : Bytes → Option PotpartyMarker := parse potpartyFields

namespace PotpartyMarker

def seat (m : PotpartyMarker) : Option (Bytes × Bytes) := m.seatSettlePubkey.bind fun k => m.seatSig.map fun s => (k, s)

structure Valid (m : PotpartyMarker) : Prop where
  seats : m.identity.length = 33 ∧ m.opponent.length = 33 ∧ m.identity ≠ m.opponent
  sig : SigLen m.sig
  whole : m.seatSettlePubkey.isSome = m.seatSig.isSome
  seat : SeatOk m.seat

def fields (m : PotpartyMarker) : List Bytes :=
  [m.identity, m.opponent, m.gameId.toList, m.potTxid.toList, toLe 4 m.potVout.toNat, toLe 4 m.recoveryHeight.toNat]

def pushes (m : PotpartyMarker) : List Bytes :=
  match m.seat with
  | none => potpartyTag :: (m.fields ++ [m.sig])
  | some (seatSettlePubkey, seatSig) => potpartyTagV2 :: (m.fields ++ [seatSettlePubkey, seatSig, m.sig])

end PotpartyMarker

variable {m : PotpartyMarker}

theorem potpartyOf_eq_some {identity opponent gameId potTxid potVout recoveryHeight sig : Bytes} {seat : Option (Bytes × Bytes)}
    :
    potpartyOf identity opponent gameId potTxid potVout recoveryHeight seat sig = some m ↔ m.Valid ∧ m.seat = seat ∧
      identity = m.identity ∧ opponent = m.opponent ∧ gameId = m.gameId.toList ∧ potTxid = m.potTxid.toList ∧
      potVout = toLe 4 m.potVout.toNat ∧ recoveryHeight = toLe 4 m.recoveryHeight.toNat ∧ sig = m.sig := by
  unfold potpartyOf
  constructor
  · intro h
    split at h
    case isFalse => cases h
    case isTrue hok =>
      obtain ⟨hseats, ⟨hvout, hheight⟩, hsig, hseat⟩ := hok
      obtain ⟨game, hgame, h⟩ := Option.bind_eq_some_iff.mp h
      obtain ⟨txid, htxid, rfl⟩ := Option.map_eq_some_iff.mp h
      have hpair : (seat.map Prod.fst).bind (fun k => (seat.map Prod.snd).map fun s => (k, s)) = seat := by cases seat <;> rfl
      refine ⟨⟨hseats, hsig, by simp, ?_⟩, hpair, rfl, rfl, sized_eq_some.mp hgame, sized_eq_some.mp htxid,
        (toLe_u32Of hvout).symm, (toLe_u32Of hheight).symm, rfl⟩
      rw [PotpartyMarker.seat, hpair]
      exact hseat
  · rintro ⟨hvalid, rfl, rfl, rfl, rfl, rfl, rfl, rfl, rfl⟩
    obtain ⟨identity, opponent, game, txid, vout, height, sig, key, seatSig⟩ := m
    rw [if_pos ⟨hvalid.seats, by simp, hvalid.sig, hvalid.seat⟩, sized_eq_some.mpr rfl, Option.bind_some, sized_eq_some.mpr rfl, Option.map_some,
      u32Of_toLe, u32Of_toLe]
    have hwhole := hvalid.whole
    cases key <;> cases seatSig <;> first | rfl | cases hwhole

variable {data : List Bytes}

theorem potpartyV1_eq_some :
    potpartyV1 data = some m ↔ m.Valid ∧ m.seat = none ∧ data = m.fields ++ [m.sig] := by
  constructor
  · intro h
    unfold potpartyV1 at h
    split at h
    · obtain ⟨hvalid, hseat, rfl, rfl, rfl, rfl, rfl, rfl, rfl⟩ := potpartyOf_eq_some.mp h
      exact ⟨hvalid, hseat, rfl⟩
    · cases h
  · rintro ⟨hvalid, hseat, rfl⟩
    exact potpartyOf_eq_some.mpr ⟨hvalid, hseat, rfl, rfl, rfl, rfl, rfl, rfl, rfl⟩

theorem potpartyV2_eq_some :
    potpartyV2 data = some m ↔ m.Valid ∧ ∃ key seatSig, m.seat = some (key, seatSig) ∧ data = m.fields ++ [key, seatSig, m.sig] := by
  constructor
  · intro h
    unfold potpartyV2 at h
    split at h
    · obtain ⟨hvalid, hseat, rfl, rfl, rfl, rfl, rfl, rfl, rfl⟩ := potpartyOf_eq_some.mp h
      exact ⟨hvalid, _, _, hseat, rfl⟩
    · cases h
  · rintro ⟨hvalid, key, seatSig, hseat, rfl⟩
    exact potpartyOf_eq_some.mpr ⟨hvalid, hseat, rfl, rfl, rfl, rfl, rfl, rfl, rfl⟩

theorem PotpartyMarker.pushes_v1 (h : m.seat = none) : m.pushes = potpartyTag :: (m.fields ++ [m.sig]) := by
  rw [pushes, h]

theorem PotpartyMarker.pushes_v2 {key seatSig : Bytes} (h : m.seat = some (key, seatSig)) :
    m.pushes = potpartyTagV2 :: (m.fields ++ [key, seatSig, m.sig]) := by
  rw [pushes, h]

theorem potpartyFields_eq_some : potpartyFields data = some m ↔ m.Valid ∧ data = m.pushes := by
  have hversions : potpartyTagV2 ≠ potpartyTag := by decide
  constructor
  · intro h
    cases data with
    | nil => cases h
    | cons tag data =>
      rw [potpartyFields] at h
      split at h
      · rename_i htag
        obtain ⟨hvalid, hseat, rfl⟩ := potpartyV1_eq_some.mp h
        exact ⟨hvalid, by rw [htag, PotpartyMarker.pushes_v1 hseat]⟩
      · split at h
        · rename_i htag
          obtain ⟨hvalid, key, seatSig, hseat, rfl⟩ := potpartyV2_eq_some.mp h
          exact ⟨hvalid, by rw [htag, PotpartyMarker.pushes_v2 hseat]⟩
        · cases h
  · rintro ⟨hvalid, rfl⟩
    cases hseat : m.seat with
    | none =>
      rw [PotpartyMarker.pushes_v1 hseat, potpartyFields, if_pos rfl]
      exact potpartyV1_eq_some.mpr ⟨hvalid, hseat, rfl⟩
    | some pair =>
      rw [PotpartyMarker.pushes_v2 hseat, potpartyFields, if_neg hversions, if_pos rfl]
      exact potpartyV2_eq_some.mpr ⟨hvalid, _, _, hseat, rfl⟩

/-! ## The hop's marker -/

def hoppartyTag : Bytes := tag "LOW/hopparty/v1"

structure HoppartyMarker where
  identity : Bytes
  opponent : Bytes
  gameId : Vector UInt8 32
  hopVout : UInt32
  hopSats : UInt64
  seatSettlePubkey : Bytes
  seatSig : Bytes
  identitySig : Bytes

def hoppartyFields : List Bytes → Option HoppartyMarker
  | [tag, identity, opponent, gameId, hopVout, hopSats, seatSettlePubkey, seatSig, identitySig] =>
    if tag = hoppartyTag ∧ (identity.length = 33 ∧ opponent.length = 33 ∧ identity ≠ opponent) ∧ (hopVout.length = 4 ∧ hopSats.length = 8) ∧
        seatSettlePubkey.length = 33 ∧ SigLen seatSig ∧ SigLen identitySig then
      (sized 32 gameId).map fun gameId => ⟨identity, opponent, gameId, u32Of hopVout, u64Of hopSats, seatSettlePubkey, seatSig, identitySig⟩
    else none
  | _ => none

def parseHoppartyMarker : Bytes → Option HoppartyMarker := parse hoppartyFields

namespace HoppartyMarker

structure Valid (m : HoppartyMarker) : Prop where
  seats : m.identity.length = 33 ∧ m.opponent.length = 33 ∧ m.identity ≠ m.opponent
  key : m.seatSettlePubkey.length = 33
  sigs : SigLen m.seatSig ∧ SigLen m.identitySig

def pushes (m : HoppartyMarker) : List Bytes :=
  [hoppartyTag, m.identity, m.opponent, m.gameId.toList, toLe 4 m.hopVout.toNat, toLe 8 m.hopSats.toNat, m.seatSettlePubkey, m.seatSig, m.identitySig]

end HoppartyMarker

theorem hoppartyFields_eq_some {m : HoppartyMarker} : hoppartyFields data = some m ↔ m.Valid ∧ data = m.pushes := by
  constructor
  · intro h
    unfold hoppartyFields at h
    split at h
    · split at h
      case isFalse => cases h
      case isTrue hok =>
        obtain ⟨rfl, hseats, ⟨hvout, hsats⟩, hkey, hsigs⟩ := hok
        obtain ⟨game, hgame, rfl⟩ := Option.map_eq_some_iff.mp h
        refine ⟨⟨hseats, hkey, hsigs⟩, ?_⟩
        rw [HoppartyMarker.pushes, sized_eq_some.mp hgame, toLe_u32Of hvout, toLe_u64Of hsats]
    · cases h
  · rintro ⟨hvalid, rfl⟩
    rw [HoppartyMarker.pushes, hoppartyFields, if_pos ⟨rfl, hvalid.seats, by simp, hvalid.key, hvalid.sigs⟩, sized_eq_some.mpr rfl,
      Option.map_some, u32Of_toLe, u64Of_toLe]

/-! ## The result's marker -/

def resultTag : Bytes := tag "LOW/result/v1"
def resultTagV2 : Bytes := tag "LOW/result/v2"
def resultSigMinLen : Nat := 68
def resultCardMax : Nat := 51

def ResultSigLen (b : Bytes) : Prop := resultSigMinLen ≤ b.length ∧ b.length ≤ sigMaxLen

instance (b : Bytes) : Decidable (ResultSigLen b) := inferInstanceAs (Decidable (_ ∧ _))

structure ResultMarker where
  gameId : Vector UInt8 32
  winner : Bytes
  loser : Bytes
  potTxid : Vector UInt8 32
  settleTxid : Vector UInt8 32
  winnerSig : Bytes
  loserSig : Option Bytes
  cards : Option (Vector UInt8 5)

/-- The loop over the cards; `seen` has the bits of those before. -/
def cardsFrom (seen : Nat) : Bytes → Bool
  | [] => true
  | c :: rest => decide (c.toNat ≤ resultCardMax) && !seen.testBit c.toNat && cardsFrom (seen ||| 1 <<< c.toNat) rest

def parseCards (b : Bytes) : Option (Vector UInt8 5) := (sized 5 b).filter fun _ => cardsFrom 0 b

def Deck (b : Bytes) : Prop := (∀ c ∈ b, c.toNat ≤ resultCardMax) ∧ b.Nodup

theorem cardsFrom_iff {seen : Nat} : cardsFrom seen b = true ↔ Deck b ∧ ∀ c ∈ b, seen.testBit c.toNat = false := by
  induction b generalizing seen with
  | nil => simp [cardsFrom, Deck]
  | cons c rest ih =>
    have hbit (d : UInt8) : (seen ||| 1 <<< c.toNat).testBit d.toNat = false ↔ seen.testBit d.toNat = false ∧ c ≠ d := by
      rw [Nat.testBit_or, Nat.one_shiftLeft, Nat.testBit_two_pow, Bool.or_eq_false_iff, decide_eq_false_iff_not, UInt8.toNat_inj]
    simp only [cardsFrom, Bool.and_eq_true, decide_eq_true_eq, Bool.not_eq_true', ih, Deck, List.forall_mem_cons, List.nodup_cons, hbit]
    constructor
    · rintro ⟨⟨hmax, hseen⟩, ⟨hall, hnodup⟩, hrest⟩
      exact ⟨⟨⟨hmax, hall⟩, fun hin => (hrest c hin).2 rfl, hnodup⟩, hseen, fun d hd => (hrest d hd).1⟩
    · rintro ⟨⟨⟨hmax, hall⟩, hout, hnodup⟩, hseen, hrest⟩
      exact ⟨⟨hmax, hseen⟩, ⟨hall, hnodup⟩, fun d hd => ⟨hrest d hd, fun heq => hout (heq ▸ hd)⟩⟩

theorem parseCards_eq_some {v : Vector UInt8 5} : parseCards b = some v ↔ Deck v.toList ∧ b = v.toList := by
  rw [parseCards, Option.filter_eq_some_iff, sized_eq_some, cardsFrom_iff]
  constructor
  · rintro ⟨rfl, hdeck, -⟩
    exact ⟨hdeck, rfl⟩
  · rintro ⟨hdeck, rfl⟩
    exact ⟨rfl, hdeck, fun c _ => Nat.zero_testBit _⟩

def loserOf (b : Bytes) : Option (Option Bytes) :=
  if b.isEmpty then some none else if ResultSigLen b then some (some b) else none

def resultOf (gameId winner loser potTxid settleTxid : Bytes) (cards : Option (Vector UInt8 5)) (winnerSig loserSig : Bytes) : Option ResultMarker :=
  if (winner.length = 33 ∧ loser.length = 33 ∧ winner ≠ loser) ∧ ResultSigLen winnerSig then
    (sized 32 gameId).bind fun gameId => (sized 32 potTxid).bind fun potTxid => (sized 32 settleTxid).bind fun settleTxid =>
      (loserOf loserSig).map fun loserSig => ⟨gameId, winner, loser, potTxid, settleTxid, winnerSig, loserSig, cards⟩
  else none

def resultV1 : List Bytes → Option ResultMarker
  | [gameId, winner, loser, potTxid, settleTxid, winnerSig, loserSig] => resultOf gameId winner loser potTxid settleTxid none winnerSig loserSig
  | _ => none

def resultV2 : List Bytes → Option ResultMarker
  | [gameId, winner, loser, potTxid, settleTxid, cards, winnerSig, loserSig] =>
    (parseCards cards).bind fun cards => resultOf gameId winner loser potTxid settleTxid (some cards) winnerSig loserSig
  | _ => none

def resultFields : List Bytes → Option ResultMarker
  | [] => none
  | tag :: data => if tag = resultTag then resultV1 data else if tag = resultTagV2 then resultV2 data else none

def parseResultMarker : Bytes → Option ResultMarker := parse resultFields

namespace ResultMarker

structure Valid (m : ResultMarker) : Prop where
  seats : m.winner.length = 33 ∧ m.loser.length = 33 ∧ m.winner ≠ m.loser
  winnerSig : ResultSigLen m.winnerSig
  loserSig : ∀ b ∈ m.loserSig, ResultSigLen b
  cards : ∀ v ∈ m.cards, Deck v.toList

def fields (m : ResultMarker) : List Bytes := [m.gameId.toList, m.winner, m.loser, m.potTxid.toList, m.settleTxid.toList]

def sigs (m : ResultMarker) : List Bytes := [m.winnerSig, m.loserSig.getD []]

def pushes (m : ResultMarker) : List Bytes :=
  match m.cards with
  | none => resultTag :: (m.fields ++ m.sigs)
  | some cards => resultTagV2 :: (m.fields ++ cards.toList :: m.sigs)

theorem pushes_v1 {m : ResultMarker} (h : m.cards = none) : m.pushes = resultTag :: (m.fields ++ m.sigs) := by
  rw [pushes, h]

theorem pushes_v2 {m : ResultMarker} {cards : Vector UInt8 5} (h : m.cards = some cards) :
    m.pushes = resultTagV2 :: (m.fields ++ cards.toList :: m.sigs) := by
  rw [pushes, h]

end ResultMarker

theorem loserOf_eq_some {loserSig : Option Bytes} :
    loserOf b = some loserSig ↔ (∀ s ∈ loserSig, ResultSigLen s) ∧ b = loserSig.getD [] := by
  unfold loserOf
  constructor
  · intro h
    split at h
    · rename_i hempty
      cases h
      exact ⟨fun s hs => (by cases hs), List.isEmpty_iff.mp hempty⟩
    · split at h
      · rename_i hlen
        cases h
        exact ⟨fun s hs => Option.some.inj hs ▸ hlen, rfl⟩
      · cases h
  · rintro ⟨hlen, rfl⟩
    cases loserSig with
    | none => rfl
    | some s =>
      have hs : ResultSigLen s := hlen s rfl
      have hne : s.isEmpty = false := by
        cases s with
        | nil => exact absurd hs.1 (by decide)
        | cons _ _ => rfl
      rw [Option.getD_some, hne, if_neg Bool.false_ne_true, if_pos hs]

theorem resultOf_eq_some {gameId winner loser potTxid settleTxid winnerSig loserSig : Bytes} {cards : Option (Vector UInt8 5)}
    (hcards : ∀ v ∈ cards, Deck v.toList) {m : ResultMarker} :
    resultOf gameId winner loser potTxid settleTxid cards winnerSig loserSig = some m ↔
      m.Valid ∧ m.cards = cards ∧ [gameId, winner, loser, potTxid, settleTxid] = m.fields ∧ [winnerSig, loserSig] = m.sigs := by
  unfold resultOf
  constructor
  · intro h
    split at h
    case isFalse => cases h
    case isTrue hok =>
      obtain ⟨game, hgame, h⟩ := Option.bind_eq_some_iff.mp h
      obtain ⟨pot, hpot, h⟩ := Option.bind_eq_some_iff.mp h
      obtain ⟨settle, hsettle, h⟩ := Option.bind_eq_some_iff.mp h
      obtain ⟨sig, hsig, rfl⟩ := Option.map_eq_some_iff.mp h
      obtain ⟨hlen, hloser⟩ := loserOf_eq_some.mp hsig
      refine ⟨⟨hok.1, hok.2, hlen, hcards⟩, rfl, ?_, ?_⟩
      · rw [ResultMarker.fields, sized_eq_some.mp hgame, sized_eq_some.mp hpot, sized_eq_some.mp hsettle]
      · rw [ResultMarker.sigs, hloser]
  · rintro ⟨hvalid, rfl, hfields, hsigs⟩
    simp only [ResultMarker.fields, ResultMarker.sigs, List.cons.injEq, and_true] at hfields hsigs
    obtain ⟨rfl, rfl, rfl, rfl, rfl⟩ := hfields
    obtain ⟨rfl, rfl⟩ := hsigs
    rw [if_pos ⟨hvalid.seats, hvalid.winnerSig⟩, sized_eq_some.mpr rfl, Option.bind_some, sized_eq_some.mpr rfl, Option.bind_some,
      sized_eq_some.mpr rfl, Option.bind_some, loserOf_eq_some.mpr ⟨hvalid.loserSig, rfl⟩, Option.map_some]

theorem resultV1_eq_some {m : ResultMarker} :
    resultV1 data = some m ↔ m.Valid ∧ m.cards = none ∧ data = m.fields ++ m.sigs := by
  have hnone : ∀ v ∈ (none : Option (Vector UInt8 5)), Deck v.toList := fun v hv => by cases hv
  constructor
  · intro h
    unfold resultV1 at h
    split at h
    · obtain ⟨hvalid, hcards, hfields, hsigs⟩ := (resultOf_eq_some hnone).mp h
      exact ⟨hvalid, hcards, by rw [← hfields, ← hsigs]; rfl⟩
    · cases h
  · rintro ⟨hvalid, hcards, rfl⟩
    exact (resultOf_eq_some hnone).mpr ⟨hvalid, hcards, rfl, rfl⟩

theorem resultV2_eq_some {m : ResultMarker} :
    resultV2 data = some m ↔ m.Valid ∧ ∃ cards, m.cards = some cards ∧ data = m.fields ++ cards.toList :: m.sigs := by
  constructor
  · intro h
    unfold resultV2 at h
    split at h
    · obtain ⟨cards, hparse, hmarker⟩ := Option.bind_eq_some_iff.mp h
      obtain ⟨hdeck, rfl⟩ := parseCards_eq_some.mp hparse
      obtain ⟨hvalid, hcards, hfields, hsigs⟩ :=
        (resultOf_eq_some (fun v hv => Option.some.inj hv ▸ hdeck : ∀ v ∈ some cards, Deck v.toList)).mp hmarker
      exact ⟨hvalid, cards, hcards, by rw [← hfields, ← hsigs]; rfl⟩
    · cases h
  · rintro ⟨hvalid, cards, hcards, rfl⟩
    have hdeck : Deck cards.toList := hvalid.cards cards hcards
    show (parseCards cards.toList).bind _ = some m
    rw [parseCards_eq_some.mpr ⟨hdeck, rfl⟩]
    exact (resultOf_eq_some fun v hv => Option.some.inj hv ▸ hdeck).mpr ⟨hvalid, hcards, rfl, rfl⟩

theorem resultFields_eq_some {m : ResultMarker} : resultFields data = some m ↔ m.Valid ∧ data = m.pushes := by
  have hversions : resultTagV2 ≠ resultTag := by decide
  constructor
  · intro h
    cases data with
    | nil => cases h
    | cons tag data =>
      rw [resultFields] at h
      split at h
      · rename_i htag
        obtain ⟨hvalid, hcards, rfl⟩ := resultV1_eq_some.mp h
        exact ⟨hvalid, by rw [htag, ResultMarker.pushes_v1 hcards]⟩
      · split at h
        · rename_i htag
          obtain ⟨hvalid, cards, hcards, rfl⟩ := resultV2_eq_some.mp h
          exact ⟨hvalid, by rw [htag, ResultMarker.pushes_v2 hcards]⟩
        · cases h
  · rintro ⟨hvalid, rfl⟩
    cases hcards : m.cards with
    | none =>
      rw [ResultMarker.pushes_v1 hcards, resultFields, if_pos rfl]
      exact resultV1_eq_some.mpr ⟨hvalid, hcards, rfl⟩
    | some cards =>
      rw [ResultMarker.pushes_v2 hcards, resultFields, if_neg hversions, if_pos rfl]
      exact resultV2_eq_some.mpr ⟨hvalid, cards, hcards, rfl⟩

/-! ## The three grammars -/

/-- The script is the two opcodes, an encoding of each of `data`, and then no push. -/
def Carries (data : List Bytes) (script : Bytes) : Prop :=
  ∃ encs rest, List.Forall₂ Encodes data encs ∧ Ends rest ∧ script = 0x00 :: 0x6a :: (encs.flatten ++ rest)

/-- The script a builder makes of `data`. -/
def scriptOf (data : List Bytes) : Bytes := 0x00 :: 0x6a :: data.flatMap pushData

/-- What the parser is to do with `script`: it takes what carries a marker's pushes, and the built script of the marker parses to it again,
is the shortest that does, and the only one of its length. -/
structure Exact {M : Type} (parse : Bytes → Option M) (Valid : M → Prop) (pushes : M → List Bytes) (script : Bytes) : Prop where
  grammar : ∀ m, parse script = some m ↔ Valid m ∧ Carries (pushes m) script
  built : ∀ m, parse script = some m → parse (scriptOf (pushes m)) = some m ∧ (scriptOf (pushes m)).length ≤ script.length ∧
    (script.length = (scriptOf (pushes m)).length → script = scriptOf (pushes m))

section
variable {M : Type} {fields : List Bytes → Option M} {Valid : M → Prop} {pushes : M → List Bytes}

theorem parse_eq_some (hfields : ∀ data m, fields data = some m ↔ Valid m ∧ data = pushes m) {script : Bytes} {m : M} :
    parse fields script = some m ↔ Valid m ∧ Carries (pushes m) script := by
  constructor
  · intro h
    unfold parse at h
    split at h
    · obtain ⟨hvalid, hdata⟩ := (hfields _ m).mp h
      obtain ⟨encs, rest, hencs, hrest, hscript⟩ := readPushes_eq.mp hdata
      exact ⟨hvalid, encs, rest, hencs, hrest, by rw [hscript]⟩
    · cases h
  · rintro ⟨hvalid, encs, rest, hencs, hrest, rfl⟩
    exact (hfields _ m).mpr ⟨hvalid, readPushes_eq.mpr ⟨encs, rest, hencs, hrest, rfl⟩⟩

theorem ends_nil : Ends [] := fun _ _ henc hpre => henc.ne_nil (List.prefix_nil.mp hpre)

theorem carries_scriptOf (h : ∀ d ∈ data, d.length < 0x4c) : Carries data (scriptOf data) := by
  refine ⟨data.map pushData, [], ?_, ends_nil, by rw [List.append_nil, ← List.flatMap_def]; rfl⟩
  rw [List.forall₂_map_right_iff, List.forall₂_same]
  intro d hd
  have hlen := h d hd
  exact encodes_pushData (by omega)

theorem exact_of (hfields : ∀ data m, fields data = some m ↔ Valid m ∧ data = pushes m)
    (hshort : ∀ m, Valid m → ∀ d ∈ pushes m, d.length < 0x4c) (script : Bytes) : Exact (parse fields) Valid pushes script where
  grammar _ := parse_eq_some hfields
  built m h := by
    obtain ⟨hvalid, encs, rest, hencs, hrest, rfl⟩ := (parse_eq_some hfields).mp h
    obtain ⟨hle, hsame⟩ := length_flatten_le (hshort m hvalid) hencs
    refine ⟨(parse_eq_some hfields).mpr ⟨hvalid, carries_scriptOf (hshort m hvalid)⟩, ?_, fun hlen => ?_⟩
    · simp only [scriptOf, List.length_cons, List.length_append]
      omega
    · simp only [scriptOf, List.length_cons, List.length_append] at hlen
      have hnil : rest = [] := List.length_eq_zero_iff.mp (by omega)
      rw [hnil, List.append_nil, scriptOf, hsame (by omega)]

end

theorem PotpartyMarker.short (h : m.Valid) : ∀ d ∈ m.pushes, d.length < 0x4c := by
  obtain ⟨hidentity, hopponent, -⟩ := h.seats
  obtain ⟨-, hsig⟩ := h.sig
  rw [sigMaxLen] at hsig
  cases hseat : m.seat with
  | none =>
    rw [pushes_v1 hseat]
    simp [fields, hidentity, hopponent, potpartyTag, tag]
    omega
  | some pair =>
    obtain ⟨hkey, -, hseatSig⟩ := h.seat pair hseat
    rw [sigMaxLen] at hseatSig
    rw [pushes_v2 hseat]
    simp [fields, hidentity, hopponent, potpartyTagV2, tag, hkey]
    omega

theorem HoppartyMarker.short {m : HoppartyMarker} (h : m.Valid) : ∀ d ∈ m.pushes, d.length < 0x4c := by
  obtain ⟨hidentity, hopponent, -⟩ := h.seats
  obtain ⟨⟨-, hseatSig⟩, -, hsig⟩ := h.sigs
  rw [sigMaxLen] at hseatSig hsig
  simp [pushes, hidentity, hopponent, hoppartyTag, tag, h.key]
  omega

theorem ResultMarker.short {m : ResultMarker} (h : m.Valid) : ∀ d ∈ m.pushes, d.length < 0x4c := by
  obtain ⟨hwinner, hloser, -⟩ := h.seats
  obtain ⟨-, hsig⟩ := h.winnerSig
  have hloserSig : (m.loserSig.getD []).length ≤ sigMaxLen := by
    cases hsome : m.loserSig with
    | none => exact Nat.zero_le _
    | some s => exact (h.loserSig s hsome).2
  rw [sigMaxLen] at hsig hloserSig
  cases hcards : m.cards with
  | none =>
    rw [pushes_v1 hcards]
    simp [fields, sigs, hwinner, hloser, resultTag, tag]
    omega
  | some cards =>
    rw [pushes_v2 hcards]
    simp [fields, sigs, hwinner, hloser, resultTagV2, tag]
    omega

/-- Each parser takes the scripts of its own grammar: any encodings of its pushes, up to where no push stands. -/
theorem markers_exact (script : Bytes) :
    Exact parsePotpartyMarker PotpartyMarker.Valid PotpartyMarker.pushes script ∧
      Exact parseHoppartyMarker HoppartyMarker.Valid HoppartyMarker.pushes script ∧
      Exact parseResultMarker ResultMarker.Valid ResultMarker.pushes script :=
  ⟨exact_of (fun _ _ => potpartyFields_eq_some) (fun _ => PotpartyMarker.short) script,
    exact_of (fun _ _ => hoppartyFields_eq_some) (fun _ => HoppartyMarker.short) script,
    exact_of (fun _ _ => resultFields_eq_some) (fun _ => ResultMarker.short) script⟩

def zeroMarker : PotpartyMarker :=
  ⟨List.replicate 33 0, 1 :: List.replicate 32 0, Vector.replicate 32 0, Vector.replicate 32 0, 0, 0, List.replicate 67 0, none, none⟩

/-- After its pushes an `OP_CHECKSIG` changes nothing. -/
theorem trailing_byte_parses :
    ¬∀ script m, parsePotpartyMarker script = some m ↔ m.Valid ∧ script = scriptOf m.pushes := by
  intro h
  have hvalid : zeroMarker.Valid := ⟨by decide, by decide, rfl, by decide⟩
  have hends : Ends [0xac] := ends_iff.mpr (by decide)
  have hdata : List.Forall₂ Encodes zeroMarker.pushes (zeroMarker.pushes.map pushData) := by
    rw [List.forall₂_map_right_iff, List.forall₂_same]
    intro d hd
    have hlen := PotpartyMarker.short hvalid d hd
    exact encodes_pushData (by omega)
  have hparse : parsePotpartyMarker (scriptOf zeroMarker.pushes ++ [0xac]) = some zeroMarker := by
    refine (parse_eq_some fun _ _ => potpartyFields_eq_some).mpr ⟨hvalid, _, _, hdata, hends, ?_⟩
    rw [← List.flatMap_def]
    rfl
  have hlen := congrArg List.length ((h _ _).mp hparse).2
  simp at hlen

end OverlayEngine.Markers
