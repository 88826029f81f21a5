import Mathlib.Data.Prod.Lex
import Mathlib.Order.WithBot
import Mathlib.Order.OrderDual
import Mathlib.Data.String.Basic
import Mathlib.Data.Int.ConditionallyCompleteOrder
import Mathlib.Order.ConditionallyCompleteLattice.Basic
import OverlayEngine.Basis.RankedLists

/-!
# The judge's selection of its candidates

The rows of an identity's pots and of its hops come from two tables and two
databases. A pot is one row, its best-ranked oldest candidate; a hop output is
its oldest markers. Both are sorted and ranked before they are hydrated.
-/

namespace OverlayEngine.JudgeRank

open RankedLists

/-- A number as a row's JSON has it, in the order of `Option`: an absent one is below every other. -/
abbrev Num := WithBot Int

def asc (n : Option Int) : Num := n
def desc (n : Option Int) : Numᵒᵈ := OrderDual.toDual (asc n)

abbrev OutputKey := Lex (String × Int)

def saturatingMul (a b : Int) : Int := max (-9223372036854775808) (min 9223372036854775807 (a * b))

/-- `before_era` of a stamp. -/
def beforeEra (stamp era : Option Int) : Bool := era.any fun era => stamp.all fun s => decide (saturatingMul s 1000 < era)

def validityRank : Option Int → Int
  | some 1 => 2
  | none => 1
  | some _ => 0

/-! ## The pots -/

/-- A candidate of a pot, from `potparty_records` or through a hop's link; `rest` is what its ranking does not read. -/
structure Party (ρ : Type) where
  potTxid : String
  potVout : Int
  sigValid : Option Int
  potCreatedAt : Option Int := none
  createdAt : Option Int
  markerRowid : Option Int
  unknownPot : Option Int := some 0
  rest : ρ
  deriving DecidableEq

structure Ranked (ρ : Type) where
  party : Party ρ
  tier : Int
  potBestSigRank : Int
  finalRank : Nat
  deriving DecidableEq

section
variable {ρ : Type}

namespace Party

variable (v : Party ρ)

def key : OutputKey := toLex (v.potTxid, v.potVout)

def rank : Int := validityRank v.sigValid

def stamp : Option Int := v.potCreatedAt <|> v.createdAt

def age : Lex (Num × Num) := toLex (asc v.createdAt, asc v.markerRowid)

/-- Whether `v` takes the place of `old`, read before it. -/
def replaces (old : Party ρ) : Bool := decide (old.rank < v.rank) || (decide (v.rank = old.rank) && decide (v.age < old.age))

/-- What `recency` compares. -/
def recency : Lex (Intᵒᵈ × Lex (Numᵒᵈ × Lex (Numᵒᵈ × Numᵒᵈ))) :=
  toLex (OrderDual.toDual v.rank, toLex (desc v.stamp, toLex (desc v.createdAt, desc v.markerRowid)))

/-- What `order` compares. -/
def order (tier : Int) : Lex (Intᵒᵈ × Lex (Int × Lex (Numᵒᵈ × Lex (Numᵒᵈ × Numᵒᵈ)))) :=
  toLex (OrderDual.toDual v.rank, toLex (tier, toLex (desc v.stamp, toLex (desc v.createdAt, desc v.markerRowid))))

end Party

def choose (old : Option (Party ρ)) (v : Party ρ) : Party ρ :=
  match old with
  | none => v
  | some old => if v.replaces old then v else old

def pots (candidates : List (Party ρ)) (era : Option Int) : List (Party ρ) :=
  intoValues Party.key choose (candidates.filter fun v => !beforeEra v.stamp era)

def tiered (quota : Nat) : Nat → List (Party ρ) → List (Party ρ × Int)
  | _, [] => []
  | unknown, v :: rest =>
    if v.unknownPot = some 1 then (v, if quota < unknown + 1 then 1 else 0) :: tiered quota (unknown + 1) rest
    else (v, 0) :: tiered quota unknown rest

def select (candidates : List (Party ρ)) (era : Option Int) (quota : Nat) : List (Ranked ρ) :=
  let rows := sortOn (fun r : Party ρ × Int => r.1.order r.2) (tiered quota 0 (sortOn Party.recency (pots candidates era)))
  rows.zipWith (fun r n => { party := r.1, tier := r.2, potBestSigRank := r.1.rank, finalRank := n }) (ranks (rows.map fun r => r.1.order r.2))

end

/-! ## The hops -/

def rowsPerOutpoint : Nat := 4
def unknownHopQuota : Nat := 10
def unknownHopMaxAgeSecs : Int := 3600

/-- A marker of a hop output; `rest` is what its ranking does not read. -/
structure Hop (ρ : Type) where
  hopTxid : String
  hopVout : Int
  markerValid : Option Int
  potCreatedAt : Option Int := none
  createdAt : Option Int
  markerRowid : Option Int
  unknownHop : Option Int := some 0
  hopSatsOnChain : Option Int := none
  paidTier : Int
  rest : ρ
  deriving DecidableEq

structure Marked (ρ : Type) where
  hop : Hop ρ
  firstMarkerAt : Option Int
  outpointMarkerRank : Int
  outpointPaidTier : Int
  freshUnknown : Int

structure HopRow (ρ : Type) where
  marked : Marked ρ
  tier : Int
  finalRank : Nat

/-- `min` and `max` of numbers. -/
def least (l : List Int) : Option Int := (l.insertionSort (· ≤ ·)).head?
def greatest (l : List Int) : Option Int := (l.insertionSort (· ≥ ·)).head?

section
variable {ρ : Type}

namespace Hop

variable (v : Hop ρ)

def key : OutputKey := toLex (v.hopTxid, v.hopVout)

def rank : Int := validityRank v.markerValid

def stamp : Option Int := v.potCreatedAt <|> v.createdAt

def age : Lex (Num × Num) := toLex (asc v.createdAt, asc v.markerRowid)

end Hop

def mark (now : Int) (group : List (Hop ρ)) : List (Marked ρ) :=
  let sorted := sortOn Hop.age group
  let first := least (sorted.filterMap Hop.createdAt)
  let kept := sorted.take rowsPerOutpoint
  kept.map fun v =>
    { hop := v
      firstMarkerAt := first
      outpointMarkerRank := (greatest (kept.map Hop.rank)).getD 0
      outpointPaidTier := (least (kept.map Hop.paidTier)).getD 0
      freshUnknown := if v.unknownHop = some 1 ∧ now - unknownHopMaxAgeSecs ≤ first.getD 0 then 1 else 0 }

def groups (candidates : List (Hop ρ)) (era : Option Int) : List (List (Hop ρ)) :=
  intoValues Hop.key (fun group v => group.getD [] ++ [v]) (candidates.filter fun v => !beforeEra v.stamp era)

namespace Marked

variable (m : Marked ρ)

def place : Lex (Lex (Num × Int) × Lex (Int × OutputKey)) :=
  toLex (toLex (asc m.hop.unknownHop, m.freshUnknown), toLex (m.firstMarkerAt.getD 0, m.hop.key))

/-- What `hop_order` compares, of a row's own paid tier or of its outpoint's. -/
def order (paid tier : Int) : Lex (Intᵒᵈ × Lex (Int × Lex (Int × Lex (Numᵒᵈ × Lex (Num × OutputKey))))) :=
  toLex (OrderDual.toDual m.outpointMarkerRank, toLex (paid, toLex (tier, toLex (desc m.hop.hopSatsOnChain,
    toLex (asc (m.hop.potCreatedAt <|> m.firstMarkerAt), m.hop.key)))))

def service (tier : Int) : Lex (Lex (Intᵒᵈ × Lex (Int × Lex (Int × Lex (Numᵒᵈ × Lex (Num × OutputKey))))) × Lex (Intᵒᵈ × Lex (Num × Num))) :=
  toLex (m.order m.hop.paidTier tier, toLex (OrderDual.toDual m.hop.rank, m.hop.age))

end Marked

structure TierState where
  partition : Option (Lex (Num × Int)) := none
  previous : Option (Lex (Int × OutputKey)) := none
  hopRank : Nat := 0

def tierStep (s : TierState) (place : Lex (Lex (Num × Int) × Lex (Int × OutputKey))) : TierState × Int :=
  let p := ofLex place
  let s := if s.partition = some p.1 then s else { partition := some p.1 }
  let s := if s.previous = some p.2 then s else { s with previous := some p.2, hopRank := s.hopRank + 1 }
  let part := ofLex p.1
  (s, if part.1 = asc (some 0) ∨ (part.2 = 1 ∧ s.hopRank ≤ unknownHopQuota) then 0 else 1)

def selectHops (candidates : List (Hop ρ)) (era : Option Int) (now : Int) : List (HopRow ρ) :=
  let rows := sortOn Marked.place ((groups candidates era).flatMap (mark now))
  let rows := rows.zip (scan tierStep {} (rows.map Marked.place))
  let rows := sortOn (fun r : Marked ρ × Int => r.1.order r.1.outpointPaidTier r.2) rows
  let rows := rows.zipWith (fun r n => HopRow.mk r.1 r.2 n) (ranks (rows.map fun r => r.1.order r.1.outpointPaidTier r.2))
  sortOn (fun r : HopRow ρ => r.marked.service r.tier) rows

end

end OverlayEngine.JudgeRank
