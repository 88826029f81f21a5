import OverlayEngine.Types

/-!
# The stored tracker words

One row of `tx_words` and any number of its writers. A writer reads the row,
steps a tracker state, projects the state over the row it read and runs one
upsert. The state is the tracker library's: a writer has what the state answers.
-/

namespace OverlayEngine.TrackerWords

inductive Word where
  | unknown
  | built
  | abandoned
  | announced
  | seen
  | mined
  | stale
  | rejected
  | conflicted
  deriving DecidableEq

inductive Tier where
  | host
  | hint
  | chain
  deriving DecidableEq

structure Evidence where
  root : String
  height : Nat
  path : String
  headerHash : String

structure Hint where
  source : String
  observed : Nat

/-- What a writer's tracker state answers; `height` is that of its word. -/
structure State where
  txid : Txid
  word : Word
  height : Option Nat := none
  evidence : Option Evidence := none
  hints : List Hint := []

/-- `served::fields`: the tier of a word. -/
def Word.tier : Word → Tier
  | .unknown | .built | .abandoned => .host
  | .announced | .seen => .hint
  | .mined | .stale | .rejected | .conflicted => .chain

/-- `n as f64`: the nearest double, ties to even. -/
def asF64 (n : Nat) : Nat :=
  let unit := 2 ^ (n.log2 - 52)
  let q := n / unit
  let up := unit < 2 * (n % unit) ∨ (2 * (n % unit) = unit ∧ q % 2 = 1)
  (if up then q + 1 else q) * unit

/-- A row of `tx_words`. -/
structure Row where
  txid : Txid
  word : Word
  tier : Tier
  height : Option Nat
  proofRoot : Option String
  proofHeight : Option Nat
  proofHex : Option String
  headerHash : Option String
  hintSource : Option String
  hintAt : Option Nat
  updatedAt : Nat
  legacyBody : Option String
  deriving DecidableEq

def Row.fromState (state : State) (now : Nat) (legacy : Option String) : Row :=
  { txid := state.txid
    word := state.word
    tier := state.word.tier
    height := state.height
    proofRoot := state.evidence.map Evidence.root
    proofHeight := state.evidence.map Evidence.height
    proofHex := state.evidence.map Evidence.path
    headerHash := state.evidence.map Evidence.headerHash
    hintSource := state.hints.head?.map Hint.source
    hintAt := state.hints.head?.map fun h => asF64 h.observed
    updatedAt := asF64 now
    legacyBody := legacy }

def copied (old : Option Row) (state : State) : Option Row :=
  old.filter fun r => decide (r.tier = .chain) && decide (state.word ≠ .mined)

def project (old : Option Row) (state : State) (now : Nat) (legacy : Option String) : Row :=
  match copied old state with
  | some old =>
    let row := { old with updatedAt := asF64 now }
    let row := if legacy.isSome then { row with legacyBody := legacy } else row
    match state.hints.head? with
    | some h => { row with hintSource := some h.source, hintAt := some (asF64 h.observed) }
    | none => row
  | none => .fromState state now legacy

/-! ## The upsert -/

/-- The `WHERE` of `UPSERT`'s update. -/
def admits (stored excluded : Row) : Bool :=
  (decide (excluded.tier = .chain) && decide (stored.tier ≠ .chain)) ||
    (decide (stored.updatedAt ≤ excluded.updatedAt) &&
      (decide (stored.tier ≠ .chain) || decide (excluded.tier = .chain)) &&
      !(decide (stored.word = .seen) && decide (excluded.word = .unknown ∨ excluded.word = .built ∨ excluded.word = .announced)) &&
      !(decide (stored.word = .announced) && decide (excluded.word = .unknown ∨ excluded.word = .built)) &&
      !(decide (stored.word = .built) && decide (excluded.word = .unknown)) &&
      (decide (stored.word ≠ .abandoned) || decide (excluded.word = .abandoned) || decide (excluded.tier = .chain)) &&
      (decide (stored.word ≠ .mined) || decide (excluded.word = .mined ∨ excluded.word = .stale)))

/-- The `SET` of `UPSERT`'s update. -/
def Row.updated (stored excluded : Row) : Row :=
  { excluded with
    txid := stored.txid
    hintSource := match excluded.hintAt, stored.hintAt with
      | none, _ => stored.hintSource
      | some new, some old => if new < old then stored.hintSource else excluded.hintSource.or stored.hintSource
      | some _, none => excluded.hintSource.or stored.hintSource
    hintAt := match excluded.hintAt with
      | none => stored.hintAt
      | some new => some (max (stored.hintAt.getD 0) new)
    updatedAt := max stored.updatedAt excluded.updatedAt
    legacyBody := excluded.legacyBody.or stored.legacyBody }

/-- `UPSERT`: the row it leaves, or none where the `WHERE` refused the update. -/
def upsert (stored : Option Row) (excluded : Row) : Option Row :=
  match stored with
  | none => some excluded
  | some stored => if admits stored excluded then some (stored.updated excluded) else none

/-! ## The writers -/

structure Read where
  row : Option Row
  landed : Nat
  deriving DecidableEq

structure World where
  row : Option Row := none
  writers : List (Option Read) := []
  landed : Nat := 0
  hints : List (String × Nat) := []

inductive Move where
  | read
  | write (writer : Nat) (state : State) (now : Nat) (legacy : Option String)

def Row.hint (r : Row) : List (String × Nat) :=
  match r.hintSource, r.hintAt with
  | some source, some at_ => [(source, at_)]
  | _, _ => []

def World.store (w : World) (excluded : Row) : World :=
  match upsert w.row excluded with
  | some row => { w with row := some row, landed := w.landed + 1, hints := excluded.hint ++ w.hints }
  | none => w

def World.step (w : World) : Move → World
  | .read => { w with writers := w.writers ++ [some ⟨w.row, w.landed⟩] }
  | .write i state now legacy =>
    match w.writers[i]? with
    | some (some read) => { w with writers := w.writers.set i none }.store (project read.row state now legacy)
    | _ => w

def World.run (w : World) (moves : List Move) : World := moves.foldl World.step w

def World.start (row : Option Row) : World := { row := row, hints := (row.map Row.hint).getD [] }

/-! ## What a row says -/

def Row.minedProof (r : Row) : Option (Option Nat × Option String × Option Nat × Option String × Option String) :=
  if r.word = .mined then some (r.height, r.proofRoot, r.proofHeight, r.proofHex, r.headerHash) else none

def Word.rank : Word → Option Nat
  | .unknown => some 0
  | .built => some 1
  | .announced => some 2
  | .seen => some 3
  | _ => none

structure Row.Fit (r : Row) : Prop where
  tier : r.tier = r.word.tier
  hint : r.hintSource.isSome = r.hintAt.isSome

def World.Replaces (w : World) : Move → Prop
  | .read => False
  | .write i state now legacy => ∃ read r, w.writers[i]? = some (some read) ∧ state.word ≠ .mined ∧
      w.row = some r ∧ r.word = .mined ∧ read.landed < w.landed ∧
      ∀ r', (w.step (.write i state now legacy)).row = some r' → r'.minedProof ≠ r.minedProof

/-- A write of a state that is not mined over a mined row stored after the writer's read is of an older clock, or
what it would put there is not admitted after `mined`, or the row it read has the same proof. -/
def World.Meets (w : World) : Move → Prop
  | .read => True
  | .write i state now _ => ∀ read r, w.writers[i]? = some (some read) → state.word ≠ .mined →
      w.row = some r → r.word = .mined → read.landed < w.landed →
      asF64 now < r.updatedAt ∨
        match copied read.row state with
        | some old => (old.word ≠ .mined ∧ old.word ≠ .stale) ∨ old.minedProof = r.minedProof
        | none => state.word ≠ .stale

end OverlayEngine.TrackerWords
