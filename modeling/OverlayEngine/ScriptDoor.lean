import OverlayEngine.Types
import OverlayEngine.Basis.Worklist

/-!
# The script door's walk

`walk_trusting` of `crates/overlay-engine/src/script_door.rs`: every unproven
transaction that the subject reaches in a BEEF has its inputs' scripts run, a
proven one is trusted as it stands. The walk reads each transaction where the
stream's index says it lies, and a source's outputs by their offsets, kept for
the next input that spends it.

Taken from outside: of bsv-rs its stream decoder, varint reader, hex, script
parse and `Spend::validate`; and what the sizing read estimated of the body.
-/

namespace OverlayEngine.ScriptDoor

abbrev Hash32 := Vector UInt8 32

/-! ## What bsv-rs hands out -/

inductive Element where
  | bump (proven : List Hash32)
  | tx (offset : Nat) (txid : Hash32) (raw : Bytes)
  | txidOnly (txid : Hash32)

structure DigestInput where
  txid : Hash32
  outputIndex : Nat
  script : Bytes
  sequence : Nat

structure DigestOutput where
  satoshis : Nat
  script : Bytes

/-- `SpendParams`. -/
structure Spend (S : Type) where
  sourceTxid : Hash32
  sourceOutputIndex : Nat
  sourceSatoshis : Nat
  lockingScript : S
  transactionVersion : Int
  otherInputs : List DigestInput
  outputs : List DigestOutput
  inputIndex : Nat
  unlockingScript : S
  inputSequence : Nat
  lockTime : Nat
  memoryLimit : Nat

structure InterpreterError where
  message : String
  isResourceLimit : Bool

structure Sdk (S : Type) where
  decode : Bytes → Except String (List Element)
  /-- The value and its width: a short read or a wider encoding is none. -/
  fromVarInt : Bytes → Option (Nat × Nat)
  fromHex : String → Option Bytes
  displayHex : Hash32 → String
  fromBinary : Bytes → Except String S
  /-- The opcode of each chunk. -/
  ops : S → List Nat
  validate : Spend S → Except InterpreterError Bool

/-! ## Scripts -/

def opIf : Nat := 0x63
def opNotIf : Nat := 0x64
def opVerIf : Nat := 0x65
def opVerNotIf : Nat := 0x66
def opEndIf : Nat := 0x68
def opReturn : Nat := 0x6a
def op1 : Nat := 0x51
def op16 : Nat := 0x60
def opPushdata1 : Nat := 0x4c
def opPushdata2 : Nat := 0x4d
def opPushdata4 : Nat := 0x4e

def u64Max : Nat := 2 ^ 64 - 1

def byteAt (script : Bytes) (at_ : Nat) : Nat := (script[at_]?.getD 0).toNat

/-- A little-endian length of `n` bytes. -/
def width (script : Bytes) (at_ n : Nat) : Nat := (List.range n).foldl (fun acc i => acc ||| byteAt script (at_ + i) <<< (8 * i)) 0

/-- Where the chunk of `op` ends, `at_` past its opcode: a push is cut short at the script's end. -/
def chunkEnd (script : Bytes) (op at_ : Nat) : Nat :=
  let header := if op = opPushdata1 then 1 else if op = opPushdata2 then 2 else if op = opPushdata4 then 4 else 0
  if 0 < op ∧ op < opPushdata1 then min (at_ + op) script.length
  else if 0 < header then min (min (at_ + header) script.length + width script at_ header) script.length
  else min at_ script.length

/-- `chunk_count` from `at_`: a step moves past a byte at least, so the script's length is fuel enough. -/
def chunkCountFrom (script : Bytes) : Nat → Nat → Nat → Nat
  | 0, _, _ => 0
  | fuel + 1, at_, depth =>
    if at_ < script.length then
      let op := byteAt script at_
      if op = opReturn ∧ depth = 0 then 1
      else
        let depth := if op = opIf ∨ op = opNotIf ∨ op = opVerIf ∨ op = opVerNotIf then depth + 1 else if op = opEndIf then depth - 1 else depth
        1 + chunkCountFrom script fuel (chunkEnd script op (at_ + 1)) depth
    else 0

def chunkCount (script : Bytes) : Nat := chunkCountFrom script script.length 0 0

def pushOnlyFrom (script : Bytes) : Nat → Nat → Bool
  | 0, _ => true
  | fuel + 1, at_ =>
    if at_ < script.length then
      let op := byteAt script at_
      if op16 < op then false else pushOnlyFrom script fuel (chunkEnd script op (at_ + 1))
    else true

def pushOnly (script : Bytes) : Bool := pushOnlyFrom script script.length 0

def scriptChargePerChunk : Nat := 512
def scriptChargePerByte : Nat := 8

def scriptParseCharge (unlocking locking : Bytes) : Nat :=
  min (min ((chunkCount unlocking + chunkCount locking) * scriptChargePerChunk) u64Max +
    min ((unlocking.length + locking.length) * scriptChargePerByte) u64Max) u64Max

variable {S : Type} (sdk : Sdk S)

def statedKeys (mostKeys : Nat) (before : Option Nat) : Nat :=
  ((before.filter fun op => op1 ≤ op && op ≤ op16).map fun op => op - op1 + 1).getD mostKeys

def opsCensus (mostKeys : Nat) (before : Option Nat) : List Nat → Nat × Nat
  | [] => (0, 0)
  | op :: rest =>
    let counts := opsCensus mostKeys (some op) rest
    if 0xa6 ≤ op ∧ op ≤ 0xaa then (counts.1 + 1, counts.2)
    else if op = 0xac ∨ op = 0xad then (counts.1, counts.2 + 1)
    else if op = 0xae ∨ op = 0xaf then (counts.1, counts.2 + statedKeys mostKeys before)
    else counts

def scriptCensus (unlocking locking : Bytes) (memoryLimit : Nat) : Except String (Nat × Nat × Nat) :=
  let mostKeys := max (memoryLimit / 33) 1
  match sdk.fromBinary unlocking with
  | .error e => .error ("unlocking script does not parse: " ++ e)
  | .ok u =>
    match sdk.fromBinary locking with
    | .error e => .error ("locking script does not parse: " ++ e)
    | .ok l =>
      let inUnlocking := opsCensus mostKeys none (sdk.ops u)
      let inLocking := opsCensus mostKeys none (sdk.ops l)
      .ok (unlocking.length + locking.length, inUnlocking.1 + inLocking.1, inUnlocking.2 + inLocking.2)

/-! ## A transaction's fields -/

namespace Fields

abbrev Read := StateT Nat Option

def take (raw : Bytes) (n : Nat) : Read Bytes := fun at_ =>
  if at_ + n ≤ raw.length then some ((raw.drop at_).take n, at_ + n) else none

def littleEndian (bytes : Bytes) : Nat := bytes.foldr (fun b n => b.toNat + 256 * n) 0

def u32 (raw : Bytes) : Read Nat := littleEndian <$> take raw 4

def u64 (raw : Bytes) : Read Nat := littleEndian <$> take raw 8

def varint (raw : Bytes) : Read Nat := fun at_ =>
  if at_ ≤ raw.length then (sdk.fromVarInt (raw.drop at_)).map fun read => (read.1, at_ + read.2) else none

def script (raw : Bytes) : Read (Nat × Nat) := do
  let len ← varint sdk raw
  let start ← get
  let _ ← take raw len
  return (start, start + len)

end Fields

structure InputAt where
  prev : Hash32
  vout : Nat
  script : Nat × Nat
  sequence : Nat

structure OutputAt where
  satoshis : Nat
  script : Nat × Nat

structure Layout where
  version : Nat
  inputs : List InputAt
  outputs : List OutputAt
  lockTime : Nat

def slice (raw : Bytes) (place : Nat × Nat) : Bytes := (raw.drop place.1).take (place.2 - place.1)

open Fields

def inputAt (raw : Bytes) : Read InputAt := do
  let prev ← take raw 32
  let vout ← u32 raw
  let script ← script sdk raw
  let sequence ← u32 raw
  if h : prev.length = 32 then return ⟨⟨prev.toArray, by simpa using h⟩, vout, script, sequence⟩ else failure

def inputsAt (raw : Bytes) : Nat → Read (List InputAt)
  | 0 => return []
  | count + 1 => do
    let input ← inputAt sdk raw
    let rest ← inputsAt raw count
    return input :: rest

def outputsAt (raw : Bytes) : Nat → Read (List OutputAt)
  | 0 => return []
  | count + 1 => do
    let satoshis ← u64 raw
    let script ← script sdk raw
    let rest ← outputsAt raw count
    return ⟨satoshis, script⟩ :: rest

def Layout.of (raw : Bytes) : Option Layout := do
  let read : Read Layout := do
    let version ← u32 raw
    let inputCount ← varint sdk raw
    let inputs ← inputsAt sdk raw inputCount
    let outputCount ← varint sdk raw
    let outputs ← outputsAt sdk raw outputCount
    let lockTime ← u32 raw
    return ⟨version, inputs, outputs, lockTime⟩
  let (tx, at_) ← read 0
  if at_ = raw.length then some tx else none

def skipInputs (raw : Bytes) : Nat → Read Unit
  | 0 => return ()
  | count + 1 => do
    let _ ← take raw 36
    let _ ← script sdk raw
    let _ ← take raw 4
    skipInputs raw count

def offsetsAt (raw : Bytes) : Nat → Read (List Nat)
  | 0 => return []
  | count + 1 => do
    let at_ ← get
    let _ ← take raw 8
    let _ ← script sdk raw
    let rest ← offsetsAt raw count
    return at_ :: rest

def outputOffsets (raw : Bytes) : Option (List Nat) := do
  let read : Read (List Nat) := do
    let _ ← take raw 4
    let inputCount ← varint sdk raw
    skipInputs sdk raw inputCount
    let outputCount ← varint sdk raw
    offsetsAt sdk raw outputCount
  let (offsets, _) ← read 0
  some offsets

def outputAt (raw : Bytes) (at_ : Nat) : Option (Nat × Bytes) := do
  let read : Read (Nat × Nat × Nat) := do
    let satoshis ← u64 raw
    let script ← script sdk raw
    return (satoshis, script)
  let ((satoshis, script), _) ← read at_
  some (satoshis, slice raw script)

/-! ## The index -/

structure Place where
  offset : Nat
  len : Nat

structure DoorIndex where
  txs : AList fun _ : Hash32 => Place := ∅
  proven : List Hash32 := []

def DoorIndex.add (index : DoorIndex) : Element → DoorIndex
  | .bump proven => { index with proven := index.proven ++ proven }
  | .tx offset txid raw => if (index.txs.lookup txid).isSome then index else { index with txs := index.txs.insert txid ⟨offset, raw.length⟩ }
  | .txidOnly _ => index

def DoorIndex.of (elements : List Element) : DoorIndex := elements.foldl DoorIndex.add {}

def DoorIndex.raw (index : DoorIndex) (beef : Bytes) (txid : Hash32) : Option Bytes :=
  (index.txs.lookup txid).bind fun place => if place.offset + place.len ≤ beef.length then some ((beef.drop place.offset).take place.len) else none

/-! ## The walk -/

inductive DoorLimb where
  | memory
  | work

inductive EngineError where
  | beefParseError (e : String)
  | scriptWalkOverBudget (atTxid : String) (subjectJudged : Bool) (limb : DoorLimb) (what : String)
  | scriptWalkInconclusive (atTxid : String) (subjectJudged : Bool) (reason : String)
  | scriptVerificationFailed (subjectTxid : String) (inputIndex : Nat) (reason : String)

structure DoorBudget where
  memoryLimit : Nat
  maxWorkBytes : Nat
  sigCheckFloor : Nat
  maxMemoryBytes : Nat

structure StreamEstimate where
  bytes : Nat
  overAt : Option Nat
  read : Bool

structure WalkStats where
  unprovenTxs : Nat := 0
  inputsExecuted : Nat := 0
  scriptBytes : Nat := 0
  hashOps : Nat := 0
  sigOps : Nat := 0
  workBytes : Nat := 0
  memoryBytes : Nat := 0
  subjectJudged : Bool := false

structure WalkTrace where
  proven : List String := []
  provenSources : List String := []
  interpreterTripped : Bool := false

structure Walk where
  stats : WalkStats := {}
  trace : WalkTrace := {}
  sources : AList fun _ : Hash32 => List Nat := ∅

abbrev Failure := EngineError × WalkTrace

structure Door (S : Type) where
  sdk : Sdk S
  beef : Bytes
  index : DoorIndex
  budget : DoorBudget
  estimated : Nat
  subject : Hash32

def otherInputs (raw : Bytes) (tx : Layout) (vin : Nat) : List DigestInput :=
  (tx.inputs.zipIdx.filter fun i => i.2 != vin).map fun i => ⟨i.1.prev, i.1.vout, slice raw i.1.script, i.1.sequence⟩

def digestOutputs (raw : Bytes) (tx : Layout) : List DigestOutput := tx.outputs.map fun o => ⟨o.satoshis, slice raw o.script⟩

/-- The spend of an input; `digest`: with the other inputs and the outputs. -/
def spendOf (memoryLimit : Nat) (raw : Bytes) (tx : Layout) (vin : Nat) (input : InputAt) (satoshis : Nat) (locking unlocking : S)
    (digest : Bool) : Spend S where
  sourceTxid := input.prev
  sourceOutputIndex := input.vout
  sourceSatoshis := satoshis
  lockingScript := locking
  transactionVersion := (BitVec.ofNat 32 tx.version).toInt
  otherInputs := if digest then otherInputs raw tx vin else []
  outputs := if digest then digestOutputs raw tx else []
  inputIndex := vin
  unlockingScript := unlocking
  inputSequence := input.sequence
  lockTime := tx.lockTime
  memoryLimit := memoryLimit

namespace Door

variable (d : Door S)

def raw (txid : Hash32) : Option Bytes := d.index.raw d.beef txid

def proven (txid : Hash32) : Bool := d.index.proven.contains txid

def fault (w : Walk) (txid : Hash32) (judged : Bool) (reason : String) : Failure :=
  (.scriptWalkInconclusive (d.sdk.displayHex txid) judged reason, w.trace)

def overBudget (w : Walk) (txid : Hash32) (judged : Bool) (limb : DoorLimb) (what : String) : Failure :=
  (.scriptWalkOverBudget (d.sdk.displayHex txid) judged limb what, w.trace)

def refused (w : Walk) (txid : Hash32) (vin : Nat) (reason : String) : Failure :=
  (.scriptVerificationFailed (d.sdk.displayHex txid) vin reason, w.trace)

def notPushOnly : String := "Unlocking scripts can only contain push operations, and no other opcodes."

def sourceOffsets (w : Walk) (prev : Hash32) (sourceRaw : Bytes) : Option (List Nat × Walk) :=
  match w.sources.lookup prev with
  | some offsets => some (offsets, w)
  | none => (outputOffsets d.sdk sourceRaw).map fun offsets => (offsets, { w with sources := w.sources.insert prev offsets })

def checkedAdd (a b : Nat) : Option Nat := if a + b ≤ u64Max then some (a + b) else none

def inputName (txid : Hash32) (vin : Nat) : String := "input " ++ toString vin ++ " of transaction " ++ d.sdk.displayHex txid

def runScripts (w : Walk) (txid : Hash32) (raw : Bytes) (tx : Layout) (vin : Nat) (input : InputAt) (satoshis : Nat) (locking : Bytes)
    (digest : Bool) : Except Failure Walk :=
  match d.sdk.fromBinary locking with
  | .error e => .error (d.fault w txid w.stats.subjectJudged ("locking script of " ++ d.sdk.displayHex input.prev ++ ": " ++ e))
  | .ok lockingScript =>
    match d.sdk.fromBinary (slice raw input.script) with
    | .error e => .error (d.fault w txid w.stats.subjectJudged ("unlocking script of " ++ d.sdk.displayHex txid ++ ": " ++ e))
    | .ok unlockingScript =>
      match d.sdk.validate (spendOf d.budget.memoryLimit raw tx vin input satoshis lockingScript unlockingScript digest) with
      | .ok true => .ok { w with stats := { w.stats with inputsExecuted := w.stats.inputsExecuted + 1 } }
      | .ok false => .error (d.refused w txid vin "script evaluated to false")
      | .error e =>
        if e.isResourceLimit then
          .error (d.overBudget { w with trace := { w.trace with interpreterTripped := true } } txid w.stats.subjectJudged .work
            (d.inputName txid vin ++ ": " ++ e.message))
        else .error (d.refused w txid vin e.message)

def charge (w : Walk) (txid : Hash32) (raw : Bytes) (vin : Nat) (unlocking locking : Bytes) : Except Failure (Walk × Bool) :=
  let held := min (d.estimated + scriptParseCharge unlocking locking) u64Max
  if d.budget.maxMemoryBytes < held then
    .error (d.overBudget w txid w.stats.subjectJudged .memory
      ("estimated memory " ++ toString held ++ " bytes exceeds the door memory budget of " ++ toString d.budget.maxMemoryBytes ++
        " (the scripts of input " ++ toString vin ++ " of " ++ d.sdk.displayHex txid ++ ", before their parse)"))
  else
    let w := { w with stats := { w.stats with memoryBytes := max w.stats.memoryBytes held } }
    match scriptCensus d.sdk unlocking locking d.budget.memoryLimit with
    | .error e => .error (d.fault w txid w.stats.subjectJudged (d.inputName txid vin ++ ": " ++ e))
    | .ok (bytes, hashOps, sigOps) =>
      let work := (w.stats.workBytes + bytes + hashOps * d.budget.memoryLimit + sigOps * max raw.length d.budget.sigCheckFloor) % 2 ^ 64
      let w := { w with stats := { w.stats with
        scriptBytes := w.stats.scriptBytes + bytes
        hashOps := w.stats.hashOps + hashOps
        sigOps := w.stats.sigOps + sigOps
        workBytes := work } }
      if d.budget.maxWorkBytes < work then
        .error (d.overBudget w txid w.stats.subjectJudged .work
          ("estimated work " ++ toString work ++ " bytes exceeds the door budget of " ++ toString d.budget.maxWorkBytes ++
            " (input " ++ toString vin ++ " of " ++ d.sdk.displayHex txid ++ ")"))
      else .ok (w, sigOps != 0)

def runInput (w : Walk) (total : Nat) (txid : Hash32) (raw : Bytes) (tx : Layout) (vin : Nat) (input : InputAt) : Except Failure (Walk × Nat) :=
  match d.raw input.prev with
  | none => .error (d.fault w txid w.stats.subjectJudged (d.inputName txid vin ++ " has no source transaction"))
  | some sourceRaw =>
    match d.sourceOffsets w input.prev sourceRaw with
    | none => .error (d.fault w txid w.stats.subjectJudged (d.inputName txid vin ++ ": source transaction does not parse"))
    | some (offsets, w) =>
      match offsets[input.vout]?.bind (outputAt d.sdk sourceRaw) with
      | none => .error (d.fault w txid w.stats.subjectJudged (d.inputName txid vin ++ ": source output index out of bounds"))
      | some (satoshis, locking) =>
        match checkedAdd total satoshis with
        | none => .error (d.fault w txid w.stats.subjectJudged ("satoshi total overflows in transaction " ++ d.sdk.displayHex txid))
        | some total =>
          let sources := if d.proven input.prev then [d.sdk.displayHex input.prev] else []
          let w := { w with trace := { w.trace with provenSources := w.trace.provenSources ++ sources } }
          if pushOnly (slice raw input.script) then
            match d.charge w txid raw vin (slice raw input.script) locking with
            | .error failure => .error failure
            | .ok (w, digest) =>
              match d.runScripts w txid raw tx vin input satoshis locking digest with
              | .error failure => .error failure
              | .ok w => .ok (w, total)
          else .error (d.refused w txid vin notPushOnly)

def runInputs (txid : Hash32) (raw : Bytes) (tx : Layout) : Walk → Nat → Nat → List InputAt → Except Failure (Walk × Nat)
  | w, total, _, [] => .ok (w, total)
  | w, total, vin, input :: rest =>
    match d.runInput w total txid raw tx vin input with
    | .error failure => .error failure
    | .ok (w, total) => runInputs txid raw tx w total (vin + 1) rest

def sumOutputs (total : Nat) : List OutputAt → Option Nat
  | [] => some total
  | o :: rest => (checkedAdd total o.satoshis).bind fun total => sumOutputs total rest

def judge (w : Walk) (txid : Hash32) (raw : Bytes) (tx : Layout) : Except Failure (Walk × List Hash32) :=
  match d.runInputs txid raw tx { w with stats := { w.stats with unprovenTxs := w.stats.unprovenTxs + 1 } } 0 0 tx.inputs with
  | .error failure => .error failure
  | .ok (w, inputTotal) =>
    let w := { w with stats := { w.stats with subjectJudged := w.stats.subjectJudged || txid = d.subject } }
    match sumOutputs 0 tx.outputs with
    | none => .error (d.fault w txid w.stats.subjectJudged ("satoshi total overflows in transaction " ++ d.sdk.displayHex txid))
    | some outputTotal =>
      if inputTotal < outputTotal then
        .error (d.fault w txid w.stats.subjectJudged ("transaction " ++ d.sdk.displayHex txid ++ " creates " ++ toString outputTotal ++
          " sats from " ++ toString inputTotal ++ " sats of inputs"))
      else .ok (w, tx.inputs.map InputAt.prev)

def visit (w : Walk) (txid : Hash32) : Except Failure (Walk × List Hash32) :=
  match d.raw txid with
  | none => .error (d.fault w txid w.stats.subjectJudged ("transaction " ++ d.sdk.displayHex txid ++ " is not in the BEEF"))
  | some raw =>
    if d.proven txid then .ok ({ w with trace := { w.trace with proven := w.trace.proven ++ [d.sdk.displayHex txid] } }, [])
    else
      match Layout.of d.sdk raw with
      | none => .error (d.fault w txid w.stats.subjectJudged ("transaction " ++ d.sdk.displayHex txid ++ " does not parse"))
      | some tx => d.judge w txid raw tx

def sources (txid : Hash32) : List Hash32 :=
  if d.proven txid then []
  else (((d.raw txid).bind (Layout.of d.sdk)).map fun tx => tx.inputs.map InputAt.prev).getD []

def preVisit (_ : Unit) (txid : Hash32) : Except EngineError (Unit × List Hash32) :=
  if d.proven txid then .ok ((), [])
  else
    match d.raw txid with
    | none => .ok ((), [])
    | some raw =>
      match Layout.of d.sdk raw with
      | none => .ok ((), [])
      | some tx =>
        match tx.inputs.findIdx? fun input => !pushOnly (slice raw input.script) with
        | some vin => .error (.scriptVerificationFailed (d.sdk.displayHex txid) vin notPushOnly)
        | none => .ok ((), (tx.inputs.map InputAt.prev).filter fun prev => (d.raw prev).isSome)

/-! ### Fuel -/

def keys : List Hash32 := d.index.txs.keys

variable {txid : Hash32}

theorem raw_none (h : txid ∉ d.keys) : d.raw txid = none := by
  have hlookup : d.index.txs.lookup txid = none := AList.lookup_eq_none.mpr h
  rw [raw, DoorIndex.raw, hlookup]
  rfl

theorem sources_outside (txid : Hash32) (h : txid ∉ d.keys) : (d.sources txid).length = 0 := by
  rw [sources, d.raw_none h]
  split <;> rfl

variable {d}

theorem judge_next {w w' : Walk} {raw : Bytes} {tx : Layout} {next : List Hash32} (h : d.judge w txid raw tx = .ok (w', next)) :
    next = tx.inputs.map InputAt.prev := by
  unfold judge at h
  cases hrun : d.runInputs txid raw tx { w with stats := { w.stats with unprovenTxs := w.stats.unprovenTxs + 1 } } 0 0 tx.inputs with
  | error failure => rw [hrun] at h; cases h
  | ok r =>
    rw [hrun] at h
    cases hsum : sumOutputs 0 tx.outputs with
    | none => simp only [hsum] at h; cases h
    | some outputTotal =>
      simp only [hsum] at h
      by_cases hvalue : r.2 < outputTotal
      · rw [if_pos hvalue] at h
        cases h
      · rw [if_neg hvalue] at h
        cases h
        rfl

theorem sources_unproven {raw : Bytes} {tx : Layout} (hproven : d.proven txid = false) (hraw : d.raw txid = some raw)
    (hlayout : Layout.of d.sdk raw = some tx) : d.sources txid = tx.inputs.map InputAt.prev := by
  simp [sources, hproven, hraw, hlayout]

theorem visit_next {w w' : Walk} {next : List Hash32} (h : d.visit w txid = .ok (w', next)) : next = d.sources txid := by
  unfold visit at h
  cases hraw : d.raw txid with
  | none => rw [hraw] at h; cases h
  | some raw =>
    rw [hraw] at h
    cases hproven : d.proven txid with
    | true =>
      simp only [hproven, if_true] at h
      cases h
      rw [sources, if_pos hproven]
    | false =>
      simp only [hproven, Bool.false_eq_true, if_false] at h
      cases hlayout : Layout.of d.sdk raw with
      | none => simp only [hlayout] at h; cases h
      | some tx =>
        simp only [hlayout] at h
        rw [judge_next h, sources_unproven hproven hraw hlayout]

theorem preVisit_next {u u' : Unit} {next : List Hash32} (h : d.preVisit u txid = .ok (u', next)) :
    next.length ≤ (d.sources txid).length := by
  unfold preVisit at h
  unfold sources
  split at h
  · cases h
    exact Nat.zero_le _
  · rename_i hproven
    rw [if_neg hproven]
    split at h
    · cases h
      exact Nat.zero_le _
    · rename_i raw hraw
      split at h
      · cases h
        exact Nat.zero_le _
      · rename_i tx hlayout
        split at h
        · cases h
        · cases h
          simpa [hraw, hlayout] using List.length_filter_le _ (tx.inputs.map InputAt.prev)

variable (d)

def fuel (seen : List Hash32) : Nat := 1 + Worklist.unspent (fun txid => (d.sources txid).length) seen d.keys

theorem visits_end (seen : List Hash32) (w : Walk) : (Worklist.run d.visit (d.fuel seen) [d.subject] seen w).isSome = true :=
  Worklist.run_isSome (fun _ _ _ _ h => Nat.le_of_eq (congrArg List.length (visit_next h))) d.sources_outside _ _ _ _ (Nat.le_refl _)

theorem preVisits_end (seen : List Hash32) : (Worklist.run d.preVisit (d.fuel seen) [d.subject] seen ()).isSome = true :=
  Worklist.run_isSome (fun _ _ _ _ h => preVisit_next h) d.sources_outside _ _ _ _ (Nat.le_refl _)

def firstNotPushOnly (seen : List Hash32) : Option EngineError :=
  match (Worklist.run d.preVisit (d.fuel seen) [d.subject] seen ()).get (d.preVisits_end seen) with
  | .ok _ => none
  | .error refused => some refused

def walkFrom (seen : List Hash32) (w : Walk) : Except Failure Walk :=
  (Worklist.run d.visit (d.fuel seen) [d.subject] seen w).get (d.visits_end seen w)

end Door

def wireTxid (txid : String) : Option Hash32 :=
  (sdk.fromHex txid).bind fun bytes =>
    if h : bytes.length = 32 then some ⟨bytes.reverse.toArray, by simpa using h⟩ else none

/-- `walk_trusting`, over what the sizing read estimated (`sized`). -/
def walkTrusting (beef : Bytes) (subjectTxid : String) (budget : DoorBudget) (sized : StreamEstimate) (trusted : List String)
    (trace : WalkTrace) : Except Failure (WalkStats × WalkTrace) :=
  if sized.overAt.isSome then
    .error (.scriptWalkOverBudget subjectTxid false .memory
      ("estimated memory " ++ toString sized.bytes ++ " bytes exceeds the door memory budget of " ++ toString budget.maxMemoryBytes ++
        " (the element at byte " ++ toString (sized.overAt.getD 0) ++ " of the BEEF)"), trace)
  else
    match sdk.decode beef with
    | .error e => .error (.beefParseError e, trace)
    | .ok elements =>
      if sized.read then
        match wireTxid sdk subjectTxid with
        | none => .error (.scriptWalkInconclusive subjectTxid false ("transaction " ++ subjectTxid ++ " is not in the BEEF"), trace)
        | some subject =>
          let d : Door S := ⟨sdk, beef, DoorIndex.of elements, budget, sized.bytes, subject⟩
          let seen := trusted.filterMap (wireTxid sdk)
          match d.firstNotPushOnly seen with
          | some refused => .error (refused, trace)
          | none =>
            match d.walkFrom seen { stats := { memoryBytes := sized.bytes }, trace := trace } with
            | .error failure => .error failure
            | .ok w => .ok (w.stats, w.trace)
      else
        .error (.scriptWalkOverBudget subjectTxid false .memory
          "the sizing read did not follow a BEEF the stream read: memory not estimated", trace)

end OverlayEngine.ScriptDoor
