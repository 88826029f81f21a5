import OverlayEngine.Pot.SpendProof

/-!
# What a maintenance pass writes

The discovery and the confirmation pass, and the three backfills of what a row's
stored bytes say, each between a candidate scan and its statements. Other writers
run between any two of its turns; an eviction moves rows to their twins and a
readmission moves them back.
-/

namespace OverlayEngine.Pot.PassWrites

open ArcadeReorg (eqIgnoreAsciiCase)
open SpendProof (Transaction Sdk Fetcher Discover Confirm)

/-! ## What the stored bytes say -/

structure CovenantParams where
  pubA : Bytes
  pubB : Bytes
  pubTower : Bytes
  payPkhA : Bytes
  payPkhB : Bytes
  rakePkh : Bytes
  stakeA : Nat
  stakeB : Nat
  feeSats : Nat
  recoveryHeight : Nat

def u64Max : Nat := 18446744073709551615

def checkedAdd (a b : Nat) : Option Nat := if a + b ≤ u64Max then some (a + b) else none

structure Reader where
  extractCovenantParams : Bytes → Option CovenantParams
  isPotCovenantScript : Bytes → Bool
  isBare2of3Lock : Bytes → Bool
  isP2pkhScript : Bytes → Bool
  hexEncode : Bytes → String
  hexDecode : String → Option Bytes
  p2pkhLock : Bytes → Bytes
  classifyCovenant : CovenantParams → Transaction → Nat → Option String
  settleSignersForSpend : CovenantParams → Nat → Transaction → Nat → Option String

/-- `transaction_from_beef`: the stored body under the id. -/
def transactionFromBeef (beef : Option (List Transaction)) (txid : Txid) : Option Transaction := beef.bind fun bodies => bodies.find? fun tx => tx.id == txid

def potInput (tx : Transaction) (txid : Txid) (outputIndex : Nat) : Option (Nat × Nat) :=
  (tx.inputs.zipIdx.find? fun i => (i.1.sourceTxid.any fun t => eqIgnoreAsciiCase t txid) && i.1.sourceOutputIndex == outputIndex).map
    fun i => (i.2, i.1.sequence)

/-- `write_concluded`. -/
def concluded (verdict : String) (signers : Option String) : VerdictWrite := ⟨verdict, some (signers.getD "unresolved")⟩

namespace Reader

variable (k : Reader)

def arr (n : Nat) (hex : String) : Option Bytes := (k.hexDecode hex).filter fun d => d.length == n

def decodedCovenantParams (r : PotRecord) : Option CovenantParams :=
  if r.lockKind ≠ some "covenant" then none
  else do
    let pubA ← r.pubA.bind (k.arr 33)
    let pubB ← r.pubB.bind (k.arr 33)
    let pubTower ← r.pubTower.bind (k.arr 33)
    let payPkhA ← r.payPkhA.bind (k.arr 20)
    let payPkhB ← r.payPkhB.bind (k.arr 20)
    let rakePkh ← r.rakePkh.bind (k.arr 20)
    let stakeA ← r.stakeA
    let stakeB ← r.stakeB
    let feeSats ← r.feeSats
    let recoveryHeight ← r.recoveryHeight
    some { pubA, pubB, pubTower, payPkhA, payPkhB, rakePkh, stakeA, stakeB, feeSats, recoveryHeight }

/-- `classify_pot_spend_tx`, concluded from the spender's durable bytes. -/
def classifyPotSpendTx (params : CovenantParams) (potSats : Nat) (r : PotRecord) (tx : Transaction) : Option VerdictWrite :=
  if checkedAdd params.stakeA params.stakeB ≠ some potSats then none
  else (potInput tx r.txid r.outputIndex).bind fun input =>
    (k.classifyCovenant params tx input.2).map fun verdict => concluded verdict (k.settleSignersForSpend params potSats tx input.1)

def storedSpendVerdict (r : PotRecord) (spender : Txid) (beef : Option (List Transaction)) : Option VerdictWrite := do
  let params ← k.decodedCovenantParams r
  let potSats ← r.potSats
  let tx ← transactionFromBeef beef spender
  k.classifyPotSpendTx params potSats r tx

/-- What `backfill_decoded_params` upserts for a row whose funding bytes are held, and whether the lock gave its parameters. -/
def decoded (row : PotRecord) (tx : Transaction) : PotRecord × Bool :=
  let output := tx.outputs[row.outputIndex]?
  let decoded : PotRecord :=
    { txid := row.txid, outputIndex := row.outputIndex, potSats := output.map TxOutput.satoshis, paramsDecoded := true }
  match output with
  | none => (decoded, false)
  | some o => match k.extractCovenantParams o.lockingScript with
    | some p =>
      ({ decoded with
          lockKind := some "covenant"
          pubA := some (k.hexEncode p.pubA)
          pubB := some (k.hexEncode p.pubB)
          pubTower := some (k.hexEncode p.pubTower)
          payPkhA := some (k.hexEncode p.payPkhA)
          payPkhB := some (k.hexEncode p.payPkhB)
          rakePkh := some (k.hexEncode p.rakePkh)
          stakeA := some p.stakeA
          stakeB := some p.stakeB
          feeSats := some p.feeSats
          recoveryHeight := some p.recoveryHeight }, true)
    | none =>
      if k.isPotCovenantScript o.lockingScript then ({ decoded with lockKind := some "covenant" }, false)
      else if k.isBare2of3Lock o.lockingScript then ({ decoded with lockKind := some "bare" }, false)
      else if k.isP2pkhScript o.lockingScript then ({ decoded with lockKind := some "p2pkh" }, false)
      else (decoded, false)

/-- The verdict group `backfill_settle_signers` writes; an anomaly is latched out as unresolved. -/
def signersGroup (row : PotRecord) (verdict : String) (spender : Txid) (beef : Option (List Transaction)) : Option VerdictWrite :=
  match k.decodedCovenantParams row, row.potSats with
  | some params, some potSats =>
    if checkedAdd params.stakeA params.stakeB ≠ some potSats then some (concluded verdict none)
    else (transactionFromBeef beef spender).map fun tx =>
      match potInput tx row.txid row.outputIndex with
      | none => concluded verdict none
      | some input => concluded ((k.classifyCovenant params tx input.2).getD verdict) (k.settleSignersForSpend params potSats tx input.1)
  | _, _ => some (concluded verdict none)

/-- One home's side of `spend_payouts`. -/
def paidTo (tx : Transaction) (pkh : Option String) : Option Nat :=
  (pkh.bind (k.arr 20)).map fun pkh =>
    (tx.outputs.filter fun o => o.lockingScript == k.p2pkhLock pkh).foldl (fun acc o => min (acc + o.satoshis) u64Max) 0

end Reader

/-! ## The backfills -/

structure Env extends SpendProof.Env where
  beef : Option (List Transaction) := none

inductive Candidates where
  | undecoded
  | unclassified
  | signers
  | payouts
  deriving DecidableEq

/-- The scan's `WHERE`. -/
def Candidates.keep : Candidates → Row → Bool
  | .undecoded, r => !r.paramsDecoded
  | .unclassified, r =>
    r.spent && r.lockKind == some "covenant" && (r.verdict.isNone || r.verdictTxid != r.spendingTxid) && r.spentConfirmed && r.pubA.isSome
  | .signers, r => r.verdict.isSome && r.verdictTxid.isSome && r.verdictTxid == r.spendingTxid && r.settleSigners.isNone
  | .payouts, r =>
    r.spendingTxid.isSome && r.spenderPayASats.isNone && r.spenderPayBSats.isNone && (r.payPkhA.isSome || r.payPkhB.isSome)

inductive BackfillStage where
  | scan (set : Candidates)
  | next (set : Candidates)
  | store (row decoded : PotRecord) (covenant : Bool)
  | judge (row decoded : PotRecord) (spender : Txid)
  | latch (set : Candidates) (row : PotRecord) (call : Call)
  | finished

structure Backfill where
  todo : List PotRecord := []
  stage : BackfillStage

structure Write where
  outpoint : Outpoint
  read : Option Txid
  call : Call
  deriving DecidableEq

def PotRecord.outpoint (r : PotRecord) : Outpoint := ⟨r.txid, r.outputIndex⟩

def land (s : SpendProof.Store) (env : SpendProof.Env) : Option Write → SpendProof.Store
  | some a => s.tryExec env a.outpoint a.call
  | none => s

namespace Backfill

variable (k : Reader)

def examine (set : Candidates) (row : PotRecord) (env : Env) : BackfillStage :=
  match set with
  | .undecoded => match transactionFromBeef env.beef row.txid with
    | some tx => .store row (k.decoded row tx).1 (k.decoded row tx).2
    | none => .next set
  | .unclassified => match row.spendingTxid with
    | some spender => match k.storedSpendVerdict row spender env.beef with
      | some group => .latch set row (.markVerdictForSpender spender group)
      | none => .next set
    | none => .next set
  | .signers => match row.verdict, row.spendingTxid with
    | some verdict, some spender => match k.signersGroup row verdict spender env.beef with
      | some group => .latch set row (.markVerdictForSpender spender group)
      | none => .next set
    | _, _ => .next set
  | .payouts => match row.spendingTxid with
    | some spender => match transactionFromBeef env.beef spender with
      | some tx =>
        let payA := k.paidTo tx row.payPkhA
        let payB := k.paidTo tx row.payPkhB
        if payA.isNone && payB.isNone then .next set else .latch set row (.storeSpenderPayouts spender payA payB)
      | none => .next set
    | none => .next set

def afterStore (row decoded : PotRecord) (covenant : Bool) (env : Env) : BackfillStage :=
  match row.spendingTxid with
  | some spender => if env.faulted = false ∧ row.spent = true ∧ covenant = true then .judge row decoded spender else .next .undecoded
  | none => .next .undecoded

def write (b : Backfill) : Option Write :=
  match b.stage with
  | .store row decoded _ => some ⟨PotRecord.outpoint row, row.spendingTxid, .storeRecord decoded true⟩
  | .latch _ row call => some ⟨PotRecord.outpoint row, row.spendingTxid, call⟩
  | _ => none

def goto (b : Backfill) (env : Env) (s : SpendProof.Store) : Backfill :=
  match b.stage with
  | .scan set =>
    -- a scan that faults ends the pass
    if env.faulted then { b with stage := .finished }
    else { todo := env.picked.filterMap fun o => ((s.rows o).filter set.keep).map Row.intoRecord, stage := .next set }
  | .next set => match b.todo with
    | [] => { b with stage := if set = .undecoded then .scan .unclassified else .finished }
    | row :: rest => { todo := rest, stage := examine k set row env }
  | .store row decoded covenant => { b with stage := afterStore row decoded covenant env }
  | .judge row decoded spender => match k.storedSpendVerdict decoded spender env.beef with
    | some group => { b with stage := .latch .undecoded row (.markVerdictForSpender spender group) }
    | none => { b with stage := .next .undecoded }
  | .latch set _ _ => { b with stage := .next set }
  | .finished => b

def step (b : Backfill) (env : Env) (s : SpendProof.Store) : SpendProof.Store × Backfill := (land s env.toEnv b.write, b.goto k env s)

end Backfill

def backfillDecodedParams : Backfill := { stage := .scan .undecoded }
def backfillSettleSigners : Backfill := { stage := .scan .signers }
def backfillSpenderPayouts : Backfill := { stage := .scan .payouts }

/-! ## The statements of the two courier passes -/

def discoverWrite (d : Discover) (env : SpendProof.Env) : Option Write :=
  match d.stage with
  | .hop c join o _ => some ⟨o, none, .markSpentIfUnpointed (Reverify.lowercase c.outpoint.txid) (some join.final)⟩
  | .write c spender => some ⟨c.outpoint, none, .markSpent spender false env.verdict none none⟩
  | _ => none

def confirmWrite {μ : Type} (x : Sdk μ) (p : Confirm) (env : SpendProof.Env) : Option Write :=
  match p.stage with
  | .confirm c spender hex => some ⟨c.outpoint, c.spendingTxid, .markConfirmedForSpender spender (Confirm.spentHeight x hex)⟩
  | .displace c recorded actual tx hex =>
    some ⟨c.outpoint, c.spendingTxid, .displaceSpendFor recorded actual (Confirm.spentHeight x hex) (some tx.final)⟩
  | .classify c spender after => env.verdict.map fun v => ⟨c.outpoint, if after then some spender else c.spendingTxid, .markVerdictForSpender spender v⟩
  | _ => none

/-! ## Every interleaving -/

inductive Pass where
  | discover (d : Discover)
  | confirm (p : Confirm)
  | backfill (b : Backfill)

section
variable {μ : Type} (x : Sdk μ) (tracked : Bool) (k : Reader)

def Pass.step (env : Env) (s : SpendProof.Store) : Pass → SpendProof.Store × Pass
  | .discover d => ((d.step x env.toEnv s).1, .discover (d.step x env.toEnv s).2)
  | .confirm p => ((p.step x tracked env.toEnv s).1, .confirm (p.step x tracked env.toEnv s).2)
  | .backfill b => ((b.step k env s).1, .backfill (b.step k env s).2)

def Pass.write (env : Env) (p : Pass) : Option Write :=
  if env.faulted then none
  else match p with
    | .discover d => discoverWrite d env.toEnv
    | .confirm p => confirmWrite x p env.toEnv
    | .backfill b => b.write

structure World where
  store : SpendProof.Store := {}
  twins : Outpoint → List Row := fun _ => []
  passes : List Pass := []

inductive Pass.Fresh : Pass → Prop where
  | discover (fetcher : Nat) : Fresh (.discover { fetcher := fetcher })
  | confirm (fetcher : Nat) : Fresh (.confirm { fetcher := fetcher })
  | decodedParams : Fresh (.backfill backfillDecodedParams)
  | settleSigners : Fresh (.backfill backfillSettleSigners)
  | spenderPayouts : Fresh (.backfill backfillSpenderPayouts)

inductive Move where
  | statement (o : Outpoint) (now : Nat) (c : Call)
  | evict (txid : Txid)
  | admitAgain (txid : Txid)
  | courier (i : Nat) (f : Fetcher)
  | begin (p : Pass) (fresh : p.Fresh)
  | turn (i : Nat) (env : Env)

namespace World

/-- `move_sql`. -/
def evict (w : World) (txid : Txid) : World :=
  { w with
    store := { w.store with rows := fun o => if o.txid = txid then none else w.store.rows o }
    twins := fun o => if o.txid = txid then w.twins o ++ (w.store.rows o).toList else w.twins o }

/-- `restore_sql`: a row that is there stands, and the twins are dropped. -/
def admitAgain (w : World) (txid : Txid) : World :=
  { w with
    store := { w.store with rows := fun o => if o.txid = txid then (w.store.rows o).or (w.twins o).head? else w.store.rows o }
    twins := fun o => if o.txid = txid then [] else w.twins o }

def step (w : World) : Move → World
  | .statement o now c => { w with store := w.store.exec o now c }
  | .evict txid => w.evict txid
  | .admitAgain txid => w.admitAgain txid
  | .courier i f => { w with store := w.store.setFetcher i f }
  | .begin p _ => { w with passes := w.passes ++ [p] }
  | .turn i env => match w.passes[i]? with
    | some p => { w with store := (p.step x tracked k env w.store).1, passes := w.passes.set i (p.step x tracked k env w.store).2 }
    | none => w

def writing (w : World) : Move → Option (Write × Nat)
  | .turn i env => (w.passes[i]?.bind fun p => p.write x env).map fun a => (a, env.now)
  | _ => none

def run (w : World) (moves : List Move) : World := moves.foldl (step x tracked k) w

end World

end

end OverlayEngine.Pot.PassWrites
