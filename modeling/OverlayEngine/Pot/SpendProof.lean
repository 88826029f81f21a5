import Mathlib.Logic.Function.Basic
import OverlayEngine.Pot.PotRow
import OverlayEngine.Worker.Reverify

/-!
# Who confirms a pot's spend

The spend hook, the discovery pass and the confirmation pass, each taking one
read or one statement a turn, beside the statements of the reorg reconcile. What
the couriers, the header source and the other tables answer comes with the turn.
-/

namespace OverlayEngine.Pot.SpendProof

open ArcadeReorg (eqIgnoreAsciiCase)
open Reverify (lowercase)

/-! ## Transactions, proofs and what the worker saw -/

structure Transaction extends Tx where
  lockTime : Nat := 0
  deriving DecidableEq

namespace Transaction

def final (tx : Transaction) : Bool := !(decide (0 < tx.lockTime) && tx.inputs.any fun i => decide (i.sequence < 4294967295))

/-- `tx_consumes_outpoint`. -/
def consumes (tx : Transaction) (o : Outpoint) : Bool :=
  tx.inputs.any fun i => i.sourceOutputIndex == o.outputIndex && i.sourceTxid.any fun t => eqIgnoreAsciiCase t o.txid

end Transaction

inductive RootAnswer where
  | ok (valid : Bool)
  | blockNotFound
  | fault
  deriving DecidableEq

inductive Event where
  | answered (height : Nat) (root : String) (answer : RootAnswer)
  | held (tx : Transaction)
  deriving DecidableEq

structure SpendingBeef (μ : Type) where
  subject : Transaction
  bumps : List μ := []

/-- What the transaction library reads of bytes and of merkle paths (`μ`). -/
structure Sdk (μ : Type) where
  fromHex : String → Option Transaction
  proofFromHex : String → Option μ
  hasLeaf : μ → Txid → Bool
  computeRoot : μ → Txid → Option String
  blockHeight : μ → Nat
  isPotCovenantScript : Bytes → Bool
  isP2pkhScript : Bytes → Bool

def courierProofMaxBytes : Nat := (8 * 1024 - 2) / 2

inductive BumpVerdict where
  | valid
  | invalid
  | noHeader
  | fault
  deriving DecidableEq

inductive RungStep where
  | accept
  | nextRung
  | abort

def rungStep : BumpVerdict → RungStep
  | .valid => .accept
  | .invalid => .nextRung
  | .noHeader => .nextRung
  | .fault => .abort

def BumpVerdict.of : RootAnswer → BumpVerdict
  | .ok true => .valid
  | .ok false => .invalid
  | .blockNotFound => .noHeader
  | .fault => .fault

inductive Body where
  | notFound
  | fault
  | raw (hex : String)

namespace Sdk

variable {μ : Type} (x : Sdk μ)

def merklePathFromHex (hex : String) : Option μ := if hex.utf8ByteSize > courierProofMaxBytes * 2 then none else x.proofFromHex hex

def findBump (beef : SpendingBeef μ) (txid : Txid) : Option μ := beef.bumps.find? fun b => x.hasLeaf b txid

/-- `bump_verifies`, with the read it makes of the header source. -/
def bumpVerifies (bump : μ) (txid : Txid) (answer : RootAnswer) : Bool × List Event :=
  match x.computeRoot bump txid with
  | none => (false, [])
  | some root => (decide (answer = .ok true), [.answered (x.blockHeight bump) root answer])

def spendConfirmedHeight (tracked : Bool) (beef : SpendingBeef μ) (txid : Txid) (answer : RootAnswer) : Option Nat × List Event :=
  match tracked, x.findBump beef txid with
  | true, some bump =>
    let v := x.bumpVerifies bump txid answer
    (if v.1 then some (x.blockHeight bump) else none, v.2)
  | _, _ => (none, [])

/-- `verify_bump_outcome`, with the read it makes of the header source. -/
def verifyBumpOutcome (tracked : Bool) (hex : String) (txid : Txid) (answer : RootAnswer) : BumpVerdict × List Event :=
  match tracked, x.merklePathFromHex hex with
  | true, some bump => match x.computeRoot bump txid with
    | none => (.invalid, [])
    | some root => (.of answer, [.answered (x.blockHeight bump) root answer])
  | _, _ => (.invalid, [])

/-- `fetch_raw_hex`: the first provider whose bytes hash to the id, parsed. -/
def fetchRawHex (txid : Txid) : List Body → Option Transaction
  | [] => none
  | .raw hex :: rest => match x.fromHex hex with
    | some tx => if eqIgnoreAsciiCase tx.id txid then some tx else fetchRawHex txid rest
    | none => fetchRawHex txid rest
  | _ :: rest => fetchRawHex txid rest

end Sdk

/-! ## The courier -/

inductive Rung where
  | arcade
  | bitails
  | woc
  deriving DecidableEq

def proofRungs : List Rung := [.arcade, .bitails, .woc]

inductive RungAnswer where
  | nothing
  | unmined
  | bump (hex : String)

inductive Outcome where
  | proof (hex : String)
  | unproven
  | fault
  deriving DecidableEq

structure ProofMemo where
  outcome : Outcome
  exhaustive : Bool

structure Fetcher where
  budget : Nat := 0
  proofMemo : List (Txid × ProofMemo) := []
  ancestorFaults : List Txid := []

namespace Fetcher

def memoOf (f : Fetcher) (key : Txid) : Option ProofMemo := f.proofMemo.lookup key

def remember (f : Fetcher) (key : Txid) (memo : ProofMemo) : Fetcher := { f with proofMemo := (key, memo) :: f.proofMemo }

def spend (f : Fetcher) : Fetcher := { f with budget := f.budget - 1 }

end Fetcher

/-- `spender_binding_raw` answers the spender's own bytes where they consume the outpoint. -/
inductive Binding where
  | bound (tx : Transaction)
  | refused
  | fault

def Sdk.spenderBindingRaw {μ : Type} (x : Sdk μ) (f : Fetcher) (spender : Txid) (o : Outpoint) (bodies : List Body) : Binding × Fetcher :=
  if f.budget = 0 then (.fault, f)
  else match x.fetchRawHex spender bodies with
    | none => (.fault, f.spend)
    | some tx => (if tx.consumes o then .bound tx else .refused, f.spend)

/-! ## The store, and what a turn is given -/

structure Store where
  rows : Outpoint → Option Row := fun _ => none
  fetchers : Nat → Fetcher := fun _ => {}
  log : List Event := []

namespace Store

def exec (s : Store) (o : Outpoint) (now : Nat) (c : Call) : Store := { s with rows := Function.update s.rows o (Pot.exec (s.rows o) now c) }

def saw (s : Store) (events : List Event) : Store := { s with log := events ++ s.log }

def setFetcher (s : Store) (i : Nat) (f : Fetcher) : Store := { s with fetchers := Function.update s.fetchers i f }

def remember (s : Store) (i : Nat) (key : Txid) (memo : ProofMemo) : Store := s.setFetcher i ((s.fetchers i).remember key memo)

end Store

structure Admission where
  record : PotRecord
  fills : Bool := true
  unspent : record.spent = false ∧ record.spendingTxid = none ∧ record.spentConfirmed = false := by decide

def Admission.outpoint (a : Admission) : Outpoint := ⟨a.record.txid, a.record.outputIndex⟩

structure JoinBeef where
  subject : Transaction
  carried : List Tx := []

structure Env where
  now : Nat := 0
  answer : RootAnswer := .fault
  rung : RungAnswer := .nothing
  faulted : Bool := false
  picked : List Outpoint := []
  hint : Option (Option Txid) := none
  script : List Txid := []
  bodies : List Body := []
  verdict : Option VerdictWrite := none
  heal : Option Admission := none
  join : Option JoinBeef := none
  rotation : Nat := 0

def Store.tryExec (s : Store) (env : Env) (o : Outpoint) (c : Call) : Store := if env.faulted then s else s.exec o env.now c

/-! ## One proof asked of the courier -/

inductive AskStage where
  | start
  | rungs (left : List Rung) (unminedWord : Bool)

/-- A `memoized_proof` in flight. -/
structure Ask where
  fetcher : Nat
  txid : Txid
  arcadeStop : Bool := true
  charge : Bool := true
  stage : AskStage := .start

/-- `verified_proof_for_detailed`. -/
def Ask.detailed (fetcher : Nat) (txid : Txid) : Ask := { fetcher, txid }

namespace Ask

def key (a : Ask) : Txid := lowercase a.txid

def goOn (a : Ask) (left : List Rung) (unminedWord : Bool) : Ask ⊕ Outcome := .inl { a with stage := .rungs left unminedWord }

def settle (a : Ask) (outcome : Outcome) (exhaustive : Bool) (s : Store) : Store × (Ask ⊕ Outcome) :=
  (s.remember a.fetcher a.key ⟨outcome, exhaustive⟩, .inr outcome)

def begin (a : Ask) (s : Store) : Store × (Ask ⊕ Outcome) :=
  let f := s.fetchers a.fetcher
  match f.memoOf a.key with
  | some m => (s, .inr (if a.arcadeStop = false ∧ m.exhaustive = false ∧ m.outcome = .unproven then .fault else m.outcome))
  | none =>
    if a.charge = true ∧ a.key ∈ f.ancestorFaults then (s, .inr .fault)
    else if a.charge = true ∧ f.budget = 0 then a.settle .unproven true s
    else
      let pending := f.remember a.key ⟨.fault, true⟩
      (s.setFetcher a.fetcher (if a.charge then pending.spend else pending), a.goOn proofRungs false)

variable {μ : Type} (x : Sdk μ) (tracked : Bool)

def look (a : Ask) (rung : Rung) (left : List Rung) (unminedWord : Bool) (env : Env) (s : Store) : Store × (Ask ⊕ Outcome) :=
  if rung = .bitails ∧ unminedWord = true then (s, a.goOn left unminedWord)
  else match env.rung with
    | .nothing => (s, a.goOn left unminedWord)
    | .unmined =>
      -- only Arcade's word ends a pass; the others' is that rung's miss
      if rung = .arcade then
        if a.arcadeStop then a.settle .unproven false s else (s, a.goOn left true)
      else (s, a.goOn left unminedWord)
    | .bump hex =>
      let v := x.verifyBumpOutcome tracked hex a.key env.answer
      match rungStep v.1 with
      | .accept => a.settle (.proof hex) true (s.saw v.2)
      | .nextRung => (s.saw v.2, a.goOn left unminedWord)
      | .abort => a.settle .fault true (s.saw v.2)

def step (a : Ask) (env : Env) (s : Store) : Store × (Ask ⊕ Outcome) :=
  match a.stage with
  | .start => a.begin s
  | .rungs [] _ => a.settle .unproven true s
  | .rungs (rung :: left) unminedWord => a.look x tracked rung left unminedWord env s

end Ask

/-! ## The spend hook -/

structure Notification (μ : Type) where
  beef : SpendingBeef μ
  outpoint : Outpoint
  spends : outpoint ∈ beef.subject.spent

inductive HookStage where
  | verify
  | admitted (spentHeight : Option Nat)
  | write (spentHeight : Option Nat) (verdict : Option VerdictWrite)
  | finished

section
variable {μ : Type} (x : Sdk μ) (tracked : Bool)

/-- `output_spent`, from the header source to the pointer's write. -/
def hookStep (n : Notification μ) (env : Env) (s : Store) : HookStage → Store × HookStage
  | .verify =>
    let v := x.spendConfirmedHeight tracked n.beef n.beef.subject.id env.answer
    (s.saw v.2, .admitted v.1)
  | .admitted height =>
    if env.faulted then (s, .finished)
    else match s.rows n.outpoint, env.heal with
      | some _, _ => (s, .write height env.verdict)
      | none, some a => (s.exec a.outpoint env.now (.storeRecord a.record a.fills), .write height env.verdict)
      | none, none => (s, .write height none)
  | .write height verdict =>
    (s.tryExec env n.outpoint (.markSpent n.beef.subject.id height.isSome verdict height (some n.beef.subject.final)), .finished)
  | .finished => (s, .finished)

/-! ## The discovery pass -/

structure Candidate where
  outpoint : Outpoint
  spendingTxid : Option Txid := none
  hop : Bool := false

def Candidate.of (o : Outpoint) (r : Row) : Candidate := ⟨o, r.spendingTxid, r.lockKind == some "p2pkh"⟩

/-- A scan of the rows `keep` selects, some of them. -/
def scan (s : Store) (keep : Row → Bool) (picked : List Outpoint) : List Candidate :=
  picked.filterMap fun o => ((s.rows o).filter keep).map (Candidate.of o)

def joinHopInputsMax : Nat := 16
def joinHopReadsPerPass : Nat := 64
def joinHopReadsReservedPerJoin : Nat := 2

def joinHopAllowance (readsLeft potsAfter : Nat) : Nat := min (readsLeft - potsAfter * joinHopReadsReservedPerJoin) joinHopInputsMax

def Sdk.joinHopInputs (b : JoinBeef) : List (Outpoint × Bool) :=
  let source (t : Txid) : Option Tx := b.carried.find? fun tx => tx.id == t
  let named := b.subject.spent.filter fun o =>
    (source o.txid).any fun tx => tx.outputs[o.outputIndex]?.any fun out => x.isP2pkhScript out.lockingScript
  let uncarried := b.subject.spent.filter fun o => (source o.txid).isNone
  named.map (fun o => (⟨lowercase o.txid, o.outputIndex⟩, true)) ++ uncarried.map fun o => (⟨lowercase o.txid, o.outputIndex⟩, false)

def joinHopWindow (candidates : List (Outpoint × Bool)) (maxReads rotation : Nat) : List (Outpoint × Bool) :=
  let n := candidates.length
  let take := min n (min maxReads joinHopInputsMax)
  let start := if take < n ∧ 0 < take then rotation * take % n else 0
  (candidates.rotate start).take take

inductive DiscoverStage where
  | scan
  | next
  | hops (c : Candidate) (join : Transaction) (left : List (Outpoint × Bool))
  | hop (c : Candidate) (join : Transaction) (o : Outpoint) (left : List (Outpoint × Bool))
  | hint (c : Candidate)
  | script (c : Candidate) (cands : List Txid)
  | bind (c : Candidate) (spender : Txid)
  | write (c : Candidate) (spender : Txid)
  | finished

structure Discover where
  fetcher : Nat
  todo : List Candidate := []
  readsLeft : Nat := joinHopReadsPerPass
  potsAfter : Nat := 0
  stage : DiscoverStage := .scan

namespace Discover

def goto (d : Discover) (stage : DiscoverStage) : Discover := { d with stage }

/-- `record_join_hop_spends_bounded` up to its first input: the JOIN and the inputs it will read, or none. -/
def joinHops (c : Candidate) (allowance : Nat) (env : Env) (s : Store) : Option (Transaction × List (Outpoint × Bool)) :=
  let pot := lowercase c.outpoint.txid
  env.join.bind fun b =>
    if eqIgnoreAsciiCase b.subject.id pot && (b.subject.outputs.any fun o => x.isPotCovenantScript o.lockingScript) &&
        !env.faulted && (s.rows ⟨pot, 0⟩).isSome then
      some (b.subject, joinHopWindow (x.joinHopInputs b) allowance env.rotation)
    else none

def next (d : Discover) (env : Env) (s : Store) : Store × Discover :=
  match d.todo with
  | [] => (s, d.goto .finished)
  | c :: rest =>
    let d := { d with todo := rest }
    if c.hop then (s, d.goto (.hint c))
    else
      let d := { d with potsAfter := d.potsAfter - 1 }
      let allowance := joinHopAllowance d.readsLeft d.potsAfter
      if allowance = 0 then (s, d.goto (.hint c))
      else match joinHops x c allowance env s with
        | none => (s, d.goto (.hint c))
        | some (join, left) => (s.saw [.held join], { d with readsLeft := d.readsLeft - left.length }.goto (.hops c join left))

/-- A binding read of `spender`; the bytes it answers are held. -/
def bound (d : Discover) (c : Candidate) (spender : Txid) (env : Env) (s : Store) (refused fault : DiscoverStage) : Store × Discover :=
  let b := x.spenderBindingRaw (s.fetchers d.fetcher) spender c.outpoint env.bodies
  let s := s.setFetcher d.fetcher b.2
  match b.1 with
  | .bound tx => (s.saw [.held tx], d.goto (.write c spender))
  | .refused => (s, d.goto refused)
  | .fault => (s, d.goto fault)

def step (d : Discover) (env : Env) (s : Store) : Store × Discover :=
  match d.stage with
  | .scan =>
    let todo := if env.faulted then [] else SpendProof.scan s (fun r => !r.spent) env.picked
    (s, { d with todo, potsAfter := (todo.filter fun c => !Candidate.hop c).length }.goto .next)
  | .next => d.next x env s
  | .hops c _ [] => (s, d.goto (.hint c))
  | .hops c join ((o, named) :: left) =>
    match (s.rows o).filter fun _ => !env.faulted with
    | none => (s, d.goto (.hops c join left))
    | some r =>
      if (named || (Candidate.of o r).hop) && !(r.spent || r.spendingTxid.isSome) then (s, d.goto (.hop c join o left))
      else (s, d.goto (.hops c join left))
  | .hop c join o left =>
    (s.tryExec env o (.markSpentIfUnpointed (lowercase c.outpoint.txid) (some join.final)), d.goto (.hops c join left))
  | .hint c =>
    match env.hint with
    | some (some spender) => (s, d.goto (.bind c spender))
    | _ => (s, d.goto (if c.hop then .next else .script c env.script))
  | .script _ [] => (s, d.goto .next)
  | .script c (cand :: cands) => d.bound x c cand env s (.script c cands) .next
  | .bind c spender => d.bound x c spender env s .next .next
  | .write c spender => (s.tryExec env c.outpoint (.markSpent spender false env.verdict none none), d.goto .next)
  | .finished => (s, d)

end Discover

/-! ## The confirmation pass -/

def displaceCapPerTick : Nat := 4

inductive ConfirmStage where
  | scan
  | chase
  | asking (c : Candidate) (spender : Txid) (ask : Ask)
  | confirm (c : Candidate) (spender : Txid) (hex : String)
  | hint
  | bind (c : Candidate) (recorded actual : Txid)
  | askingActual (c : Candidate) (recorded actual : Txid) (tx : Transaction) (ask : Ask)
  | displace (c : Candidate) (recorded actual : Txid) (tx : Transaction) (hex : String)
  | classify (c : Candidate) (spender : Txid) (after : Bool)
  | finished

structure Confirm where
  fetcher : Nat
  todo : List Candidate := []
  displaceCandidates : List Candidate := []
  stage : ConfirmStage := .scan

namespace Confirm

def goto (p : Confirm) (stage : ConfirmStage) : Confirm := { p with stage }

def spentHeight (hex : String) : Option Nat := (x.merklePathFromHex hex).map x.blockHeight

def hits (s : Store) (env : Env) (o : Outpoint) (c : Call) : Bool := !env.faulted && ((s.rows o).bind fun r => r.update env.now c).isSome

def step (p : Confirm) (env : Env) (s : Store) : Store × Confirm :=
  match p.stage with
  | .scan =>
    (s, { p with todo := if env.faulted then [] else SpendProof.scan s (fun r => r.spent && !r.spentConfirmed) env.picked }.goto .chase)
  | .chase =>
    match p.todo with
    | [] => (s, p.goto .hint)
    | c :: rest =>
      match c.spendingTxid with
      | none => (s, { p with todo := rest }.goto .chase)
      | some spender => (s, { p with todo := rest }.goto (.asking c spender (.detailed p.fetcher spender)))
  | .asking c spender ask =>
    match ask.step x tracked env s with
    | (s, .inl ask) => (s, p.goto (.asking c spender ask))
    | (s, .inr (.proof hex)) => (s, p.goto (.confirm c spender hex))
    | (s, .inr .fault) => (s, p.goto .chase)
    | (s, .inr .unproven) =>
      let displaceCandidates := if p.displaceCandidates.length < displaceCapPerTick then p.displaceCandidates ++ [c] else p.displaceCandidates
      (s, { p with displaceCandidates }.goto .chase)
  | .confirm c spender hex =>
    let call := Call.markConfirmedForSpender spender (spentHeight x hex)
    (s.tryExec env c.outpoint call, p.goto (if hits s env c.outpoint call then .classify c spender false else .chase))
  | .hint =>
    match p.displaceCandidates with
    | [] => (s, p.goto .finished)
    | c :: rest =>
      let p := { p with displaceCandidates := rest }
      match c.spendingTxid, env.hint with
      | some recorded, some (some actual) =>
        if eqIgnoreAsciiCase actual recorded then (s, p.goto .hint) else (s, p.goto (.bind c recorded actual))
      | _, _ => (s, p.goto .hint)
  | .bind c recorded actual =>
    let b := x.spenderBindingRaw (s.fetchers p.fetcher) actual c.outpoint env.bodies
    let s := s.setFetcher p.fetcher b.2
    match b.1 with
    | .bound tx => (s.saw [.held tx], p.goto (.askingActual c recorded actual tx (.detailed p.fetcher actual)))
    | _ => (s, p.goto .hint)
  | .askingActual c recorded actual tx ask =>
    match ask.step x tracked env s with
    | (s, .inl ask) => (s, p.goto (.askingActual c recorded actual tx ask))
    | (s, .inr (.proof hex)) => (s, p.goto (.displace c recorded actual tx hex))
    | (s, .inr _) => (s, p.goto .hint)
  | .displace c recorded actual tx hex =>
    let call := Call.displaceSpendFor recorded actual (spentHeight x hex) (some tx.final)
    (s.tryExec env c.outpoint call, p.goto (if hits s env c.outpoint call then .classify c actual true else .hint))
  | .classify c spender after =>
    let s := match env.verdict with
      | some v => s.tryExec env c.outpoint (.markVerdictForSpender spender v)
      | none => s
    (s, p.goto (if after then .hint else .chase))
  | .finished => (s, p)

end Confirm

/-! ## Every interleaving -/

inductive Job (μ : Type) where
  | hook (n : Notification μ) (stage : HookStage)
  | discover (d : Discover)
  | confirm (p : Confirm)
  | ask (a : Ask)
  | done

def Job.step (env : Env) (s : Store) : Job μ → Store × Job μ
  | .hook n stage => ((hookStep x tracked n env s stage).1, .hook n (hookStep x tracked n env s stage).2)
  | .discover d => ((d.step x env s).1, .discover (d.step x env s).2)
  | .confirm p => ((p.step x tracked env s).1, .confirm (p.step x tracked env s).2)
  | .ask a => match a.step x tracked env s with
    | (s, .inl a) => (s, .ask a)
    | (s, .inr _) => (s, .done)
  | .done => (s, .done)

inductive Describe where
  | verdict (spendingTxid : Txid) (v : VerdictWrite)
  | facts (spendingTxid : Txid) (facts : TxFacts)
  | payouts (spendingTxid : Txid) (a b : Option Nat)

def Describe.call : Describe → Call
  | .verdict t v => .markVerdictForSpender t v
  | .facts t f => .storeSpenderFacts t f
  | .payouts t a b => .storeSpenderPayouts t a b

structure World (μ : Type) where
  store : Store := {}
  jobs : List (Job μ) := []

def accepted (log : List Event) (bump : μ) (leaf : Txid) : Bool :=
  (x.computeRoot bump leaf).any fun root => decide (.answered (x.blockHeight bump) root (.ok true) ∈ log)

inductive Move (μ : Type) where
  | admitted (a : Admission) (now : Nat)
  | notify (n : Notification μ)
  | discover (fetcher : Nat)
  | confirm (fetcher : Nat)
  | ask (a : Ask)
  | turn (job : Nat) (env : Env)
  | beginSync (fetcher budget : Nat)
  | ancestorFault (fetcher : Nat) (key : Txid)
  | noProof (fetcher : Nat) (key : Txid) (outcome : Outcome) (noHex : ∀ hex, outcome ≠ .proof hex)
  | readRoot (height : Nat) (root : String) (answer : RootAnswer)
  | demote (o : Outpoint) (spender : Txid)
  | demoteAt (o : Outpoint) (spender : Txid) (judged : Option Nat)
  | reanchor (o : Outpoint) (spender : Txid) (bump : μ)
  | describe (o : Outpoint) (d : Describe)

namespace World

def start (w : World μ) (j : Job μ) (events : List Event) : World μ := { store := w.store.saw events, jobs := w.jobs ++ [j] }

def write (w : World μ) (o : Outpoint) (now : Nat) (c : Call) : World μ := { w with store := w.store.exec o now c }

def step (w : World μ) : Move μ → World μ
  | .admitted a now => w.write a.outpoint now (.storeRecord a.record a.fills)
  | .notify n => w.start (.hook n .verify) [.held n.beef.subject]
  | .discover f => w.start (.discover { fetcher := f }) []
  | .confirm f => w.start (.confirm { fetcher := f }) []
  | .ask a => w.start (.ask { a with stage := .start }) []
  | .turn i env => match w.jobs[i]? with
    | some j => { store := (j.step x tracked env w.store).1, jobs := w.jobs.set i (j.step x tracked env w.store).2 }
    | none => w
  | .beginSync f budget => { w with store := w.store.setFetcher f { budget } }
  | .ancestorFault f key =>
    let fetcher := w.store.fetchers f
    { w with store := w.store.setFetcher f { fetcher with ancestorFaults := key :: fetcher.ancestorFaults } }
  | .noProof f key outcome _ => { w with store := w.store.remember f key ⟨outcome, true⟩ }
  | .readRoot height root answer => { w with store := w.store.saw [.answered height root answer] }
  | .demote o spender => w.write o 0 (.demoteConfirmedForSpender spender)
  | .demoteAt o spender judged => w.write o 0 (.demoteConfirmedForSpenderAt spender judged)
  | .reanchor o spender bump =>
    if accepted x w.store.log bump spender || accepted x w.store.log bump (lowercase spender) then w.write o 0 (.reanchorConfirmedForSpender spender (x.blockHeight bump)) else w
  | .describe o d => w.write o 0 d.call

def run (w : World μ) (moves : List (Move μ)) : World μ := moves.foldl (step x tracked) w

end World

end

end OverlayEngine.Pot.SpendProof
