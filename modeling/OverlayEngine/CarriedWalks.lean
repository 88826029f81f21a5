import OverlayEngine.ScriptDoor
import OverlayEngine.Submit

/-!
# The walks of a submit and of its landings

The submit over the bytes its walks read: `run_validation`,
`verify_beef_linear`, `check_reached_roots` and `walk_cover` of
`crates/overlay-engine/src/engine.rs`, and `land_carried`, which submits a
carried predecessor first and trusts what this submit's walks passed over. Every
walk made is noted.

Taken from outside: bsv-rs's parsed BEEF; the chain tracker and the landing
guard; and what the managers, the lookup services and the store answer.
-/

namespace OverlayEngine.CarriedWalks

open ScriptDoor

/-! ## The parsed BEEF -/

structure Input where
  sourceTxid : Option String
  /-- The id of the source transaction where it is linked. -/
  sourceTransaction : Option String := none
  deriving DecidableEq

/-- `get_source_txid`. -/
def Input.source (i : Input) : Option String := i.sourceTxid.or i.sourceTransaction

structure Transaction where
  id : String
  inputs : List Input
  /-- `to_atomic_beef(true)`. -/
  atomicBeef : Except String Bytes

structure BeefTx where
  txid : String
  /-- The inputs of its transaction; none: a txid alone. -/
  tx : Option (List Input)

structure MerklePath where
  /-- The hashes of level 0. -/
  leaves : List (Option String)
  blockHeight : Nat

structure Beef where
  atomicTxid : Option String
  txs : List BeefTx
  bumps : List MerklePath

structure BeefSdk (S : Type) extends Sdk S where
  parse : Bytes → Except String Beef
  sortTxs : Beef → Beef
  findAtomicTransaction : Beef → String → Option Transaction
  toBinaryAtomic : Beef → String → Except String Bytes
  computeRoot : MerklePath → String → Except String String

/-- `to_ascii_lowercase`. -/
def asciiLower (text : String) : String := String.ofList (text.toList.map Char.toLower)

namespace Beef

variable (b : Beef)

/-- `subject_txid_of`: the atomic name, else the one tip, else the sorted last. -/
def subjectTxidOf {S : Type} (sdk : BeefSdk S) : Option String :=
  match b.atomicTxid.filter fun atomic => b.txs.any fun t => asciiLower t.txid == asciiLower atomic with
  | some atomic => some (asciiLower atomic)
  | none =>
    let spent := (b.txs.flatMap fun t => (t.tx.getD []).filterMap Input.source).map asciiLower
    let tips := ((b.txs.filter fun t => t.tx.isSome).map fun t => asciiLower t.txid).filter fun t => !spent.contains t
    match tips with
    | [tip] => some tip
    | _ => ((sdk.sortTxs b).txs.getLast?.filter fun t => t.tx.isSome).map fun t => asciiLower t.txid

/-- `proven_index`: the first BUMP whose level 0 carries a txid, and its place. -/
def provenIndex (txid : String) : Option (MerklePath × Nat) :=
  b.bumps.zipIdx.find? fun bump => bump.1.leaves.any fun leaf => leaf.any (· == txid)

def bodies (txid : String) : Option (List Input) := (b.txs.filter fun t => t.txid == txid && t.tx.isSome).getLast?.bind BeefTx.tx

/-- What `walk_cover` queues of a txid: nothing of a proven one. -/
def sources (txid : String) : List String :=
  if (b.provenIndex txid).isSome then [] else ((b.bodies txid).getD []).filterMap Input.sourceTxid

def coverVisit (cover : List String) (txid : String) : Except Empty (List String × List String) := .ok (cover ++ [txid], b.sources txid)

def keys : List String := b.txs.map BeefTx.txid

theorem sources_outside (txid : String) (h : txid ∉ b.keys) : (b.sources txid).length = 0 := by
  have hnone : (b.txs.filter fun t => t.txid == txid && t.tx.isSome) = [] := by
    rw [List.filter_eq_nil_iff]
    intro t ht heq
    rw [Bool.and_eq_true, beq_iff_eq] at heq
    exact h (List.mem_map.mpr ⟨t, ht, heq.1⟩)
  unfold sources bodies
  rw [hnone]
  split <;> rfl

theorem cover_ends (txid : String) :
    (Worklist.run b.coverVisit (1 + Worklist.unspent (fun t => (b.sources t).length) [] b.keys) [txid] [] []).isSome = true := by
  refine Worklist.run_isSome (fun cover t cover' next h => ?_) b.sources_outside _ _ _ _ (Nat.le_refl _)
  cases h
  exact Nat.le_refl _

def walkCover (txid : String) : List String :=
  match (Worklist.run b.coverVisit (1 + Worklist.unspent (fun t => (b.sources t).length) [] b.keys) [txid] [] []).get (b.cover_ends txid) with
  | .ok cover => cover
  | .error e => e.elim

end Beef

def transactionFromBeef {S : Type} (sdk : BeefSdk S) (bytes : Bytes) (txid : Option String) : Except String Transaction :=
  match sdk.parse bytes with
  | .error e => .error e
  | .ok b =>
    match (txid.or b.atomicTxid).or (b.txs.getLast?.map BeefTx.txid) with
    | none => .error "No transactions in BEEF"
    | some target =>
      match sdk.findAtomicTransaction b target with
      | none => .error ("Transaction " ++ target ++ " not found in BEEF")
      | some tx => .ok tx

/-! ## A walk of a submit -/

inductive WalkLimb where
  | overWork
  | overMemory
  | interpreterMemory

def WalkLimb.asStr : WalkLimb → String
  | .overWork => "over_work"
  | .overMemory => "over_memory"
  | .interpreterMemory => "interpreter_memory"

structure WalkCouldNotRun where
  subjectTxid : String
  atTxid : String
  subjectJudged : Bool
  limb : WalkLimb
  what : String

inductive SubmitError where
  | walk (e : ScriptDoor.EngineError)
  | unsupportedTopic (topic : String)
  | spvError (msg : String)
  | walkCouldNotRun (stop : WalkCouldNotRun)

def SubmitError.display : SubmitError → String
  | .walk (.beefParseError e) => "BEEF parsing failed: " ++ e
  | .walk (.scriptWalkOverBudget txid judged _ what) =>
    "script walk over budget at " ++ txid ++ " (subject judged: " ++ toString judged ++ "): " ++ what
  | .walk (.scriptWalkInconclusive txid judged reason) =>
    "script walk inconclusive at " ++ txid ++ " (subject judged: " ++ toString judged ++ "): " ++ reason
  | .walk (.scriptVerificationFailed txid vin reason) =>
    "script verification failed (subject " ++ txid ++ "): input " ++ toString vin ++ ": " ++ reason
  | .unsupportedTopic topic => "This server does not support this topic: " ++ topic
  | .spvError msg => "SPV verification failed: " ++ msg
  | .walkCouldNotRun stop =>
    "the script walk could not run within the budget (" ++ stop.limb.asStr ++ ": " ++ stop.what ++
      "); not now: present the subject proven, after its block"

def spv (msg : String) : SubmitError := .spvError ("Unable to verify SPV information: " ++ msg)

structure Finish where
  appliedTopics : List String
  dedupedTopics : List String
  durable : Bool
  summary : String
  /-- The carried predecessor that blocks a topic. -/
  blocked : String → Option String
  reads : Nat

inductive Asked where
  | settled
  | waits (why : String)
  | carried (why predecessor : String)

structure Engine (S : Type) where
  sdk : BeefSdk S
  tracker : Option (Nat → Nat → String → Nat → Except String Bool)
  verifyScripts : Bool
  structural : Nat → Bytes → Except SubmitError Unit
  walkBudget : DoorBudget
  sized : Bytes → StreamEstimate
  manages : String → Bool
  landsWithoutValues : String → Bool
  landingGuard : Option (Nat → String → String → Except String Unit)
  finish : Nat → Finish
  ask : Nat → String → Asked × Nat
  judgedAgain : Nat → Bool
  holdsOutputs : Nat → String → Bool

variable {S : Type} (e : Engine S)

/-- The loop of `check_reached_roots`, a BUMP's root asked once. -/
def checkRoots (walk : Nat) (b : Beef) : List Nat → List String → Except SubmitError Unit
  | _, [] => .ok ()
  | checked, txid :: rest =>
    match b.provenIndex txid with
    | none => .error (spv ("transaction " ++ txid ++ " is not in the BEEF"))
    | some (bump, at_) =>
      if checked.contains at_ then checkRoots walk b checked rest
      else
        match e.sdk.computeRoot bump txid with
        | .error why => .error (spv ("invalid merkle path for transaction " ++ txid ++ ": " ++ why))
        | .ok root =>
          match e.tracker with
          | none => checkRoots walk b (at_ :: checked) rest
          | some tracker =>
            match tracker walk at_ root bump.blockHeight with
            | .ok true => checkRoots walk b (at_ :: checked) rest
            | .ok false => .error (.spvError ("Invalid merkle path for transaction " ++ txid ++ ": root " ++ root ++
                " is not valid for block height " ++ toString bump.blockHeight))
            | .error why => .error (.spvError ("Chain tracker error at height " ++ toString bump.blockHeight ++ ": " ++ why))

def checkReachedRoots (walk : Nat) (beef : Bytes) (reached : List String) : Except SubmitError Unit :=
  if reached.isEmpty then .ok ()
  else
    match e.sdk.parse beef with
    | .error why => .error (.walk (.beefParseError why))
    | .ok b => checkRoots e walk b [] reached

/-- `verify_beef_linear`: `some` is a walk that could not run. -/
def verifyBeefLinear (walk : Nat) (beef : Bytes) (subject : String) (trusted : List String) : Except SubmitError (Option WalkCouldNotRun) :=
  match walkTrusting e.sdk.toSdk beef subject e.walkBudget (e.sized beef) trusted {} with
  | .ok (_, trace) => (checkReachedRoots e walk beef trace.proven).map fun _ => none
  | .error (.scriptVerificationFailed txid vin reason, _) => .error (.walk (.scriptVerificationFailed txid vin reason))
  | .error (.scriptWalkInconclusive _ _ reason, _) => .error (spv reason)
  | .error (.beefParseError why, _) => .error (.walk (.beefParseError why))
  | .error (.scriptWalkOverBudget atTxid judged limb what, trace) =>
    let limb := match limb with
      | .memory => .overMemory
      | .work => if trace.interpreterTripped then .interpreterMemory else .overWork
    (checkReachedRoots e walk beef (trace.proven ++ trace.provenSources)).map fun _ => some ⟨subject, atTxid, judged, limb, what⟩

def verifySpvTrusting (walk : Nat) (beef : Bytes) (subject : String) (trusted : List String) : Except SubmitError (Option WalkCouldNotRun) :=
  if e.verifyScripts then verifyBeefLinear e walk beef subject trusted else (e.structural walk beef).map fun _ => none

structure WalkCall where
  number : Nat
  beef : Bytes
  subject : String
  trusted : List String
  result : Except SubmitError (Option WalkCouldNotRun)

/-- What a submit carries through its landings; `walks`: those it made, the last first. -/
structure Session where
  questionReads : Nat := 0
  /-- `landed_predecessors`. -/
  landed : List (String × String) := []
  /-- `landed_walks_could_not_run`. -/
  breaches : List WalkCouldNotRun := []
  walks : List WalkCall := []
  answers : Nat := 0

def Session.walk (s : Session) (beef : Bytes) (subject : String) (trusted : List String) : Except SubmitError (Option WalkCouldNotRun) × Session :=
  let result := verifySpvTrusting e s.walks.length beef subject trusted
  (result, { s with walks := ⟨s.walks.length, beef, subject, trusted, result⟩ :: s.walks })

def Session.answered (s : Session) : Session := { s with answers := s.answers + 1 }

def Session.charge (s : Session) (reads : Nat) : Session := { s with questionReads := s.questionReads + reads }

/-- `run_validation`, as far as its walk; `walked`: of a carried predecessor. -/
def runValidation (s : Session) (beef : Bytes) (topics : List String) (mode : SubmitMode) (walked : Option (List String)) (policy : WalkBreachPolicy) :
    Except SubmitError (Transaction × Option WalkCouldNotRun) × Session :=
  match topics.find? fun topic => !e.manages topic with
  | some topic => (.error (.unsupportedTopic topic), s)
  | none =>
    match e.sdk.parse beef with
    | .error why => (.error (.walk (.beefParseError why)), s)
    | .ok b =>
      match transactionFromBeef e.sdk beef (b.subjectTxidOf e.sdk) with
      | .error why => (.error (.walk (.beefParseError why)), s)
      | .ok tx =>
        if mode = .historicalTxNoSpv ∨ walked.any fun walked => walked.contains tx.id then (.ok (tx, none), s)
        else
          match s.walk e beef tx.id (walked.getD []) with
          | (.error why, s) => (.error why, s)
          | (.ok none, s) => (.ok (tx, none), s)
          | (.ok (some stop), s) =>
            if policy = .notNow then (.error (.walkCouldNotRun stop), s) else (.ok (tx, some stop), s)

/-! ## The landings -/

def submitCarried (s : Session) (beef : Bytes) (topic : String) (mode : SubmitMode) (walked : List String) (policy : WalkBreachPolicy) :
    Except SubmitError (Option WalkCouldNotRun × Finish) × Session :=
  match runValidation e s beef [topic] mode (some walked) policy with
  | (.error why, s) => (.error why, s)
  | (.ok (_, couldNotRun), s) => (.ok (couldNotRun, e.finish s.answers), s.answered.charge (e.finish s.answers).reads)

inductive Turn where
  | landed (walked guarded : List String)
  | under (predecessor : String) (walked guarded : List String)
  | ended (why : String)

structure Lands where
  beef : Beef
  topic : String
  mode : SubmitMode
  policy : WalkBreachPolicy

def Lands.walks (l : Lands) : Bool := l.mode != .historicalTxNoSpv

def askGuard (l : Lands) (next : String) (guarded : List String) (s : Session) : Except String Unit × List String × Session :=
  match e.landingGuard with
  | none => (.ok (), guarded, s)
  | some guard => if guarded.contains next then (.ok (), guarded, s) else (guard s.answers next l.topic, next :: guarded, s.answered)

def judgedTurn (l : Lands) (next : String) (stack walked guarded : List String) (s : Session) (couldNotRun : Option WalkCouldNotRun) (report : Finish) :
    Turn × Session :=
  let s := { s with breaches := s.breaches ++ couldNotRun.toList }
  let walked := if couldNotRun.isNone && l.walks && !walked.contains next then walked ++ l.beef.walkCover next else walked
  let landedNow := report.appliedTopics.contains l.topic
  if report.durable && (landedNow || report.dedupedTopics.contains l.topic) then
    (.landed walked guarded, { s with landed := s.landed ++ if landedNow then [(next, l.topic)] else [] })
  else
    match (report.blocked l.topic).filter fun under => !stack.contains under with
    | some under => (.under under walked guarded, s)
    | none => (.ended (if report.durable then next ++ ": the manager failed it" else next ++ ": " ++ report.summary), s)

def turn (l : Lands) (next : String) (stack walked guarded : List String) (s : Session) : Turn × Session :=
  match e.sdk.findAtomicTransaction l.beef next with
  | none => (.ended (next ++ ": its body is not in the BEEF"), s)
  | some body =>
    match askGuard e l next guarded s with
    | (.error why, _, s) => (.ended (next ++ ": refused by the landing guard (" ++ why ++ ")"), s)
    | (.ok _, guarded, s) =>
      let cost := 1 + 2 * body.inputs.length
      if predecessorReadsPerSubmit < s.questionReads + cost then
        (.ended (next ++ ": its submit does not fit in the submit's " ++ toString predecessorReadsPerSubmit ++ " reads"), s)
      else
        match body.atomicBeef with
        | .error why => (.ended (next ++ ": its BEEF could not be built (" ++ why ++ ")"), s.charge cost)
        | .ok atomic =>
          match submitCarried e (s.charge cost) atomic l.topic l.mode walked l.policy with
          | (.error (.walkCouldNotRun stop), s) =>
            (.ended (next ++ ": " ++ (SubmitError.walkCouldNotRun stop).display), { s with breaches := s.breaches ++ [stop] })
          | (.error why, s) => (.ended (next ++ ": " ++ why.display), s)
          | (.ok (couldNotRun, report), s) => judgedTurn l next stack walked guarded s couldNotRun report

def landLoop (l : Lands) : Nat → List String → List String → List String → Session → Option (Except String Unit × Session)
  | _, [], _, _, s => some (.ok (), s)
  | 0, _ :: _, _, _, _ => none
  | fuel + 1, next :: stack, walked, guarded, s =>
    match turn e l next (next :: stack) walked guarded s with
    | (.ended why, s) => some (.error why, s)
    | (.landed walked guarded, s) => landLoop l fuel stack walked guarded s
    | (.under predecessor walked guarded, s) => landLoop l fuel (predecessor :: next :: stack) walked guarded s

/-! ### Fuel -/

section Fuel

variable {e}

theorem runValidation_session (s : Session) (beef : Bytes) (topics : List String) (mode : SubmitMode) (walked : Option (List String))
    (policy : WalkBreachPolicy) :
    (runValidation e s beef topics mode walked policy).2 = s ∨
      ∃ txid, (runValidation e s beef topics mode walked policy).2 = (s.walk e beef txid (walked.getD [])).2 := by
  unfold runValidation
  split
  · exact .inl rfl
  · split
    · exact .inl rfl
    · split
      · exact .inl rfl
      · rename_i tx _
        split
        · exact .inl rfl
        · refine .inr ⟨tx.id, ?_⟩
          split
          · rename_i hwalk
            rw [hwalk]
          · rename_i hwalk
            rw [hwalk]
          · rename_i hwalk
            rw [hwalk]
            split <;> rfl

theorem runValidation_reads (s : Session) (beef : Bytes) (topics : List String) (mode : SubmitMode) (walked : Option (List String))
    (policy : WalkBreachPolicy) : (runValidation e s beef topics mode walked policy).2.questionReads = s.questionReads := by
  rcases runValidation_session (e := e) s beef topics mode walked policy with h | ⟨txid, h⟩
  · rw [h]
  · rw [h]
    rfl

theorem submitCarried_reads (s : Session) (beef : Bytes) (topic : String) (mode : SubmitMode) (walked : List String) (policy : WalkBreachPolicy) :
    s.questionReads ≤ (submitCarried e s beef topic mode walked policy).2.questionReads := by
  have hreads := runValidation_reads (e := e) s beef [topic] mode (some walked) policy
  unfold submitCarried
  split
  · rename_i hrun
    rw [hrun] at hreads
    exact Nat.le_of_eq hreads.symm
  · rename_i hrun
    rw [hrun] at hreads
    exact Nat.le_trans (Nat.le_of_eq hreads.symm) (Nat.le_add_right _ _)

theorem askGuard_session (l : Lands) (next : String) (guarded : List String) (s : Session) :
    (askGuard e l next guarded s).2.2 = s ∨ (askGuard e l next guarded s).2.2 = s.answered := by
  unfold askGuard
  split
  · exact .inl rfl
  · split
    · exact .inl rfl
    · exact .inr rfl

theorem askGuard_reads (l : Lands) (next : String) (guarded : List String) (s : Session) :
    (askGuard e l next guarded s).2.2.questionReads = s.questionReads := by
  rcases askGuard_session (e := e) l next guarded s with h | h <;> rw [h]
  rfl

theorem judgedTurn_reads (l : Lands) (next : String) (stack walked guarded : List String) (s : Session) (couldNotRun : Option WalkCouldNotRun)
    (report : Finish) : (judgedTurn l next stack walked guarded s couldNotRun report).2.questionReads = s.questionReads := by
  unfold judgedTurn
  dsimp only
  split
  · rfl
  · split <;> rfl

theorem turn_reads {l : Lands} {next : String} {stack walked guarded : List String} {s s' : Session} {t : Turn}
    (h : turn e l next stack walked guarded s = (t, s')) :
    (∃ why, t = .ended why) ∨ s.questionReads + 1 ≤ s'.questionReads ∧ s.questionReads + 1 ≤ predecessorReadsPerSubmit := by
  unfold turn at h
  split at h
  · exact .inl ⟨_, (Prod.mk.inj h).1.symm⟩
  · rename_i body _
    have hguard := askGuard_reads (e := e) l next guarded s
    split at h
    · exact .inl ⟨_, (Prod.mk.inj h).1.symm⟩
    · rename_i s₁ hask
      rw [hask] at hguard
      dsimp only at h hguard
      split at h
      · exact .inl ⟨_, (Prod.mk.inj h).1.symm⟩
      · rename_i hfits
        split at h
        · exact .inl ⟨_, (Prod.mk.inj h).1.symm⟩
        · rename_i atomic _
          have hsubmit := submitCarried_reads (e := e) (s₁.charge (1 + 2 * body.inputs.length)) atomic l.topic l.mode walked l.policy
          split at h
          · exact .inl ⟨_, (Prod.mk.inj h).1.symm⟩
          · exact .inl ⟨_, (Prod.mk.inj h).1.symm⟩
          · rename_i couldNotRun report s₂ hok
            rw [hok] at hsubmit
            have hjudged := judgedTurn_reads l next stack walked ‹List String› s₂ couldNotRun report
            rw [h] at hjudged
            refine .inr ?_
            have hcharged : (s₁.charge (1 + 2 * body.inputs.length)).questionReads = s₁.questionReads + (1 + 2 * body.inputs.length) := rfl
            dsimp only at hjudged hsubmit
            omega

theorem landLoop_isSome (l : Lands) (fuel : Nat) (stack walked guarded : List String) (s : Session)
    (hfuel : 0 < fuel ∧ predecessorReadsPerSubmit < fuel + s.questionReads) : (landLoop e l fuel stack walked guarded s).isSome = true := by
  induction fuel generalizing stack walked guarded s with
  | zero => exact absurd hfuel.1 (Nat.lt_irrefl 0)
  | succ fuel ih =>
    cases stack with
    | nil => rfl
    | cons next stack =>
      rw [landLoop]
      split
      · rfl
      · rename_i hturn
        obtain ⟨hpaid, hfits⟩ := (turn_reads hturn).resolve_left nofun
        exact ih _ _ _ _ (by omega)
      · rename_i hturn
        obtain ⟨hpaid, hfits⟩ := (turn_reads hturn).resolve_left nofun
        exact ih _ _ _ _ (by omega)

theorem landLoop_reads {l : Lands} {fuel : Nat} {stack walked guarded : List String} {s s' : Session}
    (h : landLoop e l fuel stack walked guarded s = some (.ok (), s')) : s.questionReads ≤ s'.questionReads := by
  induction fuel generalizing stack walked guarded s with
  | zero =>
    cases stack with
    | nil => cases h; exact Nat.le_refl _
    | cons next stack => cases h
  | succ fuel ih =>
    cases stack with
    | nil => cases h; exact Nat.le_refl _
    | cons next stack =>
      rw [landLoop] at h
      split at h
      · cases h
      · rename_i hturn
        have hpaid := ((turn_reads hturn).resolve_left nofun).1
        have hrest := ih h
        omega
      · rename_i hturn
        have hpaid := ((turn_reads hturn).resolve_left nofun).1
        have hrest := ih h
        omega

end Fuel

structure Landing where
  policy : WalkBreachPolicy
  subjectWalkRan : Bool

def landingMode : SubmitMode → SubmitMode
  | .currentTx => .historicalTx
  | mode => mode

def landCarried (beef : Bytes) (subject predecessor topic : String) (mode : SubmitMode) (landing : Landing) (s : Session) :
    Except String Unit × Session :=
  match e.sdk.parse beef with
  | .error why => (.error ("the BEEF could not be read again (" ++ why ++ ")"), s)
  | .ok b =>
    let l : Lands := ⟨b, topic, landingMode mode, landing.policy⟩
    let walked := if l.walks && landing.subjectWalkRan then b.walkCover subject else []
    (landLoop e l (predecessorReadsPerSubmit + 1) [predecessor] walked [] s).get
      (landLoop_isSome l _ _ _ _ s ⟨Nat.succ_pos _, by omega⟩)

/-! ## The submit -/

structure Successor where
  beef : Bytes
  tx : Transaction
  mode : SubmitMode
  landing : Landing
  finalize : Bool

def Successor.spent (c : Successor) : List String := (c.tx.inputs.filterMap Input.source).filter fun source => !source.isEmpty

def waitRounds (c : Successor) (topic : String) : Nat → Session → Option (Option String × Session)
  | 0, _ => none
  | fuel + 1, s =>
    let (asked, reads) := e.ask s.answers topic
    let s := s.answered.charge reads
    match asked with
    | .settled => some (none, s)
    | .waits why => some (some why, s)
    | .carried why predecessor =>
      if c.finalize then some (none, s)
      else if e.landsWithoutValues topic then
        let rejudge := 1 + c.spent.length
        if predecessorReadsPerSubmit < s.questionReads + rejudge then
          some (some (why ++ "; its landing and the re-judgement after it do not fit in the submit's " ++ toString predecessorReadsPerSubmit ++
            " reads"), s)
        else
          match landCarried e c.beef c.tx.id predecessor topic c.mode c.landing (s.charge rejudge) with
          | (.ok (), s) => if e.judgedAgain s.answers then waitRounds c topic fuel s.answered else some (none, s.answered)
          | (.error didNotLand, s) =>
            some (some (why ++ "; submitted first from the BEEF, it did not land (" ++ didNotLand ++ ")"),
              { s with questionReads := s.questionReads - rejudge })
      else
        some (some (why ++ "; not landed first from the BEEF: the topic's manager or a lookup service reads off-chain values, and only the " ++
          "predecessor's own submit carries them"), s)

theorem landCarried_reads {e : Engine S} {beef : Bytes} {subject predecessor topic : String} {mode : SubmitMode} {landing : Landing}
    {s s' : Session} (h : landCarried e beef subject predecessor topic mode landing s = (.ok (), s')) : s.questionReads ≤ s'.questionReads := by
  unfold landCarried at h
  split at h
  · cases h
  · dsimp only at h
    exact landLoop_reads ((Option.some_get _).symm.trans (congrArg some h))

theorem waitRounds_isSome (c : Successor) (topic : String) (fuel : Nat) (s : Session)
    (hfuel : 0 < fuel ∧ predecessorReadsPerSubmit < fuel + s.questionReads) : (waitRounds e c topic fuel s).isSome = true := by
  induction fuel generalizing s with
  | zero => exact absurd hfuel.1 (Nat.lt_irrefl 0)
  | succ fuel ih =>
    rw [waitRounds]
    dsimp only
    split
    · rfl
    · rfl
    · split
      · rfl
      · split
        · split
          · rfl
          · rename_i hfits
            split
            · rename_i s' hland
              have hreads := landCarried_reads hland
              have hcharged (r : Session) (n : Nat) : (r.charge n).questionReads = r.questionReads + n := rfl
              have hanswered (r : Session) : r.answered.questionReads = r.questionReads := rfl
              split
              · refine ih _ ?_
                simp only [hcharged, hanswered] at hfits hreads ⊢
                omega
              · rfl
            · rfl
        · rfl

def waitTopic (c : Successor) (s : Session) (topic : String) : Option String × Session :=
  let (wait, s) := (waitRounds e c topic (predecessorReadsPerSubmit + 1) s).get (waitRounds_isSome e c topic _ s ⟨Nat.succ_pos _, by omega⟩)
  if !c.finalize && wait.isSome && decide (s.questionReads < predecessorReadsPerSubmit) then
    (if e.holdsOutputs s.answers topic then none else wait, s.answered.charge 1)
  else (wait, s)

def waitTopics (c : Successor) : List String → Session → List (String × String) × Session
  | [], s => ([], s)
  | topic :: rest, s =>
    let (wait, s) := waitTopic e c s topic
    let (waits, s) := waitTopics c rest s
    ((wait.map fun why => (topic, why)).toList ++ waits, s)

/-- `successors_waiting`: the topics that wait, each with why. -/
def successorsWaiting (c : Successor) (topics : List String) (s : Session) : List (String × String) × Session :=
  if c.spent.isEmpty then ([], s) else waitTopics e c topics s

def submit (beef : Bytes) (topics : List String) (mode : SubmitMode) (policy : WalkBreachPolicy) (finalize : Bool) :
    Except SubmitError (List (String × String) × Option WalkCouldNotRun) × Session :=
  match runValidation e {} beef topics mode none policy with
  | (.error why, s) => (.error why, s)
  | (.ok (tx, couldNotRun), s) =>
    let named := (((e.sdk.parse beef).toOption.bind fun b => (e.sdk.toBinaryAtomic b tx.id).toOption)).getD beef
    let (waits, s) := successorsWaiting e ⟨named, tx, mode, ⟨policy, couldNotRun.isNone⟩, finalize⟩ topics s
    (.ok (waits, couldNotRun), s)

end OverlayEngine.CarriedWalks
