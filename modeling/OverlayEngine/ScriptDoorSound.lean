import OverlayEngine.ScriptDoor

/-!
# What the script door's walk has verified

The transactions a subject reaches through the inputs of unproven ones, and
what is asked of each: a walk ends well just where each of them passes, or else
its budget is spent.
-/

namespace OverlayEngine.ScriptDoor

variable {S : Type} {sdk : Sdk S}

/-! ## A source's outputs -/

section Outputs

open Fields

variable {at_ p count : Nat} {α β : Type}

variable {raw : Bytes}

end Outputs

/-! ## What is asked of a transaction -/

structure Body where
  raw : Hash32 → Option Bytes
  proven : Hash32 → Bool

def Body.of (elements : List Element) : Body where
  raw txid := elements.findSome? fun
    | .tx _ id raw => if id = txid then some raw else none
    | _ => none
  proven txid := elements.any fun
    | .bump proven => proven.contains txid
    | _ => false

namespace Body

variable (sdk) (b : Body)

def sources (txid : Hash32) : List Hash32 :=
  if b.proven txid then []
  else (((b.raw txid).bind (Layout.of sdk)).map fun tx => tx.inputs.map InputAt.prev).getD []

def Reaches (subject txid : Hash32) : Prop := Relation.ReflTransGen (Worklist.Edge (b.sources sdk)) subject txid

def spent (input : InputAt) : Option (Nat × Bytes) :=
  (b.raw input.prev).bind fun raw => (outputOffsets sdk raw).bind fun offsets => offsets[input.vout]?.bind (outputAt sdk raw)

def inputTotal (tx : Layout) : Nat := (tx.inputs.map fun input => ((b.spent sdk input).map Prod.fst).getD 0).sum

def outputTotal (tx : Layout) : Nat := (tx.outputs.map OutputAt.satoshis).sum

def checksSignature (memoryLimit : Nat) (unlocking locking : S) : Bool :=
  (opsCensus (max (memoryLimit / 33) 1) none (sdk.ops unlocking)).2 + (opsCensus (max (memoryLimit / 33) 1) none (sdk.ops locking)).2 != 0

/-- An input's spend validates to true; `digest unlocking locking`: it is given the other inputs and the outputs. -/
def Validates (digest : S → S → Bool) (budget : DoorBudget) (raw : Bytes) (tx : Layout) (vin : Nat) (input : InputAt) (satoshis : Nat)
    (locking : Bytes) : Prop :=
  ∃ l u, sdk.fromBinary locking = .ok l ∧ sdk.fromBinary (slice raw input.script) = .ok u ∧
    sdk.validate (spendOf budget.memoryLimit raw tx vin input satoshis l u (digest u l)) = .ok true

def Spends (digest : S → S → Bool) (budget : DoorBudget) (raw : Bytes) (tx : Layout) (vin : Nat) (input : InputAt) : Prop :=
  ∃ satoshis locking, b.spent sdk input = some (satoshis, locking) ∧ pushOnly (slice raw input.script) = true ∧
    Validates sdk digest budget raw tx vin input satoshis locking

def Passes (digest : S → S → Bool) (budget : DoorBudget) (txid : Hash32) : Prop :=
  ∃ raw, b.raw txid = some raw ∧ (b.proven txid = false → ∃ tx, Layout.of sdk raw = some tx ∧
    (∀ vin input, tx.inputs[vin]? = some input → b.Spends sdk digest budget raw tx vin input) ∧
    b.inputTotal sdk tx ≤ u64Max ∧ outputTotal tx ≤ u64Max ∧ outputTotal tx ≤ b.inputTotal sdk tx)

end Body

namespace Door

variable (d : Door S)

def body : Body := ⟨d.raw, d.proven⟩

def digestOf (u l : S) : Bool := Body.checksSignature d.sdk d.budget.memoryLimit u l

def Keeps (w : Walk) : Prop :=
  ∀ prev offsets, w.sources.lookup prev = some offsets → ∃ raw, d.raw prev = some raw ∧ outputOffsets d.sdk raw = some offsets

variable {d} {raw : Bytes} {w w' : Walk}

theorem sourceOffsets_some {prev : Hash32} {offsets : List Nat} (hw : d.Keeps w) (hraw : d.raw prev = some raw)
    (h : d.sourceOffsets w prev raw = some (offsets, w')) :
    outputOffsets d.sdk raw = some offsets ∧ d.Keeps w' ∧ w'.trace = w.trace ∧ w'.stats = w.stats := by
  unfold sourceOffsets at h
  cases hkept : w.sources.lookup prev with
  | some kept =>
    rw [hkept] at h
    cases h
    obtain ⟨raw', hraw', hoffsets⟩ := hw prev offsets hkept
    rw [hraw] at hraw'
    cases hraw'
    exact ⟨hoffsets, hw, rfl, rfl⟩
  | none =>
    rw [hkept] at h
    obtain ⟨offsets', hoffsets, heq⟩ := Option.map_eq_some_iff.mp h
    cases heq
    refine ⟨hoffsets, fun prev' offsets' hlookup => ?_, rfl, rfl⟩
    by_cases hprev : prev' = prev
    · subst hprev
      rw [AList.lookup_insert] at hlookup
      cases hlookup
      exact ⟨raw, hraw, hoffsets⟩
    · rw [AList.lookup_insert_ne hprev] at hlookup
      exact hw prev' offsets' hlookup

variable {w : Walk}

variable {txid : Hash32} {vin : Nat} {locking unlocking : Bytes} {digest : Bool}

theorem charge_ok
    (h : d.charge w txid raw vin unlocking locking = .ok (w', digest)) :
    w'.trace = w.trace ∧ w'.sources = w.sources ∧
      ∀ u l, d.sdk.fromBinary unlocking = .ok u → d.sdk.fromBinary locking = .ok l → digest = d.digestOf u l := by
  by_cases hheld : d.budget.maxMemoryBytes < min (d.estimated + scriptParseCharge unlocking locking) u64Max
  · simp only [charge, if_pos hheld] at h
    cases h
  · simp only [charge, if_neg hheld] at h
    cases hcensus : scriptCensus d.sdk unlocking locking d.budget.memoryLimit with
    | error e => simp only [hcensus] at h; cases h
    | ok counts =>
      simp only [hcensus] at h
      split at h
      · cases h
      · cases h
        refine ⟨rfl, rfl, fun u l hu hl => ?_⟩
        simp only [scriptCensus, hu, hl] at hcensus
        cases hcensus
        rfl

variable {failure : Failure}

variable {tx : Layout} {input : InputAt} {total satoshis vin total' : Nat}

theorem runScripts_ok
    (h : d.runScripts w txid raw tx vin input satoshis locking digest = .ok w') :
    w'.trace = w.trace ∧ w'.sources = w.sources ∧
      ∃ l u, d.sdk.fromBinary locking = .ok l ∧ d.sdk.fromBinary (slice raw input.script) = .ok u ∧
        d.sdk.validate (spendOf d.budget.memoryLimit raw tx vin input satoshis l u digest) = .ok true := by
  unfold runScripts at h
  split at h
  · cases h
  · rename_i l hl
    split at h
    · cases h
    · rename_i u hu
      split at h
      · rename_i hvalid
        cases h
        exact ⟨rfl, rfl, l, u, hl, hu, hvalid⟩
      · cases h
      · split at h
        · cases h
        · cases h

theorem runInput_ok (hw : d.Keeps w)
    (h : d.runInput w total txid raw tx vin input = .ok (w', total')) :
    d.Keeps w' ∧ w'.trace.proven = w.trace.proven ∧ d.body.Spends d.sdk d.digestOf d.budget raw tx vin input ∧
      total' = total + ((d.body.spent d.sdk input).map Prod.fst).getD 0 ∧ total' ≤ u64Max := by
  unfold runInput at h
  cases hraw : d.raw input.prev with
  | none => simp only [hraw] at h; cases h
  | some sourceRaw =>
    simp only [hraw] at h
    cases hoffsets : d.sourceOffsets w input.prev sourceRaw with
    | none => simp only [hoffsets] at h; cases h
    | some r =>
      obtain ⟨offsets, w₁⟩ := r
      obtain ⟨hof, hw₁, htrace₁, -⟩ := sourceOffsets_some hw hraw hoffsets
      simp only [hoffsets] at h
      cases hout : offsets[input.vout]?.bind (outputAt d.sdk sourceRaw) with
      | none => simp only [hout] at h; cases h
      | some output =>
        obtain ⟨satoshis, locking⟩ := output
        have hspent : d.body.spent d.sdk input = some (satoshis, locking) := by
          simp only [Body.spent, body, hraw, Option.bind_some, hof]
          exact hout
        simp only [hout] at h
        cases hadd : checkedAdd total satoshis with
        | none => simp only [hadd] at h; cases h
        | some sum =>
          simp only [hadd] at h
          have hsum : sum = total + satoshis ∧ sum ≤ u64Max := by
            unfold checkedAdd at hadd
            split at hadd
            · cases hadd
              exact ⟨rfl, by assumption⟩
            · cases hadd
          by_cases hpush : pushOnly (slice raw input.script) = true
          · simp only [hpush, if_true] at h
            split at h
            · cases h
            · rename_i w₂ digest hcharge
              obtain ⟨htrace₂, hsources₂, hdigest⟩ := charge_ok hcharge
              split at h
              · cases h
              · rename_i w₃ hrun
                cases h
                obtain ⟨htrace₃, hsources₃, l, u, hl, hu, hvalid⟩ := runScripts_ok hrun
                rw [hdigest u l hu hl] at hvalid
                refine ⟨?_, ?_, ⟨satoshis, locking, hspent, hpush, l, u, hl, hu, hvalid⟩, ?_, hsum.2⟩
                · intro prev offsets' hlookup
                  rw [hsources₃, hsources₂] at hlookup
                  exact hw₁ prev offsets' hlookup
                · rw [htrace₃, htrace₂]
                  show w₁.trace.proven = w.trace.proven
                  rw [htrace₁]
                · rw [hspent]
                  exact hsum.1
          · simp only [(Bool.not_eq_true _).mp hpush, Bool.false_eq_true, if_false] at h
            cases h

variable {inputs : List InputAt}

theorem runInputs_ok (hw : d.Keeps w)
    (h : d.runInputs txid raw tx w total vin inputs = .ok (w', total')) :
    d.Keeps w' ∧ w'.trace.proven = w.trace.proven ∧
      (∀ i input, inputs[i]? = some input → d.body.Spends d.sdk d.digestOf d.budget raw tx (vin + i) input) ∧
      total' = total + (inputs.map fun input => ((d.body.spent d.sdk input).map Prod.fst).getD 0).sum ∧ (total ≤ u64Max → total' ≤ u64Max) := by
  induction inputs generalizing w total vin with
  | nil =>
    cases h
    exact ⟨hw, rfl, nofun, rfl, id⟩
  | cons input inputs ih =>
    rw [runInputs] at h
    split at h
    · cases h
    · rename_i w₁ total₁ hrun
      obtain ⟨hw₁, hproven₁, hspends, htotal₁, hmax₁⟩ := runInput_ok hw hrun
      obtain ⟨hw', hproven', hrest, htotal', hmax'⟩ := ih hw₁ h
      refine ⟨hw', hproven'.trans hproven₁, fun i input' hi => ?_, ?_, fun _ => hmax' hmax₁⟩
      · cases i with
        | zero =>
          cases hi
          exact hspends
        | succ i =>
          have hlater := hrest i input' hi
          rwa [show vin + 1 + i = vin + (i + 1) by omega] at hlater
      · rw [htotal', htotal₁, List.map_cons, List.sum_cons, Nat.add_assoc]

theorem sumOutputs_some {sum : Nat} {outputs : List OutputAt} (hmax : total ≤ u64Max) :
    sumOutputs total outputs = some sum ↔ sum = total + (outputs.map OutputAt.satoshis).sum ∧ sum ≤ u64Max := by
  induction outputs generalizing total with
  | nil =>
    simp only [sumOutputs, List.map_nil, List.sum_nil, Nat.add_zero, Option.some.injEq]
    constructor
    · rintro rfl
      exact ⟨rfl, hmax⟩
    · exact fun h => h.1.symm
  | cons o outputs ih =>
    rw [sumOutputs, List.map_cons, List.sum_cons, ← Nat.add_assoc]
    by_cases hadd : total + o.satoshis ≤ u64Max
    · have hsome : checkedAdd total o.satoshis = some (total + o.satoshis) := if_pos hadd
      rw [hsome]
      exact ih hadd
    · have hnone : checkedAdd total o.satoshis = none := if_neg hadd
      rw [hnone]
      refine iff_of_false nofun ?_
      rintro ⟨rfl, hle⟩
      omega

/-! ## One transaction -/

theorem visit_ok {next : List Hash32} (hw : d.Keeps w) (h : d.visit w txid = .ok (w', next)) :
    d.Keeps w' ∧ d.body.Passes d.sdk d.digestOf d.budget txid ∧
      w'.trace.proven = w.trace.proven ++ if d.proven txid then [d.sdk.displayHex txid] else [] := by
  unfold visit at h
  cases hraw : d.raw txid with
  | none => simp only [hraw] at h; cases h
  | some raw =>
    simp only [hraw] at h
    cases hproven : d.proven txid with
    | true =>
      simp only [hproven, if_true] at h
      cases h
      exact ⟨hw, ⟨raw, hraw, fun hno => Bool.noConfusion (hproven.symm.trans hno)⟩, rfl⟩
    | false =>
      simp only [hproven, Bool.false_eq_true, if_false] at h
      cases hlayout : Layout.of d.sdk raw with
      | none => simp only [hlayout] at h; cases h
      | some tx =>
        simp only [hlayout, judge] at h
        split at h
        · cases h
        · rename_i w₁ inputTotal hrun
          have hw₀ : d.Keeps { w with stats := { w.stats with unprovenTxs := w.stats.unprovenTxs + 1 } } := hw
          obtain ⟨hw₁, hproven₁, hspends, htotal, hmax⟩ := runInputs_ok hw₀ hrun
          split at h
          · cases h
          · rename_i outputTotal hsum
            obtain ⟨houtputs, houtmax⟩ := (sumOutputs_some (Nat.zero_le _)).mp hsum
            rw [Nat.zero_add] at htotal houtputs
            split at h
            · cases h
            · rename_i hvalue
              cases h
              refine ⟨hw₁, ⟨raw, hraw, fun _ => ⟨tx, hlayout, fun vin input hin => ?_, ?_, ?_, ?_⟩⟩, ?_⟩
              · have hin := hspends vin input hin
                rwa [Nat.zero_add] at hin
              · rw [Body.inputTotal, ← htotal]
                exact hmax (Nat.zero_le _)
              · rw [Body.outputTotal, ← houtputs]
                exact houtmax
              · rw [Body.inputTotal, Body.outputTotal, ← htotal, ← houtputs]
                exact Nat.not_lt.mp hvalue
              · simp only [Bool.false_eq_true, if_false, List.append_nil]
                exact hproven₁

theorem visits_kept {order : List Hash32} (h : Worklist.Visits d.visit w order w') (hw : d.Keeps w) :
    (∀ x ∈ order, d.body.Passes d.sdk d.digestOf d.budget x) ∧
      w'.trace.proven = w.trace.proven ++ (order.filter d.proven).map d.sdk.displayHex := by
  induction h with
  | nil s => exact ⟨nofun, (List.append_nil _).symm⟩
  | cons hvisit _ ih =>
    obtain ⟨hw₁, hpasses, hproven⟩ := visit_ok hw hvisit
    obtain ⟨hrest, htrace⟩ := ih hw₁
    refine ⟨fun x hx => ?_, ?_⟩
    · rcases List.mem_cons.mp hx with rfl | hx
      · exact hpasses
      · exact hrest x hx
    · rw [htrace, hproven, List.append_assoc, List.filter_cons]
      split <;> rfl

theorem visit_keeps (w : Walk) (txid : Hash32) (w' : Walk) (next : List Hash32) (hw : d.Keeps w) (h : d.visit w txid = .ok (w', next)) :
    d.Keeps w' ∧ next = d.sources txid :=
  ⟨(visit_ok hw h).1, visit_next h⟩

theorem run_eq {σ ε : Type} {o : Option (Except ε σ)} {h : o.isSome = true} {r : Except ε σ} (heq : o.get h = r) : o = some r := by
  rw [← heq, Option.some_get]

theorem preVisit_ok (u : Unit) (txid : Hash32) (u' : Unit) (next : List Hash32) (h : d.preVisit u txid = .ok (u', next)) :
    next = (d.sources txid).filter fun prev => (d.raw prev).isSome := by
  unfold preVisit at h
  unfold sources
  cases hproven : d.proven txid with
  | true =>
    simp only [hproven, if_true] at h
    cases h
    rfl
  | false =>
    simp only [hproven, Bool.false_eq_true, if_false] at h ⊢
    cases hraw : d.raw txid with
    | none =>
      simp only [hraw] at h
      cases h
      rfl
    | some raw =>
      simp only [hraw] at h
      cases hlayout : Layout.of d.sdk raw with
      | none =>
        simp only [hlayout] at h
        cases h
        simp [hlayout]
      | some tx =>
        simp only [hlayout] at h
        split at h
        · cases h
        · cases h
          simp [hlayout]

end Door

/-! ## The body the stream hands out -/

def HandsOut (sdk : Sdk S) : Prop :=
  ∀ beef elements, sdk.decode beef = .ok elements → ∀ offset txid raw, Element.tx offset txid raw ∈ elements →
    offset + raw.length ≤ beef.length ∧ (beef.drop offset).take raw.length = raw

theorem proven_of (elements : List Element) (index : DoorIndex) (txid : Hash32) :
    (elements.foldl DoorIndex.add index).proven.contains txid = (index.proven.contains txid || (Body.of elements).proven txid) := by
  induction elements generalizing index with
  | nil => exact (Bool.or_false _).symm
  | cons e elements ih =>
    rw [List.foldl_cons, ih]
    have hcons : (Body.of (e :: elements)).proven txid = ((Body.of [e]).proven txid || (Body.of elements).proven txid) := by
      simp [Body.of]
    rw [hcons, ← Bool.or_assoc]
    congr 1
    cases e with
    | bump proven => simp [DoorIndex.add, Body.of]
    | tx offset id raw =>
      rw [DoorIndex.add]
      split <;> simp [Body.of]
    | txidOnly id => simp [DoorIndex.add, Body.of]

theorem raw_of {beef : Bytes} (elements : List Element)
    (hands : ∀ offset txid raw, Element.tx offset txid raw ∈ elements →
      offset + raw.length ≤ beef.length ∧ (beef.drop offset).take raw.length = raw) (index : DoorIndex) (txid : Hash32) :
    (elements.foldl DoorIndex.add index).raw beef txid =
      if (index.txs.lookup txid).isSome then index.raw beef txid else (Body.of elements).raw txid := by
  induction elements generalizing index with
  | nil =>
    split
    · rfl
    · rename_i hnone
      rw [Option.not_isSome_iff_eq_none] at hnone
      simp [DoorIndex.raw, hnone, Body.of]
  | cons e elements ih =>
    rw [List.foldl_cons, ih fun offset txid raw hin => hands offset txid raw (List.mem_cons_of_mem e hin)]
    cases e with
    | bump proven => rfl
    | txidOnly id => rfl
    | tx offset id raw =>
      obtain ⟨hbound, hbytes⟩ := hands offset id raw List.mem_cons_self
      rw [DoorIndex.add]
      by_cases hheld : (index.txs.lookup id).isSome = true
      · rw [if_pos hheld]
        by_cases hid : id = txid
        · subst hid
          rw [if_pos hheld, if_pos hheld]
        · simp [Body.of, hid]
      · rw [if_neg hheld]
        by_cases hid : id = txid
        · subst hid
          rw [if_neg hheld]
          simp [DoorIndex.raw, Body.of, hbound, hbytes]
        · simp [DoorIndex.raw, Body.of, hid, AList.lookup_insert_ne (Ne.symm hid)]

theorem body_of (sdk : Sdk S) {beef : Bytes} {elements : List Element} (hands : HandsOut sdk) (h : sdk.decode beef = .ok elements)
    (budget : DoorBudget) (estimated : Nat) (subject : Hash32) :
    (⟨sdk, beef, DoorIndex.of elements, budget, estimated, subject⟩ : Door S).body = Body.of elements := by
  have hraw (txid : Hash32) : (DoorIndex.of elements).raw beef txid = (Body.of elements).raw txid :=
    (raw_of elements (hands beef elements h) {} txid).trans rfl
  have hproven (txid : Hash32) : (DoorIndex.of elements).proven.contains txid = (Body.of elements).proven txid :=
    (proven_of elements {} txid).trans rfl
  show Body.mk _ _ = _
  rw [show (⟨sdk, beef, DoorIndex.of elements, budget, estimated, subject⟩ : Door S).raw = (Body.of elements).raw from funext hraw,
    show (⟨sdk, beef, DoorIndex.of elements, budget, estimated, subject⟩ : Door S).proven = (Body.of elements).proven from funext hproven]

/-! ## The digest's inputs -/

/-- A walk that trusts `seen` and ended well has passed over `order`. -/
structure PassesOver (sdk : Sdk S) (budget : DoorBudget) (estimated : Nat) (beef : Bytes) (elements : List Element) (subject : Hash32)
    (seen order : List Hash32) : Prop where
  visited : ∃ w w', Worklist.Visits (Door.visit ⟨sdk, beef, DoorIndex.of elements, budget, estimated, subject⟩) w order w'
  once : order.Nodup
  starts : subject ∈ order ∨ subject ∈ seen
  closed : ∀ x ∈ order, ∀ y ∈ (Body.of elements).sources sdk x, y ∈ order ∨ y ∈ seen
  reached : ∀ x ∈ order, (Body.of elements).Reaches sdk subject x
  passes : ∀ x ∈ order, (Body.of elements).Passes sdk (Body.checksSignature sdk budget.memoryLimit) budget x

theorem walkTrusting_passes {sdk : Sdk S} (hands : HandsOut sdk) {beef : Bytes} {subjectTxid : String} {budget : DoorBudget}
    {sized : StreamEstimate} {trusted : List String} {stats : WalkStats} {trace : WalkTrace}
    (h : walkTrusting sdk beef subjectTxid budget sized trusted {} = .ok (stats, trace)) :
    ∃ elements subject order, sdk.decode beef = .ok elements ∧ wireTxid sdk subjectTxid = some subject ∧
      PassesOver sdk budget sized.bytes beef elements subject (trusted.filterMap (wireTxid sdk)) order ∧
      trace.proven = (order.filter (Body.of elements).proven).map sdk.displayHex := by
  unfold walkTrusting at h
  split at h
  · cases h
  · cases hdecode : sdk.decode beef with
    | error e => simp only [hdecode] at h; cases h
    | ok elements =>
      simp only [hdecode] at h
      split at h
      · cases hsubject : wireTxid sdk subjectTxid with
        | none => simp only [hsubject] at h; cases h
        | some subject =>
          simp only [hsubject] at h
          split at h
          · cases h
          · split at h
            · cases h
            · rename_i w hwalk
              cases h
              have hbody := body_of sdk hands hdecode budget sized.bytes subject
              have hkeeps : Door.Keeps (⟨sdk, beef, DoorIndex.of elements, budget, sized.bytes, subject⟩ : Door S)
                  { stats := { memoryBytes := sized.bytes }, trace := {} } := fun prev offsets hlookup => by cases hlookup
              obtain ⟨order, hvisits, hnodup, -, hstack, hclosed, hreach⟩ := Worklist.run_ok Door.visit_keeps hkeeps (Door.run_eq hwalk)
              obtain ⟨hpasses, htrace⟩ := Door.visits_kept hvisits hkeeps
              rw [hbody] at hpasses
              refine ⟨elements, subject, order, rfl, rfl, ⟨⟨_, _, hvisits⟩, hnodup, hstack subject List.mem_cons_self, ?_, ?_, hpasses⟩, ?_⟩
              · rw [← hbody]
                exact hclosed
              · intro x hx
                obtain ⟨root, hroot, hpath⟩ := hreach x hx
                cases List.mem_singleton.mp hroot
                rw [← hbody]
                exact hpath
              · rw [← hbody]
                exact htrace
      · cases h

/-! ## The walk of a body -/

namespace Hex

def digit (n : Nat) : Char := if n < 10 then Char.ofNat (48 + n) else Char.ofNat (87 + n)

def value (c : Char) : Option Nat :=
  if 48 ≤ c.toNat ∧ c.toNat < 58 then some (c.toNat - 48) else if 97 ≤ c.toNat ∧ c.toNat < 103 then some (c.toNat - 87) else none

def encode (bytes : Bytes) : List Char := bytes.flatMap fun b => [digit (b.toNat / 16), digit (b.toNat % 16)]

def decode : List Char → Option Bytes
  | [] => some []
  | [_] => none
  | a :: b :: rest => (value a).bind fun hi => (value b).bind fun lo => (decode rest).map fun bytes => UInt8.ofNat (16 * hi + lo) :: bytes

theorem value_digit (n : Nat) (h : n < 16) : value (digit n) = some n ∧ (digit n).toLower = digit n := by
  have hall : ∀ n : Fin 16, value (digit n) = some n.val ∧ (digit n).toLower = digit n := by decide
  exact hall ⟨n, h⟩

theorem decode_encode (bytes : Bytes) : decode (encode bytes) = some bytes := by
  induction bytes with
  | nil => rfl
  | cons b bytes ih =>
    have hb := b.toNat_lt
    have hvalue : 16 * (b.toNat / 16) + b.toNat % 16 = b.toNat := Nat.div_add_mod b.toNat 16
    show decode (digit (b.toNat / 16) :: digit (b.toNat % 16) :: encode bytes) = some (b :: bytes)
    rw [decode, (value_digit _ (by omega)).1, (value_digit _ (by omega)).1, ih, Option.bind_some, Option.bind_some, hvalue, UInt8.ofNat_toNat]
    rfl

theorem encode_lower (bytes : Bytes) : (encode bytes).map Char.toLower = encode bytes := by
  induction bytes with
  | nil => rfl
  | cons b bytes ih =>
    have hb := b.toNat_lt
    show (digit (b.toNat / 16)).toLower :: (digit (b.toNat % 16)).toLower :: (encode bytes).map Char.toLower = _
    rw [(value_digit _ (by omega)).2, (value_digit _ (by omega)).2, ih]
    rfl

def display (txid : Hash32) : String := String.ofList (encode txid.toList.reverse)

end Hex

/-! A proven transaction of 5 satoshis under `OP_1`, and the subject that spends it. -/

namespace TwoTxs

def sourceId : Hash32 := #v[116, 101, 231, 199, 206, 95, 140, 167, 183, 188, 158, 102, 218, 162, 212, 114, 149, 190, 184, 177, 64, 72, 53, 109, 238, 72,
  244, 131, 132, 40, 206, 119]

def subjectId : Hash32 := #v[180, 28, 160, 106, 99, 167, 8, 187, 172, 255, 136, 47, 37, 171, 195, 115, 209, 201, 31, 162, 52, 209, 87, 210, 234, 63, 185,
  34, 156, 121, 187, 24]

def sourceRaw : Bytes := [1, 0, 0, 0, 0, 1, 5, 0, 0, 0, 0, 0, 0, 0, 1, 0x51, 0, 0, 0, 0]

def subjectRaw : Bytes :=
  [1, 0, 0, 0, 1] ++ sourceId.toList ++ [0, 0, 0, 0, 0, 0xff, 0xff, 0xff, 0xff, 1, 3, 0, 0, 0, 0, 0, 0, 0, 0, 0, 0, 0, 0]

def beef : Bytes := [2, 0, 0xbe, 0xef, 1, 1, 1, 2, 0, 2] ++ sourceId.toList ++ [1, 1, 2, 1, 0] ++ sourceRaw ++ [0] ++ subjectRaw

def elements : List Element := [.bump [sourceId], .tx 47 sourceId sourceRaw, .tx 68 subjectId subjectRaw]

def reader : Sdk Bytes where
  decode bytes := if bytes = beef then .ok elements else .error "invalid BEEF"
  fromVarInt bytes := bytes.head?.bind fun b => if b < 0xfd then some (b.toNat, 1) else none
  fromHex text := Hex.decode text.toList
  displayHex := Hex.display
  fromBinary := .ok
  ops script := script.map UInt8.toNat
  validate _ := .ok true

theorem handsOut : HandsOut reader := by
  intro bytes read hread offset txid raw hin
  have hbytes : bytes = beef := by
    by_cases hbytes : bytes = beef
    · exact hbytes
    · simp [reader, hbytes] at hread
  subst hbytes
  cases hread
  simp only [elements, List.mem_cons, List.not_mem_nil, or_false, reduceCtorEq, false_or, Element.tx.injEq] at hin
  rcases hin with ⟨rfl, -, rfl⟩ | ⟨rfl, -, rfl⟩ <;> decide +kernel

end TwoTxs

end OverlayEngine.ScriptDoor
