import OverlayEngine.ScriptDoorSound

/-!
# Static refusals at the script door

The pre-pass reads the unlocking scripts of every transaction the walk may come
to, before anything is charged: one that is not push-only is refused whatever
the budget, and the walk's own check of an input never fails.
-/

namespace OverlayEngine.ScriptDoor

variable {S : Type}

namespace Door

abbrev on (sdk : Sdk S) (beef : Bytes) (budget : DoorBudget) (sized : StreamEstimate) (elements : List Element) (subject : Hash32) : Door S :=
  ⟨sdk, beef, DoorIndex.of elements, budget, sized.bytes, subject⟩

variable (d : Door S)

def ReachesPast (trusted : List Hash32) (txid : Hash32) : Prop :=
  Relation.ReflTransGen (Worklist.FreshEdge trusted d.sources) d.subject txid

def Unlocks (txid : Hash32) (vin : Nat) (unlocking : Bytes) : Prop :=
  d.proven txid = false ∧ ∃ raw tx input, d.raw txid = some raw ∧ Layout.of d.sdk raw = some tx ∧ tx.inputs[vin]? = some input ∧
    slice raw input.script = unlocking

def preSources (txid : Hash32) : List Hash32 := (d.sources txid).filter fun prev => (d.raw prev).isSome

variable {d}

/-! ## One transaction of the pre-pass -/

variable {x txid : Hash32}

theorem preVisit_push {u : Unit} {r : Unit × List Hash32} (h : d.preVisit u txid = .ok r) {vin : Nat} {unlocking : Bytes}
    (hunlocks : d.Unlocks txid vin unlocking) : pushOnly unlocking = true := by
  obtain ⟨hproven, raw, tx, input, hraw, hlayout, hinput, rfl⟩ := hunlocks
  simp only [preVisit, hproven, Bool.false_eq_true, if_false, hraw, hlayout] at h
  split at h
  · cases h
  · rename_i hnone
    have hall := List.findIdx?_eq_none_iff.mp hnone input (List.mem_of_getElem? hinput)
    simpa using hall

theorem preVisit_error {u : Unit} {e : EngineError} (h : d.preVisit u txid = .error e) :
    ∃ vin unlocking, d.Unlocks txid vin unlocking ∧ pushOnly unlocking = false ∧
      e = .scriptVerificationFailed (d.sdk.displayHex txid) vin notPushOnly := by
  unfold preVisit at h
  split at h
  · cases h
  · rename_i hproven
    split at h
    · cases h
    · rename_i raw hraw
      split at h
      · cases h
      · rename_i tx hlayout
        split at h
        · rename_i vin hvin
          cases h
          obtain ⟨hbound, hpush, -⟩ := List.findIdx?_eq_some_iff_getElem.mp hvin
          refine ⟨vin, _, ⟨by simpa using hproven, raw, tx, tx.inputs[vin], hraw, hlayout, List.getElem?_eq_getElem hbound, rfl⟩, ?_, rfl⟩
          simpa using hpush
        · cases h

/-! ## The pre-pass and the walk -/

theorem sources_present {y : Hash32} (h : y ∈ d.sources x) : (d.raw x).isSome = true := by
  unfold sources at h
  split at h
  · cases h
  · cases hraw : d.raw x with
    | none => rw [hraw] at h; cases h
    | some raw => rfl

variable {trusted : List Hash32}

theorem preReach (h : d.ReachesPast trusted x) (hpresent : (d.raw x).isSome = true) :
    Relation.ReflTransGen (Worklist.FreshEdge trusted d.preSources) d.subject x := by
  induction h with
  | refl => exact .refl
  | tail _ hedge ih => exact .tail (ih (sources_present hedge.2)) ⟨hedge.1, List.mem_filter.mpr ⟨hedge.2, hpresent⟩⟩

theorem comes_preVisit (h : d.firstNotPushOnly trusted = none) (hreach : d.ReachesPast trusted x)
    (htrusted : x ∉ trusted) (hpresent : (d.raw x).isSome = true) :
    Worklist.Comes d.preVisit [d.subject] trusted () x () ∧ ∃ r, d.preVisit () x = .ok r := by
  unfold firstNotPushOnly at h
  split at h
  · rename_i hrun
    obtain ⟨⟨⟩, hcomes⟩ :=
      Worklist.comes_of_reach preVisit_ok (run_eq hrun) List.mem_cons_self (preReach hreach hpresent) htrusted
    exact ⟨hcomes, hcomes.visited (run_eq hrun)⟩
  · cases h

theorem firstNotPushOnly_some {e : EngineError} (h : d.firstNotPushOnly trusted = some e) :
    ∃ x vin unlocking, d.Unlocks x vin unlocking ∧ pushOnly unlocking = false ∧
      e = .scriptVerificationFailed (d.sdk.displayHex x) vin notPushOnly := by
  unfold firstNotPushOnly at h
  split at h
  · cases h
  · rename_i hrun
    cases h
    obtain ⟨x, u, -, herror, -⟩ := Worklist.run_error (I := fun _ => True)
      (fun u txid u' next _ h => ⟨trivial, preVisit_ok u txid u' next h⟩) trivial (run_eq hrun)
    exact ⟨x, preVisit_error herror⟩

end Door

/-- An unlocking script that is not push-only, of a transaction the subject reaches through unproven and untrusted ones, is refused
whatever the budget. Where the pre-pass refused nothing it has come to each transaction in the body that the walk comes to. -/
theorem static_refusal_first (sdk : Sdk S) (beef : Bytes) (subjectTxid : String) (budget : DoorBudget) (sized : StreamEstimate)
    (trusted : List String) (trace : WalkTrace) (elements : List Element) (subject : Hash32) (hfits : sized.overAt = none)
    (hread : sized.read = true) (hdecode : sdk.decode beef = .ok elements) (hsubject : wireTxid sdk subjectTxid = some subject) :
    (∀ x vin unlocking, (Door.on sdk beef budget sized elements subject).ReachesPast (trusted.filterMap (wireTxid sdk)) x →
      x ∉ trusted.filterMap (wireTxid sdk) → (Door.on sdk beef budget sized elements subject).Unlocks x vin unlocking →
      pushOnly unlocking = false →
      ∃ x' vin' unlocking', (Door.on sdk beef budget sized elements subject).Unlocks x' vin' unlocking' ∧ pushOnly unlocking' = false ∧
        walkTrusting sdk beef subjectTxid budget sized trusted trace =
          .error (.scriptVerificationFailed (sdk.displayHex x') vin' Door.notPushOnly, trace)) ∧
      ((Door.on sdk beef budget sized elements subject).firstNotPushOnly (trusted.filterMap (wireTxid sdk)) = none → ∀ w x w',
        Worklist.Comes (Door.on sdk beef budget sized elements subject).visit [subject] (trusted.filterMap (wireTxid sdk)) w x w' →
        ∀ vin unlocking, (Door.on sdk beef budget sized elements subject).Unlocks x vin unlocking →
          Worklist.Comes (Door.on sdk beef budget sized elements subject).preVisit [subject] (trusted.filterMap (wireTxid sdk)) () x () ∧
            pushOnly unlocking = true) := by
  have hpresent {x : Hash32} {vin : Nat} {unlocking : Bytes} (h : (Door.on sdk beef budget sized elements subject).Unlocks x vin unlocking) :
      ((Door.on sdk beef budget sized elements subject).raw x).isSome = true := by
    obtain ⟨-, raw, -, -, hraw, -⟩ := h
    rw [hraw]
    rfl
  constructor
  · intro x vin unlocking hreach htrusted hunlocks hpush
    cases hfirst : (Door.on sdk beef budget sized elements subject).firstNotPushOnly (trusted.filterMap (wireTxid sdk)) with
    | none =>
      obtain ⟨-, r, hr⟩ := Door.comes_preVisit hfirst hreach htrusted (hpresent hunlocks)
      rw [Door.preVisit_push hr hunlocks] at hpush
      cases hpush
    | some e =>
      obtain ⟨x', vin', unlocking', hunlocks', hpush', rfl⟩ := Door.firstNotPushOnly_some hfirst
      refine ⟨x', vin', unlocking', hunlocks', hpush', ?_⟩
      simp [walkTrusting, hfits, hread, hdecode, hsubject, hfirst]
  · intro hfirst w x w' hcomes vin unlocking hunlocks
    obtain ⟨htrusted, root, hroot, hpath⟩ := hcomes.reach fun _ _ _ _ h => Door.visit_next h
    cases List.mem_singleton.mp hroot
    obtain ⟨hpre, r, hr⟩ := Door.comes_preVisit hfirst hpath htrusted (hpresent hunlocks)
    exact ⟨hpre, Door.preVisit_push hr hunlocks⟩

/-! A subject whose one input pushes nothing and runs `OP_NOP`, its source not in the body, and no budget for work. -/

namespace RunsNop

def subjectId : Hash32 := #v[107, 125, 41, 255, 233, 166, 1, 5, 17, 81, 244, 166, 194, 126, 183, 203, 107, 164, 107, 182, 131, 42, 39, 6, 194, 233, 57,
  244, 25, 77, 28, 172]

def subjectRaw : Bytes :=
  [1, 0, 0, 0, 1] ++ TwoTxs.sourceId.toList ++ [0, 0, 0, 0, 1, 0x61, 0xff, 0xff, 0xff, 0xff, 1, 3, 0, 0, 0, 0, 0, 0, 0, 0, 0, 0, 0, 0]

def beef : Bytes := [2, 0, 0xbe, 0xef, 0, 1, 0] ++ subjectRaw

def elements : List Element := [.tx 7 subjectId subjectRaw]

def reader : Sdk Bytes := { TwoTxs.reader with decode := fun bytes => if bytes = beef then .ok elements else .error "invalid BEEF" }

end RunsNop

theorem static_refusal_first_nop : ∃ txid vin,
    walkTrusting RunsNop.reader RunsNop.beef "ac1c4d19f439e9c206272a83b66ba46bcbb77ec2a6f451110501a6e9ff297d6b" ⟨32, 0, 0, 10000⟩ ⟨200, none, true⟩ [] {} =
      .error (.scriptVerificationFailed txid vin Door.notPushOnly, {}) := by
  have hdecode : RunsNop.reader.decode RunsNop.beef = .ok RunsNop.elements := by simp [RunsNop.reader]
  obtain ⟨x', vin', -, -, -, hwalk⟩ := (static_refusal_first RunsNop.reader RunsNop.beef
    "ac1c4d19f439e9c206272a83b66ba46bcbb77ec2a6f451110501a6e9ff297d6b" ⟨32, 0, 0, 10000⟩ ⟨200, none, true⟩ [] {}
    RunsNop.elements RunsNop.subjectId rfl rfl hdecode (by decide)).1 RunsNop.subjectId 0 [0x61] .refl List.not_mem_nil
    ⟨rfl, RunsNop.subjectRaw, ⟨1, [⟨TwoTxs.sourceId, 0, (42, 43), 0xffffffff⟩], [⟨3, (57, 57)⟩], 0⟩, _, rfl, rfl, rfl, rfl⟩ rfl
  exact ⟨_, _, hwalk⟩

end OverlayEngine.ScriptDoor
