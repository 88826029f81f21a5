import OverlayEngine.Deferral

/-!
# The memo of a fault

A root that faulted is walked again from its root only, so what is stored of it
is its fault and no graph. Every record of a fault that the passes of a root can
reach is given back whole by its memo, but for the root that waits in it.
-/

namespace OverlayEngine.Gasp

/-- The fact of one root of one peer and topic. -/
structure FaultMemo where
  outpoint : Outpoint
  fault : FaultClass
  faults : Nat
  retries : Nat
  firstAt : Nat
  nextAt : Nat
  score : Nat
  dead : Bool
  unanchorable : Bool
  cursorPassable : Bool
  expiry : Option Nat

namespace FaultMemo

def fromRecord (r : DeferredGraph) (observedAt : Nat) : Option FaultMemo :=
  r.faultClass.map fun fault =>
    { outpoint := r.outpoint
      fault := fault
      faults := r.faults
      retries := r.unanchorableRetries
      firstAt := observedAt
      nextAt := r.retryAt
      score := r.score
      dead := r.isDead
      unanchorable := r.isUnanchorable
      cursorPassable := r.cursorPassable
      expiry := r.expiry }

def intoRecord (m : FaultMemo) : DeferredGraph :=
  { outpoint := m.outpoint
    score := m.score
    reason := if m.dead then .dead m.fault else if m.unanchorable then .unanchorable m.fault else .faultRetry m.fault
    cursorPassable := m.cursorPassable
    faults := m.faults
    retryAt := m.nextAt
    unanchorableRetries := m.retries
    expiry := m.expiry }

end FaultMemo

/-- What no memo keeps of a record. -/
def DeferredGraph.graphless (r : DeferredGraph) : DeferredGraph :=
  { r with nodes := [], pending := [], calls := 0, passes := 0, idleFaults := 0, idleResumes := 0 }

section
variable {r : DeferredGraph} {root : Outpoint} {A : Set Source}

theorem isStruck_iff : r.isStruck = true ↔ 0 < r.faults ∧ ∀ why, r.reason ≠ .plain why := by
  cases hreason : r.reason <;> simp [DeferredGraph.isStruck, hreason]

theorem fromRecord_struck (h : r.isStruck = true) (observedAt : Nat) :
    ∃ m, FaultMemo.fromRecord r observedAt = some m ∧ m.intoRecord = r.graphless := by
  obtain ⟨hfaults, hplain⟩ := isStruck_iff.mp h
  cases hreason : r.reason with
  | plain why => exact (hplain why hreason).elim
  | _ fault =>
    refine ⟨_, by simp only [FaultMemo.fromRecord, DeferredGraph.faultClass, h, hreason]; rfl, ?_⟩
    simp only [FaultMemo.intoRecord, DeferredGraph.graphless, DeferredGraph.isDead, DeferredGraph.isUnanchorable, hreason, hfaults]
    rfl

/-! ## The records of a fault -/

/-- A record with faults is struck, and its memo keeps all of it but what waits. -/
def FaultOnly (r : DeferredGraph) : Prop := 0 < r.faults → r.isStruck = true ∧ r.graphless = { r with pending := [] }

theorem faultOnly_strike (now score : Nat) (fault : FaultClass) (expiry : Option Nat) (prior : Option DeferredGraph) :
    FaultOnly (strike now score root fault expiry prior) := by
  have hreason (spent unanchorable : Bool) (why : String) :
      (if spent then Reason.dead fault else if unanchorable then .unanchorable fault else .faultRetry fault) ≠ .plain why := by
    cases spent <;> cases unanchorable <;> simp
  exact fun hfaults => ⟨isStruck_iff.mpr ⟨hfaults, hreason _ _⟩, rfl⟩

theorem FaultOnly.recounted {now : Nat} {r' : DeferredGraph} (h : FaultOnly r) (hr : Recounted now r r') : FaultOnly r' := by
  intro hfaults
  have hsame : r'.faults = r.faults := by
    cases hr with
    | idle prior held => unfold idleResume; split <;> rfl
    | heldBack => unfold heldBack; split <;> rfl
    | kept => unfold keepUnanchorable; split <;> rfl
    | reserved => rfl
  rw [hsame] at hfaults
  obtain ⟨hstruck, hgraph⟩ := h hfaults
  cases hr with
  | idle prior held =>
    rw [show idleResume now prior held r = r by simp [idleResume, hstruck]]
    exact ⟨hstruck, hgraph⟩
  | heldBack =>
    rw [show heldBack r = r by simp [heldBack, hstruck]]
    exact ⟨hstruck, hgraph⟩
  | kept =>
    unfold keepUnanchorable
    split
    · exact ⟨isStruck_iff.mpr ⟨hfaults, fun why => by simp⟩,
        congrArg (fun s : DeferredGraph => { s with retryAt := 0, reason := .dead (r.faultClass.getD .other) }) hgraph⟩
    · exact ⟨hstruck, congrArg (fun s : DeferredGraph => { s with retryAt := now + unanchorableRetrySecs }) hgraph⟩
  | reserved =>
    exact ⟨hstruck, congrArg (fun s : DeferredGraph =>
      { s with unanchorableRetries := r.unanchorableRetries + 1, retryAt := now + unanchorableRetrySecs }) hgraph⟩

theorem walkGraph_faults (S : Source) (now : Nat) (cuts : List Cut) (m : Memos) (w : Walk) :
    (walkGraph S now cuts m w).2.2.record.faults = w.record.faults := by
  induction cuts generalizing m w with
  | nil => rfl
  | cons cut rest ih =>
    unfold walkGraph
    split
    · rfl
    · split
      · exact ih m w.pop
      · split
        · rfl
        · dsimp only
          split
          · rfl
          · rfl
          · split
            · rfl
            · rfl
            · rfl
            · rename_i out _ _
              rw [ih]
              cases out <;> rfl

theorem saveWalk_saved {now heldRecords : Nat} {reason : String} {completed : Bool} {w w' : Walk}
    (h : (∃ retry, saveWalk now heldRecords reason completed w = .save w' retry) ∨
      ∃ why, saveWalk now heldRecords reason completed w = .unkept why w') :
    w' = { w with counted := true, record := w.saved now reason completed } := by
  unfold saveWalk at h
  split at h
  · rcases h with ⟨retry, h⟩ | ⟨why, h⟩ <;> cases h
  · dsimp only at h
    split at h
    · rcases h with ⟨retry, h⟩ | ⟨why, h⟩ <;> cases h
      rfl
    · split at h
      · rcases h with ⟨retry, h⟩ | ⟨why, h⟩ <;> cases h
        rfl
      · rcases h with ⟨retry, h⟩ | ⟨why, h⟩ <;> cases h
        rfl

/-- Faults are recorded in the store only; no walk carries one. -/
structure Passes.Faulted (p : Passes) : Prop where
  stored : ∀ r, p.stored = some r → FaultOnly r
  walk : ∀ w, p.walk = some w → w.record.faults = 0

theorem faultOnly_of_none {r : DeferredGraph} (h : r.faults = 0) : FaultOnly r := fun hpos => by omega

theorem dropRecord_faults {why : DropReason} {stored : Option DeferredGraph} (h : dropRecord root why stored = some r) : r.faults = 0 := by
  cases stored with
  | none => cases h
  | some r₀ =>
    simp only [dropRecord] at h
    split at h
    · cases h
    · split at h <;> cases h
      rfl

theorem Passes.Faulted.step {p p' : Passes} (h : p.Faulted) (hstep : p.Step A root p') : p'.Faulted := by
  cases hstep with
  | sync => exact ⟨h.stored, h.walk⟩
  | other => exact ⟨h.stored, h.walk⟩
  | fresh score cap hnone => exact ⟨h.stored, fun w hw => by cases hw; rfl⟩
  | resume r cap hr hs =>
    refine ⟨h.stored, fun w hw => ?_⟩
    cases hw
    -- a record that is not struck has no faults
    refine Nat.eq_zero_of_not_pos fun hpos => ?_
    rw [(h.stored r hr hpos).1] at hs
    cases hs
  | rewalk r score cap hr hs => exact ⟨h.stored, fun w hw => by cases hw; rfl⟩
  | reasked w calls bytes hw => exact ⟨h.stored, fun w' hw' => by cases hw'; exact h.walk w hw⟩
  | inFlight score hnone => exact ⟨h.stored, fun w hw => by cases hw; rfl⟩
  | walked S hS now cuts w hw => exact ⟨h.stored, fun w' hw' => by cases hw'; exact (walkGraph_faults ..).trans (h.walk w hw)⟩
  | idleFault w hw => exact ⟨h.stored, fun w' hw' => by cases hw'; exact h.walk w hw⟩
  | saved now heldRecords reason completed w w' retry hw hk =>
    refine ⟨fun r hr => ?_, fun w' hw' => by cases hw'⟩
    cases hr
    rw [saveWalk_saved (.inl ⟨retry, hk⟩)]
    exact faultOnly_of_none (h.walk w hw)
  | goesOn now heldRecords reason completed w w' resumed hw hk =>
    exact ⟨h.stored, fun w'' hw'' => by cases hw''; rw [saveWalk_saved hk]; exact h.walk w hw⟩
  | ended => exact ⟨h.stored, fun w hw => by cases hw⟩
  | restarted w score cap hw =>
    exact ⟨fun r hr => faultOnly_of_none (dropRecord_faults hr), fun w' hw' => by cases hw'; rfl⟩
  | dropped why => exact ⟨fun r hr => faultOnly_of_none (dropRecord_faults hr), h.walk⟩
  | deleted => exact ⟨fun r hr => (by cases hr), h.walk⟩
  | struck now score fault expiry prior => exact ⟨fun r hr => by cases hr; exact faultOnly_strike _ _ _ _ _, h.walk⟩
  | recounted now r r' hr hcount =>
    refine ⟨fun r'' hr'' => ?_, h.walk⟩
    cases hr''
    exact (h.stored r hr).recounted hcount

theorem faulted_reachable {p : Passes} (hp : p.Reachable A root) : p.Faulted := by
  induction hp with
  | refl => exact ⟨fun r hr => (by cases hr), fun w hw => (by cases hw)⟩
  | tail _ hstep ih => exact ih.step hstep

/-- What a memo of `r` is good for: it gives the record back but for what waits, it is the memo of
what it gives back, and the next fault of the root is recorded on it as on the record. -/
structure Remembered (r : DeferredGraph) (observedAt : Nat) (m : FaultMemo) : Prop where
  made : FaultMemo.fromRecord r observedAt = some m
  record : m.intoRecord = { r with pending := [] }
  again : FaultMemo.fromRecord m.intoRecord observedAt = some m
  strike : ∀ now score outpoint fault expiry, strike now score outpoint fault expiry (some m.intoRecord) = strike now score outpoint fault expiry (some r)

/-- Every record of a fault that the passes of a root reach is remembered by its memo. -/
theorem reachable_remembered {p : Passes} (hp : p.Reachable A root) (hr : p.stored = some r) (hfaults : 0 < r.faults) (observedAt : Nat) :
    ∃ m, Remembered r observedAt m := by
  obtain ⟨hstruck, hgraph⟩ := (faulted_reachable hp).stored r hr hfaults
  obtain ⟨m, hmade, hrecord⟩ := fromRecord_struck hstruck observedAt
  exact ⟨m, hmade, hrecord.trans hgraph, by rw [hrecord]; exact hmade, fun _ _ _ _ _ => by rw [hrecord]; rfl⟩

theorem reachable_remembered_strike :
    ∃ m, Remembered (strike 10 1 ⟨"R", 0⟩ .notFound none none) 20 m :=
  reachable_remembered (p := { stored := some (strike 10 1 ⟨"R", 0⟩ .notFound none none) }) (A := {byGraphId})
    (Relation.ReflTransGen.single (.struck _ 10 1 .notFound none none)) rfl (by decide) 20

end

end OverlayEngine.Gasp
