import OverlayEngine.CarriedWalks
import OverlayEngine.ScriptDoorSound

/-!
# What a submit's walks have passed over

A body that the door lands from a successor's BEEF was passed over by a walk of
the same submit that ended well, and so was all that a walk was told to trust:
`walk_cover` goes over the parsed BEEF as the stream's walk goes over its bytes.
-/

namespace OverlayEngine.CarriedWalks

open ScriptDoor

variable {S : Type}

/-! ## bsv-rs's word -/

structure Agrees (sdk : BeefSdk S) (b : Beef) (elements : List Element) : Prop where
  inputs : ∀ txid raw tx, (Body.of elements).raw txid = some raw → Layout.of sdk.toSdk raw = some tx →
    ∃ inputs, b.bodies (sdk.displayHex txid) = some inputs ∧ inputs.filterMap Input.sourceTxid = tx.inputs.map fun i => sdk.displayHex i.prev
  proven : ∀ txid, (Body.of elements).proven txid = true → (b.provenIndex (sdk.displayHex txid)).isSome = true

structure Documented (sdk : BeefSdk S) : Prop where
  hands : HandsOut sdk.toSdk
  hex : ∀ txid, wireTxid sdk.toSdk (sdk.displayHex txid) = some txid
  lower : ∀ txid, asciiLower (sdk.displayHex txid) = sdk.displayHex txid
  found : ∀ bytes b txid tx, sdk.parse bytes = .ok b → sdk.findAtomicTransaction b txid = some tx → tx.id = txid ∧ ∃ h, sdk.displayHex h = txid
  parsed : ∀ bytes b elements, sdk.parse bytes = .ok b → sdk.decode bytes = .ok elements → Agrees sdk b elements
  named : ∀ bytes b txid named b', sdk.parse bytes = .ok b → sdk.toBinaryAtomic b txid = .ok named → sdk.parse named = .ok b' →
    ∀ t, b'.bodies t = b.bodies t ∧ (b'.provenIndex t).isSome = (b.provenIndex t).isSome
  atomic : ∀ bytes b txid tx atomic b', sdk.parse bytes = .ok b → sdk.findAtomicTransaction b txid = some tx → tx.atomicBeef = .ok atomic →
    sdk.parse atomic = .ok b' → b'.atomicTxid = some txid ∧ (b'.txs.any fun t => t.txid == txid) = true ∧
      ∀ t, (∀ inputs, b'.bodies t = some inputs → b.bodies t = some inputs) ∧ ((b'.provenIndex t).isSome = true → (b.provenIndex t).isSome = true)

variable (e : Engine S)

/-! ## What a walk has passed over -/

def RootTaken (walk : Nat) (b : Beef) (bump : MerklePath) (at_ : Nat) : Prop :=
  ∃ asked root, b.provenIndex asked = some (bump, at_) ∧ e.sdk.computeRoot bump asked = .ok root ∧
    ∀ tracker, e.tracker = some tracker → tracker walk at_ root bump.blockHeight = .ok true

def Rooted (call : WalkCall) (txid : String) : Prop :=
  ∃ b bump at_, e.sdk.parse call.beef = .ok b ∧ b.provenIndex txid = some (bump, at_) ∧ RootTaken e call.number b bump at_

def PassedBy (call : WalkCall) (txid : String) : Prop :=
  ∃ elements subject order h, e.sdk.decode call.beef = .ok elements ∧ wireTxid e.sdk.toSdk call.subject = some subject ∧
    PassesOver e.sdk.toSdk e.walkBudget (e.sized call.beef).bytes call.beef elements subject (call.trusted.filterMap (wireTxid e.sdk.toSdk)) order ∧
    h ∈ order ∧ e.sdk.displayHex h = txid ∧ ((Body.of elements).proven h = true → Rooted e call txid)

def Walked (walks : List WalkCall) (txid : String) : Prop := ∃ call ∈ walks, call.result = .ok none ∧ PassedBy e call txid

def TrustWalked : List WalkCall → Prop
  | [] => True
  | call :: earlier => (∀ txid ∈ call.trusted, Walked e earlier txid) ∧ TrustWalked earlier

variable {e} {txid : String} {walks : List WalkCall}

theorem Walked.mono {walks' : List WalkCall} (hsub : ∀ call ∈ walks, call ∈ walks') (h : Walked e walks txid) :
    Walked e walks' txid := by
  obtain ⟨call, hcall, hpassed⟩ := h
  exact ⟨call, hsub call hcall, hpassed⟩

theorem Walked.cons (h : Walked e walks txid) (call : WalkCall) : Walked e (call :: walks) txid :=
  h.mono fun _ hin => List.mem_cons_of_mem call hin

theorem Walked.hex (h : Walked e walks txid) : ∃ t, e.sdk.displayHex t = txid := by
  obtain ⟨_, _, _, _, _, _, t, _, _, _, _, htxid, _⟩ := h
  exact ⟨t, htxid⟩

/-! ## The roots -/

variable {b : Beef}

theorem provenIndex_bump {bump : MerklePath} {at_ : Nat} (h : b.provenIndex txid = some (bump, at_)) :
    b.bumps[at_]? = some bump := by
  have hin := List.mem_of_find?_eq_some h
  rw [List.mem_iff_getElem?] at hin
  obtain ⟨i, hi⟩ := hin
  rw [List.getElem?_zipIdx] at hi
  obtain ⟨bump', hbump, heq⟩ := Option.map_eq_some_iff.mp hi
  simp only [Prod.mk.injEq, Nat.zero_add] at heq
  obtain ⟨rfl, rfl⟩ := heq
  exact hbump

variable {walk fuel : Nat}

theorem checkRoots_ok {checked : List Nat} {reached : List String}
    (hchecked : ∀ at_ ∈ checked, ∀ bump, b.bumps[at_]? = some bump → RootTaken e walk b bump at_)
    (h : checkRoots e walk b checked reached = .ok ()) :
    ∀ txid ∈ reached, ∃ bump at_, b.provenIndex txid = some (bump, at_) ∧ RootTaken e walk b bump at_ := by
  induction reached generalizing checked with
  | nil => nofun
  | cons txid rest ih =>
    rw [checkRoots] at h
    split at h
    · cases h
    · rename_i bump at_ hindex
      have hbump := provenIndex_bump hindex
      have hnext (htaken : RootTaken e walk b bump at_) :
          ∀ at' ∈ at_ :: checked, ∀ bump', b.bumps[at']? = some bump' → RootTaken e walk b bump' at' := by
        intro at' hin bump' hat
        rcases List.mem_cons.mp hin with rfl | hin
        · rw [hbump] at hat
          cases hat
          exact htaken
        · exact hchecked at' hin bump' hat
      have hcons (htaken : RootTaken e walk b bump at_)
          (hrest : ∀ t ∈ rest, ∃ bump at_, b.provenIndex t = some (bump, at_) ∧ RootTaken e walk b bump at_) :
          ∀ t ∈ txid :: rest, ∃ bump at_, b.provenIndex t = some (bump, at_) ∧ RootTaken e walk b bump at_ := by
        intro t ht
        rcases List.mem_cons.mp ht with rfl | ht
        · exact ⟨bump, at_, hindex, htaken⟩
        · exact hrest t ht
      split at h
      · rename_i hin
        exact hcons (hchecked at_ (List.contains_iff_mem.mp hin) bump hbump) (ih hchecked h)
      · split at h
        · cases h
        · rename_i root hroot
          split at h
          · rename_i htracker
            have htaken : RootTaken e walk b bump at_ := ⟨txid, root, hindex, hroot, fun tracker ht => by rw [htracker] at ht; cases ht⟩
            exact hcons htaken (ih (hnext htaken) h)
          · rename_i tracker htracker
            split at h
            · rename_i hanswer
              have htaken : RootTaken e walk b bump at_ := by
                refine ⟨txid, root, hindex, hroot, fun tracker' ht => ?_⟩
                rw [htracker] at ht
                cases ht
                exact hanswer
              exact hcons htaken (ih (hnext htaken) h)
            · cases h
            · cases h

variable {beef : Bytes}

theorem checkReachedRoots_ok {reached : List String} (h : checkReachedRoots e walk beef reached = .ok ()) :
    ∀ txid ∈ reached, ∃ b bump at_, e.sdk.parse beef = .ok b ∧ b.provenIndex txid = some (bump, at_) ∧ RootTaken e walk b bump at_ := by
  intro txid hin
  unfold checkReachedRoots at h
  rw [if_neg (by rw [List.isEmpty_iff]; exact List.ne_nil_of_mem hin)] at h
  split at h
  · cases h
  · rename_i b hparse
    obtain ⟨bump, at_, hindex, htaken⟩ := checkRoots_ok (fun _ hnil => absurd hnil List.not_mem_nil) h txid hin
    exact ⟨b, bump, at_, hparse, hindex, htaken⟩

variable {subject : String} {trusted topics stack : List String}

theorem verifyBeefLinear_none
    (h : verifyBeefLinear e walk beef subject trusted = .ok none) :
    ∃ stats trace, walkTrusting e.sdk.toSdk beef subject e.walkBudget (e.sized beef) trusted {} = .ok (stats, trace) ∧
      checkReachedRoots e walk beef trace.proven = .ok () := by
  unfold verifyBeefLinear at h
  split at h
  · rename_i stats trace hwalk
    refine ⟨stats, trace, hwalk, ?_⟩
    cases hroots : checkReachedRoots e walk beef trace.proven with
    | error why => rw [hroots] at h; cases h
    | ok _ => rfl
  · cases h
  · cases h
  · cases h
  · rename_i trace _
    dsimp only at h
    cases hroots : checkReachedRoots e walk beef (trace.proven ++ trace.provenSources) with
    | error why => rw [hroots] at h; cases h
    | ok _ => rw [hroots] at h; cases h

/-! ## The cover -/

namespace Beef

variable {b : Beef}

theorem coverVisits {cover cover' order : List String} (h : Worklist.Visits b.coverVisit cover order cover') : cover' = cover ++ order := by
  induction h with
  | nil cover => exact (List.append_nil cover).symm
  | cons hvisit _ ih =>
    cases hvisit
    rw [ih, List.append_assoc]
    rfl

theorem mem_walkCover (b : Beef) (txid t : String) :
    t ∈ b.walkCover txid ↔ Relation.ReflTransGen (Worklist.Edge b.sources) txid t := by
  unfold walkCover
  split
  · rename_i cover hrun
    have hrun := (Option.some_get (b.cover_ends txid)).symm.trans (congrArg some hrun)
    have hvisit : ∀ (cover : List String) (t : String) cover' next, True → b.coverVisit cover t = .ok (cover', next) → True ∧ next = b.sources t :=
      fun cover t cover' next _ hvisit => by cases hvisit; exact ⟨trivial, rfl⟩
    obtain ⟨order, hvisits, -, -, hstack, hclosed, hreach⟩ := Worklist.run_ok (I := fun _ => True) hvisit trivial hrun
    rw [coverVisits hvisits, List.nil_append, Worklist.mem_order_iff hstack hclosed hreach]
    simp only [List.mem_singleton, exists_eq_left]
  · rename_i why _
    exact why.elim

theorem walkCover_closed {txid t y : String} (ht : t ∈ b.walkCover txid) (hy : y ∈ b.sources t) : y ∈ b.walkCover txid := by
  rw [mem_walkCover] at ht ⊢
  exact ht.tail hy

theorem sources_body {t : String} {inputs : List Input} (hproven : (b.provenIndex t).isSome = false) (hbody : b.bodies t = some inputs) :
    b.sources t = inputs.filterMap Input.sourceTxid := by
  rw [sources, hproven, hbody]
  rfl

theorem sources_proven {t : String} (hproven : (b.provenIndex t).isSome = true) : b.sources t = [] := by
  rw [sources, if_pos hproven]

end Beef

def Closed (b : Beef) (walked : List String) : Prop := ∀ t ∈ walked, ∀ y ∈ b.sources t, y ∈ walked

variable {elements : List Element}

theorem cover_walked (sdk : Documented e.sdk) (hagrees : Agrees e.sdk b elements) {call : WalkCall}
    {subject : Hash32} (hsubject : e.sdk.displayHex subject = call.subject) {estimated : Nat} {order : List Hash32}
    (hover : PassesOver e.sdk.toSdk e.walkBudget estimated call.beef elements subject (call.trusted.filterMap (wireTxid e.sdk.toSdk)) order)
    (htrusted : ∀ t ∈ call.trusted, ∃ h, e.sdk.displayHex h = t) (hclosed : Closed b call.trusted) :
    ∀ t ∈ b.walkCover call.subject, (∃ h ∈ order, e.sdk.displayHex h = t) ∨ t ∈ call.trusted := by
  have hseen (h : Hash32) (hin : h ∈ call.trusted.filterMap (wireTxid e.sdk.toSdk)) : e.sdk.displayHex h ∈ call.trusted := by
    obtain ⟨t, ht, hwire⟩ := List.mem_filterMap.mp hin
    obtain ⟨h', rfl⟩ := htrusted t ht
    rw [sdk.hex] at hwire
    cases hwire
    exact ht
  have hor (h : Hash32) (hin : h ∈ order ∨ h ∈ call.trusted.filterMap (wireTxid e.sdk.toSdk)) :
      (∃ h' ∈ order, e.sdk.displayHex h' = e.sdk.displayHex h) ∨ e.sdk.displayHex h ∈ call.trusted := by
    rcases hin with hin | hin
    · exact .inl ⟨h, hin, rfl⟩
    · exact .inr (hseen h hin)
  intro t ht
  rw [Beef.mem_walkCover] at ht
  induction ht with
  | refl =>
    rw [← hsubject]
    exact hor subject hover.starts
  | tail _ hedge ih =>
    rename_i t y _
    rcases ih with ⟨h, hin, rfl⟩ | hin
    · -- a transaction with sources in the cover is not proven there, so the stream's walk went through its inputs too
      have hunproven : (b.provenIndex (e.sdk.displayHex h)).isSome = false := by
        cases hproven : (b.provenIndex (e.sdk.displayHex h)).isSome with
        | false => rfl
        | true =>
          have hnone := Beef.sources_proven hproven
          rw [Worklist.Edge, hnone] at hedge
          cases hedge
      have hstream : (Body.of elements).proven h = false := by
        cases hproven : (Body.of elements).proven h with
        | false => rfl
        | true => rw [hagrees.proven h hproven] at hunproven; cases hunproven
      obtain ⟨raw, hraw, hvalid⟩ := hover.passes h hin
      obtain ⟨tx, hlayout, -⟩ := hvalid hstream
      obtain ⟨inputs, hbody, hinputs⟩ := hagrees.inputs h raw tx hraw hlayout
      rw [Worklist.Edge, Beef.sources_body hunproven hbody, hinputs, List.mem_map] at hedge
      obtain ⟨input, hinput, rfl⟩ := hedge
      refine hor input.prev (hover.closed h hin input.prev ?_)
      rw [Body.sources, if_neg (by rw [hstream]; nofun), hraw, Option.bind_some, hlayout]
      exact List.mem_map_of_mem hinput
    · exact .inr (hclosed t hin y hedge)

/-! ## A walk of the submit -/

structure WalkRan (s s' : Session) (call : WalkCall) : Prop where
  noted : s'.walks = call :: s.walks
  landed : s'.landed = s.landed
  result : call.result = .ok none

variable {s s' : Session}

theorem passes_of_walk (sdk : Documented e.sdk) (hscripts : e.verifyScripts = true)
    (h : s.walk e beef subject trusted = (.ok none, s')) :
    ∃ call, WalkRan s s' call ∧ call.beef = beef ∧ call.subject = subject ∧ call.trusted = trusted ∧
      ∃ elements h order, e.sdk.decode beef = .ok elements ∧ wireTxid e.sdk.toSdk subject = some h ∧
        PassesOver e.sdk.toSdk e.walkBudget (e.sized beef).bytes beef elements h (trusted.filterMap (wireTxid e.sdk.toSdk)) order ∧
        ∀ x ∈ order, PassedBy e call (e.sdk.displayHex x) := by
  obtain ⟨hresult, hsession⟩ := Prod.mk.inj h
  have hverify := hresult
  unfold verifySpvTrusting at hverify
  rw [if_pos hscripts] at hverify
  obtain ⟨stats, trace, hwalk, hroots⟩ := verifyBeefLinear_none hverify
  obtain ⟨elements, subjectHash, order, hdecode, hsubject, hover, htrace⟩ := walkTrusting_passes sdk.hands hwalk
  refine ⟨⟨s.walks.length, beef, subject, trusted, .ok none⟩, ⟨?_, ?_, rfl⟩, rfl, rfl, rfl, elements, subjectHash, order, hdecode, hsubject, hover,
    fun x hx => ⟨elements, subjectHash, order, x, hdecode, hsubject, hover, hx, rfl, fun hproven => ?_⟩⟩
  · rw [← hsession]
    dsimp only
    rw [hresult]
  · rw [← hsession]
  · obtain ⟨b, bump, at_, hparse, hindex, htaken⟩ := checkReachedRoots_ok hroots (e.sdk.displayHex x) (by
      rw [htrace]
      exact List.mem_map_of_mem (List.mem_filter.mpr ⟨hx, hproven⟩))
    exact ⟨b, bump, at_, hparse, hindex, htaken⟩

/-! ## The landing -/

/-- What landed was walked, as was all of `cover`, and each walk trusted what those before it had passed. -/
structure Kept (e : Engine S) (cover : String → Prop) (s : Session) : Prop where
  covered : ∀ t, cover t → Walked e s.walks t
  landed : ∀ p ∈ s.landed, Walked e s.walks p.1
  trust : TrustWalked e s.walks

structure Trusts (e : Engine S) (b : Beef) (walked : List String) (s : Session) : Prop where
  passed : ∀ t ∈ walked, Walked e s.walks t
  closed : Closed b walked

variable {s : Session} {cover : String → Prop}

theorem Kept.walked (h : Kept e cover s)
    (htrusted : ∀ t ∈ trusted, Walked e s.walks t) : Kept e cover (s.walk e beef subject trusted).2 :=
  ⟨fun t ht => (h.covered t ht).cons _, fun p hp => (h.landed p hp).cons _, htrusted, h.trust⟩

theorem Kept.same (h : Kept e cover s) (hwalks : s'.walks = s.walks) (hlanded : s'.landed = s.landed) : Kept e cover s' :=
  ⟨by rw [hwalks]; exact h.covered, by rw [hwalks, hlanded]; exact h.landed, by rw [hwalks]; exact h.trust⟩

variable {walked : List String}

theorem Trusts.same (h : Trusts e b walked s) (hwalks : s'.walks = s.walks) :
    Trusts e b walked s' :=
  ⟨by rw [hwalks]; exact h.passed, h.closed⟩

variable {mode : SubmitMode} {policy : WalkBreachPolicy}

theorem Kept.validated (h : Kept e cover s) {walked : Option (List String)}
    (htrusted : ∀ t ∈ walked.getD [], Walked e s.walks t) :
    Kept e cover (runValidation e s beef topics mode walked policy).2 := by
  rcases runValidation_session (e := e) s beef topics mode walked policy with heq | ⟨txid, heq⟩
  · rw [heq]
    exact h
  · rw [heq]
    exact h.walked htrusted

variable {tx body : Transaction} {couldNotRun : Option WalkCouldNotRun}

theorem runValidation_ok {walked : Option (List String)}
    (hmode : mode ≠ .historicalTxNoSpv)
    (h : runValidation e s beef topics mode walked .notNow = (.ok (tx, couldNotRun), s')) :
    couldNotRun = none ∧ ∃ b, e.sdk.parse beef = .ok b ∧ transactionFromBeef e.sdk beef (b.subjectTxidOf e.sdk) = .ok tx ∧
      ((∃ trusted, walked = some trusted ∧ tx.id ∈ trusted) ∧ s' = s ∨ s.walk e beef tx.id (walked.getD []) = (.ok none, s')) := by
  unfold runValidation at h
  split at h
  · cases h
  · split at h
    · cases h
    · rename_i b hparse
      split at h
      · cases h
      · rename_i tx' hsubject
        split at h
        · rename_i hskip
          cases h
          rw [or_iff_right hmode, Option.any_eq_true] at hskip
          obtain ⟨trusted, hwalked, hin⟩ := hskip
          exact ⟨rfl, b, hparse, hsubject, .inl ⟨⟨trusted, hwalked, List.contains_iff_mem.mp hin⟩, rfl⟩⟩
        · split at h
          · cases h
          · rename_i hwalk
            cases h
            exact ⟨rfl, b, hparse, hsubject, .inr hwalk⟩
          · rw [if_pos rfl] at h
            cases h

variable {topic next : String} {atomic bytes raw : Bytes}

theorem atomic_subject (sdk : Documented e.sdk) {b b' : Beef}
    (hparse : e.sdk.parse bytes = .ok b) (hbody : e.sdk.findAtomicTransaction b next = some body) (hatomic : body.atomicBeef = .ok atomic)
    (hparsed : e.sdk.parse atomic = .ok b') (htx : transactionFromBeef e.sdk atomic (b'.subjectTxidOf e.sdk) = .ok tx) : tx.id = next := by
  obtain ⟨-, hash, hhex⟩ := sdk.found bytes b next body hparse hbody
  obtain ⟨hname, hany, -⟩ := sdk.atomic bytes b next body atomic b' hparse hbody hatomic hparsed
  have hlower : asciiLower next = next := by
    rw [← hhex]
    exact sdk.lower hash
  have hsubject : b'.subjectTxidOf e.sdk = some next := by
    have hin : (b'.txs.any fun t => asciiLower t.txid == asciiLower next) = true := by
      rw [List.any_eq_true] at hany ⊢
      obtain ⟨t, ht, heq⟩ := hany
      exact ⟨t, ht, by rw [beq_iff_eq.mp heq, beq_self_eq_true]⟩
    have hfilter : (b'.atomicTxid.filter fun atomic => b'.txs.any fun t => asciiLower t.txid == asciiLower atomic) = some next := by
      rw [hname, Option.filter_some, if_pos hin]
    unfold Beef.subjectTxidOf
    rw [hfilter, ← hlower]
    simp only [hlower]
  rw [hsubject] at htx
  unfold transactionFromBeef at htx
  rw [hparsed] at htx
  simp only [Option.some_or] at htx
  split at htx
  · cases htx
  · rename_i tx' hfound
    cases htx
    exact (sdk.found atomic b' next _ hparsed hfound).1

theorem Agrees.within {sdk : BeefSdk S} {b b' : Beef} (h : Agrees sdk b' elements)
    (hwithin : ∀ t, (∀ inputs, b'.bodies t = some inputs → b.bodies t = some inputs) ∧
      ((b'.provenIndex t).isSome = true → (b.provenIndex t).isSome = true)) : Agrees sdk b elements := by
  refine ⟨fun txid raw tx hraw hlayout => ?_, fun txid hproven => (hwithin _).2 (h.proven txid hproven)⟩
  obtain ⟨inputs, hbody, hinputs⟩ := h.inputs txid raw tx hraw hlayout
  exact ⟨inputs, (hwithin _).1 inputs hbody, hinputs⟩

theorem walk_covers (sdk : Documented e.sdk) (hscripts : e.verifyScripts = true)
    (htrusts : Trusts e b walked s) (hhex : ∃ h, e.sdk.displayHex h = subject)
    (hagrees : ∀ elements, e.sdk.decode beef = .ok elements → Agrees e.sdk b elements)
    (h : s.walk e beef subject walked = (.ok none, s')) : ∀ t ∈ b.walkCover subject, Walked e s'.walks t := by
  obtain ⟨call, hran, rfl, rfl, rfl, elements, hash, order, hdecode, hwire, hover, hpassed⟩ := passes_of_walk sdk hscripts h
  obtain ⟨hash', hhex⟩ := hhex
  have hsubject : e.sdk.displayHex hash = call.subject := by
    rw [← hhex, sdk.hex] at hwire
    cases hwire
    exact hhex
  intro t ht
  rw [hran.noted]
  rcases cover_walked sdk (hagrees elements hdecode) hsubject hover (fun t ht => (htrusts.passed t ht).hex) htrusts.closed t ht with
    ⟨x, hx, rfl⟩ | hin
  · exact ⟨call, List.mem_cons_self, hran.result, hpassed x hx⟩
  · exact (htrusts.passed t hin).cons call

theorem self_walkCover (b : Beef) (txid : String) : txid ∈ b.walkCover txid := (b.mem_walkCover txid txid).mpr .refl

theorem submitCarried_kept (sdk : Documented e.sdk) (hscripts : e.verifyScripts = true)
    (hmode : mode ≠ .historicalTxNoSpv) (hparse : e.sdk.parse bytes = .ok b)
    (hbody : e.sdk.findAtomicTransaction b next = some body) (hatomic : body.atomicBeef = .ok atomic)
    {report : Finish} (htrusts : Trusts e b walked s)
    (h : submitCarried e s atomic topic mode walked .notNow = (.ok (couldNotRun, report), s')) :
    couldNotRun = none ∧ s'.landed = s.landed ∧ Walked e s'.walks next ∧ (∀ t ∈ walked, Walked e s'.walks t) ∧
      (next ∉ walked → ∀ t ∈ b.walkCover next, Walked e s'.walks t) := by
  unfold submitCarried at h
  split at h
  · cases h
  · rename_i tx stop s₁ hrun
    cases h
    obtain ⟨hnone, b', hparsed, htx, hwalk⟩ := runValidation_ok hmode hrun
    have hid := atomic_subject sdk hparse hbody hatomic hparsed htx
    rw [hid] at hwalk
    refine ⟨hnone, ?_⟩
    rcases hwalk with ⟨⟨trusted, heq, hin⟩, rfl⟩ | hwalk
    · cases heq
      exact ⟨rfl, htrusts.passed next hin, htrusts.passed, fun hnot => absurd hin hnot⟩
    · obtain ⟨-, -, hwithin⟩ := sdk.atomic bytes b next body atomic b' hparse hbody hatomic hparsed
      have hcover := walk_covers sdk hscripts htrusts (sdk.found bytes b next body hparse hbody).2
        (fun elements hdecode => (sdk.parsed atomic b' elements hparsed hdecode).within hwithin) hwalk
      obtain ⟨call, hran, -⟩ := passes_of_walk sdk hscripts hwalk
      refine ⟨hran.landed, hcover next (self_walkCover b next), fun t ht => ?_, fun _ => hcover⟩
      show Walked e s₁.walks t
      rw [hran.noted]
      exact (htrusts.passed t ht).cons call

variable {cover : String → Prop}

def Turn.HandsOn (t : Turn) (walked : List String) : Prop :=
  (∃ guarded, t = .landed walked guarded) ∨ ∃ predecessor guarded, t = .under predecessor walked guarded

variable {walked guarded : List String}

theorem judgedTurn_kept {l : Lands} {report : Finish} {t : Turn}
    (hs : Kept e cover s) (hnext : Walked e s.walks next) (htrusts : Trusts e l.beef walked s)
    (hcover : next ∉ walked → ∀ t ∈ l.beef.walkCover next, Walked e s.walks t)
    (h : judgedTurn l next stack walked guarded s none report = (t, s')) :
    Kept e cover s' ∧ ∀ walked', t.HandsOn walked' → Trusts e l.beef walked' s' := by
  unfold judgedTurn at h
  dsimp only at h
  generalize hw : (if (Option.isNone (none : Option WalkCouldNotRun) && l.walks && !walked.contains next) = true then
    walked ++ l.beef.walkCover next else walked) = grown at h
  have hgrown : Trusts e l.beef grown s := by
    subst hw
    split
    · rename_i hnew
      have hnot : next ∉ walked := by
        intro hin
        rw [List.contains_iff_mem.mpr hin, Bool.not_true, Bool.and_false] at hnew
        cases hnew
      refine ⟨fun t ht => ?_, fun t ht y hy => ?_⟩
      · rcases List.mem_append.mp ht with ht | ht
        · exact htrusts.passed t ht
        · exact hcover hnot t ht
      · rcases List.mem_append.mp ht with ht | ht
        · exact List.mem_append_left _ (htrusts.closed t ht y hy)
        · exact List.mem_append_right _ (Beef.walkCover_closed ht hy)
    · exact htrusts
  split at h
  · cases h
    refine ⟨⟨hs.covered, fun p hp => ?_, hs.trust⟩, fun walked' hon => ?_⟩
    · rcases List.mem_append.mp hp with hp | hp
      · exact hs.landed p hp
      · split at hp
        · cases List.mem_singleton.mp hp
          exact hnext
        · cases hp
    · rcases hon with ⟨_, heq⟩ | ⟨_, _, heq⟩
      · cases heq
        exact hgrown.same rfl
      · cases heq
  · split at h
    · cases h
      refine ⟨hs.same rfl rfl, fun walked' hon => ?_⟩
      rcases hon with ⟨_, heq⟩ | ⟨_, _, heq⟩
      · cases heq
      · cases heq
        exact hgrown.same rfl
    · cases h
      exact ⟨hs.same rfl rfl, fun walked' hon => by rcases hon with ⟨_, heq⟩ | ⟨_, _, heq⟩ <;> cases heq⟩

theorem submitCarried_session
    {r : Except SubmitError (Option WalkCouldNotRun × Finish)} (hs : Kept e cover s)
    (hpassed : ∀ t ∈ walked, Walked e s.walks t) (h : submitCarried e s atomic topic mode walked policy = (r, s')) : Kept e cover s' := by
  have hrun : Kept e cover (runValidation e s atomic [topic] mode (some walked) policy).2 := hs.validated hpassed
  unfold submitCarried at h
  split at h
  · rename_i heq
    cases h
    rwa [heq] at hrun
  · rename_i heq
    cases h
    rw [heq] at hrun
    exact hrun.same rfl rfl

variable {bytes : Bytes}

theorem turn_kept (sdk : Documented e.sdk) (hscripts : e.verifyScripts = true) {l : Lands}
    (hparse : e.sdk.parse bytes = .ok l.beef) (hmode : l.mode ≠ .historicalTxNoSpv) (hpolicy : l.policy = .notNow)
    {t : Turn} (hs : Kept e cover s) (htrusts : Trusts e l.beef walked s)
    (h : turn e l next stack walked guarded s = (t, s')) :
    Kept e cover s' ∧ ∀ walked', t.HandsOn walked' → Trusts e l.beef walked' s' := by
  have hended (why : String) (walked' : List String) : ¬(Turn.ended why).HandsOn walked' := by
    rintro (⟨_, heq⟩ | ⟨_, _, heq⟩) <;> cases heq
  unfold turn at h
  split at h
  · cases h
    exact ⟨hs, fun walked' hon => absurd hon (hended _ _)⟩
  · rename_i body hbody
    have hguard : (askGuard e l next guarded s).2.2.walks = s.walks ∧ (askGuard e l next guarded s).2.2.landed = s.landed := by
      rcases askGuard_session (e := e) l next guarded s with heq | heq <;> rw [heq] <;> exact ⟨rfl, rfl⟩
    split at h
    · rename_i s₁ hask
      rw [hask] at hguard
      cases h
      exact ⟨hs.same hguard.1 hguard.2, fun walked' hon => absurd hon (hended _ _)⟩
    · rename_i guarded₁ s₁ hask
      rw [hask] at hguard
      have hs₁ : Kept e cover (s₁.charge (1 + 2 * body.inputs.length)) := hs.same hguard.1 hguard.2
      have htrusts₁ : Trusts e l.beef walked (s₁.charge (1 + 2 * body.inputs.length)) := htrusts.same hguard.1
      dsimp only at h
      split at h
      · cases h
        exact ⟨hs.same hguard.1 hguard.2, fun walked' hon => absurd hon (hended _ _)⟩
      · split at h
        · cases h
          exact ⟨hs₁, fun walked' hon => absurd hon (hended _ _)⟩
        · rename_i atomic hatomic
          split at h
          · rename_i hsubmit
            cases h
            exact ⟨(submitCarried_session hs₁ htrusts₁.passed hsubmit).same rfl rfl, fun walked' hon => absurd hon (hended _ _)⟩
          · rename_i hsubmit
            cases h
            exact ⟨submitCarried_session hs₁ htrusts₁.passed hsubmit, fun walked' hon => absurd hon (hended _ _)⟩
          · rename_i couldNotRun report s₂ hsubmit
            have hs₂ := submitCarried_session hs₁ htrusts₁.passed hsubmit
            rw [hpolicy] at hsubmit
            obtain ⟨rfl, -, hnext, hpassed, hcover⟩ := submitCarried_kept sdk hscripts hmode hparse hbody hatomic htrusts₁ hsubmit
            exact judgedTurn_kept hs₂ hnext ⟨hpassed, htrusts₁.closed⟩ hcover h

theorem landLoop_kept (sdk : Documented e.sdk) (hscripts : e.verifyScripts = true) {l : Lands}
    (hparse : e.sdk.parse bytes = .ok l.beef) (hmode : l.mode ≠ .historicalTxNoSpv) (hpolicy : l.policy = .notNow)
    {r : Except String Unit} (hs : Kept e cover s) (htrusts : Trusts e l.beef walked s)
    (h : landLoop e l fuel stack walked guarded s = some (r, s')) : Kept e cover s' := by
  induction fuel generalizing stack walked guarded s with
  | zero =>
    cases stack with
    | nil => cases h; exact hs
    | cons next stack => cases h
  | succ fuel ih =>
    cases stack with
    | nil => cases h; exact hs
    | cons next stack =>
      rw [landLoop] at h
      split at h
      · rename_i hturn
        cases h
        exact (turn_kept sdk hscripts hparse hmode hpolicy hs htrusts hturn).1
      · rename_i hturn
        obtain ⟨hs₁, hon⟩ := turn_kept sdk hscripts hparse hmode hpolicy hs htrusts hturn
        exact ih hs₁ (hon _ (.inl ⟨_, rfl⟩)) h
      · rename_i hturn
        obtain ⟨hs₁, hon⟩ := turn_kept sdk hscripts hparse hmode hpolicy hs htrusts hturn
        exact ih hs₁ (hon _ (.inr ⟨_, _, rfl⟩)) h

theorem landingMode_walks (h : mode ≠ .historicalTxNoSpv) : landingMode mode ≠ .historicalTxNoSpv := by
  cases mode with
  | currentTx => nofun
  | historicalTx => nofun
  | historicalTxNoSpv => exact absurd rfl h

theorem landCarried_kept (sdk : Documented e.sdk) (hscripts : e.verifyScripts = true) {subject predecessor : String}
    (hmode : mode ≠ .historicalTxNoSpv) {r : Except String Unit} 
    (hs : Kept e (fun t => ∃ b, e.sdk.parse beef = .ok b ∧ t ∈ b.walkCover subject) s)
    (h : landCarried e beef subject predecessor topic mode ⟨.notNow, true⟩ s = (r, s')) :
    Kept e (fun t => ∃ b, e.sdk.parse beef = .ok b ∧ t ∈ b.walkCover subject) s' := by
  unfold landCarried at h
  split at h
  · cases h
    exact hs
  · rename_i b hparse
    dsimp only at h
    have hloop := (Option.some_get _).symm.trans (congrArg some h)
    refine landLoop_kept sdk hscripts (l := ⟨b, topic, landingMode mode, .notNow⟩) hparse (landingMode_walks hmode) rfl hs ?_ hloop
    split
    · exact ⟨fun t ht => hs.covered t ⟨b, hparse, ht⟩, fun t ht y hy => Beef.walkCover_closed ht hy⟩
    · exact ⟨nofun, nofun⟩

/-! ## The submit -/

section Rounds

variable (sdk : Documented e.sdk) (hscripts : e.verifyScripts = true) {c : Successor} (hmode : c.mode ≠ .historicalTxNoSpv)
  (hlanding : c.landing = ⟨.notNow, true⟩)

def Successor.covers (e : Engine S) (c : Successor) (t : String) : Prop := ∃ b, e.sdk.parse c.beef = .ok b ∧ t ∈ b.walkCover c.tx.id

include sdk hscripts hmode hlanding

theorem waitRounds_kept {wait : Option String} (hs : Kept e (c.covers e) s)
    (h : waitRounds e c topic fuel s = some (wait, s')) : Kept e (c.covers e) s' := by
  induction fuel generalizing s with
  | zero => cases h
  | succ fuel ih =>
    rw [waitRounds] at h
    dsimp only at h
    split at h
    · cases h
      exact hs.same rfl rfl
    · cases h
      exact hs.same rfl rfl
    · split at h
      · cases h
        exact hs.same rfl rfl
      · split at h
        · split at h
          · cases h
            exact hs.same rfl rfl
          · have hcharged : Kept e (c.covers e) ((s.answered.charge (e.ask s.answers topic).2).charge (1 + c.spent.length)) := hs.same rfl rfl
            split at h
            · rename_i hland
              rw [hlanding] at hland
              have hs₁ := landCarried_kept sdk hscripts hmode hcharged hland
              split at h
              · refine ih (s := Session.answered _) (hs₁.same rfl rfl) h
              · cases h
                exact hs₁.same rfl rfl
            · rename_i hland
              rw [hlanding] at hland
              cases h
              exact (landCarried_kept sdk hscripts hmode hcharged hland).same rfl rfl
        · cases h
          exact hs.same rfl rfl

theorem waitTopic_kept (hs : Kept e (c.covers e) s) : Kept e (c.covers e) (waitTopic e c s topic).2 := by
  have hrounds := waitRounds_kept sdk hscripts hmode hlanding hs
    (Option.some_get (waitRounds_isSome e c topic (predecessorReadsPerSubmit + 1) s ⟨Nat.succ_pos _, by omega⟩)).symm
  unfold waitTopic
  dsimp only
  split
  · exact hrounds.same rfl rfl
  · exact hrounds

theorem waitTopics_kept (hs : Kept e (c.covers e) s) : Kept e (c.covers e) (waitTopics e c topics s).2 := by
  induction topics generalizing s with
  | nil => exact hs
  | cons topic rest ih => exact ih (waitTopic_kept sdk hscripts hmode hlanding hs)

end Rounds

theorem transactionFromBeef_hex (sdk : Documented e.sdk) {txid : Option String}
    (hparse : e.sdk.parse beef = .ok b) (h : transactionFromBeef e.sdk beef txid = .ok tx) : ∃ hash, e.sdk.displayHex hash = tx.id := by
  unfold transactionFromBeef at h
  rw [hparse] at h
  dsimp only at h
  split at h
  · cases h
  · split at h
    · cases h
    · rename_i hfound
      cases h
      obtain ⟨hid, hhex⟩ := sdk.found beef b _ _ hparse hfound
      rw [hid]
      exact hhex

theorem named_agrees (sdk : Documented e.sdk) {b b' : Beef}
    (hparse : e.sdk.parse beef = .ok b) (hdecode : e.sdk.decode beef = .ok elements)
    (hnamed : e.sdk.parse (((e.sdk.parse beef).toOption.bind fun b => (e.sdk.toBinaryAtomic b txid).toOption).getD beef) = .ok b') :
    Agrees e.sdk b' elements := by
  have hagrees := sdk.parsed beef b elements hparse hdecode
  rw [hparse] at hnamed
  cases hbinary : e.sdk.toBinaryAtomic b txid with
  | error why =>
    have hsame : e.sdk.parse beef = .ok b' := by simpa [hbinary, Except.toOption] using hnamed
    rw [hparse] at hsame
    cases hsame
    exact hagrees
  | ok named =>
    have hsame : e.sdk.parse named = .ok b' := by simpa [hbinary, Except.toOption] using hnamed
    have hkept := sdk.named beef b txid named b' hparse hbinary hsame
    exact hagrees.within fun t => ⟨fun inputs hbody => by rw [(hkept t).1, hbody], fun hproven => by rw [(hkept t).2, hproven]⟩

/-- A submit in a walking mode whose breaches are not now: every predecessor landed from its BEEF was passed by a walk of it that ended well,
and so had been all that a walk of it was told to trust. -/
theorem landed_walked (e : Engine S) (sdk : Documented e.sdk) (hscripts : e.verifyScripts = true) (beef : Bytes) (topics : List String)
    (mode : SubmitMode) (hmode : mode ≠ .historicalTxNoSpv) (finalize : Bool) :
    (∀ p ∈ (submit e beef topics mode .notNow finalize).2.landed, Walked e (submit e beef topics mode .notNow finalize).2.walks p.1) ∧
      TrustWalked e (submit e beef topics mode .notNow finalize).2.walks := by
  have hstart : Kept e (fun _ => False) {} := ⟨nofun, nofun, trivial⟩
  have hrun : Kept e (fun _ => False) (runValidation e {} beef topics mode none .notNow).2 := hstart.validated nofun
  unfold submit
  split
  · rename_i heq
    rw [heq] at hrun
    exact ⟨hrun.landed, hrun.trust⟩
  · rename_i tx couldNotRun s heq
    rw [heq] at hrun
    obtain ⟨hnone, b, hparse, htx, hwalk⟩ := runValidation_ok hmode heq
    subst hnone
    have hwalk := hwalk.resolve_left fun hskip => by
      obtain ⟨⟨trusted, hnone, -⟩, -⟩ := hskip
      cases hnone
    unfold successorsWaiting
    dsimp only
    split
    · exact ⟨hrun.landed, hrun.trust⟩
    · have hcovered (t : String) (ht : Successor.covers e ⟨((e.sdk.parse beef).toOption.bind fun b => (e.sdk.toBinaryAtomic b tx.id).toOption).getD
          beef, tx, mode, ⟨.notNow, true⟩, finalize⟩ t) : Walked e s.walks t := by
        obtain ⟨named, hnamed, hin⟩ := ht
        have htrusts : Trusts e named [] {} := ⟨fun t ht => absurd ht List.not_mem_nil, fun t ht => absurd ht List.not_mem_nil⟩
        exact walk_covers sdk hscripts htrusts (transactionFromBeef_hex sdk hparse htx)
          (fun elements hdecode => named_agrees sdk hparse hdecode hnamed) hwalk t hin
      have hbefore : Kept e (Successor.covers e _) _ := ⟨hcovered, hrun.landed, hrun.trust⟩
      exact ⟨(waitTopics_kept sdk hscripts hmode rfl hbefore).landed, (waitTopics_kept sdk hscripts hmode rfl hbefore).trust⟩

/-! ## A submit that lands one -/

theorem Hex.display_lower (txid : Hash32) : asciiLower (Hex.display txid) = Hex.display txid := by
  rw [asciiLower, Hex.display, String.toList_ofList, Hex.encode_lower]

/-! The subject of two transactions lands the proven one, which its own walk passed over. -/

namespace TwoTxs

open ScriptDoor.TwoTxs (sourceId subjectId sourceRaw subjectRaw)

def bump : MerklePath := ⟨[some (Hex.display sourceId), none], 1⟩

def subjectBeef : Bytes := [1, 1, 1, 1] ++ subjectId.toList ++ ScriptDoor.TwoTxs.beef

def sourceBeef : Bytes :=
  [1, 1, 1, 1] ++ sourceId.toList ++ [2, 0, 0xbe, 0xef, 1, 1, 1, 2, 0, 2] ++ sourceId.toList ++ [1, 1, 1, 1, 0] ++ sourceRaw

def sourceTx : BeefTx := ⟨Hex.display sourceId, some []⟩

def subjectTx : BeefTx := ⟨Hex.display subjectId, some [⟨some (Hex.display sourceId), none⟩]⟩

def subjectParsed : Beef := ⟨some (Hex.display subjectId), [sourceTx, subjectTx], [bump]⟩

def sourceParsed : Beef := ⟨some (Hex.display sourceId), [sourceTx], [bump]⟩

def subjectElements : List Element := [.bump [sourceId], .tx 83 sourceId sourceRaw, .tx 104 subjectId subjectRaw]

def sourceElements : List Element := [.bump [sourceId], .tx 83 sourceId sourceRaw]

def reader : BeefSdk Bytes where
  toSdk := { ScriptDoor.TwoTxs.reader with
    decode := fun bytes => if bytes = subjectBeef then .ok subjectElements else if bytes = sourceBeef then .ok sourceElements else .error "invalid BEEF" }
  parse bytes := if bytes = subjectBeef then .ok subjectParsed else if bytes = sourceBeef then .ok sourceParsed else .error "invalid BEEF"
  sortTxs := id
  findAtomicTransaction b txid :=
    if b.txs.any fun t => t.txid == txid then
      if txid = Hex.display sourceId then some ⟨txid, [], .ok sourceBeef⟩
      else if txid = Hex.display subjectId then
        some ⟨txid, [⟨some (Hex.display sourceId), some (Hex.display sourceId)⟩], .ok subjectBeef⟩
      else none
    else none
  toBinaryAtomic b _ := .ok (if b.txs.length = 1 then sourceBeef else subjectBeef)
  computeRoot _ _ := .ok "fb023605fef9008a49a505a72313e103f157fece7dfb3c2b6f573d3af1e8395a"

theorem parse_cases (h : reader.parse bytes = .ok b) :
    bytes = subjectBeef ∧ b = subjectParsed ∨ bytes = sourceBeef ∧ b = sourceParsed := by
  have h : (if bytes = subjectBeef then Except.ok subjectParsed else if bytes = sourceBeef then .ok sourceParsed else .error "invalid BEEF") =
    Except.ok b := h
  split at h
  · rename_i hbytes
    cases h
    exact .inl ⟨hbytes, rfl⟩
  · split at h
    · rename_i hbytes
      cases h
      exact .inr ⟨hbytes, rfl⟩
    · cases h

theorem decode_cases (h : reader.decode bytes = .ok elements) :
    bytes = subjectBeef ∧ elements = subjectElements ∨ bytes = sourceBeef ∧ elements = sourceElements := by
  have h : (if bytes = subjectBeef then Except.ok subjectElements else if bytes = sourceBeef then .ok sourceElements else .error "invalid BEEF") =
    Except.ok elements := h
  split at h
  · rename_i hbytes
    cases h
    exact .inl ⟨hbytes, rfl⟩
  · split at h
    · rename_i hbytes
      cases h
      exact .inr ⟨hbytes, rfl⟩
    · cases h

theorem bodies :
    subjectBeef ≠ sourceBeef ∧
      (sourceParsed.bodies (Hex.display sourceId) = some [] ∧ subjectParsed.bodies (Hex.display sourceId) = some []) ∧
      ((sourceParsed.provenIndex (Hex.display sourceId)).isSome = true ∧ (subjectParsed.provenIndex (Hex.display sourceId)).isSome = true) ∧
      ((sourceParsed.txs.any fun t => t.txid == Hex.display sourceId) = true ∧
        (subjectParsed.txs.any fun t => t.txid == Hex.display subjectId) = true ∧
        (sourceParsed.txs.any fun t => t.txid == Hex.display subjectId) = false) ∧
      ((83 + sourceRaw.length ≤ subjectBeef.length ∧ (subjectBeef.drop 83).take sourceRaw.length = sourceRaw) ∧
        (104 + subjectRaw.length ≤ subjectBeef.length ∧ (subjectBeef.drop 104).take subjectRaw.length = subjectRaw) ∧
        (83 + sourceRaw.length ≤ sourceBeef.length ∧ (sourceBeef.drop 83).take sourceRaw.length = sourceRaw)) ∧
      (((Layout.of reader.toSdk sourceRaw).map fun tx => tx.inputs.map InputAt.prev) = some [] ∧
        ((Layout.of reader.toSdk subjectRaw).map fun tx => tx.inputs.map InputAt.prev) = some [sourceId]) := by decide +kernel

theorem beefs_differ : subjectBeef ≠ sourceBeef := bodies.1

theorem handsOut : HandsOut reader.toSdk := by
  intro bytes elements hdecode offset txid raw hin
  rcases decode_cases hdecode with ⟨rfl, rfl⟩ | ⟨rfl, rfl⟩
  · simp only [subjectElements, List.mem_cons, List.not_mem_nil, or_false, reduceCtorEq, false_or, Element.tx.injEq] at hin
    rcases hin with ⟨rfl, -, rfl⟩ | ⟨rfl, -, rfl⟩
    · exact bodies.2.2.2.2.1.1
    · exact bodies.2.2.2.2.1.2.1
  · simp only [sourceElements, List.mem_cons, List.not_mem_nil, or_false, reduceCtorEq, false_or, Element.tx.injEq] at hin
    obtain ⟨rfl, -, rfl⟩ := hin
    exact bodies.2.2.2.2.1.2.2

theorem hex_display (txid : Hash32) : wireTxid reader.toSdk (reader.displayHex txid) = some txid := by
  have hdecode : Hex.decode (Hex.display txid).toList = some txid.toList.reverse := by
    rw [Hex.display, String.toList_ofList, Hex.decode_encode]
  show ((Hex.decode (Hex.display txid).toList).bind fun bytes => _) = some txid
  rw [hdecode]
  simp only [Option.bind_some, List.length_reverse, Vector.length_toList, dite_true, List.reverse_reverse, Option.some.injEq]
  exact Vector.toArray_inj.mp Array.toArray_toList

theorem raw_tx (offset : Nat) (id txid : Hash32) (raw : Bytes) (rest : List Element) :
    (Body.of (.tx offset id raw :: rest)).raw txid = if id = txid then some raw else (Body.of rest).raw txid := by
  simp only [Body.of, List.findSome?_cons]
  by_cases hid : id = txid
  · rw [if_pos hid, if_pos hid]
  · rw [if_neg hid, if_neg hid]

theorem raw_cases (h : elements = subjectElements ∨ elements = sourceElements) {txid : Hash32}
    (hraw : (Body.of elements).raw txid = some raw) :
    txid = sourceId ∧ raw = sourceRaw ∨ elements = subjectElements ∧ txid = subjectId ∧ raw = subjectRaw := by
  have hfirst (rest : List Element) : (Body.of (.bump [sourceId] :: .tx 83 sourceId sourceRaw :: rest)).raw txid =
      if sourceId = txid then some sourceRaw else (Body.of rest).raw txid := raw_tx 83 sourceId txid sourceRaw rest
  by_cases hsource : sourceId = txid
  · have hsome : some sourceRaw = some raw := by
      rw [← hraw]
      rcases h with rfl | rfl <;> exact ((hfirst _).trans (if_pos hsource)).symm
    exact .inl ⟨hsource.symm, (Option.some.inj hsome).symm⟩
  · rcases h with rfl | rfl
    · rw [subjectElements, hfirst, if_neg hsource, raw_tx] at hraw
      by_cases hsubject : subjectId = txid
      · rw [if_pos hsubject] at hraw
        exact .inr ⟨rfl, hsubject.symm, (Option.some.inj hraw).symm⟩
      · rw [if_neg hsubject] at hraw
        cases hraw
    · rw [sourceElements, hfirst, if_neg hsource] at hraw
      cases hraw

theorem layout_inputs {tx : Layout} {sources : List Hash32} (hlayout : Layout.of reader.toSdk raw = some tx)
    (h : ((Layout.of reader.toSdk raw).map fun tx => tx.inputs.map InputAt.prev) = some sources) :
    (tx.inputs.map fun i => reader.displayHex i.prev) = sources.map Hex.display := by
  rw [hlayout, Option.map_some, Option.some.injEq] at h
  rw [← h, List.map_map]
  rfl

theorem agrees
    (h : b = subjectParsed ∧ elements = subjectElements ∨ b = sourceParsed ∧ elements = sourceElements) : Agrees reader b elements := by
  refine ⟨fun txid raw tx hraw hlayout => ?_, fun txid hproven => ?_⟩
  · have helements : elements = subjectElements ∨ elements = sourceElements := h.imp And.right And.right
    rcases raw_cases helements hraw with ⟨rfl, rfl⟩ | ⟨hfirst, rfl, rfl⟩
    · refine ⟨[], ?_, (layout_inputs hlayout bodies.2.2.2.2.2.1).symm⟩
      rcases h with ⟨rfl, -⟩ | ⟨rfl, -⟩
      · exact bodies.2.1.2
      · exact bodies.2.1.1
    · subst hfirst
      have hb : b = subjectParsed := by
        rcases h with ⟨rfl, -⟩ | ⟨-, hsource⟩
        · rfl
        · have hlengths : subjectElements.length = sourceElements.length := by rw [hsource]
          cases hlengths
      subst hb
      refine ⟨[⟨some (Hex.display sourceId), none⟩], ?_, (layout_inputs hlayout bodies.2.2.2.2.2.2).symm⟩
      rfl
  · have hsource : txid = sourceId := by
      rcases h with ⟨-, rfl⟩ | ⟨-, rfl⟩ <;> simpa [Body.of, subjectElements, sourceElements] using hproven
    subst hsource
    rcases h with ⟨rfl, -⟩ | ⟨rfl, -⟩
    · exact bodies.2.2.1.2
    · exact bodies.2.2.1.1

theorem found_cases (h : reader.findAtomicTransaction b txid = some tx) :
    (b.txs.any fun t => t.txid == txid) = true ∧ tx.id = txid ∧
      (txid = Hex.display sourceId ∧ tx.atomicBeef = .ok sourceBeef ∨ txid = Hex.display subjectId ∧ tx.atomicBeef = .ok subjectBeef) := by
  have h : (if b.txs.any fun t => t.txid == txid then
      if txid = Hex.display sourceId then some (⟨txid, [], .ok sourceBeef⟩ : Transaction)
      else if txid = Hex.display subjectId then
        some ⟨txid, [⟨some (Hex.display sourceId), some (Hex.display sourceId)⟩], .ok subjectBeef⟩
      else none
    else none) = some tx := h
  split at h
  · rename_i hany
    split at h
    · rename_i hsource
      cases h
      exact ⟨hany, rfl, .inl ⟨hsource, rfl⟩⟩
    · split at h
      · rename_i hsubject
        cases h
        exact ⟨hany, rfl, .inr ⟨hsubject, rfl⟩⟩
      · cases h
  · cases h

theorem parse_subject : reader.parse subjectBeef = .ok subjectParsed := by
  show (if subjectBeef = subjectBeef then Except.ok subjectParsed else if subjectBeef = sourceBeef then .ok sourceParsed else .error "invalid BEEF") = _
  rw [if_pos rfl]

theorem parse_source : reader.parse sourceBeef = .ok sourceParsed := by
  show (if sourceBeef = subjectBeef then Except.ok subjectParsed else if sourceBeef = sourceBeef then .ok sourceParsed else .error "invalid BEEF") = _
  rw [if_neg beefs_differ.symm, if_pos rfl]

theorem source_within (t : String) (inputs : List Input) (h : sourceParsed.bodies t = some inputs) : subjectParsed.bodies t = some inputs := by
  have hsource : t = Hex.display sourceId := by
    by_cases ht : (Hex.display sourceId == t) = true
    · exact (beq_iff_eq.mp ht).symm
    · simp [Beef.bodies, sourceParsed, sourceTx, ht] at h
  subst hsource
  rw [bodies.2.1.2, ← h, bodies.2.1.1]

theorem documented : Documented reader where
  hands := handsOut
  hex := hex_display
  lower := Hex.display_lower
  found bytes b txid tx hparse hfound := by
    obtain ⟨-, hid, ⟨hsource, -⟩ | ⟨hsubject, -⟩⟩ := found_cases hfound
    · exact ⟨hid, sourceId, hsource.symm⟩
    · exact ⟨hid, subjectId, hsubject.symm⟩
  parsed bytes b elements hparse hdecode := by
    rcases parse_cases hparse with ⟨rfl, rfl⟩ | ⟨rfl, rfl⟩
    · rcases decode_cases hdecode with ⟨-, rfl⟩ | ⟨hbytes, -⟩
      · exact agrees (.inl ⟨rfl, rfl⟩)
      · exact absurd hbytes beefs_differ
    · rcases decode_cases hdecode with ⟨hbytes, -⟩ | ⟨-, rfl⟩
      · exact absurd hbytes.symm beefs_differ
      · exact agrees (.inr ⟨rfl, rfl⟩)
  named bytes b txid named b' hparse hnamed hparsed := by
    rcases parse_cases hparse with ⟨-, rfl⟩ | ⟨-, rfl⟩
    · cases hnamed
      rw [show (if subjectParsed.txs.length = 1 then sourceBeef else subjectBeef) = subjectBeef from rfl, parse_subject] at hparsed
      cases hparsed
      exact fun t => ⟨rfl, rfl⟩
    · cases hnamed
      rw [show (if sourceParsed.txs.length = 1 then sourceBeef else subjectBeef) = sourceBeef from rfl, parse_source] at hparsed
      cases hparsed
      exact fun t => ⟨rfl, rfl⟩
  atomic bytes b txid tx atomic b' hparse hfound hatomic hparsed := by
    obtain ⟨hany, -, ⟨rfl, hbytes⟩ | ⟨rfl, hbytes⟩⟩ := found_cases hfound
    · rw [hbytes] at hatomic
      cases hatomic
      rw [parse_source] at hparsed
      cases hparsed
      refine ⟨rfl, bodies.2.2.2.1.1, fun t => ?_⟩
      rcases parse_cases hparse with ⟨-, rfl⟩ | ⟨-, rfl⟩
      · exact ⟨source_within t, id⟩
      · exact ⟨fun _ => id, id⟩
    · rw [hbytes] at hatomic
      cases hatomic
      rw [parse_subject] at hparsed
      cases hparsed
      refine ⟨rfl, bodies.2.2.2.1.2.1, fun t => ?_⟩
      rcases parse_cases hparse with ⟨-, rfl⟩ | ⟨-, rfl⟩
      · exact ⟨fun _ => id, id⟩
      · rw [bodies.2.2.2.1.2.2] at hany
        cases hany

def engine : Engine Bytes where
  sdk := reader
  tracker := some fun _ _ _ _ => .ok true
  verifyScripts := true
  structural _ _ := .ok ()
  walkBudget := ⟨32, 1000, 0, 10000⟩
  sized _ := ⟨200, none, true⟩
  manages _ := true
  landsWithoutValues _ := true
  landingGuard := none
  finish _ := ⟨["tm_pot"], [], true, "", fun _ => none, 3⟩
  ask n _ := if n = 0 then (.carried (Hex.display sourceId ++ " has not landed") (Hex.display sourceId), 3) else (.settled, 1)
  judgedAgain _ := true
  holdsOutputs _ _ := false

end TwoTxs

theorem landed_walked_source : Walked TwoTxs.engine (submit TwoTxs.engine TwoTxs.subjectBeef ["tm_pot"] .historicalTx .notNow false).2.walks
    (Hex.display ScriptDoor.TwoTxs.sourceId) := by
  have hlanded : (submit TwoTxs.engine TwoTxs.subjectBeef ["tm_pot"] .historicalTx .notNow false).2.landed =
      [(Hex.display ScriptDoor.TwoTxs.sourceId, "tm_pot")] := by decide +kernel
  exact (landed_walked TwoTxs.engine TwoTxs.documented rfl TwoTxs.subjectBeef ["tm_pot"] .historicalTx nofun false).1 _
    (by rw [hlanded]; exact List.mem_cons_self)

end OverlayEngine.CarriedWalks
