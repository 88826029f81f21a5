import OverlayEngine.Pot.PotBeefs

/-!
# The verified latch covers the bytes it is set on

A latch is set by txid, some awaits after the bytes were read, and an admit decides
on a probe made a statement earlier. Where no longer submission lands between the
read and the latch, and no latch between the probe and the write, every latched row
stores the bump its latching pass had accepted.
-/

namespace OverlayEngine.Pot.PotBeefs

section
variable {μ : Type} (x : Sdk μ)

def World.Vouched (w : World) (txid : Txid) (r : Row) : Prop :=
  ∃ call root height, w.latcher txid = some call ∧ x.claims r.beef txid = some (root, height) ∧ ⟨call, txid, root, height⟩ ∈ w.accepted ∧
    ∀ h, r.proofHeight = some h → h = height

def World.Covered (w : World) : Prop := ∀ txid r, w.rows txid = some r → r.proofVerified = true → w.Vouched x txid r

/-- The statement `m`, if it is an admit's write, leaves the bytes of a latched row. -/
def World.KeepsLatched (w : World) (m : Turn μ) : Prop :=
  ∀ txid beef, w.calls[m.call]? = some (.admitting txid beef) → ∀ r, w.rows txid = some r → r.proofVerified = true →
    ∃ r', (w.step x m).rows txid = some r' ∧ r'.beef = r.beef

def World.Meets (w : World) (m : Turn μ) : Prop :=
  m.fate ≠ .lost → match w.calls[m.call]? with
    | some (.admitting txid beef) => ∀ r, w.rows txid = some r → r.proofVerified = true → r.beef = beef
    | some (.latching latched) => ∀ l ∈ latched.take markProvenAtChunk, ∀ r, w.rows l.txid = some r →
        x.claims r.beef l.txid = x.claims l.stored l.txid
    | _ => True

/-! ## What a pass holds -/

structure Holding (accepted : List Accepted) (call : Nat) (todo : List Txid) (latched : List Latch) : Prop where
  distinct : (todo ++ latched.map Latch.txid).Nodup
  fresh : ∀ e ∈ accepted, e.call = call → e.txid ∉ todo
  read : ∀ l ∈ latched, ∃ root height, x.claims l.stored l.txid = some (root, height) ∧ l.anchor = some height ∧
    ⟨call, l.txid, root, height⟩ ∈ accepted
  only : ∀ l ∈ latched, ∀ e ∈ accepted, e.call = call → e.txid = l.txid → x.claims l.stored l.txid = some (e.root, e.height)

def Call.Sound (accepted : List Accepted) (call : Nat) : Call → Prop
  | .scanning _ _ => ∀ e ∈ accepted, e.call ≠ call
  | .checking todo latched => Holding x accepted call (todo.map Prod.fst) latched
  | .fetching txid _ todo latched => Holding x accepted call (txid :: todo.map Prod.fst) latched
  | .compacting txid compacted todo latched => Holding x accepted call (todo.map Prod.fst) latched ∧
      ∃ root height, x.claims compacted txid = some (root, height) ∧ ⟨call, txid, root, height⟩ ∈ accepted
  | .latching latched => Holding x accepted call [] latched
  | _ => True

def Sdk.Stitches : Prop := ∀ txid stored bump root new, x.computeRoot bump txid = some root →
  x.stitchAndTrimPotBeef txid stored bump = some new → x.claims new txid = some (root, x.blockHeight bump)

def World.Sound (w : World) : Prop := ∀ (i : Nat) (c : Call), w.calls[i]? = some c → c.Sound x w.accepted i

inductive Call.Begins : Call → Prop
  | store (txid : Txid) (beef : Bytes) : Begins (storeBeef txid beef)
  | pass (limit minAgeSecs : Nat) : Begins (completePotBeefLatches limit minAgeSecs)
  | unlatch (txid : Txid) : Begins (unlatchPotBeefProof txid)

variable {x} {root : String} {txid : Txid}

theorem claims_eq {beef : Bytes} {bump : μ} (hb : x.ownBump beef txid = some bump)
    (hr : x.computeRoot bump txid = some root) : x.claims beef txid = some (root, x.blockHeight bump) := by
  simp [Sdk.claims, hb, hr]

variable {i height call : Nat}

theorem bumpHeight_of_claims {beef : Bytes} (h : x.claims beef txid = some (root, height)) :
    x.potBeefBumpHeight txid beef = some height := by
  unfold Sdk.claims at h
  obtain ⟨bump, hb, hrest⟩ := Option.bind_eq_some_iff.mp h
  obtain ⟨root', -, heq⟩ := Option.map_eq_some_iff.mp hrest
  rw [Sdk.potBeefBumpHeight, hb, Option.map_some, (Prod.mk.inj heq).2]

theorem verify_eq (w : World) (call : Nat) (txid : Txid) (bump : μ) (valid : Bool) :
    (w.verify x call txid bump valid = (false, w)) ∨ ∃ root, x.computeRoot bump txid = some root ∧
      w.verify x call txid bump valid = (true, { w with accepted := ⟨call, txid, root, x.blockHeight bump⟩ :: w.accepted }) := by
  unfold World.verify
  cases hr : x.computeRoot bump txid with
  | none => exact .inl rfl
  | some root => cases valid with
    | false => exact .inl rfl
    | true => exact .inr ⟨root, rfl, rfl⟩

namespace Holding

variable {accepted accepted' : List Accepted} {call : Nat} {txid : Txid} {todo : List Txid} {latched : List Latch}

theorem grow (h : Holding x accepted call todo latched) (hsub : accepted ⊆ accepted')
    (hnew : ∀ e ∈ accepted', e ∈ accepted ∨ e.call = i) (hne : call ≠ i) : Holding x accepted' call todo latched := by
  have hmine : ∀ e ∈ accepted', e.call = call → e ∈ accepted := fun e he hc => (hnew e he).resolve_right fun hi => hne (hc.symm.trans hi)
  refine ⟨h.distinct, fun e he hc => h.fresh e (hmine e he hc) hc, fun l hl => ?_, fun l hl e he hc => h.only l hl e (hmine e he hc) hc⟩
  obtain ⟨root, height, hclaims, hanchor, hin⟩ := h.read l hl
  exact ⟨root, height, hclaims, hanchor, hsub hin⟩

theorem tail (h : Holding x accepted call (txid :: todo) latched) (hsub : accepted ⊆ accepted')
    (hnew : ∀ e ∈ accepted', e ∈ accepted ∨ e.txid = txid) : Holding x accepted' call todo latched := by
  obtain ⟨hhead, htail⟩ := List.nodup_cons.mp h.distinct
  have hmem : ∀ e ∈ accepted', e.call = call → e.txid ∈ todo ++ latched.map Latch.txid → e ∈ accepted := fun e he _ hin =>
    (hnew e he).resolve_right fun heq => hhead (heq ▸ hin)
  constructor
  · exact htail
  · intro e he hc hin
    exact h.fresh e (hmem e he hc (List.mem_append_left _ hin)) hc (List.mem_cons_of_mem _ hin)
  · intro l hl
    obtain ⟨root, height, hclaims, hanchor, hin⟩ := h.read l hl
    exact ⟨root, height, hclaims, hanchor, hsub hin⟩
  · intro l hl e he hc heq
    exact h.only l hl e (hmem e he hc (List.mem_append_right _ (heq ▸ List.mem_map_of_mem hl))) hc heq

theorem latch {stored : Bytes} (h : Holding x accepted call (txid :: todo) latched)
    (hclaims : x.claims stored txid = some (root, height)) :
    Holding x (⟨call, txid, root, height⟩ :: accepted) call todo (latched ++ [⟨txid, some height, stored⟩]) := by
  have ht : Holding x (⟨call, txid, root, height⟩ :: accepted) call todo latched :=
    h.tail (List.subset_cons_self ..) fun e he => (List.mem_cons.mp he).elim (fun heq => .inr (heq ▸ rfl)) .inl
  constructor
  · rw [List.map_append, ← List.append_assoc]
    exact (List.perm_append_singleton ..).symm.nodup h.distinct
  · exact ht.fresh
  · intro l hl
    rcases List.mem_append.mp hl with hl | hl
    · exact ht.read l hl
    · obtain rfl := List.mem_singleton.mp hl
      exact ⟨root, height, hclaims, rfl, List.mem_cons_self⟩
  · intro l hl e he hc heq
    rcases List.mem_append.mp hl with hl | hl
    · exact ht.only l hl e he hc heq
    · obtain rfl := List.mem_singleton.mp hl
      rcases List.mem_cons.mp he with rfl | hold
      · exact hclaims
      · exact absurd (heq ▸ List.mem_cons_self) (h.fresh e hold hc)

end Holding

theorem Call.Sound.grow {accepted accepted' : List Accepted} {j : Nat} {c : Call} (h : c.Sound x accepted j) (hsub : accepted ⊆ accepted')
    (hnew : ∀ e ∈ accepted', e ∈ accepted ∨ e.call = i) (hne : j ≠ i) : c.Sound x accepted' j := by
  cases c with
  | scanning limit age => exact fun e he hc => (hnew e he).elim (fun hin => h e hin hc) fun hi => hne (hc.symm.trans hi)
  | checking todo latched => exact Holding.grow h hsub hnew hne
  | fetching txid stored todo latched => exact Holding.grow h hsub hnew hne
  | compacting txid compacted todo latched =>
    obtain ⟨hh, root, height, hclaims, hin⟩ := h
    exact ⟨hh.grow hsub hnew hne, root, height, hclaims, hsub hin⟩
  | latching latched => exact Holding.grow h hsub hnew hne
  | probing txid beef => trivial
  | admitting txid beef => trivial
  | unlatching txid => trivial
  | returned => trivial

theorem read_sublist {f : Txid → Option (Txid × Bytes)} (hf : ∀ txid p, f txid = some p → p.1 = txid) (drawn : List Txid) :
    ((drawn.filterMap f).map Prod.fst).Sublist drawn := by
  induction drawn with
  | nil => exact List.Sublist.slnil
  | cons txid drawn ih =>
    rw [List.filterMap_cons]
    cases h : f txid with
    | none => exact ih.cons _
    | some p =>
      rw [List.map_cons, hf txid p h]
      exact ih.cons_cons _

theorem candidates_nodup (rows : Rows) (drawn : List Txid) (limit age now : Nat) :
    ((candidates rows drawn limit age now).map Prod.fst).Nodup := by
  unfold candidates
  rw [List.map_take]
  refine ((List.nodup_dedup drawn).sublist (read_sublist ?_ _)).sublist (List.take_sublist ..)
  intro txid p hp
  obtain ⟨r, -, hr⟩ := Option.bind_eq_some_iff.mp hp
  split at hr
  · rw [← Option.some.inj hr]
  · cases hr

variable {w w' : World}

theorem World.Sound.setCall {c : Call} (h : w.Sound x) (hcalls : w'.calls = w.calls) (hsub : w.accepted ⊆ w'.accepted)
    (hnew : ∀ e ∈ w'.accepted, e ∈ w.accepted ∨ e.call = i) (hc : c.Sound x w'.accepted i) : (w'.setCall i c).Sound x := by
  intro j d hd
  simp only [World.setCall, List.getElem?_set] at hd
  by_cases hij : i = j
  · subst hij
    rw [if_pos rfl] at hd
    split at hd
    · exact Option.some.inj hd ▸ hc
    · cases hd
  · rw [if_neg hij, hcalls] at hd
    exact (h j d hd).grow hsub hnew (Ne.symm hij)

theorem World.Sound.quiet {c : Call} (h : w.Sound x) (hcalls : w'.calls = w.calls) (hacc : w'.accepted = w.accepted)
    (hc : c.Sound x w.accepted i) : (w'.setCall i c).Sound x :=
  h.setCall hcalls (hacc ▸ fun _ he => he) (fun e he => .inl (hacc ▸ he)) (by rwa [hacc])

variable {w : World}

theorem sound_step (hx : x.Stitches) (h : w.Sound x) (m : Turn μ) : (w.step x m).Sound x := by
  unfold World.step
  cases hcall : w.calls[m.call]? with
  | none => exact h
  | some c =>
    have hc := h m.call c hcall
    cases c with
    | probing txid beef =>
      refine h.quiet rfl rfl ?_
      split <;> trivial
    | admitting txid beef => exact h.quiet rfl rfl trivial
    | unlatching txid => exact h.quiet rfl rfl trivial
    | scanning limit age =>
      refine h.quiet rfl rfl ?_
      split
      · trivial
      · refine ⟨by simpa using candidates_nodup .., fun e he heq => absurd heq (hc e he), ?_, ?_⟩ <;> exact fun l hl => by cases hl
    | checking todo latched =>
      cases todo with
      | nil => exact h.quiet rfl rfl hc
      | cons p todo =>
        obtain ⟨txid, stored⟩ := p
        cases hb : x.ownBump stored txid with
        | none =>
          simp only [hb]
          exact h.quiet rfl rfl hc
        | some bump =>
          rcases verify_eq (x := x) w m.call txid bump m.valid with hv | ⟨root, hroot, hv⟩
          · simp only [hb, hv]
            exact h.quiet rfl rfl hc
          · simp only [hb, hv]
            refine h.setCall rfl (List.subset_cons_self ..) (fun e he => ?_) (Holding.latch hc (claims_eq hb hroot))
            exact (List.mem_cons.mp he).elim (fun heq => .inr (heq ▸ rfl)) .inl
    | fetching txid stored todo latched =>
      have htail : Holding x w.accepted m.call (todo.map Prod.fst) latched := Holding.tail hc (fun _ he => he) fun e he => .inl he
      cases hp : m.proof with
      | none =>
        dsimp only
        exact h.quiet rfl rfl htail
      | some bump =>
        rcases verify_eq (x := x) w m.call txid bump m.valid with hv | ⟨root, hroot, hv⟩
        · simp only [hv]
          exact h.quiet rfl rfl htail
        · have hasked : ∀ e ∈ (⟨m.call, txid, root, x.blockHeight bump⟩ : Accepted) :: w.accepted, e ∈ w.accepted ∨ e.call = m.call :=
            fun e he => (List.mem_cons.mp he).elim (fun heq => .inr (heq ▸ rfl)) .inl
          have hleft := Holding.tail hc (List.subset_cons_self ⟨m.call, txid, root, x.blockHeight bump⟩ _) fun e he =>
            (List.mem_cons.mp he).elim (fun heq => .inr (heq ▸ rfl)) .inl
          cases hs : x.stitchAndTrimPotBeef txid stored bump with
          | none =>
            simp only [hv, hs]
            exact h.setCall rfl (List.subset_cons_self ..) hasked hleft
          | some compacted =>
            simp only [hv, hs]
            exact h.setCall rfl (List.subset_cons_self ..) hasked
              ⟨hleft, root, x.blockHeight bump, hx txid stored bump root compacted hroot hs, List.mem_cons_self⟩
    | compacting txid compacted todo latched =>
      obtain ⟨hleft, -⟩ := hc
      dsimp only
      split <;> exact h.quiet rfl rfl hleft
    | latching latched =>
      cases latched with
      | nil => exact h.quiet rfl rfl trivial
      | cons l latched =>
        have hrest : Holding x w.accepted m.call [] ((l :: latched).drop markProvenAtChunk) := by
          refine ⟨?_, hc.fresh, fun l hl => hc.read l (List.mem_of_mem_drop hl), fun l hl => hc.only l (List.mem_of_mem_drop hl)⟩
          exact hc.distinct.sublist (((List.drop_sublist ..).map _).append_left _)
        dsimp only
        split <;> refine h.quiet rfl rfl ?_ <;> split
        · exact hrest
        · trivial
        · exact hrest
        · trivial
    | returned => exact h

/-! ## The rows -/

theorem World.Covered.ask (h : w.Covered x) (hrows : w'.rows = w.rows) (hlatcher : w'.latcher = w.latcher)
    (hsub : w.accepted ⊆ w'.accepted) : w'.Covered x := by
  intro txid r hr hv
  rw [hrows] at hr
  obtain ⟨call, root, height, hcall, hclaims, hin, hheight⟩ := h txid r hr hv
  exact ⟨call, root, height, hlatcher ▸ hcall, hclaims, hsub hin, hheight⟩

theorem covered_update (h : w.Covered x) (txid : Txid) {r : Option Row} (hr : ∀ r', r = some r' → r'.proofVerified = false)
    (calls : List Call) : World.Covered x { w with rows := Function.update w.rows txid r, calls } := by
  intro t r' hr' hv
  have hrow : Function.update w.rows txid r t = some r' := hr'
  by_cases ht : t = txid
  · subst ht
    rw [Function.update_self] at hrow
    rw [hr r' hrow] at hv
    cases hv
  · rw [Function.update_of_ne ht] at hrow
    exact h t r' hrow hv

theorem covered_compact (h : w.Covered x) {compacted : Bytes}
    (hclaims : x.claims compacted txid = some (root, height)) (hin : ⟨call, txid, root, height⟩ ∈ w.accepted) (now : Nat) :
    World.Covered x { w with
      rows := verifiedWrite w.rows txid compacted now (x.potBeefBumpHeight txid compacted)
      latcher := Function.update w.latcher txid (some call) } := by
  intro t r hr hv
  by_cases ht : t = txid
  · subst ht
    simp only [verifiedWrite, Function.update_self] at hr
    obtain rfl := Option.some.inj hr
    refine ⟨call, root, height, Function.update_self .., hclaims, hin, fun h' heq => ?_⟩
    rw [bumpHeight_of_claims hclaims] at heq
    exact (Option.some.inj heq).symm
  · simp only [verifiedWrite, Function.update_of_ne ht] at hr
    obtain ⟨call', root', height', hcall, hrest⟩ := h t r hr hv
    exact ⟨call', root', height', (Function.update_of_ne ht ..).trans hcall, hrest⟩

variable {chunk : List Latch}

theorem markProvenAt_eq {rows : Rows} {r : Row} (h : markProvenAt rows chunk txid = some r) :
    ((∀ l ∈ chunk, l.txid ≠ txid) ∧ rows txid = some r) ∨
      ∃ l ∈ chunk, l.txid = txid ∧ ∃ old, rows txid = some old ∧ r.beef = old.beef ∧ r.proofHeight = l.anchor.or old.proofHeight := by
  unfold markProvenAt at h
  cases hfind : chunk.find? fun l => l.txid = txid with
  | none =>
    rw [hfind] at h
    exact .inl ⟨by simpa using hfind, h⟩
  | some l =>
    rw [hfind] at h
    obtain ⟨old, hold, rfl⟩ := Option.map_eq_some_iff.mp h
    exact .inr ⟨l, List.mem_of_find?_eq_some hfind, by simpa using List.find?_some hfind, old, hold, rfl, rfl⟩

theorem markProvenAt_some {rows : Rows} {l : Latch} (hl : l ∈ chunk) {r : Row} (hr : rows l.txid = some r) :
    ∃ r', markProvenAt rows chunk l.txid = some r' ∧ r'.beef = r.beef ∧ r'.proofVerified = true := by
  unfold markProvenAt
  cases hfind : chunk.find? fun l' => l'.txid = l.txid with
  | none => simpa using List.find?_eq_none.mp hfind l hl
  | some l' =>
    rw [hr]
    exact ⟨_, rfl, rfl, rfl⟩

theorem covered_latch (h : w.Covered x) {todo : List Txid} {latched : List Latch} (hc : Holding x w.accepted call todo latched)
    (hsub : chunk ⊆ latched) (hsame : ∀ l ∈ chunk, ∀ r, w.rows l.txid = some r → x.claims r.beef l.txid = x.claims l.stored l.txid) :
    World.Covered x { w with
      rows := markProvenAt w.rows chunk
      latcher := fun txid => if chunk.any fun l => l.txid = txid then some call else w.latcher txid } := by
  intro txid r hr hv
  rcases markProvenAt_eq hr with ⟨hno, hold⟩ | ⟨l, hl, rfl, old, hold, hbeef, hheight⟩
  · obtain ⟨call', root, height, hcall, hrest⟩ := h txid r hold hv
    exact ⟨call', root, height, (if_neg (by simpa using hno)).trans hcall, hrest⟩
  · obtain ⟨root, height, hclaims, hanchor, hin⟩ := hc.read l (hsub hl)
    refine ⟨call, root, height, if_pos (by simpa using ⟨l, hl, rfl⟩), ?_, hin, fun h' heq => ?_⟩
    · rw [hbeef, hsame l hl old hold, hclaims]
    · rw [hheight, hanchor, Option.some_or] at heq
      exact (Option.some.inj heq).symm

variable {m : Turn μ}

theorem covered_step (hs : w.Sound x) (h : w.Covered x) (hm : w.Meets x m) : (w.step x m).Covered x := by
  unfold World.step
  unfold World.Meets at hm
  cases hcall : w.calls[m.call]? with
  | none => exact h
  | some c =>
    have hc := hs m.call c hcall
    cases c with
    | probing txid beef => exact h.ask rfl rfl fun _ he => he
    | admitting txid beef =>
      dsimp only
      split
      · exact h.ask rfl rfl fun _ he => he
      · exact covered_update h txid (fun r' hr' => by rw [← Option.some.inj hr']) _
    | unlatching txid =>
      dsimp only
      split
      · exact h.ask rfl rfl fun _ he => he
      · refine covered_update h txid (fun r' hr' => ?_) _
        obtain ⟨old, -, rfl⟩ := Option.map_eq_some_iff.mp hr'
        rfl
    | scanning limit age => exact h.ask rfl rfl fun _ he => he
    | checking todo latched =>
      cases todo with
      | nil => exact h.ask rfl rfl fun _ he => he
      | cons p todo =>
        obtain ⟨txid, stored⟩ := p
        cases hb : x.ownBump stored txid with
        | none =>
          simp only [hb]
          exact h.ask rfl rfl fun _ he => he
        | some bump =>
          rcases verify_eq (x := x) w m.call txid bump m.valid with hv | ⟨root, hroot, hv⟩ <;> simp only [hb, hv]
          · exact h.ask rfl rfl fun _ he => he
          · exact h.ask rfl rfl fun _ he => List.mem_cons_of_mem _ he
    | fetching txid stored todo latched =>
      cases hp : m.proof with
      | none => exact h.ask rfl rfl fun _ he => he
      | some bump =>
        rcases verify_eq (x := x) w m.call txid bump m.valid with hv | ⟨root, hroot, hv⟩ <;> simp only [hv]
        · exact h.ask rfl rfl fun _ he => he
        · cases x.stitchAndTrimPotBeef txid stored bump <;> exact h.ask rfl rfl fun _ he => List.mem_cons_of_mem _ he
    | compacting txid compacted todo latched =>
      obtain ⟨-, root, height, hclaims, hin⟩ := hc
      dsimp only
      split
      · exact h.ask rfl rfl fun _ he => he
      · exact (covered_compact h hclaims hin m.now).ask rfl rfl fun _ he => he
    | latching latched =>
      cases latched with
      | nil => exact h.ask rfl rfl fun _ he => he
      | cons l latched =>
        dsimp only
        split
        · exact h.ask rfl rfl fun _ he => he
        · rename_i hlost
          have hsame := hm hlost
          rw [hcall] at hsame
          exact (covered_latch h hc (List.take_subset ..) hsame).ask rfl rfl fun _ he => he
    | returned => exact h

theorem broken_step (hs : w.Sound x) (hm : ¬ w.Meets x m) : ¬ ((w.step x m).Covered x ∧ w.KeepsLatched x m) := by
  rintro ⟨hcov, hkeep⟩
  unfold World.Meets at hm
  obtain ⟨hlost, hm⟩ := Classical.not_imp.mp hm
  cases hcall : w.calls[m.call]? with
  | none =>
    rw [hcall] at hm
    exact hm trivial
  | some c =>
    have hc := hs m.call c hcall
    rw [hcall] at hm
    cases c with
    | admitting txid beef =>
      refine hm fun r hr hv => ?_
      obtain ⟨r', hr', hbeef⟩ := hkeep txid beef hcall r hr hv
      simp only [World.step, hcall, World.setCall, if_neg hlost, admitWrite, Function.update_self] at hr'
      rw [← hbeef, ← Option.some.inj hr']
    | latching latched =>
      refine hm fun l hl r hr => ?_
      cases latched with
      | nil => cases hl
      | cons l' latched =>
        obtain ⟨r', hr', hbeef, hv⟩ := markProvenAt_some hl hr
        have hrow : (w.step x m).rows l.txid = some r' := by
          simp only [World.step, hcall, World.setCall, if_neg hlost]
          exact hr'
        have hlatcher : (w.step x m).latcher l.txid = some m.call := by
          simp only [World.step, hcall, World.setCall, if_neg hlost]
          exact if_pos (List.any_eq_true.mpr ⟨l, hl, by simp⟩)
        have hacc : (w.step x m).accepted = w.accepted := by
          simp only [World.step, hcall, World.setCall, if_neg hlost]
        obtain ⟨call, root, height, hcall', hclaims, hin, -⟩ := hcov l.txid r' hrow hv
        obtain rfl := Option.some.inj (hlatcher.symm.trans hcall')
        rw [hacc] at hin
        rw [← hbeef, hclaims]
        exact (hc.only l (List.mem_of_mem_take hl) _ hin rfl rfl).symm
    | _ => exact hm trivial

theorem keeps_of_meets (hm : w.Meets x m) : w.KeepsLatched x m := by
  intro txid beef hcall r hr hv
  by_cases hlost : m.fate = .lost
  · refine ⟨r, ?_, rfl⟩
    simpa only [World.step, hcall, World.setCall, hlost, ite_true] using hr
  · have hsame := hm hlost
    rw [hcall] at hsame
    simp only [World.step, hcall, World.setCall, if_neg hlost, admitWrite, Function.update_self]
    exact ⟨_, rfl, (hsame r hr hv).symm⟩

/-! ## Runs -/

variable (x) in
def World.MeetsAll (w : World) : List (Turn μ) → Prop
  | [] => True
  | m :: ms => w.Meets x m ∧ (w.step x m).MeetsAll ms

variable (x) in
def World.LatchHolds (w : World) (turns : List (Turn μ)) : Prop :=
  (∀ pre, pre <+: turns → (w.run x pre).Covered x) ∧ ∀ pre m, pre ++ [m] <+: turns → (w.run x pre).KeepsLatched x m

theorem latchHolds_cons {ms : List (Turn μ)} :
    w.LatchHolds x (m :: ms) ↔ (w.Covered x ∧ w.KeepsLatched x m) ∧ (w.step x m).LatchHolds x ms := by
  constructor
  · rintro ⟨hcov, hkeep⟩
    refine ⟨⟨hcov [] (List.nil_prefix ..), hkeep [] m (by simp)⟩, fun pre hp => hcov (m :: pre) (List.cons_prefix_cons.mpr ⟨rfl, hp⟩), ?_⟩
    exact fun pre m' hp => hkeep (m :: pre) m' (List.cons_prefix_cons.mpr ⟨rfl, hp⟩)
  · rintro ⟨⟨hcov, hkeep⟩, hcovs, hkeeps⟩
    constructor
    · intro pre hp
      cases pre with
      | nil => exact hcov
      | cons m' pre =>
        obtain ⟨rfl, hp'⟩ := List.cons_prefix_cons.mp hp
        exact hcovs pre hp'
    · intro pre m' hp
      cases pre with
      | nil =>
        obtain ⟨rfl, -⟩ := List.cons_prefix_cons.mp hp
        exact hkeep
      | cons m'' pre =>
        obtain ⟨rfl, hp'⟩ := List.cons_prefix_cons.mp hp
        exact hkeeps pre m' hp'

theorem latchHolds_run (hx : x.Stitches) (hs : w.Sound x) (h : w.Covered x) (turns : List (Turn μ)) :
    w.MeetsAll x turns ↔ w.LatchHolds x turns := by
  induction turns generalizing w with
  | nil =>
    refine iff_of_true trivial ⟨fun pre hp => ?_, fun pre m hp => ?_⟩
    · rw [List.prefix_nil.mp hp]
      exact h
    · simp at hp
  | cons m ms ih =>
    rw [latchHolds_cons]
    constructor
    · exact fun ⟨hm, hms⟩ => ⟨⟨h, keeps_of_meets hm⟩, (ih (sound_step hx hs m) (covered_step hs h hm)).mp hms⟩
    · rintro ⟨⟨-, hkeep⟩, hrest⟩
      have hcov : (w.step x m).Covered x := hrest.1 [] (List.nil_prefix ..)
      have hm : w.Meets x m := by
        by_contra hm
        exact broken_step hs hm ⟨hcov, hkeep⟩
      exact ⟨hm, (ih (sound_step hx hs m) hcov).mpr hrest⟩

theorem sound_of_begins (hc : ∀ c ∈ w.calls, c.Begins) (hbefore : ∀ e ∈ w.accepted, w.calls.length ≤ e.call) : w.Sound x := by
  intro i c hi
  obtain ⟨hlt, -⟩ := List.getElem?_eq_some_iff.mp hi
  cases hc c (List.mem_of_getElem? hi) with
  | store txid beef => trivial
  | pass limit age => exact fun e he heq => absurd (hbefore e he) (by omega)
  | unlatch txid => trivial

/-- From rows whose latches are vouched for, over any interleaving of stores, passes and unlatches: the latch holds
throughout exactly when each admit's write finds no latch set since its probe over other bytes, and each latch finds
the root and the height the pass read. -/
theorem latch_covers_verified (hx : x.Stitches) {w : World} (hc : ∀ c ∈ w.calls, c.Begins)
    (hbefore : ∀ e ∈ w.accepted, w.calls.length ≤ e.call) (h : w.Covered x) (turns : List (Turn μ)) :
    w.MeetsAll x turns ↔ w.LatchHolds x turns :=
  latchHolds_run hx (sound_of_begins hc hbefore) h turns

end

/-! ## A longer submission lands inside the pass -/

/-- The first byte is the path, zero where there is none. -/
def byteSdk : Sdk Nat where
  ownBump beef _ := beef.head?.bind fun b => if b = 0 then none else some b.toNat
  potBeefHasProof _ beef := beef.head?.any (· ≠ 0)
  computeRoot bump _ := if bump = 0 ∨ 255 < bump then none else some (if bump = 7 then "mined" else "made up")
  blockHeight bump := bump
  stitchAndTrimPotBeef _ stored bump := some (UInt8.ofNat bump :: stored.tail)

theorem byteSdk_stitches : byteSdk.Stitches := by
  intro txid stored bump root new hroot hnew
  by_cases hbump : bump = 0 ∨ 255 < bump
  · simp [byteSdk, hbump] at hroot
  · have hlt : bump % 256 = bump := Nat.mod_eq_of_lt (by omega)
    have hne : UInt8.ofNat bump ≠ 0 := by
      intro h
      have := congrArg UInt8.toNat h
      simp only [UInt8.toNat_ofNat', UInt8.toNat_zero] at this
      omega
    cases hnew
    simpa [Sdk.claims, byteSdk, hne, hlt] using hroot

def passAndStore (submitted : Bytes) : World where
  rows := Function.update (fun _ => none) "aa" (some
    { beef := [7], createdAt := none, hasProof := true, proofVerified := false, structurallyUnprovable := false, proofHeight := none })
  calls := [completePotBeefLatches 20 0, storeBeef "aa" submitted]

theorem passAndStore_begins (submitted : Bytes) : ∀ c ∈ (passAndStore submitted).calls, c.Begins := by
  intro c hc
  simp only [passAndStore, List.mem_cons, List.not_mem_nil, or_false] at hc
  rcases hc with rfl | rfl
  · exact .pass ..
  · exact .store ..

theorem passAndStore_covered (submitted : Bytes) : (passAndStore submitted).Covered byteSdk := by
  intro txid r hr hv
  by_cases ht : txid = "aa"
  · subst ht
    simp only [passAndStore, Function.update_self] at hr
    rw [← Option.some.inj hr] at hv
    cases hv
  · simp only [passAndStore, Function.update_of_ne ht] at hr
    cases hr

def storeBeforeLatch : List (Turn Nat) :=
  [{ call := 0, drawn := ["aa"] }, { call := 0, valid := true }, { call := 1 }, { call := 1 }, { call := 0 }, { call := 0 }]

def storeAfterLatch : List (Turn Nat) :=
  [{ call := 1 }, { call := 0, drawn := ["aa"] }, { call := 0, valid := true }, { call := 0 }, { call := 0 }, { call := 1 }]

theorem latch_covers_same_bump : (passAndStore [7, 7]).LatchHolds byteSdk storeBeforeLatch := by
  refine (latch_covers_verified byteSdk_stitches (passAndStore_begins _) (by simp [passAndStore]) (passAndStore_covered _) _).mp ?_
  have hwrite : (World.run byteSdk (passAndStore [7, 7]) (storeBeforeLatch.take 3)).rows "aa" =
      some ⟨[7], none, true, false, false, none⟩ := by decide
  have hlatch : (World.run byteSdk (passAndStore [7, 7]) (storeBeforeLatch.take 5)).rows "aa" =
      some ⟨[7, 7], some 0, true, false, false, none⟩ := by decide
  refine ⟨fun _ => trivial, fun _ => trivial, fun _ => trivial, fun _ r hr hv => ?_, fun _ => trivial, fun _ l hl r hr => ?_, trivial⟩
  · rw [← Option.some.inj (hwrite.symm.trans hr)] at hv
    cases hv
  · obtain rfl := List.mem_singleton.mp hl
    rw [← Option.some.inj (hlatch.symm.trans hr)]
    rfl

/-- A made-up bump is served as verified; an admit that probed before the latch replaces verified bytes. -/
theorem latch_over_other_bytes :
    (¬ ∀ (x : Sdk Nat) (w : World) (turns : List (Turn Nat)), x.Stitches → (∀ c ∈ w.calls, c.Begins) → w.accepted = [] → w.Covered x →
      (w.run x turns).Covered x) ∧
    ¬ ∀ (x : Sdk Nat) (w : World) (pre : List (Turn Nat)) (m : Turn Nat), x.Stitches → (∀ c ∈ w.calls, c.Begins) → w.accepted = [] →
      w.Covered x → (w.run x pre).KeepsLatched x m := by
  constructor
  · intro h
    have hcov := h byteSdk (passAndStore [9, 9]) storeBeforeLatch byteSdk_stitches (passAndStore_begins _) rfl (passAndStore_covered _)
    have hrow : (World.run byteSdk (passAndStore [9, 9]) storeBeforeLatch).rows "aa" = some ⟨[9, 9], some 0, true, true, false, some 7⟩ := by
      decide
    have hacc : (World.run byteSdk (passAndStore [9, 9]) storeBeforeLatch).accepted = [⟨0, "aa", "mined", 7⟩] := by decide
    obtain ⟨call, root, height, -, hclaims, hin, -⟩ := hcov "aa" _ hrow rfl
    have hmade : byteSdk.claims [9, 9] "aa" = some ("made up", 9) := by decide
    rw [hmade] at hclaims
    rw [hacc] at hin
    simp_all
  · intro h
    have hkeep := h byteSdk (passAndStore [7, 7]) (storeAfterLatch.take 5) { call := 1 } byteSdk_stitches (passAndStore_begins _) rfl
      (passAndStore_covered _)
    obtain ⟨r', hr', hbeef⟩ := hkeep "aa" [7, 7] (by decide) ⟨[7], none, true, true, false, some 7⟩ (by decide) rfl
    have hrow : (World.step byteSdk (World.run byteSdk (passAndStore [7, 7]) (storeAfterLatch.take 5)) { call := 1 }).rows "aa" =
        some ⟨[7, 7], some 0, true, false, false, none⟩ := by decide
    rw [← Option.some.inj (hrow.symm.trans hr')] at hbeef
    cases hbeef

end OverlayEngine.Pot.PotBeefs
