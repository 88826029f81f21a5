import Mathlib.Data.Set.Insert
import Mathlib.Logic.Relation
import OverlayEngine.Gasp

/-!
# Deferral

A walk that is cut goes on from its record, in a later pass with fresh memos.
Where the answers stay the same but for the order in which a map is iterated,
`next` takes a walk's nodes and pending inputs from one turn to the next with no
memo at all, so every walk and every record lies on a path from the root. No
node is on it twice: one source has the order of every turn, and a walk with
nothing pending is the end of its one path.
-/

namespace OverlayEngine.Gasp

structure Core where
  nodes : List WalkedNode
  pending : List PendingInput

def DeferredGraph.core (r : DeferredGraph) : Core := ⟨r.nodes, r.pending⟩

/-- The peer says that it does not hold `o`, under some graph id. -/
def Source.Absent (S : Source) (o : Outpoint) : Prop :=
  ∃ g m e, S.requestNode g o m = .error e ∧ e.isNodeNotFound = true

def Source.Steady (S : Source) : Prop :=
  ∀ o, S.Absent o → ∀ g m, ∃ e, S.requestNode g o m = .error e ∧ e.isNodeNotFound = true

structure Source.Parses (S : Source) : Prop where
  peer : ∀ g o m n, S.requestNode g o m = .ok n → n.rawTx.parse.isSome
  fetcher : ∀ f txid a, S.fetcher = some f → f.fetchAncestor txid = .ok a → a.rawTx.parse.isSome

/-- `T` answers as `S` does, but for the order in which a node's map of needed inputs is iterated. -/
structure Source.Reorders (S T : Source) : Prop where
  requestNode : T.requestNode = S.requestNode
  fetcher : T.fetcher = S.fetcher
  syncExpiry : T.syncExpiry = S.syncExpiry
  error : ∀ node e, T.findNeededInputs node = .error e ↔ S.findNeededInputs node = .error e
  needed : ∀ node l l', S.findNeededInputs node = .ok l → T.findNeededInputs node = .ok l' → l'.Perm l

structure Memos.Sound (S : Source) (m : Memos) : Prop where
  pruned : ∀ o ∈ m.pruned, S.fetcher = none ∧ S.Absent o
  absent : ∀ o ∈ m.absent, S.Absent o

namespace Source.Reorders

variable {S T : Source}

theorem eq (h : S.Reorders T) : T = { S with findNeededInputs := T.findNeededInputs } := by
  cases S
  cases T
  cases h.requestNode
  cases h.fetcher
  cases h.syncExpiry
  rfl

theorem with_needed (h : S.Reorders T) {needed : Node → Except Error (List (Outpoint × Bool))} :
    { T with findNeededInputs := needed } = { S with findNeededInputs := needed } := by
  rw [h.eq]

theorem steady (h : S.Reorders T) (hS : S.Steady) : T.Steady := by
  rw [h.eq]
  exact hS

theorem parses (h : S.Reorders T) (hS : S.Parses) : T.Parses := by
  rw [h.eq]
  exact ⟨hS.peer, hS.fetcher⟩

theorem sound (h : S.Reorders T) {m : Memos} : m.Sound T ↔ m.Sound S := by
  rw [h.eq]
  exact ⟨fun hm => ⟨hm.pruned, hm.absent⟩, fun hm => ⟨hm.pruned, hm.absent⟩⟩

end Source.Reorders

theorem sound_empty (S : Source) : Memos.Sound S {} := ⟨fun _ h => (by cases h), fun _ h => (by cases h)⟩

/-! ## One turn without memos -/

def Core.commit (c : Core) : StepOut → Core
  | .appended _ walked children => ⟨c.nodes ++ [walked], c.pending.dropLast ++ children.reverse⟩
  | _ => ⟨c.nodes, c.pending.dropLast⟩

def Core.seen (c : Core) : List Outpoint := c.nodes.map fun walked => walked.node.id

def next (S : Source) (c : Core) : Option Core :=
  c.pending.getLast?.bind fun item =>
    match (step S 0 {} c.seen item).out with
    | .ok .expired => none
    | .ok out => some (c.commit out)
    | .error _ => none

section
variable {S : Source} {m : Memos} {seen seen' : List Outpoint} {item : PendingInput} {now : Nat}

theorem absorb_congr (h : ∀ o, o ∈ seen ↔ o ∈ seen') (node : Node) : absorb S seen item node = absorb S seen' item node := by
  unfold absorb
  by_cases hn : node.id ∈ seen
  · rw [if_pos hn, if_pos ((h _).mp hn)]
  · rw [if_neg hn, if_neg fun h' => hn ((h _).mpr h')]

theorem step_congr (h : ∀ o, o ∈ seen ↔ o ∈ seen') : step S now m seen item = step S now m seen' item := by
  have habsorb : absorb S seen item = absorb S seen' item := funext (absorb_congr h)
  unfold step Stepped.absorbedOr Stepped.absorbed
  rw [habsorb]

theorem askPeerForInput_out (hS : S.Steady) (hm : m.Sound S) (node : Node) :
    (askPeerForInput S m item).out = .ok node ↔ S.requestNode item.graphId item.outpoint item.metadata = .ok node := by
  unfold askPeerForInput
  by_cases ha : item.outpoint ∈ m.absent
  · rw [if_pos ha]
    obtain ⟨e, he, -⟩ := hS _ (hm.absent _ ha) item.graphId item.metadata
    rw [he]
    simp
  · rw [if_neg ha]
    cases S.requestNode item.graphId item.outpoint item.metadata <;> simp

theorem fetchInput_out (hS : S.Steady) (hm : m.Sound S) (f : AncestorFetcher) (node : Node) :
    (fetchInput S f m item).out = .ok node ↔ (fetchInput S f {} item).out = .ok node := by
  have hpeer : (askPeerForInput S m item).out = .ok node ↔ (askPeerForInput S {} item).out = .ok node :=
    (askPeerForInput_out hS hm node).trans (askPeerForInput_out hS (sound_empty S) node).symm
  have mapped (x : Except Error Node) (g : Error → Error) : x.mapError g = .ok node ↔ x = .ok node := by
    cases x <;> simp [Except.mapError]
  unfold fetchInput
  cases f.fetchAncestor item.outpoint.txid with
  | ok a => exact Iff.rfl
  | error e =>
    simp only
    by_cases h : (item.parentProven || e == .courierBudget) = true
    · rw [if_pos h, if_pos h]
    · rw [if_neg h, if_neg h]
      simp only
      rw [mapped, mapped]
      exact hpeer

theorem bind_eq_ok {α β : Type} {x : Except Error α} {f : α → Except Error β} {b : β} :
    x.bind f = .ok b ↔ ∃ a, x = .ok a ∧ f a = .ok b := by
  cases x <;> simp [Except.bind]

theorem step_out (hS : S.Steady) (hm : m.Sound S) (out : StepOut) :
    (step S now m seen item).out = .ok out ↔ (step S now {} seen item).out = .ok out := by
  unfold step
  by_cases hroot : item.spentBy.isNone = true
  · rw [if_pos hroot, if_pos hroot]
    have : (fetchRoot S now m item).out = (fetchRoot S now {} item).out := by
      unfold fetchRoot
      cases S.requestNode item.graphId item.outpoint item.metadata with
      | error e => rfl
      | ok node =>
        simp only
        cases rootExpired S now node item.outpoint with
        | error e => rfl
        | ok expired => cases expired <;> rfl
    unfold Stepped.absorbedOr
    rw [this]
  · rw [if_neg hroot, if_neg hroot]
    cases S.fetcher with
    | some f =>
      simp only [Stepped.absorbed, bind_eq_ok]
      exact exists_congr fun node => and_congr (fetchInput_out hS hm f node) Iff.rfl
    | none =>
      simp only
      by_cases hp : item.parentProven = true
      · rw [if_pos hp, if_pos hp]
        have : (fetchNamed S m item).out = (fetchNamed S {} item).out := by
          unfold fetchNamed
          cases S.requestNode item.graphId item.outpoint item.metadata with
          | ok node => rfl
          | error e => cases h : e.isNodeNotFound <;> simp [h]
        unfold Stepped.absorbedOr
        rw [this]
      · rw [if_neg hp, if_neg hp]
        simp only [Stepped.absorbed, bind_eq_ok]
        refine exists_congr fun node => and_congr ?_ Iff.rfl
        exact (askPeerForInput_out hS hm node).trans (askPeerForInput_out hS (sound_empty S) node).symm

theorem step_earlier {out : StepOut} (h : (step S now {} seen item).out = .ok out) (hout : out ≠ .expired) :
    (step S 0 {} seen item).out = .ok out := by
  unfold step at h ⊢
  by_cases hroot : item.spentBy.isNone = true
  · rw [if_pos hroot] at h ⊢
    unfold Stepped.absorbedOr fetchRoot at h ⊢
    cases hreq : S.requestNode item.graphId item.outpoint item.metadata with
    | error e => simp [hreq, Except.bind] at h
    | ok node =>
      cases hexp : S.syncExpiry node item.outpoint with
      | error e => simp [hreq, rootExpired, hexp, Except.map, Except.bind] at h
      | ok expiry =>
        by_cases hnow : (expiry.any fun e => decide (e ≤ now)) = true
        · simp only [hreq, rootExpired, hexp, Except.map, hnow, Except.bind] at h
          exact absurd (Except.ok.inj h).symm hout
        · have hzero : (expiry.any fun e => decide (e ≤ 0)) = false := by
            cases expiry with
            | none => rfl
            | some e => simp at hnow ⊢; omega
          rw [Bool.not_eq_true] at hnow
          simp only [hreq, rootExpired, hexp, Except.map, hnow] at h
          simp only [rootExpired, hexp, Except.map, hzero]
          exact h
  · rw [if_neg hroot] at h ⊢
    exact h

theorem step_pruned (hS : S.Steady) (hm : m.Sound S) (hproven : item.parentProven = true) (hspent : item.spentBy.isSome)
    (hitem : item.outpoint ∈ m.pruned) : (step S 0 {} seen item).out = .ok .pruned := by
  obtain ⟨hfetch, habsent⟩ := hm.pruned _ hitem
  obtain ⟨e, hreq, he⟩ := hS _ habsent item.graphId item.metadata
  have hroot : item.spentBy.isNone = false := by
    cases h : item.spentBy with
    | none => rw [h] at hspent; cases hspent
    | some o => rfl
  simp [step, hroot, hfetch, hproven, Stepped.absorbedOr, fetchNamed, hreq, he, Except.bind]

theorem sound_absent (hm : m.Sound S) {o : Outpoint} (h : S.Absent o) : Memos.Sound S { m with absent := o :: m.absent } := by
  refine ⟨hm.pruned, fun o' ho' => ?_⟩
  rcases List.mem_cons.mp ho' with rfl | ho'
  · exact h
  · exact hm.absent o' ho'

theorem sound_askPeerForInput (hm : m.Sound S) : (askPeerForInput S m item).memos.Sound S := by
  unfold askPeerForInput
  split
  · exact hm
  · split
    · exact hm
    · rename_i e he
      simp only
      split
      · rename_i hn
        exact sound_absent hm ⟨_, _, e, he, hn⟩
      · exact hm

theorem sound_step (hm : m.Sound S) : (step S now m seen item).memos.Sound S := by
  unfold step
  split
  · unfold Stepped.absorbedOr fetchRoot
    cases S.requestNode item.graphId item.outpoint item.metadata with
    | error e => exact hm
    | ok node =>
      simp only
      cases rootExpired S now node item.outpoint with
      | error e => exact hm
      | ok expired => cases expired <;> exact hm
  · split
    · rename_i f hf
      unfold Stepped.absorbed fetchInput
      cases f.fetchAncestor item.outpoint.txid with
      | ok a => exact hm
      | error e =>
        simp only
        split
        · exact hm
        · exact sound_askPeerForInput hm
    · rename_i hf
      split
      · unfold Stepped.absorbedOr fetchNamed
        cases hreq : S.requestNode item.graphId item.outpoint item.metadata with
        | ok node => exact hm
        | error e =>
          simp only
          split
          · rename_i hn
            simp only
            split
            · exact hm
            · refine ⟨fun o ho => ?_, hm.absent⟩
              rcases List.mem_cons.mp ho with rfl | ho
              · exact ⟨hf, _, _, e, hreq, hn⟩
              · exact hm.pruned o ho
          · exact hm
      · exact sound_askPeerForInput hm

end

/-! ## The path of a walk -/

def freshCore (root : Outpoint) : Core := ⟨[], [rootInput root]⟩

/-- Each turn has a source of its own among those of `A`. -/
def OnPath (A : Set Source) (root : Outpoint) (c : Core) : Prop :=
  Relation.ReflTransGen (fun c c' => ∃ S ∈ A, next S c = some c') (freshCore root) c

structure Core.Formed (root : Outpoint) (c : Core) : Prop where
  parses : ∀ walked ∈ c.nodes, walked.node.rawTx.parse.isSome
  once : c.seen.Nodup
  inputs : ∀ item ∈ c.pending, item = rootInput root ∨ item.spentBy.isSome

section
variable {S : Source} {A : Set Source} {root : Outpoint} {c : Core}

theorem nodeId_eq {n : Node} (h : n.rawTx.parse.isSome) : n.nodeId = some n.id := by
  unfold Node.nodeId Node.id
  cases hn : n.rawTx with
  | parsed tx => rfl
  | unparsed head => rw [hn] at h; cases h

theorem hydrateRoot_rawTx (S : Source) (n : Node) : (hydrateRoot S n).1.rawTx = n.rawTx := by
  unfold hydrateRoot
  split <;> rfl

variable {item : PendingInput} {seen : List Outpoint} {children : List PendingInput}

theorem absorb_appended {node : Node} {id : Outpoint} {walked : WalkedNode}
    (h : absorb S seen item node = .ok (.appended id walked children)) :
    walked.node = node ∧ id = node.id ∧ node.id ∉ seen ∧ ∀ child ∈ children, child.spentBy = some node.id := by
  unfold absorb at h
  split at h
  · cases h
  · rename_i hseen
    cases hn : S.findNeededInputs node with
    | error e => rw [hn] at h; cases h
    | ok needed =>
      rw [hn] at h
      cases h
      refine ⟨rfl, rfl, hseen, fun child hc => ?_⟩
      obtain ⟨input, -, rfl⟩ := List.mem_map.mp hc
      rfl

variable {m : Memos} {now : Nat}

theorem step_appended (hS : S.Parses) {id : Outpoint}
    {walked : WalkedNode} (h : (step S now m seen item).out = .ok (.appended id walked children)) :
    walked.node.rawTx.parse.isSome ∧ id = walked.node.id ∧ id ∉ seen ∧ ∀ child ∈ children, child.spentBy.isSome := by
  have finish {node : Node} (hp : node.rawTx.parse.isSome) (ha : absorb S seen item node = .ok (.appended id walked children)) :
      walked.node.rawTx.parse.isSome ∧ id = walked.node.id ∧ id ∉ seen ∧ ∀ child ∈ children, child.spentBy.isSome := by
    obtain ⟨h1, h2, h3, h4⟩ := absorb_appended ha
    exact ⟨by rw [h1]; exact hp, by rw [h1]; exact h2, by rw [h2]; exact h3, fun child hc => by rw [h4 child hc]; rfl⟩
  have peer {m : Memos} {node : Node} (ha : (askPeerForInput S m item).out = .ok node) : node.rawTx.parse.isSome := by
    unfold askPeerForInput at ha
    split at ha
    · cases ha
    · cases hreq : S.requestNode item.graphId item.outpoint item.metadata with
      | error e => rw [hreq] at ha; cases ha
      | ok n => rw [hreq] at ha; cases ha; exact hS.peer _ _ _ _ hreq
  unfold step at h
  split at h
  · obtain ⟨node, hnode, ha⟩ := bind_eq_ok.mp h
    cases node with
    | none => cases ha
    | some node =>
      unfold fetchRoot at hnode
      cases hreq : S.requestNode item.graphId item.outpoint item.metadata with
      | error e => rw [hreq] at hnode; cases hnode
      | ok n =>
        rw [hreq] at hnode
        simp only at hnode
        split at hnode
        · cases hnode
        · cases hnode
        · cases hnode
          exact finish (by rw [hydrateRoot_rawTx]; exact hS.peer _ _ _ _ hreq) ha
  · split at h
    · rename_i f hf
      obtain ⟨node, hnode, ha⟩ := bind_eq_ok.mp h
      refine finish ?_ ha
      unfold fetchInput at hnode
      cases hfetch : f.fetchAncestor item.outpoint.txid with
      | ok a => rw [hfetch] at hnode; cases hnode; exact hS.fetcher f _ a hf hfetch
      | error e =>
        rw [hfetch] at hnode
        simp only at hnode
        split at hnode
        · cases hnode
        · refine peer (m := m) ?_
          cases hout : (askPeerForInput S m item).out with
          | error e => rw [hout] at hnode; cases hnode
          | ok n => rw [hout] at hnode; cases hnode; rfl
    · split at h
      · obtain ⟨node, hnode, ha⟩ := bind_eq_ok.mp h
        cases node with
        | none => cases ha
        | some node =>
          refine finish ?_ ha
          unfold fetchNamed at hnode
          cases hreq : S.requestNode item.graphId item.outpoint item.metadata with
          | ok n => rw [hreq] at hnode; cases hnode; exact hS.peer _ _ _ _ hreq
          | error e => rw [hreq] at hnode; simp only at hnode; split at hnode <;> cases hnode
      · obtain ⟨node, hnode, ha⟩ := bind_eq_ok.mp h
        exact finish (peer hnode) ha

theorem formed_fresh (root : Outpoint) : (freshCore root).Formed root :=
  ⟨fun _ h => (by cases h), List.nodup_nil, fun _ h => .inl (List.mem_singleton.mp h)⟩

variable {out : StepOut}

theorem Core.Formed.commit (hS : S.Parses)
    (hc : c.Formed root) (h : (step S now m c.seen item).out = .ok out) : (c.commit out).Formed root := by
  have popped : ∀ item ∈ c.pending.dropLast, item = rootInput root ∨ item.spentBy.isSome :=
    fun item hi => hc.inputs item ((List.dropLast_sublist _).subset hi)
  cases out with
  | expired => exact ⟨hc.parses, hc.once, popped⟩
  | pruned => exact ⟨hc.parses, hc.once, popped⟩
  | seen => exact ⟨hc.parses, hc.once, popped⟩
  | appended id walked children =>
    obtain ⟨hp, hid, hnew, hchild⟩ := step_appended hS h
    constructor
    · intro w hw
      rcases List.mem_append.mp hw with hw | hw
      · exact hc.parses w hw
      · rw [List.mem_singleton.mp hw]
        exact hp
    · have hseen : (c.commit (.appended id walked children)).seen = c.seen ++ [id] := by
        simp [Core.commit, Core.seen, hid]
      rw [hseen]
      apply List.Nodup.append hc.once (List.nodup_singleton id)
      rintro o ho hid
      rw [List.mem_singleton.mp hid] at ho
      exact hnew ho
    · intro item hi
      rcases List.mem_append.mp hi with hi | hi
      · exact popped item hi
      · exact .inr (hchild item (List.mem_reverse.mp hi))

variable {c' : Core}

theorem next_eq_some (h : next S c = some c') :
    ∃ item out, c.pending.getLast? = some item ∧ (step S 0 {} c.seen item).out = .ok out ∧ out ≠ .expired ∧ c' = c.commit out := by
  unfold next at h
  obtain ⟨item, hitem, h⟩ := Option.bind_eq_some_iff.mp h
  refine ⟨item, ?_⟩
  split at h
  · cases h
  · rename_i out hout hstep
    exact ⟨out, hitem, hstep, hout, (Option.some.inj h).symm⟩
  · cases h

theorem next_of_step (hitem : c.pending.getLast? = some item)
    (hstep : (step S 0 {} c.seen item).out = .ok out) (hout : out ≠ .expired) : next S c = some (c.commit out) := by
  unfold next
  rw [hitem, Option.bind_some, hstep]
  cases out with
  | expired => exact absurd rfl hout
  | pruned => rfl
  | seen => rfl
  | appended id walked children => rfl

theorem next_singleton : (∃ T ∈ ({S} : Set Source), next T c = some c') ↔ next S c = some c' := by
  simp

theorem OnPath.formed (hA : ∀ S ∈ A, S.Parses) (h : OnPath A root c) : c.Formed root := by
  induction h with
  | refl => exact formed_fresh root
  | tail _ hn ih =>
    obtain ⟨S, hS, hn⟩ := hn
    obtain ⟨item, out, -, hstep, -, rfl⟩ := next_eq_some hn
    exact ih.commit (hA S hS) hstep

theorem OnPath.ends (h : OnPath {S} root c) (h' : OnPath {S} root c') (hdone : c.pending = []) (hdone' : c'.pending = []) :
    c = c' := by
  have stuck {c c' : Core} (hd : c.pending = [])
      (hp : Relation.ReflTransGen (fun c c' => ∃ T ∈ ({S} : Set Source), next T c = some c') c c') : c = c' := by
    rcases Relation.ReflTransGen.cases_head hp with rfl | ⟨d, ⟨T, -, hn⟩, -⟩
    · rfl
    · simp [next, hd] at hn
  have unique : Relator.RightUnique fun c c' => ∃ T ∈ ({S} : Set Source), next T c = some c' := by
    intro a b d hb hd
    exact Option.some.inj ((next_singleton.mp hb).symm.trans (next_singleton.mp hd))
  rcases Relation.ReflTransGen.total_of_right_unique unique h h' with hp | hp
  · exact stuck hdone hp
  · exact (stuck hdone' hp).symm

/-! ## One source for a path -/

variable {needed : Node → Except Error (List (Outpoint × Bool))}

theorem absorb_needed {node : Node}
    (h : absorb S seen item node = .ok out)
    (hneeded : ∀ id walked children, out = .appended id walked children → needed walked.node = S.findNeededInputs walked.node) :
    absorb { S with findNeededInputs := needed } seen item node = .ok out := by
  unfold absorb at h ⊢
  by_cases hseen : node.id ∈ seen
  · rw [if_pos hseen] at h ⊢
    exact h
  · rw [if_neg hseen] at h ⊢
    cases hn : S.findNeededInputs node with
    | error e => rw [hn] at h; cases h
    | ok l =>
      rw [hn] at h
      cases h
      show (needed node).map _ = _
      rw [hneeded _ _ _ rfl, hn]
      rfl

/-- A step asks for the inputs of the node it appends and of no other. -/
theorem step_needed
    (h : (step S now m seen item).out = .ok out)
    (hneeded : ∀ id walked children, out = .appended id walked children → needed walked.node = S.findNeededInputs walked.node) :
    (step { S with findNeededInputs := needed } now m seen item).out = .ok out := by
  have absorbed {f : Stepped Node} (hf : (f.absorbed S seen item).out = .ok out) :
      (f.absorbed { S with findNeededInputs := needed } seen item).out = .ok out := by
    obtain ⟨node, hnode, ha⟩ := bind_eq_ok.mp hf
    exact bind_eq_ok.mpr ⟨node, hnode, absorb_needed ha hneeded⟩
  have absorbedOr {f : Stepped (Option Node)} {missing : StepOut} (hf : (f.absorbedOr S seen item missing).out = .ok out) :
      (f.absorbedOr { S with findNeededInputs := needed } seen item missing).out = .ok out := by
    obtain ⟨node, hnode, ha⟩ := bind_eq_ok.mp hf
    refine bind_eq_ok.mpr ⟨node, hnode, ?_⟩
    cases node with
    | none => exact ha
    | some node => exact absorb_needed ha hneeded
  unfold step at h ⊢
  by_cases hroot : item.spentBy.isNone = true
  · rw [if_pos hroot] at h ⊢
    exact absorbedOr h
  · rw [if_neg hroot] at h ⊢
    cases hf : S.fetcher with
    | some fetcher =>
      rw [hf] at h
      exact absorbed h
    | none =>
      rw [hf] at h
      simp only at h ⊢
      by_cases hp : item.parentProven = true
      · rw [if_pos hp] at h ⊢
        exact absorbedOr h
      · rw [if_neg hp] at h ⊢
        exact absorbed h

theorem next_needed (hP : S.Parses) (h : next S c = some c')
    (hneeded : ∀ walked ∈ c'.nodes, walked.node.id ∉ c.seen → needed walked.node = S.findNeededInputs walked.node) :
    next { S with findNeededInputs := needed } c = some c' := by
  obtain ⟨item, out, hitem, hstep, hout, rfl⟩ := next_eq_some h
  refine next_of_step hitem (step_needed hstep ?_) hout
  rintro id walked children rfl
  obtain ⟨-, hid, hnew, -⟩ := step_appended hP hstep
  exact hneeded walked (List.mem_append_right _ (List.mem_singleton.mpr rfl)) (hid ▸ hnew)

theorem nodes_next (h : next S c = some c') : ∀ walked ∈ c.nodes, walked ∈ c'.nodes := by
  obtain ⟨item, out, -, -, -, rfl⟩ := next_eq_some h
  intro walked hw
  cases out with
  | appended id walked' children => exact List.mem_append_left _ hw
  | expired => exact hw
  | pruned => exact hw
  | seen => exact hw

theorem OnPath.with_needed (hP : S.Parses) (h : OnPath {S} root c)
    (hneeded : ∀ walked ∈ c.nodes, needed walked.node = S.findNeededInputs walked.node) :
    OnPath {{ S with findNeededInputs := needed }} root c := by
  induction h with
  | refl => exact .refl
  | tail _ hn ih =>
    have hn := next_singleton.mp hn
    exact (ih fun walked hw => hneeded walked (nodes_next hn walked hw)).tail
      (next_singleton.mpr (next_needed hP hn fun walked hw _ => hneeded walked hw))

/-- `U` is `S` with, at each node, the order of one of the sources of `A`. -/
structure Source.Mixes (S : Source) (A : Set Source) (U : Source) : Prop where
  reorders : S.Reorders U
  needed : ∀ node, ∃ T ∈ A, U.findNeededInputs node = T.findNeededInputs node

theorem mixes_of_needed (hA : ∀ T ∈ A, S.Reorders T)
    (h : ∀ node, ∃ T ∈ A, needed node = T.findNeededInputs node) : S.Mixes A { S with findNeededInputs := needed } := by
  refine ⟨⟨rfl, rfl, rfl, fun node e => ?_, fun node l l' hl hl' => ?_⟩, h⟩
  · obtain ⟨T, hT, hn⟩ := h node
    exact (by rw [hn] : needed node = .error e ↔ T.findNeededInputs node = .error e).trans ((hA T hT).error node e)
  · obtain ⟨T, hT, hn⟩ := h node
    exact (hA T hT).needed node l l' hl (hn.symm.trans hl')

/-- The inputs of a node are iterated once on a path, so one source has the orders of all its turns. -/
theorem OnPath.mixed (hA : ∀ T ∈ A, S.Reorders T) (hP : S.Parses) {T : Source} (hT : T ∈ A) (h : OnPath A root c) :
    ∃ U, S.Mixes A U ∧ OnPath {U} root c := by
  induction h with
  | refl => exact ⟨T, ⟨hA T hT, fun _ => ⟨T, hT, rfl⟩⟩, .refl⟩
  | @tail c c' _ hn ih =>
    obtain ⟨T', hT', hn⟩ := hn
    obtain ⟨U, hU, hpath⟩ := ih
    -- the nodes walked keep their order, the one this turn appends is none of them
    let needed : Node → Except Error (List (Outpoint × Bool)) := fun node =>
      if node ∈ c.nodes.map WalkedNode.node then U.findNeededInputs node else T'.findNeededInputs node
    have hmixes : S.Mixes A { S with findNeededInputs := needed } := by
      refine mixes_of_needed hA fun node => ?_
      by_cases hnode : node ∈ c.nodes.map WalkedNode.node
      · obtain ⟨T, hT, hn⟩ := hU.needed node
        exact ⟨T, hT, (if_pos hnode).trans hn⟩
      · exact ⟨T', hT', if_neg hnode⟩
    have hwalked : OnPath {{ S with findNeededInputs := needed }} root c := by
      rw [← hU.reorders.with_needed]
      exact hpath.with_needed (hU.reorders.parses hP) fun walked hw => if_pos (List.mem_map_of_mem hw)
    have hturn : next { S with findNeededInputs := needed } c = some c' := by
      rw [← (hA T' hT').with_needed]
      refine next_needed ((hA T' hT').parses hP) hn fun walked _ hnew => if_neg fun hin => hnew ?_
      obtain ⟨old, hold, heq⟩ := List.mem_map.mp hin
      exact List.mem_map.mpr ⟨old, hold, by rw [heq]⟩
    exact ⟨_, hmixes, hwalked.tail (next_singleton.mpr hturn)⟩


end

/-! ## A walk on the path -/

structure Walk.OnPath (A : Set Source) (root : Outpoint) (w : Walk) : Prop where
  core : Gasp.OnPath A root w.record.core
  seen : ∀ o, o ∈ w.seen ↔ o ∈ w.record.core.seen

section
variable {S : Source} {A : Set Source} {root : Outpoint} {w : Walk} {m : Memos}

theorem core_commit (out : StepOut) : (w.commit out).record.core = w.record.core.commit out := by
  cases out <;> rfl

theorem onPath_fresh (score : Nat) (cap : Option PassCap) : (freshWalk score root cap).OnPath A root :=
  ⟨.refl, fun _ => Iff.rfl⟩

theorem onPath_resume (hA : ∀ S ∈ A, S.Parses) {r : DeferredGraph} (h : OnPath A root r.core) (cap : Option PassCap) :
    (resumeWalk r cap).OnPath A root := by
  refine ⟨h, fun o => ?_⟩
  have hparse := (h.formed hA).parses
  simp only [resumeWalk, Core.seen, DeferredGraph.core, List.mem_filterMap, List.mem_map]
  constructor
  · rintro ⟨walked, hw, hid⟩
    rw [nodeId_eq (hparse walked hw)] at hid
    exact ⟨walked, hw, Option.some.inj hid⟩
  · rintro ⟨walked, hw, rfl⟩
    exact ⟨walked, hw, nodeId_eq (hparse walked hw)⟩

theorem Walk.OnPath.next (hSA : S ∈ A) (h : w.OnPath A root) {out : StepOut} (hn : next S w.record.core = some (w.record.core.commit out))
    (hid : ∀ id walked children, out = .appended id walked children → id = walked.node.id) : (w.commit out).OnPath A root := by
  refine ⟨by rw [core_commit]; exact h.core.tail ⟨S, hSA, hn⟩, fun o => ?_⟩
  rw [core_commit]
  cases out with
  | expired => exact h.seen o
  | pruned => exact h.seen o
  | seen => exact h.seen o
  | appended id walked children =>
    have := hid id walked children rfl
    simp only [Walk.commit, List.mem_cons, h.seen o, Core.seen, Core.commit, List.map_append, List.mem_append, List.map_cons, List.map_nil, this]
    tauto

theorem Walk.OnPath.count (h : w.OnPath A root) (calls bytes : Nat) : (w.count calls bytes).OnPath A root := ⟨h.core, h.seen⟩

theorem Walk.OnPath.popped (hSA : S ∈ A) (hS : S.Steady) (hA : ∀ S ∈ A, S.Parses) (hm : m.Sound S) (h : w.OnPath A root) {item : PendingInput}
    (hitem : w.record.pending.getLast? = some item) (hpruned : (item.parentProven && decide (item.outpoint ∈ m.pruned)) = true) :
    Gasp.next S w.record.core = some w.pop.record.core ∧ w.pop.OnPath A root := by
  rw [Bool.and_eq_true, decide_eq_true_eq] at hpruned
  have hspent : item.spentBy.isSome := by
    rcases (h.core.formed hA).inputs item (List.mem_of_mem_getLast? hitem) with rfl | hs
    · cases hpruned.1
    · exact hs
  have hn : Gasp.next S w.record.core = some (w.record.core.commit .pruned) :=
    next_of_step hitem (step_pruned hS hm hpruned.1 hspent hpruned.2) (by simp)
  exact ⟨hn, h.next hSA hn (by simp)⟩

theorem Walk.OnPath.stepped (hSA : S ∈ A) (hS : S.Steady) (hA : ∀ S ∈ A, S.Parses) (hm : m.Sound S) (h : w.OnPath A root) {item : PendingInput} {now calls bytes : Nat}
    {out : StepOut} (hitem : w.record.pending.getLast? = some item) (hstep : (step S now m w.seen item).out = .ok out) (hout : out ≠ .expired) :
    ((w.count calls bytes).commit out).OnPath A root := by
  rw [step_congr h.seen] at hstep
  have hn := next_of_step hitem (step_earlier ((step_out hS hm out).mp hstep) hout) hout
  apply (h.count calls bytes).next hSA hn
  rintro id walked children rfl
  exact (step_appended (hA S hSA) hstep).2.1

theorem onPath_walkGraph (hSA : S ∈ A) (hS : S.Steady) (hA : ∀ S ∈ A, S.Parses) (now : Nat) (cuts : List Cut) (hm : m.Sound S)
    (h : w.OnPath A root) : (walkGraph S now cuts m w).2.2.OnPath A root := by
  induction cuts generalizing m w with
  | nil => exact h
  | cons cut rest ih =>
    unfold walkGraph
    cases hitem : w.record.pending.getLast? with
    | none => exact h
    | some item =>
      simp only
      by_cases hpruned : (item.parentProven && decide (item.outpoint ∈ m.pruned)) = true
      · rw [if_pos hpruned]
        exact ih hm (h.popped hSA hS hA hm hitem hpruned).2
      · rw [if_neg hpruned]
        cases w.overCap with
        | some limb => exact h
        | none =>
          cases cut with
          | due => exact h
          | inside cause calls bytes learned => exact h.count calls bytes
          | go =>
            simp only
            split
            · exact h.count _ _
            · exact h.count _ _
            · exact h.count _ _
            · rename_i out hout hstep
              exact ih (sound_step hm) (h.stepped hSA hS hA hm hitem hstep fun he => hout he)

theorem sound_walkGraph (S : Source) (now : Nat) (cuts : List Cut) (hm : m.Sound S) : (walkGraph S now cuts m w).2.1.Sound S := by
  induction cuts generalizing m w with
  | nil => exact hm
  | cons cut rest ih =>
    unfold walkGraph
    split
    · exact hm
    · split
      · exact ih hm
      · split
        · exact hm
        · rename_i item _ _ _ _
          have hmemos : (step S now m w.seen item).memos.Sound S := sound_step hm
          cases cut with
          | due => exact hm
          | inside cause calls bytes learned =>
            cases learned
            · exact hm
            · exact hmemos
          | go =>
            simp only
            split
            · exact hmemos
            · exact hmemos
            · exact hmemos
            · exact ih hmemos

end

/-! ## The uncut walk -/

/-- The root is not expired at `now`. -/
def Source.Live (S : Source) (now : Nat) (root : Outpoint) : Prop :=
  ∀ node, S.requestNode (.at root) root true = .ok node → rootExpired S now node root ≠ .ok true

def uncut (S : Source) (now score : Nat) (root : Outpoint) (turns : Nat) : WalkEnd × Memos × Walk :=
  walkGraph S now (List.replicate turns .go) {} (freshWalk score root none)

section
variable {S : Source} {root : Outpoint} {w : Walk} {m : Memos} {now : Nat}

theorem step_live {item : PendingInput} {seen : List Outpoint} {out : StepOut} (hlive : S.Live now root)
    (hitem : item = rootInput root ∨ item.spentBy.isSome) (h : (step S 0 {} seen item).out = .ok out) :
    (step S now {} seen item).out = .ok out := by
  rcases hitem with rfl | hspent
  · have hroot : (rootInput root).spentBy.isNone = true := rfl
    unfold step at h ⊢
    rw [if_pos hroot] at h ⊢
    unfold Stepped.absorbedOr fetchRoot at h ⊢
    simp only [rootInput] at h ⊢
    cases hreq : S.requestNode (.at root) root true with
    | error e => simp [hreq, Except.bind] at h
    | ok node =>
      have hnow := hlive node hreq
      simp only [hreq, rootExpired] at h hnow ⊢
      cases hexp : S.syncExpiry node root with
      | error e => simp [hexp, Except.map, Except.bind] at h
      | ok expiry =>
        simp only [hexp, Except.map] at h hnow ⊢
        cases hn : expiry.any fun e => decide (e ≤ now) with
        | true => rw [hn] at hnow; exact absurd rfl hnow
        | false =>
          have hzero : (expiry.any fun e => decide (e ≤ 0)) = false := by
            cases expiry with
            | none => rfl
            | some e => simp at hn ⊢; omega
          rw [hzero] at h
          exact h
  · unfold step at h ⊢
    have : item.spentBy.isNone = false := by
      cases hs : item.spentBy with
      | none => rw [hs] at hspent; cases hspent
      | some o => rfl
    rw [this] at h ⊢
    exact h

theorem uncut_follows (hS : S.Steady) (hP : S.Parses) (hlive : S.Live now root) {c c' : Core}
    (h : Relation.ReflTransGen (fun c c' => ∃ T ∈ ({S} : Set Source), next T c = some c') c c') (hdone : c'.pending = []) :
    ∀ w m, m.Sound S → w.OnPath {S} root → w.record.core = c → w.cap = none →
      ∃ turns m' w', walkGraph S now (List.replicate turns .go) m w = (.done, m', w') ∧ w'.record.core = c' := by
  have hA : ∀ T ∈ ({S} : Set Source), T.Parses := by
    rintro T rfl
    exact hP
  induction h using Relation.ReflTransGen.head_induction_on with
  | refl =>
    intro w m hm hw hc hcap
    refine ⟨1, m, w, ?_, hc⟩
    have : w.record.pending = [] := by rw [← hdone, ← hc]; rfl
    exact walkGraph_turn.1 this _
  | head hn hrest ih =>
    intro w m hm hw hc hcap
    have hn := next_singleton.mp hn
    obtain ⟨item, out, hitem, hstep, hout, hnext⟩ := next_eq_some hn
    rw [← hc] at hitem hstep hn
    by_cases hpruned : (item.parentProven && decide (item.outpoint ∈ m.pruned)) = true
    · obtain ⟨hpop, hpath⟩ := hw.popped (Set.mem_singleton S) hS hA hm hitem hpruned
      obtain ⟨turns, m', w', hgo, hend⟩ := ih w.pop m hm hpath (Option.some.inj (hpop.symm.trans hn)) hcap
      refine ⟨turns + 1, m', w', ?_, hend⟩
      rw [List.replicate_succ, (walkGraph_turn.2 item hitem).1 hpruned]
      exact hgo
    · have hnow : (step S now m w.seen item).out = .ok out := by
        rw [step_congr hw.seen]
        refine (step_out hS hm out).mpr (step_live hlive ?_ hstep)
        exact (hw.core.formed hA).inputs item (List.mem_of_mem_getLast? hitem)
      have hpath : ((w.count (step S now m w.seen item).calls (step S now m w.seen item).bytes).commit out).OnPath {S} root :=
        hw.stepped (Set.mem_singleton S) hS hA hm hitem hnow hout
      obtain ⟨turns, m', w', hgo, hend⟩ := ih _ _ (sound_step hm) hpath (by rw [core_commit, hnext, ← hc]; rfl) (by cases out <;> exact hcap)
      refine ⟨turns + 1, m', w', ?_, hend⟩
      have hover : w.overCap = none := by rw [Walk.overCap, hcap]; rfl
      rw [List.replicate_succ, (walkGraph_turn.2 item hitem).2 out hpruned hover hnow hout]
      exact hgo

theorem walkGraph_done {cuts : List Cut} (h : (walkGraph S now cuts m w).1 = .done) : (walkGraph S now cuts m w).2.2.record.pending = [] := by
  induction cuts generalizing m w with
  | nil => cases h
  | cons cut rest ih =>
    unfold walkGraph at h ⊢
    cases hitem : w.record.pending.getLast? with
    | none => exact List.getLast?_eq_none_iff.mp hitem
    | some item =>
      simp only [hitem] at h ⊢
      by_cases hpruned : (item.parentProven && decide (item.outpoint ∈ m.pruned)) = true
      · rw [if_pos hpruned] at h ⊢
        exact ih h
      · rw [if_neg hpruned] at h ⊢
        cases hover : w.overCap with
        | some limb => simp [hover] at h
        | none =>
          simp only [hover] at h ⊢
          cases cut with
          | due => cases h
          | inside cause calls bytes learned => cases cause <;> cases h
          | go =>
            simp only at h ⊢
            split at h
            · cases h
            · cases h
            · cases h
            · exact ih h

end

/-! ## The passes of a root -/

structure Passes where
  stored : Option DeferredGraph := none
  memos : Memos := {}
  walk : Option Walk := none

inductive Recounted (now : Nat) (r : DeferredGraph) : DeferredGraph → Prop
  | idle (prior held : Nat) : Recounted now r (idleResume now prior held r)
  | heldBack : Recounted now r (heldBack r)
  | kept : Recounted now r (keepUnanchorable now r)
  | reserved : Recounted now r (reserved now r)

/-- One step of the syncs that walk `root`, at any clock, under any cap, with any answer of the storage. The turns of a walk may be
split over any number of steps, and each step has a source of its own among those of `A`. -/
inductive Passes.Step (A : Set Source) (root : Outpoint) : Passes → Passes → Prop
  | sync (p : Passes) : Step A root p { p with memos := {} }
  -- another graph of the same sync is walked
  | other (p : Passes) (S : Source) (hS : S ∈ A) (now : Nat) (cuts : List Cut) (w : Walk) :
    Step A root p { p with memos := (walkGraph S now cuts p.memos w).2.1 }
  | fresh (p : Passes) (score : Nat) (cap : Option PassCap) (h : p.stored = none) :
    Step A root p { p with walk := some (freshWalk score root cap) }
  | resume (p : Passes) (r : DeferredGraph) (cap : Option PassCap) (h : p.stored = some r) (hs : r.isStruck = false) :
    Step A root p { p with walk := some (resumeWalk r cap) }
  | rewalk (p : Passes) (r : DeferredGraph) (score : Nat) (cap : Option PassCap) (h : p.stored = some r) (hs : r.isStruck = true) :
    Step A root p { p with walk := some { freshWalk score root cap with struck := some r } }
  -- the root of a resumed walk asked again: unchanged, not answered, or cut
  | reasked (p : Passes) (w : Walk) (calls bytes : Nat) (h : p.walk = some w) :
    Step A root p { p with walk := some (w.count calls bytes) }
  -- the root of a resumed walk asked again and served proven: the walk is fresh, its pass is not
  | restarted (p : Passes) (w : Walk) (score : Nat) (cap : Option PassCap) (h : p.walk = some w) :
    Step A root p
      { p with
        stored := dropRecord root .rootProven p.stored
        walk := some
          { freshWalk score root cap with
            resumed := w.record.cursorPassable
            callsThisPass := w.callsThisPass
            bytesThisPass := w.bytesThisPass
            nodesThisPass := w.nodesThisPass
            record := { (freshWalk score root cap).record with calls := w.callsThisPass } } }
  -- a deadline met between a walk taken and its save: the graph in flight is held from its root
  | inFlight (p : Passes) (score : Nat) (h : p.walk = none) : Step A root p { p with walk := some (freshWalk score root none) }
  | walked (p : Passes) (S : Source) (hS : S ∈ A) (now : Nat) (cuts : List Cut) (w : Walk) (h : p.walk = some w) :
    Step A root p
      { p with memos := (walkGraph S now cuts p.memos w).2.1, walk := some (walkGraph S now cuts p.memos w).2.2 }
  | idleFault (p : Passes) (w : Walk) (h : p.walk = some w) :
    Step A root p { p with walk := some { w with record := { w.record with idleFaults := w.record.idleFaults + 1 } } }
  | saved (p : Passes) (now heldRecords : Nat) (reason : String) (completed : Bool) (w w' : Walk) (retry : Bool) (h : p.walk = some w)
    (hk : saveWalk now heldRecords reason completed w = .save w' retry) : Step A root p { p with stored := some w'.record, walk := none }
  -- a save the storage refused, or a walk past a bound: it goes on with the root's deadline only
  | goesOn (p : Passes) (now heldRecords : Nat) (reason : String) (completed : Bool) (w w' : Walk) (resumed : Bool) (h : p.walk = some w)
    (hk : (∃ retry, saveWalk now heldRecords reason completed w = .save w' retry) ∨
      ∃ why, saveWalk now heldRecords reason completed w = .unkept why w') :
    Step A root p { p with walk := some { w' with cap := none, goneOn := true, resumed := resumed } }
  -- landed, refused, faulted, expired: nothing in hand
  | ended (p : Passes) : Step A root p { p with walk := none }
  | dropped (p : Passes) (why : DropReason) : Step A root p { p with stored := dropRecord root why p.stored }
  | deleted (p : Passes) : Step A root p { p with stored := none }
  | struck (p : Passes) (now score : Nat) (fault : FaultClass) (expiry : Option Nat) (prior : Option DeferredGraph) :
    Step A root p { p with stored := some (strike now score root fault expiry prior) }
  | recounted (p : Passes) (now : Nat) (r r' : DeferredGraph) (h : p.stored = some r) (hr : Recounted now r r') :
    Step A root p { p with stored := some r' }

def Passes.Reachable (A : Set Source) (root : Outpoint) (p : Passes) : Prop := Relation.ReflTransGen (Passes.Step A root) {} p

structure Passes.OnPath (S : Source) (A : Set Source) (root : Outpoint) (p : Passes) : Prop where
  memos : p.memos.Sound S
  stored : ∀ r, p.stored = some r → Gasp.OnPath A root r.core
  walk : ∀ w, p.walk = some w → w.OnPath A root

section
variable {S : Source} {A : Set Source} {root : Outpoint} {p p' : Passes} {now heldRecords : Nat}

theorem recounted_core {r r' : DeferredGraph} (h : Recounted now r r') : r'.core = r.core := by
  cases h with
  | idle prior held => unfold idleResume; split <;> rfl
  | heldBack => unfold heldBack; split <;> rfl
  | kept => unfold keepUnanchorable; split <;> rfl
  | reserved => rfl

theorem dropRecord_core {why : DropReason} {stored : Option DeferredGraph} {r : DeferredGraph} (h : dropRecord root why stored = some r) :
    r.core = freshCore root := by
  cases stored with
  | none => cases h
  | some r₀ =>
    simp only [dropRecord] at h
    split at h
    · cases h
    · split at h <;> cases h
      rfl

theorem saveWalk_core {reason : String} {completed : Bool} {w w' : Walk}
    (h : (∃ retry, saveWalk now heldRecords reason completed w = .save w' retry) ∨
      ∃ why, saveWalk now heldRecords reason completed w = .unkept why w') :
    w'.record.core = w.record.core ∧ w'.seen = w.seen := by
  unfold saveWalk at h
  split at h
  · rcases h with ⟨retry, h⟩ | ⟨why, h⟩ <;> cases h
  · simp only at h
    split at h
    · rcases h with ⟨retry, h⟩ | ⟨why, h⟩ <;> cases h
      exact ⟨rfl, rfl⟩
    · split at h
      · rcases h with ⟨retry, h⟩ | ⟨why, h⟩ <;> cases h
        exact ⟨rfl, rfl⟩
      · rcases h with ⟨retry, h⟩ | ⟨why, h⟩ <;> cases h
        exact ⟨rfl, rfl⟩

theorem onPath_saveWalk {reason : String} {completed : Bool} {w w' : Walk} (hw : w.OnPath A root)
    (h : (∃ retry, saveWalk now heldRecords reason completed w = .save w' retry) ∨
      ∃ why, saveWalk now heldRecords reason completed w = .unkept why w') : w'.OnPath A root := by
  obtain ⟨hcore, hseen⟩ := saveWalk_core h
  exact ⟨by rw [hcore]; exact hw.core, fun o => by rw [hseen, hcore]; exact hw.seen o⟩

theorem Passes.OnPath.step (hA : ∀ T ∈ A, S.Reorders T) (hS : S.Steady) (hP : S.Parses) (h : p.OnPath S A root)
    (hstep : p.Step A root p') : p'.OnPath S A root := by
  have hparses : ∀ T ∈ A, T.Parses := fun T hT => (hA T hT).parses hP
  have sound {T : Source} (hT : T ∈ A) (now : Nat) (cuts : List Cut) (w : Walk) : (walkGraph T now cuts p.memos w).2.1.Sound S :=
    (hA T hT).sound.mp (sound_walkGraph T now cuts ((hA T hT).sound.mpr h.memos))
  cases hstep with
  | sync => exact ⟨sound_empty S, h.stored, h.walk⟩
  | other T hT now cuts w => exact ⟨sound hT now cuts w, h.stored, h.walk⟩
  | fresh score cap hnone => exact ⟨h.memos, h.stored, fun w hw => by cases hw; exact onPath_fresh score cap⟩
  | resume r cap hr hs => exact ⟨h.memos, h.stored, fun w hw => by cases hw; exact onPath_resume hparses (h.stored r hr) cap⟩
  | rewalk r score cap hr hs =>
    refine ⟨h.memos, h.stored, fun w hw => ?_⟩
    cases hw
    exact ⟨(onPath_fresh score cap).core, (onPath_fresh (A := A) score cap).seen⟩
  | reasked w calls bytes hw => exact ⟨h.memos, h.stored, fun w' hw' => by cases hw'; exact (h.walk w hw).count calls bytes⟩
  | inFlight score hnone => exact ⟨h.memos, h.stored, fun w hw => by cases hw; exact onPath_fresh score none⟩
  | walked T hT now cuts w hw =>
    refine ⟨sound hT now cuts w, h.stored, fun w' hw' => ?_⟩
    cases hw'
    exact onPath_walkGraph hT ((hA T hT).steady hS) hparses now cuts ((hA T hT).sound.mpr h.memos) (h.walk w hw)
  | idleFault w hw => exact ⟨h.memos, h.stored, fun w' hw' => by cases hw'; exact ⟨(h.walk w hw).core, (h.walk w hw).seen⟩⟩
  | saved now heldRecords reason completed w w' retry hw hk =>
    refine ⟨h.memos, fun r hr => ?_, fun w' hw' => by cases hw'⟩
    cases hr
    exact (onPath_saveWalk (h.walk w hw) (.inl ⟨retry, hk⟩)).core
  | goesOn now heldRecords reason completed w w' resumed hw hk =>
    refine ⟨h.memos, h.stored, fun w'' hw'' => ?_⟩
    cases hw''
    have := onPath_saveWalk (h.walk w hw) hk
    exact ⟨this.core, this.seen⟩
  | ended => exact ⟨h.memos, h.stored, fun w hw => by cases hw⟩
  | restarted w score cap hw =>
    refine ⟨h.memos, fun r hr => dropRecord_core hr ▸ .refl, fun w' hw' => ?_⟩
    cases hw'
    exact ⟨.refl, fun _ => Iff.rfl⟩
  | dropped why => exact ⟨h.memos, fun r hr => dropRecord_core hr ▸ .refl, h.walk⟩
  | deleted => exact ⟨h.memos, fun r hr => (by cases hr), h.walk⟩
  | struck now score fault expiry prior => exact ⟨h.memos, fun r hr => by cases hr; exact .refl, h.walk⟩
  | recounted now r r' hr hcount =>
    refine ⟨h.memos, fun r'' hr'' => ?_, h.walk⟩
    cases hr''
    rw [recounted_core hcount]
    exact h.stored r hr

theorem Passes.Reachable.onPath (hA : ∀ T ∈ A, S.Reorders T) (hS : S.Steady) (hP : S.Parses) (h : p.Reachable A root) :
    p.OnPath S A root := by
  induction h with
  | refl => exact ⟨sound_empty S, fun r hr => (by cases hr), fun w hw => (by cases hw)⟩
  | tail _ hstep ih => exact ih.step hA hS hP hstep

def CutKeeps (S : Source) (now : Nat) (m : Memos) (w : Walk) : Prop :=
  ∀ item cause calls bytes learned rest, w.record.pending.getLast? = some item →
    (item.parentProven && decide (item.outpoint ∈ m.pruned)) = false →
    let cut := (walkGraph S now (.inside cause calls bytes learned :: rest) m w).2.2
    cut.record.core = w.record.core ∧
    ∀ heldRecords reason completed w' retry, saveWalk now heldRecords reason completed cut = .save w' retry → w'.record.core = w.record.core

theorem cutKeeps (S : Source) (now : Nat) (m : Memos) (w : Walk) : CutKeeps S now m w := by
  intro item cause calls bytes learned rest hitem hpruned
  have hcut : (walkGraph S now (.inside cause calls bytes learned :: rest) m w).2.2.record.core = w.record.core := by
    unfold walkGraph
    simp only [hitem, hpruned]
    cases w.overCap <;> rfl
  exact ⟨hcut, fun _ _ _ _ retry hk => (saveWalk_core (.inl ⟨retry, hk⟩)).1.trans hcut⟩

/-- A peer that keeps its word on what it does not hold serves a walk the nodes of an uncut walk, however it is cut and resumed:
the uncut walk that iterates the inputs of each node as the turns did. -/
theorem reachable_done_eq_uncut (hA : ∀ T ∈ A, S.Reorders T) (hS : S.Steady) (hP : S.Parses) (hp : p.Reachable A root) {w : Walk}
    (hw : p.walk = some w) {T : Source} (hT : T ∈ A) (now : Nat) :
    (∀ cuts, (walkGraph T now cuts p.memos w).1 = .done →
      let nodes := (walkGraph T now cuts p.memos w).2.2.record.nodes
      ∃ U, S.Mixes A U ∧
        (∀ now' score, S.Live now' root → ∃ turns, (uncut U now' score root turns).1 = .done) ∧
        (∀ now' score turns, (uncut U now' score root turns).1 = .done → (uncut U now' score root turns).2.2.record.nodes = nodes) ∧
        (nodes.map fun walked => walked.node.id).Nodup) ∧
    CutKeeps T now p.memos w := by
  have hpath := hp.onPath hA hS hP
  have hparses : ∀ T ∈ A, T.Parses := fun T hT => (hA T hT).parses hP
  refine ⟨fun cuts hdone => ?_, cutKeeps T now p.memos w⟩
  have hend := onPath_walkGraph hT ((hA T hT).steady hS) hparses now cuts ((hA T hT).sound.mpr hpath.memos) (hpath.walk w hw)
  have hpending := walkGraph_done hdone
  obtain ⟨U, hU, hmixed⟩ := hend.core.mixed hA hP hT
  have hsteady : U.Steady := hU.reorders.steady hS
  have hUparses : U.Parses := hU.reorders.parses hP
  refine ⟨U, hU, fun now' score hlive => ?_, fun now' score turns huncut => ?_, (hend.core.formed hparses).once⟩
  · have hlive : U.Live now' root := by
      rw [hU.reorders.eq]
      exact hlive
    obtain ⟨turns, m', w', hgo, -⟩ :=
      uncut_follows hsteady hUparses hlive hmixed hpending (freshWalk score root none) {} (sound_empty U) (onPath_fresh score none) rfl rfl
    exact ⟨turns, by rw [uncut, hgo]⟩
  · have hone : ∀ V ∈ ({U} : Set Source), V.Parses := by
      rintro V rfl
      exact hUparses
    have hwalk : (uncut U now' score root turns).2.2.OnPath {U} root :=
      onPath_walkGraph (Set.mem_singleton U) hsteady hone now' _ (sound_empty U) (onPath_fresh score none)
    exact congrArg Core.nodes (hwalk.core.ends hmixed (walkGraph_done huncut) hpending)

end

/-! ## A source that answers by graph id -/

/-- `txid` spends the first outputs of `parents`. -/
def nodeOf (txid : Txid) (parents : List Txid) (h : ∀ i ∈ parents.map fun p => ({ sourceTxid := some p, sourceOutputIndex := 0 } : TxInput), i.sourceTxid ≠ some txid)
    (proof : Option String) : Node :=
  { graphId := .at ⟨txid, 0⟩
    rawTx := .parsed { id := txid, inputs := parents.map fun p => { sourceTxid := some p, sourceOutputIndex := 0 }, outputs := [{}], spendsOthers := h }
    outputIndex := 0
    proof := proof }

def sourceOf (requestNode : GraphId → Outpoint → Bool → Except Error Node) : Source :=
  { requestNode := requestNode
    findNeededInputs := fun node => .ok ((node.rawTx.parse.elim [] Tx.spent).map fun o => (o, true))
    syncExpiry := fun _ _ => .ok none }

def rootR : Node := nodeOf "R" ["X", "B"] (by decide) (some "proof")
def proofB : Node := nodeOf "B" ["X"] (by decide) (some "proof")
def leafX : Node := nodeOf "X" [] (by decide) (some "proof")

/-- The peer holds `X` under the graph id `R` came with, and under no other; the adapter needs a first input only. -/
def byGraphId : Source :=
  { sourceOf fun g o _ =>
      if o.txid = "R" then .ok rootR
      else if o.txid = "B" then .ok proofB
      else if g = .at ⟨"R", 0⟩ then .ok leafX else .error (.nodeNotFound "X") with
    findNeededInputs := fun node => .ok (((node.rawTx.parse.elim [] Tx.spent).take 1).map fun o => (o, true)) }

/-- The peer holds no `X`. -/
def withoutX : Source :=
  sourceOf fun _ o _ =>
    if o.txid = "R" then .ok rootR
    else if o.txid = "B" then .ok proofB
    else .error (.nodeNotFound "X")

/-- Every map iterated the other way. -/
def Source.reversed (S : Source) : Source :=
  { S with findNeededInputs := fun node => (S.findNeededInputs node).map List.reverse }

theorem reorders_reversed (S : Source) : S.Reorders S.reversed := by
  refine ⟨rfl, rfl, rfl, fun node e => ?_, fun node l l' hl hl' => ?_⟩
  · show (S.findNeededInputs node).map List.reverse = .error e ↔ _
    cases S.findNeededInputs node <;> simp [Except.map]
  · have hl' : (S.findNeededInputs node).map List.reverse = .ok l' := hl'
    rw [hl] at hl'
    cases hl'
    exact l.reverse_perm

theorem reorders_self (S : Source) : S.Reorders S := by
  refine ⟨rfl, rfl, rfl, fun _ _ => Iff.rfl, fun node l l' hl hl' => ?_⟩
  cases hl.symm.trans hl'
  exact .refl l

/-- The pass of a root under `cap`, cut there and saved; then a resume in a new sync. -/
def cutAndResumed (S : Source) (root : Outpoint) (cap : PassCap) (turns : Nat) : Passes :=
  let first := walkGraph S 0 (List.replicate turns .go) {} (freshWalk 1 root (some cap))
  { stored := some (first.2.2.saved 0 "calls" false)
    walk := some (resumeWalk (first.2.2.saved 0 "calls" false) none) }

theorem reachable_cutAndResumed {A : Set Source} {S : Source} (hS : S ∈ A) {root : Outpoint} {cap : PassCap} {turns : Nat}
    (hnodes : (walkGraph S 0 (List.replicate turns .go) {} (freshWalk 1 root (some cap))).2.2.record.nodes.isEmpty = false)
    (hgo : (walkGraph S 0 (List.replicate turns .go) {} (freshWalk 1 root (some cap))).2.2.goneOn = false)
    (hstruck : (walkGraph S 0 (List.replicate turns .go) {} (freshWalk 1 root (some cap))).2.2.record.faults = 0) :
    (cutAndResumed S root cap turns).Reachable A root := by
  have hsave : saveWalk 0 0 "calls" false (walkGraph S 0 (List.replicate turns .go) {} (freshWalk 1 root (some cap))).2.2 =
      .save { (walkGraph S 0 (List.replicate turns .go) {} (freshWalk 1 root (some cap))).2.2 with
        counted := true
        record := (walkGraph S 0 (List.replicate turns .go) {} (freshWalk 1 root (some cap))).2.2.saved 0 "calls" false } false := by
    simp [saveWalk, hgo, hnodes, Walk.saved, deferredGraphsPerPeerTopic]
  refine ((((Relation.ReflTransGen.refl.tail (.fresh _ 1 (some cap) rfl)).tail (.walked _ S hS 0 (List.replicate turns .go) _ rfl)).tail
    (.saved _ 0 0 "calls" false _ _ false rfl hsave)).tail (.sync _)).tail (.resume _ _ none rfl ?_)
  simp [DeferredGraph.isStruck, Walk.saved, hstruck]

/-- A map of one entry has one order. -/
theorem reorders_byGraphId {T : Source} (h : byGraphId.Reorders T) : T = byGraphId := by
  have hneeded : T.findNeededInputs = byGraphId.findNeededInputs := by
    funext node
    cases hn : T.findNeededInputs node with
    | error e => exact ((h.error node e).mp hn).symm
    | ok l =>
      have hperm := h.needed node _ l rfl hn
      show Except.ok l = .ok _
      cases hspent : node.rawTx.parse.elim [] Tx.spent with
      | nil => rw [hspent] at hperm; rw [List.perm_nil.mp hperm]; rfl
      | cons o rest => rw [hspent] at hperm; rw [List.perm_singleton.mp hperm]; rfl
  rw [h.eq, hneeded]

/-- A peer whose word on `X` depends on the graph id: the walk of `R` cut before `X`, and resumed in a sync that has asked for `X` in
the graph of `B`, ends without the node that every uncut walk of `R` holds. -/
theorem cut_walk_ne_uncut :
    let memos := (walkGraph byGraphId 0 [.go, .go] {} (freshWalk 1 ⟨"B", 0⟩ none)).2.1
    let p := { cutAndResumed byGraphId ⟨"R", 0⟩ ⟨1, 100, 100⟩ 2 with memos := memos }
    p.Reachable {byGraphId} ⟨"R", 0⟩ ∧
    ∃ w, p.walk = some w ∧ (walkGraph byGraphId 0 [.go, .go] memos w).1 = .done ∧
      ∀ T, byGraphId.Reorders T → (uncut T 0 1 ⟨"R", 0⟩ 3).1 = .done ∧
        (uncut T 0 1 ⟨"R", 0⟩ 3).2.2.record.nodes ≠ (walkGraph byGraphId 0 [.go, .go] memos w).2.2.record.nodes := by
  have hin : byGraphId ∈ ({byGraphId} : Set Source) := Set.mem_singleton _
  have hcut : (cutAndResumed byGraphId ⟨"R", 0⟩ ⟨1, 100, 100⟩ 2).Reachable {byGraphId} ⟨"R", 0⟩ :=
    reachable_cutAndResumed hin (by decide) (by decide) (by decide)
  refine ⟨hcut.tail (.other _ byGraphId hin 0 [.go, .go] (freshWalk 1 ⟨"B", 0⟩ none)), _, rfl, by decide, fun T hT => ?_⟩
  rw [reorders_byGraphId hT]
  decide

theorem steady_withoutX : withoutX.Steady := by
  rintro o ⟨g, m, e, he, hn⟩ g' m'
  exact ⟨e, he, hn⟩

theorem parses_withoutX : withoutX.Parses := by
  refine ⟨fun g o m n h => ?_, fun f txid a h => (by cases h)⟩
  simp only [withoutX, sourceOf] at h
  split at h
  · cases h; rfl
  · split at h
    · cases h; rfl
    · cases h

/-- Cut before it asks for `B`, and resumed with its maps iterated the other way, the walk of `R` ends with the nodes of an uncut walk. -/
theorem reachable_done_eq_uncut_withoutX :
    let p := cutAndResumed withoutX ⟨"R", 0⟩ ⟨2, 100, 100⟩ 3
    ∃ w, p.walk = some w ∧ (walkGraph withoutX.reversed 0 (List.replicate 3 .go) p.memos w).1 = .done ∧
      ∃ U, withoutX.Mixes {withoutX, withoutX.reversed} U ∧ (∃ turns, (uncut U 0 1 ⟨"R", 0⟩ turns).1 = .done) ∧
        ∀ turns, (uncut U 0 1 ⟨"R", 0⟩ turns).1 = .done →
          (uncut U 0 1 ⟨"R", 0⟩ turns).2.2.record.nodes =
            (walkGraph withoutX.reversed 0 (List.replicate 3 .go) p.memos w).2.2.record.nodes := by
  have horders : ∀ T ∈ ({withoutX, withoutX.reversed} : Set Source), withoutX.Reorders T := by
    rintro T (rfl | rfl)
    · exact reorders_self _
    · exact reorders_reversed _
  have hlive : withoutX.Live 0 ⟨"R", 0⟩ := by
    intro node _
    simp [rootExpired, withoutX, sourceOf, Except.map]
  have hreach : (cutAndResumed withoutX ⟨"R", 0⟩ ⟨2, 100, 100⟩ 3).Reachable {withoutX, withoutX.reversed} ⟨"R", 0⟩ :=
    reachable_cutAndResumed (Set.mem_insert _ _) (by decide) (by decide) (by decide)
  refine ⟨_, rfl, by decide, ?_⟩
  obtain ⟨U, hU, hdone, hnodes, -⟩ := (reachable_done_eq_uncut horders steady_withoutX parses_withoutX hreach rfl
    (Set.mem_insert_of_mem _ rfl) 0).1 (List.replicate 3 .go) (by decide)
  exact ⟨U, hU, hdone 0 1 hlive, hnodes 0 1⟩

end OverlayEngine.Gasp
