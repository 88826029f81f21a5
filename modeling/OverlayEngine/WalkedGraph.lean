import OverlayEngine.Deferral

/-!
# The graph of a walk

What a peer serves is not trusted, and a record outlives the pass that wrote it.
Whatever is answered from one step to the next, the walked nodes still hang
together: the first hangs from nothing, every other from one before it, and every
input that waits is one that the adapter named for a walked node.
-/

namespace OverlayEngine.Gasp

/-- `item` is an input that the adapter has named for `parent`, in an answer of one of the sources of `A`. -/
structure NamedBy (A : Set Source) (parent : WalkedNode) (item : PendingInput) : Prop where
  spentBy : item.spentBy = some parent.node.id
  graphId : item.graphId = parent.node.graphId
  proven : item.parentProven = parent.node.proof.isSome
  needed : ∃ S ∈ A, ∃ needed, S.findNeededInputs parent.node = .ok needed ∧ (item.outpoint, item.metadata) ∈ needed

/-- The nodes in the order they were walked. -/
inductive Hung : List WalkedNode → Prop
  | root {walked : WalkedNode} (h : walked.spentBy = none) : Hung [walked]
  | next {nodes : List WalkedNode} {walked parent : WalkedNode} (hung : Hung nodes) (hparent : parent ∈ nodes)
    (h : walked.spentBy = some parent.node.id) : Hung (nodes ++ [walked])

/-- Nothing is walked yet, or the nodes hang together and what waits hangs from them. -/
def Core.Hangs (A : Set Source) (root : Outpoint) (c : Core) : Prop :=
  c = freshCore root ∨ Hung c.nodes ∧ ∀ item ∈ c.pending, ∃ parent ∈ c.nodes, NamedBy A parent item

structure Walk.Hangs (A : Set Source) (root : Outpoint) (w : Walk) : Prop where
  core : w.record.core.Hangs A root
  seen : ∀ o ∈ w.seen, o ∈ w.record.core.seen

section
variable {S : Source} {A : Set Source} {root : Outpoint} {m : Memos} {seen : List Outpoint} {item : PendingInput} {now : Nat} {out : StepOut}

/-! ## A step -/

/-- What a step gives is a fetched node absorbed; only an input has a node that may be missing. -/
theorem step_absorbs (h : (step S now m seen item).out = .ok out) :
    out = .expired ∨ item.spentBy.isSome ∧ out = .pruned ∨ ∃ node, absorb S seen item node = .ok out := by
  unfold step at h
  split at h
  · obtain ⟨node, -, hout⟩ := bind_eq_ok.mp h
    cases node with
    | none => exact .inl (Except.ok.inj hout).symm
    | some node => exact .inr (.inr ⟨node, hout⟩)
  · rename_i hspent
    have hsome : item.spentBy.isSome := by
      cases hs : item.spentBy with
      | none => exact (hspent (by rw [hs]; rfl)).elim
      | some o => rfl
    split at h
    · obtain ⟨node, -, hout⟩ := bind_eq_ok.mp h
      exact .inr (.inr ⟨node, hout⟩)
    · split at h
      · obtain ⟨node, -, hout⟩ := bind_eq_ok.mp h
        cases node with
        | none => exact .inr (.inl ⟨hsome, (Except.ok.inj hout).symm⟩)
        | some node => exact .inr (.inr ⟨node, hout⟩)
      · obtain ⟨node, -, hout⟩ := bind_eq_ok.mp h
        exact .inr (.inr ⟨node, hout⟩)

theorem absorb_cases (hS : S ∈ A) {node : Node} (h : absorb S seen item node = .ok out) :
    node.id ∈ seen ∧ out = .seen ∨ ∃ children, out = .appended node.id ⟨node, item.spentBy⟩ children ∧
      ∀ child ∈ children, NamedBy A ⟨node, item.spentBy⟩ child := by
  unfold absorb at h
  split at h
  · rename_i hin
    exact .inl ⟨hin, (Except.ok.inj h).symm⟩
  · cases hn : S.findNeededInputs node with
    | error e =>
      rw [hn] at h
      cases h
    | ok needed =>
      rw [hn] at h
      refine .inr ⟨_, (Except.ok.inj h).symm, fun child hc => ?_⟩
      obtain ⟨input, hin, rfl⟩ := List.mem_map.mp hc
      exact ⟨rfl, rfl, rfl, S, hS, needed, hn, hin⟩

theorem Core.Hangs.popped {c : Core} (h : c.Hangs A root) (hitem : c.pending.getLast? = some item) (hroot : item ≠ rootInput root) :
    Core.Hangs A root ⟨c.nodes, c.pending.dropLast⟩ := by
  rcases h with rfl | ⟨hung, hpending⟩
  · cases hitem
    exact (hroot rfl).elim
  · exact .inr ⟨hung, fun item hi => hpending item ((List.dropLast_sublist _).subset hi)⟩

theorem Core.Hangs.commit (hS : S ∈ A) {c : Core} (h : c.Hangs A root) (hitem : c.pending.getLast? = some item) (hseen : ∀ o ∈ seen, o ∈ c.seen)
    (hstep : (step S now m seen item).out = .ok out) (hout : out ≠ .expired) :
    (c.commit out).Hangs A root ∧ ∀ id walked children, out = .appended id walked children → id = walked.node.id := by
  rcases step_absorbs hstep with rfl | ⟨hspent, rfl⟩ | ⟨node, hnode⟩
  · exact (hout rfl).elim
  · exact ⟨h.popped hitem fun e => (by rw [e] at hspent; cases hspent), fun _ _ _ e => by cases e⟩
  rcases absorb_cases hS hnode with ⟨hin, rfl⟩ | ⟨children, rfl, hchildren⟩
  · refine ⟨?_, fun _ _ _ e => by cases e⟩
    rcases h with rfl | ⟨hung, hpending⟩
    · cases hseen _ hin
    · exact .inr ⟨hung, fun item hi => hpending item ((List.dropLast_sublist _).subset hi)⟩
  · refine ⟨.inr ?_, fun _ _ _ e => by cases e; rfl⟩
    let walked : WalkedNode := ⟨node, item.spentBy⟩
    have hnew (nodes : List WalkedNode) (i : PendingInput) (hi : i ∈ children.reverse) : ∃ parent ∈ nodes ++ [walked], NamedBy A parent i :=
      ⟨walked, List.mem_append_right _ (List.mem_singleton.mpr rfl), hchildren i (List.mem_reverse.mp hi)⟩
    rcases h with rfl | ⟨hung, hpending⟩
    · cases hitem
      exact ⟨.root rfl, fun i hi => hnew [] i hi⟩
    · obtain ⟨parent, hparent, hnamed⟩ := hpending item (List.mem_of_mem_getLast? hitem)
      refine ⟨.next hung hparent hnamed.spentBy, fun i hi => ?_⟩
      rcases List.mem_append.mp hi with hi | hi
      · obtain ⟨p, hp, hn⟩ := hpending i ((List.dropLast_sublist _).subset hi)
        exact ⟨p, List.mem_append_left _ hp, hn⟩
      · exact hnew c.nodes i hi

/-! ## A walk -/

variable {w : Walk}

theorem Walk.Hangs.commit (hS : S ∈ A) (h : w.Hangs A root) (hitem : w.record.pending.getLast? = some item)
    (hstep : (step S now m w.seen item).out = .ok out) (hout : out ≠ .expired) (calls bytes : Nat) :
    ((w.count calls bytes).commit out).Hangs A root := by
  obtain ⟨hcore, hid⟩ := h.core.commit hS hitem h.seen hstep hout
  refine ⟨by rw [core_commit]; exact hcore, fun o ho => ?_⟩
  rw [core_commit]
  cases out with
  | expired => exact h.seen o ho
  | pruned => exact h.seen o ho
  | seen => exact h.seen o ho
  | appended id walked children =>
    simp only [Core.commit, Core.seen, List.map_append, List.mem_append]
    rcases List.mem_cons.mp ho with rfl | ho
    · exact .inr (by simp [hid _ _ _ rfl])
    · exact .inl (h.seen o ho)

theorem hangs_walkGraph (hS : S ∈ A) (now : Nat) (cuts : List Cut) (m : Memos) (h : w.Hangs A root) : (walkGraph S now cuts m w).2.2.Hangs A root := by
  induction cuts generalizing m w with
  | nil => exact h
  | cons cut rest ih =>
    unfold walkGraph
    split
    · exact h
    · rename_i item hitem
      split
      · rename_i hpruned
        -- the root is not an input of a proven node
        exact ih _ ⟨h.core.popped hitem fun e => (by rw [e] at hpruned; cases hpruned), h.seen⟩
      · split
        · exact h
        · dsimp only
          split
          · exact h
          · exact ⟨h.core, h.seen⟩
          · split
            · exact ⟨h.core, h.seen⟩
            · exact ⟨h.core, h.seen⟩
            · exact ⟨h.core, h.seen⟩
            · rename_i out hexpired hout
              exact ih _ (h.commit hS hitem hout (fun e => hexpired e) _ _)

/-! ## The passes -/

structure Passes.Hangs (A : Set Source) (root : Outpoint) (p : Passes) : Prop where
  stored : ∀ r, p.stored = some r → r.core.Hangs A root
  walk : ∀ w, p.walk = some w → w.Hangs A root

theorem hangs_fresh {w : Walk} (hcore : w.record.core = freshCore root) (hseen : w.seen = []) : w.Hangs A root :=
  ⟨.inl hcore, fun o ho => by rw [hseen] at ho; cases ho⟩

theorem hangs_resume {r : DeferredGraph} (h : r.core.Hangs A root) (cap : Option PassCap) : (resumeWalk r cap).Hangs A root := by
  refine ⟨h, fun o ho => ?_⟩
  obtain ⟨walked, hw, hid⟩ := List.mem_filterMap.mp ho
  have hparse : walked.node.rawTx.parse.isSome := by
    unfold Node.nodeId at hid
    cases hp : walked.node.rawTx.parse with
    | none => rw [hp] at hid; cases hid
    | some tx => rfl
  rw [nodeId_eq hparse] at hid
  exact List.mem_map.mpr ⟨walked, hw, Option.some.inj hid⟩

theorem Passes.Hangs.step {p p' : Passes} (h : p.Hangs A root) (hstep : p.Step A root p') : p'.Hangs A root := by
  cases hstep with
  | sync => exact ⟨h.stored, h.walk⟩
  | other => exact ⟨h.stored, h.walk⟩
  | fresh score cap hnone => exact ⟨h.stored, fun w hw => by cases hw; exact hangs_fresh rfl rfl⟩
  | resume r cap hr hs => exact ⟨h.stored, fun w hw => by cases hw; exact hangs_resume (h.stored r hr) cap⟩
  | rewalk r score cap hr hs => exact ⟨h.stored, fun w hw => by cases hw; exact hangs_fresh rfl rfl⟩
  | reasked w calls bytes hw =>
    exact ⟨h.stored, fun w' hw' => by cases hw'; exact ⟨(h.walk w hw).core, (h.walk w hw).seen⟩⟩
  | inFlight score hnone => exact ⟨h.stored, fun w hw => by cases hw; exact hangs_fresh rfl rfl⟩
  | walked S hS now cuts w hw => exact ⟨h.stored, fun w' hw' => by cases hw'; exact hangs_walkGraph hS now cuts _ (h.walk w hw)⟩
  | idleFault w hw => exact ⟨h.stored, fun w' hw' => by cases hw'; exact ⟨(h.walk w hw).core, (h.walk w hw).seen⟩⟩
  | saved now heldRecords reason completed w w' retry hw hk =>
    refine ⟨fun r hr => ?_, fun w' hw' => by cases hw'⟩
    cases hr
    rw [(saveWalk_core (.inl ⟨retry, hk⟩)).1]
    exact (h.walk w hw).core
  | goesOn now heldRecords reason completed w w' resumed hw hk =>
    refine ⟨h.stored, fun w'' hw'' => ?_⟩
    cases hw''
    obtain ⟨hcore, hseen⟩ := saveWalk_core hk
    have hwalk := h.walk w hw
    exact ⟨show w'.record.core.Hangs A root from hcore ▸ hwalk.core, fun o ho => hcore ▸ hwalk.seen o (hseen ▸ ho)⟩
  | ended => exact ⟨h.stored, fun w hw => by cases hw⟩
  | restarted w score cap hw =>
    exact ⟨fun r hr => .inl (dropRecord_core hr), fun w' hw' => by cases hw'; exact hangs_fresh rfl rfl⟩
  | dropped why => exact ⟨fun r hr => .inl (dropRecord_core hr), h.walk⟩
  | deleted => exact ⟨fun r hr => (by cases hr), h.walk⟩
  | struck now score fault expiry prior => exact ⟨fun r hr => by cases hr; exact .inl rfl, h.walk⟩
  | recounted now r r' hr hcount =>
    refine ⟨fun r'' hr'' => ?_, h.walk⟩
    cases hr''
    rw [recounted_core hcount]
    exact h.stored r hr

/-- Whatever the peers serve, and whatever else they serve in the next step, every record and every walk of a root is one graph. -/
theorem reachable_hangs {p : Passes} (hp : p.Reachable A root) : p.Hangs A root := by
  induction hp with
  | refl => exact ⟨fun r hr => (by cases hr), fun w hw => (by cases hw)⟩
  | tail _ hstep ih => exact ih.step hstep

/-- The peer answers anew after the cut; the walk that goes on there is still one graph. -/
theorem reachable_hangs_byGraphId :
    ∃ w, (cutAndResumed byGraphId ⟨"R", 0⟩ ⟨1, 100, 100⟩ 2).walk = some w ∧
      (walkGraph withoutX 0 (List.replicate 3 .go) {} w).2.2.Hangs {byGraphId, withoutX} ⟨"R", 0⟩ := by
  have hcut : (cutAndResumed byGraphId ⟨"R", 0⟩ ⟨1, 100, 100⟩ 2).Reachable {byGraphId, withoutX} ⟨"R", 0⟩ :=
    reachable_cutAndResumed (Set.mem_insert _ _) (by decide) (by decide) (by decide)
  have hin : withoutX ∈ ({byGraphId, withoutX} : Set Source) := Set.mem_insert_of_mem _ rfl
  exact ⟨_, rfl, (reachable_hangs (hcut.tail (.walked _ withoutX hin 0 (List.replicate 3 .go) _ rfl))).walk _ rfl⟩

end

end OverlayEngine.Gasp
