import OverlayEngine.Calm
import OverlayEngine.HeadChain
import OverlayEngine.History

/-!
# History links

A stored output names the coins it consumed and lists what consumed it. The
rows of a topic are linked when every stored coin lists the stored outputs
that name it. `delete_utxo_deep` and a faultless Phase 3 are a release and a
turnover of that graph of uses, so `Release` says exactly when they keep it
linked and orphan no history.
-/

namespace OverlayEngine

open Faulty

def Store.graph (s : Store) (topic : Topic) : Release.Graph Outpoint := fun o =>
  (s.find (o, topic)).map fun row => ⟨row.outputsConsumed, row.consumedBy⟩

/-- Every stored coin of `topic` lists the stored outputs that name it as consumed. -/
def Store.Linked (s : Store) (topic : Topic) : Prop :=
  ∀ o p row coin, s.find (o, topic) = some row → p ∈ row.outputsConsumed → s.find (p, topic) = some coin →
    o ∈ coin.consumedBy

/-- No row of `topic` is deleted while a stored row still names it as consumed. -/
def Store.NoOrphan (s s' : Store) (topic : Topic) : Prop :=
  ∀ o p row, s'.find (o, topic) = some row → p ∈ row.outputsConsumed → s.held (p, topic) = true → s'.held (p, topic) = true

section
variable {s : Store} {topic : Topic}

theorem isSome_graph (s : Store) (topic : Topic) (o : Outpoint) : (s.graph topic o).isSome = s.held (o, topic) := by
  simp [Store.graph, Store.held]

theorem linked_iff (s : Store) (topic : Topic) : s.Linked topic ↔ Release.Linked (s.graph topic) := by
  constructor
  · intro h o p n m ho hp hm
    obtain ⟨row, hrow, rfl⟩ := Option.map_eq_some_iff.mp ho
    obtain ⟨coin, hcoin, rfl⟩ := Option.map_eq_some_iff.mp hm
    exact h o p row coin hrow hp hcoin
  · intro h o p row coin ho hp hcoin
    exact h o p _ _ (by unfold Store.graph; rw [ho]; rfl) hp (by unfold Store.graph; rw [hcoin]; rfl)

theorem noOrphan_iff (s s' : Store) (topic : Topic) : s.NoOrphan s' topic ↔ Release.NoOrphan (s.graph topic) (s'.graph topic) := by
  constructor
  · intro h o p n ho hp hs
    obtain ⟨row, hrow, rfl⟩ := Option.map_eq_some_iff.mp ho
    rw [isSome_graph] at hs ⊢
    exact h o p row hrow hp hs
  · intro h o p row ho hp hs
    have := h o p _ (by unfold Store.graph; rw [ho]; rfl) hp (by rw [isSome_graph]; exact hs)
    rwa [isSome_graph] at this

theorem graph_congr {s' : Store} (h : ∀ o, s'.find (o, topic) = s.find (o, topic)) : s'.graph topic = s.graph topic := by
  funext o
  unfold Store.graph
  rw [h o]

/-! ## The operations on the graph -/

theorem graph_insertApplied (txid : Txid) (t : Topic) : (s.insertApplied txid t).graph topic = s.graph topic :=
  graph_congr fun _ => Store.find_insertApplied ..

theorem graph_markUtxoAsSpent (k : Key) : (s.markUtxoAsSpent k).graph topic = s.graph topic := by
  funext o
  unfold Store.graph
  rw [Store.find_markUtxoAsSpent]
  split
  · rename_i e
    rw [e, Option.map_map]
    rfl
  · rfl

theorem graph_deleteOutput (o : Outpoint) :
    (s.deleteOutput (o, topic)).graph topic = Function.update (s.graph topic) o none := by
  funext p
  unfold Store.graph
  rw [Store.find_deleteOutput]
  by_cases e : p = o
  · simp [e]
  · simp [e]

variable {row : Output}

theorem graph_updateConsumedBy {o : Outpoint} (h : s.find (o, topic) = some row) (l : List Outpoint) :
    (s.updateConsumedBy (o, topic) l).graph topic =
      Function.update (s.graph topic) o (some ⟨row.outputsConsumed, l⟩) := by
  funext p
  unfold Store.graph
  rw [Store.find_updateConsumedBy]
  by_cases e : p = o
  · simp [e, h]
  · simp [e]

theorem graph_insertOutput (ht : row.topic = topic) (hc : row.consumedBy = []) :
    (s.insertOutput row).graph topic = Release.entered (s.graph topic) [row.outpoint] row.outputsConsumed := by
  funext p
  unfold Store.graph Release.entered
  rw [Store.find_insertOutput, ht]
  by_cases e : p = row.outpoint
  · subst e
    cases hf : s.find (row.outpoint, topic) with
    | none => simp [Store.held, hf, hc]
    | some row' => simp [Store.held, hf]
  · simp [e]

theorem graph_markAll : ∀ (coins : List Output) (s : Store), (s.markAll topic coins).graph topic = s.graph topic
  | [], _ => rfl
  | coin :: rest, s => (graph_markAll rest (s.markUtxoAsSpent (coin.outpoint, topic))).trans (graph_markUtxoAsSpent _)

theorem graph_insertAll (sub : Subject) (consumed : List Outpoint) (now : Nat) : ∀ (l : List Nat) (s : Store),
    (s.insertAll sub topic consumed now l).graph topic =
      Release.entered (s.graph topic) (l.map fun i => ⟨sub.tx.id, i⟩) consumed
  | [], s => by
    funext o
    simp [Store.insertAll, Release.entered]
  | i :: rest, s => by
    refine (graph_insertAll sub consumed now rest (s.insertOutput (admittedOutput sub topic consumed i now))).trans ?_
    have inserted : (s.insertOutput (admittedOutput sub topic consumed i now)).graph topic =
      Release.entered (s.graph topic) [⟨sub.tx.id, i⟩] consumed := graph_insertOutput rfl rfl
    rw [inserted]
    exact Release.entered_entered ..

theorem graph_linkConsumed (news : List Outpoint) : ∀ (l : List Outpoint) (s : Store),
    (s.linkConsumed topic news l).graph topic = Release.link (s.graph topic) news l
  | [], s => by
    funext o
    cases h : s.graph topic o with
    | none => simp [Store.linkConsumed, Release.link, h]
    | some n => simp [Store.linkConsumed, Release.link, h]
  | c :: rest, s => by
    rw [← Release.link_cons]
    unfold Store.linkConsumed
    cases hf : s.find (c, topic) with
    | none =>
      simp only
      rw [graph_linkConsumed news rest s]
      congr 1
      funext o
      by_cases e : o = c
      · simp [Release.link, Store.graph, e, hf]
      · cases h : s.graph topic o <;> simp [Release.link, h, e]
    | some o =>
      simp only
      rw [graph_linkConsumed news rest, graph_updateConsumedBy hf]
      congr 1
      funext p
      by_cases e : p = c
      · simp [Release.link, Store.graph, e, hf]
      · cases h : s.graph topic p <;> simp [Release.link, h, e]

theorem graph_deleteConsumed {f : Output → Store → Store} {r : Outpoint → Release.Node Outpoint → Release.Graph Outpoint → Release.Graph Outpoint}
    (hrec : ∀ o s, o.topic = topic → (f o s).graph topic = r o.outpoint ⟨o.outputsConsumed, o.consumedBy⟩ (s.graph topic))
    {o : Output} (ho : o.topic = topic) (l : List Outpoint) (s : Store) :
    (s.deleteConsumed f o l).graph topic = Release.releaseInputs r o.outpoint l (s.graph topic) := by
  subst ho
  induction l generalizing s with
  | nil => rfl
  | cons c rest ih =>
    unfold Store.deleteConsumed Release.releaseInputs
    cases hf : s.find (c, o.topic) with
    | none =>
      have hg : s.graph o.topic c = none := by simp [Store.graph, hf]
      rw [hg]
      exact ih s
    | some stale =>
      have hg : s.graph o.topic c = some ⟨stale.outputsConsumed, stale.consumedBy⟩ := by simp [Store.graph, hf]
      obtain ⟨rfl, ht⟩ : stale.outpoint = c ∧ stale.topic = o.topic := Store.find_keyed hf
      rw [hg]
      simp only
      rw [ih]
      congr 1
      refine (hrec { stale with consumedBy := stale.consumedBy.filter (· ≠ o.outpoint) } _ ht).trans ?_
      rw [graph_updateConsumedBy hf]
      rfl

theorem graph_deleteDeep : ∀ (fuel : Nat) (o : Output) (s : Store), o.topic = topic →
    (s.deleteDeep fuel o).graph topic = Release.release fuel o.outpoint ⟨o.outputsConsumed, o.consumedBy⟩ (s.graph topic)
  | 0, _, _, _ => rfl
  | fuel + 1, o, s, ho => by
    unfold Store.deleteDeep Release.release
    rw [graph_deleteConsumed (fun o s h => graph_deleteDeep fuel o s h) ho]
    subst ho
    cases hc : o.consumedBy with
    | nil => simp [graph_deleteOutput]
    | cons u l => simp

/-! ## Ranks -/

/-- The stored rows below `o`: a measure that no store outgrows. -/
def Store.depthOf (s : Store) (rank : Txid → Nat) (o : Outpoint) : Nat :=
  (s.outputs.entries.filter fun e => rank e.1.1.txid < rank o.txid).length

theorem depthOf_lt_depth (s : Store) (rank : Txid → Nat) (o : Outpoint) : s.depthOf rank o < s.depth :=
  Nat.lt_succ_of_le (List.length_filter_le _ _)

variable {rank : Txid → Nat}

theorem descends_rank (hs : s.Ranked rank) : Release.Descends (fun o => rank o.txid) (s.graph topic) := by
  rintro o c ⟨⟨n, ho, hc⟩, -⟩
  obtain ⟨row, hrow, rfl⟩ := Option.map_eq_some_iff.mp ho
  have := hs _ row hrow c hc
  rwa [show row.txid = o.txid from congrArg Outpoint.txid (Store.find_keyed hrow).1] at this

theorem descends_depthOf (hs : Release.Descends (fun o => rank o.txid) (s.graph topic)) :
    Release.Descends (s.depthOf rank) (s.graph topic) := by
  intro o c he
  have hlt : rank c.txid < rank o.txid := hs o c he
  obtain ⟨n, hn⟩ := Option.isSome_iff_exists.mp he.2
  obtain ⟨row, hrow, -⟩ := Option.map_eq_some_iff.mp hn
  have hmem : (⟨(c, topic), row⟩ : Sigma fun _ : Key => Output) ∈ s.outputs.entries := AList.mem_lookup_iff.mp hrow
  have hsub : s.outputs.entries.filter (fun e => decide (rank e.1.1.txid < rank c.txid)) =
      (s.outputs.entries.filter fun e => decide (rank e.1.1.txid < rank o.txid)).filter
        fun e => decide (rank e.1.1.txid < rank c.txid) := by
    rw [List.filter_filter]
    refine List.filter_congr fun e _ => ?_
    by_cases h : rank e.1.1.txid < rank c.txid
    · simp [h, Nat.lt_trans h hlt]
    · simp [h]
  unfold Store.depthOf
  rw [hsub]
  refine List.length_filter_lt_length_iff_exists.mpr ⟨⟨(c, topic), row⟩, ?_, ?_⟩
  · exact List.mem_filter.mpr ⟨hmem, by simpa using hlt⟩
  · simp

theorem within_released (g : Release.Graph Outpoint) (roots : List Outpoint) : Release.Within (Release.released g roots) g := by
  intro k n' h
  obtain ⟨n, hn, hi, -⟩ := Release.released_some h
  exact ⟨n, hn, hi.symm⟩

theorem graph_deleteStale {g : Release.Graph Outpoint} (hg : Release.Descends (fun o => rank o.txid) g) :
    ∀ (l : List Output) (s : Store) (roots : List Outpoint), s.graph topic = Release.released g roots →
      (s.deleteStale topic l).graph topic = Release.released g ((l.map Output.outpoint).reverse ++ roots)
  | [], _, _, h => h
  | stale :: rest, s, roots, h => by
    have h' : (s.insertApplied stale.txid topic).graph topic = Release.released g roots := (graph_insertApplied _ _).trans h
    unfold Store.deleteStale Store.deleteFound
    rw [List.map_cons, List.reverse_cons, List.append_assoc]
    refine graph_deleteStale hg rest _ (stale.outpoint :: roots) ?_
    cases hf : (s.insertApplied stale.txid topic).find (stale.outpoint, topic) with
    | none =>
      refine h'.trans (Release.released_skip ?_).symm
      rw [← h']
      simp [Store.graph, hf]
    | some row =>
      obtain ⟨hout, ht⟩ := Store.find_keyed hf
      have hnode : Release.released g roots stale.outpoint = some ⟨row.outputsConsumed, row.consumedBy⟩ := by
        rw [← h']
        simp [Store.graph, hf]
      simp only
      rw [graph_deleteDeep _ row _ ht, h', show row.outpoint = stale.outpoint from hout]
      refine Release.release_released hg hnode ?_ (depthOf_lt_depth _ rank _)
      rw [← h']
      refine descends_depthOf ?_
      rw [h']
      exact (within_released g roots).descends hg

/-! ## Phase 3 is a turnover -/

theorem Store.Ranked.markAll : ∀ (coins : List Output) {s : Store}, s.Ranked rank →
    (s.markAll topic coins).Ranked rank
  | [], _, h => h
  | _ :: rest, _, h => Store.Ranked.markAll rest (h.modify _ fun _ hr => hr)

theorem Store.Ranked.insertAll {sub : Subject} {consumed : List Outpoint} {now : Nat}
    (hc : ∀ c ∈ consumed, rank c.txid < rank sub.tx.id) : ∀ (l : List Nat) {s : Store}, s.Ranked rank →
    (s.insertAll sub topic consumed now l).Ranked rank
  | [], _, h => h
  | _ :: rest, _, h => Store.Ranked.insertAll hc rest (h.insertOutput hc)

section
variable {rank : Txid → Nat} {sub : Subject} {v : TopicValidation} (hs : s.Ranked rank) (htx : sub.tx.Ranked rank)
  (hv : Found sub.tx v)
include hs htx hv

theorem descends_entered : Release.Descends (fun o => rank o.txid)
    (Release.entered (s.graph v.topic) (v.admitted sub.tx) v.outputsConsumed) := by
  have hrows : ((s.markAll v.topic v.coins).insertAll sub v.topic v.outputsConsumed 0 v.admittance.outputsToAdmit).Ranked rank :=
    (hs.markAll v.coins).insertAll (fun c hc => htx c (hv.consumed hc)) _
  have hdesc : Release.Descends (fun o => rank o.txid) (Store.graph _ v.topic) := descends_rank hrows
  rwa [graph_insertAll, graph_markAll] at hdesc

theorem graph_phase3 (now : Nat) : (s.phase3 sub v now).graph v.topic = Release.turnover (s.graph v.topic) (v.admitted sub.tx)
    v.outputsConsumed (v.staleCoins.map Output.outpoint) := by
  unfold Store.phase3 Release.turnover
  simp only
  rw [graph_insertApplied, graph_linkConsumed]
  congr 1
  have inserted : ((s.markAll v.topic v.coins).insertAll sub v.topic v.outputsConsumed now v.admittance.outputsToAdmit).graph v.topic =
      Release.released (Release.entered (s.graph v.topic) (v.admitted sub.tx) v.outputsConsumed) [] := by
    rw [graph_insertAll, graph_markAll, Release.released_nil]
    rfl
  rw [graph_deleteStale (descends_entered hs htx hv) v.staleCoins _ [] inserted]
  exact Release.released_congr fun k => by simp

theorem visited_below (k : Outpoint) (hk : k ∈ v.admitted sub.tx) : ¬ Release.Visited
    (Release.entered (s.graph v.topic) (v.admitted sub.tx) v.outputsConsumed) (v.staleCoins.map Output.outpoint) k := by
  rintro ⟨r, hr, -, hreach⟩
  obtain ⟨stale, hstale, rfl⟩ := List.mem_map.mp hr
  have hdesc := descends_entered hs htx hv
  have hbelow : rank k.txid < rank sub.tx.id := by
    clear hk
    induction hreach with
    | refl => exact htx _ (hv.stale stale hstale)
    | tail _ he ih => exact Nat.lt_trans (hdesc _ _ he) ih
  obtain ⟨i, -, rfl⟩ := List.mem_map.mp hk
  exact Nat.lt_irrefl _ hbelow

theorem linked_phase3 (now : Nat) (hlinked : s.Linked v.topic) :
    ((s.phase3 sub v now).Linked v.topic ∧ s.NoOrphan (s.phase3 sub v now) v.topic) ↔
      Release.Clear (s.graph v.topic) (v.admitted sub.tx) v.outputsConsumed (v.staleCoins.map Output.outpoint) := by
  rw [linked_iff, noOrphan_iff, graph_phase3 hs htx hv]
  refine Release.turnover_linked ((linked_iff s v.topic).mp hlinked) (visited_below hs htx hv) ?_
  rintro k hk hc
  obtain ⟨i, -, rfl⟩ := List.mem_map.mp hk
  exact Nat.lt_irrefl _ (htx _ (hv.consumed hc))

end

theorem linked_deleteDeep (hs : s.Ranked rank) (hlinked : s.Linked topic) {o : Outpoint}
    (hrow : s.find (o, topic) = some row) :
    ((s.deleteDeep s.depth row).Linked topic ∧ s.NoOrphan (s.deleteDeep s.depth row) topic) ↔
      Release.Spares (s.graph topic) [o] := by
  obtain ⟨hout, ht⟩ := Store.find_keyed hrow
  have hdesc : Release.Descends (fun o => rank o.txid) (s.graph topic) := descends_rank hs
  have hnode : Release.released (s.graph topic) [] o = some ⟨row.outputsConsumed, row.consumedBy⟩ := by
    rw [Release.released_nil]
    simp [Store.graph, hrow]
  have hreleased := Release.release_released hdesc hnode
    (by rw [Release.released_nil]; exact descends_depthOf hdesc) (depthOf_lt_depth s rank o)
  rw [Release.released_nil] at hreleased
  rw [linked_iff, noOrphan_iff, graph_deleteDeep _ row s ht, show row.outpoint = o from hout, hreleased]
  exact Release.released_linked ((linked_iff s topic).mp hlinked)

end

/-! ## Turns -/

structure Turn where
  sub : Subject
  waits : AList fun _ : Topic => String
  v : TopicValidation
  before : Store
  after : Store

/-- The turn is a faultless run of `applyTopic`. -/
def Turn.Runs (E : Engine) (bound : Bound) (t : Turn) : Prop :=
  ∃ (r : MutationReport) (w : World Db), Quiet w ∧ w.due = false ∧ w.state.store = t.before ∧
    (applyTopic E bound t.sub t.waits t.v r w).2.state.store = t.after

def Turn.writes (t : Turn) : Bool := t.v.judged && (t.waits.lookup t.v.topic).isNone

def Turn.Linked (t : Turn) : Prop := ∀ topic, t.after.Linked topic ∧ t.before.NoOrphan t.after topic

def Turn.Clear (t : Turn) : Prop := t.writes = true →
  Release.Clear (t.before.graph t.v.topic) (t.v.admitted t.sub.tx) t.v.outputsConsumed (t.v.staleCoins.map Output.outpoint)

/-- The turns lead from `s` to `s'`, one after another. -/
def Leads : List Turn → Store → Store → Prop
  | [], s, s' => s = s'
  | t :: rest, s, s' => t.before = s ∧ Leads rest t.after s'

theorem leads_concat (t : Turn) : ∀ turns s, Leads turns s t.before → Leads (turns ++ [t]) s t.after
  | [], _, h => ⟨h.symm, rfl⟩
  | _ :: rest, _, h => ⟨h.1, leads_concat t rest _ h.2⟩

theorem leads_linked : ∀ turns s s', Leads turns s s' → (∀ topic, s.Linked topic) → (∀ t ∈ turns, t.Linked) →
    ∀ topic, s'.Linked topic
  | [], _, _, h, hs, _ => by rw [← show _ = _ from h]; exact hs
  | t :: rest, _, s', h, _, hturns =>
    leads_linked rest t.after s' h.2 (fun topic => (hturns t (List.mem_cons_self ..) topic).1) fun t' ht' =>
      hturns t' (List.mem_cons_of_mem _ ht')

variable {topic : Topic} {s s' : Store}

theorem linked_refl (h : s.Linked topic) : s.Linked topic ∧ s.NoOrphan s topic :=
  ⟨h, fun _ _ _ _ _ h => h⟩

theorem linked_same (h : s.Linked topic) (hsame : SameTopic s topic s') :
    s'.Linked topic ∧ s.NoOrphan s' topic := by
  have hg : s'.graph topic = s.graph topic := graph_congr fun o => hsame.find o
  rw [linked_iff, noOrphan_iff, hg]
  exact ⟨(linked_iff s topic).mp h, fun _ _ _ _ _ h => h⟩

section
variable {E : Engine} {bound : Bound} {t : Turn}

theorem Turn.Runs.phase3 (h : t.Runs E bound) (hw : t.writes = true) : ∃ now, t.after = t.before.phase3 t.sub t.v now := by
  obtain ⟨r, w, hquiet, hdue, hbefore, hafter⟩ := h
  unfold Turn.writes TopicValidation.judged at hw
  simp only [Bool.and_eq_true, Bool.not_eq_true', Option.isNone_iff_eq_none] at hw
  obtain ⟨⟨⟨hd, hf⟩, hrf⟩, hwait⟩ := hw
  have hrun : applyTopic E bound t.sub t.waits t.v r = applyJudged E bound t.sub t.v r := by
    unfold applyTopic
    simp [hd, hf, hrf, hwait]
  have calm : Calm w.state t.before (applyJudged E bound t.sub t.v r) _ (t.before.phase3 t.sub t.v w.state.now) :=
    calm_applyJudged t.v r t.before
  obtain ⟨⟨-, hphase, -⟩, -⟩ := calm w ⟨hquiet, hdue⟩ ⟨hbefore, rfl, rfl, fun _ h => h⟩
  rw [← hrun, hafter] at hphase
  exact ⟨_, hphase⟩

theorem Turn.Runs.idle (h : t.Runs E bound) (hw : t.writes = false) : t.after = t.before := by
  obtain ⟨r, w, -, -, hbefore, hafter⟩ := h
  rw [← hafter, ← hbefore]
  unfold Turn.writes TopicValidation.judged at hw
  unfold applyTopic
  by_cases hd : t.v.isDupe = true
  · rw [if_pos hd]
    rfl
  · rw [if_neg hd]
    by_cases hf : t.v.failed = true
    · rw [if_pos hf]
      rfl
    · rw [if_neg hf]
      cases hrf : t.v.readFault with
      | some p => rfl
      | none =>
        cases hwait : t.waits.lookup t.v.topic with
        | some notNow => rfl
        | none => simp [hd, hf, hrf, hwait] at hw

theorem Turn.Runs.otherTopic (h : t.Runs E bound) (hv : Found t.sub.tx t.v) (ht : t.v.topic ≠ topic) :
    SameTopic t.before topic t.after := by
  obtain ⟨r, w, -, -, hbefore, hafter⟩ := h
  have closed : Closed (SameTopic t.before topic) t.sub.tx t.v.topic := closed_otherTopic (fun s1 s2 h1 h2 => h2.trans h1) t.sub.tx ht
  have kept : KeepsStore (SameTopic t.before topic) (applyTopic E bound t.sub t.waits t.v r) := keeps_applyTopic closed hv t.waits r
  have same : SameTopic t.before topic w.state.store := by rw [hbefore]; exact sameTopic_refl _ _
  rw [← hafter]
  exact (kept w trivial same).1

theorem Turn.Runs.linked_iff {rank : Txid → Nat} (h : t.Runs E bound) (hs : t.before.Ranked rank) (htx : t.sub.tx.Ranked rank)
    (hv : Found t.sub.tx t.v) (hlinked : ∀ topic, t.before.Linked topic) : t.Linked ↔ t.Clear := by
  unfold Turn.Linked Turn.Clear
  cases hw : t.writes with
  | false =>
    rw [h.idle hw]
    exact ⟨fun _ h => (by cases h), fun _ topic => linked_refl (hlinked topic)⟩
  | true =>
    obtain ⟨now, hafter⟩ := h.phase3 hw
    have hiff := linked_phase3 hs htx hv now (hlinked t.v.topic)
    rw [← hafter] at hiff
    constructor
    · exact fun h _ => hiff.mp (h t.v.topic)
    · intro hclear topic
      by_cases ht : t.v.topic = topic
      · rw [← ht]
        exact hiff.mpr (hclear rfl)
      · exact linked_same (hlinked topic) (h.otherTopic hv ht)

theorem leads_linked_iff {rank : Txid → Nat} : ∀ turns s s', Leads turns s s' → (∀ topic, s.Linked topic) →
    (∀ t ∈ turns, t.Runs E bound ∧ t.before.Ranked rank ∧ t.sub.tx.Ranked rank ∧ Found t.sub.tx t.v) →
    ((∀ t ∈ turns, t.Linked) ↔ ∀ t ∈ turns, t.Clear)
  | [], _, _, _, _, _ => by simp
  | t :: rest, s, s', ⟨hbefore, hleads⟩, hlinked, hturns => by
    subst hbefore
    obtain ⟨hruns, hs, htx, hv⟩ := hturns t (List.mem_cons_self ..)
    have hiff := hruns.linked_iff hs htx hv hlinked
    have ih := fun h : t.Linked => leads_linked_iff rest t.after s' hleads (fun topic => (h topic).1) fun t' ht' =>
      hturns t' (List.mem_cons_of_mem _ ht')
    simp only [List.forall_mem_cons]
    constructor
    · exact fun ⟨h, hrest⟩ => ⟨hiff.mp h, (ih h).mp hrest⟩
    · exact fun ⟨h, hrest⟩ => ⟨hiff.mpr h, (ih (hiff.mpr h)).mpr hrest⟩

end

/-! ## Direct deletes and submits -/

/-- The store after a direct `delete_utxo_deep` of a row. -/
def deleted (E : Engine) (bound : Bound) (row : Output) (w : World Db) : Store :=
  (deleteUtxoDeep E bound w.state.store.depth row w).2.state.store

variable {bound : Bound} {w : World Db} {E : Engine}

theorem deleted_eq {row : Output} (hquiet : Quiet w) (hdue : w.due = false) :
    deleted E bound row w = w.state.store.deleteDeep w.state.store.depth row := by
  have calm : Calm w.state w.state.store (deleteUtxoDeep E bound w.state.store.depth row) (· = .ok ())
    (w.state.store.deleteDeep w.state.store.depth row) := calm_deleteUtxoDeep _ row _
  exact (calm w ⟨hquiet, hdue⟩ ⟨rfl, rfl, rfl, fun _ h => h⟩).1.2.1

theorem deleted_otherTopic {row : Output} (ht : row.topic ≠ topic) :
    SameTopic w.state.store topic (deleted E bound row w) := by
  have kept : KeepsStore (SameTopic w.state.store topic) (deleteUtxoDeep E bound w.state.store.depth row) :=
    keeps_deleteUtxoDeep (deepClosed_sameTopic _ ht) _ row rfl
  exact (kept w trivial (sameTopic_refl _ _)).1

theorem submitBounded_leads {rank : Txid → Nat} {finalize : Bool} {tagged : TaggedBeef}
    {mode : SubmitMode} {policy : WalkBreachPolicy} (hquiet : Quiet w) (hdue : w.due = false)
    (hs : w.state.store.Ranked rank) (hbeef : tagged.beef.Ranked rank) :
    ∃ turns, Leads turns w.state.store (submitBounded E bound finalize tagged mode policy w).2.state.store ∧
      ∀ t ∈ turns, t.sub.tx ∈ tagged.beef.bodies ∧ t.Runs E bound ∧ t.before.Ranked rank ∧ Found t.sub.tx t.v := by
  let I : Store → Prop := fun s => s.Ranked rank ∧ ∃ turns, Leads turns w.state.store s ∧
    ∀ t ∈ turns, t.sub.tx ∈ tagged.beef.bodies ∧ t.Runs E bound ∧ t.before.Ranked rank ∧ Found t.sub.tx t.v
  have phase : ∀ body ∈ tagged.beef.bodies, ∀ topic, @PhaseKeeps noFaults I E bound body topic := by
    rintro body hbody topic sub waits v r rfl rfl hv w' ha ⟨hranked, turns, hleads, hturns⟩
    obtain ⟨hranked', hlater⟩ := (@Closed.phase noFaults _ E bound _ _ (closed_ranked (hbeef _ hbody) v.topic)) sub waits v r rfl rfl hv w' ha hranked
    let t : Turn := ⟨sub, waits, v, w'.state.store, (applyTopic E bound sub waits v r w').2.state.store⟩
    refine ⟨⟨hranked', turns ++ [t], leads_concat t turns _ hleads, fun t' ht' => ?_⟩, hlater⟩
    rcases List.mem_append.mp ht' with ht' | ht'
    · exact hturns t' ht'
    · rw [List.mem_singleton.mp ht']
      exact ⟨hbody, ⟨r, w', ha.1, ha.2, rfl, rfl⟩, hranked, hv⟩
  exact ((@keeps_submitBounded mode E noFaults I bound finalize tagged policy phase) w ⟨hquiet, hdue⟩
    ⟨hs, [], rfl, fun _ h => (by cases h)⟩).1.2

/-- Without faults, over a linked store whose histories are ranked: a direct delete keeps it linked
and orphans nothing exactly if nothing it visits stays with a stored coin, and a submit is a
sequence of turns that each do exactly if each is clear. -/
theorem deleted_and_submitBounded_linked {rank : Txid → Nat} {E : Engine} {bound : Bound} {w : World Db} (hquiet : Quiet w)
    (hdue : w.due = false) (hs : w.state.store.Ranked rank) (hlinked : ∀ topic, w.state.store.Linked topic) :
    (∀ o topic row, w.state.store.find (o, topic) = some row →
      ((∀ topic', (deleted E bound row w).Linked topic' ∧ w.state.store.NoOrphan (deleted E bound row w) topic') ↔
        Release.Spares (w.state.store.graph topic) [o])) ∧
    ∀ finalize (tagged : TaggedBeef) mode policy, tagged.beef.Ranked rank →
      ∃ turns, Leads turns w.state.store (submitBounded E bound finalize tagged mode policy w).2.state.store ∧
        (∀ t ∈ turns, t.sub.tx ∈ tagged.beef.bodies ∧ t.Runs E bound ∧ Found t.sub.tx t.v) ∧
        ((∀ t ∈ turns, t.Linked) ↔ ∀ t ∈ turns, t.Clear) ∧
        ((∀ t ∈ turns, t.Clear) →
          ∀ topic, (submitBounded E bound finalize tagged mode policy w).2.state.store.Linked topic) := by
  constructor
  · intro o topic row hrow
    have hiff := linked_deleteDeep hs (hlinked topic) hrow
    rw [← deleted_eq (E := E) hquiet hdue] at hiff
    constructor
    · exact fun h => hiff.mp (h topic)
    · intro hspares topic'
      by_cases ht : row.topic = topic'
      · rw [← ht, (Store.find_keyed hrow).2]
        exact hiff.mpr hspares
      · exact linked_same (hlinked topic') (deleted_otherTopic ht)
  · intro finalize tagged mode policy hbeef
    obtain ⟨turns, hleads, hturns⟩ := submitBounded_leads (E := E) hquiet hdue hs hbeef
    have hiff : (∀ t ∈ turns, t.Linked) ↔ ∀ t ∈ turns, t.Clear := by
      refine @leads_linked_iff E bound rank turns _ _ hleads hlinked fun t ht => ?_
      exact ⟨(hturns t ht).2.1, (hturns t ht).2.2.1, hbeef _ (hturns t ht).1, (hturns t ht).2.2.2⟩
    refine ⟨turns, hleads, fun t ht => ⟨(hturns t ht).1, (hturns t ht).2.1, (hturns t ht).2.2.2⟩, hiff, fun hclear => ?_⟩
    exact leads_linked turns _ _ hleads hlinked (hiff.mpr hclear)

/-! ## Where it fails -/

theorem forall_find {P : Key → Output → Prop} (h : ∀ e ∈ s.outputs.entries, P e.1 e.2) (k : Key) (row : Output)
    (hf : s.find k = some row) : P k row := h ⟨k, row⟩ (AList.mem_lookup_iff.mp hf)

theorem linked_of_entries (h : ∀ e ∈ s.outputs.entries, ∀ e' ∈ s.outputs.entries,
    e.1.2 = e'.1.2 → e'.1.1 ∈ e.2.outputsConsumed → e.1.1 ∈ e'.2.consumedBy) (topic : Topic) : s.Linked topic := by
  intro o p row coin ho hp hcoin
  exact h ⟨(o, topic), row⟩ (AList.mem_lookup_iff.mp ho) ⟨(p, topic), coin⟩ (AList.mem_lookup_iff.mp hcoin) rfl hp

/-- `P` consumed `Q`. -/
def chained : List Output :=
  [{ unspentRow "Q" with spent := true, consumedBy := [firstOutput "P"] },
   { unspentRow "P" with outputsConsumed := [firstOutput "Q"] }]

theorem spares_chained : Release.Spares ((storeOf chained).graph "t") [firstOutput "P"] := by
  rintro x n - hx ⟨u, hu, hnot⟩
  obtain ⟨row, hrow, rfl⟩ := Option.map_eq_some_iff.mp hx
  have hrows : x = firstOutput "Q" ∨ x = firstOutput "P" ∧ row.consumedBy = [] := by
    refine forall_find (P := fun k row => k.1 = firstOutput "Q" ∨ k.1 = firstOutput "P" ∧ row.consumedBy = []) ?_ _ row hrow
    decide
  rcases hrows with rfl | ⟨-, hnil⟩
  · have hu' : u = firstOutput "P" := by
      have : (storeOf chained).find (firstOutput "Q", "t") =
        some { unspentRow "Q" with spent := true, consumedBy := [firstOutput "P"] } := by decide
      rw [this] at hrow
      cases hrow
      exact List.mem_singleton.mp hu
    subst hu'
    refine absurd ⟨⟨firstOutput "P", List.mem_singleton.mpr rfl, by decide, Relation.ReflTransGen.refl⟩,
      ⟨⟨[firstOutput "Q"], []⟩, ?_, List.mem_singleton.mpr rfl⟩, by decide⟩ hnot
    have : (storeOf chained).find (firstOutput "P", "t") = some { unspentRow "P" with outputsConsumed := [firstOutput "Q"] } := by
      decide
    simp [Store.graph, this, unspentRow]
  · rw [show Release.Node.users _ = row.consumedBy from rfl, hnil] at hu
    cases hu

theorem deleted_linked_chained :
    let E := oneManager (retainsNone [0] [])
    let w := worldOf chained []
    let row := { unspentRow "P" with outputsConsumed := [firstOutput "Q"] }
    (∀ topic, (deleted E none row w).Linked topic ∧ w.state.store.NoOrphan (deleted E none row w) topic) ∧
      (deleted E none row w).held (firstOutput "Q", "t") = false := by
  have hs : (storeOf chained).Ranked fun txid => if txid = "P" then 1 else 0 :=
    forall_find (P := fun _ row => row.Ranked fun txid => if txid = "P" then 1 else 0) (by unfold Output.Ranked; decide)
  refine ⟨((deleted_and_submitBounded_linked (fun _ h => (by cases h)) rfl hs (linked_of_entries (by decide))).1
    (firstOutput "P") "t" _ (by decide)).mpr spares_chained, by decide⟩

/-- `P` consumed `Q`, and both outputs of `A` consumed `P`. -/
def siblings : List Output :=
  let first := { unspentRow "A" with outputsConsumed := [firstOutput "P"] }
  [{ unspentRow "Q" with spent := true, consumedBy := [firstOutput "P"] },
   { unspentRow "P" with spent := true, outputsConsumed := [firstOutput "Q"], consumedBy := [firstOutput "A", ⟨"A", 1⟩] },
   first, { first with outputIndex := 1 }]

/-- `T` spends the first output of `A`. -/
def spendsA : Tx := { id := "T", inputs := [spendsFirst "A"], outputs := [{}] }

theorem linked_siblings (topic : Topic) : (storeOf siblings).Linked topic := linked_of_entries (by decide) topic

theorem not_noOrphan {o p : Outpoint}
    (ho : (s'.find (o, topic)).any (fun row => decide (p ∈ row.outputsConsumed)) = true) (hs : s.held (p, topic) = true)
    (hs' : s'.held (p, topic) = false) : ¬ s.NoOrphan s' topic := by
  intro h
  cases hf : s'.find (o, topic) with
  | none => rw [hf] at ho; cases ho
  | some row =>
    have hp : p ∈ row.outputsConsumed := by simpa [hf] using ho
    rw [h o p row hf hp hs] at hs'
    cases hs'

/-- One of two siblings is deleted, by itself or by a submit that spends it: the history of the other goes. -/
theorem siblings_orphan :
    let E := oneManager (retainsNone [0] [])
    let w := worldOf siblings []
    let after := (submitWithReport E (taggedOf [spendsA] ["t"]) .historicalTx w).2.state.store
    (∀ topic, w.state.store.Linked topic) ∧ Quiet w ∧
    (∀ row, w.state.store.find (firstOutput "A", "t") = some row → ¬ w.state.store.NoOrphan (deleted E none row w) "t") ∧
    ¬ w.state.store.NoOrphan after "t" := by
  refine ⟨linked_siblings, fun _ h => (by cases h), ?_, ?_⟩
  · intro row hrow
    have hsib : row = { unspentRow "A" with outputsConsumed := [firstOutput "P"] } := by
      refine Option.some.inj (hrow.symm.trans ?_)
      decide
    subst hsib
    exact @not_noOrphan _ _ _ (firstOutput "P") (firstOutput "Q") (by decide) (by decide) (by decide)
  · exact @not_noOrphan _ _ _ (firstOutput "P") (firstOutput "Q") (by decide +kernel) (by decide +kernel) (by decide +kernel)

end OverlayEngine
