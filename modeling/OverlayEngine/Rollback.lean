import OverlayEngine.HeadChain
import OverlayEngine.Report

/-!
# The undo of a faulted insert

A topic whose insert faults, or whose admission notification does, and whose
undo does not, ends with the rows it had when Phase 3 started: the marks of
its previous coins apart, and less what it already held of its own outputs
unspent and unconsumed.
-/

namespace OverlayEngine

open Faulty

def Output.undoable (row : Output) : Prop := row.spent = false ∧ row.consumedBy = []

def Output.marked (row : Output) : Output := { row with spent := true }

/-- The row at `o` while the topic inserts and undoes: a coin of `tx` may be marked, and
an output of `tx` may be added or taken out while nothing has touched it. -/
def RowKept (s₀ s : Store) (tx : Tx) (topic : Topic) (o : Outpoint) : Prop :=
  s.find (o, topic) = s₀.find (o, topic) ∨
  (o ∈ tx.spent ∧ s.find (o, topic) = (s₀.find (o, topic)).map Output.marked) ∨
  (o.txid = tx.id ∧ (∀ row, s.find (o, topic) = some row → row.undoable) ∧
    ∀ row, s₀.find (o, topic) = some row → row.undoable)

/-- The rows of `topic` after the undo of a faulted insert. -/
structure RolledBack (s₀ s : Store) (tx : Tx) (topic : Topic) : Prop where
  others : ∀ o, o.txid ≠ tx.id → s.find (o, topic) = s₀.find (o, topic) ∨
    o ∈ tx.spent ∧ s.find (o, topic) = (s₀.find (o, topic)).map Output.marked
  own : ∀ i, s.find (⟨tx.id, i⟩, topic) = s₀.find (⟨tx.id, i⟩, topic) ∨
    s.find (⟨tx.id, i⟩, topic) = none ∧ ∀ row, s₀.find (⟨tx.id, i⟩, topic) = some row → row.undoable
  applied : ∀ txid, s.isApplied txid topic = s₀.isApplied txid topic

/-- The rows and the applied transactions of `topic` before the deletes. -/
structure Undoing (s₀ : Store) (tx : Tx) (topic : Topic) (s : Store) : Prop where
  rows : ∀ o, RowKept s₀ s tx topic o
  applied : ∀ txid, s.isApplied txid topic = s₀.isApplied txid topic

section
variable {s₀ s : Store} {tx : Tx} {topic : Topic}

theorem isApplied_congr {s s' : Store} (h : s'.applied = s.applied) (txid : Txid) (topic : Topic) :
    s'.isApplied txid topic = s.isApplied txid topic := by
  unfold Store.isApplied
  rw [h]

theorem Undoing.mark (h : Undoing s₀ tx topic s) {o : Outpoint} (ho : o ∈ tx.spent) :
    Undoing s₀ tx topic (s.markUtxoAsSpent (o, topic)) := by
  refine ⟨fun o' => ?_, fun txid => (isApplied_congr (Store.applied_markUtxoAsSpent s _) txid topic).trans (h.applied txid)⟩
  unfold RowKept
  rw [Store.find_markUtxoAsSpent]
  by_cases e : ((o', topic) : Key) = (o, topic)
  · have eo : o' = o := congrArg Prod.fst e
    subst eo
    rw [if_pos rfl]
    rcases h.rows o' with h' | ⟨-, h'⟩ | ⟨h', -⟩
    · exact Or.inr (Or.inl ⟨ho, by rw [h']; rfl⟩)
    · refine Or.inr (Or.inl ⟨ho, ?_⟩)
      rw [h', Option.map_map]
      rfl
    · exact absurd h' (txid_ne_of_spent ho)
  · rw [if_neg e]
    exact h.rows o'

theorem Undoing.insert (h : Undoing s₀ tx topic s) {row : Output} (htx : row.txid = tx.id) (hrow : row.undoable) : Undoing s₀ tx topic (s.insertOutput row) := by
  refine ⟨fun o => ?_, fun txid => (isApplied_congr (Store.applied_insertOutput s row) txid topic).trans (h.applied txid)⟩
  unfold RowKept
  rw [Store.find_insertOutput]
  split
  · rename_i e
    have eo : o = row.outpoint := congrArg Prod.fst e.1
    have hnone : s.find (o, topic) = none := by
      have := e.2
      unfold Store.held at this
      exact Option.isSome_eq_false_iff.mp this |> Option.isNone_iff_eq_none.mp
    have hid : o.txid = tx.id := by rw [eo]; exact htx
    refine Or.inr (Or.inr ⟨hid, fun row' hr => ?_, fun row' hr => ?_⟩)
    · cases hr
      exact hrow
    · rcases h.rows o with h' | ⟨ho, -⟩ | ⟨-, -, h'⟩
      · rw [← h', hnone] at hr
        cases hr
      · exact absurd hid (txid_ne_of_spent ho)
      · exact h' row' hr
  · exact h.rows o

theorem Undoing.undo (h : Undoing s₀ tx topic s) {i : Nat} {row : Output}
    (hf : s.find (⟨tx.id, i⟩, topic) = some row) (hrow : row.undoable) :
    Undoing s₀ tx topic (s.deleteOutput (⟨tx.id, i⟩, topic)) := by
  refine ⟨fun o => ?_, h.applied⟩
  unfold RowKept
  rw [Store.find_deleteOutput]
  split
  · rename_i e
    have eo : o = ⟨tx.id, i⟩ := congrArg Prod.fst e
    subst eo
    refine Or.inr (Or.inr ⟨rfl, fun row' hr => (by cases hr), fun row' hr => ?_⟩)
    rcases h.rows ⟨tx.id, i⟩ with h' | ⟨ho, -⟩ | ⟨-, -, h'⟩
    · rw [h', hr] at hf
      cases hf
      exact hrow
    · exact absurd rfl (txid_ne_of_spent ho)
    · exact h' row' hr
  · exact h.rows o

theorem Undoing.rolledBack (h : Undoing s₀ tx topic s) (hgone : ∀ i row, s.find (⟨tx.id, i⟩, topic) = some row →
    s.find (⟨tx.id, i⟩, topic) = s₀.find (⟨tx.id, i⟩, topic) ∨ ¬ row.undoable) : RolledBack s₀ s tx topic := by
  refine ⟨fun o ho => ?_, fun i => ?_, h.applied⟩
  · rcases h.rows o with h' | h' | ⟨h', -⟩
    · exact Or.inl h'
    · exact Or.inr h'
    · exact absurd h' ho
  · rcases h.rows ⟨tx.id, i⟩ with h' | ⟨ho, -⟩ | ⟨-, hs, hs₀⟩
    · exact Or.inl h'
    · exact absurd rfl (txid_ne_of_spent ho)
    · cases hf : s.find (⟨tx.id, i⟩, topic) with
      | none => exact Or.inr ⟨rfl, hs₀⟩
      | some row =>
        rcases hgone i row hf with h' | h'
        · exact Or.inl (hf ▸ h')
        · exact absurd (hs row hf) h'

theorem RolledBack.congr {s' : Store} (h : RolledBack s₀ s tx topic) (hs : SameTopic s topic s') : RolledBack s₀ s' tx topic := by
  refine ⟨fun o ho => ?_, fun i => ?_, fun txid => (hs.isApplied txid).trans (h.applied txid)⟩
  · rw [hs.find]
    exact h.others o ho
  · rw [hs.find]
    exact h.own i

end

/-! ## The undo -/

section
variable {E : Engine} {bound : Bound} {sub : Subject} {topic : Topic}

/-- Output `i` of the subject is out, or not one the undo takes out. -/
def Spared (sub : Subject) (topic : Topic) (i : Nat) (s : Store) : Prop :=
  ∀ row, s.find (⟨sub.tx.id, i⟩, topic) = some row → ¬ row.undoable

variable {s s' s₀ : Store}

theorem spared_of_none {i : Nat} (h : s.find (⟨sub.tx.id, i⟩, topic) = none) : Spared sub topic i s := by
  intro row hrow
  rw [h] at hrow
  cases hrow

theorem Spared.deleted {i : Nat} (h : Spared sub topic i s) (k : Key) : Spared sub topic i (s.deleteOutput k) := by
  intro row hrow
  rw [Store.find_deleteOutput] at hrow
  split at hrow
  · cases hrow
  · exact h row hrow

theorem triple_undoInserts : ∀ l r {I : Store → Prop}, (∀ s i row, I s → s.find (⟨sub.tx.id, i⟩, topic) = some row →
    row.undoable → I (s.deleteOutput (⟨sub.tx.id, i⟩, topic))) →
    Triple (fun d : Db => I d.store) (undoInserts bound sub topic r l) fun r' d => I d.store ∧
      (¬ HasFault topic (· = .undoInsertOutput) r' → ∀ i ∈ l, Spared sub topic i d.store)
  | [], _, _, _ => triple_pure fun _ h => ⟨h, fun _ i hi => by cases hi⟩
  | index :: rest, r, I, hundo => by
    have spared : Triple (fun d : Db => I d.store ∧ Spared sub topic index d.store) (undoInserts bound sub topic r rest)
        fun r' d => I d.store ∧ (¬ HasFault topic (· = .undoInsertOutput) r' → ∀ i ∈ index :: rest, Spared sub topic i d.store) := by
      refine (triple_undoInserts rest r (I := fun s => I s ∧ Spared sub topic index s) fun s i row h hf hr =>
        ⟨hundo s i row h.1 hf hr, h.2.deleted _⟩).conseq (fun _ h => h) fun r' d h => ⟨h.1.1, fun hn i hi => ?_⟩
      rcases List.mem_cons.mp hi with rfl | hi
      · exact h.1.2
      · exact h.2 hn i hi
    have faulted (e : String) : Triple (fun d : Db => I d.store)
        (undoInserts bound sub topic (r.fault topic .undoInsertOutput e) rest) fun r' d => I d.store ∧
          (¬ HasFault topic (· = .undoInsertOutput) r' → ∀ i ∈ index :: rest, Spared sub topic i d.store) := by
      refine ((triple_undoInserts rest (r.fault topic .undoInsertOutput e) hundo).and (reports_undoInserts rest _)).conseq
        (fun _ h => ⟨h, trivial⟩) fun r' d h => ⟨h.1.1, fun hn => absurd (h.2.faults.hasFault ?_) hn⟩
      exact ⟨⟨topic, .undoInsertOutput, e⟩, List.mem_append_right _ (List.mem_singleton.mpr rfl), rfl, rfl⟩
    refine triple_bind (R := fun a d => I d.store ∧ ∀ row, a = .ok row → d.store.find (⟨sub.tx.id, index⟩, topic) = row)
      (triple_get (fun d h => ⟨h, fun row e => Except.ok.inj e⟩) fun e d h => ⟨h, fun row he => by cases he⟩) fun a => ?_
    rcases a with e | _ | row
    · exact (faulted e).conseq (fun _ h => h.1) fun _ _ h => h
    · exact spared.conseq (fun d h => ⟨h.1, spared_of_none (h.2 _ rfl)⟩) fun _ _ h => h
    · simp only
      split
      · rename_i hu
        have hrow : row.undoable := by simpa [Output.undoable] using hu
        refine triple_bind (R := fun a d => I d.store ∧ (a = .ok () → Spared sub topic index d.store))
          (triple_call (fun d h => ?_) fun e d h => ?_) fun a => ?_
        · refine ⟨hundo d.store index row h.1 (h.2 _ rfl) hrow, fun _ => spared_of_none ?_⟩
          simp [Db.onStore, Store.find_deleteOutput]
        · exact ⟨⟨h.1, fun he => by cases he⟩, ⟨hundo d.store index row h.1 (h.2 _ rfl) hrow, fun he => by cases he⟩⟩
        cases a with
        | ok u => exact spared.conseq (fun d h => ⟨h.1, h.2 rfl⟩) fun _ _ h => h
        | error e => exact (faulted e).conseq (fun d h => h.1) fun _ _ h => h
      · rename_i hu
        refine spared.conseq (fun d h => ⟨h.1, fun row' hr hu' => hu ?_⟩) fun _ _ h => h
        rw [h.2 _ rfl] at hr
        cases hr
        simpa [Output.undoable] using hu'

/-! ## One topic -/

def Undone (s₀ : Store) (tx : Tx) (topic : Topic) (r : MutationReport) (s : Store) : Prop :=
  HasFault topic Site.inserts r → ¬ HasFault topic (· = .undoInsertOutput) r → RolledBack s₀ s tx topic

section
variable {s₀ : Store} {v : TopicValidation}

theorem undone_insertAndRecord (n : Nat) {r : MutationReport} (hr : ¬ HasFault v.topic Site.inserts r) :
    Triple (fun d : Db => Undoing s₀ sub.tx v.topic d.store ∧
        ∀ i, d.store.find (⟨sub.tx.id, i⟩, v.topic) = s₀.find (⟨sub.tx.id, i⟩, v.topic))
      (insertAndRecord E bound sub v n r) fun r' d => Undone s₀ sub.tx v.topic r' d.store := by
  unfold insertAndRecord
  let inserts := insertAdmitted E bound sub v.topic v.outputsConsumed r v.admittance.outputsToAdmit
  have undoing : KeepsStore (Undoing s₀ sub.tx v.topic) inserts :=
    keeps_insertAdmitted (fun s index now h => h.insert rfl ⟨rfl, rfl⟩) _ r
  have same : Triple (fun d : Db => ∀ i, d.store.find (⟨sub.tx.id, i⟩, v.topic) = s₀.find (⟨sub.tx.id, i⟩, v.topic)) inserts
      fun a d => ∀ i, i ∉ a.2.1 → d.store.find (⟨sub.tx.id, i⟩, v.topic) = s₀.find (⟨sub.tx.id, i⟩, v.topic) :=
    triple_insertAdmitted (fun i s => s.find (⟨sub.tx.id, i⟩, v.topic) = s₀.find (⟨sub.tx.id, i⟩, v.topic))
      (fun i s index now hi h => (find_insert_other hi).trans h) _ r
  refine triple_bind (((undoing.triple.and same).and (reports_insertAdmitted _ r)).conseq (fun d h => ⟨h, trivial⟩)
    fun _ _ h => h) fun a => ?_
  obtain ⟨r1, attempted, faulted⟩ := a
  refine triple_fact (fun _ h => h.2) fun inserted => ?_
  simp only
  split
  · -- the undo spares what was attempted; the rest was never inserted
    let I : Store → Prop := fun s => Undoing s₀ sub.tx v.topic s ∧
      ∀ i, i ∉ attempted → s.find (⟨sub.tx.id, i⟩, v.topic) = s₀.find (⟨sub.tx.id, i⟩, v.topic) ∨
        s.find (⟨sub.tx.id, i⟩, v.topic) = none
    refine triple_bind (R := fun _ d => I d.store) ((keeps_renew (I := fun d : Db => I d.store)).triple.conseq
      (fun d h => ⟨h.1.1, fun i hi => Or.inl (h.1.2 i hi)⟩) fun _ _ h => h) fun _ => ?_
    refine triple_bind (triple_undoInserts attempted r1 (I := I) fun s i row h hf hrow =>
      ⟨h.1.undo hf hrow, fun i' hi' => ?_⟩) fun r2 => ?_
    · rw [Store.find_deleteOutput]
      split
      · exact Or.inr rfl
      · exact h.2 i' hi'
    · refine triple_bind (R := fun _ d => I d.store ∧ (¬ HasFault v.topic (· = .undoInsertOutput) r2 →
        ∀ i ∈ attempted, Spared sub v.topic i d.store)) (triple_update fun d h => h) fun _ => triple_pure fun d h _ hn => ?_
      refine h.1.1.rolledBack fun i row hf => ?_
      by_cases hi : i ∈ attempted
      · exact Or.inr (h.2 hn i hi row hf)
      · refine Or.inl ((h.1.2 i hi).resolve_right fun hnone => ?_)
        rw [hnone] at hf
        cases hf
  · rename_i hf
    have hr1 : r1 = r := inserted.2.1 (by simpa using hf)
    subst hr1
    refine (reports_deleteAndRecord n r1 attempted).conseq (fun _ _ => trivial) fun r' d h hi _ => ?_
    exact absurd (h.faults.hadFault (fun _ site hs => hs) hi) hr

theorem undone_applyTopic (hv : Found sub.tx v) (waits : AList fun _ : Topic => String) {r : MutationReport}
    (hread : ∀ site e, v.readFault = some (site, e) → ¬ site.inserts) (hr : ¬ HasFault v.topic Site.inserts r) :
    Triple (fun d : Db => SameTopic s₀ v.topic d.store) (applyTopic E bound sub waits v r)
      fun r' d => Undone s₀ sub.tx v.topic r' d.store := by
  have undone {r' : MutationReport} (h : AddsFaults v.topic (fun site => ¬ site.inserts) r r') (s : Store) :
      Undone s₀ sub.tx v.topic r' s := fun hi _ => absurd (h.hadFault (fun _ site hs => hs) hi) hr
  have hold {r' : MutationReport} (h : AddsFaults v.topic (fun site => ¬ site.inserts) r r') (P : Db → Prop) :
      Triple P (do holdUnapplied sub.tx.id v.topic; pure r' : M MutationReport)
        fun r' d => Undone s₀ sub.tx v.topic r' d.store :=
    triple_bind (R := fun _ _ => True) (triple_update fun _ _ => trivial) fun _ => triple_pure fun d _ => undone h d.store
  unfold applyTopic
  split
  · exact triple_pure fun d _ => undone (adds_refl r).faults d.store
  · split
    · exact triple_pure fun d _ => undone (adds_refl r).faults d.store
    · split
      · rename_i hf
        exact hold (adds_fault r _ (hread _ _ hf)).faults _
      · refine hold (adds_fault r _ ?_).faults _
        rintro (h | h) <;> cases h
      · unfold applyJudged
        let I : Store → Prop := fun s => Undoing s₀ sub.tx v.topic s ∧
          ∀ i, s.find (⟨sub.tx.id, i⟩, v.topic) = s₀.find (⟨sub.tx.id, i⟩, v.topic)
        have mark : ∀ s o, o ∈ sub.tx.spent → I s → I (s.markUtxoAsSpent (o, v.topic)) := by
          refine fun s o ho h => ⟨h.1.mark ho, fun i => ?_⟩
          rw [Store.find_markUtxoAsSpent, if_neg]
          · exact h.2 i
          · intro e
            exact txid_ne_of_spent ho (congrArg (fun k : Key => k.1.txid) e).symm
        have marks : KeepsStore I (markPrevious E bound sub v.topic v.admittance.coinsToRetain r
            (v.previousCoins.zip v.previousOutputs)) :=
          keeps_markPrevious mark _ _ r fun p hp => hv _ (List.of_mem_zip hp).2
        refine triple_bind ((marks.triple.and (reports_markPrevious _ _ r)).conseq (fun d h => ?_) fun _ _ h => h) fun a => ?_
        · exact ⟨⟨⟨fun o => Or.inl (h.find o), h.isApplied⟩, fun i => h.find _⟩, trivial⟩
        obtain ⟨r1, markFaulted, notifyFaulted⟩ := a
        refine triple_fact (fun _ h => h.2) fun marked => ?_
        have added : AddsFaults v.topic (fun site => ¬ site.inserts) r r1 := by
          refine marked.faults.mono fun site h hi => ?_
          rcases h with rfl | rfl <;> rcases hi with h | h <;> cases h
        simp only
        split
        · exact hold added _
        · exact (undone_insertAndRecord _ fun h => hr (added.hadFault (fun _ site hs => hs) h)).conseq
            (fun d h => h.1) fun _ _ h => h

end

/-! ## Phase 3 -/

theorem Undone.congr {tx : Tx} {topic : Topic} {r : MutationReport} (h : Undone s₀ tx topic r s)
    (hs : SameTopic s topic s') : Undone s₀ tx topic r s' := fun hi hn => (h hi hn).congr hs

structure Sound (tx : Tx) (v : TopicValidation) : Prop where
  found : Found tx v
  read : ∀ site e, v.readFault = some (site, e) → ¬ site.inserts

theorem undone_mutate (topic : Topic) (waits : AList fun _ : Topic => String) : ∀ vs p,
    (vs.map TopicValidation.topic).Nodup → (∀ v ∈ vs, Sound sub.tx v) → ¬ HasFault topic Site.inserts p.2 →
    Triple (fun d : Db => SameTopic s₀ topic d.store) (mutate E bound sub waits vs p)
      fun p' d => Undone s₀ sub.tx topic p'.2 d.store
  | [], p, _, _, hp => triple_pure fun d _ hi _ => absurd hi hp
  | v :: rest, (steak, r), hnd, hvs, hp => by
    obtain ⟨hout, hnd'⟩ := List.nodup_cons.mp (show (v.topic :: rest.map TopicValidation.topic).Nodup from hnd)
    have hv := hvs v (List.mem_cons_self ..)
    have hrest : ∀ u ∈ rest, Sound sub.tx u := fun u hu => hvs u (List.mem_cons_of_mem _ hu)
    by_cases ht : v.topic = topic
    · subst ht
      -- the topics still to come leave this one's rows and faults as they are
      refine triple_bind (undone_applyTopic hv.found waits hv.read hp) fun r1 => ?_
      have frame : KeepsStore (Undone s₀ sub.tx v.topic r1) (mutate E bound sub waits rest (steakRemoved waits v steak, r1)) := by
        refine keeps_mutate waits rest _ fun u hu => ⟨?_, (hrest u hu).found⟩
        refine (closed_otherTopic (fun s s' h h' => h'.congr h) sub.tx fun e => hout ?_).phase
        rw [← e]
        exact List.mem_map_of_mem hu
      refine (frame.triple.and (reports_mutate waits v.topic rest _ hout)).conseq (fun d h => ⟨h, trivial⟩) fun p' d h => ?_
      intro hi hn
      exact h.1 ((h.2.1 _).mp hi) fun hc => hn ((h.2.1 _).mpr hc)
    · have frame : KeepsStore (SameTopic s₀ topic) (applyTopic E bound sub waits v r) :=
        keeps_applyTopic (closed_otherTopic (fun s s' h h' => h'.trans h) sub.tx ht) hv.found waits r
      refine triple_bind (frame.triple.and (reports_applyTopic waits r) |>.conseq (fun d h => ⟨h, trivial⟩)
        fun _ _ h => h) fun r1 => ?_
      refine triple_fact (fun _ h => h.2) fun added => ?_
      exact (undone_mutate topic waits rest _ hnd' hrest fun hi => hp (added.faults.hadFault (fun e => absurd e.symm ht) hi)).conseq
        (fun d h => h.1) fun _ _ h => h

end

/-! ## The submit -/

section
variable {E : Engine} {bound : Bound} {finalize : Bool} {tagged : TaggedBeef} {mode : SubmitMode} {policy : WalkBreachPolicy}

theorem follows_sound (I : Store → Prop) (tx : Tx) (offChainValues : Option Bytes) (carried : Bool) :
    Follows (Sound tx) I E tx offChainValues mode finalize carried where
  validated _ _ _ h := ⟨h.found, fun site e hf hi => by
    rcases h.fault site e hf with rfl | rfl <;> rcases hi with h | h <;> cases h⟩
  revalidated _ _ _ h := ⟨h.found, fun site e hf hi => by
    rcases h.fault site e hf with rfl | rfl <;> rcases hi with h | h <;> cases h⟩
  expired hfin now v h := by
    refine ⟨(follows_found I E tx offChainValues mode finalize carried).expired hfin now v h.found, ?_⟩
    unfold dropExpired
    split <;> exact h.read
  answered _ v a h := by
    refine ⟨h.found.answered a, ?_⟩
    cases a <;> exact h.read

def beforePhase3 (E : Engine) (bound : Bound) (finalize : Bool) (tagged : TaggedBeef) (mode : SubmitMode)
    (policy : WalkBreachPolicy) (w : World Db) : World Db :=
  (prepare E bound finalize none (fun tx beef ran => some (landCarried E bound mode policy tx beef ran)) tagged mode
    policy 0 w).2

variable {w : World Db}

theorem store_beforePhase3 {tx : Tx} (hsubject : transactionFromBeef tagged.beef (subjectTxidOf E tagged.beef) = .ok tx)
    (hacyclic : tagged.beef.Acyclic) (hlanded : ∀ body ∈ tagged.beef.bodies, body.id ≠ tx.id → ∀ t ∈ tagged.topics,
      ∃ i, w.state.store.held (⟨body.id, i⟩, t) = true) :
    (beforePhase3 E bound finalize tagged mode policy w).state.store = w.state.store := by
  obtain ⟨rank, hrank⟩ := hacyclic
  have hnext : ∀ body ∈ tagged.beef.bodies, rank body.id < rank tx.id → ∀ o ∈ body.spent, rank o.txid < rank tx.id :=
    fun body hb hr o ho => Nat.lt_trans (hrank body hb o ho) hr
  have kept : Ensures (fun d : Db => d.store = w.state.store) (prepare E bound finalize none
      (fun tx beef ran => some (landCarried E bound mode policy tx beef ran)) tagged mode policy 0) fun r => ∀ p, r = .ok p →
      Prepared (· = w.state.store) (fun c => rank c < rank tx.id) Found E tagged finalize p :=
    keeps_prepare (I := (· = w.state.store)) (fun tx' h => ?_) fun tx' _ => follows_found ..
  · exact (kept w trivial rfl).1.1
  · have htx : tx' = tx := Except.ok.inj (h.symm.trans hsubject)
    subst htx
    refine ⟨⟨hrank tx' (transactionFromBeef_mem hsubject), hnext⟩, fun t ht ran => keeps_landCarried hnext ?_ tx' ran⟩
    intro t' ht' body hb ⟨s, hs, hun⟩
    rw [List.mem_singleton.mp ht'] at hun
    have hne : body.id ≠ tx'.id := fun e => absurd hun.reached (by rw [e]; exact Nat.lt_irrefl _)
    obtain ⟨i, hi⟩ := hlanded body hb hne t ht
    rw [Store.held, ← hs, hun.absent i] at hi
    cases hi

theorem submitBounded_phase3 {p : Steak × MutationReport}
    (hok : (submitBounded E bound finalize tagged mode policy w).1 = .ok p) :
    ∃ vs sub couldNotRun rule, (prepare E bound finalize none (fun tx beef ran => some (landCarried E bound mode policy tx
        beef ran)) tagged mode policy 0 w).1 = .ok (vs, sub, couldNotRun, rule) ∧
      mutate E bound sub rule.waits vs (rule.steak, { walkCouldNotRun := couldNotRun, landedPredecessors := rule.landed
                                                      landedWalksCouldNotRun := rule.breaches })
        (beforePhase3 E bound finalize tagged mode policy w) =
          (p, (submitBounded E bound finalize tagged mode policy w).2) := by
  revert hok
  unfold beforePhase3 submitBounded submitCounted
  generalize hx : prepare E bound finalize none (fun tx beef ran => some (landCarried E bound mode policy tx beef ran))
    tagged mode policy 0 w = x
  obtain ⟨r, w1⟩ := x
  rw [bind_assoc, bind_run hx]
  match r with
  | .error e => exact fun hok => by cases hok
  | .ok (vs, sub, couldNotRun, rule) =>
    intro hok
    refine ⟨vs, sub, couldNotRun, rule, rfl, ?_⟩
    exact Prod.ext (Except.ok.inj hok) rfl

theorem undone_submitBounded {tx : Tx} {topic : Topic} {steak : Steak} {report : MutationReport}
    (hsubject : transactionFromBeef tagged.beef (subjectTxidOf E tagged.beef) = .ok tx) (htopics : tagged.topics.Nodup)
    (hok : (submitBounded E bound finalize tagged mode policy w).1 = .ok (steak, report)) :
    Undone (beforePhase3 E bound finalize tagged mode policy w).state.store tx topic report
      (submitBounded E bound finalize tagged mode policy w).2.state.store := by
  have prepared : Ensures (fun _ : Db => True) (prepare E bound finalize none
      (fun tx beef ran => some (landCarried E bound mode policy tx beef ran)) tagged mode policy 0) fun r =>
      ∀ p, r = .ok p → Prepared (fun _ => True) (fun _ => True) Sound E tagged finalize p := by
    refine keeps_prepare (I := fun _ => True) (fun tx' _ => ⟨along_true _ _, fun t _ ran => ?_⟩) fun tx' _ => follows_sound ..
    exact keeps_landCarried (fun _ _ _ _ _ => trivial) (fun t' _ body _ _ => (closed_true body t').phase) tx' ran
  obtain ⟨vs, sub, couldNotRun, rule, hr, hm⟩ := submitBounded_phase3 hok
  have hp := (prepared w trivial trivial).1.2 _ hr
  have hsub : sub.tx = tx := Except.ok.inj (hp.subject.symm.trans hsubject)
  subst hsub
  rw [← hp.topics] at htopics
  let report₀ : MutationReport := { walkCouldNotRun := couldNotRun, landedPredecessors := rule.landed
                                    landedWalksCouldNotRun := rule.breaches }
  have hnone : ¬ HasFault topic Site.inserts report₀ := by
    rintro ⟨f, hf, -⟩
    cases hf
  let start : World Db := beforePhase3 E bound finalize tagged mode policy w
  have phase : Triple (fun d : Db => SameTopic start.state.store topic d.store)
      (mutate E bound sub rule.waits vs (rule.steak, report₀)) fun p d => Undone start.state.store sub.tx topic p.2 d.store :=
    undone_mutate topic rule.waits vs _ htopics hp.judged hnone
  have ended := (phase start trivial (sameTopic_refl _ _)).1
  rw [hm] at ended
  exact ended

/-- The undo of a submit: in a topic whose insert or admission notification faulted and whose undo did not, Phase 3 leaves
what it started with, the marks of the coins the subject spends and its own untouched outputs apart. -/
theorem submitBounded_rolledBack {tx : Tx} {topic : Topic} {w : World Db} {steak : Steak} {report : MutationReport}
    (hsubject : transactionFromBeef tagged.beef (subjectTxidOf E tagged.beef) = .ok tx) (htopics : tagged.topics.Nodup)
    (hok : (submitBounded E bound finalize tagged mode policy w).1 = .ok (steak, report))
    (hfault : HasFault topic Site.inserts report) (hundo : ¬ HasFault topic (· = .undoInsertOutput) report) :
    RolledBack (beforePhase3 E bound finalize tagged mode policy w).state.store
      (submitBounded E bound finalize tagged mode policy w).2.state.store tx topic ∧
    (tagged.beef.Acyclic → (∀ body ∈ tagged.beef.bodies, body.id ≠ tx.id → ∀ t ∈ tagged.topics,
      ∃ i, w.state.store.held (⟨body.id, i⟩, t) = true) →
        (beforePhase3 E bound finalize tagged mode policy w).state.store = w.state.store) := by
  exact ⟨undone_submitBounded hsubject htopics hok hfault hundo, store_beforePhase3 hsubject⟩

end

/-! ## What the undo leaves -/

/-- The rows of `topic` are those of `s₀`, with their marks and links, and `tx` is not recorded anew. -/
structure Restored (s₀ s : Store) (tx : Tx) (topic : Topic) : Prop where
  rows : ∀ o, (s.find (o, topic)).map (fun row => (row.spent, row.consumedBy)) =
    (s₀.find (o, topic)).map fun row => (row.spent, row.consumedBy)
  applied : s.isApplied tx.id topic = s₀.isApplied tx.id topic

/-- A submit over `s₀` that undoes its inserts restores the topic. -/
def Restores (s₀ : Store) (tx : Tx) (topic : Topic) (run : Except EngineError (Steak × MutationReport) × World Db) : Prop :=
  ∀ steak report, run.1 = .ok (steak, report) → HasFault topic Site.inserts report →
    ¬ HasFault topic (· = .undoInsertOutput) report → Restored s₀ run.2.state.store tx topic

def undoneAt (topic : Topic) (report : MutationReport) : Bool :=
  (report.faults.any fun f => f.topic = topic ∧ f.site.inserts) &&
    !report.faults.any fun f => f.topic = topic ∧ f.site = .undoInsertOutput

variable {topic : Topic}

theorem hasFault_iff {C : Site → Prop} [DecidablePred C] {report : MutationReport} :
    HasFault topic C report ↔ (report.faults.any fun f => f.topic = topic ∧ C f.site) = true := by
  simp [HasFault]

theorem undone_of_any {result : Except EngineError (Steak × MutationReport)}
    (h : (result.toOption.any fun p => undoneAt topic p.2) = true) : ∃ steak report, result = .ok (steak, report) ∧
      HasFault topic Site.inserts report ∧ ¬ HasFault topic (· = .undoInsertOutput) report := by
  match result with
  | .error e => cases h
  | .ok (steak, report) =>
    have hundone : undoneAt topic report = true := h
    simp only [undoneAt, Bool.and_eq_true, Bool.not_eq_true'] at hundone
    refine ⟨steak, report, rfl, hasFault_iff.mpr hundone.1, fun hc => ?_⟩
    have hu := hasFault_iff.mp hc
    rw [hundone.2] at hu
    cases hu

theorem not_restores {s₀ : Store} {tx : Tx} {run : Except EngineError (Steak × MutationReport) × World Db}
    (o : Outpoint) (hundone : (run.1.toOption.any fun p => undoneAt topic p.2) = true)
    (hrow : (run.2.state.store.find (o, topic)).map (fun row => (row.spent, row.consumedBy)) ≠
      (s₀.find (o, topic)).map fun row => (row.spent, row.consumedBy)) : ¬ Restores s₀ tx topic run := by
  intro h
  obtain ⟨steak, report, hok, hi, hu⟩ := undone_of_any hundone
  exact hrow ((h steak report hok hi hu).rows o)

/-- The coin stays marked; an output held before is taken out; a predecessor
landed first stays; the second pass of a topic given twice inserts again. -/
theorem submitWithReport_not_restores :
    let marked := faultedSubmit [0] [] [spendsP] ["t"] [unspentRow "P"] 3
    let takenOut := faultedSubmit [0, 1] [] [spendsP] ["t"] [unspentRow "T"] 3
    let landedFirst := faultedSubmit [0] [firstOutput "B"] [bodyB "P" (by decide), spendsPB] ["t"] [unspentRow "P"] 18
    let topicTwice := faultedSubmit [0] [] [spendsP] ["t", "t"] [unspentRow "P"] 5
    ¬ Restores (storeOf [unspentRow "P"]) spendsP "t" marked ∧
    ¬ Restores (storeOf [unspentRow "T"]) spendsP "t" takenOut ∧
    ¬ Restores (storeOf [unspentRow "P"]) spendsPB "t" landedFirst ∧
    ¬ Restores (storeOf [unspentRow "P"]) spendsP "t" topicTwice := by
  refine ⟨?_, ?_, ?_, ?_⟩
  · exact not_restores (firstOutput "P") (by decide) (by decide)
  · exact not_restores (firstOutput "T") (by decide) (by decide)
  · exact not_restores (firstOutput "B") (by decide +kernel) (by decide +kernel)
  · exact not_restores (firstOutput "T") (by decide +kernel) (by decide +kernel)

theorem submitBounded_rolledBack_second_insert :
    let run := faultedSubmit [0, 1] [] [spendsP] ["t"] [unspentRow "P"] 4
    RolledBack (storeOf [unspentRow "P"]) run.2.state.store spendsP "t" ∧
      run.2.state.store.held (firstOutput "P", "t") = true ∧ run.2.state.store.held (firstOutput "T", "t") = false := by
  refine ⟨?_, by decide, by decide⟩
  have hundone : ((faultedSubmit [0, 1] [] [spendsP] ["t"] [unspentRow "P"] 4).1.toOption.any fun p => undoneAt "t" p.2) =
    true := by decide
  obtain ⟨steak, report, hok, hi, hu⟩ := undone_of_any hundone
  have hsubject : transactionFromBeef (taggedOf [spendsP] ["t"]).beef
      (subjectTxidOf (oneManager (retainsNone [0, 1] [])) (taggedOf [spendsP] ["t"]).beef) = .ok spendsP := by decide
  obtain ⟨rolled, start⟩ := submitBounded_rolledBack hsubject (by decide) hok hi hu
  rw [start ?_ ?_] at rolled
  · exact rolled
  · exact ⟨fun txid => if txid = "T" then 1 else 0, by decide⟩
  · intro body hb hne
    rw [show body = spendsP from List.mem_singleton.mp hb] at hne
    exact absurd rfl hne

end OverlayEngine
