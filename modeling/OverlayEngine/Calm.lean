import OverlayEngine.Landing
import OverlayEngine.Basis.Release

/-!
# Phase 3 without faults

With no fault every call of Phase 3 answers, so the phase is a function of the
store: `Store.phase3`. `Calm d₀ s x A s'` says that `x` takes the store from `s`
to `s'` and answers in `A`, whatever the lookup services were told.
-/

namespace OverlayEngine

open Faulty

/-! ## The phase as a function of the store -/

namespace Store

def markAll (topic : Topic) (coins : List Output) (s : Store) : Store :=
  coins.foldl (fun s coin => s.markUtxoAsSpent (coin.outpoint, topic)) s

def insertAll (sub : Subject) (topic : Topic) (consumed : List Outpoint) (now : Nat) (indices : List Nat) (s : Store) :
    Store := indices.foldl (fun s i => s.insertOutput (admittedOutput sub topic consumed i now)) s

def deleteConsumed (recur : Output → Store → Store) (o : Output) : List Outpoint → Store → Store
  | [], s => s
  | c :: rest, s =>
    match s.find (c, o.topic) with
    | some stale =>
      let kept := stale.consumedBy.filter (· ≠ o.outpoint)
      deleteConsumed recur o rest (recur { stale with consumedBy := kept } (s.updateConsumedBy (c, o.topic) kept))
    | none => deleteConsumed recur o rest s

def deleteDeep : Nat → Output → Store → Store
  | 0, _, s => s
  | fuel + 1, o, s => deleteConsumed (deleteDeep fuel) o o.outputsConsumed
      (if o.consumedBy.isEmpty then s.deleteOutput (o.outpoint, o.topic) else s)

def deleteFound (k : Key) (s : Store) : Store :=
  match s.find k with
  | some row => s.deleteDeep s.depth row
  | none => s

def deleteStale (topic : Topic) : List Output → Store → Store
  | [], s => s
  | stale :: rest, s => deleteStale topic rest ((s.insertApplied stale.txid topic).deleteFound (stale.outpoint, topic))

def linkConsumed (topic : Topic) (news : List Outpoint) : List Outpoint → Store → Store
  | [], s => s
  | c :: rest, s =>
    match s.find (c, topic) with
    | some o => linkConsumed topic news rest (s.updateConsumedBy (c, topic)
        (news.foldl (fun l u => if u ∈ l then l else l ++ [u]) o.consumedBy))
    | none => linkConsumed topic news rest s

end Store

/-- The outpoints of the outputs a manager admits of `tx`. -/
def TopicValidation.admitted (tx : Tx) (v : TopicValidation) : List Outpoint :=
  v.admittance.outputsToAdmit.map fun i => ⟨tx.id, i⟩

def TopicValidation.coins (v : TopicValidation) : List Output := (v.previousCoins.zip v.previousOutputs).map Prod.snd

def Store.phase3 (sub : Subject) (v : TopicValidation) (now : Nat) (s : Store) : Store :=
  let s := s.markAll v.topic v.coins
  let s := s.insertAll sub v.topic v.outputsConsumed now v.admittance.outputsToAdmit
  let s := s.deleteStale v.topic v.staleCoins
  let s := s.linkConsumed v.topic (v.admitted sub.tx) v.outputsConsumed
  s.insertApplied sub.tx.id v.topic

/-! ## Calm runs -/

structure Kept (d₀ d : Db) : Prop where
  now : d.now = d₀.now
  asks : d.asks = d₀.asks
  notLanded : ∀ x ∈ d.notLanded, x ∈ d₀.notLanded

section
local instance : Faults := noFaults

def Calm {α : Type} (d₀ : Db) (s : Store) (x : M α) (A : α → Prop) (s' : Store) : Prop :=
  Triple (fun d => d.store = s ∧ Kept d₀ d) x fun a d => A a ∧ d.store = s' ∧ Kept d₀ d

variable {α β : Type} {d₀ : Db} {s s1 s2 : Store} {bound : Bound}

theorem calm_pure {A : α → Prop} {a : α} (h : A a) : Calm d₀ s (pure a : M α) A s := triple_pure fun _ hd => ⟨h, hd⟩

theorem calm_bind {x : M α} {f : α → M β} {A : α → Prop} {B : β → Prop} (hx : Calm d₀ s x A s1)
    (hf : ∀ a, A a → Calm d₀ s1 (f a) B s2) : Calm d₀ s (x >>= f) B s2 := by
  refine triple_bind hx fun a => ?_
  exact triple_fact (fun _ h => h.1) fun ha => (hf a ha).conseq (fun _ h => h.2) fun _ _ h => h

theorem calm_store {effect : Store → Store} {answer : Db → α} {a : α} (ha : ∀ d, d.store = s → answer d = a) :
    Calm d₀ s (call bound (Db.onStore effect) answer) (· = .ok a) (effect s) := by
  refine calm_call fun d hd => ?_
  obtain ⟨rfl, hk⟩ := hd
  exact ⟨by rw [ha d rfl], rfl, hk.now, hk.asks, hk.notLanded⟩

theorem calm_findOutput (k : Key) : Calm d₀ s (findOutput bound k) (· = .ok (s.find k)) s := by
  refine calm_call fun d hd => ?_
  obtain ⟨rfl, hk⟩ := hd
  exact ⟨rfl, rfl, hk⟩

theorem calm_hooked (n : Notice) : Calm d₀ s (hooked bound n) (· = .ok ()) s :=
  calm_call fun _ hd => ⟨rfl, hd.1, hd.2.now, hd.2.asks, hd.2.notLanded⟩

theorem calm_forgetUnlanded (txid : Txid) (topic : Topic) : Calm d₀ s (forgetUnlanded txid topic) (fun _ => True) s :=
  triple_update fun _ hd => ⟨trivial, hd.1, hd.2.now, hd.2.asks, fun x hx => hd.2.notLanded x (List.mem_of_mem_filter hx)⟩

theorem calm_read (f : Db → α) {A : α → Prop} (h : ∀ d, d.store = s → Kept d₀ d → A (f d)) : Calm d₀ s (read f) A s :=
  triple_read fun d hd => ⟨h d hd.1 hd.2, hd⟩

theorem calm_isDue : Calm d₀ s (isDue bound) (fun _ => True) s := fun w _ hd => ⟨⟨trivial, hd⟩, Later.refl w⟩

variable {E : Engine} {sub : Subject} {topic : Topic}

theorem calm_noLongerRetained (o : Output) : ∀ l, Calm d₀ s (noLongerRetained bound o l) (fun _ => True) s
  | [] => calm_pure trivial
  | _ :: rest => calm_bind (calm_hooked _) fun _ _ => calm_noLongerRetained o rest

theorem calm_deleteConsumed {recur : Output → M (Except String Unit)} {f : Output → Store → Store}
    (hrec : ∀ o s, Calm d₀ s (recur o) (· = .ok ()) (f o s)) (o : Output) :
    ∀ l s, Calm d₀ s (deleteConsumed bound recur o l) (· = .ok ()) (s.deleteConsumed f o l)
  | [], _ => calm_pure rfl
  | c :: rest, s => by
    unfold deleteConsumed Store.deleteConsumed
    refine calm_bind (calm_findOutput _) fun a ha => ?_
    subst ha
    cases hf : s.find (c, o.topic) with
    | none => exact calm_deleteConsumed hrec o rest s
    | some stale =>
      refine calm_bind (calm_store fun _ _ => rfl) fun b hb => ?_
      subst hb
      exact calm_bind (hrec _ _) fun _ _ => calm_deleteConsumed hrec o rest _

theorem calm_deleteUtxoDeep : ∀ fuel o s, Calm d₀ s (deleteUtxoDeep E bound fuel o) (· = .ok ()) (s.deleteDeep fuel o)
  | 0, _, _ => calm_pure rfl
  | fuel + 1, o, s => by
    have loop : ∀ s, Calm d₀ s (deleteConsumed bound (deleteUtxoDeep E bound fuel) o o.outputsConsumed) (· = .ok ())
        (s.deleteConsumed (fun o s => s.deleteDeep fuel o) o o.outputsConsumed) :=
      calm_deleteConsumed (calm_deleteUtxoDeep fuel) o o.outputsConsumed
    unfold deleteUtxoDeep Store.deleteDeep
    split
    · refine calm_bind (calm_store fun _ _ => rfl) fun a ha => ?_
      subst ha
      exact calm_bind (calm_noLongerRetained o _) fun _ _ => loop _
    · exact loop _

theorem calm_notifySpent (coin : Output) (input : Nat) (r : MutationReport) :
    ∀ l, Calm d₀ s (notifySpent bound sub topic coin input r l) (· = (r, false)) s
  | [] => calm_pure rfl
  | _ :: rest => by
    refine calm_bind (calm_hooked _) fun a ha => ?_
    subst ha
    exact calm_notifySpent coin input r rest

theorem calm_markPrevious (retain : List Nat) (r : MutationReport) : ∀ ps s,
    Calm d₀ s (markPrevious E bound sub topic retain r ps) (· = (r, false, false)) (s.markAll topic (ps.map Prod.snd))
  | [], _ => calm_pure rfl
  | (input, coin) :: rest, s => by
    refine calm_bind (calm_store fun _ _ => rfl) fun a ha => ?_
    subst ha
    refine calm_bind (calm_notifySpent coin input r _) fun b hb => ?_
    subst hb
    refine calm_bind (calm_markPrevious retain r rest _) fun c hc => ?_
    subst hc
    exact calm_pure rfl

theorem calm_notifyAdmitted (index : Nat) : ∀ l, Calm d₀ s (notifyAdmitted bound sub topic index l) (· = .ok ()) s
  | [] => calm_pure rfl
  | _ :: rest => by
    refine calm_bind (calm_hooked _) fun a ha => ?_
    subst ha
    exact calm_notifyAdmitted index rest

theorem calm_insertAdmitted (consumed : List Outpoint) (r : MutationReport) : ∀ l s,
    Calm d₀ s (insertAdmitted E bound sub topic consumed r l) (· = (r, l, false)) (s.insertAll sub topic consumed d₀.now l)
  | [], _ => calm_pure rfl
  | index :: rest, s => by
    unfold insertAdmitted
    refine calm_bind (calm_read (A := (· = d₀.now)) Db.now fun d _ hk => hk.now) fun now hnow => ?_
    subst hnow
    refine calm_bind (calm_store fun _ _ => rfl) fun a ha => ?_
    subst ha
    refine calm_bind (calm_notifyAdmitted index _) fun b hb => ?_
    subst hb
    refine calm_bind (calm_insertAdmitted consumed r rest _) fun c hc => ?_
    subst hc
    exact calm_pure rfl

theorem calm_deleteStale (r : MutationReport) : ∀ l s,
    Calm d₀ s (deleteStale E bound topic r l) (fun a => a.1 = r ∧ a.2.1 = false) (s.deleteStale topic l)
  | [], _ => calm_pure ⟨rfl, rfl⟩
  | stale :: rest, s => by
    unfold deleteStale Store.deleteStale Store.deleteFound
    refine calm_bind (calm_store fun _ _ => rfl) fun a ha => ?_
    subst ha
    refine calm_bind (calm_forgetUnlanded _ _) fun _ _ => ?_
    refine calm_bind (calm_findOutput _) fun a ha => ?_
    subst ha
    cases hf : (s.insertApplied stale.txid topic).find (stale.outpoint, topic) with
    | none => exact calm_deleteStale r rest _
    | some row =>
      refine calm_bind (calm_read (A := (· = (s.insertApplied stale.txid topic).depth)) _ fun d hd _ => by rw [hd]) fun depth hdepth => ?_
      subst hdepth
      refine calm_bind (calm_deleteUtxoDeep _ row _) fun b hb => ?_
      subst hb
      refine calm_bind (calm_deleteStale r rest _) fun c hc => ?_
      exact calm_pure ⟨hc.1, hc.2⟩

theorem calm_linkConsumed (news : List Outpoint) (r : MutationReport) : ∀ l s,
    Calm d₀ s (linkConsumed bound topic news r l) (· = r) (s.linkConsumed topic news l)
  | [], _ => calm_pure rfl
  | c :: rest, s => by
    unfold linkConsumed Store.linkConsumed
    refine calm_bind (calm_findOutput _) fun a ha => ?_
    subst ha
    cases hf : s.find (c, topic) with
    | none => exact calm_linkConsumed news r rest s
    | some o =>
      refine calm_bind (calm_store fun _ _ => rfl) fun b hb => ?_
      subst hb
      exact calm_linkConsumed news r rest _

theorem calm_applyJudged (v : TopicValidation) (r : MutationReport) (s : Store) :
    Calm d₀ s (applyJudged E bound sub v r) (· = { r with appliedTopics := r.appliedTopics ++ [v.topic] })
      (s.phase3 sub v d₀.now) := by
  unfold applyJudged
  refine calm_bind (calm_markPrevious _ r _ s) fun a ha => ?_
  subst ha
  unfold insertAndRecord
  refine calm_bind (calm_insertAdmitted _ r _ _) fun a ha => ?_
  subst ha
  unfold deleteAndRecord
  refine calm_bind calm_isDue fun _ _ => ?_
  refine calm_bind (calm_deleteStale r _ _) fun a ha => ?_
  obtain ⟨r', faulted, started⟩ := a
  obtain ⟨rfl, rfl⟩ := ha
  unfold linkAndRecord
  refine calm_bind (calm_linkConsumed _ _ _ _) fun a ha => ?_
  subst ha
  simp only [Nat.lt_irrefl, if_false]
  refine calm_bind (calm_store fun _ _ => rfl) fun b hb => ?_
  subst hb
  exact calm_bind (calm_forgetUnlanded _ _) fun _ _ => calm_pure rfl

end

end OverlayEngine
