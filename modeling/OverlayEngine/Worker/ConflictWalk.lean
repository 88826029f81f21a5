import Mathlib.Data.List.Rotate
import OverlayEngine.Basis.AsciiCase
import OverlayEngine.Worker.ArcadeReorg
import OverlayEngine.Worker.Reverify

/-!
# The walk for a confirmed conflict

A live pot's transaction is asked about input by input: a courier names the
outpoint's spender, another serves its raw bytes, and a third says at what height
it is mined. The walk begins at an input that the clock picks.
-/

namespace OverlayEngine.ConflictWalk

open ArcadeReorg (eqIgnoreAsciiCase)
open Reverify (lowercase)

structure Input where
  sourceTxid : Option String
  sourceOutputIndex : Nat

structure Transaction where
  id : String
  inputs : List Input

structure Sdk where
  fromBinary : List Nat → Except String Transaction
  fromHex : String → Except String Transaction

inductive NetworkPresence where
  | present (height : Option Nat)
  | absent
  | inconclusive

structure Couriers where
  resolveSpender : String → Nat → Except String (Option String)
  spenderBindingRaw : String → String → Nat → Except String (Option String)
  presence : String → Option NetworkPresence

structure ReleasedSpend where
  table : String
  txid : String
  vout : Nat

inductive ConflictEvictOutcome where
  | evicted
  | yielded
  deriving DecidableEq

inductive Call where
  | recordConflictSpender (outpointTxid : String) (vout : Nat) (evicted competitor : String)
  | evictConflict (txid reason : String) (nowMs : Nat) (repointed : List ReleasedSpend)

structure ConflictEviction where
  recordConflictSpender : String → Nat → String → String → Except String Bool
  evictConflict : String → String → Nat → List ReleasedSpend → Except String ConflictEvictOutcome

def conflictEvictionReason (parent : String) (vout : Nat) (competitor : String) (height : Nat) : String :=
  "input " ++ parent ++ ":" ++ toString vout ++ " spent by confirmed competitor " ++ competitor ++ " at " ++ toString height

abbrev Turn := Input × Couriers

/-- `cycle`, `skip` and `take`: every input once, from the one the clock picks by a `usize` of `width` bits. -/
def rotated (width nowMs : Nat) (turns : List Turn) : List Turn := turns.rotate (nowMs % 2 ^ width % max turns.length 1)

section
variable (sdk : Sdk)

def txConsumesOutpoint (rawHex txid : String) (vout : Nat) : Except String Bool :=
  match sdk.fromHex rawHex with
  | .error e => .error ("spender parse: " ++ e)
  | .ok tx => .ok (tx.inputs.any fun i => i.sourceOutputIndex == vout && i.sourceTxid.any fun t => eqIgnoreAsciiCase t (lowercase txid))

structure Conflict where
  parent : String
  vout : Nat
  competitor : String
  height : Nat

inductive Look where
  | pass
  | fault (e : String)
  | stop (e : String)
  | conflict (c : Conflict)

def look (txid : String) (turn : Turn) : Look :=
  match turn.1.sourceTxid with
  | none => .pass
  | some parent =>
    match turn.2.resolveSpender parent turn.1.sourceOutputIndex with
    | .ok none => .pass
    | .error e => .fault e
    | .ok (some competitor) =>
      if eqIgnoreAsciiCase competitor txid then .pass
      else
        match turn.2.spenderBindingRaw competitor parent turn.1.sourceOutputIndex with
        | .ok none => .pass
        | .error e => .fault e
        | .ok (some boundRaw) =>
          match sdk.fromHex boundRaw with
          | .error e => .stop e
          | .ok bound =>
            if !eqIgnoreAsciiCase bound.id competitor then .pass
            else
              match txConsumesOutpoint sdk boundRaw parent turn.1.sourceOutputIndex with
              | .error e => .stop e
              | .ok false => .pass
              | .ok true =>
                match turn.2.presence competitor with
                | some (.present (some height)) =>
                  if height = 0 then .pass else .conflict ⟨parent, turn.1.sourceOutputIndex, competitor, height⟩
                | _ => .pass

variable (store : ConflictEviction) (txid : String) (nowMs : Nat)

def converge (c : Conflict) : List Call × Except String Bool :=
  let record := Call.recordConflictSpender c.parent c.vout txid c.competitor
  match store.recordConflictSpender c.parent c.vout txid c.competitor with
  | .error e => ([record], .error e)
  | .ok moved =>
    let repointed := if moved then [⟨"pot_records", lowercase c.parent, c.vout⟩] else []
    let reason := conflictEvictionReason c.parent c.vout c.competitor c.height
    let evict := Call.evictConflict txid reason nowMs repointed
    match store.evictConflict txid reason nowMs repointed with
    | .error e => ([record, evict], .error e)
    | .ok outcome => ([record, evict], .ok (decide (outcome = .evicted)))

def walk : Option String → List Turn → List Call × Except String Bool
  | fault, [] => ([], fault.elim (.ok false) .error)
  | fault, turn :: rest =>
    match look sdk txid turn with
    | .pass => walk fault rest
    | .fault e => walk (some e) rest
    | .stop e => ([], .error e)
    | .conflict c => converge store txid nowMs c

def turnsOf (subject : Transaction) (couriers : Nat → Couriers) : List Turn := subject.inputs.zipIdx.map fun p => (p.1, couriers p.2)

/-- `converge_confirmed_conflict`: the calls it makes and what it answers; `couriers` are those of each input's turn. -/
def convergeConfirmedConflict (width : Nat) (couriers : Nat → Couriers) (raw : List Nat) : List Call × Except String Bool :=
  match sdk.fromBinary raw with
  | .error e => ([], .error e)
  | .ok subject =>
    if !eqIgnoreAsciiCase subject.id txid then ([], .error "subject raw txid mismatch")
    else walk sdk store txid nowMs none (rotated width nowMs (turnsOf subject couriers))

/-! ## What the couriers' answers say of an input -/

def Named (txid : String) (turn : Turn) (parent competitor : String) : Prop :=
  turn.1.sourceTxid = some parent ∧ turn.2.resolveSpender parent turn.1.sourceOutputIndex = .ok (some competitor) ∧ eqIgnoreAsciiCase competitor txid = false

def Served (txid : String) (turn : Turn) (parent competitor boundRaw : String) : Prop :=
  Named txid turn parent competitor ∧ turn.2.spenderBindingRaw competitor parent turn.1.sourceOutputIndex = .ok (some boundRaw)

def Conflicts (turn : Turn) (c : Conflict) : Prop :=
  turn.1.sourceOutputIndex = c.vout ∧ ∃ boundRaw bound, Served txid turn c.parent c.competitor boundRaw ∧ sdk.fromHex boundRaw = .ok bound ∧
    eqIgnoreAsciiCase bound.id c.competitor = true ∧
    (bound.inputs.any fun i => i.sourceOutputIndex == c.vout && i.sourceTxid.any fun t => eqIgnoreAsciiCase t (lowercase c.parent)) = true ∧
    turn.2.presence c.competitor = some (.present (some c.height)) ∧ 0 < c.height

def Garbled (turn : Turn) : Prop := ∃ parent competitor boundRaw e, Served txid turn parent competitor boundRaw ∧ sdk.fromHex boundRaw = .error e

def Faults (txid : String) (turn : Turn) : Prop :=
  (∃ parent e, turn.1.sourceTxid = some parent ∧ turn.2.resolveSpender parent turn.1.sourceOutputIndex = .error e) ∨
    ∃ parent competitor e, Named txid turn parent competitor ∧ turn.2.spenderBindingRaw competitor parent turn.1.sourceOutputIndex = .error e

variable {sdk txid} {turn : Turn} {parent competitor boundRaw : String} {bound : Transaction} {c : Conflict}

theorem Named.unique {p k : String} (h : Named txid turn parent competitor) (h' : Named txid turn p k) : parent = p ∧ competitor = k := by
  obtain ⟨hsource, hspender, -⟩ := h
  obtain ⟨hsource', hspender', -⟩ := h'
  rw [hsource, Option.some.injEq] at hsource'
  subst hsource'
  rw [hspender, Except.ok.injEq, Option.some.injEq] at hspender'
  exact ⟨rfl, hspender'⟩

theorem Served.unique {p k b : String} (h : Served txid turn parent competitor boundRaw) (h' : Served txid turn p k b) : parent = p ∧ competitor = k ∧ boundRaw = b := by
  obtain ⟨hnamed, hraw⟩ := h
  obtain ⟨hnamed', hraw'⟩ := h'
  obtain ⟨rfl, rfl⟩ := hnamed.unique hnamed'
  rw [hraw, Except.ok.injEq, Option.some.injEq] at hraw'
  exact ⟨rfl, rfl, hraw'⟩

theorem unnamed (hsource : turn.1.sourceTxid = some parent)
    (h : ∀ k, turn.2.resolveSpender parent turn.1.sourceOutputIndex = .ok (some k) → eqIgnoreAsciiCase k txid = true) (p k : String) : ¬ Named txid turn p k := by
  rintro ⟨hsource', hspender, hother⟩
  rw [hsource, Option.some.injEq] at hsource'
  subst hsource'
  rw [h k hspender] at hother
  cases hother

def Passes (sdk : Sdk) (txid : String) (turn : Turn) : Prop := ¬ Garbled sdk txid turn ∧ ∀ c, ¬ Conflicts sdk txid turn c

theorem unserved (h : ∀ p k b, ¬ Served txid turn p k b) : Passes sdk txid turn :=
  ⟨fun ⟨p, k, b, _, hserved, _⟩ => h p k b hserved, fun c ⟨_, b, _, hserved, _⟩ => h c.parent c.competitor b hserved⟩

theorem quiet (hsource : turn.1.sourceTxid = some parent) (hspender : ∀ e, turn.2.resolveSpender parent turn.1.sourceOutputIndex ≠ .error e)
    (hraw : ∀ p k e, Named txid turn p k → turn.2.spenderBindingRaw k p turn.1.sourceOutputIndex ≠ .error e) : ¬ Faults txid turn := by
  rintro (⟨p, e, hsource', he⟩ | ⟨p, k, e, hnamed, he⟩)
  · rw [hsource, Option.some.injEq] at hsource'
    subst hsource'
    exact hspender e he
  · exact hraw p k e hnamed he

theorem not_garbled (h : Served txid turn parent competitor boundRaw) (hbound : sdk.fromHex boundRaw = .ok bound) : ¬ Garbled sdk txid turn := by
  rintro ⟨p, k, b, e, hserved, he⟩
  obtain ⟨-, -, rfl⟩ := h.unique hserved
  rw [hbound] at he
  cases he

def consumes (bound : Transaction) (parent : String) (vout : Nat) : Bool :=
  bound.inputs.any fun i => i.sourceOutputIndex == vout && i.sourceTxid.any fun t => eqIgnoreAsciiCase t (lowercase parent)

theorem conflicts_iff (h : Served txid turn parent competitor boundRaw) (hbound : sdk.fromHex boundRaw = .ok bound) :
    Conflicts sdk txid turn c ↔ c.parent = parent ∧ c.vout = turn.1.sourceOutputIndex ∧ c.competitor = competitor ∧
      eqIgnoreAsciiCase bound.id competitor = true ∧ consumes bound parent turn.1.sourceOutputIndex = true ∧
      turn.2.presence competitor = some (.present (some c.height)) ∧ 0 < c.height := by
  constructor
  · rintro ⟨hvout, b, bound', hserved, hb, hid, hconsumes, hpresent, hheight⟩
    obtain ⟨rfl, rfl, rfl⟩ := h.unique hserved
    rw [hbound, Except.ok.injEq] at hb
    subst hb
    exact ⟨rfl, hvout.symm, rfl, hid, hvout ▸ hconsumes, hpresent, hheight⟩
  · rintro ⟨rfl, hvout, rfl, hid, hconsumes, hpresent, hheight⟩
    exact ⟨hvout.symm, boundRaw, bound, h, hbound, hid, hvout ▸ hconsumes, hpresent, hheight⟩

inductive Comes (sdk : Sdk) (txid : String) (turn : Turn) : Look → Prop
  | pass (quiet : ¬ Faults txid turn) (read : ¬ Garbled sdk txid turn) (none : ∀ c, ¬ Conflicts sdk txid turn c) : Comes sdk txid turn .pass
  | fault (e : String) (faults : Faults txid turn) (read : ¬ Garbled sdk txid turn) (none : ∀ c, ¬ Conflicts sdk txid turn c) : Comes sdk txid turn (.fault e)
  | stop (e : String) (garbled : Garbled sdk txid turn) (none : ∀ c, ¬ Conflicts sdk txid turn c) : Comes sdk txid turn (.stop e)
  | conflict (c : Conflict) (conflicts : Conflicts sdk txid turn c) : Comes sdk txid turn (.conflict c)

theorem comes (sdk : Sdk) (txid : String) (turn : Turn) : Comes sdk txid turn (look sdk txid turn) := by
  rw [look]
  split
  · rename_i hsource
    have hserved (p k b : String) : ¬ Served txid turn p k b := by simp [Served, Named, hsource]
    exact .pass (by simp [Faults, Named, hsource]) (unserved hserved).1 (unserved hserved).2
  rename_i parent hsource
  split
  · rename_i hspender
    have hnamed : ∀ p k, ¬ Named txid turn p k := unnamed hsource fun k hk => by rw [hspender] at hk; cases hk
    have hserved : Passes sdk txid turn := unserved fun p k b h => hnamed p k h.1
    exact .pass (quiet hsource (fun e he => by rw [hspender] at he; cases he) fun p k e h => absurd h (hnamed p k)) hserved.1 hserved.2
  · rename_i e hspender
    have hnamed : ∀ p k, ¬ Named txid turn p k := unnamed hsource fun k hk => by rw [hspender] at hk; cases hk
    have hserved : Passes sdk txid turn := unserved fun p k b h => hnamed p k h.1
    exact .fault e (.inl ⟨parent, e, hsource, hspender⟩) hserved.1 hserved.2
  rename_i competitor hspender
  have hasked (e : String) : turn.2.resolveSpender parent turn.1.sourceOutputIndex ≠ .error e := fun he => by rw [hspender] at he; cases he
  split
  · rename_i hself
    have hnamed : ∀ p k, ¬ Named txid turn p k := unnamed hsource fun k hk => by
      rw [hspender, Except.ok.injEq, Option.some.injEq] at hk
      exact hk ▸ hself
    have hserved : Passes sdk txid turn := unserved fun p k b h => hnamed p k h.1
    exact .pass (quiet hsource hasked fun p k e h => absurd h (hnamed p k)) hserved.1 hserved.2
  rename_i hother
  have hnamed : Named txid turn parent competitor := ⟨hsource, hspender, by simpa using hother⟩
  have hserves {answer : Except String (Option String)} (hraw : turn.2.spenderBindingRaw competitor parent turn.1.sourceOutputIndex = answer)
      (h : ∀ b, answer ≠ .ok (some b)) (p k b : String) : ¬ Served txid turn p k b := by
    rintro ⟨hnamed', hraw'⟩
    obtain ⟨rfl, rfl⟩ := hnamed.unique hnamed'
    exact h b (hraw.symm.trans hraw')
  have hquiet {answer : Option String} (hraw : turn.2.spenderBindingRaw competitor parent turn.1.sourceOutputIndex = .ok answer) : ¬ Faults txid turn :=
    quiet hsource hasked fun p k e h he => by
      obtain ⟨rfl, rfl⟩ := hnamed.unique h
      rw [hraw] at he
      cases he
  split
  · rename_i hraw
    have hserved : Passes sdk txid turn := unserved (hserves hraw (by simp))
    exact .pass (hquiet hraw) hserved.1 hserved.2
  · rename_i e hraw
    have hserved : Passes sdk txid turn := unserved (hserves hraw (by simp))
    exact .fault e (.inr ⟨parent, competitor, e, hnamed, hraw⟩) hserved.1 hserved.2
  rename_i boundRaw hraw
  have hserved : Served txid turn parent competitor boundRaw := ⟨hnamed, hraw⟩
  split
  · rename_i e hbound
    refine .stop e ⟨parent, competitor, boundRaw, e, hserved, hbound⟩ fun c hc => ?_
    obtain ⟨-, b, bound, hserved', hb, -⟩ := hc
    obtain ⟨-, -, rfl⟩ := hserved.unique hserved'
    rw [hbound] at hb
    cases hb
  rename_i bound hbound
  have hpass (h : ∀ c, ¬ Conflicts sdk txid turn c) : Comes sdk txid turn .pass := .pass (hquiet hraw) (not_garbled hserved hbound) h
  have hconsumes : txConsumesOutpoint sdk boundRaw parent turn.1.sourceOutputIndex = .ok (consumes bound parent turn.1.sourceOutputIndex) := by
    rw [txConsumesOutpoint, hbound]
    rfl
  split
  · rename_i hid
    exact hpass fun c hc => by simp [((conflicts_iff hserved hbound).mp hc).2.2.2.1] at hid
  rename_i hid
  rw [hconsumes]
  cases hspends : consumes bound parent turn.1.sourceOutputIndex with
  | false => exact hpass fun c hc => by simp [((conflicts_iff hserved hbound).mp hc).2.2.2.2.1] at hspends
  | true =>
    simp only
    split
    · rename_i height hpresent
      split
      · rename_i hzero
        refine hpass fun c hc => ?_
        obtain ⟨-, -, -, -, -, hpresent', hheight⟩ := (conflicts_iff hserved hbound).mp hc
        rw [hpresent] at hpresent'
        simp only [Option.some.injEq, NetworkPresence.present.injEq] at hpresent'
        omega
      · rename_i hheight
        exact .conflict _ ((conflicts_iff hserved hbound).mpr ⟨rfl, rfl, rfl, by simpa using hid, hspends, hpresent, Nat.pos_of_ne_zero hheight⟩)
    · rename_i hpresent
      exact hpass fun c hc => hpresent c.height ((conflicts_iff hserved hbound).mp hc).2.2.2.2.2.1

/-! ## The whole walk -/

variable {store : ConflictEviction} {nowMs : Nat} {turns : List Turn}

theorem walk_passes (store : ConflictEviction) (nowMs : Nat) (fault : Option String) (rest : List Turn) (h : ∀ t ∈ turns, Passes sdk txid t) :
    ∃ fault', walk sdk store txid nowMs fault (turns ++ rest) = walk sdk store txid nowMs fault' rest ∧
      (fault'.isSome = true ↔ fault.isSome = true ∨ ∃ t ∈ turns, Faults txid t) := by
  induction turns generalizing fault with
  | nil => exact ⟨fault, rfl, by simp⟩
  | cons t turns ih =>
    obtain ⟨hread, hnone⟩ := h t List.mem_cons_self
    have hrest : ∀ t ∈ turns, Passes sdk txid t := fun s hs => h s (List.mem_cons_of_mem t hs)
    have hcomes := comes sdk txid t
    rw [List.cons_append, walk]
    cases hlook : look sdk txid t with
    | pass =>
      obtain ⟨fault', hwalk, hfault⟩ := ih fault hrest
      rw [hlook] at hcomes
      cases hcomes with
      | pass hquiet => exact ⟨fault', hwalk, by simp [hfault, hquiet]⟩
    | fault e =>
      obtain ⟨fault', hwalk, hfault⟩ := ih (some e) hrest
      rw [hlook] at hcomes
      cases hcomes with
      | fault _ hfaults => exact ⟨fault', hwalk, by simp [hfault, hfaults]⟩
    | stop e =>
      rw [hlook] at hcomes
      cases hcomes with
      | stop _ hgarbled => exact absurd hgarbled hread
    | conflict c =>
      rw [hlook] at hcomes
      cases hcomes with
      | conflict _ hconflicts => exact absurd hconflicts (hnone c)

theorem first_end (sdk : Sdk) (txid : String) (turns : List Turn) : (∀ t ∈ turns, Passes sdk txid t) ∨
    ∃ front t back, turns = front ++ t :: back ∧ (∀ s ∈ front, Passes sdk txid s) ∧ ¬ Passes sdk txid t := by
  induction turns with
  | nil => exact .inl nofun
  | cons t turns ih =>
    by_cases ht : Passes sdk txid t
    · rcases ih with hall | ⟨front, s, back, rfl, hfront, hs⟩
      · exact .inl (List.forall_mem_cons.mpr ⟨ht, hall⟩)
      · exact .inr ⟨t :: front, s, back, rfl, List.forall_mem_cons.mpr ⟨ht, hfront⟩, hs⟩
    · exact .inr ⟨[], t, turns, rfl, nofun, ht⟩

structure ConflictEviction.Answers (store : ConflictEviction) : Prop where
  record : ∀ outpoint vout evicted competitor, ∃ moved, store.recordConflictSpender outpoint vout evicted competitor = .ok moved
  evict : ∀ txid reason nowMs repointed, ∃ outcome, store.evictConflict txid reason nowMs repointed = .ok outcome

def Evicts (store : ConflictEviction) (txid : String) (nowMs : Nat) (c : Conflict) (run : List Call × Except String Bool) : Prop :=
  ∃ repointed outcome, Call.evictConflict txid (conflictEvictionReason c.parent c.vout c.competitor c.height) nowMs repointed ∈ run.1 ∧
    store.evictConflict txid (conflictEvictionReason c.parent c.vout c.competitor c.height) nowMs repointed = .ok outcome ∧
    run.2 = .ok (decide (outcome = .evicted))

theorem converge_evicts (h : store.Answers) (c : Conflict) : Evicts store txid nowMs c (converge store txid nowMs c) := by
  obtain ⟨moved, hmoved⟩ := h.record c.parent c.vout txid c.competitor
  obtain ⟨outcome, houtcome⟩ := h.evict txid (conflictEvictionReason c.parent c.vout c.competitor c.height) nowMs
    (if moved = true then [⟨"pot_records", lowercase c.parent, c.vout⟩] else [])
  refine ⟨_, outcome, ?_, houtcome, ?_⟩ <;> simp [converge, hmoved, houtcome]

structure Converges (sdk : Sdk) (store : ConflictEviction) (txid : String) (nowMs : Nat) (turns : List Turn) (run : List Call × Except String Bool) : Prop where
  evicts : (∃ t ∈ turns, ∃ c, Conflicts sdk txid t c) → ∃ t ∈ turns, ∃ c, Conflicts sdk txid t c ∧ Evicts store txid nowMs c run
  keeps : (¬ ∃ t ∈ turns, ∃ c, Conflicts sdk txid t c) → run.1 = []
  errs : (∃ e, run.2 = .error e) ↔ (¬ ∃ t ∈ turns, ∃ c, Conflicts sdk txid t c) ∧ ∃ t ∈ turns, Faults txid t

def Unhidden (sdk : Sdk) (txid : String) (order : List Turn) : Prop :=
  (∃ front t back, order = front ++ t :: back ∧ (∃ c, Conflicts sdk txid t c) ∧ ∀ s ∈ front, ¬ Garbled sdk txid s) ∨
    (¬ ∃ t ∈ order, ∃ c, Conflicts sdk txid t c) ∧ ((∃ t ∈ order, Garbled sdk txid t) → ∃ t ∈ order, Faults txid t)

theorem garbled_first {front back front' back' : List Turn} {t t' : Turn} (hfront : ∀ s ∈ front, Passes sdk txid s)
    (hsplit : front ++ t :: back = front' ++ t' :: back') (hc : Conflicts sdk txid t' c) (hne : t ≠ t') (h : ∀ s ∈ front', ¬ Garbled sdk txid s) :
    ¬ Garbled sdk txid t := by
  rcases List.append_eq_append_iff.mp hsplit with ⟨between, rfl, hrest⟩ | ⟨between, rfl, hrest⟩
  · cases between with
    | nil => exact absurd (List.cons.inj hrest).1 hne
    | cons s between =>
      rw [List.cons_append] at hrest
      obtain ⟨rfl, -⟩ := List.cons.inj hrest
      exact h t (List.mem_append_right front List.mem_cons_self)
  · cases between with
    | nil => exact absurd (List.cons.inj hrest).1.symm hne
    | cons s between =>
      rw [List.cons_append] at hrest
      obtain ⟨rfl, -⟩ := List.cons.inj hrest
      exact absurd hc ((hfront t' (List.mem_append_right front' List.mem_cons_self)).2 c)

theorem walk_converges_iff (h : store.Answers) (turns : List Turn) :
    Converges sdk store txid nowMs turns (walk sdk store txid nowMs none turns) ↔ Unhidden sdk txid turns := by
  rcases first_end sdk txid turns with hall | ⟨front, t, back, rfl, hfront, hends⟩
  · have hnone : ¬ ∃ t ∈ turns, ∃ c, Conflicts sdk txid t c := fun ⟨t, ht, c, hc⟩ => (hall t ht).2 c hc
    obtain ⟨fault, hwalk, hfault⟩ := walk_passes store nowMs none [] hall
    rw [List.append_nil, walk] at hwalk
    rw [hwalk]
    refine iff_of_true ⟨fun hsome => absurd hsome hnone, fun _ => rfl, ?_⟩ (.inr ⟨hnone, fun ⟨t, ht, hgarbled⟩ => absurd hgarbled (hall t ht).1⟩)
    cases fault <;> simp_all
  · obtain ⟨fault, hwalk, -⟩ := walk_passes store nowMs none (t :: back) hfront
    have hcomes := comes sdk txid t
    rw [hwalk, walk]
    cases hlook : look sdk txid t with
    | pass =>
      rw [hlook] at hcomes
      cases hcomes with
      | pass _ hread hnone => exact absurd ⟨hread, hnone⟩ hends
    | fault e =>
      rw [hlook] at hcomes
      cases hcomes with
      | fault _ _ hread hnone => exact absurd ⟨hread, hnone⟩ hends
    | conflict c =>
      rw [hlook] at hcomes
      cases hcomes with
      | conflict _ hc =>
        have hmem : t ∈ front ++ t :: back := List.mem_append_right front List.mem_cons_self
        refine iff_of_true ⟨fun _ => ⟨t, hmem, c, hc, converge_evicts h c⟩, fun hnone => absurd ⟨t, hmem, c, hc⟩ hnone, ?_⟩
          (.inl ⟨front, t, back, rfl, ⟨c, hc⟩, fun s hs => (hfront s hs).1⟩)
        have hevicts : Evicts store txid nowMs c (converge store txid nowMs c) := converge_evicts h c
        obtain ⟨-, outcome, -, -, hok⟩ := hevicts
        refine iff_of_false (fun ⟨e, he⟩ => ?_) fun hnone => hnone.1 ⟨t, hmem, c, hc⟩
        rw [hok] at he
        cases he
    | stop e =>
      rw [hlook] at hcomes
      cases hcomes with
      | stop _ hgarbled hnone =>
        have hmem : t ∈ front ++ t :: back := List.mem_append_right front List.mem_cons_self
        constructor
        · rintro ⟨hevicts, -, herrs⟩
          obtain ⟨hquiet, hfaults⟩ := herrs.mp ⟨e, rfl⟩
          exact .inr ⟨hquiet, fun _ => hfaults⟩
        · rintro (⟨front', t', back', hsplit, ⟨c, hc⟩, hread⟩ | ⟨hquiet, hfaults⟩)
          · exact absurd hgarbled (garbled_first hfront hsplit hc (fun hsame => hnone c (hsame ▸ hc)) hread)
          · exact ⟨fun hsome => absurd hsome hquiet, fun _ => rfl, iff_of_true ⟨e, rfl⟩ ⟨hquiet, hfaults ⟨t, hmem, hgarbled⟩⟩⟩

theorem converges_congr {order : List Turn} {run : List Call × Except String Bool} (h : ∀ t, t ∈ order ↔ t ∈ turns) :
    Converges sdk store txid nowMs order run ↔ Converges sdk store txid nowMs turns run := by
  have hany (p : Turn → Prop) : (∃ t ∈ order, p t) ↔ ∃ t ∈ turns, p t := exists_congr fun t => and_congr_left fun _ => h t
  constructor
  · rintro ⟨hevicts, hkeeps, herrs⟩
    simp only [hany] at hevicts hkeeps herrs
    exact ⟨hevicts, hkeeps, herrs⟩
  · rintro ⟨hevicts, hkeeps, herrs⟩
    simp only [← hany] at hevicts hkeeps herrs
    exact ⟨hevicts, hkeeps, herrs⟩

/-- The walk over a transaction's inputs comes to what it is to come to just where no unreadable raw text hides a conflict. -/
theorem no_input_hidden {subject : Transaction} {raw : List Nat} (hraw : sdk.fromBinary raw = .ok subject)
    (hid : eqIgnoreAsciiCase subject.id txid = true) (hstore : store.Answers) (width : Nat) (couriers : Nat → Couriers) :
    Converges sdk store txid nowMs (turnsOf subject couriers) (convergeConfirmedConflict sdk store txid nowMs width couriers raw) ↔
      Unhidden sdk txid (rotated width nowMs (turnsOf subject couriers)) := by
  have hrun : convergeConfirmedConflict sdk store txid nowMs width couriers raw =
      walk sdk store txid nowMs none (rotated width nowMs (turnsOf subject couriers)) := by
    simp [convergeConfirmedConflict, hraw, hid]
  have hmem (t : Turn) : t ∈ rotated width nowMs (turnsOf subject couriers) ↔ t ∈ turnsOf subject couriers := List.mem_rotate
  rw [hrun, ← walk_converges_iff hstore, converges_congr hmem]

end

/-! ## A transaction of two inputs -/

namespace Scene

def a : String := "aaaaaaaaaaaaaaaaaaaaaaaaaaaaaaaaaaaaaaaaaaaaaaaaaaaaaaaaaaaaaaaa"
def b : String := "bbbbbbbbbbbbbbbbbbbbbbbbbbbbbbbbbbbbbbbbbbbbbbbbbbbbbbbbbbbbbbbb"

def subject : Transaction := ⟨"63f602c74d3dd2f8a7d0d089426002d4c29e369ee4e5c879b5a19e31f5c635b9", [⟨some a, 0⟩, ⟨some b, 1⟩]⟩

def subjectRaw : List Nat := [1, 0, 0, 0, 2] ++ List.replicate 32 170 ++ [0, 0, 0, 0, 0, 255, 255, 255, 255] ++ List.replicate 32 187 ++
  [1, 0, 0, 0, 0, 255, 255, 255, 255, 1, 1, 0, 0, 0, 0, 0, 0, 0, 1, 81, 0, 0, 0, 0]

def competitor : Transaction := ⟨"a0b0fd7869f193f841792ed254e80edbb85fe96e9c62053996eaa5ee789a59a3", [⟨some b, 1⟩]⟩

def competitorHex : String := "0200000001" ++ b ++ "0100000000ffffffff010100000000000000015100000000"

def sdk : Sdk where
  fromBinary raw := if raw = subjectRaw then .ok subject else .error "not the subject"
  fromHex text := if text = competitorHex then .ok competitor else .error "invalid hex"

def couriers : Nat → Couriers
  | 0 => { resolveSpender := fun _ _ => .ok (some a), spenderBindingRaw := fun _ _ _ => .ok (some "zz"), presence := fun _ => none }
  | _ => { resolveSpender := fun _ _ => .ok (some competitor.id), spenderBindingRaw := fun _ _ _ => .ok (some competitorHex)
           presence := fun _ => some (.present (some 970710)) }

def store : ConflictEviction := ⟨fun _ _ _ _ => .ok true, fun _ _ _ _ => .ok .evicted⟩

def conflict : Conflict := ⟨b, 1, competitor.id, 970710⟩

theorem same_refl (s : String) : eqIgnoreAsciiCase s s = true := by simp [eqIgnoreAsciiCase]

theorem same_lowercase (s : String) : eqIgnoreAsciiCase s (lowercase s) = true := by
  rw [eqIgnoreAsciiCase, lowercase, String.toList_ofList, AsciiCase.map_toLower_idem, beq_self_eq_true]

theorem differ_of_head {s t : String} (c d : Char) (s' t' : String) (hs : s = String.ofList [c] ++ s') (ht : t = String.ofList [d] ++ t')
    (hcd : c.toLower ≠ d.toLower) : eqIgnoreAsciiCase s t = false := by
  rw [eqIgnoreAsciiCase, beq_eq_false_iff_ne, hs, ht]
  simp only [String.toList_append, String.toList_ofList, List.singleton_append, List.map_cons]
  intro heq
  exact hcd (List.cons.inj heq).1

theorem heads : subject.id = String.ofList ['6'] ++ "3f602c74d3dd2f8a7d0d089426002d4c29e369ee4e5c879b5a19e31f5c635b9" ∧
    a = String.ofList ['a'] ++ "aaaaaaaaaaaaaaaaaaaaaaaaaaaaaaaaaaaaaaaaaaaaaaaaaaaaaaaaaaaaaaa" ∧
    competitor.id = String.ofList ['a'] ++ "0b0fd7869f193f841792ed254e80edbb85fe96e9c62053996eaa5ee789a59a3" := by decide

theorem a_differs : eqIgnoreAsciiCase a subject.id = false := differ_of_head 'a' '6' _ _ heads.2.1 heads.1 (by decide)

theorem competitor_differs : eqIgnoreAsciiCase competitor.id subject.id = false := differ_of_head 'a' '6' _ _ heads.2.2 heads.1 (by decide)

theorem second_conflicts : Conflicts sdk subject.id (⟨some b, 1⟩, couriers 1) conflict :=
  ⟨rfl, competitorHex, competitor, ⟨⟨rfl, rfl, competitor_differs⟩, rfl⟩, by simp [sdk], same_refl _,
    by rw [show competitor.inputs = [⟨some b, 1⟩] from rfl, List.any_cons, Option.any_some, show conflict.parent = b from rfl, same_lowercase]; rfl,
    rfl, by decide⟩

end Scene

theorem evicted_from_second : Converges Scene.sdk Scene.store Scene.subject.id 1 (turnsOf Scene.subject Scene.couriers)
    (convergeConfirmedConflict Scene.sdk Scene.store Scene.subject.id 1 32 Scene.couriers Scene.subjectRaw) :=
  (no_input_hidden (by simp [Scene.sdk]) (Scene.same_refl _) ⟨fun _ _ _ _ => ⟨_, rfl⟩, fun _ _ _ _ => ⟨_, rfl⟩⟩ 32 Scene.couriers).mpr
    (.inl ⟨[], _, _, rfl, ⟨_, Scene.second_conflicts⟩, nofun⟩)

/-- From the first it ends at the text that does not read. -/
theorem hidden_from_first :
    convergeConfirmedConflict Scene.sdk Scene.store Scene.subject.id 0 32 Scene.couriers Scene.subjectRaw = ([], .error "invalid hex") ∧
      ¬ Converges Scene.sdk Scene.store Scene.subject.id 0 (turnsOf Scene.subject Scene.couriers)
        (convergeConfirmedConflict Scene.sdk Scene.store Scene.subject.id 0 32 Scene.couriers Scene.subjectRaw) := by
  have hrun : convergeConfirmedConflict Scene.sdk Scene.store Scene.subject.id 0 32 Scene.couriers Scene.subjectRaw = ([], .error "invalid hex") := by
    have hraw : Scene.sdk.fromBinary Scene.subjectRaw = .ok Scene.subject := by simp [Scene.sdk]
    have hlook : look Scene.sdk Scene.subject.id (⟨some Scene.a, 0⟩, Scene.couriers 0) = .stop "invalid hex" := by
      have hzz : "zz" ≠ Scene.competitorHex := by decide
      simp [look, Scene.couriers, Scene.a_differs, Scene.sdk, hzz]
    have hturns : rotated 32 0 (turnsOf Scene.subject Scene.couriers) =
        [(⟨some Scene.a, 0⟩, Scene.couriers 0), (⟨some Scene.b, 1⟩, Scene.couriers 1)] := rfl
    rw [convergeConfirmedConflict, hraw]
    simp only [Scene.same_refl, Bool.not_true, Bool.false_eq_true, if_false, hturns, walk, hlook]
  refine ⟨hrun, fun h => ?_⟩
  obtain ⟨t, -, c, -, repointed, outcome, hcall, -⟩ := h.evicts ⟨_, by simp [turnsOf, Scene.subject], _, Scene.second_conflicts⟩
  rw [hrun] at hcall
  cases hcall

end OverlayEngine.ConflictWalk
