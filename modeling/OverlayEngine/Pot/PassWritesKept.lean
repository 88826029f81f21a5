import OverlayEngine.Pot.PassWrites
import OverlayEngine.Pot.SpendProven
import OverlayEngine.Basis.Runs

/-!
# Which writes of a maintenance pass find their row as it was read

A pass reads the pointer of a row once. Its guarded statements name that pointer,
so a turn carries the pair until the statement; the discovery's `mark_spent` and
the upsert of the decoded columns name none.
-/

namespace OverlayEngine.Pot.PassWrites

open SpendProof (Sdk Ask AskStage Outcome Candidate Discover DiscoverStage Confirm ConfirmStage)

section
variable {μ : Type} {x : Sdk μ} {tracked : Bool} {k : Reader} {s : SpendProof.Store}

/-! ## A turn lands its own statement and no other -/

theorem ask_rows (a : Ask) (env : SpendProof.Env) : (a.step x tracked env s).1.rows = s.rows := by
  unfold Ask.step
  cases a.stage with
  | start =>
    simp only [Ask.begin]
    cases (s.fetchers a.fetcher).memoOf a.key with
    | some m => rfl
    | none =>
      simp only
      split
      · rfl
      · split <;> rfl
  | rungs left unminedWord =>
    cases left with
    | nil => rfl
    | cons rung left =>
      simp only [Ask.look]
      split
      · rfl
      · cases env.rung with
        | nothing => rfl
        | unmined =>
          simp only
          split
          · split <;> rfl
          · rfl
        | bump hex =>
          simp only
          cases SpendProof.rungStep (x.verifyBumpOutcome tracked hex a.key env.answer).1 <;> rfl

theorem discover_bound_rows (d : Discover) (c : Candidate) (spender : Txid) (env : SpendProof.Env) (refused fault : DiscoverStage) :
    (d.bound x c spender env s refused fault).1.rows = s.rows := by
  unfold Discover.bound
  simp only
  split <;> rfl

theorem discover_next_rows (d : Discover) (env : SpendProof.Env) : (d.next x env s).1.rows = s.rows := by
  unfold Discover.next
  cases d.todo with
  | nil => rfl
  | cons c rest =>
    simp only
    split
    · rfl
    · split
      · rfl
      · split <;> rfl

theorem discover_rows (d : Discover) (env : SpendProof.Env) : (d.step x env s).1.rows = (land s env (discoverWrite d env)).rows := by
  unfold Discover.step discoverWrite
  cases d.stage with
  | next => exact discover_next_rows d env
  | hops c join left =>
    cases left with
    | nil => rfl
    | cons h left =>
      simp only
      split
      · rfl
      · split <;> rfl
  | hint c =>
    simp only
    split <;> rfl
  | script c cands =>
    cases cands with
    | nil => rfl
    | cons cand cands => exact discover_bound_rows d c cand env _ _
  | bind c spender => exact discover_bound_rows d c spender env _ _
  | _ => rfl

theorem confirm_rows (p : Confirm) (env : SpendProof.Env) : (p.step x tracked env s).1.rows = (land s env (confirmWrite x p env)).rows := by
  unfold Confirm.step confirmWrite
  cases p.stage with
  | chase =>
    cases p.todo with
    | nil => rfl
    | cons c rest =>
      simp only
      split <;> rfl
  | asking c spender ask =>
    have hask : (ask.step x tracked env s).1.rows = s.rows := ask_rows ask env
    simp only
    split <;> rename_i h <;> rw [h] at hask <;> exact hask
  | hint =>
    cases p.displaceCandidates with
    | nil => rfl
    | cons c rest =>
      simp only
      split
      · split <;> rfl
      · rfl
  | bind c recorded actual =>
    simp only
    split <;> rfl
  | askingActual c recorded actual tx ask =>
    have hask : (ask.step x tracked env s).1.rows = s.rows := ask_rows ask env
    simp only
    split <;> rename_i h <;> rw [h] at hask <;> exact hask
  | classify c spender after =>
    simp only [land]
    cases env.verdict <;> rfl
  | _ => rfl

variable {env : SpendProof.Env}

theorem land_faulted (h : env.faulted = true) (a : Option Write) : land s env a = s := by
  cases a <;> simp [land, SpendProof.Store.tryExec, h]

theorem pass_rows (p : Pass) (env : Env) : (p.step x tracked k env s).1.rows = (land s env.toEnv (p.write x env)).rows := by
  unfold Pass.write
  by_cases hf : env.faulted = true
  · have hleft : (p.step x tracked k env s).1.rows = s.rows := by
      cases p with
      | discover d => exact (discover_rows d env.toEnv).trans (by rw [land_faulted hf])
      | confirm p => exact (confirm_rows p env.toEnv).trans (by rw [land_faulted hf])
      | backfill b => exact congrArg SpendProof.Store.rows (land_faulted hf b.write)
    rw [hleft, if_pos hf, land]
  · rw [if_neg hf]
    cases p with
    | discover d => exact discover_rows d env.toEnv
    | confirm p => exact confirm_rows p env.toEnv
    | backfill b => rfl

/-! ## The spender a turn carries is the one read -/

def Call.guard : Call → Option Txid
  | .markVerdictForSpender t _ => some t
  | .displaceSpendFor t _ _ _ => some t
  | .markConfirmedForSpender t _ => some t
  | .storeSpenderPayouts t _ _ => some t
  | _ => none

def ConfirmStage.Reads : ConfirmStage → Prop
  | .asking c spender _ => c.spendingTxid = some spender
  | .confirm c spender _ => c.spendingTxid = some spender
  | .bind c recorded _ => c.spendingTxid = some recorded
  | .askingActual c recorded _ _ _ => c.spendingTxid = some recorded
  | .displace c recorded _ _ _ => c.spendingTxid = some recorded
  | .classify c spender after => after = false → c.spendingTxid = some spender
  | _ => True

def BackfillStage.Reads : BackfillStage → Prop
  | .judge row _ spender => row.spendingTxid = some spender
  | .latch _ row call => ∃ spender, row.spendingTxid = some spender ∧ Call.guard call = some spender
  | _ => True

def Pass.Sound : Pass → Prop
  | .discover _ => True
  | .confirm p => ConfirmStage.Reads p.stage
  | .backfill b => BackfillStage.Reads b.stage

variable {now : Nat}

theorem update_guard {r : Row} {c : Call} {t : Txid} (hg : Call.guard c = some t) (hu : (r.update now c).isSome = true) :
    r.spendingTxid = some t := by
  cases c with
  | markVerdictForSpender t' v =>
    obtain rfl := Option.some.inj hg
    simp only [Row.update, Row.markVerdictForSpender] at hu
    by_cases hp : r.spendingTxid = some t'
    · exact hp
    · simp [hp] at hu
  | displaceSpendFor t' y height final =>
    obtain rfl := Option.some.inj hg
    simp only [Row.update, Row.displaceSpendFor] at hu
    by_cases hp : r.spendingTxid = some t' ∧ r.spentConfirmed = false
    · exact hp.1
    · simp [hp] at hu
  | markConfirmedForSpender t' height =>
    obtain rfl := Option.some.inj hg
    simp only [Row.update, Row.markConfirmedForSpender] at hu
    by_cases hp : r.spendingTxid = some t'
    · exact hp
    · simp [hp] at hu
  | storeSpenderPayouts t' a b =>
    obtain rfl := Option.some.inj hg
    simp only [Row.update, Row.storeSpenderPayouts] at hu
    by_cases hp : r.spendingTxid = some t'
    · exact hp
    · simp [hp] at hu
  | _ => simp [Call.guard] at hg

theorem confirm_reads {p : Confirm} (h : ConfirmStage.Reads p.stage) (env : SpendProof.Env) : ConfirmStage.Reads (p.step x tracked env s).2.stage := by
  unfold Confirm.step
  cases hstage : p.stage with
  | scan => trivial
  | chase =>
    cases p.todo with
    | nil => trivial
    | cons c rest =>
      cases hc : c.spendingTxid with
      | none => simp only [hc]; trivial
      | some spender => simp only [hc]; exact hc
  | asking c spender ask =>
    rw [hstage] at h
    simp only
    split
    · exact h
    · exact h
    · trivial
    · trivial
  | confirm c spender hex =>
    rw [hstage] at h
    simp only
    split
    · exact fun _ => h
    · trivial
  | hint =>
    cases p.displaceCandidates with
    | nil => trivial
    | cons c rest =>
      simp only
      split
      · rename_i hc _
        split
        · trivial
        · exact hc
      · trivial
  | bind c recorded actual =>
    rw [hstage] at h
    simp only
    split
    · exact h
    · trivial
  | askingActual c recorded actual tx ask =>
    rw [hstage] at h
    simp only
    split
    · exact h
    · exact h
    · trivial
  | displace c recorded actual tx hex =>
    simp only
    split
    · exact fun hafter => nomatch hafter
    · trivial
  | classify c spender after =>
    simp only [Confirm.goto]
    cases after <;> trivial
  | finished =>
    simp only
    rw [hstage]
    trivial

theorem examine_reads (set : Candidates) (row : PotRecord) (env : Env) : BackfillStage.Reads (Backfill.examine k set row env) := by
  cases set with
  | undecoded =>
    simp only [Backfill.examine]
    split <;> trivial
  | unclassified =>
    simp only [Backfill.examine]
    split
    · rename_i spender hspender
      split
      · exact ⟨spender, hspender, rfl⟩
      · trivial
    · trivial
  | signers =>
    simp only [Backfill.examine]
    split
    · rename_i spender _ hspender
      split
      · exact ⟨spender, hspender, rfl⟩
      · trivial
    · trivial
  | payouts =>
    simp only [Backfill.examine]
    split
    · rename_i spender hspender
      split
      · split
        · trivial
        · exact ⟨spender, hspender, rfl⟩
      · trivial
    · trivial

theorem backfill_reads {b : Backfill} (h : BackfillStage.Reads b.stage) (env : Env) : BackfillStage.Reads (b.step k env s).2.stage := by
  simp only [Backfill.step, Backfill.goto]
  cases hstage : b.stage with
  | scan set =>
    simp only
    split <;> trivial
  | next set =>
    cases b.todo with
    | nil =>
      simp only
      split <;> trivial
    | cons row rest => exact examine_reads set row env
  | store row decoded covenant =>
    simp only [Backfill.afterStore]
    split
    · rename_i spender hspender
      split
      · exact hspender
      · trivial
    · trivial
  | judge row decoded spender =>
    rw [hstage] at h
    simp only
    split
    · exact ⟨spender, h, rfl⟩
    · trivial
  | latch set row call => trivial
  | finished =>
    simp only
    rw [hstage]
    trivial

theorem pass_sound {p : Pass} (h : p.Sound) (env : Env) : (p.step x tracked k env s).2.Sound := by
  cases p with
  | discover d => trivial
  | confirm p => exact confirm_reads h env.toEnv
  | backfill b => exact backfill_reads h env

theorem sound_fresh {p : Pass} (h : p.Fresh) : p.Sound := by
  cases h <;> trivial

/-! ## One statement -/

def Call.ofSpend : Call → Bool
  | .storeRecord _ _ => false
  | .storeSpenderFacts _ _ => false
  | _ => true

structure OnlyRead (before after : SpendProof.Store) (write : Option (Write × Nat)) : Prop where
  made : ∀ o, before.rows o = none → after.rows o = none
  own : ∀ o, after.rows o ≠ before.rows o → ∃ a now, write = some (a, now) ∧ a.outpoint = o ∧ after.rows o = exec (before.rows o) now a.call
  pointed : ∀ a now r, write = some (a, now) → Call.ofSpend a.call = true → before.rows a.outpoint = some r →
    (r.update now a.call).isSome = true → r.spendingTxid = a.read

/-- The row is as the two unguarded statements need it: without an unconfirmed pointer at a `mark_spent`, there at an upsert. -/
def Write.Meets (a : Write) (row : Option Row) : Prop :=
  match a.call with
  | .markSpent _ _ _ _ _ => ∀ r, row = some r → r.spendingTxid = none ∨ r.spentConfirmed = true
  | .storeRecord _ _ => row.isSome = true
  | _ => True

inductive Known : Write → Prop
  | unpointed (o : Outpoint) (t : Txid) (final : Option Bool) : Known ⟨o, none, .markSpentIfUnpointed t final⟩
  | discovered (o : Outpoint) (t : Txid) (verdict : Option VerdictWrite) : Known ⟨o, none, .markSpent t false verdict none none⟩
  | guarded (o : Outpoint) (t : Txid) (c : Call) (hg : Call.guard c = some t) : Known ⟨o, some t, c⟩
  | upsert (o : Outpoint) (read : Option Txid) (record : PotRecord) : Known ⟨o, read, .storeRecord record true⟩

variable {a : Write}

theorem discover_known {d : Discover} (h : discoverWrite d env = some a) : Known a := by
  unfold discoverWrite at h
  cases hstage : d.stage with
  | hop c join o left =>
    rw [hstage] at h
    obtain rfl := Option.some.inj h
    exact .unpointed ..
  | write c spender =>
    rw [hstage] at h
    obtain rfl := Option.some.inj h
    exact .discovered ..
  | _ => simp [hstage] at h

theorem confirm_known {p : Confirm} (hr : ConfirmStage.Reads p.stage) (h : confirmWrite x p env = some a) :
    Known a := by
  unfold confirmWrite at h
  cases hstage : p.stage with
  | confirm c spender hex =>
    rw [hstage] at h hr
    obtain rfl := Option.some.inj h
    rw [show c.spendingTxid = some spender from hr]
    exact .guarded _ _ _ rfl
  | displace c recorded actual tx hex =>
    rw [hstage] at h hr
    obtain rfl := Option.some.inj h
    rw [show c.spendingTxid = some recorded from hr]
    exact .guarded _ _ _ rfl
  | classify c spender after =>
    rw [hstage] at h hr
    obtain ⟨v, -, rfl⟩ := Option.map_eq_some_iff.mp h
    cases after with
    | true => exact .guarded _ _ _ rfl
    | false =>
      rw [if_neg (by simp), show c.spendingTxid = some spender from hr rfl]
      exact .guarded _ _ _ rfl
  | _ => simp [hstage] at h

theorem backfill_known {b : Backfill} (hr : BackfillStage.Reads b.stage) (h : b.write = some a) : Known a := by
  unfold Backfill.write at h
  cases hstage : b.stage with
  | store row decoded covenant =>
    rw [hstage] at h
    obtain rfl := Option.some.inj h
    exact .upsert ..
  | latch set row call =>
    rw [hstage] at h hr
    obtain rfl := Option.some.inj h
    obtain ⟨spender, hread, hguard⟩ := hr
    rw [hread]
    exact .guarded _ _ _ hguard
  | _ => simp [hstage] at h

theorem pass_known {p : Pass} (hs : p.Sound) {env : Env} (h : p.write x env = some a) : Known a := by
  unfold Pass.write at h
  by_cases hf : env.faulted = true
  · simp [hf] at h
  · rw [if_neg hf] at h
    cases p with
    | discover d => exact discover_known h
    | confirm p => exact confirm_known hs h
    | backfill b => exact backfill_known hs h

theorem exec_absent {c : Call} (h : ∀ record fills, c ≠ .storeRecord record fills) : exec none now c = none := by
  cases c with
  | storeRecord record fills => exact absurd rfl (h record fills)
  | _ => rfl

theorem rows_exec (s : SpendProof.Store) (o : Outpoint) (now : Nat) (c : Call) (o' : Outpoint) :
    (s.exec o now c).rows o' = if o' = o then exec (s.rows o) now c else s.rows o' := by
  simp only [SpendProof.Store.exec, Function.update_apply]

variable {before after : SpendProof.Store}

theorem onlyRead_of (hrows : after.rows = (before.exec a.outpoint now a.call).rows)
    (hmade : before.rows a.outpoint = none → exec none now a.call = none)
    (hpointed : Call.ofSpend a.call = true → ∀ r, before.rows a.outpoint = some r → (r.update now a.call).isSome = true → r.spendingTxid = a.read) :
    OnlyRead before after (some (a, now)) where
  made o ho := by
    rw [hrows, rows_exec]
    by_cases h : o = a.outpoint
    · subst h
      rw [if_pos rfl, ho]
      exact hmade ho
    · rw [if_neg h]
      exact ho
  own o ho := by
    rw [hrows, rows_exec] at ho ⊢
    by_cases h : o = a.outpoint
    · subst h
      exact ⟨a, now, rfl, rfl, if_pos rfl⟩
    · rw [if_neg h] at ho
      exact absurd rfl ho
  pointed a' now' r ha hs hr hu := by
    obtain ⟨rfl, rfl⟩ := Prod.mk.inj (Option.some.inj ha)
    exact hpointed hs r hr hu

theorem onlyRead_none (hrows : after.rows = before.rows) : OnlyRead before after none where
  made o ho := by rw [hrows]; exact ho
  own o ho := absurd (congrFun hrows o) ho
  pointed _ _ _ ha := nomatch ha

theorem markSpent_hits {r : Row} {t : Txid} {verdict : Option VerdictWrite} :
    (r.update now (.markSpent t false verdict none none)).isSome = true ↔ r.spentConfirmed = false := by
  simp only [Row.update, Row.markSpent, Bool.false_eq_true, if_false]
  cases r.spentConfirmed <;> simp

theorem onlyRead_iff (hk : Known a) (hrows : after.rows = (before.exec a.outpoint now a.call).rows) :
    OnlyRead before after (some (a, now)) ↔ a.Meets (before.rows a.outpoint) := by
  cases hk with
  | unpointed o t final =>
    refine iff_of_true (onlyRead_of hrows (fun _ => rfl) fun _ r _ hu => ?_) trivial
    simp only [Row.update, Row.markSpentIfUnpointed] at hu
    by_cases hp : r.spent = false ∧ r.spendingTxid = none ∧ r.spentConfirmed = false
    · exact hp.2.1
    · simp [hp] at hu
  | discovered o t verdict =>
    constructor
    · intro h r hr
      by_cases hc : r.spentConfirmed = true
      · exact .inr hc
      · exact .inl (h.pointed _ _ r rfl rfl hr (markSpent_hits.mpr (Bool.not_eq_true _ ▸ hc)))
    · intro h
      refine onlyRead_of hrows (fun _ => rfl) fun _ r hr hu => ?_
      rcases h r hr with hp | hc
      · exact hp
      · rw [markSpent_hits.mp hu] at hc
        exact nomatch hc
  | guarded o t c hg =>
    have hc : ∀ record fills, c ≠ .storeRecord record fills := fun record fills he => by subst he; simp [Call.guard] at hg
    refine iff_of_true (onlyRead_of hrows (fun _ => exec_absent hc) fun _ r _ hu => update_guard hg hu) ?_
    cases c <;> trivial
  | upsert o read record =>
    constructor
    · intro h
      by_contra hnone
      have hrow : before.rows o = none := by simpa [Write.Meets] using hnone
      have hmade := h.made o hrow
      rw [hrows, rows_exec, if_pos rfl, hrow] at hmade
      simp [exec] at hmade
    · intro h
      refine onlyRead_of hrows (fun hnone => ?_) fun hs => nomatch hs
      rw [show before.rows o = none from hnone] at h
      exact nomatch h

/-! ## Every run -/

def World.Sound (w : World) : Prop := ∀ p ∈ w.passes, p.Sound

def World.Kept (x : Sdk μ) (tracked : Bool) (k : Reader) (w : World) (m : Move) : Prop :=
  ∀ i env, m = .turn i env → OnlyRead w.store (w.step x tracked k m).store (w.writing x m)

def World.Meets (x : Sdk μ) (w : World) (m : Move) : Prop := ∀ a now, w.writing x m = some (a, now) → a.Meets (w.store.rows a.outpoint)

theorem sound_step {w : World} (h : w.Sound) (m : Move) : (w.step x tracked k m).Sound := by
  cases m with
  | begin p fresh =>
    intro q hq
    rcases List.mem_append.mp hq with hq | hq
    · exact h q hq
    · rw [List.mem_singleton.mp hq]
      exact sound_fresh fresh
  | turn i env =>
    simp only [World.step]
    split
    · rename_i p hp
      intro q hq
      rcases List.mem_or_eq_of_mem_set hq with hq | rfl
      · exact h q hq
      · exact pass_sound (h p (List.mem_of_getElem? hp)) env
    · exact h
  | _ => exact h

theorem kept_iff {w : World} (h : w.Sound) (m : Move) : w.Kept x tracked k m ↔ w.Meets x m := by
  cases m with
  | turn i env =>
    simp only [World.Kept, World.Meets, Move.turn.injEq]
    cases hp : w.passes[i]? with
    | none =>
      have hw : w.writing x (.turn i env) = none := by simp [World.writing, hp]
      have hs : (w.step x tracked k (.turn i env)).store.rows = w.store.rows := by simp [World.step, hp]
      rw [hw]
      exact iff_of_true (fun _ _ _ => onlyRead_none hs) fun _ _ ha => nomatch ha
    | some p =>
      have hs : (w.step x tracked k (.turn i env)).store.rows = (land w.store env.toEnv (p.write x env)).rows := by
        simp only [World.step, hp]
        exact pass_rows p env
      have hsound := h p (List.mem_of_getElem? hp)
      cases hw : p.write x env with
      | none =>
        have hn : w.writing x (.turn i env) = none := by simp [World.writing, hp, hw]
        rw [hn]
        exact iff_of_true (fun _ _ _ => onlyRead_none (by rw [hs, hw]; rfl)) fun _ _ ha => nomatch ha
      | some a =>
        have ha : w.writing x (.turn i env) = some (a, env.now) := by simp [World.writing, hp, hw]
        have hnf : env.faulted = false := by
          by_contra hf
          simp [Pass.write, hf] at hw
        have hrows : (w.step x tracked k (.turn i env)).store.rows = (w.store.exec a.outpoint env.now a.call).rows := by
          rw [hs, hw]
          simp [land, SpendProof.Store.tryExec, hnf]
        rw [ha]
        constructor
        · intro hkept b now hb
          obtain ⟨rfl, rfl⟩ := Prod.mk.inj (Option.some.inj hb)
          exact (onlyRead_iff (pass_known hsound hw) hrows).mp (hkept i env ⟨rfl, rfl⟩)
        · intro hmeets _ _ _
          exact (onlyRead_iff (pass_known hsound hw) hrows).mpr (hmeets a env.now rfl)
  | _ => exact iff_of_true (fun _ _ he => nomatch he) fun _ _ ha => nomatch ha

end

/-- In every run from any rows, every statement of every maintenance pass finds its row there, with the pointer the pass read, exactly if
no discovery's `mark_spent` comes to an unconfirmed pointer and no upsert of decoded columns to a row moved out. -/
theorem passes_write_what_they_read {μ : Type} (x : Sdk μ) (tracked : Bool) (k : Reader) (rows : Outpoint → Option Row) (twins : Outpoint → List Row)
    (moves : List Move) :
    Runs.Along (World.step x tracked k) (World.Kept x tracked k) { store := { rows }, twins } moves ↔
      Runs.Along (World.step x tracked k) (fun w m => w.Meets x m) { store := { rows }, twins } moves :=
  Runs.along_iff (fun _ m h => sound_step h m) (fun _ m h => kept_iff h m) (fun _ hp => absurd hp List.not_mem_nil) moves

/-! A submission's spend lands while a discovery asks the couriers. -/

section

open SpendProof (pot oneBump)

def noCovenant : Reader where
  extractCovenantParams _ := none
  isPotCovenantScript _ := false
  isBare2of3Lock _ := false
  isP2pkhScript _ := false
  hexEncode _ := ""
  hexDecode _ := none
  p2pkhLock _ := []
  classifyCovenant _ _ _ := none
  settleSignersForSpend _ _ _ _ := none

def openRow : Row := { txid := "aa", outputIndex := 0, createdAt := 1 }

def opened : World := { store := { rows := fun o => if o = pot then some openRow else none } }

def asked : List Move :=
  [.courier 0 { budget := 3 }, .begin (.discover { fetcher := 0 }) (.discover 0), .turn 0 { picked := [pot] }, .turn 0 {}, .turn 0 { hint := some (some "5e") },
    .turn 0 { bodies := [.raw "raw"] }, .statement pot 4 (.markSpent "c1" false none none (some true))]

theorem discovery_replaces_pointer :
    ¬ Runs.Along (World.step oneBump true noCovenant) (World.Kept oneBump true noCovenant) opened (asked ++ [.turn 0 { now := 5 }]) ∧
      ((World.run oneBump true noCovenant opened (asked ++ [.turn 0 { now := 5 }])).store.rows pot).bind (fun r => r.spendingTxid) = some "5e" := by
  constructor
  · intro h
    have hlast := (Runs.along_append.mp h).2.1
    exact absurd ((hlast 0 _ rfl).pointed ⟨pot, none, .markSpent "5e" false none none none⟩ 5
      { openRow with spent := true, spendingTxid := some "c1", spenderFinal := some true, spentAt := some 4, firstSpentAt := some 4 }
      (by decide) rfl (by decide) (by decide)) (by decide)
  · decide

end

end OverlayEngine.Pot.PassWrites
