import Mathlib.Data.List.Rotate
import OverlayEngine.Basis.AsciiCase
import OverlayEngine.Pot.SpendProof

/-!
# A confirmed pointer was proven

Behind every pointer stand bytes that hash to the spender and consume the
outpoint; behind every confirmed one stands the header source's word for a BUMP of
the spender at the row's height.
-/

namespace OverlayEngine.Pot.SpendProof

open ArcadeReorg (eqIgnoreAsciiCase)
open Reverify (lowercase)

/-! ## Letter case -/

variable {hex a b : String}

theorem eqIgnore_iff : eqIgnoreAsciiCase a b = true ↔ a.toList.map Char.toLower = b.toList.map Char.toLower := by
  simp [eqIgnoreAsciiCase]

theorem eqIgnore_refl (a : String) : eqIgnoreAsciiCase a a = true := eqIgnore_iff.mpr rfl

theorem eqIgnore_symm (h : eqIgnoreAsciiCase a b = true) : eqIgnoreAsciiCase b a = true := eqIgnore_iff.mpr (eqIgnore_iff.mp h).symm

theorem eqIgnore_trans {c : String} (h : eqIgnoreAsciiCase a b = true) (h' : eqIgnoreAsciiCase b c = true) : eqIgnoreAsciiCase a c = true :=
  eqIgnore_iff.mpr ((eqIgnore_iff.mp h).trans (eqIgnore_iff.mp h'))

theorem eqIgnore_lowercase (a : String) : eqIgnoreAsciiCase (lowercase a) a = true := by
  rw [eqIgnore_iff, lowercase, String.toList_ofList, AsciiCase.map_toLower_idem]

/-! ## What the log proves -/

variable {μ : Type} (x : Sdk μ)

def Proven (log : List Event) (spender : Txid) (height : Nat) : Prop :=
  ∃ bump leaf root, eqIgnoreAsciiCase leaf spender = true ∧ x.computeRoot bump leaf = some root ∧ x.blockHeight bump = height ∧
    .answered height root (.ok true) ∈ log

def ProvenHex (log : List Event) (spender : Txid) (hex : String) : Prop :=
  ∃ bump leaf root, x.merklePathFromHex hex = some bump ∧ eqIgnoreAsciiCase leaf spender = true ∧ x.computeRoot bump leaf = some root ∧
    .answered (x.blockHeight bump) root (.ok true) ∈ log

def Bound (log : List Event) (spender : Txid) (o : Outpoint) : Prop :=
  ∃ tx, .held tx ∈ log ∧ eqIgnoreAsciiCase tx.id spender = true ∧ tx.consumes o = true

section
variable {x} {log log' : List Event} {spender : Txid} {o : Outpoint}

theorem Proven.mono {h : Nat} (hp : Proven x log spender h) (hl : log ⊆ log') : Proven x log' spender h := by
  obtain ⟨bump, leaf, root, hleaf, hroot, hheight, hin⟩ := hp
  exact ⟨bump, leaf, root, hleaf, hroot, hheight, hl hin⟩

theorem ProvenHex.mono (hp : ProvenHex x log spender hex) (hl : log ⊆ log') : ProvenHex x log' spender hex := by
  obtain ⟨bump, leaf, root, hparse, hleaf, hroot, hin⟩ := hp
  exact ⟨bump, leaf, root, hparse, hleaf, hroot, hl hin⟩

theorem Bound.mono (hb : Bound log spender o) (hl : log ⊆ log') : Bound log' spender o := by
  obtain ⟨tx, hin, hid, hc⟩ := hb
  exact ⟨tx, hl hin, hid, hc⟩

theorem ProvenHex.of_eqIgnore {key : Txid} (hp : ProvenHex x log key hex) (h : eqIgnoreAsciiCase key spender = true) :
    ProvenHex x log spender hex := by
  obtain ⟨bump, leaf, root, hparse, hleaf, hroot, hin⟩ := hp
  exact ⟨bump, leaf, root, hparse, eqIgnore_trans hleaf h, hroot, hin⟩

theorem ProvenHex.height (hp : ProvenHex x log spender hex) : ∃ h, Confirm.spentHeight x hex = some h ∧ Proven x log spender h := by
  obtain ⟨bump, leaf, root, hparse, hleaf, hroot, hin⟩ := hp
  refine ⟨x.blockHeight bump, ?_, bump, leaf, root, hleaf, hroot, rfl, hin⟩
  rw [Confirm.spentHeight, hparse, Option.map_some]

theorem proven_of_accepted {bump : μ} {leaf : Txid} (hleaf : eqIgnoreAsciiCase leaf spender = true) (h : accepted x log bump leaf = true) :
    Proven x log spender (x.blockHeight bump) := by
  rw [accepted, Option.any_eq_true] at h
  obtain ⟨root, hroot, hin⟩ := h
  exact ⟨bump, leaf, root, hleaf, hroot, rfl, of_decide_eq_true hin⟩

end

/-! ## The readers of proofs and bytes -/

section
variable {x} {tracked : Bool} {spender txid : Txid}

theorem spendConfirmedHeight_proven {beef : SpendingBeef μ} {answer : RootAnswer} {h : Nat} (log : List Event)
    (hh : (x.spendConfirmedHeight tracked beef txid answer).1 = some h) :
    Proven x ((x.spendConfirmedHeight tracked beef txid answer).2 ++ log) txid h := by
  revert hh
  unfold Sdk.spendConfirmedHeight
  split
  · rename_i bump _
    dsimp only
    unfold Sdk.bumpVerifies
    cases hroot : x.computeRoot bump txid with
    | none => intro hh; simp at hh
    | some root =>
      intro hh
      by_cases ha : answer = .ok true
      · simp only [ha, decide_true, if_true, Option.some.injEq] at hh
        refine ⟨bump, txid, root, eqIgnore_refl _, hroot, hh, ?_⟩
        rw [ha, ← hh]
        exact List.mem_append_left _ (List.mem_singleton.mpr rfl)
      · simp [ha] at hh
  · intro hh; cases hh

theorem verifyBump_proven {answer : RootAnswer} (log : List Event)
    (hv : (x.verifyBumpOutcome tracked hex txid answer).1 = .valid) :
    ProvenHex x ((x.verifyBumpOutcome tracked hex txid answer).2 ++ log) txid hex := by
  revert hv
  unfold Sdk.verifyBumpOutcome
  split
  · rename_i bump hparse
    cases hroot : x.computeRoot bump txid with
    | none => intro hv; cases hv
    | some root =>
      intro hv
      have ha : answer = .ok true := by
        cases answer with
        | ok b => cases b with
          | true => rfl
          | false => cases hv
        | blockNotFound => cases hv
        | fault => cases hv
      refine ⟨bump, txid, root, hparse, eqIgnore_refl _, hroot, ?_⟩
      rw [ha]
      exact List.mem_append_left _ (List.mem_singleton.mpr rfl)
  · intro hv; cases hv

theorem rungStep_accept {v : BumpVerdict} (h : rungStep v = .accept) : v = .valid := by
  cases v with
  | valid => rfl
  | invalid => cases h
  | noHeader => cases h
  | fault => cases h

variable {tx : Transaction}

theorem fetchRawHex_id {bodies : List Body} (h : x.fetchRawHex txid bodies = some tx) :
    eqIgnoreAsciiCase tx.id txid = true := by
  induction bodies with
  | nil => cases h
  | cons b rest ih =>
    cases b with
    | notFound => exact ih h
    | fault => exact ih h
    | raw hex =>
      rw [Sdk.fetchRawHex] at h
      split at h
      · split at h
        · rename_i hid
          cases h
          exact hid
        · exact ih h
      · exact ih h

variable {o : Outpoint}

theorem spenderBindingRaw_bound {f : Fetcher} {bodies : List Body}
    (h : (x.spenderBindingRaw f spender o bodies).1 = .bound tx) : eqIgnoreAsciiCase tx.id spender = true ∧ tx.consumes o = true := by
  unfold Sdk.spenderBindingRaw at h
  split at h
  · cases h
  · split at h
    · cases h
    · rename_i hf
      dsimp only at h
      split at h
      · rename_i hc
        cases h
        exact ⟨fetchRawHex_id hf, hc⟩
      · cases h

theorem spenderBindingRaw_memo (f : Fetcher) (spender : Txid) (o : Outpoint) (bodies : List Body) :
    (x.spenderBindingRaw f spender o bodies).2.proofMemo = f.proofMemo := by
  unfold Sdk.spenderBindingRaw
  split
  · rfl
  · split <;> rfl

theorem consumes_of_spent (h : o ∈ tx.spent) : tx.consumes o = true := by
  obtain ⟨i, hi, hs⟩ := List.mem_filterMap.mp h
  obtain ⟨t, ht, rfl⟩ := Option.map_eq_some_iff.mp hs
  refine List.any_eq_true.mpr ⟨i, hi, ?_⟩
  simp [ht, eqIgnore_refl]

theorem consumes_lowercase (h : o ∈ tx.spent) : tx.consumes ⟨lowercase o.txid, o.outputIndex⟩ = true := by
  obtain ⟨i, hi, hs⟩ := List.mem_filterMap.mp h
  obtain ⟨t, ht, rfl⟩ := Option.map_eq_some_iff.mp hs
  refine List.any_eq_true.mpr ⟨i, hi, ?_⟩
  simp [ht, eqIgnore_symm (eqIgnore_lowercase t)]

theorem joinHopInputs_spent {b : JoinBeef} {p : Outpoint × Bool} (h : p ∈ x.joinHopInputs b) :
    ∃ o ∈ b.subject.spent, p.1 = ⟨lowercase o.txid, o.outputIndex⟩ := by
  rw [Sdk.joinHopInputs, List.mem_append, List.mem_map, List.mem_map] at h
  obtain ⟨o, ho, rfl⟩ | ⟨o, ho, rfl⟩ := h
  · exact ⟨o, List.mem_of_mem_filter ho, rfl⟩
  · exact ⟨o, List.mem_of_mem_filter ho, rfl⟩

theorem joinHopWindow_sub {candidates : List (Outpoint × Bool)} {maxReads rotation : Nat} {p : Outpoint × Bool}
    (h : p ∈ joinHopWindow candidates maxReads rotation) : p ∈ candidates := List.mem_rotate.mp (List.mem_of_mem_take h)

end

/-! ## A row and its statements -/

structure Evidenced (log : List Event) (o : Outpoint) (r : Row) : Prop where
  pointer : ∀ spender, r.spendingTxid = some spender → Bound log spender o
  confirmed : r.spentConfirmed = true → ∃ spender h, r.spendingTxid = some spender ∧ r.spentHeight = some h ∧ Proven x log spender h

def Warranted (log : List Event) (o : Outpoint) : Call → Prop
  | .storeRecord record _ => record.spendingTxid = none ∧ record.spentConfirmed = false
  | .markSpent spender confirmed _ height _ => Bound log spender o ∧ (confirmed = true → ∃ h, height = some h ∧ Proven x log spender h)
  | .displaceSpendFor _ spender height _ => Bound log spender o ∧ ∃ h, height = some h ∧ Proven x log spender h
  | .markSpentIfUnpointed spender _ => Bound log spender o
  | .markConfirmedForSpender spender height => ∃ h, height = some h ∧ Proven x log spender h
  | .reanchorConfirmedForSpender spender h => Proven x log spender h
  | _ => True

section
variable {x} {log log' : List Event} {o : Outpoint} {r r' : Row} {now : Nat}

theorem Evidenced.mono (h : Evidenced x log o r) (hl : log ⊆ log') : Evidenced x log' o r where
  pointer spender hs := (h.pointer spender hs).mono hl
  confirmed hc := by
    obtain ⟨spender, height, hs, hh, hp⟩ := h.confirmed hc
    exact ⟨spender, height, hs, hh, hp.mono hl⟩

theorem Evidenced.same (h : Evidenced x log o r) (hs : r'.spendingTxid = r.spendingTxid) (hc : r'.spentConfirmed = r.spentConfirmed)
    (hh : r'.spentHeight = r.spentHeight) : Evidenced x log o r' where
  pointer := by rw [hs]; exact h.pointer
  confirmed := by rw [hs, hc, hh]; exact h.confirmed

theorem Evidenced.pointed {spender : Txid} (hb : Bound log spender o) (hs : r'.spendingTxid = some spender)
    (hc : r'.spentConfirmed = true → ∃ h, r'.spentHeight = some h ∧ Proven x log spender h) : Evidenced x log o r' where
  pointer s h := by
    rw [hs] at h
    cases h
    exact hb
  confirmed h := by
    obtain ⟨height, hh, hp⟩ := hc h
    exact ⟨spender, height, hs, hh, hp⟩

theorem spendWritten_confirmed (r : Row) (spender : Txid) (verdict : Option VerdictWrite) (final : Option Bool) (now : Nat) :
    (r.spendWritten spender verdict final now).spentConfirmed = r.spentConfirmed := by
  cases verdict <;> rfl

theorem evidenced_markSpent {spender : Txid} {confirmed : Bool} {verdict : Option VerdictWrite} {height : Option Nat} {final : Option Bool}
    (hw : Warranted x log o (.markSpent spender confirmed verdict height final)) (hu : r.markSpent spender confirmed verdict height final now = some r') :
    Evidenced x log o r' := by
  obtain ⟨hb, hconf⟩ := hw
  unfold Row.markSpent at hu
  by_cases hc : confirmed = true
  · obtain ⟨h, rfl, hp⟩ := hconf hc
    rw [if_pos hc] at hu
    cases hu
    refine .pointed hb (r.spendWritten_pointer spender verdict final now).1 fun _ => ⟨h, ?_, hp⟩
    exact riding_some _ h _
  · rw [if_neg hc] at hu
    by_cases hr : r.spentConfirmed = true
    · rw [if_pos hr] at hu
      cases hu
    · rw [if_neg hr] at hu
      cases hu
      refine .pointed hb (r.spendWritten_pointer spender verdict final now).1 fun h => ?_
      rw [spendWritten_confirmed] at h
      exact absurd h hr

theorem evidenced_update (he : Evidenced x log o r) {c : Call} (hw : Warranted x log o c) (hu : r.update now c = some r') : Evidenced x log o r' := by
  cases c with
  | storeRecord record fills =>
    cases hu
    unfold Row.storeRecord
    dsimp only
    split
    · exact he.same rfl rfl rfl
    · exact he.same rfl rfl rfl
  | markSpent spender confirmed verdict height final => exact evidenced_markSpent hw hu
  | markVerdictForSpender spender verdict =>
    obtain ⟨_, rfl⟩ := Option.ite_some_none_eq_some.mp hu
    exact he.same rfl rfl rfl
  | displaceSpendFor fromSpender spender height final =>
    obtain ⟨hb, h, rfl, hp⟩ := hw
    obtain ⟨_, rfl⟩ := Option.ite_some_none_eq_some.mp hu
    exact .pointed hb rfl fun _ => ⟨h, rfl, hp⟩
  | markSpentIfUnpointed spender final =>
    obtain ⟨⟨_, _, hc⟩, rfl⟩ := Option.ite_some_none_eq_some.mp hu
    refine .pointed hw rfl fun h => ?_
    have hr : r.spentConfirmed = true := h
    rw [hc] at hr
    cases hr
  | markConfirmedForSpender spender height =>
    obtain ⟨h, rfl, hp⟩ := hw
    obtain ⟨hs, rfl⟩ := Option.ite_some_none_eq_some.mp hu
    exact .pointed (he.pointer spender hs) hs fun _ => ⟨h, rfl, hp⟩
  | demoteConfirmedForSpender spender =>
    obtain ⟨⟨hs, _⟩, rfl⟩ := Option.ite_some_none_eq_some.mp hu
    exact .pointed (he.pointer spender hs) hs fun h => by cases h
  | demoteConfirmedForSpenderAt spender judged =>
    obtain ⟨⟨hs, _⟩, rfl⟩ := Option.ite_some_none_eq_some.mp hu
    exact .pointed (he.pointer spender hs) hs fun h => by cases h
  | reanchorConfirmedForSpender spender height =>
    obtain ⟨⟨hs, _⟩, rfl⟩ := Option.ite_some_none_eq_some.mp hu
    exact .pointed (he.pointer spender hs) hs fun _ => ⟨height, rfl, hw⟩
  | storeSpenderFacts spender facts =>
    obtain ⟨_, rfl⟩ := Option.ite_some_none_eq_some.mp hu
    exact he.same rfl rfl rfl
  | storeSpenderPayouts spender a b =>
    obtain ⟨_, rfl⟩ := Option.ite_some_none_eq_some.mp hu
    exact he.same rfl rfl rfl

theorem evidenced_inserted {record : PotRecord} {fills : Bool} (hw : Warranted x log o (.storeRecord record fills)) :
    Evidenced x log o (Row.storeRecord none record now fills) := by
  have hi : Evidenced x log o (Row.inserted record now) := by
    constructor
    · intro spender h
      rw [show (Row.inserted record now).spendingTxid = record.spendingTxid from rfl, hw.1] at h
      cases h
    · intro h
      rw [show (Row.inserted record now).spentConfirmed = record.spentConfirmed from rfl, hw.2] at h
      cases h
  unfold Row.storeRecord
  dsimp only
  split
  · exact hi.same rfl rfl rfl
  · exact hi

theorem evidenced_exec {row : Option Row} (he : ∀ r, row = some r → Evidenced x log o r) {c : Call} (hw : Warranted x log o c)
    (h : Pot.exec row now c = some r') : Evidenced x log o r' := by
  cases row with
  | none =>
    cases c with
    | storeRecord record fills =>
      cases h
      exact evidenced_inserted hw
    | _ => cases h
  | some r =>
    cases h
    cases hu : r.update now c with
    | none => exact he r rfl
    | some r'' => exact evidenced_update (he r rfl) hw hu

end

/-! ## The store -/

namespace Store

theorem rows_exec (s : Store) (o o' : Outpoint) (now : Nat) (c : Call) :
    (s.exec o now c).rows o' = if o' = o then Pot.exec (s.rows o) now c else s.rows o' := by
  simp only [exec, Function.update_apply]

theorem fetchers_setFetcher (s : Store) (i j : Nat) (f : Fetcher) : (s.setFetcher i f).fetchers j = if j = i then f else s.fetchers j := by
  simp only [setFetcher, Function.update_apply]

end Store

structure Store.Sound (s : Store) : Prop where
  rows : ∀ o r, s.rows o = some r → Evidenced x s.log o r
  memos : ∀ f key m, (s.fetchers f).memoOf key = some m → ∀ hex, m.outcome = .proof hex → ProvenHex x s.log key hex

structure Keeps (s s' : Store) : Prop where
  sound : s'.Sound x
  grows : s.log ⊆ s'.log

section
variable {x} {s s' s'' : Store}

theorem Keeps.refl (h : s.Sound x) : Keeps x s s := ⟨h, fun _ => id⟩

theorem Keeps.trans (h : Keeps x s s') (h' : Keeps x s' s'') : Keeps x s s'' := ⟨h'.sound, fun _ hm => h'.grows (h.grows hm)⟩

theorem Keeps.exec (h : s.Sound x) {o : Outpoint} {c : Call} (hw : Warranted x s.log o c) (now : Nat) : Keeps x s (s.exec o now c) := by
  refine ⟨⟨?_, h.memos⟩, fun _ => id⟩
  intro o' r' hr
  rw [Store.rows_exec] at hr
  by_cases ho : o' = o
  · rw [if_pos ho] at hr
    subst ho
    exact evidenced_exec (h.rows o') hw hr
  · rw [if_neg ho] at hr
    exact h.rows o' r' hr

theorem Keeps.tryExec (h : s.Sound x) {env : Env} {o : Outpoint} {c : Call} (hw : Warranted x s.log o c) : Keeps x s (s.tryExec env o c) := by
  unfold Store.tryExec
  split
  · exact .refl h
  · exact .exec h hw env.now

theorem Keeps.saw (h : s.Sound x) (events : List Event) : Keeps x s (s.saw events) := by
  have hl : s.log ⊆ events ++ s.log := List.subset_append_right events s.log
  exact ⟨⟨fun o r hr => (h.rows o r hr).mono hl, fun f key m hm hex ho => (h.memos f key m hm hex ho).mono hl⟩, hl⟩

variable {i : Nat} {f : Fetcher}

theorem Keeps.setFetcher (h : s.Sound x)
    (hf : ∀ key m, f.memoOf key = some m → ∀ hex, m.outcome = .proof hex → ProvenHex x s.log key hex) : Keeps x s (s.setFetcher i f) := by
  refine ⟨⟨h.rows, ?_⟩, fun _ => id⟩
  intro j key m hm
  rw [Store.fetchers_setFetcher] at hm
  by_cases hj : j = i
  · rw [if_pos hj] at hm
    exact hf key m hm
  · rw [if_neg hj] at hm
    exact h.memos j key m hm

theorem Keeps.setFetcher_same (h : s.Sound x) (hf : f.proofMemo = (s.fetchers i).proofMemo) :
    Keeps x s (s.setFetcher i f) := by
  refine .setFetcher h fun key m hm => h.memos i key m ?_
  rwa [Fetcher.memoOf, hf] at hm

variable {key key' : Txid} {m memo : ProofMemo}

theorem memoOf_remember {m' : ProofMemo} (h : (f.remember key m).memoOf key' = some m') :
    key' = key ∧ m' = m ∨ f.memoOf key' = some m' := by
  rw [Fetcher.memoOf, Fetcher.remember, List.lookup_cons] at h
  by_cases hk : key' = key
  · rw [hk, beq_self_eq_true] at h
    cases h
    exact .inl ⟨hk, rfl⟩
  · rw [beq_false_of_ne hk] at h
    exact .inr h

theorem memo_remember (h : s.Sound x) (hm : ∀ hex, memo.outcome = .proof hex → ProvenHex x s.log key hex)
    (hr : ((s.fetchers i).remember key memo).memoOf key' = some m) :
    ∀ hex, m.outcome = .proof hex → ProvenHex x s.log key' hex := by
  obtain ⟨rfl, rfl⟩ | hr := memoOf_remember hr
  · exact hm
  · exact h.memos i key' m hr

theorem Keeps.remember (h : s.Sound x)
    (hm : ∀ hex, memo.outcome = .proof hex → ProvenHex x s.log key hex) : Keeps x s (s.remember i key memo) :=
  .setFetcher h fun _ _ => memo_remember h hm

end

/-! ## One proof asked -/

section
variable {x} {tracked : Bool} {env : Env} {s : Store} {a : Ask}

structure Ask.Fair (a : Ask) (s : Store) (out : Store × (Ask ⊕ Outcome)) : Prop where
  keeps : Keeps x s out.1
  same : ∀ a', out.2 = .inl a' → a'.txid = a.txid
  proof : ∀ hex, out.2 = .inr (.proof hex) → ProvenHex x out.1.log a.key hex

theorem Ask.Fair.proven {out : Store × (Ask ⊕ Outcome)} {spender : Txid} (hf : Ask.Fair (x := x) a s out)
    (ha : a.txid = spender) (ho : out.2 = .inr (.proof hex)) : ProvenHex x out.1.log spender hex := by
  refine (hf.proof hex ho).of_eqIgnore ?_
  rw [Ask.key, ha]
  exact eqIgnore_lowercase spender

theorem fair_goOn {s' : Store} (h : Keeps x s s') (left : List Rung) (unminedWord : Bool) : Ask.Fair (x := x) a s (s', a.goOn left unminedWord) where
  keeps := h
  same a' ha := by cases ha; rfl
  proof hex hp := by cases hp

theorem fair_settle {s' : Store} (h : Keeps x s s') {outcome : Outcome} (hp : ∀ hex, outcome = .proof hex → ProvenHex x s'.log a.key hex) (exhaustive : Bool) :
    Ask.Fair (x := x) a s (a.settle outcome exhaustive s') where
  keeps := h.trans (.remember h.sound hp)
  same a' ha := by cases ha
  proof hex ho := by
    cases ho
    exact hp hex rfl

theorem fair_begin (h : s.Sound x) : Ask.Fair (x := x) a s (a.begin s) := by
  unfold Ask.begin
  dsimp only
  split
  · rename_i m hm
    refine ⟨.refl h, fun a' ha => (by cases ha), fun hex hp => ?_⟩
    simp only [Sum.inr.injEq] at hp
    split at hp
    · cases hp
    · exact h.memos a.fetcher a.key m hm hex hp
  · split
    · exact ⟨.refl h, fun a' ha => (by cases ha), fun hex hp => (by cases hp)⟩
    · split
      · exact fair_settle (.refl h) (by simp) true
      · refine fair_goOn (.setFetcher h ?_) _ _
        have hpending : ∀ hex, (⟨Outcome.fault, true⟩ : ProofMemo).outcome = .proof hex → ProvenHex x s.log a.key hex := fun hex hp => by cases hp
        intro key m hm
        split at hm
        · exact memo_remember h hpending hm
        · exact memo_remember h hpending hm

theorem fair_look (h : s.Sound x) (rung : Rung) (left : List Rung) (unminedWord : Bool) :
    Ask.Fair (x := x) a s (a.look x tracked rung left unminedWord env s) := by
  unfold Ask.look
  split
  · exact fair_goOn (.refl h) _ _
  · split
    · exact fair_goOn (.refl h) _ _
    · split
      · split
        · exact fair_settle (.refl h) (by simp) false
        · exact fair_goOn (.refl h) _ _
      · exact fair_goOn (.refl h) _ _
    · rename_i hex _
      dsimp only
      have hs := Keeps.saw h (x.verifyBumpOutcome tracked hex a.key env.answer).2
      split
      · rename_i hacc
        refine fair_settle hs (fun hex' hp => ?_) true
        cases hp
        exact verifyBump_proven s.log (rungStep_accept hacc)
      · exact fair_goOn hs _ _
      · exact fair_settle hs (by simp) true

variable (tracked env) in
theorem fair_step (h : s.Sound x) : Ask.Fair (x := x) a s (a.step x tracked env s) := by
  unfold Ask.step
  split
  · exact fair_begin h
  · exact fair_settle (.refl h) (by simp) true
  · exact fair_look h _ _ _

end

/-! ## The activities -/

def HookStage.Ready (log : List Event) (subject : Txid) : HookStage → Prop
  | .admitted height => ∀ h, height = some h → Proven x log subject h
  | .write height _ => ∀ h, height = some h → Proven x log subject h
  | _ => True

def DiscoverStage.Ready (log : List Event) : DiscoverStage → Prop
  | .hops c _ left => ∀ p ∈ left, Bound log (lowercase c.outpoint.txid) p.1
  | .hop c _ o left => Bound log (lowercase c.outpoint.txid) o ∧ ∀ p ∈ left, Bound log (lowercase c.outpoint.txid) p.1
  | .write c spender => Bound log spender c.outpoint
  | _ => True

def ConfirmStage.Ready (log : List Event) : ConfirmStage → Prop
  | .asking _ spender ask => ask.txid = spender
  | .confirm _ spender hex => ProvenHex x log spender hex
  | .askingActual c _ actual _ ask => ask.txid = actual ∧ Bound log actual c.outpoint
  | .displace c _ actual _ hex => Bound log actual c.outpoint ∧ ProvenHex x log actual hex
  | _ => True

def Ready (log : List Event) : Job μ → Prop
  | .hook n stage => .held n.beef.subject ∈ log ∧ stage.Ready x log n.beef.subject.id
  | .discover d => d.stage.Ready log
  | .confirm p => p.stage.Ready x log
  | _ => True

section
variable {x} {tracked : Bool} {env : Env} {s : Store} {log log' : List Event}

theorem HookStage.Ready.mono {subject : Txid} {stage : HookStage} (h : stage.Ready x log subject) (hl : log ⊆ log') :
    stage.Ready x log' subject := by
  cases stage with
  | admitted height => exact fun n hn => (h n hn).mono hl
  | write height verdict => exact fun n hn => (h n hn).mono hl
  | _ => trivial

theorem DiscoverStage.Ready.mono {stage : DiscoverStage} (h : stage.Ready log) (hl : log ⊆ log') : stage.Ready log' := by
  cases stage with
  | hops c join left => exact fun p hp => (h p hp).mono hl
  | hop c join o left => exact ⟨h.1.mono hl, fun p hp => (h.2 p hp).mono hl⟩
  | write c spender => exact Bound.mono h hl
  | _ => trivial

theorem ConfirmStage.Ready.mono {stage : ConfirmStage} (h : stage.Ready x log) (hl : log ⊆ log') : stage.Ready x log' := by
  cases stage with
  | asking c spender ask => exact h
  | confirm c spender hex => exact ProvenHex.mono h hl
  | askingActual c recorded actual tx ask => exact ⟨h.1, h.2.mono hl⟩
  | displace c recorded actual tx hex => exact ⟨h.1.mono hl, h.2.mono hl⟩
  | _ => trivial

theorem Ready.mono {j : Job μ} (h : Ready x log j) (hl : log ⊆ log') : Ready x log' j := by
  cases j with
  | hook n stage => exact ⟨hl h.1, h.2.mono hl⟩
  | discover d => exact DiscoverStage.Ready.mono h hl
  | confirm p => exact ConfirmStage.Ready.mono h hl
  | _ => trivial

variable (tracked env) in
theorem hook_step {n : Notification μ} {stage : HookStage} (h : s.Sound x) (hheld : .held n.beef.subject ∈ s.log)
    (hr : stage.Ready x s.log n.beef.subject.id) :
    Keeps x s (hookStep x tracked n env s stage).1 ∧
      (hookStep x tracked n env s stage).2.Ready x (hookStep x tracked n env s stage).1.log n.beef.subject.id := by
  cases stage with
  | verify => exact ⟨.saw h _, fun height hh => spendConfirmedHeight_proven s.log hh⟩
  | admitted height =>
    by_cases hf : env.faulted = true
    · simp only [hookStep, hf, if_true]
      exact ⟨.refl h, trivial⟩
    · simp only [hookStep, hf]
      cases s.rows n.outpoint with
      | some r => exact ⟨.refl h, hr⟩
      | none => cases env.heal with
        | none => exact ⟨.refl h, hr⟩
        | some a =>
          have hk := Keeps.exec h (o := a.outpoint) (c := .storeRecord a.record a.fills) a.unspent.2 env.now
          exact ⟨hk, fun height hh => (hr height hh).mono hk.grows⟩
  | write height verdict =>
    refine ⟨.tryExec h ⟨⟨n.beef.subject, hheld, eqIgnore_refl _, consumes_of_spent n.spends⟩, fun hs => ?_⟩, trivial⟩
    obtain ⟨height, rfl⟩ := Option.isSome_iff_exists.mp hs
    exact ⟨height, rfl, hr height rfl⟩
  | finished => exact ⟨.refl h, trivial⟩

theorem binding_keeps (h : s.Sound x) (f : Nat) (spender : Txid) (o : Outpoint) (bodies : List Body) :
    Keeps x s (s.setFetcher f (x.spenderBindingRaw (s.fetchers f) spender o bodies).2) :=
  .setFetcher_same h (spenderBindingRaw_memo _ _ _ _)

variable {spender : Txid}

theorem bound_of_binding {f : Fetcher} {o : Outpoint} {bodies : List Body} {tx : Transaction}
    (hb : (x.spenderBindingRaw f spender o bodies).1 = .bound tx) : Bound ((s.saw [.held tx]).log) spender o :=
  ⟨tx, List.mem_cons_self, spenderBindingRaw_bound hb⟩

variable {c : Candidate} {d : Discover}

theorem discover_bound {refused fault : DiscoverStage} (h : s.Sound x)
    (hrefused : ∀ log, refused.Ready log) (hfault : ∀ log, fault.Ready log) :
    Keeps x s (d.bound x c spender env s refused fault).1 ∧
      (d.bound x c spender env s refused fault).2.stage.Ready (d.bound x c spender env s refused fault).1.log := by
  have hk := binding_keeps h d.fetcher spender c.outpoint env.bodies
  unfold Discover.bound
  dsimp only
  split
  · rename_i tx hb
    exact ⟨hk.trans (.saw hk.sound _), bound_of_binding hb⟩
  · exact ⟨hk, hrefused _⟩
  · exact ⟨hk, hfault _⟩

theorem joinHops_bound {allowance : Nat} {join : Transaction} {left : List (Outpoint × Bool)}
    (hj : Discover.joinHops x c allowance env s = some (join, left)) :
    ∀ p ∈ left, Bound (s.saw [.held join]).log (lowercase c.outpoint.txid) p.1 := by
  obtain ⟨b, _, hb⟩ := Option.bind_eq_some_iff.mp hj
  obtain ⟨hguard, heq⟩ := Option.ite_none_right_eq_some.mp hb
  simp only [Bool.and_eq_true] at hguard
  obtain ⟨⟨⟨hid, _⟩, _⟩, _⟩ := hguard
  cases heq
  intro p hp
  obtain ⟨o, ho, hpo⟩ := joinHopInputs_spent (joinHopWindow_sub hp)
  rw [hpo]
  exact ⟨b.subject, List.mem_cons_self, hid, consumes_lowercase ho⟩

theorem discover_next (h : s.Sound x) : Keeps x s (d.next x env s).1 ∧ (d.next x env s).2.stage.Ready (d.next x env s).1.log := by
  unfold Discover.next
  split
  · exact ⟨.refl h, trivial⟩
  · dsimp only
    split
    · exact ⟨.refl h, trivial⟩
    · split
      · exact ⟨.refl h, trivial⟩
      · split
        · exact ⟨.refl h, trivial⟩
        · rename_i hj
          exact ⟨.saw h _, joinHops_bound hj⟩

theorem discover_step (h : s.Sound x) (hr : d.stage.Ready s.log) :
    Keeps x s (d.step x env s).1 ∧ (d.step x env s).2.stage.Ready (d.step x env s).1.log := by
  unfold Discover.step
  split
  · exact ⟨.refl h, trivial⟩
  · exact discover_next h
  · exact ⟨.refl h, trivial⟩
  · rename_i c join o named left hstage
    rw [hstage] at hr
    have hleft : ∀ p ∈ left, Bound s.log (lowercase c.outpoint.txid) p.1 := fun p hp => hr p (List.mem_cons_of_mem _ hp)
    split
    · exact ⟨.refl h, hleft⟩
    · split
      · exact ⟨.refl h, hr (o, named) List.mem_cons_self, hleft⟩
      · exact ⟨.refl h, hleft⟩
  · rename_i c join o left hstage
    rw [hstage] at hr
    have hk : Keeps x s (s.tryExec env o (.markSpentIfUnpointed (lowercase c.outpoint.txid) (some join.final))) := .tryExec h hr.1
    exact ⟨hk, fun p hp => (hr.2 p hp).mono hk.grows⟩
  · split
    · exact ⟨.refl h, trivial⟩
    · refine ⟨.refl h, ?_⟩
      show DiscoverStage.Ready _ (ite _ _ _)
      split <;> trivial
  · exact ⟨.refl h, trivial⟩
  · exact discover_bound h (fun _ => trivial) fun _ => trivial
  · exact discover_bound h (fun _ => trivial) fun _ => trivial
  · rename_i c spender hstage
    rw [hstage] at hr
    exact ⟨.tryExec h ⟨hr, fun hc => (by cases hc)⟩, trivial⟩
  · rename_i hstage
    rw [hstage]
    exact ⟨.refl h, trivial⟩

variable {p : Confirm}

theorem confirm_asking {ask : Ask} (h : s.Sound x) (hstage : p.stage = .asking c spender ask)
    (ha : ask.txid = spender) :
    Keeps x s (p.step x tracked env s).1 ∧ (p.step x tracked env s).2.stage.Ready x (p.step x tracked env s).1.log := by
  have hf := fair_step (x := x) tracked env (a := ask) h
  simp only [Confirm.step, hstage]
  split
  · rename_i s' ask' heq
    rw [heq] at hf
    exact ⟨hf.keeps, (hf.same ask' rfl).trans ha⟩
  · rename_i s' hex heq
    rw [heq] at hf
    exact ⟨hf.keeps, hf.proven ha rfl⟩
  · rename_i s' heq
    rw [heq] at hf
    exact ⟨hf.keeps, trivial⟩
  · rename_i s' heq
    rw [heq] at hf
    exact ⟨hf.keeps, trivial⟩

theorem confirm_askingActual {recorded actual : Txid} {tx : Transaction} {ask : Ask} (h : s.Sound x)
    (hstage : p.stage = .askingActual c recorded actual tx ask) (ha : ask.txid = actual) (hb : Bound s.log actual c.outpoint) :
    Keeps x s (p.step x tracked env s).1 ∧ (p.step x tracked env s).2.stage.Ready x (p.step x tracked env s).1.log := by
  have hf := fair_step (x := x) tracked env (a := ask) h
  simp only [Confirm.step, hstage]
  split
  · rename_i s' ask' heq
    rw [heq] at hf
    exact ⟨hf.keeps, (hf.same ask' rfl).trans ha, hb.mono hf.keeps.grows⟩
  · rename_i s' hex heq
    rw [heq] at hf
    exact ⟨hf.keeps, hb.mono hf.keeps.grows, hf.proven ha rfl⟩
  · rename_i s' outcome _ heq
    rw [heq] at hf
    exact ⟨hf.keeps, trivial⟩

theorem confirm_step (h : s.Sound x) (hr : p.stage.Ready x s.log) :
    Keeps x s (p.step x tracked env s).1 ∧ (p.step x tracked env s).2.stage.Ready x (p.step x tracked env s).1.log := by
  cases hstage : p.stage with
  | asking c spender ask =>
    rw [hstage] at hr
    exact confirm_asking h hstage hr
  | askingActual c recorded actual tx ask =>
    rw [hstage] at hr
    exact confirm_askingActual h hstage hr.1 hr.2
  | scan =>
    simp only [Confirm.step, hstage]
    exact ⟨.refl h, trivial⟩
  | chase =>
    simp only [Confirm.step, hstage]
    split
    · exact ⟨.refl h, trivial⟩
    · split
      · exact ⟨.refl h, trivial⟩
      · exact ⟨.refl h, rfl⟩
  | confirm c spender hex =>
    rw [hstage] at hr
    simp only [Confirm.step, hstage]
    refine ⟨.tryExec h (ProvenHex.height hr), ?_⟩
    show ConfirmStage.Ready x _ (ite _ _ _)
    split <;> trivial
  | hint =>
    simp only [Confirm.step, hstage]
    split
    · exact ⟨.refl h, trivial⟩
    · split
      · split
        · exact ⟨.refl h, trivial⟩
        · exact ⟨.refl h, trivial⟩
      · exact ⟨.refl h, trivial⟩
  | bind c recorded actual =>
    have hk := binding_keeps h p.fetcher actual c.outpoint env.bodies
    simp only [Confirm.step, hstage]
    split
    · rename_i tx hb
      exact ⟨hk.trans (.saw hk.sound _), rfl, bound_of_binding hb⟩
    · exact ⟨hk, trivial⟩
  | displace c recorded actual tx hex =>
    rw [hstage] at hr
    simp only [Confirm.step, hstage]
    refine ⟨.tryExec h ⟨hr.1, hr.2.height⟩, ?_⟩
    show ConfirmStage.Ready x _ (ite _ _ _)
    split <;> trivial
  | classify c spender after =>
    simp only [Confirm.step, hstage]
    refine ⟨?_, ?_⟩
    · split
      · exact .tryExec h trivial
      · exact .refl h
    · cases after <;> trivial
  | finished =>
    simp only [Confirm.step, hstage]
    exact ⟨.refl h, trivial⟩

variable (tracked env) in
theorem job_step {j : Job μ} (h : s.Sound x) (hr : Ready x s.log j) :
    Keeps x s (j.step x tracked env s).1 ∧ Ready x (j.step x tracked env s).1.log (j.step x tracked env s).2 := by
  cases j with
  | hook n stage =>
    obtain ⟨hk, hready⟩ := hook_step tracked env h hr.1 hr.2
    exact ⟨hk, hk.grows hr.1, hready⟩
  | discover d => exact discover_step h hr
  | confirm p => exact confirm_step h hr
  | ask a =>
    have hf := fair_step (x := x) tracked env (a := a) h
    simp only [Job.step]
    split
    · rename_i heq
      rw [heq] at hf
      exact ⟨hf.keeps, trivial⟩
    · rename_i heq
      rw [heq] at hf
      exact ⟨hf.keeps, trivial⟩
  | done => exact ⟨.refl h, trivial⟩

end

/-! ## Runs -/

structure World.Sound (w : World μ) : Prop where
  store : w.store.Sound x
  jobs : ∀ j ∈ w.jobs, Ready x w.store.log j

section
variable {x} {tracked : Bool} {w : World μ}

theorem World.Sound.keeps (h : w.Sound x) {s : Store} (hk : Keeps x w.store s) : World.Sound x { w with store := s } :=
  ⟨hk.sound, fun j hj => (h.jobs j hj).mono hk.grows⟩

theorem World.Sound.start (h : w.Sound x) {j : Job μ} {events : List Event} (hj : Ready x (events ++ w.store.log) j) : (w.start j events).Sound x := by
  have hk := Keeps.saw h.store events
  refine ⟨hk.sound, fun j' hj' => ?_⟩
  rcases List.mem_append.mp hj' with hj' | hj'
  · exact (h.jobs j' hj').mono hk.grows
  · rw [List.mem_singleton.mp hj']
    exact hj

theorem World.Sound.turn (h : w.Sound x) {i : Nat} {j : Job μ} (hj : w.jobs[i]? = some j) (env : Env) :
    World.Sound x { store := (j.step x tracked env w.store).1, jobs := w.jobs.set i (j.step x tracked env w.store).2 } := by
  obtain ⟨hk, hready⟩ := job_step tracked env h.store (h.jobs j (List.mem_of_getElem? hj))
  refine ⟨hk.sound, fun j' hj' => ?_⟩
  rcases List.mem_or_eq_of_mem_set hj' with hj' | rfl
  · exact (h.jobs j' hj').mono hk.grows
  · exact hready

theorem sound_move (h : w.Sound x) (m : Move μ) : (w.step x tracked m).Sound x := by
  cases m with
  | admitted a now => exact h.keeps (.exec h.store (c := .storeRecord a.record a.fills) a.unspent.2 now)
  | notify n => exact h.start ⟨List.mem_cons_self, trivial⟩
  | discover f => exact h.start trivial
  | confirm f => exact h.start trivial
  | ask a => exact h.start trivial
  | turn i env =>
    simp only [World.step]
    split
    · rename_i j hj
      exact h.turn hj env
    · exact h
  | beginSync f budget => exact h.keeps (.setFetcher h.store fun _ _ hm => by cases hm)
  | ancestorFault f key => exact h.keeps (.setFetcher_same h.store rfl)
  | noProof f key outcome noHex => exact h.keeps (.remember h.store fun hex ho => absurd ho (noHex hex))
  | readRoot height root answer => exact h.keeps (.saw h.store _)
  | demote o spender => exact h.keeps (.exec h.store (c := .demoteConfirmedForSpender spender) trivial 0)
  | demoteAt o spender judged => exact h.keeps (.exec h.store (c := .demoteConfirmedForSpenderAt spender judged) trivial 0)
  | reanchor o spender bump =>
    simp only [World.step]
    split
    · rename_i hacc
      refine h.keeps (.exec h.store ?_ 0)
      rcases Bool.or_eq_true_iff.mp hacc with hacc | hacc
      · exact proven_of_accepted (eqIgnore_refl spender) hacc
      · exact proven_of_accepted (eqIgnore_lowercase spender) hacc
    · exact h
  | describe o d =>
    refine h.keeps (.exec h.store ?_ 0)
    cases d <;> trivial

variable (tracked) in
theorem sound_moves (h : w.Sound x) (moves : List (Move μ)) : (w.run x tracked moves).Sound x := by
  induction moves generalizing w with
  | nil => exact h
  | cons m moves ih => exact ih (sound_move h m)

theorem sound_start : World.Sound x ({} : World μ) :=
  ⟨⟨fun _ _ h => (by cases h), fun _ _ _ h => (by cases h)⟩, fun _ hj => (by cases hj)⟩

end

/-- In every run a confirmed row carries its spender and a height; the header source had said true for the root of a BUMP of the spender
at that height, and bytes that hash to the spender and consume the row's outpoint were in hand. -/
theorem confirmed_pointer_proven (tracked : Bool) (moves : List (Move μ)) (o : Outpoint) (row : Row)
    (hrow : (World.run x tracked {} moves).store.rows o = some row) (hconf : row.spentConfirmed = true) :
    ∃ spender height, row.spendingTxid = some spender ∧ row.spentHeight = some height ∧
      Proven x (World.run x tracked {} moves).store.log spender height ∧ Bound (World.run x tracked {} moves).store.log spender o := by
  have he := (sound_moves (x := x) tracked sound_start moves).store.rows o row hrow
  obtain ⟨spender, height, hs, hh, hp⟩ := he.confirmed hconf
  exact ⟨spender, height, hs, hh, hp, he.pointer spender hs⟩

/-! A claim is recorded by the hook, the true spender found by the couriers, proven and displaced in. -/

section

def pot : Outpoint := ⟨"aa", 0⟩

def claim : Transaction := { id := "c1", inputs := [⟨some "aa", 0, [], 4294967295⟩], outputs := [] }

def settle : Transaction := { id := "5e", inputs := [⟨some "aa", 0, [], 4294967295⟩], outputs := [] }

def oneBump : Sdk Unit where
  fromHex hex := if hex = "raw" then some settle else none
  proofFromHex hex := if hex = "bump" then some () else none
  hasLeaf _ txid := txid = "5e"
  computeRoot _ txid := if txid = "5e" then some "root" else none
  blockHeight _ := 9
  isPotCovenantScript _ := false
  isP2pkhScript _ := false

def hooked : List (Move Unit) :=
  [.admitted { record := { txid := "aa", outputIndex := 0 } } 1, .notify { beef := { subject := claim }, outpoint := pot, spends := by decide },
    .turn 0 {}, .turn 0 {}, .turn 0 { now := 2 }]

def chased : List (Move Unit) :=
  [.beginSync 0 3, .confirm 0, .turn 1 { picked := [pot] }, .turn 1 {}, .turn 1 {}, .turn 1 {}, .turn 1 {}, .turn 1 {}, .turn 1 {}, .turn 1 {},
    .turn 1 { hint := some (some "5e") }, .turn 1 { bodies := [.raw "raw"] }, .turn 1 {},
    .turn 1 { rung := .bump "bump", answer := .ok true }, .turn 1 { now := 7 }]

theorem hooked_chased_row : ((World.run oneBump true {} (hooked ++ chased)).store.rows pot).map (fun r => (r.spendingTxid, r.spentConfirmed, r.spentHeight)) =
    some (some "5e", true, some 9) := by
  decide

theorem confirmed_pointer_proven_displaced : ∃ row, (World.run oneBump true {} (hooked ++ chased)).store.rows pot = some row ∧
    ∃ spender height, row.spendingTxid = some spender ∧ row.spentHeight = some height ∧
      Proven oneBump (World.run oneBump true {} (hooked ++ chased)).store.log spender height ∧
      Bound (World.run oneBump true {} (hooked ++ chased)).store.log spender pot := by
  obtain ⟨row, hrow, hcols⟩ := Option.map_eq_some_iff.mp hooked_chased_row
  simp only [Prod.mk.injEq] at hcols
  exact ⟨row, hrow, confirmed_pointer_proven oneBump true (hooked ++ chased) pot row hrow hcols.2.1⟩

end

end OverlayEngine.Pot.SpendProof
