import OverlayEngine.Basis.AsciiCase
import OverlayEngine.Worker.EfBatchKept

/-!
# The sources a courier completes

`missing_source_txids` and `merge_raw_sources` of
`crates/overlay-cloudflare/src/ef.rs`: the sources of the subject the BEEF does
not carry, and the BEEF with those a courier served. The completed BEEF is
written without its atomic name, so its subject is read again from its tips.

Taken from outside: bsv-rs's `merge_raw_tx` and `to_binary`, and the decoders.
-/

namespace OverlayEngine.Ef

structure RawSdk extends BeefSdk where
  fromHex : String → Except String Transaction
  decodeHex : String → Except String Bytes
  mergeRawTx : Beef → Bytes → Beef
  toBinary : Beef → Bytes

/-! ## The two functions -/

section
variable (sdk : RawSdk)

def heldTxids (txs : List BeefTx) : List String := (txs.filter fun t => t.tx.isSome).map BeefTx.txid

def missingStep (held : List String) (out : List String) (i : TransactionInput Transaction) : List String :=
  if i.sourceTransaction.isSome then out
  else
    match i.sourceTxid with
    | none => out
    | some src => if !held.contains src && !out.contains src then out ++ [src] else out

def subjectTx (txs : List BeefTx) (subjectTxid : String) : Option Transaction :=
  (txs.find? fun t => toAsciiLowercase t.txid == toAsciiLowercase subjectTxid).bind BeefTx.tx

def missingSourceTxids (bytes : Bytes) : List String :=
  match sdk.parse bytes with
  | .error _ => []
  | .ok b =>
    let (subject, b) := subjectTxidOf sdk.toBeefSdk b
    match subjectTx b.txs (subject.getD "") with
    | none => []
    | some tx => tx.inputs.foldl (missingStep (heldTxids b.txs)) []

def verify (raw : String × String) : Option (Transaction × Bytes) :=
  match sdk.fromHex raw.2 with
  | .error _ => none
  | .ok tx =>
    if toAsciiLowercase tx.id == toAsciiLowercase raw.1 then
      match sdk.decodeHex raw.2 with
      | .error _ => none
      | .ok bytes => some (tx, bytes)
    else none

def mergeStep (merged : Beef × Nat) (raw : String × String) : Beef × Nat :=
  match verify sdk raw with
  | none => merged
  | some (_, bytes) => (sdk.mergeRawTx merged.1 bytes, merged.2 + 1)

def mergeRawSources (bytes : Bytes) (raws : List (String × String)) : Bytes :=
  match sdk.parse bytes with
  | .error _ => bytes
  | .ok b =>
    let merged := raws.foldl (mergeStep sdk) (b, 0)
    if merged.2 = 0 then bytes else sdk.toBinary merged.1

/-! ## What bsv-rs gives -/

structure Upserts (tx : Transaction) (b b' : Beef) : Prop where
  atomicTxid : b'.atomicTxid = b.atomicTxid
  bumps : b'.bumps = b.bumps
  txs : ∃ e old kept, e.txid = tx.id ∧ e.tx = some tx ∧ (old = [] ∨ ∃ o, old = [o] ∧ o.txid = tx.id) ∧
    b.txs.Perm (old ++ kept) ∧ b'.txs.Perm (e :: kept)

structure RawSdk.Merges : Prop where
  sorts : ∀ txs, (sdk.sortTxs txs).Perm txs
  upserts : ∀ b rawHex tx bytes, sdk.fromHex rawHex = .ok tx → sdk.decodeHex rawHex = .ok bytes → Upserts tx b (sdk.mergeRawTx b bytes)
  /-- `to_binary` writes the plain form: the entries in some order, no atomic name. -/
  writes : ∀ bytes b (raws : List (String × String)), sdk.parse bytes = .ok b → (raws.foldl (mergeStep sdk) (b, 0)).2 ≠ 0 →
    ∃ w, sdk.parse (sdk.toBinary (raws.foldl (mergeStep sdk) (b, 0)).1) = .ok w ∧ w.atomicTxid = none ∧
      w.bumps = (raws.foldl (mergeStep sdk) (b, 0)).1.bumps ∧ w.txs.Perm (raws.foldl (mergeStep sdk) (b, 0)).1.txs
  /-- A txid's text is lowercase, and names one transaction. -/
  entryLower : ∀ bytes b, sdk.parse bytes = .ok b → ∀ t ∈ b.txs, toAsciiLowercase t.txid = t.txid ∧ ∀ src ∈ t.sources, toAsciiLowercase src = src
  rawLower : ∀ rawHex tx, sdk.fromHex rawHex = .ok tx → toAsciiLowercase tx.id = tx.id
  rawNamed : ∀ rawHex rawHex' tx tx', sdk.fromHex rawHex = .ok tx → sdk.fromHex rawHex' = .ok tx' → tx.id = tx'.id → tx = tx'

/-! ## A completed body -/

def verified (raws : List (String × String)) : List Transaction := raws.filterMap fun raw => (verify sdk raw).map Prod.fst

def answered (raws : List (String × String)) : List String := (raws.filter fun raw => (verify sdk raw).isSome).map Prod.fst

def subjectOf (b : Beef) : Option String := (subjectTxidOf sdk.toBeefSdk b).1

/-- `w` completes the body `b` of `bytes`. -/
structure Completes (bytes : Bytes) (raws : List (String × String)) (b w : Beef) : Prop where
  subject : subjectOf sdk w = subjectOf sdk b
  transactions : ∀ t ∈ b.txs, t.tx.isSome = true → t ∈ w.txs
  bumps : w.bumps = b.bumps
  added : ∀ t ∈ w.txs, t ∉ b.txs → ∃ tx, t.tx = some tx ∧ t.txid = tx.id ∧ tx.id ∈ missingSourceTxids sdk bytes
  missing : missingSourceTxids sdk (mergeRawSources sdk bytes raws) =
    (missingSourceTxids sdk bytes).filter fun src => !(answered sdk raws).contains src

def spentBy (txs : List Transaction) : List String := ((txs.flatMap Transaction.inputs).filterMap TransactionInput.spends).map toAsciiLowercase

def remaining (b : Beef) (txs : List Transaction) : List String := b.tips.filter fun tip => !(spentBy txs).contains tip

/-- No answer is verified, or the tips no verified transaction spends are the subject alone. -/
def SubjectStays (raws : List (String × String)) (b : Beef) : Prop :=
  verified sdk raws = [] ∨ ∃ tip, remaining b (verified sdk raws) = [tip] ∧ subjectOf sdk b = some tip

end

/-! ## The merge -/

structure Filled (b : Beef) (txs : List Transaction) (b' : Beef) : Prop where
  bumps : b'.bumps = b.bumps
  entries : ∃ bare added, b'.txs.Perm (b.txs.filter (fun t => t.tx.isSome) ++ (bare ++ added)) ∧
    (∀ t ∈ bare, t ∈ b.txs ∧ t.tx = none) ∧ (∀ e ∈ added, ∃ tx ∈ txs, e.txid = tx.id ∧ e.tx = some tx) ∧
    ∀ tx ∈ txs, ∃ e ∈ added, e.txid = tx.id ∧ e.tx = some tx

section
variable {sdk : RawSdk} {b : Beef} {raws : List (String × String)}

theorem filled_refl (b : Beef) : Filled b [] b where
  bumps := rfl
  entries := by
    refine ⟨b.txs.filter fun t => !t.tx.isSome, [], ?_, ?_, by simp, by simp⟩
    · rw [List.append_nil]
      exact (List.filter_append_perm _ b.txs).symm
    · intro t ht
      have h := List.mem_filter.mp ht
      exact ⟨h.1, by simpa using h.2⟩

theorem perm_drop {α : Type} {o : α} {kept before after : List α} (h : (o :: kept).Perm (before ++ o :: after)) : kept.Perm (before ++ after) :=
  (h.trans List.perm_middle).cons_inv

variable {txid x src tip : String} {txs : List BeefTx}

theorem mem_heldTxids : txid ∈ heldTxids txs ↔ ∃ t ∈ txs, t.tx.isSome = true ∧ t.txid = txid := by
  simp only [heldTxids, List.mem_map, List.mem_filter, and_assoc]

theorem Filled.without {old kept full bare added : List BeefTx}
    (hold : old = [] ∨ ∃ o, old = [o] ∧ o.txid = txid) (hc : (old ++ kept).Perm (full ++ (bare ++ added))) (hnew : ∀ t ∈ full, t.txid ≠ txid) :
    ∃ bare' added', kept.Perm (full ++ (bare' ++ added')) ∧ (∀ t ∈ bare', t ∈ bare) ∧ (∀ a ∈ added', a ∈ added) ∧
      ∀ a ∈ added, a ∈ added' ∨ a.txid = txid := by
  rcases hold with rfl | ⟨o, rfl, ho⟩
  · exact ⟨bare, added, hc, fun _ => id, fun _ => id, fun _ => .inl⟩
  · have hmem : o ∈ full ++ (bare ++ added) := hc.mem_iff.mp (by simp)
    rcases List.mem_append.mp hmem with hfull | hrest
    · exact absurd ho (hnew o hfull)
    · rcases List.mem_append.mp hrest with hin | hin
      · obtain ⟨before, after, rfl⟩ := List.append_of_mem hin
        have hkept := @perm_drop _ o kept (full ++ before) (after ++ added) (by simpa using hc)
        refine ⟨before ++ after, added, by simpa using hkept, ?_, fun _ => id, fun _ => .inl⟩
        intro t ht
        simp only [List.mem_append, List.mem_cons] at ht ⊢
        tauto
      · obtain ⟨before, after, rfl⟩ := List.append_of_mem hin
        have hkept := @perm_drop _ o kept (full ++ (bare ++ before)) after (by simpa using hc)
        refine ⟨bare, before ++ after, by simpa using hkept, fun _ => id, ?_, ?_⟩
        · intro a ha
          simp only [List.mem_append, List.mem_cons] at ha ⊢
          tauto
        · intro a ha
          simp only [List.mem_append, List.mem_cons] at ha ⊢
          rcases ha with ha | rfl | ha
          · exact .inl (.inl ha)
          · exact .inr ho
          · exact .inl (.inr ha)

variable {tx : Transaction}

theorem Filled.upsert {c c' : Beef} {txs : List Transaction} (h : Filled b txs c) (hu : Upserts tx c c')
    (hnew : tx.id ∉ heldTxids b.txs) (hnamed : ∀ tx' ∈ txs, tx'.id = tx.id → tx' = tx) : Filled b (txs ++ [tx]) c' := by
  obtain ⟨bare, added, hperm, hbare, hadded, hall⟩ := h.entries
  obtain ⟨e, old, kept, hid, htx, hold, hc, hc'⟩ := hu.txs
  obtain ⟨bare', added', hkept, hbare', hadded', hgone⟩ := Filled.without hold (hc.symm.trans hperm) fun t ht hsame =>
    hnew (mem_heldTxids.mpr ⟨t, (List.mem_filter.mp ht).1, (List.mem_filter.mp ht).2, hsame⟩)
  refine ⟨hu.bumps.trans h.bumps, bare', e :: added', ?_, fun t ht => hbare t (hbare' t ht), ?_, ?_⟩
  · have hmid := @List.perm_middle _ e (b.txs.filter (fun t => t.tx.isSome) ++ bare') added'
    rw [List.append_assoc, List.append_assoc] at hmid
    exact (hc'.trans (hkept.cons e)).trans hmid.symm
  · intro a ha
    rcases List.mem_cons.mp ha with rfl | ha
    · exact ⟨tx, by simp, hid, htx⟩
    · obtain ⟨tx', htx', hfacts⟩ := hadded a (hadded' a ha)
      exact ⟨tx', List.mem_append_left _ htx', hfacts⟩
  · intro tx' htx'
    rcases List.mem_append.mp htx' with htx' | htx'
    · obtain ⟨a, ha, haid, hatx⟩ := hall tx' htx'
      rcases hgone a ha with ha | hsame
      · exact ⟨a, List.mem_cons_of_mem e ha, haid, hatx⟩
      · -- the entry the new one replaces carried the same transaction
        rw [hnamed tx' htx' (haid.symm.trans hsame)]
        exact ⟨e, by simp, hid, htx⟩
    · rw [List.mem_singleton.mp htx']
      exact ⟨e, by simp, hid, htx⟩

variable {bytes : Bytes} {raw : String × String}

theorem verify_some (h : verify sdk raw = some (tx, bytes)) :
    sdk.fromHex raw.2 = .ok tx ∧ sdk.decodeHex raw.2 = .ok bytes ∧ toAsciiLowercase tx.id = toAsciiLowercase raw.1 := by
  unfold verify at h
  cases hf : sdk.fromHex raw.2 with
  | error e => rw [hf] at h; cases h
  | ok tx' =>
    rw [hf] at h
    dsimp only at h
    by_cases hid : toAsciiLowercase tx'.id = toAsciiLowercase raw.1
    · rw [if_pos (beq_iff_eq.mpr hid)] at h
      cases hd : sdk.decodeHex raw.2 with
      | error e => rw [hd] at h; cases h
      | ok bytes' =>
        rw [hd] at h
        cases h
        exact ⟨rfl, rfl, hid⟩
    · rw [if_neg (by simpa using hid)] at h
      cases h

theorem mem_verified : tx ∈ verified sdk raws ↔ ∃ raw ∈ raws, ∃ bytes, verify sdk raw = some (tx, bytes) := by
  simp only [verified, List.mem_filterMap, Option.map_eq_some_iff, Prod.exists, exists_and_right, exists_eq_right]

theorem foldl_filled (hm : sdk.Merges) (hnew : ∀ tx ∈ verified sdk raws, tx.id ∉ heldTxids b.txs) {c : Beef} {txs : List Transaction} {n : Nat}
    (hc : Filled b txs c) (htxs : ∀ tx ∈ txs, ∃ rawHex, sdk.fromHex rawHex = .ok tx) :
    Filled b (txs ++ verified sdk raws) (raws.foldl (mergeStep sdk) (c, n)).1 ∧
      (raws.foldl (mergeStep sdk) (c, n)).2 = n + (verified sdk raws).length := by
  induction raws generalizing c txs n with
  | nil => simpa [verified] using hc
  | cons raw rest ih =>
    have hrest : ∀ tx ∈ verified sdk rest, tx.id ∉ heldTxids b.txs := by
      intro tx htx
      obtain ⟨r, hr, bytes, hv⟩ := mem_verified.mp htx
      exact hnew tx (mem_verified.mpr ⟨r, List.mem_cons_of_mem raw hr, bytes, hv⟩)
    rw [List.foldl_cons]
    cases hv : verify sdk raw with
    | none =>
      have hsame : verified sdk (raw :: rest) = verified sdk rest := by simp [verified, hv]
      have hstep : mergeStep sdk (c, n) raw = (c, n) := by simp [mergeStep, hv]
      rw [hsame, hstep]
      exact ih hrest hc htxs
    | some merged =>
      obtain ⟨tx, bytes⟩ := merged
      obtain ⟨hf, hd, -⟩ := verify_some hv
      have hmore : verified sdk (raw :: rest) = tx :: verified sdk rest := by simp [verified, hv]
      have hstep : mergeStep sdk (c, n) raw = (sdk.mergeRawTx c bytes, n + 1) := by simp [mergeStep, hv]
      have hfilled := hc.upsert (hm.upserts c raw.2 tx bytes hf hd) (hnew tx (hmore ▸ List.mem_cons_self)) fun tx' htx' hid => by
        obtain ⟨rawHex, hraw⟩ := htxs tx' htx'
        exact hm.rawNamed rawHex raw.2 tx' tx hraw hf hid
      obtain ⟨hbody, hcount⟩ := ih hrest hfilled fun tx' htx' => by
        rcases List.mem_append.mp htx' with htx' | htx'
        · exact htxs tx' htx'
        · exact ⟨raw.2, List.mem_singleton.mp htx' ▸ hf⟩
      rw [hstep, hmore]
      refine ⟨by simpa using hbody, ?_⟩
      rw [hcount, List.length_cons]
      omega

/-! ## The subject -/

theorem mem_spent : x ∈ b.spent ↔ ∃ t ∈ b.txs, ∃ i ∈ t.inputs, ∃ src, i.spends = some src ∧ toAsciiLowercase src = x := by
  simp only [Beef.spent, List.mem_map, List.mem_filterMap, List.mem_flatMap]
  constructor
  · rintro ⟨src, ⟨i, ⟨t, ht, hi⟩, hs⟩, hx⟩
    exact ⟨t, ht, i, hi, src, hs, hx⟩
  · rintro ⟨t, ht, i, hi, src, hs, hx⟩
    exact ⟨src, ⟨i, ⟨t, ht, hi⟩, hs⟩, hx⟩

theorem mem_spentBy {txs : List Transaction} :
    x ∈ spentBy txs ↔ ∃ tx ∈ txs, ∃ i ∈ tx.inputs, ∃ src, i.spends = some src ∧ toAsciiLowercase src = x := by
  simp only [spentBy, List.mem_map, List.mem_filterMap, List.mem_flatMap]
  constructor
  · rintro ⟨src, ⟨i, ⟨t, ht, hi⟩, hs⟩, hx⟩
    exact ⟨t, ht, i, hi, src, hs, hx⟩
  · rintro ⟨t, ht, i, hi, src, hs, hx⟩
    exact ⟨src, ⟨i, ⟨t, ht, hi⟩, hs⟩, hx⟩

variable {t : BeefTx}

theorem inputs_of_tx (h : t.tx = some tx) : t.inputs = tx.inputs := by
  rw [BeefTx.inputs, h]
  rfl

theorem inputs_bare (h : t.tx = none) : t.inputs = [] := by
  rw [BeefTx.inputs, h]
  rfl

section
variable {w : Beef} {txs : List Transaction} (h : Filled b txs w)
include h

theorem Filled.mem_txs (ht : t ∈ w.txs) :
    t ∈ b.txs ∨ ∃ tx ∈ txs, t.txid = tx.id ∧ t.tx = some tx := by
  obtain ⟨bare, added, hperm, hbare, hadded, -⟩ := h.entries
  rcases List.mem_append.mp (hperm.mem_iff.mp ht) with ht | ht
  · exact .inl (List.mem_filter.mp ht).1
  · exact (List.mem_append.mp ht).elim (fun ht => .inl (hbare t ht).1) fun ht => .inr (hadded t ht)

theorem Filled.kept (ht : t ∈ b.txs) (hfull : t.tx.isSome = true) : t ∈ w.txs := by
  obtain ⟨bare, added, hperm, -⟩ := h.entries
  exact hperm.mem_iff.mpr (List.mem_append_left _ (List.mem_filter.mpr ⟨ht, hfull⟩))

theorem Filled.carries (htx : tx ∈ txs) : ∃ t ∈ w.txs, t.txid = tx.id ∧ t.tx = some tx := by
  obtain ⟨bare, added, hperm, -, -, hall⟩ := h.entries
  obtain ⟨e, he, hfacts⟩ := hall tx htx
  exact ⟨e, hperm.mem_iff.mpr (by simp [he]), hfacts⟩

theorem Filled.mem_spent_iff : x ∈ w.spent ↔ x ∈ b.spent ∨ x ∈ spentBy txs := by
  rw [mem_spent, mem_spent, mem_spentBy]
  constructor
  · rintro ⟨t, ht, i, hi, hs⟩
    rcases h.mem_txs ht with ht | ⟨tx, htx, -, hx⟩
    · exact .inl ⟨t, ht, i, hi, hs⟩
    · exact .inr ⟨tx, htx, i, inputs_of_tx hx ▸ hi, hs⟩
  · rintro (⟨t, ht, i, hi, hs⟩ | ⟨tx, htx, i, hi, hs⟩)
    · refine ⟨t, h.kept ht ?_, i, hi, hs⟩
      cases hx : t.tx with
      | none => rw [inputs_bare hx] at hi; cases hi
      | some tx => rfl
    · obtain ⟨t, ht, -, hx⟩ := h.carries htx
      exact ⟨t, ht, i, (inputs_of_tx hx).symm ▸ hi, hs⟩

theorem Filled.tips_perm (hspent : ∀ tx ∈ txs, toAsciiLowercase tx.id ∈ b.spent) : w.tips.Perm (remaining b txs) := by
  have hiff : ∀ x, x ∈ w.spent ↔ x ∈ b.spent ∨ x ∈ spentBy txs := fun x => h.mem_spent_iff
  obtain ⟨bare, added, hperm, hbare, hadded, -⟩ := h.entries
  have hfull : (w.txs.filter fun t => t.tx.isSome).Perm (b.txs.filter (fun t => t.tx.isSome) ++ added) := by
    refine (hperm.filter _).trans ?_
    rw [List.filter_append, List.filter_append, List.filter_filter]
    have hnone : bare.filter (fun t => t.tx.isSome) = [] :=
      List.filter_eq_nil_iff.mpr fun t ht => by simp [(hbare t ht).2]
    have hall : added.filter (fun t => t.tx.isSome) = added :=
      List.filter_eq_self.mpr fun t ht => by
        obtain ⟨tx, -, -, hx⟩ := hadded t ht
        simp [hx]
    rw [hnone, hall]
    simp
  have hadd : (added.map fun t => toAsciiLowercase t.txid).filter (fun x => !w.spent.contains x) = [] := by
    rw [List.filter_eq_nil_iff]
    intro x hx
    obtain ⟨t, ht, rfl⟩ := List.mem_map.mp hx
    obtain ⟨tx, htx, hid, -⟩ := hadded t ht
    have hin : toAsciiLowercase t.txid ∈ w.spent := (hiff _).mpr (.inl (hid ▸ hspent tx htx))
    simpa using hin
  have hp := (hfull.map fun t => toAsciiLowercase t.txid).filter fun x => !w.spent.contains x
  rw [List.map_append, List.filter_append, hadd, List.append_nil] at hp
  refine hp.trans (List.Perm.of_eq ?_)
  rw [remaining, Beef.tips, List.filter_filter]
  refine List.filter_congr fun x _ => ?_
  have := hiff x
  by_cases hb : x ∈ b.spent <;> by_cases hs : x ∈ spentBy txs <;> simp_all

end

theorem subject_of_tip {w : Beef} (hname : w.atomicTxid = none) (htip : w.tips = [tip]) : subjectOf sdk w = some tip := by
  unfold subjectOf subjectTxidOf
  rw [hname, htip]
  rfl

theorem subject_of_remaining {w : Beef} {txs : List Transaction} (hname : w.atomicTxid = none)
    (htips : w.tips.Perm (remaining b txs)) (hone : remaining b txs = [tip]) : subjectOf sdk w = some tip := by
  rw [hone] at htips
  exact subject_of_tip hname (List.perm_singleton.mp htips)

/-! ## The missing sources -/

variable {inputs : List (TransactionInput Transaction)}

theorem mem_missing_foldl {held : List String} {out : List String}
    (h : src ∈ inputs.foldl (missingStep held) out) : src ∈ out ∨ (src ∈ inputs.filterMap TransactionInput.sourceTxid ∧ src ∉ held) := by
  induction inputs generalizing out with
  | nil => exact .inl h
  | cons i rest ih =>
    rcases ih h with h | ⟨h, hno⟩
    · unfold missingStep at h
      split at h
      · exact .inl h
      · cases hs : i.sourceTxid with
        | none => rw [hs] at h; exact .inl h
        | some s =>
          rw [hs] at h
          dsimp only at h
          split at h
          · rcases List.mem_append.mp h with h | h
            · exact .inl h
            · rw [List.mem_singleton.mp h]
              refine .inr ⟨List.mem_filterMap.mpr ⟨i, List.mem_cons_self, hs⟩, ?_⟩
              simp_all
          · exact .inl h
    · refine .inr ⟨?_, hno⟩
      obtain ⟨j, hj, hs⟩ := List.mem_filterMap.mp h
      exact List.mem_filterMap.mpr ⟨j, List.mem_cons_of_mem i hj, hs⟩

theorem missing_foldl_filter {held held' gone : List String}
    (hheld : ∀ src ∈ inputs.filterMap TransactionInput.sourceTxid, src ∈ held' ↔ src ∈ held ∨ src ∈ gone)
    (hgone : ∀ src ∈ gone, src ∉ held) (out : List String) :
    inputs.foldl (missingStep held') (out.filter fun src => !gone.contains src) =
      (inputs.foldl (missingStep held) out).filter fun src => !gone.contains src := by
  induction inputs generalizing out with
  | nil => rfl
  | cons i rest ih =>
    have ih := ih fun src hsrc => hheld src (by
      obtain ⟨j, hj, hs⟩ := List.mem_filterMap.mp hsrc
      exact List.mem_filterMap.mpr ⟨j, List.mem_cons_of_mem i hj, hs⟩)
    rw [List.foldl_cons, List.foldl_cons, ← ih]
    congr 1
    unfold missingStep
    by_cases hlinked : i.sourceTransaction.isSome = true
    · rw [if_pos hlinked, if_pos hlinked]
    · rw [if_neg hlinked, if_neg hlinked]
      cases hs : i.sourceTxid with
      | none => rfl
      | some src =>
        have hsrc := hheld src (List.mem_filterMap.mpr ⟨i, List.mem_cons_self, hs⟩)
        have hfree := hgone src
        dsimp only
        by_cases hg : src ∈ gone <;> by_cases hh : src ∈ held <;> by_cases ho : src ∈ out <;> simp_all

theorem subject_perm (hm : sdk.Merges) (b : Beef) : (subjectTxidOf sdk.toBeefSdk b).2.txs.Perm b.txs := by
  rcases @subject_leaves sdk.toBeefSdk b with h | h
  · exact .of_eq h
  · exact h ▸ hm.sorts b.txs

theorem heldTxids_perm {txs' : List BeefTx} (h : txs.Perm txs') (txid : String) : txid ∈ heldTxids txs ↔ txid ∈ heldTxids txs' := by
  simp only [mem_heldTxids, h.mem_iff]

theorem mem_missing (hm : sdk.Merges) (hparse : sdk.parse bytes = .ok b) (h : src ∈ missingSourceTxids sdk bytes) :
    (∃ t ∈ b.txs, src ∈ t.sources) ∧ src ∉ heldTxids b.txs := by
  unfold missingSourceTxids at h
  rw [hparse] at h
  dsimp only at h
  cases htx : subjectTx (subjectTxidOf sdk.toBeefSdk b).2.txs ((subjectTxidOf sdk.toBeefSdk b).1.getD "") with
  | none => rw [htx] at h; cases h
  | some tx =>
    rw [htx] at h
    rcases mem_missing_foldl h with h | ⟨h, hno⟩
    · cases h
    · obtain ⟨t, ht, hx⟩ := Option.bind_eq_some_iff.mp htx
      refine ⟨⟨t, (subject_perm hm b).mem_iff.mp (List.mem_of_find?_eq_some ht), ?_⟩, fun hin => hno ((heldTxids_perm (subject_perm hm b) src).mpr hin)⟩
      rw [BeefTx.sources, inputs_of_tx hx]
      exact h

theorem subjectTx_of_mem (ht : t ∈ txs)
    (hid : toAsciiLowercase t.txid = toAsciiLowercase txid) (htx : t.tx = some tx)
    (hfull : ∀ u ∈ txs, toAsciiLowercase u.txid = toAsciiLowercase txid → u.tx.isSome = true) (hnamed : Named txs)
    (hlower : ∀ u ∈ txs, toAsciiLowercase u.txid = u.txid) : subjectTx txs txid = some tx := by
  unfold subjectTx
  cases hfind : txs.find? fun t => toAsciiLowercase t.txid == toAsciiLowercase txid with
  | none => exact absurd (beq_iff_eq.mpr hid) (List.find?_eq_none.mp hfind t ht)
  | some u =>
    have hu := List.mem_of_find?_eq_some hfind
    have huid : toAsciiLowercase u.txid = toAsciiLowercase txid := by simpa using List.find?_some hfind
    obtain ⟨x, hx⟩ := Option.isSome_iff_exists.mp (hfull u hu huid)
    have hsame : u.txid = t.txid := by rw [← hlower u hu, ← hlower t ht, huid, hid]
    rw [Option.bind_some, hx, hnamed u hu t ht hsame x tx hx htx]

/-! ## The completed body -/

theorem toAsciiLowercase_idem (text : String) : toAsciiLowercase (toAsciiLowercase text) = toAsciiLowercase text := by
  simp only [toAsciiLowercase, String.toList_ofList, AsciiCase.map_toLower_idem]

theorem subject_lower (b : Beef) : toAsciiLowercase ((subjectOf sdk b).getD "") = (subjectOf sdk b).getD "" := by
  have hlast (txs : List BeefTx) : toAsciiLowercase ((lastTxid txs).getD "") = (lastTxid txs).getD "" := by
    unfold lastTxid
    cases txs.getLast?.filter fun t => t.tx.isSome with
    | none => rfl
    | some t => exact toAsciiLowercase_idem t.txid
  unfold subjectOf subjectTxidOf
  split
  · exact toAsciiLowercase_idem _
  · split
    · next tip htip =>
      have hmem : tip ∈ b.tips := htip ▸ List.mem_singleton_self tip
      obtain ⟨t, -, rfl⟩ := List.mem_map.mp (List.mem_filter.mp hmem).1
      exact toAsciiLowercase_idem t.txid
    · exact hlast _

theorem mem_answered : src ∈ answered sdk raws ↔ ∃ raw ∈ raws, (∃ tx bytes, verify sdk raw = some (tx, bytes)) ∧ raw.1 = src := by
  simp only [answered, List.mem_map, List.mem_filter, and_assoc, Option.isSome_iff_exists, Prod.exists]

theorem id_of_verify (hm : sdk.Merges) (hparse : sdk.parse bytes = .ok b)
    (hraw : raw.1 ∈ missingSourceTxids sdk bytes) {rawBytes : Bytes} (hv : verify sdk raw = some (tx, rawBytes)) :
    tx.id = raw.1 := by
  obtain ⟨hf, -, hid⟩ := verify_some hv
  obtain ⟨⟨t, ht, hsrc⟩, -⟩ := mem_missing hm hparse hraw
  rw [hm.rawLower raw.2 tx hf, (hm.entryLower bytes b hparse t ht).2 raw.1 hsrc] at hid
  exact hid

theorem missing_completed (hreads : sdk.Reads) (hm : sdk.Merges) {bytes' : Bytes} {w : Beef} (hparse : sdk.parse bytes = .ok b)
    (hparse' : sdk.parse bytes' = .ok w) (hraws : ∀ raw ∈ raws, raw.1 ∈ missingSourceTxids sdk bytes) (hw : Filled b (verified sdk raws) w)
    (hsome : verified sdk raws ≠ []) (hfull : ∀ t ∈ b.txs, toAsciiLowercase t.txid = (subjectOf sdk b).getD "" → t.tx.isSome = true)
    (hsubject : subjectOf sdk w = subjectOf sdk b) :
    missingSourceTxids sdk bytes' = (missingSourceTxids sdk bytes).filter fun src => !(answered sdk raws).contains src := by
  have hpb := subject_perm hm b
  have hpw := subject_perm hm w
  obtain ⟨tx₀, htx₀⟩ := List.exists_mem_of_ne_nil _ hsome
  obtain ⟨raw₀, hraw₀, rawBytes, hv₀⟩ := mem_verified.mp htx₀
  have hlisted := hraws raw₀ hraw₀
  unfold missingSourceTxids at hlisted ⊢
  rw [hparse] at hlisted ⊢
  rw [hparse']
  dsimp only at hlisted ⊢
  cases htx : subjectTx (subjectTxidOf sdk.toBeefSdk b).2.txs ((subjectTxidOf sdk.toBeefSdk b).1.getD "") with
  | none => rw [htx] at hlisted; cases hlisted
  | some tx =>
    obtain ⟨t, ht, hx⟩ := Option.bind_eq_some_iff.mp htx
    have hid : toAsciiLowercase t.txid = toAsciiLowercase ((subjectOf sdk b).getD "") := by simpa [subjectOf] using List.find?_some ht
    have htb : t ∈ b.txs := hpb.mem_iff.mp (List.mem_of_find?_eq_some ht)
    have htw : subjectTx (subjectTxidOf sdk.toBeefSdk w).2.txs ((subjectTxidOf sdk.toBeefSdk w).1.getD "") = some tx := by
      change subjectTx _ ((subjectOf sdk w).getD "") = some tx
      rw [hsubject]
      refine subjectTx_of_mem (hpw.mem_iff.mpr (hw.kept htb (by rw [hx]; rfl))) hid hx ?_ ?_ ?_
      · intro u hu huid
        rw [subject_lower] at huid
        rcases hw.mem_txs (hpw.mem_iff.mp hu) with hu | ⟨y, -, -, hy⟩
        · exact hfull u hu huid
        · rw [hy]; rfl
      · exact fun u hu v hv => hreads.named bytes' w hparse' u (hpw.mem_iff.mp hu) v (hpw.mem_iff.mp hv)
      · exact fun u hu => (hm.entryLower bytes' w hparse' u (hpw.mem_iff.mp hu)).1
    rw [htw]
    refine missing_foldl_filter (fun src _ => ?_) (fun src hsrc hheld => ?_) []
    · rw [heldTxids_perm hpw, heldTxids_perm hpb, mem_heldTxids, mem_heldTxids, mem_answered]
      constructor
      · rintro ⟨u, hu, hux, rfl⟩
        rcases hw.mem_txs hu with hu | ⟨y, hy, huid, -⟩
        · exact .inl ⟨u, hu, hux, rfl⟩
        · obtain ⟨raw, hraw, bytes₁, hv⟩ := mem_verified.mp hy
          exact .inr ⟨raw, hraw, ⟨y, bytes₁, hv⟩, by rw [huid, id_of_verify hm hparse (hraws raw hraw) hv]⟩
      · rintro (⟨u, hu, hux, rfl⟩ | ⟨raw, hraw, ⟨y, bytes₁, hv⟩, rfl⟩)
        · exact ⟨u, hw.kept hu hux, hux, rfl⟩
        · obtain ⟨u, hu, huid, hux⟩ := hw.carries (mem_verified.mpr ⟨raw, hraw, bytes₁, hv⟩)
          exact ⟨u, hu, by rw [hux]; rfl, by rw [huid, id_of_verify hm hparse (hraws raw hraw) hv]⟩
    · obtain ⟨raw, hraw, -, rfl⟩ := mem_answered.mp hsrc
      exact (mem_missing hm hparse (hraws raw hraw)).2 ((heldTxids_perm hpb raw.1).mp hheld)

/-- The merge keeps what the body carried and adds what was asked for; it completes the body where the subject stays, and where
one tip remains nowhere else. -/
theorem merge_completes (hreads : sdk.Reads) (hm : sdk.Merges) {bytes : Bytes} (hparse : sdk.parse bytes = .ok b)
    (hraws : ∀ raw ∈ raws, raw.1 ∈ missingSourceTxids sdk bytes) :
    ∃ w, sdk.parse (mergeRawSources sdk bytes raws) = .ok w ∧
      ((∀ t ∈ b.txs, toAsciiLowercase t.txid = (subjectOf sdk b).getD "" → t.tx.isSome = true) →
        SubjectStays sdk raws b → Completes sdk bytes raws b w) ∧
      ∀ tip, remaining b (verified sdk raws) = [tip] → Completes sdk bytes raws b w → SubjectStays sdk raws b := by
  have hverified : ∀ tx ∈ verified sdk raws, ∃ raw ∈ raws, tx.id = raw.1 := by
    intro tx htx
    obtain ⟨raw, hraw, rawBytes, hv⟩ := mem_verified.mp htx
    exact ⟨raw, hraw, id_of_verify hm hparse (hraws raw hraw) hv⟩
  have hnew : ∀ tx ∈ verified sdk raws, tx.id ∉ heldTxids b.txs := by
    intro tx htx
    obtain ⟨raw, hraw, hid⟩ := hverified tx htx
    rw [hid]
    exact (mem_missing hm hparse (hraws raw hraw)).2
  obtain ⟨hbody, hcount⟩ := @foldl_filled _ _ _ hm hnew b [] 0 (filled_refl b) (by simp)
  rw [Nat.zero_add] at hcount
  by_cases hnone : verified sdk raws = []
  · have hsame : mergeRawSources sdk bytes raws = bytes := by
      unfold mergeRawSources
      rw [hparse]
      dsimp only
      rw [if_pos (by rw [hcount, hnone]; rfl)]
    refine ⟨b, by rw [hsame, hparse], fun _ _ => ⟨rfl, fun t ht _ => ht, rfl, fun t ht hno => absurd ht hno, ?_⟩, fun _ _ _ => .inl hnone⟩
    have hnothing : answered sdk raws = [] := by
      rw [List.eq_nil_iff_forall_not_mem]
      intro src hsrc
      obtain ⟨raw, hraw, ⟨tx, rawBytes, hv⟩, -⟩ := mem_answered.mp hsrc
      have := mem_verified.mpr ⟨raw, hraw, rawBytes, hv⟩
      rw [hnone] at this
      cases this
    rw [hsame, hnothing]
    simp
  · have hmerged : (raws.foldl (mergeStep sdk) (b, 0)).2 ≠ 0 := by
      rw [hcount]
      exact fun h => hnone (List.length_eq_zero_iff.mp h)
    obtain ⟨w, hw, hname, hbumps, hperm⟩ := hm.writes bytes b raws hparse hmerged
    have hbytes : mergeRawSources sdk bytes raws = sdk.toBinary (raws.foldl (mergeStep sdk) (b, 0)).1 := by
      unfold mergeRawSources
      rw [hparse]
      dsimp only
      rw [if_neg hmerged]
    have hfilled : Filled b (verified sdk raws) w := by
      rw [List.nil_append] at hbody
      obtain ⟨bare, added, hentries, hfacts⟩ := hbody.entries
      exact ⟨hbumps.trans hbody.bumps, bare, added, hperm.trans hentries, hfacts⟩
    have hspent : ∀ tx ∈ verified sdk raws, toAsciiLowercase tx.id ∈ b.spent := by
      intro tx htx
      obtain ⟨raw, hraw, hid⟩ := hverified tx htx
      obtain ⟨⟨t, ht, hsrc⟩, -⟩ := mem_missing hm hparse (hraws raw hraw)
      obtain ⟨i, hi, hs⟩ := List.mem_filterMap.mp hsrc
      exact mem_spent.mpr ⟨t, ht, i, hi, raw.1, by rw [TransactionInput.spends, hs]; rfl, by rw [hid]⟩
    have hsubject (tip : String) (hone : remaining b (verified sdk raws) = [tip]) : subjectOf sdk w = some tip :=
      subject_of_remaining hname (hfilled.tips_perm hspent) hone
    rw [hbytes]
    refine ⟨w, hw, fun hfull hstays => ?_, fun tip hone h => .inr ⟨tip, hone, h.subject.symm.trans (hsubject tip hone)⟩⟩
    obtain ⟨tip, hone, hb⟩ := hstays.resolve_left hnone
    have hstays : subjectOf sdk w = subjectOf sdk b := (hsubject tip hone).trans hb.symm
    refine ⟨hstays, fun t ht hx => hfilled.kept ht hx, hfilled.bumps, fun t ht hno => ?_, ?_⟩
    · obtain ⟨tx, htx, hid, hx⟩ := (hfilled.mem_txs ht).resolve_left hno
      obtain ⟨raw, hraw, hrawid⟩ := hverified tx htx
      exact ⟨tx, hx, hid, hrawid ▸ hraws raw hraw⟩
    · rw [hbytes]
      exact missing_completed hreads hm hparse hw hraws hfilled hnone hfull hstays

end

/-! ## A named parent with its child -/

def parent : Transaction := spending "parent" ["root"]
def named : BeefTx := ⟨"named", spending "named" ["parent"], none⟩
def child : BeefTx := ⟨"child", spending "child" ["named"], none⟩

def namedBody : Beef := ⟨some "named", [], [named, child]⟩

def aloneBody : Beef := ⟨none, [], [named]⟩

def completed (body : Beef) : Beef := ⟨none, [], ⟨"parent", parent, none⟩ :: body.txs⟩

def namedSdk (body : Beef) : RawSdk where
  parse bytes := if bytes = [1] then .ok body else if bytes = [2] then .ok (completed body) else .error "no BEEF"
  sortTxs txs := txs
  toEf _ := .ok []
  fromHex rawHex := if rawHex = "raw" then .ok parent else .error "no transaction"
  decodeHex _ := .ok []
  mergeRawTx b _ := { b with txs := ⟨"parent", parent, none⟩ :: b.txs.eraseP fun t => t.txid == "parent" }
  toBinary _ := [2]

section
variable {body : Beef}

theorem parse_named {bytes : Bytes} {b : Beef} (h : (namedSdk body).parse bytes = .ok b) : b = body ∨ b = completed body := by
  simp only [namedSdk] at h
  split at h
  · cases h; exact .inl rfl
  · split at h
    · cases h; exact .inr rfl
    · cases h

theorem fromHex_named {rawHex : String} {tx : Transaction} (h : (namedSdk body).fromHex rawHex = .ok tx) : tx = parent := by
  simp only [namedSdk] at h
  split at h
  · cases h; rfl
  · cases h

variable (hbody : body.bumps = [] ∧ body.txs ⊆ [named, child])
include hbody

theorem mem_completed {bytes : Bytes} {b : Beef} (h : (namedSdk body).parse bytes = .ok b) {t : BeefTx} (ht : t ∈ b.txs) :
    t ∈ (completed namedBody).txs := by
  rcases parse_named h with rfl | rfl
  · exact List.mem_cons_of_mem _ (hbody.2 ht)
  · exact List.cons_subset_cons _ hbody.2 ht

theorem namedSdk_reads : (namedSdk body).Reads where
  unlinked := by
    intro bytes b h t ht i hi
    have ht := mem_completed hbody h ht
    simp only [completed, namedBody, List.mem_cons, List.not_mem_nil, or_false] at ht
    rcases ht with rfl | rfl | rfl <;>
      · obtain ⟨src, -, rfl⟩ := List.mem_map.mp hi
        rfl
  named := by
    intro bytes b h t ht u hu hid x y hx hy
    have hsame : t = u := List.inj_on_of_nodup_map (f := BeefTx.txid) (by decide) (mem_completed hbody h ht) (mem_completed hbody h hu) hid
    rw [hsame, hy] at hx
    exact (Option.some.inj hx).symm

theorem erase_parent : body.txs.eraseP (fun t => t.txid == "parent") = body.txs := by
  refine List.eraseP_of_forall_not fun t ht => ?_
  have hin := hbody.2 ht
  simp only [List.mem_cons, List.not_mem_nil, or_false] at hin
  rcases hin with rfl | rfl <;> decide

theorem foldl_named (raws : List (String × String)) (c : Beef) (n : Nat) (hbumps : c.bumps = [])
    (hc : n = 0 ∧ (c.txs = body.txs ∨ c.txs = (completed body).txs) ∨ n ≠ 0 ∧ c.txs = (completed body).txs) :
    (raws.foldl (mergeStep (namedSdk body)) (c, n)).1.bumps = [] ∧
      ((raws.foldl (mergeStep (namedSdk body)) (c, n)).2 ≠ 0 →
        (raws.foldl (mergeStep (namedSdk body)) (c, n)).1.txs = (completed body).txs) := by
  induction raws generalizing c n with
  | nil =>
    refine ⟨hbumps, fun hn => ?_⟩
    rcases hc with ⟨rfl, -⟩ | ⟨-, hc⟩
    · exact absurd rfl hn
    · exact hc
  | cons raw rest ih =>
    rw [List.foldl_cons]
    unfold mergeStep
    cases verify (namedSdk body) raw with
    | none => exact ih c n hbumps hc
    | some merged =>
      refine ih _ _ hbumps (.inr ⟨Nat.succ_ne_zero n, ?_⟩)
      have htxs : c.txs = body.txs ∨ c.txs = (completed body).txs := hc.elim And.right fun h => .inr h.2
      change (⟨"parent", parent, none⟩ : BeefTx) :: c.txs.eraseP (fun t => t.txid == "parent") = _
      rcases htxs with h | h
      · rw [h, erase_parent hbody]
        rfl
      · rw [h]
        rfl

theorem namedSdk_merges : (namedSdk body).Merges where
  sorts _ := .refl _
  upserts := by
    intro b rawHex tx bytes hf _
    rw [fromHex_named hf]
    refine ⟨rfl, rfl, ?_⟩
    rcases List.exists_or_eq_self_of_eraseP (fun t : BeefTx => t.txid == "parent") b.txs with h | ⟨o, before, after, -, ho, hb, herase⟩
    · exact ⟨_, [], b.txs, rfl, rfl, .inl rfl, .refl _, .of_eq (by rw [← h]; rfl)⟩
    · refine ⟨_, [o], before ++ after, rfl, rfl, .inr ⟨o, rfl, beq_iff_eq.mp ho⟩, ?_, .of_eq (by rw [← herase]; rfl)⟩
      rw [hb]
      exact List.perm_middle
  writes := by
    intro bytes b raws h hn
    have hb : b.bumps = [] ∧ (b.txs = body.txs ∨ b.txs = (completed body).txs) := by
      rcases parse_named h with rfl | rfl
      · exact ⟨hbody.1, .inl rfl⟩
      · exact ⟨rfl, .inr rfl⟩
    obtain ⟨hbumps, htxs⟩ := foldl_named hbody raws b 0 hb.1 (.inl ⟨rfl, hb.2⟩)
    exact ⟨completed body, rfl, rfl, hbumps.symm, .of_eq (htxs hn).symm⟩
  entryLower := by
    intro bytes b h t ht
    have ht := mem_completed hbody h ht
    simp only [completed, namedBody, List.mem_cons, List.not_mem_nil, or_false] at ht
    rcases ht with rfl | rfl | rfl <;> decide
  rawLower := by
    intro rawHex tx h
    rw [fromHex_named h]
    decide
  rawNamed := by
    intro rawHex rawHex' tx tx' h h' _
    rw [fromHex_named h, fromHex_named h']

end

theorem namedBody_txs : namedBody.bumps = [] ∧ namedBody.txs ⊆ [named, child] := ⟨rfl, List.Subset.refl _⟩

theorem aloneBody_txs : aloneBody.bumps = [] ∧ aloneBody.txs ⊆ [named, child] := ⟨rfl, by simp [aloneBody]⟩

/-- The name is lost with the merge, and the child becomes the subject. -/
theorem named_subject_lost : (namedSdk namedBody).Reads ∧ (namedSdk namedBody).Merges ∧ (namedSdk namedBody).parse [1] = .ok namedBody ∧
    missingSourceTxids (namedSdk namedBody) [1] = ["parent"] ∧ mergeRawSources (namedSdk namedBody) [1] [("parent", "raw")] = [2] ∧
      (namedSdk namedBody).parse [2] = .ok (completed namedBody) ∧
        ¬Completes (namedSdk namedBody) [1] [("parent", "raw")] namedBody (completed namedBody) := by
  refine ⟨namedSdk_reads namedBody_txs, namedSdk_merges namedBody_txs, rfl, rfl, rfl, rfl, fun h => ?_⟩
  have hsubject : subjectOf (namedSdk namedBody) (completed namedBody) = subjectOf (namedSdk namedBody) namedBody := h.subject
  exact absurd hsubject (by decide)

/-- With no child carried the subject stays. -/
theorem alone_completes : ∃ w, (namedSdk aloneBody).parse (mergeRawSources (namedSdk aloneBody) [1] [("parent", "raw")]) = .ok w ∧
    Completes (namedSdk aloneBody) [1] [("parent", "raw")] aloneBody w := by
  have hparse : (namedSdk aloneBody).parse [1] = .ok aloneBody := rfl
  have hmissing : missingSourceTxids (namedSdk aloneBody) [1] = ["parent"] := rfl
  have hraws : ∀ raw ∈ [("parent", "raw")], raw.1 ∈ missingSourceTxids (namedSdk aloneBody) [1] := by simp [hmissing]
  obtain ⟨w, hw, hcompletes, -⟩ := merge_completes (namedSdk_reads aloneBody_txs) (namedSdk_merges aloneBody_txs) hparse hraws
  refine ⟨w, hw, hcompletes ?_ (.inr ⟨"named", rfl, rfl⟩)⟩
  simp [aloneBody, named]

end OverlayEngine.Ef
