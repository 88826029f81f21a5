import Mathlib.Data.List.Dedup
import Mathlib.Data.Finset.Card
import OverlayEngine.Basis.Entrywise

/-!
# A stored BEEF's BUMP indices

A new proof is merged into a stored BEEF, its subject moved onto it, and the
BUMPs no transaction references are dropped, the rest re-indexed
(`stitch_proof_into_stored_beef` and `gc_unreferenced_bumps` of `engine.rs`).
The indices are the wire's own: nothing says that they name a BUMP.

Taken from outside: bsv-rs's parse, `merge_bump` and `to_binary`, a BUMP's root
and its flagged leaves.
-/

namespace OverlayEngine.BumpIndices

open Entrywise

structure BeefTx (Tx : Type) where
  txid : String
  raw : Tx
  bumpIndex : Option Nat

structure Beef (Bump Tx : Type) where
  bumps : List Bump
  txs : List (BeefTx Tx)

variable {Bump Tx : Type}

namespace Beef

def referenced (beef : Beef Bump Tx) : List Nat := (beef.txs.filterMap BeefTx.bumpIndex).dedup

/-- The BUMPs from `old` on, those referenced kept: where each one went, and the kept. -/
def compact (referenced : List Nat) : Nat → List (Option Nat) × List Bump → List Bump → List (Option Nat) × List Bump
  | _, acc, [] => acc
  | old, acc, bump :: rest =>
    if old ∈ referenced then compact referenced (old + 1) (acc.1 ++ [some acc.2.length], acc.2 ++ [bump]) rest
    else compact referenced (old + 1) (acc.1 ++ [none], acc.2) rest

/-- A transaction re-indexed; `none`: `remap[old]` is past the end. -/
def reindex (remap : List (Option Nat)) (tx : BeefTx Tx) : Option (BeefTx Tx) :=
  match tx.bumpIndex with
  | none => some tx
  | some old => (remap[old]?).map fun new => { tx with bumpIndex := new }

/-- `gc_unreferenced_bumps`; `none`: the index out of bounds. -/
def gcUnreferencedBumps (beef : Beef Bump Tx) : Option (Beef Bump Tx) :=
  if beef.referenced.length = beef.bumps.length then some beef
  else
    let kept := compact beef.referenced 0 ([], []) beef.bumps
    (beef.txs.mapM (reindex kept.1)).map fun txs => { bumps := kept.2, txs := txs }

structure Sdk (Bump Tx Root : Type) where
  parse : List UInt8 → Option (Beef Bump Tx)
  toBinary : Beef Bump Tx → List UInt8
  mergeBump : Beef Bump Tx → Bump → Beef Bump Tx × Nat
  root : Bump → Root
  /-- The txid is a flagged leaf of the BUMP's lowest level. -/
  flagged : Bump → String → Bool

variable {Root : Type}

def findTxid (beef : Beef Bump Tx) (txid : String) : Option Nat :=
  (beef.txs.zipIdx.reverse.find? fun e => e.1.txid = txid).map Prod.snd

def setBumpIndex (beef : Beef Bump Tx) (at_ : Nat) (index : Nat) : Beef Bump Tx :=
  { beef with txs := beef.txs.modify at_ fun tx => { tx with bumpIndex := some index } }

/-- The stored BEEF with the proof merged and the subject moved onto it; `none`: not parsed, or the subject not in it. -/
def stitched (sdk : Sdk Bump Tx Root) (stored : List UInt8) (txid : String) (proof : Bump) : Option (Beef Bump Tx) := do
  let beef ← sdk.parse stored
  let _ ← beef.findTxid txid
  let merged := (sdk.mergeBump beef proof).1
  let i := (sdk.mergeBump beef proof).2
  if (merged.bumps[i]?).any fun bump => sdk.flagged bump txid then
    return ((merged.findTxid txid).map fun at_ => merged.setBumpIndex at_ i).getD merged
  else return merged

/-- `stitch_proof_into_stored_beef`; the inner `none`: the index out of bounds. -/
def stitchProofIntoStoredBeef (sdk : Sdk Bump Tx Root) (stored : List UInt8) (txid : String) (proof : Bump) : Option (Option (List UInt8)) :=
  (stitched sdk stored txid proof).map fun beef => beef.gcUnreferencedBumps.map sdk.toBinary

end Beef

/-! ## What a collection keeps -/

def proofOf (bumps : List Bump) (tx : BeefTx Tx) : Option Bump := tx.bumpIndex.bind fun i => bumps[i]?

structure SameProof (bumps bumps' : List Bump) (tx tx' : BeefTx Tx) : Prop where
  txid : tx'.txid = tx.txid
  raw : tx'.raw = tx.raw
  proof : proofOf bumps' tx' = proofOf bumps tx
  absent : tx.bumpIndex = none → tx'.bumpIndex = none

structure Kept (beef beef' : Beef Bump Tx) : Prop where
  txs : List.Forall₂ (SameProof beef.bumps beef'.bumps) beef.txs beef'.txs
  referenced : ∀ k < beef'.bumps.length, ∃ tx ∈ beef'.txs, tx.bumpIndex = some k
  order : beef'.bumps.Sublist beef.bumps

def InRange (beef : Beef Bump Tx) : Prop := ∀ tx ∈ beef.txs, ∀ i, tx.bumpIndex = some i → i < beef.bumps.length

open Beef

variable {beef : Beef Bump Tx}

theorem mem_referenced {i : Nat} : i ∈ beef.referenced ↔ ∃ tx ∈ beef.txs, tx.bumpIndex = some i := by
  rw [Beef.referenced, List.mem_dedup, List.mem_filterMap]

/-- Where the compaction puts the BUMPs of `rest`, those before `old` done. -/
structure Compacted (referenced : List Nat) (bumps : List Bump) (old : Nat) (acc : List (Option Nat) × List Bump) : Prop where
  length : acc.1.length = old
  sublist : acc.2.Sublist (bumps.take old)
  placed : ∀ i < old, i ∈ referenced → ∃ k, acc.1[i]? = some (some k) ∧ acc.2[k]? = bumps[i]?
  from_ : ∀ k < acc.2.length, ∃ i < old, i ∈ referenced ∧ acc.1[i]? = some (some k)

theorem compacted_nil (referenced : List Nat) (bumps : List Bump) : Compacted referenced bumps 0 ([], []) where
  length := rfl
  sublist := List.Sublist.refl _
  placed i hi := absurd hi (Nat.not_lt_zero i)
  from_ k hk := absurd hk (Nat.not_lt_zero k)

theorem Compacted.step {referenced : List Nat} {bumps : List Bump} {old : Nat} {acc : List (Option Nat) × List Bump}
    (h : Compacted referenced bumps old acc) {bump : Bump} (hbump : bumps[old]? = some bump) :
    Compacted referenced bumps (old + 1)
      (if old ∈ referenced then (acc.1 ++ [some acc.2.length], acc.2 ++ [bump]) else (acc.1 ++ [none], acc.2)) := by
  have htake : bumps.take (old + 1) = bumps.take old ++ [bump] := by rw [List.take_add_one, hbump]; rfl
  have hold {i : Nat} (hi : i < old) (last : Option Nat) : (acc.1 ++ [last])[i]? = acc.1[i]? :=
    List.getElem?_append_left (h.length ▸ hi)
  have hlast (last : Option Nat) : (acc.1 ++ [last])[old]? = some last := by
    rw [List.getElem?_append_right (Nat.le_of_eq h.length), h.length, Nat.sub_self]
    rfl
  by_cases hin : old ∈ referenced
  · rw [if_pos hin]
    refine ⟨by simp [h.length], htake ▸ h.sublist.append (List.Sublist.refl _), fun i hi href => ?_, fun k hk => ?_⟩
    · rcases Nat.lt_succ_iff_lt_or_eq.mp hi with hi | rfl
      · obtain ⟨k, hk, hat⟩ := h.placed i hi href
        refine ⟨k, (hold hi _).trans hk, ?_⟩
        have hlt : k < acc.2.length := by
          have hi' : i < bumps.length := Nat.lt_trans hi (List.getElem?_eq_some_iff.mp hbump).1
          rw [List.getElem?_eq_getElem hi'] at hat
          exact (List.getElem?_eq_some_iff.mp hat).1
        rw [List.getElem?_append_left hlt, hat]
      · refine ⟨acc.2.length, hlast _, ?_⟩
        rw [List.getElem?_append_right (Nat.le_refl _), Nat.sub_self, hbump]
        rfl
    · rw [List.length_append, List.length_singleton] at hk
      rcases Nat.lt_succ_iff_lt_or_eq.mp hk with hk | rfl
      · obtain ⟨i, hi, href, hat⟩ := h.from_ k hk
        exact ⟨i, Nat.lt_succ_of_lt hi, href, (hold hi _).trans hat⟩
      · exact ⟨old, Nat.lt_succ_self old, hin, hlast _⟩
  · rw [if_neg hin]
    refine ⟨by simp [h.length], htake ▸ h.sublist.trans (List.sublist_append_left _ _), fun i hi href => ?_, fun k hk => ?_⟩
    · rcases Nat.lt_succ_iff_lt_or_eq.mp hi with hi | rfl
      · obtain ⟨k, hk, hat⟩ := h.placed i hi href
        exact ⟨k, (hold hi _).trans hk, hat⟩
      · exact absurd href hin
    · obtain ⟨i, hi, href, hat⟩ := h.from_ k hk
      exact ⟨i, Nat.lt_succ_of_lt hi, href, (hold hi _).trans hat⟩

theorem compact_compacted {referenced : List Nat} {bumps rest : List Bump} {old : Nat} {acc : List (Option Nat) × List Bump}
    (h : Compacted referenced bumps old acc) (hrest : bumps.drop old = rest) :
    Compacted referenced bumps (old + rest.length) (compact referenced old acc rest) := by
  induction rest generalizing old acc with
  | nil => exact h
  | cons bump tail ih =>
    have hbump : bumps[old]? = some bump := by
      rw [← List.head?_drop, hrest]
      rfl
    have htail : bumps.drop (old + 1) = tail := by
      rw [← List.tail_drop, hrest]
      rfl
    have hstep := h.step hbump
    have hlen : old + (bump :: tail).length = old + 1 + tail.length := by simp [Nat.add_comm, Nat.add_left_comm]
    rw [hlen]
    unfold compact
    by_cases hin : old ∈ referenced
    · rw [if_pos hin] at hstep ⊢
      exact ih hstep htail
    · rw [if_neg hin] at hstep ⊢
      exact ih hstep htail

theorem compacted_all (referenced : List Nat) (bumps : List Bump) :
    Compacted referenced bumps bumps.length (compact referenced 0 ([], []) bumps) := by
  have h := compact_compacted (compacted_nil referenced bumps) (show bumps.drop 0 = bumps from rfl)
  rwa [Nat.zero_add] at h

theorem reindex_same {tx : BeefTx Tx} (hin : tx ∈ beef.txs) (hrange : ∀ i, tx.bumpIndex = some i → i < beef.bumps.length)
    {kept : List (Option Nat) × List Bump} (h : Compacted beef.referenced beef.bumps beef.bumps.length kept) :
    ∃ tx', reindex kept.1 tx = some tx' ∧ SameProof beef.bumps kept.2 tx tx' := by
  cases hindex : tx.bumpIndex with
  | none =>
    refine ⟨tx, by rw [reindex, hindex], rfl, rfl, ?_, fun _ => hindex⟩
    rw [proofOf, proofOf, hindex]
    rfl
  | some old =>
    obtain ⟨k, hk, hat⟩ := h.placed old (hrange old hindex) (mem_referenced.mpr ⟨tx, hin, hindex⟩)
    refine ⟨{ tx with bumpIndex := some k }, by rw [reindex, hindex]; dsimp only; rw [hk]; rfl, rfl, rfl, ?_, fun hnone => ?_⟩
    · rw [proofOf, proofOf, hindex]
      exact hat
    · rw [hindex] at hnone
      cases hnone

theorem referenced_all (h : InRange beef) (hcount : beef.referenced.length = beef.bumps.length) {k : Nat}
    (hk : k < beef.bumps.length) : k ∈ beef.referenced := by
  have hsub : beef.referenced ⊆ List.range beef.bumps.length := fun i hi => by
    obtain ⟨tx, htx, hindex⟩ := mem_referenced.mp hi
    exact List.mem_range.mpr (h tx htx i hindex)
  have hnodup : beef.referenced.Nodup := List.nodup_dedup _
  have hperm := (List.subperm_of_subset hnodup hsub).perm_of_length_le (by rw [List.length_range, hcount])
  exact hperm.mem_iff.mpr (List.mem_range.mpr hk)

theorem gc_kept (h : InRange beef) : ∃ beef', beef.gcUnreferencedBumps = some beef' ∧ Kept beef beef' := by
  unfold Beef.gcUnreferencedBumps
  by_cases hcount : beef.referenced.length = beef.bumps.length
  · rw [if_pos hcount]
    exact ⟨beef, rfl, List.forall₂_same.mpr fun tx _ => ⟨rfl, rfl, rfl, fun hnone => hnone⟩,
      fun k hk => mem_referenced.mp (referenced_all h hcount hk), List.Sublist.refl _⟩
  · rw [if_neg hcount]
    dsimp only
    have hall := compacted_all beef.referenced beef.bumps
    obtain ⟨txs, hboth⟩ := exists_forall₂ fun tx htx => reindex_same htx (h tx htx) hall
    have htxs := mapM_some_iff.mpr (hboth.imp fun _ _ both => both.1)
    refine ⟨⟨(compact beef.referenced 0 ([], []) beef.bumps).2, txs⟩, by rw [htxs]; rfl, hboth.imp fun _ _ both => both.2, fun k hk => ?_, ?_⟩
    · obtain ⟨i, -, href, hat⟩ := hall.from_ k hk
      obtain ⟨tx, htx, hindex⟩ := mem_referenced.mp href
      obtain ⟨tx', htx', hre, -⟩ := forall₂_mem_left hboth htx
      rw [reindex, hindex] at hre
      dsimp only at hre
      rw [hat, Option.map_some] at hre
      exact ⟨tx', htx', by rw [← Option.some.inj hre]⟩
    · have := hall.sublist
      rwa [List.take_length] at this

theorem gc_range {beef beef' : Beef Bump Tx} (hgc : beef.gcUnreferencedBumps = some beef') (hkept : Kept beef beef') : InRange beef := by
  intro tx htx i hindex
  unfold Beef.gcUnreferencedBumps at hgc
  split at hgc
  case isTrue hcount =>
    obtain rfl := Option.some.inj hgc
    have hsub : List.range beef.bumps.length ⊆ beef.referenced := fun k hk => mem_referenced.mpr (hkept.referenced k (List.mem_range.mp hk))
    have hperm := (List.subperm_of_subset List.nodup_range hsub).perm_of_length_le (by rw [List.length_range, hcount])
    exact List.mem_range.mp (hperm.mem_iff.mpr (mem_referenced.mpr ⟨tx, htx, hindex⟩))
  case isFalse =>
    obtain ⟨txs, htxs, -⟩ := Option.map_eq_some_iff.mp hgc
    obtain ⟨tx', -, hre⟩ := forall₂_mem_left (mapM_some_iff.mp htxs) htx
    rw [reindex, hindex] at hre
    dsimp only at hre
    obtain ⟨new, hnew, -⟩ := Option.map_eq_some_iff.mp hre
    rw [← (compacted_all beef.referenced beef.bumps).length]
    exact (List.getElem?_eq_some_iff.mp hnew).1

/-! ## A stitched body -/

section
variable {Root : Type} (sdk : Sdk Bump Tx Root)

def Carries (bump bump' : Bump) : Prop := sdk.root bump' = sdk.root bump ∧ ∀ txid, sdk.flagged bump txid = true → sdk.flagged bump' txid = true

/-- What `merge_bump` does: it appends the proof or combines it with a BUMP of its root, and answers an index that carries it. -/
structure Merges (beef : Beef Bump Tx) (proof : Bump) : Prop where
  txs : List.Forall₂ (fun tx tx' => tx'.txid = tx.txid ∧ tx'.raw = tx.raw ∧ (tx'.bumpIndex = tx.bumpIndex ∨
    tx.bumpIndex = none ∧ tx'.bumpIndex = some (sdk.mergeBump beef proof).2 ∧ sdk.flagged proof tx.txid = true))
    beef.txs (sdk.mergeBump beef proof).1.txs
  bumps : ∀ (k : Nat) (bump : Bump), beef.bumps[k]? = some bump → ∃ bump', (sdk.mergeBump beef proof).1.bumps[k]? = some bump' ∧ Carries sdk bump bump'
  carried : ∃ bump', (sdk.mergeBump beef proof).1.bumps[(sdk.mergeBump beef proof).2]? = some bump' ∧ Carries sdk proof bump'

structure Stitched (subject : String) (proof : Bump) (bumps bumps' : List Bump) (tx tx' : BeefTx Tx) : Prop where
  txid : tx'.txid = tx.txid
  raw : tx'.raw = tx.raw
  kept : tx.txid ≠ subject → ∀ bump, proofOf bumps tx = some bump → ∃ bump', proofOf bumps' tx' = some bump' ∧ Carries sdk bump bump'
  gained : tx.txid ≠ subject → tx.bumpIndex = none → tx'.bumpIndex = none ∨
    sdk.flagged proof tx.txid = true ∧ ∃ bump', proofOf bumps' tx' = some bump' ∧ Carries sdk proof bump'

structure StitchKeeps (beef : Beef Bump Tx) (txid : String) (proof : Bump) (beef' : Beef Bump Tx) : Prop where
  txs : List.Forall₂ (Stitched sdk txid proof beef.bumps beef'.bumps) beef.txs beef'.txs
  subject : sdk.flagged proof txid = true → ∃ tx' ∈ beef'.txs, tx'.txid = txid ∧ ∃ bump', proofOf beef'.bumps tx' = some bump' ∧ Carries sdk proof bump'

end

theorem findTxid_some {txid : String} {at_ : Nat} (h : beef.findTxid txid = some at_) :
    ∃ tx, beef.txs[at_]? = some tx ∧ tx.txid = txid := by
  obtain ⟨e, he, rfl⟩ := Option.map_eq_some_iff.mp h
  have hmem := List.mem_reverse.mp (List.mem_of_find?_eq_some he)
  exact ⟨e.1, List.mem_zipIdx_iff_getElem?.mp hmem, by simpa using List.find?_some he⟩

theorem findTxid_isSome {txid : String} (h : ∃ tx ∈ beef.txs, tx.txid = txid) : ∃ at_, beef.findTxid txid = some at_ := by
  obtain ⟨tx, htx, rfl⟩ := h
  obtain ⟨i, hi⟩ := List.mem_iff_getElem?.mp htx
  unfold findTxid
  cases hfind : beef.txs.zipIdx.reverse.find? fun e => e.1.txid = tx.txid with
  | some e => exact ⟨e.2, rfl⟩
  | none =>
    have := List.find?_eq_none.mp hfind (tx, i) (List.mem_reverse.mpr (List.mem_zipIdx_iff_getElem?.mpr hi))
    simp at this

section
variable {Root : Type} {sdk : Sdk Bump Tx Root} {beef : Beef Bump Tx} {txid : String} {proof : Bump}

theorem stitched_body (hmerge : Merges sdk beef proof) {stored : List UInt8} (hparse : sdk.parse stored = some beef)
    (hin : ∃ tx ∈ beef.txs, tx.txid = txid) :
    ∃ body, stitched sdk stored txid proof = some body ∧ body.bumps = (sdk.mergeBump beef proof).1.bumps ∧
      List.Forall₂ (fun tx tx' => tx'.txid = tx.txid ∧ tx'.raw = tx.raw ∧
        (tx'.bumpIndex = tx.bumpIndex ∨ tx.txid = txid ∧ tx'.bumpIndex = some (sdk.mergeBump beef proof).2))
        (sdk.mergeBump beef proof).1.txs body.txs ∧
      (sdk.flagged proof txid = true → ∃ tx' ∈ body.txs, tx'.txid = txid ∧ tx'.bumpIndex = some (sdk.mergeBump beef proof).2) := by
  obtain ⟨at_, hat⟩ := findTxid_isSome hin
  obtain ⟨bump, hbump, hcarries⟩ := hmerge.carried
  have hin' : ∃ tx ∈ (sdk.mergeBump beef proof).1.txs, tx.txid = txid := by
    obtain ⟨tx, htx, hid⟩ := hin
    obtain ⟨tx', htx', hsame, -⟩ := forall₂_mem_left hmerge.txs htx
    exact ⟨tx', htx', hsame.trans hid⟩
  obtain ⟨new, hnew⟩ := findTxid_isSome hin'
  obtain ⟨tx, htx, hid⟩ := findTxid_some hnew
  unfold stitched
  rw [hparse, Option.bind_eq_bind, Option.bind_some, hat]
  dsimp only [Option.bind_eq_bind, Option.bind_some]
  rw [hbump, Option.any_some]
  by_cases hflag : sdk.flagged bump txid = true
  · rw [if_pos hflag, hnew]
    refine ⟨_, rfl, rfl, forall₂_modify (fun tx => ⟨rfl, rfl, .inl rfl⟩) fun a ha => ⟨rfl, rfl, .inr ⟨?_, rfl⟩⟩, fun _ => ?_⟩
    · rw [htx] at ha
      rw [← Option.some.inj ha, hid]
    · refine ⟨{ tx with bumpIndex := some (sdk.mergeBump beef proof).2 }, ?_, hid, rfl⟩
      refine List.mem_of_getElem? (i := new) ?_
      dsimp only [Option.map_some, Option.getD_some, setBumpIndex]
      rw [List.getElem?_modify_eq, htx]
      rfl
  · rw [if_neg hflag]
    exact ⟨_, rfl, rfl, List.forall₂_same.mpr fun tx _ => ⟨rfl, rfl, .inl rfl⟩, fun hproof => absurd (hcarries.2 txid hproof) hflag⟩

theorem stitch_keeps (hrange : InRange beef) (hmerge : Merges sdk beef proof) {stored : List UInt8} (hparse : sdk.parse stored = some beef)
    (hin : ∃ tx ∈ beef.txs, tx.txid = txid) :
    ∃ beef', stitchProofIntoStoredBeef sdk stored txid proof = some (some (sdk.toBinary beef')) ∧ StitchKeeps sdk beef txid proof beef' := by
  obtain ⟨body, hbody, hbumps, htxs, hsubject⟩ := stitched_body hmerge hparse hin
  obtain ⟨bump, hbump, hcarries⟩ := hmerge.carried
  have hboth := forall₂_comp hmerge.txs htxs
  have hi : (sdk.mergeBump beef proof).2 < body.bumps.length := hbumps ▸ (List.getElem?_eq_some_iff.mp hbump).1
  have hlen {k : Nat} (hk : k < beef.bumps.length) : k < body.bumps.length := by
    obtain ⟨bump', hbump', -⟩ := hmerge.bumps k _ (List.getElem?_eq_getElem hk)
    exact hbumps ▸ (List.getElem?_eq_some_iff.mp hbump').1
  have hrange' : InRange body := by
    intro tx' htx' k hk
    obtain ⟨tx, htx, mid, ⟨-, -, hmid⟩, -, -, hlast⟩ := forall₂_mem_left hboth.flip htx'
    rcases hlast with hlast | ⟨-, hlast⟩
    · rcases hmid with hmid | ⟨-, hmid, -⟩
      · exact hlen (hrange tx htx k (hmid ▸ hlast ▸ hk))
      · rw [hlast, hmid] at hk
        exact Option.some.inj hk ▸ hi
    · rw [hlast] at hk
      exact Option.some.inj hk ▸ hi
  obtain ⟨beef', hgc, hkept⟩ := gc_kept hrange'
  refine ⟨beef', by rw [stitchProofIntoStoredBeef, hbody, Option.map_some, hgc]; rfl, ?_, fun hflag => ?_⟩
  · refine (forall₂_comp hboth hkept.txs).imp fun tx tx' => ?_
    rintro ⟨moved, ⟨mid, ⟨hid, hraw, hmid⟩, hid', hraw', hlast⟩, hsame⟩
    have hproof : proofOf beef'.bumps tx' = moved.bumpIndex.bind fun i => (sdk.mergeBump beef proof).1.bumps[i]? := by
      rw [hsame.proof, proofOf, hbumps]
    refine ⟨hsame.txid.trans (hid'.trans hid), hsame.raw.trans (hraw'.trans hraw), fun hne bump₁ hold => ?_, fun hne hnone => ?_⟩
    · obtain ⟨k, hk, hat⟩ := Option.bind_eq_some_iff.mp hold
      have hindex : moved.bumpIndex = some k := by
        rw [hlast.resolve_right fun hsub => hne (hid ▸ hsub.1), hmid.resolve_right fun hgain => ?_, hk]
        rw [hgain.1] at hk
        cases hk
      obtain ⟨bump₂, hbump₂, hc⟩ := hmerge.bumps k bump₁ hat
      exact ⟨bump₂, by rw [hproof, hindex]; exact hbump₂, hc⟩
    · have hmoved : moved.bumpIndex = mid.bumpIndex := hlast.resolve_right fun hsub => hne (hid ▸ hsub.1)
      rcases hmid with hmid | ⟨-, hmid, hflag⟩
      · exact .inl (hsame.absent (hmoved.trans (hmid.trans hnone)))
      · exact .inr ⟨hflag, bump, by rw [hproof, hmoved, hmid]; exact hbump, hcarries⟩
  · obtain ⟨moved, hmoved, hid, hindex⟩ := hsubject hflag
    obtain ⟨tx', htx', hsame⟩ := forall₂_mem_left hkept.txs hmoved
    exact ⟨tx', htx', hsame.txid.trans hid, bump, by rw [hsame.proof, proofOf, hbumps, hindex]; exact hbump, hcarries⟩

end

def Keeps (beef : Beef Bump Tx) : Prop :=
  (∃ beef', beef.gcUnreferencedBumps = some beef' ∧ Kept beef beef') ∧
  ∀ (Root : Type) (sdk : Sdk Bump Tx Root) (stored : List UInt8) (txid : String) (proof : Bump), sdk.parse stored = some beef →
    (∃ tx ∈ beef.txs, tx.txid = txid) → Merges sdk beef proof →
    ∃ beef', stitchProofIntoStoredBeef sdk stored txid proof = some (some (sdk.toBinary beef')) ∧ StitchKeeps sdk beef txid proof beef'

/-- Stitching keeps every transaction's proof exactly when each index the body names is a BUMP of it. -/
theorem keeps_iff_inRange (beef : Beef Bump Tx) : Keeps beef ↔ InRange beef := by
  constructor
  · rintro ⟨⟨beef', hgc, hkept⟩, -⟩
    exact gc_range hgc hkept
  · intro h
    exact ⟨gc_kept h, fun Root sdk stored txid proof hparse hin hmerge => stitch_keeps h hmerge hparse hin⟩

def strayBeef : Beef Nat Unit := { bumps := [7], txs := [⟨"subject", (), some 0⟩, ⟨"sibling", (), some 5⟩] }

theorem stray_index_panics : strayBeef.gcUnreferencedBumps = none ∧ ¬ Keeps strayBeef := by
  refine ⟨by decide, fun h => ?_⟩
  obtain ⟨beef', hgc, -⟩ := h.1
  have hnone : strayBeef.gcUnreferencedBumps = none := by decide
  rw [hnone] at hgc
  cases hgc

end OverlayEngine.BumpIndices
