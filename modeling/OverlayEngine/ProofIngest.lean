import Mathlib.Logic.Relation
import OverlayEngine.BumpIndices
import OverlayEngine.Storage

/-!
# A new proof's way into the stored BEEFs

`handle_new_merkle_proof` of `engine.rs`: the proof of a transaction is stitched
into its own stored BEEF and into those of the transactions that its outputs'
`consumed_by` names, in a store none of whose calls fails.

Taken from outside: what `BumpIndices` takes, and bsv-rs's `MerklePath::from_hex`.
-/

namespace OverlayEngine.ProofIngest

open BumpIndices (Carries Merges proofOf)
open Entrywise
open BumpIndices.Beef (Sdk stitchProofIntoStoredBeef)

/-- The `outputs` rows, and the `transactions` table's BEEF of a txid. -/
structure Tables where
  store : Store
  transactions : AList fun _ : Txid => Bytes

def atHeight (height : Nat) (o : Output) : Output := { o with blockHeight := some height }

theorem atHeight_key (height : Nat) (o : Output) : (atHeight height o).outpoint = o.outpoint ∧ (atHeight height o).topic = o.topic := ⟨rfl, rfl⟩

namespace Tables

/-- `find_outputs_for_transaction` with the BEEF. -/
def findOutputsForTransaction (s : Tables) (txid : Txid) : List (Output × Option Bytes) :=
  (s.store.outputsOf txid).map fun o => (o, s.transactions.lookup txid)

def updateTransactionBeef (s : Tables) (txid : Txid) (beef : Bytes) : Tables := { s with transactions := s.transactions.insert txid beef }

def updateOutputBlockHeight (s : Tables) (o : Output) (height : Nat) : Tables :=
  { s with store := s.store.modify (o.outpoint, o.topic) (atHeight height) (atHeight_key height) }

end Tables

variable {Bump Tx Root : Type} (sdk : Sdk Bump Tx Root)

/-- The BEEF of a row with the proof stitched in, where it has the transaction; `none`: the stitch panicked. -/
def stitchRow (txid : Txid) (proof : Option Bump) (s : Tables) (row : Output × Option Bytes) : Option Tables :=
  match row.2, proof with
  | some beef, some proof =>
    match stitchProofIntoStoredBeef sdk beef txid proof with
    | none => some s
    | some stitched => stitched.map (s.updateTransactionBeef row.1.txid)
  | _, _ => some s

def stitchConsuming (txid : Txid) (proof : Option Bump) (s : Tables) (consuming : Outpoint) : Option Tables :=
  (s.findOutputsForTransaction consuming.txid).foldlM (stitchRow sdk txid proof) s

def ingestOutput (txid : Txid) (proof : Option Bump) (height : Option Nat) (s : Tables) (row : Output × Option Bytes) : Option Tables :=
  (stitchRow sdk txid proof s row).bind fun s =>
    row.1.consumedBy.foldlM (stitchConsuming sdk txid proof) ((height.map (s.updateOutputBlockHeight row.1)).getD s)

def noOutputs : String := "Could not find matching transaction outputs for proof ingest!"

def proofOfHex (merklePathFromHex : String → Except String Bump) (proofHex : String) : Except String (Option Bump) :=
  if proofHex.isEmpty then .ok none
  else
    match merklePathFromHex proofHex with
    | .ok proof => .ok (some proof)
    | .error e => .error ("Invalid merkle proof hex: " ++ e)

/-- `handle_new_merkle_proof`; `none`: a stitch panicked. -/
def handleNewMerkleProof (merklePathFromHex : String → Except String Bump) (s : Tables) (txid : Txid) (proofHex : String)
    (height : Option Nat) : Option (Except String Tables) :=
  let outputs := s.findOutputsForTransaction txid
  if outputs.isEmpty then some (.error noOutputs)
  else
    match proofOfHex merklePathFromHex proofHex with
    | .error e => some (.error e)
    | .ok proof => (outputs.foldlM (ingestOutput sdk txid proof height) s).map .ok

/-! ## What the stored BEEFs hold -/

def entry (beef : BumpIndices.Beef Bump Tx) (txid : Txid) : Option (BumpIndices.BeefTx Tx) := (beef.findTxid txid).bind fun at_ => beef.txs[at_]?

/-- The stored BEEF has the whole transaction; `whole`: not its txid alone. -/
def Holds (whole : Tx → Bool) (txid : Txid) (stored : Bytes) : Prop :=
  ∃ beef tx, sdk.parse stored = some beef ∧ entry beef txid = some tx ∧ whole tx.raw = true

def HasProof (txid : Txid) (proof : Bump) (stored : Bytes) : Prop :=
  ∃ beef tx bump, sdk.parse stored = some beef ∧ entry beef txid = some tx ∧ proofOf beef.bumps tx = some bump ∧ Carries sdk proof bump

structure Laws (whole : Tx → Bool) : Prop where
  merges : ∀ beef proof, Merges sdk beef proof
  rereads : ∀ stored txid proof beef, (BumpIndices.Beef.stitched sdk stored txid proof).bind BumpIndices.Beef.gcUnreferencedBumps = some beef →
    ∃ read, sdk.parse (sdk.toBinary beef) = some read ∧ ∀ id tx, entry beef id = some tx → whole tx.raw = true →
      ∃ tx', entry read id = some tx' ∧ tx'.raw = tx.raw ∧ proofOf read.bumps tx' = proofOf beef.bumps tx

/-- An output of `txid` names `consuming` as what consumed it. -/
def ConsumedBy (s : Tables) (txid consuming : Txid) : Prop := ∃ o ∈ s.store.outputsOf txid, ∃ p ∈ o.consumedBy, p.txid = consuming

def Stored (s : Tables) (txid : Txid) (beef : Bytes) : Prop := s.store.outputsOf txid ≠ [] ∧ s.transactions.lookup txid = some beef

/-- Each stored transaction that `consumed_by` reaches from the outputs of `txid`, in any number of steps, and whose BEEF holds `txid`
ends with a BEEF that has the proof. -/
def ReachesAll (whole : Tx → Bool) (txid : Txid) (proof : Bump) (s s' : Tables) : Prop :=
  ∀ t beef, Relation.ReflTransGen (ConsumedBy s) txid t → Stored s t beef → Holds sdk whole txid beef →
    ∃ beef', s'.transactions.lookup t = some beef' ∧ HasProof sdk txid proof beef'

/-! ## One stitch -/

theorem findTxid_txids (beef : BumpIndices.Beef Bump Tx) (txid : Txid) :
    beef.findTxid txid = ((beef.txs.map BumpIndices.BeefTx.txid).zipIdx.reverse.find? fun e => e.1 = txid).map Prod.snd := by
  rw [BumpIndices.Beef.findTxid, List.zipIdx_map, ← List.map_reverse, List.find?_map, Option.map_map]
  rfl

variable {tx : BumpIndices.BeefTx Tx}

theorem entry_forall₂ {R : BumpIndices.BeefTx Tx → BumpIndices.BeefTx Tx → Prop} {beef : BumpIndices.Beef Bump Tx}
    (beef' : BumpIndices.Beef Bump Tx) (h : List.Forall₂ R beef.txs beef'.txs)
    (hid : ∀ a b, R a b → b.txid = a.txid) {txid : Txid} (hentry : entry beef txid = some tx) :
    ∃ tx', entry beef' txid = some tx' ∧ R tx tx' := by
  obtain ⟨at_, hat, htx⟩ := Option.bind_eq_some_iff.mp hentry
  have hids : beef'.txs.map BumpIndices.BeefTx.txid = beef.txs.map BumpIndices.BeefTx.txid := by
    clear hentry hat htx
    generalize beef.txs = l at h
    generalize beef'.txs = l' at h
    induction h with
    | nil => rfl
    | cons hr _ ih => rw [List.map_cons, List.map_cons, hid _ _ hr, ih]
  have hat' : beef'.findTxid txid = some at_ := by rw [findTxid_txids, hids, ← findTxid_txids, hat]
  have hlt : at_ < beef'.txs.length := h.length_eq ▸ (List.getElem?_eq_some_iff.mp htx).1
  refine ⟨beef'.txs[at_], by rw [entry, hat', Option.bind_some, List.getElem?_eq_getElem hlt], ?_⟩
  rw [← (List.getElem?_eq_some_iff.mp htx).2]
  exact h.get _ _

theorem reindex_txid {remap : List (Option Nat)} {tx' : BumpIndices.BeefTx Tx} (h : BumpIndices.Beef.reindex remap tx = some tx') :
    tx'.txid = tx.txid := by
  unfold BumpIndices.Beef.reindex at h
  split at h
  · cases h
    rfl
  · obtain ⟨new, -, rfl⟩ := Option.map_eq_some_iff.mp h
    rfl

theorem entry_gc {beef beef' : BumpIndices.Beef Bump Tx} (h : beef.gcUnreferencedBumps = some beef') {txid : Txid} {bump : Bump}
    (hentry : entry beef txid = some tx) (hproof : proofOf beef.bumps tx = some bump) :
    ∃ tx', entry beef' txid = some tx' ∧ tx'.raw = tx.raw ∧ proofOf beef'.bumps tx' = some bump := by
  unfold BumpIndices.Beef.gcUnreferencedBumps at h
  split at h
  · cases h
    exact ⟨tx, hentry, rfl, hproof⟩
  · obtain ⟨txs, htxs, rfl⟩ := Option.map_eq_some_iff.mp h
    have hmem : tx ∈ beef.txs := by
      obtain ⟨at_, -, hat⟩ := Option.bind_eq_some_iff.mp hentry
      exact List.mem_of_getElem? hat
    obtain ⟨tx', hentry', hre⟩ := entry_forall₂ ⟨(BumpIndices.Beef.compact beef.referenced 0 ([], []) beef.bumps).2, txs⟩ (mapM_some_iff.mp htxs)
      (fun _ _ => reindex_txid) hentry
    obtain ⟨i, hindex, hat⟩ := Option.bind_eq_some_iff.mp hproof
    have hrange (j : Nat) (hj : tx.bumpIndex = some j) : j < beef.bumps.length := by
      rw [hindex] at hj
      cases hj
      exact (List.getElem?_eq_some_iff.mp hat).1
    obtain ⟨tx'', hre'', hsame⟩ := BumpIndices.reindex_same hmem hrange (BumpIndices.compacted_all beef.referenced beef.bumps)
    rw [hre] at hre''
    cases hre''
    exact ⟨tx', hentry', hsame.raw, hsame.proof.trans hproof⟩

section
variable {sdk} {whole : Tx → Bool} {txid : Txid} {proof : Bump} {stored : Bytes}

theorem stitched_entry (hmerge : ∀ beef proof, Merges sdk beef proof) (hflag : sdk.flagged proof txid = true)
    (hholds : Holds sdk whole txid stored) {body : BumpIndices.Beef Bump Tx} (h : BumpIndices.Beef.stitched sdk stored txid proof = some body) :
    ∃ tx bump, entry body txid = some tx ∧ whole tx.raw = true ∧ proofOf body.bumps tx = some bump ∧ Carries sdk proof bump := by
  obtain ⟨beef, tx, hparse, hentry, hwhole⟩ := hholds
  obtain ⟨bump, hbump, hcarries⟩ := (hmerge beef proof).carried
  obtain ⟨mid, hmid, -, hraw, -⟩ := entry_forall₂ _ (hmerge beef proof).txs (fun _ _ h => h.1) hentry
  obtain ⟨at_, hat, htx⟩ := Option.bind_eq_some_iff.mp hmid
  obtain ⟨old, hold, -⟩ := Option.bind_eq_some_iff.mp hentry
  simp only [BumpIndices.Beef.stitched, hparse, hold, Option.bind_eq_bind, Option.bind_some, hbump, Option.any_some,
    hcarries.2 txid hflag, if_true, hat, Option.map_some, Option.getD_some] at h
  cases h
  obtain ⟨tx', hentry', hmoved⟩ := entry_forall₂ ((sdk.mergeBump beef proof).1.setBumpIndex at_ (sdk.mergeBump beef proof).2)
    (forall₂_modify (R := fun a b : BumpIndices.BeefTx Tx => b.txid = a.txid ∧ b.raw = a.raw) (fun _ => ⟨rfl, rfl⟩)
      fun _ _ => ⟨rfl, rfl⟩)
    (fun _ _ h => h.1) hmid
  have hat' : ((sdk.mergeBump beef proof).1.setBumpIndex at_ (sdk.mergeBump beef proof).2).findTxid txid = some at_ := by
    rw [findTxid_txids, BumpIndices.Beef.setBumpIndex]
    dsimp only
    have hids : ((sdk.mergeBump beef proof).1.txs.modify at_ fun tx => { tx with bumpIndex := some (sdk.mergeBump beef proof).2 }).map
        BumpIndices.BeefTx.txid = (sdk.mergeBump beef proof).1.txs.map BumpIndices.BeefTx.txid := by
      apply List.ext_getElem?
      intro i
      rw [List.getElem?_map, List.getElem?_map, List.getElem?_modify]
      split <;> cases (sdk.mergeBump beef proof).1.txs[i]? <;> rfl
    rw [hids, ← findTxid_txids, hat]
  refine ⟨tx', bump, hentry', ?_, ?_, hcarries⟩
  · rw [hmoved.2, hraw]
    exact hwhole
  · rw [entry, hat', Option.bind_some, BumpIndices.Beef.setBumpIndex] at hentry'
    dsimp only at hentry'
    rw [List.getElem?_modify_eq, htx] at hentry'
    cases hentry'
    exact hbump

theorem stitch_hasProof (laws : Laws sdk whole) (hflag : sdk.flagged proof txid = true) {new : Bytes} (hholds : Holds sdk whole txid stored)
    (h : stitchProofIntoStoredBeef sdk stored txid proof = some (some new)) : Holds sdk whole txid new ∧ HasProof sdk txid proof new := by
  obtain ⟨body, hbody, hgc⟩ := Option.map_eq_some_iff.mp h
  obtain ⟨beef', hkept, rfl⟩ := Option.map_eq_some_iff.mp hgc
  obtain ⟨tx, bump, hentry, hwhole, hproof, hcarries⟩ := stitched_entry laws.merges hflag hholds hbody
  obtain ⟨tx', hentry', hraw, hproof'⟩ := entry_gc hkept hentry hproof
  obtain ⟨read, hread, hentries⟩ := laws.rereads stored txid proof beef' (by rw [hbody]; exact hkept)
  obtain ⟨tx'', hentry'', hraw', hproof''⟩ := hentries txid tx' hentry' (by rw [hraw]; exact hwhole)
  refine ⟨⟨read, tx'', hread, hentry'', ?_⟩, ⟨read, tx'', bump, hread, hentry'', hproof''.trans hproof', hcarries⟩⟩
  rw [hraw', hraw]
  exact hwhole

theorem stitch_of_holds (hholds : Holds sdk whole txid stored) : stitchProofIntoStoredBeef sdk stored txid proof ≠ none := by
  obtain ⟨beef, tx, hparse, hentry, -⟩ := hholds
  obtain ⟨at_, hat, -⟩ := Option.bind_eq_some_iff.mp hentry
  intro hnone
  have hbody := Option.map_eq_none_iff.mp hnone
  simp only [BumpIndices.Beef.stitched, hparse, hat, Option.bind_eq_bind, Option.bind_some] at hbody
  split at hbody <;> cases hbody

end

/-! ## The rows and the BEEF of one transaction -/

theorem foldlM_keeps {σ α : Type} {f : σ → α → Option σ} {P : σ → Prop} {l : List α} (h : ∀ s a s', a ∈ l → f s a = some s' → P s → P s')
    {s s' : σ} (hrun : l.foldlM f s = some s') (hs : P s) : P s' := by
  induction l generalizing s with
  | nil =>
    cases hrun
    exact hs
  | cons a rest ih =>
    rw [List.foldlM_cons] at hrun
    obtain ⟨s₁, hstep, hrest⟩ := Option.bind_eq_some_iff.mp hrun
    exact ih (fun s b s' hb => h s b s' (List.mem_cons_of_mem a hb)) hrest (h s a s₁ List.mem_cons_self hstep hs)

theorem foldlM_hits {σ α : Type} {f : σ → α → Option σ} {I P : σ → Prop} {l : List α}
    (hI : ∀ s a s', a ∈ l → f s a = some s' → I s → I s') (hP : ∀ s a s', a ∈ l → f s a = some s' → P s → P s') {a : α} (ha : a ∈ l) (hit : ∀ s s', f s a = some s' → I s → P s') {s s' : σ}
    (hrun : l.foldlM f s = some s') (hs : I s) : P s' := by
  induction l generalizing s with
  | nil => cases ha
  | cons b rest ih =>
    rw [List.foldlM_cons] at hrun
    obtain ⟨s₁, hstep, hrest⟩ := Option.bind_eq_some_iff.mp hrun
    have hkeep := fun s c s' hc => hP s c s' (List.mem_cons_of_mem b hc)
    rcases List.mem_cons.mp ha with rfl | ha
    · exact foldlM_keeps hkeep hrest (hit s s₁ hstep hs)
    · exact ih (fun s c s' hc => hI s c s' (List.mem_cons_of_mem b hc)) hkeep ha hrest (hI s b s₁ List.mem_cons_self hstep hs)

variable {t : Txid}

theorem outputsOf_txid {s : Store} {o : Output} (h : o ∈ s.outputsOf t) : o.txid = t := by
  obtain ⟨k, rfl, hfind⟩ := Store.mem_outputsOf.mp h
  rw [← (Store.find_keyed hfind).1]
  rfl

theorem outputsOf_ne_nil {s : Store} : s.outputsOf t ≠ [] ↔ ∃ k : Key, k.1.txid = t ∧ (s.find k).isSome = true := by
  rw [← List.isEmpty_eq_false_iff, List.isEmpty_eq_false_iff_exists_mem]
  constructor
  · rintro ⟨o, ho⟩
    obtain ⟨k, hk, hfind⟩ := Store.mem_outputsOf.mp ho
    exact ⟨k, hk, by rw [hfind]; rfl⟩
  · rintro ⟨k, hk, hsome⟩
    obtain ⟨o, ho⟩ := Option.isSome_iff_exists.mp hsome
    exact ⟨o, Store.mem_outputsOf.mpr ⟨k, hk, ho⟩⟩

theorem outputsOf_updateHeight (s : Tables) (o : Output) (height : Nat) (t : Txid) :
    (s.updateOutputBlockHeight o height).store.outputsOf t ≠ [] ↔ s.store.outputsOf t ≠ [] := by
  rw [outputsOf_ne_nil, outputsOf_ne_nil]
  refine exists_congr fun k => and_congr_right fun _ => ?_
  rw [Tables.updateOutputBlockHeight, Store.find_modify]
  split
  · rename_i hk
    rw [hk, Option.isSome_map]
  · rfl

variable {sdk} {whole : Tx → Bool} {txid : Txid} {proof : Bump}

/-- The BEEF of `t` holds the transaction, and has its proof where `had`. -/
def Good (sdk : Sdk Bump Tx Root) (whole : Tx → Bool) (txid : Txid) (proof : Bump) (had : Prop) (t : Txid) (s : Tables) : Prop :=
  ∃ beef, s.transactions.lookup t = some beef ∧ Holds sdk whole txid beef ∧ (had → HasProof sdk txid proof beef)

variable {s s' : Tables}

theorem stitchRow_cases {row : Output × Option Bytes} (h : stitchRow sdk txid (some proof) s row = some s') :
    s' = s ∧ (∀ beef, row.2 = some beef → stitchProofIntoStoredBeef sdk beef txid proof = none) ∨
      ∃ beef new, row.2 = some beef ∧ stitchProofIntoStoredBeef sdk beef txid proof = some (some new) ∧
        s' = s.updateTransactionBeef row.1.txid new := by
  obtain ⟨o, stored⟩ := row
  cases stored with
  | none =>
    cases h
    exact .inl ⟨rfl, fun beef hbeef => by cases hbeef⟩
  | some beef =>
    simp only [stitchRow] at h
    split at h
    · rename_i hnone
      cases h
      exact .inl ⟨rfl, fun _ hbeef => by cases hbeef; exact hnone⟩
    · rename_i stitched hstitch
      obtain ⟨new, rfl, rfl⟩ := Option.map_eq_some_iff.mp h
      exact .inr ⟨beef, new, rfl, hstitch, rfl⟩

theorem stitchRow_store {row : Output × Option Bytes} (h : stitchRow sdk txid (some proof) s row = some s') : s'.store = s.store := by
  rcases stitchRow_cases h with ⟨rfl, -⟩ | ⟨_, _, -, -, rfl⟩ <;> rfl

theorem stitchRow_other {row : Output × Option Bytes} (hrow : row.1.txid ≠ t)
    (h : stitchRow sdk txid (some proof) s row = some s') : s'.transactions.lookup t = s.transactions.lookup t := by
  rcases stitchRow_cases h with ⟨rfl, -⟩ | ⟨_, new, -, -, rfl⟩
  · rfl
  · exact AList.lookup_insert_ne (Ne.symm hrow)

variable {beef : Bytes}

theorem stitchRow_hit (laws : Laws sdk whole) (hflag : sdk.flagged proof txid = true) {row : Output × Option Bytes}
    (hbeef : row.2 = some beef) (hholds : Holds sdk whole txid beef) (h : stitchRow sdk txid (some proof) s row = some s') :
    Good sdk whole txid proof True row.1.txid s' := by
  rcases stitchRow_cases h with ⟨-, hnone⟩ | ⟨beef', new, hbeef', hstitch, rfl⟩
  · exact absurd (hnone beef hbeef) (stitch_of_holds hholds)
  · rw [hbeef] at hbeef'
    cases hbeef'
    obtain ⟨hnew, hproof⟩ := stitch_hasProof laws hflag hholds hstitch
    exact ⟨new, AList.lookup_insert _, hnew, fun _ => hproof⟩

variable {had : Prop}

theorem stitchRow_good (laws : Laws sdk whole) (hflag : sdk.flagged proof txid = true)
    {row : Output × Option Bytes} (hrow : row.1.txid = t → ∃ beef, row.2 = some beef ∧ Holds sdk whole txid beef)
    (h : stitchRow sdk txid (some proof) s row = some s') (hgood : Good sdk whole txid proof had t s) : Good sdk whole txid proof had t s' := by
  by_cases ht : row.1.txid = t
  · obtain ⟨beef, hbeef, hholds⟩ := hrow ht
    obtain ⟨new, hnew, hheld, hproof⟩ := stitchRow_hit laws hflag hbeef hholds h
    exact ⟨new, ht ▸ hnew, hheld, fun _ => hproof trivial⟩
  · obtain ⟨beef, hbeef, hgood⟩ := hgood
    exact ⟨beef, (stitchRow_other ht h).trans hbeef, hgood⟩

/-! ## The consuming transactions -/

theorem findOutputs_row {s : Tables} {row : Output × Option Bytes} (h : row ∈ s.findOutputsForTransaction t) :
    row.1 ∈ s.store.outputsOf t ∧ row.1.txid = t ∧ row.2 = s.transactions.lookup t := by
  obtain ⟨o, ho, rfl⟩ := List.mem_map.mp h
  exact ⟨ho, outputsOf_txid ho, rfl⟩

variable {consuming : Outpoint}

theorem stitchConsuming_store (h : stitchConsuming sdk txid (some proof) s consuming = some s') :
    s'.store = s.store :=
  foldlM_keeps (P := fun cur => cur.store = s.store) (fun _ _ _ _ hstep hs => (stitchRow_store hstep).trans hs) h rfl

theorem stitchConsuming_other (hne : consuming.txid ≠ t)
    (h : stitchConsuming sdk txid (some proof) s consuming = some s') : s'.transactions.lookup t = s.transactions.lookup t := by
  refine foldlM_keeps (P := fun cur => cur.transactions.lookup t = s.transactions.lookup t) (fun cur row cur' hin hstep hs => ?_) h rfl
  exact (stitchRow_other ((findOutputs_row hin).2.1 ▸ hne) hstep).trans hs

theorem stitchConsuming_good (laws : Laws sdk whole) (hflag : sdk.flagged proof txid = true)
    (h : stitchConsuming sdk txid (some proof) s consuming = some s') (hgood : Good sdk whole txid proof had t s) :
    Good sdk whole txid proof had t s' := by
  refine foldlM_keeps (fun cur row cur' hin hstep hcur => stitchRow_good laws hflag (fun ht => ?_) hstep hcur) h hgood
  obtain ⟨-, hid, hbeef⟩ := findOutputs_row hin
  obtain ⟨beef, hlookup, hholds, -⟩ := hgood
  exact ⟨beef, by rw [hbeef, ← hid, ht, hlookup], hholds⟩

theorem stitchConsuming_hit (laws : Laws sdk whole) (hflag : sdk.flagged proof txid = true)
    (hrows : s.store.outputsOf consuming.txid ≠ []) (h : stitchConsuming sdk txid (some proof) s consuming = some s')
    (hgood : Good sdk whole txid proof False consuming.txid s) : Good sdk whole txid proof True consuming.txid s' := by
  obtain ⟨beef, hlookup, hholds, -⟩ := hgood
  obtain ⟨o, ho⟩ := List.exists_mem_of_ne_nil _ hrows
  have hkeep : ∀ cur row cur', row ∈ s.findOutputsForTransaction consuming.txid → stitchRow sdk txid (some proof) cur row = some cur' →
      Good sdk whole txid proof True consuming.txid cur → Good sdk whole txid proof True consuming.txid cur' :=
    fun cur row cur' hin hstep => stitchRow_good laws hflag (fun _ => ⟨beef, (findOutputs_row hin).2.2.trans hlookup, hholds⟩) hstep
  refine foldlM_hits (I := fun _ => True) (fun _ _ _ _ _ _ => trivial) hkeep (List.mem_map_of_mem ho) (fun cur cur' hstep _ => ?_) h trivial
  have hhit := stitchRow_hit laws hflag hlookup hholds hstep
  rwa [show (o, s.transactions.lookup consuming.txid).1.txid = consuming.txid from outputsOf_txid ho] at hhit

/-! ## One output of the proven transaction -/

section
variable {height : Option Nat} {s : Tables}

/-- The rows are those of the start, up to heights, and `t`'s BEEF holds the transaction. -/
def Ready (sdk : Sdk Bump Tx Root) (whole : Tx → Bool) (txid : Txid) (proof : Bump) (s : Tables) (t : Txid) (cur : Tables) : Prop :=
  (∀ t', cur.store.outputsOf t' ≠ [] ↔ s.store.outputsOf t' ≠ []) ∧ Good sdk whole txid proof False t cur

theorem heightened_transactions (o : Output) (cur : Tables) :
    ((height.map (cur.updateOutputBlockHeight o)).getD cur).transactions = cur.transactions := by
  cases height <;> rfl

theorem heightened_rows (o : Output) (cur : Tables) (t : Txid) :
    ((height.map (cur.updateOutputBlockHeight o)).getD cur).store.outputsOf t ≠ [] ↔ cur.store.outputsOf t ≠ [] := by
  cases height with
  | none => rfl
  | some height => exact outputsOf_updateHeight cur o height t

theorem heightened_good (o : Output) {cur : Tables} (h : Good sdk whole txid proof had t cur) :
    Good sdk whole txid proof had t ((height.map (cur.updateOutputBlockHeight o)).getD cur) := by
  unfold Good
  rw [heightened_transactions]
  exact h

variable {cur cur' : Tables}

theorem ingestOutput_parts {row : Output × Option Bytes} (h : ingestOutput sdk txid (some proof) height cur row = some cur') :
    ∃ mid, stitchRow sdk txid (some proof) cur row = some mid ∧
      row.1.consumedBy.foldlM (stitchConsuming sdk txid (some proof)) ((height.map (mid.updateOutputBlockHeight row.1)).getD mid) = some cur' :=
  Option.bind_eq_some_iff.mp h

theorem ingestOutput_other {row : Output × Option Bytes} (hrow : row.1.txid ≠ t)
    (hconsumed : ∀ p ∈ row.1.consumedBy, p.txid ≠ t) (h : ingestOutput sdk txid (some proof) height cur row = some cur') :
    cur'.transactions.lookup t = cur.transactions.lookup t := by
  obtain ⟨mid, hstitch, hrun⟩ := ingestOutput_parts h
  refine foldlM_keeps (P := fun next => next.transactions.lookup t = cur.transactions.lookup t)
    (fun next p next' hp hstep hs => (stitchConsuming_other (hconsumed p hp) hstep).trans hs) hrun ?_
  rw [heightened_transactions]
  exact stitchRow_other hrow hstitch

theorem ingestOutput_rows {row : Output × Option Bytes} (h : ingestOutput sdk txid (some proof) height cur row = some cur')
    (t : Txid) : cur'.store.outputsOf t ≠ [] ↔ cur.store.outputsOf t ≠ [] := by
  obtain ⟨mid, hstitch, hrun⟩ := ingestOutput_parts h
  refine foldlM_keeps (P := fun next => next.store.outputsOf t ≠ [] ↔ cur.store.outputsOf t ≠ [])
    (fun _ _ _ _ hstep hs => by rw [stitchConsuming_store hstep]; exact hs) hrun ?_
  rw [heightened_rows, stitchRow_store hstitch]

variable (laws : Laws sdk whole) (hflag : sdk.flagged proof txid = true)
include laws hflag

theorem ingestOutput_good {row : Output × Option Bytes}
    (hrow : row.1.txid = t → ∃ beef, row.2 = some beef ∧ Holds sdk whole txid beef)
    (h : ingestOutput sdk txid (some proof) height cur row = some cur') (hgood : Good sdk whole txid proof had t cur) :
    Good sdk whole txid proof had t cur' := by
  obtain ⟨mid, hstitch, hrun⟩ := ingestOutput_parts h
  exact foldlM_keeps (fun _ _ _ _ hstep hs => stitchConsuming_good laws hflag hstep hs) hrun
    (heightened_good _ (stitchRow_good laws hflag hrow hstitch hgood))

theorem ingestOutput_own {row : Output × Option Bytes} (hbeef : row.2 = some beef)
    (hholds : Holds sdk whole txid beef) (h : ingestOutput sdk txid (some proof) height cur row = some cur') :
    Good sdk whole txid proof True row.1.txid cur' := by
  obtain ⟨mid, hstitch, hrun⟩ := ingestOutput_parts h
  exact foldlM_keeps (fun _ _ _ _ hstep hs => stitchConsuming_good laws hflag hstep hs) hrun
    (heightened_good _ (stitchRow_hit laws hflag hbeef hholds hstitch))

theorem ingestOutput_consumed {row : Output × Option Bytes} {p : Outpoint} (hp : p ∈ row.1.consumedBy)
    (hrow : row.1.txid = p.txid → ∃ beef, row.2 = some beef ∧ Holds sdk whole txid beef) (hrows : s.store.outputsOf p.txid ≠ [])
    (h : ingestOutput sdk txid (some proof) height cur row = some cur') (hready : Ready sdk whole txid proof s p.txid cur) :
    Good sdk whole txid proof True p.txid cur' := by
  obtain ⟨mid, hstitch, hrun⟩ := ingestOutput_parts h
  refine foldlM_hits (I := Ready sdk whole txid proof s p.txid) (fun next q next' _ hstep hs => ?_)
    (fun _ _ _ _ hstep hs => stitchConsuming_good laws hflag hstep hs) hp (fun next next' hstep hs => ?_) hrun ?_
  · exact ⟨fun t => by rw [stitchConsuming_store hstep]; exact hs.1 t, stitchConsuming_good laws hflag hstep hs.2⟩
  · exact stitchConsuming_hit laws hflag ((hs.1 _).mpr hrows) hstep hs.2
  · refine ⟨fun t => ?_, heightened_good _ (stitchRow_good laws hflag hrow hstitch hready.2)⟩
    rw [heightened_rows, stitchRow_store hstitch]
    exact hready.1 t

end

/-! ## The whole request -/

section
variable {merklePathFromHex : String → Except String Bump} {s s' : Tables} {proofHex : String} {height : Option Nat}

theorem handle_run (hhex : proofOfHex merklePathFromHex proofHex = .ok (some proof))
    (h : handleNewMerkleProof sdk merklePathFromHex s txid proofHex height = some (.ok s')) :
    s.store.outputsOf txid ≠ [] ∧ (s.findOutputsForTransaction txid).foldlM (ingestOutput sdk txid (some proof) height) s = some s' := by
  simp only [handleNewMerkleProof, hhex] at h
  split at h
  · cases h
  · rename_i hrows
    obtain ⟨_, hrun, heq⟩ := Option.map_eq_some_iff.mp h
    cases heq
    refine ⟨fun hnil => hrows ?_, hrun⟩
    rw [Tables.findOutputsForTransaction, hnil]
    rfl

theorem handle_near (laws : Laws sdk whole) (hflag : sdk.flagged proof txid = true)
    (hhex : proofOfHex merklePathFromHex proofHex = .ok (some proof))
    (h : handleNewMerkleProof sdk merklePathFromHex s txid proofHex height = some (.ok s'))
    (hnear : t = txid ∨ ConsumedBy s txid t) (hstored : Stored s t beef) (hholds : Holds sdk whole txid beef) :
    ∃ beef', s'.transactions.lookup t = some beef' ∧ HasProof sdk txid proof beef' := by
  obtain ⟨hrows, hrun⟩ := handle_run hhex h
  have hown (row : Output × Option Bytes) (hin : row ∈ s.findOutputsForTransaction txid) (ht : row.1.txid = t) :
      ∃ beef, row.2 = some beef ∧ Holds sdk whole txid beef := by
    obtain ⟨-, hid, hbeef⟩ := findOutputs_row hin
    exact ⟨beef, by rw [hbeef, ← hid, ht, hstored.2], hholds⟩
  have hready : Ready sdk whole txid proof s t s := ⟨fun _ => Iff.rfl, beef, hstored.2, hholds, False.elim⟩
  have hgood : Good sdk whole txid proof True t s' := by
    have hkeepI : ∀ cur row cur', row ∈ s.findOutputsForTransaction txid → ingestOutput sdk txid (some proof) height cur row = some cur' →
        Ready sdk whole txid proof s t cur → Ready sdk whole txid proof s t cur' := fun cur row cur' hin hstep hs =>
      ⟨fun t' => (ingestOutput_rows hstep t').trans (hs.1 t'), ingestOutput_good laws hflag (hown row hin) hstep hs.2⟩
    have hkeepP : ∀ cur row cur', row ∈ s.findOutputsForTransaction txid → ingestOutput sdk txid (some proof) height cur row = some cur' →
        Good sdk whole txid proof True t cur → Good sdk whole txid proof True t cur' := fun cur row cur' hin hstep =>
      ingestOutput_good laws hflag (hown row hin) hstep
    rcases hnear with rfl | ⟨o, ho, p, hp, rfl⟩
    · obtain ⟨o, ho⟩ := List.exists_mem_of_ne_nil _ hrows
      refine foldlM_hits hkeepI hkeepP (List.mem_map_of_mem ho) (fun cur cur' hstep _ => ?_) hrun hready
      have hhit := ingestOutput_own laws hflag hstored.2 hholds hstep
      rwa [show (o, s.transactions.lookup t).1.txid = t from outputsOf_txid ho] at hhit
    · refine foldlM_hits hkeepI hkeepP (List.mem_map_of_mem ho) (fun cur cur' hstep hs => ?_) hrun hready
      exact ingestOutput_consumed laws hflag hp (hown _ (List.mem_map_of_mem ho)) hstored.1 hstep hs
  obtain ⟨beef', hlookup, -, hproof⟩ := hgood
  exact ⟨beef', hlookup, hproof trivial⟩

theorem handle_far (hhex : proofOfHex merklePathFromHex proofHex = .ok (some proof))
    (h : handleNewMerkleProof sdk merklePathFromHex s txid proofHex height = some (.ok s')) (hne : t ≠ txid)
    (hfar : ¬ ConsumedBy s txid t) : s'.transactions.lookup t = s.transactions.lookup t := by
  obtain ⟨-, hrun⟩ := handle_run hhex h
  refine foldlM_keeps (P := fun cur => cur.transactions.lookup t = s.transactions.lookup t) (fun cur row cur' hin hstep hs => ?_) hrun rfl
  obtain ⟨hout, hid, -⟩ := findOutputs_row hin
  refine (ingestOutput_other (hid ▸ Ne.symm hne) (fun p hp ht => ?_) hstep).trans hs
  exact hfar ⟨row.1, hout, p, hp, ht⟩

end

/-- The proof reaches the whole chain exactly when each BEEF beyond the direct consumers that holds the transaction has the proof already. -/
theorem reaches_iff (whole : Tx → Bool) (laws : Laws sdk whole) (merklePathFromHex : String → Except String Bump) (s s' : Tables) (txid : Txid)
    (proofHex : String) (proof : Bump) (height : Option Nat) (hhex : proofOfHex merklePathFromHex proofHex = .ok (some proof))
    (hflag : sdk.flagged proof txid = true) (h : handleNewMerkleProof sdk merklePathFromHex s txid proofHex height = some (.ok s')) :
    ReachesAll sdk whole txid proof s s' ↔
      ∀ t beef, Relation.ReflTransGen (ConsumedBy s) txid t → t ≠ txid → ¬ ConsumedBy s txid t → Stored s t beef →
        Holds sdk whole txid beef → HasProof sdk txid proof beef := by
  constructor
  · intro hall t beef hreach hne hfar hstored hholds
    obtain ⟨beef', hlookup, hproof⟩ := hall t beef hreach hstored hholds
    rw [handle_far hhex h hne hfar, hstored.2] at hlookup
    cases hlookup
    exact hproof
  · intro hfar t beef hreach hstored hholds
    by_cases hnear : t = txid ∨ ConsumedBy s txid t
    · exact handle_near laws hflag hhex h hnear hstored hholds
    · obtain ⟨hne, hnot⟩ := not_or.mp hnear
      exact ⟨beef, (handle_far hhex h hne hnot).trans hstored.2, hfar t beef hreach hne hnot hstored hholds⟩

/-! A chain of three: `c` spends `p`, `g` spends `c`, and each stored BEEF holds `p` with no proof. -/

namespace Chain

def unproven : BumpIndices.Beef Unit Unit := ⟨[], [⟨"p", (), none⟩]⟩

def proven : BumpIndices.Beef Unit Unit := ⟨[()], [⟨"p", (), some 0⟩]⟩

/-- A body of one BUMP, which proves `p`. -/
def reader : Sdk Unit Unit Unit where
  parse bytes := if bytes = [0] then some unproven else if bytes = [1] then some proven else none
  toBinary beef := if beef.bumps = [] then [0] else [1]
  mergeBump beef _ := (⟨if beef.bumps = [] then [()] else beef.bumps,
    beef.txs.map fun tx => if tx.bumpIndex = none ∧ tx.txid = "p" then { tx with bumpIndex := some 0 } else tx⟩, 0)
  root _ := ()
  flagged _ txid := txid = "p"

def row (txid : Txid) (consumedBy : List Outpoint) : Output := ⟨txid, 0, [], 1, "tm_example", true, [], consumedBy, none, none⟩

def tables : Tables where
  store := ((Store.empty.insertOutput (row "p" [⟨"c", 0⟩])).insertOutput (row "c" [⟨"g", 0⟩])).insertOutput (row "g" [])
  transactions := ((AList.insert "p" [0] ∅).insert "c" [0]).insert "g" [0]

theorem laws : Laws reader (fun _ => true) where
  merges beef proof := by
    refine ⟨?_, fun k bump hk => ?_, ?_⟩
    · refine List.forall₂_map_right_iff.mpr (List.forall₂_same.mpr fun tx _ => ?_)
      split
      · rename_i h
        exact ⟨rfl, rfl, .inr ⟨h.1, rfl, decide_eq_true h.2⟩⟩
      · exact ⟨rfl, rfl, .inl rfl⟩
    · refine ⟨(), ?_, rfl, fun _ h => h⟩
      have hne : beef.bumps ≠ [] := fun hnil => by rw [hnil] at hk; cases hk
      show (if beef.bumps = [] then [()] else beef.bumps)[k]? = _
      rw [if_neg hne]
      exact hk
    · refine ⟨(), ?_, rfl, fun _ h => h⟩
      show (if beef.bumps = [] then [()] else beef.bumps)[0]? = _
      cases beef.bumps <;> rfl
  rereads stored txid proof beef h := by
    have hread : beef = proven := by
      have hid : stored ≠ [0] → stored ≠ [1] → False := fun h₀ h₁ => by
        simp [BumpIndices.Beef.stitched, reader, h₀, h₁] at h
      have hp : txid ≠ "p" → False := fun hne => by
        have hfind : ∀ b ∈ [unproven, proven], BumpIndices.Beef.findTxid b txid = none := by
          simp [BumpIndices.Beef.findTxid, unproven, proven, Ne.symm hne]
        by_cases h₀ : stored = [0]
        · simp [BumpIndices.Beef.stitched, reader, h₀, hfind unproven] at h
        · by_cases h₁ : stored = [1]
          · simp [BumpIndices.Beef.stitched, reader, h₁, hfind proven] at h
          · exact hid h₀ h₁
      by_cases htxid : txid = "p"
      · subst htxid
        by_cases h₀ : stored = [0]
        · subst h₀
          exact (Option.some.inj h).symm
        · by_cases h₁ : stored = [1]
          · subst h₁
            exact (Option.some.inj h).symm
          · exact (hid h₀ h₁).elim
      · exact (hp htxid).elim
    subst hread
    exact ⟨proven, rfl, fun id tx hentry _ => ⟨tx, hentry, rfl, rfl⟩⟩

end Chain

theorem reaches_iff_chain : ∃ s', handleNewMerkleProof Chain.reader (fun _ => .ok ()) Chain.tables "p" "00" none = some (.ok s') ∧
    (ReachesAll Chain.reader (fun _ => true) "p" () Chain.tables s' ↔
      ∀ t beef, Relation.ReflTransGen (ConsumedBy Chain.tables) "p" t → t ≠ "p" → ¬ ConsumedBy Chain.tables "p" t → Stored Chain.tables t beef →
        Holds Chain.reader (fun _ => true) "p" beef → HasProof Chain.reader "p" () beef) :=
  ⟨_, rfl, reaches_iff (fun _ => true) Chain.laws (fun _ => .ok ()) Chain.tables _ "p" "00" () none rfl rfl rfl⟩

/-- The grandchild's BEEF stays without the proof. -/
theorem grandchild_unproven : ∃ s', handleNewMerkleProof Chain.reader (fun _ => .ok ()) Chain.tables "p" "00" none = some (.ok s') ∧
    ¬ ReachesAll Chain.reader (fun _ => true) "p" () Chain.tables s' := by
  refine ⟨_, rfl, fun hall => ?_⟩
  have hchild : ConsumedBy Chain.tables "p" "c" := ⟨Chain.row "p" [⟨"c", 0⟩], by decide, ⟨"c", 0⟩, by decide, rfl⟩
  have hgrand : ConsumedBy Chain.tables "c" "g" := ⟨Chain.row "c" [⟨"g", 0⟩], by decide, ⟨"g", 0⟩, by decide, rfl⟩
  obtain ⟨beef', hlookup, beef, tx, bump, hparse, hentry, hproof, -⟩ :=
    hall "g" [0] (.tail (.single hchild) hgrand) ⟨by decide, rfl⟩ ⟨Chain.unproven, ⟨"p", (), none⟩, rfl, rfl, rfl⟩
  have hbeef : beef' = [0] := Option.some.inj hlookup.symm
  subst hbeef
  cases hparse
  cases hentry
  cases hproof

end OverlayEngine.ProofIngest
