import OverlayEngine.Pot.SpendReplayAgain

/-!
# Told again, the hook converges

What a cut telling left is absorbed by a whole one, and the store comes out as if
it had been told once.
-/

namespace OverlayEngine.Pot.SpendReplay

open ArcadeReorg (eqIgnoreAsciiCase)
open Reverify (lowercase)
open SpendProof (Transaction)
open PassWrites (Reader)

namespace Around

/-! ## From the pointer on -/

section
variable {μ : Type} (c : Around μ) (pot : Outpoint) (topic : Topic) (spending : Parsed μ)

def spentHeight : Option Nat := (c.sdk.spendConfirmedHeight c.tracked spending.toSpendingBeef spending.subject.id c.answer).1

def superseded : List Txid := supersededRefundTxids (c.refunds pot) pot spending.subject.id

def marked (read p : PotRecord) : PotRecord :=
  recorded (.markSpent spending.subject.id (c.spentHeight spending).isSome (classifyRecordSpend c.reader read spending.subject) (c.spentHeight spending)
    (some spending.subject.final)) p

def describes (read p : PotRecord) : PotRecord :=
  describedBy spending.subject.id (spenderFacts pot spending read) (c.spendPayouts spending read).1 (c.spendPayouts spending read).2 p

def toldRecord (p : PotRecord) : PotRecord := c.describes pot spending p (c.marked spending p p)

def pointedBytes (rest : Bool) (txid : Txid) (row : Option PotBeefs.Row) : Option PotBeefs.Row :=
  if (c.spentHeight spending).isSome && rest then retired spending.subject.id (c.superseded pot spending) txid row else row

def settledBytes (beef : Bytes) (txid : Txid) (row : Option PotBeefs.Row) : Option PotBeefs.Row :=
  let row := c.pointedBytes pot spending true txid row
  if txid = spending.subject.id then stored (c.sdk.potBeefHasProof txid beef) beef row else row

variable {c pot topic spending} {m : Telling} {s t : Store} {beef : Bytes}

theorem marked_congr {a b : PotRecord} (h : admission a = admission b) (p : PotRecord) : c.marked spending a p = c.marked spending b p := by
  have hread : ∀ r, classifyRecordSpend c.reader r spending.subject = classifyRecordSpend c.reader (admission r) spending.subject := fun _ => rfl
  rw [marked, marked, hread a, hread b, h]

theorem describes_congr {a b : PotRecord} (h : admission a = admission b) (p : PotRecord) : c.describes pot spending a p = c.describes pot spending b p := by
  have hfacts : ∀ r, spenderFacts pot spending r = spenderFacts pot spending (admission r) := fun _ => rfl
  have hpay : ∀ r, c.spendPayouts spending r = c.spendPayouts spending (admission r) := fun _ => rfl
  rw [describes, describes, hfacts a, hfacts b, hpay a, hpay b, h]

theorem admission_marked (read p : PotRecord) : admission (c.marked spending read p) = admission p := by
  rw [marked, recorded_markSpent, admission_markSpent]

theorem marked_marked (read p : PotRecord) : c.marked spending read (c.marked spending read p) = c.marked spending read p := by
  simp only [marked, recorded_markSpent, markSpent_again]

theorem marked_describes {read p : PotRecord} (h : c.marked spending read p = p) (r : PotRecord) :
    c.marked spending read (c.describes pot spending r p) = c.describes pot spending r p := by
  rw [describes, ← describedBy_frame, marked, recorded_markSpent, markSpent_withSpender, ← recorded_markSpent, ← marked, h]

theorem toldRecord_marked (p : PotRecord) : c.toldRecord pot spending (c.marked spending p p) = c.toldRecord pot spending p := by
  rw [toldRecord, toldRecord, describes_congr (admission_marked p p), marked_congr (admission_marked p p), marked_marked]

theorem admission_toldRecord (p : PotRecord) : admission (c.toldRecord pot spending p) = admission p := by
  rw [toldRecord, describes, admission_describedBy, admission_marked]

theorem toldRecord_again (p : PotRecord) : c.toldRecord pot spending (c.toldRecord pot spending p) = c.toldRecord pot spending p := by
  have hm : c.marked spending p (c.toldRecord pot spending p) = c.toldRecord pot spending p := marked_describes (marked_marked p p) p
  rw [toldRecord, describes_congr (admission_toldRecord p), marked_congr (admission_toldRecord p), hm]
  exact describedBy_again ..

theorem toldRecord_unfunded (p : PotRecord) : c.toldRecord pot spending (unfunded p) = unfunded (c.toldRecord pot spending p) := by
  have ha : admission (unfunded p) = admission p := rfl
  have hm : c.marked spending p (unfunded p) = unfunded (c.marked spending p p) := by
    simp only [marked, recorded_markSpent, markSpent_unfunded]
  rw [toldRecord, describes_congr ha, marked_congr ha, hm]
  exact describedBy_unfunded ..

theorem not_superseded : spending.subject.id ∉ c.superseded pot spending := by
  intro h
  obtain ⟨tx, htx, hid⟩ := List.mem_map.mp (List.mem_dedup.mp h)
  have hne := (List.mem_filter.mp htx).2
  simp [hid, eqIgnoreAsciiCase] at hne

variable (c pot spending) in
theorem pointedBytes_again (rest : Bool) (txid : Txid) (row : Option PotBeefs.Row) :
    c.pointedBytes pot spending true txid (c.pointedBytes pot spending rest txid row) = c.pointedBytes pot spending true txid row := by
  simp only [pointedBytes]
  cases (c.spentHeight spending).isSome <;> cases rest <;> simp [retired_again]

theorem settledBytes_pointed (rest : Bool) (txid : Txid) (row : Option PotBeefs.Row) :
    c.settledBytes pot spending beef txid (c.pointedBytes pot spending rest txid row) = c.settledBytes pot spending beef txid row := by
  simp only [settledBytes, pointedBytes_again]

theorem settledBytes_again (txid : Txid) (row : Option PotBeefs.Row) :
    c.settledBytes pot spending beef txid (c.settledBytes pot spending beef txid row) = c.settledBytes pot spending beef txid row := by
  by_cases hs : txid = spending.subject.id
  · subst hs
    have hself := pointedBytes_again c pot spending true spending.subject.id row
    have hp : c.pointedBytes pot spending true spending.subject.id (stored (c.sdk.potBeefHasProof spending.subject.id beef) beef
        (c.pointedBytes pot spending true spending.subject.id row)) =
          stored (c.sdk.potBeefHasProof spending.subject.id beef) beef (c.pointedBytes pot spending true spending.subject.id row) := by
      generalize c.pointedBytes pot spending true spending.subject.id row = row at hself ⊢
      simp only [pointedBytes] at hself ⊢
      split
      · rename_i hc
        rw [if_pos hc] at hself
        exact retired_stored not_superseded _ _ _ hself
      · rfl
    simp only [settledBytes, if_true, hp]
    exact stored_keeps (keeps_stored_self ..)
  · simp only [settledBytes, if_neg hs, pointedBytes_again]

theorem keeps_pointed (rest : Bool) (txid : Txid) (other : Bytes) (row : Option PotBeefs.Row) :
    keeps other (c.pointedBytes pot spending rest txid row) = keeps other row := by
  simp only [pointedBytes]
  split
  · exact keeps_retired ..
  · rfl

variable {row : Option PotBeefs.Row}

theorem keeps_settled {other : Bytes} (txid : Txid) (h : keeps other row = true) :
    keeps other (c.settledBytes pot spending beef txid row) = true := by
  have hp : keeps other (c.pointedBytes pot spending true txid row) = true := by
    rw [keeps_pointed]
    exact h
  simp only [settledBytes]
  split
  · exact keeps_stored _ _ _ _ hp
  · exact hp

theorem isSome_retired (spender : Txid) (superseded : List Txid) (txid : Txid) (row : Option PotBeefs.Row) :
    (retired spender superseded txid row).isSome = row.isSome := by
  simp only [retired]
  split <;> split <;> simp

theorem isSome_stored (hasProof : Bool) (other : Bytes) (h : row.isSome = true) : (stored hasProof other row).isSome = true := by
  rw [stored]
  split
  · exact h
  · rfl

variable (c pot spending) in
theorem isSome_pointed (rest : Bool) (txid : Txid) (row : Option PotBeefs.Row) : (c.pointedBytes pot spending rest txid row).isSome = row.isSome := by
  simp only [pointedBytes]
  split
  · exact isSome_retired ..
  · rfl

theorem isSome_settled (txid : Txid) (h : row.isSome = true) : (c.settledBytes pot spending beef txid row).isSome = true := by
  have hp := (isSome_pointed c pot spending true txid row).trans h
  simp only [settledBytes]
  split
  · exact isSome_stored _ _ hp
  · exact hp

/-! ## The store -/

theorem recordOf_pointed (rest : Bool) : (c.pointed pot spending m rest s).recordOf pot = (s.recordOf pot).map fun p => c.marked spending p p := by
  have he : ∀ call, (s.exec pot (m.now .pointer) call).recordOf pot = execRecord call (s.recordOf pot) := fun call => recordOf_exec ..
  simp only [pointed, markSpent]
  cases hr : s.recordOf pot with
  | none => split <;> exact (he _).trans (by rw [hr]; rfl)
  | some p => split <;> exact (he _).trans (by rw [hr]; rfl)

variable {o : Outpoint}

theorem recordOf_pointed_other (rest : Bool) (h : o ≠ pot) : (c.pointed pot spending m rest s).recordOf o = s.recordOf o := by
  simp only [pointed, markSpent]
  split <;> exact recordOf_exec_other _ _ _ h

theorem bytesOf_pointed (rest : Bool) (txid : Txid) : (c.pointed pot spending m rest s).bytesOf txid = c.pointedBytes pot spending rest txid (s.bytesOf txid) := by
  simp only [pointed, markSpent, pointedBytes]
  split
  · rename_i hc
    exact (bytesOf_retire ..).trans (if_pos hc).symm
  · rename_i hc
    exact (if_neg hc).symm

theorem recordOf_exec_map (u : Store) (now : Nat) {call : Call} (h : execRecord call none = none) :
    (u.exec pot now call).recordOf pot = (u.recordOf pot).map (recorded call) := by
  rw [recordOf_exec]
  cases u.recordOf pot with
  | some p => rfl
  | none => exact h

theorem recordOf_described (read : PotRecord) : (c.described pot spending m (some read) s).recordOf pot = (s.recordOf pot).map (c.describes pot spending read) := by
  have hpay : ∀ u : Store, (if (c.spendPayouts spending read).1.isSome || (c.spendPayouts spending read).2.isSome then
      u.exec pot (m.now .spenderPayouts) (.storeSpenderPayouts spending.subject.id (c.spendPayouts spending read).1 (c.spendPayouts spending read).2)
      else u).recordOf pot =
        (u.recordOf pot).map (recorded (.storeSpenderPayouts spending.subject.id (c.spendPayouts spending read).1 (c.spendPayouts spending read).2)) := by
    intro u
    split
    · exact recordOf_exec_map _ _ rfl
    · rename_i hnone
      simp only [Bool.or_eq_true, not_or, Bool.not_eq_true, Option.isSome_eq_false_iff, Option.isNone_iff_eq_none] at hnone
      rw [hnone.1, hnone.2, funext (recorded_noPayouts _)]
      exact Option.map_id'.symm
  cases hf : spenderFacts pot spending read with
  | none =>
    simp only [described, hf]
    rw [hpay]
    congr 1
    funext p
    simp only [describes, describedBy, hf]
  | some facts =>
    simp only [described, hf]
    rw [hpay, recordOf_exec_map _ _ rfl, Option.map_map]
    congr 1
    funext p
    simp only [describes, describedBy, hf, Function.comp]

theorem recordOf_described_other (admitted : Option PotRecord) (h : o ≠ pot) : (c.described pot spending m admitted s).recordOf o = s.recordOf o := by
  cases admitted with
  | none => rfl
  | some read =>
    simp only [described]
    split <;> cases spenderFacts pot spending read <;> simp only [recordOf_exec_other _ _ _ h]

theorem bytesOf_described (admitted : Option PotRecord) (txid : Txid) : (c.described pot spending m admitted s).bytesOf txid = s.bytesOf txid := by
  cases admitted with
  | none => rfl
  | some read =>
    simp only [described]
    split <;> cases spenderFacts pot spending read <;> rfl

theorem recordOf_told : (c.told pot spending m s).recordOf pot = (s.recordOf pot).map (c.toldRecord pot spending) := by
  rw [told]
  cases hr : s.recordOf pot with
  | none =>
    refine Eq.trans (recordOf_pointed true) ?_
    rw [hr]
    rfl
  | some p =>
    rw [recordOf_described, recordOf_pointed, hr]
    rfl

theorem recordOf_told_other (h : o ≠ pot) : (c.told pot spending m s).recordOf o = s.recordOf o := by
  rw [told, recordOf_described_other _ h, recordOf_pointed_other true h]

theorem bytesOf_told (txid : Txid) : (c.told pot spending m s).bytesOf txid = c.pointedBytes pot spending true txid (s.bytesOf txid) := by
  rw [told, bytesOf_described, bytesOf_pointed]

theorem recordOf_settled (o : Outpoint) : (c.settled pot spending m beef s).recordOf o = (c.told pot spending m s).recordOf o := recordOf_storeBeef ..

theorem bytesOf_settled (txid : Txid) : (c.settled pot spending m beef s).bytesOf txid = c.settledBytes pot spending beef txid (s.bytesOf txid) := by
  simp only [settled, settledBytes]
  split
  · rename_i ht
    subst ht
    rw [bytesOf_storeBeef, bytesOf_told]
  · rename_i ht
    rw [bytesOf_storeBeef_other _ _ _ _ _ ht, bytesOf_told]

end

/-! ## Before the pointer -/

section
variable {μ : Type} {c : Around μ} {pot : Outpoint} {topic : Topic} {spending : Parsed μ} {m m' : Telling} {s t t' : Store} {beef : Bytes}

variable {atomic : Bytes}

theorem mended_heal {record : PotRecord} (h : s.recordOf pot = none) (hheal : c.heal pot topic spending = some (record, atomic)) :
    c.mended pot topic spending m s = c.bytesWrite m record.txid atomic (recordWrite m record true s) := by
  rw [mended, h, hheal]

theorem heldBytes_parse (h : c.heldBytes pot spending = some atomic) :
    ∃ p, c.sdk.parse atomic = some p ∧ eqIgnoreAsciiCase p.subject.id pot.txid = true := by
  rw [heldBytes] at h
  split at h
  · cases h
  · obtain ⟨bytes, -, hb⟩ := Option.bind_eq_some_iff.mp h
    simp only [boundTo, Option.bind_eq_bind, Option.bind_eq_some_iff, Option.ite_none_right_eq_some, Option.some.injEq] at hb
    obtain ⟨a, -, p, hp, hid, rfl⟩ := hb
    exact ⟨p, hp, hid⟩

theorem heldBytes_ne_nil (h : c.heldBytes pot spending = some atomic) : atomic ≠ [] := by
  obtain ⟨p, hp, -⟩ := heldBytes_parse h
  rintro rfl
  rw [c.sdk.parse_nil] at hp
  cases hp

theorem heal_some {record : PotRecord} (h : c.heal pot topic spending = some (record, atomic)) :
    c.heldBytes pot spending = some atomic ∧ c.admitted atomic pot.outputIndex topic = some record := by
  simp only [heal, Option.bind_eq_some_iff, Option.map_eq_some_iff, Prod.mk.injEq] at h
  obtain ⟨a, ha, r, hr, rfl, rfl⟩ := h
  exact ⟨ha, hr⟩

theorem stored_isSome {hasProof : Bool} {row : Option PotBeefs.Row} (h : beef ≠ []) : (stored hasProof beef row).isSome = true := by
  rw [stored]
  split
  · rename_i hk
    cases row with
    | some r => rfl
    | none => simp [keeps, PotBeefs.beefWriteAllowed, h] at hk
  · rfl

theorem isSome_beefs (s : Store) (txid : Txid) : (s.beefs txid).isSome = (s.bytesOf txid).isSome := by
  rw [Store.bytesOf, Option.isSome_map]

theorem alike_mended (h : Alike s t) : Alike (c.mended pot topic spending m s) (c.mended pot topic spending m' t) := by
  simp only [mended, isSome_beefs, h.records, h.bytes]
  split
  · split
    · exact h
    · split
      · exact h
      · exact alike_storeBeef h ..
  · split
    · exact h
    · exact alike_storeBeef (alike_exec h ..) ..

theorem mended_bytes (hb : c.heldBytes pot spending = some atomic) (hr : ((c.mended pot topic spending m s).recordOf pot).isSome = true) :
    ((c.mended pot topic spending m s).bytesOf pot.txid).isSome = true := by
  have hne := heldBytes_ne_nil hb
  rw [mended] at hr ⊢
  split
  · split
    · rename_i hs
      rwa [← isSome_beefs]
    · rw [hb]
      exact (congrArg Option.isSome (bytesOf_storeBeef ..)).trans (stored_isSome hne)
  · rename_i habsent
    rw [habsent] at hr
    cases hheal : c.heal pot topic spending with
    | none =>
      rw [hheal] at hr
      simp [habsent] at hr
    | some healed =>
      obtain ⟨record, a⟩ := healed
      rw [hheal] at hr
      obtain rfl : a = atomic := Option.some.inj ((heal_some hheal).1.symm.trans hb)
      have hkey : key record = pot := by
        by_contra hne
        simp only [bytesWrite, recordOf_storeBeef, recordWrite, recordOf_exec_other _ _ _ (Ne.symm hne), habsent] at hr
        cases hr
      have htxid : record.txid = pot.txid := congrArg Outpoint.txid hkey
      simp only [bytesWrite, htxid]
      exact (congrArg Option.isSome (bytesOf_storeBeef ..)).trans (stored_isSome hne)

theorem storeRecord_again (row : Option Row) (record : PotRecord) (now now' : Nat) (rest : Bool) :
    Row.storeRecord (some (Row.storeRecord row record now rest)) record now' true = Row.storeRecord row record now true := by
  have hinserted : (Row.inserted record now).filled record = Row.inserted record now := by simp [Row.filled, Row.inserted]
  have hfilled : ∀ r : Row, (r.filled record).filled record = r.filled record := fun r => by simp [Row.filled, or_or]
  have hfacts : ∀ r : Row, r.filled record = r → ((r.fundingFacts record).filled record).fundingFacts record = r.fundingFacts record := by
    intro r hr
    have hswap : (r.fundingFacts record).filled record = (r.filled record).fundingFacts record := rfl
    rw [hswap, hr]
    simp [Row.fundingFacts, or_or]
  by_cases hsome : (record.fundingSizeBytes.isSome || record.fundingFeeSats.isSome) = true
  · cases rest <;> cases row <;> simp only [Row.storeRecord, hsome, Bool.true_and, Bool.false_and, if_true, Bool.false_eq_true, if_false, hinserted, hfilled]
    · exact hfacts _ hinserted
    · exact hfacts _ (hfilled _)
  · cases row <;> simp only [Row.storeRecord, hsome, Bool.and_false, Bool.false_eq_true, if_false, hinserted, hfilled]

theorem execRecord_again (record : PotRecord) (rest : Bool) (p : Option PotRecord) :
    execRecord (.storeRecord record true) (execRecord (.storeRecord record rest) p) = execRecord (.storeRecord record true) p := by
  have hrow : ∀ row : Option Row, row.map Row.intoRecord = p → execRecord (.storeRecord record true) (execRecord (.storeRecord record rest) p) =
      execRecord (.storeRecord record true) p := by
    rintro row rfl
    rw [← exec_recorded row 0, ← exec_recorded _ 0, ← exec_recorded row 0]
    have hexec : Pot.exec (Pot.exec row 0 (.storeRecord record rest)) 0 (.storeRecord record true) = Pot.exec row 0 (.storeRecord record true) := by
      cases row with
      | none => exact congrArg some (storeRecord_again none record 0 0 rest)
      | some r => exact congrArg some (storeRecord_again (some r) record 0 0 rest)
    rw [hexec]
  cases p with
  | none => exact hrow none rfl
  | some p => exact hrow (some { toPotRecord := p, createdAt := 0 }) rfl

theorem absent_of_mended (h : (c.mended pot topic spending m s).recordOf pot = none) : s.recordOf pot = none := by
  cases hs : s.recordOf pot with
  | none => rfl
  | some p =>
    rw [mended_recorded hs] at h
    cases h

variable (c pot spending beef) in
structure Past (t t' : Store) : Prop where
  others : ∀ o, o ≠ pot → t'.recordOf o = t.recordOf o
  record : (t'.recordOf pot).map (c.toldRecord pot spending) = (t.recordOf pot).map (c.toldRecord pot spending)
  bytes : ∀ txid, c.settledBytes pot spending beef txid (t'.bytesOf txid) = c.settledBytes pot spending beef txid (t.bytesOf txid)
  keeps : ∀ txid other, keeps other (t.bytesOf txid) = true → keeps other (t'.bytesOf txid) = true
  held : ∀ txid, (t.bytesOf txid).isSome = true → (t'.bytesOf txid).isSome = true

theorem past_refl (t : Store) : Past c pot spending beef t t := ⟨fun _ _ => rfl, rfl, fun _ => rfl, fun _ _ h => h, fun _ h => h⟩

theorem past_pointed (rest : Bool) (t : Store) : Past c pot spending beef t (c.pointed pot spending m rest t) where
  others _ h := recordOf_pointed_other rest h
  record := by
    rw [recordOf_pointed, Option.map_map]
    congr 1
    funext p
    exact toldRecord_marked p
  bytes txid := by rw [bytesOf_pointed, settledBytes_pointed]
  keeps txid other h := by rwa [bytesOf_pointed, keeps_pointed]
  held txid h := by rwa [bytesOf_pointed, isSome_pointed]

variable (beef) in
theorem past_told (t : Store) : Past c pot spending beef t (c.told pot spending m t) where
  others _ h := recordOf_told_other h
  record := by
    rw [recordOf_told, Option.map_map]
    congr 1
    funext p
    exact toldRecord_again p
  bytes txid := by rw [bytesOf_told, settledBytes_pointed]
  keeps txid other h := by rwa [bytesOf_told, keeps_pointed]
  held txid h := by rwa [bytesOf_told, isSome_pointed]

theorem past_settled (t : Store) : Past c pot spending beef t (c.settled pot spending m beef t) where
  others o h := (recordOf_settled o).trans (recordOf_told_other h)
  record := by
    rw [recordOf_settled]
    exact (past_told beef t).record
  bytes txid := by rw [bytesOf_settled, settledBytes_again]
  keeps txid other h := by
    rw [bytesOf_settled]
    exact keeps_settled txid h
  held txid h := by
    rw [bytesOf_settled]
    exact isSome_settled txid h

theorem mended_past (h : Past c pot spending beef (c.mended pot topic spending m s) t') : Alike (c.mended pot topic spending m' t') t' := by
  have hsome : (t'.recordOf pot).isSome = ((c.mended pot topic spending m s).recordOf pot).isSome := by
    simpa using congrArg Option.isSome h.record
  rw [mended]
  split
  · rename_i p hp
    split
    · exact Alike.refl t'
    · rename_i hno
      cases hb : c.heldBytes pot spending with
      | none => exact Alike.refl t'
      | some atomic =>
        rw [hp] at hsome
        have := h.held _ (mended_bytes hb hsome.symm)
        rw [isSome_beefs] at hno
        exact absurd this hno
  · rename_i hp
    rw [hp] at hsome
    have hnone : (c.mended pot topic spending m s).recordOf pot = none := Option.not_isSome_iff_eq_none.mp (by simp [← hsome])
    have habsent := absent_of_mended hnone
    cases hheal : c.heal pot topic spending with
    | none => exact Alike.refl t'
    | some healed =>
      obtain ⟨record, atomic⟩ := healed
      have hm := mended_heal (m := m) habsent hheal
      have hkey : key record ≠ pot := by
        intro hk
        rw [hm, bytesWrite, recordOf_storeBeef, recordWrite, hk, recordOf_exec, habsent] at hnone
        cases hnone
      have hrecord : t'.recordOf (key record) = execRecord (.storeRecord record true) (s.recordOf (key record)) := by
        rw [h.others _ hkey, hm, bytesWrite, recordOf_storeBeef, recordWrite, recordOf_exec]
      have hkeeps : keeps atomic (t'.bytesOf record.txid) = true := by
        refine h.keeps _ _ ?_
        rw [hm, bytesWrite, bytesOf_storeBeef]
        exact keeps_stored_self ..
      simp only [bytesWrite, recordWrite]
      refine ⟨fun o => ?_, fun txid => ?_⟩
      · rw [recordOf_storeBeef]
        by_cases ho : o = key record
        · rw [ho, recordOf_exec, hrecord, execRecord_again]
        · exact recordOf_exec_other _ _ _ ho
      · by_cases ht : txid = record.txid
        · rw [ht, bytesOf_storeBeef]
          exact stored_keeps hkeeps
        · rw [bytesOf_storeBeef_other _ _ _ _ _ ht]
          rfl

theorem alike_settled (h : Alike s t) : Alike (c.settled pot spending m beef s) (c.settled pot spending m' beef t) := by
  refine ⟨fun o => ?_, fun txid => by rw [bytesOf_settled, bytesOf_settled, h.bytes]⟩
  rw [recordOf_settled, recordOf_settled]
  by_cases ho : o = pot
  · rw [ho, recordOf_told, recordOf_told, h.records]
  · rw [recordOf_told_other ho, recordOf_told_other ho, h.records]

theorem absorbed {m₁ m₂ : Telling} (h : Past c pot spending beef (c.mended pot topic spending m s) t') :
    Alike (c.settled pot spending m₁ beef (c.mended pot topic spending m₁ t')) (c.settled pot spending m₂ beef (c.mended pot topic spending m₂ s)) := by
  have hagain : Alike (c.settled pot spending m₁ beef (c.mended pot topic spending m₁ t')) (c.settled pot spending m₁ beef t') := alike_settled (mended_past h)
  have honce : Alike (c.settled pot spending m₁ beef (c.mended pot topic spending m s)) (c.settled pot spending m₂ beef (c.mended pot topic spending m₂ s)) :=
    alike_settled (alike_mended (Alike.refl s))
  refine hagain.trans (Alike.trans ?_ honce)
  refine ⟨fun o => ?_, fun txid => by rw [bytesOf_settled, bytesOf_settled, h.bytes]⟩
  rw [recordOf_settled, recordOf_settled]
  by_cases ho : o = pot
  · rw [ho, recordOf_told, recordOf_told, h.record]
  · rw [recordOf_told_other ho, recordOf_told_other ho, h.others o ho]

end

end Around

/-! ## The hook told again -/

/-- A telling of the payload that nothing cuts. -/
abbrev Around.toldWhole {μ : Type} (c : Around μ) (n : Payload) (spending : Parsed μ) (m : Telling) (s : Store) : Store :=
  c.settled n.pot spending m n.spendingAtomicBeef (c.mended n.pot n.topic spending m s)

structure Converges {μ : Type} (c : Around μ) (n : Payload) (site : Site) (fate : Fate) (s again once : Store) : Prop where
  others : ∀ o, o ≠ n.pot → again.recordOf o = once.recordOf o
  record : again.recordOf n.pot = once.recordOf n.pot ∨
    (s.recordOf n.pot = none ∧ site = .record ∧ fate = .landed false) ∧ again.recordOf n.pot = (once.recordOf n.pot).map unfunded
  otherBytes : ∀ txid, txid ≠ n.pot.txid → again.bytesOf txid = once.bytesOf txid
  bytes : again.bytesOf n.pot.txid = once.bytesOf n.pot.txid ∨
    (s.recordOf n.pot = none ∧ (s.bytesOf n.pot.txid).isSome = true ∧ (site = .record ∧ (∃ rest, fate = .landed rest) ∨ site = .potBytes ∧ fate = .lost)) ∧
      (again.bytesOf n.pot.txid).isSome = true ∧
      ∀ spending, c.sdk.parse n.spendingAtomicBeef = some spending → spending.subject.id ≠ n.pot.txid →
        ∃ kept told, s.bytesOf n.pot.txid = some kept ∧ once.bytesOf n.pot.txid = some told ∧
          again.bytesOf n.pot.txid = some { kept with structurallyUnprovable := told.structurallyUnprovable }
  held : ∀ spending atomic record, c.sdk.parse n.spendingAtomicBeef = some spending → s.recordOf n.pot = none → lowercase n.pot.txid = n.pot.txid →
    c.heldBytes n.pot spending = some atomic → c.admitted atomic n.pot.outputIndex n.topic = some record →
    (∃ p, again.recordOf n.pot = some p ∧ p.spent = true ∧ p.spendingTxid = some spending.subject.id) ∧ (again.bytesOf n.pot.txid).isSome = true

section
variable {μ : Type} {c : Around μ} {n : Payload} {spending : Parsed μ} {m : Telling} {s : Store}

theorem told_topic {err : String} (h : (c.outputSpent m n s).2 = .error err) :
    (nameMatches n.topic "tm_pot" = true ∨ nameMatches n.topic "tm_lowfund" = true) ∧ ∃ spending, c.sdk.parse n.spendingAtomicBeef = some spending := by
  unfold Around.outputSpent at h
  split at h
  · cases h
  · rename_i htopic
    refine ⟨by simpa [Classical.or_iff_not_imp_left] using htopic, ?_⟩
    cases hp : c.sdk.parse n.spendingAtomicBeef with
    | none =>
      rw [hp] at h
      cases h
    | some spending => exact ⟨spending, rfl⟩

theorem run_clear (now : Site → Nat) (s : Store) (ht : nameMatches n.topic "tm_pot" = true ∨ nameMatches n.topic "tm_lowfund" = true)
    (hp : c.sdk.parse n.spendingAtomicBeef = some spending) :
    c.outputSpent (clear now) n s =
      (c.toldWhole n spending (clear now) s, .ok ()) := by
  have hno : ¬(clear now).Faulted := fun ⟨_, ha⟩ => ha rfl
  have hsingle : (clear now).Single := fun _ _ ha _ => absurd rfl ha
  rcases Around.spent_cases hsingle ht hp s with ⟨s', hrun, hs'⟩ | ⟨hf, -⟩
  · rw [hrun, hs' hno]
  · exact absurd hf hno

theorem fate_cut {a site : Site} {fate f : Fate} {now : Site → Nat} {e : String} (h : (cut site fate now e).fate a = f) (hf : f ≠ .ran) : site = a ∧ fate = f := by
  by_cases ha : a = site
  · subst ha
    exact ⟨rfl, by simpa [cut] using h⟩
  · exact absurd h (by simpa [cut, Function.update_of_ne ha] using hf.symm)

/-! ## A coin held without a record -/

variable {record : PotRecord} {atomic : Bytes}

theorem admitted_some {outputIndex : Nat} {topic : Topic} (h : c.admitted atomic outputIndex topic = some record) :
    ∃ p, c.sdk.parse atomic = some p ∧ record.txid = p.subject.id ∧ record.outputIndex = outputIndex ∧ record.spentConfirmed = false := by
  simp only [Around.admitted, Option.bind_eq_bind, Option.bind_eq_some_iff] at h
  obtain ⟨_, -, p, hp, output, -, _, -, h⟩ := h
  refine ⟨p, hp, ?_⟩
  rw [← Option.some.inj h]
  split
  · simp only [Around.covenant]
    split <;> exact ⟨rfl, rfl, rfl⟩
  · exact ⟨rfl, rfl, rfl⟩

theorem key_admitted (hb : c.heldBytes n.pot spending = some atomic)
    (ha : c.admitted atomic n.pot.outputIndex n.topic = some record) (hlower : lowercase n.pot.txid = n.pot.txid) : Around.key record = n.pot := by
  obtain ⟨p, hp, htxid, hidx, -⟩ := admitted_some ha
  obtain ⟨q, hq, hid⟩ := Around.heldBytes_parse hb
  obtain rfl : p = q := Option.some.inj (hp.symm.trans hq)
  have hlow := c.sdk.parse_id _ _ hp
  have heq : p.subject.id = n.pot.txid := by
    rw [← hlow, ← hlower]
    exact congrArg String.ofList (by simpa [eqIgnoreAsciiCase] using hid)
  simp only [Around.key, htxid, hidx, heq]

variable {pot : Outpoint}

theorem toldRecord_points {p : PotRecord} (h : p.spentConfirmed = false) :
    (c.toldRecord pot spending p).spent = true ∧ (c.toldRecord pot spending p).spendingTxid = some spending.subject.id := by
  have hm : (c.marked spending p p).spent = true ∧ (c.marked spending p p).spendingTxid = some spending.subject.id := by
    rw [Around.marked, recorded_markSpent]
    simp only [Memory.markSpent, h]
    cases (c.spentHeight spending).isSome <;> by_cases hx : p.spendingTxid = some spending.subject.id <;>
      cases classifyRecordSpend c.reader p spending.subject <;> cases c.spentHeight spending <;> simp [Memory.wrote, hx]
  rw [Around.toldRecord, Around.describes, ← describedBy_frame]
  exact hm

variable {beef atomic : Bytes}

theorem held_once (habsent : s.recordOf n.pot = none) (hlower : lowercase n.pot.txid = n.pot.txid)
    (hb : c.heldBytes n.pot spending = some atomic) (ha : c.admitted atomic n.pot.outputIndex n.topic = some record) :
    (∃ p, (c.toldWhole n spending m s).recordOf n.pot = some p ∧ p.spent = true ∧
      p.spendingTxid = some spending.subject.id) ∧
        ((c.toldWhole n spending m s).bytesOf n.pot.txid).isSome = true := by
  have hkey := key_admitted hb ha hlower
  have hheal : c.heal n.pot n.topic spending = some (record, atomic) := by simp [Around.heal, hb, ha]
  have hrecord : (c.mended n.pot n.topic spending m s).recordOf n.pot = some (Row.storeRecord none record 0 true).intoRecord := by
    rw [Around.mended, habsent, hheal]
    simp only [Around.bytesWrite, recordOf_storeBeef, Around.recordWrite, hkey, recordOf_exec, habsent]
    rfl
  have hunconfirmed : (Row.storeRecord none record 0 true).intoRecord.spentConfirmed = false := by
    obtain ⟨-, -, -, -, h⟩ := admitted_some ha
    simp only [Row.storeRecord]
    split <;> exact h
  constructor
  · refine ⟨c.toldRecord n.pot spending (Row.storeRecord none record 0 true).intoRecord, ?_, toldRecord_points hunconfirmed⟩
    rw [Around.recordOf_settled, Around.recordOf_told, hrecord]
    rfl
  · rw [Around.bytesOf_settled]
    exact Around.isSome_settled _ (Around.mended_bytes hb (by rw [hrecord]; rfl))

/-! ## A heal cut behind its record -/

/-- The mark a confirmed spend leaves on a row of other bytes than the spender's. -/
theorem settled_mark (c : Around μ) (pot : Outpoint) (beef : Bytes) {txid : Txid} (h : txid ≠ spending.subject.id) :
    ∃ mark : Bool → Bool → Bool, ∀ r : PotBeefs.Row, c.settledBytes pot spending beef txid (some r) =
      some { r with structurallyUnprovable := mark r.proofVerified r.structurallyUnprovable } := by
  by_cases hretired : (c.spentHeight spending).isSome = true ∧ txid ∈ c.superseded pot spending
  · refine ⟨fun verified marked => marked || !verified, fun r => ?_⟩
    obtain ⟨_, _, _, verified, _, _⟩ := r
    cases verified <;> simp [Around.settledBytes, Around.pointedBytes, retired, h, hretired.1, hretired.2]
  · refine ⟨fun _ marked => marked, fun r => ?_⟩
    cases hconfirmed : (c.spentHeight spending).isSome with
    | false => simp [Around.settledBytes, Around.pointedBytes, h, hconfirmed]
    | true => simp [Around.settledBytes, Around.pointedBytes, retired, h, hconfirmed, not_and.mp hretired hconfirmed]

variable {hasProof rest : Bool}

/-- The bytes a heal leaves and those it would have replaced are marked alike. -/
theorem kept_row {txid : Txid} (h : txid ≠ spending.subject.id) (kept : PotBeefs.Row) :
    ∃ told, c.settledBytes pot spending beef txid (stored hasProof atomic (some kept)) = some told ∧
      c.settledBytes pot spending beef txid (some kept) = some { kept with structurallyUnprovable := told.structurallyUnprovable } := by
  obtain ⟨mark, hmark⟩ := settled_mark c pot beef h
  by_cases hkeeps : keeps atomic (some kept) = true
  · rw [stored, if_pos hkeeps, hmark]
    exact ⟨_, rfl, rfl⟩
  · have hunverified : kept.proofVerified = false := by
      cases hverified : kept.proofVerified with
      | false => rfl
      | true => simp [keeps, hverified] at hkeeps
    rw [stored, if_neg hkeeps, hmark, hmark, hunverified]
    exact ⟨_, rfl, rfl⟩

theorem unfunded_stored (record : PotRecord) (rest : Bool) :
    unfunded (Row.storeRecord none record 0 rest).intoRecord = (Row.storeRecord none record 0 false).intoRecord := by
  simp only [Row.storeRecord, Bool.false_and, Bool.false_eq_true, if_false]
  split <;> rfl

variable {m₁ m₂ m' : Telling}

theorem again_elsewhere (habsent : s.recordOf n.pot = none)
    (hheal : c.heal n.pot n.topic spending = some (record, atomic)) (hkey : Around.key record ≠ n.pot) :
    Alike (c.mended n.pot n.topic spending m (Around.recordWrite m' record rest s)) (c.mended n.pot n.topic spending m s) := by
  have habsent' : (Around.recordWrite m' record rest s).recordOf n.pot = none := by
    rw [Around.recordWrite, recordOf_exec_other _ _ _ hkey.symm, habsent]
  rw [Around.mended_heal habsent' hheal, Around.mended_heal habsent hheal, Around.bytesWrite, Around.bytesWrite]
  apply alike_storeBeef
  refine ⟨fun o => ?_, fun _ => rfl⟩
  by_cases ho : o = Around.key record
  · simp only [ho, Around.recordWrite, recordOf_exec, Around.execRecord_again]
  · simp only [Around.recordWrite, recordOf_exec_other _ _ _ ho]

theorem again_recorded (m m' : Telling) (rest : Bool) (habsent : s.recordOf n.pot = none)
    (hheal : c.heal n.pot n.topic spending = some (record, atomic)) (hkey : Around.key record = n.pot) :
    (∀ o, o ≠ n.pot → (c.mended n.pot n.topic spending m (Around.recordWrite m' record rest s)).recordOf o = (c.mended n.pot n.topic spending m s).recordOf o) ∧
      (c.mended n.pot n.topic spending m (Around.recordWrite m' record rest s)).recordOf n.pot = some (Row.storeRecord none record 0 rest).intoRecord ∧
      (c.mended n.pot n.topic spending m s).recordOf n.pot = some (Row.storeRecord none record 0 true).intoRecord ∧
      (∀ txid, txid ≠ n.pot.txid →
        (c.mended n.pot n.topic spending m (Around.recordWrite m' record rest s)).bytesOf txid = (c.mended n.pot n.topic spending m s).bytesOf txid) ∧
      (c.mended n.pot n.topic spending m (Around.recordWrite m' record rest s)).bytesOf n.pot.txid =
        (if (s.bytesOf n.pot.txid).isSome then s.bytesOf n.pot.txid else (c.mended n.pot n.topic spending m s).bytesOf n.pot.txid) ∧
      ∃ hasProof, (c.mended n.pot n.topic spending m s).bytesOf n.pot.txid = stored hasProof atomic (s.bytesOf n.pot.txid) := by
  have htxid : record.txid = n.pot.txid := congrArg Outpoint.txid hkey
  have hr : ∀ m'' rest', (Around.recordWrite m'' record rest' s).recordOf n.pot = some (Row.storeRecord none record 0 rest').intoRecord := by
    intro m'' rest'
    rw [Around.recordWrite, hkey, recordOf_exec, habsent]
    rfl
  have hother : ∀ m'' rest' o, o ≠ n.pot → (Around.recordWrite m'' record rest' s).recordOf o = s.recordOf o := by
    intro m'' rest' o ho
    rw [Around.recordWrite, recordOf_exec_other _ _ _ (by rwa [hkey])]
  have honce : c.mended n.pot n.topic spending m s = c.bytesWrite m n.pot.txid atomic (Around.recordWrite m record true s) := by
    rw [Around.mended_heal habsent hheal, htxid]
  have hagain : c.mended n.pot n.topic spending m (Around.recordWrite m' record rest s) =
      if (s.bytesOf n.pot.txid).isSome then Around.recordWrite m' record rest s
      else c.bytesWrite m n.pot.txid atomic (Around.recordWrite m' record rest s) := by
    rw [Around.mended, hr, (Around.heal_some hheal).1]
    exact congrArg (fun b : Bool => if b then _ else _) (Around.isSome_beefs _ _)
  rw [honce, hagain]
  refine ⟨fun o ho => ?_, ?_, ?_, fun txid ht => ?_, ?_, _, bytesOf_storeBeef ..⟩
  · split <;> simp only [Around.bytesWrite, recordOf_storeBeef, hother _ _ o ho]
  · split <;> simp only [Around.bytesWrite, recordOf_storeBeef, hr]
  · simp only [Around.bytesWrite, recordOf_storeBeef, hr]
  · split <;> simp only [Around.bytesWrite, bytesOf_storeBeef_other _ _ _ _ _ ht] <;> rfl
  · split
    · rfl
    · simp only [Around.bytesWrite, bytesOf_storeBeef]
      rfl

theorem converges_of_alike {site : Site} {fate : Fate} {again : Store} (hp : c.sdk.parse n.spendingAtomicBeef = some spending)
    (h : Alike again (c.toldWhole n spending m₁ s)) :
    Converges c n site fate s again (c.toldWhole n spending m₁ s) where
  others o _ := h.records o
  record := Or.inl (h.records _)
  otherBytes txid _ := h.bytes txid
  bytes := Or.inl (h.bytes _)
  held spending' atomic record hp' habsent hlower hb ha := by
    obtain rfl : spending = spending' := Option.some.inj (hp.symm.trans hp')
    rw [h.records, h.bytes]
    exact held_once habsent hlower hb ha

theorem converges_recorded {site : Site} {fate : Fate}
    (hp : c.sdk.parse n.spendingAtomicBeef = some spending) (habsent : s.recordOf n.pot = none) (hheal : c.heal n.pot n.topic spending = some (record, atomic))
    (hcut : site = .record ∧ fate = .landed rest ∨ (site = .potBytes ∧ fate = .lost) ∧ rest = true) :
    Converges c n site fate s (c.toldWhole n spending m₁ (Around.recordWrite m' record rest s)) (c.toldWhole n spending m₂ s) := by
  have honce : Alike (c.toldWhole n spending m₁ s) (c.toldWhole n spending m₂ s) := Around.alike_settled (Around.alike_mended (Alike.refl s))
  by_cases hkey : Around.key record = n.pot
  swap
  · exact converges_of_alike hp ((Around.alike_settled (again_elsewhere habsent hheal hkey)).trans honce)
  obtain ⟨hothers, hagain, hwhole, hotherBytes, hbytes, hasProof, hstored⟩ := again_recorded m₁ m' rest habsent hheal hkey
  have hfunded : (c.toldWhole n spending m₁ (Around.recordWrite m' record rest s)).recordOf n.pot =
      some (c.toldRecord n.pot spending (Row.storeRecord none record 0 rest).intoRecord) := by
    rw [Around.recordOf_settled, Around.recordOf_told, hagain]
    rfl
  have hfundedOnce : (c.toldWhole n spending m₂ s).recordOf n.pot =
      some (c.toldRecord n.pot spending (Row.storeRecord none record 0 true).intoRecord) := by
    rw [← honce.records, Around.recordOf_settled, Around.recordOf_told, hwhole]
    rfl
  have hcutBytes : site = .record ∧ (∃ rest, fate = .landed rest) ∨ site = .potBytes ∧ fate = .lost :=
    hcut.imp (fun h => ⟨h.1, rest, h.2⟩) fun h => h.1
  have hbytesOnce : (c.toldWhole n spending m₂ s).bytesOf n.pot.txid =
      c.settledBytes n.pot spending n.spendingAtomicBeef n.pot.txid ((c.mended n.pot n.topic spending m₁ s).bytesOf n.pot.txid) := by
    rw [← honce.bytes, Around.bytesOf_settled]
  refine ⟨fun o ho => ?_, ?_, fun txid ht => ?_, ?_, fun spending' atomic' record' hp' _ hlower hb ha => ?_⟩
  · rw [← honce.records, Around.recordOf_settled, Around.recordOf_settled, Around.recordOf_told_other ho, Around.recordOf_told_other ho, hothers o ho]
  · cases rest with
    | true => exact Or.inl (hfunded.trans hfundedOnce.symm)
    | false =>
      refine Or.inr ⟨⟨habsent, ?_⟩, ?_⟩
      · rcases hcut with h | ⟨-, h⟩
        · exact h
        · cases h
      · rw [hfunded, hfundedOnce, Option.map_some, ← Around.toldRecord_unfunded, unfunded_stored]
  · rw [← honce.bytes, Around.bytesOf_settled, Around.bytesOf_settled, hotherBytes txid ht]
  · rw [hbytesOnce, Around.bytesOf_settled, hbytes]
    by_cases hstood : (s.bytesOf n.pot.txid).isSome = true
    · rw [if_pos hstood]
      refine Or.inr ⟨⟨habsent, hstood, hcutBytes⟩, Around.isSome_settled _ hstood, fun spending' hp' hne => ?_⟩
      obtain rfl : spending = spending' := Option.some.inj (hp.symm.trans hp')
      obtain ⟨kept, hkept⟩ := Option.isSome_iff_exists.mp hstood
      rw [hstored, hkept]
      obtain ⟨told, htold, hmarked⟩ := kept_row hne.symm kept
      exact ⟨kept, told, rfl, htold, hmarked⟩
    · rw [if_neg hstood]
      exact Or.inl rfl
  · obtain rfl : spending = spending' := Option.some.inj (hp.symm.trans hp')
    rw [hfunded]
    have hun : (Row.storeRecord none record 0 rest).intoRecord.spentConfirmed = false := by
      obtain ⟨-, -, -, -, h⟩ := admitted_some (Around.heal_some hheal).2
      simp only [Row.storeRecord]
      split <;> exact h
    refine ⟨⟨_, rfl, toldRecord_points hun⟩, ?_⟩
    rw [Around.bytesOf_settled, hbytes]
    split
    · rename_i hstood
      exact Around.isSome_settled _ hstood
    · exact Around.isSome_settled _ (Around.mended_bytes hb (by rw [hwhole]; rfl))

/-- A hook that answered a fault, told again without one, answers and converges on what one telling without a fault leaves. -/
theorem fault_told_again (c : Around μ) (n : Payload) (s : Store) (site : Site) (fate : Fate) (e : String) (now now' now'' : Site → Nat)
    (h : ∃ err, (c.outputSpent (cut site fate now e) n s).2 = .error err) :
    (c.outputSpent (clear now') n (c.outputSpent (cut site fate now e) n s).1).2 = .ok () ∧ (c.outputSpent (clear now'') n s).2 = .ok () ∧
      Converges c n site fate s (c.outputSpent (clear now') n (c.outputSpent (cut site fate now e) n s).1).1 (c.outputSpent (clear now'') n s).1 := by
  obtain ⟨err, herr⟩ := h
  obtain ⟨ht, spending, hp⟩ := told_topic herr
  rcases Around.spent_cases (single_cut site fate now e) ht hp s with ⟨s', hrun, -⟩ | ⟨-, s', e', hcut, hrun⟩
  · rw [hrun] at herr
    cases herr
  rw [hrun, run_clear now' s' ht hp, run_clear now'' s ht hp]
  refine ⟨rfl, rfl, ?_⟩
  cases hcut with
  | before => exact converges_of_alike hp (Around.alike_settled (Around.alike_mended (Alike.refl s)))
  | record record atomic rest habsent hheal hfate =>
    refine converges_recorded hp habsent hheal (hfate.imp (fun hf => fate_cut hf nofun) fun hf => ⟨fate_cut hf.1 nofun, hf.2⟩)
  | mended => exact converges_of_alike hp (Around.absorbed (Around.past_refl _))
  | pointed rest => exact converges_of_alike hp (Around.absorbed (Around.past_pointed rest _))
  | told => exact converges_of_alike hp (Around.absorbed (Around.past_told _ _))
  | settled => exact converges_of_alike hp (Around.absorbed (Around.past_settled _))

end

/-! ## A pot held by the engine with a shorter copy of its bytes here -/

def pot : Outpoint := ⟨"bb", 0⟩

def funding : Transaction := { id := "bb", inputs := [], outputs := [{ satoshis := 5 }] }

def spender : Transaction := { id := "aa", inputs := [{ sourceTxid := some "bb", sourceOutputIndex := 0 }], outputs := [] }

def library : Sdk Unit where
  fromHex := fun _ => none
  proofFromHex := fun _ => none
  hasLeaf := fun _ _ => false
  computeRoot := fun _ _ => none
  blockHeight := fun _ => 0
  isPotCovenantScript := fun _ => false
  isP2pkhScript := fun _ => true
  parse := fun b => if b = [1] then some { subject := spender }
    else if b = [2, 2] then some { subject := funding, entries := [⟨"bb", some (funding, 61)⟩] } else none
  parse_nil := rfl
  parse_id := by
    intro beef p h
    split at h
    · rw [← Option.some.inj h]
      decide
    · split at h
      · rw [← Option.some.inj h]
        decide
      · cases h
  toBinaryAtomic := fun bytes _ => some bytes
  potBeefHasProof := fun _ _ => false

def scripts : Reader where
  extractCovenantParams := fun _ => none
  isPotCovenantScript := fun _ => false
  isBare2of3Lock := fun _ => false
  isP2pkhScript := fun _ => true
  hexEncode := fun _ => ""
  hexDecode := fun _ => none
  p2pkhLock := id
  classifyCovenant := fun _ _ _ => none
  settleSignersForSpend := fun _ _ _ _ => none

def around : Around Unit :=
  { sdk := library, reader := scripts, tracked := false, answer := .fault, engineCopy := fun _ => some [2, 2], evicted := fun _ => false, refunds := fun _ => [] }

def payload : Payload := { pot, topic := "tm_lowfund", spendingAtomicBeef := [1] }

def shorter : Store where
  records := fun _ => none
  beefs := Function.update (fun _ => none) "bb"
    (some { beef := [9], createdAt := none, hasProof := false, proofVerified := false, structurallyUnprovable := false, proofHeight := none })

def toldTwice (site : Site) (fate : Fate) : Store :=
  (around.outputSpent (clear fun _ => 0) payload (around.outputSpent (cut site fate (fun _ => 0) "") payload shorter).1).1

def toldOnce : Store := (around.outputSpent (clear fun _ => 0) payload shorter).1

/-- The write of the pot's bytes is lost: told again, the hook keeps the shorter copy that told once it replaces. The write of
its record lands without the funding's facts: told again, the hook does not fill them. -/
theorem leftovers_kept :
    ((around.outputSpent (cut .potBytes .lost (fun _ => 0) "") payload shorter).2 = .error "" ∧
      ((toldTwice .potBytes .lost).bytesOf "bb").map PotBeefs.Row.beef = some [9] ∧
      (toldOnce.bytesOf "bb").map PotBeefs.Row.beef = some [2, 2]) ∧
    (around.outputSpent (cut .record (.landed false) (fun _ => 0) "") payload shorter).2 = .error "" ∧
      ((toldTwice .record (.landed false)).recordOf pot).bind PotRecord.fundingSizeBytes = none ∧
      (toldOnce.recordOf pot).bind PotRecord.fundingSizeBytes = some 61 := by decide

theorem fault_told_again_pointer :
    (around.outputSpent (clear fun _ => 0) payload (around.outputSpent (cut .pointer .lost (fun _ => 0) "") payload shorter).1).2 = .ok () ∧
      (around.outputSpent (clear fun _ => 0) payload shorter).2 = .ok () ∧
      Converges around payload .pointer .lost shorter
        (around.outputSpent (clear fun _ => 0) payload (around.outputSpent (cut .pointer .lost (fun _ => 0) "") payload shorter).1).1
        (around.outputSpent (clear fun _ => 0) payload shorter).1 :=
  fault_told_again around payload shorter .pointer .lost "" (fun _ => 0) (fun _ => 0) (fun _ => 0) ⟨"", rfl⟩

end OverlayEngine.Pot.SpendReplay
