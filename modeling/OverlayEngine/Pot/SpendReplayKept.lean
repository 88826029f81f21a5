import OverlayEngine.Pot.SpendReplay
import OverlayEngine.Pot.SpenderPayouts

/-!
# A faulted spend hook told again

A telling that faulted leaves a beginning of what a whole one does, and a second
telling finishes it. The record's funding facts, where the fill behind its write
did not run, and bytes of the pot that stood before are what the second telling
does not come back to.
-/

namespace OverlayEngine.Pot.SpendReplay

open ArcadeReorg (eqIgnoreAsciiCase)
open Reverify (lowercase)

/-! ## Runs -/

section
variable {α β : Type} {m : Telling} {pot : Outpoint} {site : Site} {s : Store}

theorem bind_run (h : Hook α) (f : α → Hook β) (s : Store) :
    (h >>= f) s = match h s with
      | (s', .ok a) => f a s'
      | (s', .error e) => (s', .error e) := rfl

theorem bind_ok {h : Hook α} {f : α → Hook β} {s' : Store} {a : α} (hr : h s = (s', .ok a)) : (h >>= f) s = f a s' := by
  rw [bind_run, hr]

theorem bind_error {h : Hook α} {f : α → Hook β} {s' : Store} {e : String} (hr : h s = (s', .error e)) : (h >>= f) s = (s', .error e) := by
  rw [bind_run, hr]

theorem pure_run (a : α) (s : Store) : (pure a : Hook α) s = (s, .ok a) := rfl

theorem call_ran {effect : Bool → Store → Store} {answer : Store → α} (h : m.fate site = .ran) :
    call m pot site effect answer s = (effect true s, .ok (answer s)) := by
  simp only [call, h]

theorem ask_ran {answer : Store → α} (h : m.fate site = .ran) : ask m pot site answer s = (s, .ok (answer s)) := call_ran h

theorem tell_ran {effect : Bool → Store → Store} (h : m.fate site = .ran) : tell m pot site effect s = (effect true s, .ok ()) := call_ran h

theorem ask_cases (m : Telling) (pot : Outpoint) (site : Site) (answer : Store → α) (s : Store) :
    (m.fate site = .ran ∧ ask m pot site answer s = (s, .ok (answer s))) ∨ (m.fate site ≠ .ran ∧ ∃ e, ask m pot site answer s = (s, .error e)) := by
  cases h : m.fate site with
  | ran => exact Or.inl ⟨rfl, ask_ran h⟩
  | lost => exact Or.inr ⟨fun h => (by cases h), site.storageError pot m.e, by simp only [ask, call, h]⟩
  | landed rest => exact Or.inr ⟨fun h => (by cases h), site.storageError pot m.e, by simp only [ask, call, h]⟩

theorem tell_cases (m : Telling) (pot : Outpoint) (site : Site) (effect : Bool → Store → Store) (s : Store) :
    (m.fate site = .ran ∧ tell m pot site effect s = (effect true s, .ok ())) ∨
      (m.fate site = .lost ∧ ∃ e, tell m pot site effect s = (s, .error e)) ∨
      ∃ rest, m.fate site = .landed rest ∧ ∃ e, tell m pot site effect s = (effect rest s, .error e) := by
  cases h : m.fate site with
  | ran => exact Or.inl ⟨rfl, tell_ran h⟩
  | lost => exact Or.inr (Or.inl ⟨rfl, site.storageError pot m.e, by simp only [tell, call, h]⟩)
  | landed rest => exact Or.inr (Or.inr ⟨rest, rfl, site.storageError pot m.e, by simp only [tell, call, h]⟩)

end

def Telling.Single (m : Telling) : Prop := ∀ a b, m.fate a ≠ .ran → m.fate b ≠ .ran → a = b

theorem single_cut (site : Site) (fate : Fate) (now : Site → Nat) (e : String) : (cut site fate now e).Single := by
  have hran : ∀ a, (cut site fate now e).fate a ≠ .ran → a = site := by
    intro a ha
    by_contra hne
    exact ha (by simp [cut, Function.update_of_ne hne])
  intro a b ha hb
  rw [hran a ha, hran b hb]

def Telling.Faulted (m : Telling) : Prop := ∃ a, m.fate a ≠ .ran

theorem Telling.Single.ran {m : Telling} (h : m.Single) {a b : Site} (hb : m.fate b ≠ .ran) (hab : a ≠ b) : m.fate a = .ran := by
  by_contra ha
  exact hab (h a b ha hb)

@[simp] theorem recordOf_storeBeef {μ : Type} (x : Sdk μ) (s : Store) (txid : Txid) (beef : Bytes) (now : Nat) (o : Outpoint) :
    (s.storeBeef x txid beef now).recordOf o = s.recordOf o := by
  simp only [Store.storeBeef]
  split <;> rfl

/-! ## What a telling does -/

namespace Around

variable {μ : Type} (c : Around μ) (pot : Outpoint) (topic : Topic) (spending : Parsed μ)

def heldBytes : Option Bytes :=
  if c.evicted pot.txid then none
  else ((carriedSource pot spending).getD (c.engineCopy pot.txid)).bind fun bytes => c.boundTo bytes pot.txid

def heal : Option (PotRecord × Bytes) :=
  (c.heldBytes pot spending).bind fun atomic => (c.admitted atomic pot.outputIndex topic).map fun record => (record, atomic)

def recordWrite (m : Telling) (record : PotRecord) (rest : Bool) (s : Store) : Store := s.exec (key record) (m.now .record) (.storeRecord record rest)

def bytesWrite (m : Telling) (txid : Txid) (beef : Bytes) (s : Store) : Store := s.storeBeef c.sdk txid beef (m.now .potBytes)

def mended (m : Telling) (s : Store) : Store :=
  match s.recordOf pot with
  | some _ => if (s.beefs pot.txid).isSome then s else match c.heldBytes pot spending with
    | none => s
    | some atomic => c.bytesWrite m pot.txid atomic s
  | none => match c.heal pot topic spending with
    | none => s
    | some (record, atomic) => c.bytesWrite m record.txid atomic (recordWrite m record true s)

def described (m : Telling) (admitted : Option PotRecord) (s : Store) : Store :=
  match admitted with
  | none => s
  | some record =>
    let s := match spenderFacts pot spending record with
      | none => s
      | some facts => s.exec pot (m.now .spenderFacts) (.storeSpenderFacts spending.subject.id facts)
    let pay := c.spendPayouts spending record
    if pay.1.isSome || pay.2.isSome then s.exec pot (m.now .spenderPayouts) (.storeSpenderPayouts spending.subject.id pay.1 pay.2) else s

def pointed (m : Telling) (rest : Bool) (s : Store) : Store := c.markSpent pot spending (s.recordOf pot) (m.now .pointer) rest s

def told (m : Telling) (s : Store) : Store := c.described pot spending m (s.recordOf pot) (c.pointed pot spending m true s)

def settled (m : Telling) (beef : Bytes) (s : Store) : Store := (c.told pot spending m s).storeBeef c.sdk spending.subject.id beef (m.now .spenderBytes)

inductive Cut (m : Telling) (beef : Bytes) (s : Store) : Store → Prop
  | before : Cut m beef s s
  | record (record : PotRecord) (atomic : Bytes) (rest : Bool) (absent : s.recordOf pot = none) (heals : c.heal pot topic spending = some (record, atomic))
      (fate : m.fate .record = .landed rest ∨ m.fate .potBytes = .lost ∧ rest = true) : Cut m beef s (recordWrite m record rest s)
  | mended : Cut m beef s (c.mended pot topic spending m s)
  | pointed (rest : Bool) : Cut m beef s (c.pointed pot spending m rest (c.mended pot topic spending m s))
  | told : Cut m beef s (c.told pot spending m (c.mended pot topic spending m s))
  | settled : Cut m beef s (c.settled pot spending m beef (c.mended pot topic spending m s))

variable {c pot topic spending} {m : Telling} {s : Store}

theorem mended_recorded {record : PotRecord} (h : s.recordOf pot = some record) : (c.mended pot topic spending m s).recordOf pot = some record := by
  rw [mended, h]
  simp only
  split
  · exact h
  · split
    · exact h
    · exact (recordOf_storeBeef ..).trans h

theorem heldBytes_evicted (h : c.evicted pot.txid = true) : c.heldBytes pot spending = none := by simp [heldBytes, h]

theorem heal_evicted (h : c.evicted pot.txid = true) : c.heal pot topic spending = none := by simp [heal, heldBytes_evicted h]

variable (spending) in
theorem heldOutputBytes_cases (m : Telling) (h : c.evicted pot.txid = false) (s : Store) :
    c.heldOutputBytes m pot spending s = (s, .ok (c.heldBytes pot spending)) ∨
      m.fate .engineCopy ≠ .ran ∧ ∃ e, c.heldOutputBytes m pot spending s = (s, .error e) := by
  unfold heldOutputBytes heldBytes
  rw [h]
  cases carriedSource pot spending with
  | some source => exact Or.inl rfl
  | none =>
    rcases ask_cases m pot .engineCopy (fun _ => c.engineCopy pot.txid) s with ⟨-, hr⟩ | ⟨hf, e, hr⟩
    · exact Or.inl (bind_ok hr)
    · exact Or.inr ⟨hf, e, bind_error hr⟩

variable (topic) in
theorem complete_cases {record : PotRecord} (m : Telling) (s : Store) (hr : s.recordOf pot = some record) :
    c.completeHeldOutputBytes m pot spending s = (c.mended pot topic spending m s, .ok ()) ∨
      m.Faulted ∧ ∃ e, c.completeHeldOutputBytes m pot spending s = (s, .error e) ∨
        c.completeHeldOutputBytes m pot spending s = (c.mended pot topic spending m s, .error e) := by
  have hm : c.mended pot topic spending m s = if (s.beefs pot.txid).isSome then s else match c.heldBytes pot spending with
      | none => s
      | some atomic => c.bytesWrite m pot.txid atomic s := by
    rw [mended, hr]
  rw [hm]
  unfold completeHeldOutputBytes healUnderOpenEviction
  rcases ask_cases m pot .bytesProbe (fun s => (s.beefs pot.txid).isSome) s with ⟨-, hask⟩ | ⟨hf, e, hask⟩
  swap
  · exact Or.inr ⟨⟨_, hf⟩, e, Or.inl (bind_error hask)⟩
  rw [bind_ok hask]
  by_cases hheld : (s.beefs pot.txid).isSome = true
  · rw [if_pos hheld, if_pos hheld]
    exact Or.inl rfl
  rw [if_neg hheld, if_neg hheld]
  rcases ask_cases m pot .evictionLedger (fun _ => c.evicted pot.txid) s with ⟨-, hask⟩ | ⟨hf, e, hask⟩
  swap
  · exact Or.inr ⟨⟨_, hf⟩, e, Or.inl (bind_error hask)⟩
  rw [bind_ok hask]
  by_cases hev : c.evicted pot.txid = true
  · rw [if_pos hev, heldBytes_evicted hev]
    exact Or.inl rfl
  rw [if_neg hev]
  rcases heldOutputBytes_cases spending m (by simpa using hev) s with hrun | ⟨hf, e, hrun⟩
  swap
  · exact Or.inr ⟨⟨_, hf⟩, e, Or.inl (bind_error hrun)⟩
  rw [bind_ok hrun]
  cases c.heldBytes pot spending with
  | none => exact Or.inl rfl
  | some atomic =>
    rcases tell_cases m pot .potBytes (fun _ => c.bytesWrite m pot.txid atomic) s with ⟨-, ht⟩ | ⟨hf, e, ht⟩ | ⟨_, hf, e, ht⟩
    · exact Or.inl ht
    · exact Or.inr ⟨⟨_, hf.trans_ne (by simp)⟩, e, Or.inl ht⟩
    · exact Or.inr ⟨⟨_, hf.trans_ne (by simp)⟩, e, Or.inr ht⟩

theorem record_cases (beef : Bytes) (m : Telling) (s : Store) (hr : s.recordOf pot = none) :
    c.recordHeldOutputFromSpender m pot topic spending s =
        (c.mended pot topic spending m s, .ok ((c.mended pot topic spending m s).recordOf pot)) ∨
      m.Faulted ∧ ∃ s' e, Cut c pot topic spending m beef s s' ∧ c.recordHeldOutputFromSpender m pot topic spending s = (s', .error e) := by
  have hm : c.mended pot topic spending m s = match c.heal pot topic spending with
      | none => s
      | some (record, atomic) => c.bytesWrite m record.txid atomic (recordWrite m record true s) := by
    rw [mended, hr]
  unfold recordHeldOutputFromSpender healUnderOpenEviction
  rcases ask_cases m pot .evictionLedger (fun _ => c.evicted pot.txid) s with ⟨-, hask⟩ | ⟨hf, e, hask⟩
  swap
  · exact Or.inr ⟨⟨_, hf⟩, s, e, .before, bind_error hask⟩
  rw [bind_ok hask]
  by_cases hev : c.evicted pot.txid = true
  · rw [heal_evicted hev] at hm
    rw [if_pos hev, hm, hr]
    exact Or.inl rfl
  rw [if_neg hev]
  rcases heldOutputBytes_cases spending m (by simpa using hev) s with hrun | ⟨hf, e, hrun⟩
  swap
  · exact Or.inr ⟨⟨_, hf⟩, s, e, .before, bind_error hrun⟩
  rw [bind_ok hrun]
  cases hb : c.heldBytes pot spending with
  | none =>
    have hheal : c.heal pot topic spending = none := by simp [heal, hb]
    rw [hheal] at hm
    rw [hm, hr]
    exact Or.inl rfl
  | some atomic =>
    simp only
    unfold outputAdmittedByTopic
    cases ha : c.admitted atomic pot.outputIndex topic with
    | none =>
      have hheal : c.heal pot topic spending = none := by simp [heal, hb, ha]
      rw [hheal] at hm
      rw [hm, bind_ok (pure_run () s)]
      rcases ask_cases m pot .recorded (fun s => s.recordOf pot) s with ⟨-, hask⟩ | ⟨hf, e, hask⟩
      · exact Or.inl hask
      · exact Or.inr ⟨⟨_, hf⟩, s, e, .before, hask⟩
    | some record =>
      have hheal : c.heal pot topic spending = some (record, atomic) := by simp [heal, hb, ha]
      rw [hheal] at hm
      simp only at hm ⊢
      rcases tell_cases m pot .record (recordWrite m record) s with ⟨-, ht⟩ | ⟨hf, e, ht⟩ | ⟨rest, hf, e, ht⟩
      · have hnext := bind_ok (f := fun _ : Unit => tell m pot .potBytes fun _ => c.bytesWrite m record.txid atomic) ht
        rcases tell_cases m pot .potBytes (fun _ => c.bytesWrite m record.txid atomic) (recordWrite m record true s) with ⟨-, ht'⟩ | ⟨hf, e, ht'⟩ | ⟨_, hf, e, ht'⟩
        · have hdone := hnext.trans ht'
          rcases ask_cases m pot .recorded (fun s => s.recordOf pot) (c.mended pot topic spending m s) with ⟨-, hask⟩ | ⟨hf, e, hask⟩
          · refine Or.inl (Eq.trans (bind_ok hdone) ?_)
            rw [← hm]
            exact hask
          · refine Or.inr ⟨⟨_, hf⟩, _, e, .mended, Eq.trans (bind_ok hdone) ?_⟩
            rw [← hm]
            exact hask
        · exact Or.inr ⟨⟨_, hf.trans_ne (by simp)⟩, _, e, .record record atomic true hr hheal (Or.inr ⟨hf, rfl⟩), bind_error (hnext.trans ht')⟩
        · refine Or.inr ⟨⟨_, hf.trans_ne (by simp)⟩, _, e, .mended, ?_⟩
          rw [hm]
          exact bind_error (hnext.trans ht')
      · exact Or.inr ⟨⟨_, hf.trans_ne (by simp)⟩, s, e, .before, bind_error (bind_error ht)⟩
      · exact Or.inr ⟨⟨_, hf.trans_ne (by simp)⟩, _, e, .record record atomic rest hr hheal (Or.inl hf), bind_error (bind_error ht)⟩

theorem tellSpenderFacts_ok (m : Telling) (pot : Outpoint) (spending : Parsed μ) (record : PotRecord) (s : Store) :
    ∃ s', tellSpenderFacts m pot spending record s = (s', .ok ()) := by
  unfold tellSpenderFacts
  cases spenderFacts pot spending record with
  | none => exact ⟨s, rfl⟩
  | some facts => exact ⟨_, rfl⟩

variable (c pot spending) in
theorem tellSpenderPayouts_ok (m : Telling) (record : PotRecord) (s : Store) : ∃ s', c.tellSpenderPayouts m pot spending record s = (s', .ok ()) := by
  simp only [tellSpenderPayouts]
  split <;> exact ⟨_, rfl⟩

variable (c pot spending) in
theorem describe_ok (m : Telling) (admitted : Option PotRecord) (s : Store) : ∃ s', c.describeSpender m pot spending admitted s = (s', .ok ()) := by
  cases admitted with
  | none => exact ⟨s, rfl⟩
  | some record =>
    obtain ⟨s₁, h₁⟩ := tellSpenderFacts_ok m pot spending record s
    obtain ⟨s₂, h₂⟩ := tellSpenderPayouts_ok c pot spending m record s₁
    exact ⟨s₂, (bind_ok h₁).trans h₂⟩

theorem bestEffort_ran {site : Site} {effect : Bool → Store → Store} (h : m.fate site = .ran) : bestEffort (tell m pot site effect) s = (effect true s, .ok ()) := by
  simp only [bestEffort, tell_ran h]

theorem describe_ran (admitted : Option PotRecord) (s : Store) (hf : m.fate .spenderFacts = .ran) (hp : m.fate .spenderPayouts = .ran) :
    c.describeSpender m pot spending admitted s = (c.described pot spending m admitted s, .ok ()) := by
  cases admitted with
  | none => rfl
  | some record =>
    have hfacts : tellSpenderFacts m pot spending record s = (match spenderFacts pot spending record with
        | none => s
        | some facts => s.exec pot (m.now .spenderFacts) (.storeSpenderFacts spending.subject.id facts), .ok ()) := by
      unfold tellSpenderFacts
      cases spenderFacts pot spending record with
      | none => rfl
      | some facts => exact bestEffort_ran hf
    refine (bind_ok hfacts).trans ?_
    simp only [tellSpenderPayouts, described]
    split
    · exact bestEffort_ran hp
    · rfl

variable (pot topic spending) in
theorem mend_cases (beef : Bytes) (m : Telling) (s : Store) :
    c.mend m pot topic spending (s.recordOf pot) s = (c.mended pot topic spending m s, .ok ((c.mended pot topic spending m s).recordOf pot)) ∨
      m.Faulted ∧ ∃ s' e, Cut c pot topic spending m beef s s' ∧ c.mend m pot topic spending (s.recordOf pot) s = (s', .error e) := by
  cases hr : s.recordOf pot with
  | none => exact record_cases beef m s hr
  | some record =>
    rcases complete_cases topic m s hr with hrun | ⟨hf, e, hrun | hrun⟩
    · refine Or.inl ((bind_ok hrun).trans ?_)
      rw [mended_recorded hr]
      rfl
    · exact Or.inr ⟨hf, s, e, .before, bind_error hrun⟩
    · exact Or.inr ⟨hf, _, e, .mended, bind_error hrun⟩

theorem spent_cases {n : Payload} (hm : m.Single) (ht : nameMatches n.topic "tm_pot" = true ∨ nameMatches n.topic "tm_lowfund" = true)
    (hp : c.sdk.parse n.spendingAtomicBeef = some spending) (s : Store) :
    (∃ s', c.outputSpent m n s = (s', .ok ()) ∧
      (¬m.Faulted → s' = c.settled n.pot spending m n.spendingAtomicBeef (c.mended n.pot n.topic spending m s))) ∨
      m.Faulted ∧ ∃ s' e, Cut c n.pot n.topic spending m n.spendingAtomicBeef s s' ∧ c.outputSpent m n s = (s', .error e) := by
  have htopic : ¬(!nameMatches n.topic "tm_pot" && !nameMatches n.topic "tm_lowfund") = true := by
    rcases ht with h | h <;> simp [h]
  unfold outputSpent
  rw [if_neg htopic, hp]
  simp only
  rcases ask_cases m n.pot .spentStatus (fun s => s.recordOf n.pot) s with ⟨-, hask⟩ | ⟨hf, e, hask⟩
  swap
  · exact Or.inr ⟨⟨_, hf⟩, s, e, .before, bind_error hask⟩
  rw [bind_ok hask]
  rcases mend_cases n.pot n.topic spending n.spendingAtomicBeef m s with hrun | ⟨hf, s', e, hcut, hrun⟩
  swap
  · exact Or.inr ⟨hf, s', e, hcut, bind_error hrun⟩
  rw [bind_ok hrun]
  rcases tell_cases m n.pot .pointer (c.markSpent n.pot spending ((c.mended n.pot n.topic spending m s).recordOf n.pot) (m.now .pointer))
      (c.mended n.pot n.topic spending m s) with
    ⟨-, ht⟩ | ⟨hf, e, ht⟩ | ⟨rest, hf, e, ht⟩
  · rw [bind_ok ht]
    obtain ⟨s₁, hdesc⟩ := describe_ok c n.pot spending m ((c.mended n.pot n.topic spending m s).recordOf n.pot)
      (c.markSpent n.pot spending ((c.mended n.pot n.topic spending m s).recordOf n.pot) (m.now .pointer) true (c.mended n.pot n.topic spending m s))
    have htold : m.fate .spenderFacts = .ran → m.fate .spenderPayouts = .ran → s₁ = c.told n.pot spending m (c.mended n.pot n.topic spending m s) := by
      intro hf hp
      rw [describe_ran _ _ hf hp] at hdesc
      exact (congrArg Prod.fst hdesc).symm
    rw [bind_ok hdesc]
    rcases tell_cases m n.pot .spenderBytes (fun _ s => s.storeBeef c.sdk spending.subject.id n.spendingAtomicBeef (m.now .spenderBytes)) s₁ with
      ⟨-, hb⟩ | ⟨hf, e, hb⟩ | ⟨rest, hf, e, hb⟩
    · refine Or.inl ⟨_, hb, fun hno => ?_⟩
      have hran : ∀ a, m.fate a = .ran := fun a => by_contra fun h => hno ⟨a, h⟩
      rw [htold (hran _) (hran _)]
      rfl
    · have hf := hf.trans_ne (c := .ran) (by simp)
      obtain rfl := htold (hm.ran hf (by simp)) (hm.ran hf (by simp))
      exact Or.inr ⟨⟨_, hf⟩, _, e, .told, hb⟩
    · have hf := hf.trans_ne (c := .ran) (by simp)
      obtain rfl := htold (hm.ran hf (by simp)) (hm.ran hf (by simp))
      exact Or.inr ⟨⟨_, hf⟩, _, e, .settled, hb⟩
  · exact Or.inr ⟨⟨_, hf.trans_ne (by simp)⟩, _, e, .mended, bind_error ht⟩
  · exact Or.inr ⟨⟨_, hf.trans_ne (by simp)⟩, _, e, .pointed rest, bind_error ht⟩

end Around

end OverlayEngine.Pot.SpendReplay
