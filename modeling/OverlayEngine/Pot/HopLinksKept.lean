import OverlayEngine.Basis.AsciiCase
import OverlayEngine.Pot.HopLinks

/-!
# Links and seats are a function of their sources

Each trigger drops what its row took part in and derives what the row as written
takes part in, so that after any statements the two tables hold what the queries
give over the sources as they stand.
-/

namespace OverlayEngine.Pot.HopLinks

open DerivedRows DerivedRows.Table

/-! ## The rows the queries give -/

def LinkOf (s : Sources) (l : Link) : Prop :=
  ∃ hp ∈ s.hops.rows, ∃ hop ∈ s.pots.rows, ∃ pot ∈ s.pots.rows, Joins hp hop pot ∧ ¬ s.Filed hp.identity pot ∧ link hp pot = l

def SeatOf (s : Sources) (e : Seat) : Prop := ∃ hp ∈ s.hops.rows, ∃ p ∈ s.pots.rows, Seats hp p ∧ seat hp p = e

variable {s : Sources} {sel : Marker → PotRow → PotRow → Bool} {l : Link}

theorem mem_links : l ∈ s.links sel ↔
    ∃ hp ∈ s.hops.rows, ∃ hop ∈ s.pots.rows, ∃ pot ∈ s.pots.rows,
      (Joins hp hop pot ∧ ¬ s.Filed hp.identity pot ∧ sel hp hop pot = true) ∧ link hp pot = l := by
  simp [Sources.links, and_assoc]

theorem mem_seats {sel : Marker → PotRow → Bool} {e : Seat} :
    e ∈ s.seats sel ↔ ∃ hp ∈ s.hops.rows, ∃ p ∈ s.pots.rows, (Seats hp p ∧ sel hp p = true) ∧ seat hp p = e := by
  simp [Sources.seats, and_assoc]

theorem linkOf_of_mem (h : l ∈ s.links sel) : LinkOf s l := by
  obtain ⟨hp, hhp, hop, hhop, pot, hpot, ⟨hj, hf, _⟩, hl⟩ := mem_links.mp h
  exact ⟨hp, hhp, hop, hhop, pot, hpot, hj, hf, hl⟩

theorem seatOf_of_mem {sel : Marker → PotRow → Bool} {e : Seat} (h : e ∈ s.seats sel) : SeatOf s e := by
  obtain ⟨hp, hhp, p, hp', ⟨hs, _⟩, he⟩ := mem_seats.mp h
  exact ⟨hp, hhp, p, hp', hs, he⟩

theorem linkOf_key {l' : Link} (h : LinkOf s l) (h' : LinkOf s l') (hk : l.key = l'.key) : l = l' := by
  obtain ⟨hp, hhp, hop, hhop, pot, hpot, hj, hf, rfl⟩ := h
  obtain ⟨hp', hhp', hop', hhop', pot', hpot', hj', hf', rfl⟩ := h'
  simp only [Link.key, link, Prod.mk.injEq] at hk
  obtain ⟨hrow, htxid, hvout⟩ := hk
  obtain rfl := eq_of_key hhp hhp' hrow
  simp only [link, htxid, hvout]

theorem seatOf_key {e e' : Seat} (_ : SeatOf s e) (_ : SeatOf s e') (hk : e.key = e'.key) : e = e' := by
  obtain ⟨txid, vout, row⟩ := e
  obtain ⟨txid', vout', row'⟩ := e'
  simp only [Seat.key, Prod.mk.injEq] at hk
  simp [hk]

/-! ## A marker -/

section
variable {s : Sources}

def Without {κ ρ : Type} {key : ρ → κ} (t t' : Table key) (k : κ) : Prop := ∀ r, r ∈ t'.rows ↔ r ∈ t.rows ∧ key r ≠ k

def With {κ ρ : Type} {key : ρ → κ} (t t' : Table key) (new : ρ) : Prop := ∀ r, r ∈ t'.rows ↔ r ∈ t.rows ∨ r = new

variable {hops : Table Marker.rowid}

theorem linkOf_dropHop {rowid : Int} (hh : Without s.hops hops rowid) (l : Link) :
    LinkOf { s with hops } l ↔ LinkOf s l ∧ l.markerRowid ≠ rowid := by
  constructor
  · rintro ⟨hp, hhp, hop, hhop, pot, hpot, hj, hf, rfl⟩
    obtain ⟨hin, hne⟩ := (hh hp).mp hhp
    exact ⟨⟨hp, hin, hop, hhop, pot, hpot, hj, hf, rfl⟩, hne⟩
  · rintro ⟨⟨hp, hhp, hop, hhop, pot, hpot, hj, hf, rfl⟩, hne⟩
    exact ⟨hp, (hh hp).mpr ⟨hhp, hne⟩, hop, hhop, pot, hpot, hj, hf, rfl⟩

theorem seatOf_dropHop {rowid : Int} (hh : Without s.hops hops rowid) (e : Seat) :
    SeatOf { s with hops } e ↔ SeatOf s e ∧ e.markerRowid ≠ rowid := by
  constructor
  · rintro ⟨hp, hhp, p, hp', hs, rfl⟩
    obtain ⟨hin, hne⟩ := (hh hp).mp hhp
    exact ⟨⟨hp, hin, p, hp', hs, rfl⟩, hne⟩
  · rintro ⟨⟨hp, hhp, p, hp', hs, rfl⟩, hne⟩
    exact ⟨hp, (hh hp).mpr ⟨hhp, hne⟩, p, hp', hs, rfl⟩

theorem linkOf_addHop {new : Marker} (hh : With s.hops hops new) (l : Link) :
    LinkOf { s with hops } l ↔ LinkOf s l ∨ l ∈ Sources.links { s with hops } fun hp _ _ => hp.rowid = new.rowid := by
  constructor
  · rintro ⟨hp', hhp, hop, hhop, pot, hpot, hj, hf, rfl⟩
    rcases (hh hp').mp hhp with hold | rfl
    · exact .inl ⟨hp', hold, hop, hhop, pot, hpot, hj, hf, rfl⟩
    · exact .inr (mem_links.mpr ⟨hp', hhp, hop, hhop, pot, hpot, ⟨hj, hf, decide_eq_true rfl⟩, rfl⟩)
  · rintro (⟨hp', hhp, hop, hhop, pot, hpot, hj, hf, rfl⟩ | hin)
    · exact ⟨hp', (hh hp').mpr (.inl hhp), hop, hhop, pot, hpot, hj, hf, rfl⟩
    · exact linkOf_of_mem hin

theorem seatOf_addHop {new : Marker} (hh : With s.hops hops new) (e : Seat) :
    SeatOf { s with hops } e ↔ SeatOf s e ∨ e ∈ Sources.seats { s with hops } fun hp _ => hp.rowid = new.rowid := by
  constructor
  · rintro ⟨hp', hhp, p, hpin, hs, rfl⟩
    rcases (hh hp').mp hhp with hold | rfl
    · exact .inl ⟨hp', hold, p, hpin, hs, rfl⟩
    · exact .inr (mem_seats.mpr ⟨hp', hhp, p, hpin, ⟨hs, decide_eq_true rfl⟩, rfl⟩)
  · rintro (⟨hp', hhp, p, hpin, hs, rfl⟩ | hin)
    · exact ⟨hp', (hh hp').mpr (.inl hhp), p, hpin, hs, rfl⟩
    · exact seatOf_of_mem hin

/-! ## A pot -/

theorem lower_lower (t : String) : lower (lower t) = lower t := by
  simp only [lower, String.toList_ofList, AsciiCase.map_toLower_idem]

variable {pots : Table PotRow.key} {new old : PotRow}

theorem linkOf_dropPot (hp : Without s.pots pots old.key) (l : Link) :
    LinkOf { s with pots } l ↔ LinkOf s l ∧ ¬ (l.potTxid = old.txid ∧ l.potVout = old.outputIndex) ∧
      ¬ ∃ hp ∈ s.hops.rows, (hp.txid = old.txid ∧ hp.hopVout = old.outputIndex) ∧ hp.rowid = l.markerRowid := by
  have hkey : ∀ p : PotRow, p.key ≠ old.key ↔ ¬ (p.txid = old.txid ∧ p.outputIndex = old.outputIndex) := fun p => by simp [PotRow.key]
  constructor
  · rintro ⟨hp', hhp, hop, hhop, pot, hpot, hj, hf, rfl⟩
    obtain ⟨hopin, hopne⟩ := (hp hop).mp hhop
    obtain ⟨potin, potne⟩ := (hp pot).mp hpot
    refine ⟨⟨hp', hhp, hop, hopin, pot, potin, hj, hf, rfl⟩, (hkey pot).mp potne, ?_⟩
    rintro ⟨m, hm, hat, hrow⟩
    obtain rfl : m = hp' := eq_of_key hm hhp hrow
    exact (hkey hop).mp hopne ⟨hj.1.1.trans hat.1, hj.1.2.trans hat.2⟩
  · rintro ⟨⟨hp', hhp, hop, hhop, pot, hpot, hj, hf, rfl⟩, hpotne, hno⟩
    refine ⟨hp', hhp, hop, (hp hop).mpr ⟨hhop, (hkey hop).mpr fun hat => hno ⟨hp', hhp, ?_, rfl⟩⟩,
      pot, (hp pot).mpr ⟨hpot, (hkey pot).mpr hpotne⟩, hj, hf, rfl⟩
    exact ⟨hj.1.1.symm.trans hat.1, hj.1.2.symm.trans hat.2⟩

theorem seatOf_dropPot (hp : Without s.pots pots old.key) (e : Seat) :
    SeatOf { s with pots } e ↔ SeatOf s e ∧ ¬ (e.potTxid = old.txid ∧ e.potVout = old.outputIndex) := by
  constructor
  · rintro ⟨m, hm, p, hpin, hs, rfl⟩
    obtain ⟨hold, hne⟩ := (hp p).mp hpin
    exact ⟨⟨m, hm, p, hold, hs, rfl⟩, by simpa [PotRow.key, seat] using hne⟩
  · rintro ⟨⟨m, hm, p, hpin, hs, rfl⟩, hne⟩
    exact ⟨m, hm, p, (hp p).mpr ⟨hpin, by simpa [PotRow.key, seat] using hne⟩, hs, rfl⟩

theorem linkOf_addPot (hp : With s.pots pots new) (l : Link) :
    LinkOf { s with pots } l ↔ LinkOf s l ∨ l ∈ (Sources.links { s with pots } fun hp _ _ => hp.txid = new.txid ∧ hp.hopVout = new.outputIndex) ++
      Sources.links { s with pots } fun _ hop pot => (pot.txid = new.txid ∧ pot.outputIndex = new.outputIndex) ∧ hop.spendingTxid.map lower = some (lower new.txid) := by
  constructor
  · rintro ⟨m, hm, hop, hhop, pot, hpot, hj, hf, rfl⟩
    rcases (hp hop).mp hhop with hopold | rfl
    · rcases (hp pot).mp hpot with potold | rfl
      · exact .inl ⟨m, hm, hop, hopold, pot, potold, hj, hf, rfl⟩
      · have hlow : hop.spendingTxid.map lower = some (lower pot.txid) := by
          obtain ⟨spender, hspender, heq⟩ := Option.map_eq_some_iff.mp hj.2.1.1
          rw [hspender, ← heq, lower_lower, Option.map_some]
        exact .inr (List.mem_append_right _ (mem_links.mpr ⟨m, hm, hop, hhop, pot, hpot, ⟨hj, hf, decide_eq_true ⟨⟨rfl, rfl⟩, hlow⟩⟩, rfl⟩))
    · exact .inr (List.mem_append_left _ (mem_links.mpr ⟨m, hm, hop, hhop, pot, hpot, ⟨hj, hf, decide_eq_true ⟨hj.1.1.symm, hj.1.2.symm⟩⟩, rfl⟩))
  · rintro (⟨m, hm, hop, hhop, pot, hpot, hj, hf, rfl⟩ | hin)
    · exact ⟨m, hm, hop, (hp hop).mpr (.inl hhop), pot, (hp pot).mpr (.inl hpot), hj, hf, rfl⟩
    · exact (List.mem_append.mp hin).elim linkOf_of_mem linkOf_of_mem

theorem seatOf_addPot (hp : With s.pots pots new) (e : Seat) :
    SeatOf { s with pots } e ↔ SeatOf s e ∨ e ∈ Sources.seats { s with pots } fun _ p => p.txid = new.txid ∧ p.outputIndex = new.outputIndex := by
  constructor
  · rintro ⟨m, hm, p, hpin, hs, rfl⟩
    rcases (hp p).mp hpin with hold | rfl
    · exact .inl ⟨m, hm, p, hold, hs, rfl⟩
    · exact .inr (mem_seats.mpr ⟨m, hm, p, hpin, ⟨hs, decide_eq_true ⟨rfl, rfl⟩⟩, rfl⟩)
  · rintro (⟨m, hm, p, hpin, hs, rfl⟩ | hin)
    · exact ⟨m, hm, p, (hp p).mpr (.inl hpin), hs, rfl⟩
    · exact seatOf_of_mem hin

/-! ## A party -/

def Redundant (x : Party) (l : Link) : Prop := l.identity = x.identity ∧ l.potTxid = x.potTxid ∧ l.potVout = x.potVout

theorem linkOf_iff : LinkOf s l ↔
    (∃ hp ∈ s.hops.rows, ∃ hop ∈ s.pots.rows, ∃ pot ∈ s.pots.rows, Joins hp hop pot ∧ link hp pot = l) ∧
      ∀ x ∈ s.parties.rows, ¬ Redundant x l := by
  constructor
  · rintro ⟨m, hm, hop, hhop, pot, hpot, hj, hf, rfl⟩
    exact ⟨⟨m, hm, hop, hhop, pot, hpot, hj, rfl⟩, fun x hx hr => hf ⟨x, hx, hr.1.symm, hr.2.1.symm, hr.2.2.symm⟩⟩
  · rintro ⟨⟨m, hm, hop, hhop, pot, hpot, hj, rfl⟩, hno⟩
    refine ⟨m, hm, hop, hhop, pot, hpot, hj, ?_, rfl⟩
    rintro ⟨x, hx, hi, ht, hv⟩
    exact hno x hx ⟨hi.symm, ht.symm, hv.symm⟩

variable {parties : Table Party.key}

theorem linkOf_restore {old : Party} {gone : Link → Prop}
    (hleft : ∀ x ∈ s.parties.rows, x = old ∨ x ∈ parties.rows)
    (hnow : ∀ x ∈ parties.rows, ∀ l, Redundant x l → x ∈ s.parties.rows ∨ gone l)
    (hgone : ∀ l, gone l → ∃ x ∈ parties.rows, Redundant x l) (l : Link) :
    LinkOf { s with parties } l ↔ (LinkOf s l ∧ ¬ gone l) ∨
      l ∈ Sources.links { s with parties } fun hp _ pot => hp.identity = old.identity ∧ pot.txid = old.potTxid ∧ pot.outputIndex = old.potVout := by
  constructor
  · intro h
    obtain ⟨hj, hno⟩ := linkOf_iff.mp h
    by_cases hr : Redundant old l
    · obtain ⟨m, hm, hop, hhop, pot, hpot, hjoins, hf, rfl⟩ := h
      obtain ⟨hi, ht, hv⟩ := hr
      exact .inr (mem_links.mpr ⟨m, hm, hop, hhop, pot, hpot, ⟨hjoins, hf, decide_eq_true ⟨hi, ht, hv⟩⟩, rfl⟩)
    · refine .inl ⟨linkOf_iff.mpr ⟨hj, fun x hx hrx => ?_⟩, fun hg => ?_⟩
      · rcases hleft x hx with rfl | hin
        · exact hr hrx
        · exact hno x hin hrx
      · obtain ⟨x, hx, hrx⟩ := hgone l hg
        exact hno x hx hrx
  · rintro (⟨h, hg⟩ | hin)
    · obtain ⟨hj, hno⟩ := linkOf_iff.mp h
      exact linkOf_iff.mpr ⟨hj, fun x hx hrx => (hnow x hx l hrx).elim (fun hold => hno x hold hrx) hg⟩
    · exact linkOf_of_mem hin

theorem linkOf_addParty {new : Party} (hx : With s.parties parties new) (l : Link) :
    LinkOf { s with parties } l ↔ LinkOf s l ∧ ¬ Redundant new l := by
  rw [linkOf_iff, linkOf_iff]
  constructor
  · exact fun ⟨hj, hno⟩ => ⟨⟨hj, fun x hin => hno x ((hx x).mpr (.inl hin))⟩, hno new ((hx new).mpr (.inr rfl))⟩
  · rintro ⟨⟨hj, hno⟩, hnew⟩
    refine ⟨hj, fun x hin => ?_⟩
    rcases (hx x).mp hin with hold | rfl
    · exact hno x hold
    · exact hnew

end

/-! ## The statements -/

/-- The two tables track their queries over the sources, wholly once `filled`. -/
structure Db.Derived (filled : Prop) (db : Db) : Prop where
  links : db.links.Tracks filled (LinkOf db.toSources)
  seats : db.seats.Tracks filled (SeatOf db.toSources)

section
variable {κ ρ : Type} {key : ρ → κ} [DecidableEq κ] {t t' : Table key}

theorem with_insert {new : ρ} (h : t.insert? new = some t') : With t t' new := fun _ => mem_insert? h

theorem without_delete (t : Table key) (k : κ) : Without t (t.delete fun r => key r = k) k := fun r => by simp [mem_delete]

end

section
variable {filled : Prop} {db : Db}

theorem dropMarker_derived (h : db.Derived filled) (old : Marker) :
    ({ db with hops := db.hops.delete fun hp => hp.rowid = old.rowid }.dropMarker old).Derived filled := by
  have hout := without_delete db.hops old.rowid
  constructor
  · exact h.links.drop fun l => (linkOf_dropHop hout l).trans (by simp only [decide_eq_false_iff_not])
  · exact h.seats.drop fun e => (seatOf_dropHop hout e).trans (by simp only [decide_eq_false_iff_not])

theorem derive_derived {hops : Table Marker.rowid} {new : Marker} (h : db.Derived filled) (hin : With db.hops hops new) :
    ({ db with hops }.derive new).Derived filled := by
  constructor
  · exact h.links.add (fun _ _ => linkOf_key) fun l => linkOf_addHop hin l
  · exact h.seats.add (fun _ _ => seatOf_key) fun e => seatOf_addHop hin e

theorem dropPot_derived (h : db.Derived filled) (old : PotRow) :
    ({ db with pots := db.pots.delete fun p => p.key = old.key }.dropPot old).Derived filled := by
  have hout := without_delete db.pots old.key
  constructor
  · unfold Db.dropPot
    rw [delete_delete]
    exact h.links.drop fun l => (linkOf_dropPot hout l).trans (by simp only [Bool.or_eq_false_iff, decide_eq_false_iff_not])
  · exact h.seats.drop fun e => (seatOf_dropPot hout e).trans (by simp only [decide_eq_false_iff_not])

theorem derivePot_derived {pots : Table PotRow.key} {new : PotRow} (h : db.Derived filled) (hin : With db.pots pots new) :
    ({ db with pots }.derivePot new).Derived filled := by
  constructor
  · unfold Db.derivePot
    rw [insertAll_append]
    exact h.links.add (fun _ _ => linkOf_key) fun l => linkOf_addPot hin l
  · exact h.seats.add (fun _ _ => seatOf_key) fun e => seatOf_addPot hin e

variable {old new : Party} {parties : Table Party.key}

theorem partyInsert_derived (h : db.Derived filled) (hin : With db.parties parties new) :
    ({ db with parties }.partyInsert new).Derived filled := by
  constructor
  · exact h.links.drop fun l => (linkOf_addParty hin l).trans (by simp only [Redundant, decide_eq_false_iff_not])
  · exact h.seats

theorem partyDelete_derived (h : db.Derived filled) (hold : old ∈ db.parties.rows) :
    ({ db with parties := db.parties.delete fun x => x.key = old.key }.partyDelete old).Derived filled := by
  constructor
  · refine h.links.add (fun _ _ => linkOf_key) fun l => ?_
    have hleft : ∀ x ∈ db.parties.rows, x = old ∨ x ∈ (db.parties.delete fun x => x.key = old.key).rows := by
      intro x hx
      by_cases hk : x.key = old.key
      · exact .inl (eq_of_key hx hold hk)
      · exact .inr ((without_delete _ _ x).mpr ⟨hx, hk⟩)
    have hnow : ∀ x ∈ (db.parties.delete fun x => x.key = old.key).rows, ∀ l, Redundant x l → x ∈ db.parties.rows ∨ False :=
      fun x hx _ _ => .inl ((without_delete _ _ x).mp hx).1
    exact (linkOf_restore hleft hnow (fun _ => False.elim) l).trans (by simp)
  · exact h.seats

theorem partyUpdate_derived (h : db.Derived filled) (hold : old ∈ db.parties.rows)
    (hin : With (db.parties.delete fun x => x.key = old.key) parties new) :
    ({ db with parties }.partyUpdate old new).Derived filled := by
  constructor
  · have hdrop : (db.links.delete fun l => l.identity = new.identity ∧ l.potTxid = new.potTxid ∧ l.potVout = new.potVout).Tracks filled
        fun l => LinkOf db.toSources l ∧ ¬ Redundant new l := h.links.drop fun l => by
      simp only [Redundant, decide_eq_false_iff_not]
    refine hdrop.add (fun _ _ => linkOf_key) fun l => linkOf_restore (s := db.toSources) ?_ ?_ ?_ l
    · intro x hx
      by_cases hk : x.key = old.key
      · exact .inl (eq_of_key hx hold hk)
      · exact .inr ((hin x).mpr (.inl ((without_delete _ _ x).mpr ⟨hx, hk⟩)))
    · intro x hx l hr
      rcases (hin x).mp hx with hleft | rfl
      · exact .inl ((without_delete _ _ x).mp hleft).1
      · exact .inr hr
    · exact fun l hr => ⟨new, (hin new).mpr (.inr rfl), hr⟩
  · exact h.seats

theorem find_key {κ ρ : Type} {key : ρ → κ} [DecidableEq κ] {t : Table key} {k : κ} {old : ρ}
    (h : (t.rows.find? fun r => key r = k) = some old) : old ∈ t.rows ∧ key old = k :=
  ⟨List.mem_of_find?_eq_some h, by simpa using List.find?_some h⟩

theorem step_derived (h : db.Derived filled) (w : Write) : (db.step w).Derived filled := by
  cases w with
  | insertHop new =>
    simp only [Db.step]
    split
    · exact h
    · cases hins : db.hops.insert? new with
      | none => exact h
      | some hops => exact derive_derived h (with_insert hins)
  | updateHop rowid new =>
    simp only [Db.step]
    split
    · exact h
    · cases hup : db.hops.update? rowid { new with rowid } with
      | none => exact h
      | some p =>
        obtain ⟨old, hops⟩ := p
        obtain ⟨-, rfl, hins⟩ := update?_eq hup
        exact derive_derived (dropMarker_derived h old) (with_insert hins)
  | deleteHop rowid =>
    simp only [Db.step]
    cases hfind : db.hops.rows.find? fun hp => hp.rowid = rowid with
    | none => exact h
    | some old =>
      obtain ⟨-, rfl⟩ := find_key hfind
      exact dropMarker_derived h old
  | insertPot new =>
    simp only [Db.step]
    cases hins : db.pots.insert? new with
    | none => exact h
    | some pots => exact derivePot_derived h (with_insert hins)
  | updatePot key new =>
    simp only [Db.step]
    cases hup : db.pots.update? key new with
    | none => exact h
    | some p =>
      obtain ⟨old, pots⟩ := p
      obtain ⟨-, rfl, hins⟩ := update?_eq hup
      exact derivePot_derived (dropPot_derived h old) (with_insert hins)
  | deletePot key =>
    simp only [Db.step]
    cases hfind : db.pots.rows.find? fun p => p.key = key with
    | none => exact h
    | some old =>
      obtain ⟨-, rfl⟩ := find_key hfind
      exact dropPot_derived h old
  | insertParty new =>
    simp only [Db.step]
    cases hins : db.parties.insert? new with
    | none => exact h
    | some parties => exact partyInsert_derived h (with_insert hins)
  | updateParty key new =>
    simp only [Db.step]
    cases hup : db.parties.update? key new with
    | none => exact h
    | some p =>
      obtain ⟨old, parties⟩ := p
      obtain ⟨hold, rfl, hins⟩ := update?_eq hup
      exact partyUpdate_derived h hold (with_insert hins)
  | deleteParty key =>
    simp only [Db.step]
    cases hfind : db.parties.rows.find? fun x => x.key = key with
    | none => exact h
    | some old =>
      obtain ⟨hold, rfl⟩ := find_key hfind
      exact partyDelete_derived h hold

theorem run_derived (h : db.Derived filled) (writes : List Write) : (db.run writes).Derived filled := by
  induction writes generalizing db with
  | nil => exact h
  | cons w writes ih => exact ih (step_derived h w)

end

theorem backfill_derived {filled : Prop} {db : Db} (h : db.Derived filled) (hunfilled : db.filled = false) : db.backfill.Derived True := by
  unfold Db.backfill
  rw [hunfilled]
  constructor
  · refine h.links.fill (fun _ _ => linkOf_key) fun l => ?_
    simp [mem_links, LinkOf, and_assoc]
  · refine h.seats.fill (fun _ _ => seatOf_key) fun e => ?_
    simp [mem_seats, SeatOf]

theorem filled_step (db : Db) (w : Write) : (db.step w).filled = db.filled := by
  cases w with
  | insertHop new =>
    simp only [Db.step]
    split
    · rfl
    · cases db.hops.insert? new <;> rfl
  | updateHop rowid new =>
    simp only [Db.step]
    split
    · rfl
    · cases db.hops.update? rowid { new with rowid } <;> rfl
  | deleteHop rowid =>
    simp only [Db.step]
    cases db.hops.rows.find? fun hp => hp.rowid = rowid <;> rfl
  | insertPot new =>
    simp only [Db.step]
    cases db.pots.insert? new <;> rfl
  | updatePot key new =>
    simp only [Db.step]
    cases db.pots.update? key new <;> rfl
  | deletePot key =>
    simp only [Db.step]
    cases db.pots.rows.find? fun p => p.key = key <;> rfl
  | insertParty new =>
    simp only [Db.step]
    cases db.parties.insert? new <;> rfl
  | updateParty key new =>
    simp only [Db.step]
    cases db.parties.update? key new <;> rfl
  | deleteParty key =>
    simp only [Db.step]
    cases db.parties.rows.find? fun x => x.key = key <;> rfl

theorem filled_run (db : Db) (writes : List Write) : (db.run writes).filled = db.filled := by
  induction writes generalizing db with
  | nil => rfl
  | cons w writes ih => exact (ih (db.step w)).trans (filled_step db w)

def Sources.unfilled (s : Sources) : Db := ⟨s, .empty, .empty, false⟩

theorem unfilled_derived (s : Sources) : s.unfilled.Derived False := ⟨tracks_empty _, tracks_empty _⟩

theorem empty_derived : Db.empty.Derived True := by
  constructor
  · exact ⟨(tracks_empty _).sound, fun _ l hl => by obtain ⟨m, hm, -⟩ := hl; cases hm⟩
  · exact ⟨(tracks_empty _).sound, fun _ e he => by obtain ⟨m, hm, -⟩ := he; cases hm⟩

inductive Db.Start : Db → Prop
  | empty : Start .empty
  | backfilled (s : Sources) (before : List Write) : Start (s.unfilled.run before).backfill

theorem start_derived {db : Db} (h : db.Start) : db.Derived True := by
  cases h with
  | empty => exact empty_derived
  | backfilled s before => exact backfill_derived (run_derived (unfilled_derived s) before) (filled_run _ _)

theorem linksBackfill_tracks (s : Sources) : s.linksBackfill.Tracks True (LinkOf s) :=
  (tracks_empty _).fill (fun _ _ => linkOf_key) fun l => by simp [mem_links, LinkOf, and_assoc]

theorem seatsBackfill_tracks (s : Sources) : s.seatsBackfill.Tracks True (SeatOf s) :=
  (tracks_empty _).fill (fun _ _ => seatOf_key) fun e => by simp [mem_seats, SeatOf]

def Db.Exact (db : Db) : Prop :=
  db.links.rows.Perm db.toSources.linksBackfill.rows ∧ db.seats.rows.Perm db.toSources.seatsBackfill.rows

/-- After any statements on the three source tables, in any order, the links and the seats are exact. -/
theorem derived_exact {db : Db} (h : db.Start) (writes : List Write) : (db.run writes).Exact := by
  have hrun := run_derived (start_derived h) writes
  exact ⟨hrun.links.perm (linksBackfill_tracks _), hrun.seats.perm (seatsBackfill_tracks _)⟩

def lateWrites : List Write := [
  .insertParty ⟨"c", 0, "i", "a", 0⟩,
  .insertPot ⟨"a", 0, 1, some "A", 1, some 9, some "k", some "l"⟩,
  .insertHop ⟨1, "i", some 5, "a", 1, 0, "k", some 1⟩,
  .deleteParty ("c", 0)]

theorem derived_exact_late : (Db.empty.run lateWrites).Exact ∧ (Db.empty.run lateWrites).links.rows = [⟨"i", some 5, "a", 0, 1⟩] :=
  ⟨derived_exact .empty lateWrites, by decide⟩

end OverlayEngine.Pot.HopLinks
