import Mathlib.Data.List.Nodup
import Mathlib.Data.List.Perm.Basic
import Mathlib.Tactic.Common

/-!
# A table derived from other tables

Rows under a key, each key once. A derived table tracks a predicate on rows (what a
query gives over its sources) when it holds no other row, and all of them once it is
filled. A trigger keeps it by deleting every row a change of the sources takes away
and inserting every row it brings.
-/

namespace DerivedRows

variable {κ ρ : Type} {key : ρ → κ}

structure Table (key : ρ → κ) where
  rows : List ρ
  once : (rows.map key).Nodup

namespace Table

def empty : Table key := ⟨[], List.nodup_nil⟩

def delete (t : Table key) (p : ρ → Bool) : Table key :=
  ⟨t.rows.filter fun r => !p r, t.once.sublist (List.filter_sublist.map key)⟩

variable {t : Table key}

theorem mem_delete {p : ρ → Bool} {r : ρ} : r ∈ (t.delete p).rows ↔ r ∈ t.rows ∧ p r = false := by
  simp [delete]

theorem eq_of_key {r r' : ρ} (h : r ∈ t.rows) (h' : r' ∈ t.rows) (hk : key r = key r') : r = r' :=
  List.inj_on_of_nodup_map t.once h h' hk

theorem delete_delete (t : Table key) (p q : ρ → Bool) : (t.delete p).delete q = t.delete fun r => p r || q r := by
  simp only [delete, List.filter_filter]
  congr 1
  exact List.filter_congr fun r _ => by simp [Bool.and_comm]

def modify (t : Table key) (f : ρ → ρ) (hf : ∀ r, key (f r) = key r) : Table key :=
  ⟨t.rows.map f, by
    rw [List.map_map]
    exact (List.map_congr_left fun r _ => hf r) ▸ t.once⟩

theorem mem_modify {f : ρ → ρ} {hf : ∀ r, key (f r) = key r} {r : ρ} : r ∈ (t.modify f hf).rows ↔ ∃ r' ∈ t.rows, f r' = r := by
  simp [modify]

variable [DecidableEq κ]

def upsert (t : Table key) (r : ρ) : Table key :=
  ⟨(t.delete fun r' => key r' = key r).rows ++ [r], by
    rw [List.map_append, List.nodup_append']
    refine ⟨(t.delete _).once, List.nodup_singleton _, ?_⟩
    simp [delete]⟩

theorem mem_upsert {r r' : ρ} : r' ∈ (t.upsert r).rows ↔ (r' ∈ t.rows ∧ key r' ≠ key r) ∨ r' = r := by
  simp [upsert, mem_delete]

def insert? (t : Table key) (r : ρ) : Option (Table key) :=
  if h : key r ∈ t.rows.map key then none
  else some ⟨t.rows ++ [r], by
    rw [List.map_append, List.nodup_append']
    exact ⟨t.once, List.nodup_singleton _, by simpa using h⟩⟩

/-- `INSERT OR IGNORE` of a query's rows. -/
def insertAll (t : Table key) (rs : List ρ) : Table key := rs.foldl (fun t r => (t.insert? r).getD t) t

/-- A plain update of the row under `k` to `new`: the row as it was and the table after. -/
def update? (t : Table key) (k : κ) (new : ρ) : Option (ρ × Table key) :=
  match t.rows.find? fun r => key r = k with
  | none => none
  | some old => ((t.delete fun r => key r = k).insert? new).map (old, ·)

theorem mem_insert? {t t' : Table key} {r r' : ρ} (h : t.insert? r = some t') : r' ∈ t'.rows ↔ r' ∈ t.rows ∨ r' = r := by
  unfold insert? at h
  split at h
  · simp at h
  · obtain rfl := Option.some.inj h
    simp

theorem update?_eq {t t' : Table key} {k : κ} {old new : ρ} (h : t.update? k new = some (old, t')) :
    old ∈ t.rows ∧ key old = k ∧ (t.delete fun r => key r = k).insert? new = some t' := by
  unfold update? at h
  cases hold : t.rows.find? fun r => key r = k with
  | none => simp [hold] at h
  | some o =>
    rw [hold] at h
    obtain ⟨t'', hins, heq⟩ := Option.map_eq_some_iff.mp h
    obtain ⟨rfl, rfl⟩ := Prod.mk.inj heq
    exact ⟨List.mem_of_find?_eq_some hold, by simpa using List.find?_some hold, hins⟩

theorem insertAll_append (t : Table key) (rs rs' : List ρ) : (t.insertAll rs).insertAll rs' = t.insertAll (rs ++ rs') := by
  simp [insertAll]

theorem mem_insertAll {P : ρ → Prop} (hkey : ∀ r r', P r → P r' → key r = key r' → r = r') {rs : List ρ} (hrs : ∀ r ∈ rs, P r)
    (ht : ∀ r ∈ t.rows, P r) (r : ρ) : r ∈ (t.insertAll rs).rows ↔ r ∈ t.rows ∨ r ∈ rs := by
  induction rs generalizing t with
  | nil => simp [insertAll]
  | cons a rs ih =>
    have hrest : ∀ r ∈ rs, P r := fun r hr => hrs r (List.mem_cons_of_mem _ hr)
    have ha : P a := hrs a List.mem_cons_self
    have hcons : t.insertAll (a :: rs) = ((t.insert? a).getD t).insertAll rs := rfl
    rw [hcons]
    cases hins : t.insert? a with
    | none =>
      have htaken : key a ∈ t.rows.map key := by
        by_contra hnot
        simp [insert?, hnot] at hins
      obtain ⟨a', ha', hk⟩ := List.mem_map.mp htaken
      have hsame : a' = a := hkey a' a (ht a' ha') ha hk
      rw [Option.getD_none, ih hrest ht, List.mem_cons]
      constructor
      · exact fun h => h.imp_right .inr
      · rintro (h | rfl | h)
        · exact .inl h
        · exact .inl (hsame ▸ ha')
        · exact .inr h
    | some t' =>
      have ht' : ∀ r ∈ t'.rows, P r := fun r hr => ((mem_insert? hins).mp hr).elim (ht r) fun h => h ▸ ha
      rw [Option.getD_some, ih hrest ht', mem_insert? hins, List.mem_cons, or_assoc]

/-- The table holds rows of `P` only, and every one of them when `filled`. -/
structure Tracks (filled : Prop) (t : Table key) (P : ρ → Prop) : Prop where
  sound : ∀ r ∈ t.rows, P r
  whole : filled → ∀ r, P r → r ∈ t.rows

variable {filled : Prop} {t t' : Table key} {P P' : ρ → Prop} {gone : ρ → Bool} {rs : List ρ}

omit [DecidableEq κ] in
theorem Tracks.mono (h : t.Tracks True P) : t.Tracks filled P := ⟨h.sound, fun _ => h.whole trivial⟩

omit [DecidableEq κ] in
theorem tracks_empty (P : ρ → Prop) : (empty : Table key).Tracks False P := ⟨fun _ h => by simp [empty] at h, False.elim⟩

omit [DecidableEq κ] in
theorem Tracks.drop (h : t.Tracks filled P) (hdrop : ∀ r, P' r ↔ P r ∧ gone r = false) : (t.delete gone).Tracks filled P' := by
  constructor
  · intro r hr
    obtain ⟨hin, hgone⟩ := mem_delete.mp hr
    exact (hdrop r).mpr ⟨h.sound r hin, hgone⟩
  · intro hfull r hP
    obtain ⟨hold, hgone⟩ := (hdrop r).mp hP
    exact mem_delete.mpr ⟨h.whole hfull r hold, hgone⟩

theorem Tracks.add (hkey : ∀ r r', P' r → P' r' → key r = key r' → r = r') (h : t.Tracks filled P) (hadd : ∀ r, P' r ↔ P r ∨ r ∈ rs) :
    (t.insertAll rs).Tracks filled P' := by
  have hmem := mem_insertAll hkey (fun r hr => (hadd r).mpr (.inr hr)) fun r hr => (hadd r).mpr (.inl (h.sound r hr))
  constructor
  · intro r hr
    exact (hadd r).mpr (((hmem r).mp hr).imp_left (h.sound r))
  · intro hfull r hP
    exact (hmem r).mpr (((hadd r).mp hP).imp_left (h.whole hfull r))

theorem Tracks.fill (hkey : ∀ r r', P r → P r' → key r = key r' → r = r') (h : t.Tracks filled P) (hrs : ∀ r, r ∈ rs ↔ P r) :
    (t.insertAll rs).Tracks True P := by
  have hmem := mem_insertAll hkey (fun r hr => (hrs r).mp hr) h.sound
  exact ⟨fun r hin => ((hmem r).mp hin).elim (h.sound r) (hrs r).mp, fun _ r hP => (hmem r).mpr (.inr ((hrs r).mpr hP))⟩

omit [DecidableEq κ] in
theorem Tracks.perm (h : t.Tracks True P) (h' : t'.Tracks True P) : t.rows.Perm t'.rows := by
  rw [List.perm_ext_iff_of_nodup t.once.of_map t'.once.of_map]
  exact fun r => ⟨fun hr => h'.whole trivial r (h.sound r hr), fun hr => h.whole trivial r (h'.sound r hr)⟩

end Table

end DerivedRows
