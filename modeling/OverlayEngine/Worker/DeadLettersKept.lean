import OverlayEngine.Worker.DeadLetters

/-!
# What becomes of a dead letter

Over every run of moves. The row of a parked letter stays, with at least its
bytes, until it is deleted; a re-driven row carries the time of its claim; two
landed claims of one life of a row that were not reverted differ in their number.
-/

namespace OverlayEngine.DeadLetters

open KeyedRows

/-! ## What a statement does to a row -/

def Text.bytes : Text → Option Nat
  | .body m => m.r2.map BeefRef.bytes
  | .raw _ => none

def Letter.Paired (l : Letter) : Prop := l.r2.map Prod.snd = l.message.bytes

theorem paired_letterOf (C : Codec) (raw : Text) (id e : String) : (letterOf C raw id e).Paired := by
  cases raw with
  | body m => cases h : m.r2 <;> simp [letterOf, Letter.Paired, Text.bytes, h]
  | raw s => rfl

/-- A letter that carries `n` bytes is held under `k`. -/
def Held (C : Codec) (t : Table) (k : Key) (n : Nat) : Prop := ∃ r, t.row k = some r ∧ r.held = true ∧ n ≤ r.carried C

structure Grows (C : Codec) (t t' : Table) : Prop where
  row : ∀ k r, t.row k = some r → ∃ r', t'.row k = some r' ∧ r'.redrives = r.redrives ∧ r.carried C ≤ r'.carried C ∧
    (r.held = true → r'.held = true) ∧ (r'.status = .redriven → r.status = .redriven ∧ r'.redrivenAt = r.redrivenAt)
  new : ∀ k r', t.row k = none → t'.row k = some r' → r'.status ≠ .redriven

structure Table.Sound (t : Table) : Prop where
  keyed : (t.map Row.key).Nodup
  paired : ∀ k r, t.row k = some r → r.r2Bytes = r.message.bytes

section
variable {C : Codec} {t t' : Table} {k : Key}

theorem row_added (t : Table) (r : Row) (k : Key) : Table.row (t ++ [r]) k = (t.row k).or (if r.key = k then some r else none) :=
  row_append t r k

variable {sel : Key → Bool} {f : Row → Row}

theorem row_changed (hf : ∀ r, (f r).key = r.key) (t : Table) (k : Key) :
    Table.row (modify Row.key sel f t) k = (t.row k).map fun r => if sel k then f r else r := row_modify hf t k

theorem row_removed (sel : Key → Bool) (t : Table) (k : Key) : Table.row (remove Row.key sel t) k = if sel k then none else t.row k :=
  row_remove t k

theorem Grows.refl (t : Table) : Grows C t t :=
  ⟨fun _ r h => ⟨r, h, rfl, Nat.le_refl _, id, fun h => ⟨h, rfl⟩⟩, fun _ _ h h' => by simp [h] at h'⟩

theorem Grows.held {n : Nat} (h : Grows C t t') (hh : Held C t k n) : Held C t' k n := by
  obtain ⟨r, hr, hs, hn⟩ := hh
  obtain ⟨r', hr', -, hc, hs', -⟩ := h.row k r hr
  exact ⟨r', hr', hs' hs, Nat.le_trans hn hc⟩

theorem grows_append {r : Row} (hs : r.status ≠ .redriven) : Grows C t (t ++ [r]) := by
  constructor
  · intro k r₀ h
    refine ⟨r₀, ?_, rfl, Nat.le_refl _, id, fun h => ⟨h, rfl⟩⟩
    rw [row_added, h, Option.some_or]
  · intro k r' h h'
    rw [row_added, h, Option.none_or] at h'
    split at h'
    · cases h'
      exact hs
    · cases h'

theorem grows_modify (hf : ∀ r, (f r).key = r.key)
    (h : ∀ k r, sel k = true → t.row k = some r → (f r).redrives = r.redrives ∧ r.carried C ≤ (f r).carried C ∧
      (r.held = true → (f r).held = true) ∧ ((f r).status = .redriven → r.status = .redriven ∧ (f r).redrivenAt = r.redrivenAt)) :
    Grows C t (modify Row.key sel f t) := by
  constructor
  · intro k r hr
    cases hs : sel k
    · exact ⟨r, by simp [row_changed hf, hr, hs], rfl, Nat.le_refl _, id, fun h => ⟨h, rfl⟩⟩
    · exact ⟨f r, by simp [row_changed hf, hr, hs], h k r hs hr⟩
  · intro k r' hr hr'
    simp [row_changed hf, hr] at hr'

theorem Table.Sound.append {r : Row} (h : t.Sound) (hn : t.row r.key = none) (hp : r.r2Bytes = r.message.bytes) :
    Table.Sound (t ++ [r]) := by
  refine ⟨nodup_append h.keyed hn, ?_⟩
  intro k r' hr
  rw [row_added] at hr
  cases ht : t.row k with
  | some r₀ =>
    rw [ht, Option.some_or] at hr
    cases hr
    exact h.paired k _ ht
  | none =>
    rw [ht, Option.none_or] at hr
    split at hr
    · cases hr
      exact hp
    · cases hr

theorem Table.Sound.modify (h : t.Sound) (hf : ∀ r, (f r).key = r.key)
    (hp : ∀ r, r.r2Bytes = r.message.bytes → (f r).r2Bytes = (f r).message.bytes) : Table.Sound (KeyedRows.modify Row.key sel f t) := by
  refine ⟨by rw [keys_modify hf]; exact h.keyed, ?_⟩
  intro k r hr
  rw [row_changed hf] at hr
  obtain ⟨r₀, hr₀, rfl⟩ := Option.map_eq_some_iff.mp hr
  have hp₀ := h.paired k r₀ hr₀
  split
  · exact hp r₀ hp₀
  · exact hp₀

theorem Table.Sound.remove (h : t.Sound) (sel : Key → Bool) : Table.Sound (KeyedRows.remove Row.key sel t) := by
  refine ⟨nodup_remove h.keyed, ?_⟩
  intro k r hr
  rw [row_removed] at hr
  split at hr
  · cases hr
  · exact h.paired k r hr

/-! ## The notes, the parks and the stale returns -/

theorem carried_parkedBy {r : Row} (l : Letter) (now : Int) : (r.parkedBy C l now).carried C = max (r.carried C) (l.carried C) := by
  by_cases h : r.carried C < l.carried C
  · have hm : (r.parkedBy C l now).message = l.message := by simp [Row.parkedBy, h]
    have hb : (r.parkedBy C l now).r2Bytes = l.r2.map Prod.snd := by simp [Row.parkedBy, h]
    rw [Nat.max_eq_right (Nat.le_of_lt h), Row.carried, hm, hb]
    rfl
  · have hm : (r.parkedBy C l now).message = r.message := by simp [Row.parkedBy, h]
    have hb : (r.parkedBy C l now).r2Bytes = r.r2Bytes := by simp [Row.parkedBy, h]
    rw [Nat.max_eq_left (Nat.not_lt.mp h), Row.carried, hm, hb]
    rfl

theorem note_kept (h : t.Sound) (k : Key) (fault : String) (now : Int) (cls : Option LetterClass) :
    Grows C t (t.note k fault now cls) ∧ (t.note k fault now cls).Sound := by
  rw [Table.note]
  split
  next hn => exact ⟨grows_append (by simp), h.append hn rfl⟩
  next r hr =>
    constructor
    · apply grows_modify
      · intro r
        split <;> rfl
      · intro k r _ _
        split
        · exact ⟨rfl, Nat.le_refl _, id, fun h => ⟨h, rfl⟩⟩
        · exact ⟨rfl, Nat.le_refl _, id, fun h => ⟨h, rfl⟩⟩
    · apply h.modify
      · intro r
        split <;> rfl
      · intro r hp
        split <;> exact hp

theorem park_kept (h : t.Sound) {l : Letter} (hl : l.Paired) (now : Int) :
    Grows C t (t.park C l now).1 ∧ (t.park C l now).1.Sound ∧
      (t.room l.key (dayCutoff now) = true → Held C (t.park C l now).1 l.key (l.carried C)) := by
  rw [Table.park]
  split
  next hroom =>
    split
    next hn =>
      refine ⟨grows_append (by simp [Letter.fresh]), h.append hn hl, fun _ => ?_⟩
      refine ⟨l.fresh now, ?_, by simp [Letter.fresh, Row.held], Nat.le_refl _⟩
      rw [row_added, hn, Option.none_or]
      exact if_pos rfl
    next r hr =>
      split
      next =>
        dsimp only
        refine ⟨?_, ?_, fun _ => ?_⟩
        · apply grows_modify (f := fun r => r.parkedBy C l now) (fun _ => rfl)
          intro k r _ _
          refine ⟨rfl, ?_, fun _ => rfl, fun h => by cases h⟩
          rw [carried_parkedBy]
          exact Nat.le_max_left _ _
        · apply h.modify (f := fun r => r.parkedBy C l now) (fun _ => rfl)
          intro r hp
          by_cases hm : r.carried C < l.carried C
          · simpa [Row.parkedBy, hm, Letter.Paired] using hl
          · simpa [Row.parkedBy, hm] using hp
        · refine ⟨r.parkedBy C l now, ?_, rfl, ?_⟩
          · simp [row_changed (f := fun r => r.parkedBy C l now) fun _ => rfl, hr]
          · rw [carried_parkedBy]
            exact Nat.le_max_right _ _
      next hsame =>
        -- the bytes are parked already: the row's message is the letter's, so it carries as much
        have hs : r.status = .parked := by
          by_contra hne
          exact hsame (Or.inl hne)
        have hm : r.message = l.message := by
          by_contra hne
          exact hsame (Or.inr hne)
        refine ⟨Grows.refl t, h, fun _ => ⟨r, hr, by simp [Row.held, hs], ?_⟩⟩
        have hp := h.paired _ r hr
        have hl' : l.r2.map Prod.snd = l.message.bytes := hl
        simp only [Letter.carried, Row.carried]
        rw [hp, hl', hm]
  next hno => exact ⟨Grows.refl t, h, fun hroom => absurd hroom hno⟩

theorem staleReturn_kept (h : t.Sound) (now : Int) (limit : Nat) :
    Grows C t (t.staleReturn now limit) ∧ (t.staleReturn now limit).Sound := by
  constructor
  · apply grows_modify (f := fun r => r.returned now) (fun _ => rfl)
    intro k r _ _
    exact ⟨rfl, Nat.le_refl _, fun _ => rfl, fun h => by cases h⟩
  · exact h.modify (fun _ => rfl) fun _ hp => hp

end

/-! ## The ledger of a run -/

def Late (log : List Event) (k : Key) (life : Nat) : Prop := ∃ c, Event.reverted c life ∈ log ∧ c.key = k ∧ c.life ≠ life

structure Stands (log : List Event) (c : Claim) : Prop where
  claimed : Event.claimed c ∈ log
  unreverted : ∀ life, Event.reverted c life ∉ log

def Claim.tag (c : Claim) : RedriveTag := ⟨c.key.txid, c.key.topics, c.n⟩

/-- The parked delivery `d` was acked on its own park, or the bytes of its key were found after a bound refused it. -/
def Vouched (log : List Event) (d : Delivery) (how : Parked) : Prop :=
  (∃ life, Event.landed d life ∈ log) ∨ (how = .redelivery ∧ Event.refused d ∈ log)

structure Ledger (C : Codec) (t : Table) (log : List Event) : Prop where
  sound : t.Sound
  parked : ∀ d life, Event.landed d life ∈ log → life = lives log d.letter.key → Held C t d.letter.key (d.letter.carried C)
  landed : ∀ d life, Event.landed d life ∈ log → life ≤ lives log d.letter.key
  acked : ∀ d how, Event.acked d how ∈ log → Vouched log d how
  redriven : ∀ k r, t.row k = some r → r.status = .redriven →
    ∃ c, Event.claimed c ∈ log ∧ c.key = k ∧ c.n = r.redrives ∧ c.life = lives log k ∧ r.redrivenAt = some c.at_
  counted : ∀ c, Stands log c → c.life = lives log c.key → ¬ Late log c.key c.life → ∃ r, t.row c.key = some r ∧ c.n ≤ r.redrives
  apart : ∀ c c', Stands log c → Stands log c' → c ≠ c' → c.key = c'.key → c.life = c'.life → ¬ Late log c.key c.life → c.n ≠ c'.n
  lived : ∀ c, Event.claimed c ∈ log → c.life ≤ lives log c.key
  sent : ∀ c msg, Event.sent c msg ∈ log → Stands log c ∧ msg.redrive = some c.tag
  reverted : ∀ c life, Event.reverted c life ∈ log → Event.claimed c ∈ log
  once : log.Pairwise fun e e' => ∀ c msg msg', e = .sent c msg → e' ≠ .sent c msg'
  unforced : ∀ c, Event.claimed c ∈ log → c.forced = false → c.n ≤ maxRedrives

def Event.plain : Event → Bool
  | .landed _ _ => true
  | .refused _ => true
  | .acked _ _ => true
  | .lost _ => true
  | _ => false

section
variable {C : Codec} {t t' : Table} {log : List Event}

theorem not_stands_nil (c : Claim) : ¬ Stands [] c := fun h => by cases h.claimed

theorem ledger_start : Ledger C [] [] where
  sound := ⟨List.nodup_nil, fun _ _ h => by cases h⟩
  parked _ _ h := by cases h
  landed _ _ h := by cases h
  acked _ _ h := by cases h
  redriven _ _ h := by cases h
  counted c h := absurd h (not_stands_nil c)
  apart c _ h := absurd h (not_stands_nil c)
  lived _ h := by cases h
  sent _ _ h := by cases h
  reverted _ _ h := by cases h
  once := List.Pairwise.nil
  unforced _ h := by cases h

theorem lives_cons (e : Event) (log : List Event) (k : Key) : lives (e :: log) k = lives log k + if e.deletes k then 1 else 0 := by
  simp [lives, List.countP_cons]

variable {e : Event} {c : Claim}

theorem Stands.tail (h : Stands (e :: log) c) (he : e ≠ .claimed c) : Stands log c := by
  constructor
  · exact (List.mem_cons.mp h.claimed).resolve_left fun hc => he hc.symm
  · intro life hm
    exact h.unreverted life (List.mem_cons_of_mem _ hm)

theorem Late.cons {k : Key} {life : Nat} (e : Event) (h : Late log k life) : Late (e :: log) k life := by
  obtain ⟨c, hm, hk, hl⟩ := h
  exact ⟨c, List.mem_cons_of_mem _ hm, hk, hl⟩

theorem Vouched.cons {d : Delivery} {how : Parked} (e : Event) (h : Vouched log d how) : Vouched (e :: log) d how := by
  obtain ⟨life, hl⟩ | ⟨hr, hm⟩ := h
  · exact Or.inl ⟨life, List.mem_cons_of_mem _ hl⟩
  · exact Or.inr ⟨hr, List.mem_cons_of_mem _ hm⟩

theorem Ledger.grows (h : Ledger C t log) (hg : Grows C t t') (hs : t'.Sound) : Ledger C t' log := by
  refine { h with sound := hs, parked := ?_, redriven := ?_, counted := ?_ }
  · intro d life hm hl
    exact hg.held (h.parked d life hm hl)
  · intro k r' hr' hst
    cases hr : t.row k with
    | none => exact absurd hst (hg.new k r' hr hr')
    | some r =>
      obtain ⟨r₁, hr₁, hn, -, -, hre⟩ := hg.row k r hr
      obtain rfl : r₁ = r' := by simpa [hr₁] using hr'
      obtain ⟨hst₀, hat⟩ := hre hst
      obtain ⟨c, hc, hk, hcn, hcl, hca⟩ := h.redriven k r hr hst₀
      exact ⟨c, hc, hk, hcn.trans hn.symm, hcl, hat.trans hca⟩
  · intro c hc hl hlate
    obtain ⟨r, hr, hn⟩ := h.counted c hc hl hlate
    obtain ⟨r', hr', hrn, -⟩ := hg.row c.key r hr
    exact ⟨r', hr', hrn ▸ hn⟩

theorem Ledger.plain (h : Ledger C t log) (he : e.plain = true)
    (hl : ∀ d life, e = .landed d life → life = lives log d.letter.key ∧ Held C t d.letter.key (d.letter.carried C))
    (ha : ∀ d how, e = .acked d how → Vouched log d how) : Ledger C t (e :: log) := by
  have hlives : ∀ k, lives (e :: log) k = lives log k := by
    intro k
    rw [lives_cons]
    cases e <;> simp_all [Event.plain, Event.deletes]
  have hother : ∀ {e'}, e' ∈ e :: log → e'.plain = false → e' ∈ log := by
    intro e' hm hp
    refine (List.mem_cons.mp hm).resolve_left fun heq => ?_
    rw [heq, he] at hp
    cases hp
  have hstands : ∀ {c}, Stands (e :: log) c → Stands log c := fun hc => hc.tail fun heq => by rw [heq] at he; cases he
  have hlate : ∀ {k life}, ¬ Late (e :: log) k life → ¬ Late log k life := fun hn hl => hn (hl.cons e)
  refine ⟨h.sound, ?_, ?_, ?_, ?_, ?_, ?_, ?_, ?_, ?_, ?_, ?_⟩
  · intro d life hm hlife
    obtain heq | hm := List.mem_cons.mp hm
    · exact (hl d life heq.symm).2
    · exact h.parked d life hm (hlife.trans (hlives _))
  · intro d life hm
    rw [hlives]
    obtain heq | hm := List.mem_cons.mp hm
    · exact Nat.le_of_eq (hl d life heq.symm).1
    · exact h.landed d life hm
  · intro d how hm
    obtain heq | hm := List.mem_cons.mp hm
    · exact (ha d how heq.symm).cons e
    · exact (h.acked d how hm).cons e
  · intro k r hr hs
    obtain ⟨c, hc, hk, hn, hlf, hat⟩ := h.redriven k r hr hs
    exact ⟨c, List.mem_cons_of_mem _ hc, hk, hn, hlf.trans (hlives k).symm, hat⟩
  · intro c hc hlf hn
    exact h.counted c (hstands hc) (hlf.trans (hlives _)) (hlate hn)
  · intro c c' hc hc' hne hk hlf hn
    exact h.apart c c' (hstands hc) (hstands hc') hne hk hlf (hlate hn)
  · intro c hc
    rw [hlives]
    exact h.lived c (hother hc rfl)
  · intro c msg hm
    obtain ⟨hs, htag⟩ := h.sent c msg (hother hm rfl)
    exact ⟨⟨List.mem_cons_of_mem _ hs.claimed, fun life hr => hs.unreverted life (hother hr rfl)⟩, htag⟩
  · intro c life hm
    exact List.mem_cons_of_mem _ (h.reverted c life (hother hm rfl))
  · refine List.Pairwise.cons ?_ h.once
    intro e' _ c msg msg' heq
    rw [heq] at he
    cases he
  · intro c hc
    exact h.unforced c (hother hc rfl)

theorem lives_other (he : ∀ k, e.deletes k = false) (log : List Event) (k : Key) : lives (e :: log) k = lives log k := by
  simp [lives_cons, he]

theorem mem_of_ne {e e' : Event} (hm : e' ∈ e :: log) (hne : e' ≠ e) : e' ∈ log := (List.mem_cons.mp hm).resolve_left hne

theorem row_one {f : Row → Row} (hf : ∀ r, (f r).key = r.key) (t : Table) (k k' : Key) :
    Table.row (modify Row.key (· = k) f t) k' = (t.row k').map fun r => if k' = k then f r else r := by
  rw [row_changed hf]
  simp

theorem held_one {f : Row → Row} {k k' : Key} {n : Nat} (hf : ∀ r, (f r).key = r.key) (hs : ∀ r, (f r).held = true)
    (hc : ∀ r, (f r).carried C = r.carried C) (h : Held C t k' n) : Held C (modify Row.key (· = k) f t) k' n := by
  obtain ⟨r, hr, hh, hn⟩ := h
  refine ⟨if k' = k then f r else r, by rw [row_one hf, hr]; rfl, ?_⟩
  split
  · exact ⟨hs r, hn.trans_eq (hc r).symm⟩
  · exact ⟨hh, hn⟩

theorem Ledger.claim (h : Ledger C t log) {r : Row} {now : Int} {forced : Bool} (hr : t.row c.key = some r)
    (hn : c.n = r.redrives + 1) (hlife : c.life = lives log c.key) (hat : c.at_ = now)
    (hforce : c.forced = false → c.n ≤ maxRedrives) :
    Ledger C (modify Row.key (· = c.key) (fun r => r.claimed now forced) t) (.claimed c :: log) := by
  have hlives := lives_other (e := .claimed c) (fun _ => rfl) log
  have hrow := row_one (f := fun r => r.claimed now forced) (fun _ => rfl) t c.key
  have hlate : ∀ {k life}, ¬ Late (Event.claimed c :: log) k life → ¬ Late log k life := fun hn hl => hn (hl.cons _)
  have hbelow : ∀ {c'}, Stands log c' → c'.key = c.key → c'.life = c.life → ¬ Late log c'.key c'.life → c'.n < c.n := by
    intro c' hs hk hl hla
    obtain ⟨r', hr', hle⟩ := h.counted c' hs (by rw [hl, hlife, hk]) hla
    rw [hk, hr] at hr'
    cases hr'
    omega
  refine ⟨h.sound.modify (fun _ => rfl) fun _ hp => hp, ?_, ?_, ?_, ?_, ?_, ?_, ?_, ?_, ?_, ?_, ?_⟩
  · intro d life hm hl
    rw [hlives] at hl
    exact held_one (fun _ => rfl) (fun _ => rfl) (fun _ => rfl) (h.parked d life (mem_of_ne hm (by simp)) hl)
  · intro d life hm
    rw [hlives]
    exact h.landed d life (mem_of_ne hm (by simp))
  · intro d how hm
    exact (h.acked d how (mem_of_ne hm (by simp))).cons _
  · intro k r' hr' hs
    rw [hrow] at hr'
    obtain ⟨r₀, hr₀, rfl⟩ := Option.map_eq_some_iff.mp hr'
    by_cases hk : k = c.key
    · subst hk
      obtain rfl : r = r₀ := by simpa [hr] using hr₀
      exact ⟨c, List.mem_cons_self, rfl, by simp [Row.claimed, hn], by rw [hlives, hlife], by simp [Row.claimed, hat]⟩
    · simp only [hk, if_false] at hs ⊢
      obtain ⟨c', hc', hk', hn', hl', hat'⟩ := h.redriven k r₀ hr₀ hs
      exact ⟨c', List.mem_cons_of_mem _ hc', hk', hn', by rw [hlives, hl'], hat'⟩
  · intro c' hs hl hla
    rw [hlives] at hl
    by_cases hc : c' = c
    · subst hc
      exact ⟨r.claimed now forced, by simp [hrow, hr], by simp [Row.claimed, hn]⟩
    · obtain ⟨r', hr', hle⟩ := h.counted c' (hs.tail (by simpa using fun he => hc he.symm)) hl (hlate hla)
      refine ⟨if c'.key = c.key then r'.claimed now forced else r', by rw [hrow, hr']; rfl, ?_⟩
      split
      · exact Nat.le_succ_of_le hle
      · exact hle
  · intro x y hx hy hne hk hl hla
    have hy' : y ≠ c → Stands log y := fun hc => hy.tail (by simpa using fun he => hc he.symm)
    have hx' : x ≠ c → Stands log x := fun hc => hx.tail (by simpa using fun he => hc he.symm)
    by_cases hxc : x = c
    · subst hxc
      have := hbelow (hy' (Ne.symm hne)) hk.symm hl.symm (by rw [← hk, ← hl]; exact hlate hla)
      omega
    · by_cases hyc : y = c
      · subst hyc
        have := hbelow (hx' hxc) hk hl (hlate hla)
        omega
      · exact h.apart x y (hx' hxc) (hy' hyc) hne hk hl (hlate hla)
  · intro c' hm
    rw [hlives]
    obtain heq | hm := List.mem_cons.mp hm
    · cases heq
      exact Nat.le_of_eq hlife
    · exact h.lived c' hm
  · intro c' msg hm
    obtain ⟨hs, htag⟩ := h.sent c' msg (mem_of_ne hm (by simp))
    exact ⟨⟨List.mem_cons_of_mem _ hs.claimed, fun life hr => hs.unreverted life (mem_of_ne hr (by simp))⟩, htag⟩
  · intro c' life hm
    exact List.mem_cons_of_mem _ (h.reverted c' life (mem_of_ne hm (by simp)))
  · exact List.Pairwise.cons (by simp) h.once
  · intro c' hm
    obtain heq | hm := List.mem_cons.mp hm
    · cases heq
      exact hforce
    · exact h.unforced c' hm

theorem Ledger.send (h : Ledger C t log) {msg : MutationMessage} (hc : Stands log c)
    (hfirst : ∀ msg', Event.sent c msg' ∉ log) (htag : msg.redrive = some c.tag) : Ledger C t (.sent c msg :: log) := by
  have hlives := lives_other (e := .sent c msg) (fun _ => rfl) log
  have hlate : ∀ {k life}, ¬ Late (Event.sent c msg :: log) k life → ¬ Late log k life := fun hn hl => hn (hl.cons _)
  have hstands : ∀ {c'}, Stands log c' → Stands (Event.sent c msg :: log) c' := fun hs =>
    ⟨List.mem_cons_of_mem _ hs.claimed, fun life hr => hs.unreverted life (mem_of_ne hr (by simp))⟩
  refine ⟨h.sound, ?_, ?_, ?_, ?_, ?_, ?_, ?_, ?_, ?_, ?_, ?_⟩
  · intro d life hm hl
    rw [hlives] at hl
    exact h.parked d life (mem_of_ne hm (by simp)) hl
  · intro d life hm
    rw [hlives]
    exact h.landed d life (mem_of_ne hm (by simp))
  · intro d how hm
    exact (h.acked d how (mem_of_ne hm (by simp))).cons _
  · intro k r hr hs
    obtain ⟨c', hc', hk, hn, hl, hat⟩ := h.redriven k r hr hs
    exact ⟨c', List.mem_cons_of_mem _ hc', hk, hn, by rw [hlives, hl], hat⟩
  · intro c' hs hl hla
    rw [hlives] at hl
    exact h.counted c' (hs.tail (by simp)) hl (hlate hla)
  · intro x y hx hy hne hk hl hla
    exact h.apart x y (hx.tail (by simp)) (hy.tail (by simp)) hne hk hl (hlate hla)
  · intro c' hm
    rw [hlives]
    exact h.lived c' (mem_of_ne hm (by simp))
  · intro c' msg' hm
    obtain heq | hm := List.mem_cons.mp hm
    · cases heq
      exact ⟨hstands hc, htag⟩
    · exact ⟨hstands (h.sent c' msg' hm).1, (h.sent c' msg' hm).2⟩
  · intro c' life hm
    exact List.mem_cons_of_mem _ (h.reverted c' life (mem_of_ne hm (by simp)))
  · refine List.Pairwise.cons ?_ h.once
    intro e' hm c' msg' msg'' heq heq'
    cases heq
    exact hfirst msg'' (heq' ▸ hm)
  · intro c' hm
    exact h.unforced c' (mem_of_ne hm (by simp))

theorem Ledger.revert (h : Ledger C t log) {r : Row} {at_ : Option Int} (hr : t.row c.key = some r) (hn : r.redrives = c.n)
    (hc : Stands log c) (hunsent : ∀ msg, Event.sent c msg ∉ log) :
    Ledger C (modify Row.key (· = c.key) (fun r => { r with status := .parked, redrives := r.redrives - 1, redrivenAt := at_ }) t)
      (.reverted c (lives log c.key) :: log) := by
  have hlives := lives_other (e := .reverted c (lives log c.key)) (fun _ => rfl) log
  have hrow := row_one (f := fun r => { r with status := .parked, redrives := r.redrives - 1, redrivenAt := at_ }) (fun _ => rfl) t c.key
  have hlate : ∀ {k life}, ¬ Late (Event.reverted c (lives log c.key) :: log) k life → ¬ Late log k life := fun hn hl => hn (hl.cons _)
  have hother : ∀ {c'}, Stands (Event.reverted c (lives log c.key) :: log) c' → c' ≠ c ∧ Stands log c' := by
    intro c' hs
    refine ⟨?_, hs.tail (by simp)⟩
    intro hc'
    rw [hc'] at hs
    exact hs.unreverted _ List.mem_cons_self
  refine ⟨h.sound.modify (fun _ => rfl) fun _ hp => hp, ?_, ?_, ?_, ?_, ?_, ?_, ?_, ?_, ?_, ?_, ?_⟩
  · intro d life hm hl
    rw [hlives] at hl
    exact held_one (fun _ => rfl) (fun _ => rfl) (fun _ => rfl) (h.parked d life (mem_of_ne hm (by simp)) hl)
  · intro d life hm
    rw [hlives]
    exact h.landed d life (mem_of_ne hm (by simp))
  · intro d how hm
    exact (h.acked d how (mem_of_ne hm (by simp))).cons _
  · intro k r' hr' hs
    rw [hrow] at hr'
    obtain ⟨r₀, hr₀, rfl⟩ := Option.map_eq_some_iff.mp hr'
    by_cases hk : k = c.key
    · simp only [hk, if_true] at hs
      cases hs
    · simp only [hk, if_false] at hs ⊢
      obtain ⟨c', hc', hk', hn', hl', hat'⟩ := h.redriven k r₀ hr₀ hs
      exact ⟨c', List.mem_cons_of_mem _ hc', hk', hn', by rw [hlives, hl'], hat'⟩
  · intro c' hs hl hla
    rw [hlives] at hl
    obtain ⟨hne, hs'⟩ := hother hs
    obtain ⟨r', hr', hle⟩ := h.counted c' hs' hl (hlate hla)
    refine ⟨_, by rw [hrow, hr']; rfl, ?_⟩
    by_cases hk : c'.key = c.key
    · -- not late, so the reverted claim is of this life too, and the other claim's number is below it
      have hsame : c.life = c'.life := by
        by_contra hd
        exact hla ⟨c, by rw [hl, hk]; exact List.mem_cons_self, hk.symm, hd⟩
      have hlt := h.apart c' c hs' hc hne hk hsame.symm (hlate hla)
      rw [hk, hr] at hr'
      cases hr'
      simp only [hk, if_true]
      omega
    · simp only [hk, if_false]
      exact hle
  · intro x y hx hy hne hk hl hla
    exact h.apart x y (hother hx).2 (hother hy).2 hne hk hl (hlate hla)
  · intro c' hm
    rw [hlives]
    exact h.lived c' (mem_of_ne hm (by simp))
  · intro c' msg hm
    have hm' := mem_of_ne hm (by simp)
    obtain ⟨hs, htag⟩ := h.sent c' msg hm'
    refine ⟨⟨List.mem_cons_of_mem _ hs.claimed, ?_⟩, htag⟩
    intro life hrev
    obtain heq | hrev := List.mem_cons.mp hrev
    · cases heq
      exact hunsent msg hm'
    · exact hs.unreverted life hrev
  · intro c' life hm
    obtain heq | hm := List.mem_cons.mp hm
    · cases heq
      exact List.mem_cons_of_mem _ hc.claimed
    · exact List.mem_cons_of_mem _ (h.reverted c' life hm)
  · exact List.Pairwise.cons (by simp) h.once
  · intro c' hm
    exact h.unforced c' (mem_of_ne hm (by simp))

theorem lives_deleted (ks : List Key) (log : List Event) (k : Key) : lives (ks.map Event.deleted ++ log) k = lives log k + ks.count k := by
  induction ks with
  | nil => simp
  | cons k' ks ih =>
    rw [List.map_cons, List.cons_append, lives_cons, ih, List.count_cons]
    simp only [Event.deletes, decide_eq_true_eq, beq_iff_eq]
    omega

theorem mem_of_deleted {ks : List Key} (hm : e ∈ ks.map Event.deleted ++ log) (hne : ∀ k, e ≠ .deleted k) : e ∈ log := by
  obtain hk | hm := List.mem_append.mp hm
  · obtain ⟨k, -, heq⟩ := List.mem_map.mp hk
    exact absurd heq.symm (hne k)
  · exact hm

theorem Ledger.remove (h : Ledger C t log) {ks : List Key} {sel : Key → Bool} (hsel : ∀ k, sel k = true ↔ k ∈ ks) :
    Ledger C (KeyedRows.remove Row.key sel t) (ks.map .deleted ++ log) := by
  have hin : ∀ {e}, e ∈ log → e ∈ ks.map Event.deleted ++ log := List.mem_append_right _
  have hstands : ∀ {c}, Stands (ks.map Event.deleted ++ log) c → Stands log c := fun hs =>
    ⟨mem_of_deleted hs.claimed (by simp), fun life hr => hs.unreverted life (hin hr)⟩
  have hlate : ∀ {k life}, ¬ Late (ks.map Event.deleted ++ log) k life → ¬ Late log k life := by
    intro k life hn hl
    obtain ⟨c, hm, hk, hd⟩ := hl
    exact hn ⟨c, hin hm, hk, hd⟩
  have hkept : ∀ {k life}, life ≤ lives log k → life = lives (ks.map Event.deleted ++ log) k → sel k = false ∧ life = lives log k := by
    intro k life hle heq
    rw [lives_deleted] at heq
    have hz : ks.count k = 0 := by omega
    refine ⟨?_, by omega⟩
    rw [← Bool.not_eq_true, hsel]
    exact List.count_eq_zero.mp hz
  have hrow : ∀ {k}, sel k = false → Table.row (KeyedRows.remove Row.key sel t) k = t.row k := by
    intro k hs
    rw [row_removed, hs]
    rfl
  refine ⟨h.sound.remove sel, ?_, ?_, ?_, ?_, ?_, ?_, ?_, ?_, ?_, ?_, ?_⟩
  · intro d life hm hl
    have hm' := mem_of_deleted hm (by simp)
    obtain ⟨hs, hl'⟩ := hkept (h.landed d life hm') hl
    obtain ⟨r, hr, hh⟩ := h.parked d life hm' hl'
    exact ⟨r, (hrow hs).trans hr, hh⟩
  · intro d life hm
    rw [lives_deleted]
    exact Nat.le_add_right_of_le (h.landed d life (mem_of_deleted hm (by simp)))
  · intro d how hm
    obtain ⟨life, hl⟩ | ⟨hr, hm'⟩ := h.acked d how (mem_of_deleted hm (by simp))
    · exact Or.inl ⟨life, hin hl⟩
    · exact Or.inr ⟨hr, hin hm'⟩
  · intro k r hr hs
    rw [row_removed] at hr
    split at hr
    · cases hr
    · next hk =>
      obtain ⟨c, hc, hck, hn, hl, hat⟩ := h.redriven k r hr hs
      refine ⟨c, hin hc, hck, hn, ?_, hat⟩
      have hz : ks.count k = 0 := List.count_eq_zero.mpr fun hm => hk ((hsel k).mpr hm)
      rw [lives_deleted, hz, hl]
      rfl
  · intro c hs hl hla
    have hs' := hstands hs
    obtain ⟨hsel', hl'⟩ := hkept (h.lived c hs'.claimed) hl
    obtain ⟨r, hr, hle⟩ := h.counted c hs' hl' (hlate hla)
    exact ⟨r, (hrow hsel').trans hr, hle⟩
  · intro x y hx hy hne hk hl hla
    exact h.apart x y (hstands hx) (hstands hy) hne hk hl (hlate hla)
  · intro c hm
    rw [lives_deleted]
    exact Nat.le_add_right_of_le (h.lived c (mem_of_deleted hm (by simp)))
  · intro c msg hm
    obtain ⟨hs, htag⟩ := h.sent c msg (mem_of_deleted hm (by simp))
    exact ⟨⟨hin hs.claimed, fun life hr => hs.unreverted life (mem_of_deleted hr (by simp))⟩, htag⟩
  · intro c life hm
    exact hin (h.reverted c life (mem_of_deleted hm (by simp)))
  · rw [List.pairwise_append]
    refine ⟨?_, h.once, ?_⟩
    · rw [List.pairwise_map]
      exact List.pairwise_of_forall fun _ _ _ _ _ heq => by cases heq
    · intro e he e' _ c msg msg' heq
      obtain ⟨k, -, hk⟩ := List.mem_map.mp he
      rw [heq] at hk
      cases hk
  · intro c hm
    exact h.unforced c (mem_of_deleted hm (by simp))

end

/-! ## The actors -/

def Parked.acks : Parked → Bool
  | .park _ _ => true
  | .copy _ => true
  | .redelivery => true
  | _ => false

/-- Of call `i` only rows of its batch with at least `n` behind them were claimed. -/
def Behind (log : List Event) (i n : Nat) : Prop := ∀ c, Event.claimed c ∈ log → c.call = i → n ≤ c.left

/-- Call `i` holds the claim `c` of `row`, and has neither sent nor reverted it. -/
structure Holds (log : List Event) (i : Nat) (row : ParkedRow) (c : Claim) (rest : List ParkedRow) : Prop where
  stands : Stands log c
  unsent : ∀ msg, Event.sent c msg ∉ log
  call : c.call = i
  key : c.key = row.key
  number : c.n = row.redrives + 1
  behind : Behind log i rest.length

def Under (req : RedriveRequest) (rows : List ParkedRow) : Prop := ∀ row ∈ rows, req.force = false → row.redrives < maxRedrives

def Job.Sound (log : List Event) (i : Nat) : Job → Prop
  | .ceiling d => d.letter.Paired
  | .park d _ _ => d.letter.Paired
  | .reread d _ => (∃ life, Event.landed d life ∈ log) ∨ Event.refused d ∈ log
  | .answered d _ outcome => ∀ how, outcome = .ok how → how.acks = true → Vouched log d how
  | .stale _ _ => ∀ c, Event.claimed c ∈ log → c.call ≠ i
  | .select _ => ∀ c, Event.claimed c ∈ log → c.call ≠ i
  | .claims req rows => Under req rows ∧ Behind log i rows.length
  | .send req row c msg rest => Under req rest ∧ Holds log i row c rest ∧ msg.redrive = some c.tag
  | .revert req row c rest => Under req rest ∧ Holds log i row c rest
  | .finished => True

def Event.call : Event → Option Nat
  | .claimed c => some c.call
  | .sent c _ => some c.call
  | .reverted c _ => some c.call
  | _ => none

section
variable {C : Codec} {t : Table} {log es : List Event} {i : Nat}

theorem mem_other {e : Event} (hes : ∀ e ∈ es, e.call ≠ some i) (hm : e ∈ es ++ log) (he : e.call = some i) : e ∈ log :=
  (List.mem_append.mp hm).resolve_left fun h => hes e h he

theorem Behind.append {n : Nat} (h : Behind log i n) (hes : ∀ e ∈ es, e.call ≠ some i) : Behind (es ++ log) i n := by
  intro c hm hc
  exact h c (mem_other hes hm (by rw [← hc]; rfl)) hc

variable {row : ParkedRow} {rest : List ParkedRow}

theorem Holds.append {c : Claim} (h : Holds log i row c rest)
    (hes : ∀ e ∈ es, e.call ≠ some i) : Holds (es ++ log) i row c rest where
  stands := ⟨List.mem_append_right _ h.stands.claimed,
    fun life hm => h.stands.unreverted life (mem_other hes hm (congrArg some h.call))⟩
  unsent msg hm := h.unsent msg (mem_other hes hm (congrArg some h.call))
  call := h.call
  key := h.key
  number := h.number
  behind := h.behind.append hes

variable {d : Delivery}

theorem Vouched.append {how : Parked} (h : Vouched log d how) (es : List Event) : Vouched (es ++ log) d how := by
  obtain ⟨life, hl⟩ | ⟨hr, hm⟩ := h
  · exact Or.inl ⟨life, List.mem_append_right _ hl⟩
  · exact Or.inr ⟨hr, List.mem_append_right _ hm⟩

variable {job : Job}

theorem Job.Sound.append (h : job.Sound log i) (hes : ∀ e ∈ es, e.call ≠ some i) : job.Sound (es ++ log) i := by
  cases job with
  | ceiling d => exact h
  | park d cls near => exact h
  | reread d cls =>
    obtain ⟨life, hl⟩ | hr := h
    · exact Or.inl ⟨life, List.mem_append_right _ hl⟩
    · exact Or.inr (List.mem_append_right _ hr)
  | answered d cls outcome => exact fun how ho ha => (h how ho ha).append es
  | stale req start => exact fun c hm hc => h c (mem_other hes hm (congrArg some hc)) hc
  | select req => exact fun c hm hc => h c (mem_other hes hm (congrArg some hc)) hc
  | claims req rows => exact ⟨h.1, h.2.append hes⟩
  | send req row c msg rest => exact ⟨h.1, h.2.1.append hes, h.2.2⟩
  | revert req row c rest => exact ⟨h.1, h.2.append hes⟩
  | finished => trivial

theorem acks_outcome (d : Deferral) : d.outcome.acks = false := by
  cases d <;> rfl

theorem unparked_acks {again : Option CeilingRow} {how : Parked} (h : unparked again = .ok how) (ha : how.acks = true) : how = .redelivery := by
  unfold unparked at h
  split at h
  · cases h
  · split at h
    · cases h
      rfl
    · split at h
      · cases h
        rw [acks_outcome] at ha
        cases ha
      · cases h

theorem under_selectParked (t : Table) (req : RedriveRequest) : Under req (t.selectParked req) := by
  intro row hrow hf
  unfold Table.selectParked at hrow
  obtain ⟨r, hr, rfl⟩ := List.mem_map.mp hrow
  have hm := List.mem_of_mem_take hr
  rw [List.mem_insertionSort, List.mem_filter, Bool.and_eq_true] at hm
  have hu := hm.2.2
  rw [hf] at hu
  cases htx : req.txid with
  | none => simpa [htx] using hu
  | some tx =>
    simp only [htx, Bool.and_eq_true, decide_eq_true_eq] at hu
    exact hu.1

structure Advance.Kept (C : Codec) (log : List Event) (i : Nat) (a : Advance) : Prop where
  ledger : Ledger C a.table (a.events ++ log)
  job : a.job.Sound (a.events ++ log) i
  own : ∀ e ∈ a.events, ∀ n, e.call = some n → n = i

theorem kept_silent {t' : Table} (h : Ledger C t' log) (hj : job.Sound log i) : Advance.Kept C log i ⟨t', [], job⟩ :=
  ⟨h, hj, fun _ he => by cases he⟩

theorem kept_close (h : Ledger C t log) {cls : LetterClass} {outcome : Except String Parked}
    (hv : ∀ how, outcome = .ok how → how.acks = true → Vouched log d how) :
    Advance.Kept C log i ⟨t, d.close cls outcome, .finished⟩ := by
  have hacked : ∀ how, outcome = .ok how → how.acks = true → Advance.Kept C log i ⟨t, [.acked d how], .finished⟩ := by
    intro how ho ha
    refine ⟨h.plain rfl (by simp) ?_, trivial, ?_⟩
    · intro d' how' he
      cases he
      exact hv how ho ha
    · intro e he n hn
      rw [List.mem_singleton.mp he] at hn
      cases hn
  unfold Delivery.close
  split
  · exact hacked _ rfl rfl
  · exact hacked _ rfl rfl
  · exact hacked _ rfl rfl
  · split
    · refine ⟨h.plain rfl (by simp) (by simp), trivial, ?_⟩
      intro e he n hn
      rw [List.mem_singleton.mp he] at hn
      cases hn
    · exact kept_silent h trivial

theorem kept_park (h : Ledger C t log) (hd : d.letter.Paired) (cls : LetterClass) (near : Option Nat) (fate : Fate)
    (now : Int) : Advance.Kept C log i (Job.advance C t log i fate now (.park d cls near)) := by
  obtain ⟨hg, hs, hheld⟩ := park_kept (C := C) h.sound hd d.now
  have hled : ∀ e, e = (if t.room d.letter.key (dayCutoff d.now) then Event.landed d (lives log d.letter.key) else .refused d) →
      Ledger C (t.park C d.letter d.now).1 (e :: log) := by
    intro e he
    refine (h.grows hg hs).plain ?_ ?_ ?_
    · rw [he]
      split <;> rfl
    · intro d' life heq
      rw [he] at heq
      split at heq
      next hroom =>
        cases heq
        exact ⟨rfl, hheld hroom⟩
      next => cases heq
    · intro d' how heq
      rw [he] at heq
      split at heq <;> cases heq
  have hown : ∀ e, e = (if t.room d.letter.key (dayCutoff d.now) then Event.landed d (lives log d.letter.key) else .refused d) →
      ∀ n, e.call = some n → n = i := by
    intro e he n hn
    rw [he] at hn
    split at hn <;> cases hn
  cases fate with
  | ok =>
    refine ⟨hled _ rfl, ?_, fun e he => hown e (List.mem_singleton.mp he)⟩
    -- a park that answers a row landed; without a row it landed or was refused, and the job reads again
    cases hret : (t.park C d.letter d.now).2 with
    | none =>
      by_cases hroom : t.room d.letter.key (dayCutoff d.now) = true
      · simp [Job.advance, hret, Job.afterPark, Job.Sound, hroom]
      · simp [Job.advance, hret, Job.afterPark, Job.Sound, hroom]
    | some r =>
      have hroom : t.room d.letter.key (dayCutoff d.now) = true := by
        by_contra hno
        simp [Table.park, hno] at hret
      simp only [Job.advance, hret, Job.afterPark, Job.Sound, hroom, if_true]
      intro how _ _
      exact Or.inl ⟨lives log d.letter.key, List.mem_cons_self⟩
  | faulted e landed =>
    cases landed with
    | false => exact kept_silent h fun how ho => by cases ho
    | true => exact ⟨hled _ rfl, fun how ho => (by cases ho), fun e he => hown e (List.mem_singleton.mp he)⟩

theorem claim_some {t' : Table} {now : Int} {forced : Bool} {claimed : ClaimedRow}
    (h : t.claim row now forced = (t', some claimed)) :
    ∃ r, t.row row.key = some r ∧ r.redrives = row.redrives ∧ claimed = ⟨r.redrives + 1, r.message⟩ ∧
      t' = modify Row.key (· = row.key) (fun r => r.claimed now forced) t := by
  unfold Table.claim at h
  split at h
  · cases h
  next r hr =>
    split at h
    next hg =>
      cases h
      exact ⟨r, hr, hg.2, rfl, rfl⟩
    next => cases h

variable {req : RedriveRequest}

theorem kept_claims (h : Ledger C t log)
    (hu : Under req (row :: rest)) (hb : Behind log i (rest.length + 1)) (fate : Fate) (now : Int) :
    Advance.Kept C log i (Job.advance C t log i fate now (.claims req (row :: rest))) := by
  have hrest : Under req rest := fun r hr => hu r (List.mem_cons_of_mem _ hr)
  have hbrest : Behind log i rest.length := fun c hm hc => Nat.le_of_succ_le (hb c hm hc)
  rw [Job.advance]
  split
  next => exact kept_silent h ⟨hrest, hbrest⟩
  next t' claimed hclaim =>
    obtain ⟨r, hr, hn, rfl, rfl⟩ := claim_some hclaim
    let c : Claim := ⟨i, rest.length, row.key, r.redrives + 1, lives log row.key, now, req.force⟩
    have hnew : Event.claimed c ∉ log := fun hm => absurd (hb c hm rfl) (Nat.not_succ_le_self _)
    have hled : Ledger C (modify Row.key (· = row.key) (fun r => r.claimed now req.force) t) (.claimed c :: log) := by
      refine h.claim (c := c) hr rfl rfl rfl ?_
      intro hf
      have := hu row List.mem_cons_self hf
      show r.redrives + 1 ≤ maxRedrives
      omega
    have hown : ∀ e ∈ [Event.claimed c], ∀ n, e.call = some n → n = i := by
      intro e he n hcall
      rw [List.mem_singleton.mp he] at hcall
      cases hcall
      rfl
    have hb' : Behind (.claimed c :: log) i rest.length := by
      intro c' hm hc
      obtain heq | hm := List.mem_cons.mp hm
      · cases heq
        exact Nat.le_refl _
      · exact hbrest c' hm hc
    have hholds : Holds (.claimed c :: log) i row c rest := by
      refine ⟨⟨List.mem_cons_self, ?_⟩, ?_, rfl, rfl, by simp [c, hn], hb'⟩
      · intro life hm
        exact hnew (h.reverted c life (mem_of_ne hm (by simp)))
      · intro msg hm
        exact hnew (h.sent c msg (mem_of_ne hm (by simp))).1.claimed
    cases fate with
    | ok =>
      refine ⟨hled, ?_, hown⟩
      show Job.Sound (.claimed c :: log) i (Job.afterClaim req row c rest ⟨r.redrives + 1, r.message⟩)
      unfold Job.afterClaim
      split
      next => exact ⟨hrest, hholds⟩
      next msg hmsg =>
        refine ⟨hrest, hholds, ?_⟩
        unfold redriveMessage at hmsg
        split at hmsg
        · cases hmsg
        · cases hmsg
          rfl
    | faulted e landed =>
      cases landed with
      | false => exact kept_silent h ⟨hrest, hbrest⟩
      | true => exact ⟨hled, ⟨hrest, hb'⟩, hown⟩

theorem kept_revert (h : Ledger C t log) {c : Claim}
    (hu : Under req rest) (hc : Holds log i row c rest) (fate : Fate) (now : Int) :
    Advance.Kept C log i (Job.advance C t log i fate now (.revert req row c rest)) := by
  rw [Job.advance]
  split
  next heff =>
    obtain ⟨-, hrev⟩ := heff
    have hg := hrev
    simp only [Table.reverts, Option.any_eq_true, Bool.and_eq_true, decide_eq_true_eq] at hg
    obtain ⟨r, hr, -, hn⟩ := hg
    have hrevert : t.revert row =
        modify Row.key (· = c.key) (fun r => { r with status := .parked, redrives := r.redrives - 1, redrivenAt := row.redrivenAt }) t := by
      rw [Table.revert, if_pos hrev, hc.key]
    refine ⟨?_, ⟨hu, ?_⟩, ?_⟩
    · rw [hrevert, ← hc.key]
      exact h.revert (hc.key ▸ hr) (hn.trans hc.number.symm) hc.stands hc.unsent
    · intro c' hm
      exact hc.behind c' (mem_of_ne hm (by simp))
    · intro e he n hcall
      rw [List.mem_singleton.mp he] at hcall
      cases hcall
      exact hc.call
  next => exact kept_silent h ⟨hu, hc.behind⟩

theorem advance_kept (h : Ledger C t log) (hj : job.Sound log i) (fate : Fate) (now : Int) :
    Advance.Kept C log i (job.advance C t log i fate now) := by
  cases job with
  | ceiling d =>
    cases fate with
    | ok =>
      refine kept_silent h ?_
      simp only [Job.afterCeiling]
      split
      next near _ => exact hj
      next dfr _ =>
        intro how ho ha
        cases ho
        rw [acks_outcome] at ha
        cases ha
    | faulted e landed => exact kept_silent h fun how ho => by cases ho
  | park d cls near => exact kept_park h hj cls near fate now
  | reread d cls =>
    cases fate with
    | ok =>
      refine kept_silent h ?_
      intro how ho ha
      obtain hl | hr := hj
      · exact Or.inl hl
      · exact Or.inr ⟨unparked_acks ho ha, hr⟩
    | faulted e landed => exact kept_silent h fun how ho => by cases ho
  | answered d cls outcome => exact kept_close h hj
  | stale req start =>
    obtain ⟨hg, hs⟩ := staleReturn_kept (C := C) h.sound start redriveMaxLimit
    cases fate with
    | ok => exact kept_silent (h.grows hg hs) hj
    | faulted e landed =>
      cases landed with
      | false => exact kept_silent h trivial
      | true => exact kept_silent (h.grows hg hs) trivial
  | select req =>
    cases fate with
    | ok => exact kept_silent h ⟨under_selectParked t req, fun c hm hc => absurd hc (hj c hm)⟩
    | faulted e landed => exact kept_silent h trivial
  | claims req rows =>
    cases rows with
    | nil => exact kept_silent h trivial
    | cons row rest => exact kept_claims h hj.1 hj.2 fate now
  | send req row c msg rest =>
    cases fate with
    | ok =>
      refine ⟨h.send hj.2.1.stands hj.2.1.unsent hj.2.2, ⟨hj.1, ?_⟩, ?_⟩
      · intro c' hm
        exact hj.2.1.behind c' (mem_of_ne hm (by simp))
      · intro e he n hcall
        rw [List.mem_singleton.mp he] at hcall
        cases hcall
        exact hj.2.1.call
    | faulted e landed => exact kept_silent h ⟨hj.1, hj.2.1⟩
  | revert req row c rest => exact kept_revert h hj.1 hj.2 fate now
  | finished => exact kept_silent h trivial

end

/-! ## Every run -/

structure World.Kept (C : Codec) (w : World) : Prop where
  ledger : Ledger C w.table w.log
  jobs : ∀ i (job : Job), w.jobs[i]? = some job → job.Sound w.log i
  calls : ∀ c, Event.claimed c ∈ w.log → c.call < w.jobs.length

section
variable {C : Codec} {w : World}

theorem World.Kept.spawn (h : w.Kept C) {job : Job} (hj : (∀ c, Event.claimed c ∈ w.log → c.call ≠ w.jobs.length) → job.Sound w.log w.jobs.length) :
    World.Kept C { w with jobs := w.jobs ++ [job] } := by
  refine ⟨h.ledger, ?_, ?_⟩
  · intro i job' hi
    obtain hlt | hge := Nat.lt_or_ge i w.jobs.length
    · rw [List.getElem?_append_left hlt] at hi
      exact h.jobs i job' hi
    · rw [List.getElem?_append_right hge, List.getElem?_singleton] at hi
      split at hi
      · cases hi
        obtain rfl : i = w.jobs.length := by omega
        exact hj fun c hc => Nat.ne_of_lt (h.calls c hc)
      · cases hi
  · intro c hc
    have := h.calls c hc
    simp only [List.length_append, List.length_singleton]
    omega

theorem World.Kept.table {t' : Table} (h : w.Kept C) (hl : Ledger C t' w.log) : World.Kept C { w with table := t' } :=
  ⟨hl, h.jobs, h.calls⟩

theorem World.Kept.remove (h : w.Kept C) (ks : List Key) {sel : Key → Bool} (hsel : ∀ k, sel k = true ↔ k ∈ ks) :
    World.Kept C { w with table := KeyedRows.remove Row.key sel w.table, log := ks.map .deleted ++ w.log } := by
  refine ⟨h.ledger.remove hsel, ?_, ?_⟩
  · intro i job hi
    refine (h.jobs i job hi).append ?_
    intro e he
    obtain ⟨k, -, rfl⟩ := List.mem_map.mp he
    simp [Event.call]
  · intro c hc
    exact h.calls c (mem_of_deleted hc (by simp))

theorem World.Kept.go (h : w.Kept C) {i : Nat} {job : Job} (hi : w.jobs[i]? = some job) (fate : Fate) (now : Int) :
    World.Kept C
      { table := (job.advance C w.table w.log i fate now).table
        jobs := w.jobs.set i (job.advance C w.table w.log i fate now).job
        log := (job.advance C w.table w.log i fate now).events ++ w.log } := by
  have hlt : i < w.jobs.length := (List.getElem?_eq_some_iff.mp hi).1
  obtain ⟨hl, hj, hown⟩ := advance_kept h.ledger (h.jobs i job hi) fate now
  refine ⟨hl, ?_, ?_⟩
  · intro k job' hk
    rw [List.getElem?_set] at hk
    split at hk
    next heq =>
      subst heq
      cases hk
      exact hj
    next hne =>
      refine (h.jobs k job' hk).append ?_
      intro e he hcall
      exact hne (hown e he k hcall).symm
  · intro c hc
    rw [List.length_set]
    obtain hnew | hold := List.mem_append.mp hc
    · rw [hown _ hnew c.call rfl]
      exact hlt
    · exact h.calls c hold

theorem step_kept (h : w.Kept C) (m : Move) : (w.step C m).Kept C := by
  cases m with
  | deliver raw id e attempts now notNowDelayS => exact h.spawn fun _ => paired_letterOf C raw id e
  | redrive req start => exact h.spawn id
  | go i fate now =>
    simp only [World.step]
    split
    next => exact h
    next job hi => exact h.go hi fate now
  | noteFailing k fault now cls =>
    obtain ⟨hg, hs⟩ := note_kept (C := C) h.ledger.sound k fault now (some cls)
    exact h.table (h.ledger.grows hg hs)
  | noteFailingKeepingClass k fault now =>
    obtain ⟨hg, hs⟩ := note_kept (C := C) h.ledger.sound k fault now none
    exact h.table (h.ledger.grows hg hs)
  | resolve k =>
    simp only [World.step]
    split
    next => exact h
    next r _ => exact h.remove [k] (by simp)
  | discard txid topics maxRows => exact h.remove _ (by simp)

theorem kept_moves (h : w.Kept C) (moves : List Move) : (w.run C moves).Kept C := by
  induction moves generalizing w with
  | nil => exact h
  | cons m moves ih => exact ih (step_kept h m)

variable (C) in
theorem start_kept (moves : List Move) : (World.run C {} moves).Kept C :=
  kept_moves ⟨ledger_start, fun _ _ h => by simp at h, fun _ h => by cases h⟩ moves

end

/-! ## The stale return -/

theorem before_total (a b : Option Int) : before a b = true ∨ before b a = true := by
  cases a with
  | none => exact Or.inl rfl
  | some a =>
    cases b with
    | none => exact Or.inr rfl
    | some b => simpa [before] using le_total a b

theorem before_trans {a b c : Option Int} (h : before a b = true) (h' : before b c = true) : before a c = true := by
  cases a with
  | none => rfl
  | some a =>
    cases b with
    | none => cases h
    | some b =>
      cases c with
      | none => cases h'
      | some c =>
        simp only [before, decide_eq_true_eq] at h h' ⊢
        exact h.trans h'

instance : Std.Total fun a b : Row => (before a.redrivenAt b.redrivenAt : Prop) := ⟨fun a b => before_total a.redrivenAt b.redrivenAt⟩

instance : IsTrans Row fun a b => before a.redrivenAt b.redrivenAt := ⟨fun _ _ _ => before_trans⟩

theorem staleReturn_returns {t : Table} (h : t.Sound) {k : Key} {r : Row} {now at_ : Int} {limit : Nat} (hr : t.row k = some r)
    (hs : r.status = .redriven) (hat : r.redrivenAt = some at_) (hold : at_ < now - staleRedriveMs) :
    (t.staleReturn now limit).row k = some (r.returned now) ∨
      ∃ ks : List Key, ks.Nodup ∧ ks.length = limit ∧ ∀ k' ∈ ks, ∃ r' at', t.row k' = some r' ∧ r'.status = .redriven ∧
        r'.redrivenAt = some at' ∧ at' ≤ at_ ∧ (t.staleReturn now limit).row k' = some (r'.returned now) := by
  have hrow : ∀ k, (t.staleReturn now limit).row k = (t.row k).map fun r => if (t.stale (now - staleRedriveMs) limit).contains k then r.returned now else r :=
    row_changed (f := fun r => r.returned now) (fun _ => rfl) t
  by_cases hk : k ∈ t.stale (now - staleRedriveMs) limit
  · left
    rw [hrow, hr]
    simp [hk]
  · right
    have hk' := row_key hr
    have hpick : (decide (r.status = .redriven) && r.redrivenAt.any (· < now - staleRedriveMs)) = true := by simp [hs, hat, hold]
    obtain ⟨hlen, hall⟩ := oldest_spent (row_mem hr) hpick (show r.key ∉ t.stale (now - staleRedriveMs) limit by rw [hk']; exact hk)
    refine ⟨t.stale (now - staleRedriveMs) limit, nodup_oldest h.keyed, hlen, ?_⟩
    intro k' hm
    obtain ⟨r', hr', rfl, hp, hle⟩ := hall k' hm
    simp only [Bool.and_eq_true, decide_eq_true_eq, Option.any_eq_true] at hp
    obtain ⟨hs', at', hat', -⟩ := hp
    have hfind : t.row r'.key = some r' := row_of_mem h.keyed hr'
    refine ⟨r', at', hfind, hs', hat', ?_, ?_⟩
    · rw [hat', hat] at hle
      simpa [before] using hle
    · rw [hrow, hfind]
      simp [hm]

/-! ## The dead letters over a run -/

def Event.tag : Event → Option RedriveTag
  | .sent _ msg => msg.redrive
  | _ => none

structure LettersKept (C : Codec) (w : World) : Prop where
  /-- An acked delivery had parked, unless a bound had refused it and the key was found held. -/
  acked : ∀ d how, Event.acked d how ∈ w.log → (∃ life, Event.landed d life ∈ w.log) ∨ (how = .redelivery ∧ Event.refused d ∈ w.log)
  /-- While the life a letter was parked in lasts, its key holds at least its bytes. -/
  held : ∀ d life, Event.landed d life ∈ w.log → life = lives w.log d.letter.key →
    ∃ r, w.table.row d.letter.key = some r ∧ (r.status = .parked ∨ r.status = .redriven) ∧ d.letter.carried C ≤ r.carried C
  /-- A stale return takes back every row claimed before its cutoff, up to its limit, the oldest first. -/
  returned : ∀ i req start fate now k r, w.jobs[i]? = some (.stale req start) → fate.effect = true → w.table.row k = some r → r.status = .redriven →
    ∃ c, Event.claimed c ∈ w.log ∧ c.key = k ∧ c.n = r.redrives ∧ c.life = lives w.log k ∧ r.redrivenAt = some c.at_ ∧
      (c.at_ < start - staleRedriveMs →
        (w.step C (.go i fate now)).table.row k = some (r.returned start) ∨
          ∃ ks : List Key, ks.Nodup ∧ ks.length = redriveMaxLimit ∧ ∀ k' ∈ ks, ∃ r' at', w.table.row k' = some r' ∧ r'.status = .redriven ∧
            r'.redrivenAt = some at' ∧ at' ≤ c.at_ ∧ (w.step C (.go i fate now)).table.row k' = some (r'.returned start))
  /-- Two sends of one key and number are of two lives, or a revert of another life's claim took effect in theirs. -/
  once : w.log.Pairwise fun e e' => ∀ x y mx my, e = .sent x mx → e' = .sent y my → mx.redrive = my.redrive →
    x.life ≠ y.life ∨ Late w.log x.key x.life
  /-- Without force a letter is claimed only under the ceiling of re-drives. -/
  unforced : ∀ c, Event.claimed c ∈ w.log → c.forced = false → c.n ≤ maxRedrives

theorem Ledger.once_sent {C : Codec} {t : Table} {log : List Event} (h : Ledger C t log) :
    log.Pairwise fun e e' => ∀ x y mx my, e = .sent x mx → e' = .sent y my → mx.redrive = my.redrive → x.life ≠ y.life ∨ Late log x.key x.life := by
  refine h.once.imp_of_mem ?_
  intro e e' he he' hne x y mx my hx hy htag
  subst hx hy
  obtain ⟨hsx, htx⟩ := h.sent x mx he
  obtain ⟨hsy, hty⟩ := h.sent y my he'
  rw [htx, hty, Option.some_inj, Claim.tag, Claim.tag, RedriveTag.mk.injEq] at htag
  obtain ⟨htxid, htopics, hn⟩ := htag
  have hkey : x.key = y.key := by
    cases hkx : x.key
    cases hky : y.key
    simp_all
  by_contra hcon
  obtain ⟨hlife, hlate⟩ := not_or.mp hcon
  have hxy : x ≠ y := fun heq => hne x mx my rfl (by rw [heq])
  exact h.apart x y hsx hsy hxy hkey (not_not.mp hlife) hlate hn

theorem stale_step {C : Codec} {w : World} {i : Nat} {req : RedriveRequest} {start now : Int} {fate : Fate}
    (hi : w.jobs[i]? = some (.stale req start)) (hf : fate.effect = true) :
    (w.step C (.go i fate now)).table = w.table.staleReturn start redriveMaxLimit := by
  cases fate with
  | ok => simp [World.step, hi, Job.advance]
  | faulted e landed =>
    obtain rfl : landed = true := hf
    simp [World.step, hi, Job.advance]

/-- Over every run of deliveries, notes, acks, re-drives and discards, any of whose calls may fault, take effect or never end. -/
theorem letters_kept (C : Codec) (moves : List Move) : LettersKept C (World.run C {} moves) := by
  have h := start_kept C moves
  refine ⟨h.ledger.acked, ?_, ?_, h.ledger.once_sent, h.ledger.unforced⟩
  · intro d life hm hl
    obtain ⟨r, hr, hh, hc⟩ := h.ledger.parked d life hm hl
    exact ⟨r, hr, by simpa [Row.held] using hh, hc⟩
  · intro i req start fate now k r hi hf hr hs
    obtain ⟨c, hc, hk, hn, hl, hat⟩ := h.ledger.redriven k r hr hs
    refine ⟨c, hc, hk, hn, hl, hat, fun hold => ?_⟩
    rw [stale_step hi hf]
    exact staleReturn_returns h.ledger.sound hr hs hat hold

def inlineCodec : Codec := ⟨fun m => m.beefB64.length, fun _ => some "aa", id⟩

def twoLives : List Move :=
  let letter := Move.deliver (.body { beefB64 := "AQ==", topics := ["tm_pots"], mode := "current-tx" }) "1" "" (some 1) 1000 43200
  [letter, .go 0 .ok 0, .go 0 .ok 0, .go 0 .ok 0, .redrive { limit := 25 } 5000, .go 1 .ok 0, .go 1 .ok 0, .go 1 .ok 5001, .go 1 .ok 0,
    .resolve ⟨"aa", "tm_pots"⟩,
    letter, .go 2 .ok 0, .go 2 .ok 0, .go 2 .ok 0, .redrive { limit := 25 } 9000, .go 3 .ok 0, .go 3 .ok 0, .go 3 .ok 9001, .go 3 .ok 0]

/-- The row is deleted at the ack, so the next life of the key counts its re-drives from one again. -/
theorem two_lives_send_again : ¬ ((World.run inlineCodec {} twoLives).log.filterMap Event.tag).Nodup := by
  decide

end OverlayEngine.DeadLetters
