import OverlayEngine.Basis.Entrywise
import OverlayEngine.Worker.ArcadeReorg

/-!
# No orphan event is lost

The stored cursor only moves to the event its writer had in hand, and that is
the first event its listing named past the cursor. Beside the row stand what
the passes read, asked and wrote so far: the facts below are about these
records, and what is true of one stays true as they grow.
-/

namespace OverlayEngine.ArcadeReorg

open ReorgLegs (Legs LegAnswers Page judgeWindowLegs Walked judgeWindowLegs_walked)
open Entrywise (forall_set flatMap_set)

/-! ## The listing -/

variable {c : Option EventKey} {e : EventKey}

theorem after_iff : after c e = true ↔ ∀ k, c = some k → k < e := by
  cases c <;> simp [after]

theorem after_false_iff : after c e = false ↔ ∃ k, c = some k ∧ e ≤ k := by
  cases c <;> simp [after]

theorem mem_eventsAfter {events : List EventKey} :
    e ∈ eventsAfter events c ↔ e ∈ events ∧ after c e = true := by
  simp [eventsAfter, List.mem_insertionSort]

theorem eventsAfter_sorted (events : List EventKey) (c : Option EventKey) : (eventsAfter events c).Pairwise (· ≤ ·) :=
  List.Pairwise.sublist (List.dedup_sublist _) (List.pairwise_insertionSort _ _)

theorem find_le {l : List EventKey} {P : EventKey → Bool} {e f : EventKey} (hsorted : l.Pairwise (· ≤ ·)) (hfind : l.find? P = some e)
    (hf : f ∈ l) (hP : P f = true) : e ≤ f := by
  induction l with
  | nil => cases hf
  | cons x l ih =>
    rw [List.find?_cons] at hfind
    rw [List.pairwise_cons] at hsorted
    split at hfind
    · cases hfind
      rcases List.mem_cons.mp hf with rfl | hf
      · exact le_refl _
      · exact hsorted.1 f hf
    · rename_i hx
      rcases List.mem_cons.mp hf with rfl | hf
      · rw [hP] at hx
        cases hx
      · exact ih hsorted.2 hfind hf

/-- Every listing that reached past `e` to a reader whose cursor was below it named `e`. -/
def Covered (reads : List Listing) (e : EventKey) : Prop :=
  ∀ r ∈ reads, after r.own e = true → (∃ f ∈ r.events, e < f) → e ∈ r.events

def Ask.Meets (k : Ask) : Prop :=
  k.feedTip = none → ∀ n, k.listed = some n → saturatingAdd 64 k.tip k.limits.lagTolerance < n → k.verdict none ≠ .uncorroborated

theorem Covered.of_append {reads more : List Listing} (h : Covered (reads ++ more) e) : Covered reads e :=
  fun r hr => h r (List.mem_append_left _ hr)

/-! ## What holds of a document and of the passes -/

section
variable (log : List (EventKey × Page)) (reads : List Listing) (asks : List Ask)

/-- `p` may be in hand over the cursor `c`. -/
structure InHand (c : Option EventKey) (p : PendingEvent) : Prop where
  ahead : after c p.event = true
  first : ∀ e, Covered reads e → after c e = true → p.event ≤ e
  walked : ∀ g, Walked log p.event g (p.legs.of g)

def DocOk (s : ConsumerState) : Prop := ∀ p, s.pending = some p → InHand log reads s.cursor p

def FeedOk (feed : Option (List EventKey)) (c : Option EventKey) : Prop :=
  ∀ l, feed = some l → l.Pairwise (· ≤ ·) ∧ ∀ e, Covered reads e → after c e = true → (∃ f ∈ l, e < f) → e ∈ l

def Finished (e : EventKey) (doc : ConsumerState) : How → Prop
  | .applied => ReorgLegs.Judged log e
  | .skipped tip lagTolerance =>
    ∃ k ∈ asks, k.event = e ∧ k.tip = tip ∧ k.limits.lagTolerance = lagTolerance ∧ k.verdict k.feedTip = .uncorroborated
  | .unresolved => ∃ why, ⟨e, why⟩ ∈ doc.unresolved
  | .operator => ⟨e, .operator⟩ ∈ doc.unresolved

def Abreast (listed : Option Nat) : How → Prop
  | .skipped tip lagTolerance => (∀ k ∈ asks, k.Meets) → ∀ n, listed = some n → n ≤ tip + lagTolerance
  | _ => True

/-- What a pass is about to write over `m.state`. -/
structure Took (m : Mem) (p : PendingEvent) (next : ConsumerState) (how : Option How) : Prop where
  inHand : InHand log reads m.state.cursor p
  cursor : next.cursor = if how.isSome then some p.event else m.state.cursor
  ok : DocOk log reads next
  pending : how.isSome = true → next.pending = none
  finished : ∀ h, how = some h → Finished log asks p.event next h
  abreast : ∀ h, how = some h → Abreast asks m.listed h

def Holds (row : CasRow Stored) (m : Mem) : Prop :=
  ∃ base, row.Knows m.version base ∧ (base.getD {}).state = m.state ∧ (m.state.pending ≠ none → (base.getD {}).listed = m.listed ∧ m.feedTip = none)

def PassOk (row : CasRow Stored) : Pass → Prop
  | .looping m => Holds row m ∧ DocOk log reads m.state ∧ FeedOk reads m.feed m.state.cursor
  | .writing m p next how => (∃ base, row.Knows m.version base ∧ (base.getD {}).state = m.state) ∧
      FeedOk reads m.feed m.state.cursor ∧ Took log reads asks m p next how
  | .ended _ => True

end

def Pass.out : Pass → PassSummary
  | .looping m => m.out
  | .writing m _ _ _ => m.out
  | .ended out => out

structure Inv (σ : Sys) : Prop where
  doc : DocOk σ.log σ.reads (σ.row.doc.getD {}).state
  passes : ∀ P ∈ σ.passes, PassOk σ.log σ.reads σ.asks σ.row P
  reached : ∀ e, Covered σ.reads e → after σ.cursor e = false → ∃ mv ∈ σ.moves, mv.event = e
  ordered : σ.moves.Pairwise fun a b => a.event < b.event
  behind : ∀ mv ∈ σ.moves, after σ.cursor mv.event = false
  finished : ∀ mv ∈ σ.moves, Finished σ.log σ.asks mv.event mv.doc mv.how
  abreast : ∀ mv ∈ σ.moves, Abreast σ.asks mv.listed mv.how
  asked : ∀ k ∈ σ.asks, k.feedTip = k.listed ∨ k.feedTip = none
  counts : ∀ P ∈ σ.passes, P.out.eventsFinished = P.out.counted.length
  counted : (σ.passes.flatMap fun P => P.out.counted).Perm ((σ.moves.filter Move.counted).map Move.event)

/-! ## Records only grow -/

section
variable {log log' : List (EventKey × Page)} {reads more : List Listing} {asks asks' : List Ask}

theorem InHand.mono {p : PendingEvent} (h : InHand log reads c p) (hlog : log ⊆ log') : InHand log' (reads ++ more) c p :=
  ⟨h.ahead, fun e he => h.first e he.of_append, fun g => (h.walked g).mono hlog⟩

theorem DocOk.mono {s : ConsumerState} (h : DocOk log reads s) (hlog : log ⊆ log') : DocOk log' (reads ++ more) s :=
  fun p hp => (h p hp).mono hlog

theorem FeedOk.mono {feed : Option (List EventKey)} (h : FeedOk reads feed c) : FeedOk (reads ++ more) feed c :=
  fun l hl => ⟨(h l hl).1, fun e he => (h l hl).2 e he.of_append⟩

theorem Finished.mono {doc : ConsumerState} {how : How} (h : Finished log asks e doc how) (hlog : log ⊆ log')
    (hasks : asks ⊆ asks') : Finished log' asks' e doc how := by
  cases how with
  | applied => exact ReorgLegs.Judged.mono h hlog
  | skipped tip lagTolerance =>
    obtain ⟨k, hk, hrest⟩ := h
    exact ⟨k, hasks hk, hrest⟩
  | _ => exact h

theorem Abreast.mono {listed : Option Nat} {how : How} (h : Abreast asks listed how) (hasks : asks ⊆ asks') : Abreast asks' listed how := by
  cases how with
  | skipped tip lagTolerance => exact fun hmeets => h fun k hk => hmeets k (hasks hk)
  | _ => trivial

theorem PassOk.mono {row : CasRow Stored} {P : Pass} (h : PassOk log reads asks row P) (hlog : log ⊆ log') (hasks : asks ⊆ asks') :
    PassOk log' (reads ++ more) asks' row P := by
  cases P with
  | looping m =>
    obtain ⟨hbase, hdoc, hfeed⟩ := h
    exact ⟨hbase, hdoc.mono hlog, hfeed.mono⟩
  | writing m p next how =>
    obtain ⟨hbase, hfeed, htook⟩ := h
    exact ⟨hbase, hfeed.mono, htook.inHand.mono hlog, htook.cursor, htook.ok.mono hlog, htook.pending,
      fun h hh => (htook.finished h hh).mono hlog hasks, fun h hh => (htook.abreast h hh).mono hasks⟩
  | ended out => trivial

theorem PassOk.written {row row' : CasRow Stored} {P : Pass} {v : Option Nat} {d : Stored} (h : PassOk log reads asks row P)
    (hw : row.write v d = some row') : PassOk log reads asks row' P := by
  cases P with
  | looping m =>
    obtain ⟨⟨base, hknows, hbase⟩, hrest⟩ := h
    exact ⟨⟨base, hknows.write hw, hbase⟩, hrest⟩
  | writing m p next how =>
    obtain ⟨⟨base, hknows, hbase⟩, hrest⟩ := h
    exact ⟨⟨base, hknows.write hw, hbase⟩, hrest⟩
  | ended out => trivial

end

/-! ## A turn -/

theorem not_lagging {canonical : Option String} {hash : String} {tip height skipDepth lagTolerance n : Nat}
    (h : classifyCorroboration canonical hash tip height skipDepth (some n) lagTolerance ≠ .trackerLagging) : n ≤ tip + lagTolerance := by
  by_contra hlt
  apply h
  have : saturatingAdd 64 tip lagTolerance < n := by
    unfold saturatingAdd
    omega
  simp [classifyCorroboration, this]

theorem released_recorded (s : ConsumerState) (p : PendingEvent) (why : ReleaseReason) (h : s.pending = some p) :
    ⟨p.event, why⟩ ∈ (s.releasePending why).unresolved := by
  simp only [ConsumerState.releasePending, h]
  rw [List.length_append, List.drop_append_of_le_length (by simp [unresolvedKept])]
  exact List.mem_append_right _ (List.mem_singleton.mpr rfl)

section
variable {log : List (EventKey × Page)} {reads : List Listing} {asks : List Ask} {m : Mem} {p : PendingEvent} {a : Answers}

theorem docOk_kept {p' : PendingEvent} (h : InHand log reads m.state.cursor p) (he : p'.event = p.event) (hw : ∀ g, Walked log p.event g (p'.legs.of g)) :
    DocOk log reads { m.state with pending := some p' } := by
  intro q hq
  cases hq
  refine ⟨?_, fun e hc hafter => ?_, ?_⟩
  · rw [he]
    exact h.ahead
  · rw [he]
    exact h.first e hc hafter
  · rw [he]
    exact hw

variable {next : ConsumerState}

theorem took_kept {p' : PendingEvent} (h : InHand log reads m.state.cursor p)
    (hnext : next = { m.state with pending := some p' }) (he : p'.event = p.event) (hw : ∀ g, Walked log p.event g (p'.legs.of g)) :
    Took log reads asks m p next none := by
  subst hnext
  refine ⟨h, rfl, docOk_kept h he hw, fun h => ?_, fun _ h => ?_, fun _ h => ?_⟩ <;> cases h

theorem took_finished {how : How} (h : InHand log reads m.state.cursor p) (hcursor : next.cursor = some p.event)
    (hpending : next.pending = none) (hfin : Finished log asks p.event next how) (habr : Abreast asks m.listed how) :
    Took log reads asks m p next (some how) := by
  refine ⟨h, hcursor, fun q hq => ?_, fun _ => hpending, fun _ hh => ?_, fun _ hh => ?_⟩
  · rw [hpending] at hq
    cases hq
  · cases hh
    exact hfin
  · cases hh
    exact habr

theorem skip_abreast {k : Ask} (hk : k ∈ asks) (hverdict : k.verdict k.feedTip = .uncorroborated)
    (htip : k.feedTip = k.listed ∨ k.feedTip = none) : Abreast asks k.listed (.skipped k.tip k.limits.lagTolerance) := by
  intro hmeets n hn
  rcases htip with htip | htip
  · rw [htip, hn] at hverdict
    apply not_lagging
    intro hlag
    exact Corroboration.noConfusion (hlag.symm.trans hverdict)
  · rw [htip] at hverdict
    by_contra hlt
    refine hmeets k hk htip n hn ?_ hverdict
    unfold saturatingAdd
    omega

theorem judge_took (asks : List Ask) (a : Answers) (h : InHand log reads m.state.cursor p) (htip : m.feedTip = m.listed ∨ m.feedTip = none) :
    ∃ out next how, (m.judge p a).1 = .writing { m with out := out } p next how ∧ out.counted = m.out.counted ∧
      out.eventsFinished = m.out.eventsFinished ∧
      Took (log ++ (m.judge p a).2.map (p.event, ·)) reads (asks ++ (m.ask p a).toList) { m with out := out } p next how := by
  have kept {out : PassSummary} {p' : PendingEvent} (he : p'.event = p.event) (hl : p'.legs = p.legs) :
      Took (log ++ []) reads (asks ++ (m.ask p a).toList) { m with out := out } p { m.state with pending := some p' } none := by
    rw [List.append_nil]
    exact took_kept h rfl he (hl ▸ h.walked)
  cases hheader : a.header with
  | none =>
    simp only [Mem.judge, hheader]
    exact ⟨_, _, _, rfl, rfl, rfl, kept rfl rfl⟩
  | some canonical =>
    cases hat : a.tip with
    | none =>
      simp only [Mem.judge, hheader, hat]
      exact ⟨_, _, _, rfl, rfl, rfl, kept rfl rfl⟩
    | some tip =>
      simp only [Mem.judge, hheader, hat]
      split
      · exact ⟨_, _, _, rfl, rfl, rfl, kept rfl rfl⟩
      · exact ⟨_, _, _, rfl, rfl, rfl, kept rfl rfl⟩
      · rename_i hverdict
        let k : Ask :=
          { canonical := canonical, event := p.event, tip := tip, limits := m.limits, feedTip := m.feedTip, listed := m.listed }
        have hk : m.ask p a = some k := by simp [Mem.ask, hheader, hat, k]
        have hmem : k ∈ asks ++ (m.ask p a).toList := by simp [hk]
        refine ⟨_, _, _, rfl, rfl, rfl, ?_⟩
        rw [List.map_nil, List.append_nil]
        exact took_finished h rfl rfl ⟨_, hmem, rfl, rfl, rfl, hverdict⟩ (skip_abreast hmem hverdict htip)
      · have hwalked := judgeWindowLegs_walked a.legs h.walked
        have hhand : InHand (log ++ (judgeWindowLegs p.legs a.legs).2.2.map (p.event, ·)) reads m.state.cursor p :=
          ⟨h.ahead, h.first, fun g => (h.walked g).mono (List.subset_append_left _ _)⟩
        cases hv : (judgeWindowLegs p.legs a.legs).2.1 with
        | faulted => exact ⟨_, _, _, rfl, rfl, rfl, took_kept hhand rfl rfl hwalked⟩
        | budgetStop => exact ⟨_, _, _, rfl, rfl, rfl, took_kept hhand rfl rfl hwalked⟩
        | ran =>
          dsimp only
          split
          · rename_i hall
            have hjudged : ReorgLegs.Judged (log ++ (judgeWindowLegs p.legs a.legs).2.2.map (p.event, ·)) p.event :=
              fun g => ⟨_, hwalked g, (Legs.allExhausted_iff _).mp hall g⟩
            exact ⟨_, _, _, rfl, rfl, rfl, took_finished hhand rfl rfl hjudged trivial⟩
          · exact ⟨_, _, _, rfl, rfl, rfl, took_kept hhand rfl rfl hwalked⟩

/-- `m'` is `m` with the feed read, an event's listing noted or a count of faults moved. -/
structure SameHold (m m' : Mem) : Prop where
  state : m'.state = m.state
  version : m'.version = m.version
  counted : m'.out.counted = m.out.counted
  finished : m'.out.eventsFinished = m.out.eventsFinished

variable {feed : Option FeedRead}

theorem withFeed_ok {m' : Mem} (stored : Option EventKey) (hfeed : FeedOk reads m.feed m.state.cursor)
    (hbudget : m.finished < m.limits.eventsPerPass) (hnone : m.state.pending = none) (h : m.withFeed feed = some m') :
    SameHold m m' ∧ FeedOk (reads ++ m.newReads feed stored) m'.feed m.state.cursor := by
  unfold Mem.withFeed at h
  split at h
  · cases h
    exact ⟨⟨rfl, rfl, rfl, rfl⟩, hfeed.mono⟩
  · rename_i hm
    obtain ⟨read, hread, rfl⟩ := Option.map_eq_some_iff.mp h
    refine ⟨⟨rfl, rfl, rfl, rfl⟩, ?_⟩
    rintro l hl
    cases hl
    refine ⟨eventsAfter_sorted _ _, fun e hc hafter hpast => ?_⟩
    have hlisting : m.listing feed = some read := by simp [Mem.listing, hbudget, hnone, hm, hread]
    have hmem : (⟨read.events, stored, m.state.cursor⟩ : Listing) ∈ reads ++ m.newReads feed stored := by simp [Mem.newReads, hlisting]
    obtain ⟨f, hf, hlt⟩ := hpast
    exact mem_eventsAfter.mpr ⟨hc _ hmem hafter ⟨f, (mem_eventsAfter.mp hf).1, hlt⟩, hafter⟩

theorem next_inHand (hfeed : FeedOk reads m.feed m.state.cursor) (h : m.next = some e) :
    InHand log reads m.state.cursor { event := e } := by
  refine ⟨List.find?_some h, fun e' hc hafter => ?_, fun g => ?_⟩
  · cases hl : m.feed with
    | none =>
      rw [Mem.next, hl] at h
      cases h
    | some l =>
      have hfind : l.find? (after m.state.cursor) = some e := by
        rw [Mem.next, hl] at h
        exact h
      obtain ⟨hsorted, hcover⟩ := hfeed l hl
      by_contra hgt
      have hin : e' ∈ l := hcover e' hc hafter ⟨e, List.mem_of_find?_eq_some hfind, not_le.mp hgt⟩
      exact hgt (find_le hsorted hfind hin hafter)
  · cases g <;> exact .start

theorem inHand_event {row : CasRow Stored} {m' : Mem} (stored : Option EventKey)
    (hok : PassOk log reads asks row (.looping m)) (h : m.inHand feed = .event m' p) :
    SameHold m m' ∧ FeedOk (reads ++ m.newReads feed stored) m'.feed m'.state.cursor ∧
      InHand log (reads ++ m.newReads feed stored) m'.state.cursor p ∧ (m'.feedTip = m'.listed ∨ m'.feedTip = none) := by
  obtain ⟨⟨base, -, -, hlisted⟩, hdoc, hfeed⟩ := hok
  unfold Mem.inHand at h
  split at h
  · cases h
  · rename_i hbudget
    split at h
    · rename_i q hq
      split at h
      · cases h
      · cases h
        exact ⟨⟨rfl, rfl, rfl, rfl⟩, hfeed.mono, (hdoc p hq).mono (List.Subset.refl _), .inr (hlisted (by simp [hq])).2⟩
    · rename_i hnone
      split at h
      · cases h
      · rename_i m₁ hm₁
        obtain ⟨hsame, hfeed₁⟩ := withFeed_ok stored hfeed (not_le.mp hbudget) hnone hm₁
        split at h
        · cases h
        · rename_i e he
          cases h
          rw [← hsame.state] at hfeed₁
          exact ⟨⟨hsame.state, hsame.version, hsame.counted, hsame.finished⟩, hfeed₁, next_inHand hfeed₁ he, .inl rfl⟩

theorem inHand_ceiling {why : ReleaseReason} (h : m.inHand feed = .ceiling p why) : m.state.pending = some p := by
  unfold Mem.inHand at h
  split at h
  · cases h
  · split at h
    · split at h
      · cases h
        assumption
      · cases h
    · split at h
      · cases h
      · split at h <;> cases h

theorem inHand_over {out : PassSummary} (h : m.inHand feed = .stopped out) :
    out.counted = m.out.counted ∧ out.eventsFinished = m.out.eventsFinished := by
  unfold Mem.inHand at h
  split at h
  · cases h
    exact ⟨rfl, rfl⟩
  · split at h
    · split at h <;> cases h
    · split at h
      · cases h
        exact ⟨rfl, rfl⟩
      · rename_i m₁ hm₁
        split at h
        · cases h
          unfold Mem.withFeed at hm₁
          split at hm₁
          · cases hm₁
            exact ⟨rfl, rfl⟩
          · obtain ⟨read, -, rfl⟩ := Option.map_eq_some_iff.mp hm₁
            exact ⟨rfl, rfl⟩
        · cases h

theorem took_released {why : ReleaseReason} {how : How} (hdoc : DocOk log reads m.state) (hp : m.state.pending = some p)
    (hhow : how = .unresolved ∨ how = .operator ∧ why = .operator) :
    Took log reads asks m p (m.state.releasePending why) (some how) := by
  have hrec := released_recorded m.state p why hp
  have hcursor : (m.state.releasePending why).cursor = some p.event := by
    simp [ConsumerState.releasePending, ConsumerState.advancePastPending, hp]
  have hpending : (m.state.releasePending why).pending = none := by
    simp [ConsumerState.releasePending, ConsumerState.advancePastPending, hp]
  rcases hhow with rfl | ⟨rfl, rfl⟩
  · exact took_finished (hdoc p hp) hcursor hpending ⟨why, hrec⟩ trivial
  · exact took_finished (hdoc p hp) hcursor hpending hrec trivial

end

/-! ## One step -/

section
variable {σ : Sys} {i : Nat} {m : Mem} {p : PendingEvent} {next : ConsumerState} {how : Option How} {fate : CasRow.Fate}

theorem write_cases (σ : Sys) (i : Nat) (m : Mem) (p : PendingEvent) (next : ConsumerState) (how : Option How) (fate : CasRow.Fate) :
    (∃ out, σ.write i m p next how fate = { σ with passes := σ.passes.set i (.ended out) } ∧ out.counted = m.out.counted ∧
      out.eventsFinished = m.out.eventsFinished) ∨
    ∃ row', σ.row.write m.version { state := next, listed := m.listed } = some row' ∧ fate ≠ .lost ∧
      σ.write i m p next how fate = { σ with
        row := row'
        passes := σ.passes.set i (.persisted m p next how (if fate = .ran then .written row'.version else .faulted))
        moves := σ.moves ++ how.toList.map fun how =>
          { event := p.event, how := how, doc := next, listed := m.listed, counted := fate == .ran } } := by
  rcases CasRow.issue_cases σ.row m.version { state := next, listed := m.listed } fate with ⟨hnot, hissue⟩ | ⟨row', hw, hissue⟩
  · left
    have hlanded : (fate != .lost && (σ.row.write m.version { state := next, listed := m.listed }).isSome) = false := by
      rcases hnot with rfl | hnone
      · rfl
      · simp [hnone]
    rcases hissue with hissue | hissue
    · exact ⟨{ m.out with contended := m.out.contended + 1 }, by simp [Sys.write, hissue, hlanded, Pass.persisted], rfl, rfl⟩
    · exact ⟨{ m.out with errors := m.out.errors + 1 }, by simp [Sys.write, hissue, hlanded, Pass.persisted], rfl, rfl⟩
  · right
    refine ⟨row', hw, ?_⟩
    rcases hissue with ⟨rfl, hissue⟩ | ⟨rfl, hissue⟩
    · exact ⟨by simp, by simp [Sys.write, hissue, hw]⟩
    · exact ⟨by simp, by simp [Sys.write, hissue, hw]⟩

theorem inv_grown {P Q : Pass} (log : List (EventKey × Page)) (reads : List Listing) (asks : List Ask) (hinv : Inv σ) (hi : σ.passes[i]? = some P)
    (hok : PassOk (σ.log ++ log) (σ.reads ++ reads) (σ.asks ++ asks) σ.row Q) (hc : Q.out.counted = P.out.counted)
    (hf : Q.out.eventsFinished = P.out.eventsFinished) (hasks : ∀ k ∈ asks, k.feedTip = k.listed ∨ k.feedTip = none) :
    Inv { σ with passes := σ.passes.set i Q, log := σ.log ++ log, reads := σ.reads ++ reads, asks := σ.asks ++ asks } where
  doc := hinv.doc.mono (List.subset_append_left _ _)
  passes := forall_set (fun P hP => (hinv.passes P hP).mono (List.subset_append_left _ _) (List.subset_append_left _ _)) hok
  reached e he := hinv.reached e he.of_append
  ordered := hinv.ordered
  behind := hinv.behind
  finished mv hmv := (hinv.finished mv hmv).mono (List.subset_append_left _ _) (List.subset_append_left _ _)
  abreast mv hmv := (hinv.abreast mv hmv).mono (List.subset_append_left _ _)
  asked k hk := (List.mem_append.mp hk).elim (hinv.asked k) (hasks k)
  counts := forall_set hinv.counts (by simpa [hc, hf] using hinv.counts P (List.mem_of_getElem? hi))
  counted := by
    have hperm := flatMap_set (f := fun P : Pass => P.out.counted) (y := Q) (w := []) hi (by simp [hc])
    rw [List.append_nil] at hperm
    exact hperm.trans hinv.counted

theorem inv_ended {P : Pass} (out : PassSummary) (hinv : Inv σ) (hi : σ.passes[i]? = some P) (hc : out.counted = P.out.counted)
    (hf : out.eventsFinished = P.out.eventsFinished) : Inv { σ with passes := σ.passes.set i (.ended out) } := by
  simpa using inv_grown [] [] [] hinv hi (Q := .ended out) trivial hc hf (by simp)

theorem inv_turn (a : Answers) (hinv : Inv σ) (hi : σ.passes[i]? = some (.looping m)) : Inv (σ.turn i m a) := by
  have hok := hinv.passes _ (List.mem_of_getElem? hi)
  unfold Sys.turn
  cases hhand : m.inHand a.feed with
  | stopped out =>
    obtain ⟨hc, hf⟩ := inHand_over hhand
    simpa using inv_grown [] (m.newReads a.feed σ.cursor) [] hinv hi (Q := .ended out) trivial hc hf (by simp)
  | ceiling p why =>
    have hp := inHand_ceiling hhand
    obtain ⟨⟨base, hknows, hstate, -⟩, hdoc, hfeed⟩ := hok
    have htook : Took σ.log (σ.reads ++ m.newReads a.feed σ.cursor) σ.asks m p (m.state.releasePending why) (some .unresolved) :=
      took_released (hdoc.mono (List.Subset.refl _)) hp (.inl rfl)
    simpa using inv_grown [] (m.newReads a.feed σ.cursor) [] hinv hi (Q := .writing m p (m.state.releasePending why) (some .unresolved))
      (by simpa using ⟨⟨base, hknows, hstate⟩, hfeed.mono, htook⟩) rfl rfl (by simp)
  | event m' p =>
    obtain ⟨hsame, hfeed, hin, htip⟩ := inHand_event σ.cursor hok hhand
    obtain ⟨⟨base, hknows, hstate, -⟩, -, -⟩ := hok
    obtain ⟨out, next, how, hjudge, hc, hf, htook⟩ := judge_took σ.asks a hin htip
    have hP : PassOk (σ.log ++ (m'.judge p a).2.map (p.event, ·)) (σ.reads ++ m.newReads a.feed σ.cursor) (σ.asks ++ (m'.ask p a).toList) σ.row
        (m'.judge p a).1 := by
      rw [hjudge]
      exact ⟨⟨base, by rw [← hsame.version] at hknows; exact hknows, hstate.trans hsame.state.symm⟩, hfeed, htook⟩
    have hcounted : (m'.judge p a).1.out.counted = m.out.counted := by
      rw [hjudge]
      exact hc.trans hsame.counted
    have hfinished : (m'.judge p a).1.out.eventsFinished = m.out.eventsFinished := by
      rw [hjudge]
      exact hf.trans hsame.finished
    have hasked : ∀ k ∈ (m'.ask p a).toList, k.feedTip = k.listed ∨ k.feedTip = none := by
      intro k hk
      obtain ⟨canonical, -, tip, -, rfl⟩ : ∃ canonical, a.header = some canonical ∧ ∃ tip, a.tip = some tip ∧ _ = k := by
        simpa [Mem.ask, Option.bind_eq_some_iff] using hk
      exact htip
    exact inv_grown _ (m.newReads a.feed σ.cursor) _ hinv hi hP hcounted hfinished hasked

theorem inv_read {limits : PassLimits} {release fault : Bool} (hinv : Inv σ) :
    Inv { σ with passes := σ.passes ++ [if fault then .ended { errors := 1 } else σ.begin limits release] } := by
  have hbase : Holds σ.row { limits := limits, state := (σ.row.doc.getD {}).state, version := σ.row.version, listed := (σ.row.doc.getD {}).listed } :=
    ⟨_, σ.row.knows_read, rfl, fun _ => ⟨rfl, rfl⟩⟩
  have hfeed : FeedOk σ.reads none (σ.row.doc.getD {}).state.cursor := fun _ h => by cases h
  have hnew : PassOk σ.log σ.reads σ.asks σ.row (σ.begin limits release) ∧ (σ.begin limits release).out = {} := by
    unfold Sys.begin
    dsimp only
    split
    · rename_i p hp
      exact ⟨⟨⟨_, σ.row.knows_read, rfl⟩, hfeed, took_released hinv.doc hp (.inr ⟨rfl, rfl⟩)⟩, rfl⟩
    · exact ⟨⟨hbase, hinv.doc, hfeed⟩, rfl⟩
  have hlast : ∀ (P : Pass), PassOk σ.log σ.reads σ.asks σ.row P → P.out.counted = [] → P.out.eventsFinished = 0 → Inv { σ with passes := σ.passes ++ [P] } := by
    intro P hP hc hf
    refine { hinv with passes := ?_, counts := ?_, counted := ?_ }
    · intro Q hQ
      rcases List.mem_append.mp hQ with hQ | hQ
      · exact hinv.passes Q hQ
      · cases List.mem_singleton.mp hQ
        exact hP
    · intro Q hQ
      rcases List.mem_append.mp hQ with hQ | hQ
      · exact hinv.counts Q hQ
      · cases List.mem_singleton.mp hQ
        simp [hc, hf]
    · simpa [hc] using hinv.counted
  cases fault with
  | true => exact hlast _ trivial rfl rfl
  | false => exact hlast _ hnew.1 (by simp [hnew.2]) (by simp [hnew.2, PassSummary.eventsFinished])

theorem FeedOk.advance {reads : List Listing} {feed : Option (List EventKey)} (h : FeedOk reads feed c)
    (hafter : after c e = true) : FeedOk reads feed (some e) := by
  intro l hl
  obtain ⟨hsorted, hcover⟩ := h l hl
  refine ⟨hsorted, fun e' hc hafter' => hcover e' hc ?_⟩
  rw [after_iff] at hafter' ⊢
  intro k hk
  exact lt_trans (after_iff.mp hafter k hk) (hafter' e rfl)

variable {row' : CasRow Stored}

theorem landed_cursor (hinv : Inv σ) (hi : σ.passes[i]? = some (.writing m p next how))
    (hw : σ.row.write m.version { state := next, listed := m.listed } = some row') :
    σ.cursor = m.state.cursor ∧ (row'.doc.getD {}).state = next := by
  obtain ⟨⟨base, hknows, hstate⟩, -, -⟩ := hinv.passes _ (List.mem_of_getElem? hi)
  refine ⟨?_, ?_⟩
  · rw [Sys.cursor, hknows.base hw, hstate]
  · rw [(CasRow.write_version hw).1]
    rfl

theorem inv_kept {out : PassSummary} (hinv : Inv σ) (hi : σ.passes[i]? = some (.writing m p next none))
    (hw : σ.row.write m.version { state := next, listed := m.listed } = some row') (hc : out.counted = m.out.counted)
    (hf : out.eventsFinished = m.out.eventsFinished) :
    Inv { σ with row := row', passes := σ.passes.set i (.ended out) } := by
  obtain ⟨hcursor, hnext⟩ := landed_cursor hinv hi hw
  obtain ⟨-, -, htook⟩ := hinv.passes _ (List.mem_of_getElem? hi)
  have hsame : (row'.doc.getD {}).state.cursor = σ.cursor := by
    rw [hnext, hcursor]
    exact htook.cursor
  have hended := inv_ended out hinv hi hc hf
  refine { hended with doc := ?_, passes := ?_, reached := ?_, behind := ?_ }
  · change DocOk σ.log σ.reads (row'.doc.getD {}).state
    rw [hnext]
    exact htook.ok
  · exact fun P hP => (hended.passes P hP).written hw
  · intro e he hafter
    change after (row'.doc.getD {}).state.cursor e = false at hafter
    rw [hsame] at hafter
    exact hinv.reached e he hafter
  · intro mv hmv
    change after (row'.doc.getD {}).state.cursor mv.event = false
    rw [hsame]
    exact hinv.behind mv hmv

theorem inv_finished {h : How} {P' : Pass} {counted : Bool} (hinv : Inv σ)
    (hi : σ.passes[i]? = some (.writing m p next (some h))) (hw : σ.row.write m.version { state := next, listed := m.listed } = some row')
    (hok : FeedOk σ.reads m.feed (some p.event) → DocOk σ.log σ.reads next → PassOk σ.log σ.reads σ.asks row' P')
    (hc : P'.out.counted = m.out.counted ++ if counted then [p.event] else [])
    (hf : P'.out.eventsFinished = m.out.eventsFinished + if counted then 1 else 0) :
    Inv { σ with
      row := row'
      passes := σ.passes.set i P'
      moves := σ.moves ++ [{ event := p.event, how := h, doc := next, listed := m.listed, counted := counted }] } := by
  obtain ⟨hcursor, hnext⟩ := landed_cursor hinv hi hw
  obtain ⟨-, hfeed, htook⟩ := hinv.passes _ (List.mem_of_getElem? hi)
  have hmoved : (row'.doc.getD {}).state.cursor = some p.event := by
    rw [hnext]
    exact htook.cursor
  have hahead : after σ.cursor p.event = true := by
    rw [hcursor]
    exact htook.inHand.ahead
  have hbefore : ∀ mv ∈ σ.moves, mv.event < p.event := by
    intro mv hmv
    obtain ⟨k, hk, hle⟩ := after_false_iff.mp (hinv.behind mv hmv)
    exact lt_of_le_of_lt hle (after_iff.mp hahead k hk)
  refine ⟨?_, ?_, ?_, ?_, ?_, ?_, ?_, hinv.asked, ?_, ?_⟩
  · change DocOk σ.log σ.reads (row'.doc.getD {}).state
    rw [hnext]
    exact htook.ok
  · exact forall_set (fun P hP => (hinv.passes P hP).written hw) (hok (hfeed.advance htook.inHand.ahead) htook.ok)
  · intro e he hafter
    change after (row'.doc.getD {}).state.cursor e = false at hafter
    rw [hmoved] at hafter
    obtain ⟨k, hk, hle⟩ := after_false_iff.mp hafter
    cases hk
    cases hold : after σ.cursor e with
    | false =>
      obtain ⟨mv, hmv, heq⟩ := hinv.reached e he hold
      exact ⟨mv, List.mem_append_left _ hmv, heq⟩
    | true =>
      rw [hcursor] at hold
      exact ⟨_, List.mem_append_right _ (List.mem_singleton.mpr rfl), le_antisymm (htook.inHand.first e he hold) hle⟩
  · refine List.pairwise_append.mpr ⟨hinv.ordered, List.pairwise_singleton _ _, ?_⟩
    intro mv hmv mv' hmv'
    cases List.mem_singleton.mp hmv'
    exact hbefore mv hmv
  · intro mv hmv
    change after (row'.doc.getD {}).state.cursor mv.event = false
    rw [hmoved, after_false_iff]
    refine ⟨p.event, rfl, ?_⟩
    rcases List.mem_append.mp hmv with hmv | hmv
    · exact le_of_lt (hbefore mv hmv)
    · cases List.mem_singleton.mp hmv
      exact le_refl _
  · intro mv hmv
    rcases List.mem_append.mp hmv with hmv | hmv
    · exact hinv.finished mv hmv
    · cases List.mem_singleton.mp hmv
      exact htook.finished h rfl
  · intro mv hmv
    rcases List.mem_append.mp hmv with hmv | hmv
    · exact hinv.abreast mv hmv
    · cases List.mem_singleton.mp hmv
      exact htook.abreast h rfl
  · refine forall_set hinv.counts ?_
    have := hinv.counts _ (List.mem_of_getElem? hi)
    simp only [Pass.out] at this
    rw [hc, hf, this, List.length_append]
    cases counted <;> rfl
  · have hperm := flatMap_set (f := fun P : Pass => P.out.counted) (y := P') hi hc
    refine hperm.trans ?_
    rw [List.filter_append, List.map_append]
    refine (List.Perm.append_right _ hinv.counted).trans ?_
    cases counted <;> rfl

theorem inv_write (fate : CasRow.Fate) (hinv : Inv σ) (hi : σ.passes[i]? = some (.writing m p next how)) :
    Inv (σ.write i m p next how fate) := by
  rcases write_cases σ i m p next how fate with ⟨out, heq, hc, hf⟩ | ⟨row', hw, hlost, heq⟩
  · rw [heq]
    exact inv_ended out hinv hi hc hf
  · rw [heq]
    cases how with
    | none =>
      simp only [Option.toList_none, List.map_nil, List.append_nil]
      cases fate with
      | ran => exact inv_kept hinv hi hw rfl rfl
      | lost => exact (hlost rfl).elim
      | landed => exact inv_kept hinv hi hw rfl rfl
    | some h =>
      have hread : row'.Knows row'.version row'.doc := row'.knows_read
      have hnext : (row'.doc.getD {}).state = next := (landed_cursor hinv hi hw).2
      obtain ⟨-, -, htook⟩ := hinv.passes _ (List.mem_of_getElem? hi)
      have looping {m' : Mem} (hstate : m'.state = next) (hversion : m'.version = row'.version) (hfeed : m'.feed = m.feed)
          (hcovered : FeedOk σ.reads m.feed (some p.event)) (hdoc : DocOk σ.log σ.reads next) :
          PassOk σ.log σ.reads σ.asks row' (.looping m') := by
        refine ⟨⟨row'.doc, hversion ▸ hread, hnext.trans hstate.symm, fun hne => ?_⟩, hstate ▸ hdoc, ?_⟩
        · rw [hstate, htook.pending rfl] at hne
          exact (hne rfl).elim
        · rw [hfeed, hstate, show next.cursor = some p.event from htook.cursor]
          exact hcovered
      cases fate with
      | lost => exact (hlost rfl).elim
      | landed => exact inv_finished hinv hi hw (fun _ _ => trivial) (by simp [Pass.persisted, Pass.out]) (by simp [Pass.persisted, Pass.out, PassSummary.eventsFinished])
      | ran =>
        cases h with
        | operator =>
          exact inv_finished hinv hi hw (looping rfl rfl rfl) rfl (by simp [Pass.persisted, Pass.out, PassSummary.eventsFinished, PassSummary.count]; omega)
        | applied =>
          exact inv_finished hinv hi hw (looping rfl rfl rfl) rfl (by simp [Pass.persisted, Pass.out, PassSummary.eventsFinished, PassSummary.count]; omega)
        | skipped tip lagTolerance =>
          exact inv_finished hinv hi hw (looping rfl rfl rfl) rfl (by simp [Pass.persisted, Pass.out, PassSummary.eventsFinished, PassSummary.count]; omega)
        | unresolved =>
          exact inv_finished hinv hi hw (looping rfl rfl rfl) rfl (by simp [Pass.persisted, Pass.out, PassSummary.eventsFinished, PassSummary.count]; omega)

variable {σ' : Sys}

theorem inv_step {a : Act} (hinv : Inv σ) (h : σ.step a = some σ') : Inv σ' := by
  cases a with
  | read limits release fault =>
    cases h
    exact inv_read hinv
  | turn i a =>
    simp only [Sys.step] at h
    split at h
    · rename_i m hi
      cases h
      exact inv_turn a hinv hi
    · cases h
  | write i fate =>
    simp only [Sys.step] at h
    split at h
    · rename_i m p next how hi
      cases h
      exact inv_write fate hinv hi
    · cases h

variable {acts : List Act}

theorem inv_run (hinv : Inv σ) (h : σ.run acts = some σ') : Inv σ' := by
  induction acts generalizing σ with
  | nil =>
    cases h
    exact hinv
  | cons a acts ih =>
    obtain ⟨σ₁, hstep, hrest⟩ := Option.bind_eq_some_iff.mp h
    exact ih (inv_step hinv hstep) hrest

theorem inv_start : Inv {} where
  doc := fun _ h => by cases h
  passes := fun _ h => by cases h
  reached := fun _ _ h => by cases h
  ordered := .nil
  behind := fun _ h => by cases h
  finished := fun _ h => by cases h
  abreast := fun _ h => by cases h
  asked := fun _ h => by cases h
  counts := fun _ h => by cases h
  counted := .nil

/-! ## The stored cursor -/

/-- The write that moves the stored cursor: of a pass with `p` in hand, to `p`. -/
def Moves (σ σ' : Sys) (a : Act) : Prop :=
  ∃ i fate m p next h, a = .write i fate ∧ fate ≠ .lost ∧ σ.passes[i]? = some (.writing m p next (some h)) ∧ after σ.cursor p.event = true ∧
    σ'.cursor = some p.event ∧
    σ'.moves = σ.moves ++ [{ event := p.event, how := h, doc := next, listed := m.listed, counted := fate == .ran }]

theorem step_moves {a : Act} (hinv : Inv σ) (h : σ.step a = some σ') :
    (σ'.cursor = σ.cursor ∧ σ'.moves = σ.moves) ∨ Moves σ σ' a := by
  cases a with
  | read limits release fault =>
    cases h
    exact .inl ⟨rfl, rfl⟩
  | turn i a =>
    simp only [Sys.step] at h
    split at h
    · rename_i m hi
      cases h
      unfold Sys.turn
      dsimp only
      split <;> exact .inl ⟨rfl, rfl⟩
    · cases h
  | write i fate =>
    simp only [Sys.step] at h
    split at h
    · rename_i m p next how hi
      cases h
      rcases write_cases σ i m p next how fate with ⟨out, heq, -, -⟩ | ⟨row', hw, hlost, heq⟩
      · rw [heq]
        exact .inl ⟨rfl, rfl⟩
      · rw [heq]
        obtain ⟨hcursor, hnext⟩ := landed_cursor hinv hi hw
        obtain ⟨-, -, htook⟩ := hinv.passes _ (List.mem_of_getElem? hi)
        have hto : (row'.doc.getD {}).state.cursor = if how.isSome then some p.event else m.state.cursor := by
          rw [hnext]
          exact htook.cursor
        cases how with
        | none => exact .inl ⟨hto.trans hcursor.symm, by simp⟩
        | some h => exact .inr ⟨i, fate, m, p, next, h, rfl, hlost, hi, hcursor ▸ htook.inHand.ahead, hto, by simp⟩
    · cases h

theorem run_cursor (hinv : Inv σ) (h : σ.run acts = some σ') {k : EventKey} (hk : σ.cursor = some k) :
    ∃ k', σ'.cursor = some k' ∧ k ≤ k' := by
  induction acts generalizing σ k with
  | nil =>
    cases h
    exact ⟨k, hk, le_refl _⟩
  | cons a acts ih =>
    obtain ⟨σ₁, hstep, hrest⟩ := Option.bind_eq_some_iff.mp h
    rcases step_moves hinv hstep with ⟨hsame, -⟩ | ⟨_, _, _, p, _, _, -, -, -, hafter, hto, -⟩
    · exact ih (inv_step hinv hstep) hrest (hsame.trans hk)
    · obtain ⟨k', hk', hle⟩ := ih (inv_step hinv hstep) hrest hto
      exact ⟨k', hk', le_trans (le_of_lt (after_iff.mp hafter k hk)) hle⟩

theorem moves_counted (hinv : Inv σ) (h : σ.run acts = some σ') (hacts : ∀ i, Act.write i .landed ∉ acts)
    (hmoves : ∀ mv ∈ σ.moves, mv.counted = true) : ∀ mv ∈ σ'.moves, mv.counted = true := by
  induction acts generalizing σ with
  | nil =>
    cases h
    exact hmoves
  | cons a acts ih =>
    obtain ⟨σ₁, hstep, hrest⟩ := Option.bind_eq_some_iff.mp h
    refine ih (inv_step hinv hstep) hrest (fun i hi => hacts i (List.mem_cons_of_mem _ hi)) ?_
    rcases step_moves hinv hstep with ⟨-, hsame⟩ | ⟨i, fate, _, p, _, _, rfl, hlost, -, -, -, hadd⟩
    · rw [hsame]
      exact hmoves
    · intro mv hmv
      rw [hadd] at hmv
      rcases List.mem_append.mp hmv with hmv | hmv
      · exact hmoves mv hmv
      · cases List.mem_singleton.mp hmv
        cases fate with
        | ran => rfl
        | lost => exact (hlost rfl).elim
        | landed => exact (hacts i (List.mem_cons_self ..)).elim

/-- In every state the cursor has not gone back, every event that the listings covered is finished once the cursor is at or past
it, and where no faulting write landed the passes' counters name each move once. -/
theorem consumer_loses_no_event (acts acts' : List Act) {σ σ' : Sys} (hrun : Sys.run {} acts = some σ) (hrun' : σ.run acts' = some σ') :
    (∀ k, σ.cursor = some k → ∃ k', σ'.cursor = some k' ∧ k ≤ k') ∧
    (∀ a τ, σ'.step a = some τ → (τ.cursor = σ'.cursor ∧ τ.moves = σ'.moves) ∨ Moves σ' τ a) ∧
    (∀ e, Covered σ'.reads e → after σ'.cursor e = false → ∃ mv ∈ σ'.moves, mv.event = e ∧ Finished σ'.log σ'.asks e mv.doc mv.how) ∧
    σ'.moves.Pairwise (fun a b => a.event < b.event) ∧
    ((∀ i, Act.write i .landed ∉ acts ++ acts') →
      (σ'.passes.flatMap fun P => P.out.counted).Perm (σ'.moves.map Move.event) ∧
      (σ'.passes.map fun P => P.out.eventsFinished).sum = σ'.moves.length) := by
  have hinv : Inv σ := inv_run inv_start hrun
  have hinv' : Inv σ' := inv_run hinv hrun'
  refine ⟨fun k hk => run_cursor hinv hrun' hk, fun a τ hstep => step_moves hinv' hstep, fun e he hafter => ?_, hinv'.ordered, fun hacts => ?_⟩
  · obtain ⟨mv, hmv, rfl⟩ := hinv'.reached e he hafter
    exact ⟨mv, hmv, rfl, hinv'.finished mv hmv⟩
  · have hbefore : ∀ mv ∈ σ.moves, mv.counted = true :=
      moves_counted inv_start hrun (fun i hi => hacts i (List.mem_append_left _ hi)) (by simp)
    have hall : ∀ mv ∈ σ'.moves, mv.counted = true := moves_counted hinv hrun' (fun i hi => hacts i (List.mem_append_right _ hi)) hbefore
    have hperm : (σ'.passes.flatMap fun P => P.out.counted).Perm (σ'.moves.map Move.event) := by
      have := hinv'.counted
      rwa [List.filter_eq_self.mpr hall] at this
    have hlengths : σ'.passes.map (fun P => P.out.eventsFinished) = σ'.passes.map (fun P => P.out.counted.length) :=
      List.map_congr_left hinv'.counts
    refine ⟨hperm, ?_⟩
    rw [hlengths, ← List.length_flatMap, hperm.length_eq, List.length_map]

end

def orphanHash : String := "0000000000000000153e10f465dba9697e4bde364fdf3a3224a736b019ffbfb1"
def canonicalHash : String := "00000000000000001de5aa96baa3566ce66e4941f8295cc44cc85fc75949db4d"

def firstOrphan : EventKey := { orphanedAt := "2026-09-07T22:40:00.000Z", height := 965769, hash := orphanHash }
def orphan : EventKey := { orphanedAt := "2026-09-07T22:41:00.000Z", height := 965771, hash := orphanHash }
def lastOrphan : EventKey := { orphanedAt := "2026-09-07T22:42:00.000Z", height := 965773, hash := orphanHash }

/-- The listing names `events` under `newest`; chaintracks holds `canonical` at the height, with its tip at 965780. -/
def answered (events : List EventKey) (newest : Nat) (canonical : String) : Answers :=
  { feed := some { events := events, newestHeight := some newest }
    header := some (some canonical)
    tip := some 965780
    legs := { spenders := { exhausted := true }, potBeefs := { exhausted := true }, transactions := { exhausted := true } } }

/-- One pass over `orphan`. -/
def onePass (a : Answers) : List Act := [.read {} false false, .turn 0 a, .write 0 .ran]

def goneRun : List Act :=
  [.read { eventsPerPass := 1 } false false, .turn 0 (answered [orphan, firstOrphan] 965780 orphanHash), .write 0 .ran,
   .read {} false false, .turn 1 (answered [lastOrphan] 965780 orphanHash), .write 1 .ran]

def laggingRun : List Act :=
  onePass (answered [orphan] 965790 orphanHash) ++ [.read {} false false, .turn 1 (answered [orphan] 965790 orphanHash), .write 1 .ran]

def Move.lags (mv : Move) : Bool := match mv.how with
  | .skipped tip lagTolerance => mv.listed.any fun n => decide (tip + lagTolerance < n)
  | _ => false

theorem onePass_ends : (Sys.run {} (onePass (answered [orphan] 965780 canonicalHash))).any
    (fun σ => decide (σ.cursor = some orphan) && σ.reads.all fun r => decide (orphan ∈ r.events)) = true := by decide

theorem goneRun_ends : (Sys.run {} goneRun).any (fun σ => decide (σ.cursor = some lastOrphan) &&
    (σ.reads.any fun r => decide (orphan ∈ r.events) && after r.stored orphan) && σ.moves.all fun mv => decide (mv.event ≠ orphan)) = true := by
  decide

theorem orphanPass_ends : (Sys.run {} (onePass (answered [orphan] 965780 orphanHash))).any
    (fun σ => (σ.asks.all fun k => k.feedTip.isSome) && σ.moves.any fun mv => decide (mv.listed = some 965780)) = true := by decide

theorem laggingRun_ends : (Sys.run {} laggingRun).any (fun σ => σ.moves.any Move.lags) = true := by decide

theorem consumer_loses_no_event_applied : ∃ σ, Sys.run {} (onePass (answered [orphan] 965780 canonicalHash)) = some σ ∧
    ∃ mv ∈ σ.moves, mv.event = orphan ∧ Finished σ.log σ.asks orphan mv.doc mv.how := by
  obtain ⟨σ, hσ, hfacts⟩ := (Option.any_eq_true _ _).mp onePass_ends
  simp only [Bool.and_eq_true, decide_eq_true_eq, List.all_eq_true] at hfacts
  have hreached : after σ.cursor orphan = false := after_false_iff.mpr ⟨orphan, hfacts.1, le_refl _⟩
  exact ⟨σ, hσ, (consumer_loses_no_event _ [] hσ rfl).2.2.1 orphan (fun r hr _ _ => hfacts.2 r hr) hreached⟩

theorem gone_run_passes_event : ¬∀ (acts : List Act) (σ : Sys) (e : EventKey), Sys.run {} acts = some σ →
    (∃ r ∈ σ.reads, e ∈ r.events ∧ after r.stored e = true) → after σ.cursor e = false → ∃ mv ∈ σ.moves, mv.event = e := by
  intro h
  obtain ⟨σ, hσ, hfacts⟩ := (Option.any_eq_true _ _).mp goneRun_ends
  simp only [Bool.and_eq_true, decide_eq_true_eq, List.all_eq_true, List.any_eq_true] at hfacts
  obtain ⟨⟨hcursor, hread⟩, hmoves⟩ := hfacts
  have hreached : after σ.cursor orphan = false := after_false_iff.mpr ⟨lastOrphan, hcursor, by decide⟩
  obtain ⟨mv, hmv, heq⟩ := h goneRun σ orphan hσ hread hreached
  exact hmoves mv hmv heq

/-! ## Lag -/

section
variable {σ : Sys}

theorem lagging_iff {k : Ask} : k.verdict k.feedTip = .trackerLagging ↔ ∃ n, k.feedTip = some n ∧ saturatingAdd 64 k.tip k.limits.lagTolerance < n := by
  unfold Ask.verdict classifyCorroboration
  constructor
  · intro h
    split at h
    · rename_i hlag
      obtain ⟨n, hn, hlt⟩ := (Option.any_eq_true _ _).mp hlag
      exact ⟨n, hn, by simpa using hlt⟩
    · split at h
      · cases h
      · split at h <;> cases h
  · rintro ⟨n, hn, hlt⟩
    rw [if_pos (by simp [hn, hlt])]

/-- Where every verdict of a pass that has not read the feed meets the condition, no event is skipped while the header source
lags the listing the event was taken up from; one held as lagging is not skipped later at the same tip. -/
theorem no_skip_while_lagging (acts : List Act) {σ : Sys} (hrun : Sys.run {} acts = some σ) (hmeets : ∀ k ∈ σ.asks, k.Meets) :
    (∀ mv ∈ σ.moves, ∀ tip lagTolerance, mv.how = .skipped tip lagTolerance → ∀ n, mv.listed = some n → n ≤ tip + lagTolerance) ∧
    ∀ k ∈ σ.asks, ∀ k' ∈ σ.asks, k.verdict k.feedTip = .trackerLagging → k'.tip = k.tip → k'.limits = k.limits → k'.listed = k.listed →
      k'.verdict k'.feedTip ≠ .uncorroborated := by
  have hinv : Inv σ := inv_run inv_start hrun
  refine ⟨fun mv hmv tip lagTolerance hhow => ?_, fun k hk k' hk' hlag htip hlimits hlisted hskip => ?_⟩
  · have habreast := hinv.abreast mv hmv
    rw [hhow] at habreast
    exact habreast hmeets
  · obtain ⟨n, hn, hlt⟩ := lagging_iff.mp hlag
    have hfrom : k'.listed = some n := by
      rcases hinv.asked k hk with h | h
      · rw [hlisted, ← h, hn]
      · rw [h] at hn
        cases hn
    rw [← htip, ← hlimits] at hlt
    rcases hinv.asked k' hk' with h | h
    · have hlag' := lagging_iff.mpr ⟨n, h.trans hfrom, hlt⟩
      exact Corroboration.noConfusion (hlag'.symm.trans hskip)
    · rw [h] at hskip
      exact hmeets k' hk' h n hfrom hlt hskip

end

theorem no_skip_while_lagging_abreast : ∃ σ, Sys.run {} (onePass (answered [orphan] 965780 orphanHash)) = some σ ∧
    ∃ mv ∈ σ.moves, mv.listed = some 965780 ∧ ∀ tip lagTolerance, mv.how = .skipped tip lagTolerance → 965780 ≤ tip + lagTolerance := by
  obtain ⟨σ, hσ, hfacts⟩ := (Option.any_eq_true _ _).mp orphanPass_ends
  simp only [Bool.and_eq_true, List.all_eq_true, List.any_eq_true, decide_eq_true_eq] at hfacts
  have hmeets : ∀ k ∈ σ.asks, k.Meets := by
    intro k hk hnone
    have hsome := hfacts.1 k hk
    rw [hnone] at hsome
    cases hsome
  obtain ⟨mv, hmv, hlisted⟩ := hfacts.2
  exact ⟨σ, hσ, mv, hmv, hlisted, fun tip lagTolerance hhow => (no_skip_while_lagging _ hσ hmeets).1 mv hmv tip lagTolerance hhow _ hlisted⟩

theorem lagging_run_skips : ¬∀ (acts : List Act) (σ : Sys), Sys.run {} acts = some σ → ∀ mv ∈ σ.moves, ∀ tip lagTolerance,
    mv.how = .skipped tip lagTolerance → ∀ n, mv.listed = some n → n ≤ tip + lagTolerance := by
  intro h
  obtain ⟨σ, hσ, hfacts⟩ := (Option.any_eq_true _ _).mp laggingRun_ends
  obtain ⟨mv, hmv, hlags⟩ := List.any_eq_true.mp hfacts
  unfold Move.lags at hlags
  split at hlags
  · rename_i tip lagTolerance hhow
    obtain ⟨n, hn, hlt⟩ := (Option.any_eq_true _ _).mp hlags
    have := h laggingRun σ hσ mv hmv tip lagTolerance hhow n hn
    simp only [decide_eq_true_eq] at hlt
    omega
  · cases hlags

end OverlayEngine.ArcadeReorg
