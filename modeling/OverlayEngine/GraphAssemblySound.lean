import Mathlib.Algebra.Order.BigOperators.Group.List
import Mathlib.Algebra.Order.Group.Nat
import Mathlib.Data.List.Dedup
import OverlayEngine.GraphAssembly

/-!
# What a checked node's BEEF holds

A node that a check has passed has all its sources checked too, and then its
BEEF is collected as the plain recursion over the pending nodes says. An open
cycle cuts a check short: a node on it is marked before what the cycle leads to
has been seen, which stays sound only where all of that assembles.
-/

namespace OverlayEngine.GraphAssembly

open NodeTexts (Text PendingNode outpointText)
open Relation (ReflTransGen TransGen)

variable {Proof : Type} (sdk : Sdk Proof) (refs : Refs)

/-! ## The pending nodes as a graph -/

/-- The node of `key` takes a source from that of `source`. -/
def Link (key source : Text) : Prop := ∃ n, nodeOf sdk refs key = .ok n ∧ some source ∈ n.sources

def Reach : Text → Text → Prop := ReflTransGen (Link sdk refs)

/-- A node parses, and under `strict` lacks no source. -/
def Assembles (strict : Bool) (key : Text) : Prop := ∃ n, nodeOf sdk refs key = .ok n ∧ (strict = true → none ∉ n.sources)

/-- All that a cycle of source links leads to assembles, for the cycles that `key` reaches. -/
def CyclesAssemble (key : Text) (strict : Bool) : Prop :=
  ∀ y, Reach sdk refs key y → TransGen (Link sdk refs) y y → ∀ z, Reach sdk refs y z → Assembles sdk refs strict z

/-- The plain recursion over keys: `inside` the txids being collected, then those collected before and after. -/
inductive Collects : List Text → List (AssemblyNode Proof) → List Text → List (AssemblyNode Proof) → Prop where
  | nil (inside : List Text) (acc : List (AssemblyNode Proof)) : Collects inside acc [] acc
  | again {inside : List Text} {acc out : List (AssemblyNode Proof)} {key : Text} {keys : List Text} {n : AssemblyNode Proof} :
      nodeOf sdk refs key = .ok n → n.parsed.id ∈ inside ∨ n.parsed.id ∈ acc.map (·.parsed.id) → Collects inside acc keys out →
      Collects inside acc (key :: keys) out
  | proven {inside : List Text} {acc out : List (AssemblyNode Proof)} {key : Text} {keys : List Text} {n : AssemblyNode Proof} :
      nodeOf sdk refs key = .ok n → n.parsed.id ∉ inside → n.parsed.id ∉ acc.map (·.parsed.id) → n.proof.isSome = true →
      Collects inside (acc ++ [n]) keys out → Collects inside acc (key :: keys) out
  | unproven {inside : List Text} {acc mid out : List (AssemblyNode Proof)} {key : Text} {keys : List Text} {n : AssemblyNode Proof} :
      nodeOf sdk refs key = .ok n → n.parsed.id ∉ inside → n.parsed.id ∉ acc.map (·.parsed.id) → n.proof = none →
      Collects (n.parsed.id :: inside) acc (n.sources.reverse.filterMap id) mid → Collects inside (mid ++ [n]) keys out →
      Collects inside acc (key :: keys) out

def DistinctRaws : Prop :=
  ∀ k k' p p' raw raw', refs.lookup k = some p → refs.lookup k' = some p' → sdk.fromHex p.node.rawTx = .ok raw →
    sdk.fromHex p'.node.rawTx = .ok raw' → sdk.sha256 raw = sdk.sha256 raw' → raw = raw'

/-- After the calls, a node that one of them passed collects what the recursion does: each txid once, each source link finding its node, and
under `strict` no unproven node lacks a source. -/
def ChecksSound (calls : List (Text × Bool)) : Prop :=
  ∃ answers a, checks sdk refs calls {} = some (answers, a) ∧ ∀ (i : Nat) (key : Text) (strict : Bool), calls[i]? = some (key, strict) →
    answers[i]? = some (.ok ()) → ∃ c, collect sdk a key = some c ∧ Collects sdk refs [] [] [key] c.ancestors ∧
      (∀ out, Collects sdk refs [] [] [key] out → out = c.ancestors) ∧ (c.ancestors.map (·.parsed.id)).Nodup ∧
      ∀ n ∈ c.ancestors, n.proof = none → (∀ source, some source ∈ n.sources → ∃ m, a.nodes.lookup source = some m) ∧
        (strict = true → none ∉ n.sources)

variable {sdk refs}

/-! ## The caches -/

def txOf (sdk : Sdk Proof) (refs : Refs) (key : Text) : Except String NodeTexts.Tx := (parsedTx sdk refs {} key).1

variable {key : Text}

theorem txOf_of {p : PendingNode} {raw : Bytes} (hp : refs.lookup key = some p) (hraw : sdk.fromHex p.node.rawTx = .ok raw) :
    txOf sdk refs key = (sdk.fromBinary raw).mapError (unparsedTx key) := by
  simp only [txOf, parsedTx, AList.lookup_empty, hp, hraw]
  cases sdk.fromBinary raw <;> rfl

theorem nodeOf_eq (key : Text) : nodeOf sdk refs key =
    (txOf sdk refs key).bind fun tx => (proofOf sdk refs key).map fun proof => ⟨tx, proof, sourcesOf refs tx proof⟩ := by
  simp only [nodeOf, node, AList.lookup_empty, txOf]
  rcases parsedTx sdk refs {} key with ⟨e | tx, a⟩
  · rfl
  · dsimp only
    cases proofOf sdk refs key <;> rfl

structure Coherent (sdk : Sdk Proof) (refs : Refs) (a : Assembly Proof) : Prop where
  txs : ∀ d tx, a.txs.lookup d = some tx → ∃ k p raw, refs.lookup k = some p ∧ sdk.fromHex p.node.rawTx = .ok raw ∧ sdk.sha256 raw = d ∧
    sdk.fromBinary raw = .ok tx
  parsed : ∀ k tx, a.parsed.lookup k = some tx → txOf sdk refs k = .ok tx
  nodes : ∀ k n, a.nodes.lookup k = some n → nodeOf sdk refs k = .ok n

theorem coherent_empty : Coherent sdk refs {} where
  txs d tx h := by cases h
  parsed k tx h := by cases h
  nodes k n h := by cases h

variable {a : Assembly Proof}

theorem parsedTx_spec (hraws : DistinctRaws sdk refs) (ha : Coherent sdk refs a) (key : Text) :
    ∃ a', parsedTx sdk refs a key = (txOf sdk refs key, a') ∧ Coherent sdk refs a' ∧ a'.nodes = a.nodes ∧ a'.checked = a.checked := by
  cases hparsed : a.parsed.lookup key with
  | some tx => exact ⟨a, by simp only [parsedTx, hparsed, ha.parsed key tx hparsed], ha, rfl, rfl⟩
  | none =>
    cases hp : refs.lookup key with
    | none => exact ⟨a, by simp [txOf, parsedTx, hparsed, hp], ha, rfl, rfl⟩
    | some p =>
      cases hraw : sdk.fromHex p.node.rawTx with
      | error e => exact ⟨a, by simp [txOf, parsedTx, hparsed, hp, hraw], ha, rfl, rfl⟩
      | ok raw =>
        have hkept {tx : NodeTexts.Tx} (htx : txOf sdk refs key = .ok tx) (k : Text) (tx' : NodeTexts.Tx)
            (hk : (a.parsed.insert key tx).lookup k = some tx') : txOf sdk refs k = .ok tx' := by
          by_cases hkey : k = key
          · subst hkey
            rw [AList.lookup_insert] at hk
            cases hk
            exact htx
          · rw [AList.lookup_insert_ne hkey] at hk
            exact ha.parsed k tx' hk
        cases hknown : a.txs.lookup (sdk.sha256 raw) with
        | some tx =>
          obtain ⟨k, p', raw', hp', hraw', hsha, htx⟩ := ha.txs _ _ hknown
          have hsame : raw' = raw := hraws k key p' p raw' raw hp' hp hraw' hraw hsha
          have hof : txOf sdk refs key = .ok tx := by
            rw [txOf_of hp hraw, ← hsame, htx]
            rfl
          exact ⟨{ a with parsed := a.parsed.insert key tx }, by simp only [parsedTx, hparsed, hp, hraw, hknown, hof],
            ⟨ha.txs, hkept hof, ha.nodes⟩, rfl, rfl⟩
        | none =>
          cases htx : sdk.fromBinary raw with
          | error e => exact ⟨a, by simp only [parsedTx, hparsed, hp, hraw, hknown, htx, txOf_of hp hraw]; rfl, ha, rfl, rfl⟩
          | ok tx =>
            have hof : txOf sdk refs key = .ok tx := by
              rw [txOf_of hp hraw, htx]
              rfl
            refine ⟨{ a with txs := a.txs.insert (sdk.sha256 raw) tx, parsed := a.parsed.insert key tx },
              by simp only [parsedTx, hparsed, hp, hraw, hknown, htx, hof], ⟨fun d tx' hd => ?_, hkept hof, ha.nodes⟩, rfl, rfl⟩
            by_cases hsha : d = sdk.sha256 raw
            · subst hsha
              rw [AList.lookup_insert] at hd
              cases hd
              exact ⟨key, p, raw, hp, hraw, rfl, htx⟩
            · rw [AList.lookup_insert_ne hsha] at hd
              exact ha.txs d tx' hd

theorem node_spec (hraws : DistinctRaws sdk refs) (ha : Coherent sdk refs a) (key : Text) :
    ∃ a', node sdk refs a key = (nodeOf sdk refs key, a') ∧ Coherent sdk refs a' ∧ a'.checked = a.checked ∧
      (∀ k n, a.nodes.lookup k = some n → a'.nodes.lookup k = some n) ∧ ∀ n, nodeOf sdk refs key = .ok n → a'.nodes.lookup key = some n := by
  unfold node
  cases hheld : a.nodes.lookup key with
  | some n =>
    have hof := ha.nodes key n hheld
    refine ⟨a, by rw [hof], ha, rfl, fun _ _ h => h, fun m hm => ?_⟩
    rw [hof] at hm
    cases hm
    exact hheld
  | none =>
    obtain ⟨a', hparsed, ha', hnodes, hchecked⟩ := parsedTx_spec hraws ha key
    dsimp only
    rw [hparsed]
    cases htx : txOf sdk refs key with
    | error e =>
      have hof : nodeOf sdk refs key = .error e := by
        rw [nodeOf_eq, htx]
        rfl
      exact ⟨a', by rw [hof], ha', hchecked, fun k n h => hnodes ▸ h, fun n hn => by rw [hof] at hn; cases hn⟩
    | ok tx =>
      dsimp only
      cases hproof : proofOf sdk refs key with
      | error e =>
        have hof : nodeOf sdk refs key = .error e := by
          rw [nodeOf_eq, htx, hproof]
          rfl
        exact ⟨a', by rw [hof], ha', hchecked, fun k n h => hnodes ▸ h, fun n hn => by rw [hof] at hn; cases hn⟩
      | ok proof =>
        have hof : nodeOf sdk refs key = .ok ⟨tx, proof, sourcesOf refs tx proof⟩ := by
          rw [nodeOf_eq, htx, hproof]
          rfl
        refine ⟨{ a' with nodes := a'.nodes.insert key ⟨tx, proof, sourcesOf refs tx proof⟩ }, by rw [hof],
          ⟨ha'.txs, ha'.parsed, fun k n hk => ?_⟩, hchecked, fun k n hk => ?_, fun n hn => ?_⟩
        · by_cases hkey : k = key
          · subst hkey
            rw [AList.lookup_insert] at hk
            cases hk
            exact hof
          · rw [AList.lookup_insert_ne hkey] at hk
            exact ha'.nodes k n hk
        · have hkey : k ≠ key := fun h => by
            rw [h, hheld] at hk
            cases hk
          rw [AList.lookup_insert_ne hkey, hnodes]
          exact hk
        · rw [hof] at hn
          cases hn
          exact AList.lookup_insert _

/-! ## One check -/

section
variable {strict : Bool} {root : Text}

/-- Where `inside` is open: a marked node is held and assembles, and each of its sources is marked, or open and the node on a cycle. -/
def Half (sdk : Sdk Proof) (refs : Refs) (strict : Bool) (root : Text) (a : Assembly Proof) (inside : List Text) : Prop :=
  ∀ x b, (x, b) ∈ a.checked → ∃ n, a.nodes.lookup x = some n ∧ (b = true → none ∉ n.sources) ∧ ∀ z, some z ∈ n.sources →
    (z, b) ∈ a.checked ∨ b = strict ∧ z ∈ inside ∧ Reach sdk refs root x ∧ TransGen (Link sdk refs) x x

theorem Half.mono {a a' : Assembly Proof} {inside inside' : List Text} (h : Half sdk refs strict root a inside) (hchecked : a'.checked = a.checked)
    (hnodes : ∀ k n, a.nodes.lookup k = some n → a'.nodes.lookup k = some n) (hin : ∀ x ∈ inside, x ∈ inside') :
    Half sdk refs strict root a' inside' := by
  intro x b hx
  rw [hchecked] at hx ⊢
  obtain ⟨n, hn, hwhole, hsources⟩ := h x b hx
  exact ⟨n, hnodes x n hn, hwhole, fun z hz => (hsources z hz).imp_right fun ⟨hb, hz, hrest⟩ => ⟨hb, hin z hz, hrest⟩⟩

/-- What visiting `ys` has done: each is marked or was open; or a node was reached that does not assemble, from each node opened since. -/
def Outcome (sdk : Sdk Proof) (refs : Refs) (strict : Bool) (root : Text) (s : Checking Proof) (ys : List Text) :
    Except (String × Assembly Proof) (Checking Proof) → Prop
  | .ok s' => Coherent sdk refs s'.assembly ∧ Half sdk refs strict root s'.assembly s'.inside ∧ s'.inside = s.inside ∧
      (∀ c ∈ s.assembly.checked, c ∈ s'.assembly.checked) ∧
      (∀ k n, s.assembly.nodes.lookup k = some n → s'.assembly.nodes.lookup k = some n) ∧
      ∀ y ∈ ys, (y, strict) ∈ s'.assembly.checked ∨ y ∈ s.inside
  | .error (_, a) => Coherent sdk refs a ∧ (∀ c ∈ s.assembly.checked, c ∈ a.checked) ∧ ∃ opened z, Half sdk refs strict root a opened ∧
      (∀ b ∈ opened, b ∈ s.inside ∨ Reach sdk refs b z) ∧ (∃ y ∈ ys, Reach sdk refs y z) ∧ ¬ Assembles sdk refs strict z

variable {s : Checking Proof}

theorem enterKey_cases (strict : Bool) (hraws : DistinctRaws sdk refs) (hs : Coherent sdk refs s.assembly) (y : Text) :
    enterKey sdk refs strict s y = .ok (s, none) ∧ ((y, strict) ∈ s.assembly.checked ∨ y ∈ s.inside) ∨
      (y, strict) ∉ s.assembly.checked ∧ y ∉ s.inside ∧ ∃ a, Coherent sdk refs a ∧ a.checked = s.assembly.checked ∧
        (∀ k n, s.assembly.nodes.lookup k = some n → a.nodes.lookup k = some n) ∧
        ((∃ e, nodeOf sdk refs y = .error e ∧ enterKey sdk refs strict s y = .error (e, a)) ∨ ∃ n, nodeOf sdk refs y = .ok n ∧
          a.nodes.lookup y = some n ∧ enterKey sdk refs strict s y = .ok (⟨a, y :: s.inside⟩, some ((y, n), n.sources.filterMap id))) := by
  unfold enterKey
  by_cases hskip : (y, strict) ∈ s.assembly.checked ∨ y ∈ s.inside
  · exact .inl ⟨if_pos hskip, hskip⟩
  · obtain ⟨hchecked, hinside⟩ := not_or.mp hskip
    obtain ⟨a, hnode, ha, hsame, hgrow, hheld⟩ := node_spec hraws hs y
    refine .inr ⟨hchecked, hinside, a, ha, hsame, hgrow, ?_⟩
    rw [if_neg hskip, hnode]
    cases hof : nodeOf sdk refs y with
    | error e => exact .inl ⟨e, rfl, rfl⟩
    | ok n => exact .inr ⟨n, rfl, hheld n hof, rfl⟩

section
variable {s' : Checking Proof} {y : Text} (hraws : DistinctRaws sdk refs) (hs : Coherent sdk refs s.assembly)
include hraws hs

theorem enterKey_skipped (h : enterKey sdk refs strict s y = .ok (s', none)) : s' = s ∧ ((y, strict) ∈ s.assembly.checked ∨ y ∈ s.inside) := by
  rcases enterKey_cases strict hraws hs y with ⟨hskip, hseen⟩ | ⟨-, -, a, -, -, -, ⟨e, -, herror⟩ | ⟨n, -, -, hopen⟩⟩
  · cases h.symm.trans hskip
    exact ⟨rfl, hseen⟩
  · cases h.symm.trans herror
  · cases h.symm.trans hopen

theorem enterKey_failed {e : String} {a : Assembly Proof} (h : enterKey sdk refs strict s y = .error (e, a)) : Coherent sdk refs a ∧
    a.checked = s.assembly.checked ∧ (∀ k n, s.assembly.nodes.lookup k = some n → a.nodes.lookup k = some n) ∧ ∃ e', nodeOf sdk refs y = .error e' := by
  rcases enterKey_cases strict hraws hs y with ⟨hskip, -⟩ | ⟨-, -, a, ha, hsame, hgrow, ⟨e, hof, herror⟩ | ⟨n, -, -, hopen⟩⟩
  · cases h.symm.trans hskip
  · cases h.symm.trans herror
    exact ⟨ha, hsame, hgrow, e, hof⟩
  · cases h.symm.trans hopen

theorem enterKey_opened {f : Text × AssemblyNode Proof} {next : List Text} (h : enterKey sdk refs strict s y = .ok (s', some (f, next))) :
    (y, strict) ∉ s.assembly.checked ∧ y ∉ s.inside ∧ ∃ a n, Coherent sdk refs a ∧ a.checked = s.assembly.checked ∧
      (∀ k n, s.assembly.nodes.lookup k = some n → a.nodes.lookup k = some n) ∧ nodeOf sdk refs y = .ok n ∧ a.nodes.lookup y = some n ∧
      s' = ⟨a, y :: s.inside⟩ ∧ f = (y, n) ∧ next = n.sources.filterMap id := by
  rcases enterKey_cases strict hraws hs y with ⟨hskip, -⟩ | ⟨hchecked, hinside, a, ha, hsame, hgrow, ⟨e, -, herror⟩ | ⟨n, hof, hheld, hopen⟩⟩
  · cases h.symm.trans hskip
  · cases h.symm.trans herror
  · cases h.symm.trans hopen
    exact ⟨hchecked, hinside, a, n, ha, hsame, hgrow, hof, hheld, rfl, rfl, rfl⟩

end

variable {n : AssemblyNode Proof}

theorem missing_none : missing n = none ↔ none ∉ n.sources := by
  rw [missing, Option.map_eq_none_iff, List.find?_eq_none]
  constructor
  · intro h hnone
    obtain ⟨i, hi⟩ := List.mem_iff_getElem?.mp hnone
    exact h (none, i) (List.mem_reverse.mpr (List.mem_zipIdx_iff_getElem?.mpr hi)) rfl
  · rintro h ⟨source, i⟩ hin hnone
    cases source with
    | none => exact h (List.mem_of_getElem? (List.mem_zipIdx_iff_getElem?.mp (List.mem_reverse.mp hin)))
    | some source => cases hnone

theorem closeKey_cases (sdk : Sdk Proof) (strict : Bool) (s : Checking Proof) (y : Text) (n : AssemblyNode Proof) :
    (∃ e, closeKey sdk strict s (y, n) = .error (e, s.assembly)) ∧ strict = true ∧ none ∈ n.sources ∨
      closeKey sdk strict s (y, n) = .ok ⟨{ s.assembly with checked := (y, strict) :: s.assembly.checked }, s.inside.erase y⟩ ∧
        (strict = true → none ∉ n.sources) := by
  unfold closeKey
  cases strict with
  | false => exact .inr ⟨rfl, fun h => by cases h⟩
  | true =>
    rw [if_pos rfl]
    cases hmissing : missing n with
    | none => exact .inr ⟨rfl, fun _ => missing_none.mp hmissing⟩
    | some vin =>
      refine .inl ⟨⟨_, rfl⟩, rfl, ?_⟩
      by_cases hnone : none ∈ n.sources
      · exact hnone
      · rw [missing_none.mpr hnone] at hmissing
        cases hmissing

theorem mem_next {z : Text} : z ∈ n.sources.filterMap id ↔ some z ∈ n.sources := by
  simp

theorem half_close {y : Text} {inside : List Text} (hs : Half sdk refs strict root s.assembly (y :: inside))
    (hof : nodeOf sdk refs y = .ok n) (hheld : s.assembly.nodes.lookup y = some n) (hwhole : strict = true → none ∉ n.sources)
    (hroot : Reach sdk refs root y) (hreach : ∀ b ∈ inside, Reach sdk refs b y)
    (hvisited : ∀ z, some z ∈ n.sources → (z, strict) ∈ s.assembly.checked ∨ z ∈ y :: inside) :
    Half sdk refs strict root { s.assembly with checked := (y, strict) :: s.assembly.checked } inside := by
  intro x b hx
  rcases List.mem_cons.mp hx with hx | hx
  · cases hx
    refine ⟨n, hheld, hwhole, fun z hz => ?_⟩
    rcases hvisited z hz with hchecked | hopen
    · exact .inl (List.mem_cons_of_mem _ hchecked)
    · rcases List.mem_cons.mp hopen with rfl | hopen
      · exact .inl List.mem_cons_self
      · exact .inr ⟨rfl, hopen, hroot, .head' ⟨n, hof, hz⟩ (hreach z hopen)⟩
  · obtain ⟨m, hm, hwhole', hsources⟩ := hs x b hx
    refine ⟨m, hm, hwhole', fun z hz => ?_⟩
    rcases hsources z hz with hchecked | ⟨rfl, hopen, hrest⟩
    · exact .inl (List.mem_cons_of_mem _ hchecked)
    · rcases List.mem_cons.mp hopen with rfl | hopen
      · exact .inl List.mem_cons_self
      · exact .inr ⟨rfl, hopen, hrest⟩

theorem reach_next {y w : Text} {inside : List Text} (hof : nodeOf sdk refs y = .ok n)
    (hy : Reach sdk refs root y ∧ ∀ b ∈ inside, Reach sdk refs b y) (hw : w ∈ n.sources.filterMap id) :
    Reach sdk refs root w ∧ ∀ b ∈ y :: inside, Reach sdk refs b w := by
  have hlink : Link sdk refs y w := ⟨n, hof, mem_next.mp hw⟩
  refine ⟨hy.1.tail hlink, fun b hb => ?_⟩
  rcases List.mem_cons.mp hb with rfl | hb
  · exact .single hlink
  · exact (hy.2 b hb).tail hlink

theorem visits_outcome (hraws : DistinctRaws sdk refs) {ys : List Text}
    {r : Except (String × Assembly Proof) (Checking Proof)}
    (h : DepthFirst.Visits (enterKey sdk refs strict) (closeKey sdk strict) s ys r) (hs : Coherent sdk refs s.assembly)
    (hhalf : Half sdk refs strict root s.assembly s.inside)
    (hreach : ∀ y ∈ ys, Reach sdk refs root y ∧ ∀ b ∈ s.inside, Reach sdk refs b y) : Outcome sdk refs strict root s ys r := by
  induction h with
  | nil s => exact ⟨hs, hhalf, rfl, fun _ h => h, fun _ _ h => h, fun y hy => absurd hy List.not_mem_nil⟩
  | @fail s y ys e henter =>
    obtain ⟨ha, hsame, hgrow, e', hof⟩ := enterKey_failed hraws hs henter
    refine ⟨ha, fun c hc => hsame ▸ hc, s.inside, y, hhalf.mono hsame hgrow fun _ h => h, fun b hb => .inl hb,
      ⟨y, List.mem_cons_self, .refl⟩, ?_⟩
    rintro ⟨n, hn, -⟩
    rw [hof] at hn
    cases hn
  | @skip s s' y ys r henter _ ih =>
    obtain ⟨rfl, hseen⟩ := enterKey_skipped hraws hs henter
    have hrest := ih hs hhalf fun z hz => hreach z (List.mem_cons_of_mem y hz)
    cases r with
    | ok s' =>
      obtain ⟨h₁, h₂, h₃, hgrow, h₅, hvisited⟩ := hrest
      refine ⟨h₁, h₂, h₃, hgrow, h₅, fun z hz => ?_⟩
      rcases List.mem_cons.mp hz with rfl | hz
      · exact hseen.imp_left (hgrow _)
      · exact hvisited z hz
    | error e =>
      obtain ⟨h₁, h₂, opened, z, h₃, h₄, ⟨y', hy', hz⟩, h₅⟩ := hrest
      exact ⟨h₁, h₂, opened, z, h₃, h₄, ⟨y', List.mem_cons_of_mem y hy', hz⟩, h₅⟩
  | @inside s s₁ y ys next f e henter _ ih =>
    obtain ⟨-, -, a, n, ha, hsame, hgrow, hof, hheld, rfl, rfl, rfl⟩ := enterKey_opened hraws hs henter
    obtain ⟨h₁, h₂, opened, z, h₃, h₄, ⟨y', hy', hz⟩, h₅⟩ := ih ha
      (hhalf.mono hsame hgrow fun b hb => List.mem_cons_of_mem y hb) fun w hw => reach_next hof (hreach y List.mem_cons_self) hw
    have hyz : Reach sdk refs y z := .head ⟨n, hof, mem_next.mp hy'⟩ hz
    refine ⟨h₁, fun c hc => h₂ c (hsame ▸ hc), opened, z, h₃, fun b hb => ?_, ⟨y, List.mem_cons_self, hyz⟩, h₅⟩
    rcases h₄ b hb with hb | hb
    · rcases List.mem_cons.mp hb with rfl | hb
      · exact .inr hyz
      · exact .inl hb
    · exact .inr hb
  | @closing s s₁ s₂ y ys next f e henter _ hclose ih =>
    obtain ⟨-, -, a, n, ha, hsame, hgrow, hof, hheld, rfl, rfl, rfl⟩ := enterKey_opened hraws hs henter
    obtain ⟨h₁, h₂, hinside, h₃, -, -⟩ := ih ha (hhalf.mono hsame hgrow fun b hb => List.mem_cons_of_mem y hb) fun w hw => reach_next hof (hreach y List.mem_cons_self) hw
    rcases closeKey_cases sdk strict s₂ y n with ⟨⟨e', herror⟩, hstrict, hnone⟩ | ⟨hok, -⟩
    · rw [hclose] at herror
      cases herror
      refine ⟨h₁, fun c hc => h₃ c (hsame ▸ hc), s₂.inside, y, h₂, fun b hb => ?_, ⟨y, List.mem_cons_self, .refl⟩, ?_⟩
      · rw [hinside] at hb
        rcases List.mem_cons.mp hb with rfl | hb
        · exact .inr .refl
        · exact .inl hb
      · rintro ⟨m, hm, hwhole⟩
        rw [hof] at hm
        cases hm
        exact hwhole hstrict hnone
    · rw [hclose] at hok
      cases hok
  | @node s s₁ s₂ s₃ y ys next f r henter _ hclose _ ih ihrest =>
    obtain ⟨-, -, a, n, ha, hsame, hgrow, hof, hheld, rfl, rfl, rfl⟩ := enterKey_opened hraws hs henter
    obtain ⟨hroot, hall⟩ := hreach y List.mem_cons_self
    obtain ⟨h₁, h₂, hinside, h₃, h₄, hvisited⟩ := ih ha (hhalf.mono hsame hgrow fun b hb => List.mem_cons_of_mem y hb) fun w hw => reach_next hof (hreach y List.mem_cons_self) hw
    rcases closeKey_cases sdk strict s₂ y n with ⟨⟨e', herror⟩, -, -⟩ | ⟨hok, hwhole⟩
    · rw [hclose] at herror
      cases herror
    · rw [hclose] at hok
      cases hok
      have herase : s₂.inside.erase y = s.inside := by rw [hinside, List.erase_cons_head]
      have hopen₂ : Half sdk refs strict root s₂.assembly (y :: s.inside) := by
        rw [← show s₂.inside = y :: s.inside from hinside]
        exact h₂
      have hhalf₃ := half_close hopen₂ hof (h₄ y n hheld) hwhole hroot hall fun z hz => hvisited z (mem_next.mpr hz)
      have hrest := ihrest ⟨h₁.txs, h₁.parsed, h₁.nodes⟩ (by rw [herase]; exact hhalf₃) fun z hz => by
        rw [herase]
        exact hreach z (List.mem_cons_of_mem y hz)
      cases r with
      | ok s' =>
        obtain ⟨k₁, k₂, k₃, kgrow, k₅, kvisited⟩ := hrest
        refine ⟨k₁, k₂, k₃.trans herase, fun c hc => kgrow c (List.mem_cons_of_mem _ (h₃ c (hsame ▸ hc))), fun k m hk => k₅ k m (h₄ k m (hgrow k m hk)),
          fun z hz => ?_⟩
        rcases List.mem_cons.mp hz with rfl | hz
        · exact .inl (kgrow _ List.mem_cons_self)
        · exact (kvisited z hz).imp_right fun hin => herase ▸ hin
      | error e =>
        obtain ⟨k₁, k₂, opened, z, k₃, k₄, ⟨y', hy', hz⟩, k₅⟩ := hrest
        refine ⟨k₁, fun c hc => k₂ c (List.mem_cons_of_mem _ (h₃ c (hsame ▸ hc))), opened, z, k₃, fun b hb => ?_,
          ⟨y', List.mem_cons_of_mem y hy', hz⟩, k₅⟩
        exact (k₄ b hb).imp_left fun hin => herase ▸ hin

end

/-! ## A sequence of checks -/

def Closed (a : Assembly Proof) : Prop :=
  ∀ x b, (x, b) ∈ a.checked → ∃ n, a.nodes.lookup x = some n ∧ (b = true → none ∉ n.sources) ∧ ∀ z, some z ∈ n.sources → (z, b) ∈ a.checked

theorem closed_empty : Closed ({} : Assembly Proof) := fun x b h => by cases h

theorem Closed.half (h : Closed a) (strict : Bool) (root : Text) : Half sdk refs strict root a [] := by
  intro x b hx
  obtain ⟨n, hn, hwhole, hsources⟩ := h x b hx
  exact ⟨n, hn, hwhole, fun z hz => .inl (hsources z hz)⟩

variable {strict : Bool} {a a' : Assembly Proof} {answer : Except String Unit}

theorem check_closed (hraws : DistinctRaws sdk refs)
    (ha : Coherent sdk refs a) (hclosed : Closed a) (hcycles : CyclesAssemble sdk refs key strict)
    (h : check sdk refs a key strict = some (answer, a')) :
    Coherent sdk refs a' ∧ Closed a' ∧ (∀ c ∈ a.checked, c ∈ a'.checked) ∧ (answer = .ok () → (key, strict) ∈ a'.checked) := by
  obtain ⟨r, hwalk, hr⟩ := Option.map_eq_some_iff.mp h
  have hout := visits_outcome (s := ⟨a, []⟩) hraws (DepthFirst.walk_visits hwalk) ha (hclosed.half strict key) fun y hy => by
    rw [List.mem_singleton.mp hy]
    exact ⟨.refl, fun b hb => absurd hb List.not_mem_nil⟩
  cases r with
  | ok s' =>
    obtain ⟨hs', hhalf, hinside, hgrow, -, hvisited⟩ := hout
    cases hr
    refine ⟨hs', fun x b hx => ?_, hgrow, fun _ => (hvisited key List.mem_cons_self).resolve_right List.not_mem_nil⟩
    obtain ⟨n, hn, hwhole, hsources⟩ := hhalf x b hx
    refine ⟨n, hn, hwhole, fun z hz => (hsources z hz).resolve_right ?_⟩
    rintro ⟨-, hopen, -⟩
    rw [hinside] at hopen
    cases hopen
  | error e =>
    obtain ⟨e, a₁⟩ := e
    obtain ⟨hs', hgrow, opened, z, hhalf, hopened, -, hfails⟩ := hout
    cases hr
    refine ⟨hs', fun x b hx => ?_, hgrow, fun hok => by cases hok⟩
    obtain ⟨n, hn, hwhole, hsources⟩ := hhalf x b hx
    refine ⟨n, hn, hwhole, fun w hw => (hsources w hw).resolve_right ?_⟩
    rintro ⟨-, hopen, hroot, hcycle⟩
    have hwz := (hopened w hopen).resolve_left List.not_mem_nil
    exact hfails (hcycles x hroot hcycle z (.head ⟨n, hs'.nodes x n hn, hw⟩ hwz))

theorem checks_closed (hraws : DistinctRaws sdk refs) {calls : List (Text × Bool)} {answers : List (Except String Unit)}
    (ha : Coherent sdk refs a) (hclosed : Closed a) (hcycles : ∀ call ∈ calls, CyclesAssemble sdk refs call.1 call.2)
    (h : checks sdk refs calls a = some (answers, a')) :
    Coherent sdk refs a' ∧ Closed a' ∧ (∀ c ∈ a.checked, c ∈ a'.checked) ∧
      ∀ (i : Nat) (call : Text × Bool), calls[i]? = some call → answers[i]? = some (.ok ()) → call ∈ a'.checked := by
  induction calls generalizing a answers with
  | nil =>
    cases h
    exact ⟨ha, hclosed, fun _ h => h, fun i call hi => by cases hi⟩
  | cons call calls ih =>
    obtain ⟨answer, hcheck, h⟩ := Option.bind_eq_some_iff.mp h
    obtain ⟨rest, hrest, heq⟩ := Option.bind_eq_some_iff.mp h
    cases heq
    obtain ⟨ha₁, hclosed₁, hgrow₁, hok⟩ := check_closed hraws ha hclosed (hcycles call List.mem_cons_self) hcheck
    obtain ⟨ha', hclosed', hgrow, hrestok⟩ := ih ha₁ hclosed₁ (fun c hc => hcycles c (List.mem_cons_of_mem call hc)) hrest
    refine ⟨ha', hclosed', fun c hc => hgrow c (hgrow₁ c hc), fun i c hc hi => ?_⟩
    cases i with
    | zero =>
      cases hc
      exact hgrow _ (hok (Option.some.inj hi))
    | succ i => exact hrestok i c hc hi

/-! ## The calls end -/

def spent (strict : Bool) (s : Checking Proof) : List Text := s.inside ++ (s.assembly.checked.filter fun c => c.2 = strict).map Prod.fst

variable {n : AssemblyNode Proof}

theorem nodeOf_mem (h : nodeOf sdk refs key = .ok n) : key ∈ refs.keys := by
  rw [nodeOf_eq] at h
  by_contra hkey
  have hnone : refs.lookup key = none := AList.lookup_eq_none.mpr hkey
  simp only [txOf, parsedTx, AList.lookup_empty, hnone] at h
  cases h

theorem check_pays (hraws : DistinctRaws sdk refs) (strict : Bool) :
    DepthFirst.Pays (enterKey sdk refs strict) (closeKey sdk strict) (fun s => Coherent sdk refs s.assembly) fun s => turns sdk refs (spent strict s) where
  skip s x s' hs h := by
    obtain ⟨rfl, -⟩ := enterKey_skipped hraws hs h
    exact ⟨hs, Nat.le_refl _⟩
  opening s x s' f next hs h := by
    obtain ⟨hchecked, hinside, a, n, ha, hsame, -, hof, -, rfl, rfl, rfl⟩ := enterKey_opened hraws hs h
    refine ⟨ha, ?_⟩
    have hfresh : x ∉ spent strict s := by
      simp only [spent, List.mem_append, List.mem_map, List.mem_filter, decide_eq_true_eq, not_or]
      refine ⟨hinside, ?_⟩
      rintro ⟨⟨y, b⟩, ⟨hy, rfl⟩, rfl⟩
      exact hchecked hy
    have hspent : spent strict ⟨a, x :: s.inside⟩ = x :: spent strict s := by
      rw [spent, spent, hsame]
      rfl
    have hroom : Worklist.unspent (turnsOf sdk refs) (x :: spent strict s) refs.keys + turnsOf sdk refs x ≤
        Worklist.unspent (turnsOf sdk refs) (spent strict s) refs.keys := Worklist.unspent_cons (nodeOf_mem hof) hfresh
    have hlen : (n.sources.filterMap id).length ≤ n.sources.length := List.length_filterMap_le _ _
    have hturns : turnsOf sdk refs x = n.sources.length + 1 := by rw [turnsOf, hof]
    rw [turns, hspent, turns]
    omega
  close s f s' hs h := by
    obtain ⟨y, n⟩ := f
    rcases closeKey_cases sdk strict s y n with ⟨⟨e', herror⟩, -, -⟩ | ⟨hok, -⟩
    · rw [h] at herror
      cases herror
    · rw [h] at hok
      cases hok
      refine ⟨⟨hs.txs, hs.parsed, hs.nodes⟩, Worklist.unspent_anti _ (fun x hx => ?_) _⟩
      rw [spent, List.mem_append] at hx ⊢
      rcases hx with hx | hx
      · by_cases hxy : x = y
        · subst hxy
          exact .inr (List.mem_map.mpr ⟨(x, strict), List.mem_filter.mpr ⟨List.mem_cons_self, decide_eq_true rfl⟩, rfl⟩)
        · exact .inl ((List.mem_erase_of_ne hxy).mpr hx)
      · obtain ⟨c, hc, rfl⟩ := List.mem_map.mp hx
        obtain ⟨hc, hb⟩ := List.mem_filter.mp hc
        exact .inr (List.mem_map.mpr ⟨c, List.mem_filter.mpr ⟨List.mem_cons_of_mem _ hc, hb⟩, rfl⟩)

theorem check_ends (hraws : DistinctRaws sdk refs) (ha : Coherent sdk refs a) (key : Text) (strict : Bool) :
    (check sdk refs a key strict).isSome = true := by
  rw [check, Option.isSome_map]
  exact DepthFirst.walk_isSome (check_pays hraws strict) ha (Worklist.unspent_anti _ (fun x hx => absurd hx List.not_mem_nil) _) key

theorem check_coherent (hraws : DistinctRaws sdk refs)
    (ha : Coherent sdk refs a) (h : check sdk refs a key strict = some (answer, a')) : Coherent sdk refs a' := by
  obtain ⟨r, hwalk, hr⟩ := Option.map_eq_some_iff.mp h
  have hkeeps := (DepthFirst.walk_visits hwalk).keeps (I := fun s => Coherent sdk refs s.assembly) (E := fun e => Coherent sdk refs e.2)
    (fun s x hs => ?_) (fun s f hs => ?_) ha
  · cases r with
    | ok s' =>
      cases hr
      exact hkeeps.1 s' rfl
    | error e =>
      cases hr
      exact hkeeps.2 e rfl
  · refine ⟨fun e he => (enterKey_failed hraws hs he).1, fun s' o ho => ?_⟩
    cases o with
    | none => exact (enterKey_skipped hraws hs ho).1 ▸ hs
    | some o =>
      obtain ⟨-, -, a, n, ha, -, -, -, -, rfl, -⟩ := enterKey_opened hraws hs ho
      exact ha
  · obtain ⟨y, n⟩ := f
    rcases closeKey_cases sdk strict s y n with ⟨⟨e', herror⟩, -, -⟩ | ⟨hok, -⟩
    · exact ⟨fun e he => (by rw [herror] at he; cases he; exact hs), fun s' ho => by rw [herror] at ho; cases ho⟩
    · exact ⟨fun e he => (by rw [hok] at he; cases he), fun s' ho => by rw [hok] at ho; cases ho; exact ⟨hs.txs, hs.parsed, hs.nodes⟩⟩

theorem checks_end (hraws : DistinctRaws sdk refs) (ha : Coherent sdk refs a) (calls : List (Text × Bool)) :
    (checks sdk refs calls a).isSome = true := by
  induction calls generalizing a with
  | nil => rfl
  | cons call calls ih =>
    obtain ⟨⟨answer, a'⟩, hcheck⟩ := Option.isSome_iff_exists.mp (check_ends hraws ha call.1 call.2)
    obtain ⟨rest, hrest⟩ := Option.isSome_iff_exists.mp (ih (check_coherent hraws ha hcheck))
    have hall : checks sdk refs (call :: calls) a = some (answer :: rest.1, rest.2) :=
      Option.bind_eq_some_iff.mpr ⟨_, hcheck, Option.bind_eq_some_iff.mpr ⟨rest, hrest, rfl⟩⟩
    rw [hall]
    rfl

/-! ## What is collected -/

variable {keys : List Text} {acc out : List (AssemblyNode Proof)} {inside : List Text}

theorem Collects.nodup (h : Collects sdk refs inside acc keys out)
    (hacc : (acc.map (·.parsed.id)).Nodup) (hfresh : ∀ t ∈ inside, t ∉ acc.map (·.parsed.id)) :
    (out.map (·.parsed.id)).Nodup ∧ ∀ t ∈ inside, t ∉ out.map (·.parsed.id) := by
  have hsnoc {l : List (AssemblyNode Proof)} {n : AssemblyNode Proof} (hl : (l.map (·.parsed.id)).Nodup)
      (hn : n.parsed.id ∉ l.map (·.parsed.id)) : ((l ++ [n]).map (·.parsed.id)).Nodup := by
    rw [List.map_append, List.map_singleton, List.nodup_append]
    refine ⟨hl, List.nodup_singleton _, fun t ht u hu heq => hn ?_⟩
    rw [List.mem_singleton] at hu
    rwa [← hu, ← heq]
  have hout {l : List (AssemblyNode Proof)} {n : AssemblyNode Proof} {inside : List Text} (hl : ∀ t ∈ inside, t ∉ l.map (·.parsed.id))
      (hn : n.parsed.id ∉ inside) : ∀ t ∈ inside, t ∉ (l ++ [n]).map (·.parsed.id) := by
    intro t ht hin
    rw [List.map_append, List.map_singleton, List.mem_append, List.mem_singleton] at hin
    rcases hin with hin | rfl
    · exact hl t ht hin
    · exact hn ht
  induction h with
  | nil => exact ⟨hacc, hfresh⟩
  | again _ _ _ ih => exact ih hacc hfresh
  | proven _ hin hn _ _ ih => exact ih (hsnoc hacc hn) (hout hfresh hin)
  | @unproven inside acc mid out key keys n _ hin hn _ _ _ ih ihrest =>
    obtain ⟨hmid, hmidfresh⟩ := ih hacc fun t ht => by
      rcases List.mem_cons.mp ht with rfl | ht
      · exact hn
      · exact hfresh t ht
    exact ihrest (hsnoc hmid (hmidfresh _ List.mem_cons_self)) (hout (fun t ht => hmidfresh t (List.mem_cons_of_mem _ ht)) hin)

theorem Collects.reached (h : Collects sdk refs inside acc keys out) :
    ∀ n ∈ out, n ∈ acc ∨ ∃ k ∈ keys, ∃ y, Reach sdk refs k y ∧ nodeOf sdk refs y = .ok n := by
  induction h with
  | nil => exact fun n hn => .inl hn
  | again _ _ _ ih => exact fun n hn => (ih n hn).imp_right fun ⟨k, hk, hy⟩ => ⟨k, List.mem_cons_of_mem _ hk, hy⟩
  | proven hof _ _ _ _ ih =>
    intro m hm
    rcases ih m hm with hm | ⟨k, hk, hy⟩
    · rcases List.mem_append.mp hm with hm | hm
      · exact .inl hm
      · rw [List.mem_singleton.mp hm]
        exact .inr ⟨_, List.mem_cons_self, _, .refl, hof⟩
    · exact .inr ⟨k, List.mem_cons_of_mem _ hk, hy⟩
  | unproven hof _ _ _ _ _ ih ihrest =>
    intro m hm
    rcases ihrest m hm with hm | ⟨k, hk, hy⟩
    · rcases List.mem_append.mp hm with hm | hm
      · rcases ih m hm with hm | ⟨k, hk, y, hy, hm⟩
        · exact .inl hm
        · refine .inr ⟨_, List.mem_cons_self, y, .head ⟨_, hof, ?_⟩ hy, hm⟩
          simpa using hk
      · rw [List.mem_singleton.mp hm]
        exact .inr ⟨_, List.mem_cons_self, _, .refl, hof⟩
    · exact .inr ⟨k, List.mem_cons_of_mem _ hk, hy⟩

theorem Collects.unique {out' : List (AssemblyNode Proof)}
    (h : Collects sdk refs inside acc keys out) (h' : Collects sdk refs inside acc keys out') : out' = out := by
  induction h generalizing out' with
  | nil =>
    cases h'
    rfl
  | again hof hseen _ ih =>
    cases h' with
    | again _ _ h' => exact ih h'
    | proven hof' hin hn _ _ =>
      rw [hof] at hof'
      cases hof'
      exact (hseen.elim hin hn).elim
    | unproven hof' hin hn _ _ _ =>
      rw [hof] at hof'
      cases hof'
      exact (hseen.elim hin hn).elim
  | proven hof hin hn hproven _ ih =>
    cases h' with
    | again hof' hseen _ =>
      rw [hof] at hof'
      cases hof'
      exact (hseen.elim hin hn).elim
    | proven hof' _ _ _ h' =>
      rw [hof] at hof'
      cases hof'
      exact ih h'
    | unproven hof' _ _ hnone _ _ =>
      rw [hof] at hof'
      cases hof'
      rw [hnone] at hproven
      cases hproven
  | unproven hof hin hn hnone _ _ ih ihrest =>
    cases h' with
    | again hof' hseen _ =>
      rw [hof] at hof'
      cases hof'
      exact (hseen.elim hin hn).elim
    | proven hof' _ _ hproven _ =>
      rw [hof] at hof'
      cases hof'
      rw [hnone] at hproven
      cases hproven
    | unproven hof' _ _ _ hmid h' =>
      rw [hof] at hof'
      cases hof'
      rw [ih hmid] at h'
      exact ihrest h'

/-! ## The stack and the recursion -/

theorem closed_reach (ha : Coherent sdk refs a) (hclosed : Closed a) {key z : Text}
    (hkey : (key, strict) ∈ a.checked) (h : Reach sdk refs key z) : (z, strict) ∈ a.checked := by
  induction h with
  | refl => exact hkey
  | @tail y z _ hlink ih =>
    obtain ⟨n, hof, hz⟩ := hlink
    obtain ⟨m, hm, -, hsources⟩ := hclosed y strict ih
    have hsame := ha.nodes y m hm
    rw [hof] at hsame
    cases hsame
    exact hsources z hz

def SeenCollected (s : Collecting Proof) : Prop := ∀ t, t ∈ s.seen ↔ t ∈ s.collected.ancestors.map (·.parsed.id)

theorem ancestors_leaf (c : Collected Proof) (n : AssemblyNode Proof) (merklePath : Proof) :
    (c.leaf sdk n merklePath).ancestors = c.ancestors ++ [n] := by
  simp only [Collected.leaf]
  split <;> rfl

theorem seen_snoc {s : Collecting Proof} (hs : SeenCollected s) {c : Collected Proof} (inside : List Text)
    (hc : c.ancestors = s.collected.ancestors ++ [n]) : SeenCollected ⟨n.parsed.id :: s.seen, inside, c⟩ := by
  intro t
  rw [List.mem_cons, hc, List.map_append, List.map_singleton, List.mem_append, List.mem_singleton, ← hs t]
  exact or_comm

theorem visits_collects (ha : Coherent sdk refs a) (hclosed : Closed a) {s s' : Collecting Proof}
    (h : DepthFirst.Visits (enterNode sdk a) closeNode s keys (.ok s')) (hkeys : ∀ k ∈ keys, (k, strict) ∈ a.checked)
    (hs : SeenCollected s) :
    Collects sdk refs s.inside s.collected.ancestors keys s'.collected.ancestors ∧ s'.inside = s.inside ∧ SeenCollected s' := by
  generalize hr : (Except.ok s' : Except Empty (Collecting Proof)) = r at h
  induction h generalizing s' with
  | nil s =>
    cases hr
    exact ⟨.nil _ _, rfl, hs⟩
  | @fail _ _ _ e _ => exact e.elim
  | @inside _ _ _ _ _ _ e _ _ _ => exact e.elim
  | @closing _ _ _ _ _ _ _ e _ _ _ _ => exact e.elim
  | @skip s s₁ key keys r henter _ ih =>
    obtain ⟨n, hheld, -, hsources⟩ := hclosed key strict (hkeys key List.mem_cons_self)
    have hof := ha.nodes key n hheld
    have hrest := fun k hk => hkeys k (List.mem_cons_of_mem key hk)
    simp only [enterNode, hheld] at henter
    split at henter
    · rename_i hseen
      cases henter
      obtain ⟨hcollects, hinside, hs'⟩ := ih hrest hs hr
      exact ⟨.again hof (hseen.symm.imp_right (hs _).mp) hcollects, hinside, hs'⟩
    · rename_i hfresh
      obtain ⟨hseen, hopen⟩ := not_or.mp hfresh
      split at henter
      · rename_i merklePath hproof
        cases henter
        obtain ⟨hcollects, hinside, hs'⟩ := ih hrest (seen_snoc hs _ (ancestors_leaf _ _ _)) hr
        rw [ancestors_leaf] at hcollects
        exact ⟨.proven hof hopen (fun h => hseen ((hs _).mpr h)) (by rw [hproof]; rfl) hcollects, hinside, hs'⟩
      · cases henter
  | @node s s₁ s₂ s₃ key keys next f r henter _ hclose _ ih ihrest =>
    obtain ⟨n, hheld, -, hsources⟩ := hclosed key strict (hkeys key List.mem_cons_self)
    have hof := ha.nodes key n hheld
    simp only [enterNode, hheld] at henter
    split at henter
    · cases henter
    · rename_i hfresh
      obtain ⟨hseen, hopen⟩ := not_or.mp hfresh
      split at henter
      · cases henter
      · rename_i hproof
        cases henter
        obtain ⟨hmid, hinside, hs₂⟩ := ih (fun k hk => hsources k (by simpa using hk)) hs rfl
        cases hclose
        obtain ⟨hcollects, hinside', hs'⟩ := ihrest (fun k hk => hkeys k (List.mem_cons_of_mem key hk)) (seen_snoc hs₂ _ rfl) hr
        have herase : s₂.inside.erase f.parsed.id = s.inside := by
          rw [show s₂.inside = f.parsed.id :: s.inside from hinside, List.erase_cons_head]
        dsimp only at hcollects hinside'
        rw [herase] at hcollects hinside'
        exact ⟨.unproven hof hopen (fun h => hseen ((hs _).mpr h)) hproof hmid hcollects, hinside', hs'⟩

theorem mem_held (h : a.nodes.lookup key = some n) : n ∈ held a :=
  List.mem_map.mpr ⟨⟨key, n⟩, AList.mem_lookup_iff.mp h, rfl⟩

theorem collect_pays (sdk : Sdk Proof) (a : Assembly Proof) :
    DepthFirst.Pays (enterNode sdk a) closeNode (fun _ => True) fun s => collectingTurns a (s.seen ++ s.inside) where
  skip s key s' _ h := by
    refine ⟨trivial, Worklist.unspent_anti _ (fun t ht => ?_) _⟩
    simp only [enterNode] at h
    split at h
    · cases h
      exact ht
    · split at h
      · cases h
        exact ht
      · split at h
        · cases h
          exact List.mem_cons_of_mem _ ht
        · cases h
  opening s key s' n next _ h := by
    refine ⟨trivial, ?_⟩
    simp only [enterNode] at h
    split at h
    · cases h
    · rename_i m hheld
      split at h
      · cases h
      · rename_i hfresh
        split at h
        · cases h
        · cases h
          have hin := mem_held hheld
          have hkey : n.parsed.id ∈ ((held a).map fun node => node.parsed.id).dedup := List.mem_dedup.mpr (List.mem_map_of_mem hin)
          have hnew : n.parsed.id ∉ s.seen ++ s.inside := fun h => hfresh (List.mem_append.mp h)
          have hroom : collectingTurns a (n.parsed.id :: (s.seen ++ s.inside)) + txidTurns a n.parsed.id ≤ collectingTurns a (s.seen ++ s.inside) :=
            Worklist.unspent_cons hkey hnew
          have hanti : collectingTurns a (s.seen ++ n.parsed.id :: s.inside) ≤ collectingTurns a (n.parsed.id :: (s.seen ++ s.inside)) :=
            Worklist.unspent_anti _ (fun t ht => by
              rcases List.mem_cons.mp ht with rfl | ht
              · exact List.mem_append_right _ List.mem_cons_self
              · exact (List.mem_append.mp ht).elim (List.mem_append_left _) fun h => List.mem_append_right _ (List.mem_cons_of_mem _ h)) _
          have hturns : n.sources.length + 1 ≤ txidTurns a n.parsed.id :=
            List.le_sum_of_mem (List.mem_map.mpr ⟨n, List.mem_filter.mpr ⟨hin, decide_eq_true rfl⟩, rfl⟩)
          have hlen : (n.sources.reverse.filterMap id).length ≤ n.sources.length := by
            have hle := List.length_filterMap_le id n.sources.reverse
            rwa [List.length_reverse] at hle
          dsimp only
          omega
  close s n s' _ h := by
    cases h
    refine ⟨trivial, Worklist.unspent_anti _ (fun t ht => ?_) _⟩
    by_cases heq : t = n.parsed.id
    · exact heq ▸ List.mem_cons_self
    · rcases List.mem_append.mp ht with ht | ht
      · exact List.mem_cons_of_mem _ (List.mem_append_left _ ht)
      · exact List.mem_cons_of_mem _ (List.mem_append_right _ ((List.mem_erase_of_ne heq).mpr ht))

theorem collect_collects (ha : Coherent sdk refs a) (hclosed : Closed a)
    (hkey : (key, strict) ∈ a.checked) : ∃ c, collect sdk a key = some c ∧ Collects sdk refs [] [] [key] c.ancestors := by
  have hends : (DepthFirst.walk (enterNode sdk a) closeNode (collectingTurns a []) {} key).isSome = true :=
    DepthFirst.walk_isSome (collect_pays sdk a) trivial (Nat.le_refl _) key
  obtain ⟨r, hwalk⟩ := Option.isSome_iff_exists.mp hends
  cases r with
  | error e => exact e.elim
  | ok s =>
    obtain ⟨hcollects, -⟩ := visits_collects ha hclosed (DepthFirst.walk_visits hwalk)
      (fun k hk => by rw [List.mem_singleton.mp hk]; exact hkey) (fun t => Iff.rfl)
    exact ⟨s.collected, by rw [collect, hwalk]; rfl, hcollects⟩

/-- Every sequence of checks ends; and where what each cycle that a call reaches leads to assembles, a node that one of them passed collects as
the plain recursion over the pending nodes does. -/
theorem checks_sound (sdk : Sdk Proof) (refs : Refs) (hraws : DistinctRaws sdk refs) :
    (∀ calls, (checks sdk refs calls {}).isSome = true) ∧
      ∀ calls, (∀ call ∈ calls, CyclesAssemble sdk refs call.1 call.2) → ChecksSound sdk refs calls := by
  refine ⟨fun calls => checks_end hraws coherent_empty calls, fun calls hcycles => ?_⟩
  obtain ⟨⟨answers, a⟩, hrun⟩ := Option.isSome_iff_exists.mp (checks_end hraws coherent_empty calls)
  obtain ⟨ha, hclosed, -, hmarked⟩ := checks_closed hraws coherent_empty closed_empty hcycles hrun
  refine ⟨answers, a, hrun, fun i key strict hcall hok => ?_⟩
  have hkey := hmarked i (key, strict) hcall hok
  obtain ⟨c, hcollect, hcollects⟩ := collect_collects ha hclosed hkey
  refine ⟨c, hcollect, hcollects, fun out hout => hcollects.unique hout, (hcollects.nodup List.nodup_nil fun t ht => by cases ht).1,
    fun n hn hproof => ?_⟩
  obtain ⟨k, hk, y, hreach, hof⟩ := (hcollects.reached n hn).resolve_left List.not_mem_nil
  rw [List.mem_singleton.mp hk] at hreach
  obtain ⟨m, hm, hwhole, hsources⟩ := hclosed y strict (closed_reach ha hclosed hkey hreach)
  have hsame := ha.nodes y m hm
  rw [hof] at hsame
  cases hsame
  refine ⟨fun source hsource => ?_, hwhole⟩
  obtain ⟨m', hm', -⟩ := hclosed source strict (hsources source hsource)
  exact ⟨m', hm'⟩

/-! A root filed under `d.0` that spends `y.0`, and `z.0` which the graph lacks; the transaction of `y.0` spends `d.0`. -/

namespace OpenCycle

def rootKey : Text := ['d', '.', '0']

def spentKey : Text := ['y', '.', '0']

def rootTx : NodeTexts.Tx := ⟨['r'], [⟨some ['y'], 0⟩, ⟨some ['z'], 0⟩], []⟩

def spentTx : NodeTexts.Tx := ⟨['y'], [⟨some ['d'], 0⟩], []⟩

def reader : Sdk Unit where
  fromHex hex := .ok (hex.map fun c => UInt8.ofNat c.toNat)
  sha256 raw := raw
  fromBinary raw := .ok (if raw = [114] then rootTx else spentTx)
  proofFromHex _ := .error "no proof"
  blockHeight _ := 0
  computeRoot _ txid := .ok txid
  combine _ _ := .error "no proof"
  transactionError e := "transaction error: " ++ e
  toBinary _ _ := []

def pending (raw : Char) (children : List Text) : PendingNode := ⟨⟨rootKey, [raw], 0, none, none⟩, none, children⟩

def graph : Refs := (AList.insert rootKey (pending 'r' [spentKey]) ∅).insert spentKey (pending 'y' [])

def calls : List (Text × Bool) := [(rootKey, true), (spentKey, true)]

theorem distinctRaws : DistinctRaws reader graph := fun _ _ _ _ _ _ _ _ _ _ h => h

end OpenCycle

/-- The check of the root refuses it, having marked the node the cycle leads back from; that node's own check then passes, and its BEEF holds
the root, which lacks a source. -/
theorem open_cycle_marked : ¬ ChecksSound OpenCycle.reader OpenCycle.graph OpenCycle.calls := by
  rintro ⟨answers, a, hrun, hsound⟩
  have hbad : (checks OpenCycle.reader OpenCycle.graph OpenCycle.calls {}).any (fun r => (r.1[1]?).any (fun answer => answer.isOk) &&
      (collect OpenCycle.reader r.2 OpenCycle.spentKey).any fun c => c.ancestors.any fun n => n.proof.isNone && n.sources.contains none) = true := by
    decide
  rw [hrun, Option.any_some, Bool.and_eq_true] at hbad
  obtain ⟨hok, hbad⟩ := hbad
  have hanswer : answers[1]? = some (.ok ()) := by
    dsimp only at hok
    generalize answers[1]? = answer at hok ⊢
    cases answer with
    | none => cases hok
    | some answer =>
      cases answer with
      | error e => cases hok
      | ok u => rfl
  obtain ⟨c, hcollect, -, -, -, hall⟩ := hsound 1 OpenCycle.spentKey true rfl hanswer
  rw [hcollect, Option.any_some, List.any_eq_true] at hbad
  obtain ⟨n, hn, hbad⟩ := hbad
  rw [Bool.and_eq_true, Option.isNone_iff_eq_none, List.contains_iff_mem] at hbad
  exact (hall n hn hbad.1).2 rfl hbad.2

theorem Link.mem {key source : Text} (h : Link sdk refs key source) : (refs.lookup source).isSome = true := by
  obtain ⟨n, hof, hsource⟩ := h
  rw [nodeOf_eq] at hof
  cases htx : txOf sdk refs key with
  | error e =>
    rw [htx] at hof
    cases hof
  | ok tx =>
    cases hproof : proofOf sdk refs key with
    | error e =>
      rw [htx, hproof] at hof
      cases hof
    | ok proof =>
      rw [htx, hproof] at hof
      cases hof
      simp only [sourcesOf] at hsource
      split at hsource
      · cases hsource
      · obtain ⟨input, -, hinput⟩ := List.mem_map.mp hsource
        simp only [sourceOf] at hinput
        split at hinput
        · cases hinput
        · split at hinput
          · cases hinput
            assumption
          · cases hinput

theorem Reach.mem {key z : Text} (hkey : (refs.lookup key).isSome = true) (h : Reach sdk refs key z) : (refs.lookup z).isSome = true := by
  cases h with
  | refl => exact hkey
  | tail _ hlink => exact hlink.mem

theorem checks_sound_tolerant : ChecksSound OpenCycle.reader OpenCycle.graph [(OpenCycle.rootKey, false), (OpenCycle.spentKey, false)] := by
  refine (checks_sound OpenCycle.reader OpenCycle.graph OpenCycle.distinctRaws).2 _ fun call hcall y hy _ z hz => ?_
  have hcalled : call.2 = false ∧ (OpenCycle.graph.lookup call.1).isSome = true := by
    rcases List.mem_cons.mp hcall with rfl | hcall
    · exact ⟨rfl, by decide⟩
    · cases List.mem_singleton.mp hcall
      exact ⟨rfl, by decide⟩
  have hmem : z ∈ OpenCycle.graph.keys := AList.mem_keys.mp (AList.lookup_isSome.mp (hz.mem (hy.mem hcalled.2)))
  have hparses : ∀ k ∈ OpenCycle.graph.keys, (nodeOf OpenCycle.reader OpenCycle.graph k).isOk = true := by decide
  have hnode := hparses z hmem
  cases hof : nodeOf OpenCycle.reader OpenCycle.graph z with
  | error e =>
    rw [hof] at hnode
    cases hnode
  | ok n => exact ⟨n, hof, fun hstrict => by rw [hcalled.1] at hstrict; cases hstrict⟩

end OverlayEngine.GraphAssembly
