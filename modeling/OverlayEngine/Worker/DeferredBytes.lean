import Mathlib.Tactic.IntervalCases
import OverlayEngine.Basis.Entrywise
import OverlayEngine.Types
import OverlayEngine.Worker.DeferredJobsWhole

/-!
# The bytes of a deferred submission

What is put at rest is the BEEF and then the off-chain values, cut into spans out
of the two. A run joins the spans, splits the stream where the row says, and
checks the reference: the digest of the topics' JSON, the BEEF and the values,
each framed by its length.
-/

namespace OverlayEngine.DeferredJobs

open Entrywise

/-! ## The topics as JSON -/

def quote : Char := Char.ofNat 34
def backslash : Char := Char.ofNat 92

def shortEscape : Nat → Option Char
  | 8 => some 'b'
  | 9 => some 't'
  | 10 => some 'n'
  | 12 => some 'f'
  | 13 => some 'r'
  | 34 => some quote
  | 92 => some backslash
  | _ => none

def hexDigit (n : Nat) : Char := Char.ofNat (if n < 10 then 48 + n else 87 + n)

def escaped (c : Char) : List Char :=
  match shortEscape c.toNat with
  | some letter => [backslash, letter]
  | none => if c.toNat < 32 then [backslash, 'u', '0', '0', hexDigit (c.toNat / 16), hexDigit (c.toNat % 16)] else [c]

def jsonString (s : String) : List Char := quote :: (s.toList.flatMap escaped ++ [quote])

def jsonRest : List String → List Char
  | [] => [']']
  | s :: rest => ',' :: (jsonString s ++ jsonRest rest)

/-- `serde_json::to_string` of the topics. -/
def topicsJson : List String → List Char
  | [] => ['[', ']']
  | s :: rest => '[' :: (jsonString s ++ jsonRest rest)

/-! ## What is submitted -/

def utf8 (json : List Char) : Bytes := (String.ofList json).toByteArray.data.toList

/-- The lengths a `u64` frames. -/
def wordSize : Nat := 18446744073709551616

def Framable (part : Bytes) : Prop := part.length < wordSize

/-- `TaggedBEEF`, each part in memory. -/
structure TaggedBeef where
  topics : List String
  beef : Bytes
  offChainValues : Option Bytes := none
  framable : Framable (utf8 (topicsJson topics)) ∧ Framable beef ∧ ∀ values ∈ offChainValues, Framable values

def leBytes : Nat → Nat → Bytes
  | 0, _ => []
  | k + 1, n => UInt8.ofNat n :: leBytes k (n / 256)

def framePart : Option Bytes → Bytes
  | some part => 1 :: (leBytes 8 part.length ++ part)
  | none => [0]

/-- What `job_reference` digests. -/
def framed (topicsJson beef : Bytes) (offChain : Option Bytes) : Bytes := [some topicsJson, some beef, offChain].flatMap framePart

/-- `&v[start..stop]`; none: out of bounds. -/
def slice (v : Bytes) (start stop : Nat) : Option Bytes :=
  if start ≤ stop ∧ stop ≤ v.length then some ((v.drop start).take (stop - start)) else none

/-- What `run_job` makes of the stream: the BEEF, and the off-chain values. -/
def splitStream (beefLen : Nat) (hasOffChain : Bool) (stream : Bytes) : Bytes × Option Bytes :=
  let split := min beefLen stream.length
  (stream.take split, if hasOffChain then some (stream.drop split) else none)

namespace TaggedBeef

variable (t : TaggedBeef)

def rest : Bytes := t.offChainValues.getD []

def total : Nat := t.beef.length + t.rest.length

def stream : Bytes := t.beef ++ t.rest

/-- `span` of `put_at_rest`. -/
def span (start stop : Nat) : Option Bytes :=
  let head := if start < t.beef.length then slice t.beef start (min stop t.beef.length) else some []
  let tail := if t.beef.length < stop then slice t.rest (max start t.beef.length - t.beef.length) (stop - t.beef.length) else some []
  head.bind fun h => tail.map fun r => h ++ r

def framed : Bytes := DeferredJobs.framed (utf8 (topicsJson t.topics)) t.beef t.offChainValues

/-! ## The spans -/

variable {t}

theorem length_stream : t.stream.length = t.total := List.length_append

theorem span_eq {start stop : Nat} (hle : start ≤ stop) (htotal : stop ≤ t.total) :
    t.span start stop = some ((t.stream.drop start).take (stop - start)) := by
  have hrest : stop - t.beef.length ≤ t.rest.length := by
    rw [total] at htotal
    omega
  rw [span, stream]
  by_cases hstart : start < t.beef.length
  · have hhead : start ≤ min stop t.beef.length ∧ min stop t.beef.length ≤ t.beef.length := by omega
    rw [if_pos hstart, slice, if_pos hhead, List.drop_append_of_le_length (Nat.le_of_lt hstart), List.take_append, List.length_drop]
    by_cases hstop : t.beef.length < stop
    · have hmax : max start t.beef.length - t.beef.length = 0 := by omega
      have hover : stop - start - (t.beef.length - start) = stop - t.beef.length := by omega
      have hmin : min stop t.beef.length - start = (t.beef.drop start).length := by
        rw [List.length_drop]
        omega
      have hall : (t.beef.drop start).length ≤ stop - start := by
        rw [List.length_drop]
        omega
      rw [if_pos hstop, hmax, slice, if_pos ⟨Nat.zero_le _, hrest⟩, hover, hmin, List.take_length, List.take_of_length_le hall]
      rfl
    · have hmin : min stop t.beef.length = stop := by omega
      have hover : stop - start - (t.beef.length - start) = 0 := by omega
      rw [if_neg hstop, hmin, hover]
      simp
  · rw [if_neg hstart]
    by_cases hstop : t.beef.length < stop
    · have hmax : max start t.beef.length - t.beef.length = start - t.beef.length := by omega
      have hsize : stop - t.beef.length - (start - t.beef.length) = stop - start := by omega
      rw [if_pos hstop, hmax, slice, if_pos ⟨by omega, hrest⟩, hsize, List.drop_append, List.drop_eq_nil_of_le (Nat.le_of_not_lt hstart)]
      rfl
    · have hnone : stop - start = 0 := by omega
      rw [if_neg hstop, hnone, List.take_zero]
      rfl

end TaggedBeef

variable {chunk : Nat}

theorem mem_chunkSpans {len : Nat} (hchunk : 0 < chunk) {p : Nat × Nat} (h : p ∈ chunkSpans len chunk) :
    p.1 ≤ p.2 ∧ p.2 ≤ len ∧ p.2 - p.1 ≤ chunk := by
  rw [chunkSpans] at h
  split at h
  · rw [List.mem_singleton.mp h]
    simp
  · obtain ⟨i, hi, rfl⟩ := List.mem_map.mp h
    have hmul : (i + 1) * chunk ≤ len + chunk - 1 := (Nat.le_div_iff_mul_le hchunk).mp (List.mem_range.mp hi)
    rw [Nat.succ_mul] at hmul ⊢
    simp only
    omega

theorem flatten_chunkSpans (stream : Bytes) (hchunk : 0 < chunk) :
    ((chunkSpans stream.length chunk).map fun p => (stream.drop p.1).take (p.2 - p.1)).flatten = stream := by
  rw [chunkSpans]
  by_cases hlen : stream.length = 0
  · simp [List.length_eq_zero_iff.mp hlen]
  · rw [if_neg hlen, List.map_map]
    refine (flatten_spans stream chunk _).trans (List.take_of_length_le ?_)
    have hdiv := Nat.div_add_mod (stream.length + chunk - 1) chunk
    have hmod := Nat.mod_lt (stream.length + chunk - 1) hchunk
    rw [Nat.mul_comm]
    omega

theorem TaggedBeef.mapM_span (t : TaggedBeef) (hchunk : 0 < chunk) :
    (chunkSpans t.total chunk).mapM (fun p => t.span p.1 p.2) =
      some ((chunkSpans t.total chunk).map fun p => (t.stream.drop p.1).take (p.2 - p.1)) := by
  refine mapM_some_iff.mpr (List.forall₂_map_right_iff.mpr (List.forall₂_same.mpr fun p hp => ?_))
  obtain ⟨hle, htotal, -⟩ := mem_chunkSpans hchunk hp
  exact span_eq hle htotal

theorem TaggedBeef.pieces (t : TaggedBeef) (hchunk : 0 < chunk) :
    ∃ pieces, (chunkSpans t.total chunk).mapM (fun p => t.span p.1 p.2) = some pieces ∧ pieces.flatten = t.stream ∧ ∀ piece ∈ pieces, piece.length ≤ chunk := by
  refine ⟨_, t.mapM_span hchunk, ?_, fun piece hpiece => ?_⟩
  · rw [← length_stream]
    exact flatten_chunkSpans t.stream hchunk
  · obtain ⟨p, hp, rfl⟩ := List.mem_map.mp hpiece
    exact Nat.le_trans (List.length_take_le _ _) (mem_chunkSpans hchunk hp).2.2

theorem TaggedBeef.split_stream (t : TaggedBeef) :
    splitStream t.beef.length t.offChainValues.isSome t.stream = (t.beef, t.offChainValues) := by
  have hmin : min t.beef.length t.stream.length = t.beef.length := by
    rw [length_stream, total]
    omega
  rw [splitStream, hmin, stream, rest]
  cases t.offChainValues <;> simp

/-! ## What is framed is read back -/

theorem leBytes_inj {k m n : Nat} (hm : m < 256 ^ k) (hn : n < 256 ^ k) (h : leBytes k m = leBytes k n) : m = n := by
  induction k generalizing m n with
  | zero => omega
  | succ k ih =>
    rw [leBytes, leBytes, List.cons.injEq] at h
    rw [Nat.pow_succ] at hm hn
    have hlow : m % 256 = n % 256 := by simpa using congrArg UInt8.toNat h.1
    have hhigh : m / 256 = n / 256 := ih (by omega) (by omega) h.2
    omega

theorem length_leBytes (k n : Nat) : (leBytes k n).length = k := by
  induction k generalizing n with
  | zero => rfl
  | succ k ih => rw [leBytes, List.length_cons, ih]

theorem framePart_append_inj {p q : Option Bytes} (hp : ∀ part ∈ p, Framable part) (hq : ∀ part ∈ q, Framable part) {x y : Bytes}
    (h : framePart p ++ x = framePart q ++ y) : p = q ∧ x = y := by
  cases p with
  | none =>
    cases q with
    | none => simpa [framePart] using h
    | some b => simp [framePart] at h
  | some a =>
    cases q with
    | none => simp [framePart] at h
    | some b =>
      simp only [framePart, List.cons_append, List.cons.injEq, true_and, List.append_assoc] at h
      obtain ⟨hlength, hrest⟩ := List.append_inj h (by rw [length_leBytes, length_leBytes])
      have hword : (256 : Nat) ^ 8 = wordSize := by decide
      have hsame : a.length = b.length := by
        apply leBytes_inj _ _ hlength
        · rw [hword]
          exact hp a rfl
        · rw [hword]
          exact hq b rfl
      obtain ⟨hpart, htail⟩ := List.append_inj hrest hsame
      exact ⟨by rw [hpart], htail⟩

def readChar : List Char → Option (Char × List Char)
  | [] => none
  | c :: rest =>
    if c = quote then none
    else if c = backslash then match rest with
      | 'b' :: rest => some (Char.ofNat 8, rest)
      | 't' :: rest => some (Char.ofNat 9, rest)
      | 'n' :: rest => some (Char.ofNat 10, rest)
      | 'f' :: rest => some (Char.ofNat 12, rest)
      | 'r' :: rest => some (Char.ofNat 13, rest)
      | 'u' :: _ :: _ :: high :: low :: rest =>
        let digit (h : Char) : Nat := if h.toNat < 58 then h.toNat - 48 else h.toNat - 87
        some (Char.ofNat (16 * digit high + digit low), rest)
      | e :: rest => some (e, rest)
      | [] => none
    else some (c, rest)

theorem readChar_escaped (c : Char) (rest : List Char) : readChar (escaped c ++ rest) = some (c, rest) := by
  by_cases hspecial : c.toNat < 32 ∨ c.toNat = 34 ∨ c.toNat = 92
  · have hc : c = Char.ofNat c.toNat := (Char.ofNat_toNat c).symm
    generalize c.toNat = n at hc hspecial
    subst hc
    rcases hspecial with hcontrol | rfl | rfl
    · interval_cases n <;> rfl
    · rfl
    · rfl
  · simp only [not_or] at hspecial
    have hshort : shortEscape c.toNat = none := by
      unfold shortEscape
      split <;> first | rfl | omega
    have hquote : c ≠ quote := fun h => hspecial.2.1 (by rw [h]; rfl)
    have hbackslash : c ≠ backslash := fun h => hspecial.2.2 (by rw [h]; rfl)
    rw [escaped, hshort]
    simp [readChar, hspecial.1, hquote, hbackslash]

variable {s t x y : List Char}

theorem escaped_append_inj (h : s.flatMap escaped ++ quote :: x = t.flatMap escaped ++ quote :: y) : s = t ∧ x = y := by
  have hquote (z : List Char) : readChar (quote :: z) = none := rfl
  induction s generalizing t with
  | nil =>
    cases t with
    | nil => simpa using h
    | cons d t =>
      have hread := congrArg readChar h
      rw [List.flatMap_nil, List.nil_append, hquote, List.flatMap_cons, List.append_assoc, readChar_escaped] at hread
      cases hread
  | cons c s ih =>
    cases t with
    | nil =>
      have hread := congrArg readChar h
      rw [List.flatMap_nil, List.nil_append, hquote, List.flatMap_cons, List.append_assoc, readChar_escaped] at hread
      cases hread
    | cons d t =>
      have hread := congrArg readChar h
      rw [List.flatMap_cons, List.flatMap_cons, List.append_assoc, List.append_assoc, readChar_escaped, readChar_escaped, Option.some.injEq,
        Prod.mk.injEq] at hread
      obtain ⟨hsame, hrest⟩ := ih hread.2
      exact ⟨by rw [hread.1, hsame], hrest⟩

theorem jsonString_append_inj {s t : String} (h : jsonString s ++ x = jsonString t ++ y) : s = t ∧ x = y := by
  simp only [jsonString, List.cons_append, List.cons.injEq, true_and, List.append_assoc, List.nil_append] at h
  obtain ⟨hsame, hrest⟩ := escaped_append_inj h
  exact ⟨String.toList_inj.mp hsame, hrest⟩

theorem jsonRest_inj {l k : List String} (h : jsonRest l = jsonRest k) : l = k := by
  induction l generalizing k with
  | nil =>
    cases k with
    | nil => rfl
    | cons t k => simp [jsonRest] at h
  | cons s l ih =>
    cases k with
    | nil => simp [jsonRest] at h
    | cons t k =>
      rw [jsonRest, jsonRest, List.cons.injEq] at h
      obtain ⟨hsame, hrest⟩ := jsonString_append_inj h.2
      rw [hsame, ih hrest]

theorem topicsJson_inj {l k : List String} (h : topicsJson l = topicsJson k) : l = k := by
  cases l with
  | nil =>
    cases k with
    | nil => rfl
    | cons t k => simp [topicsJson, jsonString, quote] at h
  | cons s l =>
    cases k with
    | nil => simp [topicsJson, jsonString, quote] at h
    | cons t k =>
      rw [topicsJson, topicsJson, List.cons.injEq] at h
      obtain ⟨hsame, hrest⟩ := jsonString_append_inj h.2
      rw [hsame, jsonRest_inj hrest]

theorem utf8_inj (h : utf8 s = utf8 t) : s = t := by
  have hbytes : (String.ofList s).toByteArray = (String.ofList t).toByteArray := ByteArray.ext (Array.toList_inj.mp h)
  exact String.ofList_inj.mp (String.toByteArray_inj.mp hbytes)

theorem TaggedBeef.framed_inj {t u : TaggedBeef} (h : t.framed = u.framed) : t = u := by
  obtain ⟨htopics, hbeef, hvalues⟩ := t.framable
  obtain ⟨hutopics, hubeef, huvalues⟩ := u.framable
  have hsome {part : Bytes} (hpart : Framable part) : ∀ p ∈ some part, Framable p := fun p hp => Option.some.inj hp ▸ hpart
  simp only [framed, DeferredJobs.framed, List.flatMap_cons, List.flatMap_nil] at h
  obtain ⟨hjson, h⟩ := framePart_append_inj (hsome htopics) (hsome hutopics) h
  obtain ⟨hsame, h⟩ := framePart_append_inj (hsome hbeef) (hsome hubeef) h
  obtain ⟨hoff, -⟩ := framePart_append_inj hvalues huvalues h
  cases t
  cases u
  simp only [TaggedBeef.mk.injEq]
  exact ⟨topicsJson_inj (utf8_inj (Option.some.inj hjson)), Option.some.inj hsame, hoff⟩

/-! ## Put at rest and read back -/

/-- The pieces of any chunk size join to the BEEF and the off-chain values, whole and in bounds; an object holds the same; the run splits
    them apart again; and no other submission frames the same bytes. -/
theorem TaggedBeef.round_trip (t : TaggedBeef) {chunk : Nat} (hchunk : 0 < chunk) :
    (∃ pieces, (chunkSpans t.total chunk).mapM (fun p => t.span p.1 p.2) = some pieces ∧ pieces.flatten = t.beef ++ t.offChainValues.getD [] ∧
        (∀ piece ∈ pieces, piece.length ≤ chunk) ∧
        splitStream t.beef.length t.offChainValues.isSome pieces.flatten = (t.beef, t.offChainValues)) ∧
      t.span 0 t.total = some (t.beef ++ t.offChainValues.getD []) ∧ ∀ u : TaggedBeef, u ≠ t → u.framed ≠ t.framed := by
  obtain ⟨pieces, hpieces, hjoin, hlength⟩ := t.pieces hchunk
  refine ⟨⟨pieces, hpieces, hjoin, hlength, ?_⟩, ?_, fun u hne h => hne (framed_inj h)⟩
  · rw [hjoin]
    exact t.split_stream
  · have hwhole : t.stream.length ≤ t.total := Nat.le_of_eq length_stream
    rw [span_eq (Nat.zero_le _) (Nat.le_refl _), List.drop_zero, Nat.sub_zero, List.take_of_length_le hwhole]
    rfl

theorem TaggedBeef.round_trip_values : ∃ t : TaggedBeef, t.topics = ["tm_pot"] ∧ t.beef = [1, 2, 3] ∧ t.offChainValues = some [4] ∧
    t.span 0 t.total = some (t.beef ++ t.offChainValues.getD []) ∧
    ∃ pieces, (chunkSpans t.total 2).mapM (fun p => t.span p.1 p.2) = some pieces ∧ pieces.flatten = t.beef ++ t.offChainValues.getD [] := by
  have hframable : Framable (utf8 (topicsJson ["tm_pot"])) ∧ Framable [1, 2, 3] ∧ ∀ values ∈ some [4], Framable values :=
    ⟨show _ < _ by decide, show _ < _ by decide, fun values h => Option.some.inj h ▸ show _ < _ by decide⟩
  obtain ⟨⟨pieces, hpieces, hjoin, -, -⟩, hobject, -⟩ := TaggedBeef.round_trip ⟨["tm_pot"], [1, 2, 3], some [4], hframable⟩ (show 0 < 2 by decide)
  exact ⟨_, rfl, rfl, rfl, hobject, pieces, hpieces, hjoin⟩

end OverlayEngine.DeferredJobs
