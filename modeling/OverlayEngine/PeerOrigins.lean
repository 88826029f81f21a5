import Mathlib.Algebra.Order.BigOperators.Group.List
import Mathlib.Algebra.Order.Group.Nat
import Mathlib.Data.Char
import Mathlib.Data.List.Lex
import Mathlib.Data.Prod.Lex
import OverlayEngine.Basis.AsciiCase
import OverlayEngine.Basis.LeastByKey
import OverlayEngine.Basis.TextCuts
import OverlayEngine.Worker.ArcadeStamp

/-!
# One peer an origin

`peer_origin`, `peer_authority` and `ship_peers_by_origin` of
`crates/overlay-engine/src/gasp.rs`: the advertised domains of a topic are read
as URLs, and of the spellings of one origin the first by rank is kept.
-/

namespace OverlayEngine.PeerOrigins

open ArcadeStamp (isWhitespace trim)
open TextCuts (splitOnce Clear)

abbrev Text := List Char

/-! ## The parse -/

def toAsciiLowercase (s : Text) : Text := s.map Char.toLower

def separator : Text := [':', '/', '/']

def https : Text := ['h', 't', 't', 'p', 's']

def http : Text := ['h', 't', 't', 'p']

structure Authority where
  scheme : Text
  host : Text
  port : Option Text
  deriving DecidableEq

def stripColon : Text → Option Text
  | ':' :: port => some port
  | _ => none

def hostAndPort (hostPort : Text) : Text × Option Text :=
  match hostPort with
  | '[' :: v6 =>
    match splitOnce [']'] v6 with
    | some (addr, after) => ('[' :: addr ++ [']'], stripColon after)
    | none => (hostPort, none)
  | _ =>
    match splitOnce [':'] hostPort with
    | some (host, port) => (host, some port)
    | none => (hostPort, none)

def defaultPort (scheme : Text) : Text :=
  if scheme = https then ['4', '4', '3'] else if scheme = http then ['8', '0'] else []

def schemeAndRest (url : Text) : Text × Text := (splitOnce separator url).getD (https, url)

def hostPortOf (rest : Text) : Text := (rest.takeWhile (· ∉ ['/', '?', '#'])).rtakeWhile (· ≠ '@')

def keptPort (scheme : Text) (port : Option Text) : Option Text := port.filter fun p => !p.isEmpty && decide (p ≠ defaultPort scheme)

def trimDots (host : Text) : Text := host.rdropWhile (· = '.')

def peerAuthority (url : Text) : Authority :=
  let (scheme, rest) := schemeAndRest (trim url)
  let scheme := toAsciiLowercase scheme
  let (host, port) := hostAndPort (hostPortOf rest)
  ⟨scheme, toAsciiLowercase (trimDots host), keptPort scheme port⟩

def peerOrigin (url : Text) : Text := (peerAuthority url).host

/-! ## One spelling an origin -/

def portText : Option Text → Text
  | some port => ':' :: port
  | none => []

def canonical (a : Authority) : Text := a.scheme ++ separator ++ a.host ++ portText a.port

abbrev Rank := Bool ×ₗ Bool ×ₗ Text

def rank (a : Authority) : Rank := toLex (decide (a.scheme ≠ https), toLex (a.port.isSome, canonical a))

def note (byOrigin : AList fun _ : Text => Rank × Text) (domain : Text) : AList fun _ : Text => Rank × Text :=
  let a := peerAuthority domain
  if a.host.isEmpty then byOrigin else LeastByKey.offer Prod.fst byOrigin (a.host, (rank a, canonical a))

def byOrigin (domains : List Text) : AList fun _ : Text => Rank × Text := domains.foldl note ∅

def shipPeersByOrigin (domains : List Text) : List Text := LeastByKey.sortedValues Prod.snd (byOrigin domains)

/-! ## What the parse gives -/

/-- A host and the port after it, as `hostAndPort` cuts them. -/
inductive Cut : Text → Option Text → Prop where
  | bracketed {addr : Text} {port : Option Text} : ']' ∉ addr → Cut ('[' :: addr ++ [']']) port
  | unclosed {v6 : Text} : ']' ∉ v6 → Cut ('[' :: v6) none
  | plain {host : Text} {port : Option Text} : ':' ∉ host → host.head? ≠ some '[' → Cut host port

variable {s : Text}

theorem hostAndPort_plain (h : s.head? ≠ some '[') :
    hostAndPort s = match splitOnce [':'] s with | some (host, port) => (host, some port) | none => (s, none) := by
  unfold hostAndPort
  split
  · exact absurd rfl h
  · rfl

theorem cut_hostAndPort (s : Text) : Cut (hostAndPort s).1 (hostAndPort s).2 ∧
    (hostAndPort s).1 ++ portText (hostAndPort s).2 <+: s := by
  by_cases hbracket : s.head? = some '['
  · obtain ⟨v6, rfl⟩ : ∃ v6, s = '[' :: v6 := by
      cases s with
      | nil => cases hbracket
      | cons c cs =>
        cases hbracket
        exact ⟨cs, rfl⟩
    cases hsplit : splitOnce [']'] v6 with
    | none =>
      have heq : hostAndPort ('[' :: v6) = ('[' :: v6, none) := by simp only [hostAndPort, hsplit]
      rw [heq]
      exact ⟨.unclosed (TextCuts.splitOnce_eq_none.mp hsplit), by simp [portText]⟩
    | some cut =>
      obtain ⟨addr, after⟩ := cut
      obtain ⟨rfl, haddr⟩ := TextCuts.splitOnce_singleton.mp hsplit
      have heq : hostAndPort ('[' :: (addr ++ ']' :: after)) = ('[' :: addr ++ [']'], stripColon after) := by
        simp only [hostAndPort, hsplit]
      rw [heq]
      refine ⟨.bracketed haddr, ?_⟩
      have hport : portText (stripColon after) <+: after := by
        unfold stripColon
        split
        · exact List.prefix_rfl
        · exact List.nil_prefix
      obtain ⟨rest, hrest⟩ := hport
      exact ⟨rest, by simp [hrest]⟩
  · rw [hostAndPort_plain hbracket]
    cases hsplit : splitOnce [':'] s with
    | none => exact ⟨.plain (TextCuts.splitOnce_eq_none.mp hsplit) hbracket, by simp [portText]⟩
    | some cut =>
      obtain ⟨host, port⟩ := cut
      obtain ⟨rfl, hhost⟩ := TextCuts.splitOnce_singleton.mp hsplit
      refine ⟨.plain hhost fun hhead => hbracket ?_, List.prefix_rfl⟩
      cases host with
      | nil => cases hhead
      | cons c cs => exact hhead

variable {port : Option Text} {host : Text}

theorem hostAndPort_of_cut (h : Cut host port) : hostAndPort (host ++ portText port) = (host, port) := by
  cases h with
  | @bracketed addr _ haddr =>
    have hsplit : splitOnce [']'] (addr ++ ']' :: portText port) = some (addr, portText port) :=
      TextCuts.splitOnce_singleton.mpr ⟨rfl, haddr⟩
    have happend : '[' :: addr ++ [']'] ++ portText port = '[' :: (addr ++ ']' :: portText port) := by simp
    have hstrip : stripColon (portText port) = port := by cases port <;> rfl
    rw [happend]
    simp only [hostAndPort, hsplit, hstrip]
  | @unclosed v6 hv6 =>
    have hsplit : splitOnce [']'] v6 = none := TextCuts.splitOnce_eq_none.mpr hv6
    rw [portText, List.append_nil]
    simp only [hostAndPort, hsplit]
  | plain hhost hhead =>
    cases port with
    | none =>
      rw [portText, List.append_nil, hostAndPort_plain hhead, TextCuts.splitOnce_eq_none.mpr hhost]
    | some port =>
      have hhead' : (host ++ portText (some port)).head? ≠ some '[' := by
        cases host with
        | nil => simp [portText]
        | cons c cs => exact hhead
      have hsplit : splitOnce [':'] (host ++ portText (some port)) = some (host, port) := TextCuts.splitOnce_singleton.mpr ⟨rfl, hhost⟩
      rw [hostAndPort_plain hhead', hsplit]

theorem Cut.filter (h : Cut host port) (p : Text → Bool) : Cut host (port.filter p) := by
  cases h with
  | bracketed haddr => exact .bracketed haddr
  | unclosed hv6 => exact .unclosed hv6
  | plain hhost hhead => exact .plain hhost hhead

variable {c : Char}

theorem mem_lower (hc : ¬('a'.val ≤ c.val ∧ c.val ≤ 'z'.val)) (h : c ∈ toAsciiLowercase s) : c ∈ s := by
  obtain ⟨d, hd, hlower⟩ := List.mem_map.mp h
  exact AsciiCase.eq_of_toLower hlower hc ▸ hd

theorem head_lower (hc : ¬('a'.val ≤ c.val ∧ c.val ≤ 'z'.val)) (h : (toAsciiLowercase s).head? = some c) :
    s.head? = some c := by
  cases s with
  | nil => cases h
  | cons d ds => exact congrArg some (AsciiCase.eq_of_toLower (Option.some_inj.mp h) hc)

theorem Cut.lower (h : Cut host port) : Cut (toAsciiLowercase host) port := by
  cases h with
  | @bracketed addr _ haddr =>
    have heq : toAsciiLowercase ('[' :: addr ++ [']']) = '[' :: toAsciiLowercase addr ++ [']'] := by simp [toAsciiLowercase]
    rw [heq]
    exact .bracketed fun h => haddr (mem_lower (by decide) h)
  | unclosed hv6 => exact .unclosed fun h => hv6 (mem_lower (by decide) h)
  | plain hhost hhead => exact .plain (fun h => hhost (mem_lower (by decide) h)) fun h => hhead (head_lower (by decide) h)

theorem Cut.dots (h : Cut host port) : Cut (trimDots host) port := by
  cases h with
  | @bracketed addr _ haddr =>
    have heq : trimDots ('[' :: addr ++ [']']) = '[' :: addr ++ [']'] := List.rdropWhile_concat_neg _ _ _ (by decide)
    rw [heq]
    exact .bracketed haddr
  | @unclosed v6 hv6 =>
    have hpre : trimDots ('[' :: v6) <+: '[' :: v6 := List.rdropWhile_prefix _ _
    have hne : trimDots ('[' :: v6) ≠ [] := fun hnil => absurd (List.rdropWhile_eq_nil_iff.mp hnil '[' List.mem_cons_self) (by decide)
    obtain ⟨c, cs, hcs⟩ := List.exists_cons_of_ne_nil hne
    rw [hcs] at hpre ⊢
    obtain ⟨rfl, htail⟩ := List.cons_prefix_cons.mp hpre
    exact .unclosed fun h => hv6 (htail.subset h)
  | plain hhost hhead =>
    have hpre : trimDots host <+: host := List.rdropWhile_prefix _ _
    refine .plain (fun h => hhost (hpre.subset h)) fun h => hhead ?_
    obtain ⟨rest, hrest⟩ := hpre
    cases hdots : trimDots host with
    | nil =>
      rw [hdots] at h
      cases h
    | cons c cs =>
      rw [hdots] at h hrest
      rw [← hrest]
      exact h

structure Authority.Read (a : Authority) : Prop where
  schemeHead : ∀ c, a.scheme.head? = some c → isWhitespace c = false
  schemeClear : Clear separator a.scheme
  schemeLower : toAsciiLowercase a.scheme = a.scheme
  hostLower : toAsciiLowercase a.host = a.host
  hostDots : trimDots a.host = a.host
  chars : ∀ c ∈ a.host ++ portText a.port, c ∉ ['/', '?', '#', '@']
  port : keptPort a.scheme a.port = a.port
  cut : Cut a.host a.port

theorem isWhitespace_toLower (c : Char) : isWhitespace c.toLower = isWhitespace c := by
  rcases AsciiCase.toLower_cases c with hc | ⟨⟨hlow, hhigh⟩, hlow', hhigh'⟩
  · rw [hc]
  · have hspace {d : Char} (h1 : 65 ≤ d.toNat) (h2 : d.toNat ≤ 122) : isWhitespace d = false := by
      simp only [isWhitespace, Bool.or_eq_false_iff, Bool.and_eq_false_iff, decide_eq_false_iff_not, beq_eq_false_iff_ne]
      omega
    have h1 : 65 ≤ c.toNat := UInt32.le_iff_toNat_le.mp hlow
    have h2 : c.toNat ≤ 90 := UInt32.le_iff_toNat_le.mp hhigh
    have h3 : 97 ≤ c.toLower.toNat := UInt32.le_iff_toNat_le.mp hlow'
    have h4 : c.toLower.toNat ≤ 122 := UInt32.le_iff_toNat_le.mp hhigh'
    rw [hspace (by omega) (by omega), hspace (by omega) (by omega)]

theorem trim_head (h : (trim s).head? = some c) : isWhitespace c = false := by
  have hpre : trim s <+: s.dropWhile isWhitespace := List.rdropWhile_prefix _ _
  obtain ⟨rest, hrest⟩ := hpre
  have hhead : (s.dropWhile isWhitespace).head? = some c := by
    rw [← hrest, List.head?_append, h]
    rfl
  have hnot := List.head?_dropWhile_not isWhitespace s
  rw [hhead] at hnot
  exact hnot

theorem schemeAndRest_spec (url : Text) : Clear separator (schemeAndRest url).1 ∧
    ((schemeAndRest url = (https, url) ∧ splitOnce separator url = none) ∨ url = (schemeAndRest url).1 ++ separator ++ (schemeAndRest url).2) := by
  unfold schemeAndRest
  cases hsplit : splitOnce separator url with
  | none =>
    refine ⟨fun x hx hne hpre => ?_, .inl ⟨rfl, rfl⟩⟩
    have hin : ':' ∈ https := by
      cases x with
      | nil => exact absurd rfl hne
      | cons c cs =>
        obtain ⟨rfl, -⟩ := List.cons_prefix_cons.mp hpre
        exact hx.subset List.mem_cons_self
    exact absurd hin (by decide)
  | some cut =>
    obtain ⟨rfl, hclear⟩ := TextCuts.splitOnce_eq_some.mp hsplit
    exact ⟨hclear, .inr rfl⟩

theorem lower_idem (s : Text) : toAsciiLowercase (toAsciiLowercase s) = toAsciiLowercase s := AsciiCase.map_toLower_idem s

theorem trimDots_lower (h : trimDots host = host) : trimDots (toAsciiLowercase host) = toAsciiLowercase host := by
  refine List.rdropWhile_eq_self_iff.mpr fun hne => ?_
  have hne' : host ≠ [] := fun hnil => hne (by rw [hnil]; rfl)
  have hlast := List.rdropWhile_eq_self_iff.mp h hne'
  have heq : (toAsciiLowercase host).getLast hne = (host.getLast hne').toLower := List.getLast_map _
  rw [heq]
  intro hdot
  have hdot : (host.getLast hne').toLower = '.' := of_decide_eq_true hdot
  exact hlast (decide_eq_true (AsciiCase.eq_of_toLower hdot (by decide)))

theorem keptPort_cases (scheme : Text) (port : Option Text) : keptPort scheme port = none ∨ keptPort scheme port = port := by
  cases port with
  | none => exact .inl rfl
  | some p =>
    rw [keptPort, Option.filter_some]
    split
    · exact .inr rfl
    · exact .inl rfl

theorem keptPort_idem (scheme : Text) (port : Option Text) : keptPort scheme (keptPort scheme port) = keptPort scheme port := by
  rcases keptPort_cases scheme port with h | h
  · rw [h]
    rfl
  · rw [h, h]

theorem read_peerAuthority (url : Text) : (peerAuthority url).Read := by
  obtain ⟨hclear, hsplit⟩ := schemeAndRest_spec (trim url)
  obtain ⟨hcut, hpre⟩ := cut_hostAndPort (hostPortOf (schemeAndRest (trim url)).2)
  have hseparator : ∀ p ∈ separator, ¬('a'.val ≤ p.val ∧ p.val ≤ 'z'.val) := by simp [separator]
  refine ⟨fun c hc => ?_, hclear.map (by simp [separator]) fun p hp c hcp => AsciiCase.eq_of_toLower hcp (hseparator p hp), lower_idem _, lower_idem _,
    trimDots_lower (List.rdropWhile_idempotent _ _), fun c hc => ?_, ?_, (hcut.dots.lower).filter _⟩
  · have hc : (toAsciiLowercase (schemeAndRest (trim url)).1).head? = some c := hc
    obtain ⟨d, hd, rfl⟩ : ∃ d, (schemeAndRest (trim url)).1.head? = some d ∧ d.toLower = c := by
      cases hscheme : (schemeAndRest (trim url)).1 with
      | nil =>
        rw [hscheme] at hc
        cases hc
      | cons d ds =>
        rw [hscheme] at hc
        exact ⟨d, rfl, Option.some_inj.mp hc⟩
    rw [isWhitespace_toLower]
    rcases hsplit with ⟨heq, -⟩ | heq
    · rw [heq] at hd
      cases hd
      decide
    · apply trim_head (s := url)
      rw [heq, List.append_assoc, List.head?_append, hd]
      rfl
  · have hlow : ∀ d ∈ ['/', '?', '#', '@'], ¬('a'.val ≤ d.val ∧ d.val ≤ 'z'.val) := by simp
    intro hbad
    have hmem : c ∈ hostPortOf (schemeAndRest (trim url)).2 := by
      rcases List.mem_append.mp hc with hc | hc
      · have hc := mem_lower (hlow c hbad) hc
        exact hpre.subset (List.mem_append_left _ ((List.rdropWhile_prefix _ _).subset hc))
      · refine hpre.subset (List.mem_append_right _ ?_)
        have hport : (peerAuthority url).port = none ∨ (peerAuthority url).port = (hostAndPort (hostPortOf (schemeAndRest (trim url)).2)).2 :=
          keptPort_cases _ _
        rcases hport with hport | hport
        · rw [hport] at hc
          cases hc
        · rwa [hport] at hc
    unfold hostPortOf at hmem
    have hat : c ≠ '@' := by simpa using List.mem_rtakeWhile_imp hmem
    have hend : c ∉ ['/', '?', '#'] := by simpa using List.mem_takeWhile_imp ((List.rtakeWhile_suffix _ _).subset hmem)
    rcases List.mem_append.mp (show c ∈ ['/', '?', '#'] ++ ['@'] from hbad) with hbad | hbad
    · exact hend hbad
    · exact hat (List.mem_singleton.mp hbad)
  · exact keptPort_idem _ _

def Padded (a : Authority) : Prop := ∃ c, (a.port.getD a.host).getLast? = some c ∧ isWhitespace c = true

instance (a : Authority) : Decidable (Padded a) :=
  match h : (a.port.getD a.host).getLast? with
  | none => .isFalse fun ⟨c, hc, _⟩ => by rw [h] at hc; cases hc
  | some c => if hc : isWhitespace c = true then .isTrue ⟨c, h, hc⟩ else .isFalse fun ⟨d, hd, hspace⟩ => by
      rw [h] at hd
      cases hd
      exact hc hspace

variable {a : Authority}

theorem getLast?_canonical (ha : a.Read) (hhost : a.host ≠ []) : (canonical a).getLast? = (a.port.getD a.host).getLast? := by
  cases hport : a.port with
  | none =>
    rw [canonical, hport, portText, List.append_nil, List.getLast?_append_of_ne_nil _ hhost]
    rfl
  | some port =>
    have hne : port ≠ [] := by
      rintro rfl
      have hkept := ha.port
      rw [hport] at hkept
      cases hkept
    rw [canonical, hport, portText, List.getLast?_append_of_ne_nil _ (List.cons_ne_nil _ _)]
    cases port with
    | nil => exact absurd rfl hne
    | cons c cs => exact List.getLast?_cons_cons

theorem dropWhile_canonical (ha : a.Read) : (canonical a).dropWhile isWhitespace = canonical a := by
  cases hscheme : a.scheme with
  | nil =>
    rw [canonical, hscheme]
    rfl
  | cons c cs =>
    have hc : isWhitespace c = false := ha.schemeHead c (by rw [hscheme]; rfl)
    rw [canonical, hscheme]
    exact List.dropWhile_cons_of_neg (by rw [hc]; exact Bool.false_ne_true)

theorem peerAuthority_canonical (ha : a.Read) (hhost : a.host ≠ []) (hpadded : ¬ Padded a) : peerAuthority (canonical a) = a := by
  have htrim : trim (canonical a) = canonical a := by
    rw [trim, dropWhile_canonical ha]
    refine List.rdropWhile_eq_self_iff.mpr fun hne hspace => hpadded ⟨_, ?_, hspace⟩
    rw [← getLast?_canonical ha hhost]
    exact List.getLast?_eq_getLast_of_ne_nil hne
  have hsplit : schemeAndRest (canonical a) = (a.scheme, a.host ++ portText a.port) := by
    have hcut : splitOnce separator (canonical a) = some (a.scheme, a.host ++ portText a.port) :=
      TextCuts.splitOnce_eq_some.mpr ⟨by rw [canonical, List.append_assoc], ha.schemeClear⟩
    rw [schemeAndRest, hcut]
    rfl
  have hchars {c : Char} (hc : c ∈ a.host ++ portText a.port) : c ∉ ['/', '?', '#'] ∧ c ≠ '@' :=
    ⟨fun h => ha.chars c hc (List.mem_append_left ['@'] h), fun h => ha.chars c hc (by rw [h]; decide)⟩
  have hauthority : hostPortOf (a.host ++ portText a.port) = a.host ++ portText a.port := by
    have htake : (a.host ++ portText a.port).takeWhile (· ∉ ['/', '?', '#']) = a.host ++ portText a.port :=
      List.takeWhile_eq_self_iff.mpr fun c hc => decide_eq_true (hchars hc).1
    rw [hostPortOf, htake]
    exact List.rtakeWhile_eq_self_iff.mpr fun c hc => decide_eq_true (hchars hc).2
  simp only [peerAuthority, htrim, hsplit, hauthority, hostAndPort_of_cut ha.cut, ha.schemeLower, ha.hostDots, ha.hostLower, ha.port]

variable {origin url d : Text}

theorem length_canonical (h : splitOnce separator (trim url) ≠ none) :
    (canonical (peerAuthority url)).length ≤ (trim url).length := by
  obtain ⟨-, hsplit⟩ := schemeAndRest_spec (trim url)
  have hurl := hsplit.resolve_left fun hnone => h hnone.2
  obtain ⟨-, hpre⟩ := cut_hostAndPort (hostPortOf (schemeAndRest (trim url)).2)
  have hlen := hpre.length_le
  rw [List.length_append] at hlen
  have hrest : (hostPortOf (schemeAndRest (trim url)).2).length ≤ (schemeAndRest (trim url)).2.length :=
    (List.rtakeWhile_suffix _ _).length_le.trans (List.takeWhile_prefix _).length_le
  have hhost : (peerAuthority url).host.length ≤ (hostAndPort (hostPortOf (schemeAndRest (trim url)).2)).1.length := by
    show (List.map _ _).length ≤ _
    rw [List.length_map]
    exact (List.rdropWhile_prefix _ _).length_le
  have hscheme : (peerAuthority url).scheme.length = (schemeAndRest (trim url)).1.length := List.length_map _
  have hport : (portText (peerAuthority url).port).length ≤ (portText (hostAndPort (hostPortOf (schemeAndRest (trim url)).2)).2).length := by
    have hport : (peerAuthority url).port = none ∨ (peerAuthority url).port = (hostAndPort (hostPortOf (schemeAndRest (trim url)).2)).2 :=
      keptPort_cases _ _
    rcases hport with hport | hport
    · rw [hport]
      exact Nat.zero_le _
    · rw [hport]
  have htotal := congrArg List.length hurl
  simp only [List.length_append] at htotal
  simp only [canonical, List.length_append]
  omega

theorem rdropWhile_append {p : Char → Bool} {u v : Text} (hc : ¬ p c = true) (w : Text) (hv : v = u ++ [c]) :
    (v ++ w).rdropWhile p = v ++ w.rdropWhile p := by
  subst hv
  induction w using List.reverseRecOn with
  | nil =>
    rw [List.append_nil, List.rdropWhile_nil, List.append_nil]
    exact List.rdropWhile_concat_neg _ _ _ hc
  | append_singleton w d ih =>
    rw [← List.append_assoc]
    by_cases hd : p d = true
    · rw [List.rdropWhile_concat_pos _ _ _ hd, List.rdropWhile_concat_pos _ _ _ hd, ih]
    · rw [List.rdropWhile_concat_neg _ _ _ hd, List.rdropWhile_concat_neg _ _ _ hd, List.append_assoc]

theorem canonical_shorter (ha : a.Read) (hhost : a.host ≠ []) (hpadded : Padded a) :
    (canonical (peerAuthority (canonical a))).length < (canonical a).length := by
  have htrim : trim (canonical a) = (canonical a).rdropWhile isWhitespace := by rw [trim, dropWhile_canonical ha]
  have hscheme : trim (canonical a) = a.scheme ++ separator ++ (a.host ++ portText a.port).rdropWhile isWhitespace := by
    have hlast : a.scheme ++ separator = (a.scheme ++ [':', '/']) ++ ['/'] := by rw [List.append_assoc]; rfl
    rw [htrim, canonical, List.append_assoc _ a.host]
    exact rdropWhile_append (by decide) _ hlast
  have hsplit : splitOnce separator (trim (canonical a)) ≠ none := by
    rw [hscheme, TextCuts.splitOnce_eq_some.mpr ⟨rfl, ha.schemeClear⟩]
    exact Option.some_ne_none _
  refine Nat.lt_of_le_of_lt (length_canonical hsplit) ?_
  obtain ⟨c, hc, hspace⟩ := hpadded
  rw [← getLast?_canonical ha hhost] at hc
  obtain ⟨pre, hpre⟩ := List.getLast?_eq_some_iff.mp hc
  rw [htrim, hpre, List.rdropWhile_concat_pos _ _ _ hspace, List.length_append]
  exact Nat.lt_succ_of_le (List.rdropWhile_prefix _ _).length_le

/-! ## What is kept of an origin -/

def spelling (domain : Text) : Option (Text × (Rank × Text)) :=
  if (peerOrigin domain).isEmpty then none
  else some (peerOrigin domain, (rank (peerAuthority domain), canonical (peerAuthority domain)))

theorem byOrigin_eq (domains : List Text) : byOrigin domains = LeastByKey.offers Prod.fst (domains.filterMap spelling) := by
  rw [LeastByKey.offers, List.foldl_filterMap]
  refine congrFun (congrFun (congrArg List.foldl ?_) ∅) domains
  funext kept domain
  have hnote : note kept domain = if (peerOrigin domain).isEmpty then kept
      else LeastByKey.offer Prod.fst kept (peerOrigin domain, (rank (peerAuthority domain), canonical (peerAuthority domain))) := rfl
  rw [hnote, spelling]
  by_cases hhost : (peerOrigin domain).isEmpty = true
  · rw [if_pos hhost, if_pos hhost]
  · rw [if_neg hhost, if_neg hhost]

variable {domains : List Text}

theorem mem_spellings {kept : Rank × Text} :
    (origin, kept) ∈ domains.filterMap spelling ↔
      ∃ d ∈ domains, peerOrigin d = origin ∧ origin ≠ [] ∧ kept = (rank (peerAuthority d), canonical (peerAuthority d)) := by
  rw [List.mem_filterMap]
  refine exists_congr fun d => and_congr_right fun _ => ?_
  unfold spelling
  split
  case isTrue h =>
    refine ⟨fun h => (by cases h), fun ⟨heq, hne, _⟩ => absurd (heq ▸ List.isEmpty_iff.mp h) hne⟩
  case isFalse h =>
    rw [Option.some_inj, Prod.mk.injEq]
    constructor
    · rintro ⟨rfl, rfl⟩
      exact ⟨rfl, fun hnil => h (List.isEmpty_iff.mpr hnil), rfl⟩
    · rintro ⟨heq, -, rfl⟩
      exact ⟨heq, rfl⟩

def First (domains : List Text) (d : Text) : Prop :=
  peerOrigin d ≠ [] ∧ ∀ d' ∈ domains, peerOrigin d' = peerOrigin d → rank (peerAuthority d) ≤ rank (peerAuthority d')

theorem canonical_of_rank {a b : Authority} (h : rank a = rank b) : canonical a = canonical b := by
  have h : ofLex (rank a) = ofLex (rank b) := by rw [h]
  have h' : toLex (a.port.isSome, canonical a) = toLex (b.port.isSome, canonical b) := congrArg Prod.snd h
  exact congrArg Prod.snd (toLex_inj.mp h')

theorem spelling_inj (x y : Rank × Text) (hx : (origin, x) ∈ domains.filterMap spelling)
    (hy : (origin, y) ∈ domains.filterMap spelling) (h : x.1 = y.1) : x = y := by
  obtain ⟨d, -, -, -, rfl⟩ := mem_spellings.mp hx
  obtain ⟨e, -, -, -, rfl⟩ := mem_spellings.mp hy
  exact Prod.ext h (canonical_of_rank h)

theorem keeps_byOrigin (domains : List Text) (origin : Text) :
    LeastByKey.Keeps Prod.fst (domains.filterMap spelling) origin ((byOrigin domains).lookup origin) := by
  rw [byOrigin_eq]
  exact LeastByKey.keeps_offers _ origin

theorem lookup_byOrigin {kept : Rank × Text} : (byOrigin domains).lookup origin = some kept ↔
    ∃ d ∈ domains, First domains d ∧ peerOrigin d = origin ∧ kept = (rank (peerAuthority d), canonical (peerAuthority d)) := by
  have hkeeps := keeps_byOrigin domains origin
  constructor
  · intro h
    rw [h] at hkeeps
    obtain ⟨d, hd, rfl, hne, rfl⟩ := mem_spellings.mp hkeeps.1
    exact ⟨d, hd, ⟨hne, fun d' hd' heq => hkeeps.2 _ (mem_spellings.mpr ⟨d', hd', heq, hne, rfl⟩)⟩, rfl, rfl⟩
  · rintro ⟨d, hd, ⟨hne, hleast⟩, rfl, rfl⟩
    refine hkeeps.unique spelling_inj (b := some _) ⟨mem_spellings.mpr ⟨d, hd, rfl, hne, rfl⟩, fun b' hb' => ?_⟩
    obtain ⟨d', hd', heq, -, rfl⟩ := mem_spellings.mp hb'
    exact hleast d' hd' heq

theorem exists_first (hd : d ∈ domains) (hne : peerOrigin d ≠ []) :
    ∃ e ∈ domains, First domains e ∧ peerOrigin e = peerOrigin d := by
  cases hkept : (byOrigin domains).lookup (peerOrigin d) with
  | none =>
    have hkeeps := keeps_byOrigin domains (peerOrigin d)
    rw [hkept] at hkeeps
    exact absurd (mem_spellings.mpr ⟨d, hd, rfl, hne, rfl⟩) (hkeeps _)
  | some kept =>
    obtain ⟨e, he, hfirst, heq, -⟩ := lookup_byOrigin.mp hkept
    exact ⟨e, he, hfirst, heq⟩

theorem mem_ship :
    url ∈ shipPeersByOrigin domains ↔ ∃ d ∈ domains, First domains d ∧ canonical (peerAuthority d) = url := by
  rw [shipPeersByOrigin, LeastByKey.mem_sortedValues]
  constructor
  · rintro ⟨origin, kept, hkept, rfl⟩
    obtain ⟨d, hd, hfirst, -, rfl⟩ := lookup_byOrigin.mp hkept
    exact ⟨d, hd, hfirst, rfl⟩
  · rintro ⟨d, hd, hfirst, rfl⟩
    exact ⟨peerOrigin d, _, lookup_byOrigin.mpr ⟨d, hd, hfirst, rfl, rfl⟩, rfl⟩

theorem ship_stable {domains domains' : List Text} (h : ∀ d, d ∈ domains' ↔ d ∈ domains) :
    shipPeersByOrigin domains' = shipPeersByOrigin domains := by
  refine LeastByKey.sortedValues_congr fun origin => ?_
  refine (keeps_byOrigin domains' origin).unique spelling_inj ((keeps_byOrigin domains origin).congr fun b => ?_)
  rw [mem_spellings, mem_spellings]
  exact exists_congr fun d => and_congr_left fun _ => (h d).symm

structure OnePerOrigin (domains : List Text) : Prop where
  stable : ∀ domains', (∀ d, d ∈ domains' ↔ d ∈ domains) → shipPeersByOrigin domains' = shipPeersByOrigin domains
  distinct : ((shipPeersByOrigin domains).map peerOrigin).Nodup
  covers : ∀ origin, origin ∈ (shipPeersByOrigin domains).map peerOrigin ↔ origin ≠ [] ∧ ∃ d ∈ domains, peerOrigin d = origin
  emitted : ∀ origin kept, (byOrigin domains).lookup origin = some kept → peerOrigin kept.2 = origin
  fixed : shipPeersByOrigin (shipPeersByOrigin domains) = shipPeersByOrigin domains

section
variable {domains : List Text} (h : ∀ d ∈ domains, First domains d → ¬ Padded (peerAuthority d))
include h

theorem authority_of_first (hd : d ∈ domains) (hfirst : First domains d) :
    peerAuthority (canonical (peerAuthority d)) = peerAuthority d :=
  peerAuthority_canonical (read_peerAuthority d) hfirst.1 (h d hd hfirst)

theorem emitted_of_unpadded (origin : Text) (kept : Rank × Text) (hkept : (byOrigin domains).lookup origin = some kept) :
    peerOrigin kept.2 = origin := by
  obtain ⟨d, hd, hfirst, rfl, rfl⟩ := lookup_byOrigin.mp hkept
  exact congrArg Authority.host (authority_of_first h hd hfirst)

theorem fixed_of_unpadded : shipPeersByOrigin (shipPeersByOrigin domains) = shipPeersByOrigin domains := by
  refine LeastByKey.sortedValues_congr fun origin => ?_
  refine (keeps_byOrigin (shipPeersByOrigin domains) origin).unique spelling_inj ?_
  -- a spelling of the list is that of the first domain it was emitted for
  have hback {b : Rank × Text} (hb : (origin, b) ∈ (shipPeersByOrigin domains).filterMap spelling) :
      ∃ d ∈ domains, peerOrigin d = origin ∧ origin ≠ [] ∧ b.1 = rank (peerAuthority d) := by
    obtain ⟨url, hurl, heq, hne, rfl⟩ := mem_spellings.mp hb
    obtain ⟨d, hd, hfirst, rfl⟩ := mem_ship.mp hurl
    rw [peerOrigin, authority_of_first h hd hfirst] at heq
    exact ⟨d, hd, heq, hne, by rw [authority_of_first h hd hfirst]⟩
  cases hkept : (byOrigin domains).lookup origin with
  | none =>
    intro b hb
    obtain ⟨d, hd, rfl, hne, -⟩ := hback hb
    have hkeeps := keeps_byOrigin domains (peerOrigin d)
    rw [hkept] at hkeeps
    exact hkeeps _ (mem_spellings.mpr ⟨d, hd, rfl, hne, rfl⟩)
  | some kept =>
    obtain ⟨d, hd, hfirst, rfl, rfl⟩ := lookup_byOrigin.mp hkept
    have hread := authority_of_first h hd hfirst
    refine ⟨mem_spellings.mpr ⟨canonical (peerAuthority d), mem_ship.mpr ⟨d, hd, hfirst, rfl⟩, congrArg Authority.host hread, hfirst.1, ?_⟩,
      fun b hb => ?_⟩
    · rw [hread]
    · obtain ⟨e, he, heq, -, hrank⟩ := hback hb
      rw [hrank]
      exact hfirst.2 e he heq

theorem onePerOrigin_of_unpadded : OnePerOrigin domains where
  stable domains' hsame := ship_stable hsame
  distinct := LeastByKey.nodup_sortedValues fun origin kept hkept => emitted_of_unpadded h origin kept hkept
  covers origin := by
    rw [List.mem_map]
    constructor
    · rintro ⟨url, hurl, rfl⟩
      obtain ⟨d, hd, hfirst, rfl⟩ := mem_ship.mp hurl
      have hread : peerOrigin (canonical (peerAuthority d)) = peerOrigin d := congrArg Authority.host (authority_of_first h hd hfirst)
      rw [hread]
      exact ⟨hfirst.1, d, hd, rfl⟩
    · rintro ⟨hne, d, hd, rfl⟩
      obtain ⟨e, he, hfirst, heq⟩ := exists_first hd hne
      refine ⟨canonical (peerAuthority e), mem_ship.mpr ⟨e, he, hfirst, rfl⟩, ?_⟩
      rw [← heq]
      exact congrArg Authority.host (authority_of_first h he hfirst)
  emitted := emitted_of_unpadded h
  fixed := fixed_of_unpadded h

end

theorem unpadded_of_fixed (hfixed : shipPeersByOrigin (shipPeersByOrigin domains) = shipPeersByOrigin domains) :
    ∀ d ∈ domains, First domains d → ¬ Padded (peerAuthority d) := by
  -- by induction on how much longer the longest text of the list is
  have hlong (n : Nat) : ∀ d ∈ domains, First domains d → Padded (peerAuthority d) →
      ∃ e ∈ domains, First domains e ∧ Padded (peerAuthority e) ∧ n ≤ (canonical (peerAuthority e)).length := by
    intro d hd hfirst hpadded
    induction n with
    | zero => exact ⟨d, hd, hfirst, hpadded, Nat.zero_le _⟩
    | succ n ih =>
      obtain ⟨e, he, hefirst, hepadded, hlen⟩ := ih
      have hurl : canonical (peerAuthority e) ∈ shipPeersByOrigin (shipPeersByOrigin domains) := by
        rw [hfixed]
        exact mem_ship.mpr ⟨e, he, hefirst, rfl⟩
      obtain ⟨url, hmem, hfirst', heq⟩ := mem_ship.mp hurl
      obtain ⟨e', he', hefirst', rfl⟩ := mem_ship.mp hmem
      by_cases hpad : Padded (peerAuthority e')
      · have hshorter := canonical_shorter (read_peerAuthority e') hefirst'.1 hpad
        rw [heq] at hshorter
        exact ⟨e', he', hefirst', hpad, by omega⟩
      · rw [peerAuthority_canonical (read_peerAuthority e') hefirst'.1 hpad] at heq
        -- the two canonical texts are equal, and only one ends in white space
        refine absurd ?_ hpad
        obtain ⟨c, hc, hspace⟩ := hepadded
        refine ⟨c, ?_, hspace⟩
        rw [← getLast?_canonical (read_peerAuthority e') hefirst'.1, heq, getLast?_canonical (read_peerAuthority e) hefirst.1]
        exact hc
  intro d hd hfirst hpadded
  obtain ⟨e, he, -, -, hlen⟩ := hlong ((domains.map fun e => (canonical (peerAuthority e)).length).sum + 1) d hd hfirst hpadded
  have hle : (canonical (peerAuthority e)).length ≤ (domains.map fun e => (canonical (peerAuthority e)).length).sum :=
    List.le_sum_of_mem (List.mem_map.mpr ⟨e, he, rfl⟩)
  omega

/-- Each origin has one peer, and the list is its own, exactly where no origin's first spelling ends in white space. -/
theorem one_peer_iff (domains : List Text) :
    OnePerOrigin domains ↔ ∀ d ∈ domains, First domains d → ¬ Padded (peerAuthority d) :=
  ⟨fun h => unpadded_of_fixed h.fixed, onePerOrigin_of_unpadded⟩

/-- `https://h /x`: the authority is `h` and a blank, and the URL kept for it is read as `h`. -/
def blankHost : Text := https ++ separator ++ ['h', ' ', '/', 'x']

theorem blank_host_splits : ¬ OnePerOrigin [blankHost] := by
  intro h
  have horigin : peerOrigin blankHost = ['h', ' '] := by decide
  have hfirst : First [blankHost] blankHost := by
    refine ⟨by rw [horigin]; exact List.cons_ne_nil _ _, fun d hd _ => ?_⟩
    rw [List.mem_singleton.mp hd]
  have hkept := lookup_byOrigin.mpr ⟨blankHost, List.mem_singleton_self _, hfirst, horigin, rfl⟩
  have hread : peerOrigin (canonical (peerAuthority blankHost)) ≠ ['h', ' '] := by decide
  have hemitted := h.emitted _ _ hkept
  exact hread hemitted

end OverlayEngine.PeerOrigins
