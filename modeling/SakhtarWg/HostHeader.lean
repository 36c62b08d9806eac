import SakhtarWg.HostSyntax

/-!
# The grammar of the Host header

A hostname, a dotted quad or a bracketed IPv6 literal, with an optional port. The parser
accepts every text of the grammar's shape that passes its further checks, and two more
shapes: a signed port, and brackets around a host that is no IPv6 literal.
-/

namespace SakhtarWg.Proxy
open Text Netip Fallible

/-! ## Grammar -/

/-- A port in decimal digits. -/
def DecimalPort (port : String) : Prop :=
  (∀ c ∈ port.toList, isDecimal c = true) ∧
    ∃ n, readNat 10 port.toList = some n ∧ 1 ≤ n ∧ n ≤ 65535

/-- Letters, digits and hyphens, with a letter or digit at both ends. -/
structure LDHLabel (label : List Char) : Prop where
  nonempty : label ≠ []
  short : label.length ≤ 63
  chars : ∀ c ∈ label, c.isAlphanum = true ∨ c = '-'
  first : label.head?.any Char.isAlphanum = true
  last : label.getLast?.any Char.isAlphanum = true

def withoutRootDot (text : List Char) : List Char :=
  if text.getLast? = some '.' then text.dropLast else text

structure Hostname (text : String) : Prop where
  short : (withoutRootDot text.toList).length ≤ 253
  labels : ∀ label ∈ splitOn '.' (withoutRootDot text.toList), LDHLabel label

/-- The first part of a Host header, with its canonical form. -/
inductive HostPart : String → String × Bool → Prop
  | name {text : String} (hostname : Hostname text) (unparsed : parseAddr text = none) :
      HostPart text (lowerName text, false)
  | ipv4 {text : String} {a : BitVec 32} (parsed : parseAddr text = some (.v4 a)) :
      HostPart text (formatIPv4 a, true)
  | ipv6 {text : String} {a : BitVec 128} (parsed : parseAddr text = some (.v6 a ""))
      (zone : '%' ∉ text.toList) :
      HostPart ("[" ++ text ++ "]") ((Addr.v6 a "").unmap.string, true)

/-- A Host header with the canonical form of its host. -/
def HostHeader (raw : String) (out : String × Bool) : Prop :=
  ∃ first, HostPart first out ∧
    (raw = first ∨ ∃ port, DecimalPort port ∧ raw = first ++ ":" ++ port)

/-! ## Names in any case -/

/-- A fact about ASCII characters is checked one code point at a time. -/
theorem ascii_forall {P : Char → Prop} (h : ∀ n < 128, P (Char.ofNat n)) {c : Char}
    (hc : c.toNat < 128) : P c := by
  have hP := h c.toNat hc
  rwa [Char.ofNat_toNat] at hP

theorem toLower_cases (c : Char) :
    (65 ≤ c.toNat ∧ c.toNat ≤ 90 ∧ 97 ≤ c.toLower.toNat) ∨ c.toLower = c := by
  by_cases h : c.toNat < 128
  · revert h
    apply ascii_forall (P := fun c =>
      (65 ≤ c.toNat ∧ c.toNat ≤ 90 ∧ 97 ≤ c.toLower.toNat) ∨ c.toLower = c)
    decide +kernel
  · exact .inr (toLower_of_not_upper (by omega))

theorem toLower_eq_iff {c d : Char} (hd : d.toNat < 65) : c.toLower = d ↔ c = d := by
  rcases toLower_cases c with ⟨hlow, hhigh, hlower⟩ | hsame
  · constructor
    · rintro rfl
      omega
    · rintro rfl
      omega
  · rw [hsame]

theorem isAlphanum_of_toLower {c : Char} (h : isAlphaNum c.toLower = true) :
    c.isAlphanum = true := by
  have hascii : c.toNat < 128 := by
    have hrange := isAlphaNum_range h
    rcases toLower_cases c with ⟨-, hupper, -⟩ | hsame
    · omega
    · rw [hsame] at hrange
      omega
  revert h
  apply ascii_forall (P := fun c => isAlphaNum c.toLower = true → c.isAlphanum = true) _ hascii
  decide +kernel

theorem splitOn_map {f : Char → Char} {sep : Char} (hf : ∀ c, f c = sep ↔ c = sep)
    (l : List Char) : splitOn sep (l.map f) = (splitOn sep l).map (List.map f) := by
  induction l with
  | nil => rfl
  | cons c cs ih =>
    obtain ⟨w, ws, hws⟩ := List.exists_cons_of_ne_nil (splitOn_ne_nil sep cs)
    by_cases hc : c = sep
    · simp [splitOn, (hf sep).mpr rfl, hc, ih]
    · simp [splitOn, mt (hf c).mp hc, hc, ih, hws]

theorem checkLabel_lower {label : List Char} (h : checkLabel (label.map Char.toLower) = .ok ()) :
    LDHLabel label := by
  have hchars := checkLabel_chars h
  simp only [checkLabel, bind_eq_ok, require_eq_ok, Bool.and_eq_true, decide_eq_true_eq,
    List.length_map, ne_eq, List.map_eq_nil_iff] at h
  obtain ⟨_, ⟨hne, hshort⟩, _, ⟨hfirst, hlast⟩, -⟩ := h
  refine ⟨hne, hshort, fun c hc => ?_, ?_, ?_⟩
  · rcases hchars _ (List.mem_map_of_mem hc) with hc | hc
    · exact .inl (isAlphanum_of_toLower hc)
    · exact .inr ((toLower_eq_iff (by decide)).mp hc)
  · rw [List.head?_map] at hfirst
    cases hhead : label.head? with
    | none => simp [hhead] at hfirst
    | some c => exact isAlphanum_of_toLower (by simpa [hhead] using hfirst)
  · rw [List.getLast?_map] at hlast
    cases hend : label.getLast? with
    | none => simp [hend] at hlast
    | some c => exact isAlphanum_of_toLower (by simpa [hend] using hlast)

section
variable {toASCII : String → Option String} {raw host : String} {out : String × Bool}

theorem lowerName_toList (host : String) :
    (lowerName host).toList = (withoutRootDot host.toList).map Char.toLower := by
  simp only [lowerName, withoutRootDot, String.toList_ofList]

theorem ValidName.hostname (h : ValidName toASCII (Proxy.lowerName host)) : Hostname host := by
  constructor
  · have hshort := h.short
    rw [byteLen_of_ascii fun c hc => by have := (h.canonical.char hc).1; omega] at hshort
    rwa [lowerName_toList, List.length_map] at hshort
  · intro label hlabel
    apply checkLabel_lower
    apply h.labels
    rw [lowerName_toList, splitOn_map fun c => toLower_eq_iff (by decide)]
    exact List.mem_map_of_mem hlabel

/-! ## Ports -/

theorem validPort_decimal {port : String} (h : validPort port = true) (hsign : '+' ∉ port.toList) :
    DecimalPort port := by
  unfold validPort at h
  split at h
  · rename_i n hn
    simp only [Bool.and_eq_true, decide_eq_true_eq] at h
    simp only [atoi] at hn
    split at hn
    · rename_i digits hplus
      exact absurd (by rw [hplus]; simp) hsign
    · -- a negative number is no port
      obtain ⟨m, -, hm⟩ := Option.bind_eq_some_iff.mp hn
      split at hm
      · cases hm
        omega
      · cases hm
    · obtain ⟨m, hread, hm⟩ := Option.bind_eq_some_iff.mp hn
      split at hm
      · cases hm
        refine ⟨fun c hc => ?_, m, hread, by omega, by omega⟩
        obtain ⟨hlow, hhigh⟩ := (readNat_decimal hread).2 c hc
        simp [isDecimal, hlow, hhigh]
      · cases hm
  · cases h

theorem DecimalPort.sign {port : String} (h : DecimalPort port) : '+' ∉ port.toList :=
  fun hmem => absurd (h.1 _ hmem) (by decide)

/-! ## Texts outside the grammar -/

/-- No sign, and brackets only where a colon stands between them. -/
def Regular (raw : String) : Prop :=
  '+' ∉ raw.toList ∧ (raw.toList.head? = some '[' → ':' ∈ raw.toList.takeWhile (· ≠ ']'))

theorem Hostname.char {text : String} (h : Hostname text) {c : Char} (hc : c ∈ text.toList) :
    c.isAlphanum = true ∨ c = '-' ∨ c = '.' := by
  have hinner : c ∈ withoutRootDot text.toList ∨ c = '.' := by
    unfold withoutRootDot
    split
    · rename_i hdot
      obtain ⟨w, hw⟩ := List.getLast?_eq_some_iff.mp hdot
      rw [hw] at hc ⊢
      simpa using hc
    · exact .inl hc
  rcases hinner with hc | hc
  · rcases mem_of_splitOn '.' hc with hc | ⟨label, hlabel, hc⟩
    · exact .inr (.inr hc)
    · rcases (h.labels label hlabel).chars c hc with hc | hc
      · exact .inl hc
      · exact .inr (.inl hc)
  · exact .inr (.inr hc)

/-- The first part holds no sign, and brackets only around an IPv6 literal. -/
theorem HostPart.spec {first : String} (h : HostPart first out) :
    '+' ∉ first.toList ∧ (first.toList.head? ≠ some '[' ∨
      ∃ text, ':' ∈ text ∧ ']' ∉ text ∧ first.toList = '[' :: (text ++ [']'])) := by
  cases h with
  | name hname _ =>
    refine ⟨fun hc => ?_, .inl fun hhead => ?_⟩
    · rcases hname.char hc with h | h | h <;> revert h <;> decide
    · rcases hname.char (List.mem_of_head? hhead) with h | h | h <;> revert h <;> decide
  | ipv4 hparse =>
    obtain ⟨a, ha, -⟩ := parseAddrChars_v4 hparse rfl
    have hchars := parseIPv4_literal ha
    exact ⟨fun hc => (isLiteralChar.spec (hchars _ hc)).2 (by simp),
      .inl fun hhead => (isLiteralChar.spec (hchars _ (List.mem_of_head? hhead))).2 (by simp)⟩
  | @ipv6 text a hparse hzone =>
    have hchars := parseAddr_literal hparse hzone
    have hcolon : ':' ∈ text.toList := by
      by_contra hcolon
      cases (parseAddr_is4 hparse).mpr hcolon
    refine ⟨?_, .inr ⟨text.toList, hcolon, ?_, by simp⟩⟩
    · simp only [String.toList_append, List.mem_append, not_or]
      exact ⟨⟨by decide, fun hc => (isLiteralChar.spec (hchars _ hc)).2 (by simp)⟩, by decide⟩
    · exact fun hc => (isLiteralChar.spec (hchars _ hc)).2 (by simp)

theorem takeWhile_bracket {text rest : List Char} (h : ']' ∉ text) :
    ('[' :: (text ++ ']' :: rest)).takeWhile (· ≠ ']') = '[' :: text := by
  have htext : ∀ c ∈ text, decide (c ≠ ']') = true :=
    fun c hc => decide_eq_true fun heq => h (heq ▸ hc)
  rw [List.takeWhile_cons_of_pos (by decide), List.takeWhile_append_of_pos htext,
    List.takeWhile_cons_of_neg (by decide), List.append_nil]

theorem HostHeader.regular (h : HostHeader raw out) : Regular raw := by
  obtain ⟨first, hpart, hraw⟩ := h
  obtain ⟨hsign, hbrackets⟩ := hpart.spec
  -- either way the header is the first part and something without a sign
  obtain ⟨rest, htext, hrest, hhead⟩ : ∃ rest, raw.toList = first.toList ++ rest ∧ '+' ∉ rest ∧
      rest.head? ≠ some '[' := by
    rcases hraw with rfl | ⟨port, hport, rfl⟩
    · exact ⟨[], by simp, by simp, by simp⟩
    · exact ⟨':' :: port.toList, by simp, by simpa using hport.sign, by simp⟩
  refine ⟨by simp [htext, hsign, hrest], fun hopened => ?_⟩
  rcases hbrackets with hnot | ⟨text, hcolon, hclosed, hfirst⟩
  · rw [htext, List.head?_append] at hopened
    cases hf : first.toList.head? with
    | none => exact absurd (by simpa [hf] using hopened) hhead
    | some c => exact absurd (by simpa [hf] using hopened) (hf ▸ hnot)
  · have hraw : raw.toList = '[' :: (text ++ ']' :: rest) := by simp [htext, hfirst]
    rw [hraw, takeWhile_bracket hclosed]
    exact List.mem_cons_of_mem _ hcolon

/-! ## Regular texts are in the grammar -/

theorem Denotes.closed (h : Denotes toASCII host out) (hzone : '%' ∉ host.toList) :
    ']' ∉ host.toList := by
  intro hc
  cases h with
  | literal hparse => exact (isLiteralChar.spec (parseAddr_literal hparse hzone _ hc)).2 (by simp)
  | name _ _ _ hvalid => exact hvalid.spelled hc (by simp)

/-- Without a colon the host is a dotted quad or a name. -/
theorem Denotes.part (h : Denotes toASCII host out) (hcolon : ':' ∉ host.toList) :
    HostPart host out := by
  cases h with
  | literal hparse =>
    obtain ⟨a, -, rfl⟩ := parseAddrChars_v4 hparse ((parseAddr_is4 hparse).mpr hcolon)
    exact .ipv4 hparse
  | name hparse _ _ hvalid => exact .name hvalid.hostname hparse

/-- With one it is an IPv6 literal, which stands in brackets. -/
theorem Denotes.bracketed (h : Denotes toASCII host out) (hzone : '%' ∉ host.toList)
    (hcolon : ':' ∈ host.toList) : HostPart ("[" ++ host ++ "]") out := by
  cases h with
  | @literal ip hparse =>
    obtain ⟨hvalid, hnozone⟩ := parseAddr_zone hparse hzone
    cases ip with
    | zero => cases hvalid
    | v4 a => exact absurd hcolon ((parseAddr_is4 hparse).mp rfl)
    | v6 a zone =>
      cases hnozone
      exact .ipv6 hparse hzone
  | name _ hno => exact absurd hcolon hno

end

/-- An accepted Host header follows the grammar, and the result is the canonical form of its
first part, exactly when it has no sign and its brackets hold an IPv6 literal. -/
theorem hostHeader_iff {toASCII : String → Option String} {raw : String} {out : String × Bool}
    (h : canonicalHost toASCII raw true = .ok out) :
    HostHeader raw out ↔ Regular raw := by
  refine ⟨HostHeader.regular, fun ⟨hsign, hbrackets⟩ => ?_⟩
  obtain ⟨-, host, hbare, -, hzone, hdenotes⟩ := canonicalHost_eq_ok.mp h
  have hcolon {rest : List Char} (htext : raw.toList = '[' :: (host.toList ++ ']' :: rest)) :
      ':' ∈ host.toList := by
    have hmem := hbrackets (by rw [htext]; rfl)
    rw [htext, takeWhile_bracket (hdenotes.closed hzone)] at hmem
    simpa using hmem
  cases bareHost_cases hbare with
  | bare hsame _ hnone => exact ⟨raw, hsame ▸ hdenotes.part (hnone rfl), .inl rfl⟩
  | port _ _ hnone port hvalid htext =>
    rw [htext] at hsign
    refine ⟨host, hdenotes.part hnone, .inr ⟨port, validPort_decimal hvalid ?_, ?_⟩⟩
    · exact fun hc => hsign (by simp [hc])
    · exact String.toList_inj.mp (by simp [htext])
  | bracketed _ htext =>
    exact ⟨_, hdenotes.bracketed hzone (hcolon htext),
      .inl (String.toList_inj.mp (by simp [htext]))⟩
  | bracketedPort _ port hvalid htext =>
    refine ⟨_, hdenotes.bracketed hzone (hcolon htext),
      .inr ⟨port, validPort_decimal hvalid ?_, String.toList_inj.mp (by simp [htext])⟩⟩
    rw [htext] at hsign
    exact fun hc => hsign (by simp [hc])

theorem hostHeader_literal :
    canonicalHost some "[2001:4860:4860::8888]:443" true = .ok ("2001:4860:4860::8888", true) ∧
      HostHeader "[2001:4860:4860::8888]:443" ("2001:4860:4860::8888", true) :=
  have h : canonicalHost some "[2001:4860:4860::8888]:443" true =
      .ok ("2001:4860:4860::8888", true) := by decide +kernel
  ⟨h, (hostHeader_iff h).mpr ⟨by decide +kernel, by decide +kernel⟩⟩

/-- A signed port, and brackets around a name or a dotted quad, are accepted too. -/
theorem hostHeader_beyond :
    (canonicalHost some "example.com:+80" true = .ok ("example.com", false) ∧
      ¬HostHeader "example.com:+80" ("example.com", false)) ∧
    (canonicalHost some "[example.com]" true = .ok ("example.com", false) ∧
      ¬HostHeader "[example.com]" ("example.com", false)) ∧
    (canonicalHost some "[1.2.3.4]:80" true = .ok ("1.2.3.4", true) ∧
      ¬HostHeader "[1.2.3.4]:80" ("1.2.3.4", true)) :=
  ⟨⟨by decide +kernel, fun h => absurd h.regular.1 (by decide +kernel)⟩,
    ⟨by decide +kernel, fun h => absurd (h.regular.2 (by decide +kernel)) (by decide +kernel)⟩,
    by decide +kernel, fun h => absurd (h.regular.2 (by decide +kernel)) (by decide +kernel)⟩

end SakhtarWg.Proxy
