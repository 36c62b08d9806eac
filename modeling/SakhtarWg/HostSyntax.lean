import SakhtarWg.AddrText
import SakhtarWg.HostName

/-!
# The grammar of hosts

What `canonicalHost` accepts, branch by branch: that its results are accepted again and
unchanged, which numeric names it lets through, and which texts of an HTTP Host header it
accepts beyond the grammar of host and port.
-/

namespace SakhtarWg.Proxy
open Text Netip Fallible

/-! ## Characters and labels -/

theorem isAlphaNum_range {c : Char} (h : isAlphaNum c = true) :
    97 ≤ c.toNat ∧ c.toNat ≤ 122 ∨ 48 ≤ c.toNat ∧ c.toNat ≤ 57 := by
  simp only [isAlphaNum, Bool.or_eq_true, Bool.and_eq_true, decide_eq_true_eq] at h
  exact h

theorem toLower_of_not_upper {c : Char} (h : c.toNat < 65 ∨ 90 < c.toNat) : c.toLower = c := by
  unfold Char.toLower
  rw [dif_neg]
  rintro ⟨hlow, hhigh⟩
  have hlow : 65 ≤ c.toNat := hlow
  have hhigh : c.toNat ≤ 90 := hhigh
  omega

/-- The characters of a canonical name are visible, in lower case, and none of those that
have a meaning elsewhere. -/
theorem CanonicalName.char {name : String} (h : CanonicalName name) {c : Char}
    (hc : c ∈ name.toList) :
    (0x21 ≤ c.toNat ∧ c.toNat ≤ 0x7e) ∧ c.toLower = c ∧ c ∉ ['[', ']', ':', '%', '+'] := by
  rcases h.chars c hc with halnum | rfl | rfl
  · have hrange := isAlphaNum_range halnum
    refine ⟨by omega, toLower_of_not_upper (by omega), fun hmem => ?_⟩
    simp only [List.mem_cons, List.not_mem_nil, or_false] at hmem
    rcases hmem with rfl | rfl | rfl | rfl | rfl <;> revert halnum <;> decide
  · decide
  · decide

/-- A dotted quad has a numeric last label, and a name has none. -/
theorem CanonicalName.parseAddr {name : String} (h : CanonicalName name) :
    parseAddr name = none := by
  have hcolon : ':' ∉ name.toList := fun hc => (h.char hc).2.2 (by simp)
  by_contra hsome
  obtain ⟨ip, hip⟩ := Option.ne_none_iff_exists'.mp hsome
  have h4 := (parseAddr_is4 hip).mpr hcolon
  obtain ⟨a, ha, -⟩ := parseAddrChars_v4 hip h4
  obtain ⟨l, hl⟩ := Option.ne_none_iff_exists'.mp
    (mt List.getLast?_eq_none_iff.mp (splitOn_ne_nil '.' name.toList))
  have hdigits := parseIPv4_labels ha l (List.mem_of_getLast? hl)
  have hlast := h.last l hl
  rw [List.all_eq_false] at hlast
  obtain ⟨c, hc, hbad⟩ := hlast
  exact hbad (by simp [isDecimal, hdigits c hc])

section
variable {toASCII : String → Option String} {name : String}

/-- A valid name does not end with a dot. -/
theorem ValidName.last_ne_dot (h : ValidName toASCII name) : name.toList.getLast? ≠ some '.' := by
  intro hlast
  obtain ⟨w, hw⟩ := List.getLast?_eq_some_iff.mp hlast
  have hempty : [] ∈ splitOn '.' name.toList := by
    rw [hw, splitOn_sep]
    simp [splitOn]
  cases h.labels [] hempty

theorem ValidName.lowerName (h : ValidName toASCII name) : lowerName name = name := by
  have hchars : name.toList.map Char.toLower = name.toList := by
    rw [List.map_congr_left fun c hc => (h.canonical.char hc).2.1, List.map_id']
  rw [Proxy.lowerName]
  simp only [h.last_ne_dot, if_false, hchars, String.ofList_toList]

end

/-! ## How a text spells its host -/

/-- How a text spells its host, by the branches of `bareHost`. -/
inductive Spelling (host : String) (allowPort : Bool) (raw : String) : Prop
  | bare (same : raw = host) (opened : raw.toList.head? ≠ some '[')
      (colon : allowPort = true → ':' ∉ host.toList)
  | port (allowed : allowPort = true) (opened : raw.toList.head? ≠ some '[')
      (colon : ':' ∉ host.toList) (port : String) (valid : validPort port = true)
      (text : raw.toList = host.toList ++ ':' :: port.toList)
  | bracketed (allowed : allowPort = true) (text : raw.toList = '[' :: (host.toList ++ [']']))
  | bracketedPort (allowed : allowPort = true) (port : String) (valid : validPort port = true)
      (text : raw.toList = '[' :: (host.toList ++ ']' :: ':' :: port.toList))

theorem splitHostPort_cases {s host port : String} (h : splitHostPort s = some (host, port)) :
    s.toList = '[' :: (host.toList ++ ']' :: ':' :: port.toList) ∨
      s.toList.head? ≠ some '[' ∧ ':' ∉ host.toList ∧
        s.toList = host.toList ++ ':' :: port.toList := by
  unfold splitHostPort at h
  split at h
  · cases h
  · rename_i before rest hcut
    obtain ⟨htext, -⟩ := cutLast_eq_some hcut
    split at h
    · rename_i inner
      split at h
      · rename_i literal hclosed
        split at h
        · cases h
        · obtain ⟨rfl, -⟩ := cut_eq_some hclosed
          cases h
          left
          simpa using htext
      · cases h
    · rename_i hopened
      split at h
      · cases h
      · rename_i hbad
        simp only [not_or] at hbad
        cases h
        right
        refine ⟨?_, by simpa using hbad.1, by simpa using htext⟩
        rw [htext]
        cases before with
        | nil => simp
        | cons c cs => simpa using fun hc : c = '[' => hopened cs (by rw [hc])

theorem withoutPort_cases {raw host : String} (h : withoutPort raw = .ok host) :
    ∃ port, validPort port = true ∧ splitHostPort raw = some (host, port) := by
  unfold withoutPort at h
  split at h
  · rename_i host' port hsplit
    simp only [bind_eq_ok, require_eq_ok, pure_eq_ok] at h
    obtain ⟨_, hport, rfl⟩ := h
    exact ⟨port, hport, hsplit⟩
  · cases h

theorem brackets_around {l : List Char} (hopened : l.head? = some '[')
    (hclosed : l.getLast? = some ']') : l = '[' :: (l.tail.dropLast ++ [']']) := by
  obtain ⟨w, rfl⟩ := List.getLast?_eq_some_iff.mp hclosed
  cases w with
  | nil => cases hopened
  | cons c w =>
    cases hopened
    simp

theorem bareHost_cases {raw host : String} {allowPort : Bool}
    (h : bareHost raw allowPort = .ok host) : Spelling host allowPort raw := by
  unfold bareHost at h
  cases allowPort with
  | false =>
    simp only [Bool.false_eq_true, if_false] at h
    split at h
    · cases h
    · rename_i hbrackets
      simp only [not_or] at hbrackets
      cases h
      exact .bare rfl hbrackets.1 (by simp)
  | true =>
    simp only [if_true] at h
    split at h
    · rename_i hopened
      split at h
      · rename_i hclosed
        cases h
        refine .bracketed rfl ?_
        rw [String.toList_ofList]
        exact brackets_around hopened hclosed
      · obtain ⟨port, hvalid, hsplit⟩ := withoutPort_cases h
        rcases splitHostPort_cases hsplit with htext | ⟨hnot, -⟩
        · exact .bracketedPort rfl port hvalid htext
        · exact absurd hopened hnot
    · rename_i hopened
      split at h
      · obtain ⟨port, hvalid, hsplit⟩ := withoutPort_cases h
        rcases splitHostPort_cases hsplit with htext | ⟨hnot, hcolon, htext⟩
        · exact absurd (by rw [htext]; rfl) hopened
        · exact .port rfl hnot hcolon port hvalid htext
      · split at h
        · cases h
        · cases h
          refine .bare rfl hopened fun _ => ?_
          rw [← List.count_eq_zero (a := ':')]
          omega

/-! ## Canonical hosts are fixed points -/

/-- The characters of an address without a zone. -/
theorem isLiteralChar.spec {c : Char} (h : isLiteralChar c = true) :
    (0x21 ≤ c.toNat ∧ c.toNat ≤ 0x7e) ∧ c ∉ ['[', ']', '%', '+'] := by
  refine ⟨?_, fun hmem => ?_⟩
  · simp only [isLiteralChar, Bool.or_eq_true, decide_eq_true_eq] at h
    rcases h with (h | rfl) | rfl
    · have := digitValue_range h
      omega
    · decide
    · decide
  · simp only [List.mem_cons, List.not_mem_nil, or_false] at hmem
    rcases hmem with rfl | rfl | rfl | rfl <;> revert h <;> decide

theorem isLiteralChar_digitChar {d : ℕ} (hd : d < 16) : isLiteralChar d.digitChar = true := by
  simp [isLiteralChar, isHexDigit, digitValue_digitChar hd]

theorem string_literal {ip : Addr} (hvalid : ip.isValid = true) (hzone : ip.zone = "")
    (hmapped : ip.is4In6 = false) : ∀ c ∈ ip.string.toList, isLiteralChar c = true := by
  intro c hc
  cases ip with
  | zero => cases hvalid
  | v4 a =>
    rcases formatIPv4_chars a hc with rfl | ⟨d, hd, rfl⟩
    · rfl
    · exact isLiteralChar_digitChar hd
  | v6 a zone =>
    cases hzone
    rw [Addr.string, if_neg (by simp [hmapped])] at hc
    rcases (formatIPv6_chars a).2 c hc with rfl | ⟨d, hd, rfl⟩
    · rfl
    · exact isLiteralChar_digitChar hd

section
variable {toASCII : String → Option String} {raw host name : String} {allowPort : Bool}
  {out : String × Bool}

/-- A host without brackets and zone is read as it stands. -/
theorem canonicalHost_bare (hne : host ≠ "")
    (hchars : ∀ c ∈ host.toList, (0x21 ≤ c.toNat ∧ c.toNat ≤ 0x7e) ∧ c ∉ ['[', ']', '%'])
    (h : Denotes toASCII host out) : canonicalHost toASCII host false = .ok out := by
  have hopen : host.toList.head? ≠ some '[' :=
    fun hhead => (hchars _ (List.mem_of_head? hhead)).2 (by simp)
  have hclosed : host.toList.getLast? ≠ some ']' :=
    fun hlast => (hchars _ (List.mem_of_getLast? hlast)).2 (by simp)
  have hzone : '%' ∉ host.toList := fun hmem => (hchars _ hmem).2 (by simp)
  rw [canonicalHost_eq_ok]
  exact ⟨⟨hne, fun c hc => (hchars c hc).1⟩, host, by simp [bareHost, hopen, hclosed], hne, hzone,
    h⟩

/-- A valid name is accepted as it is. -/
theorem ValidName.accepted (h : ValidName toASCII name) :
    canonicalHost toASCII name false = .ok (name, false) := by
  have hdots : ¬"..".toList <:+ name.toList := by
    rintro ⟨w, hw⟩
    apply h.last_ne_dot
    rw [← hw]
    simp
  have hcolon : ':' ∉ name.toList := fun hc => (h.canonical.char hc).2.2 (by simp)
  have hdenotes : Denotes toASCII name (Proxy.lowerName name, false) :=
    .name h.canonical.parseAddr hcolon hdots (by rw [h.lowerName]; exact h)
  rw [h.lowerName] at hdenotes
  refine canonicalHost_bare h.nonempty (fun c hc => ?_) hdenotes
  obtain ⟨hvisible, -, hmeaning⟩ := h.canonical.char hc
  have hsub : ['[', ']', '%'] ⊆ ['[', ']', ':', '%', '+'] := by simp
  exact ⟨hvisible, fun hmem => hmeaning (hsub hmem)⟩

/-- So is the text of an address that carries no zone and is not mapped. -/
theorem canonicalHost_string {ip : Addr} (hvalid : ip.isValid = true) (hzone : ip.zone = "")
    (hmapped : ip.unmap = ip) : canonicalHost toASCII ip.string false = .ok (ip.string, true) := by
  have h6 : ip.is4In6 = false := by rw [← hmapped, Addr.unmap_is4In6]
  have hparse := parseAddr_string hvalid hzone h6
  have hdenotes : Denotes toASCII ip.string (ip.unmap.string, true) := .literal hparse
  rw [hmapped] at hdenotes
  refine canonicalHost_bare ?_ (fun c hc => ?_) hdenotes
  · intro hempty
    rw [hempty] at hparse
    cases hparse
  · obtain ⟨hvisible, hmeaning⟩ := isLiteralChar.spec (string_literal hvalid hzone h6 c hc)
    have hsub : ['[', ']', '%'] ⊆ ['[', ']', '%', '+'] := by simp
    exact ⟨hvisible, fun hmem => hmeaning (hsub hmem)⟩

theorem Denotes.accepted (h : Denotes toASCII host out) (hzone : '%' ∉ host.toList) :
    canonicalHost toASCII out.1 false = .ok out := by
  cases h with
  | literal hparse =>
    obtain ⟨hvalid, hzone⟩ := parseAddr_zone hparse hzone
    exact canonicalHost_string (by simp [hvalid]) (Addr.unmap_zone hzone) (Addr.unmap_unmap _)
  | name _ _ _ hvalid => exact hvalid.accepted

/-- A host accepted without brackets has no colon unless it is an IPv6 literal. -/
theorem Denotes.colon (h : Denotes toASCII host out) (hzone : '%' ∉ host.toList)
    (h6 : ∀ a zone, parseAddr host ≠ some (.v6 a zone)) : ':' ∉ host.toList := by
  cases h with
  | @literal ip hparse =>
    apply (parseAddr_is4 hparse).mp
    cases ip with
    | zero => cases (parseAddr_zone hparse hzone).1
    | v4 a => rfl
    | v6 a zone => exact absurd hparse (h6 a zone)
  | name _ hcolon => exact hcolon

end

/-- What was accepted is accepted again and is its own canonical form, and a host that is
no unbracketed IPv6 literal reads the same with and without the ports of HTTP. -/
theorem canonicalHost_stable (toASCII : String → Option String) (raw : String) :
    (∀ allowPort host isIP, canonicalHost toASCII raw allowPort = .ok (host, isIP) →
      canonicalHost toASCII host false = .ok (host, isIP)) ∧
    (∀ out, canonicalHost toASCII raw false = .ok out →
      (∀ a zone, parseAddr raw ≠ some (.v6 a zone)) →
      canonicalHost toASCII raw true = .ok out) := by
  refine ⟨fun allowPort name isIP h => ?_, fun out h h6 => ?_⟩
  · obtain ⟨-, host, -, -, hzone, hdenotes⟩ := canonicalHost_eq_ok.mp h
    exact hdenotes.accepted hzone
  · obtain ⟨hvisible, host, hbare, hne, hzone, hdenotes⟩ := canonicalHost_eq_ok.mp h
    simp only [bareHost, Bool.false_eq_true, if_false] at hbare
    split at hbare
    · cases hbare
    · rename_i hbrackets
      simp only [Except.ok.injEq] at hbare
      subst hbare
      have hcolon := hdenotes.colon hzone h6
      refine canonicalHost_eq_ok.mpr ⟨hvisible, raw, ?_, hne, hzone, hdenotes⟩
      simp only [not_or] at hbrackets
      simp [bareHost, hbrackets.1, List.count_eq_zero_of_not_mem hcolon]

theorem canonicalHost_stable_port :
    canonicalHost some "API.Example.COM.:8443" true = .ok ("api.example.com", false) ∧
    canonicalHost some "api.example.com" false = .ok ("api.example.com", false) ∧
    canonicalHost some "8.8.8.8" true = .ok ("8.8.8.8", true) :=
  ⟨by decide +kernel,
    (canonicalHost_stable some "API.Example.COM.:8443").1 true _ _ (by decide +kernel),
    (canonicalHost_stable some "8.8.8.8").2 _ (by decide +kernel) (by
      intro a zone h
      have h8 : parseAddr "8.8.8.8" = some (.v4 0x08080808) := by decide +kernel
      rw [h8] at h
      cases h)⟩

/-! ## Numeric names -/

/-- The host a text names: what stands before the port, without the brackets. -/
def hostText (raw : String) : String :=
  String.ofList ((raw.toList.dropWhile (· = '[')).takeWhile fun c => c ≠ ':' && c ≠ ']')

def isDecimalNumber (part : List Char) : Bool := part ≠ [] && part.all isDecimal

def isOctalNumber (part : List Char) : Bool :=
  part.head? = some '0' && part.all fun c => '0' ≤ c && c ≤ '7'

def isHexNumber (part : List Char) : Bool :=
  ['0', 'x'].isPrefixOf part && 2 < part.length && (part.drop 2).all isHexDigit

def isNumber (part : List Char) : Bool :=
  isDecimalNumber part || isOctalNumber part || isHexNumber part

/-- One to four numbers between dots: what `inet_aton` reads as an address. -/
def LegacyIPv4 (name : String) : Prop :=
  let parts := splitOn '.' name.toList
  1 ≤ parts.length ∧ parts.length ≤ 4 ∧ ∀ part ∈ parts, isNumber part = true

/-- Two to four numbers between dots, of which the last is in hexadecimal. -/
def HexTail (labels : List (List Char)) : Prop :=
  2 ≤ labels.length ∧ labels.length ≤ 4 ∧ labels.getLast?.any isHexNumber = true ∧
    ∀ label ∈ labels.dropLast, isNumber label = true

section
variable {toASCII : String → Option String} {raw host name : String} {allowPort : Bool}

theorem isNumber_of_hex_or_decimal {part : List Char} (h : isNumber part = true)
    (hdigits : part.all isDecimal = false) : isHexNumber part = true := by
  simp only [isNumber, Bool.or_eq_true] at h
  rcases h with (h | h) | h
  · simp [isDecimalNumber, hdigits] at h
  · simp only [isOctalNumber, Bool.and_eq_true, List.all_eq_true, decide_eq_true_eq] at h
    rw [List.all_eq_false] at hdigits
    obtain ⟨c, hc, hbad⟩ := hdigits
    obtain ⟨hlow, hhigh⟩ := h.2 c hc
    have hhigh : c ≤ '9' := Char.le_trans hhigh (show '7' ≤ '9' by decide)
    exact absurd (by simp [isDecimal, hlow, hhigh]) hbad
  · exact h

/-- The digits of a hexadecimal number in lower case. -/
theorem hexDigit_lower {c : Char} (hhex : isHexDigit c = true) (halnum : isAlphaNum c = true) :
    (('0' ≤ c && c ≤ '9') || ('a' ≤ c && c ≤ 'f')) = true := by
  have hhex := digitValue_range hhex
  have hrange := isAlphaNum_range halnum
  have hcases : 48 ≤ c.toNat ∧ c.toNat ≤ 57 ∨ 97 ≤ c.toNat ∧ c.toNat ≤ 102 := by omega
  simp only [Bool.or_eq_true, Bool.and_eq_true, decide_eq_true_eq]
  exact hcases

/-- A valid name of one label is no number in hexadecimal. -/
theorem ValidName.two_labels (h : ValidName toASCII name)
    (hhex : (splitOn '.' name.toList).getLast?.any isHexNumber = true) :
    2 ≤ (splitOn '.' name.toList).length := by
  by_contra hone
  obtain ⟨label, hlabels⟩ : ∃ label, splitOn '.' name.toList = [label] := by
    rw [← List.length_eq_one_iff]
    have := List.length_pos_iff.mpr (splitOn_ne_nil '.' name.toList)
    omega
  have hchars := checkLabel_chars (h.labels label (by simp [hlabels]))
  have hplain := h.unambiguous
  rw [hlabels] at hhex hplain
  simp only [List.getLast?_singleton, Option.any_some, isHexNumber, Bool.and_eq_true,
    decide_eq_true_eq, List.all_eq_true] at hhex
  obtain ⟨⟨hzero, hlength⟩, hdigits⟩ := hhex
  have hlower : (label.drop 2).all fun c => ('0' ≤ c && c ≤ '9') || ('a' ≤ c && c ≤ 'f') := by
    rw [List.all_eq_true]
    intro c hc
    apply hexDigit_lower (hdigits c hc)
    rcases hchars c (List.mem_of_mem_drop hc) with hc' | rfl
    · exact hc'
    · exact absurd (hdigits _ hc) (by decide)
  simp only [ambiguousIPName, List.getLast?_singleton, List.length_singleton, hzero, hlower,
    hlength] at hplain
  split at hplain <;> simp at hplain

theorem ValidName.legacy_iff (h : ValidName toASCII name) :
    LegacyIPv4 name ↔ HexTail (splitOn '.' name.toList) := by
  have hne := splitOn_ne_nil '.' name.toList
  have hlast := h.canonical.last _ (List.getLast?_eq_some_getLast hne)
  constructor
  · rintro ⟨-, hfour, hparts⟩
    have hhex : (splitOn '.' name.toList).getLast?.any isHexNumber = true := by
      rw [List.getLast?_eq_some_getLast hne]
      exact isNumber_of_hex_or_decimal (hparts _ (List.getLast_mem hne)) hlast
    exact ⟨h.two_labels hhex, hfour, hhex, fun l hl => hparts l (List.mem_of_mem_dropLast hl)⟩
  · rintro ⟨htwo, hfour, hhex, hparts⟩
    refine ⟨by omega, hfour, fun part hpart => ?_⟩
    rw [← List.dropLast_append_getLast hne, List.mem_append, List.mem_singleton] at hpart
    rcases hpart with hpart | rfl
    · exact hparts part hpart
    · rw [List.getLast?_eq_some_getLast hne, Option.any_some] at hhex
      simp [isNumber, hhex]

theorem hostText_chars {host rest : List Char} (hhost : ∀ c ∈ host, c ∉ ['[', ']', ':'])
    (hrest : ∀ c ∈ rest.head?, c = ':' ∨ c = ']') :
    ((host ++ rest).dropWhile (· = '[')).takeWhile (fun c => c ≠ ':' && c ≠ ']') = host := by
  have hstop : rest.takeWhile (fun c => c ≠ ':' && c ≠ ']') = [] ∧
      rest.dropWhile (· = '[') = rest := by
    cases rest with
    | nil => simp
    | cons c rest => rcases hrest c rfl with rfl | rfl <;> simp
  have hopened : (host ++ rest).dropWhile (· = '[') = host ++ rest := by
    cases host with
    | nil => exact hstop.2
    | cons c host =>
      have hc : c ≠ '[' := fun hc => hhost c (by simp) (by simp [hc])
      simp [hc]
  rw [hopened, List.takeWhile_append_of_pos, hstop.1, List.append_nil]
  intro c hc
  have hc := hhost c hc
  simp only [List.mem_cons, not_or] at hc
  simp [hc]

theorem Spelling.hostText (h : Spelling host allowPort raw)
    (hhost : ∀ c ∈ host.toList, c ∉ ['[', ']', ':']) : hostText raw = host := by
  have hchars (rest : List Char) (hrest : ∀ c ∈ rest.head?, c = ':' ∨ c = ']') :=
    hostText_chars hhost hrest
  rw [← String.ofList_toList (s := host)]
  unfold Proxy.hostText
  congr 1
  cases h with
  | bare hsame => simpa [hsame] using hchars [] (by simp)
  | port _ _ _ port _ htext => simpa [htext] using hchars (':' :: port.toList) (by simp)
  | bracketed _ htext => simpa [htext] using hchars [']'] (by simp)
  | bracketedPort _ port _ htext =>
    simpa [htext] using hchars (']' :: ':' :: port.toList) (by simp)

/-- The characters of a host that is not cut away as its root dot, in lower case. -/
theorem mem_lowerName {c : Char} (hc : c ∈ host.toList) :
    c = '.' ∨ c.toLower ∈ (lowerName host).toList := by
  simp only [lowerName, String.toList_ofList]
  split
  · rename_i hdot
    obtain ⟨w, hw⟩ := List.getLast?_eq_some_iff.mp hdot
    rw [hw, List.mem_append, List.mem_singleton] at hc
    rcases hc with hc | rfl
    · right
      rw [hw, List.dropLast_concat]
      exact List.mem_map_of_mem hc
    · exact .inl rfl
  · exact .inr (List.mem_map_of_mem hc)

theorem ValidName.spelled (h : ValidName toASCII (Proxy.lowerName host)) {c : Char}
    (hc : c ∈ host.toList) : c ∉ ['[', ']', ':', '%', '+'] := by
  intro hmem
  rcases mem_lowerName hc with rfl | hlower
  · revert hmem
    decide
  · have hsame : c.toLower = c := by
      simp only [List.mem_cons, List.not_mem_nil, or_false] at hmem
      rcases hmem with rfl | rfl | rfl | rfl | rfl <;> rfl
    rw [hsame] at hlower
    exact (h.canonical.char hlower).2.2 hmem

end

/-- An accepted name is no legacy address exactly when its text does not end in a hexadecimal
number after one to three other numbers. -/
theorem not_legacy_iff {toASCII : String → Option String} {raw name : String} {allowPort : Bool}
    (h : canonicalHost toASCII raw allowPort = .ok (name, false)) :
    ¬LegacyIPv4 name ↔ ¬HexTail (splitOn '.' (lowerName (hostText raw)).toList) := by
  obtain ⟨-, host, hbare, -, -, hdenotes⟩ := canonicalHost_eq_ok.mp h
  cases hdenotes with
  | name _ _ _ hvalid =>
    have hsub : ['[', ']', ':'] ⊆ ['[', ']', ':', '%', '+'] := by simp
    have htext : hostText raw = host :=
      (bareHost_cases hbare).hostText fun c hc hmem => hvalid.spelled hc (hsub hmem)
    rw [htext, hvalid.legacy_iff]

theorem not_legacy_example :
    canonicalHost some "Example.com:80" true = .ok ("example.com", false) ∧
      ¬LegacyIPv4 "example.com" :=
  have h : canonicalHost some "Example.com:80" true = .ok ("example.com", false) := by
    decide +kernel
  ⟨h, (not_legacy_iff h).mpr fun htail => absurd htail.2.2.1 (by decide +kernel)⟩

/-- A name of two labels whose last is in hexadecimal passes, and reads as `127.0.0.1`. -/
theorem legacy_hex_accepted :
    canonicalHost some "127.0x1" false = .ok ("127.0x1", false) ∧ LegacyIPv4 "127.0x1" :=
  ⟨by decide +kernel, by decide +kernel, by decide +kernel, by decide +kernel⟩

end SakhtarWg.Proxy
