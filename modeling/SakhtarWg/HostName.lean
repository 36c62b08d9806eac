import SakhtarWg.Prefix
import SakhtarWg.Fallible

/-!
# Host names

The single normalization boundary for names that arrive by SNI, by HTTP Host or as
configured suffixes.
-/

namespace SakhtarWg.Proxy
open Text Netip Fallible

def validPort (port : String) : Bool :=
  match atoi port with
  | some n => 1 ≤ n && n ≤ 65535
  | none => false

def isAlphaNum (c : Char) : Bool := ('a' ≤ c && c ≤ 'z') || ('0' ≤ c && c ≤ '9')

/-- A name whose last label is numeric, or a single hexadecimal number. -/
def ambiguousIPName (labels : List (List Char)) : Bool :=
  match labels.getLast? with
  | none => false
  | some last =>
    if last.all fun c => '0' ≤ c && c ≤ '9' then true
    else labels.length = 1 && 2 < last.length && ['0', 'x'].isPrefixOf last &&
      (last.drop 2).all fun c => ('0' ≤ c && c ≤ '9') || ('a' ≤ c && c ≤ 'f')

def checkLabel (label : List Char) : Except String Unit := do
  require (label ≠ [] && label.length ≤ 63) "hostname contains an empty or oversized label"
  require (label.head?.any isAlphaNum && label.getLast?.any isAlphaNum)
    "hostname labels must start and end with a letter or digit"
  require (label.tail.dropLast.all fun c => isAlphaNum c || c = '-')
    "hostname labels may contain only letters, digits, and hyphens"

/-- The host of a `host:port` text with a usable port. -/
def withoutPort (raw : String) : Except String String :=
  match splitHostPort raw with
  | some (host, port) => do
    require (validPort port) "host has an invalid port"
    return host
  | none => .error "host has an invalid port"

/-- What is left once the port and the brackets of a literal are removed. -/
def bareHost (raw : String) (allowPort : Bool) : Except String String :=
  let bracketed := raw.toList.head? = some '['
  let closed := raw.toList.getLast? = some ']'
  let colons := raw.toList.count ':'
  if allowPort then
    if bracketed then
      if closed then .ok (String.ofList raw.toList.tail.dropLast) else withoutPort raw
    else if colons = 1 then withoutPort raw
    else if 1 < colons then .error "IPv6 HTTP Host literals must be bracketed"
    else .ok raw
  else if bracketed ∨ closed then .error "brackets are not allowed"
  else .ok raw

/-- The text without one trailing root dot, in lower case. -/
def lowerName (host : String) : String :=
  let cs := host.toList
  String.ofList ((if cs.getLast? = some '.' then cs.dropLast else cs).map Char.toLower)

/-- `canonicalHost`; `toASCII` is the lookup profile of the IDNA library. -/
def canonicalHost (toASCII : String → Option String) (raw : String) (allowPort : Bool) :
    Except String (String × Bool) := do
  require (raw ≠ "" && !raw.toList.head?.any isSpace && !raw.toList.getLast?.any isSpace)
    "host is empty or contains surrounding whitespace"
  require (raw.toList.all fun c => 0x21 ≤ c.toNat && c.toNat ≤ 0x7e)
    "unicode and control characters are not allowed"
  let host ← bareHost raw allowPort
  require (host ≠ "" && !( '%' ∈ host.toList)) "host is empty or contains an IPv6 zone"
  match parseAddr host with
  | some ip => return (ip.unmap.string, true)
  | none =>
    require (!( ':' ∈ host.toList)) "host is neither a valid hostname nor IP literal"
    require (!"..".toList.isSuffixOf host.toList) "host has multiple trailing dots"
    let host := lowerName host
    require (host ≠ "" && byteLen host ≤ 253) "hostname length must be between 1 and 253 bytes"
    require (toASCII host = some host) "hostname is not a valid ASCII IDNA name"
    let labels := splitOn '.' host.toList
    labels.forM checkLabel
    require (!ambiguousIPName labels) "ambiguous numeric IP-like hostname is not allowed"
    return (host, false)

/-! ## What is accepted -/

/-- What is checked of a name once it is in lower case and without its root dot. -/
structure ValidName (toASCII : String → Option String) (name : String) : Prop where
  nonempty : name ≠ ""
  short : byteLen name ≤ 253
  ascii : toASCII name = some name
  labels : ∀ label ∈ splitOn '.' name.toList, checkLabel label = .ok ()
  unambiguous : ambiguousIPName (splitOn '.' name.toList) = false

/-- The host a text names, without port and brackets, is an address or a name. -/
inductive Denotes (toASCII : String → Option String) (host : String) : String × Bool → Prop
  | literal {ip : Addr} (parsed : parseAddr host = some ip) :
      Denotes toASCII host (ip.unmap.string, true)
  | name (unparsed : parseAddr host = none) (colon : ':' ∉ host.toList)
      (dots : ¬"..".toList <:+ host.toList) (valid : ValidName toASCII (lowerName host)) :
      Denotes toASCII host (lowerName host, false)

/-- Nonempty, and nothing but visible ASCII characters. -/
def Visible (raw : String) : Prop :=
  raw ≠ "" ∧ ∀ c ∈ raw.toList, 0x21 ≤ c.toNat ∧ c.toNat ≤ 0x7e

theorem visible_iff {raw : String} :
    Visible raw ↔
      (raw ≠ "" && !raw.toList.head?.any isSpace && !raw.toList.getLast?.any isSpace) = true ∧
      (raw.toList.all fun c => 0x21 ≤ c.toNat && c.toNat ≤ 0x7e) = true := by
  simp only [Visible, List.all_eq_true, Bool.and_eq_true, decide_eq_true_eq]
  constructor
  · rintro ⟨hne, hall⟩
    have hspace : ∀ c ∈ raw.toList, isSpace c = false :=
      fun c hc => isSpace_eq_false (hall c hc).1 (hall c hc).2
    refine ⟨⟨⟨hne, ?_⟩, ?_⟩, hall⟩
    · cases hhead : raw.toList.head? with
      | none => rfl
      | some c => simp [hspace c (List.mem_of_head? hhead)]
    · cases hlast : raw.toList.getLast? with
      | none => rfl
      | some c => simp [hspace c (List.mem_of_getLast? hlast)]
  · rintro ⟨⟨⟨hne, -⟩, -⟩, hall⟩
    exact ⟨hne, hall⟩

section
variable {toASCII : String → Option String} {raw : String} {allowPort : Bool} {out : String × Bool}

theorem canonicalHost_eq_ok : canonicalHost toASCII raw allowPort = .ok out ↔
    Visible raw ∧ ∃ host, bareHost raw allowPort = .ok host ∧ host ≠ "" ∧ '%' ∉ host.toList ∧
      Denotes toASCII host out := by
  rw [visible_iff, canonicalHost]
  simp only [bind_eq_ok, require_eq_ok]
  constructor
  · rintro ⟨_, hspace, _, hchars, host, hbare, _, hhost, h⟩
    simp only [Bool.and_eq_true, decide_eq_true_eq, Bool.not_eq_true', decide_eq_false_iff_not]
      at hhost
    refine ⟨⟨hspace, hchars⟩, host, hbare, hhost.1, hhost.2, ?_⟩
    cases hparse : parseAddr host with
    | some ip =>
      rw [hparse] at h
      obtain rfl := pure_eq_ok.mp h
      exact .literal hparse
    | none =>
      rw [hparse] at h
      simp only [bind_eq_ok, pure_eq_ok, require_eq_ok, forM_eq_ok, Bool.and_eq_true,
        decide_eq_true_eq, Bool.not_eq_true', decide_eq_false_iff_not] at h
      obtain ⟨_, hcolon, _, hdots, _, ⟨hne, hshort⟩, _, hascii, _, hlabels, _, hplain, rfl⟩ := h
      refine .name hparse hcolon ?_ ⟨hne, hshort, hascii, hlabels, hplain⟩
      rw [← List.isSuffixOf_iff_suffix, hdots]
      simp
  · rintro ⟨⟨hspace, hchars⟩, host, hbare, hne, hzone, hdenotes⟩
    refine ⟨(), hspace, (), hchars, host, hbare, (), by simp [hne, hzone], ?_⟩
    cases hdenotes with
    | literal hparse => rw [hparse]; rfl
    | name hparse hcolon hdots hvalid =>
      rw [hparse]
      simp only [bind_eq_ok, pure_eq_ok, require_eq_ok, forM_eq_ok]
      refine ⟨(), by simp [hcolon], (), ?_, (), by simp [hvalid.nonempty, hvalid.short], (),
        by simp [hvalid.ascii], (), hvalid.labels, (), by simp [hvalid.unambiguous], trivial⟩
      rw [Bool.not_eq_true', ← Bool.not_eq_true, List.isSuffixOf_iff_suffix]
      exact hdots

end

/-! ## Canonical names -/

def isDecimal (c : Char) : Bool := '0' ≤ c && c ≤ '9'

/-- What is known of a name that is no literal. -/
structure CanonicalName (name : String) : Prop where
  nonempty : name.toList ≠ []
  chars : ∀ c ∈ name.toList, isAlphaNum c = true ∨ c = '-' ∨ c = '.'
  last : ∀ l ∈ (splitOn '.' name.toList).getLast?, l.all isDecimal = false

theorem checkLabel_chars {label : List Char} {u : Unit} (h : checkLabel label = .ok u) :
    ∀ c ∈ label, isAlphaNum c = true ∨ c = '-' := by
  simp only [checkLabel, bind_eq_ok, require_eq_ok, Bool.and_eq_true, List.all_eq_true,
    Bool.or_eq_true, decide_eq_true_eq] at h
  obtain ⟨_, -, _, ⟨hhead, hlast⟩, hmiddle⟩ := h
  cases label with
  | nil => exact fun c hc => by cases hc
  | cons a cs =>
    intro c hc
    rcases List.mem_cons.mp hc with rfl | hc
    · exact .inl (by simpa using hhead)
    · -- the tail is its inside and the last character
      have hne : cs ≠ [] := List.ne_nil_of_mem hc
      rw [← List.dropLast_append_getLast hne, List.mem_append, List.mem_singleton] at hc
      rcases hc with hc | rfl
      · exact hmiddle c hc
      · rw [List.getLast?_cons_of_ne_nil hne, List.getLast?_eq_some_getLast hne] at hlast
        exact .inl (by simpa using hlast)

section
variable {toASCII : String → Option String} {raw name : String} {allowPort : Bool}

theorem ValidName.canonical (h : ValidName toASCII name) : CanonicalName name := by
  refine ⟨fun hnil => h.nonempty (String.toList_inj.mp (by rw [hnil]; rfl)), fun c hc => ?_,
    fun l hl => ?_⟩
  · rcases mem_of_splitOn '.' hc with hc | ⟨label, hlabel, hc⟩
    · exact .inr (.inr hc)
    · rcases checkLabel_chars (h.labels label hlabel) c hc with hc | hc
      · exact .inl hc
      · exact .inr (.inl hc)
  · have hambiguous := h.unambiguous
    simp only [ambiguousIPName, Option.mem_def.mp hl] at hambiguous
    split at hambiguous
    · cases hambiguous
    · rename_i hall
      exact Bool.eq_false_iff.mpr hall

theorem canonicalHost_name (h : canonicalHost toASCII raw allowPort = .ok (name, false)) :
    CanonicalName name := by
  obtain ⟨-, host, -, -, -, hdenotes⟩ := canonicalHost_eq_ok.mp h
  cases hdenotes with
  | name _ _ _ hvalid => exact hvalid.canonical

theorem canonicalHost_literal (h : canonicalHost toASCII raw allowPort = .ok (name, true)) :
    ∃ host ip, parseAddr host = some ip ∧ '%' ∉ host.toList ∧ name = ip.unmap.string := by
  obtain ⟨-, host, -, -, hzone, hdenotes⟩ := canonicalHost_eq_ok.mp h
  cases hdenotes with
  | literal hparse => exact ⟨host, _, hparse, hzone, rfl⟩

end

end SakhtarWg.Proxy
