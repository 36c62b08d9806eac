import SakhtarWg.Aggregate
import SakhtarWg.FirewallPlan
import SakhtarWg.RouteUpdater

/-!
# Route-source bodies

A fetched body is bytes of any shape. The parsers look at it character by character, where a
byte that begins no character counts as one of its own, so the parsers over texts apply to what
the bytes decode to. What survives is the text of an IPv4 prefix, unless an entry is a network
around an IPv4-mapped address with a mask that ends before the mapped part.
-/

namespace SakhtarWg.SourceText
open Text Netip Fallible RouteSet

/-! ## Bytes -/

/-- The characters of a byte string as Go iterates over them. -/
def runesFrom : ℕ → ByteArray → List Char
  | 0, _ => []
  | fuel + 1, b =>
    if b.size = 0 then []
    else
      match b.utf8DecodeChar? 0 with
      | some c => c :: runesFrom fuel (b.extract c.utf8Size b.size)
      | none => Char.ofNat 0xfffd :: runesFrom fuel (b.extract 1 b.size)

def runes (b : ByteArray) : List Char := runesFrom b.size b

/-- The text of a line that is read as a network. -/
def entryOfLine (line : List Char) : Option String :=
  let line := trimSpaces line
  if line = [] ∨ line.head? = some '#' then none
  else some (String.ofList
    (line.takeWhile fun c => c ≠ ' ' && c ≠ '\t' && c ≠ ',' && c ≠ ';'))

def entries (b : ByteArray) : List String := (splitOn '\n' (runes b)).filterMap entryOfLine

def parseCIDRLines (b : ByteArray) : Except String (List String) := do
  require (b.size ≤ maxSourceBytes)
    ("CIDR source exceeds " ++ toString maxSourceBytes ++ " bytes")
  let out := (entries b).filterMap normalizeIPv4CIDR
  require (out ≠ []) "no IPv4 CIDRs parsed"
  return out

def parseRIPEPrefixes (decode : ByteArray → Except String (List String)) (b : ByteArray) :
    Except String (List String) := do
  require (b.size ≤ maxSourceBytes)
    ("RIPE source exceeds " ++ toString maxSourceBytes ++ " bytes")
  let prefixes ← decode b
  let out := prefixes.filterMap normalizeIPv4CIDR
  require (out ≠ []) "no IPv4 prefixes in RIPE data"
  return out

/-! ## Bodies that are texts -/

theorem size_utf8Encode (l : List Char) :
    l.utf8Encode.size = l.foldr (fun c n => c.utf8Size + n) 0 := by
  induction l with
  | nil => rfl
  | cons c l ih =>
    have hsingle : [c].utf8Encode.size = c.utf8Size := by
      simp [List.utf8Encode, String.length_utf8EncodeChar]
    rw [List.utf8Encode_cons, ByteArray.size_append, hsingle, ih]
    rfl

theorem runesFrom_utf8Encode (l : List Char) {fuel : ℕ} (h : l.utf8Encode.size ≤ fuel) :
    runesFrom fuel l.utf8Encode = l := by
  induction l generalizing fuel with
  | nil =>
    cases fuel with
    | zero => rfl
    | succ fuel => rfl
  | cons c l ih =>
    have hsingle : [c].utf8Encode.size = c.utf8Size := by
      simp [List.utf8Encode, String.length_utf8EncodeChar]
    have hpos : 0 < c.utf8Size := c.utf8Size_pos
    have hsize : (c :: l).utf8Encode.size = c.utf8Size + l.utf8Encode.size := by
      rw [List.utf8Encode_cons, ByteArray.size_append, hsingle]
    cases fuel with
    | zero => omega
    | succ fuel =>
      have hrest : (c :: l).utf8Encode.extract c.utf8Size (c :: l).utf8Encode.size =
          l.utf8Encode := by
        rw [hsize, List.utf8Encode_cons]
        exact ByteArray.extract_append_eq_right hsingle.symm (by rw [hsingle])
      rw [runesFrom, if_neg (by omega), List.utf8DecodeChar?_utf8Encode_cons]
      simp only [hrest]
      rw [ih (by omega)]

theorem size_toByteArray (s : String) : s.toByteArray.size = byteLen s := by
  rw [← String.utf8Encode_toList, size_utf8Encode]
  rfl

/-- The parser of a body that is a text is the parser of texts. -/
theorem parseCIDRLines_toByteArray (s : String) :
    parseCIDRLines s.toByteArray = SakhtarWg.parseCIDRLines s := by
  have hrunes : runes s.toByteArray = s.toList := by
    rw [runes, ← String.utf8Encode_toList]
    exact runesFrom_utf8Encode _ le_rfl
  have hline : ∀ line, cidrOfLine line = (entryOfLine line).bind normalizeIPv4CIDR := by
    intro line
    simp only [cidrOfLine, entryOfLine]
    split
    · rfl
    · rw [Option.bind_some]
  simp only [parseCIDRLines, SakhtarWg.parseCIDRLines, size_toByteArray, entries, hrunes,
    List.filterMap_filterMap, funext hline]

/-! ## Canonical texts -/

/-- The text of a masked IPv4 prefix, which the firewall planner maps to itself and the
aggregation reads as the prefix's addresses. -/
def Canonical (t : String) : Prop :=
  ∃ p : Prefix, p.addr.is4 = true ∧ p.masked = p ∧ t = p.string ∧
    Firewall.canonicalPrefixes [t] = .ok [t] ∧
    ∃ i, cidrRange t = some i ∧ ∀ x, i.low ≤ x ∧ x ≤ i.high ↔ p.contains (.v4 x) = true

/-- A network around an IPv4-mapped address, with a mask that ends before the mapped part. -/
def WideMapped (entry : String) : Prop :=
  ∃ a n, parseCIDR (trimSpaces entry.toList) = some (a, n) ∧ a.is4In6 = true ∧ n < 96

theorem wideMapped_iff {entry : String} : WideMapped entry ↔
    ((parseCIDR (trimSpaces entry.toList)).any fun network =>
      network.1.is4In6 && network.2 < 96) = true := by
  unfold WideMapped
  cases parseCIDR (trimSpaces entry.toList) with
  | none => simp
  | some network =>
    obtain ⟨a, n⟩ := network
    simp

instance (entry : String) : Decidable (WideMapped entry) :=
  decidable_of_iff _ wideMapped_iff.symm

theorem canonical_of_masked {p : Prefix} (h4 : p.addr.is4 = true) (hmasked : p.masked = p) :
    Canonical p.string := by
  refine ⟨p, h4, hmasked, rfl, ?_, ?_⟩
  · have hinsert : Firewall.canonicalPrefixes.insertPrefix [] p.string = .ok [p.string] := by
      simp only [Firewall.canonicalPrefixes.insertPrefix, parsePrefix_string h4, h4, hmasked,
        require, if_true, List.insert_nil]
      rfl
    simp only [Firewall.canonicalPrefixes, List.foldlM_cons, List.foldlM_nil, hinsert]
    rfl
  · obtain ⟨htrim, hparse⟩ := parseCIDR_of_parsePrefix (parsePrefix_string h4) h4
    rw [← htrim] at hparse
    obtain ⟨a, n, hn, rfl⟩ := Prefix.eq_of4 h4
    obtain ⟨i, hi, hpoints⟩ := cidrRange_v4 hparse
    refine ⟨i, hi, fun x => ?_⟩
    rw [((prefixBlock_spec h4).2.2 x)]
    show _ ↔ x.toNat ∈ (Blocks.Block.around (32 - (Prefix.of4 a n hn).bits) a.toNat).points
    rw [← hpoints]
    exact and_congr BitVec.le_def BitVec.le_def

theorem not_canonical_of_colon {t : String} (h : ':' ∈ t.toList) : ¬ Canonical t := by
  rintro ⟨p, h4, -, rfl, -⟩
  obtain ⟨a, n, hn, rfl⟩ := Prefix.eq_of4 h4
  rw [Prefix.string_toList_of4, List.mem_append, List.mem_cons] at h
  rcases h with h | h | h
  · exact not_mem_formatIPv4 a ':' (by decide) (by decide) h
  · cases h
  · exact not_mem_toDigits (by decide) (by decide) ':' (by decide) h

/-! ## What the normal form is -/

theorem canonical_of4 (a : BitVec 32) {n : ℕ} (hn : n ≤ 32) :
    Canonical ((Addr.v4 (maskBits n a)).string ++ "/" ++ toString n) := by
  have hmasked : (Prefix.of4 (maskBits n a) n hn).masked = Prefix.of4 (maskBits n a) n hn := by
    simp only [Prefix.masked, Prefix.of4, Addr.masked, maskBits_maskBits]
  have htext : (Prefix.of4 (maskBits n a) n hn).string =
      (Addr.v4 (maskBits n a)).string ++ "/" ++ toString n := rfl
  rw [← htext]
  exact canonical_of_masked rfl hmasked

/-- A single address. -/
theorem canonical_host {a : Addr} (h : a.is4 = true) : Canonical (a.string ++ "/32") := by
  cases a with
  | zero => cases h
  | v4 a =>
    have hfull : maskBits 32 a = a := by simp [maskBits]
    have hcanon := canonical_of4 a (le_refl 32)
    have hbits : "/" ++ toString 32 = "/32" := by decide
    rw [hfull, String.append_assoc, hbits] at hcanon
    exact hcanon
  | v6 a z => cases h

/-- The last 32 bits of a masked address are masked. -/
theorem maskBits_setWidth {a : BitVec 128} {n : ℕ} (hn : 96 ≤ n) :
    maskBits (n - 96) ((maskBits n a).setWidth 32) = (maskBits n a).setWidth 32 := by
  rw [← BitVec.toNat_inj, toNat_maskBits, BitVec.toNat_setWidth, toNat_maskBits]
  have hwidth : 32 - (n - 96) = 128 - n := by omega
  rw [hwidth]
  apply Nat.div_mul_cancel
  apply (Nat.dvd_mod_iff (pow_dvd_pow 2 (show 128 - n ≤ 32 by omega))).mpr
  exact Dvd.intro_left _ rfl

theorem ipNetString_canonical_iff {a : Addr} {n : ℕ} (h4 : a.unmap.is4 = true)
    (hn : n ≤ a.bitLen) (hzone : a.zone = "") :
    Canonical (ipNetString a n) ↔ ¬ (a.is4In6 = true ∧ n < 96) := by
  cases a with
  | zero => cases h4
  | v4 a => exact iff_of_true (canonical_of4 a hn) (fun h => by cases h.1)
  | v6 a z =>
    have hmapped : a >>> 32 = 0xffff#128 := by
      by_contra hnot
      simp only [Addr.unmap, if_neg hnot] at h4
      cases h4
    have hin : (Addr.v6 a z).is4In6 = true := decide_eq_true hmapped
    rw [show z = "" from hzone]
    by_cases hwide : n < 96
    · -- the masked network is no longer mapped, and is written with colons
      have hnot : ((Addr.v6 a "").masked n).is4In6 = false :=
        decide_eq_false (not_mapped_of_masked hwide)
      refine iff_of_false (not_canonical_of_colon ?_) (fun h => h ⟨hin, hwide⟩)
      have htext : ((Addr.v6 a "").masked n).string = formatIPv6 (maskBits n a) "" := by
        simp only [Addr.masked, Addr.string]
        rw [show (Addr.v6 (maskBits n a) "").is4In6 = false from hnot]
        rfl
      simp only [ipNetString, hnot, Bool.false_eq_true, if_false, htext, String.toList_append,
        List.mem_append]
      exact .inl (.inl (formatIPv6_chars (maskBits n a)).1)
    · have hstill : maskBits n a >>> 32 = 0xffff#128 := by
        rw [masked_ushiftRight (by omega)]
        exact hmapped
      have hyes : ((Addr.v6 a "").masked n).is4In6 = true := decide_eq_true hstill
      refine iff_of_true ?_ (fun h => hwide h.2)
      have hle : n ≤ 128 := hn
      have hcanon := canonical_of4 ((maskBits n a).setWidth 32) (show n - 96 ≤ 32 by omega)
      rw [maskBits_setWidth (by omega)] at hcanon
      simp only [ipNetString, hyes, if_true]
      simpa only [Addr.masked, Addr.unmap, if_pos hstill] using hcanon

/-- What the normal form of an entry is, in terms of the entry. -/
theorem normalizeIPv4CIDR_canonical_iff {s t : String} (h : normalizeIPv4CIDR s = some t) :
    Canonical t ↔ ¬ WideMapped s := by
  unfold normalizeIPv4CIDR at h
  dsimp only at h
  split at h
  · cases h
  · split at h
    · cases hparse : parseCIDR (trimSpaces s.toList) with
      | none =>
        rw [hparse] at h
        cases h
      | some network =>
        obtain ⟨a, n⟩ := network
        rw [hparse] at h
        dsimp only at h
        split at h
        · rename_i h4
          cases h
          obtain ⟨hn, hzone⟩ := parseCIDR_spec hparse
          rw [ipNetString_canonical_iff h4 hn hzone]
          simp [WideMapped, hparse]
        · cases h
    · rename_i hslash
      split at h
      · rename_i a hip
        split at h
        · rename_i h4
          cases h
          refine iff_of_true (canonical_host h4) ?_
          rintro ⟨a, n, hparse, -⟩
          rw [parseCIDR, (cut_eq_none '/' _).mpr hslash] at hparse
          cases hparse
        · cases h
      · cases h

/-! ## Whole bodies -/

theorem normalizeIPv4CIDR_of_wideMapped {s : String} (h : WideMapped s) :
    ∃ t, normalizeIPv4CIDR s = some t := by
  obtain ⟨a, n, hparse, hmapped, -⟩ := h
  have hslash : '/' ∈ trimSpaces s.toList := by
    by_contra hnone
    rw [parseCIDR, (cut_eq_none '/' _).mpr hnone] at hparse
    cases hparse
  have hne : trimSpaces s.toList ≠ [] := List.ne_nil_of_mem hslash
  have h4 : a.unmap.is4 = true := by
    cases a with
    | zero => cases hmapped
    | v4 a => cases hmapped
    | v6 a z => simp only [Addr.unmap, if_pos (of_decide_eq_true hmapped), Addr.is4]
  exact ⟨ipNetString a n, by
    simp only [normalizeIPv4CIDR, if_neg hne, if_pos hslash, hparse, h4, if_true]⟩

theorem filterMap_canonical_iff (l : List String) :
    (∀ t ∈ l.filterMap normalizeIPv4CIDR, Canonical t) ↔ ∀ e ∈ l, ¬ WideMapped e := by
  constructor
  · intro hall e he hwide
    obtain ⟨t, ht⟩ := normalizeIPv4CIDR_of_wideMapped hwide
    exact (normalizeIPv4CIDR_canonical_iff ht).mp
      (hall t (List.mem_filterMap.mpr ⟨e, he, ht⟩)) hwide
  · intro hall t ht
    obtain ⟨e, he, het⟩ := List.mem_filterMap.mp ht
    exact (normalizeIPv4CIDR_canonical_iff het).mpr (hall e he)

/-- From whatever bytes, each parser returns canonical IPv4 prefixes only, iff no entry is a
mapped network with a mask that ends before the mapped part. -/
theorem source_text_canonical_iff (decode : ByteArray → Except String (List String))
    (b : ByteArray) :
    (∀ out, parseCIDRLines b = .ok out →
      ((∀ t ∈ out, Canonical t) ↔ ∀ e ∈ entries b, ¬ WideMapped e)) ∧
    ∀ out, parseRIPEPrefixes decode b = .ok out →
      ((∀ t ∈ out, Canonical t) ↔
        ∀ prefixes, decode b = .ok prefixes → ∀ e ∈ prefixes, ¬ WideMapped e) := by
  constructor
  · intro out hout
    simp only [parseCIDRLines, bind_eq_ok, require_eq_ok, pure_eq_ok] at hout
    obtain ⟨_, -, _, -, rfl⟩ := hout
    exact filterMap_canonical_iff (entries b)
  · intro out hout
    simp only [parseRIPEPrefixes, bind_eq_ok, require_eq_ok, pure_eq_ok] at hout
    obtain ⟨_, -, prefixes, hdecode, _, -, rfl⟩ := hout
    rw [filterMap_canonical_iff prefixes, hdecode]
    constructor
    · intro hall prefixes' heq
      cases heq
      exact hall
    · intro hall
      exact hall prefixes rfl

/-- A list with a comment, a bare address and a stray byte. -/
def sampleBody : ByteArray := "#\n10.1.2.3/8,\n1.2.3.4\n".toByteArray.push 0xff

theorem source_text_canonical_sample :
    parseCIDRLines sampleBody = .ok ["10.0.0.0/8", "1.2.3.4/32"] ∧
    Canonical "10.0.0.0/8" ∧ Canonical "1.2.3.4/32" := by
  have hparse : parseCIDRLines sampleBody = .ok ["10.0.0.0/8", "1.2.3.4/32"] := by
    decide +kernel
  have hentries : ∀ e ∈ entries sampleBody, ¬ WideMapped e := by decide +kernel
  have hall := ((source_text_canonical_iff (fun _ => .ok []) sampleBody).1 _ hparse).mpr hentries
  exact ⟨hparse, hall _ (by simp), hall _ (by simp)⟩

/-- A mapped network with a short mask comes out as an IPv6 text, which neither the firewall
planner nor the aggregation accepts. -/
theorem source_text_mapped :
    parseCIDRLines "::ffff:1.2.3.4/64".toByteArray = .ok ["::/64"] ∧ ¬ Canonical "::/64" ∧
    Firewall.canonicalPrefixes ["::/64"] = .error "\"::/64\" is not an IPv4 prefix" ∧
    cidrRange "::/64" = none := by
  refine ⟨?_, not_canonical_of_colon (by decide), ?_, ?_⟩
  · rw [parseCIDRLines_toByteArray]
    decide +kernel
  · decide +kernel
  · decide +kernel

end SakhtarWg.SourceText
