import SakhtarWg.AddrText
import SakhtarWg.Prefix

/-!
# CIDR texts

The older parsers of package `net` and the normal form the route sources bring
their entries into. They accept more than `netip`: leading zeros in the length, and
IPv4-mapped networks of any length.
-/

namespace SakhtarWg.Netip
open Text

/-- `net.ParseIP`: the address of a text without zone. -/
def parseIP (l : List Char) : Option Addr :=
  (parseAddrChars l).bind fun a => if a.zone = "" then some a else none

/-- `net.ParseCIDR`: the address and the length of the mask. -/
def parseCIDR (l : List Char) : Option (Addr × ℕ) :=
  match cut '/' l with
  | none => none
  | some (addr, mask) =>
    match parseIP addr, readNat 10 mask with
    | some a, some n => if n ≤ a.bitLen then some (a, n) else none
    | _, _ => none

/-- `IPNet.String` of the masked network: one that is still IPv4-mapped is shown as IPv4. -/
def ipNetString (a : Addr) (n : ℕ) : String :=
  let m := a.masked n
  if m.is4In6 then m.unmap.string ++ "/" ++ toString (n - 96) else m.string ++ "/" ++ toString n

def normalizeIPv4CIDR (s : String) : Option String :=
  let l := trimSpaces s.toList
  if l = [] then none
  else if '/' ∈ l then
    match parseCIDR l with
    | some (a, n) => if a.unmap.is4 then some (ipNetString a n) else none
    | none => none
  else
    match parseIP l with
    | some a => if a.unmap.is4 then some (a.unmap.string ++ "/32") else none
    | none => none

/-! ## Networks -/

theorem parseIP_zone {l : List Char} {a : Addr} (h : parseIP l = some a) : a.zone = "" := by
  simp only [parseIP, Option.bind_eq_some_iff] at h
  obtain ⟨_, -, h⟩ := h
  split at h
  · rename_i hzone
    cases h
    exact hzone
  · cases h

theorem parseCIDR_spec {l : List Char} {a : Addr} {n : ℕ} (h : parseCIDR l = some (a, n)) :
    n ≤ a.bitLen ∧ a.zone = "" := by
  unfold parseCIDR at h
  split at h
  · cases h
  · split at h
    · rename_i hip _
      split at h
      · rename_i hle
        cases h
        exact ⟨hle, parseIP_zone hip⟩
      · cases h
    · cases h

/-- A mask that ends before the last 32 bits clears a bit that marks a mapped address. -/
theorem not_mapped_of_masked {a : BitVec 128} {n : ℕ} (hn : n < 96) :
    maskBits n a >>> 32 ≠ 0xffff#128 := by
  intro h
  have hmask : (maskBits n a).toNat / 2 ^ 32 = 65535 := by
    have hnat := congrArg BitVec.toNat h
    rw [BitVec.toNat_ushiftRight, Nat.shiftRight_eq_div_pow] at hnat
    exact hnat
  rw [toNat_maskBits] at hmask
  obtain ⟨d, hd⟩ := Nat.exists_eq_add_of_le (show 33 ≤ 128 - n by omega)
  have hpow : (2 : ℕ) ^ (128 - n) = 2 * 2 ^ d * 2 ^ 32 := by
    rw [hd, pow_add]
    omega
  rw [hpow, ← Nat.mul_assoc, Nat.mul_div_cancel _ (by positivity), Nat.mul_left_comm] at hmask
  omega

/-- A longer mask keeps them all. -/
theorem masked_ushiftRight {a : BitVec 128} {n : ℕ} (hn : 96 ≤ n) :
    maskBits n a >>> 32 = a >>> 32 :=
  ushiftRight_eq_of_le (show 128 - n ≤ 32 by omega) (maskBits_ushiftRight n a)

/-- Masking does not make an address IPv4-mapped. -/
theorem is4In6_of_masked {a : Addr} {n : ℕ} (h : (a.masked n).is4In6 = true) :
    a.is4In6 = true := by
  cases a with
  | zero => cases h
  | v4 a => cases h
  | v6 a z =>
    simp only [Addr.masked, Addr.is4In6, decide_eq_true_eq] at h ⊢
    by_cases hn : 96 ≤ n
    · rw [← masked_ushiftRight hn]
      exact h
    · exact absurd h (not_mapped_of_masked (by omega))

/-! ## Static routes

A route that `netip` accepts as an IPv4 prefix is normalized to its masked text. -/

theorem parseBits_readNat {l : List Char} {n : ℕ} (h : parseBits l = some n) :
    readNat 10 l = some n := by
  unfold parseBits at h
  cases hn : readNat 10 l with
  | none => simp [hn] at h
  | some m =>
    rw [hn] at h
    dsimp only at h
    split at h
    · cases h
    · exact h

/-- The two parts of an accepted prefix text. -/
theorem parsePrefix_parts {s : String} {p : Prefix} (h : parsePrefix s = some p) :
    ∃ host len, s.toList = host ++ '/' :: len ∧ parseAddrChars host = some p.addr ∧
      parseBits len = some p.bits ∧ p.addr.zone = "" := by
  unfold parsePrefix parsePrefixChars at h
  cases hcut : cutLast '/' s.toList with
  | none => simp [hcut] at h
  | some parts =>
    obtain ⟨host, len⟩ := parts
    rw [hcut] at h
    dsimp only at h
    split at h
    · rename_i a n ha hn
      split at h
      · rename_i hz
        cases h
        exact ⟨host, len, (cutLast_eq_some hcut).1, ha, hn, hz.1⟩
      · cases h
    · cases h

/-- Package `net` reads a text that `netip` accepts as an IPv4 prefix the same way. -/
theorem parseCIDR_of_parsePrefix {s : String} {p : Prefix} (h : parsePrefix s = some p)
    (h4 : p.addr.is4 = true) :
    trimSpaces s.toList = s.toList ∧ parseCIDR s.toList = some (p.addr, p.bits) := by
  obtain ⟨host, len, hs, hhost, hlen, hzone⟩ := parsePrefix_parts h
  obtain ⟨v, hparse, hv⟩ := parseAddrChars_v4 hhost h4
  have hnat := parseBits_readNat hlen
  have hslash : '/' ∉ host := by
    intro hmem
    rcases parseIPv4_chars hparse hmem with h | h
    · cases h
    · revert h
      decide
  have hdigit {c : Char} (hc : '0' ≤ c ∧ c ≤ '9') : isSpace c = false := by
    have hc : 48 ≤ c.toNat ∧ c.toNat ≤ 57 := hc
    exact isSpace_eq_false (by omega) (by omega)
  have hspace : ∀ c ∈ s.toList, isSpace c = false := by
    intro c hc
    rw [hs, List.mem_append, List.mem_cons] at hc
    rcases hc with hc | rfl | hc
    · rcases parseIPv4_chars hparse hc with rfl | hd
      · decide
      · exact hdigit hd
    · decide
    · exact hdigit ((readNat_decimal hnat).2 c hc)
  constructor
  · exact trimSpaces_of_ends (fun c hc => hspace c (List.mem_of_mem_head? hc))
      (fun c hc => hspace c (List.mem_of_mem_getLast? hc))
  · have hip : parseIP host = some p.addr := by simp [parseIP, hhost, hzone]
    simp [parseCIDR, hs, cut_append _ _ _ hslash, hip, hnat, p.bits_le]

theorem normalizeIPv4CIDR_eq {s : String} {p : Prefix} (h : parsePrefix s = some p)
    (h4 : p.addr.is4 = true) : normalizeIPv4CIDR s = some p.masked.string := by
  obtain ⟨htrim, hcidr⟩ := parseCIDR_of_parsePrefix h h4
  obtain ⟨host, len, hs, hhost, -, -⟩ := parsePrefix_parts h
  obtain ⟨v, -, hv⟩ := parseAddrChars_v4 hhost h4
  have hne : s.toList ≠ [] := by simp [hs]
  have hmem : '/' ∈ s.toList := by simp [hs]
  simp only [normalizeIPv4CIDR, htrim, if_neg hne, if_pos hmem, hcidr, hv, Addr.unmap, Addr.is4,
    if_true, ipNetString, Addr.masked, Addr.is4In6, Prefix.masked, Prefix.string]
  rfl

end SakhtarWg.Netip
