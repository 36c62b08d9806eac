import Mathlib.Tactic.Ring
import SakhtarWg.TunnelResolver

/-!
# The source list of the proxy

Peers come as 4 or 16 bytes and prefixes as text, and both are translated before they are
compared: mapped addresses to IPv4, mapped prefixes to IPv4 prefixes 96 bits shorter. The
translations fit together, so that a list admits exactly the addresses its texts contain.
-/

namespace SakhtarWg.Proxy
open Netip Fallible

/-! ## Peers -/

/-- The bytes of an address as a number, the most significant first. -/
def bytesNat (b : List UInt8) : ℕ := b.foldl (fun n x => 256 * n + x.toNat) 0

/-- `netip.AddrFromSlice`. -/
def addrFromSlice (b : List UInt8) : Option Addr :=
  if b.length = 4 then some (.v4 (BitVec.ofNat 32 (bytesNat b)))
  else if b.length = 16 then some (.v6 (BitVec.ofNat 128 (bytesNat b)) "")
  else none

/-- A remote address: the bytes of a TCP peer, or an address of another kind. -/
inductive RemoteAddr
  | tcp (ip : List UInt8)
  | other

/-- Without a list only the host itself may connect. -/
def compileSourceACL (c : Config) : List Prefix :=
  if c.proxy.allowedSourceCIDRs = [] then ["127.0.0.0/8", "::1/128"].filterMap parsePrefix
  else mustPolicyPrefixes c.proxy.allowedSourceCIDRs

def sourceAllowed (addr : RemoteAddr) (prefixes : List Prefix) : Addr × Bool :=
  match addr with
  | .other => (.zero, false)
  | .tcp bytes =>
    match addrFromSlice bytes with
    | none => (.zero, false)
    | some ip => (ip.unmap, prefixes.any (·.contains ip.unmap))

/-! ## Forms of an address -/

theorem bytesNat_append (a b : List UInt8) :
    bytesNat (a ++ b) = bytesNat a * 256 ^ b.length + bytesNat b := by
  have hfrom : ∀ (l : List UInt8) (n : ℕ),
      l.foldl (fun n x => 256 * n + x.toNat) n = n * 256 ^ l.length + bytesNat l := by
    intro l
    induction l with
    | nil => simp [bytesNat]
    | cons x l ih =>
      intro n
      have hcons : bytesNat (x :: l) = x.toNat * 256 ^ l.length + bytesNat l := by
        rw [bytesNat, List.foldl_cons, ih, mul_zero, zero_add]
      rw [List.foldl_cons, ih, hcons, List.length_cons]
      ring
  rw [bytesNat, List.foldl_append, hfrom]
  rfl

theorem bytesNat_lt (b : List UInt8) : bytesNat b < 256 ^ b.length := by
  induction b using List.reverseRecOn with
  | nil => decide
  | append_singleton b x ih =>
    have hx := x.toNat_lt
    have hone : bytesNat [x] = x.toNat := by simp [bytesNat]
    rw [bytesNat_append, hone, List.length_append, List.length_singleton, pow_one, pow_succ]
    omega

/-- The IPv4-mapped form of four bytes. -/
def mappedBytes (b : List UInt8) : List UInt8 := List.replicate 10 0 ++ [255, 255] ++ b

/-- The IPv4-mapped form of an IPv4 address. -/
def mapped4 (x : BitVec 32) : Addr := .v6 (BitVec.ofNat 128 (0xffff * 4294967296 + x.toNat)) ""

theorem mapped4_toNat (x : BitVec 32) :
    (BitVec.ofNat 128 (0xffff * 4294967296 + x.toNat)).toNat = 0xffff * 4294967296 + x.toNat := by
  have := x.isLt
  rw [BitVec.toNat_ofNat]
  exact Nat.mod_eq_of_lt (by omega)

/-- The mapped form of `x` is mapped, and unmaps to `x`. -/
theorem mapped4_spec (x : BitVec 32) :
    (mapped4 x).is4In6 = true ∧ (mapped4 x).unmap = .v4 x := by
  have hx := x.isLt
  have hhigh : BitVec.ofNat 128 (0xffff * 4294967296 + x.toNat) >>> 32 = 0xffff#128 := by
    apply BitVec.eq_of_toNat_eq
    rw [BitVec.toNat_ushiftRight, mapped4_toNat, Nat.shiftRight_eq_div_pow]
    show _ = 0xffff
    omega
  have hlow : (BitVec.ofNat 128 (0xffff * 4294967296 + x.toNat)).setWidth 32 = x := by
    apply BitVec.eq_of_toNat_eq
    rw [BitVec.toNat_setWidth, mapped4_toNat]
    omega
  exact ⟨decide_eq_true hhigh, by rw [mapped4, Addr.unmap, if_pos hhigh, hlow]⟩

theorem addrFromSlice_four {b : List UInt8} (hb : b.length = 4) :
    addrFromSlice b = some (.v4 (BitVec.ofNat 32 (bytesNat b))) := if_pos hb

theorem addrFromSlice_mapped {b : List UInt8} (hb : b.length = 4) :
    addrFromSlice (mappedBytes b) = some (mapped4 (BitVec.ofNat 32 (bytesNat b))) := by
  have hlt := bytesNat_lt b
  rw [hb] at hlt
  have hsmall : (BitVec.ofNat 32 (bytesNat b)).toNat = bytesNat b := by
    rw [BitVec.toNat_ofNat]
    exact Nat.mod_eq_of_lt hlt
  have hlen : (mappedBytes b).length = 16 := by simp [mappedBytes, hb]
  have hhead : bytesNat (List.replicate 10 0 ++ [255, 255]) = 0xffff := by decide
  have hvalue : bytesNat (mappedBytes b) = 0xffff * 4294967296 + bytesNat b := by
    rw [mappedBytes, bytesNat_append, hhead, hb]
    norm_num
  rw [addrFromSlice, if_neg (by omega), if_pos hlen, mapped4, hsmall, hvalue]

/-! ## Prefixes -/

/-- A mapped prefix of at least 96 bits contains the mapped form of what its translation
contains. -/
theorem contains_mapped {p : Prefix} (h6 : p.addr.is4In6 = true) (hbits : 96 ≤ p.bits)
    (x : BitVec 32) :
    (Prefix.mk p.addr.unmap (p.bits - 96) (unmapped_bits_le p)).contains (.v4 x) =
      p.contains (mapped4 x) := by
  obtain ⟨addr, n, hn⟩ := p
  cases addr with
  | zero => cases h6
  | v4 => cases h6
  | v6 a z =>
    have hhigh : a >>> 32 = 0xffff#128 := of_decide_eq_true h6
    have hvalue : a.toNat / 4294967296 = 0xffff := by
      have h := congrArg BitVec.toNat hhigh
      rwa [BitVec.toNat_ushiftRight, Nat.shiftRight_eq_div_pow] at h
    have hshift : 128 - n = 32 - (n - 96) := by
      simp only [Addr.bitLen] at hn hbits
      omega
    simp only [Prefix.contains, Addr.unmap, if_pos hhigh, mapped4, decide_eq_decide, true_and,
      hshift]
    rw [ushiftRight_eq_iff, ushiftRight_eq_iff, mapped4_toNat, BitVec.toNat_setWidth]
    -- both sides have the same high bits, and at most 32 low ones are dropped
    obtain ⟨k, hk⟩ : ∃ k, 32 - (n - 96) = k := ⟨_, rfl⟩
    have hk32 : 2 ^ (32 - k) * 2 ^ k = 4294967296 := by
      rw [← pow_add, Nat.sub_add_cancel (by omega)]
      norm_num
    have hdiv : ∀ m : ℕ, (0xffff * 4294967296 + m) / 2 ^ k =
        0xffff * 2 ^ (32 - k) + m / 2 ^ k := by
      intro m
      rw [← hk32, ← mul_assoc, add_comm, Nat.add_mul_div_right _ _ (by positivity), add_comm]
    have hsplit : a.toNat = 0xffff * 4294967296 + a.toNat % 2 ^ 32 := by omega
    have hhead : a.toNat / 2 ^ k = 0xffff * 2 ^ (32 - k) + a.toNat % 2 ^ 32 / 2 ^ k := by
      conv_lhs => rw [hsplit]
      exact hdiv _
    rw [hk, hhead, hdiv]
    omega

/-- Only a mapped prefix has 96 leading bits in common with a mapped address. -/
theorem is4In6_of_contains {p : Prefix} (hbits : 96 ≤ p.bits) {y : BitVec 128} {z : String}
    (hcontains : p.contains (.v6 y z) = true) : p.addr.is4In6 = (Addr.v6 y z).is4In6 := by
  obtain ⟨addr, n, hn⟩ := p
  cases addr with
  | zero => cases hcontains
  | v4 => cases hcontains
  | v6 a z' =>
    have hsame : a >>> (128 - n) = y >>> (128 - n) := (of_decide_eq_true hcontains).2
    have hhigh : a >>> 32 = y >>> 32 := by
      refine ushiftRight_eq_of_le ?_ hsame
      simp only at hbits
      omega
    simp only [Addr.is4In6, hhigh]

theorem parsePrefix_zone {text : String} {p : Prefix} (h : parsePrefix text = some p) :
    p.addr.zone = "" := by
  unfold parsePrefix parsePrefixChars at h
  split at h
  · cases h
  · split at h
    · split at h
      · rename_i hzone
        cases h
        exact hzone.1
      · cases h
    · cases h

/-- The prefix a text of the policy stands for. -/
theorem parsePolicyPrefix_eq_ok {text : String} {q : Prefix} :
    parsePolicyPrefix text = .ok q ↔ ∃ p, parsePrefix text = some p ∧
      ((p.addr.is4In6 = true ∧ 96 ≤ p.bits ∧
          q = Prefix.masked ⟨p.addr.unmap, p.bits - 96, unmapped_bits_le p⟩) ∨
        (p.addr.is4In6 = false ∧ q = p.masked)) := by
  unfold parsePolicyPrefix
  cases hparse : parsePrefix text with
  | none => simp
  | some p =>
    have hzone := parsePrefix_zone hparse
    simp only [hzone, ne_eq, not_true_eq_false, if_false, Option.some.injEq, exists_eq_left']
    cases h6 : p.addr.is4In6 with
    | true =>
      by_cases hbits : 96 ≤ p.bits
      · simp [hbits, eq_comm]
      · simp [hbits]
    | false => simp [eq_comm]

/-! ## What a list means -/

/-- The address lies in one of the listed prefixes: an IPv4 address itself, or in its mapped form
in a mapped prefix of at least 96 bits; an IPv6 address in a prefix that is not mapped. -/
def Listed (raw : List String) : Addr → Prop
  | .zero => False
  | .v4 x => ∃ text ∈ raw, ∃ p, parsePrefix text = some p ∧
      (p.contains (.v4 x) = true ∨
        p.addr.is4In6 = true ∧ 96 ≤ p.bits ∧ p.contains (mapped4 x) = true)
  | .v6 y z => ∃ text ∈ raw, ∃ p, parsePrefix text = some p ∧
      p.addr.is4In6 = false ∧ p.contains (.v6 y z) = true

theorem mem_mustPolicyPrefixes {raw : List String} {q : Prefix} :
    q ∈ mustPolicyPrefixes raw ↔ ∃ text ∈ raw, parsePolicyPrefix text = .ok q := by
  rw [mustPolicyPrefixes, List.mem_filterMap]
  refine exists_congr fun text => and_congr_right fun _ => ?_
  cases parsePolicyPrefix text <;> simp [Except.toOption]

/-- The compiled prefixes contain what the list means. -/
theorem any_contains_iff (raw : List String) {a : Addr} :
    (mustPolicyPrefixes raw).any (·.contains a) = true ↔ Listed raw a := by
  have hany : (mustPolicyPrefixes raw).any (·.contains a) = true ↔
      ∃ text ∈ raw, ∃ p, parsePrefix text = some p ∧
        ((p.addr.is4In6 = true ∧ 96 ≤ p.bits ∧
            (Prefix.mk p.addr.unmap (p.bits - 96) (unmapped_bits_le p)).contains a = true) ∨
          (p.addr.is4In6 = false ∧ p.contains a = true)) := by
    simp only [List.any_eq_true, mem_mustPolicyPrefixes, parsePolicyPrefix_eq_ok]
    constructor
    · rintro ⟨q, ⟨text, htext, p, hp, ⟨h6, hbits, rfl⟩ | ⟨h6, rfl⟩⟩, hq⟩
      · exact ⟨text, htext, p, hp, .inl ⟨h6, hbits, by simpa using hq⟩⟩
      · exact ⟨text, htext, p, hp, .inr ⟨h6, by simpa using hq⟩⟩
    · rintro ⟨text, htext, p, hp, ⟨h6, hbits, hq⟩ | ⟨h6, hq⟩⟩
      · exact ⟨_, ⟨text, htext, p, hp, .inl ⟨h6, hbits, rfl⟩⟩, by simpa using hq⟩
      · exact ⟨_, ⟨text, htext, p, hp, .inr ⟨h6, rfl⟩⟩, by simpa using hq⟩
  rw [hany]
  cases a with
  | zero =>
    refine iff_of_false ?_ id
    rintro ⟨text, -, ⟨addr, n, hn⟩, -, ⟨-, -, hq⟩ | ⟨-, hq⟩⟩
    · unfold Prefix.contains at hq
      split at hq <;> simp_all
    · cases addr <;> cases hq
  | v4 x =>
    refine exists_congr fun text => and_congr_right fun _ => exists_congr fun p =>
      and_congr_right fun _ => ?_
    have hnot : p.contains (.v4 x) = true → p.addr.is4In6 = false := by
      obtain ⟨addr, n, hn⟩ := p
      cases addr with
      | v6 => exact fun h => by cases h
      | _ => exact fun _ => rfl
    constructor
    · rintro (⟨h6, hbits, hq⟩ | ⟨-, hq⟩)
      · exact .inr ⟨h6, hbits, by rwa [contains_mapped h6 hbits] at hq⟩
      · exact .inl hq
    · rintro (hq | ⟨h6, hbits, hq⟩)
      · exact .inr ⟨hnot hq, hq⟩
      · exact .inl ⟨h6, hbits, by rwa [contains_mapped h6 hbits]⟩
  | v6 y z =>
    refine exists_congr fun text => and_congr_right fun _ => exists_congr fun p =>
      and_congr_right fun _ => ?_
    refine or_iff_right ?_
    rintro ⟨h6, -, hq⟩
    obtain ⟨addr, n, hn⟩ := p
    cases addr with
    | v6 a z' =>
      have hhigh : a >>> 32 = 0xffff#128 := of_decide_eq_true h6
      simp [Prefix.contains, Addr.unmap, hhigh] at hq
    | _ => cases h6

/-! ## Host bits -/

/-- The texts are accepted by the policy's reader. -/
def Accepted (raw : List String) : Prop := ∀ text ∈ raw, ∃ q, parsePolicyPrefix text = .ok q

/-- The lists name the same networks, whatever host bits are set. -/
def SameNetworks : List String → List String → Prop :=
  List.Forall₂ fun s s' => ∃ p p', parsePrefix s = some p ∧ parsePrefix s' = some p' ∧
    p.masked = p'.masked

theorem SameNetworks.symm {raw raw' : List String} (h : SameNetworks raw raw') :
    SameNetworks raw' raw := by
  refine (List.Forall₂.flip h).imp ?_
  rintro s s' ⟨p, p', hp, hp', heq⟩
  exact ⟨p', p, hp', hp, heq.symm⟩

theorem SameNetworks.exists_of_mem {raw raw' : List String} (h : SameNetworks raw raw')
    {text : String} {p : Prefix} (htext : text ∈ raw) (hp : parsePrefix text = some p) :
    ∃ text' ∈ raw', ∃ p', parsePrefix text' = some p' ∧ p'.bits = p.bits ∧
      ∀ a, p'.contains a = p.contains a := by
  induction h with
  | nil => cases htext
  | @cons s s' raw raw' hfirst hrest ih =>
    rcases List.mem_cons.mp htext with rfl | htext
    · obtain ⟨p₁, p', hp₁, hp', heq⟩ := hfirst
      rw [hp] at hp₁
      cases hp₁
      refine ⟨s', List.mem_cons_self, p', hp', (congrArg Prefix.bits heq).symm, fun a => ?_⟩
      rw [← Prefix.masked_contains, ← heq, Prefix.masked_contains]
    · obtain ⟨text', htext', hp'⟩ := ih htext
      exact ⟨text', List.mem_cons_of_mem _ htext', hp'⟩

/-- Host bits do not change what a list of accepted texts means. -/
theorem Listed.of_sameNetworks {raw raw' : List String} (h : SameNetworks raw raw')
    (haccepted : Accepted raw') {a : Addr} (hnative : a.is4In6 = false) (ha : Listed raw a) :
    Listed raw' a := by
  cases a with
  | zero => exact ha
  | v4 x =>
    obtain ⟨text, htext, p, hp, hin⟩ := ha
    obtain ⟨text', htext', p', hp', hbits, hsame⟩ := h.exists_of_mem htext hp
    refine ⟨text', htext', p', hp', ?_⟩
    rw [hsame, hsame, hbits]
    refine hin.imp id fun ⟨_, hlong, hmapped⟩ => ⟨?_, hlong, hmapped⟩
    -- the mapped form lies in it, so it is a mapped prefix too
    rw [is4In6_of_contains (hbits ▸ hlong) ((hsame (mapped4 x)).trans hmapped)]
    exact (mapped4_spec x).1
  | v6 y z =>
    obtain ⟨text, htext, p, hp, -, hin⟩ := ha
    obtain ⟨text', htext', p', hp', -, hsame⟩ := h.exists_of_mem htext hp
    have hin' := (hsame (.v6 y z)).trans hin
    refine ⟨text', htext', p', hp', ?_, hin'⟩
    -- a mapped prefix is accepted only with 96 bits, and then contains mapped addresses alone
    obtain ⟨q, hq⟩ := haccepted text' htext'
    obtain ⟨p₁, hp₁, ⟨-, hlong, -⟩ | ⟨h6, -⟩⟩ := parsePolicyPrefix_eq_ok.mp hq
    · rw [hp'] at hp₁
      cases hp₁
      rw [is4In6_of_contains hlong hin', hnative]
    · rw [hp'] at hp₁
      cases hp₁
      exact h6

/-! ## Sources and exceptions -/

/-- The texts of the exceptions of an egress. -/
def exceptionTexts (c : Config) (mark : ℤ) : List String :=
  match c.tunnelOf mark with
  | some t => (c.proxy.destinationPolicy.tunnelAllowCIDRs.lookup t.name).getD []
  | none => if mark = 0 then c.proxy.destinationPolicy.directAllowCIDRs else []

theorem newDestinationPolicy_exceptions (c : Config) (mark : ℤ) :
    c.newDestinationPolicy.allowByMark mark = mustPolicyPrefixes (exceptionTexts c mark) := by
  unfold Config.newDestinationPolicy exceptionTexts
  dsimp only
  cases c.tunnelOf mark with
  | some t => rfl
  | none =>
    dsimp only
    split <;> rfl

/-- Denied unless the egress lists an exception. -/
def deniedByDefault (a : Addr) : Bool :=
  a.isLoopback || a.isPrivate || a.isLinkLocalUnicast || a.isLinkLocalMulticast ||
    defaultDeniedDestinationPrefixes.any (·.contains a)

theorem addressAllowed_iff (p : DestinationPolicy) {mark : ℤ} {raw : List String}
    (hp : p.allowByMark mark = mustPolicyPrefixes raw) (a : Addr) (self : List Addr) :
    p.addressAllowed a mark self = true ↔ a.isValid = true ∧ a.zone = "" ∧
      a.unmap.isUnspecified = false ∧ a.unmap.isMulticast = false ∧ a.unmap ∉ self ∧
      (deniedByDefault a.unmap = true → Listed raw a.unmap) := by
  rw [← any_contains_iff, ← hp]
  unfold DestinationPolicy.addressAllowed
  by_cases hbad : a.isValid = false ∨ a.zone ≠ ""
  · rw [if_pos hbad]
    refine iff_of_false Bool.false_ne_true ?_
    rintro ⟨hvalid, hzone, -⟩
    simp [hvalid, hzone] at hbad
  · rw [if_neg hbad]
    simp only [not_or, Bool.not_eq_false, not_not] at hbad
    by_cases hself : a.unmap ∈ self
    · simp [hself]
    · by_cases hden : deniedByDefault a.unmap = true
      · simp only [deniedByDefault] at hden
        simp [hbad, hself, hden, deniedByDefault, and_assoc]
      · simp only [deniedByDefault] at hden
        simp [hbad, hself, hden, deniedByDefault]

theorem sourceAllowed_tcp {bytes : List UInt8} {ip : Addr} (h : addrFromSlice bytes = some ip)
    (raw : List String) :
    (sourceAllowed (.tcp bytes) (mustPolicyPrefixes raw)).2 = true ↔ Listed raw ip.unmap := by
  rw [sourceAllowed, h]
  exact any_contains_iff raw

/-- A list of accepted texts admits the peers it contains, in whatever form they come and with
whatever host bits it is written, and the exceptions of an egress are read the same way. -/
theorem sourceAllowed_membership (raw : List String) (haccepted : Accepted raw) :
    (∀ b : List UInt8, b.length = 4 →
      sourceAllowed (.tcp (mappedBytes b)) (mustPolicyPrefixes raw) =
          sourceAllowed (.tcp b) (mustPolicyPrefixes raw) ∧
        ((sourceAllowed (.tcp b) (mustPolicyPrefixes raw)).2 = true ↔
          Listed raw (.v4 (BitVec.ofNat 32 (bytesNat b))))) ∧
    (∀ b : List UInt8, b.length = 16 →
      (Addr.v6 (BitVec.ofNat 128 (bytesNat b)) "").is4In6 = false →
        ((sourceAllowed (.tcp b) (mustPolicyPrefixes raw)).2 = true ↔
          Listed raw (.v6 (BitVec.ofNat 128 (bytesNat b)) ""))) ∧
    (∀ raw', Accepted raw' → SameNetworks raw raw' → ∀ addr,
      sourceAllowed addr (mustPolicyPrefixes raw) =
        sourceAllowed addr (mustPolicyPrefixes raw')) ∧
    ∀ (c : Config) (mark : ℤ), exceptionTexts c mark = raw → ∀ (a : Addr) (self : List Addr),
      c.newDestinationPolicy.addressAllowed a mark self = true ↔ a.isValid = true ∧ a.zone = "" ∧
        a.unmap.isUnspecified = false ∧ a.unmap.isMulticast = false ∧ a.unmap ∉ self ∧
        (deniedByDefault a.unmap = true → Listed raw a.unmap) := by
  refine ⟨fun b hb => ⟨?_, sourceAllowed_tcp (addrFromSlice_four hb) raw⟩, fun b hb hnative => ?_,
    fun raw' haccepted' hsame addr => ?_, fun c mark hraw a self => ?_⟩
  · rw [sourceAllowed, sourceAllowed, addrFromSlice_mapped hb, addrFromSlice_four hb]
    simp only [(mapped4_spec _).2]
    rfl
  · have hslice : addrFromSlice b = some (.v6 (BitVec.ofNat 128 (bytesNat b)) "") := by
      rw [addrFromSlice, if_neg (by omega), if_pos hb]
    have hunmap : (Addr.v6 (BitVec.ofNat 128 (bytesNat b)) "").unmap =
        .v6 (BitVec.ofNat 128 (bytesNat b)) "" := by
      rw [Addr.unmap, if_neg (of_decide_eq_false hnative)]
    rw [sourceAllowed_tcp hslice raw, hunmap]
  · have hverdict : ∀ ip : Addr, (mustPolicyPrefixes raw).any (·.contains ip.unmap) =
        (mustPolicyPrefixes raw').any (·.contains ip.unmap) := by
      intro ip
      rw [Bool.eq_iff_iff, any_contains_iff, any_contains_iff]
      exact ⟨Listed.of_sameNetworks hsame haccepted' (Addr.unmap_is4In6 ip),
        Listed.of_sameNetworks hsame.symm haccepted (Addr.unmap_is4In6 ip)⟩
    unfold sourceAllowed
    split
    · rfl
    · split
      · rfl
      · rw [hverdict]
  · exact addressAllowed_iff _ (hraw ▸ newDestinationPolicy_exceptions c mark) a self

/-- The list of the tests admits `10.2.3.4` in both forms. -/
theorem sourceAllowed_membership_mapped :
    sourceAllowed (.tcp (mappedBytes [10, 2, 3, 4]))
        (mustPolicyPrefixes ["10.0.0.0/8", "2001:db8:1::/48"]) =
      sourceAllowed (.tcp [10, 2, 3, 4])
        (mustPolicyPrefixes ["10.0.0.0/8", "2001:db8:1::/48"]) := by
  have hok : ∀ text ∈ ["10.0.0.0/8", "2001:db8:1::/48"],
      (parsePolicyPrefix text).toOption.isSome = true := by
    decide +kernel
  have haccepted : Accepted ["10.0.0.0/8", "2001:db8:1::/48"] := by
    intro text htext
    have hsome := hok text htext
    cases hq : parsePolicyPrefix text with
    | ok q => exact ⟨q, rfl⟩
    | error e =>
      rw [hq] at hsome
      cases hsome
  exact ((sourceAllowed_membership _ haccepted).1 [10, 2, 3, 4] rfl).1

end SakhtarWg.Proxy
