import SakhtarWg.Netip

/-!
# Prefixes

`netip.Prefix` and its text, and `net.SplitHostPort` with its inverse. A prefix
carries the bound on its length, so an out-of-range one cannot be written down.
-/

namespace SakhtarWg.Netip
open Text

/-- A valid `netip.Prefix`; host bits may be set. -/
structure Prefix where
  addr : Addr
  bits : ℕ
  bits_le : bits ≤ addr.bitLen
  deriving DecidableEq

/-- Keeps the top `n` of `w` bits. -/
def maskBits {w : ℕ} (n : ℕ) (a : BitVec w) : BitVec w := (a >>> (w - n)) <<< (w - n)

def Addr.masked (n : ℕ) : Addr → Addr
  | .zero => .zero
  | .v4 a => .v4 (maskBits n a)
  | .v6 a z => .v6 (maskBits n a) z

@[simp] theorem Addr.masked_bitLen (n : ℕ) (a : Addr) : (a.masked n).bitLen = a.bitLen := by
  cases a <;> rfl

namespace Prefix

def masked (p : Prefix) : Prefix := ⟨p.addr.masked p.bits, p.bits, by simpa using p.bits_le⟩

def string (p : Prefix) : String := p.addr.string ++ "/" ++ toString p.bits

/-- Membership by the leading bits; another family or a zoned address is outside. -/
def contains (p : Prefix) (a : Addr) : Bool :=
  match p.addr, a with
  | .v4 x, .v4 y => x >>> (32 - p.bits) = y >>> (32 - p.bits)
  | .v6 x _, .v6 y z => z = "" ∧ x >>> (128 - p.bits) = y >>> (128 - p.bits)
  | _, _ => false

/-- Same family and equal leading bits under the shorter length. -/
def overlaps (p q : Prefix) : Bool :=
  match p.addr, q.addr with
  | .v4 x, .v4 y => x >>> (32 - min p.bits q.bits) = y >>> (32 - min p.bits q.bits)
  | .v6 x _, .v6 y _ => x >>> (128 - min p.bits q.bits) = y >>> (128 - min p.bits q.bits)
  | _, _ => false

/-- The IPv4 prefix of `n` bits around `a`. -/
def of4 (a : BitVec 32) (n : ℕ) (h : n ≤ 32) : Prefix := ⟨.v4 a, n, h⟩

theorem eq_of4 {p : Prefix} (h : p.addr.is4 = true) :
    ∃ a n, ∃ hn : n ≤ 32, p = of4 a n hn := by
  obtain ⟨addr, n, hn⟩ := p
  cases addr with
  | zero => simp [Addr.is4] at h
  | v4 a => exact ⟨a, n, hn, rfl⟩
  | v6 a z => simp [Addr.is4] at h

end Prefix

/-! ## Leading bits -/

theorem ushiftRight_eq_iff {w : ℕ} (x y : BitVec w) (k : ℕ) :
    x >>> k = y >>> k ↔ x.toNat / 2 ^ k = y.toNat / 2 ^ k := by
  rw [← BitVec.toNat_inj, BitVec.toNat_ushiftRight, BitVec.toNat_ushiftRight,
    Nat.shiftRight_eq_div_pow, Nat.shiftRight_eq_div_pow]

theorem toNat_maskBits {w : ℕ} (n : ℕ) (a : BitVec w) :
    (maskBits n a).toNat = a.toNat / 2 ^ (w - n) * 2 ^ (w - n) := by
  rw [maskBits, BitVec.toNat_shiftLeft, BitVec.toNat_ushiftRight, Nat.shiftRight_eq_div_pow,
    Nat.shiftLeft_eq]
  apply Nat.mod_eq_of_lt
  exact (Nat.div_mul_le_self _ _).trans_lt a.isLt

theorem maskBits_ushiftRight {w : ℕ} (n : ℕ) (a : BitVec w) :
    maskBits n a >>> (w - n) = a >>> (w - n) := by
  rw [ushiftRight_eq_iff, toNat_maskBits]
  exact Nat.mul_div_cancel _ (by positivity)

@[simp] theorem maskBits_maskBits {w : ℕ} (n : ℕ) (a : BitVec w) :
    maskBits n (maskBits n a) = maskBits n a := by
  rw [maskBits, maskBits_ushiftRight, maskBits]

@[simp] theorem Addr.masked_masked (n : ℕ) (a : Addr) : (a.masked n).masked n = a.masked n := by
  cases a <;> simp [Addr.masked]

@[simp] theorem Prefix.masked_masked (p : Prefix) : p.masked.masked = p.masked := by
  simp [Prefix.masked]

@[simp] theorem Prefix.masked_is4 (p : Prefix) : p.masked.addr.is4 = p.addr.is4 := by
  obtain ⟨addr, n, hn⟩ := p
  cases addr <;> rfl

@[simp] theorem Prefix.masked_contains (p : Prefix) (a : Addr) :
    p.masked.contains a = p.contains a := by
  obtain ⟨addr, n, hn⟩ := p
  cases addr <;> cases a <;>
    simp [Prefix.masked, Addr.masked, Prefix.contains, maskBits_ushiftRight]

/-- Two nested shifts: equal leading bits stay equal when fewer are compared. -/
theorem ushiftRight_eq_of_le {w : ℕ} {x y : BitVec w} {k m : ℕ} (hkm : k ≤ m)
    (h : x >>> k = y >>> k) : x >>> m = y >>> m := by
  obtain ⟨d, rfl⟩ := Nat.exists_eq_add_of_le hkm
  rw [BitVec.shiftRight_add, BitVec.shiftRight_add, h]

theorem Prefix.overlaps_comm (p q : Prefix) : p.overlaps q = q.overlaps p := by
  obtain ⟨addr, n, hn⟩ := p
  obtain ⟨addr', n', hn'⟩ := q
  cases addr <;> cases addr' <;> simp [Prefix.overlaps, min_comm, eq_comm]

theorem Prefix.masked_overlaps (p q : Prefix) : p.masked.overlaps q = p.overlaps q := by
  obtain ⟨addr, n, hn⟩ := p
  obtain ⟨addr', n', hn'⟩ := q
  have hmask {w : ℕ} (a : BitVec w) :
      maskBits n a >>> (w - min n n') = a >>> (w - min n n') :=
    ushiftRight_eq_of_le (Nat.sub_le_sub_left (min_le_left n n') w) (maskBits_ushiftRight n a)
  cases addr <;> cases addr' <;> simp [Prefix.masked, Addr.masked, Prefix.overlaps, hmask]

/-- IPv4 prefixes overlap exactly when they share an address. -/
theorem Prefix.overlaps_iff {p q : Prefix} (hp : p.addr.is4 = true) (hq : q.addr.is4 = true) :
    p.overlaps q = true ↔ ∃ a, p.contains (.v4 a) = true ∧ q.contains (.v4 a) = true := by
  obtain ⟨x, n, hn, rfl⟩ := Prefix.eq_of4 hp
  obtain ⟨y, m, hm, rfl⟩ := Prefix.eq_of4 hq
  have hover : (Prefix.of4 x n hn).overlaps (Prefix.of4 y m hm) = true ↔
      x >>> (32 - min n m) = y >>> (32 - min n m) := decide_eq_true_iff
  have hx (a) : (Prefix.of4 x n hn).contains (.v4 a) = true ↔
      x >>> (32 - n) = a >>> (32 - n) := decide_eq_true_iff
  have hy (a) : (Prefix.of4 y m hm).contains (.v4 a) = true ↔
      y >>> (32 - m) = a >>> (32 - m) := decide_eq_true_iff
  simp only [hover, hx, hy]
  constructor
  · intro h
    rcases le_total n m with hnm | hnm
    · rw [min_eq_left hnm] at h
      exact ⟨y, h, rfl⟩
    · rw [min_eq_right hnm] at h
      exact ⟨x, rfl, h.symm⟩
  · rintro ⟨a, hx, hy⟩
    have h1 := ushiftRight_eq_of_le (Nat.sub_le_sub_left (min_le_left n m) 32) hx
    have h2 := ushiftRight_eq_of_le (Nat.sub_le_sub_left (min_le_right n m) 32) hy
    exact h1.trans h2.symm

/-! ## Reading prefixes -/

/-- The length after the slash: no sign, no leading zero. -/
def parseBits (l : List Char) : Option ℕ :=
  match readNat 10 l with
  | some n => if l.head? = some '0' ∧ 1 < l.length then none else some n
  | none => none

/-- `netip.ParsePrefix`: cut at the last slash, no zone, length within the family. -/
def parsePrefixChars (l : List Char) : Option Prefix :=
  match cutLast '/' l with
  | none => none
  | some (host, len) =>
    match parseAddrChars host, parseBits len with
    | some a, some n =>
      if h : a.zone = "" ∧ n ≤ a.bitLen then some ⟨a, n, h.2⟩ else none
    | _, _ => none

def parsePrefix (s : String) : Option Prefix := parsePrefixChars s.toList

theorem parseBits_toDigits : ∀ n < 129, parseBits (Nat.toDigits 10 n) = some n := by
  decide +kernel

theorem slash_not_mem_digits (n : ℕ) : '/' ∉ Nat.toDigits 10 n :=
  not_mem_toDigits (by norm_num) (by norm_num) _ (by decide)

theorem Prefix.string_toList_of4 (a : BitVec 32) (n : ℕ) (h : n ≤ 32) :
    (of4 a n h).string.toList = (formatIPv4 a).toList ++ '/' :: Nat.toDigits 10 n := by
  simp only [string, of4, Addr.string, String.toList_append, toString_toList,
    List.append_assoc]
  rfl

/-- A printed IPv4 prefix reads back as itself. -/
theorem parsePrefix_string {p : Prefix} (hp : p.addr.is4 = true) :
    parsePrefix p.string = some p := by
  obtain ⟨a, n, hn, rfl⟩ := Prefix.eq_of4 hp
  have ha : parseAddrChars (formatIPv4 a).toList = some (Addr.v4 a) := parseAddr_formatIPv4 a
  rw [parsePrefix, Prefix.string_toList_of4, parsePrefixChars,
    cutLast_append _ _ _ (slash_not_mem_digits n)]
  simp [ha, parseBits_toDigits n (by omega), Addr.zone, Addr.bitLen, hn, Prefix.of4]

/-- A printed prefix is one word of a command line. -/
theorem Prefix.string_isWord {p : Prefix} (hp : p.addr.is4 = true) : IsWord p.string.toList := by
  obtain ⟨a, n, hn, rfl⟩ := Prefix.eq_of4 hp
  rw [Prefix.string_toList_of4]
  refine ⟨by simp, ?_⟩
  intro c hc
  have hdig : ∀ d < 16, isBlank d.digitChar = false := by decide
  rcases List.mem_append.mp hc with h | h
  · rcases formatIPv4_chars a h with rfl | ⟨d, hd, rfl⟩
    · decide
    · exact hdig d hd
  · rcases List.mem_cons.mp h with rfl | h
    · decide
    · obtain ⟨d, hd, rfl⟩ := isDigit_of_mem_toDigits (by norm_num) (by norm_num) h
      exact hdig d hd

/-! ## Host and port -/

/-- `net.SplitHostPort`. -/
def splitHostPort (s : String) : Option (String × String) :=
  match cutLast ':' s.toList with
  | none => none
  | some (before, port) =>
    match before with
    | '[' :: rest =>
      match cut ']' rest with
      | some (host, []) =>
        if '[' ∈ host ∨ '[' ∈ port ∨ ']' ∈ port then none
        else some (String.ofList host, String.ofList port)
      | _ => none
    | host =>
      if ':' ∈ host ∨ '[' ∈ host ∨ ']' ∈ host ∨ '[' ∈ port ∨ ']' ∈ port then none
      else some (String.ofList host, String.ofList port)

theorem splitHostPort_eq {s : String} {host port : List Char} (hs : s.toList = host ++ ':' :: port)
    (hhost : ':' ∉ host ∧ '[' ∉ host ∧ ']' ∉ host)
    (hport : ':' ∉ port ∧ '[' ∉ port ∧ ']' ∉ port) :
    splitHostPort s = some (String.ofList host, String.ofList port) := by
  rw [splitHostPort, hs, cutLast_append _ _ _ hport.1]
  dsimp only
  split
  · exact absurd List.mem_cons_self hhost.2.1
  · rw [if_neg (by simp [hhost, hport])]

/-- `net.JoinHostPort`. -/
def joinHostPort (host port : String) : String :=
  if ':' ∈ host.toList then "[" ++ host ++ "]:" ++ port else host ++ ":" ++ port

/-- An IPv4 literal joined with a port splits back into both. -/
theorem splitHostPort_join (v : BitVec 32) {port : String}
    (hport : ':' ∉ port.toList ∧ '[' ∉ port.toList ∧ ']' ∉ port.toList) :
    splitHostPort (joinHostPort (Addr.v4 v).string port) = some (formatIPv4 v, port) := by
  have hcolon : ':' ∉ (formatIPv4 v).toList := not_mem_formatIPv4 v _ (by decide) (by decide)
  have hopen : '[' ∉ (formatIPv4 v).toList := not_mem_formatIPv4 v _ (by decide) (by decide)
  have hclose : ']' ∉ (formatIPv4 v).toList := not_mem_formatIPv4 v _ (by decide) (by decide)
  have hjoin : (joinHostPort (Addr.v4 v).string port).toList =
      (formatIPv4 v).toList ++ ':' :: port.toList := by
    simp [joinHostPort, Addr.string, hcolon]
  rw [splitHostPort_eq hjoin ⟨hcolon, hopen, hclose⟩ hport, String.ofList_toList,
    String.ofList_toList]

/-- The port of a split address holds no colon and no bracket. -/
theorem splitHostPort_port {s host port : String} (h : splitHostPort s = some (host, port)) :
    ':' ∉ port.toList ∧ '[' ∉ port.toList ∧ ']' ∉ port.toList := by
  unfold splitHostPort at h
  split at h
  · cases h
  · rename_i before rest hcut
    have hcolon := (cutLast_eq_some hcut).2
    split at h
    · split at h
      · split at h
        · cases h
        · rename_i hbad
          simp only [not_or] at hbad
          cases h
          simpa using ⟨hcolon, hbad.2⟩
      · cases h
    · split at h
      · cases h
      · rename_i hbad
        simp only [not_or] at hbad
        cases h
        simpa using ⟨hcolon, hbad.2.2.2⟩

end SakhtarWg.Netip
