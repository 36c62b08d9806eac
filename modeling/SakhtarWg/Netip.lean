import Mathlib.Data.List.Basic
import Mathlib.Tactic.IntervalCases
import SakhtarWg.Text

/-!
# Addresses and prefixes

Go's `net/netip` and the two functions of `net` that cut a host from a port, as
the daemon uses them: the three shapes of an address (none, IPv4, IPv6 with a
zone), its classes, its text in both directions, and masked prefixes.
-/

namespace SakhtarWg.Netip
open Text

/-- A `netip.Addr`: the zero value, an IPv4 address, or an IPv6 address with its
zone (empty when there is none). -/
inductive Addr
  | zero
  | v4 (a : BitVec 32)
  | v6 (a : BitVec 128) (zone : String)
  deriving DecidableEq, Inhabited, Repr

namespace Addr

def isValid : Addr → Bool
  | zero => false
  | _ => true

def is4 : Addr → Bool
  | v4 _ => true
  | _ => false

def is6 : Addr → Bool
  | v6 _ _ => true
  | _ => false

def zone : Addr → String
  | v6 _ z => z
  | _ => ""

def bitLen : Addr → ℕ
  | zero => 0
  | v4 _ => 32
  | v6 _ _ => 128

/-- `::ffff:a.b.c.d`, whatever its zone. -/
def is4In6 : Addr → Bool
  | v6 a _ => a >>> 32 = 0xffff#128
  | _ => false

/-- Removes the IPv4-in-IPv6 wrapping; the zone goes with it. -/
def unmap : Addr → Addr
  | v6 a z => if a >>> 32 = 0xffff#128 then v4 (a.setWidth 32) else v6 a z
  | a => a

/-- Octet `i` of an IPv4 address, the most significant first. -/
def octet (a : BitVec 32) (i : ℕ) : ℕ := a.toNat / 256 ^ (3 - i) % 256

/-- Group `i` of an IPv6 address, the most significant first. -/
def group (a : BitVec 128) (i : ℕ) : ℕ := a.toNat / 65536 ^ (7 - i) % 65536

def isUnspecified (a : Addr) : Bool := a = v4 0 || a = v6 0 ""

def isLoopback (a : Addr) : Bool :=
  match a.unmap with
  | zero => false
  | v4 x => octet x 0 = 127
  | v6 x _ => x = 1

def isMulticast (a : Addr) : Bool :=
  match a.unmap with
  | zero => false
  | v4 x => octet x 0 / 16 = 14
  | v6 x _ => group x 0 / 256 = 255

def isPrivate (a : Addr) : Bool :=
  match a.unmap with
  | zero => false
  | v4 x => octet x 0 = 10 || (octet x 0 = 172 && octet x 1 / 16 = 1) ||
      (octet x 0 = 192 && octet x 1 = 168)
  | v6 x _ => group x 0 / 512 = 126

def isLinkLocalUnicast (a : Addr) : Bool :=
  match a.unmap with
  | zero => false
  | v4 x => octet x 0 = 169 && octet x 1 = 254
  | v6 x _ => group x 0 / 64 = 1018

def isLinkLocalMulticast (a : Addr) : Bool :=
  match a.unmap with
  | zero => false
  | v4 x => octet x 0 = 224 && octet x 1 = 0 && octet x 2 = 0
  | v6 x _ => group x 0 / 256 = 255 && group x 0 % 16 = 2

theorem unmap_zone {a : Addr} (h : a.zone = "") : a.unmap.zone = "" := by
  cases a with
  | zero => rfl
  | v4 x => rfl
  | v6 x z =>
    simp only [unmap]
    split
    · rfl
    · exact h

@[simp] theorem unmap_isValid (a : Addr) : a.unmap.isValid = a.isValid := by
  cases a with
  | zero => rfl
  | v4 x => rfl
  | v6 x z => simp only [unmap]; split <;> rfl

@[simp] theorem unmap_unmap (a : Addr) : a.unmap.unmap = a.unmap := by
  cases a with
  | zero => rfl
  | v4 x => rfl
  | v6 x z =>
    by_cases h : x >>> 32 = 0xffff#128 <;> simp [unmap, h]

theorem bitLen_le_unmap (a : Addr) : a.bitLen ≤ a.unmap.bitLen + 96 := by
  cases a with
  | zero => simp [bitLen]
  | v4 x => simp [bitLen, unmap]
  | v6 x z =>
    simp only [unmap]
    split <;> simp [bitLen]

@[simp] theorem unmap_is4In6 (a : Addr) : a.unmap.is4In6 = false := by
  cases a with
  | zero => rfl
  | v4 x => rfl
  | v6 x z =>
    by_cases h : x >>> 32 = 0xffff#128 <;> simp [unmap, h, is4In6]

end Addr

/-! ## Reading addresses -/

/-- One decimal octet: digits only, at most 255, no leading zero. -/
def parseOctet (l : List Char) : Option ℕ :=
  match readNat 10 l with
  | some n => if n ≤ 255 ∧ (l.head? = some '0' → l.length = 1) then some n else none
  | none => none

def ofOctets (a b c d : ℕ) : BitVec 32 := BitVec.ofNat 32 (((a * 256 + b) * 256 + c) * 256 + d)

/-- `netip.parseIPv4`. -/
def parseIPv4 (l : List Char) : Option (BitVec 32) :=
  match splitOn '.' l with
  | [a, b, c, d] =>
    match parseOctet a, parseOctet b, parseOctet c, parseOctet d with
    | some a, some b, some c, some d => some (ofOctets a b c d)
    | _, _, _, _ => none
  | _ => none

def isHexDigit (c : Char) : Bool := (digitValue c).isSome

/-- The hexadecimal groups of an IPv6 text, with the position of its `::`; the
first argument is the number of groups that still fit. A trailing dotted quad
fills the last two groups. -/
def parseGroups : ℕ → List Char → List ℕ → Option ℕ → Option (List ℕ × Option ℕ)
  | 0, s, gs, e => if s = [] then some (gs, e) else none
  | room + 1, s, gs, e =>
    let digits := s.takeWhile isHexDigit
    if digits = [] ∨ 4 < digits.length then none
    else
      let v := (readNat 16 digits).getD 0
      match s.dropWhile isHexDigit with
      | '.' :: _ =>
        if (e = none ∧ gs.length ≠ 6) ∨ 6 < gs.length then none
        else (parseIPv4 s).map fun a => (gs ++ [a.toNat / 65536, a.toNat % 65536], e)
      | [] => some (gs ++ [v], e)
      | [':'] => none
      | ':' :: ':' :: more =>
        if e.isSome then none
        else if more = [] then some (gs ++ [v], some (gs.length + 1))
        else parseGroups room more (gs ++ [v]) (some (gs.length + 1))
      | ':' :: more => parseGroups room more (gs ++ [v]) e
      | _ => none

def ofGroups (gs : List ℕ) : BitVec 128 :=
  BitVec.ofNat 128 (gs.foldl (fun acc g => acc * 65536 + g) 0)

/-- The eight groups once the `::` is expanded; it stands for at least one. -/
def expandGroups : List ℕ × Option ℕ → Option (List ℕ)
  | (gs, none) => if gs.length = 8 then some gs else none
  | (gs, some k) =>
    if gs.length < 8 then some (gs.take k ++ List.replicate (8 - gs.length) 0 ++ gs.drop k)
    else none

/-- `netip.parseIPv6`. -/
def parseIPv6 (l : List Char) : Option Addr :=
  let zoned := (cut '%' l).getD (l, [])
  if (cut '%' l).isSome ∧ zoned.2 = [] then none
  else
    let groups :=
      match zoned.1 with
      | [':', ':'] => some ([], some 0)
      | ':' :: ':' :: s => parseGroups 8 s [] (some 0)
      | s => parseGroups 8 s [] none
    (groups.bind expandGroups).map fun gs => Addr.v6 (ofGroups gs) (String.ofList zoned.2)

/-- The first of `.`, `:` and `%` decides the family. -/
def parseAddrChars (l : List Char) : Option Addr :=
  match l.find? fun c => c = '.' || c = ':' || c = '%' with
  | some '.' => (parseIPv4 l).map Addr.v4
  | some ':' => parseIPv6 l
  | _ => none

/-- `netip.ParseAddr`. -/
def parseAddr (s : String) : Option Addr := parseAddrChars s.toList

/-! ## Printing addresses -/

def formatIPv4 (a : BitVec 32) : String :=
  toString (Addr.octet a 0) ++ "." ++ toString (Addr.octet a 1) ++ "." ++
    toString (Addr.octet a 2) ++ "." ++ toString (Addr.octet a 3)

def hexText (n : ℕ) : String := String.ofList (Nat.toDigits 16 n)

/-- First and last-plus-one position of the first longest run of two or more
zero groups. -/
def zeroRun (gs : List ℕ) : ℕ × ℕ :=
  (List.range 8).foldl (fun best i =>
    let j := i + ((gs.drop i).takeWhile (· = 0)).length
    if 2 ≤ j - i ∧ best.2 - best.1 < j - i then (i, j) else best) (0, 0)

def joinGroups (gs : List ℕ) : String := String.intercalate ":" (gs.map hexText)

def formatIPv6 (a : BitVec 128) (zone : String) : String :=
  let gs := (List.range 8).map (Addr.group a)
  let run := zeroRun gs
  let body :=
    if run.1 = run.2 then joinGroups gs
    else joinGroups (gs.take run.1) ++ "::" ++ joinGroups (gs.drop run.2)
  if zone = "" then body else body ++ "%" ++ zone

/-- `Addr.String`. -/
def Addr.string : Addr → String
  | zero => "invalid IP"
  | v4 a => formatIPv4 a
  | v6 a z =>
    if (v6 a z).is4In6 then
      let body := "::ffff:" ++ formatIPv4 (a.setWidth 32)
      if z = "" then body else body ++ "%" ++ z
    else formatIPv6 a z

/-! ## The dotted quad reads back -/

theorem octet_lt (a : BitVec 32) (i : ℕ) : Addr.octet a i < 256 := Nat.mod_lt _ (by norm_num)

theorem ofOctets_octet (a : BitVec 32) :
    ofOctets (Addr.octet a 0) (Addr.octet a 1) (Addr.octet a 2) (Addr.octet a 3) = a := by
  apply BitVec.eq_of_toNat_eq
  have ha : a.toNat < 4294967296 := a.isLt
  simp only [ofOctets, Addr.octet, BitVec.toNat_ofNat]
  norm_num
  omega

theorem parseOctet_toDigits : ∀ n < 256, parseOctet (Nat.toDigits 10 n) = some n := by
  decide +kernel

theorem toString_toList (n : ℕ) : (toString n).toList = Nat.toDigits 10 n := Nat.toList_repr

theorem dot_not_mem_digits (n : ℕ) : '.' ∉ Nat.toDigits 10 n :=
  not_mem_toDigits (by norm_num) (by norm_num) _ (by decide)

theorem formatIPv4_toList (a : BitVec 32) : (formatIPv4 a).toList =
    Nat.toDigits 10 (Addr.octet a 0) ++ '.' :: (Nat.toDigits 10 (Addr.octet a 1) ++
      '.' :: (Nat.toDigits 10 (Addr.octet a 2) ++ '.' :: Nat.toDigits 10 (Addr.octet a 3))) := by
  simp only [formatIPv4, String.toList_append, toString_toList, List.append_assoc]
  rfl

theorem parseIPv4_format (a : BitVec 32) : parseIPv4 (formatIPv4 a).toList = some a := by
  rw [formatIPv4_toList, parseIPv4, splitOn_append _ _ _ (dot_not_mem_digits _),
    splitOn_append _ _ _ (dot_not_mem_digits _), splitOn_append _ _ _ (dot_not_mem_digits _),
    splitOn_of_not_mem _ _ (dot_not_mem_digits _)]
  simp only [parseOctet_toDigits _ (octet_lt a _), ofOctets_octet]

/-- The characters of a dotted quad. -/
theorem formatIPv4_chars (a : BitVec 32) {c : Char} (h : c ∈ (formatIPv4 a).toList) :
    c = '.' ∨ ∃ d < 16, c = d.digitChar := by
  rw [formatIPv4_toList] at h
  simp only [List.mem_append, List.mem_cons] at h
  have hd (n : ℕ) (hc : c ∈ Nat.toDigits 10 n) : ∃ d < 16, c = d.digitChar :=
    isDigit_of_mem_toDigits (by norm_num) (by norm_num) hc
  rcases h with h | h | h | h | h | h | h
  · exact Or.inr (hd _ h)
  · exact Or.inl h
  · exact Or.inr (hd _ h)
  · exact Or.inl h
  · exact Or.inr (hd _ h)
  · exact Or.inl h
  · exact Or.inr (hd _ h)

theorem not_mem_formatIPv4 (a : BitVec 32) (c : Char) (hdot : c ≠ '.')
    (hc : ∀ d < 16, c ≠ d.digitChar) : c ∉ (formatIPv4 a).toList := by
  intro h
  rcases formatIPv4_chars a h with h | ⟨d, hd, h⟩
  · exact hdot h
  · exact hc d hd h

theorem find_digits_dot (n : ℕ) (l : List Char) :
    (Nat.toDigits 10 n ++ '.' :: l).find? (fun c => c = '.' || c = ':' || c = '%') = some '.' := by
  have h : (Nat.toDigits 10 n).find? (fun c => c = '.' || c = ':' || c = '%') = none := by
    rw [List.find?_eq_none]
    intro c hc
    obtain ⟨d, hd, rfl⟩ := isDigit_of_mem_toDigits (by norm_num) (by norm_num) hc
    clear hc
    revert d
    decide
  rw [List.find?_append, h]
  rfl

theorem parseAddr_formatIPv4 (a : BitVec 32) : parseAddr (formatIPv4 a) = some (Addr.v4 a) := by
  have hp := parseIPv4_format a
  rw [parseAddr, parseAddrChars]
  rw [formatIPv4_toList] at hp ⊢
  rw [find_digits_dot]
  simp [hp]

/-! ## The characters of an IPv6 text -/

theorem hexText_chars {n : ℕ} {c : Char} (h : c ∈ (hexText n).toList) :
    ∃ d < 16, c = d.digitChar := by
  rw [hexText, String.toList_ofList] at h
  exact isDigit_of_mem_toDigits (by norm_num) le_rfl h

theorem joinGroups_cons (g g' : ℕ) (gs : List ℕ) : (joinGroups (g :: g' :: gs)).toList =
    (hexText g).toList ++ ':' :: (joinGroups (g' :: gs)).toList := by
  simp [joinGroups, String.toList_intercalate, List.intercalate]

theorem joinGroups_chars {gs : List ℕ} {c : Char} (h : c ∈ (joinGroups gs).toList) :
    c = ':' ∨ ∃ d < 16, c = d.digitChar := by
  induction gs with
  | nil => simp [joinGroups] at h
  | cons g gs ih =>
    cases gs with
    | nil =>
      rw [show (joinGroups [g]).toList = (hexText g).toList by simp [joinGroups]] at h
      exact .inr (hexText_chars h)
    | cons g' gs =>
      rw [joinGroups_cons, List.mem_append, List.mem_cons] at h
      rcases h with h | rfl | h
      · exact .inr (hexText_chars h)
      · exact .inl rfl
      · exact ih h

/-- Without a zone the text has a colon, and nothing but colons and digits. -/
theorem formatIPv6_chars (a : BitVec 128) : ':' ∈ (formatIPv6 a "").toList ∧
    ∀ c ∈ (formatIPv6 a "").toList, c = ':' ∨ ∃ d < 16, c = d.digitChar := by
  simp only [formatIPv6, if_true]
  split
  · constructor
    · rw [show (List.range 8).map (Addr.group a) = Addr.group a 0 :: Addr.group a 1 ::
        (List.range' 2 6).map (Addr.group a) from rfl, joinGroups_cons]
      simp
    · exact fun c hc => joinGroups_chars hc
  · constructor
    · simp
    · intro c hc
      simp only [String.toList_append, List.mem_append] at hc
      rcases hc with (hc | hc) | hc
      · exact joinGroups_chars hc
      · exact .inl (by simpa using hc)
      · exact joinGroups_chars hc

end SakhtarWg.Netip
