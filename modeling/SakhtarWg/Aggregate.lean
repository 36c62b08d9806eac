import Mathlib.Data.List.Sort
import SakhtarWg.Cidr
import SakhtarWg.Blocks
import SakhtarWg.InPlace

/-!
# IPv4 aggregation

Package `routesource`: the networks of a list of texts as ranges of addresses, the ranges merged
in place, and each merged range written as the largest aligned networks it consists of.
-/

namespace SakhtarWg.RouteSet
open Text Netip Blocks InPlace

structure Interval where
  low : BitVec 32
  high : BitVec 32
  deriving DecidableEq

/-- The range of a text's network. An IPv4-mapped network keeps the length of its own mask. -/
def cidrRange (raw : String) : Option Interval :=
  match parseCIDR (trimSpaces raw.toList) with
  | none => none
  | some (a, ones) =>
    match (a.masked ones).unmap with
    | .v4 low => some ⟨low,
        if ones = 0 then BitVec.allOnes 32 else low ||| (BitVec.allOnes 32 >>> ones)⟩
    | _ => none

/-- `candidate` overlaps `last` or follows it without a gap. -/
def Interval.joins (last candidate : Interval) : Bool :=
  candidate.low ≤ last.high ||
    (last.high ≠ BitVec.allOnes 32 && candidate.low = last.high + 1)

def Interval.widen (last candidate : Interval) : Interval :=
  if last.high < candidate.high then { last with high := candidate.high } else last

/-- `bits.TrailingZeros` of a number of so many bits. -/
def trailingZeros : ℕ → ℕ → ℕ
  | 0, _ => 0
  | bits + 1, n => if n % 2 = 1 then 0 else trailingZeros bits (n / 2) + 1

/-- The inner loop: smaller while the block does not fit. -/
def shrink (span : ℕ) : ℕ → ℕ
  | 0 => 0
  | size + 1 => if span < 2 ^ (size + 1) then shrink span size else size + 1

def blockSize (low high : BitVec 32) : ℕ :=
  shrink (high.toNat - low.toNat + 1) (if low = 0 then 32 else trailingZeros 32 low.toNat)

/-- The outer loop; `next` is a 64-bit number. -/
def rangeLoop : ℕ → BitVec 32 → BitVec 32 → List (BitVec 32 × ℕ)
  | 0, _, _ => []
  | fuel + 1, low, high =>
    let size := blockSize low high
    let next := low.toNat + 2 ^ size
    (low, size) :: if high.toNat < next then [] else rangeLoop fuel (BitVec.ofNat 32 next) high

def cidrText (low : BitVec 32) (size : ℕ) : String :=
  formatIPv4 low ++ "/" ++ toString (32 - size)

/-- Every round takes at least one address, so the loop ends within their number. -/
def rangeCIDRs (low high : BitVec 32) : List String :=
  (rangeLoop (high.toNat - low.toNat + 1) low high).map fun block => cidrText block.1 block.2

def aggregateSorted (intervals : List Interval) : List String :=
  sortStrings ((mergeInPlace Interval.joins Interval.widen intervals).flatMap fun item =>
    rangeCIDRs item.low item.high)

/-- The library's sort may leave ranges with one low in any order; `aggregateSorted_perm` below
says that this does not matter. -/
def aggregateIPv4 (cidrs : List String) : List String :=
  aggregateSorted ((cidrs.filterMap cidrRange).insertionSort fun i j => i.low ≤ j.low)

/-! ## Blocks of addresses -/

theorem dvd_iff_le_trailingZeros {bits s : ℕ} (h : s ≤ bits) (n : ℕ) :
    2 ^ s ∣ n ↔ s ≤ trailingZeros bits n := by
  induction bits generalizing s n with
  | zero =>
    obtain rfl : s = 0 := by omega
    simp
  | succ bits ih =>
    rw [trailingZeros]
    cases s with
    | zero => simp
    | succ s =>
      split
      · rename_i hodd
        refine iff_of_false (fun hdvd => ?_) (by omega)
        have htwo : 2 ∣ n := (Dvd.intro_left (2 ^ s) (pow_succ 2 s).symm).trans hdvd
        omega
      · rename_i heven
        have hn : n = 2 * (n / 2) := by omega
        rw [Nat.add_le_add_iff_right, ← ih (by omega) (n / 2), pow_succ']
        conv_lhs => rw [hn]
        exact Nat.mul_dvd_mul_iff_left (by decide)

theorem shrink_eq (span size : ℕ) :
    shrink span size = Nat.findGreatest (fun s => 2 ^ s ≤ span) size := by
  induction size with
  | zero => rfl
  | succ size ih =>
    rw [shrink, Nat.findGreatest_succ, ih]
    by_cases hfits : 2 ^ (size + 1) ≤ span
    · rw [if_neg (by omega), if_pos hfits]
    · rw [if_pos (by omega), if_neg hfits]

theorem trailingZeros_le (bits n : ℕ) : trailingZeros bits n ≤ bits := by
  induction bits generalizing n with
  | zero => exact le_rfl
  | succ bits ih =>
    rw [trailingZeros]
    split
    · omega
    · have := ih (n / 2)
      omega

/-- The level at which the inner loop starts: the greatest the low end is aligned to. -/
theorem top_spec (low : BitVec 32) :
    (if low = 0 then 32 else trailingZeros 32 low.toNat) ≤ 32 ∧
      ∀ s ≤ 32, 2 ^ s ∣ low.toNat ↔ s ≤ if low = 0 then 32 else trailingZeros 32 low.toNat := by
  by_cases hzero : low = 0
  · subst hzero
    simp
  · rw [if_neg hzero]
    exact ⟨trailingZeros_le 32 low.toNat, fun s hs => dvd_iff_le_trailingZeros hs low.toNat⟩

theorem blockSize_eq {low high : BitVec 32} (h : low.toNat ≤ high.toNat) :
    blockSize low high = fit 32 low.toNat high.toNat := by
  obtain ⟨htop, hdvd⟩ := top_spec low
  rw [blockSize, shrink_eq]
  generalize (if low = 0 then 32 else trailingZeros 32 low.toNat) = top at htop hdvd
  apply le_antisymm
  · have hle := Nat.findGreatest_le (P := fun s => 2 ^ s ≤ high.toNat - low.toNat + 1) top
    have hfits : 2 ^ Nat.findGreatest (fun s => 2 ^ s ≤ high.toNat - low.toNat + 1) top ≤
        high.toNat - low.toNat + 1 :=
      Nat.findGreatest_spec (P := fun s => 2 ^ s ≤ high.toNat - low.toNat + 1) (Nat.zero_le top)
        (by simp)
    apply Nat.le_findGreatest (hle.trans htop)
    exact ⟨(hdvd _ (hle.trans htop)).mpr hle, by omega⟩
  · obtain ⟨hdvd', hfits⟩ := fit_spec 32 h
    apply Nat.le_findGreatest ((hdvd _ (Nat.findGreatest_le 32)).mp hdvd')
    show 2 ^ fit 32 low.toNat high.toNat ≤ high.toNat - low.toNat + 1
    omega

/-- The text of a block. -/
def blockText (b : Block) : String := cidrText (BitVec.ofNat 32 b.start) b.level

theorem rangeLoop_eq (fuel : ℕ) {low high : BitVec 32} (h : low.toNat ≤ high.toNat) :
    rangeLoop fuel low high =
      (tile 32 fuel low.toNat high.toNat).map fun b => (BitVec.ofNat 32 b.start, b.level) := by
  induction fuel generalizing low with
  | zero => rfl
  | succ fuel ih =>
    have hstart := Block.around_start (fit_spec 32 h).1
    have hhead : (BitVec.ofNat 32 (Block.around (fit 32 low.toNat high.toNat) low.toNat).start,
        (Block.around (fit 32 low.toNat high.toNat) low.toNat).level) =
        (low, fit 32 low.toNat high.toNat) := by
      rw [hstart, BitVec.ofNat_toNat, BitVec.setWidth_eq]
      rfl
    simp only [rangeLoop, tile, blockSize_eq h, List.map_cons, hhead]
    by_cases hnext : low.toNat + 2 ^ fit 32 low.toNat high.toNat ≤ high.toNat
    · have hlt := high.isLt
      have hnat : (BitVec.ofNat 32 (low.toNat + 2 ^ fit 32 low.toNat high.toNat)).toNat =
          low.toNat + 2 ^ fit 32 low.toNat high.toNat := by
        rw [BitVec.toNat_ofNat, Nat.mod_eq_of_lt (by omega)]
      rw [if_neg (by omega), if_pos hnext, ih (by omega), hnat]
    · rw [if_pos (by omega), if_neg hnext]
      rfl

theorem rangeCIDRs_eq {low high : BitVec 32} (h : low.toNat ≤ high.toNat) :
    rangeCIDRs low high =
      (tile 32 (high.toNat - low.toNat + 1) low.toNat high.toNat).map blockText := by
  rw [rangeCIDRs, rangeLoop_eq _ h, List.map_map]
  rfl

/-! ## Merging -/

def Interval.span (i : Interval) : ℕ × ℕ := (i.low.toNat, i.high.toNat)

theorem Interval.joins_iff (last candidate : Interval) :
    last.joins candidate = true ↔ candidate.low.toNat ≤ last.high.toNat + 1 := by
  have hlast := last.high.isLt
  have hcand := candidate.low.isLt
  simp only [Interval.joins, Bool.or_eq_true, Bool.and_eq_true, decide_eq_true_eq, ne_eq,
    BitVec.le_def, ← BitVec.toNat_inj, BitVec.toNat_add, BitVec.toNat_allOnes]
  -- at the highest address there is no next one, and every candidate overlaps
  have hone : (1 : BitVec 32).toNat = 1 := rfl
  omega

theorem Interval.widen_span (last candidate : Interval) : (last.widen candidate).span =
    (last.low.toNat, max last.high.toNat candidate.high.toNat) := by
  unfold Interval.widen
  split
  · rename_i hlt
    rw [BitVec.lt_def] at hlt
    simp only [Interval.span, Prod.mk.injEq, true_and]
    omega
  · rename_i hlt
    rw [BitVec.lt_def] at hlt
    simp only [Interval.span, Prod.mk.injEq, true_and]
    omega

/-- What the merge makes of ascending ranges: separate ranges with the same addresses, none of
them before the first. -/
theorem mergeFrom_spec (last : Interval) (rest : List Interval)
    (hle : ∀ i ∈ last :: rest, i.low.toNat ≤ i.high.toNat)
    (hsorted : (last :: rest).Pairwise fun i j => i.low.toNat ≤ j.low.toNat) :
    Separated ((mergeFrom Interval.joins Interval.widen last rest).map Interval.span) ∧
      (∀ i ∈ mergeFrom Interval.joins Interval.widen last rest, last.low.toNat ≤ i.low.toNat) ∧
      spanned ((mergeFrom Interval.joins Interval.widen last rest).map Interval.span) =
        spanned ((last :: rest).map Interval.span) := by
  induction rest generalizing last with
  | nil =>
    refine ⟨⟨?_, ?_⟩, ?_, rfl⟩
    · simpa [mergeFrom, Interval.span] using hle
    · simp [mergeFrom]
    · simp [mergeFrom]
  | cons candidate rest ih =>
    obtain ⟨hlast, hle⟩ := List.forall_mem_cons.mp hle
    obtain ⟨hcand, hrest⟩ := List.forall_mem_cons.mp hle
    obtain ⟨hfirst, hsorted⟩ := List.pairwise_cons.mp hsorted
    have hlow := hfirst candidate (by simp)
    rw [mergeFrom]
    split
    · rename_i hjoins
      rw [Interval.joins_iff] at hjoins
      have hwiden := last.widen_span candidate
      have hwlow : (last.widen candidate).low.toNat = last.low.toNat := congrArg Prod.fst hwiden
      have hwhigh : (last.widen candidate).high.toNat =
          max last.high.toNat candidate.high.toNat := congrArg Prod.snd hwiden
      obtain ⟨hsep, hfrom, hsame⟩ := ih (last.widen candidate) (by
        rw [List.forall_mem_cons]
        exact ⟨by omega, hrest⟩) (by
        rw [List.pairwise_cons]
        refine ⟨fun j hj => ?_, (List.pairwise_cons.mp hsorted).2⟩
        rw [hwlow]
        exact hfirst j (List.mem_cons_of_mem _ hj))
      refine ⟨hsep, fun i hi => hwlow ▸ hfrom i hi, hsame.trans ?_⟩
      ext x
      simp only [List.map_cons, mem_spanned_cons, Set.mem_Icc, Interval.span]
      rw [← or_assoc]
      apply or_congr_left
      omega
    · rename_i hjoins
      rw [Interval.joins_iff] at hjoins
      obtain ⟨hsep, hfrom, hsame⟩ := ih candidate hle hsorted
      refine ⟨⟨?_, ?_⟩, ?_, ?_⟩
      · rw [List.map_cons, List.forall_mem_cons]
        exact ⟨hlast, hsep.nonempty⟩
      · rw [List.map_cons, List.pairwise_cons]
        refine ⟨fun r hr => ?_, hsep.gaps⟩
        obtain ⟨i, hi, rfl⟩ := List.mem_map.mp hr
        have := hfrom i hi
        show last.high.toNat + 1 < i.low.toNat
        omega
      · rw [List.forall_mem_cons]
        refine ⟨le_rfl, fun i hi => ?_⟩
        have := hfrom i hi
        omega
      · ext x
        rw [List.map_cons, mem_spanned_cons, hsame]
        exact mem_spanned_cons.symm

/-- The aggregate of ascending ranges is made of the largest blocks of their addresses. -/
theorem aggregateSorted_tiling {intervals : List Interval}
    (hle : ∀ i ∈ intervals, i.low.toNat ≤ i.high.toNat)
    (hsorted : intervals.Pairwise fun i j => i.low.toNat ≤ j.low.toNat) :
    ∃ tiles, Tiling 32 (spanned (intervals.map Interval.span)) tiles ∧
      aggregateSorted intervals = sortStrings (tiles.map blockText) := by
  obtain ⟨merged, hmerged, hsep, hsame⟩ : ∃ merged,
      mergeInPlace Interval.joins Interval.widen intervals = merged ∧
        Separated (merged.map Interval.span) ∧
        spanned (merged.map Interval.span) = spanned (intervals.map Interval.span) := by
    cases intervals with
    | nil => exact ⟨[], rfl, ⟨by simp, by simp⟩, rfl⟩
    | cons first rest =>
      obtain ⟨hsep, -, hsame⟩ := mergeFrom_spec first rest hle hsorted
      exact ⟨_, mergeInPlace_cons _ _ first rest, hsep, hsame⟩
  have htiling := hsep.tiling 32
  rw [hsame] at htiling
  refine ⟨_, htiling, ?_⟩
  have hrange : (merged.flatMap fun item => rangeCIDRs item.low item.high) =
      merged.flatMap fun item => (tile 32 (item.span.2 - item.span.1 + 1) item.span.1
        item.span.2).map blockText := by
    apply List.flatMap_congr
    intro item hitem
    exact rangeCIDRs_eq (hsep.nonempty _ (List.mem_map_of_mem hitem))
  rw [aggregateSorted, hmerged, hrange, List.map_flatMap, List.flatMap_map]

/-! ## The addresses of a text -/

/-- The addresses of the IPv4 network of a text as package `net` reads it; a text that is not a
network in dotted-quad form has none. -/
def addresses (text : String) : Set (BitVec 32) :=
  {x | ∃ a n, parseCIDR (trimSpaces text.toList) = some (.v4 a, n) ∧ maskBits n x = maskBits n a}

def covered (cidrs : List String) : Set (BitVec 32) := {x | ∃ c ∈ cidrs, x ∈ addresses c}

/-- The text is not a network around an IPv4-mapped address. -/
def NotMapped (text : String) : Prop :=
  ∀ a n, parseCIDR (trimSpaces text.toList) = some (a, n) → a.is4In6 = false

theorem notMapped_iff {text : String} : NotMapped text ↔
    ((parseCIDR (trimSpaces text.toList)).all fun network => !network.1.is4In6) = true := by
  unfold NotMapped
  cases parseCIDR (trimSpaces text.toList) with
  | none => simp
  | some network =>
    obtain ⟨a, n⟩ := network
    simp

instance (text : String) : Decidable (NotMapped text) := decidable_of_iff _ notMapped_iff.symm

theorem maskBits_eq_iff (n : ℕ) (x a : BitVec 32) :
    maskBits n x = maskBits n a ↔ x.toNat ∈ (Block.around (32 - n) a.toNat).points := by
  show _ ↔ x.toNat / 2 ^ (32 - n) = a.toNat / 2 ^ (32 - n)
  rw [← ushiftRight_eq_iff]
  constructor
  · intro h
    rw [← maskBits_ushiftRight n x, h, maskBits_ushiftRight]
  · intro h
    rw [maskBits, h, maskBits]

theorem or_low_ones (q k : ℕ) : q * 2 ^ k ||| (2 ^ k - 1) = q * 2 ^ k + 2 ^ k - 1 := by
  have hpos : 0 < 2 ^ k := Nat.two_pow_pos k
  rw [Nat.mul_comm, ← Nat.two_pow_add_eq_or_of_lt (by omega)]
  omega

/-- The range of a dotted-quad network is its block. -/
theorem cidrRange_v4 {text : String} {a : BitVec 32} {n : ℕ}
    (h : parseCIDR (trimSpaces text.toList) = some (.v4 a, n)) :
    ∃ i, cidrRange text = some i ∧
      Set.Icc i.span.1 i.span.2 = (Block.around (32 - n) a.toNat).points := by
  have hn : n ≤ 32 := (parseCIDR_spec h).1
  have hones : ∀ n < 33, (BitVec.allOnes 32 >>> n).toNat = 2 ^ (32 - n) - 1 := by decide
  have hlow : (maskBits n a).toNat = a.toNat / 2 ^ (32 - n) * 2 ^ (32 - n) := toNat_maskBits n a
  have hhigh : (if n = 0 then BitVec.allOnes 32
      else maskBits n a ||| (BitVec.allOnes 32 >>> n)).toNat =
        a.toNat / 2 ^ (32 - n) * 2 ^ (32 - n) + 2 ^ (32 - n) - 1 := by
    split
    · rename_i hzero
      subst hzero
      have hlt := a.isLt
      rw [Nat.sub_zero, Nat.div_eq_of_lt hlt]
      rfl
    · rw [BitVec.toNat_or, hlow, hones n (by omega), or_low_ones]
  refine ⟨⟨maskBits n a, _⟩, by simp only [cidrRange, h]; rfl, ?_⟩
  rw [Block.points_eq_Icc, Interval.span, hlow, hhigh]
  rfl

/-- A network that is not dotted-quad, and not IPv4-mapped, has no range. -/
theorem cidrRange_other {text : String} (h : ∀ a n,
    parseCIDR (trimSpaces text.toList) = some (a, n) → a.is4 = false ∧ a.is4In6 = false) :
    cidrRange text = none := by
  unfold cidrRange
  cases hparse : parseCIDR (trimSpaces text.toList) with
  | none => rfl
  | some network =>
    obtain ⟨a, n⟩ := network
    obtain ⟨h4, hmapped⟩ := h a n hparse
    cases a with
    | zero => rfl
    | v4 a => cases h4
    | v6 a z =>
      have hstill : ¬ maskBits n a >>> 32 = 0xffff#128 := by
        intro heq
        have hin := is4In6_of_masked (a := .v6 a z) (n := n) (decide_eq_true heq)
        rw [hmapped] at hin
        cases hin
      simp only [Addr.masked, Addr.unmap, if_neg hstill]

theorem mem_addresses {text : String} (h : NotMapped text) (x : BitVec 32) :
    x ∈ addresses text ↔ ∃ i, cidrRange text = some i ∧ x.toNat ∈ Set.Icc i.span.1 i.span.2 := by
  by_cases h4 : ∃ a n, parseCIDR (trimSpaces text.toList) = some (.v4 a, n)
  · obtain ⟨a, n, hparse⟩ := h4
    obtain ⟨i, hi, hpoints⟩ := cidrRange_v4 hparse
    have haddr : x ∈ addresses text ↔ maskBits n x = maskBits n a := by
      constructor
      · rintro ⟨a', n', hparse', hx⟩
        rw [hparse] at hparse'
        cases hparse'
        exact hx
      · exact fun hx => ⟨a, n, hparse, hx⟩
    rw [haddr, maskBits_eq_iff, ← hpoints, hi]
    simp
  · have hnone : cidrRange text = none := by
      apply cidrRange_other
      intro a n hparse
      refine ⟨?_, h a n hparse⟩
      cases a with
      | zero => rfl
      | v4 a => exact absurd ⟨a, n, hparse⟩ h4
      | v6 a z => rfl
    rw [hnone]
    refine iff_of_false ?_ (by simp)
    rintro ⟨a, n, hparse, -⟩
    exact h4 ⟨a, n, hparse⟩

theorem cidrRange_le {text : String} {i : Interval} (h : cidrRange text = some i) :
    i.low.toNat ≤ i.high.toNat := by
  unfold cidrRange at h
  split at h
  · cases h
  · split at h
    · cases h
      dsimp only
      split
      · rw [BitVec.toNat_allOnes]
        omega
      · rw [BitVec.toNat_or]
        exact Nat.left_le_or
    · cases h

/-- The ranges of a list have the numbers of its addresses. -/
theorem spanned_eq {cidrs : List String} (h : ∀ c ∈ cidrs, NotMapped c) :
    spanned ((cidrs.filterMap cidrRange).map Interval.span) = BitVec.toNat '' covered cidrs := by
  ext n
  constructor
  · rintro ⟨r, hr, hn⟩
    obtain ⟨i, hi, rfl⟩ := List.mem_map.mp hr
    obtain ⟨c, hc, hrange⟩ := List.mem_filterMap.mp hi
    have hlt : n < 2 ^ 32 := hn.2.trans_lt i.high.isLt
    have hnat : (BitVec.ofNat 32 n).toNat = n := by
      rw [BitVec.toNat_ofNat, Nat.mod_eq_of_lt hlt]
    refine ⟨BitVec.ofNat 32 n, ⟨c, hc, (mem_addresses (h c hc) _).mpr ⟨i, hrange, ?_⟩⟩, hnat⟩
    rw [hnat]
    exact hn
  · rintro ⟨x, ⟨c, hc, hx⟩, rfl⟩
    obtain ⟨i, hi, hmem⟩ := (mem_addresses (h c hc) x).mp hx
    exact ⟨i.span, List.mem_map_of_mem (List.mem_filterMap.mpr ⟨c, hc, hi⟩), hmem⟩

theorem aggregateIPv4_tiling (cidrs : List String) :
    ∃ tiles, Tiling 32 (spanned ((cidrs.filterMap cidrRange).map Interval.span)) tiles ∧
      aggregateIPv4 cidrs = sortStrings (tiles.map blockText) := by
  let R : Interval → Interval → Prop := fun i j => i.low ≤ j.low
  have htotal : Std.Total R := ⟨fun i j => BitVec.le_total i.low j.low⟩
  have htrans : IsTrans Interval R := ⟨fun _ _ _ => BitVec.le_trans⟩
  have hperm := List.perm_insertionSort R (cidrs.filterMap cidrRange)
  have hle : ∀ i ∈ (cidrs.filterMap cidrRange).insertionSort R,
      i.low.toNat ≤ i.high.toNat := by
    intro i hi
    obtain ⟨c, -, hc⟩ := List.mem_filterMap.mp (hperm.mem_iff.mp hi)
    exact cidrRange_le hc
  obtain ⟨tiles, htiling, hout⟩ :=
    aggregateSorted_tiling hle (List.pairwise_insertionSort R (cidrs.filterMap cidrRange))
  rw [spanned_congr fun r => (hperm.symm.map Interval.span).mem_iff] at htiling
  exact ⟨tiles, htiling, hout⟩

/-! ## The texts of blocks -/

/-- Blocks of the IPv4 address space. -/
def Inside (b : Block) : Prop := b.level ≤ 32 ∧ b.start < 2 ^ 32

theorem inside_of_maximal {cidrs : List String} {b : Block}
    (h : Maximal 32 (spanned ((cidrs.filterMap cidrRange).map Interval.span)) b) : Inside b := by
  refine ⟨h.level, ?_⟩
  obtain ⟨r, hr, hmem⟩ := h.inside b.start_mem
  obtain ⟨i, -, rfl⟩ := List.mem_map.mp hr
  exact hmem.2.trans_lt i.high.isLt

/-- The text of a block is that of a masked prefix. -/
theorem blockText_eq {b : Block} (h : Inside b) : ∃ p : Prefix,
    blockText b = p.string ∧ p.masked = p ∧ p.bits = 32 - b.level ∧
      p.addr = .v4 (BitVec.ofNat 32 b.start) := by
  obtain ⟨hlevel, hstart⟩ := h
  have hnat : (BitVec.ofNat 32 b.start).toNat = b.start := by
    rw [BitVec.toNat_ofNat, Nat.mod_eq_of_lt hstart]
  refine ⟨Prefix.of4 (BitVec.ofNat 32 b.start) (32 - b.level) (by omega), rfl, ?_, rfl, rfl⟩
  have hmask : maskBits (32 - b.level) (BitVec.ofNat 32 b.start) = BitVec.ofNat 32 b.start := by
    rw [← BitVec.toNat_inj, toNat_maskBits, hnat, Nat.sub_sub_self hlevel]
    exact Nat.div_mul_cancel (Dvd.intro_left b.index rfl)
  simp only [Prefix.masked, Prefix.of4, Addr.masked, hmask]

theorem parseCIDR_blockText {b : Block} (h : Inside b) :
    parseCIDR (trimSpaces (blockText b).toList) =
      some (.v4 (BitVec.ofNat 32 b.start), 32 - b.level) := by
  obtain ⟨p, htext, -, hbits, haddr⟩ := blockText_eq h
  have h4 : p.addr.is4 = true := by rw [haddr]; rfl
  obtain ⟨htrim, hparse⟩ := parseCIDR_of_parsePrefix (parsePrefix_string h4) h4
  rw [htext, htrim, hparse, haddr, hbits]

theorem notMapped_blockText {b : Block} (h : Inside b) : NotMapped (blockText b) := by
  intro a n hparse
  rw [parseCIDR_blockText h] at hparse
  cases hparse
  rfl

theorem mem_addresses_blockText {b : Block} (h : Inside b) (x : BitVec 32) :
    x ∈ addresses (blockText b) ↔ x.toNat ∈ b.points := by
  have haround : Block.around (32 - (32 - b.level)) (BitVec.ofNat 32 b.start).toNat = b := by
    rw [BitVec.toNat_ofNat, Nat.mod_eq_of_lt h.2, Nat.sub_sub_self h.1]
    exact Block.eq_of_mem (Block.mem_around _ _) b.start_mem rfl
  rw [← haround, ← maskBits_eq_iff]
  constructor
  · rintro ⟨a, n, hparse, hx⟩
    rw [haround, parseCIDR_blockText h] at hparse
    cases hparse
    exact hx
  · intro hx
    refine ⟨_, _, ?_, hx⟩
    rw [haround, parseCIDR_blockText h]

/-- The block of an IPv4 prefix. -/
def prefixBlock (p : Prefix) : Block :=
  match p.addr with
  | .v4 a => Block.around (32 - p.bits) a.toNat
  | _ => ⟨0, 0⟩

theorem prefixBlock_spec {p : Prefix} (h : p.addr.is4 = true) : (prefixBlock p).level ≤ 32 ∧
    (∀ n ∈ (prefixBlock p).points, n < 2 ^ 32) ∧
    ∀ x, p.contains (.v4 x) = true ↔ x.toNat ∈ (prefixBlock p).points := by
  obtain ⟨a, n, hn, rfl⟩ := Prefix.eq_of4 h
  refine ⟨Nat.sub_le 32 n, fun m hm => ?_, fun x => ?_⟩
  · -- the whole address space is a block too
    have hroot : a.toNat ∈ (⟨32, 0⟩ : Block).points := Nat.div_eq_of_lt a.isLt
    have hin := Block.subset_of_mem (Block.mem_around (32 - n) a.toNat) hroot
      (Nat.sub_le 32 n) hm
    exact Nat.lt_of_div_eq_zero (by decide) hin
  · have hcontains : (Prefix.of4 a n hn).contains (.v4 x) = true ↔
        a >>> (32 - n) = x >>> (32 - n) := decide_eq_true_iff
    rw [hcontains, ushiftRight_eq_iff, eq_comm]
    rfl

/-! ## Exact, minimal, canonical -/

/-- The aggregate of dotted-quad networks, and of texts that are no IPv4 network: disjoint
masked prefixes with exactly the given addresses, as few as there can be. It depends on the
addresses only, so aggregating it again changes nothing. -/
theorem aggregateIPv4_canonical {cidrs : List String} (h : ∀ c ∈ cidrs, NotMapped c) :
    (∀ t ∈ aggregateIPv4 cidrs, ∃ p : Prefix,
      p.addr.is4 = true ∧ p.masked = p ∧ t = p.string) ∧
    (aggregateIPv4 cidrs).Pairwise (fun s t => ∀ x ∈ addresses s, x ∉ addresses t) ∧
    covered (aggregateIPv4 cidrs) = covered cidrs ∧
    (∀ other : List Prefix, (∀ p ∈ other, p.addr.is4 = true) →
      {x | ∃ p ∈ other, p.contains (.v4 x) = true} = covered cidrs →
      (aggregateIPv4 cidrs).length ≤ other.length) ∧
    (∀ cidrs', (∀ c ∈ cidrs', NotMapped c) → covered cidrs' = covered cidrs →
      aggregateIPv4 cidrs' = aggregateIPv4 cidrs) ∧
    aggregateIPv4 (aggregateIPv4 cidrs) = aggregateIPv4 cidrs := by
  obtain ⟨tiles, htiling, hout⟩ := aggregateIPv4_tiling cidrs
  have hperm : (aggregateIPv4 cidrs).Perm (tiles.map blockText) := by
    rw [hout]
    exact sortStrings_perm _
  have hinside : ∀ b ∈ tiles, Inside b := fun b hb => inside_of_maximal ((htiling.mem b).mp hb)
  have htext : ∀ t ∈ aggregateIPv4 cidrs, ∃ b ∈ tiles, blockText b = t := fun t ht =>
    List.mem_map.mp (hperm.mem_iff.mp ht)
  have hspan : ∀ x : BitVec 32,
      x.toNat ∈ spanned ((cidrs.filterMap cidrRange).map Interval.span) ↔ x ∈ covered cidrs := by
    intro x
    rw [spanned_eq h]
    exact Function.Injective.mem_set_image fun _ _ heq => BitVec.eq_of_toNat_eq heq
  have hcovered : covered (aggregateIPv4 cidrs) = covered cidrs := by
    ext x
    rw [← hspan, htiling.mem_iff]
    constructor
    · rintro ⟨t, ht, hx⟩
      obtain ⟨b, hb, rfl⟩ := htext t ht
      exact ⟨b, hb, (mem_addresses_blockText (hinside b hb) x).mp hx⟩
    · rintro ⟨b, hb, hx⟩
      exact ⟨blockText b, hperm.mem_iff.mpr (List.mem_map_of_mem hb),
        (mem_addresses_blockText (hinside b hb) x).mpr hx⟩
  have hcanonical : ∀ cidrs', (∀ c ∈ cidrs', NotMapped c) → covered cidrs' = covered cidrs →
      aggregateIPv4 cidrs' = aggregateIPv4 cidrs := by
    intro cidrs' h' hsame
    obtain ⟨tiles', htiling', hout'⟩ := aggregateIPv4_tiling cidrs'
    rw [spanned_eq h', hsame, ← spanned_eq h] at htiling'
    rw [hout, hout', sortStrings_eq_of_perm ((htiling'.perm htiling).map blockText)]
  refine ⟨?_, ?_, hcovered, ?_, hcanonical, ?_⟩
  · intro t ht
    obtain ⟨b, hb, rfl⟩ := htext t ht
    obtain ⟨p, htext, hmasked, -, haddr⟩ := blockText_eq (hinside b hb)
    exact ⟨p, by rw [haddr]; rfl, hmasked, htext⟩
  · apply (hperm.pairwise_iff fun hdis x hx hx' => hdis x hx' hx).mpr
    rw [List.pairwise_map]
    apply htiling.disjoint.imp_of_mem
    intro b c hb hc hdis x hx hx'
    exact hdis x.toNat ((mem_addresses_blockText (hinside b hb) x).mp hx)
      ((mem_addresses_blockText (hinside c hc) x).mp hx')
  · intro other h4 hsame
    have hlength : (aggregateIPv4 cidrs).length = tiles.length := by
      rw [hperm.length_eq, List.length_map]
    rw [hlength, ← List.length_map (f := prefixBlock)]
    apply htiling.length_le
    · intro c hc
      obtain ⟨p, hp, rfl⟩ := List.mem_map.mp hc
      exact (prefixBlock_spec (h4 p hp)).1
    · intro n
      rw [spanned_eq h, ← hsame]
      constructor
      · rintro ⟨x, ⟨p, hp, hx⟩, rfl⟩
        exact ⟨prefixBlock p, List.mem_map_of_mem hp, ((prefixBlock_spec (h4 p hp)).2.2 x).mp hx⟩
      · rintro ⟨c, hc, hn⟩
        obtain ⟨p, hp, rfl⟩ := List.mem_map.mp hc
        obtain ⟨-, hlt, hcontains⟩ := prefixBlock_spec (h4 p hp)
        have hnat : (BitVec.ofNat 32 n).toNat = n := by
          rw [BitVec.toNat_ofNat, Nat.mod_eq_of_lt (hlt n hn)]
        refine ⟨BitVec.ofNat 32 n, ⟨p, hp, (hcontains _).mpr ?_⟩, hnat⟩
        rw [hnat]
        exact hn
  · apply hcanonical _ _ hcovered
    intro t ht
    obtain ⟨b, hb, rfl⟩ := htext t ht
    exact notMapped_blockText (hinside b hb)

/-- Adjacent, overlapping and single networks, a text that is none, and an IPv6 network. -/
def sampleNetworks : List String :=
  ["10.0.0.128/25", "10.0.0.0/25", "192.0.2.0/25", " 192.0.2.64/26", "203.0.113.7/32", "bad",
    "2001:db8::/32"]

theorem aggregateIPv4_canonical_sample :
    aggregateIPv4 sampleNetworks = ["10.0.0.0/24", "192.0.2.0/25", "203.0.113.7/32"] ∧
    covered ["10.0.0.0/24", "192.0.2.0/25", "203.0.113.7/32"] = covered sampleNetworks := by
  have hout : aggregateIPv4 sampleNetworks = ["10.0.0.0/24", "192.0.2.0/25", "203.0.113.7/32"] := by
    decide +kernel
  obtain ⟨-, -, hcovered, -⟩ :=
    aggregateIPv4_canonical (show ∀ c ∈ sampleNetworks, NotMapped c by decide +kernel)
  rw [hout] at hcovered
  exact ⟨hout, hcovered⟩

example : aggregateIPv4 ["255.255.255.255/32", "0.0.0.0/0"] = ["0.0.0.0/0"] := by decide +kernel

end SakhtarWg.RouteSet
