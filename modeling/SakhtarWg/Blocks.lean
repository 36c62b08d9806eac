import Mathlib.Algebra.Order.Ring.Nat
import Mathlib.Data.List.Nodup
import Mathlib.Data.List.Pairwise
import Mathlib.Data.List.Perm.Subperm
import Mathlib.Data.Nat.Find
import Mathlib.Data.Set.Lattice
import Mathlib.Order.Interval.Set.Basic

/-!
# Tilings by aligned blocks

A block is the set of numbers with one quotient by a power of two. Two blocks are nested or
disjoint, so the largest blocks inside a set tile it, and no other list of blocks with the same
union is shorter. The greedy walk over an interval finds exactly these blocks.
-/

namespace SakhtarWg.Blocks

/-- The numbers whose quotient by `2 ^ level` is `index`. -/
@[ext] structure Block where
  level : ℕ
  index : ℕ
  deriving DecidableEq

namespace Block

def start (b : Block) : ℕ := b.index * 2 ^ b.level

def points (b : Block) : Set ℕ := {x | x / 2 ^ b.level = b.index}

theorem mem_points {b : Block} {x : ℕ} :
    x ∈ b.points ↔ b.start ≤ x ∧ x < b.start + 2 ^ b.level := by
  have hpos : 0 < 2 ^ b.level := Nat.two_pow_pos b.level
  show x / 2 ^ b.level = b.index ↔ _
  rw [start, Nat.div_eq_iff hpos]
  omega

theorem start_mem (b : Block) : b.start ∈ b.points := by
  have hpos : 0 < 2 ^ b.level := Nat.two_pow_pos b.level
  rw [mem_points]
  omega

theorem eq_of_mem {b c : Block} {x : ℕ} (hb : x ∈ b.points) (hc : x ∈ c.points)
    (h : b.level = c.level) : b = c := by
  apply Block.ext h
  rw [← show x / 2 ^ b.level = b.index from hb, ← show x / 2 ^ c.level = c.index from hc, h]

/-- Of two blocks with a common number the smaller one lies in the other. -/
theorem subset_of_mem {b c : Block} {x : ℕ} (hb : x ∈ b.points) (hc : x ∈ c.points)
    (h : b.level ≤ c.level) : b.points ⊆ c.points := by
  have hquot : ∀ y, y / 2 ^ c.level = y / 2 ^ b.level / 2 ^ (c.level - b.level) := by
    intro y
    rw [Nat.div_div_eq_div_mul, ← pow_add, Nat.add_sub_cancel' h]
  intro y hy
  have hsame : y / 2 ^ b.level = x / 2 ^ b.level := hy.trans hb.symm
  show y / 2 ^ c.level = c.index
  rw [hquot y, hsame, ← hquot x]
  exact hc

/-- The block of a level around a number. -/
def around (level x : ℕ) : Block := ⟨level, x / 2 ^ level⟩

theorem mem_around (level x : ℕ) : x ∈ (around level x).points := rfl

theorem around_start {level x : ℕ} (h : 2 ^ level ∣ x) : (around level x).start = x :=
  Nat.div_mul_cancel h

end Block

/-! ## The largest blocks of a set -/

/-- A block of a set that no larger block of the set contains. Levels go up to `w`. -/
structure Maximal (w : ℕ) (U : Set ℕ) (b : Block) : Prop where
  level : b.level ≤ w
  inside : b.points ⊆ U
  largest : ∀ c : Block, c.level ≤ w → c.points ⊆ U → b.points ⊆ c.points → c.level ≤ b.level

section
variable {w : ℕ} {U : Set ℕ} {b c : Block} {x : ℕ}

/-- Every block of the set that meets a largest one lies in it. -/
theorem Maximal.absorbs (h : Maximal w U b) (hlevel : c.level ≤ w) (hinside : c.points ⊆ U)
    (hb : x ∈ b.points) (hc : x ∈ c.points) : c.level ≤ b.level := by
  by_contra hlt
  have hsub : b.points ⊆ c.points := Block.subset_of_mem hb hc (by omega)
  exact hlt (h.largest c hlevel hinside hsub)

theorem Maximal.eq_of_mem (h : Maximal w U b) (h' : Maximal w U c) (hb : x ∈ b.points)
    (hc : x ∈ c.points) : b = c :=
  Block.eq_of_mem hb hc (le_antisymm (h'.absorbs h.level h.inside hc hb)
    (h.absorbs h'.level h'.inside hb hc))

theorem exists_maximal (w : ℕ) (hx : x ∈ U) : ∃ b, Maximal w U b ∧ x ∈ b.points := by
  classical
  -- the greatest level at which the block around the number is inside
  let P : ℕ → Prop := fun level => (Block.around level x).points ⊆ U
  have hzero : P 0 := by
    intro y hy
    rw [Block.mem_points] at hy
    have hstart : (Block.around 0 x).start = x := Block.around_start (one_dvd x)
    have hyx : y = x := by
      rw [hstart] at hy
      simp only [Block.around, pow_zero] at hy
      omega
    exact hyx ▸ hx
  have hP : P (Nat.findGreatest P w) := Nat.findGreatest_spec (Nat.zero_le w) hzero
  refine ⟨Block.around (Nat.findGreatest P w) x, ⟨Nat.findGreatest_le w, hP, ?_⟩,
    Block.mem_around _ x⟩
  intro c hlevel hinside hsub
  have hc : Block.around c.level x = c :=
    Block.eq_of_mem (Block.mem_around _ x) (hsub (Block.mem_around _ x)) rfl
  apply Nat.le_findGreatest hlevel
  show (Block.around c.level x).points ⊆ U
  rw [hc]
  exact hinside

end

/-! ## Tilings -/

/-- A list of exactly the largest blocks of a set. -/
structure Tiling (w : ℕ) (U : Set ℕ) (l : List Block) : Prop where
  nodup : l.Nodup
  mem : ∀ b, b ∈ l ↔ Maximal w U b

section
variable {w : ℕ} {U : Set ℕ} {l : List Block}

theorem Tiling.disjoint (h : Tiling w U l) :
    l.Pairwise fun b c => ∀ x ∈ b.points, x ∉ c.points := by
  apply h.nodup.imp_of_mem
  intro b c hb hc hne x hx hx'
  exact hne (((h.mem b).mp hb).eq_of_mem ((h.mem c).mp hc) hx hx')

theorem Tiling.mem_iff (h : Tiling w U l) (x : ℕ) : x ∈ U ↔ ∃ b ∈ l, x ∈ b.points := by
  constructor
  · intro hx
    obtain ⟨b, hb, hxb⟩ := exists_maximal w hx
    exact ⟨b, (h.mem b).mpr hb, hxb⟩
  · rintro ⟨b, hb, hxb⟩
    exact ((h.mem b).mp hb).inside hxb

/-- Any two tilings of a set have the same blocks. -/
theorem Tiling.perm {l' : List Block} (h : Tiling w U l) (h' : Tiling w U l') : l.Perm l' :=
  (List.perm_ext_iff_of_nodup h.nodup h'.nodup).mpr fun b => (h.mem b).trans (h'.mem b).symm

/-- No list of blocks with the same union is shorter. -/
theorem Tiling.length_le (h : Tiling w U l) {cover : List Block}
    (hlevel : ∀ c ∈ cover, c.level ≤ w) (hcover : ∀ x, x ∈ U ↔ ∃ c ∈ cover, x ∈ c.points) :
    l.length ≤ cover.length := by
  classical
  -- each tile is hit by a block of the cover that lies in it
  have hpick : ∀ b ∈ l, ∃ c ∈ cover, b.start ∈ c.points := fun b hb =>
    (hcover b.start).mp (((h.mem b).mp hb).inside b.start_mem)
  let pick : Block → Block := fun b =>
    if hb : b ∈ l then (hpick b hb).choose else b
  have hpicked : ∀ b ∈ l, pick b ∈ cover ∧ b.start ∈ (pick b).points := by
    intro b hb
    simp only [pick, dif_pos hb]
    exact (hpick b hb).choose_spec
  have hinside : ∀ c ∈ cover, c.points ⊆ U := fun c hc x hx => (hcover x).mpr ⟨c, hc, hx⟩
  have hsub : ∀ b ∈ l, (pick b).points ⊆ b.points := by
    intro b hb
    obtain ⟨hmem, hstart⟩ := hpicked b hb
    have hle := ((h.mem b).mp hb).absorbs (hlevel _ hmem) (hinside _ hmem) b.start_mem hstart
    exact Block.subset_of_mem hstart b.start_mem hle
  have hnodup : (l.map pick).Nodup := by
    apply List.Nodup.map_on _ h.nodup
    intro b hb c hc heq
    have hstart : b.start ∈ c.points := hsub c hc (heq ▸ (hpicked b hb).2)
    exact ((h.mem b).mp hb).eq_of_mem ((h.mem c).mp hc) b.start_mem hstart
  have hsubset : l.map pick ⊆ cover := by
    intro c hc
    obtain ⟨b, hb, rfl⟩ := List.mem_map.mp hc
    exact (hpicked b hb).1
  simpa using (hnodup.subperm hsubset).length_le

end

/-! ## The greedy walk over an interval -/

/-- The greatest level of a block that starts at `low` and does not go past `high`. -/
def fit (w low high : ℕ) : ℕ :=
  Nat.findGreatest (fun s => 2 ^ s ∣ low ∧ low + 2 ^ s ≤ high + 1) w

theorem fit_spec (w : ℕ) {low high : ℕ} (h : low ≤ high) :
    2 ^ fit w low high ∣ low ∧ low + 2 ^ fit w low high ≤ high + 1 :=
  Nat.findGreatest_spec (P := fun s => 2 ^ s ∣ low ∧ low + 2 ^ s ≤ high + 1) (Nat.zero_le w)
    ⟨one_dvd low, by omega⟩

/-- Blocks of the greatest level that fits, one after the other. -/
def tile (w : ℕ) : ℕ → ℕ → ℕ → List Block
  | 0, _, _ => []
  | fuel + 1, low, high =>
    Block.around (fit w low high) low ::
      if low + 2 ^ fit w low high ≤ high then tile w fuel (low + 2 ^ fit w low high) high else []

section
variable {w first low high : ℕ}

/-- Every block of the interval that has the number starts there. -/
def Fresh (w first high low : ℕ) : Prop :=
  ∀ b : Block, b.level ≤ w → b.points ⊆ Set.Icc first high → low ∈ b.points → b.start = low

theorem fresh_first (w first high : ℕ) : Fresh w first high first := by
  intro b _ hinside hmem
  have hle := (hinside b.start_mem).1
  have hge := (Block.mem_points.mp hmem).1
  omega

theorem around_fit_mem (w : ℕ) (h : low ≤ high) {x : ℕ} :
    x ∈ (Block.around (fit w low high) low).points ↔
      low ≤ x ∧ x < low + 2 ^ fit w low high := by
  rw [Block.mem_points, Block.around_start (fit_spec w h).1]
  rfl

theorem level_le_fit {b : Block} (hlevel : b.level ≤ w) (hinside : b.points ⊆ Set.Icc first high)
    (hstart : b.start = low) : b.level ≤ fit w low high := by
  apply Nat.le_findGreatest hlevel
  refine ⟨⟨b.index, ?_⟩, ?_⟩
  · rw [← hstart, Block.start, Nat.mul_comm]
  · have hpos : 0 < 2 ^ b.level := Nat.two_pow_pos b.level
    have hlast : b.start + 2 ^ b.level - 1 ∈ b.points := by
      rw [Block.mem_points]
      omega
    have hle := (hinside hlast).2
    omega

/-- The block the walk takes at a fresh number is a largest one. -/
theorem maximal_around_fit (hfresh : Fresh w first high low) (hfirst : first ≤ low)
    (hle : low ≤ high) : Maximal w (Set.Icc first high) (Block.around (fit w low high) low) := by
  refine ⟨Nat.findGreatest_le w, ?_, ?_⟩
  · intro x hx
    obtain ⟨hlow, hlt⟩ := (around_fit_mem w hle).mp hx
    have hfits := (fit_spec w hle).2
    exact ⟨by omega, by omega⟩
  · intro c hlevel hinside hsub
    exact level_le_fit hlevel hinside (hfresh c hlevel hinside (hsub (Block.mem_around _ low)))

/-- The number after the block is fresh again. -/
theorem fresh_next (hfresh : Fresh w first high low) (hle : low ≤ high) :
    Fresh w first high (low + 2 ^ fit w low high) := by
  intro b hlevel hinside hmem
  by_contra hne
  have hpos : 0 < 2 ^ fit w low high := Nat.two_pow_pos _
  obtain ⟨hstart, hend⟩ := Block.mem_points.mp hmem
  -- otherwise the block reaches back into the one before, and contains it
  have hlast : low + 2 ^ fit w low high - 1 ∈ b.points := by
    rw [Block.mem_points]
    omega
  have hlast' : low + 2 ^ fit w low high - 1 ∈ (Block.around (fit w low high) low).points := by
    rw [around_fit_mem w hle]
    omega
  have hlevel' : fit w low high < b.level := by
    by_contra hge
    have hback := Block.subset_of_mem hlast hlast' (by simpa [Block.around] using hge) hmem
    rw [around_fit_mem w hle] at hback
    omega
  have hlow : low ∈ b.points :=
    Block.subset_of_mem hlast' hlast hlevel'.le (Block.mem_around _ low)
  have hfit := level_le_fit hlevel hinside (hfresh b hlevel hinside hlow)
  omega

/-- The walk from a fresh number takes the largest blocks from there on, in ascending order. -/
theorem tile_spec (fuel : ℕ) (hfresh : Fresh w first high low) (hfirst : first ≤ low)
    (hle : low ≤ high) (hfuel : high < low + fuel) :
    (tile w fuel low high).Pairwise (fun b c => b.start < c.start) ∧
      ∀ b, b ∈ tile w fuel low high ↔ Maximal w (Set.Icc first high) b ∧ low ≤ b.start := by
  induction fuel generalizing low with
  | zero => omega
  | succ fuel ih =>
    have hpos : 0 < 2 ^ fit w low high := Nat.two_pow_pos _
    have hmax := maximal_around_fit hfresh hfirst hle
    have hstart : (Block.around (fit w low high) low).start = low :=
      Block.around_start (fit_spec w hle).1
    -- a largest block from here on is this one, or starts after it
    have hsplit : ∀ b, Maximal w (Set.Icc first high) b → low ≤ b.start →
        b = Block.around (fit w low high) low ∨ low + 2 ^ fit w low high ≤ b.start := by
      intro b hb hlow
      by_cases hafter : low + 2 ^ fit w low high ≤ b.start
      · exact .inr hafter
      · left
        apply hb.eq_of_mem hmax b.start_mem
        rw [around_fit_mem w hle]
        omega
    rw [tile]
    split
    · rename_i hnext
      obtain ⟨hsorted, hmem⟩ := ih (fresh_next hfresh hle) (by omega) hnext (by omega)
      refine ⟨List.pairwise_cons.mpr ⟨fun c hc => ?_, hsorted⟩, fun b => ?_⟩
      · have hc' := ((hmem c).mp hc).2
        omega
      · rw [List.mem_cons, hmem]
        constructor
        · rintro (rfl | ⟨hb, hlow⟩)
          · exact ⟨hmax, hstart.ge⟩
          · exact ⟨hb, by omega⟩
        · rintro ⟨hb, hlow⟩
          exact (hsplit b hb hlow).imp_right fun hafter => ⟨hb, hafter⟩
    · rename_i hlast
      refine ⟨List.pairwise_singleton _ _, fun b => ?_⟩
      rw [List.mem_singleton]
      constructor
      · rintro rfl
        exact ⟨hmax, hstart.ge⟩
      · rintro ⟨hb, hlow⟩
        apply (hsplit b hb hlow).resolve_right
        intro hafter
        have := (hb.inside b.start_mem).2
        omega

theorem tiling_Icc (w : ℕ) (h : low ≤ high) :
    Tiling w (Set.Icc low high) (tile w (high - low + 1) low high) := by
  obtain ⟨hsorted, hmem⟩ :=
    tile_spec (high - low + 1) (fresh_first w low high) le_rfl h (by omega)
  refine ⟨hsorted.imp fun hlt heq => ?_, fun b => (hmem b).trans (and_iff_left_of_imp ?_)⟩
  · rw [heq] at hlt
    exact lt_irrefl _ hlt
  · intro hb
    exact (hb.inside b.start_mem).1

end

/-! ## Separate intervals -/

/-- The numbers of some interval of the list. -/
def spanned (spans : List (ℕ × ℕ)) : Set ℕ := {x | ∃ r ∈ spans, x ∈ Set.Icc r.1 r.2}

theorem mem_spanned_cons {r : ℕ × ℕ} {spans : List (ℕ × ℕ)} {x : ℕ} :
    x ∈ spanned (r :: spans) ↔ x ∈ Set.Icc r.1 r.2 ∨ x ∈ spanned spans :=
  List.exists_mem_cons_iff _ _ _

theorem spanned_congr {spans spans' : List (ℕ × ℕ)} (h : ∀ r, r ∈ spans ↔ r ∈ spans') :
    spanned spans' = spanned spans := by
  ext x
  exact exists_congr fun r => and_congr_left fun _ => (h r).symm

/-- Ascending intervals with at least one number between any two. -/
structure Separated (spans : List (ℕ × ℕ)) : Prop where
  nonempty : ∀ r ∈ spans, r.1 ≤ r.2
  gaps : spans.Pairwise fun r s => r.2 + 1 < s.1

section
variable {spans : List (ℕ × ℕ)} {r s : ℕ × ℕ} {x : ℕ}

/-- An interval that has a number, or the one after it, is the only one that has either. -/
theorem Separated.eq_of_near (h : Separated spans) (hr : r ∈ spans) (hs : s ∈ spans)
    (hx : x ∈ Set.Icc r.1 r.2) (hx' : x ∈ Set.Icc s.1 s.2 ∨ x + 1 ∈ Set.Icc s.1 s.2) : r = s := by
  let R : ℕ × ℕ → ℕ × ℕ → Prop := fun r s => r.2 + 1 < s.1 ∨ s.2 + 1 < r.1
  have : Std.Symm R := ⟨fun _ _ hor => hor.symm⟩
  have hboth : spans.Pairwise R := h.gaps.imp fun hlt => .inl hlt
  by_contra hne
  have hgap : r.2 + 1 < s.1 ∨ s.2 + 1 < r.1 := hboth.forall hr hs hne
  have hlow := h.nonempty r hr
  simp only [Set.mem_Icc] at hx hx'
  omega

/-- An unbroken stretch of covered numbers lies in one of the intervals. -/
theorem Separated.subset_one (h : Separated spans) {low high : ℕ} (hle : low ≤ high)
    (hsub : Set.Icc low high ⊆ spanned spans) :
    ∃ r ∈ spans, Set.Icc low high ⊆ Set.Icc r.1 r.2 := by
  obtain ⟨r, hr, hlow⟩ := hsub ⟨le_rfl, hle⟩
  refine ⟨r, hr, ?_⟩
  rintro x ⟨hx, hx'⟩
  induction x, hx using Nat.le_induction with
  | base => exact hlow
  | succ x hx ih =>
    have hmem := ih (by omega)
    obtain ⟨s, hs, hnext⟩ := hsub ⟨by omega, hx'⟩
    rw [h.eq_of_near hr hs hmem (.inr hnext)]
    exact hnext

theorem Block.points_eq_Icc (b : Block) :
    b.points = Set.Icc b.start (b.start + 2 ^ b.level - 1) := by
  have hpos : 0 < 2 ^ b.level := Nat.two_pow_pos b.level
  ext x
  rw [Block.mem_points, Set.mem_Icc]
  omega

/-- The largest blocks of separate intervals are those of each interval. -/
theorem Separated.maximal_iff (h : Separated spans) (w : ℕ) (b : Block) :
    Maximal w (spanned spans) b ↔ ∃ r ∈ spans, Maximal w (Set.Icc r.1 r.2) b := by
  have hone : ∀ c : Block, c.points ⊆ spanned spans →
      ∃ r ∈ spans, c.points ⊆ Set.Icc r.1 r.2 := by
    intro c hc
    have hpos : 0 < 2 ^ c.level := Nat.two_pow_pos c.level
    rw [c.points_eq_Icc] at hc ⊢
    exact h.subset_one (by omega) hc
  constructor
  · intro hb
    obtain ⟨r, hr, hsub⟩ := hone b hb.inside
    refine ⟨r, hr, hb.level, hsub, fun c hlevel hinside => hb.largest c hlevel ?_⟩
    exact fun x hx => ⟨r, hr, hinside hx⟩
  · rintro ⟨r, hr, hb⟩
    refine ⟨hb.level, fun x hx => ⟨r, hr, hb.inside hx⟩, fun c hlevel hinside hsub => ?_⟩
    obtain ⟨s, hs, hc⟩ := hone c hinside
    have hrs : r = s := h.eq_of_near hr hs (hb.inside b.start_mem) (.inl (hc (hsub b.start_mem)))
    exact hb.largest c hlevel (hrs ▸ hc) hsub

theorem Separated.tiling (h : Separated spans) (w : ℕ) :
    Tiling w (spanned spans) (spans.flatMap fun r => tile w (r.2 - r.1 + 1) r.1 r.2) := by
  constructor
  · rw [List.nodup_flatMap]
    refine ⟨fun r hr => (tiling_Icc w (h.nonempty r hr)).nodup, ?_⟩
    apply h.gaps.imp_of_mem
    intro r s hr hs hlt b hb hb'
    have hbr := (((tiling_Icc w (h.nonempty r hr)).mem b).mp hb).inside b.start_mem
    have hbs := (((tiling_Icc w (h.nonempty s hs)).mem b).mp hb').inside b.start_mem
    have := hbr.2
    have := hbs.1
    omega
  · intro b
    rw [h.maximal_iff, List.mem_flatMap]
    exact exists_congr fun r => and_congr_right fun hr => (tiling_Icc w (h.nonempty r hr)).mem b

end

end SakhtarWg.Blocks
