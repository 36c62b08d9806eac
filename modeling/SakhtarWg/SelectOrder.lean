import SakhtarWg.InPlace
import SakhtarWg.ProxySelect

/-!
# The order of the candidates

`Select` with its loops as they run: the lists are rotated in place by reversals and the families
are merged by taking from both fronts. It returns the candidates that the declarative order
below names, and the cursor for the next call.
-/

namespace SakhtarWg.Proxy
open Netip

/-! ## The loops -/

def rotateInPlace (addrs : List Addr) (sequence : UInt64) : List Addr :=
  if addrs.length < 2 then addrs
  else InPlace.rotateBy addrs (sequence.toNat % addrs.length)

/-- The merging loop under interleave: each round takes what it can from both fronts. -/
def interleaveLoop (ordered : List Addr) : List Addr → List Addr → List Addr
  | [], [] => ordered
  | a :: first, [] => interleaveLoop (ordered ++ [a]) first []
  | [], b :: second => interleaveLoop (ordered ++ [b]) [] second
  | a :: first, b :: second => interleaveLoop (ordered ++ [a] ++ [b]) first second
termination_by first second => first.length + second.length

/-- `Select`, with the cursor before and after the call. -/
def RotatingSelector.selectNext (s : RotatingSelector) (cursor : UInt64) (input : List Addr)
    (allowed : Addr → Bool) : List Addr × UInt64 :=
  if s.maxAttempts ≤ 0 then ([], cursor)
  else
    let picked := pick allowed input
    let sequence := cursor
    let v4 := rotateInPlace picked.v4 sequence
    let v6 := rotateInPlace picked.v6 sequence
    let ordered := match s.strategy with
      | .ipv6First => v6 ++ v4
      | .interleave =>
        if sequence % 2 = 1 then interleaveLoop [] v4 v6 else interleaveLoop [] v6 v4
      | .ipv4First => v4 ++ v6
    (if (ordered.length : ℤ) > s.maxAttempts then ordered.take s.maxAttempts.toNat else ordered,
      cursor + 1)

theorem rotate_eq (addrs : List Addr) (sequence : UInt64) :
    rotate addrs sequence = addrs.rotate (sequence.toNat % addrs.length) := by
  unfold rotate
  split
  case isTrue hshort =>
    have hmod : sequence.toNat % addrs.length = 0 ∨ addrs = [] := by
      rcases addrs with - | ⟨a, - | ⟨b, rest⟩⟩
      · exact .inr rfl
      · exact .inl (Nat.mod_one _)
      · simp only [List.length_cons] at hshort
        omega
    rcases hmod with hmod | rfl
    · rw [hmod, List.rotate_zero]
    · rfl
  case isFalse hlong =>
    rw [List.rotate_eq_drop_append_take (Nat.mod_lt _ (by omega)).le]
    simp

theorem rotateInPlace_eq (addrs : List Addr) (sequence : UInt64) :
    rotateInPlace addrs sequence = rotate addrs sequence := by
  by_cases hshort : addrs.length < 2
  · rw [rotateInPlace, rotate, if_pos hshort, if_pos hshort]
  · rw [rotate_eq, rotateInPlace, if_neg hshort]
    exact InPlace.rotateBy_eq_rotate _ (Nat.mod_lt _ (by omega))

theorem interleaveLoop_eq (ordered first second : List Addr) :
    interleaveLoop ordered first second = ordered ++ alternate first second := by
  fun_induction interleaveLoop ordered first second with
  | case1 ordered => simp [alternate]
  | case2 ordered a first ih =>
    rw [ih]
    cases first <;> simp [alternate]
  | case3 ordered b second ih => simp [ih, alternate]
  | case4 ordered a first b second ih =>
    rw [ih]
    simp [alternate]

/-- The loops select what the plain definition says, for a positive cap and for none. -/
theorem selectNext_fst (s : RotatingSelector) (cursor : UInt64) (input : List Addr)
    (allowed : Addr → Bool) :
    (s.selectNext cursor input allowed).1 = s.select cursor input allowed := by
  unfold RotatingSelector.selectNext RotatingSelector.select
  split
  case isTrue hcap => rw [Int.toNat_of_nonpos hcap, List.take_zero]
  case isFalse hcap =>
    have hcut : ∀ l : List Addr,
        (if (l.length : ℤ) > s.maxAttempts then l.take s.maxAttempts.toNat else l) =
          l.take s.maxAttempts.toNat := by
      intro l
      split
      · rfl
      · rw [List.take_of_length_le (by omega)]
    simp only [rotateInPlace_eq, interleaveLoop_eq, List.nil_append]
    exact hcut _

theorem selectNext_snd (s : RotatingSelector) (cursor : UInt64) (input : List Addr)
    (allowed : Addr → Bool) (hcap : 1 ≤ s.maxAttempts) :
    (s.selectNext cursor input allowed).2 = cursor + 1 := by
  rw [RotatingSelector.selectNext, if_neg (by omega)]

/-! ## The declarative order -/

/-- The distinct addresses that may be dialed, each at its first occurrence. -/
def candidates (allowed : Addr → Bool) (input : List Addr) : List Addr :=
  (((input.filter fun a => a.isValid && a.zone = "").map Addr.unmap).filter allowed).eraseDups

def candidates4 (allowed : Addr → Bool) (input : List Addr) : List Addr :=
  (candidates allowed input).filter Addr.is4

def candidates6 (allowed : Addr → Bool) (input : List Addr) : List Addr :=
  (candidates allowed input).filter fun a => !a.is4

/-- Strict alternation of two lists, with what is left of the longer one appended. -/
def alternation (first second : List Addr) : List Addr :=
  (first.zip second).flatMap (fun p => [p.1, p.2]) ++
    first.drop second.length ++ second.drop first.length

/-- How the two families are merged; under interleave the parity says which one leads. -/
def AddressFamilyStrategy.merge (strategy : AddressFamilyStrategy) (sequence : ℕ)
    (v4 v6 : List Addr) : List Addr :=
  match strategy with
  | .ipv4First => v4 ++ v6
  | .ipv6First => v6 ++ v4
  | .interleave => if sequence % 2 = 1 then alternation v4 v6 else alternation v6 v4

theorem alternate_eq_alternation (first second : List Addr) :
    alternate first second = alternation first second := by
  induction first, second using alternate.induct with
  | case1 second => simp [alternate, alternation]
  | case2 a first => simp [alternate, alternation]
  | case3 a first b second ih => simpa [alternate, alternation] using ih

/-- What one more input adds to the distinct candidates. -/
theorem candidates_concat (allowed : Addr → Bool) (input : List Addr) (addr : Addr) :
    candidates allowed (input ++ [addr]) =
      if addr.isValid = true ∧ addr.zone = "" ∧ allowed addr.unmap = true ∧
        addr.unmap ∉ candidates allowed input
      then candidates allowed input ++ [addr.unmap] else candidates allowed input := by
  unfold candidates
  rw [List.filter_append, List.map_append, List.filter_append, List.eraseDups_append]
  by_cases hvalid : addr.isValid = true ∧ addr.zone = ""
  · by_cases hall : allowed addr.unmap = true
    · by_cases hin : addr.unmap ∈
          ((input.filter fun a => a.isValid && a.zone = "").map Addr.unmap).filter allowed
      · simp [hvalid, hall, hin, List.removeAll]
      · simp [hvalid, hall, hin, List.removeAll, List.eraseDups_cons]
    · simp [hvalid, hall]
  · have hfilter : [addr].filter (fun a => a.isValid && a.zone = "") = [] := by
      simpa using hvalid
    rw [hfilter, if_neg (by tauto)]
    simp

/-- The filtering loop collects the distinct candidates, apart by family. -/
theorem pick_eq (allowed : Addr → Bool) (input : List Addr) :
    pick allowed input =
      ⟨candidates allowed input, candidates4 allowed input, candidates6 allowed input⟩ := by
  induction input using List.reverseRecOn with
  | nil => rfl
  | append_singleton input addr ih =>
    have hstep : pick allowed (input ++ [addr]) = (pick allowed input).add allowed addr := by
      simp [pick]
    rw [hstep, ih]
    simp only [candidates4, candidates6, candidates_concat]
    unfold Picked.add
    by_cases hbad : addr.isValid = false ∨ addr.zone ≠ ""
    · have hskip : ¬(addr.isValid = true ∧ addr.zone = "") := by
        rintro ⟨hvalid, hzone⟩
        simp [hvalid, hzone] at hbad
      rw [if_pos hbad, if_neg (by tauto)]
    · rw [if_neg hbad]
      simp only [not_or, Bool.not_eq_false, not_not] at hbad
      by_cases hall : allowed addr.unmap = true
      · by_cases hseen : addr.unmap ∈ candidates allowed input
        · simp [hall, hseen]
        · cases h4 : addr.unmap.is4 <;> simp [hbad, hall, hseen, h4]
      · simp [hall]

theorem candidates_perm (allowed : Addr → Bool) (input : List Addr) :
    (candidates allowed input).Perm (candidates4 allowed input ++ candidates6 allowed input) := by
  have h := (pick_from allowed input).perm
  rwa [pick_eq] at h

theorem select_eq_merge (s : RotatingSelector) (cursor : UInt64) (input : List Addr)
    (allowed : Addr → Bool) :
    s.select cursor input allowed =
      (s.strategy.merge cursor.toNat
        ((candidates4 allowed input).rotate (cursor.toNat % (candidates4 allowed input).length))
        ((candidates6 allowed input).rotate
          (cursor.toNat % (candidates6 allowed input).length))).take s.maxAttempts.toNat := by
  have hparity : cursor % 2 = 1 ↔ cursor.toNat % 2 = 1 := by
    rw [← UInt64.toNat_inj]
    rfl
  unfold RotatingSelector.select
  simp only [pick_eq, rotate_eq, alternate_eq_alternation, hparity]
  cases s.strategy <;> rfl

theorem merge_perm (strategy : AddressFamilyStrategy) (sequence : ℕ) (v4 v6 : List Addr) :
    (strategy.merge sequence v4 v6).Perm (v4 ++ v6) := by
  unfold AddressFamilyStrategy.merge
  simp only [← alternate_eq_alternation]
  split
  · exact List.Perm.refl _
  · exact List.perm_append_comm
  · split
    · exact alternate_perm _ _
    · exact (alternate_perm _ _).trans List.perm_append_comm

theorem select_length (s : RotatingSelector) (cursor : UInt64) (input : List Addr)
    (allowed : Addr → Bool) :
    (s.select cursor input allowed).length ≤ s.maxAttempts.toNat := by
  rw [select_eq_merge, List.length_take]
  exact min_le_left _ _

theorem mem_candidates {allowed : Addr → Bool} {input : List Addr} {a : Addr} :
    a ∈ candidates allowed input ↔
      ∃ b ∈ input, b.isValid = true ∧ b.zone = "" ∧ a = b.unmap ∧ allowed a = true := by
  simp only [candidates, List.mem_eraseDups, List.mem_filter, List.mem_map, Bool.and_eq_true,
    decide_eq_true_eq]
  constructor
  · rintro ⟨⟨b, ⟨hb, hvalid, hzone⟩, rfl⟩, hall⟩
    exact ⟨b, hb, hvalid, hzone, rfl, hall⟩
  · rintro ⟨b, hb, hvalid, hzone, rfl, hall⟩
    exact ⟨⟨b, ⟨hb, hvalid, hzone⟩, rfl⟩, hall⟩

/-- Nothing is selected only when nothing may be dialed. -/
theorem select_eq_nil_iff (s : RotatingSelector) (cursor : UInt64) (input : List Addr)
    (allowed : Addr → Bool) (hcap : 1 ≤ s.maxAttempts) :
    s.select cursor input allowed = [] ↔
      ∀ b ∈ input, b.isValid = true → b.zone = "" → allowed b.unmap = false := by
  have hperm := (merge_perm s.strategy cursor.toNat
    ((candidates4 allowed input).rotate (cursor.toNat % (candidates4 allowed input).length))
    ((candidates6 allowed input).rotate (cursor.toNat % (candidates6 allowed input).length))).trans
      (((List.rotate_perm _ _).append (List.rotate_perm _ _)).trans
        (candidates_perm allowed input).symm)
  have hcap' : s.maxAttempts.toNat ≠ 0 := by omega
  rw [select_eq_merge, List.take_eq_nil_iff, or_iff_right hcap']
  constructor
  · intro hnil b hb hvalid hzone
    rw [hnil] at hperm
    by_contra hall
    have hmem := mem_candidates.mpr ⟨b, hb, hvalid, hzone, rfl, by simpa using hall⟩
    rw [hperm.nil_eq.symm] at hmem
    cases hmem
  · intro hnone
    have hnil : candidates allowed input = [] := by
      rw [List.eq_nil_iff_forall_not_mem]
      intro a ha
      obtain ⟨b, hb, hvalid, hzone, rfl, hall⟩ := mem_candidates.mp ha
      rw [hnone b hb hvalid hzone] at hall
      cases hall
    rw [hnil] at hperm
    exact hperm.eq_nil

/-- `Select` returns the first `MaxAttempts` elements of the strategy's merge of the two rotated
families; when the cap leaves room for both, nothing is lost and nothing added. -/
theorem selectNext_eq_merge (s : RotatingSelector) (cursor : UInt64) (input : List Addr)
    (allowed : Addr → Bool) (hcap : 1 ≤ s.maxAttempts) :
    let v4 := candidates4 allowed input
    let v6 := candidates6 allowed input
    let selected := s.selectNext cursor input allowed
    selected.1 = (s.strategy.merge cursor.toNat (v4.rotate (cursor.toNat % v4.length))
      (v6.rotate (cursor.toNat % v6.length))).take s.maxAttempts.toNat ∧
    selected.2 = cursor + 1 ∧
    ((v4.length + v6.length : ℕ) ≤ s.maxAttempts → selected.1.Perm (v4 ++ v6)) := by
  intro v4 v6 selected
  have hselected : selected.1 = s.select cursor input allowed :=
    selectNext_fst s cursor input allowed
  have hmerge := select_eq_merge s cursor input allowed
  refine ⟨hselected.trans hmerge, selectNext_snd s cursor input allowed hcap, fun hroom => ?_⟩
  · have hperm := (merge_perm s.strategy cursor.toNat (v4.rotate (cursor.toNat % v4.length))
      (v6.rotate (cursor.toNat % v6.length))).trans
        ((List.rotate_perm _ _).append (List.rotate_perm _ _))
    rw [hselected, hmerge, List.take_of_length_le]
    · exact hperm
    · rw [hperm.length_eq, List.length_append]
      omega

/-- Three distinct candidates of five inputs, IPv4 leading and both families rotated by one. -/
theorem selectNext_mixed :
    ((⟨.interleave, 3⟩ : RotatingSelector).selectNext 1 ([.v4 1, .v6 0xffff00000001 "", .v6 7 "",
      .v4 2, .v6 8 "eth0"]) fun _ => true).1 = [.v4 2, .v6 7 "", .v4 1] :=
  (selectNext_eq_merge ⟨.interleave, 3⟩ 1 _ _ (by decide)).1.trans (by decide +kernel)

/-! ## Which candidate leads -/

/-- Consecutive calls on one input. -/
def RotatingSelector.selections (s : RotatingSelector) (input : List Addr)
    (allowed : Addr → Bool) : ℕ → UInt64 → List (List Addr)
  | 0, _ => []
  | n + 1, cursor =>
    let selected := s.selectNext cursor input allowed
    selected.1 :: s.selections input allowed n selected.2

def firstNonempty (preferred other : List Addr) : List Addr :=
  if preferred = [] then other else preferred

/-- The addresses of the families that may lead. -/
def AddressFamilyStrategy.leaders (strategy : AddressFamilyStrategy) (v4 v6 : List Addr) :
    List Addr :=
  match strategy with
  | .ipv4First => firstNonempty v4 v6
  | .ipv6First => firstNonempty v6 v4
  | .interleave => v4 ++ v6

/-- The family that leads a call. -/
def AddressFamilyStrategy.leading (strategy : AddressFamilyStrategy) (sequence : ℕ)
    (v4 v6 : List Addr) : List Addr :=
  match strategy with
  | .ipv4First => firstNonempty v4 v6
  | .ipv6First => firstNonempty v6 v4
  | .interleave => if sequence % 2 = 1 then firstNonempty v4 v6 else firstNonempty v6 v4

theorem head?_append_firstNonempty (first second : List Addr) :
    (first ++ second).head? = (firstNonempty first second).head? := by
  cases first <;> simp [firstNonempty]

theorem head?_alternation (first second : List Addr) :
    (alternation first second).head? = (firstNonempty first second).head? := by
  rw [← alternate_eq_alternation]
  cases first <;> cases second <;> simp [firstNonempty, alternate]

theorem head?_rotate_mod (l : List Addr) (n : ℕ) : (l.rotate n).head? = l[n % l.length]? := by
  by_cases hl : l = []
  · simp [hl]
  · rw [← List.rotate_mod]
    exact List.head?_rotate (Nat.mod_lt _ (List.length_pos_iff.mpr hl))

/-- The first candidate is the leading family's, at the cursor taken modulo its size. -/
theorem head?_select (s : RotatingSelector) (cursor : UInt64) (input : List Addr)
    (allowed : Addr → Bool) (hcap : 1 ≤ s.maxAttempts) :
    let family := s.strategy.leading cursor.toNat (candidates4 allowed input)
      (candidates6 allowed input)
    (s.select cursor input allowed).head? = family[cursor.toNat % family.length]? := by
  have hrotated : ∀ v w : List Addr,
      (firstNonempty (v.rotate (cursor.toNat % v.length))
        (w.rotate (cursor.toNat % w.length))).head? =
      (firstNonempty v w)[cursor.toNat % (firstNonempty v w).length]? := by
    intro v w
    by_cases hv : v = []
    · simp [firstNonempty, hv, head?_rotate_mod]
    · simp [firstNonempty, hv, head?_rotate_mod]
  intro family
  rw [select_eq_merge, List.head?_take, if_neg (by omega)]
  unfold AddressFamilyStrategy.merge
  show _ = (s.strategy.leading _ _ _)[cursor.toNat % (s.strategy.leading _ _ _).length]?
  unfold AddressFamilyStrategy.leading
  cases s.strategy with
  | ipv4First => simp only [head?_append_firstNonempty, hrotated]
  | ipv6First => simp only [head?_append_firstNonempty, hrotated]
  | interleave =>
    by_cases hodd : cursor.toNat % 2 = 1
    · simp only [hodd, if_true, head?_alternation, hrotated]
    · simp only [hodd, if_false, head?_alternation, hrotated]

/-- `a` leads the call that draws `sequence`. -/
def RotatingSelector.Leads (s : RotatingSelector) (allowed : Addr → Bool) (input : List Addr)
    (sequence : ℕ) (a : Addr) : Prop :=
  let family := s.strategy.leading sequence (candidates4 allowed input) (candidates6 allowed input)
  family[sequence % family.length]? = some a

/-- A run of calls places first what leads at the numbers it draws, as long as they do not
wrap. -/
theorem head?_selections (s : RotatingSelector) (input : List Addr) (allowed : Addr → Bool)
    (hcap : 1 ≤ s.maxAttempts) (n : ℕ) (cursor : UInt64) (hwrap : cursor.toNat + n ≤ UInt64.size)
    (a : Addr) :
    (∃ selected ∈ s.selections input allowed n cursor, selected.head? = some a) ↔
      ∃ sequence, cursor.toNat ≤ sequence ∧ sequence < cursor.toNat + n ∧
        s.Leads allowed input sequence a := by
  induction n generalizing cursor with
  | zero =>
    simp only [RotatingSelector.selections, List.not_mem_nil, false_and, exists_false, false_iff]
    rintro ⟨sequence, hfrom, hto, -⟩
    omega
  | succ n ih =>
    have hhead : ((s.selectNext cursor input allowed).1.head? = some a) ↔
        s.Leads allowed input cursor.toNat a := by
      rw [selectNext_fst, head?_select s cursor input allowed hcap]
      rfl
    simp only [RotatingSelector.selections, List.mem_cons, exists_eq_or_imp, hhead,
      selectNext_snd s cursor input allowed hcap]
    cases n with
    | zero =>
      simp only [RotatingSelector.selections, List.not_mem_nil, false_and, exists_false, or_false]
      refine ⟨fun h => ⟨_, le_rfl, by omega, h⟩, ?_⟩
      rintro ⟨sequence, hfrom, hto, h⟩
      have heq : sequence = cursor.toNat := by omega
      rwa [heq] at h
    | succ n =>
      have hsucc : (cursor + 1).toNat = cursor.toNat + 1 := by
        rw [UInt64.toNat_add]
        exact Nat.mod_eq_of_lt (by change _ < UInt64.size; simp; omega)
      rw [ih (cursor + 1) (by omega), hsucc]
      constructor
      · rintro (h | ⟨sequence, hfrom, hto, h⟩)
        · exact ⟨_, le_rfl, by omega, h⟩
        · exact ⟨sequence, by omega, by omega, h⟩
      · rintro ⟨sequence, hfrom, hto, h⟩
        rcases Nat.eq_or_lt_of_le hfrom with heq | hlt
        · exact .inl (heq ▸ h)
        · exact .inr ⟨sequence, by omega, by omega, h⟩

/-! Which residues a window of consecutive numbers meets. -/

theorem exists_mod_eq (start : ℕ) {n r : ℕ} (hr : r < n) :
    ∃ k, start ≤ k ∧ k < start + n ∧ k % n = r := by
  have hdiv := Nat.div_add_mod start n
  have hmod := Nat.mod_lt start (by omega : n > 0)
  by_cases hle : start % n ≤ r
  · refine ⟨n * (start / n) + r, by omega, by omega, ?_⟩
    rw [Nat.mul_add_mod, Nat.mod_eq_of_lt hr]
  · refine ⟨n * (start / n) + n + r, by omega, by omega, ?_⟩
    rw [Nat.add_assoc, Nat.mul_add_mod, Nat.add_mod_left, Nat.mod_eq_of_lt hr]

/-- With an odd modulus every residue is met at both parities. -/
theorem exists_mod_eq_parity (start : ℕ) {n r p : ℕ} (hr : r < n) (hodd : n % 2 = 1)
    (hp : p < 2) : ∃ k, start ≤ k ∧ k < start + 2 * n ∧ k % n = r ∧ k % 2 = p := by
  obtain ⟨k, hfrom, hto, hk⟩ := exists_mod_eq start hr
  by_cases hpar : k % 2 = p
  · exact ⟨k, hfrom, by omega, hk, hpar⟩
  · exact ⟨k + n, by omega, by omega, by rw [Nat.add_mod_right, hk], by omega⟩

theorem mod_parity {k n : ℕ} (heven : n % 2 = 0) : k % n % 2 = k % 2 :=
  Nat.mod_mod_of_dvd k (Nat.dvd_of_mod_eq_zero heven)

section
variable (s : RotatingSelector) (input : List Addr) (allowed : Addr → Bool)

theorem candidates4_nodup : (candidates4 allowed input).Nodup := by
  have h := (pick_from allowed input).nodup
  rw [pick_eq] at h
  exact h.filter _

theorem candidates6_nodup : (candidates6 allowed input).Nodup := by
  have h := (pick_from allowed input).nodup
  rw [pick_eq] at h
  exact h.filter _

theorem is4_of_mem_candidates4 {a : Addr} (h : a ∈ candidates4 allowed input) : a.is4 = true :=
  (List.mem_filter.mp h).2

theorem is4_of_mem_candidates6 {a : Addr} (h : a ∈ candidates6 allowed input) : a.is4 = false := by
  simpa using (List.mem_filter.mp h).2

/-- A family that leads every call has each of its members lead within its own size. -/
theorem leads_of_constant {family : List Addr}
    (hfamily : ∀ k, s.strategy.leading k (candidates4 allowed input) (candidates6 allowed input) =
      family) (start : ℕ) {a : Addr} (ha : a ∈ family) :
    ∃ k, start ≤ k ∧ k < start + family.length ∧ s.Leads allowed input k a := by
  obtain ⟨r, hr, rfl⟩ := List.mem_iff_getElem.mp ha
  obtain ⟨k, hfrom, hto, hk⟩ := exists_mod_eq start hr
  refine ⟨k, hfrom, hto, ?_⟩
  rw [RotatingSelector.Leads, hfamily, hk, List.getElem?_eq_getElem hr]

/-- A family of odd size that leads at one parity has each of its members lead within twice its
size. -/
theorem leads_of_parity {family : List Addr} {p : ℕ} (hp : p < 2)
    (hfamily : ∀ k, k % 2 = p → s.strategy.leading k (candidates4 allowed input)
      (candidates6 allowed input) = family) (hodd : family.length % 2 = 1) (start : ℕ)
    {a : Addr} (ha : a ∈ family) :
    ∃ k, start ≤ k ∧ k < start + 2 * family.length ∧ s.Leads allowed input k a := by
  obtain ⟨r, hr, rfl⟩ := List.mem_iff_getElem.mp ha
  obtain ⟨k, hfrom, hto, hk, hpar⟩ := exists_mod_eq_parity start hr hodd hp
  refine ⟨k, hfrom, hto, ?_⟩
  rw [RotatingSelector.Leads, hfamily k hpar, hk, List.getElem?_eq_getElem hr]

variable {s input allowed}

theorem leads_interleave4 (hs : s.strategy = .interleave) (h4 : candidates4 allowed input ≠ [])
    (h6 : candidates6 allowed input ≠ []) {k : ℕ} {a : Addr}
    (ha : a ∈ candidates4 allowed input) (hlead : s.Leads allowed input k a) :
    k % 2 = 1 ∧ (candidates4 allowed input)[k % (candidates4 allowed input).length]? = some a := by
  rw [RotatingSelector.Leads, hs] at hlead
  simp only [AddressFamilyStrategy.leading, firstNonempty, if_neg h4, if_neg h6] at hlead
  by_cases hodd : k % 2 = 1
  · rw [if_pos hodd] at hlead
    exact ⟨hodd, hlead⟩
  · rw [if_neg hodd] at hlead
    have h1 := is4_of_mem_candidates4 input allowed ha
    rw [is4_of_mem_candidates6 input allowed (List.mem_of_getElem? hlead)] at h1
    cases h1

theorem leads_interleave6 (hs : s.strategy = .interleave) (h4 : candidates4 allowed input ≠ [])
    (h6 : candidates6 allowed input ≠ []) {k : ℕ} {a : Addr}
    (ha : a ∈ candidates6 allowed input) (hlead : s.Leads allowed input k a) :
    k % 2 = 0 ∧ (candidates6 allowed input)[k % (candidates6 allowed input).length]? = some a := by
  rw [RotatingSelector.Leads, hs] at hlead
  simp only [AddressFamilyStrategy.leading, firstNonempty, if_neg h4, if_neg h6] at hlead
  by_cases hodd : k % 2 = 1
  · rw [if_pos hodd] at hlead
    have h1 := is4_of_mem_candidates6 input allowed ha
    rw [is4_of_mem_candidates4 input allowed (List.mem_of_getElem? hlead)] at h1
    cases h1
  · rw [if_neg hodd] at hlead
    exact ⟨by omega, hlead⟩

/-- In a list without repetitions of even length, the element at `r` is met only at numbers of
the parity of `r`. -/
theorem parity_of_getElem? {l : List Addr} (hl : l.Nodup) (heven : l.length % 2 = 0) {k r : ℕ}
    (hr : r < l.length) (hk : l[k % l.length]? = some l[r]) : k % 2 = r % 2 := by
  have hmod := Nat.mod_lt k (by omega : l.length > 0)
  rw [List.getElem?_eq_getElem hmod, Option.some.injEq] at hk
  have hindex : k % l.length = r := (hl.getElem_inj_iff).mp hk
  rw [← hindex, mod_parity heven]

/-- Under interleave the cursor's parity picks the family, so an even family keeps half of its
addresses from ever leading. -/
theorem odd_of_interleave_covers (hs : s.strategy = .interleave)
    (h4 : candidates4 allowed input ≠ []) (h6 : candidates6 allowed input ≠ [])
    (hcovers : ∀ a ∈ candidates4 allowed input ++ candidates6 allowed input,
      ∃ k, s.Leads allowed input k a) :
    (candidates4 allowed input).length % 2 = 1 ∧ (candidates6 allowed input).length % 2 = 1 := by
  constructor
  · by_contra heven
    have hpos := List.length_pos_iff.mpr h4
    have ha := List.getElem_mem hpos
    obtain ⟨k, hlead⟩ := hcovers _ (List.mem_append_left _ ha)
    obtain ⟨hodd, hk⟩ := leads_interleave4 hs h4 h6 ha hlead
    have := parity_of_getElem? (candidates4_nodup input allowed) (by omega) hpos hk
    omega
  · by_contra heven
    have hpos := List.length_pos_iff.mpr h6
    have hone : 1 < (candidates6 allowed input).length := by omega
    have ha := List.getElem_mem hone
    obtain ⟨k, hlead⟩ := hcovers _ (List.mem_append_right _ ha)
    obtain ⟨hpar, hk⟩ := leads_interleave6 hs h4 h6 ha hlead
    have := parity_of_getElem? (candidates6_nodup input allowed) (by omega) hone hk
    omega

end

/-- The number of calls after which every eligible address should have led. -/
def rotationWindow (v4 v6 : List Addr) : ℕ := 2 * max 1 v4.length * max 1 v6.length

theorem le_rotationWindow4 (v4 v6 : List Addr) : 2 * v4.length ≤ rotationWindow v4 v6 :=
  calc 2 * v4.length ≤ 2 * max 1 v4.length * 1 := by omega
    _ ≤ rotationWindow v4 v6 := Nat.mul_le_mul_left _ (le_max_left _ _)

theorem le_rotationWindow6 (v4 v6 : List Addr) : 2 * v6.length ≤ rotationWindow v4 v6 := by
  have h := Nat.mul_le_mul (le_max_left 1 v4.length) (le_max_right 1 v6.length)
  calc 2 * v6.length = 2 * (1 * v6.length) := by omega
    _ ≤ 2 * (max 1 v4.length * max 1 v6.length) := Nat.mul_le_mul_left _ h
    _ = rotationWindow v4 v6 := by rw [rotationWindow, Nat.mul_assoc]

/-- A window of calls lets every eligible address lead exactly when interleave does not meet a
family of even size beside a non-empty one. -/
theorem rotation_reaches_all_iff (s : RotatingSelector) (cursor : UInt64) (input : List Addr)
    (allowed : Addr → Bool) (hcap : 1 ≤ s.maxAttempts)
    (hwrap : cursor.toNat +
      rotationWindow (candidates4 allowed input) (candidates6 allowed input) ≤ UInt64.size) :
    let v4 := candidates4 allowed input
    let v6 := candidates6 allowed input
    (∀ a ∈ s.strategy.leaders v4 v6,
      ∃ selected ∈ s.selections input allowed (rotationWindow v4 v6) cursor,
        selected.head? = some a) ↔
      (s.strategy = .interleave → v4 ≠ [] → v6 ≠ [] →
        v4.length % 2 = 1 ∧ v6.length % 2 = 1) := by
  intro v4 v6
  have hheads := head?_selections s input allowed hcap (rotationWindow v4 v6) cursor hwrap
  simp only [hheads]
  have h4 := le_rotationWindow4 v4 v6
  have h6 := le_rotationWindow6 v4 v6
  constructor
  · intro hcovers hs hv4 hv6
    refine odd_of_interleave_covers hs hv4 hv6 fun a ha => ?_
    obtain ⟨k, -, -, hlead⟩ := hcovers a (by rw [hs]; exact ha)
    exact ⟨k, hlead⟩
  · intro hcond a ha
    have hwiden : ∀ {n}, n ≤ rotationWindow v4 v6 →
        (∃ k, cursor.toNat ≤ k ∧ k < cursor.toNat + n ∧ s.Leads allowed input k a) →
        ∃ k, cursor.toNat ≤ k ∧ k < cursor.toNat + rotationWindow v4 v6 ∧
          s.Leads allowed input k a := by
      rintro n hn ⟨k, hfrom, hto, hlead⟩
      exact ⟨k, hfrom, by omega, hlead⟩
    have hfirst : ∀ v w : List Addr, (firstNonempty v w).length ≤ max v.length w.length := by
      intro v w
      unfold firstNonempty
      split <;> simp
    cases hs : s.strategy with
    | ipv4First =>
      have hlen := hfirst v4 v6
      rw [hs, AddressFamilyStrategy.leaders] at ha
      exact hwiden (by omega) (leads_of_constant s input allowed
        (fun k => by rw [hs]; rfl) cursor.toNat ha)
    | ipv6First =>
      have hlen := hfirst v6 v4
      rw [hs, AddressFamilyStrategy.leaders] at ha
      exact hwiden (by omega) (leads_of_constant s input allowed
        (fun k => by rw [hs]; rfl) cursor.toNat ha)
    | interleave =>
      rw [hs] at ha
      by_cases hv4 : v4 = []
      · -- only the other family is there, and it leads at both parities
        have hmem : a ∈ v6 := by simpa [AddressFamilyStrategy.leaders, hv4] using ha
        refine hwiden (by omega) (leads_of_constant s input allowed (fun k => ?_) cursor.toNat hmem)
        simp only [hs, AddressFamilyStrategy.leading, firstNonempty]
        split_ifs <;> simp_all [v4, v6]
      · by_cases hv6 : v6 = []
        · have hmem : a ∈ v4 := by simpa [AddressFamilyStrategy.leaders, hv6] using ha
          refine hwiden (by omega)
            (leads_of_constant s input allowed (fun k => ?_) cursor.toNat hmem)
          simp only [hs, AddressFamilyStrategy.leading, firstNonempty]
          split_ifs <;> simp_all [v4, v6]
        · obtain ⟨hodd4, hodd6⟩ := hcond hs hv4 hv6
          rcases List.mem_append.mp ha with hmem | hmem
          · refine hwiden h4 (leads_of_parity s input allowed (by decide : 1 < 2)
              (fun k hk => ?_) hodd4 cursor.toNat hmem)
            rw [hs, AddressFamilyStrategy.leading, if_pos hk, firstNonempty, if_neg hv4]
          · refine hwiden h6 (leads_of_parity s input allowed (by decide : 0 < 2)
              (fun k hk => ?_) hodd6 cursor.toNat hmem)
            rw [hs, AddressFamilyStrategy.leading, if_neg (by omega), firstNonempty, if_neg hv6]

/-- One address of each family: each leads within two calls. -/
theorem rotation_reaches_pair :
    (∃ selected ∈ (⟨.interleave, 1⟩ : RotatingSelector).selections [.v4 1, .v6 7 ""]
      (fun _ => true) 2 0, selected.head? = some (.v4 1)) ∧
    (∃ selected ∈ (⟨.interleave, 1⟩ : RotatingSelector).selections [.v4 1, .v6 7 ""]
      (fun _ => true) 2 0, selected.head? = some (.v6 7 "")) := by
  have hreach := (rotation_reaches_all_iff ⟨.interleave, 1⟩ 0 [.v4 1, .v6 7 ""] (fun _ => true)
    (by decide) (by decide +kernel)).mpr (fun _ _ _ => by decide +kernel)
  exact ⟨hreach (.v4 1) (by decide +kernel), hreach (.v6 7 "") (by decide +kernel)⟩

/-- With two IPv4 addresses beside an IPv6 one, the first of the two never leads. -/
theorem rotation_pins_even_family :
    ¬ ∀ (s : RotatingSelector) (cursor : UInt64) (input : List Addr) (allowed : Addr → Bool),
      1 ≤ s.maxAttempts → candidates allowed input ≠ [] →
      cursor.toNat + rotationWindow (candidates4 allowed input) (candidates6 allowed input) ≤
        UInt64.size →
      ∀ a ∈ s.strategy.leaders (candidates4 allowed input) (candidates6 allowed input),
        ∃ selected ∈ s.selections input allowed
          (rotationWindow (candidates4 allowed input) (candidates6 allowed input)) cursor,
          selected.head? = some a := by
  intro hclaim
  have hfirst := hclaim ⟨.interleave, 1⟩ 0 [.v4 1, .v4 2, .v6 7 ""] (fun _ => true) (by decide)
    (by decide +kernel) (by decide +kernel) (.v4 1) (by decide +kernel)
  revert hfirst
  decide +kernel

end SakhtarWg.Proxy
