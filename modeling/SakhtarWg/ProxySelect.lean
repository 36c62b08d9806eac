import SakhtarWg.Netip

/-!
# Address selection

Candidates are deduplicated, filtered and rotated by a cursor that every caller
advances, then merged by the family strategy and cut at the attempt cap.
-/

namespace SakhtarWg.Proxy
open Netip

inductive AddressFamilyStrategy
  | ipv4First | ipv6First | interleave
  deriving DecidableEq

/-- The accumulators of the filtering loop. -/
structure Picked where
  seen : List Addr
  v4 : List Addr
  v6 : List Addr

def Picked.add (allowed : Addr → Bool) (s : Picked) (addr : Addr) : Picked :=
  if addr.isValid = false ∨ addr.zone ≠ "" then s
  else
    let addr := addr.unmap
    if allowed addr = false then s
    else if addr ∈ s.seen then s
    else if addr.is4 then { s with seen := s.seen ++ [addr], v4 := s.v4 ++ [addr] }
    else { s with seen := s.seen ++ [addr], v6 := s.v6 ++ [addr] }

def pick (allowed : Addr → Bool) (input : List Addr) : Picked :=
  input.foldl (Picked.add allowed) ⟨[], [], []⟩

/-- Three reversals move the first `sequence % length` elements to the end. -/
def rotate (addrs : List Addr) (sequence : UInt64) : List Addr :=
  if addrs.length < 2 then addrs
  else
    let start := sequence.toNat % addrs.length
    ((addrs.take start).reverse ++ (addrs.drop start).reverse).reverse

def alternate : List Addr → List Addr → List Addr
  | [], second => second
  | a :: first, [] => a :: first
  | a :: first, b :: second => a :: b :: alternate first second

structure RotatingSelector where
  strategy : AddressFamilyStrategy
  maxAttempts : ℤ

/-- `Select` with the cursor value it drew. -/
def RotatingSelector.select (s : RotatingSelector) (sequence : UInt64) (input : List Addr)
    (allowed : Addr → Bool) : List Addr :=
  let picked := pick allowed input
  let v4 := rotate picked.v4 sequence
  let v6 := rotate picked.v6 sequence
  let ordered := match s.strategy with
    | .ipv6First => v6 ++ v4
    | .interleave => if sequence % 2 = 1 then alternate v4 v6 else alternate v6 v4
    | .ipv4First => v4 ++ v6
  ordered.take s.maxAttempts.toNat

/-! ## What is selected -/

/-- What the filtering loop has collected from the input so far. -/
structure Picked.From (allowed : Addr → Bool) (input : List Addr) (s : Picked) : Prop where
  perm : s.seen.Perm (s.v4 ++ s.v6)
  nodup : s.seen.Nodup
  origin : ∀ a ∈ s.seen, allowed a = true ∧
    ∃ b ∈ input, b.isValid = true ∧ b.zone = "" ∧ a = b.unmap

theorem Picked.From.add {allowed : Addr → Bool} {input : List Addr} {s : Picked}
    (h : s.From allowed input) (addr : Addr) :
    (s.add allowed addr).From allowed (input ++ [addr]) := by
  have hweak : s.From allowed (input ++ [addr]) := by
    refine ⟨h.perm, h.nodup, fun a ha => ?_⟩
    obtain ⟨h1, b, hb, h2⟩ := h.origin a ha
    exact ⟨h1, b, by simp [hb], h2⟩
  unfold Picked.add
  by_cases hbad : addr.isValid = false ∨ addr.zone ≠ ""
  · simpa [if_pos hbad] using hweak
  · rw [if_neg hbad]
    simp only [not_or, Bool.not_eq_false, not_not] at hbad
    dsimp only
    by_cases hall : allowed addr.unmap = false
    · simpa [if_pos hall] using hweak
    · rw [if_neg hall]
      by_cases hseen : addr.unmap ∈ s.seen
      · simpa [if_pos hseen] using hweak
      · rw [if_neg hseen]
        have horigin : ∀ a ∈ s.seen ++ [addr.unmap], allowed a = true ∧
            ∃ b ∈ input ++ [addr], b.isValid = true ∧ b.zone = "" ∧ a = b.unmap := by
          intro a ha
          rcases List.mem_append.mp ha with ha | ha
          · exact hweak.origin a ha
          · rw [List.mem_singleton.mp ha]
            exact ⟨by simpa using hall, addr, by simp, hbad.1, hbad.2, rfl⟩
        have hnodup : (s.seen ++ [addr.unmap]).Nodup := by
          rw [List.nodup_append]
          refine ⟨h.nodup, by simp, ?_⟩
          rintro a ha b hb rfl
          exact hseen (by simpa [List.mem_singleton.mp hb] using ha)
        split
        · refine ⟨?_, hnodup, horigin⟩
          have := (h.perm.append_right [addr.unmap])
          refine this.trans ?_
          rw [List.append_assoc, List.append_assoc]
          exact (List.perm_append_comm).append_left s.v4
        · refine ⟨?_, hnodup, horigin⟩
          rw [← List.append_assoc]
          exact h.perm.append_right _

theorem pick_from (allowed : Addr → Bool) (input : List Addr) :
    (pick allowed input).From allowed input := by
  unfold pick
  suffices hgen : ∀ (l done : List Addr) (s : Picked), s.From allowed done →
      (l.foldl (Picked.add allowed) s).From allowed (done ++ l) by
    simpa using hgen input [] ⟨[], [], []⟩ ⟨by simp, by simp, by simp⟩
  intro l
  induction l with
  | nil =>
    intro done s hs
    simpa using hs
  | cons a l ih =>
    intro done s hs
    simpa using ih (done ++ [a]) _ (hs.add a)

theorem rotate_perm (addrs : List Addr) (sequence : UInt64) :
    (rotate addrs sequence).Perm addrs := by
  unfold rotate
  split
  · exact List.Perm.refl _
  · simp only [List.reverse_append, List.reverse_reverse]
    exact List.perm_append_comm.trans (by rw [List.take_append_drop])

theorem alternate_perm (first second : List Addr) :
    (alternate first second).Perm (first ++ second) := by
  induction first, second using alternate.induct with
  | case1 second => simp [alternate]
  | case2 a first => simp [alternate]
  | case3 a first b second ih =>
    simp only [alternate, List.cons_append]
    refine List.Perm.cons a ?_
    exact (ih.cons b).trans List.perm_middle.symm

/-- The merged order before the cut is a rearrangement of everything picked. -/
theorem select_sublist (s : RotatingSelector) (sequence : UInt64) (input : List Addr)
    (allowed : Addr → Bool) :
    ∃ ordered : List Addr, ordered.Perm (pick allowed input).seen ∧
      s.select sequence input allowed = ordered.take s.maxAttempts.toNat := by
  have hseen := (pick_from allowed input).perm
  have h4 := rotate_perm (pick allowed input).v4 sequence
  have h6 := rotate_perm (pick allowed input).v6 sequence
  refine ⟨_, ?_, rfl⟩
  refine List.Perm.trans ?_ hseen.symm
  split
  · exact (h6.append h4).trans List.perm_append_comm
  · split
    · exact (alternate_perm _ _).trans (h4.append h6)
    · exact (alternate_perm _ _).trans ((h6.append h4).trans List.perm_append_comm)
  · exact h4.append h6

section
variable (s : RotatingSelector) (sequence : UInt64) (input : List Addr) (allowed : Addr → Bool)

theorem select_nodup : (s.select sequence input allowed).Nodup := by
  obtain ⟨ordered, hperm, heq⟩ := select_sublist s sequence input allowed
  rw [heq]
  exact (hperm.nodup_iff.mpr (pick_from allowed input).nodup).sublist (List.take_sublist _ _)

theorem select_origin {a : Addr} (h : a ∈ s.select sequence input allowed) :
    allowed a = true ∧ ∃ b ∈ input, b.isValid = true ∧ b.zone = "" ∧ a = b.unmap := by
  obtain ⟨ordered, hperm, heq⟩ := select_sublist s sequence input allowed
  rw [heq] at h
  exact (pick_from allowed input).origin a (hperm.mem_iff.mp (List.mem_of_mem_take h))

end

end SakhtarWg.Proxy
