import Mathlib.Data.List.Rotate

/-!
# Loops that write into the list they read

Merging: a loop reads a list from left to right and writes its result into the front of the
same list. The write position never passes the read position, so the loop reads what was there
at the start.

Rotating: three reversals, each by exchanging elements from both ends.
-/

namespace SakhtarWg.InPlace

section Merge

variable {α : Type} (joins : α → α → Bool) (widen : α → α → α)

/-- The merge as a function: an element joins the last one, or begins a new one. -/
def mergeFrom (last : α) : List α → List α
  | [] => [last]
  | candidate :: rest =>
    if joins last candidate then mergeFrom (widen last candidate) rest
    else last :: mergeFrom candidate rest

/-- One round of the loop, on the list and the number of merged elements at its front. -/
def mergeStep (s : List α × ℕ) (j : ℕ) : List α × ℕ :=
  match s.1[j]?, s.1[s.2 - 1]? with
  | some candidate, some last =>
    if joins last candidate then (s.1.set (s.2 - 1) (widen last candidate), s.2)
    else (s.1.set s.2 candidate, s.2 + 1)
  | _, _ => s

def mergeInPlace (l : List α) : List α :=
  let s := (List.range' 1 (l.length - 1)).foldl (mergeStep joins widen) (l, 1)
  s.1.take s.2

/-- From a list with `done` and `last` at its front and `rest` still to be read. -/
theorem foldl_mergeStep (rest done old : List α) (last : α) (j : ℕ)
    (hj : j = done.length + 1 + old.length) :
    let s := (List.range' j rest.length).foldl (mergeStep joins widen)
      (done ++ last :: (old ++ rest), done.length + 1)
    s.1.take s.2 = done ++ mergeFrom joins widen last rest := by
  induction rest generalizing done old last j with
  | nil =>
    show (done ++ last :: (old ++ [])).take (done.length + 1) = done ++ [last]
    rw [List.take_length_add_append]
    rfl
  | cons candidate rest ih =>
    have hread : (done ++ last :: (old ++ candidate :: rest))[j]? = some candidate := by
      have hlist : done ++ last :: (old ++ candidate :: rest) =
          (done ++ last :: old) ++ candidate :: rest := by simp
      rw [hlist, List.getElem?_append_right (by simp; omega)]
      have hzero : j - (done ++ last :: old).length = 0 := by
        simp
        omega
      rw [hzero]
      rfl
    have hlast : (done ++ last :: (old ++ candidate :: rest))[done.length + 1 - 1]? =
        some last := by
      simp
    simp only [List.length_cons, List.range'_succ, List.foldl_cons, mergeFrom]
    rw [mergeStep, hread, hlast]
    dsimp only
    split
    · -- the last element is replaced
      have hset : (done ++ last :: (old ++ candidate :: rest)).set (done.length + 1 - 1)
          (widen last candidate) =
          done ++ widen last candidate :: ((old ++ [candidate]) ++ rest) := by
        simp
      rw [hset]
      exact ih done (old ++ [candidate]) (widen last candidate) (j + 1) (by simp; omega)
    · -- the candidate is written after it, onto an element that was read
      cases old with
      | nil =>
        have hset : (done ++ last :: ([] ++ candidate :: rest)).set (done.length + 1) candidate =
            (done ++ [last]) ++ candidate :: ([] ++ rest) := by
          simp
        have hnext := ih (done ++ [last]) [] candidate (j + 1) (by simp at hj ⊢; omega)
        rw [hset]
        simpa using hnext
      | cons o old =>
        have hset : (done ++ last :: ((o :: old) ++ candidate :: rest)).set (done.length + 1)
            candidate = (done ++ [last]) ++ candidate :: ((old ++ [candidate]) ++ rest) := by
          simp
        have hnext := ih (done ++ [last]) (old ++ [candidate]) candidate (j + 1)
          (by simp at hj ⊢; omega)
        rw [hset]
        simpa using hnext

/-- The loop computes the merge. -/
theorem mergeInPlace_cons (first : α) (l : List α) :
    mergeInPlace joins widen (first :: l) = mergeFrom joins widen first l := by
  have hloop := foldl_mergeStep joins widen l [] [] first 1 rfl
  simpa [mergeInPlace] using hloop

end Merge

section Rotate

variable {α : Type}

def swap (l : List α) (i j : ℕ) : List α :=
  match l[i]?, l[j]? with
  | some a, some b => (l.set i b).set j a
  | _, _ => l

/-- Two positions move towards each other and exchange what they point at. -/
def reverseBetween (l : List α) (left right : ℕ) : List α :=
  if left < right then reverseBetween (swap l left right) (left + 1) (right - 1) else l
termination_by right - left

theorem length_swap (l : List α) (i j : ℕ) : (swap l i j).length = l.length := by
  unfold swap
  split <;> simp

theorem getElem?_swap (l : List α) {i j : ℕ} (hij : i < j) (hj : j < l.length) (k : ℕ) :
    (swap l i j)[k]? = if k = i then l[j]? else if k = j then l[i]? else l[k]? := by
  have hi : i < l.length := by omega
  rw [swap, List.getElem?_eq_getElem hi, List.getElem?_eq_getElem hj]
  dsimp only
  rw [List.getElem?_set, List.getElem?_set, List.length_set]
  by_cases hkj : k = j
  · simp [hkj, hj, hij.ne']
  · by_cases hki : k = i
    · simp [hki, hi, hij.ne']
    · simp [hki, hkj, Ne.symm hki, Ne.symm hkj]

/-- What the loop leaves at each position. -/
theorem getElem?_reverseBetween (l : List α) (left right : ℕ) (hright : left < right → right < l.length)
    (k : ℕ) : (reverseBetween l left right)[k]? =
      if left ≤ k ∧ k ≤ right then l[left + right - k]? else l[k]? := by
  fun_induction reverseBetween l left right with
  | case1 l left right hlt ih =>
    have hin := hright hlt
    rw [ih (by rw [length_swap]; omega)]
    rw [getElem?_swap l hlt hin, getElem?_swap l hlt hin]
    split_ifs <;> first | omega | rfl | (congr 1; omega)
  | case2 l left right hlt =>
    split_ifs with hk
    · congr 1
      omega
    · rfl

theorem length_reverseBetween (l : List α) (left right : ℕ) :
    (reverseBetween l left right).length = l.length := by
  fun_induction reverseBetween l left right with
  | case1 l left right hlt ih => rw [ih, length_swap]
  | case2 => rfl

/-- Reversing the first `start` elements, the rest, and then the whole. -/
def rotateBy (l : List α) (start : ℕ) : List α :=
  let l := reverseBetween l 0 (start - 1)
  let l := reverseBetween l start (l.length - 1)
  reverseBetween l 0 (l.length - 1)

theorem rotateBy_eq_rotate (l : List α) {start : ℕ} (hstart : start < l.length) :
    rotateBy l start = l.rotate start := by
  apply List.ext_getElem?
  intro k
  have hlen : (rotateBy l start).length = l.length := by
    simp only [rotateBy, length_reverseBetween]
  by_cases hk : k < l.length
  · rw [List.getElem?_rotate hk]
    simp only [rotateBy, length_reverseBetween]
    rw [getElem?_reverseBetween _ _ _ (by simp only [length_reverseBetween]; omega),
      if_pos (by omega),
      getElem?_reverseBetween _ _ _ (by simp only [length_reverseBetween]; omega)]
    -- the position before the last reversal lies in the second part or in the first
    by_cases hsecond : k + start < l.length
    · rw [if_pos (by omega), getElem?_reverseBetween _ _ _ (by omega), Nat.mod_eq_of_lt hsecond]
      split_ifs
      all_goals
        congr 1
        omega
    · rw [if_neg (by omega), getElem?_reverseBetween _ _ _ (by omega), if_pos (by omega),
        Nat.mod_eq_sub_mod (by omega), Nat.mod_eq_of_lt (by omega)]
      congr 1
      omega
  · rw [List.getElem?_eq_none (by omega), List.getElem?_eq_none (by simp; omega)]

end Rotate

end SakhtarWg.InPlace
