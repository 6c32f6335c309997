import Mathlib.Data.List.Basic
import Mathlib.Data.List.Perm.Basic
import Mathlib.Tactic.Common

/-! A binary heap in a list, level by level. `comp x y` says that `x` belongs
below `y`; nothing is assumed of it, so the heap need not be ordered. -/

namespace BinaryHeap

section Operations

variable {α : Type*} (comp : α → α → Bool)

def swap (h : List α) (i j : ℕ) : List α :=
  match h[i]?, h[j]? with
  | some x, some y => (h.set i y).set j x
  | _, _ => h

/-- Both positions are filled, and the first one's element belongs below. -/
def lower (h : List α) (i j : ℕ) : Bool := h[i]?.any fun x => h[j]?.any fun y => comp x y

def siftUp (h : List α) (i : ℕ) : List α :=
  if i = 0 then h
  else if lower comp h ((i - 1) / 2) i then siftUp (swap h ((i - 1) / 2) i) ((i - 1) / 2)
  else h
termination_by i
decreasing_by omega

def push (h : List α) (x : α) : List α := siftUp comp (h ++ [x]) h.length

/-- The child that a sift-down compares with. -/
def upperChild (h : List α) (i : ℕ) : ℕ :=
  if 2 * i + 2 < h.length ∧ lower comp h (2 * i + 2) (2 * i + 1) = false then 2 * i + 2
  else 2 * i + 1

end Operations

section Swap

variable {α : Type*} {comp : α → α → Bool} {h : List α} {i j k : ℕ}

theorem lower_iff : lower comp h i j = true ↔
    ∃ x y, h[i]? = some x ∧ h[j]? = some y ∧ comp x y = true := by
  simp [lower, Option.any_eq_true]

theorem lower_lt (hl : lower comp h i j = true) : i < h.length ∧ j < h.length := by
  obtain ⟨x, y, hx, hy, _⟩ := lower_iff.mp hl
  exact ⟨(List.getElem?_eq_some_iff.mp hx).1, (List.getElem?_eq_some_iff.mp hy).1⟩

@[simp] theorem length_swap : (swap h i j).length = h.length := by
  unfold swap
  split <;> simp

theorem swap_perm : (swap h i j).Perm h := by
  unfold swap
  split
  next x y hx hy =>
    obtain ⟨hi, rfl⟩ := List.getElem?_eq_some_iff.mp hx
    obtain ⟨hj, rfl⟩ := List.getElem?_eq_some_iff.mp hy
    exact List.set_set_perm hi hj
  next => exact .refl _

theorem getElem?_swap_left {x y : α} (hx : h[i]? = some x) (hy : h[j]? = some y) :
    (swap h j i)[j]? = some x := by
  obtain ⟨hi, _⟩ := List.getElem?_eq_some_iff.mp hx
  obtain ⟨hj, _⟩ := List.getElem?_eq_some_iff.mp hy
  simp only [swap, hx, hy]
  by_cases he : i = j
  · subst he
    have : y = x := Option.some.inj (hy.symm.trans hx)
    simp [hi, this]
  · rw [List.getElem?_set_ne he]
    simp [hj]

theorem getElem?_swap_of_ne (hi : k ≠ i) (hj : k ≠ j) : (swap h i j)[k]? = h[k]? := by
  unfold swap
  split
  next => rw [List.getElem?_set_ne hj.symm, List.getElem?_set_ne hi.symm]
  next => rfl

end Swap

section SiftDown

variable {α : Type*} (comp : α → α → Bool)

def siftDown (h : List α) (i : ℕ) : List α :=
  if _hl : lower comp h i (upperChild comp h i) then
    siftDown (swap h i (upperChild comp h i)) (upperChild comp h i)
  else h
termination_by h.length - i
decreasing_by
  have hlt := (lower_lt ‹_›).2
  have hchild : i < upperChild comp h i := by
    unfold upperChild
    split <;> omega
  rw [length_swap]
  omega

/-- The last element takes the place of the root and sifts down. -/
def pop (h : List α) : List α :=
  match h.getLast? with
  | some x => siftDown comp (h.dropLast.set 0 x) 0
  | none => []

theorem pop_concat (x y : α) (h : List α) :
    pop comp (x :: (h ++ [y])) = siftDown comp (y :: h) 0 := by
  simp only [pop, ← List.cons_append, List.getLast?_concat, List.dropLast_concat,
    List.set_cons_zero]

theorem pop_singleton (x : α) : pop comp [x] = [] := by
  have hnone : lower comp ([] : List α) 0 (upperChild comp [] 0) = false := rfl
  rw [pop, List.getLast?_singleton]
  simp only [List.dropLast_singleton, List.set_nil]
  rw [siftDown, dif_neg (by simp [hnone])]

end SiftDown

section Contents

variable {α : Type*} (comp : α → α → Bool)

theorem siftUp_perm (h : List α) (i : ℕ) : (siftUp comp h i).Perm h := by
  fun_induction siftUp comp h i with
  | case1 => exact .refl _
  | case2 h i hi hl ih => exact ih.trans swap_perm
  | case3 => exact .refl _

theorem siftDown_perm (h : List α) (i : ℕ) : (siftDown comp h i).Perm h := by
  fun_induction siftDown comp h i with
  | case1 h i hl ih => exact ih.trans swap_perm
  | case2 => exact .refl _

theorem push_perm (h : List α) (x : α) : (push comp h x).Perm (x :: h) :=
  (siftUp_perm comp _ _).trans List.perm_append_comm

theorem pop_perm (x : α) (h : List α) : (pop comp (x :: h)).Perm h := by
  rcases h.eq_nil_or_concat with rfl | ⟨h, y, rfl⟩
  · simp only [pop, List.getLast?_singleton]
    exact siftDown_perm comp _ _
  · rw [List.concat_eq_append, pop_concat]
    exact (siftDown_perm comp _ _).trans (List.perm_append_singleton y h).symm

end Contents

section Root

variable {α : Type*} (comp : α → α → Bool) {x : α}

theorem siftUp_root {h : List α} {i : ℕ} (hi : h[i]? = some x) (hpos : i ≠ 0) :
    (siftUp comp h i)[0]? = h[0]? ∨
      (siftUp comp h i)[0]? = some x ∧ ∃ y, h[0]? = some y ∧ comp y x = true := by
  fun_induction siftUp comp h i with
  | case1 => exact absurd rfl hpos
  | case3 => exact .inl rfl
  | case2 h i _ hl ih =>
    obtain ⟨y, x', hy, hx', hcomp⟩ := lower_iff.mp hl
    obtain rfl : x' = x := Option.some.inj (hx'.symm.trans hi)
    have hswap := getElem?_swap_left hi hy
    by_cases hp : (i - 1) / 2 = 0
    · right
      rw [hp] at hswap hy
      have hroot : siftUp comp (swap h ((i - 1) / 2) i) ((i - 1) / 2) = swap h 0 i := by
        rw [hp, siftUp, if_pos rfl]
      exact ⟨hroot ▸ hswap, y, hy, hcomp⟩
    · have hzero := getElem?_swap_of_ne (h := h) (Ne.symm hp) (Ne.symm hpos)
      exact hzero ▸ ih hswap hp

/-- The root after a push is the old root, or an element that belongs above it. -/
theorem push_root {h : List α} {y : α} (hy : h.head? = some y) :
    (push comp h x).head? = some y ∨ (push comp h x).head? = some x ∧ comp y x = true := by
  cases h with
  | nil => simp at hy
  | cons z h =>
    obtain rfl : z = y := by simpa using hy
    have hx : (z :: h ++ [x])[(z :: h).length]? = some x := by simp
    rw [List.head?_eq_getElem?]
    rcases siftUp_root comp hx (by simp) with hroot | ⟨hroot, y, hy, hcomp⟩
    · exact .inl (by simpa [push] using hroot)
    · obtain rfl : z = y := by simpa using hy
      exact .inr ⟨hroot, hcomp⟩

end Root

end BinaryHeap
