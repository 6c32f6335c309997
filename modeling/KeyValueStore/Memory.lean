import Mathlib.Data.List.Basic
import Mathlib.Data.Nat.Digits.Defs
import Mathlib.Tactic.Common

/-! Memory behind pointers, as lists of cells. A write or a read past the end is
undefined, and the result is `none`. A `Block` is a pointer with the number of
elements in use, and a `Layout` tells how an element lies in its cells. -/

namespace Memory

section Copying

variable {α : Type*} {dst src d : List α} {c : α} {junk : ℕ → α} {n size cleared : ℕ}

/-- New cells hold anything. -/
def allocate (junk : ℕ → α) (n : ℕ) : List α := (List.range n).map junk

def memset (dst : List α) (c : α) (n : ℕ) : Option (List α) :=
  if n ≤ dst.length then some (List.replicate n c ++ dst.drop n) else none

def memcpy (dst src : List α) (n : ℕ) : Option { d : List α // n ≤ d.length } :=
  if h : n ≤ src.length ∧ n ≤ dst.length then
    some ⟨src.take n ++ dst.drop n, by
      rw [List.length_append, List.length_take_of_le h.1]
      exact Nat.le_add_right _ _⟩
  else none

theorem length_allocate (junk : ℕ → α) (n : ℕ) : (allocate junk n).length = n := by
  rw [allocate, List.length_map, List.length_range]

theorem memset_eq_some :
    memset dst c n = some d ↔ n ≤ dst.length ∧ List.replicate n c ++ dst.drop n = d := by
  rw [memset, Option.ite_none_right_eq_some, Option.some.injEq]

theorem length_of_memset (h : memset dst c n = some d) : d.length = dst.length := by
  obtain ⟨hn, rfl⟩ := memset_eq_some.mp h
  rw [List.length_append, List.length_replicate, List.length_drop]
  omega

theorem memcpy_isSome : (memcpy dst src n).isSome ↔ n ≤ src.length ∧ n ≤ dst.length := by
  unfold memcpy
  split
  next h => exact iff_of_true rfl h
  next h => exact iff_of_false (by simp) h

theorem take_of_memcpy {d : { d : List α // n ≤ d.length }} (h : memcpy dst src n = some d) :
    d.1.take n = src.take n := by
  unfold memcpy at h
  split at h
  next hn =>
    obtain rfl := Option.some.inj h
    exact List.take_left' (List.length_take_of_le hn.1)
  next => cases h

/-- New memory, cleared and then copied into. -/
def copyNew (junk : ℕ → α) (size : ℕ) (c : α) (cleared : ℕ) (src : List α) (n : ℕ) :
    Option { d : List α // n ≤ d.length } :=
  (memset (allocate junk size) c cleared).bind fun dst => memcpy dst src n

theorem copyNew_isSome :
    (copyNew junk size c cleared src n).isSome ↔ cleared ≤ size ∧ n ≤ src.length ∧ n ≤ size := by
  rw [copyNew]
  cases hset : memset (allocate junk size) c cleared with
  | none =>
    have hlt : ¬ cleared ≤ size := fun hle => by
      rw [memset, length_allocate, if_pos hle] at hset
      cases hset
    exact iff_of_false (by simp) (fun h => hlt h.1)
  | some dst =>
    have hle := (memset_eq_some.mp hset).1
    rw [length_allocate] at hle
    rw [Option.bind_some, memcpy_isSome, length_of_memset hset, length_allocate]
    exact ⟨fun h => ⟨hle, h⟩, fun h => h.2⟩

theorem take_of_copyNew {d : { d : List α // n ≤ d.length }}
    (h : copyNew junk size c cleared src n = some d) : d.1.take n = src.take n := by
  obtain ⟨dst, _, hcopy⟩ := Option.bind_eq_some_iff.mp h
  exact take_of_memcpy hcopy

end Copying

/-- How the values of a type lie in memory, each in `width` cells. -/
structure Layout (α β : Type*) (width : ℕ) where
  store : α → List β
  load : List β → α
  width_pos : 0 < width
  length_store : ∀ a, (store a).length = width
  load_store : ∀ a, load (store a) = a

/-- The memory at a pointer, in which `count` elements of `width` cells are in use. -/
structure Block (β : Type*) (width : ℕ) where
  cells : List β
  count : UInt32
  count_le : count.toNat * width ≤ cells.length

namespace Block

variable {α β : Type*} {w : ℕ} {b b' : Block β w}

def used (b : Block β w) : List β := b.cells.take (b.count.toNat * w)

/-- The elements, as they are read one by one. -/
def entries (lay : Layout α β w) (b : Block β w) : List α :=
  (List.range b.count.toNat).map fun i => lay.load ((b.cells.drop (i * w)).take w)

theorem length_used (b : Block β w) : b.used.length = b.count.toNat * w :=
  List.length_take_of_le b.count_le

theorem used_of_count_eq_zero (h : b.count = 0) : b.used = [] := by
  rw [used, h]
  simp

theorem element_used (b : Block β w) {i : ℕ} (hi : i < b.count.toNat) :
    (b.used.drop (i * w)).take w = (b.cells.drop (i * w)).take w := by
  have hw : w ≤ b.count.toNat * w - i * w := by
    have hmul := Nat.mul_le_mul_right w (Nat.succ_le_of_lt hi)
    rw [Nat.succ_mul] at hmul
    omega
  rw [used, List.drop_take, List.take_take, Nat.min_eq_left hw]

theorem entries_congr (lay : Layout α β w) (hcount : b'.count = b.count)
    (hused : b'.used = b.used) : b'.entries lay = b.entries lay := by
  rw [entries, entries, hcount]
  refine List.map_congr_left (fun i hi => ?_)
  have hlt := List.mem_range.mp hi
  rw [← b.element_used hlt, ← b'.element_used (hcount ▸ hlt), hused]

end Block

namespace Layout

variable {α β : Type*} {w : ℕ}

theorem length_flatMap_store (lay : Layout α β w) (l : List α) :
    (l.flatMap lay.store).length = l.length * w := by
  induction l with
  | nil => simp
  | cons a l ih =>
    rw [List.flatMap_cons, List.length_append, lay.length_store, ih, List.length_cons,
      Nat.succ_mul, Nat.add_comm]

theorem element_flatMap_store (lay : Layout α β w) (l : List α) {i : ℕ} (hi : i < l.length) :
    ((l.flatMap lay.store).drop (i * w)).take w = lay.store l[i] := by
  induction l generalizing i with
  | nil => simp at hi
  | cons a l ih =>
    cases i with
    | zero =>
      rw [Nat.zero_mul, List.drop_zero, List.flatMap_cons]
      exact List.take_left' (lay.length_store a)
    | succ i =>
      have hdrop : (i + 1) * w = (lay.store a).length + i * w := by
        rw [lay.length_store, Nat.succ_mul, Nat.add_comm]
      rw [List.flatMap_cons, hdrop, List.drop_length_add_append]
      exact ih (Nat.lt_of_succ_lt_succ hi)

/-- A block with these elements in use, and more cells behind them. -/
def block (lay : Layout α β w) (l : List α) (rest : List β) (h : l.length < 2 ^ 32) :
    Block β w where
  cells := l.flatMap lay.store ++ rest
  count := UInt32.ofNat l.length
  count_le := by
    rw [UInt32.toNat_ofNat_of_lt' h, List.length_append, lay.length_flatMap_store]
    exact Nat.le_add_right _ _

theorem count_block (lay : Layout α β w) (l : List α) (rest : List β) (h : l.length < 2 ^ 32) :
    (lay.block l rest h).count.toNat = l.length := UInt32.toNat_ofNat_of_lt' h

theorem used_block (lay : Layout α β w) (l : List α) (rest : List β) (h : l.length < 2 ^ 32) :
    (lay.block l rest h).used = l.flatMap lay.store := by
  rw [Block.used, lay.count_block l rest h]
  exact List.take_left' (lay.length_flatMap_store l)

theorem entries_block (lay : Layout α β w) (l : List α) (rest : List β) (h : l.length < 2 ^ 32) :
    (lay.block l rest h).entries lay = l := by
  refine List.ext_getElem (by simp [Block.entries, count_block]) (fun i _ hi => ?_)
  have hcount : i < (lay.block l rest h).count.toNat := (lay.count_block l rest h).symm ▸ hi
  simp only [Block.entries, List.getElem_map, List.getElem_range]
  rw [← Block.element_used _ hcount, used_block, lay.element_flatMap_store l hi, lay.load_store]

/-- Elements of one cell -/
def cell (β : Type*) [Inhabited β] : Layout β β 1 where
  store a := [a]
  load l := l.headD default
  width_pos := Nat.one_pos
  length_store _ := rfl
  load_store _ := rfl

theorem used_cell_block [Inhabited β] (l rest : List β) (h : l.length < 2 ^ 32) :
    ((cell β).block l rest h).used = l := by
  rw [used_block]
  exact List.flatMap_singleton' l

end Layout

section LittleEndian

/-- The lowest `w` digits in base 256, the last one first. -/
def digits : ℕ → ℕ → List UInt8
  | 0, _ => []
  | w + 1, x => UInt8.ofNat x :: digits w (x / 256)

theorem length_digits (w x : ℕ) : (digits w x).length = w := by
  induction w generalizing x with
  | zero => rfl
  | succ w ih => rw [digits, List.length_cons, ih]

theorem ofDigits_digits (w x : ℕ) :
    Nat.ofDigits 256 ((digits w x).map UInt8.toNat) = x % 256 ^ w := by
  induction w generalizing x with
  | zero => simp [digits, Nat.mod_one]
  | succ w ih =>
    have hpow : 256 ^ (w + 1) = 256 * 256 ^ w := Nat.pow_succ'
    rw [digits, List.map_cons, Nat.ofDigits_cons, ih, UInt8.toNat_ofNat', hpow, Nat.mod_mul]

/-- Integers of `w` bytes, the lowest byte first. -/
def littleEndian (w : ℕ) (hw : 0 < w) : Layout (BitVec (8 * w)) UInt8 w where
  store v := digits w v.toNat
  load l := BitVec.ofNat (8 * w) (Nat.ofDigits 256 (l.map UInt8.toNat))
  width_pos := hw
  length_store v := length_digits w v.toNat
  load_store v := by
    have hpow : 256 ^ w = 2 ^ (8 * w) := by rw [Nat.pow_mul]
    rw [ofDigits_digits, hpow, Nat.mod_eq_of_lt v.isLt, BitVec.ofNat_toNat, BitVec.setWidth_eq]

end LittleEndian

end Memory
