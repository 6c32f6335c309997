import Mathlib.Data.Set.Insert
import Mathlib.Order.Basic
import Mathlib.Order.Defs.LinearOrder

/-! A register that keeps the value with the greatest tag. What it holds is
determined by the set of writes, not by their order or number, as long as a tag
has one value. -/

namespace MaxRegister

variable {τ α : Type*} [LinearOrder τ] {c : Set (τ × α)} {r r' : Option (τ × α)} {x y : τ × α}

def write (r : Option (τ × α)) (y : τ × α) : Option (τ × α) :=
  match r with
  | none => some y
  | some x => if x.1 < y.1 then some y else some x

theorem write_of_lt (h : x.1 < y.1) : write (some x) y = some y := if_pos h

theorem write_of_not_lt (h : ¬ x.1 < y.1) : write (some x) y = some x := if_neg h

theorem write_of_greatest (h : ∀ x, r = some x → x.1 < y.1) : write r y = some y := by
  cases r with
  | none => rfl
  | some x => exact write_of_lt (h x rfl)

def writeAll (r : Option (τ × α)) (ys : List (τ × α)) : Option (τ × α) := ys.foldl write r

structure IsLatest (c : Set (τ × α)) (x : τ × α) : Prop where
  mem : x ∈ c
  le : ∀ y ∈ c, y.1 ≤ x.1

/-- The register agrees with the set of values that it was offered. -/
def Holds (c : Set (τ × α)) : Option (τ × α) → Prop
  | none => c = ∅
  | some x => IsLatest c x

def Consistent (c : Set (τ × α)) : Prop := ∀ x ∈ c, ∀ y ∈ c, x.1 = y.1 → x.2 = y.2

def contents (r : Option (τ × α)) : Set (τ × α) := {x | r = some x}

theorem holds_contents (r : Option (τ × α)) : Holds (contents r) r := by
  cases r with
  | none =>
    apply Set.eq_empty_iff_forall_notMem.mpr
    intro x hx
    cases hx
  | some x =>
    refine ⟨rfl, fun y hy => ?_⟩
    have he : x = y := Option.some.inj hy
    exact he ▸ le_rfl

theorem IsLatest.insert (h : IsLatest c x) (hlt : ¬ x.1 < y.1) : IsLatest (insert y c) x := by
  refine ⟨Set.mem_insert_of_mem y h.mem, fun z hz => ?_⟩
  rcases hz with rfl | hz
  · exact not_lt.mp hlt
  · exact h.le z hz

theorem isLatest_insert_self (h : ∀ x ∈ c, x.1 ≤ y.1) : IsLatest (insert y c) y := by
  refine ⟨Set.mem_insert y c, fun z hz => ?_⟩
  rcases hz with rfl | hz
  · exact le_rfl
  · exact h z hz

theorem Holds.write (h : Holds c r) (y : τ × α) : Holds (insert y c) (write r y) := by
  cases r with
  | none =>
    have hc : c = ∅ := h
    exact isLatest_insert_self (by simp [hc])
  | some x =>
    have hx : IsLatest c x := h
    by_cases hlt : x.1 < y.1
    · have hy : IsLatest (insert y c) y :=
        isLatest_insert_self (fun z hz => (hx.le z hz).trans hlt.le)
      rw [write_of_lt hlt]
      exact hy
    · rw [write_of_not_lt hlt]
      exact hx.insert hlt

theorem Holds.writeAll (h : Holds c r) (ys : List (τ × α)) :
    Holds (c ∪ {y | y ∈ ys}) (writeAll r ys) := by
  induction ys generalizing c r with
  | nil => simpa [MaxRegister.writeAll] using h
  | cons y ys ih =>
    have hstep := ih (h.write y)
    have hset : c ∪ {z | z ∈ y :: ys} = insert y c ∪ {z | z ∈ ys} := by
      ext z
      simp [or_left_comm, or_assoc]
    rw [hset]
    exact hstep

/-- Whatever the order and the repetitions of the writes. -/
theorem Holds.unique (h : Holds c r) (h' : Holds c r') (hc : Consistent c) : r = r' := by
  cases r with
  | none =>
    have hnone : c = ∅ := h
    cases r' with
    | none => rfl
    | some y =>
      have hy : IsLatest c y := h'
      rw [hnone] at hy
      exact absurd hy.mem (Set.notMem_empty y)
  | some x =>
    have hx : IsLatest c x := h
    cases r' with
    | none =>
      have hnone : c = ∅ := h'
      rw [hnone] at hx
      exact absurd hx.mem (Set.notMem_empty x)
    | some y =>
      have hy : IsLatest c y := h'
      have htag : x.1 = y.1 := le_antisymm (hy.le x hx.mem) (hx.le y hy.mem)
      have hvalue := hc x hx.mem y hy.mem htag
      rw [Prod.ext htag hvalue]

end MaxRegister
