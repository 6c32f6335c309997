import Mathlib.Data.List.Induction
import Mathlib.Data.List.Nodup
import Mathlib.Data.Nat.Notation

/-! A log that grows at its end, and what its entries show: an entry is found again
at the time at which it was logged. -/

namespace EventLog

variable {β γ : Type*} {f : β → Option γ} {l : List β} {e : β} {t u : ℕ} {x y : γ}

/-- What the entry of a time shows, if it shows anything. -/
def shownAt (f : β → Option γ) (l : List β) (t : ℕ) : Option γ := l[t]?.bind f

/-- What the entries show, the latest first. -/
def shownBy (f : β → Option γ) (l : List β) : List γ := (l.filterMap f).reverse

theorem getElem?_concat_eq_some {b : β} :
    (l ++ [e])[t]? = some b ↔ l[t]? = some b ∨ t = l.length ∧ e = b := by
  rcases Nat.lt_trichotomy t l.length with hlt | rfl | hgt
  · simp [List.getElem?_append_left hlt, Nat.ne_of_lt hlt]
  · simp
  · have hge : (l ++ [e]).length ≤ t := by simpa using Nat.succ_le_of_lt hgt
    simp [List.getElem?_eq_none hge, List.getElem?_eq_none (Nat.le_of_lt hgt), Nat.ne_of_gt hgt]

theorem shownAt_eq_some : shownAt f l t = some x ↔ ∃ b, l[t]? = some b ∧ f b = some x :=
  Option.bind_eq_some_iff

theorem shownAt_concat :
    shownAt f (l ++ [e]) t = some x ↔ shownAt f l t = some x ∨ t = l.length ∧ f e = some x := by
  simp only [shownAt_eq_some, getElem?_concat_eq_some]
  constructor
  · rintro ⟨b, hb | ⟨rfl, rfl⟩, hx⟩
    · exact .inl ⟨b, hb, hx⟩
    · exact .inr ⟨rfl, hx⟩
  · rintro (⟨b, hb, hx⟩ | ⟨rfl, hx⟩)
    · exact ⟨b, .inl hb, hx⟩
    · exact ⟨e, .inr ⟨rfl, rfl⟩, hx⟩

theorem lt_of_shownAt (h : shownAt f l t = some x) : t < l.length := by
  obtain ⟨b, hb, _⟩ := shownAt_eq_some.mp h
  exact (List.getElem?_eq_some_iff.mp hb).1

@[simp] theorem shownBy_nil : shownBy f [] = [] := rfl

theorem shownBy_concat : shownBy f (l ++ [e]) = (f e).toList ++ shownBy f l := by
  cases h : f e <;> simp [shownBy, List.filterMap_append, h]

theorem mem_shownBy : x ∈ shownBy f l ↔ ∃ t, shownAt f l t = some x := by
  simp only [shownBy, List.mem_reverse, List.mem_filterMap, shownAt_eq_some]
  constructor
  · rintro ⟨b, hb, hx⟩
    obtain ⟨t, ht⟩ := List.getElem?_of_mem hb
    exact ⟨t, b, ht, hx⟩
  · rintro ⟨t, b, hb, hx⟩
    exact ⟨b, List.mem_of_getElem? hb, hx⟩

/-- What is shown above is shown later. -/
theorem pair_sublist_shownBy : [x, y].Sublist (shownBy f l) ↔
    ∃ t u, u < t ∧ shownAt f l t = some x ∧ shownAt f l u = some y := by
  induction l using List.reverseRecOn with
  | nil => simp [shownAt]
  | append_singleton l e ih =>
    have hold : [x, y].Sublist (shownBy f l) →
        ∃ t u, u < t ∧ shownAt f (l ++ [e]) t = some x ∧ shownAt f (l ++ [e]) u = some y := by
      intro h
      obtain ⟨t, u, hlt, ht, hu⟩ := ih.mp h
      exact ⟨t, u, hlt, shownAt_concat.mpr (.inl ht), shownAt_concat.mpr (.inl hu)⟩
    rw [shownBy_concat]
    constructor
    · intro h
      cases he : f e with
      | none => exact hold (by simpa [he] using h)
      | some z =>
        rw [he] at h
        cases h with
        | cons _ h => exact hold h
        | cons_cons _ h =>
          obtain ⟨u, hu⟩ := mem_shownBy.mp (List.singleton_sublist.mp h)
          exact ⟨l.length, u, lt_of_shownAt hu, shownAt_concat.mpr (.inr ⟨rfl, he⟩),
            shownAt_concat.mpr (.inl hu)⟩
    · rintro ⟨t, u, hlt, ht, hu⟩
      have hu' : shownAt f l u = some y := by
        refine (shownAt_concat.mp hu).resolve_right (fun hl => ?_)
        have hle := lt_of_shownAt ht
        rw [List.length_append, List.length_singleton] at hle
        omega
      rcases shownAt_concat.mp ht with ht | ⟨_, he⟩
      · exact (ih.mpr ⟨t, u, hlt, ht, hu'⟩).trans (List.sublist_append_right _ _)
      · rw [he]
        exact (List.singleton_sublist.mpr (mem_shownBy.mpr ⟨u, hu'⟩)).cons_cons x

theorem eq_of_shownAt (hnd : (shownBy f l).Nodup) (ht : shownAt f l t = some x)
    (hu : shownAt f l u = some x) : t = u := by
  have hnot := List.nodup_iff_sublist.mp hnd x
  rcases Nat.lt_trichotomy t u with hlt | rfl | hgt
  · exact absurd (pair_sublist_shownBy.mpr ⟨u, t, hlt, hu, ht⟩) hnot
  · rfl
  · exact absurd (pair_sublist_shownBy.mpr ⟨t, u, hgt, ht, hu⟩) hnot

theorem find?_shownBy_none {p : γ → Bool} (h : (shownBy f l).find? p = none)
    (ht : shownAt f l t = some x) : p x = false := by
  have hall := List.find?_eq_none.mp h x (mem_shownBy.mpr ⟨t, ht⟩)
  simpa using hall

/-- The first that is found is the latest that was shown. -/
theorem find?_shownBy_some {p : γ → Bool} (h : (shownBy f l).find? p = some x) :
    ∃ t, shownAt f l t = some x ∧ ∀ u y, shownAt f l u = some y → p y = true → u ≤ t := by
  induction l using List.reverseRecOn with
  | nil => simp at h
  | append_singleton l e ih =>
    rw [shownBy_concat] at h
    cases he : f e with
    | none =>
      rw [he] at h
      obtain ⟨t, ht, hlast⟩ := ih h
      refine ⟨t, shownAt_concat.mpr (.inl ht), fun u y hu hp => ?_⟩
      rcases shownAt_concat.mp hu with hu | ⟨_, hy⟩
      · exact hlast u y hu hp
      · cases he.symm.trans hy
    | some z =>
      rw [he, Option.toList_some, List.singleton_append, List.find?_cons] at h
      split at h
      next hz =>
        obtain rfl := Option.some.inj h
        refine ⟨l.length, shownAt_concat.mpr (.inr ⟨rfl, he⟩), fun u y hu _ => ?_⟩
        have hlt := lt_of_shownAt hu
        rw [List.length_append, List.length_singleton] at hlt
        omega
      next hz =>
        obtain ⟨t, ht, hlast⟩ := ih h
        refine ⟨t, shownAt_concat.mpr (.inl ht), fun u y hu hp => ?_⟩
        rcases shownAt_concat.mp hu with hu | ⟨_, hy⟩
        · exact hlast u y hu hp
        · obtain rfl := Option.some.inj (he.symm.trans hy)
          rw [hz] at hp
          cases hp

end EventLog
