import KeyValueStore.BinaryHeap
import Mathlib.Data.List.Nodup
import Mathlib.Logic.Equiv.Basic

/-! When a heap over a partial order is ordered. A sift looks only at parents and
children, so past them it relies on elements that are in order being told apart
by every third one. -/

namespace BinaryHeap

variable {α : Type*} {comp : α → α → Bool} {h : List α} {i j k p c : ℕ}

/-- No parent belongs below its child. -/
def Ordered (comp : α → α → Bool) (h : List α) : Prop :=
  ∀ j, j ≠ 0 → lower comp h ((j - 1) / 2) j = false

/-- The elements at different positions are partially ordered. -/
structure Partial (comp : α → α → Bool) (h : List α) : Prop where
  asymm : ∀ i j, i ≠ j → lower comp h i j = true → lower comp h j i = false
  trans : ∀ i j k, lower comp h i j = true → lower comp h j k = true → lower comp h i k = true

/-- Two elements in order are told apart by every third one, but for the element
at one position. -/
def WeakExcept (comp : α → α → Bool) (h : List α) (i : ℕ) : Prop :=
  ∀ a b c, a ≠ i → b ≠ i → c ≠ i → a ≠ c → b < h.length → lower comp h a c = true →
    lower comp h a b = true ∨ lower comp h b c = true

/-- Without an exception. -/
def Weak (comp : α → α → Bool) (h : List α) : Prop :=
  ∀ a b c, a ≠ c → b < h.length → lower comp h a c = true →
    lower comp h a b = true ∨ lower comp h b c = true

section Swap

theorem getElem?_swap (hi : i < h.length) (hj : j < h.length) (k : ℕ) :
    (swap h i j)[k]? = h[Equiv.swap i j k]? := by
  have hx := List.getElem?_eq_getElem hi
  have hy := List.getElem?_eq_getElem hj
  by_cases hki : k = i
  · rw [hki, Equiv.swap_apply_left, getElem?_swap_left hy hx, hy]
  · by_cases hkj : k = j
    · rw [hkj, Equiv.swap_apply_right, hx]
      simp [swap, hx, hj]
    · rw [Equiv.swap_apply_of_ne_of_ne hki hkj, getElem?_swap_of_ne hki hkj]

theorem lower_swap (hi : i < h.length) (hj : j < h.length) (a b : ℕ) :
    lower comp (swap h i j) a b = lower comp h (Equiv.swap i j a) (Equiv.swap i j b) := by
  rw [lower, lower, getElem?_swap hi hj, getElem?_swap hi hj]

theorem lower_eq_false_of_le (hj : h.length ≤ j) : lower comp h i j = false := by
  by_contra hne
  have hlt := (lower_lt (eq_true_of_ne_false hne)).2
  omega

theorem Partial.swap (hp : Partial comp h) (hi : i < h.length) (hj : j < h.length) :
    Partial comp (swap h i j) where
  asymm a b hab := by
    rw [lower_swap hi hj, lower_swap hi hj]
    exact hp.asymm _ _ (fun he => hab ((Equiv.swap i j).injective he))
  trans a b c := by
    rw [lower_swap hi hj, lower_swap hi hj, lower_swap hi hj]
    exact hp.trans _ _ _

theorem WeakExcept.swap (hw : WeakExcept comp h i) (hi : i < h.length) (hj : j < h.length) :
    WeakExcept comp (swap h j i) j := by
  have hne : ∀ {a}, a ≠ j → Equiv.swap j i a ≠ i := by
    intro a ha he
    apply ha
    apply (Equiv.swap j i).injective
    rw [he, Equiv.swap_apply_left]
  intro a b c ha hb hc hac hlt
  have hblt : Equiv.swap j i b < h.length := by
    rw [length_swap] at hlt
    by_cases hbi : b = i
    · rw [hbi, Equiv.swap_apply_right]
      exact hj
    · rw [Equiv.swap_apply_of_ne_of_ne hb hbi]
      exact hlt
  rw [lower_swap hj hi, lower_swap hj hi, lower_swap hj hi]
  exact hw _ _ _ (hne ha) (hne hb) (hne hc) ((Equiv.swap j i).injective.ne hac) hblt

theorem Weak.swap (hw : Weak comp h) (hi : i < h.length) (hj : j < h.length) :
    Weak comp (swap h i j) := by
  intro a b c hac hlt
  have hblt : Equiv.swap i j b < h.length := by
    rw [length_swap] at hlt
    by_cases hbi : b = i
    · rw [hbi, Equiv.swap_apply_left]
      exact hj
    · by_cases hbj : b = j
      · rw [hbj, Equiv.swap_apply_right]
        exact hi
      · rw [Equiv.swap_apply_of_ne_of_ne hbi hbj]
        exact hlt
  rw [lower_swap hi hj, lower_swap hi hj, lower_swap hi hj]
  exact hw _ _ _ ((Equiv.swap i j).injective.ne hac) hblt

end Swap

section SiftUp

/-- In order but for the element at `i`, which may belong above its parent. -/
structure UpOrdered (comp : α → α → Bool) (h : List α) (i : ℕ) : Prop where
  except : ∀ j, j ≠ 0 → j ≠ i → lower comp h ((j - 1) / 2) j = false
  grand : ∀ j, j ≠ 0 → (j - 1) / 2 = i → i ≠ 0 → lower comp h ((i - 1) / 2) j = false

theorem UpOrdered.move (ho : UpOrdered comp h i) (hp : Partial comp h) (hw : WeakExcept comp h i)
    (hi : i ≠ 0) (hl : lower comp h ((i - 1) / 2) i = true) :
    UpOrdered comp (BinaryHeap.swap h ((i - 1) / 2) i) ((i - 1) / 2) := by
  obtain ⟨hplt, hilt⟩ := lower_lt hl
  obtain ⟨p, hpar⟩ : ∃ p, p = (i - 1) / 2 := ⟨_, rfl⟩
  rw [← hpar] at hl hplt ⊢
  have hpi : p < i := by omega
  -- the other child of the parent is above neither of the two
  have hsibling : ∀ j, j ≠ 0 → j ≠ i → (j - 1) / 2 = p →
      lower comp h p j = false ∧ lower comp h i j = false := by
    intro j hj hji hjp
    have hpj := ho.except j hj hji
    rw [hjp] at hpj
    refine ⟨hpj, ?_⟩
    by_contra hij
    have htrans := hp.trans p i j hl (eq_true_of_ne_false hij)
    simp [hpj] at htrans
  refine ⟨fun j hj hjp => ?_, fun j hj hjp hp0 => ?_⟩
  · rw [lower_swap hplt hilt]
    by_cases hji : j = i
    · rw [hji, ← hpar, Equiv.swap_apply_left, Equiv.swap_apply_right]
      exact hp.asymm p i (by omega) hl
    · rw [Equiv.swap_apply_of_ne_of_ne hjp hji]
      by_cases hparI : (j - 1) / 2 = i
      · rw [hparI, Equiv.swap_apply_right, hpar]
        exact ho.grand j hj hparI hi
      · by_cases hparP : (j - 1) / 2 = p
        · rw [hparP, Equiv.swap_apply_left]
          exact (hsibling j hj hji hparP).2
        · rw [Equiv.swap_apply_of_ne_of_ne hparP hparI]
          exact ho.except j hj hji
  · have hgrand := ho.except p hp0 (by omega)
    rw [lower_swap hplt hilt, Equiv.swap_apply_of_ne_of_ne (by omega) (by omega)]
    by_cases hji : j = i
    · rw [hji, Equiv.swap_apply_right]
      exact hgrand
    · rw [Equiv.swap_apply_of_ne_of_ne (by omega) hji]
      by_contra hgj
      have hweak := hw ((p - 1) / 2) p j (by omega) (by omega) hji (by omega) hplt
        (eq_true_of_ne_false hgj)
      simp [hgrand, (hsibling j hj hji hjp).1] at hweak

theorem siftUp_ordered (ho : UpOrdered comp h i) (hp : Partial comp h) (hw : WeakExcept comp h i) :
    Ordered comp (siftUp comp h i) := by
  fun_induction siftUp comp h i with
  | case1 h => exact fun j hj => ho.except j hj hj
  | case2 h i hi hl ih =>
    obtain ⟨hplt, hilt⟩ := lower_lt hl
    exact ih (ho.move hp hw hi hl) (hp.swap hplt hilt) (hw.swap hilt hplt)
  | case3 h i hi hl =>
    intro j hj
    by_cases hji : j = i
    · rw [hji]
      exact eq_false_of_ne_true hl
    · exact ho.except j hj hji

end SiftUp

section SiftDown

/-- In order but for the element at `i`, which may belong below its children. -/
structure DownOrdered (comp : α → α → Bool) (h : List α) (i : ℕ) : Prop where
  except : ∀ j, j ≠ 0 → (j - 1) / 2 ≠ i → lower comp h ((j - 1) / 2) j = false
  grand : ∀ j, j ≠ 0 → (j - 1) / 2 = i → i ≠ 0 → lower comp h ((i - 1) / 2) j = false

theorem upperChild_parent (h : List α) (i : ℕ) :
    upperChild comp h i ≠ 0 ∧ (upperChild comp h i - 1) / 2 = i := by
  unfold upperChild
  split <;> omega

/-- The chosen child belongs above its sibling, or beside it. -/
theorem upperChild_sibling (hp : Partial comp h) (hj : j ≠ 0) (hji : (j - 1) / 2 = i)
    (hne : j ≠ upperChild comp h i) : lower comp h (upperChild comp h i) j = false := by
  unfold upperChild at hne ⊢
  split at hne
  next hright =>
    rw [if_pos hright]
    have hleft : j = 2 * i + 1 := by omega
    rw [hleft]
    exact hright.2
  next hright =>
    rw [if_neg hright]
    have hj' : j = 2 * i + 2 := by omega
    rw [hj']
    by_cases hlen : 2 * i + 2 < h.length
    · have hl : lower comp h (2 * i + 2) (2 * i + 1) = true :=
        eq_true_of_ne_false (fun he => hright ⟨hlen, he⟩)
      exact hp.asymm _ _ (by omega) hl
    · exact lower_eq_false_of_le (by omega)

theorem DownOrdered.move (ho : DownOrdered comp h i) (hp : Partial comp h)
    (hl : lower comp h i (upperChild comp h i) = true) :
    DownOrdered comp (BinaryHeap.swap h i (upperChild comp h i)) (upperChild comp h i) := by
  obtain ⟨hilt, hclt⟩ := lower_lt hl
  obtain ⟨hc0, hci⟩ := @upperChild_parent α comp h i
  have hsibling := @upperChild_sibling α comp h i
  obtain ⟨c, hc⟩ : ∃ c, c = upperChild comp h i := ⟨_, rfl⟩
  rw [← hc] at hl hclt hc0 hci hsibling ⊢
  have hic : i < c := by omega
  refine ⟨fun j hj hjc => ?_, fun j hj hjc _ => ?_⟩
  · rw [lower_swap hilt hclt]
    by_cases hjc' : j = c
    · rw [hjc', hci, Equiv.swap_apply_left, Equiv.swap_apply_right]
      exact hp.asymm i c (by omega) hl
    · by_cases hji : j = i
      · rw [hji, Equiv.swap_apply_left, Equiv.swap_apply_of_ne_of_ne (by omega) (by omega)]
        exact ho.grand c hc0 hci (by omega)
      · rw [Equiv.swap_apply_of_ne_of_ne hji hjc']
        by_cases hpar : (j - 1) / 2 = i
        · rw [hpar, Equiv.swap_apply_left]
          exact hsibling hp hj hpar hjc'
        · rw [Equiv.swap_apply_of_ne_of_ne hpar hjc]
          exact ho.except j hj hpar
  · have hkept := ho.except j hj (by omega)
    rw [hjc] at hkept
    rw [lower_swap hilt hclt, hci, Equiv.swap_apply_left,
      Equiv.swap_apply_of_ne_of_ne (by omega) (by omega)]
    exact hkept

theorem siftDown_ordered (ho : DownOrdered comp h i) (hp : Partial comp h) (hw : Weak comp h) :
    Ordered comp (siftDown comp h i) := by
  fun_induction siftDown comp h i with
  | case1 h i hl ih =>
    obtain ⟨hilt, hclt⟩ := lower_lt hl
    exact ih (ho.move hp hl) (hp.swap hilt hclt) (hw.swap hilt hclt)
  | case2 h i hl =>
    intro j hj
    by_cases hji : (j - 1) / 2 = i
    · rw [hji]
      by_cases hjc : j = upperChild comp h i
      · rw [hjc]
        exact eq_false_of_ne_true hl
      · -- the chosen child tells the element and the other child apart
        by_contra hij
        have hij' := eq_true_of_ne_false hij
        have hjlt := (lower_lt hij').2
        have hclt : upperChild comp h i < h.length := by
          have hc := @upperChild_parent α comp h i
          unfold upperChild at hc hjc ⊢
          split at hjc <;> omega
        have hweak := hw i (upperChild comp h i) j (by omega) hclt hij'
        simp [hl, upperChild_sibling hp hj hji hjc] at hweak
    · exact ho.except j hj hji

end SiftDown

section Root

/-- The root belongs below no element, given that elements are told apart where
there are enough of them to need it. -/
theorem Ordered.root (ho : Ordered comp h) (hw : 3 < h.length → Weak comp h) (hj : j ≠ 0) :
    lower comp h 0 j = false := by
  induction j using Nat.strongRecOn with
  | ind j ih =>
    have hparent := ho j hj
    by_cases hp : (j - 1) / 2 = 0
    · rw [hp] at hparent
      exact hparent
    · have hroot := ih ((j - 1) / 2) (by omega) hp
      by_contra hne
      have hl := eq_true_of_ne_false hne
      have hlt := (lower_lt hl).2
      have hweak := hw (by omega) 0 ((j - 1) / 2) j (Ne.symm hj) (by omega) hl
      simp [hroot, hparent] at hweak

theorem getElem?_append_of_ne (x : α) (hi : i ≠ h.length) : (h ++ [x])[i]? = h[i]? := by
  by_cases hlt : i < h.length
  · rw [List.getElem?_append_left hlt]
  · have hlen : (h ++ [x]).length = h.length + 1 := by simp
    rw [List.getElem?_eq_none (by omega), List.getElem?_eq_none (by omega)]

theorem lower_append_of_ne (x : α) (hi : i ≠ h.length) (hj : j ≠ h.length) :
    lower comp (h ++ [x]) i j = lower comp h i j := by
  rw [lower, lower, getElem?_append_of_ne x hi, getElem?_append_of_ne x hj]

theorem push_ordered (ho : Ordered comp h) {x : α} (hp : Partial comp (h ++ [x]))
    (hw : WeakExcept comp (h ++ [x]) h.length) : Ordered comp (push comp h x) := by
  refine siftUp_ordered ⟨fun j hj hjl => ?_, fun j hj hjl _ => ?_⟩ hp hw
  · by_cases hlt : j < h.length
    · rw [lower_append_of_ne x (by omega) hjl]
      exact ho j hj
    · apply lower_eq_false_of_le
      rw [List.length_append, List.length_singleton]
      omega
  · apply lower_eq_false_of_le
    rw [List.length_append, List.length_singleton]
    omega

theorem pop_ordered {x : α} (ho : Ordered comp (x :: h))
    (hp : ∀ h', h'.Perm h → Partial comp h') (hw : ∀ h', h'.Perm h → Weak comp h') :
    Ordered comp (pop comp (x :: h)) := by
  rcases h.eq_nil_or_concat with rfl | ⟨t, y, rfl⟩
  · rw [pop_singleton]
    exact fun j _ => lower_eq_false_of_le (Nat.zero_le j)
  · rw [List.concat_eq_append] at ho hp hw
    have hperm : (y :: t).Perm (t ++ [y]) := (List.perm_append_singleton y t).symm
    rw [List.concat_eq_append, pop_concat]
    refine siftDown_ordered ⟨fun j hj hpar => ?_, fun j _ _ hne => absurd rfl hne⟩
      (hp _ hperm) (hw _ hperm)
    -- past the root the two lists agree as far as the shorter one goes
    have hsame : ∀ {k}, k ≠ 0 → k < (y :: t).length → (x :: (t ++ [y]))[k]? = (y :: t)[k]? := by
      intro k hk hlt
      obtain ⟨k, rfl⟩ := Nat.exists_eq_succ_of_ne_zero hk
      rw [List.length_cons] at hlt
      rw [List.getElem?_cons_succ, List.getElem?_cons_succ, List.getElem?_append_left (by omega)]
    by_contra hne
    have hl := eq_true_of_ne_false hne
    have hlt := lower_lt hl
    rw [lower, ← hsame hpar hlt.1, ← hsame hj hlt.2] at hl
    have hold := ho j hj
    rw [lower, hl] at hold
    cases hold

end Root

section Members

theorem ne_of_ne (hnd : h.Nodup) {x y : α} (hx : h[i]? = some x) (hy : h[j]? = some y)
    (hij : i ≠ j) : x ≠ y := by
  obtain ⟨hi, rfl⟩ := List.getElem?_eq_some_iff.mp hx
  obtain ⟨hj, rfl⟩ := List.getElem?_eq_some_iff.mp hy
  exact fun he => hij (hnd.getElem_inj_iff.mp he)

theorem partial_of_mem (hnd : h.Nodup)
    (hanti : ∀ x ∈ h, ∀ y ∈ h, comp x y = true → comp y x = true → x = y)
    (htrans : ∀ x ∈ h, ∀ y ∈ h, ∀ z ∈ h, comp x y = true → comp y z = true → comp x z = true) :
    Partial comp h where
  asymm i j hij hl := by
    obtain ⟨x, y, hx, hy, hxy⟩ := lower_iff.mp hl
    by_contra hne
    obtain ⟨y', x', hy', hx', hyx⟩ := lower_iff.mp (eq_true_of_ne_false hne)
    obtain rfl : x = x' := Option.some.inj (hx.symm.trans hx')
    obtain rfl : y = y' := Option.some.inj (hy.symm.trans hy')
    have he := hanti x (List.mem_of_getElem? hx) y (List.mem_of_getElem? hy) hxy hyx
    exact ne_of_ne hnd hx hy hij he
  trans i j k hij hjk := by
    obtain ⟨x, y, hx, hy, hxy⟩ := lower_iff.mp hij
    obtain ⟨y', z, hy', hz, hyz⟩ := lower_iff.mp hjk
    obtain rfl : y = y' := Option.some.inj (hy.symm.trans hy')
    exact lower_iff.mpr ⟨x, z, hx, hz, htrans x (List.mem_of_getElem? hx) y
      (List.mem_of_getElem? hy) z (List.mem_of_getElem? hz) hxy hyz⟩

theorem weak_of_mem (hnd : h.Nodup) (hweak : ∀ x ∈ h, ∀ y ∈ h, ∀ z ∈ h, x ≠ z →
    comp x z = true → comp x y = true ∨ comp y z = true) : Weak comp h := by
  intro a b c hac hb hl
  obtain ⟨x, z, hx, hz, hxz⟩ := lower_iff.mp hl
  have hy := List.getElem?_eq_getElem hb
  rcases hweak x (List.mem_of_getElem? hx) _ (List.getElem_mem hb) z (List.mem_of_getElem? hz)
    (ne_of_ne hnd hx hz hac) hxz with hxy | hyz
  · exact .inl (lower_iff.mpr ⟨x, _, hx, hy, hxy⟩)
  · exact .inr (lower_iff.mpr ⟨_, z, hy, hz, hyz⟩)

/-- An element that is about to sift up may itself be told apart from nothing. -/
theorem weakExcept_of_mem {x : α} (hnd : h.Nodup) (hweak : ∀ x ∈ h, ∀ y ∈ h, ∀ z ∈ h, x ≠ z →
    comp x z = true → comp x y = true ∨ comp y z = true) :
    WeakExcept comp (h ++ [x]) h.length := by
  intro a b c ha hb hc hac hlt hl
  rw [List.length_append, List.length_singleton] at hlt
  rw [lower_append_of_ne x ha hc] at hl
  rw [lower_append_of_ne x ha hb, lower_append_of_ne x hb hc]
  exact weak_of_mem hnd hweak a b c hac (by omega) hl

theorem push_eq_append {x : α}
    (hl : h ≠ [] → lower comp (h ++ [x]) ((h.length - 1) / 2) h.length = false) :
    push comp h x = h ++ [x] := by
  by_cases hnil : h = []
  · subst hnil
    rw [push, siftUp, List.length_nil, if_pos rfl]
  · have hlen : h.length ≠ 0 := fun he => hnil (List.length_eq_zero_iff.mp he)
    rw [push, siftUp, if_neg hlen, hl hnil, if_neg Bool.false_ne_true]

end Members

end BinaryHeap
