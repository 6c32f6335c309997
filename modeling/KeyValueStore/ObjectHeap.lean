import Mathlib.Data.Finset.Card
import Mathlib.Data.List.Forall2
import Mathlib.Data.Nat.Notation
import Mathlib.Tactic.Common

/-! Objects behind pointers. An address is given out once, and what is read, written
or deleted at the address of a deleted object is undefined. `Owns` says which object
each place of a program points to: no two places share one, and those that neither a
place nor the running function points to are lost. -/

structure ObjectHeap (α : Type*) where
  cell : ℕ → Option α
  next : ℕ
  unused : ∀ p, next ≤ p → cell p = none

namespace ObjectHeap

variable {α β π : Type*}

def empty : ObjectHeap α := ⟨fun _ => none, 0, fun _ _ => rfl⟩

/-- New objects, at the addresses from `next` on. -/
def newAll (h : ObjectHeap α) (as : List α) : ObjectHeap α where
  cell p := if p < h.next then h.cell p else as[p - h.next]?
  next := h.next + as.length
  unused p hp := by
    rw [if_neg (by omega)]
    exact List.getElem?_eq_none (by omega)

def new (h : ObjectHeap α) (a : α) : ObjectHeap α := h.newAll [a]

/-- The addresses hold these objects. -/
def Holds (h : ObjectHeap α) (ps : List ℕ) (as : List α) : Prop :=
  List.Forall₂ (fun p a => h.cell p = some a) ps as

def addresses (h : ObjectHeap α) (n : ℕ) : List ℕ := List.range' h.next n

def modify (h : ObjectHeap α) (p : ℕ) (f : α → α) : Option (ObjectHeap α) :=
  match hp : h.cell p with
  | none => none
  | some a => some
      { cell := Function.update h.cell p (some (f a))
        next := h.next
        unused := fun q hq => by
          have hne : q ≠ p := fun he => by rw [← he, h.unused q hq] at hp; cases hp
          rw [Function.update_of_ne hne, h.unused q hq] }

/-- The heap without the objects at some addresses. -/
def without (h : ObjectHeap α) (D : Finset ℕ) : ObjectHeap α where
  cell p := if p ∈ D then none else h.cell p
  next := h.next
  unused p hp := by rw [h.unused p hp, ite_self]

def delete (h : ObjectHeap α) (p : ℕ) : Option (ObjectHeap α) :=
  (h.cell p).map fun _ => h.without {p}

section Cells

variable {h h' : ObjectHeap α} {p q : ℕ} {a : α} {f : α → α} {as : List α} {D D' : Finset ℕ}

theorem lt_next (hp : h.cell p = some a) : p < h.next :=
  Nat.lt_of_not_le (fun hle => by rw [h.unused p hle] at hp; cases hp)

theorem newAll_cell_of_lt (hp : p < h.next) : (h.newAll as).cell p = h.cell p := if_pos hp

theorem newAll_cell_of_some (hp : h.cell p = some a) : (h.newAll as).cell p = some a :=
  (newAll_cell_of_lt (lt_next hp)).trans hp

theorem newAll_cell_add (i : ℕ) : (h.newAll as).cell (h.next + i) = as[i]? := by
  have hle : ¬ h.next + i < h.next := by omega
  simp [newAll, hle]

theorem new_cell_next : (h.new a).cell h.next = some a := newAll_cell_add 0

theorem mem_addresses {n : ℕ} : p ∈ h.addresses n ↔ h.next ≤ p ∧ p < h.next + n :=
  List.mem_range'_1

theorem addresses_nodup (n : ℕ) : (h.addresses n).Nodup := List.nodup_range'

theorem addresses_getElem? (n i : ℕ) :
    (h.addresses n)[i]? = if i < n then some (h.next + i) else none := by
  split
  next hi => simp [addresses, hi]
  next hi => simp [addresses, hi]

theorem holds_newAll (h : ObjectHeap α) (as : List α) :
    (h.newAll as).Holds (h.addresses as.length) as := by
  rw [Holds, List.forall₂_iff_get]
  refine ⟨by simp [addresses], fun i hi hi' => ?_⟩
  simp [addresses, newAll_cell_add, hi']

theorem exists_modify (hp : h.cell p = some a) (f : α → α) : ∃ h', h.modify p f = some h' ∧
    h'.next = h.next ∧ h'.cell p = some (f a) ∧ ∀ q ≠ p, h'.cell q = h.cell q := by
  unfold modify
  split
  next he => rw [he] at hp; cases hp
  next b he =>
    obtain rfl := Option.some.inj (he.symm.trans hp)
    exact ⟨_, rfl, rfl, Function.update_self .., fun q hq => Function.update_of_ne hq ..⟩

theorem delete_of_cell (hp : h.cell p = some a) : h.delete p = some (h.without {p}) := by
  rw [delete, hp, Option.map_some]

theorem without_cell_of_notMem (hp : p ∉ D) : (h.without D).cell p = h.cell p := if_neg hp

theorem without_empty (h : ObjectHeap α) : h.without ∅ = h := by
  simp [without]

theorem without_without (h : ObjectHeap α) (D D' : Finset ℕ) :
    (h.without D).without D' = h.without (D ∪ D') := by
  simp only [without, mk.injEq, and_true]
  funext p
  by_cases hd : p ∈ D <;> by_cases hd' : p ∈ D' <;> simp [hd, hd']

theorem Holds.isSome {ps : List ℕ} (hh : h.Holds ps as) (hp : p ∈ ps) : (h.cell p).isSome := by
  induction hh with
  | nil => simp at hp
  | cons ha _ ih =>
    rcases List.mem_cons.mp hp with rfl | hp
    · rw [ha]
      rfl
    · exact ih hp

theorem Holds.of_without {ps : List ℕ} (hh : (h.without D).Holds ps as) : h.Holds ps as :=
  hh.imp fun p a hp => by
    by_cases hD : p ∈ D
    · simp [ObjectHeap.without, hD] at hp
    · rwa [without_cell_of_notMem hD] at hp

theorem Holds.without {ps : List ℕ} (hh : h.Holds ps as) (hD : ∀ p ∈ ps, p ∉ D) :
    (h.without D).Holds ps as := by
  induction hh with
  | nil => exact .nil
  | cons hp _ ih =>
    exact .cons ((without_cell_of_notMem (hD _ List.mem_cons_self)).trans hp)
      (ih fun p hp => hD p (List.mem_cons_of_mem _ hp))

end Cells

/-- The places `own` point to the objects that `val` describes; the running function
points to the objects `F`, and `n` objects are lost. -/
structure Owns (R : α → β → Prop) (h : ObjectHeap α) (own : π → Option ℕ) (val : π → Option β)
    (F : Finset ℕ) (n : ℕ) : Prop where
  held : ∀ x p, own x = some p → ∃ a b, h.cell p = some a ∧ val x = some b ∧ R a b
  absent : ∀ x, own x = none → val x = none
  apart : ∀ x y p, own x = some p → own y = some p → x = y
  live : ∀ p ∈ F, (h.cell p).isSome
  floating : ∀ p ∈ F, ∀ x, own x ≠ some p
  lost : ∃ L : Finset ℕ, L.card = n ∧
    ∀ p, p ∈ L ↔ (h.cell p).isSome ∧ p ∉ F ∧ ∀ x, own x ≠ some p

namespace Owns

variable {R : α → β → Prop} {h h' : ObjectHeap α} {own own' : π → Option ℕ}
  {val val' : π → Option β} {F G : Finset ℕ} {n p : ℕ} {x : π} {a : α} {b b' : β} {f : α → α}

theorem empty : Owns R (.empty : ObjectHeap α) (fun _ : π => none) (fun _ => none) ∅ 0 where
  held _ _ hx := by cases hx
  absent _ _ := rfl
  apart _ _ _ hx := by cases hx
  live _ hp := by simp at hp
  floating _ hp := by simp at hp
  lost := ⟨∅, rfl, fun p => by simp [ObjectHeap.empty]⟩

theorem lt_next (ho : Owns R h own val F n) (hx : own x = some p) : p < h.next := by
  obtain ⟨a, b, ha, _⟩ := ho.held x p hx
  exact ObjectHeap.lt_next ha

theorem congr (ho : Owns R h own val F n) (hown : ∀ x, own' x = own x)
    (hval : ∀ x, val' x = val x) : Owns R h own' val' F n := by
  rwa [funext hown, funext hval]

theorem newAll (ho : Owns R h own val F n) (as : List α) :
    Owns R (h.newAll as) own val (F ∪ (h.addresses as.length).toFinset) n where
  held x p hx := by
    obtain ⟨a, b, ha, hab⟩ := ho.held x p hx
    exact ⟨a, b, newAll_cell_of_some ha, hab⟩
  absent := ho.absent
  apart := ho.apart
  live p hp := by
    rcases Finset.mem_union.mp hp with hp | hp
    · obtain ⟨a, ha⟩ := Option.isSome_iff_exists.mp (ho.live p hp)
      rw [newAll_cell_of_some ha]
      rfl
    · exact (h.holds_newAll as).isSome (List.mem_toFinset.mp hp)
  floating p hp x hx := by
    rcases Finset.mem_union.mp hp with hp | hp
    · exact ho.floating p hp x hx
    · have hle := (mem_addresses.mp (List.mem_toFinset.mp hp)).1
      have hlt := ho.lt_next hx
      omega
  lost := by
    obtain ⟨L, hcard, hL⟩ := ho.lost
    refine ⟨L, hcard, fun p => (hL p).trans ?_⟩
    rw [Finset.mem_union, List.mem_toFinset, mem_addresses]
    rcases Nat.lt_or_ge p h.next with hlt | hge
    · rw [newAll_cell_of_lt hlt]
      have hno : ¬ (h.next ≤ p ∧ p < h.next + as.length) := by omega
      simp [hno]
    · obtain ⟨i, rfl⟩ := Nat.exists_eq_add_of_le hge
      rw [newAll_cell_add, h.unused _ hge]
      by_cases hi : i < as.length <;> simp [hi]

theorem new (ho : Owns R h own val F n) (a : α) :
    Owns R (h.new a) own val (insert h.next F) n := by
  have hn := ho.newAll [a]
  rwa [show F ∪ (h.addresses [a].length).toFinset = insert h.next F by
    ext p; simp [addresses]] at hn

/-- A write through a place changes what that place holds and nothing else. -/
theorem modify (ho : Owns R h own val F n) (hx : own x = some p)
    (hf : ∀ a b, h.cell p = some a → val x = some b → R a b →
      ∃ b', val' x = some b' ∧ R (f a) b')
    (hval : ∀ y ≠ x, val' y = val y) :
    ∃ h', h.modify p f = some h' ∧ h'.cell p = (h.cell p).map f ∧
      (∀ q ≠ p, h'.cell q = h.cell q) ∧ Owns R h' own val' F n := by
  obtain ⟨a, b, ha, hb, hab⟩ := ho.held x p hx
  obtain ⟨b', hb', hab'⟩ := hf a b ha hb hab
  obtain ⟨h', hm, hn, hp, hq⟩ := exists_modify ha f
  refine ⟨h', hm, by rw [hp, ha, Option.map_some], hq, ?_⟩
  constructor
  case held =>
    intro y q hy
    by_cases hyx : y = x
    · subst hyx
      obtain rfl := Option.some.inj (hy.symm.trans hx)
      exact ⟨f a, b', hp, hb', hab'⟩
    · obtain ⟨c, d, hc, hd, hcd⟩ := ho.held y q hy
      have hne : q ≠ p := fun he => hyx (ho.apart y x p (he ▸ hy) hx)
      exact ⟨c, d, (hq q hne).trans hc, (hval y hyx).trans hd, hcd⟩
  case absent =>
    intro y hy
    have hyx : y ≠ x := fun he => by rw [he, hx] at hy; cases hy
    rw [hval y hyx, ho.absent y hy]
  case apart => exact ho.apart
  case live =>
    intro q hqF
    have hne : q ≠ p := fun he => ho.floating q hqF x (he ▸ hx)
    rw [hq q hne]
    exact ho.live q hqF
  case floating => exact ho.floating
  case lost =>
    obtain ⟨L, hcard, hL⟩ := ho.lost
    refine ⟨L, hcard, fun q => (hL q).trans ?_⟩
    by_cases he : q = p
    · subst he
      simp [hp, ha]
    · rw [hq q he]

theorem modify_floating (ho : Owns R h own val F n) (hF : p ∈ F) (ha : h.cell p = some a)
    (f : α → α) : ∃ h', h.modify p f = some h' ∧ h'.cell p = some (f a) ∧
      (∀ q ≠ p, h'.cell q = h.cell q) ∧ Owns R h' own val F n := by
  obtain ⟨h', hm, hn, hp, hq⟩ := exists_modify ha f
  refine ⟨h', hm, hp, hq, ?_⟩
  constructor
  case held =>
    intro y q hy
    obtain ⟨c, d, hc, hcd⟩ := ho.held y q hy
    have hne : q ≠ p := fun he => ho.floating p hF y (he ▸ hy)
    exact ⟨c, d, (hq q hne).trans hc, hcd⟩
  case absent => exact ho.absent
  case apart => exact ho.apart
  case live =>
    intro q hqF
    by_cases he : q = p
    · rw [he, hp]
      rfl
    · rw [hq q he]
      exact ho.live q hqF
  case floating => exact ho.floating
  case lost =>
    obtain ⟨L, hcard, hL⟩ := ho.lost
    refine ⟨L, hcard, fun q => (hL q).trans ?_⟩
    by_cases he : q = p
    · subst he
      simp [hF]
    · rw [hq q he]

theorem without (ho : Owns R h own val F n) (hG : G ⊆ F) :
    Owns R (h.without G) own val (F \ G) n where
  held x p hx := by
    obtain ⟨a, b, ha, hab⟩ := ho.held x p hx
    have hp : p ∉ G := fun hp => ho.floating p (hG hp) x hx
    exact ⟨a, b, (without_cell_of_notMem hp).trans ha, hab⟩
  absent := ho.absent
  apart := ho.apart
  live p hp := by
    obtain ⟨hpF, hpG⟩ := Finset.mem_sdiff.mp hp
    rw [without_cell_of_notMem hpG]
    exact ho.live p hpF
  floating p hp := ho.floating p (Finset.mem_sdiff.mp hp).1
  lost := by
    obtain ⟨L, hcard, hL⟩ := ho.lost
    refine ⟨L, hcard, fun p => (hL p).trans ?_⟩
    by_cases hp : p ∈ G
    · simp [ObjectHeap.without, hp, hG hp]
    · rw [without_cell_of_notMem hp, Finset.mem_sdiff]
      simp [hp]

theorem delete (ho : Owns R h own val F n) (hF : p ∈ F) (ha : h.cell p = some a) :
    ∃ h', h.delete p = some h' ∧ (∀ q ≠ p, h'.cell q = h.cell q) ∧
      Owns R h' own val (F.erase p) n := by
  refine ⟨_, delete_of_cell ha, fun q hq => without_cell_of_notMem (by simpa using hq), ?_⟩
  rw [← Finset.sdiff_singleton_eq_erase]
  exact ho.without (Finset.singleton_subset_iff.mpr hF)

theorem lose (ho : Owns R h own val F n) (hG : G ⊆ F) :
    Owns R h own val (F \ G) (n + G.card) where
  held := ho.held
  absent := ho.absent
  apart := ho.apart
  live p hp := ho.live p (Finset.mem_sdiff.mp hp).1
  floating p hp := ho.floating p (Finset.mem_sdiff.mp hp).1
  lost := by
    obtain ⟨L, hcard, hL⟩ := ho.lost
    have hd : Disjoint L G :=
      Finset.disjoint_left.mpr (fun p hp hq => ((hL p).mp hp).2.1 (hG hq))
    refine ⟨L ∪ G, by rw [Finset.card_union_of_disjoint hd, hcard], fun p => ?_⟩
    rw [Finset.mem_union, hL, Finset.mem_sdiff]
    by_cases hp : p ∈ G
    · simpa [hp, ho.live p (hG hp)] using ho.floating p (hG hp)
    · simp [hp]

theorem forget (ho : Owns R h own val F n) (hF : p ∈ F) :
    Owns R h own val (F.erase p) (n + 1) := by
  have hlose := ho.lose (Finset.singleton_subset_iff.mpr hF)
  rwa [Finset.sdiff_singleton_eq_erase, Finset.card_singleton] at hlose

/-- The place gives up what it points to. -/
theorem take (ho : Owns R h own val F n) (hx : own x = some p) (hx' : own' x = none)
    (hv' : val' x = none) (hrest : ∀ y ≠ x, own' y = own y ∧ val' y = val y) :
    Owns R h own' val' (insert p F) n := by
  have hown : ∀ {y q}, own' y = some q → y ≠ x ∧ own y = some q := fun {y q} hy => by
    have hne : y ≠ x := fun he => by rw [he, hx'] at hy; cases hy
    exact ⟨hne, (hrest y hne).1 ▸ hy⟩
  constructor
  case held =>
    intro y q hy
    rw [(hrest y (hown hy).1).2]
    exact ho.held y q (hown hy).2
  case absent =>
    intro y hy
    by_cases hyx : y = x
    · rw [hyx, hv']
    · rw [(hrest y hyx).2]
      exact ho.absent y ((hrest y hyx).1 ▸ hy)
  case apart => exact fun y z q hy hz => ho.apart y z q (hown hy).2 (hown hz).2
  case live =>
    intro q hq
    rcases Finset.mem_insert.mp hq with rfl | hq
    · obtain ⟨a, b, ha, _⟩ := ho.held x q hx
      rw [ha]
      rfl
    · exact ho.live q hq
  case floating =>
    intro q hq y hy
    rcases Finset.mem_insert.mp hq with rfl | hq
    · exact (hown hy).1 (ho.apart y x q (hown hy).2 hx)
    · exact ho.floating q hq y (hown hy).2
  case lost =>
    obtain ⟨L, hcard, hL⟩ := ho.lost
    refine ⟨L, hcard, fun q => (hL q).trans (and_congr_right fun _ => ?_)⟩
    rw [Finset.mem_insert, not_or]
    constructor
    · rintro ⟨hqF, hq⟩
      exact ⟨⟨fun he => hq x (he ▸ hx), hqF⟩, fun y hy => hq y (hown hy).2⟩
    · rintro ⟨⟨hqp, hqF⟩, hq⟩
      refine ⟨hqF, fun y hy => ?_⟩
      by_cases hyx : y = x
      · rw [hyx, hx] at hy
        exact hqp (Option.some.inj hy).symm
      · exact hq y ((hrest y hyx).1.trans hy)

/-- Empty places take over objects of the running function, one each. -/
theorem adopt (ho : Owns R h own val F n) (hG : G ⊆ F)
    (hold : ∀ y q, own y = some q → own' y = some q ∧ val' y = val y)
    (hnew : ∀ y q, own y = none → own' y = some q →
      q ∈ G ∧ ∃ a b, h.cell q = some a ∧ val' y = some b ∧ R a b)
    (habsent : ∀ y, own' y = none → val' y = none)
    (hone : ∀ y z q, own y = none → own z = none → own' y = some q → own' z = some q → y = z)
    (hcover : ∀ q ∈ G, ∃ y, own' y = some q) : Owns R h own' val' (F \ G) n := by
  have hcases : ∀ {y q}, own' y = some q → own y = some q ∨ own y = none ∧ q ∈ G :=
    fun {y q} hy => by
      cases hy' : own y with
      | none => exact .inr ⟨rfl, (hnew y q hy' hy).1⟩
      | some r => exact .inl ((hold y r hy').1 ▸ hy)
  constructor
  case held =>
    intro y q hy
    rcases hcases hy with hy' | ⟨hy', _⟩
    · rw [(hold y q hy').2]
      exact ho.held y q hy'
    · exact (hnew y q hy' hy).2
  case absent => exact habsent
  case apart =>
    intro y z q hy hz
    rcases hcases hy with hy' | ⟨hy', hq⟩
    · rcases hcases hz with hz' | ⟨hz', hq⟩
      · exact ho.apart y z q hy' hz'
      · exact absurd hy' (ho.floating q (hG hq) y)
    · rcases hcases hz with hz' | ⟨hz', _⟩
      · exact absurd hz' (ho.floating q (hG hq) z)
      · exact hone y z q hy' hz' hy hz
  case live => exact fun q hq => ho.live q (Finset.mem_sdiff.mp hq).1
  case floating =>
    intro q hq y hy
    obtain ⟨hqF, hqG⟩ := Finset.mem_sdiff.mp hq
    rcases hcases hy with hy' | ⟨_, hqG'⟩
    · exact ho.floating q hqF y hy'
    · exact hqG hqG'
  case lost =>
    obtain ⟨L, hcard, hL⟩ := ho.lost
    refine ⟨L, hcard, fun q => (hL q).trans (and_congr_right fun _ => ?_)⟩
    rw [Finset.mem_sdiff, not_and_not_right]
    constructor
    · rintro ⟨hqF, hq⟩
      refine ⟨fun hqF' => absurd hqF' hqF, fun y hy => ?_⟩
      rcases hcases hy with hy' | ⟨_, hqG⟩
      · exact hq y hy'
      · exact hqF (hG hqG)
    · rintro ⟨hqF, hq⟩
      refine ⟨fun hqF' => ?_, fun y hy => hq y (hold y q hy).1⟩
      obtain ⟨y, hy⟩ := hcover q (hqF hqF')
      exact hq y hy

theorem put (ho : Owns R h own val F n) (hF : p ∈ F) (ha : h.cell p = some a)
    (hx : own x = none) (hx' : own' x = some p) (hv' : val' x = some b) (hab : R a b)
    (hrest : ∀ y ≠ x, own' y = own y ∧ val' y = val y) : Owns R h own' val' (F.erase p) n := by
  have hne : ∀ {y q}, own y = some q → y ≠ x := fun hy he => by rw [he, hx] at hy; cases hy
  have heq : ∀ {y q}, own y = none → own' y = some q → y = x := fun {y q} hy hy' => by
    by_contra hyx
    rw [(hrest y hyx).1, hy] at hy'
    cases hy'
  rw [← Finset.sdiff_singleton_eq_erase]
  refine ho.adopt (Finset.singleton_subset_iff.mpr hF) ?_ ?_ ?_ ?_ ?_
  · exact fun y q hy => ⟨(hrest y (hne hy)).1.trans hy, (hrest y (hne hy)).2⟩
  · intro y q hy hy'
    obtain rfl := heq hy hy'
    obtain rfl := Option.some.inj (hx'.symm.trans hy')
    exact ⟨Finset.mem_singleton_self p, a, b, ha, hv', hab⟩
  · intro y hy
    have hyx : y ≠ x := fun he => by rw [he, hx'] at hy; cases hy
    rw [(hrest y hyx).2]
    exact ho.absent y ((hrest y hyx).1 ▸ hy)
  · exact fun y z q hy hz hy' hz' => (heq hy hy').trans (heq hz hz').symm
  · intro q hq
    rw [Finset.mem_singleton.mp hq]
    exact ⟨x, hx'⟩

end Owns

end ObjectHeap
