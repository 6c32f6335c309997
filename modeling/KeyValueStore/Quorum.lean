import Mathlib.Data.Fintype.Card
import Mathlib.Data.Fintype.EquivFin
import Mathlib.Data.Finset.Card

/-! Majorities of a finite set of parties, and the replies that a caller waits for. -/

namespace KeyValueStore

section Quorum

variable {α : Type*} [Fintype α]

def Majority (q : Finset α) : Prop := Fintype.card α / 2 + 1 ≤ q.card

instance (q : Finset α) : Decidable (Majority q) := inferInstanceAs (Decidable (_ ≤ _))

theorem Majority.mono {p q : Finset α} (h : Majority p) (hs : p ⊆ q) : Majority q :=
  h.trans (Finset.card_le_card hs)

variable [DecidableEq α]

theorem Majority.inter {p q : Finset α} (hp : Majority p) (hq : Majority q) :
    ∃ a, a ∈ p ∧ a ∈ q := by
  by_contra hno
  have hd : Disjoint p q := Finset.disjoint_left.mpr (fun a ha hb => hno ⟨a, ha, hb⟩)
  have hc : (p ∪ q).card = p.card + q.card := Finset.card_union_of_disjoint hd
  have hle : (p ∪ q).card ≤ Fintype.card α := Finset.card_le_univ _
  unfold Majority at hp hq
  omega

theorem Majority.nonempty {q : Finset α} (h : Majority q) : ∃ a, a ∈ q := by
  obtain ⟨a, ha, _⟩ := h.inter h
  exact ⟨a, ha⟩

omit [DecidableEq α] in
theorem majority_univ [Nonempty α] : Majority (Finset.univ : Finset α) := by
  have hpos : 0 < Fintype.card α := Fintype.card_pos
  rw [Majority, Finset.card_univ]
  omega

theorem majority_insert {a : α} {l : List α} (hnd : l.Nodup) (ha : a ∉ l)
    (hl : Fintype.card α / 2 ≤ l.length) : Majority (insert a l.toFinset) := by
  have hm : a ∉ l.toFinset := by simpa using ha
  rw [Majority, Finset.card_insert_of_notMem hm, List.toFinset_card_of_nodup hnd]
  omega

theorem majority_toFinset {l : List α} (hnd : l.Nodup)
    (hl : Fintype.card α / 2 + 1 ≤ l.length) : Majority l.toFinset := by
  rw [Majority, List.toFinset_card_of_nodup hnd]
  exact hl

end Quorum

section Collected

variable {ι α : Type*} {need : ℕ} {replyFrom : ι → Option α} {order : List ι} {vec : List α}

/-- The wait for replies from enough parties, in the order in which they came. -/
theorem collected_spec
    [Decidable (order.Nodup ∧ need ≤ order.length ∧ ∀ a ∈ order, (replyFrom a).isSome)]
    (h : (if order.Nodup ∧ need ≤ order.length ∧ ∀ a ∈ order, (replyFrom a).isSome then
      some (order.filterMap replyFrom) else none) = some vec) :
    (order.Nodup ∧ need ≤ order.length) ∧ (∀ a ∈ order, ∃ r ∈ vec, replyFrom a = some r) ∧
      ∀ r ∈ vec, ∃ a ∈ order, replyFrom a = some r := by
  split at h
  next hif =>
    obtain rfl := Option.some.inj h
    refine ⟨⟨hif.1, hif.2.1⟩, fun a ha => ?_, fun r hr => List.mem_filterMap.mp hr⟩
    obtain ⟨r, hr⟩ := Option.isSome_iff_exists.mp (hif.2.2 a ha)
    exact ⟨r, List.mem_filterMap.mpr ⟨a, ha, hr⟩, hr⟩
  next => simp at h

end Collected

end KeyValueStore
