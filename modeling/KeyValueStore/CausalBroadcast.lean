import Mathlib.Data.Nat.Basic
import Mathlib.Logic.Function.Basic
import Mathlib.Order.Basic
import Mathlib.Tactic.Common

/-! Messages stamped with vector clocks. A clock counts, for each sender, how
many of its messages came; a message's stamp counts what its sender had counted,
itself included. -/

/-- Messages `M` of senders `ι`. -/
structure Stamping (ι M : Type*) where
  sender : M → ι
  stamp : M → ι → ℕ

namespace Stamping

variable {ι M : Type*} (S : Stamping ι M)

/-- The number of a message among those of its sender. -/
def index (m : M) : ℕ := S.stamp m (S.sender m)

def Counts (t : ι → ℕ) (m : M) : Prop := S.index m ≤ t (S.sender m)

/-- `m` is its sender's next message, and all else that its stamp counts came. -/
def Deliverable (t : ι → ℕ) (m : M) : Prop :=
  (∀ k, k ≠ S.sender m → S.stamp m k ≤ t k) ∧ S.index m = t (S.sender m) + 1

/-- What `t` counts was issued, and `t` counts whatever it depends on. -/
def Closed (issued : M → Prop) (t : ι → ℕ) : Prop :=
  ∀ k c, 0 < c → c ≤ t k → ∃ m, issued m ∧ S.sender m = k ∧ S.index m = c ∧ S.stamp m ≤ t

structure WellStamped (issued : M → Prop) : Prop where
  pos : ∀ m, issued m → 0 < S.index m
  inj : ∀ m m', issued m → issued m' → S.sender m = S.sender m' → S.index m = S.index m' → m = m'
  closed : ∀ m, issued m → S.Closed issued (S.stamp m)

section Delivery

variable {S} {issued issued' : M → Prop} {t : ι → ℕ} {m m' : M}

theorem Closed.mono (h : S.Closed issued t) (hle : ∀ m, issued m → issued' m) :
    S.Closed issued' t := by
  intro k c hc hle'
  obtain ⟨m, hm, hrest⟩ := h k c hc hle'
  exact ⟨m, hle m hm, hrest⟩

theorem closed_zero : S.Closed issued (fun _ => 0) := by
  intro k c hc hle
  exact absurd hle (Nat.not_le.mpr hc)

theorem Counts.mono {u : ι → ℕ} (h : S.Counts t m) (hle : t ≤ u) : S.Counts u m :=
  Nat.le_trans h (hle _)

theorem Deliverable.counts (h : S.Deliverable t m) (hw : S.WellStamped issued) (hm : issued m)
    (hm' : issued m') (hle : S.Counts (S.stamp m) m') (hne : m' ≠ m) : S.Counts t m' := by
  by_cases hk : S.sender m' = S.sender m
  · have hindex : S.index m' ≤ S.index m := by simpa [Counts, index, hk] using hle
    have hdiff : S.index m' ≠ S.index m := fun he => hne (hw.inj _ _ hm' hm hk he)
    have := h.2
    rw [Counts, hk]
    omega
  · exact Nat.le_trans hle (h.1 _ hk)

/-- A message is deliverable when no other one that is still missing comes
before it. -/
theorem deliverable_iff (hw : S.WellStamped issued) (hm : issued m) (hnew : ¬ S.Counts t m) :
    S.Deliverable t m ↔
      ∀ m', issued m' → ¬ S.Counts t m' → S.stamp m' ≤ S.stamp m → m' = m := by
  constructor
  · intro h m' hm' hmiss hle
    by_contra hne
    exact hmiss (h.counts hw hm hm' (hle _) hne)
  intro h
  -- every entry of the stamp that exceeds `t` belongs to a missing message
  have hfound : ∀ k c, t k < c → c ≤ S.stamp m k → S.sender m = k ∧ S.index m = c := by
    intro k c htc hc
    obtain ⟨m', hm', hk, hindex, hle⟩ := hw.closed m hm k c (by omega) hc
    have hmiss : ¬ S.Counts t m' := by
      rw [Counts, hk, hindex]
      omega
    obtain rfl := h m' hm' hmiss hle
    exact ⟨hk, hindex⟩
  refine ⟨fun k hk => ?_, ?_⟩
  · by_contra hgt
    exact hk (hfound k _ (Nat.lt_of_not_le hgt) (Nat.le_refl _)).1.symm
  · have hgt : t (S.sender m) < S.index m := Nat.lt_of_not_le hnew
    exact (hfound (S.sender m) _ (Nat.lt_succ_self _) hgt).2

end Delivery

section Clock

variable {S} [DecidableEq ι] {issued issued' : M → Prop} {t : ι → ℕ} {m : M}

theorem Closed.update (h : S.Closed issued t) (hm : issued m)
    (hstamp : ∀ k, k ≠ S.sender m → S.stamp m k ≤ t k)
    (hindex : S.index m = t (S.sender m) + 1) :
    S.Closed issued (Function.update t (S.sender m) (S.index m)) := by
  have hle : t ≤ Function.update t (S.sender m) (S.index m) := by
    intro k
    by_cases hk : k = S.sender m
    · subst hk
      simp [hindex]
    · simp [hk]
  intro k c hc hck
  by_cases hnew : k = S.sender m ∧ c = S.index m
  · refine ⟨m, hm, hnew.1.symm, hnew.2.symm, fun k' => ?_⟩
    by_cases hk' : k' = S.sender m
    · subst hk'
      simp [index]
    · simpa [hk'] using hstamp k' hk'
  · have hold : c ≤ t k := by
      by_cases hk : k = S.sender m
      · subst hk
        have : c ≤ S.index m := by simpa using hck
        have : c ≠ S.index m := fun he => hnew ⟨rfl, he⟩
        omega
      · simpa [hk] using hck
    obtain ⟨m', hm', hk, hi, hstamp'⟩ := h k c hc hold
    exact ⟨m', hm', hk, hi, hstamp'.trans hle⟩

theorem Closed.advance (h : S.Closed issued t) (hm : issued m) (hd : S.Deliverable t m) :
    S.Closed issued (Function.update t (S.sender m) (S.index m)) := h.update hm hd.1 hd.2

theorem WellStamped.issue (hw : S.WellStamped issued) (hc : S.Closed issued t)
    (hall : ∀ m', issued m' → S.sender m' = S.sender m → S.Counts t m')
    (hstamp : S.stamp m = Function.update t (S.sender m) (t (S.sender m) + 1))
    (hissued : ∀ m', issued' m' ↔ m' = m ∨ issued m') :
    S.WellStamped issued' ∧ S.Closed issued' (S.stamp m) := by
  have hindex : S.index m = t (S.sender m) + 1 := by simp [index, hstamp]
  have hle : ∀ m', issued m' → issued' m' := fun m' hm' => (hissued m').mpr (.inr hm')
  have hnew : ∀ m', issued m' → S.sender m' = S.sender m → S.index m' ≠ S.index m := by
    intro m' hm' hk he
    have := hall m' hm' hk
    rw [Counts, hk] at this
    omega
  have hclosed : S.Closed issued' (S.stamp m) := by
    have hu := (hc.mono hle).update ((hissued m).mpr (.inl rfl))
      (fun k hk => by simp [hstamp, hk]) hindex
    rwa [hindex, ← hstamp] at hu
  refine ⟨⟨fun m' hm' => ?_, fun m₁ m₂ h₁ h₂ hk hi => ?_, fun m' hm' => ?_⟩, hclosed⟩
  · rcases (hissued m').mp hm' with rfl | hm'
    · omega
    · exact hw.pos m' hm'
  · rcases (hissued m₁).mp h₁ with rfl | h₁ <;> rcases (hissued m₂).mp h₂ with rfl | h₂
    · rfl
    · exact absurd hi.symm (hnew m₂ h₂ hk.symm)
    · exact absurd hi (hnew m₁ h₁ hk)
    · exact hw.inj m₁ m₂ h₁ h₂ hk hi
  · rcases (hissued m').mp hm' with rfl | hm'
    · exact hclosed
    · exact (hw.closed m' hm').mono hle

end Clock

end Stamping
