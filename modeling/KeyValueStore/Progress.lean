import KeyValueStore.Execution
import Mathlib.Data.Nat.Notation

/-! Progress of a partial step function: what can be reached within a number of
admitted steps, and how such runs compose. -/

namespace KeyValueStore

section Progress

variable {σ α β : Type*} {step : σ → α → Option σ} {ok : σ → α → Prop}

/-- A run of at most so many admitted steps. -/
inductive ReachesIn (step : σ → α → Option σ) (ok : σ → α → Prop) : ℕ → σ → σ → Prop
  | refl (k : ℕ) (s : σ) : ReachesIn step ok k s s
  | head {k : ℕ} {s u t : σ} (a : α) (hok : ok s a) (hstep : step s a = some u)
      (h : ReachesIn step ok k u t) : ReachesIn step ok (k + 1) s t

/-- Some run of at most `k` admitted steps ends where `P` holds. -/
def Within (step : σ → α → Option σ) (ok : σ → α → Prop) (k : ℕ) (s : σ) (P : σ → Prop) : Prop :=
  ∃ t, ReachesIn step ok k s t ∧ P t

theorem ReachesIn.mono {k m : ℕ} {s t : σ} (h : ReachesIn step ok k s t) (hle : k ≤ m) :
    ReachesIn step ok m s t := by
  induction h generalizing m with
  | refl => exact .refl m _
  | head a hok hstep _ ih =>
    obtain ⟨m, rfl⟩ := Nat.exists_eq_add_of_lt (Nat.lt_of_succ_le hle)
    exact .head a hok hstep (ih (by omega))

theorem ReachesIn.trans {k m : ℕ} {s u t : σ} (h : ReachesIn step ok k s u)
    (h' : ReachesIn step ok m u t) : ReachesIn step ok (k + m) s t := by
  induction h with
  | refl k s => exact h'.mono (Nat.le_add_left m k)
  | @head k s u t a hok hstep _ ih =>
    rw [Nat.add_right_comm]
    exact .head a hok hstep (ih h')

theorem ReachesIn.reachable {k : ℕ} {s t : σ} (h : ReachesIn step ok k s t) :
    ReachableWhen step ok s t := by
  induction h with
  | refl => exact .refl
  | head a hok hstep _ ih => exact .head ⟨a, hok, hstep⟩ ih

namespace Within

variable {P Q : σ → Prop} {k m : ℕ} {s : σ}

theorem now (h : P s) : Within step ok k s P := ⟨s, .refl k s, h⟩

theorem after (a : α) (hok : ok s a) {u : σ} (hstep : step s a = some u)
    (h : Within step ok k u P) : Within step ok (k + 1) s P := by
  obtain ⟨t, hrun, ht⟩ := h
  exact ⟨t, .head a hok hstep hrun, ht⟩

theorem bind (h : Within step ok k s P) (hP : ∀ t, P t → Within step ok m t Q) :
    Within step ok (k + m) s Q := by
  obtain ⟨u, hrun, hu⟩ := h
  obtain ⟨t, hrun', ht⟩ := hP u hu
  exact ⟨t, hrun.trans hrun', ht⟩

theorem mono (h : Within step ok k s P) (hle : k ≤ m) (hP : ∀ t, P t → Q t) :
    Within step ok m s Q := by
  obtain ⟨t, hrun, ht⟩ := h
  exact ⟨t, hrun.mono hle, hP t ht⟩

theorem reached (h : Within step ok k s P) :
    Within step ok k s fun t => P t ∧ ReachableWhen step ok s t := by
  obtain ⟨t, hrun, ht⟩ := h
  exact ⟨t, hrun, ht, hrun.reachable⟩

/-- What can be brought about one thing after the other, each within `k` steps and
then to stay, can all be brought about. -/
theorem all {R : β → σ → Prop} (l : List β)
    (hone : ∀ s, P s → ∀ b ∈ l, Within step ok k s fun t => P t ∧ R b t ∧ ∀ c, R c s → R c t)
    (hs : P s) : Within step ok (k * l.length) s fun t => P t ∧ ∀ b ∈ l, R b t := by
  have hall : ∀ l' : List β, (∀ b ∈ l', b ∈ l) → ∀ s, P s →
      Within step ok (k * l'.length) s fun t => P t ∧ (∀ b ∈ l', R b t) ∧ ∀ c, R c s → R c t := by
    intro l'
    induction l' with
    | nil => exact fun _ s hs => now ⟨hs, by simp, fun _ h => h⟩
    | cons b l' ih =>
      intro hsub s hs
      have hb := hone s hs b (hsub b List.mem_cons_self)
      rw [List.length_cons, Nat.mul_succ, Nat.add_comm]
      refine hb.bind fun u hu => ?_
      refine (ih (fun c hc => hsub c (List.mem_cons_of_mem _ hc)) u hu.1).mono (Nat.le_refl _) ?_
      rintro t ⟨ht, hl, hkeep⟩
      refine ⟨ht, fun c hc => ?_, fun c hc => hkeep c (hu.2.2 c hc)⟩
      rcases List.mem_cons.mp hc with rfl | hc
      · exact hkeep c hu.2.1
      · exact hl c hc
  exact (hall l (fun _ h => h) s hs).mono (Nat.le_refl _) fun t ht => ⟨ht.1, ht.2.1⟩

/-- Induction on what is left to do. -/
theorem descend (rank : σ → ℕ)
    (h : ∀ s, P s → Q s ∨ Within step ok k s fun t => P t ∧ rank t < rank s) (hs : P s) :
    Within step ok (k * rank s) s Q := by
  induction hr : rank s using Nat.strongRecOn generalizing s with
  | ind r ih =>
    rcases h s hs with hq | hw
    · exact now hq
    · obtain ⟨u, hrun, hu, hlt⟩ := hw
      have hrest := ih (rank u) (hr ▸ hlt) hu rfl
      have hle : k + k * rank u ≤ k * r := by
        have hmul := Nat.mul_le_mul_left k (Nat.succ_le_of_lt (hr ▸ hlt))
        rw [Nat.mul_succ] at hmul
        omega
      exact Within.mono (bind (m := k * rank u) ⟨u, hrun, rfl⟩ fun t ht => ht ▸ hrest) hle fun _ h => h

end Within

end Progress

end KeyValueStore
