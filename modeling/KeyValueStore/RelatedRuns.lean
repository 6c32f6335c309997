import Mathlib.Data.Nat.Notation

/-! Runs of a partial step function that answers each input. Two systems whose steps are
related, or both undefined, have related runs, and what their steps cost adds up. -/

section Related

variable {α β γ δ : Type*} {P : α → β → Prop} {Q : γ → δ → Prop} {a : Option α} {b : Option β}

theorem Option.Rel.bind {f : α → Option γ} {g : β → Option δ} (h : Option.Rel P a b)
    (hfg : ∀ x y, P x y → Option.Rel Q (f x) (g y)) : Option.Rel Q (a.bind f) (b.bind g) := by
  cases h with
  | none => exact .none
  | some hxy => exact hfg _ _ hxy

theorem Option.Rel.bind_map {f : α → Option γ} {g : β → δ} (h : Option.Rel P a b)
    (hfg : ∀ x y, P x y → Option.Rel Q (f x) (Option.some (g y))) :
    Option.Rel Q (a.bind f) (b.map g) := by
  cases h with
  | none => exact .none
  | some hxy => exact hfg _ _ hxy

theorem Option.Rel.map {f : α → γ} {g : β → δ} (h : Option.Rel P a b)
    (hfg : ∀ x y, P x y → Q (f x) (g y)) : Option.Rel Q (a.map f) (b.map g) := by
  cases h with
  | none => exact .none
  | some hxy => exact .some (hfg _ _ hxy)

end Related

section Runs

variable {σ τ ι ο : Type*} {step : σ → ι → Option (σ × ο)} {step' : τ → ι → Option (τ × ο)}

def runOutputs (step : σ → ι → Option (σ × ο)) : σ → List ι → Option (σ × List ο)
  | s, [] => some (s, [])
  | s, a :: as => (step s a).bind fun x => (runOutputs step x.1 as).map fun y => (y.1, x.2 :: y.2)

theorem runOutputs_concat {s t u : σ} {as : List ι} {os : List ο} {a : ι} {o : ο}
    (h : runOutputs step s as = some (t, os)) (ha : step t a = some (u, o)) :
    runOutputs step s (as ++ [a]) = some (u, os ++ [o]) := by
  induction as generalizing s os with
  | nil =>
    obtain ⟨rfl, rfl⟩ := Prod.mk.inj (Option.some.inj h)
    simp [runOutputs, ha]
  | cons b as ih =>
    obtain ⟨x, hx, h⟩ := Option.bind_eq_some_iff.mp h
    obtain ⟨y, hy, he⟩ := Option.map_eq_some_iff.mp h
    obtain ⟨rfl, rfl⟩ := Prod.mk.inj he
    simp [runOutputs, hx, ih hy]

/-- What the steps of a run cost together. -/
def runCost (step : σ → ι → Option (σ × ο)) (cost : σ → ι → ℕ) : σ → List ι → ℕ
  | _, [] => 0
  | s, a :: as => cost s a + (step s a).elim 0 fun x => runCost step cost x.1 as

/-- `R s t n` relates the states after steps that cost `n` so far. -/
theorem runOutputs_related {R : σ → τ → ℕ → Prop} {cost : σ → ι → ℕ}
    (hstep : ∀ s t n a, R s t n → Option.Rel (fun x y => x.2 = y.2 ∧ R x.1 y.1 (n + cost s a))
      (step s a) (step' t a))
    {s : σ} {t : τ} {n : ℕ} (h : R s t n) (as : List ι) :
    Option.Rel (fun x y => x.2 = y.2 ∧ R x.1 y.1 (n + runCost step cost s as))
      (runOutputs step s as) (runOutputs step' t as) := by
  induction as generalizing s t n with
  | nil => exact .some ⟨rfl, h⟩
  | cons a as ih =>
    simp only [runOutputs, runCost]
    have hrel := hstep s t n a h
    generalize step s a = r, step' t a = r' at hrel ⊢
    cases hrel with
    | none => exact .none
    | @some x y hxy =>
      obtain ⟨hout, hxy⟩ := hxy
      refine (ih hxy).map fun v w hvw => ⟨by simp only [hout, hvw.1], ?_⟩
      rw [Option.elim_some, ← Nat.add_assoc]
      exact hvw.2

end Runs
