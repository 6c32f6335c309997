import Mathlib.Logic.Relation

/-! Executions of a partial step function. A guarded execution takes only
actions that the guard admits in the state before the step. -/

namespace KeyValueStore

section Execution

variable {σ α : Type*} {step : σ → α → Option σ} {ok ok' : σ → α → Prop}

def StepWhen (step : σ → α → Option σ) (ok : σ → α → Prop) (s t : σ) : Prop :=
  ∃ a, ok s a ∧ step s a = some t

abbrev ReachableWhen (step : σ → α → Option σ) (ok : σ → α → Prop) :=
  Relation.ReflTransGen (StepWhen step ok)

abbrev Reachable (step : σ → α → Option σ) := ReachableWhen step (fun _ _ => True)

/-- The induction rule for invariants: what holds at the start and is kept by
every admitted step from a state that was itself reached holds at the end. -/
theorem ReachableWhen.invariant {P : σ → Prop} {s t : σ} (h : ReachableWhen step ok s t)
    (hs : P s) (hstep : ∀ u a v, ReachableWhen step ok s u → P u → ok u a →
      step u a = some v → P v) : P t := by
  induction h with
  | refl => exact hs
  | tail hu hv ih =>
    obtain ⟨a, ha, he⟩ := hv
    exact hstep _ a _ hu ih ha he

/-- The same rule where a step may also use that the rest of the execution follows it. -/
theorem ReachableWhen.invariant_towards {P : σ → Prop} {s t : σ} (h : ReachableWhen step ok s t)
    (hs : P s) (hstep : ∀ u a v, ReachableWhen step ok s u → ReachableWhen step ok u t → P u →
      ok u a → step u a = some v → P v) : P t := by
  have htowards : ∀ u, ReachableWhen step ok u t → ReachableWhen step ok s u → P u → P t := by
    intro u hu
    induction hu using Relation.ReflTransGen.head_induction_on with
    | refl => exact fun _ hp => hp
    | @head u v huv hv ih =>
      intro hsu hp
      obtain ⟨a, ha, he⟩ := huv
      exact ih (hsu.tail ⟨a, ha, he⟩) (hstep u a v hsu (.head ⟨a, ha, he⟩ hv) hp ha he)
  exact htowards s h .refl hs

theorem ReachableWhen.mono {s t : σ} (h : ReachableWhen step ok s t)
    (hok : ∀ u a, ok u a → ok' u a) : ReachableWhen step ok' s t :=
  Relation.ReflTransGen.mono (fun _ _ ⟨a, ha, he⟩ => ⟨a, hok _ a ha, he⟩) _ _ h

/-- Runs a list of actions, stopping at the first that the guard refuses or
the step function does not define. -/
def runWhen (step : σ → α → Option σ) (ok : σ → α → Prop) [∀ s a, Decidable (ok s a)] :
    σ → List α → Option σ
  | s, [] => some s
  | s, a :: as => if ok s a then (step s a).bind (fun t => runWhen step ok t as) else none

def runActions (step : σ → α → Option σ) : σ → List α → Option σ
  | s, [] => some s
  | s, a :: as => (step s a).bind (fun t => runActions step t as)

theorem reachableWhen_of_runWhen [∀ s a, Decidable (ok s a)] {s t : σ} {as : List α}
    (h : runWhen step ok s as = some t) : ReachableWhen step ok s t := by
  induction as generalizing s with
  | nil =>
    simp only [runWhen, Option.some.injEq] at h
    exact h ▸ .refl
  | cons a as ih =>
    simp only [runWhen] at h
    split at h
    next ha =>
      obtain ⟨u, hu, hr⟩ := Option.bind_eq_some_iff.mp h
      exact .head ⟨a, ha, hu⟩ (ih hr)
    next => simp at h

theorem exists_of_run [∀ s a, Decidable (ok s a)] {P : σ → Prop} [DecidablePred P] {s : σ}
    {as : List α} (h : (runWhen step ok s as).any (fun t => decide (P t)) = true) :
    ∃ t, runWhen step ok s as = some t ∧ P t := by
  obtain ⟨t, ht, hp⟩ := (Option.any_eq_true _ _).mp h
  exact ⟨t, ht, of_decide_eq_true hp⟩

/-- One step of a run: the state before it, its action and the state after. -/
structure Taken (σ α : Type*) where
  before : σ
  action : α
  after : σ

/-- The steps of a run, up to the first that the step function does not define. -/
def trace (step : σ → α → Option σ) : σ → List α → List (Taken σ α)
  | _, [] => []
  | s, a :: as => match step s a with
    | none => []
    | some t => ⟨s, a, t⟩ :: trace step t as

theorem step_of_mem_trace {s : σ} {as : List α} {x : Taken σ α} (h : x ∈ trace step s as) :
    step x.before x.action = some x.after := by
  induction as generalizing s with
  | nil => simp [trace] at h
  | cons a as ih =>
    simp only [trace] at h
    split at h
    next => simp at h
    next t ht =>
      rcases List.mem_cons.mp h with rfl | h
      · exact ht
      · exact ih h

theorem reachableWhen_of_mem_trace {s : σ} {as : List α} {x : Taken σ α}
    (hok : ∀ y ∈ trace step s as, ok y.before y.action) (h : x ∈ trace step s as) :
    ReachableWhen step ok s x.before := by
  induction as generalizing s with
  | nil => simp [trace] at h
  | cons a as ih =>
    simp only [trace] at h hok
    split at h
    next => simp at h
    next t ht =>
      simp only [ht] at hok
      rcases List.mem_cons.mp h with rfl | h
      · exact .refl
      · exact .head ⟨a, hok _ List.mem_cons_self, ht⟩
          (ih (fun y hy => hok y (List.mem_cons_of_mem _ hy)) h)

end Execution

end KeyValueStore
