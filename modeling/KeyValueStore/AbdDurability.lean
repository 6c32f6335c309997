import KeyValueStore.AbdInvariant
import Mathlib.Data.Fintype.Powerset

/-! What a call wrote back stays at a majority of the replicas, and a get writes
back all that it selects except an empty value. -/

namespace KeyValueStore

variable {n : ℕ} {s t : AbdSystem n} {a : AbdAction n}

instance (s : AbdSystem n) (k : Bytes) (τ : Tag) : Decidable (s.Reached k τ) :=
  inferInstanceAs (Decidable (∃ q : Finset (Fin n), Majority q ∧ ∀ r ∈ q, _ ≤ _))

theorem Majority.reached_zero {q : Finset (Fin n)} (h : Majority q) (k : Bytes) :
    s.Reached k .zero :=
  ⟨q, h, fun _ _ => Tag.zero_le _⟩

/-- A call that returned has its tag at a majority if it sent a WRITE, as all
calls do but a get that finds an empty value. -/
structure WriteInv (s : AbdSystem n) : Prop where
  fits : AbdFits s
  replies : ∀ c reply, (c, reply) ∈ s.replies → c.request.type = .write →
    c.request.tag ≤ (s.replicas c.dst).tagAt (cStr c.request.key)
  returned : ∀ (i : ℕ) (op : AbdOp) (τ : Tag) (r : Option Bytes), s.ops[i]? = some op →
    op.phase = .returned τ r → op.put ≠ none ∨ r ≠ none ∨ τ = .zero → s.Reached (cStr op.key) τ

theorem WriteInv.step (h : WriteInv s) (hs : AbdSteps s a t) : WriteInv t := by
  have hext := hs.extends
  have hold : ∀ (i : ℕ) (op : AbdOp) (τ : Tag) (r : Option Bytes), s.ops[i]? = some op →
      op.phase = .returned τ r → op.put ≠ none ∨ r ≠ none ∨ τ = .zero →
      t.Reached (cStr op.key) τ :=
    fun i op τ r hi hp hw => (h.returned i op τ r hi hp hw).mono hext
  -- a step that only moves one call to another phase
  have hset : ∀ {i : ℕ} {op : AbdOp} {p : AbdPhase}, s.ops[i]? = some op →
      t.ops = s.ops.set i { op with phase := p } → t.replicas = s.replicas →
      t.replies = s.replies →
      (∀ τ r, p = .returned τ r → op.put ≠ none ∨ r ≠ none ∨ τ = .zero →
        s.Reached (cStr op.key) τ) → WriteInv t := by
    intro i op p hop hops hreplicas hreplies hp
    refine ⟨h.fits.step hs, fun c rep hr htype => ?_, fun j opj τ r hj hph hw => ?_⟩
    · rw [hreplicas]
      exact h.replies c rep (hreplies ▸ hr) htype
    · rw [hops, AbdSystem.ops_set hop] at hj
      split at hj
      next =>
        cases hj
        exact (hp τ r hph hw).mono hext
      next => exact hold j opj τ r hj hph hw
  cases hs with
  | @invoke client key put op hidle hop =>
    refine ⟨h.fits.step (.invoke hidle hop), h.replies, fun j opj τ r hj hp hw => ?_⟩
    rcases AbdSystem.ops_concat hj with hj | ⟨_, rfl⟩
    · exact hold j opj τ r hj hp hw
    · subst hop
      simp at hp
  | @deliver k call ks reply hcall hh =>
    refine ⟨h.fits.step (.deliver hcall hh), fun c rep hr htype => ?_, hold⟩
    rcases List.mem_cons.mp hr with he | hr
    · obtain ⟨rfl, rfl⟩ := Prod.mk.injEq .. ▸ he
      simp only [AbdSystem.delivered, Function.update_self]
      exact abdHandler_write hh htype
    · exact (h.replies c rep hr htype).trans (hext.tags _ _)
  | startWrite hop => exact hset hop rfl rfl rfl (fun τ r hp => by simp at hp)
  | @absent i op order vec maxResp hop hphase hput hvec =>
    refine hset hop rfl rfl rfl (fun τ r hp hw => ?_)
    obtain ⟨rfl, rfl⟩ := AbdPhase.returned.inj hp
    have hzero : maxResp.tag = .zero := by simpa [hput] using hw
    obtain ⟨hnd, hlen, _⟩ := AbdSystem.collect_majority hvec
    exact hzero ▸ (majority_toFinset hnd (by rwa [Fintype.card_fin])).reached_zero _
  | finishWrite hop hphase hvec =>
    refine hset hop rfl rfl rfl (fun τ r hp _ => ?_)
    obtain ⟨rfl, _⟩ := AbdPhase.returned.inj hp
    exact h.fits.reached_of_collect hop (tag?_write hphase) hvec
      (fun c reply hm _ htype => h.replies c reply hm htype)

section Durability

/-- The replies that a get collects do not select an empty value under the tag of
a put. -/
def FindsValueOrAbsent (s : AbdSystem n) : AbdAction n → Prop
  | .finishQuery i order => ∀ op ∈ s.ops[i]?, op.put = none → ∀ vec ∈ s.collect i false order,
      ∀ m ∈ ClientLib.findMajorityTag vec, m.value = [] → m.tag = .zero
  | _ => True

instance (s : AbdSystem n) (a : AbdAction n) : Decidable (FindsValueOrAbsent s a) :=
  match a with
  | .finishQuery i order => inferInstanceAs (Decidable (∀ op ∈ s.ops[i]?, _ →
      ∀ vec ∈ s.collect i false order, ∀ m ∈ ClientLib.findMajorityTag vec, _ → _))
  | .invoke _ _ _ | .deliver _ | .finishWrite _ _ => .isTrue trivial

def AbsentAtZero (s : AbdSystem n) : Prop :=
  ∀ (i : ℕ) (op : AbdOp) (τ : Tag), s.ops[i]? = some op → op.put = none →
    op.phase = .returned τ none → τ = .zero

theorem AbsentAtZero.step (h : AbsentAtZero s) (hok : FindsValueOrAbsent s a)
    (hs : AbdSteps s a t) : AbsentAtZero t := by
  have hset : ∀ {i : ℕ} {op : AbdOp} {p : AbdPhase}, s.ops[i]? = some op →
      t.ops = s.ops.set i { op with phase := p } →
      (op.put = none → ∀ τ, p = .returned τ none → τ = .zero) → AbsentAtZero t := by
    intro i op p hop hops hp j opj τ hj hput hph
    rw [hops, AbdSystem.ops_set hop] at hj
    split at hj
    next =>
      cases hj
      exact hp hput τ hph
    next => exact h j opj τ hj hput hph
  cases hs with
  | @invoke client key put op hidle hop =>
    intro j opj τ hj hput hp
    rcases AbdSystem.ops_concat hj with hj | ⟨_, rfl⟩
    · exact h j opj τ hj hput hp
    · subst hop
      simp at hp
  | deliver => exact h
  | startWrite hop => exact hset hop rfl (fun _ τ hp => by simp at hp)
  | absent hop hphase hput hvec hmax hvalue =>
    refine hset hop rfl (fun _ τ hp => ?_)
    obtain ⟨rfl, _⟩ := AbdPhase.returned.inj hp
    exact hok _ hop hput _ hvec _ hmax hvalue
  | finishWrite hop =>
    refine hset hop rfl (fun hput τ hp => ?_)
    simp [hput] at hp

variable {i : ℕ} {op : AbdOp} {τ : Tag} {r : Option Bytes}

theorem writeInv_of_reachable {ok : AbdSystem n → AbdAction n → Prop}
    (h : ReachableWhen abdStep ok .init s) : WriteInv s :=
  h.invariant ⟨abdFits_init, by simp [AbdSystem.init], by simp [AbdSystem.init]⟩
    (fun _ _ _ _ hu _ he => hu.step (abdStep_steps he))

theorem returned_tag_at_majority (h : ReachableWhen abdStep FindsValueOrAbsent .init s)
    (hop : s.ops[i]? = some op) (hret : op.phase = .returned τ r) (ht : Reachable abdStep s t) :
    t.Reached (cStr op.key) τ := by
  have hzero : AbsentAtZero s := h.invariant (by simp [AbsentAtZero, AbdSystem.init])
    (fun _ _ _ _ hu ha he => hu.step ha (abdStep_steps he))
  have hs : s.Reached (cStr op.key) τ := by
    refine (writeInv_of_reachable h).returned i op τ r hop hret ?_
    by_cases hput : op.put = none
    · cases r with
      | none => exact .inr (.inr (hzero i op τ hop hput hret))
      | some v => exact .inr (.inl (by simp))
    · exact .inl hput
  exact ht.invariant (P := fun u => u.Reached (cStr op.key) τ) hs
    (fun _ _ _ _ hu _ he => hu.mono (abdStep_steps he).extends)

/-- Client 1 puts an empty value, which replica 0 has when client 2 queries the
replicas 0 and 1. -/
def emptyPutThenQuery : List (AbdAction 3) :=
  [.invoke 1 [107] (some []), .deliver 0, .deliver 0, .finishQuery 0 [0, 1], .deliver 1,
    .invoke 2 [107] none, .deliver 3, .deliver 3]

/-- The put returns, and the get finds no value at the replicas that lack it. -/
def emptyPutRun : List (AbdAction 3) :=
  emptyPutThenQuery ++ [.deliver 1, .finishWrite 0 [0, 1], .finishQuery 1 [1, 0]]

theorem emptyPutRun_tag_at_majority : ∃ s : AbdSystem 3,
    runWhen abdStep FindsValueOrAbsent .init emptyPutRun = some s ∧
    s.ops.map AbdOp.phase = [.returned ⟨1, 1⟩ none, .returned .zero none] ∧
    s.Reached [107] ⟨1, 1⟩ := by
  obtain ⟨s, hs, hop, hops⟩ := exists_of_run (P := fun s : AbdSystem 3 =>
    s.ops[0]? = some ⟨1, [107], some [], .returned ⟨1, 1⟩ none⟩ ∧
      s.ops.map AbdOp.phase = [.returned ⟨1, 1⟩ none, .returned .zero none])
    (show (runWhen abdStep FindsValueOrAbsent .init emptyPutRun).any _ = true by
      decide +kernel)
  exact ⟨s, hs, hops, returned_tag_at_majority (reachableWhen_of_runWhen hs) hop rfl .refl⟩

/-- The get selects the empty value and returns while replica 0 alone has it. -/
theorem emptyGet_not_at_majority : ∃ s : AbdSystem 3, Reachable abdStep .init s ∧
    s.ops[1]? = some ⟨2, [107], none, .returned ⟨1, 1⟩ none⟩ ∧ ¬ s.Reached [107] ⟨1, 1⟩ := by
  obtain ⟨s, hs, hop, hnot⟩ := exists_of_run (P := fun s : AbdSystem 3 =>
    s.ops[1]? = some ⟨2, [107], none, .returned ⟨1, 1⟩ none⟩ ∧ ¬ s.Reached [107] ⟨1, 1⟩)
    (show (runWhen abdStep (fun _ _ => True) .init
      (emptyPutThenQuery ++ [.finishQuery 1 [0, 1]])).any _ = true by decide +kernel)
  exact ⟨s, reachableWhen_of_runWhen hs, hop, hnot⟩

end Durability

end KeyValueStore
