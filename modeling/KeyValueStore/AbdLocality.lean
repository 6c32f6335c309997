import KeyValueStore.AbdRegister
import KeyValueStore.Locality

/-! The ABD store as a whole. Its replicas treat each key apart, so that the calls
on all keys together are linearizable when those on each key are. -/

namespace KeyValueStore

variable {n : ℕ} {s : AbdSystem n} {i : ℕ} {key : Bytes}

def AbdEvent.invoked? : AbdEvent → Option ℕ
  | .invoked i => some i
  | .returned _ => none

def AbdEvent.returned? : AbdEvent → Option ℕ
  | .invoked _ => none
  | .returned i => some i

/-- The history of the calls on all keys that a client may use. -/
def AbdSystem.store (s : AbdSystem n) : StoreHistory ℕ Bytes Bytes where
  key i := s.ops[i]?.elim [] AbdOp.key
  invoked i := ∃ op : AbdOp, s.ops[i]? = some op ∧ op.key ≠ sentinelKey
  puts i := s.ops[i]?.bind AbdOp.put
  returned i r := ∃ (op : AbdOp) (τ : Tag), s.ops[i]? = some op ∧ op.key ≠ sentinelKey ∧
    op.phase = .returned τ r
  before i j := s.Precedes i j

theorem store_key {op : AbdOp} (hop : s.ops[i]? = some op) : s.store.key i = op.key := by
  simp [AbdSystem.store, hop]

theorem AbdFits.timed (h : AbdFits s) :
    s.store.Timed (StoreHistory.startIn AbdEvent.invoked? s.history) := by
  refine StoreHistory.timed_of_log AbdEvent.returned? (fun i hi => ?_) (fun i j => ?_)
    (fun i hi => lt_irrefl i (h.order i i hi))
  · obtain ⟨op, hop, _⟩ := hi
    exact ⟨.invoked i, (h.invoked i).mpr (List.getElem?_eq_some_iff.mp hop).1, rfl⟩
  · constructor
    · exact fun hp => ⟨_, _, rfl, rfl, hp⟩
    · rintro ⟨e, e', he, he', hsub⟩
      cases e <;> cases he
      cases e' <;> cases he'
      exact hsub

/-- Runs whose queries select the greatest tag are linearizable as a whole. -/
theorem abdStore_linearizable (h : ReachableWhen abdStep LeadStep .init s)
    (hputs : s.putCount < 2 ^ 32 - 1) : s.store.Linearizable := by
  have hinv := abdInv_of_reachable h hputs
  refine hinv.fits.timed.linearizable ?_ (fun key => ?_)
  · refine (Set.finite_lt_nat s.ops.length).subset (fun i hi => ?_)
    obtain ⟨op, hop, _⟩ := hi
    exact (List.getElem?_eq_some_iff.mp hop).1
  · by_cases hkey : key = sentinelKey
    · have hnone : ∀ i, ¬ (s.store.register key).invoked i := by
        rintro i ⟨⟨op, hop, hne⟩, hk⟩
        exact hne ((store_key hop).symm.trans (hk.trans hkey))
      refine ⟨[], List.nodup_nil, by simp, fun i r hr => ?_, .nil, by simp⟩
      obtain ⟨⟨op, τ, hop, hne, _⟩, hk⟩ := hr
      exact absurd ⟨⟨op, hop, hne⟩, hk⟩ (hnone i)
    · refine (hinv.register_linearizable (keyInv_of_reachable h) hkey).of_agree ?_ ?_ rfl ?_
      · rintro i ⟨op, hop, rfl⟩
        exact ⟨⟨op, hop, hkey⟩, store_key hop⟩
      · rintro i r ⟨⟨op, τ, hop, _, hphase⟩, hk⟩
        exact ⟨op, τ, hop, (store_key hop).symm.trans hk, hphase⟩
      · exact fun i j _ _ hp => hp.1

/-- Client 1 puts at another key while client 2 gets what it put before. -/
def twoKeyRun : List (AbdAction 3) :=
  putThenQuery ++ [.invoke 1 [108] (some [50]), .finishQuery 1 [1, 2], .deliver 3, .deliver 3,
    .finishQuery 2 [0, 1], .deliver 4, .deliver 4, .finishWrite 1 [0, 1], .deliver 5, .deliver 5,
    .finishWrite 2 [0, 1]]

theorem twoKeyRun_linearizable : ∃ s : AbdSystem 3,
    runWhen abdStep LeadStep .init twoKeyRun = some s ∧
    s.ops.map AbdOp.phase = [.returned ⟨1, 1⟩ none, .returned ⟨1, 1⟩ (some [49]),
      .returned ⟨1, 1⟩ none] ∧ s.store.Linearizable := by
  obtain ⟨s, hs, hops, hputs⟩ := exists_of_run (P := fun s : AbdSystem 3 =>
    s.ops.map AbdOp.phase = [.returned ⟨1, 1⟩ none, .returned ⟨1, 1⟩ (some [49]),
      .returned ⟨1, 1⟩ none] ∧ s.putCount < 2 ^ 32 - 1)
    (show (runWhen abdStep LeadStep .init twoKeyRun).any _ = true by decide +kernel)
  exact ⟨s, hs, hops, abdStore_linearizable (reachableWhen_of_runWhen hs) hputs⟩

end KeyValueStore
