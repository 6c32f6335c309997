import KeyValueStore.CmReachable
import Mathlib.Data.Fin.VecNotation

/-! The top of a CM queue once all messages arrived. The queue compares clocks,
which is a partial order, so its top need not come before all others. -/

namespace KeyValueStore

section Delivery

variable {n : ℕ} {s : CmSystem n} {i : Fin n}

/-- Nothing is left in the outgoing queues or on its way. -/
def CmSystem.AllArrived (s : CmSystem n) : Prop :=
  ∀ k, (s.nodes k).cmMessageOutqueue = [] ∧ (s.nodes k).sending = none

def CmSystem.TopReady (s : CmSystem n) (i : Fin n) : Prop :=
  ∀ r, (s.nodes i).cmMessagePq.head? = some r → frontReady (s.nodes i).t r = some true

/-- No other message that arrived and is not counted comes before the top. -/
def CmSystem.TopFirst (s : CmSystem n) (i : Fin n) : Prop :=
  ∀ r, (s.nodes i).cmMessagePq.head? = some r →
    ∀ m ∈ (s.nodes i).pending, vectclkComparator r m = true → m = r

instance (s : CmSystem n) : Decidable s.AllArrived :=
  decidable_of_iff
    (∀ k, (s.nodes k).cmMessageOutqueue = [] ∧ (s.nodes k).sending.isNone = true)
    (by simp [CmSystem.AllArrived])

theorem CmInv.mem_pending_iff (hi : CmInv s) (harrived : s.AllArrived) (m : CmMessageRequest n) :
    m ∈ (s.nodes i).pending ↔ s.Issued m ∧ ¬ (cmStamping n).Counts (s.nodes i).t m := by
  refine ⟨hi.flow.of_pending, fun ⟨hm, hmiss⟩ => ?_⟩
  have hne : i ≠ m.nodenum := by
    rintro rfl
    exact hmiss (hi.counted m hm)
  have hw := ((hi.waiting i m.nodenum hne).2 m).mpr ⟨rfl, hm, hmiss⟩
  have hway : (s.nodes m.nodenum).undelivered i = [] := by
    simp [CmNode.undelivered, harrived m.nodenum]
  rw [CmSystem.waiting, hway, List.append_nil] at hw
  exact (List.mem_filter.mp hw).1

/-- Once all messages arrived, the top of a queue can be delivered exactly when
it comes first. -/
theorem topReady_iff_topFirst (h : Reachable cmStep CmSystem.init s) (harrived : s.AllArrived)
    (i : Fin n) : s.TopReady i ↔ s.TopFirst i := by
  have hi := cmInv_reachable h
  refine forall_congr' fun r => forall_congr' fun hr => ?_
  obtain ⟨hissued, hmiss⟩ := hi.flow.of_pending (CmNode.mem_pending_of_top hr)
  rw [frontReady_iff (hi.flow.clock_lt_intMax hissued hmiss),
    Stamping.deliverable_iff hi.stamped hissued hmiss]
  constructor
  · intro hfirst m hm hle
    obtain ⟨hm, hnew⟩ := hi.flow.of_pending hm
    exact hfirst m hm hnew (vectclkComparator_iff.mp hle)
  · intro hfirst m hm hnew hle
    exact hfirst m ((hi.mem_pending_iff harrived m).mpr ⟨hm, hnew⟩) (vectclkComparator_iff.mpr hle)

/-- A thread whose top fails the test comes back to where it was. -/
theorem process_refused {r : CmMessageRequest n} (hthread : (s.nodes i).thread = .idle)
    (htop : (s.nodes i).cmMessagePq.head? = some r)
    (hready : frontReady (s.nodes i).t r = some false) :
    runActions cmStep s [.process i, .process i] = some s := by
  have hfetch : cmStep s (.process i) =
      some (s.setNode i { s.nodes i with thread := .fetched r }) := by
    simp [cmStep, cmInternalProcessingThread, hthread, htop]
  have hrefuse : cmStep (s.setNode i { s.nodes i with thread := .fetched r }) (.process i) =
      some s := by
    have hback : { s.nodes i with thread := CmThread.idle } = s.nodes i := by
      cases he : s.nodes i
      simp_all
    simp only [cmStep, cmInternalProcessingThread, CmSystem.setNode, Function.update_self, hready,
      Bool.false_eq_true, if_false, Option.map_some, Function.update_idem, hback,
      Function.update_eq_self, hthread]
  simp [runActions, hfetch, hrefuse]

end Delivery

section Runs

/-- Server `k` sends the front of its queue to these servers. -/
def broadcastTo {n : ℕ} (k : Fin n) (dsts : List (Fin n)) : List (CmAction n) :=
  .sendFront k :: dsts.map (.arrive k) ++ [.sent k]

/-- Server 2 receives two dependent writes in the wrong order. -/
def overtakingRun : List (CmAction 3) :=
  [.request 0 (cmPut 0 [120] [49]), .sendFront 0, .arrive 0 1,
    .process 1, .process 1, .process 1, .process 1, .process 1,
    .request 1 (cmPut 1 [120] [50])] ++ broadcastTo 1 [2, 0] ++ [.arrive 0 2, .sent 0]

theorem overtakingRun_topReady : ∃ s : CmSystem 3,
    (Reachable cmStep CmSystem.init s ∧ s.AllArrived ∧ s.TopFirst 2 ∧
      (s.nodes 2).cmMessagePq.map CmMessageRequest.nodenum = [0, 1]) ∧ s.TopReady 2 := by
  let w1 : CmMessageRequest 3 := ⟨0, [120], [49], ![1, 0, 0]⟩
  let w2 : CmMessageRequest 3 := ⟨1, [120], [50], ![1, 1, 0]⟩
  obtain ⟨s, hs, harrived, hpq, hpending⟩ := exists_of_run
    (P := fun s : CmSystem 3 => s.AllArrived ∧ (s.nodes 2).cmMessagePq = [w1, w2] ∧
      (s.nodes 2).pending = [w1, w2])
    (show (runWhen cmStep (fun _ _ => True) .init overtakingRun).any _ = true by decide +kernel)
  have hfirst : s.TopFirst 2 := by
    intro r hr m hm hle
    rw [hpq] at hr
    rw [hpending] at hm
    obtain rfl : w1 = r := by simpa using hr
    rcases List.mem_cons.mp hm with rfl | hm
    · rfl
    · rw [List.mem_singleton.mp hm] at hle
      exact absurd hle (by decide +kernel)
  have hr := reachableWhen_of_runWhen hs
  exact ⟨s, ⟨hr, harrived, hfirst, by rw [hpq]; rfl⟩,
    (topReady_iff_topFirst hr harrived 2).mpr hfirst⟩

/-- At server 0 a write of server 2 comes to the top, and the write that it
depends on arrives below one of server 3, to which it does not compare. -/
def blockingRun : List (CmAction 4) :=
  [.request 1 (cmPut 1 [120] [49]), .sendFront 1, .arrive 1 2, .arrive 1 3,
    .process 2, .process 2, .process 2, .process 2, .process 2,
    .request 2 (cmPut 2 [120] [50]),
    .request 3 (cmPut 3 [121] [49]), .request 3 (cmPut 3 [121] [50])] ++
    broadcastTo 2 [0, 1, 3] ++ broadcastTo 3 [0, 1, 2] ++ broadcastTo 3 [0, 1, 2] ++
    [.arrive 1 0, .sent 1]

theorem blockingRun_stuck : ∃ s : CmSystem 4, Reachable cmStep CmSystem.init s ∧ s.AllArrived ∧
    ¬ s.TopReady 0 ∧ runActions cmStep s [.process 0, .process 0] = some s := by
  let w : CmMessageRequest 4 := ⟨2, [120], [50], ![0, 1, 1, 0]⟩
  obtain ⟨s, hs, harrived, htop, hready, hidle⟩ := exists_of_run
    (P := fun s : CmSystem 4 => s.AllArrived ∧ (s.nodes 0).cmMessagePq.head? = some w ∧
      frontReady (s.nodes 0).t w = some false ∧ (s.nodes 0).thread.isIdle = true)
    (show (runWhen cmStep (fun _ _ => True) .init blockingRun).any _ = true by decide +kernel)
  have hthread : (s.nodes 0).thread = .idle := by
    cases he : (s.nodes 0).thread with
    | idle => rfl
    | _ => simp [he, CmThread.isIdle] at hidle
  refine ⟨s, reachableWhen_of_runWhen hs, harrived, fun h => ?_, process_refused hthread htop hready⟩
  exact Bool.false_ne_true (Option.some.inj (hready.symm.trans (h w htop)))

end Runs

end KeyValueStore
