import KeyValueStore.CmDelivery
import KeyValueStore.CmReadOrder
import KeyValueStore.Progress
import KeyValueStore.QueueOrder
import Mathlib.Algebra.Order.BigOperators.Group.Finset

/-! The CM servers left to themselves. All writes are delivered and applied as long
as the order of the queues is that of the clocks, and then the servers agree on the
keys whose writes are ordered. -/

namespace KeyValueStore

section Queues

variable {n : ℕ} {s t : CmSystem n} {i : Fin n} {lost : Fin n → List (CmMessageRequest n)}

/-- See `Layered`: with such writes the top of a queue comes first. -/
def CmSystem.LayeredWrites (s : CmSystem n) : Prop := Layered {m | s.Issued m}

def QueuesOrdered (s : CmSystem n) : Prop :=
  ∀ i, BinaryHeap.Ordered vectclkComparator (s.nodes i).cmMessagePq

theorem readsInOrder_of_reachable {ok : CmSystem n → CmAction n → Prop}
    (h : ReachableWhen cmStep ok .init s) : ReadsInOrder s := by
  refine h.invariant ⟨⟨fun _ _ _ hm => ?_, fun _ _ _ _ hm => ?_⟩, fun _ _ hm => ?_⟩
    (fun u a v hu ho _ hstep => ?_)
  · exact absurd hm (by simp [CmSystem.Issued, CmSystem.init])
  · exact absurd hm (by simp [CmSystem.init])
  · exact absurd hm (by simp [CmSystem.Issued, CmSystem.init])
  · have hi := (cmInv_reachable hu).flow
    exact ⟨clockOrdered_step hi ho.clocks hstep, writesFollow_step hi ho.follow hstep⟩

theorem CmFlowInv.nodup_pq (hi : CmFlowInv lost s) (i : Fin n) : (s.nodes i).cmMessagePq.Nodup :=
  (hi.nodup_pending i).sublist (List.sublist_append_right _ _)

theorem CmFlowInv.issued_of_pq (hi : CmFlowInv lost s) {m : CmMessageRequest n}
    (hm : m ∈ (s.nodes i).cmMessagePq) : s.Issued m :=
  (hi.of_pending (CmNode.mem_pending_of_mem_pq hm)).1

/-- A queue stays in order when it is pushed to or popped. -/
theorem queue_ordered (hi : CmFlowInv lost s) (ho : ReadsInOrder s) (hl : s.LayeredWrites)
    {q q' : List (CmMessageRequest n)} (ops : List (QueueOp n))
    (hS : ∀ m ∈ q ++ pushes ops, s.Issued m) (hnd : (q ++ pushes ops).Nodup)
    (hq : BinaryHeap.Ordered vectclkComparator q) (hrun : runQueue q ops = some q') :
    BinaryHeap.Ordered vectclkComparator q' :=
  (runQueue_ordered (S := {m | s.Issued m}) (fun _ hm _ hm' he => ho.vecClk_inj hi hm hm' he) hl hS
    hnd hq hrun).2.2

theorem queuesOrdered_arrive (hi : CmFlowInv lost s) (ho : ReadsInOrder s) (hl : s.LayeredWrites)
    (hq : QueuesOrdered s) {k : Fin n} {req : CmMessageRequest n} {dsts : List (Fin n)}
    (ha : CmArrives s t k i req dsts) : QueuesOrdered t := by
  intro j
  rw [ha.nodes]
  split_ifs with hj hk
  · obtain ⟨hreq, hmiss⟩ := ha.missing hi
    have hnew : req ∉ (s.nodes i).cmMessagePq := by
      intro hm
      have hperm := (ha.pending i).nodup_iff.mp ((ha.inv hi).nodup_pending i)
      rw [if_pos rfl] at hperm
      exact (List.nodup_cons.mp hperm).1 (CmNode.mem_pending_of_mem_pq hm)
    refine queue_ordered hi ho hl [.push req] (fun m hm => ?_) ?_ (hq i) rfl
    · rcases List.mem_append.mp hm with hm | hm
      · exact hi.issued_of_pq hm
      · exact List.mem_singleton.mp hm ▸ hreq
    · exact List.nodup_append'.mpr ⟨hi.nodup_pq i, List.nodup_singleton _,
        List.disjoint_singleton.mpr hnew⟩
  · exact hk ▸ hq k
  · exact hq j

theorem QueuesOrdered.setNode (hq : QueuesOrdered s) {node : CmNode n}
    (hnode : BinaryHeap.Ordered vectclkComparator node.cmMessagePq) :
    QueuesOrdered (s.setNode i node) := by
  intro j
  rw [CmSystem.setNode_nodes]
  split
  · exact hnode
  · exact hq j

theorem queuesOrdered_step (hi : CmFlowInv lost s) (ho : ReadsInOrder s) (hl : s.LayeredWrites)
    (hq : QueuesOrdered s) {a : CmAction n} (hstep : cmStep s a = some t) : QueuesOrdered t := by
  cases cmStep_steps hstep with
  | other => exact hq
  | arrive hsending hdst ht =>
    exact queuesOrdered_arrive hi ho hl hq (cmArrives_setNode hi hsending hdst ht)
  | @pop i req hthread =>
    have happlied := (hi.node i).thread
    simp only [CmNode.ThreadInv, hthread] at happlied
    obtain ⟨rest, hpq⟩ := List.head?_eq_some_iff.mp happlied.1
    refine hq.setNode (queue_ordered hi ho hl (q := req :: rest) [.pop] (fun m hm => ?_)
      ?_ (hpq ▸ hq i) (by rw [hpq]; rfl))
    · rw [pushes, pushes, List.append_nil, ← hpq] at hm
      exact hi.issued_of_pq hm
    · rw [pushes, pushes, List.append_nil, ← hpq]
      exact hi.nodup_pq i
  | write | apply => exact hq.setNode (hq _)
  | sendFront | sent | fetch | pass | refuse | advance => exact hq.setNode (hq _)

theorem issued_step {a : CmAction n} (h : cmStep s a = some t) {m : CmMessageRequest n}
    (hm : s.Issued m) : t.Issued m := cmStep_exposed h _ hm

theorem queuesOrdered_of_reachable {ok : CmSystem n → CmAction n → Prop}
    (h : ReachableWhen cmStep ok .init s) (hl : s.LayeredWrites) : QueuesOrdered s := by
  refine h.invariant (P := fun s => s.LayeredWrites → QueuesOrdered s)
    (fun _ _ j _ => BinaryHeap.lower_eq_false_of_le (Nat.zero_le j)) ?_ hl
  intro u a v hu hq _ hstep hv
  have hlu : u.LayeredWrites := fun a ha b hb c hc d hd =>
    hv a (issued_step hstep ha) b (issued_step hstep hb) c (issued_step hstep hc) d
      (issued_step hstep hd)
  exact queuesOrdered_step (cmInv_reachable hu).flow (readsInOrder_of_reachable hu) hlu (hq hlu) hstep

/-- Once all messages arrived the top of a queue can be delivered. -/
theorem top_deliverable (h : Reachable cmStep .init s) (hl : s.LayeredWrites)
    (harrived : s.AllArrived) (hthread : (s.nodes i).thread = .idle) {r : CmMessageRequest n}
    (hr : (s.nodes i).cmMessagePq.head? = some r) : frontReady (s.nodes i).t r = some true := by
  have hi := cmInv_reachable h
  obtain ⟨hissued, hmiss⟩ := hi.flow.of_pending (CmNode.mem_pending_of_top hr)
  rw [frontReady_iff (hi.flow.clock_lt_intMax hissued hmiss),
    Stamping.deliverable_iff hi.stamped hissued hmiss]
  intro m hm hnew hle
  by_contra hne
  have hpending := (hi.mem_pending_iff harrived m).mpr ⟨hm, hnew⟩
  simp only [CmNode.pending, hthread, CmThread.taken, Option.toList_none, List.nil_append]
    at hpending
  have hw := hl.weak (hi.flow.nodup_pq i) (fun m hm => hi.flow.issued_of_pq hm)
  exact topMinimal_of_ordered (queuesOrdered_of_reachable h hl i) hw r hr m hpending hne hle

end Queues

section Sending

variable {n : ℕ} {s t : CmSystem n} {i k : Fin n}

/-- Steps of the servers alone. -/
def Unasked (_ : CmSystem n) : CmAction n → Prop
  | .request _ _ => False
  | _ => True

/-- The steps that it takes to send the outgoing queue. -/
def CmNode.sendWork (node : CmNode n) : ℕ :=
  match node.sending with
  | none => (n + 1) * node.cmMessageOutqueue.length
  | some (_, dsts) => (n + 1) * node.cmMessageOutqueue.tail.length + dsts.length + 1

def CmSystem.sendWork (s : CmSystem n) : ℕ := ∑ k, (s.nodes k).sendWork

theorem sendWork_lt (hk : (t.nodes k).sendWork < (s.nodes k).sendWork)
    (hother : ∀ j ≠ k, (t.nodes j).sendWork = (s.nodes j).sendWork) : t.sendWork < s.sendWork := by
  refine Finset.sum_lt_sum (fun j _ => ?_) ⟨k, Finset.mem_univ k, hk⟩
  by_cases hj : j = k
  · exact hj ▸ hk.le
  · exact (hother j hj).le

theorem sendWork_setNode {node : CmNode n} (h : node.sendWork < (s.nodes k).sendWork) :
    (s.setNode k node).sendWork < s.sendWork := by
  refine sendWork_lt (k := k) ?_ (fun j hj => ?_)
  · rwa [CmSystem.setNode_nodes, if_pos rfl]
  · rw [CmSystem.setNode_nodes, if_neg hj]

/-- A server that has something to send can go on. -/
theorem send_step (hi : CmInv s) (hk : (s.nodes k).cmMessageOutqueue ≠ [] ∨
    (s.nodes k).sending ≠ none) : ∃ a t, Unasked s a ∧ cmStep s a = some t ∧
      t.exposed = s.exposed ∧ t.sendWork < s.sendWork := by
  cases hsending : (s.nodes k).sending with
  | none =>
    have hne : (s.nodes k).cmMessageOutqueue ≠ [] := hk.resolve_right (fun h => h hsending)
    obtain ⟨req, rest, hqueue⟩ := List.exists_cons_of_ne_nil hne
    have hhead : (s.nodes k).cmMessageOutqueue.head? = some req := by rw [hqueue, List.head?_cons]
    have hstep : cmStep s (.sendFront k) = some (s.setNode k
        { s.nodes k with sending := some (req, (List.finRange n).filter (· ≠ k)) }) := by
      rw [cmStep, cmSendFront, hsending, hhead]
      rfl
    refine ⟨.sendFront k, _, trivial, hstep, rfl, sendWork_setNode ?_⟩
    have hlen : ((List.finRange n).filter (· ≠ k)).length < n := by
      have hlt := List.length_filter_lt_length_iff_exists (l := List.finRange n)
        (p := fun i => decide (i ≠ k))
      rw [List.length_finRange] at hlt
      exact hlt.mpr ⟨k, List.mem_finRange k, by simp⟩
    simp only [CmNode.sendWork, hsending, hqueue, List.tail_cons, List.length_cons, Nat.mul_succ]
    omega
  | some p =>
    obtain ⟨req, dsts⟩ := p
    cases dsts with
    | nil =>
      have hstep : cmStep s (.sent k) = some (s.setNode k { s.nodes k with
          cmMessageOutqueue := (s.nodes k).cmMessageOutqueue.tail, sending := none }) := by
        rw [cmStep, cmSent, hsending]
        rfl
      refine ⟨.sent k, _, trivial, hstep, rfl, sendWork_setNode ?_⟩
      simp [CmNode.sendWork, hsending]
    | cons i dsts =>
      have ha := cmArrives_setNode hi.flow hsending List.mem_cons_self rfl
      have hstep : ∃ t, cmStep s (.arrive k i) = some t ∧ CmArrives s t k i req (i :: dsts) :=
        ⟨_, by simp only [cmStep, hsending, List.mem_cons_self, if_true], ha⟩
      obtain ⟨t, hstep, ha⟩ := hstep
      refine ⟨.arrive k i, t, trivial, hstep, ha.exposed, sendWork_lt (k := k) ?_ (fun j hj => ?_)⟩
      · rw [ha.nodes, if_neg ha.ne.symm, if_pos rfl]
        simp [CmNode.sendWork, hsending]
      · rw [ha.nodes]
        split_ifs with hji
        · exact hji ▸ rfl
        · rfl

theorem all_sent (h : Reachable cmStep .init s) :
    Within cmStep Unasked s.sendWork s fun t =>
      Reachable cmStep .init t ∧ t.exposed = s.exposed ∧ t.AllArrived := by
  suffices hdescend : Within cmStep Unasked (1 * s.sendWork) s fun t =>
      Reachable cmStep .init t ∧ t.exposed = s.exposed ∧ t.AllArrived by
    exact hdescend.mono (by omega) fun _ h => h
  refine .descend (P := fun t => Reachable cmStep .init t ∧ t.exposed = s.exposed)
    CmSystem.sendWork (fun t ht => ?_) ⟨h, rfl⟩
  by_cases harrived : t.AllArrived
  · exact .inl ⟨ht.1, ht.2, harrived⟩
  · obtain ⟨k, hk⟩ := not_forall.mp harrived
    obtain ⟨a, u, hok, hstep, hexposed, hlt⟩ :=
      send_step (k := k) (cmInv_reachable ht.1) (not_and_or.mp hk)
    exact .inr (.after a hok hstep
      (.now ⟨⟨ht.1.tail ⟨a, trivial, hstep⟩, hexposed.trans ht.2⟩, hlt⟩))

end Sending

section Applying

variable {n : ℕ} {s t : CmSystem n} {i : Fin n}

/-- The steps that it takes to apply the queue, once its top can be delivered. -/
def CmNode.applyWork (node : CmNode n) : ℕ :=
  match node.thread with
  | .idle => 5 * node.cmMessagePq.length
  | .fetched req => if frontReady node.t req = some true then 5 * node.cmMessagePq.length - 1
      else 5 * node.cmMessagePq.length + 1
  | .ready _ => 5 * node.cmMessagePq.length - 2
  | .applied _ => 5 * node.cmMessagePq.length - 3
  | .popped _ => 5 * node.cmMessagePq.length + 1

def CmNode.Drained (node : CmNode n) : Prop := node.thread = .idle ∧ node.cmMessagePq = []

theorem applyWork_le (node : CmNode n) : node.applyWork ≤ 5 * node.cmMessagePq.length + 1 := by
  unfold CmNode.applyWork
  split
  · omega
  · split <;> omega
  · omega
  · omega
  · omega

/-- The writes, and those of the states that follow without requests. -/
def CmSystem.issued (s : CmSystem n) : List (CmMessageRequest n) :=
  (s.exposed.filter fun p => p.1 = p.2.nodenum).map Prod.snd

theorem mem_issued {m : CmMessageRequest n} : m ∈ s.issued ↔ s.Issued m := by
  simp [CmSystem.issued, CmSystem.Issued]

/-- All arrived, and nothing was written since `s₀`. -/
structure Applying (s₀ s : CmSystem n) : Prop where
  reachable : Reachable cmStep .init s
  arrived : s.AllArrived
  issued : s.Issued = s₀.Issued

theorem allArrived_process (h : s.AllArrived) {node : CmNode n}
    (hqueue : node.cmMessageOutqueue = (s.nodes i).cmMessageOutqueue)
    (hsending : node.sending = (s.nodes i).sending) : (s.setNode i node).AllArrived := by
  intro k
  rw [CmSystem.setNode_kept CmNode.cmMessageOutqueue hqueue,
    CmSystem.setNode_kept CmNode.sending hsending]
  exact h k

theorem setNode_other {node : CmNode n} {j : Fin n} (hj : j ≠ i) :
    (s.setNode i node).nodes j = s.nodes j := by
  rw [CmSystem.setNode_nodes, if_neg hj]

theorem applyWork_setNode {node : CmNode n} (h : node.applyWork < (s.nodes i).applyWork) :
    ((s.setNode i node).nodes i).applyWork < (s.nodes i).applyWork := by
  rwa [CmSystem.setNode_nodes, if_pos rfl]

/-- One step of a thread that is not done brings it nearer to that. -/
theorem process_step {s₀ : CmSystem n} (h : Applying s₀ s) (hl : s₀.LayeredWrites)
    (hi : ¬ (s.nodes i).Drained) : ∃ t, cmStep s (.process i) = some t ∧ Applying s₀ t ∧
      (∀ j ≠ i, t.nodes j = s.nodes j) ∧ (t.nodes i).applyWork < (s.nodes i).applyWork := by
  have hinv := cmInv_reachable h.reachable
  have hls : s.LayeredWrites := by
    have he := h.issued
    unfold CmSystem.LayeredWrites
    rw [he]
    exact hl
  obtain ⟨node, hnode⟩ : ∃ node, cmInternalProcessingThread (s.nodes i) = some node := by
    cases hthread : (s.nodes i).thread with
    | idle =>
      have hne : (s.nodes i).cmMessagePq ≠ [] := fun hnil => hi ⟨hthread, hnil⟩
      obtain ⟨req, rest, hpq⟩ := List.exists_cons_of_ne_nil hne
      simp [cmInternalProcessingThread, hthread, hpq]
    | fetched req =>
      have hfetched := (hinv.node i).thread
      simp only [CmNode.ThreadInv, hthread] at hfetched
      obtain ⟨hissued, hmiss⟩ := hinv.flow.of_pending (CmNode.mem_pending_of_mem_pq hfetched.1)
      obtain ⟨ready, hready⟩ := frontReady_isSome (hinv.flow.clock_lt_intMax hissued hmiss)
      simp [cmInternalProcessingThread, hthread, hready]
    | _ => simp [cmInternalProcessingThread, hthread]
  obtain ⟨t, hstep⟩ : ∃ t, cmStep s (.process i) = some t := by simp [cmStep, hnode]
  have hr : Reachable cmStep .init t := h.reachable.tail ⟨_, trivial, hstep⟩
  have hkeep : ∀ {node : CmNode n}, Reachable cmStep .init (s.setNode i node) →
      node.cmMessageOutqueue = (s.nodes i).cmMessageOutqueue →
      node.sending = (s.nodes i).sending → Applying s₀ (s.setNode i node) :=
    fun hr hq hs => ⟨hr, allArrived_process h.arrived hq hs, h.issued⟩
  refine ⟨t, hstep, ?_⟩
  have hthreadInv := (hinv.node i).thread
  simp only [CmNode.ThreadInv] at hthreadInv
  cases cmStep_steps hstep with
  | @fetch _ req hthread htop =>
    have hready := top_deliverable h.reachable hls h.arrived hthread htop
    obtain ⟨rest, hpq⟩ := List.head?_eq_some_iff.mp htop
    refine ⟨hkeep hr rfl rfl, fun j hj => setNode_other hj, applyWork_setNode ?_⟩
    simp only [CmNode.applyWork, hthread, hready, hpq, if_true, List.length_cons]
    omega
  | @pass _ req hthread hready =>
    rw [hthread] at hthreadInv
    have hlen := List.length_pos_of_mem hthreadInv.1
    refine ⟨hkeep hr rfl rfl, fun j hj => setNode_other hj, applyWork_setNode ?_⟩
    simp only [CmNode.applyWork, hthread, hready, if_true]
    omega
  | @refuse _ req hthread hready =>
    refine ⟨hkeep hr rfl rfl, fun j hj => setNode_other hj, applyWork_setNode ?_⟩
    simp [CmNode.applyWork, hthread, hready]
  | @apply _ req hthread =>
    rw [hthread] at hthreadInv
    obtain ⟨rest, hpq⟩ := List.head?_eq_some_iff.mp hthreadInv.1
    have hissued := issued_of_foreign (t := (s.setNode i { s.nodes i with
      cmKsMap := applyToStore (s.nodes i).cmKsMap req, thread := .applied req }).expose i req)
      rfl ((hinv.node i).foreign req (CmNode.mem_pending_of_top hthreadInv.1))
    refine ⟨⟨hr, allArrived_process (s := s) h.arrived rfl rfl, hissued.trans h.issued⟩,
      fun j hj => setNode_other hj, applyWork_setNode ?_⟩
    simp only [CmNode.applyWork, hthread, hpq, List.length_cons]
    omega
  | @pop _ req hthread =>
    rw [hthread] at hthreadInv
    obtain ⟨rest, hpq⟩ := List.head?_eq_some_iff.mp hthreadInv.1
    have hlen : (BinaryHeap.pop vectclkComparator (s.nodes i).cmMessagePq).length = rest.length := by
      rw [hpq]
      exact (BinaryHeap.pop_perm vectclkComparator req rest).length_eq
    refine ⟨hkeep hr rfl rfl, fun j hj => setNode_other hj, applyWork_setNode ?_⟩
    simp only [CmNode.applyWork, hthread, hlen]
    rw [hpq, List.length_cons]
    omega
  | @advance _ req hthread =>
    refine ⟨hkeep hr rfl rfl, fun j hj => setNode_other hj, applyWork_setNode ?_⟩
    simp [CmNode.applyWork, hthread]

theorem server_drains {s₀ : CmSystem n} (h : Applying s₀ s) (hl : s₀.LayeredWrites) (i : Fin n) :
    Within cmStep Unasked (5 * s₀.issued.length + 1) s fun t =>
      Applying s₀ t ∧ (t.nodes i).Drained ∧ ∀ j, (s.nodes j).Drained → (t.nodes j).Drained := by
  have hdescend : Within cmStep Unasked (1 * (s.nodes i).applyWork) s fun t =>
      Applying s₀ t ∧ (t.nodes i).Drained ∧ ∀ j ≠ i, t.nodes j = s.nodes j := by
    refine .descend (P := fun t => Applying s₀ t ∧ ∀ j ≠ i, t.nodes j = s.nodes j)
      (fun t => (t.nodes i).applyWork) (fun t ht => ?_) ⟨h, fun _ _ => rfl⟩
    by_cases hdone : (t.nodes i).Drained
    · exact .inl ⟨ht.1, hdone, ht.2⟩
    · obtain ⟨u, hstep, hu, hother, hlt⟩ := process_step ht.1 hl hdone
      exact .inr (.after (.process i) trivial hstep (.now
        ⟨⟨hu, fun j hj => (hother j hj).trans (ht.2 j hj)⟩, hlt⟩))
  have hinv := (cmInv_reachable h.reachable).flow
  have hlen : (s.nodes i).cmMessagePq.length ≤ s₀.issued.length := by
    refine (List.subperm_of_subset (hinv.nodup_pq i) (fun m hm => ?_)).length_le
    rw [mem_issued, ← h.issued]
    exact hinv.issued_of_pq hm
  have hle := applyWork_le (s.nodes i)
  refine hdescend.mono (by omega) fun t ht => ⟨ht.1, ht.2.1, fun j hj => ?_⟩
  by_cases hji : j = i
  · exact hji ▸ ht.2.1
  · rwa [ht.2.2 j hji]

/-- All writes arrived and were applied. -/
structure CmSystem.Settled (s : CmSystem n) : Prop where
  arrived : s.AllArrived
  drained : ∀ i, (s.nodes i).Drained

theorem CmSystem.Settled.exposed (h : s.Settled) (hi : CmInv s) {m : CmMessageRequest n} (i : Fin n) :
    (i, m) ∈ s.exposed ↔ s.Issued m := by
  refine ⟨fun hm => ((hi.exposed i m).mp hm).1, fun hm => (hi.exposed i m).mpr ⟨hm, .inl ?_⟩⟩
  by_contra hnew
  have hpending := (hi.mem_pending_iff h.arrived m).mpr ⟨hm, hnew⟩
  obtain ⟨hthread, hpq⟩ := h.drained i
  simp [CmNode.pending, hthread, hpq, CmThread.taken] at hpending

theorem settles (h : Reachable cmStep .init s) (hl : s.LayeredWrites) :
    Within cmStep Unasked (s.sendWork + (5 * s.issued.length + 1) * n) s fun t =>
      Reachable cmStep .init t ∧ t.Issued = s.Issued ∧ t.Settled := by
  refine (all_sent h).bind fun t ht => ?_
  have hissued : t.Issued = s.Issued := by
    funext m
    simp only [CmSystem.Issued, ht.2.1]
  have hall : Within cmStep Unasked ((5 * s.issued.length + 1) * (List.finRange n).length) t
      fun u => Applying s u ∧ ∀ i ∈ List.finRange n, (u.nodes i).Drained :=
    .all (P := Applying s) (R := fun i t => (t.nodes i).Drained) (List.finRange n)
      (fun u hu i _ => server_drains hu hl i) ⟨ht.1, ht.2.2, hissued⟩
  refine hall.mono (by rw [List.length_finRange]) fun u hu => ?_
  exact ⟨hu.1.reachable, hu.1.issued, hu.1.arrived, fun i => hu.2 i (List.mem_finRange i)⟩

end Applying

section Agreement

variable {n : ℕ} {s t : CmSystem n} {i : Fin n} {k : Bytes}

/-- Of any two writes of the key one comes before the other. -/
def CmSystem.KeyOrdered (s : CmSystem n) (k : Bytes) : Prop :=
  ∀ m m', s.Issued m → s.Issued m' → cStr m.key = k → cStr m'.key = k →
    m.vecClk ≤ m'.vecClk ∨ m'.vecClk ≤ m.vecClk

/-- The servers hold the value of the key's last write, or nothing if there is none. -/
def CmSystem.AgreesOn (s : CmSystem n) (k : Bytes) : Prop :=
  (∃ m, s.Issued m ∧ cStr m.key = k ∧ (∀ x, s.Issued x → cStr x.key = k → x.vecClk ≤ m.vecClk) ∧
    ∀ i, (s.nodes i).cmKsMap k = some ⟨m.key, m.value⟩) ∨
  (∀ m, s.Issued m → cStr m.key ≠ k) ∧ ∀ i, (s.nodes i).cmKsMap k = none

theorem CmSystem.Settled.agreesOn (h : s.Settled) (hr : Reachable cmStep .init s)
    (hk : s.KeyOrdered k) : s.AgreesOn k := by
  have hi := cmInv_reachable hr
  have ho := readsInOrder_of_reachable hr
  have hstores := storesReadable_reachable hr
  by_cases hnone : ∀ m, s.Issued m → cStr m.key ≠ k
  · refine .inr ⟨hnone, fun i => ?_⟩
    rw [hstores i k]
    cases hread : s.readable i k with
    | none => rfl
    | some m =>
      have hm := (h.exposed hi i).mp (mem_exposed_of_readable hread)
      exact absurd (CmSystem.readable_key hread) (hnone m hm)
  · simp only [not_forall, not_not] at hnone
    obtain ⟨x, hx, hxk⟩ := hnone
    -- what each server returns is the greatest write
    have hlast : ∀ i, ∃ m, s.readable i k = some m ∧ s.Issued m ∧ cStr m.key = k ∧
        ∀ y, s.Issued y → cStr y.key = k → y.vecClk ≤ m.vecClk := by
      intro i
      obtain ⟨m, hm⟩ := readable_isSome ((h.exposed hi i).mpr hx) hxk
      have hissued := (h.exposed hi i).mp (mem_exposed_of_readable hm)
      have hmk := CmSystem.readable_key hm
      refine ⟨m, hm, hissued, hmk, fun y hy hyk => ?_⟩
      rcases hk m y hissued hy hmk hyk with hle | hle
      · exact (ho.readable_greatest hi.flow hm ((h.exposed hi i).mpr hy) hyk hle) ▸ le_rfl
      · exact hle
    obtain ⟨m, _, hissued, hmk, hgreatest⟩ := hlast x.nodenum
    refine .inl ⟨m, hissued, hmk, hgreatest, fun i => ?_⟩
    obtain ⟨m', hread', hissued', hmk', hgreatest'⟩ := hlast i
    obtain rfl : m' = m := ho.vecClk_inj hi.flow hissued' hissued
      (le_antisymm (hgreatest m' hissued' hmk') (hgreatest' m hissued hmk))
    rw [hstores i k, hread']
    rfl

/-- From any state the servers can deliver and apply all writes, if of four writes
none is concurrent with two ordered ones; and whenever they have, they agree on the
keys whose writes are ordered. -/
theorem cm_converges (h : Reachable cmStep .init s) (hl : s.LayeredWrites) :
    Within cmStep Unasked (s.sendWork + (5 * s.issued.length + 1) * n) s fun t =>
      t.Issued = s.Issued ∧ t.Settled ∧ ∀ k, s.KeyOrdered k → t.AgreesOn k := by
  refine (settles h hl).mono le_rfl fun t ht => ⟨ht.2.1, ht.2.2, fun k hk => ?_⟩
  have hkt : t.KeyOrdered k := by
    intro m m' hm hm'
    rw [ht.2.1] at hm hm'
    exact hk m m' hm hm'
  exact ht.2.2.agreesOn ht.1 hkt

/-- Three writes or fewer. -/
theorem layeredWrites_of_few (h : s.issued.length ≤ 3) : s.LayeredWrites := by
  intro a ha b hb c hc d hd hnd
  have hsub : [a, b, c, d] ⊆ s.issued := by
    intro m hm
    simp only [List.mem_cons, List.not_mem_nil, or_false] at hm
    rcases hm with rfl | rfl | rfl | rfl <;> exact mem_issued.mpr ‹_›
  have hle := (List.subperm_of_subset hnd hsub).length_le
  simp only [List.length_cons, List.length_nil] at hle
  omega

theorem countingRun_converges : ∃ s : CmSystem 3,
    runWhen cmStep (fun _ _ => True) .init (countingRun.take 11) = some s ∧
      s.issued.length = 2 ∧
      Within cmStep Unasked (s.sendWork + (5 * s.issued.length + 1) * 3) s fun t =>
        t.Issued = s.Issued ∧ t.Settled ∧ ∀ k, s.KeyOrdered k → t.AgreesOn k := by
  obtain ⟨s, hs, hlen⟩ := exists_of_run (P := fun s : CmSystem 3 => s.issued.length = 2)
    (show (runWhen cmStep (fun _ _ => True) .init (countingRun.take 11)).any _ = true by
      decide +kernel)
  exact ⟨s, hs, hlen, cm_converges (reachableWhen_of_runWhen hs)
    (layeredWrites_of_few (by omega))⟩

/-- Two servers write one key, and each applies the other's write last. -/
def crossingRun : List (CmAction 3) :=
  [.request 0 (cmPut 0 [120] [49]), .request 1 (cmPut 1 [120] [50])] ++ broadcastTo 0 [1, 2] ++
    broadcastTo 1 [0, 2] ++ List.replicate 5 (.process 0) ++ List.replicate 5 (.process 1) ++
    List.replicate 10 (.process 2)

theorem crossingRun_disagrees : ∃ s : CmSystem 3, Reachable cmStep .init s ∧ s.Settled ∧
    (s.nodes 0).cmKsMap [120] ≠ (s.nodes 1).cmKsMap [120] := by
  obtain ⟨s, hs, harrived, hidle, hpq, hstore⟩ := exists_of_run (P := fun s : CmSystem 3 =>
      s.AllArrived ∧ (∀ i, (s.nodes i).thread.isIdle = true) ∧
        (∀ i, (s.nodes i).cmMessagePq = []) ∧
        (s.nodes 0).cmKsMap [120] ≠ (s.nodes 1).cmKsMap [120])
    (show (runWhen cmStep (fun _ _ => True) .init crossingRun).any _ = true by decide +kernel)
  refine ⟨s, reachableWhen_of_runWhen hs, ⟨harrived, fun i => ⟨?_, hpq i⟩⟩, hstore⟩
  have hthread := hidle i
  cases he : (s.nodes i).thread with
  | idle => rfl
  | _ => simp [he, CmThread.isIdle] at hthread

end Agreement

end KeyValueStore
