import KeyValueStore.CmAccounting
import Mathlib.Data.Fin.VecNotation

/-! Where the CM messages are: what a server received is in its queue until it is
applied, and what a sending thread removed from its queue was received by all
other servers, as long as no call fails. -/

namespace KeyValueStore

section Queue

variable {n : ℕ} {s t : CmLossySystem n} {i k : Fin n} {req : CmMessageRequest n}

/-- What a server received is in its queue or was applied. -/
def CmLossySystem.Kept (s : CmLossySystem n) : Prop :=
  ∀ i m, (i, m) ∈ s.received ↔
    m ∈ (s.sys.nodes i).cmMessagePq ∨ m.nodenum ≠ i ∧ (i, m) ∈ s.sys.exposed

theorem CmLossySystem.Kept.of_eq (h : s.Kept) (hreceived : t.received = s.received)
    (hpq : ∀ i, (t.sys.nodes i).cmMessagePq = (s.sys.nodes i).cmMessagePq)
    (hexposed : t.sys.exposed = s.sys.exposed) : t.Kept := by
  intro i m
  rw [hreceived, hpq, hexposed]
  exact h i m

theorem CmLossySystem.Kept.push (h : s.Kept) (hreceived : t.received = (i, req) :: s.received)
    (hpq : ∀ j, (t.sys.nodes j).cmMessagePq = if j = i then
      BinaryHeap.push vectclkComparator (s.sys.nodes j).cmMessagePq req
      else (s.sys.nodes j).cmMessagePq)
    (hexposed : t.sys.exposed = s.sys.exposed) : t.Kept := by
  intro j m
  rw [hreceived, hexposed, hpq, List.mem_cons, Prod.mk.injEq, h j m]
  by_cases hj : j = i
  · simp only [hj, if_true, true_and, (BinaryHeap.push_perm _ _ _).mem_iff, List.mem_cons, or_assoc]
  · simp [hj]

theorem kept_apply (hi : CmFlowInv s.lost s.sys) (h : s.Kept)
    (hthread : (s.sys.nodes i).thread = .ready req) (hreceived : t.received = s.received)
    (hpq : ∀ j, (t.sys.nodes j).cmMessagePq = (s.sys.nodes j).cmMessagePq)
    (hexposed : t.sys.exposed = (i, req) :: s.sys.exposed) : t.Kept := by
  have hready := (hi.node i).thread
  simp only [CmNode.ThreadInv, hthread] at hready
  have hmem : req ∈ (s.sys.nodes i).cmMessagePq := List.mem_of_mem_head? hready.1
  intro j m
  rw [hreceived, hexposed, hpq, h j m, List.mem_cons, Prod.mk.injEq]
  constructor
  · rintro (hm | ⟨hne, hm⟩)
    · exact .inl hm
    · exact .inr ⟨hne, .inr hm⟩
  · rintro (hm | ⟨hne, ⟨rfl, rfl⟩ | hm⟩)
    · exact .inl hm
    · exact .inl hmem
    · exact .inr ⟨hne, hm⟩

/-- The message that leaves the queue is the one at its top, which was applied. -/
theorem CmFlowInv.pop_perm {s : CmSystem n} {lost : Fin n → List (CmMessageRequest n)}
    (hi : CmFlowInv lost s) (hthread : (s.nodes i).thread = .applied req) :
    (i, req) ∈ s.exposed ∧ (s.nodes i).cmMessagePq.head? = some req ∧
      (req :: BinaryHeap.pop vectclkComparator (s.nodes i).cmMessagePq).Perm
        (s.nodes i).cmMessagePq := by
  have happlied := (hi.node i).thread
  simp only [CmNode.ThreadInv, hthread] at happlied
  have hissued := (hi.of_pending (CmNode.mem_pending_of_top happlied.1)).1
  obtain ⟨rest, hpq⟩ := List.head?_eq_some_iff.mp happlied.1
  refine ⟨(hi.exposed i req).mpr ⟨hissued, .inr (by simp [hthread, CmThread.uncounted])⟩,
    happlied.1, ?_⟩
  rw [hpq]
  exact (BinaryHeap.pop_perm vectclkComparator req rest).cons req

theorem kept_pop (hi : CmFlowInv s.lost s.sys) (h : s.Kept)
    (hthread : (s.sys.nodes i).thread = .applied req) (hreceived : t.received = s.received)
    (hpq : ∀ j, (t.sys.nodes j).cmMessagePq = if j = i then
      BinaryHeap.pop vectclkComparator (s.sys.nodes j).cmMessagePq
      else (s.sys.nodes j).cmMessagePq)
    (hexposed : t.sys.exposed = s.sys.exposed) : t.Kept := by
  obtain ⟨happlied, htop, hperm⟩ := hi.pop_perm hthread
  have hforeign := (hi.node i).foreign req (CmNode.mem_pending_of_top htop)
  intro j m
  rw [hreceived, hexposed, hpq, h j m]
  by_cases hj : j = i
  · subst hj
    rw [if_pos rfl, ← hperm.mem_iff, List.mem_cons]
    constructor
    · rintro ((rfl | hm) | hm)
      · exact .inr ⟨hforeign, happlied⟩
      · exact .inl hm
      · exact .inr hm
    · exact Or.imp_left .inr
  · rw [if_neg hj]

theorem kept_step (hi : CmFlowInv s.lost s.sys) (h : s.Kept) {a : CmLossyAction n}
    (hstep : CmLossySteps s a t) : t.Kept := by
  cases hstep with
  | fail => exact h.of_eq rfl (CmSystem.setNode_kept CmNode.cmMessagePq (by rfl)) rfl
  | @late j i req =>
    refine h.push rfl (fun a => ?_) rfl
    change CmNode.cmMessagePq ((s.sys.setNode i _).nodes a) = _
    rw [CmSystem.setNode_nodes]
    split
    next he => exact he ▸ rfl
    next => rfl
  | @act a u hact =>
    cases cmStep_steps hact with
    | other => exact h
    | @write i request _ hmax =>
      have hw := cmWrites_expose (m := cmWrittenMessage i request (s.sys.nodes i)) hmax rfl
      intro j m
      rw [hw.cmMessagePq, hw.exposed, List.mem_cons, Prod.mk.injEq]
      refine (h j m).trans (or_congr_right (and_congr_right fun hne => ?_))
      refine (or_iff_right ?_).symm
      rintro ⟨rfl, rfl⟩
      exact hne hw.nodenum
    | @arrive k i req dsts u hsending hdst ht =>
      have harrives := cmArrives_setNode hi hsending hdst ht
      have hreceived : cmReceipt s.sys (.arrive k i) ++ s.received = (i, req) :: s.received := by
        simp [cmReceipt, hsending]
      refine h.push hreceived (fun a => ?_) harrives.exposed
      rw [harrives.nodes]
      split_ifs with h₁ h₂
      · exact h₁ ▸ rfl
      · exact h₂ ▸ rfl
      · rfl
    | apply hthread =>
      exact kept_apply hi h hthread rfl (CmSystem.setNode_kept CmNode.cmMessagePq (by rfl)) rfl
    | @pop i req hthread =>
      refine kept_pop hi h hthread rfl (fun a => ?_) rfl
      change CmNode.cmMessagePq ((s.sys.setNode i _).nodes a) = _
      rw [CmSystem.setNode_nodes]
      split
      next he => exact he ▸ rfl
      next => rfl
    | sendFront | sent | fetch | pass | refuse | advance =>
      exact h.of_eq rfl (CmSystem.setNode_kept CmNode.cmMessagePq (by rfl)) rfl

theorem kept_reachable {ok : CmLossySystem n → CmLossyAction n → Prop}
    (h : ReachableWhen cmLossyStep ok CmLossySystem.init s) : s.Kept :=
  h.invariant (P := CmLossySystem.Kept)
    (fun _ _ => by simp [CmLossySystem.init, CmSystem.init])
    (fun _ _ _ hu hk _ hstep => kept_step (cmLossyInv_reachable hu) hk (cmLossyStep_steps hstep))

end Queue

section Conservation

variable {n : ℕ} {s : CmLossySystem n} {i : Fin n}

theorem CmFlowInv.nodup_pending {s : CmSystem n} {lost : Fin n → List (CmMessageRequest n)}
    (hi : CmFlowInv lost s) (i : Fin n) : (s.nodes i).pending.Nodup := by
  rw [List.nodup_iff_count_le_one]
  intro m
  by_cases hm : m ∈ (s.nodes i).pending
  · have hne := (hi.mem_missing_of_pending hm).1
    have hnodup := (hi.missing i m.nodenum hne).1
    have hpart : ((s.nodes i).pending.filter fun m' => m'.nodenum = m.nodenum).Nodup :=
      (List.nodup_append'.mp (List.nodup_append'.mp hnodup).2.1).1
    have hcount := List.count_filter (l := (s.nodes i).pending)
      (p := fun m' => m'.nodenum = m.nodenum) (a := m) (by simp)
    rw [← hcount]
    exact List.nodup_iff_count_le_one.mp hpart m
  · rw [List.count_eq_zero_of_not_mem hm]
    exact Nat.zero_le _

/-- A received message is in the queue or applied, once; both only between the
thread's update of the store and its `pop`, which removes just that message. -/
structure CmLossySystem.Conserves (s : CmLossySystem n) (i : Fin n) : Prop where
  popped : ∀ req, (s.sys.nodes i).thread = .applied req → (i, req) ∈ s.sys.exposed ∧
    (s.sys.nodes i).cmMessagePq.head? = some req ∧
    (req :: BinaryHeap.pop vectclkComparator (s.sys.nodes i).cmMessagePq).Perm
      (s.sys.nodes i).cmMessagePq
  kept : ∀ m, (i, m) ∈ s.received →
    m ∈ (s.sys.nodes i).cmMessagePq ∨ (i, m) ∈ s.sys.exposed
  once : ∀ m, (s.sys.nodes i).cmMessagePq.count m ≤ 1 ∧ s.sys.exposed.count (i, m) ≤ 1
  both : ∀ m, (i, m) ∈ s.received → (m ∈ (s.sys.nodes i).cmMessagePq ∧ (i, m) ∈ s.sys.exposed ↔
    (s.sys.nodes i).thread = .applied m)

theorem received_conserved (h : Reachable cmLossyStep CmLossySystem.init s) (i : Fin n) :
    s.Conserves i := by
  have hi := cmLossyInv_reachable h
  have hpending := hi.nodup_pending i
  refine ⟨fun req hthread => hi.pop_perm hthread, fun m hm => ?_, fun m => ⟨?_, ?_⟩,
    fun m hm => ⟨fun hboth => ?_, fun hthread => ?_⟩⟩
  · exact ((kept_reachable h i m).mp hm).imp_right And.right
  · exact List.nodup_iff_count_le_one.mp (List.nodup_append'.mp hpending).2.1 m
  · exact List.nodup_iff_count_le_one.mp hi.nodup _
  · have hnot := (hi.of_pending (CmNode.mem_pending_of_mem_pq hboth.1)).2
    have hu := ((hi.exposed i m).mp hboth.2).2.resolve_left hnot
    cases hthread : (s.sys.nodes i).thread with
    | applied req =>
      rw [hthread] at hu
      obtain rfl := Option.some.inj hu
      rfl
    | popped req =>
      -- a message that was taken is no longer in the queue
      rw [hthread] at hu
      obtain rfl := Option.some.inj hu
      rw [CmNode.pending, hthread] at hpending
      exact absurd hboth.1 (List.nodup_cons.mp hpending).1
    | _ => simp [hthread, CmThread.uncounted] at hu
  · obtain ⟨happlied, htop, _⟩ := hi.pop_perm hthread
    exact ⟨List.mem_of_mem_head? htop, happlied⟩

/-- Server 1's thread has applied server 0's message and not yet removed it when
another one arrives. -/
def gapRun : List (CmLossyAction 3) :=
  [.act (.request 0 (cmPut 0 [120] [49])), .act (.request 2 (cmPut 2 [121] [50])),
    .act (.sendFront 0), .act (.arrive 0 1), .act (.process 1), .act (.process 1),
    .act (.process 1), .act (.sendFront 2), .act (.arrive 2 1)]

theorem gapRun_both : ∃ s : CmLossySystem 3, Reachable cmLossyStep CmLossySystem.init s ∧
    (1, ⟨0, [120], [49], ![1, 0, 0]⟩) ∈ s.received ∧
    ⟨0, [120], [49], ![1, 0, 0]⟩ ∈ (s.sys.nodes 1).cmMessagePq ∧
    (1, ⟨0, [120], [49], ![1, 0, 0]⟩) ∈ s.sys.exposed := by
  obtain ⟨s, hs, hp⟩ := exists_of_run (P := fun s : CmLossySystem 3 =>
    (1, ⟨0, [120], [49], ![1, 0, 0]⟩) ∈ s.received ∧
      ⟨0, [120], [49], ![1, 0, 0]⟩ ∈ (s.sys.nodes 1).cmMessagePq ∧
      (1, ⟨0, [120], [49], ![1, 0, 0]⟩) ∈ s.sys.exposed)
    (show (runWhen cmLossyStep (fun _ _ => True) .init gapRun).any _ = true by decide +kernel)
  exact ⟨s, reachableWhen_of_runWhen hs, hp⟩

/-- Then the thread removes the message that it applied, and the other one stays. -/
theorem gapRun_conserves : ∃ s : CmLossySystem 3, (Reachable cmLossyStep CmLossySystem.init s ∧
      (s.sys.nodes 1).cmMessagePq = [⟨2, [121], [50], ![0, 0, 1]⟩]) ∧ s.Conserves 1 := by
  obtain ⟨s, hs, hp⟩ := exists_of_run (P := fun s : CmLossySystem 3 =>
    (s.sys.nodes 1).cmMessagePq = [⟨2, [121], [50], ![0, 0, 1]⟩])
    (show (runWhen cmLossyStep (fun _ _ => True) .init
      (gapRun ++ [.act (.process 1)])).any _ = true by decide +kernel)
  have hr := reachableWhen_of_runWhen hs
  exact ⟨s, ⟨hr, hp⟩, received_conserved hr 1⟩

end Conservation

section Delivery

variable {n : ℕ} {s t : CmLossySystem n} {i k : Fin n} {lost : Fin n → List (CmMessageRequest n)}

/-- The messages of server `k` that server `i` received, oldest first. -/
def CmLossySystem.receivedFrom (s : CmLossySystem n) (i k : Fin n) : List (CmMessageRequest n) :=
  ((s.received.filter fun p => p.1 = i ∧ p.2.nodenum = k).map Prod.snd).reverse

/-- No call fails before the server handled it. -/
def CallsArrive (_ : CmLossySystem n) : CmLossyAction n → Prop
  | .fail _ _ => False
  | _ => True

instance (s : CmLossySystem n) (a : CmLossyAction n) : Decidable (CallsArrive s a) :=
  match a with
  | .fail _ _ => .isFalse id
  | .act _ | .late _ => .isTrue trivial

/-- The writes of a server have arrived or are on their way, in order. -/
structure CmLossySystem.Arriving (s : CmLossySystem n) : Prop where
  failed : s.failed = []
  writes : ∀ i k, i ≠ k →
    s.receivedFrom i k ++ (s.sys.nodes k).undelivered i = s.sys.writes k

theorem arriving_of_eq (h : s.Arriving) (hfailed : t.failed = s.failed)
    (hreceived : t.received = s.received) (hway : ∀ i k, i ≠ k →
      (t.sys.nodes k).undelivered i = (s.sys.nodes k).undelivered i)
    (hwrites : ∀ k, t.sys.writes k = s.sys.writes k) : t.Arriving := by
  refine ⟨hfailed.trans h.failed, fun i k hne => ?_⟩
  rw [hway i k hne, hwrites, ← h.writes i k hne, CmLossySystem.receivedFrom, hreceived]
  rfl

theorem undelivered_setNode {s : CmSystem n} {node : CmNode n}
    (h : ∀ a, a ≠ i → node.undelivered a = (s.nodes i).undelivered a) :
    ∀ a b, a ≠ b → ((s.setNode i node).nodes b).undelivered a = (s.nodes b).undelivered a := by
  intro a b hab
  rw [CmSystem.setNode_nodes]
  split
  next hb => exact hb ▸ h a (hb ▸ hab)
  next => rfl

theorem arriving_step (hi : CmFlowInv s.lost s.sys) (h : s.Arriving) {a : CmLossyAction n}
    (hok : CallsArrive s a) (hstep : CmLossySteps s a t) : t.Arriving := by
  cases hstep with
  | fail => exact absurd hok id
  | late hj =>
    rw [h.failed] at hj
    simp at hj
  | @act a u hact =>
    cases cmStep_steps hact with
    | other => exact h
    | @write i request _ hmax =>
      have hw := cmWrites_expose (m := cmWrittenMessage i request (s.sys.nodes i)) hmax rfl
      refine ⟨h.failed, fun a k hne => ?_⟩
      have hold := h.writes a k hne
      rw [hw.undelivered hi, CmSystem.writes, CmSystem.log_expose hw.exposed, hw.nodenum,
        ← CmSystem.writes, ← hold, List.append_assoc]
      simp only [and_self, eq_comm (a := k)]
      rfl
    | @arrive k i req dsts u hsending hdst ht =>
      have harrives := cmArrives_setNode hi hsending hdst ht
      obtain ⟨rest, hqueue⟩ := harrives.front hi
      have hnum := harrives.nodenum hi
      refine ⟨h.failed, fun a b hne => ?_⟩
      have hold := h.writes a b hne
      have hwrites : ∀ b, (CmSystem.writes (u.setNode i (cmRequestHandler req (u.nodes i))) b) =
          s.sys.writes b := fun b => by
        rw [CmSystem.writes, CmSystem.log, harrives.exposed]
        rfl
      rw [harrives.undelivered hi, hwrites, ← hold, CmLossySystem.receivedFrom]
      simp only [cmReceipt, hsending, Option.map_some, Option.toList_some, List.singleton_append,
        List.filter_cons, decide_eq_true_eq, hnum]
      by_cases hself : b = k ∧ a = i
      · obtain ⟨rfl, rfl⟩ := hself
        have hway : (s.sys.nodes b).undelivered a = req :: rest := by
          simp [CmNode.undelivered, hsending, hdst, hqueue]
        simp [hqueue, hway, CmLossySystem.receivedFrom]
      · have hne' : ¬ (i = a ∧ k = b) := fun he => hself ⟨he.2.symm, he.1.symm⟩
        simp [hself, hne', CmLossySystem.receivedFrom]
    | sent hsending =>
      exact arriving_of_eq h rfl rfl (undelivered_setNode fun a _ => by
        simp [CmNode.undelivered, hsending]) (fun _ => rfl)
    | @sendFront k req hsending hfront =>
      exact arriving_of_eq h rfl rfl (undelivered_setNode fun a ha => by
        simp [CmNode.undelivered, hsending, ha]) (fun _ => rfl)
    | @apply i req hthread =>
      have hne := (hi.node i).foreign req (hi.ready hthread).1
      exact arriving_of_eq h rfl rfl (undelivered_setNode fun _ _ => rfl) (writes_apply rfl hne)
    | fetch | pass | refuse | pop | advance =>
      exact arriving_of_eq h rfl rfl (undelivered_setNode fun _ _ => rfl) (fun _ => rfl)

theorem arriving_reachable (h : ReachableWhen cmLossyStep CallsArrive CmLossySystem.init s) :
    s.Arriving := by
  refine h.invariant (P := CmLossySystem.Arriving) ⟨rfl, fun _ _ _ => rfl⟩
    (fun _ _ _ hu ha hok hstep => ?_)
  exact arriving_step (cmLossyInv_reachable hu) ha hok (cmLossyStep_steps hstep)

/-- What left the queue of a server was received by all others, which received
its writes without a gap. -/
structure CmLossySystem.NothingLost (s : CmLossySystem n) : Prop where
  removed : ∀ m ∈ s.removed, ∀ i, i ≠ m.nodenum → (i, m) ∈ s.received
  gapless : ∀ i k, i ≠ k → (s.receivedFrom i k).map (fun m => m.vecClk k) =
    List.range' 1 (s.receivedFrom i k).length

theorem CmLossySystem.mem_receivedFrom {m : CmMessageRequest n} :
    m ∈ s.receivedFrom i k ↔ (i, m) ∈ s.received ∧ m.nodenum = k := by
  simp only [receivedFrom, List.mem_reverse, List.mem_map, List.mem_filter, decide_eq_true_eq]
  constructor
  · rintro ⟨⟨_, m'⟩, ⟨hm, rfl, hk⟩, rfl⟩
    exact ⟨hm, hk⟩
  · rintro ⟨hm, hk⟩
    exact ⟨(i, m), ⟨hm, rfl, hk⟩, rfl⟩

theorem nothingLost_of_arrive (h : ReachableWhen cmLossyStep CallsArrive CmLossySystem.init s) :
    s.NothingLost := by
  have harriving := arriving_reachable h
  refine ⟨fun m hm i hne => ?_, fun i k hne => ?_⟩
  · -- the queue is no shorter than what is on its way, so what left it is no longer
    have hway : ((s.sys.nodes m.nodenum).undelivered i).length ≤
        ((s.sys.nodes m.nodenum).cmMessageOutqueue).length := by
      unfold CmNode.undelivered
      split
      next =>
        split
        next => exact le_rfl
        next => exact (List.length_tail ..).le.trans (Nat.sub_le _ _)
      next => exact le_rfl
    have hfirst : s.removedBy m.nodenum <+: s.receivedFrom i m.nodenum := by
      have hqueued := queued_reachable h m.nodenum
      have hwrites := harriving.writes i m.nodenum hne
      refine List.prefix_of_prefix_length_le ⟨_, hqueued⟩ ⟨_, hwrites⟩ ?_
      have hlen := congrArg List.length (hqueued.trans hwrites.symm)
      simp only [List.length_append] at hlen
      omega
    have hremoved : m ∈ s.removedBy m.nodenum := by
      simp [CmLossySystem.removedBy, hm]
    exact (CmLossySystem.mem_receivedFrom.mp (hfirst.subset hremoved)).1
  · have hfirst : s.receivedFrom i k <+: s.sys.writes k := ⟨_, harriving.writes i k hne⟩
    have hle := hfirst.length_le
    rw [CmSystem.writes, (logged_reachable h).length] at hle
    calc (s.receivedFrom i k).map (fun m => m.vecClk k)
        = ((s.sys.writes k).take (s.receivedFrom i k).length).map (fun m => m.vecClk k) := by
          rw [← List.prefix_iff_eq_take.mp hfirst]
      _ = List.range' 1 (s.receivedFrom i k).length := by
          rw [List.map_take, CmSystem.writes, logged_reachable h k k,
            List.take_range'_of_length_ge hle]

/-- The call to server 1 with server 0's first message fails. -/
def failingRun : List (CmLossyAction 2) :=
  [.act (.request 0 (cmPut 0 [120] [49])), .act (.request 0 (cmPut 0 [120] [50])),
    .act (.sendFront 0), .fail 0 1, .act (.sent 0), .act (.sendFront 0), .act (.arrive 0 1)]

theorem failingRun_lost : ∃ s : CmLossySystem 2, Reachable cmLossyStep CmLossySystem.init s ∧
    ¬ s.NothingLost := by
  obtain ⟨s, hs, hremoved, hmissing⟩ := exists_of_run (P := fun s : CmLossySystem 2 =>
    (⟨0, [120], [49], ![1, 0]⟩ : CmMessageRequest 2) ∈ s.removed ∧
      ((1, ⟨0, [120], [49], ![1, 0]⟩) : Fin 2 × CmMessageRequest 2) ∉ s.received)
    (show (runWhen cmLossyStep (fun _ _ => True) .init failingRun).any _ = true by decide +kernel)
  exact ⟨s, reachableWhen_of_runWhen hs, fun h => hmissing (h.removed _ hremoved 1 (by decide))⟩

theorem arrivingRun_nothingLost : ∃ s : CmLossySystem 2,
    ((s.receivedFrom 1 0).map (fun m => m.vecClk 0) = [1, 2] ∧ s.removed.length = 1) ∧
    s.NothingLost := by
  obtain ⟨s, hs, hp⟩ := exists_of_run (P := fun s : CmLossySystem 2 =>
    (s.receivedFrom 1 0).map (fun m => m.vecClk 0) = [1, 2] ∧ s.removed.length = 1)
    (show (runWhen cmLossyStep CallsArrive .init [.act (.request 0 (cmPut 0 [120] [49])),
      .act (.request 0 (cmPut 0 [120] [50])), .act (.sendFront 0), .act (.arrive 0 1),
      .act (.sent 0), .act (.sendFront 0), .act (.arrive 0 1)]).any _ = true by decide +kernel)
  exact ⟨s, hp, nothingLost_of_arrive (reachableWhen_of_runWhen hs)⟩

end Delivery

end KeyValueStore
