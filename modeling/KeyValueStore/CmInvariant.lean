import KeyValueStore.CmSystem

/-! What holds in every state of the CM servers. Each message is at every other
server exactly once, on its way, in the queue or with the thread, until that
server counts it; and a server's writes become readable in the order of its
clock, but for the one that its thread has written and not yet counted. -/

namespace KeyValueStore

section Places

variable {n : ℕ}

/-- The message in the store that the clock does not count yet. -/
def CmThread.uncounted : CmThread n → Option (CmMessageRequest n)
  | .applied req => some req
  | .popped req => some req
  | _ => none

def CmThread.taken : CmThread n → Option (CmMessageRequest n)
  | .popped req => some req
  | _ => none

def CmNode.pending (node : CmNode n) : List (CmMessageRequest n) :=
  node.thread.taken.toList ++ node.cmMessagePq

def CmNode.undelivered (node : CmNode n) (i : Fin n) : List (CmMessageRequest n) :=
  match node.sending with
  | some (_, dsts) =>
    if i ∈ dsts then node.cmMessageOutqueue else node.cmMessageOutqueue.tail
  | none => node.cmMessageOutqueue

/-- What server `i` has not counted yet of the messages of server `k`. -/
def CmSystem.waiting (s : CmSystem n) (i k : Fin n) : List (CmMessageRequest n) :=
  (s.nodes i).pending.filter (fun m => m.nodenum = k) ++ (s.nodes k).undelivered i

/-- A message that passed the test stays at the top of the queue; one that was
fetched may be overtaken by messages before it. -/
def CmNode.ThreadInv (node : CmNode n) : Prop :=
  match node.thread with
  | .idle => True
  | .fetched req => req ∈ node.cmMessagePq ∧
      ∃ top, node.cmMessagePq.head? = some top ∧ top.vecClk ≤ req.vecClk
  | .ready req => node.cmMessagePq.head? = some req ∧ (cmStamping n).Deliverable node.t req
  | .applied req => node.cmMessagePq.head? = some req ∧ (cmStamping n).Deliverable node.t req
  | .popped req => (cmStamping n).Deliverable node.t req

structure CmNodeInv (me : Fin n) (node : CmNode n) : Prop where
  foreign : ∀ m ∈ node.pending, m.nodenum ≠ me
  own : ∀ m ∈ node.cmMessageOutqueue, m.nodenum = me
  sending : ∀ m dsts, node.sending = some (m, dsts) →
    node.cmMessageOutqueue.head? = some m ∧ dsts.Nodup ∧ me ∉ dsts
  thread : node.ThreadInv

/-- `waiting` says that messages are neither lost nor duplicated. -/
structure CmInv (s : CmSystem n) : Prop where
  stamped : (cmStamping n).WellStamped s.Issued
  closed : ∀ i, (cmStamping n).Closed s.Issued (s.nodes i).t
  counted : ∀ m, s.Issued m → (cmStamping n).Counts (s.nodes m.nodenum).t m
  bounded : ∀ m, s.Issued m → (cmStamping n).index m ≤ intMax
  waiting : ∀ i k, i ≠ k → (s.waiting i k).Nodup ∧ ∀ m, m ∈ s.waiting i k ↔
    m.nodenum = k ∧ s.Issued m ∧ ¬ (cmStamping n).Counts (s.nodes i).t m
  node : ∀ i, CmNodeInv i (s.nodes i)
  exposed : ∀ i m, (i, m) ∈ s.exposed ↔ s.Issued m ∧
    ((cmStamping n).Counts (s.nodes i).t m ∨ (s.nodes i).thread.uncounted = some m)
  nodup : s.exposed.Nodup

/-- What server `i` has not counted yet of the messages of server `k`, with those
that failed to reach it. -/
def CmSystem.missing (s : CmSystem n) (lost : Fin n → List (CmMessageRequest n)) (i k : Fin n) :
    List (CmMessageRequest n) :=
  (lost i).filter (fun m => m.nodenum = k) ++ s.waiting i k

/-- `CmInv` with the messages `lost` that no queue and no sending thread holds. -/
structure CmFlowInv (lost : Fin n → List (CmMessageRequest n)) (s : CmSystem n) : Prop where
  stamped : (cmStamping n).WellStamped s.Issued
  closed : ∀ i, (cmStamping n).Closed s.Issued (s.nodes i).t
  counted : ∀ m, s.Issued m → (cmStamping n).Counts (s.nodes m.nodenum).t m
  bounded : ∀ m, s.Issued m → (cmStamping n).index m ≤ intMax
  missing : ∀ i k, i ≠ k → (s.missing lost i k).Nodup ∧ ∀ m, m ∈ s.missing lost i k ↔
    m.nodenum = k ∧ s.Issued m ∧ ¬ (cmStamping n).Counts (s.nodes i).t m
  foreign : ∀ i, ∀ m ∈ lost i, m.nodenum ≠ i
  node : ∀ i, CmNodeInv i (s.nodes i)
  exposed : ∀ i m, (i, m) ∈ s.exposed ↔ s.Issued m ∧
    ((cmStamping n).Counts (s.nodes i).t m ∨ (s.nodes i).thread.uncounted = some m)
  nodup : s.exposed.Nodup

end Places

section Facts

variable {n : ℕ} {s : CmSystem n} {i k : Fin n} {m m' : CmMessageRequest n}
  {lost : Fin n → List (CmMessageRequest n)}

theorem CmInv.flow (h : CmInv s) : CmFlowInv (fun _ => []) s :=
  ⟨h.stamped, h.closed, h.counted, h.bounded, h.waiting, fun _ _ hm => absurd hm (by simp), h.node,
    h.exposed, h.nodup⟩

theorem CmFlowInv.cmInv (h : CmFlowInv (fun _ => []) s) : CmInv s :=
  ⟨h.stamped, h.closed, h.counted, h.bounded, h.missing, h.node, h.exposed, h.nodup⟩

theorem CmNode.mem_pending_of_mem_pq {node : CmNode n} (h : m ∈ node.cmMessagePq) :
    m ∈ node.pending := List.mem_append_right _ h

theorem CmNode.mem_pending_of_top {node : CmNode n} (h : node.cmMessagePq.head? = some m) :
    m ∈ node.pending := mem_pending_of_mem_pq (List.mem_of_mem_head? h)

theorem CmNodeInv.uncounted {node : CmNode n} (h : CmNodeInv i node)
    (hm : node.thread.uncounted = some m) :
    m ∈ node.pending ∧ (cmStamping n).Deliverable node.t m := by
  have hthread := h.thread
  unfold CmNode.ThreadInv at hthread
  cases he : node.thread with
  | applied req =>
    simp only [he, CmThread.uncounted, Option.some.injEq] at hm hthread
    exact hm ▸ ⟨CmNode.mem_pending_of_top hthread.1, hthread.2⟩
  | popped req =>
    simp only [he, CmThread.uncounted, Option.some.injEq] at hm hthread
    exact hm ▸ ⟨by simp [CmNode.pending, he, CmThread.taken], hthread⟩
  | _ => simp [he, CmThread.uncounted] at hm

theorem deliverable_update {t : Fin n → ℕ} {c : ℕ} (h : (cmStamping n).Deliverable t m)
    (hne : m.nodenum ≠ i) (hc : t i ≤ c) :
    (cmStamping n).Deliverable (Function.update t i c) m := by
  refine ⟨fun k hk => ?_, ?_⟩
  · by_cases hki : k = i
    · subst hki
      simpa using (h.1 k hk).trans hc
    · simpa [hki] using h.1 k hk
  · have hsender : (cmStamping n).sender m ≠ i := hne
    simpa [hsender] using h.2

namespace CmFlowInv

theorem mem_missing_of_pending (hi : CmFlowInv lost s) (hm : m ∈ (s.nodes i).pending) :
    i ≠ m.nodenum ∧ m ∈ s.missing lost i m.nodenum := by
  refine ⟨((hi.node i).foreign m hm).symm, List.mem_append_right _ (List.mem_append_left _ ?_)⟩
  simp [hm]

theorem of_pending (hi : CmFlowInv lost s) (hm : m ∈ (s.nodes i).pending) :
    s.Issued m ∧ ¬ (cmStamping n).Counts (s.nodes i).t m := by
  obtain ⟨hne, hw⟩ := hi.mem_missing_of_pending hm
  exact (((hi.missing i m.nodenum hne).2 m).mp hw).2

theorem of_lost (hi : CmFlowInv lost s) (hm : m ∈ lost i) :
    s.Issued m ∧ ¬ (cmStamping n).Counts (s.nodes i).t m := by
  refine (((hi.missing i m.nodenum (hi.foreign i m hm).symm).2 m).mp ?_).2
  exact List.mem_append_left _ (by simp [hm])

theorem clock_le (hi : CmFlowInv lost s) (i k : Fin n) : (s.nodes i).t k ≤ (s.nodes k).t k := by
  rcases Nat.eq_zero_or_pos ((s.nodes i).t k) with hzero | hpos
  · omega
  · obtain ⟨m, hm, hk, hindex, _⟩ := hi.closed i k _ hpos (Nat.le_refl _)
    have hcount := hi.counted m hm
    have hk' : m.nodenum = k := hk
    simp only [Stamping.Counts, hindex] at hcount
    rw [hk'] at hcount
    exact hk' ▸ hcount

theorem entry_le (hi : CmFlowInv lost s) {t : Fin n → ℕ}
    (hclosed : (cmStamping n).Closed s.Issued t) (k : Fin n) : t k ≤ intMax := by
  rcases Nat.eq_zero_or_pos (t k) with hzero | hpos
  · omega
  · obtain ⟨m, hm, _, hindex, _⟩ := hclosed k _ hpos (Nat.le_refl _)
    exact hindex ▸ hi.bounded m hm

theorem clock_le_intMax (hi : CmFlowInv lost s) (i k : Fin n) : (s.nodes i).t k ≤ intMax :=
  hi.entry_le (hi.closed i) k

theorem stamp_le_intMax (hi : CmFlowInv lost s) (hm : s.Issued m) (k : Fin n) :
    m.vecClk k ≤ intMax :=
  hi.entry_le (hi.stamped.closed m hm) k

/-- The test of a message that waits does not overflow. -/
theorem clock_lt_intMax (hi : CmFlowInv lost s) (hm : s.Issued m)
    (hmiss : ¬ (cmStamping n).Counts (s.nodes i).t m) : (s.nodes i).t m.nodenum < intMax :=
  (Nat.lt_of_not_le hmiss).trans_le (hi.bounded m hm)

/-- The only uncounted message that a deliverable one depends on is itself. -/
theorem eq_of_deliverable (hi : CmFlowInv lost s) (hm : s.Issued m) (hm' : s.Issued m')
    (hd : (cmStamping n).Deliverable (s.nodes i).t m)
    (hmiss : ¬ (cmStamping n).Counts (s.nodes i).t m') (hle : m'.vecClk ≤ m.vecClk) : m' = m := by
  by_contra hne
  exact hmiss (hd.counts hi.stamped hm hm' (hle _) hne)

end CmFlowInv

theorem cmFlowInv_init : CmFlowInv (fun _ => []) (CmSystem.init (n := n)) where
  stamped := ⟨fun m hm => by simp [CmSystem.Issued, CmSystem.init] at hm,
    fun m m' hm => by simp [CmSystem.Issued, CmSystem.init] at hm,
    fun m hm => by simp [CmSystem.Issued, CmSystem.init] at hm⟩
  closed := fun i => Stamping.closed_zero
  counted := fun m hm => by simp [CmSystem.Issued, CmSystem.init] at hm
  bounded := fun m hm => by simp [CmSystem.Issued, CmSystem.init] at hm
  missing := fun i k hne => by
    simp [CmSystem.missing, CmSystem.waiting, CmNode.pending, CmNode.undelivered, CmSystem.init,
      CmThread.taken, CmSystem.Issued]
  foreign := fun i m hm => absurd hm (by simp)
  node := fun i => ⟨by simp [CmNode.pending, CmSystem.init, CmThread.taken],
    by simp [CmSystem.init], by simp [CmSystem.init], by simp [CmNode.ThreadInv, CmSystem.init]⟩
  exposed := fun i m => by simp [CmSystem.Issued, CmSystem.init]
  nodup := List.nodup_nil

end Facts

section Moves

variable {n : ℕ} {s t : CmSystem n} {i k : Fin n} {lost lost' : Fin n → List (CmMessageRequest n)}

/-- Steps that only move messages and threads keep the rest. -/
theorem CmFlowInv.of_moves (hi : CmFlowInv lost s) (ht : ∀ i, (t.nodes i).t = (s.nodes i).t)
    (he : t.exposed = s.exposed)
    (hw : ∀ i k, i ≠ k → (t.missing lost' i k).Perm (s.missing lost i k))
    (hl : ∀ i, ∀ m ∈ lost' i, m.nodenum ≠ i)
    (hu : ∀ i, (t.nodes i).thread.uncounted = (s.nodes i).thread.uncounted)
    (hn : ∀ i, CmNodeInv i (t.nodes i)) : CmFlowInv lost' t := by
  have hissued : t.Issued = s.Issued := by
    funext m
    simp only [CmSystem.Issued, he]
  refine ⟨hissued ▸ hi.stamped, fun i => ?_, fun m hm => ?_, hissued ▸ hi.bounded,
    fun i k hne => ?_, hl, hn, fun i m => ?_, he ▸ hi.nodup⟩
  · rw [hissued, ht]
    exact hi.closed i
  · rw [ht]
    exact hi.counted m (hissued ▸ hm)
  · obtain ⟨hnodup, hmem⟩ := hi.missing i k hne
    refine ⟨(hw i k hne).nodup_iff.mpr hnodup, fun m => ?_⟩
    rw [(hw i k hne).mem_iff, hissued, ht]
    exact hmem m
  · rw [he, hissued, ht, hu]
    exact hi.exposed i m

theorem CmSystem.setNode_nodes {node : CmNode n} (j : Fin n) :
    (s.setNode i node).nodes j = if j = i then node else s.nodes j := by
  simp [CmSystem.setNode, Function.update_apply]

theorem CmSystem.setNode_kept {β : Type*} {node : CmNode n} (f : CmNode n → β)
    (h : f node = f (s.nodes i)) (j : Fin n) : f ((s.setNode i node).nodes j) = f (s.nodes j) := by
  rw [setNode_nodes]
  split
  next he => rw [he, h]
  next => rfl

theorem CmFlowInv.setNode (hi : CmFlowInv lost s) {node : CmNode n} (ht : node.t = (s.nodes i).t)
    (hu : node.thread.uncounted = (s.nodes i).thread.uncounted)
    (hp : node.pending.Perm (s.nodes i).pending)
    (hd : ∀ a, a ≠ i → node.undelivered a = (s.nodes i).undelivered a)
    (hn : CmNodeInv i node) : CmFlowInv lost (s.setNode i node) := by
  refine hi.of_moves (CmSystem.setNode_kept CmNode.t ht) rfl (fun j k hne => ?_) hi.foreign
    (CmSystem.setNode_kept (fun node => node.thread.uncounted) hu) (fun j => ?_)
  · refine List.Perm.append_left _ (List.Perm.append (List.Perm.filter _ ?_) (.of_eq ?_))
    · rw [CmSystem.setNode_nodes]
      split
      next he => exact he ▸ hp
      next => exact .refl _
    · rw [CmSystem.setNode_nodes]
      split
      next he => exact he ▸ hd j (he ▸ hne)
      next => rfl
  · rw [CmSystem.setNode_nodes]
    split
    next he => exact he ▸ hn
    next => exact hi.node j

theorem CmFlowInv.sendFront (hi : CmFlowInv lost s) {req : CmMessageRequest n}
    (hsending : (s.nodes k).sending = none)
    (hfront : (s.nodes k).cmMessageOutqueue.head? = some req) :
    CmFlowInv lost (s.setNode k
      { s.nodes k with sending := some (req, (List.finRange n).filter (· ≠ k)) }) := by
  refine hi.setNode rfl rfl (.refl _) (fun a ha => ?_)
    ⟨(hi.node k).foreign, (hi.node k).own, fun m dsts he => ?_, (hi.node k).thread⟩
  · simp [CmNode.undelivered, hsending, ha]
  · simp only [Option.some.injEq, Prod.mk.injEq] at he
    obtain ⟨rfl, rfl⟩ := he
    exact ⟨hfront, (List.nodup_finRange n).filter _, by simp⟩

theorem CmFlowInv.sent (hi : CmFlowInv lost s) {req : CmMessageRequest n}
    (hsending : (s.nodes k).sending = some (req, [])) :
    CmFlowInv lost (s.setNode k { s.nodes k with
      cmMessageOutqueue := (s.nodes k).cmMessageOutqueue.tail, sending := none }) := by
  refine hi.setNode rfl rfl (.refl _) (fun a _ => ?_)
    ⟨(hi.node k).foreign, fun m hm => (hi.node k).own m (List.mem_of_mem_tail hm),
      fun m dsts he => by simp at he, (hi.node k).thread⟩
  simp [CmNode.undelivered, hsending]

theorem CmFlowInv.fetch (hi : CmFlowInv lost s) {req : CmMessageRequest n}
    (hthread : (s.nodes i).thread = .idle)
    (htop : (s.nodes i).cmMessagePq.head? = some req) :
    CmFlowInv lost (s.setNode i { s.nodes i with thread := .fetched req }) := by
  have hpending : CmNode.pending { s.nodes i with thread := .fetched req } =
      (s.nodes i).pending := by simp [CmNode.pending, hthread, CmThread.taken]
  refine hi.setNode rfl (by simp [hthread, CmThread.uncounted]) (.of_eq hpending) (fun _ _ => rfl)
    ⟨hpending ▸ (hi.node i).foreign, (hi.node i).own, (hi.node i).sending, ?_⟩
  exact ⟨List.mem_of_mem_head? htop, req, htop, le_rfl⟩

/-- A message that passes the test is still at the top: those that overtook it
are before it, hence counted, hence gone. -/
theorem CmFlowInv.pass (hi : CmFlowInv lost s) {req : CmMessageRequest n}
    (hthread : (s.nodes i).thread = .fetched req)
    (hready : frontReady (s.nodes i).t req = some true) :
    CmFlowInv lost (s.setNode i { s.nodes i with thread := .ready req }) := by
  have hpending : CmNode.pending { s.nodes i with thread := .ready req } =
      (s.nodes i).pending := by simp [CmNode.pending, hthread, CmThread.taken]
  refine hi.setNode rfl (by simp [hthread, CmThread.uncounted]) (.of_eq hpending) (fun _ _ => rfl)
    ⟨hpending ▸ (hi.node i).foreign, (hi.node i).own, (hi.node i).sending, ?_⟩
  have hfetched := (hi.node i).thread
  simp only [CmNode.ThreadInv, hthread] at hfetched
  obtain ⟨hmem, top, htop, hle⟩ := hfetched
  have hd := deliverable_of_frontReady hready
  have hreq := hi.of_pending (CmNode.mem_pending_of_mem_pq hmem)
  have hmiss := hi.of_pending (CmNode.mem_pending_of_top htop)
  obtain rfl := hi.eq_of_deliverable hreq.1 hmiss.1 hd hmiss.2 hle
  exact ⟨htop, hd⟩

theorem CmFlowInv.refuse (hi : CmFlowInv lost s) {req : CmMessageRequest n}
    (hthread : (s.nodes i).thread = .fetched req) :
    CmFlowInv lost (s.setNode i { s.nodes i with thread := .idle }) := by
  have hpending : CmNode.pending { s.nodes i with thread := .idle } =
      (s.nodes i).pending := by simp [CmNode.pending, hthread, CmThread.taken]
  exact hi.setNode rfl (by simp [hthread, CmThread.uncounted]) (.of_eq hpending) (fun _ _ => rfl)
    ⟨hpending ▸ (hi.node i).foreign, (hi.node i).own, (hi.node i).sending, trivial⟩

theorem CmFlowInv.pop (hi : CmFlowInv lost s) {req : CmMessageRequest n}
    (hthread : (s.nodes i).thread = .applied req) :
    CmFlowInv lost (s.setNode i { s.nodes i with
      cmMessagePq := BinaryHeap.pop vectclkComparator (s.nodes i).cmMessagePq
      thread := .popped req }) := by
  have happlied := (hi.node i).thread
  simp only [CmNode.ThreadInv, hthread] at happlied
  obtain ⟨rest, hpq⟩ := List.head?_eq_some_iff.mp happlied.1
  have hpending : (CmNode.pending { s.nodes i with
      cmMessagePq := BinaryHeap.pop vectclkComparator (s.nodes i).cmMessagePq
      thread := .popped req }).Perm (s.nodes i).pending := by
    simp only [CmNode.pending, hthread, CmThread.taken, hpq, Option.toList_some,
      Option.toList_none, List.nil_append, List.singleton_append]
    exact (BinaryHeap.pop_perm vectclkComparator req rest).cons req
  refine hi.setNode rfl (by simp [hthread, CmThread.uncounted]) hpending (fun _ _ => rfl)
    ⟨fun m hm => (hi.node i).foreign m (hpending.mem_iff.mp hm), (hi.node i).own,
      (hi.node i).sending, happlied.2⟩

end Moves

end KeyValueStore
