import KeyValueStore.CmInvariant

/-! Arrivals, writes and applied messages keep what holds of the CM servers; so it
holds in every state that they reach. -/

namespace KeyValueStore

section Arrival

variable {n : ℕ} {s : CmSystem n} {i k : Fin n} {req : CmMessageRequest n}
  {dsts : List (Fin n)} {lost : Fin n → List (CmMessageRequest n)}

theorem cmRequestHandler_pending (node : CmNode n) :
    (cmRequestHandler req node).pending.Perm (req :: node.pending) := by
  have hpush := BinaryHeap.push_perm vectclkComparator node.cmMessagePq req
  exact (hpush.append_left _).trans List.perm_middle

/-- A push leaves the thread's message where it has to be, when a message that
gets before a deliverable one can only be that message. -/
theorem cmRequestHandler_threadInv {node : CmNode n} (h : node.ThreadInv)
    (heq : ∀ r, (cmStamping n).Deliverable node.t r → node.cmMessagePq.head? = some r →
      req.vecClk ≤ r.vecClk → req = r) : (cmRequestHandler req node).ThreadInv := by
  have htop : ∀ r, (cmStamping n).Deliverable node.t r → node.cmMessagePq.head? = some r →
      (cmRequestHandler req node).cmMessagePq.head? = some r := by
    intro r hd hr
    rcases BinaryHeap.push_root vectclkComparator (x := req) hr with hroot | ⟨hroot, hle⟩
    · exact hroot
    · exact heq r hd hr (vectclkComparator_iff.mp hle) ▸ hroot
  have hthread : (cmRequestHandler req node).thread = node.thread := rfl
  unfold CmNode.ThreadInv at h ⊢
  cases he : node.thread with
  | idle => simp [hthread, he]
  | fetched r =>
    simp only [he, hthread] at h ⊢
    obtain ⟨hmem, top, hroot, hle⟩ := h
    refine ⟨(BinaryHeap.push_perm _ _ _).mem_iff.mpr (List.mem_cons_of_mem _ hmem), ?_⟩
    rcases BinaryHeap.push_root vectclkComparator (x := req) hroot with h | ⟨h, hcomp⟩
    · exact ⟨top, h, hle⟩
    · exact ⟨req, h, (vectclkComparator_iff.mp hcomp).trans hle⟩
  | ready r =>
    simp only [he, hthread] at h ⊢
    exact ⟨htop r h.2 h.1, h.2⟩
  | applied r =>
    simp only [he, hthread] at h ⊢
    exact ⟨htop r h.2 h.1, h.2⟩
  | popped r =>
    simp only [he, hthread] at h ⊢
    exact h

/-- The front of server `k`'s queue arrives at server `i`. -/
structure CmArrives (s t : CmSystem n) (k i : Fin n) (req : CmMessageRequest n)
    (dsts : List (Fin n)) : Prop where
  ne : i ≠ k
  sending : (s.nodes k).sending = some (req, dsts)
  mem : i ∈ dsts
  nodes : ∀ j, t.nodes j = if j = i then cmRequestHandler req (s.nodes i)
    else if j = k then { s.nodes k with sending := some (req, dsts.erase i) } else s.nodes j
  exposed : t.exposed = s.exposed

theorem cmArrives_setNode (hi : CmFlowInv lost s) {t : CmSystem n}
    (hsending : (s.nodes k).sending = some (req, dsts)) (hdst : i ∈ dsts)
    (ht : t = s.setNode k { s.nodes k with sending := some (req, dsts.erase i) }) :
    CmArrives s (t.setNode i (cmRequestHandler req (t.nodes i))) k i req dsts := by
  have hne : i ≠ k := fun he => ((hi.node k).sending req dsts hsending).2.2 (he ▸ hdst)
  have hnode : t.nodes i = s.nodes i := by
    rw [ht, CmSystem.setNode_nodes, if_neg hne]
  refine ⟨hne, hsending, hdst, fun j => ?_, by rw [ht]; rfl⟩
  rw [CmSystem.setNode_nodes, hnode, ht, CmSystem.setNode_nodes]

namespace CmArrives

variable {t : CmSystem n}

theorem kept {β : Type*} (h : CmArrives s t k i req dsts) (f : CmNode n → β)
    (hpush : ∀ node, f (cmRequestHandler req node) = f node)
    (hsend : ∀ node : CmNode n, ∀ sending, f { node with sending := sending } = f node)
    (j : Fin n) : f (t.nodes j) = f (s.nodes j) := by
  rw [h.nodes]
  split_ifs with h₁ h₂
  · rw [h₁, hpush]
  · rw [h₂, hsend]
  · rfl

theorem front (h : CmArrives s t k i req dsts) (hi : CmFlowInv lost s) :
    ∃ rest, (s.nodes k).cmMessageOutqueue = req :: rest :=
  List.head?_eq_some_iff.mp ((hi.node k).sending req dsts h.sending).1

theorem nodenum (h : CmArrives s t k i req dsts) (hi : CmFlowInv lost s) : req.nodenum = k := by
  obtain ⟨rest, hqueue⟩ := h.front hi
  exact (hi.node k).own req (by simp [hqueue])

theorem missing (h : CmArrives s t k i req dsts) (hi : CmFlowInv lost s) :
    s.Issued req ∧ ¬ (cmStamping n).Counts (s.nodes i).t req := by
  obtain ⟨rest, hqueue⟩ := h.front hi
  refine (((hi.missing i k h.ne).2 req).mp
    (List.mem_append_right _ (List.mem_append_right _ ?_))).2
  simp [CmNode.undelivered, h.sending, h.mem, hqueue]

theorem pending (h : CmArrives s t k i req dsts) (a : Fin n) : (t.nodes a).pending.Perm
    (if a = i then req :: (s.nodes a).pending else (s.nodes a).pending) := by
  rw [h.nodes]
  split_ifs with h₁ h₂
  · exact h₁ ▸ cmRequestHandler_pending _
  · exact h₂ ▸ .refl _
  · exact .refl _

theorem undelivered (h : CmArrives s t k i req dsts) (hi : CmFlowInv lost s) (b a : Fin n) :
    (t.nodes b).undelivered a =
      if b = k ∧ a = i then (s.nodes b).cmMessageOutqueue.tail else (s.nodes b).undelivered a := by
  have hnodup := ((hi.node k).sending req dsts h.sending).2.1
  rw [h.nodes]
  by_cases h₁ : b = i
  · rw [if_pos h₁, if_neg (fun he => h.ne (h₁.symm.trans he.1)), h₁]
    rfl
  rw [if_neg h₁]
  by_cases h₂ : b = k
  · subst h₂
    by_cases h₃ : a = i
    · simp [CmNode.undelivered, h₃, hnodup.mem_erase_iff]
    · simp [CmNode.undelivered, h₃, h.sending, hnodup.mem_erase_iff]
  · simp [h₂]

theorem waiting (h : CmArrives s t k i req dsts) (hi : CmFlowInv lost s) (a b : Fin n) :
    (t.waiting a b).Perm (s.waiting a b) := by
  refine (((h.pending a).filter _).append (.of_eq (h.undelivered hi b a))).trans ?_
  unfold CmSystem.waiting
  by_cases h₁ : a = i
  · subst h₁
    by_cases h₂ : b = k
    · subst h₂
      obtain ⟨rest, hqueue⟩ := h.front hi
      have hway : (s.nodes b).undelivered a = req :: rest := by
        simp [CmNode.undelivered, h.sending, h.mem, hqueue]
      simp only [hway, hqueue, h.nodenum hi, if_true, and_self, List.filter_cons, decide_true,
        List.tail_cons]
      exact List.perm_middle.symm
    · simp [h₂, h.nodenum hi, Ne.symm h₂]
  · simp [h₁]

theorem node (h : CmArrives s t k i req dsts) (hi : CmFlowInv lost s) (j : Fin n) :
    CmNodeInv j (t.nodes j) := by
  rw [h.nodes]
  split_ifs with h₁ h₂
  · subst h₁
    refine ⟨fun m hm => ?_, (hi.node j).own, (hi.node j).sending,
      cmRequestHandler_threadInv (hi.node j).thread fun r hd hr hle => ?_⟩
    · rcases List.mem_cons.mp ((cmRequestHandler_pending _).mem_iff.mp hm) with rfl | hm
      · exact h.nodenum hi ▸ h.ne.symm
      · exact (hi.node j).foreign m hm
    · have hr := (hi.of_pending (CmNode.mem_pending_of_top hr)).1
      exact hi.eq_of_deliverable hr (h.missing hi).1 hd (h.missing hi).2 hle
  · subst h₂
    obtain ⟨hfront, hnodup, hself⟩ := (hi.node j).sending req dsts h.sending
    refine ⟨(hi.node j).foreign, (hi.node j).own, fun m ds he => ?_, (hi.node j).thread⟩
    simp only [Option.some.injEq, Prod.mk.injEq] at he
    obtain ⟨rfl, rfl⟩ := he
    exact ⟨hfront, hnodup.erase _, fun hm => hself (List.mem_of_mem_erase hm)⟩
  · exact hi.node j

theorem inv (h : CmArrives s t k i req dsts) (hi : CmFlowInv lost s) : CmFlowInv lost t :=
  hi.of_moves (h.kept CmNode.t (fun _ => rfl) (fun _ _ => rfl)) h.exposed
    (fun a b _ => (h.waiting hi a b).append_left _) hi.foreign
    (h.kept (fun node => node.thread.uncounted) (fun _ => rfl) (fun _ _ => rfl)) (h.node hi)

end CmArrives

end Arrival

section Write

variable {n : ℕ} {s : CmSystem n} {i : Fin n} {request : KeyStoreRequest}
  {m : CmMessageRequest n} {lost : Fin n → List (CmMessageRequest n)}

theorem CmNode.ThreadInv.of_clock {node node' : CmNode n} (h : node.ThreadInv)
    (hpq : node'.cmMessagePq = node.cmMessagePq) (hthread : node'.thread = node.thread)
    (hd : ∀ r ∈ node.pending, (cmStamping n).Deliverable node.t r →
      (cmStamping n).Deliverable node'.t r) : node'.ThreadInv := by
  unfold CmNode.ThreadInv at h ⊢
  rw [hthread, hpq]
  cases he : node.thread with
  | idle => trivial
  | fetched r => simpa only [he] using h
  | ready r =>
    simp only [he] at h
    exact ⟨h.1, hd r (CmNode.mem_pending_of_top h.1) h.2⟩
  | applied r =>
    simp only [he] at h
    exact ⟨h.1, hd r (CmNode.mem_pending_of_top h.1) h.2⟩
  | popped r =>
    simp only [he] at h
    exact hd r (by simp [CmNode.pending, he, CmThread.taken]) h

/-- What a WRITE at server `i` does: it issues `m`, which counts what the server
counts and itself. -/
structure CmWrites (s t : CmSystem n) (i : Fin n) (m : CmMessageRequest n) : Prop where
  bounded : (s.nodes i).t i < intMax
  nodenum : m.nodenum = i
  stamp : m.vecClk = Function.update (s.nodes i).t i ((s.nodes i).t i + 1)
  exposed : t.exposed = (i, m) :: s.exposed
  clock : ∀ j, (t.nodes j).t = if j = i then m.vecClk else (s.nodes j).t
  thread : ∀ j, (t.nodes j).thread = (s.nodes j).thread
  cmMessagePq : ∀ j, (t.nodes j).cmMessagePq = (s.nodes j).cmMessagePq
  sending : ∀ j, (t.nodes j).sending = (s.nodes j).sending
  outqueue : ∀ j, (t.nodes j).cmMessageOutqueue =
    (s.nodes j).cmMessageOutqueue ++ if j = i then [m] else []

theorem cmWrites_expose (hmax : (s.nodes i).t i < intMax)
    (hm : m = cmWrittenMessage i request (s.nodes i)) :
    CmWrites s ((s.setNode i (cmWritten i request (s.nodes i))).expose i m) i m where
  bounded := hmax
  nodenum := hm ▸ rfl
  stamp := hm ▸ rfl
  exposed := rfl
  clock := fun j => by
    change ((s.setNode i _).nodes j).t = _
    rw [CmSystem.setNode_nodes]
    split
    next => exact hm ▸ rfl
    next => rfl
  thread := CmSystem.setNode_kept CmNode.thread rfl
  cmMessagePq := CmSystem.setNode_kept CmNode.cmMessagePq rfl
  sending := CmSystem.setNode_kept CmNode.sending rfl
  outqueue := fun j => by
    change ((s.setNode i _).nodes j).cmMessageOutqueue = _
    rw [CmSystem.setNode_nodes]
    split
    next he =>
      rw [he, hm]
      rfl
    next => exact (List.append_nil _).symm

namespace CmWrites

variable {t : CmSystem n}

theorem index (h : CmWrites s t i m) : (cmStamping n).index m = (s.nodes i).t i + 1 := by
  change m.vecClk m.nodenum = _
  rw [h.stamp, h.nodenum, Function.update_self]

theorem le_clock (h : CmWrites s t i m) (j : Fin n) : (s.nodes j).t ≤ (t.nodes j).t := by
  rw [h.clock]
  split
  next he =>
    intro k
    by_cases hk : k = i
    · simp [he, hk, h.stamp]
    · simp [he, hk, h.stamp]
  next => exact le_rfl

theorem fresh (h : CmWrites s t i m) (hi : CmFlowInv lost s) : ¬ s.Issued m := by
  intro hm
  have hcount : (cmStamping n).index m ≤ (s.nodes m.nodenum).t m.nodenum := hi.counted m hm
  rw [h.index, h.nodenum] at hcount
  omega

theorem issued (h : CmWrites s t i m) (x : CmMessageRequest n) :
    t.Issued x ↔ x = m ∨ s.Issued x := by
  simp only [CmSystem.Issued, h.exposed, List.mem_cons, Prod.mk.injEq]
  constructor
  · rintro (⟨_, hx⟩ | hx)
    · exact .inl hx
    · exact .inr hx
  · rintro (rfl | hx)
    · exact .inl ⟨h.nodenum, rfl⟩
    · exact .inr hx

theorem not_counts (h : CmWrites s t i m) (hi : CmFlowInv lost s) (j : Fin n) :
    ¬ (cmStamping n).Counts (s.nodes j).t m := by
  have hle := hi.clock_le j i
  have hindex := h.index
  change ¬ (cmStamping n).index m ≤ (s.nodes j).t m.nodenum
  rw [h.nodenum]
  omega

/-- No server but `i` counts `m`, and no other message is counted anew. -/
theorem counts_iff (h : CmWrites s t i m) (hi : CmFlowInv lost s) {x : CmMessageRequest n}
    (hx : t.Issued x) (j : Fin n) : (cmStamping n).Counts (t.nodes j).t x ↔
      (x = m ∧ j = i) ∨ (cmStamping n).Counts (s.nodes j).t x := by
  by_cases hj : j = i
  · subst hj
    have hself : (cmStamping n).Counts (t.nodes j).t m := by
      rw [h.clock, if_pos rfl]
      exact Nat.le_refl _
    rcases (h.issued x).mp hx with rfl | hx
    · exact iff_of_true hself (.inl ⟨rfl, rfl⟩)
    · by_cases hnum : x.nodenum = j
      · have hcount : (cmStamping n).Counts (s.nodes j).t x := hnum ▸ hi.counted x hx
        exact iff_of_true (hcount.mono (h.le_clock j)) (.inr hcount)
      · have hne : x ≠ m := fun he => hnum (he ▸ h.nodenum)
        have hsender : (cmStamping n).sender x ≠ j := hnum
        simp [Stamping.Counts, h.clock, h.stamp, hsender, hne]
  · rw [h.clock, if_neg hj]
    simp [hj]

theorem pending (h : CmWrites s t i m) (j : Fin n) :
    (t.nodes j).pending = (s.nodes j).pending := by
  rw [CmNode.pending, CmNode.pending, h.thread, h.cmMessagePq]

theorem undelivered (h : CmWrites s t i m) (hi : CmFlowInv lost s) (j a : Fin n) :
    (t.nodes j).undelivered a = (s.nodes j).undelivered a ++ if j = i then [m] else [] := by
  unfold CmNode.undelivered
  rw [h.outqueue, h.sending]
  cases he : (s.nodes j).sending with
  | none => rfl
  | some sending =>
    obtain ⟨rest, hrest⟩ := List.head?_eq_some_iff.mp ((hi.node j).sending _ _ he).1
    by_cases ha : a ∈ sending.2
    · simp [ha]
    · simp [ha, hrest]

theorem stamped (h : CmWrites s t i m) (hi : CmFlowInv lost s) :
    (cmStamping n).WellStamped t.Issued ∧ (cmStamping n).Closed t.Issued m.vecClk := by
  have hsender : (cmStamping n).sender m = i := h.nodenum
  refine hi.stamped.issue (hi.closed i) (fun x hx hk => ?_) ?_ h.issued
  · have hnum : x.nodenum = i := hk.trans hsender
    exact hnum ▸ hi.counted x hx
  · rw [hsender]
    exact h.stamp

theorem missing (h : CmWrites s t i m) (hi : CmFlowInv lost s) {a b : Fin n} (hab : a ≠ b) :
    (t.missing lost a b).Nodup ∧ ∀ x, x ∈ t.missing lost a b ↔
      x.nodenum = b ∧ t.Issued x ∧ ¬ (cmStamping n).Counts (t.nodes a).t x := by
  obtain ⟨hnodup, hmem⟩ := hi.missing a b hab
  have hgrow : t.missing lost a b = s.missing lost a b ++ if b = i then [m] else [] := by
    rw [CmSystem.missing, CmSystem.missing, CmSystem.waiting, CmSystem.waiting, h.pending,
      h.undelivered hi, List.append_assoc, List.append_assoc]
  have hnew : m ∉ s.missing lost a b := fun hm => h.fresh hi ((hmem m).mp hm).2.1
  have hcounts : ∀ x, t.Issued x → x.nodenum = b →
      ((cmStamping n).Counts (t.nodes a).t x ↔ (cmStamping n).Counts (s.nodes a).t x) := by
    intro x hx hnum
    have hself : ¬ (x = m ∧ a = i) := fun he =>
      hab (he.2.trans (h.nodenum.symm.trans (he.1 ▸ hnum)))
    rw [h.counts_iff hi hx, or_iff_right hself]
  refine ⟨?_, fun x => ?_⟩
  · rw [hgrow]
    split
    next => exact List.concat_eq_append ▸ hnodup.concat hnew
    next => exact (List.append_nil _).symm ▸ hnodup
  have hlast : x ∈ (if b = i then [m] else []) ↔ x = m ∧ x.nodenum = b := by
    split
    next hb =>
      rw [List.mem_singleton]
      exact ⟨fun he => ⟨he, he ▸ h.nodenum.trans hb.symm⟩, And.left⟩
    next hb =>
      have hne : ¬ (x = m ∧ x.nodenum = b) := fun he => hb (he.2.symm.trans (he.1 ▸ h.nodenum))
      simp [hne]
  rw [hgrow, List.mem_append, hmem, hlast]
  constructor
  · rintro (⟨hnum, hx, hc⟩ | ⟨rfl, hnum⟩)
    · have hx' := (h.issued x).mpr (.inr hx)
      exact ⟨hnum, hx', fun hc' => hc ((hcounts x hx' hnum).mp hc')⟩
    · have hx' := (h.issued x).mpr (.inl rfl)
      exact ⟨hnum, hx', fun hc' => h.not_counts hi a ((hcounts x hx' hnum).mp hc')⟩
  · rintro ⟨hnum, hx', hc⟩
    rcases (h.issued x).mp hx' with rfl | hx
    · exact .inr ⟨rfl, hnum⟩
    · exact .inl ⟨hnum, hx, fun hc' => hc ((hcounts x hx' hnum).mpr hc')⟩

theorem node (h : CmWrites s t i m) (hi : CmFlowInv lost s) (j : Fin n) : CmNodeInv j (t.nodes j) := by
  obtain ⟨hforeign, hown, hsending, hthread⟩ := hi.node j
  refine ⟨h.pending j ▸ hforeign, fun x hx => ?_, fun x dsts he => ?_,
    hthread.of_clock (h.cmMessagePq j) (h.thread j) fun r hr hd => ?_⟩
  · rw [h.outqueue] at hx
    rcases List.mem_append.mp hx with hx | hx
    · exact hown x hx
    · split at hx
      next hj =>
        rw [List.mem_singleton.mp hx, hj]
        exact h.nodenum
      next => simp at hx
  · rw [h.sending] at he
    obtain ⟨hfront, hrest⟩ := hsending x dsts he
    obtain ⟨rest, hqueue⟩ := List.head?_eq_some_iff.mp hfront
    refine ⟨?_, hrest⟩
    rw [h.outqueue, hqueue]
    rfl
  · rw [h.clock]
    split
    next hj =>
      subst hj
      rw [h.stamp]
      exact deliverable_update hd (hforeign r hr) (Nat.le_succ _)
    next => exact hd

theorem exposed_iff (h : CmWrites s t i m) (hi : CmFlowInv lost s) (a : Fin n) (x : CmMessageRequest n) :
    (a, x) ∈ t.exposed ↔ t.Issued x ∧
      ((cmStamping n).Counts (t.nodes a).t x ∨ (t.nodes a).thread.uncounted = some x) := by
  have hnew : (a, m) ∉ s.exposed := fun hm => h.fresh hi ((hi.exposed a m).mp hm).1
  rw [h.exposed, List.mem_cons, Prod.mk.injEq, h.thread]
  constructor
  · rintro (⟨rfl, rfl⟩ | hx)
    · have hx' := (h.issued x).mpr (.inl rfl)
      exact ⟨hx', .inl ((h.counts_iff hi hx' a).mpr (.inl ⟨rfl, rfl⟩))⟩
    · obtain ⟨hx, hc⟩ := (hi.exposed a x).mp hx
      have hx' := (h.issued x).mpr (.inr hx)
      exact ⟨hx', hc.imp_left fun hc => (h.counts_iff hi hx' a).mpr (.inr hc)⟩
  · rintro ⟨hx', hc | hu⟩
    · rcases (h.counts_iff hi hx' a).mp hc with ⟨rfl, rfl⟩ | hc
      · exact .inl ⟨rfl, rfl⟩
      · rcases (h.issued x).mp hx' with rfl | hx
        · exact absurd hc (h.not_counts hi a)
        · exact .inr ((hi.exposed a x).mpr ⟨hx, .inl hc⟩)
    · have hx := (hi.of_pending ((hi.node a).uncounted hu).1).1
      exact .inr ((hi.exposed a x).mpr ⟨hx, .inr hu⟩)

theorem inv (h : CmWrites s t i m) (hi : CmFlowInv lost s) : CmFlowInv lost t where
  stamped := (h.stamped hi).1
  closed := fun j => by
    rw [h.clock]
    split
    next => exact (h.stamped hi).2
    next => exact (hi.closed j).mono fun x hx => (h.issued x).mpr (.inr hx)
  counted := fun x hx => by
    rw [h.counts_iff hi hx]
    rcases (h.issued x).mp hx with rfl | hx
    · exact .inl ⟨rfl, h.nodenum⟩
    · exact .inr (hi.counted x hx)
  bounded := fun x hx => by
    rcases (h.issued x).mp hx with rfl | hx
    · exact h.index ▸ h.bounded
    · exact hi.bounded x hx
  missing := fun _ _ hab => h.missing hi hab
  foreign := hi.foreign
  node := h.node hi
  exposed := h.exposed_iff hi
  nodup := by
    rw [h.exposed]
    exact List.nodup_cons.mpr ⟨fun hm => h.fresh hi ((hi.exposed i m).mp hm).1, hi.nodup⟩

end CmWrites

end Write

section Processing

variable {n : ℕ} {s t : CmSystem n} {i : Fin n} {req : CmMessageRequest n}
  {lost : Fin n → List (CmMessageRequest n)}

theorem issued_of_foreign (hexposed : t.exposed = (i, req) :: s.exposed)
    (hforeign : req.nodenum ≠ i) : t.Issued = s.Issued := by
  funext x
  simp only [CmSystem.Issued, hexposed, List.mem_cons, Prod.mk.injEq, eq_iff_iff,
    or_iff_right_iff_imp]
  rintro ⟨hnum, rfl⟩
  exact absurd hnum hforeign

/-- What passed the test waits in the queue, and what the store holds uncounted
is nothing. -/
theorem CmFlowInv.ready (hi : CmFlowInv lost s) (hthread : (s.nodes i).thread = .ready req) :
    req ∈ (s.nodes i).pending ∧ (s.nodes i).thread.uncounted = none := by
  have hready := (hi.node i).thread
  simp only [CmNode.ThreadInv, hthread] at hready
  exact ⟨CmNode.mem_pending_of_top hready.1, by simp [hthread, CmThread.uncounted]⟩

theorem CmFlowInv.exposed_apply (hi : CmFlowInv lost s) (hthread : (s.nodes i).thread = .ready req)
    (a : Fin n) (x : CmMessageRequest n) : (a, x) ∈ (i, req) :: s.exposed ↔
      s.Issued x ∧ ((cmStamping n).Counts (s.nodes a).t x ∨
        (if a = i then some req else (s.nodes a).thread.uncounted) = some x) := by
  obtain ⟨hpending, hnone⟩ := hi.ready hthread
  have hissued := (hi.of_pending hpending).1
  rw [List.mem_cons, Prod.mk.injEq, hi.exposed]
  by_cases ha : a = i
  · subst ha
    simp only [hnone, if_true, Option.some.injEq, true_and, reduceCtorEq, or_false]
    constructor
    · rintro (rfl | ⟨hx, hc⟩)
      · exact ⟨hissued, .inr rfl⟩
      · exact ⟨hx, .inl hc⟩
    · rintro ⟨hx, hc | rfl⟩
      · exact .inr ⟨hx, hc⟩
      · exact .inl rfl
  · simp [ha]

/-- A message that becomes readable is not yet counted, so it was not readable. -/
theorem CmFlowInv.apply (hi : CmFlowInv lost s) (hthread : (s.nodes i).thread = .ready req) :
    CmFlowInv lost ((s.setNode i { s.nodes i with
      cmKsMap := applyToStore (s.nodes i).cmKsMap req, thread := .applied req }).expose i req) := by
  obtain ⟨hpending, hnone⟩ := hi.ready hthread
  have hmiss := (hi.of_pending hpending).2
  have hready := (hi.node i).thread
  simp only [CmNode.ThreadInv, hthread] at hready
  generalize ht : (s.setNode i { s.nodes i with
    cmKsMap := applyToStore (s.nodes i).cmKsMap req, thread := .applied req }).expose i req = t
  have hexposed : t.exposed = (i, req) :: s.exposed := ht ▸ rfl
  have hnode : ∀ j, t.nodes j = if j = i then { s.nodes i with
      cmKsMap := applyToStore (s.nodes i).cmKsMap req, thread := .applied req }
      else s.nodes j := ht ▸ CmSystem.setNode_nodes
  have hclock : ∀ j, (t.nodes j).t = (s.nodes j).t :=
    ht ▸ CmSystem.setNode_kept CmNode.t rfl
  have hsame : ∀ j, (t.nodes j).pending = (s.nodes j).pending :=
    ht ▸ CmSystem.setNode_kept CmNode.pending (by simp [CmNode.pending, hthread, CmThread.taken])
  have hway : ∀ j a, (t.nodes j).undelivered a = (s.nodes j).undelivered a := by
    intro j a
    rw [hnode]
    split
    next he => exact he ▸ rfl
    next => rfl
  have huncounted : ∀ j, (t.nodes j).thread.uncounted =
      if j = i then some req else (s.nodes j).thread.uncounted := by
    intro j
    rw [hnode]
    split <;> rfl
  have hissued : t.Issued = s.Issued :=
    issued_of_foreign hexposed ((hi.node i).foreign req hpending)
  refine ⟨hissued ▸ hi.stamped, fun j => ?_, fun x hx => ?_, hissued ▸ hi.bounded,
    fun a b hab => ?_, hi.foreign, fun j => ?_, fun a x => ?_, ?_⟩
  · rw [hissued, hclock]
    exact hi.closed j
  · rw [hclock]
    exact hi.counted x (hissued ▸ hx)
  · rw [CmSystem.missing, CmSystem.waiting, hsame, hway, hissued, hclock]
    exact hi.missing a b hab
  · obtain ⟨hforeign, hown, hsending, hthread⟩ := hi.node j
    refine ⟨hsame j ▸ hforeign, ?_, ?_, ?_⟩ <;> rw [hnode] <;> split
    next he => exact he ▸ hown
    next => exact hown
    next he => exact he ▸ hsending
    next => exact hsending
    next => exact hready
    next => exact hthread
  · rw [hexposed, hissued, hclock, huncounted]
    exact hi.exposed_apply hthread a x
  · rw [hexposed]
    refine List.nodup_cons.mpr ⟨fun h => ?_, hi.nodup⟩
    rcases ((hi.exposed i req).mp h).2 with hc | hu
    · exact hmiss hc
    · simp [hnone] at hu

theorem CmFlowInv.counts_advance (hi : CmFlowInv lost s) (hthread : (s.nodes i).thread = .popped req)
    {x : CmMessageRequest n} (hx : s.Issued x) :
    (cmStamping n).Counts
        (Function.update (s.nodes i).t req.nodenum (req.vecClk req.nodenum)) x ↔
      x = req ∨ (cmStamping n).Counts (s.nodes i).t x := by
  obtain ⟨hpending, hd⟩ := (hi.node i).uncounted (m := req) (by simp [hthread, CmThread.uncounted])
  have hissued := (hi.of_pending hpending).1
  have hindex : req.vecClk req.nodenum = (s.nodes i).t req.nodenum + 1 := hd.2
  by_cases hnum : x.nodenum = req.nodenum
  · have hsender : (cmStamping n).sender x = req.nodenum := hnum
    simp only [Stamping.Counts, hsender, Function.update_self, hindex]
    constructor
    · intro hle
      by_cases he : (cmStamping n).index x = (s.nodes i).t req.nodenum + 1
      · exact .inl (hi.stamped.inj x req hx hissued hnum (he.trans hindex.symm))
      · exact .inr (by omega)
    · rintro (rfl | hle)
      · exact hindex.le
      · omega
  · have hsender : (cmStamping n).sender x ≠ req.nodenum := hnum
    have hne : x ≠ req := fun he => hnum (he ▸ rfl)
    simp [Stamping.Counts, hsender, hne]

/-- The message that is counted now was the first of those that waited. -/
theorem CmFlowInv.missing_advance (hi : CmFlowInv lost s)
    (hthread : (s.nodes i).thread = .popped req) {b : Fin n} (hne : i ≠ b)
    {rest : List (CmMessageRequest n)} (hrest : rest =
      (s.nodes i).cmMessagePq.filter (fun m => m.nodenum = b) ++ (s.nodes b).undelivered i) :
    ((lost i).filter (fun m => m.nodenum = b) ++ rest).Nodup ∧
      ∀ x, x ∈ (lost i).filter (fun m => m.nodenum = b) ++ rest ↔
        x.nodenum = b ∧ s.Issued x ∧ ¬ (cmStamping n).Counts
          (Function.update (s.nodes i).t req.nodenum (req.vecClk req.nodenum)) x := by
  obtain ⟨hnodup, hmem⟩ := hi.missing i b hne
  have htaken : (s.nodes i).pending = req :: (s.nodes i).cmMessagePq := by
    simp [CmNode.pending, hthread, CmThread.taken]
  rw [CmSystem.missing, CmSystem.waiting, htaken] at hnodup hmem
  by_cases hb : req.nodenum = b
  · simp only [List.filter_cons, hb, decide_true, if_true, List.cons_append, ← hrest,
      List.perm_middle.nodup_iff, List.perm_middle.mem_iff] at hnodup hmem
    obtain ⟨hnot, hnodup⟩ := List.nodup_cons.mp hnodup
    refine ⟨hnodup, fun x => ⟨fun hx => ?_, ?_⟩⟩
    · have hold := (hmem x).mp (List.mem_cons_of_mem _ hx)
      refine ⟨hold.1, hold.2.1, fun hc => ?_⟩
      rcases (hi.counts_advance hthread hold.2.1).mp hc with rfl | hc
      · exact hnot hx
      · exact hold.2.2 hc
    · rintro ⟨hnum, hx, hc⟩
      rw [hi.counts_advance hthread hx, not_or] at hc
      exact (List.mem_cons.mp ((hmem x).mpr ⟨hnum, hx, hc.2⟩)).resolve_left hc.1
  · simp only [List.filter_cons, hb, decide_false, Bool.false_eq_true, if_false, ← hrest]
      at hnodup hmem
    refine ⟨hnodup, fun x => (hmem x).trans ?_⟩
    refine and_congr_right fun hnum => and_congr_right fun hx => ?_
    have hdiff : x ≠ req := fun he => hb (he ▸ hnum)
    rw [hi.counts_advance hthread hx, or_iff_right hdiff]

theorem CmFlowInv.advance (hi : CmFlowInv lost s) (hthread : (s.nodes i).thread = .popped req) :
    CmFlowInv lost (s.setNode i { s.nodes i with
      t := Function.update (s.nodes i).t req.nodenum (req.vecClk req.nodenum)
      thread := .idle }) := by
  obtain ⟨hpending, hd⟩ := (hi.node i).uncounted (m := req) (by simp [hthread, CmThread.uncounted])
  have hissued := (hi.of_pending hpending).1
  refine ⟨hi.stamped, fun j => ?_, fun x hx => ?_, hi.bounded, fun a b hab => ?_, hi.foreign,
    fun j => ?_, fun a x => ?_, hi.nodup⟩
  · rw [CmSystem.setNode_nodes]
    split
    next => exact (hi.closed i).advance hissued hd
    next => exact hi.closed j
  · rw [CmSystem.setNode_nodes]
    split
    next he => exact (hi.counts_advance hthread hx).mpr (.inr (he ▸ hi.counted x hx))
    next => exact hi.counted x hx
  · have hway : ((s.setNode i { s.nodes i with
        t := Function.update (s.nodes i).t req.nodenum (req.vecClk req.nodenum)
        thread := .idle }).nodes b).undelivered a = (s.nodes b).undelivered a := by
      rw [CmSystem.setNode_nodes]
      split
      next he => exact he ▸ rfl
      next => rfl
    rw [CmSystem.missing, CmSystem.waiting, hway, CmSystem.setNode_nodes]
    split
    next ha =>
      subst ha
      exact hi.missing_advance hthread hab rfl
    next => exact hi.missing a b hab
  · rw [CmSystem.setNode_nodes]
    split
    next he =>
      subst he
      refine ⟨fun x hx => ?_, (hi.node j).own, (hi.node j).sending, trivial⟩
      exact (hi.node j).foreign x (List.mem_append_right _ hx)
    next => exact hi.node j
  · refine (hi.exposed a x).trans ?_
    change s.Issued x ∧ _ ↔ s.Issued x ∧ _
    rw [CmSystem.setNode_nodes]
    split
    next ha =>
      subst ha
      refine and_congr_right fun hx => ?_
      rw [hi.counts_advance hthread hx]
      simp [hthread, CmThread.uncounted, or_comm, eq_comm]
    next => exact Iff.rfl

end Processing

section Reachable

variable {n : ℕ} {s t : CmSystem n} {lost : Fin n → List (CmMessageRequest n)}

theorem cmFlowInv_step (hi : CmFlowInv lost s) {a : CmAction n} (h : cmStep s a = some t) :
    CmFlowInv lost t := by
  cases cmStep_steps h with
  | other => exact hi
  | write _ hmax => exact (cmWrites_expose hmax rfl).inv hi
  | sendFront hsending hfront => exact hi.sendFront hsending hfront
  | arrive hsending hdst ht => exact (cmArrives_setNode hi hsending hdst ht).inv hi
  | sent hsending => exact hi.sent hsending
  | fetch hthread htop => exact hi.fetch hthread htop
  | pass hthread hready => exact hi.pass hthread hready
  | refuse hthread => exact hi.refuse hthread
  | apply hthread => exact hi.apply hthread
  | pop hthread => exact hi.pop hthread
  | advance hthread => exact hi.advance hthread

theorem cmInv_reachable {ok : CmSystem n → CmAction n → Prop}
    (h : ReachableWhen cmStep ok CmSystem.init s) : CmInv s :=
  h.invariant cmFlowInv_init.cmInv fun _ _ _ _ hi _ hstep => (cmFlowInv_step hi.flow hstep).cmInv

end Reachable

end KeyValueStore
