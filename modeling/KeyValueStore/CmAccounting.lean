import KeyValueStore.CmLosses

/-! What the clocks of the CM servers count: the writes of each server, applied
everywhere as a prefix and in order, also when messages are lost. -/

namespace KeyValueStore

section Log

variable {n : ℕ} {s t : CmSystem n} {i j : Fin n} {lost : Fin n → List (CmMessageRequest n)}

/-- The writes of server `j` in the store of server `i`, oldest first; at server
`j` these are all that it executed. -/
def CmSystem.log (s : CmSystem n) (i j : Fin n) : List (CmMessageRequest n) :=
  ((s.exposed.filter fun p => p.1 = i ∧ p.2.nodenum = j).map Prod.snd).reverse

def CmSystem.writes (s : CmSystem n) (j : Fin n) : List (CmMessageRequest n) := s.log j j

/-- The messages of server `j` that a server counts, and one more when its thread
has stored one without counting it. -/
def CmNode.stored (node : CmNode n) (j : Fin n) : ℕ :=
  node.t j + if node.thread.uncounted.any (fun m => m.nodenum = j) then 1 else 0

theorem CmSystem.mem_log {m : CmMessageRequest n} :
    m ∈ s.log i j ↔ (i, m) ∈ s.exposed ∧ m.nodenum = j := by
  simp only [log, List.mem_reverse, List.mem_map, List.mem_filter, decide_eq_true_eq]
  constructor
  · rintro ⟨⟨_, m'⟩, ⟨hm, rfl, hj⟩, rfl⟩
    exact ⟨hm, hj⟩
  · rintro ⟨hm, hj⟩
    exact ⟨(i, m), ⟨hm, rfl, hj⟩, rfl⟩

theorem CmSystem.log_expose {a : Fin n} {m : CmMessageRequest n}
    (h : t.exposed = (a, m) :: s.exposed) (i j : Fin n) :
    t.log i j = s.log i j ++ if a = i ∧ m.nodenum = j then [m] else [] := by
  simp only [log, h, List.filter_cons, decide_eq_true_eq]
  split <;> simp

/-- The stores hold the writes of a server from its first on, in order. -/
def CmSystem.Logged (s : CmSystem n) : Prop :=
  ∀ i j, (s.log i j).map (fun m => m.vecClk j) = List.range' 1 ((s.nodes i).stored j)

theorem CmSystem.Logged.length (h : s.Logged) (i j : Fin n) :
    (s.log i j).length = (s.nodes i).stored j := by
  have := congrArg List.length (h i j)
  rwa [List.length_map, List.length_range'] at this

theorem CmSystem.Logged.of_eq (h : s.Logged) (he : t.exposed = s.exposed)
    (hs : ∀ i j, (t.nodes i).stored j = (s.nodes i).stored j) : t.Logged := by
  intro i j
  rw [hs, ← h i j, log, log, he]

theorem range'_succ_concat (c : ℕ) : List.range' 1 (c + 1) = List.range' 1 c ++ [c + 1] := by
  rw [List.range'_concat, Nat.add_comm, Nat.one_mul]

theorem CmFlowInv.stored_self (hi : CmFlowInv lost s) (i : Fin n) :
    (s.nodes i).stored i = (s.nodes i).t i := by
  cases hu : (s.nodes i).thread.uncounted with
  | none => simp [CmNode.stored, hu]
  | some m =>
    have hne := (hi.node i).foreign m ((hi.node i).uncounted hu).1
    simp [CmNode.stored, hu, hne]

theorem logged_write (hi : CmFlowInv lost s) (h : s.Logged) {m : CmMessageRequest n}
    (hw : CmWrites s t i m) : t.Logged := by
  intro a j
  have hlog := CmSystem.log_expose hw.exposed a j
  have hstored : (t.nodes a).stored j =
      (s.nodes a).stored j + if a = i ∧ j = i then 1 else 0 := by
    rw [CmNode.stored, CmNode.stored, hw.clock, hw.thread]
    by_cases ha : a = i
    · subst ha
      by_cases hj : j = a
      · subst hj
        simp only [if_true, and_self, hw.stamp, Function.update_self]
        omega
      · simp [hw.stamp, hj]
    · simp [ha]
  rw [hlog, hstored, List.map_append, h a j, hw.nodenum]
  by_cases hself : a = i ∧ j = i
  · obtain ⟨rfl, rfl⟩ := hself
    simp only [and_self, if_true, List.map_cons, List.map_nil, hi.stored_self j,
      range'_succ_concat, hw.stamp, Function.update_self]
  · have hne : ¬ (i = a ∧ i = j) := fun he => hself ⟨he.1.symm, he.2.symm⟩
    simp [hself, hne]

theorem logged_apply (hi : CmFlowInv lost s) (h : s.Logged) {req : CmMessageRequest n}
    (hthread : (s.nodes i).thread = .ready req) : ((s.setNode i { s.nodes i with
      cmKsMap := applyToStore (s.nodes i).cmKsMap req, thread := .applied req }).expose i req).Logged := by
  obtain ⟨_, hnone⟩ := hi.ready hthread
  have hready := (hi.node i).thread
  simp only [CmNode.ThreadInv, hthread] at hready
  have hindex : req.vecClk req.nodenum = (s.nodes i).t req.nodenum + 1 := hready.2.2
  intro a j
  change List.map _ _ = List.range' 1 (((s.setNode i _).nodes a).stored j)
  rw [CmSystem.log_expose (s := s) rfl, List.map_append, h a j, CmSystem.setNode_nodes]
  by_cases ha : a = i
  · subst ha
    have hold : (s.nodes a).stored j = (s.nodes a).t j := by simp [CmNode.stored, hnone]
    have hnew : CmNode.stored { s.nodes a with
        cmKsMap := applyToStore (s.nodes a).cmKsMap req, thread := .applied req } j =
        (s.nodes a).t j + if req.nodenum = j then 1 else 0 := by
      simp [CmNode.stored, CmThread.uncounted]
    rw [if_pos rfl, hnew, hold]
    by_cases hj : req.nodenum = j
    · subst hj
      simp [range'_succ_concat, hindex]
    · simp [hj]
  · simp [ha, Ne.symm ha]

theorem stored_advance (hi : CmFlowInv lost s) {req : CmMessageRequest n}
    (hthread : (s.nodes i).thread = .popped req) (j : Fin n) : CmNode.stored { s.nodes i with
      t := Function.update (s.nodes i).t req.nodenum (req.vecClk req.nodenum)
      thread := .idle } j = (s.nodes i).stored j := by
  have hd := ((hi.node i).uncounted (m := req) (by simp [hthread, CmThread.uncounted])).2
  have hindex : req.vecClk req.nodenum = (s.nodes i).t req.nodenum + 1 := hd.2
  by_cases hj : j = req.nodenum
  · subst hj
    simp [CmNode.stored, CmThread.uncounted, hthread, hindex]
  · simp [CmNode.stored, CmThread.uncounted, hthread, hj, Ne.symm hj]

theorem logged_step (hi : CmFlowInv lost s) (h : s.Logged) {a : CmAction n}
    (hstep : cmStep s a = some t) : t.Logged := by
  have hset : ∀ {i : Fin n} {node : CmNode n}, (∀ j, node.stored j = (s.nodes i).stored j) →
      (s.setNode i node).Logged := fun hs =>
    h.of_eq rfl fun b j => CmSystem.setNode_kept (fun node => node.stored j) (hs j) b
  cases cmStep_steps hstep with
  | other => exact h
  | write _ hmax => exact logged_write hi h (cmWrites_expose hmax rfl)
  | arrive hsending hdst ht =>
    have harrives := cmArrives_setNode hi hsending hdst ht
    exact h.of_eq harrives.exposed fun b j =>
      harrives.kept (fun node => node.stored j) (fun _ => rfl) (fun _ _ => rfl) b
  | apply hthread => exact logged_apply hi h hthread
  | advance hthread => exact hset (stored_advance hi hthread)
  | sendFront | sent => exact hset (fun _ => rfl)
  | fetch hthread | pass hthread | refuse hthread | pop hthread =>
    exact hset (fun j => by simp [CmNode.stored, hthread, CmThread.uncounted])

theorem logged_reachable {ok : CmLossySystem n → CmLossyAction n → Prop} {s : CmLossySystem n}
    (h : ReachableWhen cmLossyStep ok CmLossySystem.init s) : s.sys.Logged := by
  refine h.invariant (P := fun s => s.sys.Logged) (fun _ _ => rfl) (fun u a v hu hl _ hstep => ?_)
  have hi := cmLossyInv_reachable hu
  cases cmLossyStep_steps hstep with
  | act hact => exact logged_step hi hl hact
  | fail | late =>
    exact hl.of_eq rfl fun b j => CmSystem.setNode_kept (fun node => node.stored j) (by rfl) b

end Log

section Prefix

variable {n : ℕ} {s t : CmSystem n} {i j : Fin n} {lost : Fin n → List (CmMessageRequest n)}

theorem eq_of_map_eq {α β : Type*} {f : α → β} {l l' : List α}
    (hf : ∀ a ∈ l, ∀ b ∈ l', f a = f b → a = b) (h : l.map f = l'.map f) : l = l' := by
  induction l generalizing l' with
  | nil => exact (List.map_eq_nil_iff.mp h.symm).symm
  | cons a l ih =>
    cases l' with
    | nil => simp at h
    | cons b l' =>
      obtain ⟨hab, hrest⟩ := List.cons.inj h
      rw [hf a List.mem_cons_self b List.mem_cons_self hab, ih (fun x hx y hy =>
        hf x (List.mem_cons_of_mem _ hx) y (List.mem_cons_of_mem _ hy)) hrest]

theorem CmFlowInv.issued_of_log (hi : CmFlowInv lost s) {m : CmMessageRequest n}
    (hm : m ∈ s.log i j) : s.Issued m ∧ m.nodenum = j := by
  obtain ⟨hm, hj⟩ := CmSystem.mem_log.mp hm
  exact ⟨((hi.exposed i m).mp hm).1, hj⟩

theorem CmFlowInv.stored_le (hi : CmFlowInv lost s) (i j : Fin n) :
    (s.nodes i).stored j ≤ (s.nodes j).t j := by
  have hle := hi.clock_le i j
  cases hu : (s.nodes i).thread.uncounted with
  | none => simpa [CmNode.stored, hu] using hle
  | some m =>
    by_cases hj : m.nodenum = j
    · -- the stored message is the next one, and its sender counts it
      obtain ⟨hpending, hd⟩ := (hi.node i).uncounted hu
      have hcount : m.vecClk m.nodenum ≤ (s.nodes m.nodenum).t m.nodenum :=
        hi.counted m (hi.of_pending hpending).1
      have hindex : m.vecClk m.nodenum = (s.nodes i).t m.nodenum + 1 := hd.2
      simp only [CmNode.stored, hu, Option.any_some, hj, decide_true, if_true]
      rw [← hj]
      omega
    · simpa [CmNode.stored, hu, hj] using hle

theorem CmFlowInv.log_eq_take (hi : CmFlowInv lost s) (hl : s.Logged) (i j : Fin n) :
    s.log i j = (s.writes j).take ((s.nodes i).stored j) := by
  refine eq_of_map_eq (f := fun m => m.vecClk j) (fun m hm m' hm' he => ?_) ?_
  · obtain ⟨hm, hj⟩ := hi.issued_of_log hm
    obtain ⟨hm', hj'⟩ := hi.issued_of_log (List.mem_of_mem_take hm')
    refine hi.stamped.inj m m' hm hm' (hj.trans hj'.symm) ?_
    change m.vecClk m.nodenum = m'.vecClk m'.nodenum
    rw [hj, hj', he]
  · rw [hl i j, List.map_take, CmSystem.writes, hl j j, hi.stored_self,
      List.take_range'_of_length_ge (hi.stored_le i j)]

theorem CmFlowInv.nodup_log (hi : CmFlowInv lost s) (i j : Fin n) : (s.log i j).Nodup := by
  refine List.nodup_reverse.mpr (List.Nodup.map_on ?_ (hi.nodup.filter _))
  intro p hp q hq he
  have hp1 : p.1 = i := (of_decide_eq_true (List.mem_filter.mp hp).2).1
  have hq1 : q.1 = i := (of_decide_eq_true (List.mem_filter.mp hq).2).1
  exact Prod.ext (hp1.trans hq1.symm) he

theorem clock_le_step (hi : CmFlowInv lost s) {a : CmAction n} (hstep : cmStep s a = some t)
    (j : Fin n) : (s.nodes j).t ≤ (t.nodes j).t := by
  have hset : ∀ {i : Fin n} {node : CmNode n}, (s.nodes i).t ≤ node.t →
      (s.nodes j).t ≤ ((s.setNode i node).nodes j).t := by
    intro i node hle
    rw [CmSystem.setNode_nodes]
    split
    next he => exact he ▸ hle
    next => exact le_rfl
  cases cmStep_steps hstep with
  | other => exact le_rfl
  | @write i request _ hmax =>
    have hw := cmWrites_expose (m := cmWrittenMessage i request (s.nodes i)) hmax rfl
    exact hw.le_clock j
  | arrive hsending hdst ht =>
    exact ((cmArrives_setNode hi hsending hdst ht).kept CmNode.t (fun _ => rfl) (fun _ _ => rfl)
      j).ge
  | @advance i req hthread =>
    have hd := ((hi.node i).uncounted (m := req) (by simp [hthread, CmThread.uncounted])).2
    refine hset fun k => ?_
    by_cases hk : k = req.nodenum
    · subst hk
      have hindex : req.vecClk req.nodenum = (s.nodes i).t req.nodenum + 1 := hd.2
      simp [hindex]
    · simp [hk]
  | sendFront | sent | fetch | pass | refuse | apply | pop => exact hset le_rfl

theorem clock_le_reachable {ok : CmLossySystem n → CmLossyAction n → Prop} {s t : CmLossySystem n}
    (hs : ReachableWhen cmLossyStep ok CmLossySystem.init s)
    (h : ReachableWhen cmLossyStep ok s t) (j : Fin n) : (s.sys.nodes j).t ≤ (t.sys.nodes j).t := by
  refine h.invariant (P := fun t => (s.sys.nodes j).t ≤ (t.sys.nodes j).t) le_rfl
    (fun u a v hu hle _ hstep => hle.trans ?_)
  cases cmLossyStep_steps hstep with
  | act hact => exact clock_le_step (cmLossyInv_reachable (hs.trans hu)) hact j
  | fail | late => exact (CmSystem.setNode_kept CmNode.t (by rfl) j).ge

end Prefix

section Queue

variable {n : ℕ} {s t : CmLossySystem n} {i j : Fin n}

/-- The messages that server `i` sent and removed from its queue, oldest first. -/
def CmLossySystem.removedBy (s : CmLossySystem n) (i : Fin n) : List (CmMessageRequest n) :=
  (s.removed.filter fun m => m.nodenum = i).reverse

/-- A write is removed from the queue of its server or still in it. -/
def CmLossySystem.Queued (s : CmLossySystem n) : Prop :=
  ∀ i, s.removedBy i ++ (s.sys.nodes i).cmMessageOutqueue = s.sys.writes i

theorem writes_apply {s t : CmSystem n} {req : CmMessageRequest n}
    (h : t.exposed = (i, req) :: s.exposed) (hne : req.nodenum ≠ i) (j : Fin n) :
    t.writes j = s.writes j := by
  rw [CmSystem.writes, CmSystem.log_expose h, if_neg (fun he => hne (he.2.trans he.1.symm)),
    List.append_nil]
  rfl

theorem CmLossySystem.Queued.of_eq (h : s.Queued) (hremoved : t.removed = s.removed)
    (hqueue : ∀ i, (t.sys.nodes i).cmMessageOutqueue = (s.sys.nodes i).cmMessageOutqueue)
    (hwrites : ∀ i, t.sys.writes i = s.sys.writes i) : t.Queued := by
  intro i
  rw [hqueue, hwrites, ← h i, removedBy, removedBy, hremoved]

theorem queued_step (hi : CmFlowInv s.lost s.sys) (h : s.Queued) {a : CmLossyAction n}
    (hstep : CmLossySteps s a t) : t.Queued := by
  cases hstep with
  | fail | late =>
    exact h.of_eq rfl (CmSystem.setNode_kept CmNode.cmMessageOutqueue (by rfl)) (fun _ => rfl)
  | @act a u hstep =>
    cases cmStep_steps hstep with
    | other => exact h
    | @write i request _ hmax =>
      have hw := cmWrites_expose (m := cmWrittenMessage i request (s.sys.nodes i)) hmax rfl
      intro j
      rw [hw.outqueue, CmSystem.writes, CmSystem.log_expose hw.exposed, hw.nodenum,
        ← List.append_assoc]
      have hold := h j
      simp only [and_self, eq_comm (a := j)]
      rw [← CmSystem.writes, ← hold]
      rfl
    | @sent k req hsending =>
      obtain ⟨rest, hqueue⟩ := List.head?_eq_some_iff.mp ((hi.node k).sending _ _ hsending).1
      have hnum : req.nodenum = k := (hi.node k).own req (by simp [hqueue])
      intro j
      have hold := h j
      change List.reverse (List.filter _ ((s.sys.nodes k).cmMessageOutqueue.head?.toList ++
        s.removed)) ++ CmNode.cmMessageOutqueue ((s.sys.setNode k _).nodes j) = s.sys.writes j
      rw [CmSystem.setNode_nodes, ← hold, hqueue]
      by_cases hj : j = k
      · subst hj
        simp [CmLossySystem.removedBy, hnum, hqueue]
      · have hne : req.nodenum ≠ j := fun he => hj (he.symm.trans hnum)
        simp [CmLossySystem.removedBy, hj, hne]
    | @apply i req hthread =>
      have hne := (hi.node i).foreign req (hi.ready hthread).1
      exact h.of_eq rfl (CmSystem.setNode_kept CmNode.cmMessageOutqueue (by rfl))
        (writes_apply rfl hne)
    | arrive hsending hdst ht =>
      have harrives := cmArrives_setNode hi hsending hdst ht
      refine h.of_eq rfl (harrives.kept CmNode.cmMessageOutqueue (fun _ => rfl) (fun _ _ => rfl))
        (fun j => ?_)
      rw [CmSystem.writes, CmSystem.log, harrives.exposed]
      rfl
    | sendFront | fetch | pass | refuse | pop | advance =>
      exact h.of_eq rfl (CmSystem.setNode_kept CmNode.cmMessageOutqueue (by rfl)) (fun _ => rfl)

theorem queued_reachable {ok : CmLossySystem n → CmLossyAction n → Prop}
    (h : ReachableWhen cmLossyStep ok CmLossySystem.init s) : s.Queued :=
  h.invariant (P := CmLossySystem.Queued) (fun _ => rfl)
    (fun _ _ _ hu hq _ hstep => queued_step (cmLossyInv_reachable hu) hq (cmLossyStep_steps hstep))

end Queue

section Accounts

variable {n : ℕ} {s t : CmLossySystem n} {i : Fin n}

/-- What the clock of server `i` counts, within an `int`: its own writes, and those of each other
server that its store has, which are that server's first ones in order. -/
structure CmLossySystem.Accounted (s : CmLossySystem n) (i : Fin n) : Prop where
  bounded : ∀ j, (s.sys.nodes i).t j ≤ intMax
  own : (s.sys.nodes i).t i = (s.sys.writes i).length
  queued : (s.removedBy i ++ (s.sys.nodes i).cmMessageOutqueue).map (fun m => m.vecClk i) =
    List.range' 1 ((s.sys.nodes i).t i)
  applied : (s.sys.nodes i).thread.uncounted = none → ∀ j, j ≠ i →
    (s.sys.log i j).length = (s.sys.nodes i).t j ∧
    s.sys.log i j = (s.sys.writes j).take ((s.sys.nodes i).t j) ∧ (s.sys.log i j).Nodup

/-- Every clock counts exactly, whatever is lost, and never goes back. -/
theorem clocks_accounted (h : Reachable cmLossyStep CmLossySystem.init s) (i : Fin n) :
    s.Accounted i ∧ ∀ t, Reachable cmLossyStep s t → (s.sys.nodes i).t ≤ (t.sys.nodes i).t := by
  have hi := cmLossyInv_reachable h
  have hl := logged_reachable h
  refine ⟨⟨hi.clock_le_intMax i, ?_, ?_, fun hnone j _ => ?_⟩,
    fun t ht => clock_le_reachable h ht i⟩
  · rw [CmSystem.writes, hl.length, hi.stored_self]
  · rw [queued_reachable h, CmSystem.writes, hl i i, hi.stored_self]
  · have hstored : (s.sys.nodes i).stored j = (s.sys.nodes i).t j := by
      simp [CmNode.stored, hnone]
    have hlength := hl.length i j
    have htake := hi.log_eq_take hl i j
    rw [hstored] at hlength htake
    exact ⟨hlength, htake, hi.nodup_log i j⟩

/-- Server 0 writes twice. Its first message misses server 2 and comes late. -/
def lateRun : List (CmLossyAction 3) :=
  [.act (.request 0 (cmPut 0 [120] [49])), .act (.request 0 (cmPut 0 [121] [50])),
    .act (.sendFront 0), .act (.arrive 0 1), .fail 0 2, .act (.sent 0), .act (.sendFront 0),
    .act (.arrive 0 2), .late 0, .act (.process 2), .act (.process 2), .act (.process 2),
    .act (.process 2), .act (.process 2)]

theorem lateRun_accounted : ∃ s : CmLossySystem 3,
    (Reachable cmLossyStep CmLossySystem.init s ∧ (s.sys.log 2 0).map (·.key) = [[120]] ∧
      (s.sys.writes 0).map (·.key) = [[120], [121]]) ∧ s.Accounted 2 := by
  obtain ⟨s, hs, hp⟩ := exists_of_run
    (P := fun s : CmLossySystem 3 => (s.sys.log 2 0).map (·.key) = [[120]] ∧
      (s.sys.writes 0).map (·.key) = [[120], [121]])
    (show (runWhen cmLossyStep (fun _ _ => True) .init lateRun).any _ = true by decide +kernel)
  have hr := reachableWhen_of_runWhen hs
  exact ⟨s, ⟨hr, hp⟩, (clocks_accounted hr 2).1⟩

end Accounts

end KeyValueStore
