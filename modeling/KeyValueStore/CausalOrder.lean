import KeyValueStore.CmReachable
import Mathlib.Data.Fin.VecNotation

/-! The causal order of the CM writes. A write depends on whatever was readable at
its server when it was executed. Its clock counts all of that only when the
thread has counted what it put into the store. -/

namespace KeyValueStore

section Store

variable {n : ℕ} {s t : CmSystem n}

/-- The write whose value a READ of the key returns at server `i`. -/
def CmSystem.readable (s : CmSystem n) (i : Fin n) (k : Bytes) : Option (CmMessageRequest n) :=
  (s.exposed.find? fun p => decide (p.1 = i ∧ cStr p.2.key = k)).map Prod.snd

def CmSystem.StoresReadable (s : CmSystem n) : Prop :=
  ∀ i k, (s.nodes i).cmKsMap k = (s.readable i k).map fun m => ⟨m.key, m.value⟩

theorem CmSystem.readable_key {i : Fin n} {k : Bytes} {m : CmMessageRequest n}
    (h : s.readable i k = some m) : cStr m.key = k := by
  obtain ⟨p, hp, rfl⟩ := Option.map_eq_some_iff.mp h
  have := List.find?_some hp
  simp only [decide_eq_true_eq] at this
  exact this.2

theorem CmSystem.readable_cons {i : Fin n} {m : CmMessageRequest n}
    (h : t.exposed = (i, m) :: s.exposed) (j : Fin n) (k : Bytes) :
    t.readable j k = if i = j ∧ cStr m.key = k then some m else s.readable j k := by
  rw [readable, h, List.find?_cons]
  by_cases he : i = j ∧ cStr m.key = k
  · simp [he]
  · simp only [he, decide_false, if_false]
    rfl

theorem storesReadable_expose {i : Fin n} {k : Bytes} {m : CmMessageRequest n}
    (h : s.StoresReadable) (hk : cStr m.key = k) (hexposed : t.exposed = (i, m) :: s.exposed)
    (hstore : ∀ j, (t.nodes j).cmKsMap = if j = i then
      Function.update (s.nodes i).cmKsMap k (some ⟨m.key, m.value⟩) else (s.nodes j).cmKsMap) :
    t.StoresReadable := by
  intro j k'
  rw [hstore, CmSystem.readable_cons hexposed]
  by_cases hj : j = i
  · subst hj
    by_cases hk' : k' = k
    · subst hk'
      simp [hk]
    · have hne : cStr m.key ≠ k' := fun he => hk' (he.symm.trans hk)
      simpa [hk', hne] using h j k'
  · simpa [hj, Ne.symm hj] using h j k'

theorem storesReadable_setNode (h : s.StoresReadable) {i : Fin n} {node : CmNode n}
    (hstore : node.cmKsMap = (s.nodes i).cmKsMap) : (s.setNode i node).StoresReadable := by
  intro j k
  rw [CmSystem.setNode_kept CmNode.cmKsMap hstore]
  exact h j k

/-- A WRITE keeps the key of an entry that is there, which is the same C string. -/
theorem cmWrittenMessage_key (h : s.StoresReadable) (i : Fin n) (request : KeyStoreRequest) :
    cStr (cmWrittenMessage i request (s.nodes i)).key = cStr request.key := by
  have hstore := h i (cStr request.key)
  cases hold : s.readable i (cStr request.key) with
  | none => simp [cmWrittenMessage, cmWrittenValue, hstore, hold]
  | some m => simpa [cmWrittenMessage, cmWrittenValue, hstore, hold] using s.readable_key hold

theorem storesReadable_step (h : s.StoresReadable) {a : CmAction n}
    (hstep : cmStep s a = some t) : t.StoresReadable := by
  cases cmStep_steps hstep with
  | other => exact h
  | @write i request =>
    refine storesReadable_expose h (cmWrittenMessage_key h i request) rfl fun j => ?_
    change ((s.setNode i _).nodes j).cmKsMap = _
    rw [CmSystem.setNode_nodes]
    split <;> rfl
  | @apply i req =>
    refine storesReadable_expose h (k := cStr req.key) rfl rfl fun j => ?_
    change ((s.setNode i _).nodes j).cmKsMap = _
    rw [CmSystem.setNode_nodes]
    split <;> rfl
  | arrive _ _ ht =>
    have hk : CmSystem.StoresReadable _ := ht ▸ storesReadable_setNode h (by rfl)
    exact storesReadable_setNode hk (by rfl)
  | sendFront | sent | fetch | pass | refuse | pop | advance =>
    exact storesReadable_setNode h (by rfl)

theorem storesReadable_reachable {ok : CmSystem n → CmAction n → Prop}
    (h : ReachableWhen cmStep ok CmSystem.init s) : s.StoresReadable :=
  h.invariant (fun _ _ => rfl) fun _ _ _ _ hs _ hstep => storesReadable_step hs hstep

/-- A READ returns the write that was the last to become readable at its server. -/
theorem cmHandler_read {ok : CmSystem n → CmAction n → Prop}
    (h : ReachableWhen cmStep ok CmSystem.init s) (i : Fin n) {request : KeyStoreRequest}
    (htype : request.type = .read) (hkey : request.key ≠ sentinelKey) :
    cmHandler i request (s.nodes i) = some (s.nodes i,
      match s.readable i (cStr request.key) with
      | some m => { code := .ok, protocol := .cm, key := m.key, value := m.value }
      | none => { code := .error, protocol := .cm }) := by
  have hstore := storesReadable_reachable h i (cStr request.key)
  simp only [cmHandler, htype, cmReadReply, if_neg hkey, hstore]
  cases s.readable i (cStr request.key) <;> rfl

end Store

section Order

variable {n : ℕ} {s t : CmSystem n} {lost : Fin n → List (CmMessageRequest n)}

/-- What was readable at the server of a write when it was executed becomes
readable before it everywhere; and nothing becomes readable twice. -/
def CausallyOrdered (s : CmSystem n) : Prop :=
  s.exposed.Nodup ∧ ∀ (j : Fin n) (w1 w2 : CmMessageRequest n), w2.nodenum = j →
    [(j, w2), (j, w1)].Sublist s.exposed →
    ∀ i, (i, w2) ∈ s.exposed → [(i, w2), (i, w1)].Sublist s.exposed

/-- No WRITE is executed while the thread has put a message into the store that
the clock does not count. -/
def WritesCounted (s : CmSystem n) : CmAction n → Prop
  | .request i request => request.type = .write → (s.nodes i).thread.uncounted = none
  | _ => True

instance (s : CmSystem n) (a : CmAction n) : Decidable (WritesCounted s a) :=
  match a with
  | .request i request =>
    inferInstanceAs (Decidable (request.type = .write → (s.nodes i).thread.uncounted = none))
  | .sendFront _ | .arrive _ _ | .sent _ | .process _ => isTrue trivial

/-- The clock of a write counts what was readable when it was executed. -/
def ClocksCover (s : CmSystem n) : Prop :=
  ∀ (j : Fin n) (w1 w2 : CmMessageRequest n), w2.nodenum = j →
    [(j, w2), (j, w1)].Sublist s.exposed → (cmStamping n).Counts w2.vecClk w1

theorem sublist_expose {i j : Fin n} {m w1 w2 : CmMessageRequest n}
    {l : List (Fin n × CmMessageRequest n)} (h : [(j, w2), (j, w1)].Sublist ((i, m) :: l)) :
    [(j, w2), (j, w1)].Sublist l ∨ (j = i ∧ w2 = m ∧ (i, w1) ∈ l) := by
  cases h with
  | cons _ h => exact .inl h
  | cons_cons _ h =>
    exact .inr ⟨rfl, rfl, List.singleton_sublist.mp h⟩

theorem clocksCover_write (hi : CmFlowInv lost s) (hc : ClocksCover s) {i : Fin n}
    {m : CmMessageRequest n} (hw : CmWrites s t i m)
    (hok : (s.nodes i).thread.uncounted = none) : ClocksCover t := by
  intro j w1 w2 hj hsub
  rw [hw.exposed] at hsub
  rcases sublist_expose hsub with hsub | ⟨rfl, rfl, hmem⟩
  · exact hc j w1 w2 hj hsub
  · rcases ((hi.exposed j w1).mp hmem).2 with hcount | hu
    · have hle := hw.le_clock j
      rw [hw.clock, if_pos rfl] at hle
      exact hcount.mono hle
    · simp [hok] at hu

theorem causallyOrdered_write (hi : CmFlowInv lost s) (ho : CausallyOrdered s) {i : Fin n}
    {m : CmMessageRequest n} (hw : CmWrites s t i m) : CausallyOrdered t := by
  have hnew : ∀ j, (j, m) ∉ s.exposed := fun j hm => hw.fresh hi ((hi.exposed j m).mp hm).1
  refine ⟨(hw.inv hi).nodup, fun j w1 w2 hj hsub a ha => ?_⟩
  rw [hw.exposed] at hsub ha ⊢
  rcases sublist_expose hsub with hold | ⟨rfl, rfl, _⟩
  · rcases List.mem_cons.mp ha with he | ha
    · obtain ⟨_, rfl⟩ := Prod.mk.inj he
      exact absurd (hold.subset List.mem_cons_self) (hnew j)
    · exact (ho.2 j w1 w2 hj hold a ha).cons _
  · rcases List.mem_cons.mp ha with he | ha
    · obtain ⟨rfl, _⟩ := Prod.mk.inj he
      exact hsub
    · exact absurd ha (hnew a)

theorem causallyOrdered_apply (hi : CmFlowInv lost s) (hc : ClocksCover s) (ho : CausallyOrdered s)
    {i : Fin n} {req : CmMessageRequest n} (hthread : (s.nodes i).thread = .ready req)
    (hi' : CmFlowInv lost t) (hexposed : t.exposed = (i, req) :: s.exposed) :
    ClocksCover t ∧ CausallyOrdered t := by
  have hready := (hi.node i).thread
  simp only [CmNode.ThreadInv, hthread] at hready
  obtain ⟨htop, hd⟩ := hready
  have hpending := CmNode.mem_pending_of_top htop
  have hold : ∀ (j : Fin n) (w1 w2 : CmMessageRequest n), w2.nodenum = j →
      [(j, w2), (j, w1)].Sublist t.exposed → [(j, w2), (j, w1)].Sublist s.exposed := by
    intro j w1 w2 hj hsub
    rw [hexposed] at hsub
    rcases sublist_expose hsub with hsub | ⟨rfl, rfl, _⟩
    · exact hsub
    · exact absurd hj ((hi.node j).foreign w2 hpending)
  refine ⟨fun j w1 w2 hj hsub => hc j w1 w2 hj (hold j w1 w2 hj hsub), hi'.nodup,
    fun j w1 w2 hj hsub a ha => ?_⟩
  have hsub := hold j w1 w2 hj hsub
  rw [hexposed] at ha ⊢
  rcases List.mem_cons.mp ha with he | ha
  · obtain ⟨rfl, rfl⟩ := Prod.mk.inj he
    have hne : w1 ≠ w2 := by
      rintro rfl
      simpa using hi.nodup.sublist hsub
    have hw1 := ((hi.exposed j w1).mp (hsub.subset (by simp))).1
    have hcount := hd.counts hi.stamped (hi.of_pending hpending).1 hw1 (hc j w1 w2 hj hsub) hne
    refine List.Sublist.cons_cons _ (List.singleton_sublist.mpr ?_)
    exact (hi.exposed a w1).mpr ⟨hw1, .inl hcount⟩
  · exact (ho.2 j w1 w2 hj hsub a ha).cons _

theorem causallyOrdered_step (hi : CmFlowInv lost s) (hc : ClocksCover s) (ho : CausallyOrdered s)
    {a : CmAction n} (hok : WritesCounted s a) (hstep : cmStep s a = some t) :
    ClocksCover t ∧ CausallyOrdered t := by
  have hi' := cmFlowInv_step hi hstep
  cases cmStep_steps hstep with
  | other => exact ⟨hc, ho⟩
  | @write i request htype hmax =>
    have hw := cmWrites_expose (m := cmWrittenMessage i request (s.nodes i)) hmax rfl
    exact ⟨clocksCover_write hi hc hw (hok htype), causallyOrdered_write hi ho hw⟩
  | apply hthread => exact causallyOrdered_apply hi hc ho hthread hi' rfl
  | arrive _ _ ht =>
    subst ht
    exact ⟨hc, ho⟩
  | sendFront | sent | fetch | pass | refuse | pop | advance => exact ⟨hc, ho⟩

/-- Causal consistency, for runs in which no WRITE comes between the thread's
update of the store and its update of the clock. -/
theorem causallyOrdered_of_counted (h : ReachableWhen cmStep WritesCounted CmSystem.init s) :
    CausallyOrdered s := by
  have hstart : ClocksCover (CmSystem.init (n := n)) ∧ CausallyOrdered (CmSystem.init (n := n)) :=
    ⟨fun j w1 w2 _ hsub => by simp [CmSystem.init] at hsub,
      List.nodup_nil, fun j w1 w2 _ hsub => by simp [CmSystem.init] at hsub⟩
  refine (h.invariant (P := fun s => ClocksCover s ∧ CausallyOrdered s) hstart ?_).2
  intro u a v hu hp hok hstep
  exact causallyOrdered_step (cmInv_reachable hu).flow hp.1 hp.2 hok hstep

end Order

section Runs

/-- Server 1 applies server 0's write and then executes its own, which reaches
server 2 first and waits there for the other. -/
def countingRun : List (CmAction 3) :=
  [.request 0 (cmPut 0 [120] [49]), .sendFront 0, .arrive 0 1,
    .process 1, .process 1, .process 1, .process 1, .process 1,
    .request 1 (cmPut 1 [121] [50]), .sendFront 1, .arrive 1 2, .process 2, .process 2,
    .arrive 0 2, .process 2, .process 2, .process 2, .process 2, .process 2,
    .process 2, .process 2, .process 2]

theorem countingRun_causallyOrdered : ∃ s : CmSystem 3,
    (ReachableWhen cmStep WritesCounted CmSystem.init s ∧
      s.exposed.map (fun p => (p.1, p.2.key)) =
        [(2, [121]), (2, [120]), (1, [121]), (1, [120]), (0, [120])]) ∧ CausallyOrdered s := by
  obtain ⟨s, hs, hp⟩ := exists_of_run
    (P := fun s : CmSystem 3 => s.exposed.map (fun p => (p.1, p.2.key)) =
      [(2, [121]), (2, [120]), (1, [121]), (1, [120]), (0, [120])])
    (show (runWhen cmStep WritesCounted .init countingRun).any _ = true by decide +kernel)
  have hr := reachableWhen_of_runWhen hs
  exact ⟨s, ⟨hr, hp⟩, causallyOrdered_of_counted hr⟩

/-- Server 1 executes its write when server 0's is in its store but not in its
clock, and server 2 applies the later one alone. -/
def uncountedRun : List (CmAction 3) :=
  [.request 0 (cmPut 0 [120] [49]), .sendFront 0, .arrive 0 1,
    .process 1, .process 1, .process 1,
    .request 1 (cmPut 1 [121] [50]), .sendFront 1, .arrive 1 2, .process 2, .process 2, .process 2]

theorem uncountedRun_not_causallyOrdered : ∃ s : CmSystem 3,
    Reachable cmStep CmSystem.init s ∧ ¬ CausallyOrdered s := by
  let w1 : CmMessageRequest 3 := ⟨0, [120], [49], ![1, 0, 0]⟩
  let w2 : CmMessageRequest 3 := ⟨1, [121], [50], ![0, 1, 0]⟩
  obtain ⟨s, hs, hp⟩ := exists_of_run
    (P := fun s : CmSystem 3 => s.exposed = [(2, w2), (1, w2), (1, w1), (0, w1)])
    (show (runWhen cmStep (fun _ _ => True) .init uncountedRun).any _ = true by decide +kernel)
  refine ⟨s, reachableWhen_of_runWhen hs, fun h => ?_⟩
  have hsub := h.2 1 w1 w2 rfl (by rw [hp]; decide +kernel) 2 (by rw [hp]; decide +kernel)
  have hmem : ((2, w1) : Fin 3 × CmMessageRequest 3) ∈ s.exposed := hsub.subset (by simp)
  rw [hp] at hmem
  exact absurd hmem (by decide +kernel)

end Runs

end KeyValueStore
