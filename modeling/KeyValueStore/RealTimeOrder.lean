import KeyValueStore.DecidedSlots

/-! The real-time order of Multi-Paxos calls. A call that starts after another
returned draws an id that no decided slot can hold, so it goes past all of them. -/

namespace KeyValueStore

variable {n : ℕ} {s t : MpSystem n} {a : MpAction n}

section Ids

theorem mem_calledIds {commandId : UInt32} : commandId ∈ s.calledIds ↔
    ∃ i request, .called i request commandId ∈ s.history := by
  constructor
  · intro h
    obtain ⟨e, he, hm⟩ := List.mem_filterMap.mp h
    cases e <;> simp only [Option.some.injEq, reduceCtorEq] at hm
    exact ⟨_, _, hm ▸ he⟩
  · rintro ⟨i, request, h⟩
    exact List.mem_filterMap.mpr ⟨_, h, rfl⟩

/-- The id, if it is one, was drawn by a call. -/
def KnownId (s : MpSystem n) (x : Content) : Prop := x.commandId = 0 ∨ x.commandId ∈ s.calledIds

theorem Extends.calledIds_mono (h : Extends s t) {commandId : UInt32}
    (hm : commandId ∈ s.calledIds) : commandId ∈ t.calledIds := by
  obtain ⟨i, request, he⟩ := mem_calledIds.mp hm
  exact mem_calledIds.mpr ⟨i, request, h.mem_history he⟩

theorem knownId_carried : Carried (n := n) KnownId SafeStep where
  mono he h := h.imp_right he.calledIds_mono
  zero h := .inl h
  called _ hm := .inr (mem_calledIds.mpr ⟨_, _, hm⟩)
  wire h := h
  report _ _ _ _ _ h := h
  junk hok := hok

theorem known_of_chosen (h : ReachableWhen mpStep SafeStep .init s) {key : Bytes} {j : ℕ}
    {b : Proposal} {v : UInt32} (hc : (synodOf s.history key j).Chosen Majority b v) :
    v = 0 ∨ v ∈ s.calledIds := by
  obtain ⟨q, hq, hall⟩ := hc
  obtain ⟨a, ha⟩ := hq.nonempty
  obtain ⟨cmd, byHandler, hm, _, rfl⟩ := hall a ha
  exact (carries_of_reachable knownId_carried h).accepted a key j cmd byHandler hm

theorem MpSteps.newCall (h : MpSteps s a t) :
    (∃ events, t.history = events ++ s.history ∧ ∀ i request commandId,
      .called i request commandId ∉ events) ∨
    ∃ i request rand types, a = .insertCommand i request rand types ∧
      t.history = .called i request (newCommandId rand request) :: s.history := by
  cases h with
  | @insertCommand i request rand types st call hidle hstart =>
    have hid : call.origCmd.commandId = newCommandId rand request :=
      congrArg Content.commandId hstart.content
    exact .inr ⟨i, request, rand, types, rfl, hid ▸ rfl⟩
  | handle hrpc hk hreq hslot hh =>
    refine .inl ⟨_, rfl, fun i request commandId hm => ?_⟩
    rcases of_mem_handlerEvents hm with ⟨_, he | he⟩ <;> cases he
  | startRound => exact .inl ⟨[_], rfl, by simp⟩
  | prepareRetry => exact .inl ⟨[], rfl, by simp⟩
  | prepareSend => exact .inl ⟨[_], rfl, by simp⟩
  | acceptDone => exact .inl ⟨[], rfl, by simp⟩
  | acceptRetry => exact .inl ⟨[], rfl, by simp⟩
  | own => exact .inl ⟨[_, _, _], rfl, by simp⟩
  | retry => exact .inl ⟨[], rfl, by simp⟩
  | defeated => exact .inl ⟨[_, _], rfl, by simp⟩
  | answer => exact .inl ⟨[_], rfl, by simp⟩

theorem MpSteps.called_mem (h : MpSteps s a t) {i : Fin n} {request : KeyStoreRequest}
    {commandId : UInt32} (hm : .called i request commandId ∈ t.history) :
    .called i request commandId ∈ s.history ∨
      ∃ rand types, a = .insertCommand i request rand types ∧
        commandId = newCommandId rand request := by
  rcases h.newCall with ⟨events, ht, hno⟩ | ⟨i', request', rand, types, ha, ht⟩
  · rw [ht] at hm
    exact .inl ((List.mem_append.mp hm).resolve_left (hno i request commandId))
  · rw [ht] at hm
    rcases List.mem_cons.mp hm with he | hm
    · cases he
      exact .inr ⟨rand, types, ha, rfl⟩
    · exact .inl hm

theorem MpSteps.called_after (h : MpSteps s a t) {i : Fin n} {request : KeyStoreRequest}
    {commandId : UInt32} {e : MpEvent n}
    (hsub : [.called i request commandId, e].Sublist t.history) :
    [.called i request commandId, e].Sublist s.history ∨
      (e ∈ s.history ∧ ∃ rand types, a = .insertCommand i request rand types ∧
        commandId = newCommandId rand request) := by
  rcases h.newCall with ⟨events, ht, hno⟩ | ⟨i', request', rand, types, ha, ht⟩
  · rw [ht] at hsub
    refine .inl ?_
    clear ht
    induction events with
    | nil => exact hsub
    | cons x events ih =>
      rcases List.sublist_cons_iff.mp hsub with hrest | ⟨r, hr, _⟩
      · exact ih hrest (fun i r c hm => hno i r c (List.mem_cons_of_mem _ hm))
      · refine absurd ?_ (hno i request commandId)
        exact (List.cons.inj hr).1 ▸ List.mem_cons_self
  · rw [ht] at hsub
    rcases List.sublist_cons_iff.mp hsub with hrest | ⟨r, hr, hrest⟩
    · exact .inl hrest
    · obtain ⟨he, rfl⟩ := List.cons.inj hr
      cases he
      exact .inr ⟨hrest.subset List.mem_cons_self, rand, types, ha, rfl⟩

end Ids

section Condition

def DecidedSlot (s : MpSystem n) (_ : Fin n) (_ : RequestType) (key : Bytes) (j : ℕ) : Prop :=
  s.Decided key j

instance (s : MpSystem n) (i : Fin n) (type : RequestType) (key : Bytes) (j : ℕ) :
    Decidable (DecidedSlot s i type key j) :=
  inferInstanceAs (Decidable (s.Decided key j))

/-- A safe step with a fresh id; a slot is picked only when all below it are
decided. -/
def InOrderStep (s : MpSystem n) (a : MpAction n) : Prop :=
  SafeStep s a ∧ DrawsFreshId s a ∧ Picks DecidedSlot s a

instance (s : MpSystem n) (a : MpAction n) : Decidable (InOrderStep s a) :=
  inferInstanceAs (Decidable (_ ∧ _ ∧ _))

end Condition

section Invariant

theorem MpSteps.returned (h : MpSteps s a t) {i : Fin n} {key : Bytes} {k : ℕ} {commandId : UInt32}
    (hm : .returned i key k commandId ∈ t.history) : .returned i key k commandId ∈ s.history ∨
      (∃ call, (s.servers i).call = some call ∧ call.key = key ∧ call.currIdx = k) ∧
        ∃ x, .recorded i key k x ∈ t.history ∧ x.commandId = commandId := by
  cases h with
  | handle hrpc hk hreq hslot hh =>
    refine .inl ?_
    rcases List.mem_append.mp hm with hm | hm
    · rcases of_mem_handlerEvents hm with ⟨_, he | he⟩ <;> cases he
    · exact hm
  | own hcall =>
    rcases List.mem_cons.mp hm with he | hm
    · cases he
      exact .inr ⟨⟨_, hcall, rfl, rfl⟩, _, List.mem_cons_of_mem _ List.mem_cons_self, rfl⟩
    · exact .inl (by simpa using hm)
  | _ => exact .inl (by simpa using hm)

/-- What holds of returns and of later calls in runs that pick in order. -/
structure InOrder (s : MpSystem n) : Prop where
  below : SettledBelow DecidedSlot s
  returned : ∀ i key k commandId, .returned i key k commandId ∈ s.history →
    (∃ b, (synodOf s.history key k).Chosen Majority b commandId) ∧ ∀ j < k, s.Decided key j
  later : ∀ i request commandId i' k id', [.called i request commandId,
    .returned i' (cStr request.key) k id'].Sublist s.history →
    ∀ j ≤ k, ∃ b v, (synodOf s.history (cStr request.key) j).Chosen Majority b v ∧ v ≠ commandId

theorem inOrder_init : InOrder (MpSystem.init : MpSystem n) where
  below := by simp [SettledBelow, MpSystem.init, MpServer.start]
  returned := by simp [MpSystem.init]
  later := by simp [MpSystem.init]

theorem InOrder.chosen_upTo (h : InOrder s) {i : Fin n} {key : Bytes} {k : ℕ} {commandId : UInt32}
    (hm : .returned i key k commandId ∈ s.history) {j : ℕ} (hj : j ≤ k) :
    ∃ b v, (synodOf s.history key j).Chosen Majority b v := by
  obtain ⟨⟨b, hb⟩, hbelow⟩ := h.returned i key k commandId hm
  rcases hj.lt_or_eq with hlt | rfl
  · exact decided_iff.mp (hbelow j hlt)
  · exact ⟨b, commandId, hb⟩

theorem InOrder.step (h : InOrder s) (hr : ReachableWhen mpStep SafeStep .init s)
    (ha : InOrderStep s a) (hs : MpSteps s a t) : InOrder t := by
  obtain ⟨hsafe, hfresh, hpicks⟩ := ha
  have hu := paxosInv_of_reachable hr
  have hext := hs.extends
  refine ⟨h.below.step Extends.decided_mono MpSystem.HoldsDecided.decided hu hpicks hs, ?_, ?_⟩
  · intro i key k commandId hm
    rcases hs.returned hm with hm | ⟨⟨call, hcall, rfl, rfl⟩, x, hx, rfl⟩
    · obtain ⟨⟨b, hb⟩, hbelow⟩ := h.returned i key k commandId hm
      exact ⟨⟨b, hext.chosen_mono hb⟩, fun j hj => hext.decided_mono (hbelow j hj)⟩
    · exact ⟨(hu.step hsafe hs).recorded _ _ _ _ hx,
        fun j hj => hext.decided_mono (h.below i call hcall j hj)⟩
  · intro i request commandId i' k id' hsub j hj
    rcases hs.called_after hsub with hsub | ⟨hm, rand, types, rfl, rfl⟩
    · obtain ⟨b, v, hc, hne⟩ := h.later i request commandId i' k id' hsub j hj
      exact ⟨b, v, hext.chosen_mono hc, hne⟩
    · obtain ⟨b, v, hc⟩ := h.chosen_upTo hm hj
      refine ⟨b, v, hext.chosen_mono hc, ?_⟩
      rintro rfl
      rcases known_of_chosen hr hc with hz | hold
      · exact hfresh.1 hz
      · exact hfresh.2 hold

theorem inOrder_of_reachable (h : ReachableWhen mpStep InOrderStep .init s) : InOrder s :=
  h.invariant inOrder_init (fun _ _ _ hr hu ha he =>
    hu.step (hr.mono (fun _ _ hok => hok.1)) ha (mpStep_steps he))

end Invariant

section Order

/-- A call that starts after another call on its key returned, returns a later
slot. The history has its newest event first. -/
def RealTimeOrder (s : MpSystem n) : Prop :=
  ∀ i request commandId i₁ k₁ id₁ i₂ k₂,
    [.called i request commandId, .returned i₁ (cStr request.key) k₁ id₁].Sublist s.history →
    .returned i₂ (cStr request.key) k₂ commandId ∈ s.history → k₁ < k₂

theorem realTimeOrder_of_inOrder (h : ReachableWhen mpStep InOrderStep .init s) :
    RealTimeOrder s := by
  intro i request commandId i₁ k₁ id₁ i₂ k₂ hsub hret
  have hinv := inOrder_of_reachable h
  have hsynod := (paxosInv_of_reachable (h.mono (fun _ _ hok => hok.1))).slots (cStr request.key) k₂
  by_contra hle
  obtain ⟨b, v, hv, hne⟩ := hinv.later i request commandId i₁ k₁ id₁ hsub k₂ (Nat.le_of_not_lt hle)
  obtain ⟨⟨c, hc⟩, _⟩ := hinv.returned i₂ _ k₂ commandId hret
  exact hne (hv.agree (fun _ _ => Majority.inter) hsynod.reachable hc)

/-- The command that was defeated at slot 0 goes on to slot 1. -/
def movingRun : List (MpAction 3) := learningRun ++
  [.startRound 1, .handle 5 blankMemory, .finishPrepare 1 [2] blankCommand, .handle 6 blankMemory,
    .finishAccept 1 [2] blankCommand, .finish 1]

theorem movingRun_realTimeOrder : ∃ s : MpSystem 3,
    runWhen mpStep InOrderStep .init movingRun = some s ∧ .returned 0 [107] 0 11 ∈ s.history ∧
    .returned 1 [107] 1 22 ∈ s.history ∧ RealTimeOrder s := by
  obtain ⟨s, hs, hm₀, hm₁⟩ := exists_of_run (P := fun s : MpSystem 3 =>
    .returned 0 [107] 0 11 ∈ s.history ∧ .returned 1 [107] 1 22 ∈ s.history)
    (show (runWhen mpStep InOrderStep .init movingRun).any _ = true by decide +kernel)
  exact ⟨s, hs, hm₀, hm₁, realTimeOrder_of_inOrder (reachableWhen_of_runWhen hs)⟩

/-- Server 0 accepts at slot 0 what server 1 never gets decided, and so takes
slot 1 for its own call. Server 2, called later, finds slot 0 free. -/
def skippingRun : List (MpAction 3) :=
  [.insertCommand 1 (putRequest 2 50) 20 readTypes, .startRound 1, .handle 0 blankMemory,
    .finishPrepare 1 [0] blankCommand, .handle 1 blankMemory,
    .insertCommand 0 (putRequest 1 49) 10 readTypes, .startRound 0, .handle 3 blankMemory,
    .finishPrepare 0 [2] blankCommand, .handle 4 blankMemory, .finishAccept 0 [2] blankCommand,
    .finish 0, .insertCommand 2 (putRequest 3 51) 30 readTypes, .startRound 2,
    .handle 5 blankMemory, .finishPrepare 2 [1] blankCommand, .handle 6 blankMemory,
    .finishAccept 2 [1] blankCommand, .finish 2]

theorem skippingRun_out_of_order : ∃ s : MpSystem 3,
    ReachableWhen mpStep (fun s a => SafeStep s a ∧ DrawsFreshId s a) .init s ∧
    ¬ RealTimeOrder s := by
  obtain ⟨s, hs, hsub, hret⟩ := exists_of_run (P := fun s : MpSystem 3 =>
    [.called 2 (putRequest 3 51) 33, .returned 0 [107] 1 11].Sublist s.history ∧
      .returned 2 [107] 0 33 ∈ s.history)
    (show (runWhen mpStep (fun s a => SafeStep s a ∧ DrawsFreshId s a) .init skippingRun).any _ =
      true by decide +kernel)
  refine ⟨s, reachableWhen_of_runWhen hs, fun hall => ?_⟩
  exact absurd (hall 2 (putRequest 3 51) 33 0 1 11 2 0 hsub hret) (by decide)

end Order

end KeyValueStore
