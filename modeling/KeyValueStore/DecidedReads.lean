import KeyValueStore.CommandIntegrity
import KeyValueStore.RealTimeOrder

/-! What a Multi-Paxos READ sees. When every slot that its picks leave behind
holds what is decided there, the log below it is the decided log. -/

namespace KeyValueStore

variable {n : ℕ} {s t : MpSystem n} {a : MpAction n} {key : Bytes} {j : ℕ}

section LastWrite

theorem lastWrite_some {cl : CommandsList} {m : ℕ} {c : Command}
    (h : (List.range m).foldl (fun prev i =>
      if (cl.cmdVec i).commandType = .write then some (cl.cmdVec i) else prev) none = some c) :
    ∃ i < m, cl.cmdVec i = c ∧ c.commandType = .write ∧
      ∀ k < m, i < k → (cl.cmdVec k).commandType ≠ .write := by
  induction m with
  | zero => simp at h
  | succ m ih =>
    rw [List.range_succ, List.foldl_append, List.foldl_cons, List.foldl_nil] at h
    split at h
    next hw =>
      simp only [Option.some.injEq] at h
      exact ⟨m, by omega, h, h ▸ hw, fun k hk hlt => by omega⟩
    next hw =>
      obtain ⟨i, hi, hc, hcw, hlast⟩ := ih h
      refine ⟨i, by omega, hc, hcw, fun k hk hlt => ?_⟩
      rcases Nat.lt_succ_iff_lt_or_eq.mp hk with hk | rfl
      · exact hlast k hk hlt
      · exact hw

theorem lastWrite_none {cl : CommandsList} {m : ℕ}
    (h : (List.range m).foldl (fun prev i =>
      if (cl.cmdVec i).commandType = .write then some (cl.cmdVec i) else prev) none = none) :
    ∀ k < m, (cl.cmdVec k).commandType ≠ .write := by
  induction m with
  | zero => exact fun k hk => absurd hk (Nat.not_lt_zero k)
  | succ m ih =>
    rw [List.range_succ, List.foldl_append, List.foldl_cons, List.foldl_nil] at h
    split at h
    next => simp at h
    next hw =>
      intro k hk
      rcases Nat.lt_succ_iff_lt_or_eq.mp hk with hk | rfl
      · exact ih h k hk
      · exact hw

theorem mpAnswer_read {st : MpStore} {request : KeyStoreRequest} {cl : CommandsList} (idx : ℕ)
    (hread : request.type = .read) (hcl : st.logMap (cStr request.key) = some cl) :
    (lastWrite cl idx = none ∧
      mpAnswer st request idx = some (st, { protocol := .mp, code := .error })) ∨
    ∃ prev st' k, lastWrite cl idx = some prev ∧
      mpAnswer st request idx = some (st', { protocol := .mp, key := k, value := prev.value }) := by
  unfold mpAnswer applyLastWrite
  cases hlast : lastWrite cl idx with
  | none => simp [hread, hcl, hlast]
  | some prev =>
    cases hks : st.mpKsMap (cStr request.key) <;> simp [hread, hcl, hlast]

end LastWrite

section Submissions

def UniqueIds (s : MpSystem n) : Prop := ∀ i request i' request' commandId,
  .called i request commandId ∈ s.history → .called i' request' commandId ∈ s.history →
    request = request'

theorem uniqueIds_of_reachable (h : ReachableWhen mpStep DrawsFreshId .init s) : UniqueIds s := by
  refine h.invariant (by simp [UniqueIds, MpSystem.init]) (fun u a v hr hu ha he => ?_)
  intro i request i' request' commandId hm hm'
  have hs := mpStep_steps he
  rcases hs.called_mem hm with hm | ⟨rand, types, rfl, rfl⟩
  · rcases hs.called_mem hm' with hm' | ⟨rand, types, rfl, rfl⟩
    · exact hu i request i' request' commandId hm hm'
    · exact absurd (mem_calledIds.mpr ⟨_, _, hm⟩) ha.2
  · rcases hs.called_mem hm' with hm' | ⟨rand', types', he', _⟩
    · exact absurd (mem_calledIds.mpr ⟨_, _, hm'⟩) ha.2
    · cases he'
      rfl

theorem UniqueIds.submitted_eq (h : UniqueIds s) {x y : Content} (hx : Submitted s x)
    (hy : Submitted s y) (hid : x.commandId = y.commandId) : x = y := by
  obtain ⟨i, request, hm, ht, hk, hv⟩ := hx
  obtain ⟨i', request', hm', ht', hk', hv'⟩ := hy
  have hsame := h i request i' request' y.commandId (hid ▸ hm) hm'
  cases x
  cases y
  simp_all

end Submissions

section Condition

def HeldSlot (s : MpSystem n) (i : Fin n) (type : RequestType) (key : Bytes) (j : ℕ) : Prop :=
  type = .read → s.HoldsDecided i key j

instance (s : MpSystem n) (i : Fin n) (type : RequestType) (key : Bytes) (j : ℕ) :
    Decidable (HeldSlot s i type key j) :=
  inferInstanceAs (Decidable (type = .read → s.HoldsDecided i key j))

/-- A safe step with a fresh id that copies commands as they are; a READ picks a
slot only when the server holds what is decided at all below it. -/
def HeldStep (s : MpSystem n) (a : MpAction n) : Prop :=
  SafeStep s a ∧ DrawsFreshId s a ∧ CopiesCommands s a ∧ Picks HeldSlot s a

instance (s : MpSystem n) (a : MpAction n) : Decidable (HeldStep s a) :=
  inferInstanceAs (Decidable (_ ∧ _ ∧ _ ∧ _))

end Condition

section Invariant

def CallOfRequest (call : InsertCall) : Prop :=
  call.origCmd.content =
    ⟨call.origCmd.commandId, call.request.type, call.request.key, call.request.value⟩

def ReturnHeld (s : MpSystem n) (i : Fin n) (call : InsertCall) : Prop :=
  call.phase = .returned → HoldsChosen s i call.key call.currIdx call.origCmd.commandId

theorem CallOfRequest.congr {call call' : InsertCall} (h : CallOfRequest call)
    (hrequest : call'.request = call.request)
    (hcontent : call'.origCmd.content = call.origCmd.content) : CallOfRequest call' := by
  have hid : call'.origCmd.commandId = call.origCmd.commandId := congrArg Content.commandId hcontent
  unfold CallOfRequest at *
  rw [hcontent, hrequest, hid]
  exact h

theorem MpSteps.callOfRequest (hs : MpSteps s a t) {i : Fin n} {call' : InsertCall}
    (h : ∀ i call, (s.servers i).call = some call → CallOfRequest call)
    (hc : (t.servers i).call = some call') : CallOfRequest call' := by
  cases hs.callStep hc with
  | kept hcall hrequest hcontent => exact (h i _ hcall).congr hrequest hcontent
  | recorded hcall _ _ hrequest hcontent => exact (h i _ hcall).congr hrequest hcontent
  | moved _ hcall _ _ _ _ hrequest hcontent => exact (h i _ hcall).congr hrequest hcontent
  | started ha hstart =>
    have hid : call'.origCmd.commandId = _ := congrArg Content.commandId hstart.content
    rw [CallOfRequest, hstart.content, hstart.request, hid]

structure HeldInv (s : MpSystem n) : Prop where
  below : SettledBelow HeldSlot s
  requests : ∀ i call, (s.servers i).call = some call → CallOfRequest call
  returned : ∀ i call, (s.servers i).call = some call → ReturnHeld s i call

theorem heldInv_init : HeldInv (MpSystem.init : MpSystem n) where
  below := by simp [SettledBelow, MpSystem.init, MpServer.start]
  requests := by simp [MpSystem.init, MpServer.start]
  returned := by simp [MpSystem.init, MpServer.start]

theorem HeldInv.step (h : HeldInv s) (hu : PaxosInv s) (hpicks : Picks HeldSlot s a)
    (hs : MpSteps s a t) : HeldInv t := by
  refine ⟨h.below.step (fun he h ht => he.holdsDecided_mono (h ht))
    (fun h _ => h) hu hpicks hs, fun _ _ hc => hs.callOfRequest h.requests hc,
    fun i call' hc hret => ?_⟩
  cases hs.callStep hc with
  | kept hcall _ _ _ hphase =>
    obtain rfl := hphase hret
    exact (h.returned i _ hcall hret).mono hs.extends
  | @recorded call round tempCmd hcall hphase hid _ hcontent hidx hproposal haccepted =>
    have hid' : call'.origCmd.commandId = tempCmd.commandId :=
      (congrArg Content.commandId hcontent).trans hid
    have hback := (hu.calls i call hcall).phase
    simp only [PhaseBacked, hphase] at hback
    have hvote : (synodOf t.history call.key call.currIdx).vote i tempCmd.acceptedProposal
        tempCmd.commandId :=
      ⟨_, false, haccepted, hback.2.2.1.trans hproposal.symm, hid'.symm⟩
    rw [InsertCall.key_congr hcontent, hidx, hid']
    exact ⟨_, _, _, hu.chosen_recorded hcall hphase hs.extends hvote, hvote, le_rfl⟩
  | started ha hstart => exact absurd (hstart.phase.symm.trans hret) (by simp)
  | moved ha hcall hphase hcl hid hi hrequest hcontent haccepted hne => exact absurd hret hne

theorem heldInv_of_reachable (h : ReachableWhen mpStep HeldStep .init s) : HeldInv s :=
  h.invariant heldInv_init (fun _ _ _ hr hu ha he =>
    hu.step (paxosInv_of_reachable (hr.mono (fun _ _ hok => hok.1))) ha.2.2.2 (mpStep_steps he))

end Invariant

section Decisions

/-- A majority accepted the command at the slot under one proposal. -/
def MpSystem.Decides (s : MpSystem n) (key : Bytes) (j : ℕ) (x : Content) : Prop :=
  ∃ b q, Majority q ∧ ∀ a ∈ q, ∃ cmd byHandler, .accepted a key j cmd byHandler ∈ s.history ∧
    cmd.acceptedProposal = b ∧ cmd.content = x

theorem MpSystem.Decides.chosen {x : Content} (h : s.Decides key j x) :
    ∃ b, (synodOf s.history key j).Chosen Majority b x.commandId := by
  obtain ⟨b, q, hq, hall⟩ := h
  refine ⟨b, q, hq, fun a ha => ?_⟩
  obtain ⟨cmd, byHandler, hm, hp, rfl⟩ := hall a ha
  exact ⟨cmd, byHandler, hm, hp.symm, rfl⟩

theorem MpSystem.Decides.decided {x : Content} (h : s.Decides key j x) : s.Decided key j :=
  decided_iff.mpr (h.chosen.imp (fun _ hb => ⟨_, hb⟩))

theorem HoldsChosen.slot {i : Fin n} {v : UInt32} (h : HoldsChosen s i key j v) (hu : PaxosInv s) :
    ∃ cl, (s.servers i).store.logMap key = some cl ∧ Filled key j (cl.cmdVec j) ∧
      (cl.cmdVec j).commandId = v := by
  obtain ⟨b, c, w, hc, hv, hle⟩ := h
  have hlast := ((hu.slots key j).tracks i).lastVote
  cases hvote : s.vote i key j with
  | none =>
    rw [hvote] at hlast
    exact absurd hv (hlast c w)
  | some y =>
    obtain ⟨p, x⟩ := y
    rw [hvote] at hlast
    have hid : x.commandId = v := hc.vote_eq (fun _ _ => Majority.inter) (hu.slots key j).reachable
      hlast.1 (hle.trans (hlast.2 c w hv))
    simp only [MpSystem.vote, MpStore.vote] at hvote
    split at hvote
    next cl hcl =>
      obtain ⟨hnum, _, rfl⟩ := Command.vote_eq_some.mp hvote
      refine ⟨cl, hcl, (hu.filled i key cl hcl j).resolve_left (fun he => ?_), hid⟩
      rw [he] at hnum
      exact absurd hnum (by decide)
    next => simp at hvote

variable {i : Fin n} {v : UInt32} {cl : CommandsList}

theorem HoldsChosen.decides (h : HoldsChosen s i key j v) (hu : PaxosInv s)
    (hg : Carries Genuine s) (hunique : UniqueIds s)
    (hcl : (s.servers i).store.logMap key = some cl) : s.Decides key j (cl.cmdVec j).content := by
  obtain ⟨cl', hcl', hfilled, hid⟩ := h.slot hu
  cases hcl.symm.trans hcl'
  obtain ⟨b, _, _, ⟨q, hq, hall⟩, _⟩ := h
  refine ⟨b, q, hq, fun a ha => ?_⟩
  obtain ⟨cmd, byHandler, hm, hp, hv⟩ := hall a ha
  have hsame : cmd.commandId = (cl.cmdVec j).commandId := hv.symm.trans hid.symm
  have hne : cmd.commandId ≠ 0 := fun hz => hfilled.id (hsame.symm.trans hz)
  refine ⟨cmd, byHandler, hm, hp.symm, ?_⟩
  exact hunique.submitted_eq (hg.accepted a key j cmd byHandler hm hne).1
    (hg.slots i key cl hcl j hfilled.id).1 hsame

theorem HoldsChosen.decides_eq (h : HoldsChosen s i key j v) (hu : PaxosInv s)
    (hg : Carries Genuine s) (hunique : UniqueIds s)
    (hcl : (s.servers i).store.logMap key = some cl) {y : Content} (hy : s.Decides key j y) :
    y = (cl.cmdVec j).content := by
  obtain ⟨cl', hcl', hfilled, hid⟩ := h.slot hu
  cases hcl.symm.trans hcl'
  obtain ⟨b, _, _, hc, _⟩ := h
  obtain ⟨b', hc'⟩ := hy.chosen
  have hsame : y.commandId = (cl.cmdVec j).commandId :=
    (hc'.agree (fun _ _ => Majority.inter) (hu.slots key j).reachable hc).trans hid.symm
  obtain ⟨_, q, hq, hall⟩ := hy
  obtain ⟨a, ha⟩ := hq.nonempty
  obtain ⟨cmd, byHandler, hm, _, rfl⟩ := hall a ha
  have hne : cmd.commandId ≠ 0 := fun hz => hfilled.id (hsame.symm.trans hz)
  exact hunique.submitted_eq (hg.accepted a key j cmd byHandler hm hne).1
    (hg.slots i key cl hcl j hfilled.id).1 hsame

end Decisions

section Reads

/-- The last decided WRITE below the slot. -/
def MpSystem.LastDecidedWrite (s : MpSystem n) (key : Bytes) (idx : ℕ) (x : Content) : Prop :=
  x.commandType = .write ∧ ∃ j < idx, s.Decides key j x ∧
    ∀ k < idx, j < k → ∀ y, s.Decides key k y → y.commandType ≠ .write

def MpSystem.NoDecidedWrite (s : MpSystem n) (key : Bytes) (idx : ℕ) : Prop :=
  ∀ k < idx, ∀ y, s.Decides key k y → y.commandType ≠ .write

/-- When a READ whose call returned is answered, the server's log below its slot
is the decided log, and the reply is what that log says. -/
def ReadsDecidedLog (s : MpSystem n) : Prop :=
  ∀ i call, (s.servers i).call = some call → call.phase = .returned → call.request.type = .read →
    ∃ cl st reply, (s.servers i).store.logMap call.key = some cl ∧
      mpAnswer (s.servers i).store call.request call.currIdx = some (st, reply) ∧
      (∀ j < call.currIdx, s.Decides call.key j (cl.cmdVec j).content) ∧
      ((∃ x, s.LastDecidedWrite call.key call.currIdx x ∧ reply.code ≠ .error ∧
          reply.value = x.value) ∨
        (s.NoDecidedWrite call.key call.currIdx ∧ reply.code = .error))

theorem readsDecidedLog_of_held (h : ReachableWhen mpStep HeldStep .init s) :
    ReadsDecidedLog s := by
  have hu := paxosInv_of_reachable (h.mono (fun _ _ hok => hok.1))
  have hunique := uniqueIds_of_reachable (h.mono (fun _ _ hok => hok.2.1))
  have hg := carries_of_reachable genuine_carried (h.mono (fun _ _ hok => hok.2.2.1))
  have hinv := heldInv_of_reachable h
  intro i call hcall hret hread
  have hreq := hinv.requests i call hcall
  have hlt := ((hu.traffic.servers i).call call hcall).lt
  have hkey : call.key = cStr call.request.key := congrArg (fun c => cStr (Content.key c)) hreq
  have hown := hinv.returned i call hcall hret
  obtain ⟨cl, hcl, hfilled, hid⟩ := hown.slot hu
  have hheld : ∀ j < call.currIdx, s.Decides call.key j (cl.cmdVec j).content ∧
      ∀ y, s.Decides call.key j y → y = (cl.cmdVec j).content := by
    intro j hj
    obtain ⟨v, hv⟩ := holdsDecided_iff.mp (hinv.below i call hcall j hj hread)
    exact ⟨hv.decides hu hg hunique hcl, fun y => hv.decides_eq hu hg hunique hcl⟩
  -- the slot of the read itself holds the READ
  have hself : (cl.cmdVec call.currIdx).commandType ≠ .write := by
    have hne : call.origCmd.commandId ≠ 0 := fun hz => hfilled.id (hid.trans hz)
    have hsame := hunique.submitted_eq (hg.slots i call.key cl hcl call.currIdx hfilled.id).1
      ((hg.calls i call hcall).1 hne).1 hid
    have htype : (cl.cmdVec call.currIdx).commandType = call.request.type :=
      (congrArg Content.commandType hsame).trans (congrArg Content.commandType hreq)
    simp [htype, hread]
  have hrange : min (call.currIdx + 1) initCommandLength = call.currIdx + 1 := by omega
  refine ⟨cl, ?_⟩
  rcases mpAnswer_read call.currIdx hread (hkey ▸ hcl) with
    ⟨hlast, hans⟩ | ⟨prev, st, k, hlast, hans⟩
  · rw [lastWrite, hrange] at hlast
    refine ⟨_, _, hcl, hans, fun j hj => (hheld j hj).1, .inr ⟨fun j hj y hy => ?_, rfl⟩⟩
    rw [(hheld j hj).2 y hy]
    exact lastWrite_none hlast j (by omega)
  · rw [lastWrite, hrange] at hlast
    obtain ⟨j, hj, rfl, hwrite, hafter⟩ := lastWrite_some hlast
    have hjlt : j < call.currIdx := by
      rcases Nat.lt_succ_iff_lt_or_eq.mp hj with hj | rfl
      · exact hj
      · exact absurd hwrite hself
    refine ⟨_, _, hcl, hans, fun j hj => (hheld j hj).1,
      .inl ⟨(cl.cmdVec j).content, ⟨hwrite, j, hjlt, (hheld j hjlt).1, fun k hk hjk y hy => ?_⟩,
        by simp, rfl⟩⟩
    rw [(hheld k hk).2 y hy]
    exact hafter k (by omega) hjk

/-- Server 0 decides a WRITE at slot 0, and then a READ at slot 1. -/
def rereadingRun : List (MpAction 3) := learningRun.take 7 ++
  [.answer 0, .insertCommand 0 (getRequest 1) 20 readTypes, .startRound 0, .handle 3 blankMemory,
    .finishPrepare 0 [2] blankCommand, .handle 4 blankMemory, .finishAccept 0 [2] blankCommand,
    .finish 0]

def answerNow (s : MpSystem 3) (reply : KeyStoreResponse) : Prop :=
  ∃ t ∈ mpStep s (.answer 0), .answered 0 (getRequest 1) 1 reply ∈ t.history

instance (s : MpSystem 3) (reply : KeyStoreResponse) : Decidable (answerNow s reply) :=
  inferInstanceAs (Decidable (∃ t ∈ mpStep s (.answer 0), _))

theorem rereadingRun_readsDecidedLog : ∃ s : MpSystem 3,
    runWhen mpStep HeldStep .init rereadingRun = some s ∧
    answerNow s { protocol := .mp, key := [107], value := [49] } ∧ ReadsDecidedLog s := by
  obtain ⟨s, hs, hans⟩ := exists_of_run (P := fun s : MpSystem 3 =>
    answerNow s { protocol := .mp, key := [107], value := [49] })
    (show (runWhen mpStep HeldStep .init rereadingRun).any _ = true by decide +kernel)
  exact ⟨s, hs, hans, readsDecidedLog_of_held (reachableWhen_of_runWhen hs)⟩

/-- Server 0 accepts at slot 0 what server 1 never gets decided, takes slot 1
for a READ, and answers it with the undecided value. -/
def trustingRun : List (MpAction 3) :=
  [.insertCommand 1 (putRequest 2 50) 20 readTypes, .startRound 1, .handle 0 blankMemory,
    .finishPrepare 1 [0] blankCommand, .handle 1 blankMemory,
    .insertCommand 0 (getRequest 1) 10 readTypes, .startRound 0, .handle 3 blankMemory,
    .finishPrepare 0 [2] blankCommand, .handle 4 blankMemory, .finishAccept 0 [2] blankCommand,
    .finish 0]

theorem trustingRun_reads_undecided : ∃ s : MpSystem 3,
    ReachableWhen mpStep (fun s a => SafeStep s a ∧ DrawsFreshId s a ∧ CopiesCommands s a) .init s ∧
    answerNow s { protocol := .mp, key := [107], value := [50] } ∧ ¬ ReadsDecidedLog s := by
  obtain ⟨s, hs, hans, hcall, hund⟩ := exists_of_run (P := fun s : MpSystem 3 =>
    answerNow s { protocol := .mp, key := [107], value := [50] } ∧
      (∃ call ∈ (s.servers 0).call, call.phase = .returned ∧ call.request.type = .read ∧
        call.key = [107] ∧ call.currIdx = 1) ∧ ¬ s.Decided [107] 0)
    (show (runWhen mpStep (fun s a => SafeStep s a ∧ DrawsFreshId s a ∧ CopiesCommands s a) .init
      trustingRun).any _ = true by decide +kernel)
  obtain ⟨call, hc, hret, hread, hkey, hidx⟩ := hcall
  refine ⟨s, reachableWhen_of_runWhen hs, hans, fun hall => ?_⟩
  obtain ⟨cl, st, reply, _, _, hdecided, _⟩ := hall 0 call hc hret hread
  exact hund (hkey ▸ (hdecided 0 (by omega)).decided)

end Reads

end KeyValueStore
