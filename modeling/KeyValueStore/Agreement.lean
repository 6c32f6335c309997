import KeyValueStore.ProposerRefinement

/-! Multi-Paxos agreement. In a run of safe steps every slot is a synod, and
what two calls record at one slot is one command. -/

namespace KeyValueStore

variable {n : ℕ} {s t : MpSystem n} {a : MpAction n}

section Invariant

theorem CallBacked.retry {i : Fin n} {call : InsertCall} (h : CallBacked s i call) (num : Int32) :
    CallBacked s i { call with origCmd := call.origCmd.withAcceptedNum num, phase := .roundStart } :=
  ⟨h.key, h.id, trivial⟩

theorem PaxosInv.setCall (h : PaxosInv s) {i : Fin n} {call : InsertCall}
    (hs : MpSteps s a (s.advance i { s.servers i with call := some call } []))
    (hcall : CallBacked s i call) :
    PaxosInv (s.advance i { s.servers i with call := some call } []) := by
  refine h.quiet hs (by simp) rfl (fun _ _ => ⟨rfl, rfl⟩) (h.filled i) (fun c hc => ?_)
  simp only [Option.some.injEq] at hc
  exact hc ▸ hcall

theorem PaxosInv.insertCommand (h : PaxosInv s) {i : Fin n} {request : KeyStoreRequest}
    {rand : UInt32} {st : MpStore} {call : InsertCall}
    (hs : MpSteps s a (s.advance i { s.servers i with store := st, call := some call }
      [.called i request call.origCmd.commandId]))
    (hstart : Starts (s.servers i).store request rand st call)
    (hid : newCommandId rand request ≠ 0) (hkey : request.key ≠ []) :
    PaxosInv (s.advance i { s.servers i with store := st, call := some call }
      [.called i request call.origCmd.commandId]) := by
  have hslots := hstart.slots slotFilled_slotPredicate (h.filled i)
  obtain ⟨types, rfl⟩ := hstart.store
  refine h.quiet hs (by simp [MpEvent.Concerns]) rfl
    (fun key j => ⟨setLog_lookup_promise .., setLog_lookup_vote ..⟩)
    hslots ?_
  intro c hc
  simp only [Option.some.injEq] at hc
  subst hc
  have hck : call.origCmd.key = request.key := congrArg Content.key hstart.content
  have hci : call.origCmd.commandId = newCommandId rand request :=
    congrArg Content.commandId hstart.content
  exact ⟨hck ▸ hkey, hci ▸ hid, by simp [PhaseBacked, hstart.phase]⟩

theorem PaxosInv.own (h : PaxosInv s) {i : Fin n} {call : InsertCall} {round : ℕ}
    {tempCmd origCmd : Command} {st : MpStore} (hcall : (s.servers i).call = some call)
    (hphase : call.phase = .proposed round tempCmd)
    (hrec : Records (s.servers i).store call.origCmd tempCmd call.currIdx (.own st origCmd))
    (hs : MpSteps s a (s.advance i { s.servers i with
        store := st, call := some { call with origCmd, phase := .returned } }
      [.returned i call.key call.currIdx origCmd.commandId,
        .recorded i call.key call.currIdx origCmd.content,
        .accepted i call.key call.currIdx origCmd false])) : PaxosInv (s.advance i
      { s.servers i with store := st, call := some { call with origCmd, phase := .returned } }
      [.returned i call.key call.currIdx origCmd.commandId,
        .recorded i call.key call.currIdx origCmd.content,
        .accepted i call.key call.currIdx origCmd false]) := by
  have hfits := (h.traffic.servers i).call call hcall
  have hback := h.calls i call hcall
  have hp := hback.phase
  simp only [PhaseBacked, hphase] at hp
  obtain ⟨_, _, hacc, _⟩ := hp
  cases hrec with
  | @own cl hcl hid hmin =>
    have hpromise : s.promise i call.key call.currIdx = (cl.cmdVec call.currIdx).minProposalNum := by
      change (s.servers i).store.promise (cStr call.origCmd.key) call.currIdx = _
      simp [MpStore.promise, hcl]
    refine h.record hcall hphase hs hcl rfl rfl hacc.symm hmin.symm hid
      ⟨hfits.num, hfits.index, rfl, hback.key, hback.id⟩ (hpromise.trans hmin.symm).le
      [.returned i call.key call.currIdx call.origCmd.commandId,
        .recorded i call.key call.currIdx call.origCmd.content]
      (by simp [MpEvent.Concerns]) rfl ?_ ?_
    · intro j key k content hm
      simp only [List.mem_cons, reduceCtorEq, MpEvent.recorded.injEq, List.not_mem_nil, or_false,
        false_or] at hm
      exact ⟨hm.2.1, hm.2.2.1, hm.2.2.2 ▸ rfl⟩
    · intro c hc
      simp only [Option.some.injEq] at hc
      subst hc
      exact ⟨hback.key, hback.id, trivial⟩

theorem PaxosInv.defeated (h : PaxosInv s) {i : Fin n} {call : InsertCall} {round : ℕ}
    {tempCmd origCmd : Command} {st : MpStore} {currIdx : ℕ}
    (hcall : (s.servers i).call = some call) (hphase : call.phase = .proposed round tempCmd)
    (hrec : Records (s.servers i).store call.origCmd tempCmd call.currIdx
      (.defeated st origCmd currIdx))
    (hsafe : StoresAbove s i)
    (hs : MpSteps s a (s.advance i { s.servers i with
        store := st, call := some { call with origCmd, currIdx, phase := .roundStart } }
      [.recorded i call.key call.currIdx tempCmd.content,
        .accepted i call.key call.currIdx tempCmd false])) : PaxosInv (s.advance i
      { s.servers i with
        store := st, call := some { call with origCmd, currIdx, phase := .roundStart } }
      [.recorded i call.key call.currIdx tempCmd.content,
        .accepted i call.key call.currIdx tempCmd false]) := by
  have hback := h.calls i call hcall
  have hp := hback.phase
  simp only [PhaseBacked, hphase] at hp
  obtain ⟨hfilled, hmin, _⟩ := hp
  cases hrec with
  | @defeated cl j hcl hid hi =>
    have hle : s.promise i call.key call.currIdx ≤ tempCmd.minProposalNum := by
      have hmatch := hsafe call hcall
      simp only [hphase] at hmatch
      exact hmatch hid
    refine h.record hcall hphase hs hcl rfl rfl rfl hmin rfl hfilled (hmin ▸ hle)
      [.recorded i call.key call.currIdx tempCmd.content]
      (by simp [MpEvent.Concerns]) rfl ?_ ?_
    · intro j key k content hm
      simp only [List.mem_singleton, MpEvent.recorded.injEq] at hm
      exact ⟨hm.2.1, hm.2.2.1, hm.2.2.2 ▸ rfl⟩
    · intro c hc
      simp only [Option.some.injEq] at hc
      subst hc
      exact ⟨hback.key, hback.id, trivial⟩

theorem PaxosInv.step (h : PaxosInv s) (hsafe : SafeStep s a) (hs : MpSteps s a t) :
    PaxosInv t := by
  have hstep := hs
  cases hs with
  | insertCommand hidle hstart => exact h.insertCommand hstep hstart hsafe.1 hsafe.2
  | startRound hcall hphase horig hst =>
    exact h.startRound hcall horig hst hstep rfl (hsafe _ hcall)
  | handle hrpc hk hreq hslot hh => exact h.handle hrpc hreq hh (hsafe _ hk _ hreq)
  | @prepareRetry i call round own order junk tempCmd vec hcall hphase hvec htemp hcode =>
    exact h.setCall hstep ((h.calls i call hcall).retry _)
  | @prepareSend i call round own order junk tempCmd sentCmd vec hcall hphase hvec htemp hcode
      hsent =>
    obtain ⟨hfilled, hnew, hq, hsel⟩ := h.sent hcall hphase hvec htemp hcode hsent hsafe
    have hacc : sentCmd.acceptedProposal = call.origCmd.acceptedProposal := by rw [hsent]
    exact h.prepareSend hcall hphase hstep rfl hfilled hnew hq (hacc ▸ hsel)
  | @acceptDone i call round acceptCall sentCmd order junk tempCmd vec hcall hphase hvec htemp hid =>
    have hback := h.calls i call hcall
    exact h.setCall hstep ⟨hback.key, hback.id, h.proposed hcall hphase hvec htemp hid hsafe⟩
  | @acceptRetry i call round acceptCall sentCmd order junk tempCmd vec hcall hphase hvec htemp hid =>
    exact h.setCall hstep ((h.calls i call hcall).retry _)
  | own hcall hphase hrec => exact h.own hcall hphase hrec hstep
  | @retry i call round tempCmd origCmd hcall hphase hrec =>
    cases hrec with
    | retry => exact h.setCall hstep ((h.calls i call hcall).retry _)
  | defeated hcall hphase hrec => exact h.defeated hcall hphase hrec hsafe hstep
  | @answer i call st reply hcall hphase hans =>
    have hlog := mpAnswer_logMap hans
    refine h.quiet hstep (by simp [MpEvent.Concerns]) rfl
      (fun key j => ⟨?_, ?_⟩) ((h.filled i).congr hlog) (by simp)
    · simp only [MpStore.promise, hlog]
    · simp only [MpStore.vote, hlog]

theorem paxosInv_init : PaxosInv (MpSystem.init : MpSystem n) where
  traffic := traffic_init
  slots _ _ := slotRefines_init
  filled _ := MpStore.slots_empty
  rounds key i b r v hp := by
    obtain ⟨_, hm, _⟩ := hp
    simp [MpSystem.init] at hm
  requests src call request hp := by simp [MpSystem.payload, MpSystem.init, MpServer.start] at hp
  replies rpc reply request hr := by simp [MpSystem.init] at hr
  calls i call hc := by simp [MpSystem.init, MpServer.start] at hc
  recorded i key j content hm := by simp [MpSystem.init] at hm

theorem paxosInv_of_reachable (h : ReachableWhen mpStep SafeStep .init s) : PaxosInv s :=
  h.invariant paxosInv_init (fun _ _ _ _ hu ha he => hu.step ha (mpStep_steps he))

end Invariant

section Agreement

/-- What any two calls recorded at one slot of one key is one command. -/
def Agrees (s : MpSystem n) : Prop :=
  ∀ i j key k x y, .recorded i key k x ∈ s.history → .recorded j key k y ∈ s.history →
    x.commandId = y.commandId

/-- Runs of safe steps agree, whatever is delayed, lost or reordered. -/
theorem agrees_of_safe (h : ReachableWhen mpStep SafeStep .init s) : Agrees s := by
  intro i j key k x y hx hy
  have hinv := paxosInv_of_reachable h
  obtain ⟨b, hb⟩ := hinv.recorded i key k x hx
  obtain ⟨c, hc⟩ := hinv.recorded j key k y hy
  exact hb.agree (fun _ _ => Majority.inter) (hinv.slots key k).reachable hc

def MpSystem.calledIds (s : MpSystem n) : List UInt32 :=
  s.history.filterMap fun
    | .called _ _ commandId => some commandId
    | _ => none

/-- Each call draws a new command id, other than 0. -/
def DrawsFreshId (s : MpSystem n) : MpAction n → Prop
  | .insertCommand _ request rand _ =>
    newCommandId rand request ≠ 0 ∧ newCommandId rand request ∉ s.calledIds
  | _ => True

instance (s : MpSystem n) (a : MpAction n) : Decidable (DrawsFreshId s a) :=
  match a with
  | .insertCommand _ request rand _ => inferInstanceAs (Decidable
      (newCommandId rand request ≠ 0 ∧ newCommandId rand request ∉ s.calledIds))
  | .startRound _ | .handle _ _ | .finishPrepare _ _ _ | .finishAccept _ _ _ | .finish _
  | .answer _ => .isTrue trivial

def MpSystem.records (s : MpSystem n) : List (Fin n × Bytes × ℕ × UInt32) :=
  s.history.filterMap fun
    | .recorded i key k content => some (i, key, k, content.commandId)
    | _ => none

theorem exists_recorded_of_mem_records {i : Fin n} {key : Bytes} {k : ℕ} {commandId : UInt32}
    (h : (i, key, k, commandId) ∈ s.records) :
    ∃ x, .recorded i key k x ∈ s.history ∧ x.commandId = commandId := by
  obtain ⟨e, he, hm⟩ := List.mem_filterMap.mp h
  cases e <;> simp only [Option.some.injEq, Prod.mk.injEq, reduceCtorEq] at hm
  obtain ⟨rfl, rfl, rfl, rfl⟩ := hm
  exact ⟨_, he, rfl⟩

end Agreement

section Runs

/-- A client writes a value of one byte under the key k. -/
def putRequest (client : UInt32) (value : UInt8) : KeyStoreRequest :=
  ⟨.write, .mp, 0, client, [107], [value]⟩

def readTypes (_ : ℕ) : RequestType := .read

def blankMemory : Uninit := ⟨[], [], readTypes⟩

def blankCommand : Command := emptyCommand .read

/-- Server 0 decides with server 2, and server 1 learns of it from server 2. -/
def learningRun : List (MpAction 3) :=
  [.insertCommand 0 (putRequest 1 49) 10 readTypes, .startRound 0, .handle 1 blankMemory,
    .finishPrepare 0 [2] blankCommand, .handle 2 blankMemory, .finishAccept 0 [2] blankCommand,
    .finish 0, .insertCommand 1 (putRequest 2 50) 20 readTypes, .startRound 1,
    .handle 3 blankMemory, .finishPrepare 1 [2] blankCommand, .handle 4 blankMemory,
    .finishAccept 1 [2] blankCommand, .finish 1]

theorem learningRun_agrees : ∃ s : MpSystem 3, runWhen mpStep SafeStep .init learningRun = some s ∧
    s.records = [(1, [107], 0, 11), (0, [107], 0, 11)] ∧ Agrees s := by
  have hrun : (runWhen mpStep SafeStep .init learningRun).map MpSystem.records =
      some [(1, [107], 0, 11), (0, [107], 0, 11)] := by decide
  obtain ⟨s, hs, hrec⟩ := Option.map_eq_some_iff.mp hrun
  exact ⟨s, hs, hrec, agrees_of_safe (reachableWhen_of_runWhen hs)⟩

/-- Server 2 helps server 0 to decide, but does not count what it accepted then
when its own round asks server 1 alone. -/
def forgettingRun : List (MpAction 3) :=
  [.insertCommand 0 (putRequest 1 49) 10 readTypes,
    .insertCommand 2 (putRequest 2 50) 20 readTypes, .startRound 0, .handle 1 blankMemory,
    .finishPrepare 0 [2] blankCommand, .handle 2 blankMemory, .finishAccept 0 [2] blankCommand,
    .finish 0, .startRound 2, .handle 3 blankMemory, .finishPrepare 2 [1] blankCommand,
    .handle 4 blankMemory, .finishAccept 2 [1] blankCommand, .finish 2]

theorem forgettingRun_disagrees :
    ∃ s : MpSystem 3, ReachableWhen mpStep DrawsFreshId .init s ∧ ¬ Agrees s := by
  have hrun : (runWhen mpStep DrawsFreshId .init forgettingRun).map MpSystem.records =
      some [(2, [107], 0, 22), (0, [107], 0, 11)] := by decide
  obtain ⟨s, hs, hrec⟩ := Option.map_eq_some_iff.mp hrun
  refine ⟨s, reachableWhen_of_runWhen hs, fun hagree => ?_⟩
  obtain ⟨x, hx, hxid⟩ := exists_recorded_of_mem_records (i := 2) (s := s) (hrec ▸ List.mem_cons_self)
  obtain ⟨y, hy, hyid⟩ := exists_recorded_of_mem_records (i := 0) (s := s)
    (hrec ▸ List.mem_cons_of_mem _ List.mem_cons_self)
  have hbad := hagree _ _ _ _ _ _ hx hy
  rw [hxid, hyid] at hbad
  exact absurd hbad (by decide)

end Runs

end KeyValueStore
