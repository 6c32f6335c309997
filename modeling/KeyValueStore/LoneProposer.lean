import KeyValueStore.SlotAvailability
import KeyValueStore.WireKeys

/-! Progress of a call that nothing disturbs: the PREPARE of its first round finds an
empty slot, its ACCEPT is obeyed, and the slot is filled when the client is answered. -/

namespace KeyValueStore

section Command

/-- The WRITE of server 0, in the slot that it picked. -/
def loneCommand (i : ℕ) : Command where
  mpReqType := .prepare
  commandType := .write
  code := .ack
  commandId := 11
  index := i.toUInt32
  key := [107]
  value := [49]
  minProposalNum := ⟨1, 0⟩
  acceptedProposal := ⟨1, 0⟩

def loneAccept (i : ℕ) : Command := { loneCommand i with mpReqType := .accept }

def loneCall (i : ℕ) (phase : Phase) : InsertCall := ⟨putRequest 1 49, loneCommand i, i, phase⟩

theorem Int32.eq_neg_one {x : Int32} (hle : -1 ≤ x) (hneg : ¬ 0 ≤ x) : x = -1 := by
  rw [Int32.le_iff_toInt_le] at hle hneg
  have hm : (-1 : Int32).toInt = -1 := rfl
  have hz : (0 : Int32).toInt = 0 := rfl
  apply Int32.toInt_inj.mp
  omega

end Command

section Steps

variable {i r q : ℕ} {own : Option (Proposal × Content)} {s : MpSystem 2}

/-- The call of server 0 is alone in the system. -/
structure Lone (i : ℕ) (phase : Phase) (calls : List (Rpc 2)) (s : MpSystem 2) : Prop where
  reached : Reachable mpStep .init s
  call : (s.servers 0).call = some (loneCall i phase)
  calls : s.calls = calls

theorem Lone.fits {phase : Phase} {calls : List (Rpc 2)} (h : Lone i phase calls s) :
    CallFits (s.servers 0) (loneCall i phase) :=
  ((traffic_of_reachable h.reached).servers 0).call _ h.call

theorem reached_step {s t : MpSystem 2} (h : Reachable mpStep .init s) {a : MpAction 2}
    (ha : mpStep s a = some t) : Reachable mpStep .init t := h.tail ⟨a, trivial, ha⟩

theorem lone_insertCommand (hr : Reachable mpStep .init s) (hidle : (s.servers 0).call = none)
    (hcalls : s.calls = [])
    (hi : ((s.servers 0).store.lookup readTypes [107]).firstAvailable = some i) :
    ∃ t, Lone i .roundStart [] t ∧ Reachable mpStep s t ∧ t.servers 1 = s.servers 1 := by
  have hstep : mpStep s (.insertCommand 0 (putRequest 1 49) 10 readTypes) =
      some (s.advance 0 { s.servers 0 with
          store := (s.servers 0).store.setLog [107] ((s.servers 0).store.lookup readTypes [107])
          call := some (loneCall i .roundStart) }
        [.called 0 (putRequest 1 49) 11]) := by
    have hstart : insertCommandStart (s.servers 0).store (putRequest 1 49) 10 readTypes =
        some ((s.servers 0).store.setLog [107] ((s.servers 0).store.lookup readTypes [107]),
          loneCall i .roundStart) := by
      have hkey : cStr (fillCommandFromRequest (putRequest 1 49) (getNewAllocCommand 10
          (putRequest 1 49).clientid.toInt32 0)).key = [107] := by decide
      simp only [insertCommandStart, hkey, hi, Option.map_some]
      rfl
    simp only [mpStep, hidle, hstart, Option.map_some]
    rfl
  refine ⟨_, ⟨reached_step hr hstep, ?_, hcalls⟩, .single ⟨_, trivial, hstep⟩, ?_⟩
  · rw [MpSystem.advance_servers_self]
  · rw [MpSystem.advance_servers, if_neg (by decide)]

theorem lone_startRound (h : Lone i .roundStart [] s) :
    ∃ t r own, Lone i (.preparing r own) [⟨0, 1, r⟩] t ∧ Reachable mpStep s t ∧
      t.servers 1 = s.servers 1 ∧ (t.servers 0).store.promise [107] i = ⟨1, 0⟩ := by
  obtain ⟨cl, hcl⟩ := Option.isSome_iff_exists.mp h.fits.log
  obtain ⟨st, hst⟩ : ∃ st, updateLocalValues (s.servers 0).store (loneCommand i) = some st := by
    exact ⟨_, by rw [updateLocalValues, show cStr (loneCommand i).key = (loneCall i
      .roundStart).key from rfl, hcl]; rfl⟩
  have hstep : ∃ own, mpStep s (.startRound 0) = some ((s.advance 0 { s.servers 0 with
        store := st
        call := some (loneCall i (.preparing (s.servers 0).broadcasts.length own)) }
      [.promised 0 [107] i ⟨1, 0⟩ (0, (s.servers 0).broadcasts.length) own false]).broadcast 0
        (makeMpRequestPayload (loneCommand i))) := by
    refine ⟨(s.servers 0).store.vote [107] i, ?_⟩
    simp only [mpStep, h.call]
    show startRoundStep s 0 (loneCall i .roundStart) = _
    unfold startRoundStep
    dsimp only
    rw [show { (loneCall i .roundStart).origCmd with mpReqType := .prepare } = loneCommand i from rfl,
      hst]
    rfl
  obtain ⟨own, hstep⟩ := hstep
  refine ⟨_, (s.servers 0).broadcasts.length, own, ⟨reached_step h.reached hstep, ?_, ?_⟩,
    .single ⟨_, trivial, hstep⟩, ?_, ?_⟩
  · rw [MpSystem.advance_broadcast_servers_self]
  · simp only [MpSystem.broadcast, MpSystem.advance_calls, h.calls, MpSystem.advance_servers_self]
    rfl
  · rw [MpSystem.broadcast_servers, if_neg (by decide), MpSystem.advance_servers, if_neg (by decide)]
  · rw [MpSystem.advance_broadcast_servers_self]
    have hp := updateLocalValues_promise hst [107] i
    have hkey : [107] = cStr (loneCommand i).key := show [107] = cStr [107] by decide
    rw [if_pos ⟨hkey, h.fits.index.symm⟩] at hp
    exact hp

theorem lone_handle {phase : Phase} {request : PaxosRequest} (h : Lone i phase [⟨0, 1, r⟩] s)
    (hreq : s.payload 0 r = some request) (hkey : request.key = [107])
    (hslot : request.slot = i) :
    ∃ t reply, Lone i phase [] t ∧ Reachable mpStep s t ∧ t.servers 0 = s.servers 0 ∧
      Handles blankMemory (s.servers 1).store request (t.servers 1).store reply ∧
      t.replyFrom 0 r 1 = some (extractResponseFromPayload reply) := by
  have hlt : request.slot < initCommandLength := hslot ▸ h.fits.lt
  have hfiled : cStr (request.key ++ blankMemory.keyTail) = requestKey blankMemory request := by
    rw [requestKey, hkey]
    decide
  obtain ⟨⟨st, reply⟩, hrun⟩ := Option.isSome_iff_exists.mp
    (paxosRequestHandler_isSome hlt hfiled (s.servers 1).store)
  have hstep : mpStep s (.handle 0 blankMemory) = some (s.handled 0 ⟨0, 1, r⟩ st reply
      (handlerEvents ⟨0, 1, r⟩ blankMemory (s.servers 1).store request reply)) := by
    simp only [mpStep, handleStep, h.calls, List.getElem?_cons_zero, Option.bind_some, hreq, hrun,
      Option.map_some]
  have hne : ¬ (0 : Fin 2) = 1 := by decide
  refine ⟨_, reply, ⟨reached_step h.reached hstep, ?_, ?_⟩, .single ⟨_, trivial, hstep⟩, ?_, ?_, ?_⟩
  · rw [MpSystem.handled_servers, if_neg hne, h.call]
  · simp [MpSystem.handled, h.calls]
  · rw [MpSystem.handled_servers, if_neg hne]
  · rw [MpSystem.handled_servers, if_pos rfl]
    exact (paxosRequestHandler_handles hrun).2
  · simp [MpSystem.replyFrom]

/-- The slots of the key other than the one that is written. -/
def SameElsewhere (i : ℕ) (st st' : MpStore) : Prop := ∀ j ≠ i,
  st'.promise [107] j = st.promise [107] j ∧ st'.vote [107] j = st.vote [107] j

theorem Handles.sameElsewhere {st st' : MpStore} {request : PaxosRequest} {reply : PaxosResponse}
    (hh : Handles blankMemory st request st' reply) (hslot : request.slot = i) :
    SameElsewhere i st st' := by
  intro j hj
  rw [hh.promise_eq, hh.vote_eq, hslot]
  simp [hj]

theorem lone_prepared (h : Lone i (.preparing r own) [⟨0, 1, r⟩] s)
    (hpromise : (s.servers 1).store.promise [107] i = .unset)
    (hvote : (s.servers 1).store.vote [107] i = none) :
    ∃ t c, Lone i (.preparing r own) [] t ∧ Reachable mpStep s t ∧ t.servers 0 = s.servers 0 ∧
      SameElsewhere i (s.servers 1).store (t.servers 1).store ∧
      (t.servers 1).store.promise [107] i = ⟨1, 0⟩ ∧ t.replyFrom 0 r 1 = some c ∧ c.code = .ack ∧
      c.acceptedProposal.proposalNum = -1 := by
  have hfits := h.fits.phase
  simp only [PhaseFits, loneCall] at hfits
  have hslot : (makeMpRequestPayload (loneCommand i)).slot = i := h.fits.index
  obtain ⟨t, reply, ht, hrun, hserver, hh, hreply⟩ := lone_handle h hfits.2 rfl hslot
  have hkey : requestKey blankMemory (makeMpRequestPayload (loneCommand i)) = [107] := rfl
  have hack : reply.code = .ack := by
    rw [hh.ack_iff, hkey, hslot, hpromise]
    exact .inl ⟨rfl, show Proposal.unset < (⟨1, 0⟩ : Proposal) by decide⟩
  refine ⟨t, _, ht, hrun, hserver, hh.sameElsewhere hslot, ?_, hreply, hack, ?_⟩
  · rw [hh.promise_eq, if_pos ⟨hack, hkey.symm, hslot.symm⟩]
    rfl
  · have hnum := ((traffic_of_reachable h.reached).servers 1).slots.lookup
      acceptedNum_slotPredicate blankMemory.types
      (requestKey blankMemory (makeMpRequestPayload (loneCommand i)))
      (makeMpRequestPayload (loneCommand i)).slot
    have hempty : (requestSlot blankMemory (s.servers 1).store
        (makeMpRequestPayload (loneCommand i))).vote = none := by
      rw [requestSlot_vote, hkey, hslot, hvote]
    have hround := Int32.eq_neg_one hnum (Command.vote_eq_none.mp hempty)
    generalize (t.servers 1).store = st at hh
    cases hh with
    | prepareAck =>
      simp only [extractResponseFromPayload, prepareReply]
      rw [Int32.toInt32_toUInt32]
      exact hround
    | prepareNack => simp [nackReply] at hack
    | acceptAck htype => cases htype
    | acceptNack htype => cases htype

theorem lone_collect {c : Command} (h : s.replyFrom 0 r 1 = some c) :
    s.collect 0 r [1] = some [c] := by
  simp [MpSystem.collect, h]

theorem lone_prepareSend {c : Command} (h : Lone i (.preparing r own) [] s)
    (hreply : s.replyFrom 0 r 1 = some c) (hack : c.code = .ack)
    (hnum : c.acceptedProposal.proposalNum = -1) :
    ∃ t q, Lone i (.accepting r q (loneAccept i)) [⟨0, 1, q⟩] t ∧ Reachable mpStep s t ∧
      t.servers 1 = s.servers 1 ∧ (t.servers 0).store = (s.servers 0).store := by
  have hselect : getHighestAcceptedProposal blankCommand [c] true =
      some { c with code := .ok, key := [], value := [] } := by
    rw [getHighestAcceptedProposal_of_no_nack (by simp [hack]), if_pos hnum]
    rfl
  have hstep : mpStep s (.finishPrepare 0 [1] blankCommand) = some ((s.advance 0
        { s.servers 0 with
          call := some (loneCall i (.accepting r (s.servers 0).broadcasts.length (loneAccept i))) }
        [.sentAccept [107] i ⟨1, 0⟩ (0, r) (loneAccept i).content]).broadcast 0
          (makeMpRequestPayload (loneAccept i))) := by
    simp only [mpStep, h.call]
    show finishPrepareStep s 0 (loneCall i (.preparing r own)) r [1] blankCommand = _
    simp only [finishPrepareStep, lone_collect hreply, hselect, Option.bind_some, Option.map_some]
    rfl
  have hne : ¬ (1 : Fin 2) = 0 := by decide
  refine ⟨_, (s.servers 0).broadcasts.length, ⟨reached_step h.reached hstep, ?_, ?_⟩,
    .single ⟨_, trivial, hstep⟩, ?_, ?_⟩
  · rw [MpSystem.advance_broadcast_servers_self]
  · simp only [MpSystem.broadcast, MpSystem.advance_calls, h.calls, MpSystem.advance_servers_self]
    rfl
  · rw [MpSystem.broadcast_servers, if_neg hne, MpSystem.advance_servers, if_neg hne]
  · rw [MpSystem.advance_broadcast_servers_self]

theorem lone_accepted (h : Lone i (.accepting r q (loneAccept i)) [⟨0, 1, q⟩] s)
    (hpromise : (s.servers 1).store.promise [107] i = ⟨1, 0⟩) :
    ∃ t c, Lone i (.accepting r q (loneAccept i)) [] t ∧ Reachable mpStep s t ∧
      t.servers 0 = s.servers 0 ∧ SameElsewhere i (s.servers 1).store (t.servers 1).store ∧
      t.replyFrom 0 q 1 = some c ∧ c.code = .ack ∧ c.commandId = 11 ∧
      c.acceptedProposal = ⟨1, 0⟩ := by
  have hfits := h.fits.phase
  simp only [PhaseFits, loneCall] at hfits
  have hslot : (makeMpRequestPayload (loneAccept i)).slot = i := h.fits.index
  obtain ⟨t, reply, ht, hrun, hserver, hh, hreply⟩ := lone_handle h hfits.2.2 rfl hslot
  have hkey : requestKey blankMemory (makeMpRequestPayload (loneAccept i)) = [107] := rfl
  have hack : reply.code = .ack := by
    rw [hh.ack_iff, hkey, hslot, hpromise]
    exact .inr ⟨rfl, Int32.le_refl 0⟩
  refine ⟨t, _, ht, hrun, hserver, hh.sameElsewhere hslot, hreply, hack, ?_⟩
  generalize (t.servers 1).store = st at hh
  cases hh with
  | prepareAck htype => cases htype
  | prepareNack htype => cases htype
  | acceptAck => exact ⟨rfl, rfl⟩
  | acceptNack => simp [nackReply] at hack

theorem lone_acceptDone {c : Command} (h : Lone i (.accepting r q (loneAccept i)) [] s)
    (hreply : s.replyFrom 0 q 1 = some c) (hack : c.code = .ack) (hid : c.commandId = 11)
    (hacc : c.acceptedProposal = ⟨1, 0⟩) :
    ∃ t, Lone i (.proposed r c) [] t ∧ Reachable mpStep s t ∧ t.servers 1 = s.servers 1 ∧
      (t.servers 0).store = (s.servers 0).store := by
  have hselect : getHighestAcceptedProposal blankCommand [c] false = some c := by
    rw [getHighestAcceptedProposal_of_no_nack (by simp [hack]), hacc, if_neg (by decide)]
    rfl
  have hstep : mpStep s (.finishAccept 0 [1] blankCommand) = some (s.advance 0
      { s.servers 0 with call := some (loneCall i (.proposed r c)) } []) := by
    simp only [mpStep, h.call]
    show finishAcceptStep s 0 (loneCall i (.accepting r q (loneAccept i))) r q (loneAccept i) [1]
      blankCommand = _
    have hsame : c.commandId = (loneAccept i).commandId := hid
    simp only [finishAcceptStep, acceptPhase, lone_collect hreply, hselect, Option.bind_some,
      Option.map_some, if_pos hsame]
    rfl
  refine ⟨_, ⟨reached_step h.reached hstep, ?_, h.calls⟩, .single ⟨_, trivial, hstep⟩, ?_, ?_⟩
  · rw [MpSystem.advance_servers_self]
  · rw [MpSystem.advance_servers, if_neg (by decide)]
  · rw [MpSystem.advance_servers_self]

/-- The command is recorded, and the client answered. -/
theorem lone_answer {c : Command} (h : Lone i (.proposed r c) [] s) (hid : c.commandId = 11)
    (hacc : c.acceptedProposal = ⟨1, 0⟩)
    (hpromise : (s.servers 0).store.promise [107] i = ⟨1, 0⟩) :
    ∃ t, Reachable mpStep s t ∧ (t.servers 0).call = none ∧ t.calls = [] ∧
      t.servers 1 = s.servers 1 ∧ (t.servers 0).store.available [107] i = false := by
  obtain ⟨cl, hcl⟩ := Option.isSome_iff_exists.mp h.fits.log
  have hkey : (loneCall i (.proposed r c)).key = [107] := rfl
  rw [hkey] at hcl
  have hmin : (cl.cmdVec i).minProposalNum = ⟨1, 0⟩ := by
    simpa only [MpStore.promise, hcl] using hpromise
  have hrecord : recordCommand (s.servers 0).store (loneCommand i) c i = some (.own
      ((s.servers 0).store.setLog [107] (recordedLog cl i (loneCommand i))) (loneCommand i)) := by
    have hsame : (loneCommand i).commandId = c.commandId := hid.symm
    have hlog : (s.servers 0).store.logMap (cStr (loneCommand i).key) = some cl := hcl
    simp only [recordCommand, hlog, Option.bind_some, if_pos hsame, hmin, hacc, and_self, if_true]
    rfl
  have hfinish : ∃ events, mpStep s (.finish 0) = some (s.advance 0 { s.servers 0 with
      store := (s.servers 0).store.setLog [107] (recordedLog cl i (loneCommand i))
      call := some (loneCall i .returned) } events) := by
    refine ⟨[.returned 0 [107] i 11, .recorded 0 [107] i (loneCommand i).content,
      .accepted 0 [107] i (loneCommand i) false], ?_⟩
    simp only [mpStep, h.call]
    show finishStep s 0 (loneCall i (.proposed r c)) c = _
    unfold finishStep
    dsimp only
    rw [show (loneCall i (.proposed r c)).origCmd = loneCommand i from rfl,
      show (loneCall i (.proposed r c)).currIdx = i from rfl, hrecord]
    rfl
  obtain ⟨events, hfinish⟩ := hfinish
  have hanswer : ∃ events', mpStep (s.advance 0 { s.servers 0 with
      store := (s.servers 0).store.setLog [107] (recordedLog cl i (loneCommand i))
      call := some (loneCall i .returned) } events) (.answer 0) = some ((s.advance 0 { s.servers 0 with
      store := (s.servers 0).store.setLog [107] (recordedLog cl i (loneCommand i))
      call := some (loneCall i .returned) } events).advance 0 { s.servers 0 with
      store := (s.servers 0).store.setLog [107] (recordedLog cl i (loneCommand i))
      call := none } events') := by
    refine ⟨[.answered 0 (putRequest 1 49) i { protocol := .mp, code := .ok }], ?_⟩
    simp only [mpStep, MpSystem.advance_servers_self]
    rfl
  obtain ⟨events', hanswer⟩ := hanswer
  refine ⟨_, .tail (.single ⟨_, trivial, hfinish⟩) ⟨_, trivial, hanswer⟩, ?_, h.calls, ?_, ?_⟩
  · rw [MpSystem.advance_servers_self]
  · rw [MpSystem.advance_servers, if_neg (by decide), MpSystem.advance_servers, if_neg (by decide)]
  · rw [MpSystem.advance_servers_self]
    dsimp only
    rw [recordedLog_available hcl, if_pos ⟨rfl, rfl⟩]

end Steps

section Write

variable {i : ℕ} {s : MpSystem 2}

/-- Nothing is under way, and server 1 has touched no slot that server 0 still offers. -/
structure Idle (s : MpSystem 2) : Prop where
  reached : Reachable mpStep .init s
  call : (s.servers 0).call = none
  calls : s.calls = []
  untouched : ∀ j, (s.servers 0).store.available [107] j = true →
    (s.servers 1).store.promise [107] j = .unset ∧ (s.servers 1).store.vote [107] j = none

theorem idle_init : Idle (MpSystem.init : MpSystem 2) where
  reached := .refl
  call := rfl
  calls := rfl
  untouched _ _ := ⟨rfl, rfl⟩

theorem idle_write (h : Idle s)
    (hi : ((s.servers 0).store.lookup readTypes [107]).firstAvailable = some i) :
    ∃ t, Idle t ∧ Reachable mpStep s t ∧ (t.servers 0).store.available [107] i = false := by
  have hfree : (s.servers 0).store.available [107] i = true := by
    rw [MpStore.available_eq_lookup]
    exact (CommandsList.firstAvailable_eq_some hi).2.1
  obtain ⟨hpromise, hvote⟩ := h.untouched i hfree
  obtain ⟨s₁, h₁, r₁, hsrv₁⟩ := lone_insertCommand h.reached h.call h.calls hi
  obtain ⟨s₂, r, own, h₂, r₂, hsrv₂, hown₂⟩ := lone_startRound h₁
  have hback : s₂.servers 1 = s.servers 1 := hsrv₂.trans hsrv₁
  obtain ⟨s₃, c, h₃, r₃, hsrv₃, helse₃, hprom₃, hreply₃, hack₃, hnum₃⟩ :=
    lone_prepared h₂ (hback ▸ hpromise) (hback ▸ hvote)
  obtain ⟨s₄, q, h₄, r₄, hsrv₄, hstore₄⟩ := lone_prepareSend h₃ hreply₃ hack₃ hnum₃
  obtain ⟨s₅, c', h₅, r₅, hsrv₅, helse₅, hreply₅, hack₅, hid₅, hacc₅⟩ :=
    lone_accepted h₄ (hsrv₄ ▸ hprom₃)
  obtain ⟨s₆, h₆, r₆, hsrv₆, hstore₆⟩ := lone_acceptDone h₅ hreply₅ hack₅ hid₅ hacc₅
  have hown : (s₆.servers 0).store.promise [107] i = ⟨1, 0⟩ := by
    rw [hstore₆, hsrv₅, hstore₄, hsrv₃]
    exact hown₂
  obtain ⟨t, r₇, hcall, hcalls, hsrv₇, hav⟩ := lone_answer h₆ hid₅ hacc₅ hown
  have hrun : Reachable mpStep s t :=
    r₁.trans (r₂.trans (r₃.trans (r₄.trans (r₅.trans (r₆.trans r₇)))))
  refine ⟨t, ⟨h.reached.trans hrun, hcall, hcalls, fun j hj => ?_⟩, hrun, hav⟩
  have hji : j ≠ i := by
    rintro rfl
    simp [hav] at hj
  have hbefore : (s.servers 0).store.available [107] j = true := by
    by_contra hno
    have hgone := available_of_reachable hrun (eq_false_of_ne_true hno)
    simp [hgone] at hj
  obtain ⟨hp₃, hv₃⟩ := helse₃ j hji
  obtain ⟨hp₅, hv₅⟩ := helse₅ j hji
  rw [hsrv₇, hsrv₆, hp₅, hv₅, hsrv₄, hp₃, hv₃, hback]
  exact h.untouched j hbefore

end Write

end KeyValueStore
