import KeyValueStore.Acceptor

/-! What a server has promised, accepted and still offers at a slot, whether or
not the log of the key has been allocated, and what the handler does to it. -/

namespace KeyValueStore

/-- The accepted proposal and its command, none in a slot never filled. -/
def Command.vote (c : Command) : Option (Proposal × Content) :=
  if 0 ≤ c.acceptedProposal.proposalNum then some (c.acceptedProposal, c.content) else none

theorem Command.vote_eq_none {c : Command} :
    c.vote = none ↔ ¬ 0 ≤ c.acceptedProposal.proposalNum := by
  unfold Command.vote
  split <;> simp_all

theorem Command.vote_eq_some {c : Command} {p : Proposal} {x : Content} :
    c.vote = some (p, x) ↔ 0 ≤ c.acceptedProposal.proposalNum ∧
      c.acceptedProposal = p ∧ c.content = x := by
  unfold Command.vote
  split <;> simp_all

@[simp] theorem vote_emptyCommand (t : RequestType) : (emptyCommand t).vote = none := by
  rfl

namespace MpStore

def promise (st : MpStore) (key : Bytes) (i : ℕ) : Proposal :=
  match st.logMap key with
  | some cl => (cl.cmdVec i).minProposalNum
  | none => .unset

def vote (st : MpStore) (key : Bytes) (i : ℕ) : Option (Proposal × Content) :=
  match st.logMap key with
  | some cl => (cl.cmdVec i).vote
  | none => none

def available (st : MpStore) (key : Bytes) (i : ℕ) : Bool :=
  match st.logMap key with
  | some cl => cl.nextAvailableSlot i
  | none => i < initCommandLength

theorem promise_eq_lookup (st : MpStore) (types : ℕ → RequestType) (key : Bytes) (i : ℕ) :
    st.promise key i = ((st.lookup types key).cmdVec i).minProposalNum := by
  unfold promise lookup
  cases st.logMap key <;> rfl

theorem vote_eq_lookup (st : MpStore) (types : ℕ → RequestType) (key : Bytes) (i : ℕ) :
    st.vote key i = ((st.lookup types key).cmdVec i).vote := by
  unfold vote lookup
  cases st.logMap key <;> rfl

theorem available_eq_lookup (st : MpStore) (types : ℕ → RequestType) (key : Bytes) (i : ℕ) :
    st.available key i = (st.lookup types key).nextAvailableSlot i := by
  unfold available lookup
  cases st.logMap key <;> rfl

theorem promise_setLog (st : MpStore) (key : Bytes) (cl : CommandsList) (k : Bytes) (j : ℕ) :
    (st.setLog key cl).promise k j =
      if k = key then (cl.cmdVec j).minProposalNum else st.promise k j := by
  by_cases h : k = key <;> simp [promise, setLog, Function.update, h]

theorem vote_setLog (st : MpStore) (key : Bytes) (cl : CommandsList) (k : Bytes) (j : ℕ) :
    (st.setLog key cl).vote k j = if k = key then (cl.cmdVec j).vote else st.vote k j := by
  by_cases h : k = key <;> simp [vote, setLog, Function.update, h]

theorem available_setLog (st : MpStore) (key : Bytes) (cl : CommandsList) (k : Bytes) (j : ℕ) :
    (st.setLog key cl).available k j =
      if k = key then cl.nextAvailableSlot j else st.available k j := by
  by_cases h : k = key <;> simp [available, setLog, Function.update, h]

@[simp] theorem mpKsMap_setLog (st : MpStore) (key : Bytes) (cl : CommandsList) :
    (st.setLog key cl).mpKsMap = st.mpKsMap := rfl

end MpStore

/-- Every slot of every log satisfies the predicate. -/
def MpStore.Slots (P : Bytes → ℕ → Command → Prop) (st : MpStore) : Prop :=
  ∀ key cl, st.logMap key = some cl → ∀ j, P key j (cl.cmdVec j)

/-- A predicate that new slots satisfy and that promises do not disturb. -/
structure SlotPredicate (P : Bytes → ℕ → Command → Prop) : Prop where
  empty : ∀ k j t, P k j (emptyCommand t)
  promised : ∀ k j c p, P k j c → P k j { c with minProposalNum := p }
  started : ∀ k j c p index, UInt32.toNat index = j → P k j c →
    P k j { c with minProposalNum := p, index }

section Slots

variable {P : Bytes → ℕ → Command → Prop} {st st' : MpStore} {key : Bytes} {cl : CommandsList}

theorem MpStore.slots_empty : MpStore.empty.Slots P := by
  simp [MpStore.Slots, MpStore.empty]

theorem MpStore.Slots.lookup (h : st.Slots P) (hP : SlotPredicate P) (types : ℕ → RequestType)
    (key : Bytes) (j : ℕ) : P key j ((st.lookup types key).cmdVec j) := by
  unfold MpStore.lookup
  cases he : st.logMap key with
  | none => exact hP.empty _ _ _
  | some cl => exact h key cl he j

theorem MpStore.Slots.setLog (h : st.Slots P) (hcl : ∀ j, P key j (cl.cmdVec j)) :
    (st.setLog key cl).Slots P := by
  intro k cl' he j
  by_cases hk : k = key
  · subst hk
    simp only [MpStore.setLog, Function.update_self, Option.some.injEq] at he
    exact he ▸ hcl j
  · exact h k cl' (by simpa [MpStore.setLog, Function.update, hk] using he) j

theorem MpStore.Slots.congr (h : st.Slots P) (he : st'.logMap = st.logMap) : st'.Slots P := by
  intro k cl hk j
  exact h k cl (he ▸ hk) j

theorem CommandsList.setCmd_all {i : ℕ} {c : Command} (h : ∀ j, P key j (cl.cmdVec j))
    (hc : P key i c) (j : ℕ) : P key j ((cl.setCmd i c).cmdVec j) := by
  rw [CommandsList.setCmd_cmdVec]
  split
  next he => exact he ▸ hc
  next => exact h j

end Slots

theorem applyLastWrite_logMap {st st' : MpStore} {key : Bytes} {i : ℕ} {b : Bool}
    (h : applyLastWrite st key i = some (b, st')) : st'.logMap = st.logMap := by
  unfold applyLastWrite at h
  obtain ⟨cl, _, he⟩ := Option.map_eq_some_iff.mp h
  split at he <;> simp only [Prod.mk.injEq] at he <;> rw [← he.2]

theorem applyAccepted_logMap {u : Uninit} {st st' : MpStore} {cmd : Command} {i : ℕ}
    (h : applyAccepted u st cmd i = some st') : st'.logMap = st.logMap := by
  unfold applyAccepted at h
  split at h
  · obtain ⟨⟨b, st''⟩, hb, rfl⟩ := Option.map_eq_some_iff.mp h
    exact applyLastWrite_logMap hb
  · rw [← Option.some.inj h]

def PaxosRequest.proposal (request : PaxosRequest) : Proposal :=
  ⟨request.proposalClientId, request.proposalNum⟩

def PaxosRequest.slot (request : PaxosRequest) : ℕ := request.index.toNat

/-- The content as the receiver decodes it. -/
def PaxosRequest.content (request : PaxosRequest) : Content :=
  ⟨request.commandId, getCCommandType request.commandType, request.key, request.value⟩

theorem prepareUpdates_iff {cReq cmd : Command} :
    prepareUpdates cReq cmd = true ↔ cmd.minProposalNum < cReq.acceptedProposal := by
  simp only [prepareUpdates, Bool.or_eq_true, Bool.and_eq_true, decide_eq_true_eq, gt_iff_lt,
    Proposal.lt_iff, eq_comm (a := cReq.acceptedProposal.proposalNum)]

/-- The ACCEPT branch compares the numbers alone: the test of the client ids
under an equal number adds nothing to the first test. -/
theorem acceptUpdates_iff {cReq cmd : Command} : acceptUpdates cReq cmd = true ↔
    cmd.minProposalNum.proposalNum ≤ cReq.acceptedProposal.proposalNum := by
  simp only [acceptUpdates, Bool.or_eq_true, Bool.and_eq_true, decide_eq_true_eq, ge_iff_le]
  constructor
  · rintro (h | ⟨h, _⟩)
    · exact h
    · exact Int32.le_of_eq h.symm
  · exact .inl

@[simp] theorem vote_promisedCommand (cReq cmd : Command) :
    (promisedCommand cReq cmd).vote = cmd.vote := rfl

theorem vote_acceptedCommand (request : PaxosRequest) (cmd : Command) :
    (acceptedCommand (extractRequestPayloadToCommand request) cmd).vote =
      if 0 ≤ request.proposalNum then some (request.proposal, request.content) else none := rfl

def requestSlot (u : Uninit) (st : MpStore) (request : PaxosRequest) : Command :=
  (st.lookup u.types (requestKey u request)).cmdVec request.slot

def requestLog (u : Uninit) (st : MpStore) (request : PaxosRequest) (c : Command) : CommandsList :=
  (st.lookup u.types (requestKey u request)).setCmd request.slot c

/-- The four ways to handle a request whose slot is in range. -/
inductive Handles (u : Uninit) (st : MpStore) (request : PaxosRequest) :
    MpStore → PaxosResponse → Prop
  | prepareAck (htype : request.mptype = .prepare)
      (hlt : (requestSlot u st request).minProposalNum < request.proposal) :
      Handles u st request
        (st.setLog (requestKey u request) (requestLog u st request
          (promisedCommand (extractRequestPayloadToCommand request) (requestSlot u st request))))
        (prepareReply (extractRequestPayloadToCommand request) (requestSlot u st request))
  | prepareNack (htype : request.mptype = .prepare)
      (hle : request.proposal ≤ (requestSlot u st request).minProposalNum) :
      Handles u st request
        (st.setLog (requestKey u request) (st.lookup u.types (requestKey u request)))
        (nackReply (requestSlot u st request))
  | acceptAck {cl : CommandsList} {st₁ : MpStore} (htype : request.mptype = .accept)
      (hle : (requestSlot u st request).minProposalNum.proposalNum ≤ request.proposalNum)
      (hcl : cl = requestLog u st request
        (acceptedCommand (extractRequestPayloadToCommand request) (requestSlot u st request)))
      (happ : applyAccepted u (st.setLog (requestKey u request) cl) (cl.cmdVec request.slot)
        request.slot = some st₁) :
      Handles u st request (st₁.setLog (requestKey u request) (cl.eraseSlot request.slot))
        (acceptReply (extractRequestPayloadToCommand request))
  | acceptNack (htype : request.mptype = .accept)
      (hlt : request.proposalNum < (requestSlot u st request).minProposalNum.proposalNum) :
      Handles u st request
        (st.setLog (requestKey u request) (st.lookup u.types (requestKey u request)))
        (nackReply (requestSlot u st request))

theorem paxosRequestHandler_handles {u : Uninit} {st st' : MpStore} {request : PaxosRequest}
    {reply : PaxosResponse} (h : paxosRequestHandler u st request = some (st', reply)) :
    request.slot < initCommandLength ∧ Handles u st request st' reply := by
  unfold paxosRequestHandler at h
  dsimp only at h
  split at h
  next hi =>
    refine ⟨hi, ?_⟩
    split at h
    next htype =>
      split at h
      next hup =>
        simp only [Option.some.injEq, Prod.mk.injEq] at h
        obtain ⟨rfl, rfl⟩ := h
        exact .prepareAck htype (prepareUpdates_iff.mp hup)
      next hup =>
        simp only [Option.some.injEq, Prod.mk.injEq] at h
        obtain ⟨rfl, rfl⟩ := h
        exact .prepareNack htype (not_lt.mp (fun hlt => hup (prepareUpdates_iff.mpr hlt)))
    next htype =>
      split at h
      next hup =>
        obtain ⟨st₁, happ, he⟩ := Option.map_eq_some_iff.mp h
        simp only [Prod.mk.injEq] at he
        obtain ⟨rfl, rfl⟩ := he
        refine @Handles.acceptAck u st request (requestLog u st request _) _ htype
          (acceptUpdates_iff.mp hup) rfl ?_
        rw [requestLog, CommandsList.setCmd_cmdVec, if_pos rfl]
        exact happ
      next hup =>
        simp only [Option.some.injEq, Prod.mk.injEq] at h
        obtain ⟨rfl, rfl⟩ := h
        exact .acceptNack htype (Int32.not_le.mp (fun hle => hup (acceptUpdates_iff.mpr hle)))
  next => simp at h

section Handled

variable {u : Uninit} {st st' : MpStore} {request : PaxosRequest} {reply : PaxosResponse}

theorem requestSlot_promise : (requestSlot u st request).minProposalNum =
    st.promise (requestKey u request) request.slot :=
  (st.promise_eq_lookup u.types _ _).symm

theorem requestSlot_vote : (requestSlot u st request).vote =
    st.vote (requestKey u request) request.slot :=
  (st.vote_eq_lookup u.types _ _).symm

theorem Handles.ack_iff (h : Handles u st request st' reply) : reply.code = .ack ↔
    (request.mptype = .prepare ∧ st.promise (requestKey u request) request.slot < request.proposal) ∨
      (request.mptype = .accept ∧
        (st.promise (requestKey u request) request.slot).proposalNum ≤ request.proposalNum) := by
  rw [← requestSlot_promise]
  cases h with
  | prepareAck htype hlt => simp [prepareReply, htype, hlt]
  | prepareNack htype hle => simp [nackReply, htype, hle]
  | acceptAck htype hle => simp [acceptReply, htype, hle]
  | acceptNack htype hlt => simp [nackReply, htype, hlt]

theorem Handles.code (h : Handles u st request st' reply) :
    reply.code = .ack ∨ reply.code = .nack := by
  cases h <;> simp [prepareReply, acceptReply, nackReply]

theorem Handles.promise_eq (h : Handles u st request st' reply) (k : Bytes) (j : ℕ) :
    st'.promise k j =
      if reply.code = .ack ∧ k = requestKey u request ∧ j = request.slot then request.proposal
      else st.promise k j := by
  cases h with
  | prepareAck htype hlt =>
    rw [MpStore.promise_setLog]
    by_cases hk : k = requestKey u request
    · subst hk
      by_cases hj : j = request.slot <;>
        simp [requestLog, hj, promisedCommand, prepareReply, extractRequestPayloadToCommand,
          PaxosRequest.proposal, ← st.promise_eq_lookup]
    · simp [hk]
  | prepareNack htype hle =>
    rw [MpStore.promise_setLog, ← MpStore.promise_eq_lookup]
    simp +contextual [nackReply]
  | @acceptAck cl st₁ htype hle hcl happ =>
    have hlog := applyAccepted_logMap happ
    rw [MpStore.promise_setLog]
    by_cases hk : k = requestKey u request
    · subst hk
      by_cases hj : j = request.slot <;>
        simp [hcl, requestLog, hj, acceptedCommand, acceptReply, extractRequestPayloadToCommand,
          PaxosRequest.proposal, ← st.promise_eq_lookup]
    · simp [hk, MpStore.promise, hlog, MpStore.setLog]
  | acceptNack htype hlt =>
    rw [MpStore.promise_setLog, ← MpStore.promise_eq_lookup]
    simp +contextual [nackReply]

theorem Handles.vote_eq (h : Handles u st request st' reply) (k : Bytes) (j : ℕ) :
    st'.vote k j =
      if reply.code = .ack ∧ request.mptype = .accept ∧ k = requestKey u request ∧ j = request.slot
      then if 0 ≤ request.proposalNum then some (request.proposal, request.content) else none
      else st.vote k j := by
  cases h with
  | prepareAck htype hlt =>
    rw [MpStore.vote_setLog]
    by_cases hk : k = requestKey u request
    · subst hk
      by_cases hj : j = request.slot
      · subst hj
        simp only [requestLog, CommandsList.setCmd_cmdVec, if_true, htype]
        rw [vote_promisedCommand, requestSlot_vote]
        simp
      · simp [requestLog, hj, ← st.vote_eq_lookup]
    · simp [hk]
  | prepareNack htype hle =>
    rw [MpStore.vote_setLog, ← MpStore.vote_eq_lookup]
    simp +contextual [nackReply]
  | @acceptAck cl st₁ htype hle hcl happ =>
    have hlog := applyAccepted_logMap happ
    rw [MpStore.vote_setLog]
    by_cases hk : k = requestKey u request
    · subst hk
      by_cases hj : j = request.slot <;>
        simp [hcl, requestLog, hj, vote_acceptedCommand, acceptReply, htype,
          ← st.vote_eq_lookup]
    · simp [hk, MpStore.vote, hlog, MpStore.setLog]
  | acceptNack htype hlt =>
    rw [MpStore.vote_setLog, ← MpStore.vote_eq_lookup]
    simp +contextual [nackReply]

theorem Handles.available_eq (h : Handles u st request st' reply) (k : Bytes) (j : ℕ) :
    st'.available k j =
      if reply.code = .ack ∧ request.mptype = .accept ∧ k = requestKey u request ∧ j = request.slot
      then false else st.available k j := by
  cases h with
  | prepareAck htype hlt =>
    rw [MpStore.available_setLog, requestLog, CommandsList.setCmd_nextAvailableSlot,
      ← MpStore.available_eq_lookup]
    simp +contextual [htype]
  | prepareNack htype hle =>
    rw [MpStore.available_setLog, ← MpStore.available_eq_lookup]
    simp +contextual [nackReply]
  | @acceptAck cl st₁ htype hle hcl happ =>
    have hlog := applyAccepted_logMap happ
    rw [MpStore.available_setLog]
    by_cases hk : k = requestKey u request
    · subst hk
      by_cases hj : j = request.slot <;>
        simp [hcl, requestLog, hj, acceptReply, htype, ← st.available_eq_lookup]
    · simp [hk, MpStore.available, hlog, MpStore.setLog]
  | acceptNack htype hlt =>
    rw [MpStore.available_setLog, ← MpStore.available_eq_lookup]
    simp +contextual [nackReply]

theorem Handles.slots {P : Bytes → ℕ → Command → Prop} (h : Handles u st request st' reply)
    (hs : st.Slots P) (hP : SlotPredicate P)
    (haccept : request.mptype = .accept → reply.code = .ack → P (requestKey u request) request.slot
      (acceptedCommand (extractRequestPayloadToCommand request) (requestSlot u st request))) :
    st'.Slots P := by
  have hlog := hs.lookup hP u.types (requestKey u request)
  cases h with
  | prepareAck htype hlt =>
    exact hs.setLog (CommandsList.setCmd_all hlog (hP.promised _ _ _ _ (hlog request.slot)))
  | prepareNack => exact hs.setLog hlog
  | @acceptAck cl st₁ htype hle hcl happ =>
    have hnew : ∀ j, P (requestKey u request) j (cl.cmdVec j) :=
      hcl ▸ CommandsList.setCmd_all hlog (haccept htype rfl)
    exact ((hs.setLog hnew).congr (applyAccepted_logMap happ)).setLog hnew
  | acceptNack => exact hs.setLog hlog

theorem Handles.logMap_isSome (h : Handles u st request st' reply) {key : Bytes}
    (hk : (st.logMap key).isSome) : (st'.logMap key).isSome := by
  have hset : ∀ (st₁ : MpStore) (cl : CommandsList), st₁.logMap = st.logMap →
      ((st₁.setLog (requestKey u request) cl).logMap key).isSome := by
    intro st₁ cl he
    by_cases hkey : key = requestKey u request <;>
      simp [MpStore.setLog, Function.update, hkey, he, hk]
  cases h with
  | prepareAck => exact hset _ _ rfl
  | prepareNack => exact hset _ _ rfl
  | acceptAck htype hle hcl happ =>
    by_cases hkey : key = requestKey u request
    · simp [MpStore.setLog, hkey]
    · simp [MpStore.setLog, Function.update, hkey, applyAccepted_logMap happ, hk]
  | acceptNack => exact hset _ _ rfl

theorem Handles.mpKsMap_of_nack (h : Handles u st request st' reply) (hn : reply.code = .nack) :
    st'.mpKsMap = st.mpKsMap := by
  cases h with
  | prepareAck => rfl
  | prepareNack => rfl
  | acceptAck => simp [acceptReply] at hn
  | acceptNack => rfl

end Handled

end KeyValueStore
