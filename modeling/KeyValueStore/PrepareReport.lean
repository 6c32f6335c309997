import KeyValueStore.SlotViews

/-! What a proposer decodes from the ACK of a PREPARE, against the slot that the
acceptor reports. The reply has the command type of the request in the place of
the slot's. -/

namespace KeyValueStore

structure ReportsSlot (slot c : Command) : Prop where
  accepted : c.acceptedProposal = slot.acceptedProposal
  commandId : c.commandId = slot.commandId
  key : c.key = slot.key
  value : c.value = slot.value
  index : 0 ≤ slot.acceptedProposal.proposalNum → c.index = slot.index
  commandType : 0 ≤ slot.acceptedProposal.proposalNum → c.commandType = slot.commandType

variable {u : Uninit} {st st' : MpStore} {request : PaxosRequest} {reply : PaxosResponse}

/-- The number travels through an unsigned field, so -1 does too. -/
theorem extract_prepareReply (request : PaxosRequest) (slot : Command) :
    extractResponseFromPayload (prepareReply (extractRequestPayloadToCommand request) slot) =
      { slot with
        mpReqType := .prepare
        commandType := getCCommandType request.commandType
        code := .ack
        minProposalNum := slot.acceptedProposal } := by
  have htype : getCCommandType (setCommandType (getCCommandType request.commandType)) =
      getCCommandType request.commandType := wireType_getCCommandType _
  simp only [extractResponseFromPayload, prepareReply, extractRequestPayloadToCommand, htype,
    Int32.toInt32_toUInt32]

theorem Handles.prepareReply_of_ack (h : Handles u st request st' reply)
    (htype : request.mptype = .prepare) (hack : reply.code = .ack) :
    reply = prepareReply (extractRequestPayloadToCommand request) (requestSlot u st request) := by
  cases h with
  | prepareAck => rfl
  | prepareNack => simp [nackReply] at hack
  | acceptAck ht => exact absurd (htype.symm.trans ht) (by decide)
  | acceptNack => simp [nackReply] at hack

theorem prepareReport_iff (u : Uninit) (st st' : MpStore) (request : PaxosRequest)
    (reply : PaxosResponse) (h : paxosRequestHandler u st request = some (st', reply))
    (htype : request.mptype = .prepare) (hack : reply.code = .ack) :
    ReportsSlot (requestSlot u st request) (extractResponseFromPayload reply) ↔
      (0 ≤ (requestSlot u st request).acceptedProposal.proposalNum →
        (requestSlot u st request).commandType = getCCommandType request.commandType) := by
  have hreply := (paxosRequestHandler_handles h).2.prepareReply_of_ack htype hack
  rw [hreply, extract_prepareReply]
  constructor
  · intro hreport hnum
    have htype := hreport.commandType hnum
    exact htype.symm
  · intro hsame
    exact {
      accepted := rfl
      commandId := rfl
      key := rfl
      value := rfl
      index := fun _ => rfl
      commandType := fun hnum => (hsame hnum).symm }

section Example

def preparedStore (slot : Command) : MpStore :=
  .setLog .empty [107] ((newCommandsList (fun _ => .read)).setCmd 0 slot)

def acceptedRead : Command :=
  { emptyCommand .read with
    commandId := 7
    index := 0
    key := [107, 0]
    minProposalNum := ⟨1, 0⟩
    acceptedProposal := ⟨1, 0⟩ }

def prepareOf (commandType : PaxosCommandType) : PaxosRequest where
  mptype := .prepare
  commandType := commandType
  proposalClientId := 2
  proposalNum := 0
  key := [107, 0]
  value := []
  index := 0
  commandId := 9

theorem prepareReport_of_read : ReportsSlot acceptedRead
    (extractResponseFromPayload
      (prepareReply (extractRequestPayloadToCommand (prepareOf .read)) acceptedRead)) :=
  (prepareReport_iff ⟨[], [], fun _ => .read⟩ (preparedStore acceptedRead) _ (prepareOf .read) _
    rfl rfl rfl).mpr (fun _ => rfl)

/-- The PREPARE of a WRITE is told that the READ in the slot is a WRITE. -/
theorem prepareReport_of_write : ¬ ∀ (u : Uninit) (st st' : MpStore) (request : PaxosRequest)
    (reply : PaxosResponse), paxosRequestHandler u st request = some (st', reply) →
      request.mptype = .prepare → reply.code = .ack →
        ReportsSlot (requestSlot u st request) (extractResponseFromPayload reply) := by
  intro h
  have hbad := h ⟨[], [], fun _ => .read⟩ (preparedStore acceptedRead) _ (prepareOf .write) _
    rfl rfl rfl
  have htype := hbad.commandType (by decide)
  exact absurd htype (by decide)

end Example

end KeyValueStore
