import KeyValueStore.SlotViews
import KeyValueStore.ValueSelection

/-! One call of `insert_command` and the decisions that it and `propose` take
between two broadcasts. -/

namespace KeyValueStore

/-- `rand` is the result of `get_random_number`. -/
def getNewAllocCommand (rand : UInt32) (clientId proposalNum : Int32) : Command where
  mpReqType := .prepare
  commandType := .read
  code := .ack
  commandId := rand + clientId.toUInt32
  index := 0
  key := []
  value := []
  minProposalNum := ⟨clientId, proposalNum⟩
  acceptedProposal := ⟨clientId, proposalNum⟩

def fillCommandFromRequest (req : KeyStoreRequest) (cmd : Command) : Command :=
  { cmd with key := req.key, value := req.value, commandType := req.type }

def newCommandId (rand : UInt32) (req : KeyStoreRequest) : UInt32 :=
  (getNewAllocCommand rand req.clientid.toInt32 0).commandId

/-- Where a call of `insert_command` stands. `own` is what the slot held when
the round started and `round` is the broadcast that prepared it; both are kept
for the statements only. -/
inductive Phase
  | roundStart
  | preparing (round : ℕ) (own : Option (Proposal × Content))
  | accepting (round call : ℕ) (sentCmd : Command)
  | proposed (round : ℕ) (tempCmd : Command)
  | returned
  deriving DecidableEq

structure InsertCall where
  request : KeyStoreRequest
  origCmd : Command
  currIdx : ℕ
  phase : Phase
  deriving DecidableEq

/-- `string(orig_cmd->key)` -/
def InsertCall.key (call : InsertCall) : Bytes := cStr call.origCmd.key

/-- The first lock section of `insert_command`: the smallest free slot. -/
def insertCommandStart (st : MpStore) (req : KeyStoreRequest) (rand : UInt32)
    (types : ℕ → RequestType) : Option (MpStore × InsertCall) :=
  let origCmd := fillCommandFromRequest req (getNewAllocCommand rand req.clientid.toInt32 0)
  let cl := st.lookup types (cStr origCmd.key)
  cl.firstAvailable.map fun i =>
    (st.setLog (cStr origCmd.key) cl, ⟨req, { origCmd with index := i.toUInt32 }, i, .roundStart⟩)

def updateLocalValues (st : MpStore) (origCmd : Command) : Option MpStore :=
  (st.logMap (cStr origCmd.key)).map fun cl =>
    let tempCmd := cl.cmdVec origCmd.index.toNat
    st.setLog (cStr origCmd.key) (cl.setCmd origCmd.index.toNat
      { tempCmd with minProposalNum := origCmd.acceptedProposal, index := origCmd.index })

/-- The command of the ACCEPT phase, none when the round starts again. -/
def commandToSend (origCmd tempCmd : Command) : Option Command :=
  if tempCmd.code = .nack then none
  else
    let chosen := if tempCmd.code = .ok then origCmd else tempCmd
    some { chosen with mpReqType := .accept, acceptedProposal := origCmd.acceptedProposal }

/-- How a round of `propose` ends. -/
inductive Proposed
  | again (origCmd : Command)
  | decided (tempCmd : Command)

/-- The end of a turn of the loop of `propose`: the round starts again unless the
replies to the ACCEPT select a command with the id that was sent. -/
def acceptPhase (origCmd sentCmd junk : Command) (vec : List Command) : Option Proposed :=
  (getHighestAcceptedProposal junk vec false).map fun tempCmd =>
    if tempCmd.commandId = sentCmd.commandId then .decided tempCmd
    else .again (origCmd.withAcceptedNum tempCmd.acceptedProposal.proposalNum)

/-- How the last lock section of a pass through the loop of `insert_command` ends. -/
inductive Recording
  | own (st : MpStore) (origCmd : Command)
  | retry (origCmd : Command)
  | defeated (st : MpStore) (origCmd : Command) (currIdx : ℕ)

def recordCommand (st : MpStore) (origCmd tempCmd : Command) (currIdx : ℕ) : Option Recording :=
  (st.logMap (cStr origCmd.key)).bind fun cl =>
    if origCmd.commandId = tempCmd.commandId then
      let localCmd := cl.cmdVec currIdx
      if tempCmd.acceptedProposal.proposalNum = localCmd.minProposalNum.proposalNum ∧
          tempCmd.acceptedProposal.proposalClientId =
            localCmd.minProposalNum.proposalClientId then
        let origCmd := { origCmd with minProposalNum := localCmd.minProposalNum }
        some (.own (st.setLog (cStr origCmd.key) ((cl.setCmd currIdx origCmd).eraseSlot currIdx))
          origCmd)
      else
        (Int32.succ? localCmd.minProposalNum.proposalNum).map fun num =>
          .retry (origCmd.withAcceptedNum num)
    else
      let cl := (cl.setCmd currIdx tempCmd).eraseSlot currIdx
      cl.firstAvailable.map fun i =>
        .defeated (st.setLog (cStr origCmd.key) cl)
          { origCmd with
            index := i.toUInt32
            acceptedProposal := { origCmd.acceptedProposal with proposalNum := 0 }
            minProposalNum := { origCmd.minProposalNum with proposalNum := 0 } } i

/-- The MP branch of `KeyStoreRequestHandler` after `insert_command` returned. -/
def mpAnswer (st : MpStore) (request : KeyStoreRequest) (index : ℕ) :
    Option (MpStore × KeyStoreResponse) :=
  match request.type with
  | .read =>
    (applyLastWrite st (cStr request.key) index).bind fun (found, st) =>
      if found then
        (st.mpKsMap (cStr request.key)).map fun temp =>
          (st, { protocol := .mp, key := temp.key, value := temp.value })
      else some (st, { protocol := .mp, code := .error })
  | _ => some (st, { protocol := .mp, code := .ok })

section Specs

variable {st st' : MpStore} {origCmd tempCmd : Command} {currIdx : ℕ}

/-- What a call starts with: the smallest free slot of its key, and the client's
command under the number 0. -/
structure Starts (st : MpStore) (req : KeyStoreRequest) (rand : UInt32) (st' : MpStore)
    (call : InsertCall) : Prop where
  request : call.request = req
  content : call.origCmd.content = ⟨newCommandId rand req, req.type, req.key, req.value⟩
  accepted : call.origCmd.acceptedProposal = ⟨req.clientid.toInt32, 0⟩
  phase : call.phase = .roundStart
  index : call.origCmd.index.toNat = call.currIdx
  currIdx_lt : call.currIdx < initCommandLength
  available : st.available call.key call.currIdx = true
  below : ∀ j < call.currIdx, st.available call.key j = false
  store : ∃ types, st' = st.setLog call.key (st.lookup types call.key)

theorem toNat_toUInt32_of_lt {i : ℕ} (h : i < initCommandLength) : i.toUInt32.toNat = i :=
  UInt32.toNat_ofNat_of_lt' (h.trans (by decide))

theorem insertCommandStart_starts {req : KeyStoreRequest} {rand : UInt32}
    {types : ℕ → RequestType} {call : InsertCall}
    (h : insertCommandStart st req rand types = some (st', call)) :
    Starts st req rand st' call := by
  obtain ⟨i, hi, he⟩ := Option.map_eq_some_iff.mp h
  simp only [Prod.mk.injEq] at he
  obtain ⟨rfl, rfl⟩ := he
  obtain ⟨hlt, hav, hbelow⟩ := CommandsList.firstAvailable_eq_some hi
  exact {
    request := rfl
    content := rfl
    accepted := rfl
    phase := rfl
    index := toNat_toUInt32_of_lt hlt
    currIdx_lt := hlt
    available := (st.available_eq_lookup types _ _).trans hav
    below := fun j hj => (st.available_eq_lookup types _ _).trans (hbelow j hj)
    store := ⟨types, rfl⟩ }

theorem Starts.slots {P : Bytes → ℕ → Command → Prop} {req : KeyStoreRequest} {rand : UInt32}
    {call : InsertCall} (h : Starts st req rand st' call) (hP : SlotPredicate P)
    (hs : st.Slots P) : st'.Slots P := by
  obtain ⟨types, rfl⟩ := h.store
  exact hs.setLog (hs.lookup hP types _)

theorem setLog_lookup_promise (st : MpStore) (types : ℕ → RequestType) (key k : Bytes) (j : ℕ) :
    (st.setLog key (st.lookup types key)).promise k j = st.promise k j := by
  rw [MpStore.promise_setLog, ← MpStore.promise_eq_lookup]
  split <;> simp_all

theorem setLog_lookup_vote (st : MpStore) (types : ℕ → RequestType) (key k : Bytes) (j : ℕ) :
    (st.setLog key (st.lookup types key)).vote k j = st.vote k j := by
  rw [MpStore.vote_setLog, ← MpStore.vote_eq_lookup]
  split <;> simp_all

theorem setLog_lookup_available (st : MpStore) (types : ℕ → RequestType) (key k : Bytes) (j : ℕ) :
    (st.setLog key (st.lookup types key)).available k j = st.available k j := by
  rw [MpStore.available_setLog, ← MpStore.available_eq_lookup]
  split <;> simp_all

theorem updateLocalValues_log (h : updateLocalValues st origCmd = some st') :
    ∃ cl, st.logMap (cStr origCmd.key) = some cl ∧
      st' = st.setLog (cStr origCmd.key) (cl.setCmd origCmd.index.toNat
        { cl.cmdVec origCmd.index.toNat with
          minProposalNum := origCmd.acceptedProposal, index := origCmd.index }) := by
  obtain ⟨cl, hcl, rfl⟩ := Option.map_eq_some_iff.mp h
  exact ⟨cl, hcl, rfl⟩

theorem updateLocalValues_promise (h : updateLocalValues st origCmd = some st') (k : Bytes) (j : ℕ) :
    st'.promise k j = if k = cStr origCmd.key ∧ j = origCmd.index.toNat
      then origCmd.acceptedProposal else st.promise k j := by
  obtain ⟨cl, hcl, rfl⟩ := updateLocalValues_log h
  rw [MpStore.promise_setLog]
  by_cases hk : k = cStr origCmd.key
  · by_cases hj : j = origCmd.index.toNat <;> simp [hk, hj, MpStore.promise, hcl]
  · simp [hk]

theorem updateLocalValues_vote (h : updateLocalValues st origCmd = some st') (k : Bytes) (j : ℕ) :
    st'.vote k j = st.vote k j := by
  obtain ⟨cl, hcl, rfl⟩ := updateLocalValues_log h
  rw [MpStore.vote_setLog]
  by_cases hk : k = cStr origCmd.key
  · by_cases hj : j = origCmd.index.toNat <;>
      simp [hk, hj, MpStore.vote, hcl, Command.vote, Command.content]
  · simp [hk]

theorem updateLocalValues_available (h : updateLocalValues st origCmd = some st') (k : Bytes)
    (j : ℕ) : st'.available k j = st.available k j := by
  obtain ⟨cl, hcl, rfl⟩ := updateLocalValues_log h
  rw [MpStore.available_setLog]
  by_cases hk : k = cStr origCmd.key <;> simp [hk, MpStore.available, hcl]

theorem updateLocalValues_slots {P : Bytes → ℕ → Command → Prop} (hP : SlotPredicate P)
    (hs : st.Slots P) (h : updateLocalValues st origCmd = some st') : st'.Slots P := by
  obtain ⟨cl, hcl, rfl⟩ := updateLocalValues_log h
  have hold := hs _ cl hcl
  exact hs.setLog (CommandsList.setCmd_all hold (hP.started _ _ _ _ _ rfl (hold _)))

theorem commandToSend_eq_none : commandToSend origCmd tempCmd = none ↔ tempCmd.code = .nack := by
  unfold commandToSend
  split <;> simp_all

theorem commandToSend_eq_some {sentCmd : Command}
    (h : commandToSend origCmd tempCmd = some sentCmd) :
    sentCmd = { (if tempCmd.code = .ok then origCmd else tempCmd) with
      mpReqType := .accept, acceptedProposal := origCmd.acceptedProposal } := by
  unfold commandToSend at h
  split at h
  next => simp at h
  next => exact (Option.some.inj h).symm

def recordedLog (cl : CommandsList) (currIdx : ℕ) (cmd : Command) : CommandsList :=
  (cl.setCmd currIdx cmd).eraseSlot currIdx

inductive Records (st : MpStore) (origCmd tempCmd : Command) (currIdx : ℕ) : Recording → Prop
  | own {cl : CommandsList} (hcl : st.logMap (cStr origCmd.key) = some cl)
      (hid : origCmd.commandId = tempCmd.commandId)
      (hmin : tempCmd.acceptedProposal = (cl.cmdVec currIdx).minProposalNum) :
      Records st origCmd tempCmd currIdx (.own
        (st.setLog (cStr origCmd.key) (recordedLog cl currIdx
          { origCmd with minProposalNum := (cl.cmdVec currIdx).minProposalNum }))
        { origCmd with minProposalNum := (cl.cmdVec currIdx).minProposalNum })
  | retry {num : Int32} (hid : origCmd.commandId = tempCmd.commandId)
      (hmin : tempCmd.acceptedProposal ≠ st.promise (cStr origCmd.key) currIdx)
      (hnum : Int32.succ? (st.promise (cStr origCmd.key) currIdx).proposalNum = some num) :
      Records st origCmd tempCmd currIdx (.retry (origCmd.withAcceptedNum num))
  | defeated {cl : CommandsList} {i : ℕ} (hcl : st.logMap (cStr origCmd.key) = some cl)
      (hid : origCmd.commandId ≠ tempCmd.commandId)
      (hi : (recordedLog cl currIdx tempCmd).firstAvailable = some i) :
      Records st origCmd tempCmd currIdx (.defeated
        (st.setLog (cStr origCmd.key) (recordedLog cl currIdx tempCmd))
        { origCmd with
          index := i.toUInt32
          acceptedProposal := { origCmd.acceptedProposal with proposalNum := 0 }
          minProposalNum := { origCmd.minProposalNum with proposalNum := 0 } } i)

theorem recordCommand_records {r : Recording}
    (h : recordCommand st origCmd tempCmd currIdx = some r) :
    Records st origCmd tempCmd currIdx r := by
  obtain ⟨cl, hcl, h⟩ := Option.bind_eq_some_iff.mp h
  have hp : st.promise (cStr origCmd.key) currIdx = (cl.cmdVec currIdx).minProposalNum := by
    simp [MpStore.promise, hcl]
  split at h
  next hid =>
    have hiff : (tempCmd.acceptedProposal.proposalNum = (cl.cmdVec currIdx).minProposalNum.proposalNum
        ∧ tempCmd.acceptedProposal.proposalClientId =
          (cl.cmdVec currIdx).minProposalNum.proposalClientId) ↔
        tempCmd.acceptedProposal = (cl.cmdVec currIdx).minProposalNum := by
      cases tempCmd.acceptedProposal
      cases (cl.cmdVec currIdx).minProposalNum
      simp [and_comm]
    dsimp only at h
    split at h
    next hmin =>
      simp only [Option.some.injEq] at h
      exact h ▸ .own hcl hid (hiff.mp hmin)
    next hmin =>
      obtain ⟨num, hnum, rfl⟩ := Option.map_eq_some_iff.mp h
      exact .retry hid (fun he => hmin (hiff.mpr (he.trans hp))) (hp ▸ hnum)
  next hid =>
    obtain ⟨i, hi, rfl⟩ := Option.map_eq_some_iff.mp h
    exact .defeated hcl hid hi

section RecordedLog

variable {cl : CommandsList} {cmd : Command} {key : Bytes}

theorem recordedLog_promise (hcl : st.logMap key = some cl) (k : Bytes) (j : ℕ) :
    (st.setLog key (recordedLog cl currIdx cmd)).promise k j =
      if k = key ∧ j = currIdx then cmd.minProposalNum else st.promise k j := by
  rw [MpStore.promise_setLog]
  by_cases hk : k = key
  · by_cases hj : j = currIdx <;> simp [hk, hj, recordedLog, MpStore.promise, hcl]
  · simp [hk]

theorem recordedLog_vote (hcl : st.logMap key = some cl) (k : Bytes) (j : ℕ) :
    (st.setLog key (recordedLog cl currIdx cmd)).vote k j =
      if k = key ∧ j = currIdx then cmd.vote else st.vote k j := by
  rw [MpStore.vote_setLog]
  by_cases hk : k = key
  · by_cases hj : j = currIdx <;> simp [hk, hj, recordedLog, MpStore.vote, hcl]
  · simp [hk]

theorem recordedLog_available (hcl : st.logMap key = some cl) (k : Bytes) (j : ℕ) :
    (st.setLog key (recordedLog cl currIdx cmd)).available k j =
      if k = key ∧ j = currIdx then false else st.available k j := by
  rw [MpStore.available_setLog]
  by_cases hk : k = key
  · by_cases hj : j = currIdx <;> simp [hk, hj, recordedLog, MpStore.available, hcl]
  · simp [hk]

theorem recordedLog_slots {P : Bytes → ℕ → Command → Prop} (hs : st.Slots P)
    (hcl : st.logMap key = some cl) (hcmd : P key currIdx cmd) :
    (st.setLog key (recordedLog cl currIdx cmd)).Slots P :=
  hs.setLog (CommandsList.setCmd_all (hs key cl hcl) hcmd)

end RecordedLog

end Specs

end KeyValueStore
