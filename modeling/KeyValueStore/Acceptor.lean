import KeyValueStore.Command
import Mathlib.Logic.Function.Basic

/-! The log of one Multi-Paxos server and its handler of PREPARE and ACCEPT
requests. A subscript outside the log and a failed lookup that is dereferenced
are undefined behavior, and the functions are undefined there. -/

namespace KeyValueStore

/-- `commands_list_t`. The set of free slots is its membership test. -/
structure CommandsList where
  nextAvailableSlot : ℕ → Bool
  cmdVec : ℕ → Command

/-- A slot as both allocation loops leave it; they never set its type. -/
def emptyCommand (commandType : RequestType) : Command where
  mpReqType := .prepare
  commandType := commandType
  code := .ack
  commandId := 0
  index := -1
  key := []
  value := []
  minProposalNum := .unset
  acceptedProposal := .unset

def newCommandsList (types : ℕ → RequestType) : CommandsList where
  nextAvailableSlot i := i < initCommandLength
  cmdVec i := emptyCommand (types i)

namespace CommandsList

def setCmd (cl : CommandsList) (i : ℕ) (c : Command) : CommandsList :=
  { cl with cmdVec := Function.update cl.cmdVec i c }

def eraseSlot (cl : CommandsList) (i : ℕ) : CommandsList :=
  { cl with nextAvailableSlot := Function.update cl.nextAvailableSlot i false }

@[simp] theorem setCmd_cmdVec (cl : CommandsList) (i : ℕ) (c : Command) (j : ℕ) :
    (cl.setCmd i c).cmdVec j = if j = i then c else cl.cmdVec j := by
  by_cases h : j = i <;> simp [setCmd, Function.update, h]

@[simp] theorem setCmd_nextAvailableSlot (cl : CommandsList) (i : ℕ) (c : Command) :
    (cl.setCmd i c).nextAvailableSlot = cl.nextAvailableSlot := rfl

@[simp] theorem eraseSlot_cmdVec (cl : CommandsList) (i : ℕ) :
    (cl.eraseSlot i).cmdVec = cl.cmdVec := rfl

@[simp] theorem eraseSlot_nextAvailableSlot (cl : CommandsList) (i j : ℕ) :
    (cl.eraseSlot i).nextAvailableSlot j = if j = i then false else cl.nextAvailableSlot j := by
  by_cases h : j = i <;> simp [eraseSlot, Function.update, h]

/-- `*(next_available_slot.begin())` -/
def firstAvailable (cl : CommandsList) : Option ℕ :=
  (List.range' 0 initCommandLength).find? cl.nextAvailableSlot

theorem firstAvailable_eq_some {cl : CommandsList} {i : ℕ} (h : cl.firstAvailable = some i) :
    i < initCommandLength ∧ cl.nextAvailableSlot i = true ∧
      ∀ j < i, cl.nextAvailableSlot j = false := by
  obtain ⟨hp, hm, hj⟩ := List.find?_range'_eq_some.mp h
  have hi := (List.mem_range'_1.mp hm).2
  exact ⟨by omega, hp, fun j hlt => by simpa using hj j (Nat.zero_le j) hlt⟩

theorem firstAvailable_eq {cl : CommandsList} {i : ℕ} (hi : i < initCommandLength)
    (ha : cl.nextAvailableSlot i = true) (hb : ∀ k < i, cl.nextAvailableSlot k = false) :
    cl.firstAvailable = some i :=
  List.find?_range'_eq_some.mpr ⟨ha, List.mem_range'_1.mpr ⟨Nat.zero_le i, by omega⟩,
    fun k _ hk => by simp [hb k hk]⟩

end CommandsList

/-- `log_map` and `mp_ks_map` of one server. -/
structure MpStore where
  logMap : Bytes → Option CommandsList
  mpKsMap : Bytes → Option ValueT

namespace MpStore

def empty : MpStore := ⟨fun _ => none, fun _ => none⟩

def lookup (st : MpStore) (types : ℕ → RequestType) (key : Bytes) : CommandsList :=
  (st.logMap key).getD (newCommandsList types)

def setLog (st : MpStore) (key : Bytes) (cl : CommandsList) : MpStore :=
  { st with logMap := Function.update st.logMap key (some cl) }

end MpStore

/-- The loop of `apply_last_write` over the slots up to `index`. -/
def lastWrite (cl : CommandsList) (index : ℕ) : Option Command :=
  (List.range (min (index + 1) initCommandLength)).foldl
    (fun prev i => if (cl.cmdVec i).commandType = .write then some (cl.cmdVec i) else prev) none

def applyLastWrite (st : MpStore) (key : Bytes) (index : ℕ) : Option (Bool × MpStore) :=
  (st.logMap key).map fun cl =>
    match lastWrite cl index with
    | none => (false, st)
    | some prev =>
      let value : ValueT :=
        match st.mpKsMap key with
        | some old => { old with value := prev.value }
        | none => ⟨⟨0, 0⟩, prev.key, prev.value⟩
      (true, { st with mpKsMap := Function.update st.mpKsMap key (some value) })

/-- What the memory that one call of the handler leaves uninitialized holds. -/
structure Uninit where
  /-- `string(c_req->key)` when `keysz` is 0 -/
  keyPtr : Bytes
  /-- the bytes that follow the copied key in the slot -/
  keyTail : Bytes
  /-- the types of the slots of a new log -/
  types : ℕ → RequestType

/-- The flags `update` of the PREPARE and the ACCEPT branch. -/
def prepareUpdates (cReq cmd : Command) : Bool :=
  cReq.acceptedProposal.proposalNum > cmd.minProposalNum.proposalNum ||
    (cReq.acceptedProposal.proposalNum = cmd.minProposalNum.proposalNum &&
      cReq.acceptedProposal.proposalClientId > cmd.minProposalNum.proposalClientId)

def acceptUpdates (cReq cmd : Command) : Bool :=
  cReq.acceptedProposal.proposalNum ≥ cmd.minProposalNum.proposalNum ||
    (cReq.acceptedProposal.proposalNum = cmd.minProposalNum.proposalNum &&
      cReq.acceptedProposal.proposalClientId ≥ cmd.minProposalNum.proposalClientId)

def promisedCommand (cReq cmd : Command) : Command :=
  { cmd with minProposalNum := cReq.acceptedProposal }

def acceptedCommand (cReq cmd : Command) : Command :=
  { cmd with
    commandType := cReq.commandType
    commandId := cReq.commandId
    index := cReq.index
    key := cReq.key
    value := cReq.value
    minProposalNum := cReq.acceptedProposal
    acceptedProposal := cReq.acceptedProposal }

/-- The reply of the PREPARE branch reports the slot, but takes the command
type from the request. -/
def prepareReply (cReq cmd : Command) : PaxosResponse where
  code := .ack
  commandType := setCommandType cReq.commandType
  proposalClientId := cmd.acceptedProposal.proposalClientId.toUInt32
  proposalNum := cmd.acceptedProposal.proposalNum.toUInt32
  key := cmd.key
  value := cmd.value
  index := cmd.index
  commandId := cmd.commandId

def acceptReply (cReq : Command) : PaxosResponse where
  code := .ack
  commandType := setCommandType cReq.commandType
  proposalClientId := cReq.acceptedProposal.proposalClientId.toUInt32
  proposalNum := cReq.acceptedProposal.proposalNum.toUInt32
  key := cReq.key
  value := cReq.value
  index := cReq.index
  commandId := cReq.commandId

def nackReply (cmd : Command) : PaxosResponse :=
  { code := .nack
    proposalClientId := cmd.minProposalNum.proposalClientId.toUInt32
    proposalNum := cmd.minProposalNum.proposalNum.toUInt32 }

/-- `string(c_req->key)` -/
def requestKey (u : Uninit) (request : PaxosRequest) : Bytes :=
  if request.key = [] then u.keyPtr else cStr request.key

/-- The WRITE that an ACCEPT carries is applied under the key as the slot's
buffer spells it, whose last byte is never set. -/
def applyAccepted (u : Uninit) (st : MpStore) (cmd : Command) (index : ℕ) : Option MpStore :=
  if cmd.commandType = .write then
    (applyLastWrite st (cStr (cmd.key ++ u.keyTail)) index).map Prod.snd
  else some st

def paxosRequestHandler (u : Uninit) (st : MpStore) (request : PaxosRequest) :
    Option (MpStore × PaxosResponse) :=
  let cReq := extractRequestPayloadToCommand request
  let key := requestKey u request
  let cl := st.lookup u.types key
  let i := cReq.index.toNat
  if i < initCommandLength then
    let cmd := cl.cmdVec i
    match cReq.mpReqType with
    | .prepare =>
      if prepareUpdates cReq cmd then
        some (st.setLog key (cl.setCmd i (promisedCommand cReq cmd)), prepareReply cReq cmd)
      else some (st.setLog key cl, nackReply cmd)
    | .accept =>
      if acceptUpdates cReq cmd then
        let cmd' := acceptedCommand cReq cmd
        let cl' := cl.setCmd i cmd'
        (applyAccepted u (st.setLog key cl') cmd' i).map fun st' =>
          (st'.setLog key (cl'.eraseSlot i), acceptReply cReq)
      else some (st.setLog key cl, nackReply cmd)
  else none

end KeyValueStore
