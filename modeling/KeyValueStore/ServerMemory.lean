import KeyValueStore.CommandMemory
import KeyValueStore.ServerSteps

/-! The Multi-Paxos server with its commands behind pointers. A step is undefined where
the source reads, writes or deletes a command that was deleted. The buffers and proposals
of a command are allocated and deleted with it; the logs are never deleted. -/

namespace KeyValueStore

/-- `commands_list_t` -/
structure LogMemory where
  nextAvailableSlot : ℕ → Bool
  cmdVec : List ℕ

namespace LogMemory

def firstAvailable (cl : LogMemory) : Option ℕ :=
  (List.range' 0 initCommandLength).find? cl.nextAvailableSlot

def eraseSlot (cl : LogMemory) (i : ℕ) : LogMemory :=
  { cl with nextAvailableSlot := Function.update cl.nextAvailableSlot i false }

def setCmd (cl : LogMemory) (i p : ℕ) : LogMemory := { cl with cmdVec := cl.cmdVec.set i p }

end LogMemory

inductive HeapPhase
  | roundStart
  | preparing
  | accepting (sentCmd : ℕ)
  | proposed (tempCmd : ℕ)
  | returned
  deriving DecidableEq

/-- The variables of `insert_command` and `propose`; `cl` is the key of the log that the
variable of this name points to. -/
structure HeapCall where
  request : KeyStoreRequest
  origCmd : ℕ
  cl : Bytes
  currIdx : ℕ
  phase : HeapPhase

structure HeapServer where
  heap : CommandHeap
  logMap : Bytes → Option LogMemory
  mpKsMap : Bytes → Option ValueT
  broadcasts : List PaxosRequest
  call : Option HeapCall

namespace HeapServer

def start : HeapServer := ⟨.empty, fun _ => none, fun _ => none, [], none⟩

def setLog (s : HeapServer) (key : Bytes) (cl : LogMemory) : HeapServer :=
  { s with logMap := Function.update s.logMap key (some cl) }

/-- The lookup of a log, which allocates the slots of a new one. -/
def openLog (s : HeapServer) (types : ℕ → RequestType) (key : Bytes) : HeapServer × LogMemory :=
  match s.logMap key with
  | some cl => (s, cl)
  | none =>
    let cl : LogMemory := ⟨fun i => i < initCommandLength, s.heap.addresses initCommandLength⟩
    ({ s with heap := s.heap.newAll ((List.range initCommandLength).map fun i =>
        emptyCommand (types i)) }.setLog key cl, cl)

/-- `send_message_to_all_mp_server` reads the command once, for the payload. -/
def send (s : HeapServer) (cmd : ℕ) : Option HeapServer :=
  (s.heap.cell cmd).map fun c => { s with broadcasts := s.broadcasts ++ [makeMpRequestPayload c] }

def insertCommand (s : HeapServer) (request : KeyStoreRequest) (rand : UInt32)
    (types : ℕ → RequestType) : Option HeapServer :=
  let cmd := fillCommandFromRequest request (getNewAllocCommand rand request.clientid.toInt32 0)
  let origCmd := s.heap.next
  let (s, cl) := { s with heap := s.heap.new cmd }.openLog types (cStr cmd.key)
  cl.firstAvailable.bind fun i =>
  (s.heap.modify origCmd fun c => { c with index := i.toUInt32 }).map fun heap =>
    { s with heap, call := some ⟨request, origCmd, cStr cmd.key, i, .roundStart⟩ }

def updateLocalValues (s : HeapServer) (origCmd : ℕ) : Option HeapServer :=
  (s.heap.cell origCmd).bind fun orig =>
  (s.logMap (cStr orig.key)).bind fun cl =>
  cl.cmdVec[orig.index.toNat]?.bind fun tempCmd =>
  (s.heap.modify tempCmd fun c =>
    { c with minProposalNum := orig.acceptedProposal, index := orig.index }).map fun heap =>
    { s with heap }

def startRound (s : HeapServer) (call : HeapCall) : Option HeapServer :=
  (s.updateLocalValues call.origCmd).bind fun s =>
  (s.heap.modify call.origCmd fun c => { c with mpReqType := .prepare }).bind fun heap =>
  (send { s with heap } call.origCmd).map fun s =>
    { s with call := some { call with phase := .preparing } }

def finishPrepare (s : HeapServer) (call : HeapCall) (vec : List Command) (junk : Command) :
    Option HeapServer :=
  (CommandHeap.getHighestAcceptedProposal junk (s.heap.newAll vec) (s.heap.addresses vec.length)
    true).bind fun (heap, tempCmd) =>
  (heap.cell tempCmd).bind fun temp =>
  if temp.code = .nack then
    let num := temp.acceptedProposal.proposalNum
    (heap.modify call.origCmd (·.withAcceptedNum num)).bind fun heap =>
    (heap.delete tempCmd).map fun heap =>
      { s with heap, call := some { call with phase := .roundStart } }
  else
    (if temp.code = .ok then (heap.delete tempCmd).map (·, call.origCmd)
      else some (heap, tempCmd)).bind fun (heap, sentCmd) =>
    (heap.cell call.origCmd).bind fun orig =>
    (heap.modify sentCmd fun c =>
      { c with mpReqType := .accept, acceptedProposal := orig.acceptedProposal }).bind fun heap =>
    (send { s with heap } sentCmd).map fun s =>
      { s with call := some { call with phase := .accepting sentCmd } }

def finishAccept (s : HeapServer) (call : HeapCall) (sentCmd : ℕ) (vec : List Command)
    (junk : Command) : Option HeapServer :=
  (CommandHeap.getHighestAcceptedProposal junk (s.heap.newAll vec) (s.heap.addresses vec.length)
    false).bind fun (heap, tempCmd) =>
  (heap.cell tempCmd).bind fun temp =>
  (heap.cell sentCmd).bind fun sent =>
  if temp.commandId = sent.commandId then
    some { s with heap, call := some { call with phase := .proposed tempCmd } }
  else
    let num := temp.acceptedProposal.proposalNum
    (heap.modify call.origCmd (·.withAcceptedNum num)).bind fun heap =>
    (heap.delete tempCmd).bind fun heap =>
    (heap.cell sentCmd).bind fun sent =>
    (heap.cell call.origCmd).bind fun orig =>
    (if sent.commandId = orig.commandId then some heap else heap.delete sentCmd).map fun heap =>
      { s with heap, call := some { call with phase := .roundStart } }

def finish (s : HeapServer) (call : HeapCall) (tempCmd : ℕ) : Option HeapServer :=
  (s.heap.cell call.origCmd).bind fun orig =>
  (s.heap.cell tempCmd).bind fun temp =>
  (s.logMap call.cl).bind fun cl =>
  cl.cmdVec[call.currIdx]?.bind fun localCmd =>
  if orig.commandId = temp.commandId then
    (s.heap.cell localCmd).bind fun c =>
    (s.heap.delete tempCmd).bind fun heap =>
    (heap.cell localCmd).bind fun loc =>
    if temp.acceptedProposal.proposalNum = c.minProposalNum.proposalNum ∧
        temp.acceptedProposal.proposalClientId = c.minProposalNum.proposalClientId then
      (heap.modify call.origCmd fun c =>
        { c with minProposalNum := loc.minProposalNum }).bind fun heap =>
      (heap.delete localCmd).map fun heap =>
        { s.setLog call.cl ((cl.setCmd call.currIdx call.origCmd).eraseSlot call.currIdx) with
          heap, call := some { call with phase := .returned } }
    else
      (Int32.succ? loc.minProposalNum.proposalNum).bind fun num =>
      (heap.modify call.origCmd (·.withAcceptedNum num)).map fun heap =>
        { s with heap, call := some { call with phase := .roundStart } }
  else
    (s.heap.delete localCmd).bind fun heap =>
    let cl := (cl.setCmd call.currIdx tempCmd).eraseSlot call.currIdx
    cl.firstAvailable.bind fun i =>
    (heap.modify call.origCmd fun c =>
      { c with
        index := i.toUInt32
        acceptedProposal := { c.acceptedProposal with proposalNum := 0 }
        minProposalNum := { c.minProposalNum with proposalNum := 0 } }).map fun heap =>
      { s.setLog call.cl cl with
        heap, call := some { call with currIdx := i, phase := .roundStart } }

/-- The loop of `apply_last_write` over these slots. -/
def lastWrite (h : CommandHeap) : List ℕ → Option ℕ → Option (Option ℕ)
  | [], prevCmd => some prevCmd
  | tempCmd :: rest, prevCmd => (h.cell tempCmd).bind fun c =>
    lastWrite h rest (if c.commandType = .write then some tempCmd else prevCmd)

def applyLastWrite (s : HeapServer) (key : Bytes) (index : ℕ) : Option (Bool × HeapServer) :=
  (s.logMap key).bind fun cl =>
  (lastWrite s.heap (cl.cmdVec.take (index + 1)) none).bind fun
    | none => some (false, s)
    | some prevCmd => (s.heap.cell prevCmd).map fun prev =>
      let value : ValueT :=
        match s.mpKsMap key with
        | some old => { old with value := prev.value }
        | none => ⟨⟨0, 0⟩, prev.key, prev.value⟩
      (true, { s with mpKsMap := Function.update s.mpKsMap key (some value) })

def applyAccepted (u : Uninit) (s : HeapServer) (cmd : Command) (index : ℕ) : Option HeapServer :=
  if cmd.commandType = .write then
    (s.applyLastWrite (cStr (cmd.key ++ u.keyTail)) index).map Prod.snd
  else some s

/-- The handler never deletes the command that it makes of the request. -/
def paxosRequestHandler (u : Uninit) (s : HeapServer) (request : PaxosRequest) :
    Option (HeapServer × PaxosResponse) :=
  let key := requestKey u request
  let cReq := s.heap.next
  let (s, cl) :=
    { s with heap := s.heap.new (extractRequestPayloadToCommand request) }.openLog u.types key
  (s.heap.cell cReq).bind fun cReq =>
  let i := cReq.index.toNat
  cl.cmdVec[i]?.bind fun cmd =>
  (s.heap.cell cmd).bind fun c =>
  match cReq.mpReqType with
  | .prepare =>
    if prepareUpdates cReq c then
      (s.heap.modify cmd (promisedCommand cReq)).map fun heap =>
        ({ s with heap }, prepareReply cReq c)
    else some (s, nackReply c)
  | .accept =>
    if acceptUpdates cReq c then
      (s.heap.modify cmd (acceptedCommand cReq)).bind fun heap =>
      (heap.cell cmd).bind fun c =>
      (applyAccepted u { s with heap } c i).map fun s =>
        (s.setLog key (cl.eraseSlot i), acceptReply cReq)
    else some (s, nackReply c)

def mpAnswer (s : HeapServer) (request : KeyStoreRequest) (index : ℕ) :
    Option (HeapServer × KeyStoreResponse) :=
  match request.type with
  | .read =>
    (s.applyLastWrite (cStr request.key) index).bind fun (found, s) =>
      if found then
        (s.mpKsMap (cStr request.key)).map fun temp =>
          (s, { protocol := .mp, key := temp.key, value := temp.value })
      else some (s, { protocol := .mp, code := .error })
  | _ => some (s, { protocol := .mp, code := .ok })

def duringCall (s : HeapServer) (call : HeapCall) :
    ServerInput → Option (HeapServer × ServerOutput)
  | .startRound => match call.phase with
    | .roundStart => (s.startRound call).map (·, .silent)
    | _ => none
  | .finishPrepare vec junk => match call.phase with
    | .preparing => (s.finishPrepare call vec junk).map (·, .silent)
    | _ => none
  | .finishAccept vec junk => match call.phase with
    | .accepting sentCmd => (s.finishAccept call sentCmd vec junk).map (·, .silent)
    | _ => none
  | .finish => match call.phase with
    | .proposed tempCmd => (s.finish call tempCmd).map (·, .silent)
    | _ => none
  | .answer => match call.phase with
    | .returned => (s.mpAnswer call.request call.currIdx).map fun (s, reply) =>
        ({ s with call := none }, .answered reply)
    | _ => none
  | _ => none

/-- Whether an ACCEPT phase leaves a command behind that it had adopted from the replies:
it deletes one only when it retries and the command is not the client's own. -/
def forgetsSent (s : HeapServer) (vec : List Command) (junk : Command) : Bool :=
  match s.call with
  | some call => match call.phase with
    | .accepting sentCmd =>
      let id (p : ℕ) := (s.heap.cell p).map Command.commandId
      sentCmd ≠ call.origCmd ∧
        ((getHighestAcceptedProposal junk vec false).map Command.commandId = id sentCmd ∨
          id sentCmd = id call.origCmd)
    | _ => false
  | none => false

/-- How many commands a step forgets without deleting them. -/
def forgotten (s : HeapServer) : ServerInput → ℕ
  | .handle _ _ => 1
  | .finishPrepare vec _ => forgottenReplies vec
  | .finishAccept vec junk => forgottenReplies vec + if s.forgetsSent vec junk then 1 else 0
  | _ => 0

end HeapServer

def heapStep (s : HeapServer) : ServerInput → Option (HeapServer × ServerOutput)
  | .handle u request => (s.paxosRequestHandler u request).map fun (s, reply) =>
      (s, .replied reply)
  | .insertCommand request rand types =>
    match s.call with
    | none => (s.insertCommand request rand types).map (·, .silent)
    | some _ => none
  | input =>
    match s.call with
    | none => none
    | some call => s.duringCall call input

end KeyValueStore
