import KeyValueStore.Execution
import KeyValueStore.Proposer

/-! The servers of one list, running Multi-Paxos. Each broadcast has one payload
that its calls share; a call is handled at most once, and one that is never
handled or whose reply is never collected is lost. The history only records
what happened, newest first. -/

namespace KeyValueStore

structure MpServer where
  store : MpStore
  broadcasts : List PaxosRequest
  call : Option InsertCall

def MpServer.start : MpServer := ⟨.empty, [], none⟩

structure Rpc (n : ℕ) where
  src : Fin n
  dst : Fin n
  call : ℕ
  deriving DecidableEq, Repr

inductive MpEvent (n : ℕ)
  | called (s : Fin n) (request : KeyStoreRequest) (commandId : UInt32)
  | promised (a : Fin n) (key : Bytes) (i : ℕ) (p : Proposal) (round : Fin n × ℕ)
      (last : Option (Proposal × Content)) (byHandler : Bool)
  | sentAccept (key : Bytes) (i : ℕ) (p : Proposal) (round : Fin n × ℕ) (content : Content)
  | accepted (a : Fin n) (key : Bytes) (i : ℕ) (cmd : Command) (byHandler : Bool)
  | recorded (s : Fin n) (key : Bytes) (i : ℕ) (content : Content)
  | returned (s : Fin n) (key : Bytes) (i : ℕ) (commandId : UInt32)
  | answered (s : Fin n) (request : KeyStoreRequest) (i : ℕ) (reply : KeyStoreResponse)
  deriving DecidableEq

structure MpSystem (n : ℕ) where
  servers : Fin n → MpServer
  calls : List (Rpc n)
  replies : List (Rpc n × PaxosResponse)
  history : List (MpEvent n)

inductive MpAction (n : ℕ)
  | insertCommand (s : Fin n) (request : KeyStoreRequest) (rand : UInt32)
      (types : ℕ → RequestType)
  | startRound (s : Fin n)
  | handle (k : ℕ) (u : Uninit)
  | finishPrepare (s : Fin n) (order : List (Fin n)) (junk : Command)
  | finishAccept (s : Fin n) (order : List (Fin n)) (junk : Command)
  | finish (s : Fin n)
  | answer (s : Fin n)

namespace MpSystem

variable {n : ℕ}

def init : MpSystem n := ⟨fun _ => .start, [], [], []⟩

def payload (s : MpSystem n) (src : Fin n) (call : ℕ) : Option PaxosRequest :=
  (s.servers src).broadcasts[call]?

def advance (s : MpSystem n) (i : Fin n) (server : MpServer) (events : List (MpEvent n)) :
    MpSystem n :=
  { s with
    servers := Function.update s.servers i server
    history := events ++ s.history }

/-- `send_message_to_all_mp_server` up to the wait: a call to every other server. -/
def broadcast (s : MpSystem n) (i : Fin n) (request : PaxosRequest) : MpSystem n :=
  let server := s.servers i
  { s with
    servers := Function.update s.servers i { server with broadcasts := server.broadcasts ++ [request] }
    calls := s.calls ++
      ((List.finRange n).filter (· ≠ i)).map (fun a => ⟨i, a, server.broadcasts.length⟩) }

def handled (s : MpSystem n) (k : ℕ) (rpc : Rpc n) (st : MpStore) (reply : PaxosResponse)
    (events : List (MpEvent n)) : MpSystem n :=
  { s.advance rpc.dst { s.servers rpc.dst with store := st } events with
    calls := s.calls.eraseIdx k
    replies := (rpc, reply) :: s.replies }

def replyFrom (s : MpSystem n) (i : Fin n) (call : ℕ) (a : Fin n) : Option Command :=
  (s.replies.find? (fun r => r.1 = ⟨i, a, call⟩)).map (fun r => extractResponseFromPayload r.2)

/-- The wait of `send_message_to_all_mp_server`: the replies in the order in
which they were collected, once they are a majority of the connections. -/
def collect (s : MpSystem n) (i : Fin n) (call : ℕ) (order : List (Fin n)) :
    Option (List Command) :=
  if order.Nodup ∧ (n - 1 + 1) / 2 ≤ order.length ∧
      ∀ a ∈ order, (s.replyFrom i call a).isSome then
    some (order.filterMap (s.replyFrom i call))
  else none

end MpSystem

def handlerEvents {n : ℕ} (rpc : Rpc n) (u : Uninit) (st : MpStore) (request : PaxosRequest)
    (reply : PaxosResponse) : List (MpEvent n) :=
  let key := requestKey u request
  let cReq := extractRequestPayloadToCommand request
  if reply.code = .ack then
    match request.mptype with
    | .prepare => [.promised rpc.dst key request.slot request.proposal (rpc.src, rpc.call)
        (st.vote key request.slot) true]
    | .accept => [.accepted rpc.dst key request.slot (acceptedCommand cReq (requestSlot u st request))
        true]
  else []

section Step

variable {n : ℕ}

def handleStep (s : MpSystem n) (k : ℕ) (u : Uninit) : Option (MpSystem n) :=
  s.calls[k]?.bind fun rpc =>
  (s.payload rpc.src rpc.call).bind fun request =>
  let st := (s.servers rpc.dst).store
  (paxosRequestHandler u st request).map fun (st', reply) =>
    s.handled k rpc st' reply (handlerEvents rpc u st request reply)

def startRoundStep (s : MpSystem n) (i : Fin n) (call : InsertCall) : Option (MpSystem n) :=
  let server := s.servers i
  let round := server.broadcasts.length
  let own := server.store.vote call.key call.currIdx
  let origCmd := { call.origCmd with mpReqType := .prepare }
  (updateLocalValues server.store origCmd).map fun st =>
    (s.advance i
      { server with store := st, call := some { call with origCmd, phase := .preparing round own } }
      [.promised i call.key call.currIdx origCmd.acceptedProposal (i, round) own false]).broadcast i
      (makeMpRequestPayload origCmd)

def finishPrepareStep (s : MpSystem n) (i : Fin n) (call : InsertCall) (round : ℕ)
    (order : List (Fin n)) (junk : Command) : Option (MpSystem n) :=
  let server := s.servers i
  (s.collect i round order).bind fun vec =>
  (getHighestAcceptedProposal junk vec true).map fun tempCmd =>
    match commandToSend call.origCmd tempCmd with
    | none => s.advance i
        { server with
          call := some { call with
            origCmd := call.origCmd.withAcceptedNum tempCmd.acceptedProposal.proposalNum
            phase := .roundStart } } []
    | some sentCmd => (s.advance i
        { server with
          call := some { call with phase := .accepting round server.broadcasts.length sentCmd } }
        [.sentAccept call.key call.currIdx sentCmd.acceptedProposal (i, round)
          sentCmd.content]).broadcast i (makeMpRequestPayload sentCmd)

def InsertCall.afterAccept (call : InsertCall) (round : ℕ) : Proposed → InsertCall
  | .decided tempCmd => { call with phase := .proposed round tempCmd }
  | .again origCmd => { call with origCmd, phase := .roundStart }

def finishAcceptStep (s : MpSystem n) (i : Fin n) (call : InsertCall) (round acceptCall : ℕ)
    (sentCmd : Command) (order : List (Fin n)) (junk : Command) : Option (MpSystem n) :=
  let server := s.servers i
  (s.collect i acceptCall order).bind fun vec =>
  (acceptPhase call.origCmd sentCmd junk vec).map fun proposed =>
    s.advance i { server with call := some (call.afterAccept round proposed) } []

def finishStep (s : MpSystem n) (i : Fin n) (call : InsertCall) (tempCmd : Command) :
    Option (MpSystem n) :=
  let server := s.servers i
  (recordCommand server.store call.origCmd tempCmd call.currIdx).map fun
    | .own st origCmd => s.advance i
        { server with store := st, call := some { call with origCmd, phase := .returned } }
        [.returned i call.key call.currIdx origCmd.commandId,
          .recorded i call.key call.currIdx origCmd.content,
          .accepted i call.key call.currIdx origCmd false]
    | .retry origCmd => s.advance i
        { server with call := some { call with origCmd, phase := .roundStart } } []
    | .defeated st origCmd currIdx => s.advance i
        { server with store := st, call := some { call with origCmd, currIdx, phase := .roundStart } }
        [.recorded i call.key call.currIdx tempCmd.content,
          .accepted i call.key call.currIdx tempCmd false]

/-- `mp_mutex` lets a server run one client request at a time. -/
def mpStep (s : MpSystem n) : MpAction n → Option (MpSystem n)
  | .insertCommand i request rand types =>
    let server := s.servers i
    match server.call with
    | some _ => none
    | none => (insertCommandStart server.store request rand types).map fun (st, call) =>
        s.advance i { server with store := st, call := some call }
          [.called i request call.origCmd.commandId]
  | .startRound i =>
    match (s.servers i).call with
    | some call => match call.phase with
      | .roundStart => startRoundStep s i call
      | _ => none
    | none => none
  | .handle k u => handleStep s k u
  | .finishPrepare i order junk =>
    match (s.servers i).call with
    | some call => match call.phase with
      | .preparing round _ => finishPrepareStep s i call round order junk
      | _ => none
    | none => none
  | .finishAccept i order junk =>
    match (s.servers i).call with
    | some call => match call.phase with
      | .accepting round acceptCall sentCmd =>
        finishAcceptStep s i call round acceptCall sentCmd order junk
      | _ => none
    | none => none
  | .finish i =>
    match (s.servers i).call with
    | some call => match call.phase with
      | .proposed _ tempCmd => finishStep s i call tempCmd
      | _ => none
    | none => none
  | .answer i =>
    let server := s.servers i
    match server.call with
    | some call => match call.phase with
      | .returned => (mpAnswer server.store call.request call.currIdx).map fun (st, reply) =>
          s.advance i { server with store := st, call := none }
            [.answered i call.request call.currIdx reply]
      | _ => none
    | none => none

end Step

end KeyValueStore
