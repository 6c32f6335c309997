import KeyValueStore.PaxosSteps

/-! One Multi-Paxos server on its own. What the other servers, the clients and the
scheduler do is the list of its inputs. -/

namespace KeyValueStore

inductive ServerInput
  | insertCommand (request : KeyStoreRequest) (rand : UInt32) (types : ℕ → RequestType)
  | startRound
  | handle (u : Uninit) (request : PaxosRequest)
  | finishPrepare (vec : List Command) (junk : Command)
  | finishAccept (vec : List Command) (junk : Command)
  | finish
  | answer

inductive ServerOutput
  | silent
  | replied (reply : PaxosResponse)
  | answered (reply : KeyStoreResponse)
  deriving DecidableEq

namespace MpServer

def insertCommand (s : MpServer) (request : KeyStoreRequest) (rand : UInt32)
    (types : ℕ → RequestType) : Option MpServer :=
  (insertCommandStart s.store request rand types).map fun (st, call) =>
    { s with store := st, call := some call }

def startRound (s : MpServer) (call : InsertCall) : Option MpServer :=
  let origCmd := { call.origCmd with mpReqType := .prepare }
  (updateLocalValues s.store origCmd).map fun st =>
    { store := st
      broadcasts := s.broadcasts ++ [makeMpRequestPayload origCmd]
      call := some { call with
        origCmd
        phase := .preparing s.broadcasts.length (s.store.vote call.key call.currIdx) } }

def finishPrepare (s : MpServer) (call : InsertCall) (round : ℕ) (vec : List Command)
    (junk : Command) : Option MpServer :=
  (getHighestAcceptedProposal junk vec true).map fun tempCmd =>
    match commandToSend call.origCmd tempCmd with
    | none =>
      { s with call := some { call with
          origCmd := call.origCmd.withAcceptedNum tempCmd.acceptedProposal.proposalNum
          phase := .roundStart } }
    | some sentCmd =>
      { s with
        broadcasts := s.broadcasts ++ [makeMpRequestPayload sentCmd]
        call := some { call with phase := .accepting round s.broadcasts.length sentCmd } }

def finishAccept (s : MpServer) (call : InsertCall) (round : ℕ) (sentCmd : Command)
    (vec : List Command) (junk : Command) : Option MpServer :=
  (acceptPhase call.origCmd sentCmd junk vec).map fun proposed =>
    { s with call := some (call.afterAccept round proposed) }

def finish (s : MpServer) (call : InsertCall) (tempCmd : Command) : Option MpServer :=
  (recordCommand s.store call.origCmd tempCmd call.currIdx).map fun
    | .own st origCmd =>
      { s with store := st, call := some { call with origCmd, phase := .returned } }
    | .retry origCmd => { s with call := some { call with origCmd, phase := .roundStart } }
    | .defeated st origCmd currIdx =>
      { s with store := st, call := some { call with origCmd, currIdx, phase := .roundStart } }

def duringCall (s : MpServer) (call : InsertCall) : ServerInput → Option (MpServer × ServerOutput)
  | .startRound => match call.phase with
    | .roundStart => (s.startRound call).map (·, .silent)
    | _ => none
  | .finishPrepare vec junk => match call.phase with
    | .preparing round _ => (s.finishPrepare call round vec junk).map (·, .silent)
    | _ => none
  | .finishAccept vec junk => match call.phase with
    | .accepting round _ sentCmd => (s.finishAccept call round sentCmd vec junk).map (·, .silent)
    | _ => none
  | .finish => match call.phase with
    | .proposed _ tempCmd => (s.finish call tempCmd).map (·, .silent)
    | _ => none
  | .answer => match call.phase with
    | .returned => (mpAnswer s.store call.request call.currIdx).map fun (st, reply) =>
        ({ s with store := st, call := none }, .answered reply)
    | _ => none
  | _ => none

end MpServer

/-- Requests of other servers are handled at any time, the rest follows the one call. -/
def serverStep (s : MpServer) : ServerInput → Option (MpServer × ServerOutput)
  | .handle u request => (paxosRequestHandler u s.store request).map fun (st, reply) =>
      ({ s with store := st }, .replied reply)
  | .insertCommand request rand types =>
    match s.call with
    | none => (s.insertCommand request rand types).map (·, .silent)
    | some _ => none
  | input =>
    match s.call with
    | none => none
    | some call => s.duringCall call input

section System

variable {n : ℕ} {s t : MpSystem n}

theorem handle_serverStep {k : ℕ} {u : Uninit} (h : handleStep s k u = some t) :
    ∃ i input out, serverStep (s.servers i) input = some (t.servers i, out) ∧
      ∀ j ≠ i, t.servers j = s.servers j := by
  obtain ⟨rpc, hk, h⟩ := Option.bind_eq_some_iff.mp h
  obtain ⟨request, hreq, h⟩ := Option.bind_eq_some_iff.mp h
  obtain ⟨⟨st, reply⟩, hh, rfl⟩ := Option.map_eq_some_iff.mp h
  refine ⟨rpc.dst, .handle u request, .replied reply, ?_, fun j hj => ?_⟩
  · rw [serverStep, hh, MpSystem.handled_servers, if_pos rfl]
    rfl
  · rw [MpSystem.handled_servers, if_neg hj]

/-- Each step of the system is a step of one server. -/
theorem mpStep_serverStep {a : MpAction n} (h : mpStep s a = some t) :
    ∃ i input out, serverStep (s.servers i) input = some (t.servers i, out) ∧
      ∀ j ≠ i, t.servers j = s.servers j := by
  cases a with
  | insertCommand i request rand types =>
    simp only [mpStep] at h
    split at h
    next => simp at h
    next hidle =>
      obtain ⟨⟨st, call⟩, hstart, rfl⟩ := Option.map_eq_some_iff.mp h
      refine ⟨i, .insertCommand request rand types, .silent, ?_, fun j hj => by simp [hj]⟩
      simp [serverStep, hidle, MpServer.insertCommand, hstart]
  | handle k u => exact handle_serverStep h
  | startRound i =>
    simp only [mpStep] at h
    split at h
    next call hcall =>
      split at h
      next hphase =>
        obtain ⟨st, hst, rfl⟩ := Option.map_eq_some_iff.mp h
        refine ⟨i, .startRound, .silent, ?_, fun j hj => by simp [hj]⟩
        simp [serverStep, MpServer.duringCall, MpServer.startRound, hcall, hphase, hst]
      next => simp at h
    next => simp at h
  | finishPrepare i order junk =>
    simp only [mpStep] at h
    split at h
    next call hcall =>
      split at h
      next round own hphase =>
        obtain ⟨vec, hvec, h⟩ := Option.bind_eq_some_iff.mp h
        obtain ⟨tempCmd, htemp, rfl⟩ := Option.map_eq_some_iff.mp h
        refine ⟨i, .finishPrepare vec junk, .silent, ?_, fun j hj => ?_⟩
        · cases hsend : commandToSend call.origCmd tempCmd <;>
            simp [serverStep, MpServer.duringCall, MpServer.finishPrepare, hcall, hphase, htemp,
              hsend]
        · cases hsend : commandToSend call.origCmd tempCmd <;> simp [hj]
      next => simp at h
    next => simp at h
  | finishAccept i order junk =>
    simp only [mpStep] at h
    split at h
    next call hcall =>
      split at h
      next round acceptCall sentCmd hphase =>
        obtain ⟨vec, hvec, h⟩ := Option.bind_eq_some_iff.mp h
        obtain ⟨proposed, hproposed, rfl⟩ := Option.map_eq_some_iff.mp h
        refine ⟨i, .finishAccept vec junk, .silent, ?_, fun j hj => by simp [hj]⟩
        simp [serverStep, MpServer.duringCall, MpServer.finishAccept, hcall, hphase, hproposed]
      next => simp at h
    next => simp at h
  | finish i =>
    simp only [mpStep] at h
    split at h
    next call hcall =>
      split at h
      next round tempCmd hphase =>
        obtain ⟨r, hr, rfl⟩ := Option.map_eq_some_iff.mp h
        refine ⟨i, .finish, .silent, ?_, fun j hj => ?_⟩
        · cases r <;>
            simp [serverStep, MpServer.duringCall, MpServer.finish, hcall, hphase, hr]
        · cases r <;> simp [hj]
      next => simp at h
    next => simp at h
  | answer i =>
    simp only [mpStep] at h
    split at h
    next call hcall =>
      split at h
      next hphase =>
        obtain ⟨⟨st, reply⟩, hans, rfl⟩ := Option.map_eq_some_iff.mp h
        refine ⟨i, .answer, .answered reply, ?_, fun j hj => by simp [hj]⟩
        simp [serverStep, MpServer.duringCall, hcall, hphase, hans]
      next => simp at h
    next => simp at h

end System

end KeyValueStore
