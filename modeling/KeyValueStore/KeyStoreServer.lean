import KeyValueStore.AbdStore
import KeyValueStore.CmServer
import KeyValueStore.Footprint
import KeyValueStore.Proposer

/-! A whole server as its clients see it: the handler of client requests with
its three branches, and which map entries each branch reads and writes. -/

namespace KeyValueStore

structure KeyStoreServer (n : ℕ) where
  abdKsMap : KsMap
  cm : CmNode n
  mp : MpStore

section Insert

/-- What one round of `propose` meets: the replies collected in each phase, and
what the memory of a new `command_t` holds. -/
structure ProposeRound where
  prepared : List Command
  prepareJunk : Command
  accepted : List Command
  acceptJunk : Command

/-- One turn of the loop of `propose`, after `update_local_values`. -/
def proposeRound (origCmd : Command) (round : ProposeRound) : Option Proposed :=
  (getHighestAcceptedProposal round.prepareJunk round.prepared true).bind fun tempCmd =>
    match commandToSend origCmd tempCmd with
    | none => some (.again (origCmd.withAcceptedNum tempCmd.acceptedProposal.proposalNum))
    | some sentCmd => acceptPhase origCmd sentCmd round.acceptJunk round.accepted

/-- How a pass through the loops of `propose` and `insert_command` ends. -/
inductive Pass
  | again (origCmd : Command) (currIdx : ℕ)
  | inserted (currIdx : ℕ)

def recordPass (origCmd tempCmd : Command) (currIdx : ℕ) (st : MpStore) : Option (MpStore × Pass) :=
  (recordCommand st origCmd tempCmd currIdx).map fun
    | .own st _ => (st, .inserted currIdx)
    | .retry origCmd => (st, .again origCmd currIdx)
    | .defeated st origCmd currIdx => (st, .again origCmd currIdx)

def startPass (origCmd : Command) (st : MpStore) : Option (MpStore × Unit) :=
  (updateLocalValues st origCmd).map fun st => (st, ())

def finishPass (origCmd : Command) (currIdx : ℕ) : Proposed → MpStore → Option (MpStore × Pass)
  | .again origCmd, st => some (st, .again origCmd currIdx)
  | .decided tempCmd, st => recordPass origCmd tempCmd currIdx st

def insertPass (origCmd : Command) (currIdx : ℕ) (round : ProposeRound) (st : MpStore) :
    Option (MpStore × Pass) :=
  (startPass origCmd st).bind fun r =>
    (proposeRound origCmd round).bind fun proposed => finishPass origCmd currIdx proposed r.1

/-- The loops of `insert_command` and `propose` as one; a call that needs more
rounds than there are does not return. -/
def insertLoop : List ProposeRound → Pass → MpStore → Option (MpStore × ℕ)
  | _, .inserted currIdx, st => some (st, currIdx)
  | [], .again _ _, _ => none
  | round :: rounds, .again origCmd currIdx, st =>
    (insertPass { origCmd with mpReqType := .prepare } currIdx round st).bind fun r =>
      insertLoop rounds r.2 r.1

/-- What one call of the handler meets outside the server's own state. -/
structure MpOracle where
  rand : UInt32
  types : ℕ → RequestType
  rounds : List ProposeRound

def insertCommand (request : KeyStoreRequest) (oracle : MpOracle) (st : MpStore) :
    Option (MpStore × ℕ) :=
  (insertCommandStart st request oracle.rand oracle.types).bind fun r =>
    insertLoop oracle.rounds (.again r.2.origCmd r.2.currIdx) r.1

/-- The MP branch of `KeyStoreRequestHandler`. -/
def mpHandler (request : KeyStoreRequest) (oracle : MpOracle) (st : MpStore) :
    Option (MpStore × KeyStoreResponse) :=
  (insertCommand request oracle st).bind fun r => mpAnswer r.1 request r.2

end Insert

section Handler

variable {n : ℕ}

def keyStoreRequestHandler (mynodenumber : Fin n) (r : KeyStoreRequest × MpOracle)
    (s : KeyStoreServer n) : Option (KeyStoreServer n × KeyStoreResponse) :=
  match r.1.protocol with
  | .cm => (cmHandler mynodenumber r.1 s.cm).map fun a => ({ s with cm := a.1 }, a.2)
  | .abd => (abdHandler s.abdKsMap r.1).map fun a => ({ s with abdKsMap := a.1 }, a.2)
  | .mp => (mpHandler r.1 r.2 s.mp).map fun a => ({ s with mp := a.1 }, a.2)

def KeyStoreServer.start : KeyStoreServer n where
  abdKsMap := abdStart
  cm := ⟨fun _ => none, fun _ => 0, [], [], none, .idle⟩
  mp := .empty

end Handler

end KeyValueStore
