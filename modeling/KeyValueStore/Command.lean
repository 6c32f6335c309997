import KeyValueStore.Commons

/-! Multi-Paxos proposals, commands and their messages. Proposals are ordered
by number and then by client, as the acceptor's promise compares them. -/

namespace KeyValueStore

structure Proposal where
  proposalClientId : Int32
  proposalNum : Int32
  deriving DecidableEq, Repr

namespace Proposal

def rank (p : Proposal) : ℤ ×ₗ ℤ := toLex (p.proposalNum.toInt, p.proposalClientId.toInt)

theorem rank_injective : Function.Injective rank := by
  intro p q h
  simp only [rank, EmbeddingLike.apply_eq_iff_eq, Prod.mk.injEq, Int32.toInt_inj] at h
  cases p
  cases q
  simp_all

instance : LinearOrder Proposal := LinearOrder.lift' rank rank_injective

theorem lt_iff {p q : Proposal} : p < q ↔ p.proposalNum < q.proposalNum ∨
    p.proposalNum = q.proposalNum ∧ p.proposalClientId < q.proposalClientId := by
  change p.rank < q.rank ↔ _
  rw [rank, rank, Prod.Lex.toLex_lt_toLex]
  simp [Int32.lt_iff_toInt_lt, Int32.toInt_inj]

theorem le_iff {p q : Proposal} : p ≤ q ↔ p.proposalNum < q.proposalNum ∨
    p.proposalNum = q.proposalNum ∧ p.proposalClientId ≤ q.proposalClientId := by
  change p.rank ≤ q.rank ↔ _
  rw [rank, rank, Prod.Lex.toLex_le_toLex]
  simp [Int32.lt_iff_toInt_lt, Int32.le_iff_toInt_le, Int32.toInt_inj]

theorem num_le_of_le {p q : Proposal} (h : p ≤ q) : p.proposalNum ≤ q.proposalNum := by
  rcases le_iff.mp h with h | h
  · exact Int32.le_of_lt h
  · exact Int32.le_of_eq h.1

/-- The proposal of a slot that nobody has promised or accepted. -/
def unset : Proposal := ⟨-1, -1⟩

end Proposal

/-- `x + 1` of an `int`; the overflow is undefined in the source. -/
def Int32.succ? (x : Int32) : Option Int32 := if x < Int32.maxValue then some (x + 1) else none

inductive MpRequestType
  | prepare
  | accept
  deriving DecidableEq, Repr

/-- `command_t`. Each pointer and its size are one byte string. -/
structure Command where
  mpReqType : MpRequestType
  commandType : RequestType
  code : ReturnCode
  commandId : UInt32
  index : UInt32
  key : Bytes
  value : Bytes
  minProposalNum : Proposal
  acceptedProposal : Proposal
  deriving DecidableEq, Repr

inductive PaxosCommandType
  | read
  | write
  deriving DecidableEq, Repr

structure PaxosRequest where
  mptype : MpRequestType
  commandType : PaxosCommandType
  proposalClientId : Int32
  proposalNum : Int32
  key : Bytes
  value : Bytes
  index : UInt32
  commandId : UInt32
  deriving DecidableEq, Repr

/-- Unset fields hold the protobuf defaults; the proposal travels unsigned. -/
structure PaxosResponse where
  code : ReturnCode := .ack
  commandType : PaxosCommandType := .read
  proposalClientId : UInt32 := 0
  proposalNum : UInt32 := 0
  key : Bytes := []
  value : Bytes := []
  index : UInt32 := 0
  commandId : UInt32 := 0
  deriving DecidableEq, Repr

/-- The switch that fills `commandType` in requests and replies; a query type
leaves the field unset, which protobuf reads as READ. -/
def setCommandType : RequestType → PaxosCommandType
  | .write => .write
  | _ => .read

def getCCommandType : PaxosCommandType → RequestType
  | .read => .read
  | .write => .write

def makeMpRequestPayload (c : Command) : PaxosRequest where
  mptype := c.mpReqType
  commandType := setCommandType c.commandType
  proposalClientId := c.acceptedProposal.proposalClientId
  proposalNum := c.acceptedProposal.proposalNum
  key := c.key
  value := c.value
  index := c.index
  commandId := c.commandId

/-- `code` is left unset by the source and never read. -/
def extractRequestPayloadToCommand (request : PaxosRequest) : Command where
  mpReqType := request.mptype
  commandType := getCCommandType request.commandType
  code := .ack
  commandId := request.commandId
  index := request.index
  key := request.key
  value := request.value
  minProposalNum := .unset
  acceptedProposal := ⟨request.proposalClientId, request.proposalNum⟩

/-- `mp_req_type` is left unset by the source; `propose` sets it before use. -/
def extractResponseFromPayload (response : PaxosResponse) : Command where
  mpReqType := .prepare
  commandType := getCCommandType response.commandType
  code := response.code
  commandId := response.commandId
  index := response.index
  key := response.key
  value := response.value
  minProposalNum := ⟨response.proposalClientId.toInt32, response.proposalNum.toInt32⟩
  acceptedProposal := ⟨response.proposalClientId.toInt32, response.proposalNum.toInt32⟩

/-- What a client asked for: the part of a command that consensus is about. -/
structure Content where
  commandId : UInt32
  commandType : RequestType
  key : Bytes
  value : Bytes
  deriving DecidableEq, Repr

def Command.content (c : Command) : Content := ⟨c.commandId, c.commandType, c.key, c.value⟩

/-- The command type as it arrives after a hop. -/
def wireType (t : RequestType) : RequestType := getCCommandType (setCommandType t)

@[simp] theorem wireType_wireType (t : RequestType) : wireType (wireType t) = wireType t := by
  cases t <;> rfl

@[simp] theorem wireType_getCCommandType (t : PaxosCommandType) :
    wireType (getCCommandType t) = getCCommandType t := by
  cases t <;> rfl

theorem wireType_eq {t : RequestType} (h : t = .read ∨ t = .write) : wireType t = t := by
  rcases h with rfl | rfl <;> rfl

/-- A request loses nothing of the command but what the acceptor must not see:
its own promise. -/
theorem extract_make (c : Command) : extractRequestPayloadToCommand (makeMpRequestPayload c) =
    { c with commandType := wireType c.commandType, code := .ack, minProposalNum := .unset } := rfl

end KeyValueStore
