import Mathlib.Data.Int.Order.Basic
import Mathlib.Data.Prod.Lex
import Mathlib.Order.Basic

/-! The types shared by the three protocols. A buffer and its size are one list
of bytes; the map keys are C strings, the bytes before the first NUL. -/

namespace KeyValueStore

abbrev Bytes := List UInt8

/-- `string(p)` for a NUL-terminated buffer that holds these bytes. -/
def cStr (b : Bytes) : Bytes := b.takeWhile (· ≠ 0)

/-- The key "00000", which no READ finds. An ABD replica's entry under it stands
for all keys that it lacks. -/
def sentinelKey : Bytes := [48, 48, 48, 48, 48]

def initCommandLength : ℕ := 100000

/-- `INT_MAX`. -/
def intMax : ℕ := 2147483647

/-- `x + 1` for an `int` that counts up from 0; its overflow is undefined. -/
def intSucc? (x : ℕ) : Option ℕ := if x < intMax then some (x + 1) else none

theorem intSucc?_eq_some {x y : ℕ} : intSucc? x = some y ↔ x < intMax ∧ y = x + 1 := by
  simp [intSucc?, eq_comm]

inductive RequestType
  | readQuery
  | writeQuery
  | read
  | write
  deriving DecidableEq, Repr

inductive ReturnCode
  | ack
  | error
  | ok
  | nack
  | someNack
  deriving DecidableEq, Repr

inductive ProtocolType
  | cm
  | abd
  | mp
  deriving DecidableEq, Repr

structure Tag where
  integer : UInt32
  clientId : UInt32
  deriving DecidableEq, Repr

structure ValueT where
  tag : Tag
  key : Bytes
  value : Bytes
  deriving DecidableEq, Repr

/-- The sizes `keySz` and `valueSz` are the lengths of the byte fields, as
`make_req_payload` sets them. -/
structure KeyStoreRequest where
  type : RequestType
  protocol : ProtocolType
  integer : UInt32
  clientid : UInt32
  key : Bytes
  value : Bytes
  deriving DecidableEq, Repr

/-- Unset fields hold the protobuf defaults. -/
structure KeyStoreResponse where
  code : ReturnCode := .ack
  protocol : ProtocolType := .cm
  integer : UInt32 := 0
  clientid : UInt32 := 0
  key : Bytes := []
  value : Bytes := []
  deriving DecidableEq, Repr

section Servers

-- Servers are numbered by `Fin n`. Inference finds these two by paths that depend on
-- what a module imports; as instances of their own they are found alike everywhere.

instance lawfulBEqServer (n : ℕ) : LawfulBEq (Fin n) := inferInstance

instance threeServers : @NeZero ℕ Zero.ofOfNat0 3 := Nat.instNeZeroSucc

end Servers

end KeyValueStore
