import KeyValueStore.BinaryHeap
import KeyValueStore.CausalBroadcast
import KeyValueStore.Commons
import Mathlib.Data.List.FinRange
import Mathlib.Data.Fintype.Pi

/-! One CM server: the branch of the client handler, the two queues, and the
steps of the threads that send and apply messages. `n` is the number of servers,
and with it `serverlist_size` and every `vecclk_sz`. -/

namespace KeyValueStore

/-- `cm_message_request_t`. The entries of a clock are `int`s that count writes from 0
up; no step makes one greater than `intMax`. -/
structure CmMessageRequest (n : ℕ) where
  nodenum : Fin n
  key : Bytes
  value : Bytes
  vecClk : Fin n → ℕ

instance {n : ℕ} : DecidableEq (CmMessageRequest n) := fun a b =>
  decidable_of_iff
    (a.nodenum = b.nodenum ∧ a.key = b.key ∧ a.value = b.value ∧ a.vecClk = b.vecClk)
    (by cases a; cases b; simp)

/-- What `cm_ks_map` holds. The tag is left out, which CM never reads. -/
structure CmValue where
  key : Bytes
  value : Bytes
  deriving DecidableEq, Repr

abbrev CmKsMap := Bytes → Option CmValue

section Comparator

variable {n : ℕ}

/-- One turn of the loop over `m1_strictly_smaller` and `count`. -/
def vectclkTurn (m1 m2 : CmMessageRequest n) (r : Bool × ℕ) (i : Fin n) : Bool × ℕ :=
  if m2.vecClk i ≤ m1.vecClk i then (false, r.2 + 1) else r

/-- `true` when `m1` comes after `m2`. -/
def vectclkComparator (m1 m2 : CmMessageRequest n) : Bool :=
  let r := (List.finRange n).foldl (vectclkTurn m1 m2) (true, 0)
  if r.1 then false
  else if r.2 = n then true
  else false

end Comparator

/-- Where `cm_internal_processing_thread` stands, with the message it fetched:
tested with success, written to the store, taken from the queue. -/
inductive CmThread (n : ℕ)
  | idle
  | fetched (req : CmMessageRequest n)
  | ready (req : CmMessageRequest n)
  | applied (req : CmMessageRequest n)
  | popped (req : CmMessageRequest n)

def CmThread.isIdle {n : ℕ} : CmThread n → Bool
  | .idle => true
  | _ => false

/-- The globals of a server. `sending` is the message that `cm_sending_thread`
is sending, with the servers that it has yet to reach. -/
structure CmNode (n : ℕ) where
  cmKsMap : CmKsMap
  t : Fin n → ℕ
  cmMessageOutqueue : List (CmMessageRequest n)
  cmMessagePq : List (CmMessageRequest n)
  sending : Option (CmMessageRequest n × List (Fin n))
  thread : CmThread n

section Handler

variable {n : ℕ}

def cmReadReply (ks : CmKsMap) (request : KeyStoreRequest) : KeyStoreResponse :=
  match (if request.key = sentinelKey then none else ks (cStr request.key)) with
  | some v => { code := .ok, protocol := .cm, key := v.key, value := v.value }
  | none => { code := .error, protocol := .cm }

/-- The entry that a WRITE leaves. An entry that was there keeps its key. -/
def cmWrittenValue (request : KeyStoreRequest) : Option CmValue → CmValue
  | some old => { old with value := request.value }
  | none => ⟨request.key, request.value⟩

def enqueueInOutgoingQueue (mynodenumber : Fin n) (req : CmValue) (node : CmNode n) : CmNode n :=
  { node with
    cmMessageOutqueue := node.cmMessageOutqueue ++ [⟨mynodenumber, req.key, req.value, node.t⟩] }

/-- A WRITE; undefined when the server's own entry of its clock overflows. -/
def cmWrite (mynodenumber : Fin n) (request : KeyStoreRequest) (node : CmNode n) :
    Option (CmNode n) :=
  let v := cmWrittenValue request (node.cmKsMap (cStr request.key))
  (intSucc? (node.t mynodenumber)).map fun next =>
    enqueueInOutgoingQueue mynodenumber v
      { node with
        cmKsMap := Function.update node.cmKsMap (cStr request.key) (some v)
        t := Function.update node.t mynodenumber next }

/-- The CM branch of `KeyStoreRequestHandler`. -/
def cmHandler (mynodenumber : Fin n) (request : KeyStoreRequest) (node : CmNode n) :
    Option (CmNode n × KeyStoreResponse) :=
  match request.type with
  | .read => some (node, cmReadReply node.cmKsMap request)
  | .write =>
    (cmWrite mynodenumber request node).map fun node => (node, { code := .ok, protocol := .cm })
  | _ => some (node, { protocol := .cm })

/-- What a WRITE that is defined makes of the server. -/
def cmWritten (mynodenumber : Fin n) (request : KeyStoreRequest) (node : CmNode n) : CmNode n :=
  let v := cmWrittenValue request (node.cmKsMap (cStr request.key))
  enqueueInOutgoingQueue mynodenumber v
    { node with
      cmKsMap := Function.update node.cmKsMap (cStr request.key) (some v)
      t := Function.update node.t mynodenumber (node.t mynodenumber + 1) }

theorem cmWrite_eq_some {mynodenumber : Fin n} {request : KeyStoreRequest} {node node' : CmNode n} :
    cmWrite mynodenumber request node = some node' ↔
      node.t mynodenumber < intMax ∧ node' = cmWritten mynodenumber request node := by
  simp only [cmWrite, Option.map_eq_some_iff, intSucc?_eq_some]
  constructor
  · rintro ⟨_, ⟨hlt, rfl⟩, rfl⟩
    exact ⟨hlt, rfl⟩
  · rintro ⟨hlt, rfl⟩
    exact ⟨_, ⟨hlt, rfl⟩, rfl⟩

def cmWrittenMessage (mynodenumber : Fin n) (request : KeyStoreRequest) (node : CmNode n) :
    CmMessageRequest n :=
  let v := cmWrittenValue request (node.cmKsMap (cStr request.key))
  ⟨mynodenumber, v.key, v.value, Function.update node.t mynodenumber (node.t mynodenumber + 1)⟩

def cmRequestHandler (request : CmMessageRequest n) (node : CmNode n) : CmNode n :=
  { node with cmMessagePq := BinaryHeap.push vectclkComparator node.cmMessagePq request }

end Handler

section Threads

variable {n : ℕ}

def allButJ (t : Fin n → ℕ) (req : CmMessageRequest n) : Bool :=
  (List.finRange n).all fun i => !(decide (i ≠ req.nodenum) && decide (t i < req.vecClk i))

/-- The delivery test of `cm_internal_processing_thread`; undefined when it comes to
`t[nodenum] + 1` and that overflows. -/
def frontReady (t : Fin n → ℕ) (req : CmMessageRequest n) : Option Bool :=
  if allButJ t req then
    (intSucc? (t req.nodenum)).map fun next => req.vecClk req.nodenum == next
  else some false

def applyToStore (ks : CmKsMap) (req : CmMessageRequest n) : CmKsMap :=
  Function.update ks (cStr req.key) (some ⟨req.key, req.value⟩)

/-- The next step of `cm_internal_processing_thread`. -/
def cmInternalProcessingThread (node : CmNode n) : Option (CmNode n) :=
  match node.thread with
  | .idle => node.cmMessagePq.head?.map fun req => { node with thread := .fetched req }
  | .fetched req =>
    (frontReady node.t req).map fun ready =>
      { node with thread := if ready then .ready req else .idle }
  | .ready req =>
    some { node with cmKsMap := applyToStore node.cmKsMap req, thread := .applied req }
  | .applied req =>
    some { node with
      cmMessagePq := BinaryHeap.pop vectclkComparator node.cmMessagePq, thread := .popped req }
  | .popped req =>
    some { node with
      t := Function.update node.t req.nodenum (req.vecClk req.nodenum), thread := .idle }

/-- `cm_sending_thread` takes the front of the queue and sends it to the others. -/
def cmSendFront (mynodenumber : Fin n) (node : CmNode n) : Option (CmNode n) :=
  match node.sending, node.cmMessageOutqueue.head? with
  | none, some req =>
    some { node with sending := some (req, (List.finRange n).filter (· ≠ mynodenumber)) }
  | _, _ => none

/-- `cm_sending_thread` once all the others have answered. -/
def cmSent (node : CmNode n) : Option (CmNode n) :=
  match node.sending with
  | some (_, []) =>
    some { node with cmMessageOutqueue := node.cmMessageOutqueue.tail, sending := none }
  | _ => none

end Threads

section Clocks

variable {n : ℕ} {m1 m2 : CmMessageRequest n}

def cmStamping (n : ℕ) : Stamping (Fin n) (CmMessageRequest n) :=
  ⟨CmMessageRequest.nodenum, CmMessageRequest.vecClk⟩

theorem vectclkTurn_foldl (m1 m2 : CmMessageRequest n) (l : List (Fin n)) (r : Bool × ℕ) :
    l.foldl (vectclkTurn m1 m2) r =
      (r.1 && l.all (fun i => !decide (m2.vecClk i ≤ m1.vecClk i)),
        r.2 + l.countP (fun i => decide (m2.vecClk i ≤ m1.vecClk i))) := by
  induction l generalizing r with
  | nil => simp
  | cons i l ih =>
    rw [List.foldl_cons, ih]
    by_cases hi : m2.vecClk i ≤ m1.vecClk i
    · simp [vectclkTurn, hi, Nat.add_assoc, Nat.add_comm]
    · simp [vectclkTurn, hi]

theorem vectclkComparator_iff : vectclkComparator m1 m2 = true ↔ m2.vecClk ≤ m1.vecClk := by
  have hcount : (List.finRange n).countP (fun i => decide (m2.vecClk i ≤ m1.vecClk i)) = n ↔
      ∀ i, m2.vecClk i ≤ m1.vecClk i := by
    have := List.countP_eq_length (p := fun i => decide (m2.vecClk i ≤ m1.vecClk i))
      (l := List.finRange n)
    simpa [List.length_finRange] using this
  simp only [vectclkComparator, vectclkTurn_foldl, Bool.true_and, Nat.zero_add, hcount]
  rw [Pi.le_def]
  constructor
  · intro h
    split at h
    · simp at h
    · split at h
      next hall => exact hall
      next => simp at h
  · intro hall
    have hsome : (List.finRange n).all (fun i => !decide (m2.vecClk i ≤ m1.vecClk i)) = false := by
      rw [List.all_eq_false]
      exact ⟨m1.nodenum, List.mem_finRange _, by simp [hall m1.nodenum]⟩
    rw [if_neg (by simp [hsome]), if_pos hall]

theorem allButJ_iff {t : Fin n → ℕ} {req : CmMessageRequest n} :
    allButJ t req = true ↔ ∀ k, k ≠ req.nodenum → req.vecClk k ≤ t k := by
  simp [allButJ, or_iff_not_imp_left]

theorem deliverable_of_frontReady {t : Fin n → ℕ} {req : CmMessageRequest n}
    (h : frontReady t req = some true) : (cmStamping n).Deliverable t req := by
  unfold frontReady at h
  split at h
  next hall =>
    obtain ⟨next, hnext, he⟩ := Option.map_eq_some_iff.mp h
    obtain ⟨_, rfl⟩ := intSucc?_eq_some.mp hnext
    exact ⟨allButJ_iff.mp hall, beq_iff_eq.mp he⟩
  next => simp at h

theorem frontReady_iff {t : Fin n → ℕ} {req : CmMessageRequest n} (hmax : t req.nodenum < intMax) :
    frontReady t req = some true ↔ (cmStamping n).Deliverable t req := by
  refine ⟨deliverable_of_frontReady, fun h => ?_⟩
  have hnext : intSucc? (t req.nodenum) = some (req.vecClk req.nodenum) :=
    intSucc?_eq_some.mpr ⟨hmax, h.2⟩
  rw [frontReady, if_pos (allButJ_iff.mpr h.1), hnext, Option.map_some, beq_self_eq_true]

theorem frontReady_isSome {t : Fin n → ℕ} {req : CmMessageRequest n}
    (hmax : t req.nodenum < intMax) : ∃ ready, frontReady t req = some ready := by
  have hnext : intSucc? (t req.nodenum) = some (t req.nodenum + 1) :=
    intSucc?_eq_some.mpr ⟨hmax, rfl⟩
  unfold frontReady
  split <;> simp [hnext]

end Clocks

end KeyValueStore
