import KeyValueStore.AbdStore
import KeyValueStore.Execution
import KeyValueStore.Quorum

/-! The ABD replicas and their clients. An operation is a call of `put` or `get`
and is named by its place among all calls; each of its two phases sends one
request to every replica. The history only records calls and returns, newest
first. -/

namespace KeyValueStore

/-- Where a call of `put` or `get` stands. The tag of a call that returned is
kept for the statements only. -/
inductive AbdPhase
  | query
  | write (tag : Tag) (value : Bytes)
  | returned (tag : Tag) (result : Option Bytes)
  deriving DecidableEq

/-- A call: of `put` with its value, or of `get`. -/
structure AbdOp where
  client : UInt32
  key : Bytes
  put : Option Bytes
  phase : AbdPhase
  deriving DecidableEq

namespace AbdOp

def tag? (op : AbdOp) : Option Tag :=
  match op.phase with
  | .query => none
  | .write tag _ => some tag
  | .returned tag _ => some tag

def done (op : AbdOp) : Bool :=
  match op.phase with
  | .returned _ _ => true
  | _ => false

def queryRequest (op : AbdOp) : KeyStoreRequest :=
  ClientLib.makeReqPayload
    ⟨if op.put = none then .readQuery else .writeQuery, .abd, ⟨0, op.client⟩, op.key, []⟩

def writeRequest (op : AbdOp) (tag : Tag) (value : Bytes) : KeyStoreRequest :=
  ClientLib.makeReqPayload ⟨.write, .abd, tag, op.key, value⟩

end AbdOp

structure AbdCall (n : ℕ) where
  op : ℕ
  second : Bool
  dst : Fin n
  request : KeyStoreRequest
  deriving DecidableEq

inductive AbdEvent
  | invoked (i : ℕ)
  | returned (i : ℕ)
  deriving DecidableEq

structure AbdSystem (n : ℕ) where
  replicas : Fin n → KsMap
  ops : List AbdOp
  calls : List (AbdCall n)
  replies : List (AbdCall n × KeyStoreResponse)
  history : List AbdEvent

inductive AbdAction (n : ℕ)
  | invoke (client : UInt32) (key : Bytes) (put : Option Bytes)
  | deliver (k : ℕ)
  | finishQuery (i : ℕ) (order : List (Fin n))
  | finishWrite (i : ℕ) (order : List (Fin n))

namespace AbdSystem

variable {n : ℕ}

def init : AbdSystem n := ⟨fun _ => abdStart, [], [], [], []⟩

/-- `send_message_to_all_server` up to the wait. -/
def send (s : AbdSystem n) (i : ℕ) (second : Bool) (request : KeyStoreRequest) : AbdSystem n :=
  { s with calls := s.calls ++ (List.finRange n).map (fun a => ⟨i, second, a, request⟩) }

def setOp (s : AbdSystem n) (i : ℕ) (op : AbdOp) : AbdSystem n := { s with ops := s.ops.set i op }

def invokes (s : AbdSystem n) (op : AbdOp) : AbdSystem n :=
  { s with ops := s.ops ++ [op], history := .invoked s.ops.length :: s.history }

def returns (s : AbdSystem n) (i : ℕ) (op : AbdOp) : AbdSystem n :=
  { s with ops := s.ops.set i op, history := .returned i :: s.history }

def delivered (s : AbdSystem n) (k : ℕ) (call : AbdCall n) (ks : KsMap)
    (reply : KeyStoreResponse) : AbdSystem n :=
  { s with
    replicas := Function.update s.replicas call.dst ks
    calls := s.calls.eraseIdx k
    replies := (call, reply) :: s.replies }

def replyFrom (s : AbdSystem n) (i : ℕ) (second : Bool) (a : Fin n) : Option ClientLib.Response :=
  (s.replies.find? (fun r => r.1.op = i ∧ r.1.second = second ∧ r.1.dst = a)).map
    (fun r => ClientLib.extractResponseFromPayload r.2)

/-- The wait of `send_message_to_all_server`: the responses in the order in
which they were collected, once they are a majority. -/
def collect (s : AbdSystem n) (i : ℕ) (second : Bool) (order : List (Fin n)) :
    Option (List ClientLib.Response) :=
  if order.Nodup ∧ n / 2 + 1 ≤ order.length ∧ ∀ a ∈ order, (s.replyFrom i second a).isSome then
    some (order.filterMap (s.replyFrom i second))
  else none

end AbdSystem

section Step

variable {n : ℕ} {s t : AbdSystem n}

def finishQueryStep (s : AbdSystem n) (i : ℕ) (op : AbdOp) (order : List (Fin n)) :
    Option (AbdSystem n) :=
  (s.collect i false order).bind fun vec =>
  (ClientLib.findMajorityTag vec).map fun maxResp =>
    match op.put with
    | some value =>
      let tag := ⟨maxResp.tag.integer + 1, op.client⟩
      (s.setOp i { op with phase := .write tag value }).send i true (op.writeRequest tag value)
    | none =>
      if maxResp.value ≠ [] then
        (s.setOp i { op with phase := .write maxResp.tag maxResp.value }).send i true
          (op.writeRequest maxResp.tag maxResp.value)
      else s.returns i { op with phase := .returned maxResp.tag none }

/-- A client makes its next call when its last one returned. -/
def abdStep (s : AbdSystem n) : AbdAction n → Option (AbdSystem n)
  | .invoke client key put =>
    let op : AbdOp := ⟨client, key, put, .query⟩
    if ∀ op ∈ s.ops, op.client = client → op.done then
      some ((s.invokes op).send s.ops.length false op.queryRequest)
    else none
  | .deliver k =>
    s.calls[k]?.bind fun call =>
      (abdHandler (s.replicas call.dst) call.request).map fun (ks, reply) =>
        s.delivered k call ks reply
  | .finishQuery i order =>
    s.ops[i]?.bind fun op =>
      match op.phase with
      | .query => finishQueryStep s i op order
      | _ => none
  | .finishWrite i order =>
    s.ops[i]?.bind fun op =>
      match op.phase with
      | .write tag value => (s.collect i true order).map fun _ =>
          s.returns i { op with
            phase := .returned tag (if op.put = none then some value else none) }
      | _ => none

inductive AbdSteps (s : AbdSystem n) : AbdAction n → AbdSystem n → Prop
  | invoke {client : UInt32} {key : Bytes} {put : Option Bytes} {op : AbdOp}
      (hidle : ∀ op ∈ s.ops, op.client = client → op.done) (hop : op = ⟨client, key, put, .query⟩) :
      AbdSteps s (.invoke client key put)
        ((s.invokes op).send s.ops.length false op.queryRequest)
  | deliver {k : ℕ} {call : AbdCall n} {ks : KsMap} {reply : KeyStoreResponse}
      (hcall : call ∈ s.calls)
      (hh : abdHandler (s.replicas call.dst) call.request = some (ks, reply)) :
      AbdSteps s (.deliver k) (s.delivered k call ks reply)
  | startWrite {i : ℕ} {op : AbdOp} {order : List (Fin n)} {vec : List ClientLib.Response}
      {maxResp : ClientLib.Response} {tag : Tag} {value : Bytes} (hop : s.ops[i]? = some op)
      (hphase : op.phase = .query) (hvec : s.collect i false order = some vec)
      (hmax : ClientLib.findMajorityTag vec = some maxResp)
      (hwrite : (op.put = some value ∧ tag = ⟨maxResp.tag.integer + 1, op.client⟩) ∨
        op.put = none ∧ value ≠ [] ∧ tag = maxResp.tag ∧ value = maxResp.value) :
      AbdSteps s (.finishQuery i order)
        ((s.setOp i { op with phase := .write tag value }).send i true (op.writeRequest tag value))
  | absent {i : ℕ} {op : AbdOp} {order : List (Fin n)} {vec : List ClientLib.Response}
      {maxResp : ClientLib.Response} (hop : s.ops[i]? = some op) (hphase : op.phase = .query)
      (hput : op.put = none) (hvec : s.collect i false order = some vec)
      (hmax : ClientLib.findMajorityTag vec = some maxResp) (hvalue : maxResp.value = []) :
      AbdSteps s (.finishQuery i order)
        (s.returns i { op with phase := .returned maxResp.tag none })
  | finishWrite {i : ℕ} {op : AbdOp} {order : List (Fin n)} {vec : List ClientLib.Response}
      {tag : Tag} {value : Bytes} (hop : s.ops[i]? = some op) (hphase : op.phase = .write tag value)
      (hvec : s.collect i true order = some vec) :
      AbdSteps s (.finishWrite i order) (s.returns i { op with
        phase := .returned tag (if op.put = none then some value else none) })

theorem finishQueryStep_steps {i : ℕ} {op : AbdOp} {order : List (Fin n)}
    (hop : s.ops[i]? = some op) (hphase : op.phase = .query)
    (h : finishQueryStep s i op order = some t) : AbdSteps s (.finishQuery i order) t := by
  obtain ⟨vec, hvec, h⟩ := Option.bind_eq_some_iff.mp h
  obtain ⟨maxResp, hmax, he⟩ := Option.map_eq_some_iff.mp h
  split at he
  next value hput => exact he ▸ .startWrite hop hphase hvec hmax (.inl ⟨hput, rfl⟩)
  next hput =>
    split at he
    next hvalue =>
      exact he ▸ .startWrite hop hphase hvec hmax (.inr ⟨hput, hvalue, rfl, rfl⟩)
    next hvalue => exact he ▸ .absent hop hphase hput hvec hmax (not_not.mp hvalue)

theorem abdStep_steps {a : AbdAction n} (h : abdStep s a = some t) : AbdSteps s a t := by
  cases a with
  | invoke client key put =>
    simp only [abdStep, Option.ite_none_right_eq_some, Option.some.injEq] at h
    obtain ⟨hidle, rfl⟩ := h
    exact .invoke hidle rfl
  | deliver k =>
    obtain ⟨call, hk, h⟩ := Option.bind_eq_some_iff.mp h
    obtain ⟨⟨ks, reply⟩, hh, rfl⟩ := Option.map_eq_some_iff.mp h
    exact .deliver (List.mem_of_getElem? hk) hh
  | finishQuery i order =>
    obtain ⟨op, hop, h⟩ := Option.bind_eq_some_iff.mp h
    split at h
    next hphase => exact finishQueryStep_steps hop hphase h
    next => simp at h
  | finishWrite i order =>
    obtain ⟨op, hop, h⟩ := Option.bind_eq_some_iff.mp h
    split at h
    next tag value hphase =>
      obtain ⟨vec, hvec, rfl⟩ := Option.map_eq_some_iff.mp h
      exact .finishWrite hop hphase hvec
    next => simp at h

namespace AbdSystem

theorem of_replyFrom {i : ℕ} {second : Bool} {a : Fin n} {r : ClientLib.Response}
    (h : s.replyFrom i second a = some r) : ∃ call reply, (call, reply) ∈ s.replies ∧
      call.op = i ∧ call.second = second ∧ call.dst = a ∧
        r = ClientLib.extractResponseFromPayload reply := by
  obtain ⟨⟨call, reply⟩, hfind, rfl⟩ := Option.map_eq_some_iff.mp h
  have hcall := List.find?_some hfind
  simp only [decide_eq_true_eq] at hcall
  exact ⟨call, reply, List.mem_of_find?_eq_some hfind, hcall.1, hcall.2.1, hcall.2.2, rfl⟩

theorem mem_of_collect {i : ℕ} {second : Bool} {order : List (Fin n)}
    {vec : List ClientLib.Response} (h : s.collect i second order = some vec)
    {r : ClientLib.Response} (hr : r ∈ vec) : ∃ call reply, (call, reply) ∈ s.replies ∧
      call.op = i ∧ call.second = second ∧ r = ClientLib.extractResponseFromPayload reply := by
  obtain ⟨a, _, he⟩ := (collected_spec h).2.2 r hr
  obtain ⟨call, reply, hreply, hop, hsecond, _, hr⟩ := of_replyFrom he
  exact ⟨call, reply, hreply, hop, hsecond, hr⟩

theorem collect_majority {i : ℕ} {second : Bool} {order : List (Fin n)}
    {vec : List ClientLib.Response} (h : s.collect i second order = some vec) :
    order.Nodup ∧ n / 2 + 1 ≤ order.length ∧ ∀ a ∈ order, ∃ call reply,
      (call, reply) ∈ s.replies ∧ call.op = i ∧ call.second = second ∧ call.dst = a ∧
        ClientLib.extractResponseFromPayload reply ∈ vec := by
  obtain ⟨⟨hnodup, hmaj⟩, hall, _⟩ := collected_spec h
  refine ⟨hnodup, hmaj, fun a ha => ?_⟩
  obtain ⟨r, hr, he⟩ := hall a ha
  obtain ⟨call, reply, hreply, hop, hsecond, hdst, rfl⟩ := of_replyFrom he
  exact ⟨call, reply, hreply, hop, hsecond, hdst, hr⟩

end AbdSystem

end Step

end KeyValueStore
