import KeyValueStore.CmServer
import KeyValueStore.Execution

/-! The CM servers. A step is a client's request, the sending thread taking or
dropping the front of its queue, a message arriving at one server, or one step of
a processing thread. The history records, newest first, which write became
readable at which server; the writes are named by their messages. -/

namespace KeyValueStore

/-- The request of `put` under CM. -/
def cmPut (id : UInt32) (key value : Bytes) : KeyStoreRequest := ⟨.write, .cm, 0, id, key, value⟩

structure CmSystem (n : ℕ) where
  nodes : Fin n → CmNode n
  exposed : List (Fin n × CmMessageRequest n)

inductive CmAction (n : ℕ)
  | request (i : Fin n) (request : KeyStoreRequest)
  | sendFront (k : Fin n)
  | arrive (k i : Fin n)
  | sent (k : Fin n)
  | process (i : Fin n)

namespace CmSystem

variable {n : ℕ}

def init : CmSystem n := ⟨fun _ => ⟨fun _ => none, fun _ => 0, [], [], none, .idle⟩, []⟩

def setNode (s : CmSystem n) (i : Fin n) (node : CmNode n) : CmSystem n :=
  { s with nodes := Function.update s.nodes i node }

def expose (s : CmSystem n) (i : Fin n) (m : CmMessageRequest n) : CmSystem n :=
  { s with exposed := (i, m) :: s.exposed }

/-- The write was executed at the server of its number. -/
def Issued (s : CmSystem n) (m : CmMessageRequest n) : Prop := (m.nodenum, m) ∈ s.exposed

end CmSystem

section Step

variable {n : ℕ} {s t : CmSystem n}

def cmStep (s : CmSystem n) : CmAction n → Option (CmSystem n)
  | .request i request =>
    (cmHandler i request (s.nodes i)).map fun (node, _) =>
      let t := s.setNode i node
      if request.type = .write then t.expose i (cmWrittenMessage i request (s.nodes i)) else t
  | .sendFront k => (cmSendFront k (s.nodes k)).map (s.setNode k)
  | .arrive k i =>
    match (s.nodes k).sending with
    | some (req, dsts) =>
      if i ∈ dsts then
        let t := s.setNode k { s.nodes k with sending := some (req, dsts.erase i) }
        some (t.setNode i (cmRequestHandler req (t.nodes i)))
      else none
    | none => none
  | .sent k => (cmSent (s.nodes k)).map (s.setNode k)
  | .process i =>
    (cmInternalProcessingThread (s.nodes i)).map fun node =>
      match node.thread with
      | .applied req => (s.setNode i node).expose i req
      | _ => s.setNode i node

inductive CmSteps (s : CmSystem n) : CmAction n → CmSystem n → Prop
  | other {i : Fin n} {request : KeyStoreRequest} (htype : request.type ≠ .write) :
      CmSteps s (.request i request) s
  | write {i : Fin n} {request : KeyStoreRequest} (htype : request.type = .write)
      (hmax : (s.nodes i).t i < intMax) :
      CmSteps s (.request i request) ((s.setNode i (cmWritten i request (s.nodes i))).expose i
        (cmWrittenMessage i request (s.nodes i)))
  | sendFront {k : Fin n} {req : CmMessageRequest n} (hsending : (s.nodes k).sending = none)
      (hfront : (s.nodes k).cmMessageOutqueue.head? = some req) :
      CmSteps s (.sendFront k) (s.setNode k
        { s.nodes k with sending := some (req, (List.finRange n).filter (· ≠ k)) })
  | arrive {k i : Fin n} {req : CmMessageRequest n} {dsts : List (Fin n)} {t : CmSystem n}
      (hsending : (s.nodes k).sending = some (req, dsts)) (hi : i ∈ dsts)
      (ht : t = s.setNode k { s.nodes k with sending := some (req, dsts.erase i) }) :
      CmSteps s (.arrive k i) (t.setNode i (cmRequestHandler req (t.nodes i)))
  | sent {k : Fin n} {req : CmMessageRequest n} (hsending : (s.nodes k).sending = some (req, [])) :
      CmSteps s (.sent k) (s.setNode k { s.nodes k with
        cmMessageOutqueue := (s.nodes k).cmMessageOutqueue.tail, sending := none })
  | fetch {i : Fin n} {req : CmMessageRequest n} (hthread : (s.nodes i).thread = .idle)
      (htop : (s.nodes i).cmMessagePq.head? = some req) :
      CmSteps s (.process i) (s.setNode i { s.nodes i with thread := .fetched req })
  | pass {i : Fin n} {req : CmMessageRequest n} (hthread : (s.nodes i).thread = .fetched req)
      (hready : frontReady (s.nodes i).t req = some true) :
      CmSteps s (.process i) (s.setNode i { s.nodes i with thread := .ready req })
  | refuse {i : Fin n} {req : CmMessageRequest n} (hthread : (s.nodes i).thread = .fetched req)
      (hready : frontReady (s.nodes i).t req = some false) :
      CmSteps s (.process i) (s.setNode i { s.nodes i with thread := .idle })
  | apply {i : Fin n} {req : CmMessageRequest n} (hthread : (s.nodes i).thread = .ready req) :
      CmSteps s (.process i) ((s.setNode i { s.nodes i with
        cmKsMap := applyToStore (s.nodes i).cmKsMap req, thread := .applied req }).expose i req)
  | pop {i : Fin n} {req : CmMessageRequest n} (hthread : (s.nodes i).thread = .applied req) :
      CmSteps s (.process i) (s.setNode i { s.nodes i with
        cmMessagePq := BinaryHeap.pop vectclkComparator (s.nodes i).cmMessagePq
        thread := .popped req })
  | advance {i : Fin n} {req : CmMessageRequest n} (hthread : (s.nodes i).thread = .popped req) :
      CmSteps s (.process i) (s.setNode i { s.nodes i with
        t := Function.update (s.nodes i).t req.nodenum (req.vecClk req.nodenum), thread := .idle })

theorem cmHandler_other {i : Fin n} {request : KeyStoreRequest} (htype : request.type ≠ .write)
    (node : CmNode n) : ∃ reply, cmHandler i request node = some (node, reply) := by
  unfold cmHandler
  split
  next => exact ⟨_, rfl⟩
  next hwrite => exact absurd hwrite htype
  next => exact ⟨_, rfl⟩

theorem cmRequest_steps {i : Fin n} {request : KeyStoreRequest}
    (h : cmStep s (.request i request) = some t) : CmSteps s (.request i request) t := by
  obtain ⟨⟨node, reply⟩, hnode, rfl⟩ := Option.map_eq_some_iff.mp h
  by_cases htype : request.type = .write
  · simp only [cmHandler, htype] at hnode
    obtain ⟨written, hwritten, he⟩ := Option.map_eq_some_iff.mp hnode
    obtain ⟨rfl, _⟩ := Prod.mk.inj he
    obtain ⟨hmax, rfl⟩ := cmWrite_eq_some.mp hwritten
    simp only [if_pos htype]
    exact .write htype hmax
  · obtain ⟨_, hother⟩ := cmHandler_other htype (s.nodes i)
    obtain ⟨rfl, _⟩ := Prod.mk.inj (Option.some.inj (hother.symm.trans hnode))
    simp only [if_neg htype, CmSystem.setNode, Function.update_eq_self]
    exact .other htype

theorem cmProcess_steps {i : Fin n} (h : cmStep s (.process i) = some t) :
    CmSteps s (.process i) t := by
  obtain ⟨node, hnode, rfl⟩ := Option.map_eq_some_iff.mp h
  unfold cmInternalProcessingThread at hnode
  split at hnode
  next hthread =>
    obtain ⟨req, htop, rfl⟩ := Option.map_eq_some_iff.mp hnode
    exact .fetch hthread htop
  next req hthread =>
    obtain ⟨ready, hready, rfl⟩ := Option.map_eq_some_iff.mp hnode
    cases ready with
    | true => exact .pass hthread hready
    | false => exact .refuse hthread hready
  next req hthread => exact Option.some.inj hnode ▸ .apply hthread
  next req hthread => exact Option.some.inj hnode ▸ .pop hthread
  next req hthread => exact Option.some.inj hnode ▸ .advance hthread

theorem cmStep_steps {a : CmAction n} (h : cmStep s a = some t) : CmSteps s a t := by
  cases a with
  | request i request => exact cmRequest_steps h
  | sendFront k =>
    obtain ⟨node, hnode, rfl⟩ := Option.map_eq_some_iff.mp h
    unfold cmSendFront at hnode
    split at hnode
    next req hsending hfront => exact Option.some.inj hnode ▸ .sendFront hsending hfront
    next => simp at hnode
  | arrive k i =>
    simp only [cmStep] at h
    split at h
    next req dsts hsending =>
      split at h
      next hi => exact Option.some.inj h ▸ .arrive hsending hi rfl
      next => simp at h
    next => simp at h
  | sent k =>
    obtain ⟨node, hnode, rfl⟩ := Option.map_eq_some_iff.mp h
    unfold cmSent at hnode
    split at hnode
    next req hsending => exact Option.some.inj hnode ▸ .sent hsending
    next => simp at hnode
  | process i => exact cmProcess_steps h

end Step

end KeyValueStore
