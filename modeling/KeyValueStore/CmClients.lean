import KeyValueStore.AbdStore
import KeyValueStore.CausalMemory
import KeyValueStore.CausalOrder
import KeyValueStore.EventLog
import Mathlib.Tactic.IntervalCases

/-! The clients of the CM servers. A client calls one server, that of the connection
which its id selects. The log has the calls and the messages that are applied, as
they happen. -/

namespace KeyValueStore

/-- Which of the connections `send_message_to_one_server` uses. -/
def ClientLib.connectionOf {n : ℕ} [NeZero n] (clientId : UInt32) : Fin n :=
  Fin.ofNat n clientId.toNat

/-- The value of a `get` is empty when the key does not exist. -/
inductive CmEvent (n : ℕ)
  | put (client : UInt32) (key value : Bytes) (m : CmMessageRequest n)
  | get (client : UInt32) (key value : Bytes)
  | applied (i : Fin n) (m : CmMessageRequest n)

structure CmClients (n : ℕ) where
  servers : CmSystem n
  log : List (CmEvent n)

def CmClients.init {n : ℕ} : CmClients n := ⟨.init, []⟩

inductive CmCall (n : ℕ)
  | put (client : UInt32) (key value : Bytes)
  | get (client : UInt32) (key : Bytes)
  | server (a : CmAction n)

def CmAction.isRequest {n : ℕ} : CmAction n → Bool
  | .request _ _ => true
  | _ => false

def CmSystem.applies {n : ℕ} (s : CmSystem n) : CmAction n → List (CmEvent n)
  | .process i =>
    match (s.nodes i).thread with
    | .ready req => [.applied i req]
    | _ => []
  | _ => []

section Step

variable {n : ℕ} [NeZero n] {conn : Fin n → Fin n} {s t : CmClients n} {a : CmCall n}

namespace ClientLib

def cmPutRequest (client : UInt32) (key value : Bytes) : KeyStoreRequest :=
  makeReqPayload ⟨.write, .cm, ⟨0, client⟩, key, value⟩

def cmGetRequest (client : UInt32) (key : Bytes) : KeyStoreRequest :=
  makeReqPayload ⟨.read, .cm, ⟨0, client⟩, key, []⟩

end ClientLib

/-- The server of a client; `conn` has the number of the server at each connection. -/
def siteOf (conn : Fin n → Fin n) (client : UInt32) : Fin n := conn (ClientLib.connectionOf client)

def cmClientStep (conn : Fin n → Fin n) (s : CmClients n) : CmCall n → Option (CmClients n)
  | .put client key value =>
    let i := siteOf conn client
    let request := ClientLib.cmPutRequest client key value
    (cmStep s.servers (.request i request)).map fun t =>
      ⟨t, s.log ++ [.put client key value (cmWrittenMessage i request (s.servers.nodes i))]⟩
  | .get client key =>
    let i := siteOf conn client
    let request := ClientLib.cmGetRequest client key
    (cmHandler i request (s.servers.nodes i)).bind fun (_, reply) =>
      (cmStep s.servers (.request i request)).map fun t =>
        ⟨t, s.log ++ [.get client key reply.value]⟩
  | .server a =>
    if a.isRequest then none
    else (cmStep s.servers a).map fun t => ⟨t, s.log ++ s.servers.applies a⟩

/-- As `WritesCounted`; and no `get` of the one key that no READ finds. -/
def CallsCounted (conn : Fin n → Fin n) (s : CmClients n) : CmCall n → Prop
  | .put client _ _ => (s.servers.nodes (siteOf conn client)).thread.uncounted = none
  | .get _ key => key ≠ sentinelKey
  | .server _ => True

instance (conn : Fin n → Fin n) (s : CmClients n) (a : CmCall n) : Decidable (CallsCounted conn s a) :=
  match a with
  | .put client _ _ => inferInstanceAs
      (Decidable ((s.servers.nodes (siteOf conn client)).thread.uncounted = none))
  | .get _ key => inferInstanceAs (Decidable (key ≠ sentinelKey))
  | .server _ => isTrue trivial

inductive CmCalls (conn : Fin n → Fin n) (s : CmClients n) : CmCall n → CmClients n → Prop
  | put {client : UInt32} {key value : Bytes} {t : CmSystem n} {request : KeyStoreRequest}
      (hrequest : request = ClientLib.cmPutRequest client key value)
      (hstep : cmStep s.servers (.request (siteOf conn client) request) = some t) :
      CmCalls conn s (.put client key value) ⟨t, s.log ++ [.put client key value
        (cmWrittenMessage (siteOf conn client) request (s.servers.nodes (siteOf conn client)))]⟩
  | get {client : UInt32} {key : Bytes} {t : CmSystem n} {request : KeyStoreRequest}
      {node : CmNode n} {reply : KeyStoreResponse}
      (hrequest : request = ClientLib.cmGetRequest client key)
      (hreply : cmHandler (siteOf conn client) request (s.servers.nodes (siteOf conn client)) =
        some (node, reply))
      (hstep : cmStep s.servers (.request (siteOf conn client) request) = some t) :
      CmCalls conn s (.get client key) ⟨t, s.log ++ [.get client key reply.value]⟩
  | server {a : CmAction n} {t : CmSystem n} (ha : a.isRequest = false)
      (hstep : cmStep s.servers a = some t) :
      CmCalls conn s (.server a) ⟨t, s.log ++ s.servers.applies a⟩

theorem cmClientStep_calls (h : cmClientStep conn s a = some t) : CmCalls conn s a t := by
  cases a with
  | put client key value =>
    simp only [cmClientStep, Option.map_eq_some_iff] at h
    obtain ⟨u, hu, rfl⟩ := h
    exact .put rfl hu
  | get client key =>
    simp only [cmClientStep, Option.bind_eq_some_iff, Option.map_eq_some_iff] at h
    obtain ⟨⟨node, reply⟩, hreply, u, hu, rfl⟩ := h
    exact .get rfl hreply hu
  | server a =>
    simp only [cmClientStep, Option.ite_none_left_eq_some, Bool.not_eq_true] at h
    obtain ⟨u, hu, rfl⟩ := Option.map_eq_some_iff.mp h.2
    exact .server h.1 hu

/-- The servers make a run of their own. -/
theorem servers_reachable (h : ReachableWhen (cmClientStep conn) (CallsCounted conn) .init s) :
    ReachableWhen cmStep WritesCounted .init s.servers := by
  refine h.invariant (P := fun s => ReachableWhen cmStep WritesCounted .init s.servers) .refl ?_
  intro u a v _ hu hok he
  have hcalls := cmClientStep_calls he
  cases hcalls with
  | @put client key value t request hrequest hstep =>
    have hcounted : WritesCounted u.servers (.request (siteOf conn client) request) := fun _ => hok
    exact hu.tail ⟨_, hcounted, hstep⟩
  | @get client key t request node reply hrequest hreply hstep =>
    have hcounted : WritesCounted u.servers (.request (siteOf conn client) request) := by
      intro htype
      rw [hrequest] at htype
      cases htype
    exact hu.tail ⟨_, hcounted, hstep⟩
  | @server a t ha hstep =>
    refine hu.tail ⟨a, ?_, hstep⟩
    cases a with
    | request => cases ha
    | _ => trivial

end Step

section Shown

variable {n : ℕ} {s t : CmSystem n} {i : Fin n}

def CmEvent.written : CmEvent n → Option (CmMessageRequest n)
  | .put _ _ _ m => some m
  | _ => none

def CmEvent.op : CmEvent n → Option (CausalMemory.Op UInt32 Bytes Bytes)
  | .put client key value _ => some (.write client (cStr key) value)
  | .get client key value => some (.read client (cStr key) value)
  | .applied _ _ => none

/-- What the clients did, each call at its time in the log. -/
def CmClients.history (s : CmClients n) : CausalMemory.History UInt32 Bytes Bytes :=
  EventLog.shownAt CmEvent.op s.log

/-- The value is that of the last write of the key that server `i` showed before `j`. -/
def LastShown (shownAt : ℕ → Option (Fin n × CmMessageRequest n)) (j : ℕ) (i : Fin n)
    (k value : Bytes) : Prop :=
  (value = [] ∧ ∀ t < j, ∀ m, shownAt t = some (i, m) → cStr m.key ≠ k) ∨
    ∃ t < j, ∃ m, shownAt t = some (i, m) ∧ cStr m.key = k ∧ m.value = value ∧
      ∀ t' < j, ∀ m', shownAt t' = some (i, m') → cStr m'.key = k → t' ≤ t

theorem LastShown.congr {f g : ℕ → Option (Fin n × CmMessageRequest n)} {j : ℕ} {i : Fin n}
    {k value : Bytes} (h : LastShown f j i k value) (he : ∀ t < j, g t = f t) :
    LastShown g j i k value := by
  rcases h with ⟨hv, hall⟩ | ⟨t, ht, m, hm, hk, hv, hall⟩
  · exact .inl ⟨hv, fun t ht m hm => hall t ht m (he t ht ▸ hm)⟩
  · exact .inr ⟨t, ht, m, (he t ht).trans hm, hk, hv,
      fun t' ht' m' hm' => hall t' ht' m' (he t' ht' ▸ hm')⟩

theorem cmStep_exposed_write {request : KeyStoreRequest}
    (h : cmStep s (.request i request) = some t) (htype : request.type = .write) :
    t.exposed = (i, cmWrittenMessage i request (s.nodes i)) :: s.exposed := by
  cases cmStep_steps h with
  | other hne => exact absurd htype hne
  | write => rfl

theorem cmStep_exposed_read {request : KeyStoreRequest}
    (h : cmStep s (.request i request) = some t) (htype : request.type = .read) :
    t.exposed = s.exposed := by
  cases cmStep_steps h with
  | other => rfl
  | write hw => exact absurd (hw.symm.trans htype) (by simp)

end Shown

section Log

variable {n : ℕ} [NeZero n] {conn : Fin n → Fin n} {s t : CmClients n}

/-- The server at which the event makes a write readable. -/
def CmEvent.shows (conn : Fin n → Fin n) : CmEvent n → Option (Fin n × CmMessageRequest n)
  | .put client _ _ m => some (siteOf conn client, m)
  | .get _ _ _ => none
  | .applied i m => some (i, m)

structure CmLogInv (conn : Fin n → Fin n) (s : CmClients n) : Prop where
  exposed : s.servers.exposed = EventLog.shownBy (CmEvent.shows conn) s.log
  put : ∀ (w : ℕ) (client : UInt32) (key value : Bytes) (m : CmMessageRequest n),
    s.log[w]? = some (.put client key value m) →
      m.nodenum = siteOf conn client ∧ cStr m.key = cStr key ∧ m.value = value
  applied : ∀ (t : ℕ) (i : Fin n) (m : CmMessageRequest n), s.log[t]? = some (.applied i m) →
    m.nodenum ≠ i ∧ ∃ w < t, EventLog.shownAt CmEvent.written s.log w = some m
  get : ∀ (j : ℕ) (client : UInt32) (key value : Bytes), s.log[j]? = some (.get client key value) →
    LastShown (EventLog.shownAt (CmEvent.shows conn) s.log) j (siteOf conn client) (cStr key) value

theorem CmLogInv.concat (h : CmLogInv conn s) {t : CmSystem n} {e : CmEvent n}
    (hexposed : t.exposed = (e.shows conn).toList ++ s.servers.exposed)
    (hput : ∀ client key value m, e = .put client key value m →
      m.nodenum = siteOf conn client ∧ cStr m.key = cStr key ∧ m.value = value)
    (happlied : ∀ i m, e = .applied i m → m.nodenum ≠ i ∧
      ∃ w, EventLog.shownAt CmEvent.written s.log w = some m)
    (hget : ∀ client key value, e = .get client key value →
      LastShown (EventLog.shownAt (CmEvent.shows conn) s.log) s.log.length (siteOf conn client)
        (cStr key) value) : CmLogInv conn ⟨t, s.log ++ [e]⟩ := by
  have hold : ∀ j ≤ s.log.length, ∀ t < j, EventLog.shownAt (CmEvent.shows conn) (s.log ++ [e]) t =
      EventLog.shownAt (CmEvent.shows conn) s.log t := by
    intro j hj t ht
    rw [EventLog.shownAt, EventLog.shownAt, List.getElem?_append_left (ht.trans_le hj)]
  refine ⟨?_, fun w client key value m hw => ?_, fun t i m ht => ?_,
    fun j client key value hj => ?_⟩
  · rw [EventLog.shownBy_concat, ← h.exposed]
    exact hexposed
  · rcases EventLog.getElem?_concat_eq_some.mp hw with hw | ⟨_, he⟩
    · exact h.put w client key value m hw
    · exact hput client key value m he
  · rcases EventLog.getElem?_concat_eq_some.mp ht with ht | ⟨rfl, he⟩
    · obtain ⟨hne, w, hlt, hw⟩ := h.applied t i m ht
      exact ⟨hne, w, hlt, EventLog.shownAt_concat.mpr (.inl hw)⟩
    · obtain ⟨hne, w, hw⟩ := happlied i m he
      exact ⟨hne, w, EventLog.lt_of_shownAt hw, EventLog.shownAt_concat.mpr (.inl hw)⟩
  · rcases EventLog.getElem?_concat_eq_some.mp hj with hj | ⟨rfl, he⟩
    · exact (h.get j client key value hj).congr
        (hold j (List.getElem?_eq_some_iff.mp hj).1.le)
    · exact (hget client key value he).congr (hold _ le_rfl)

theorem CmLogInv.congr (h : CmLogInv conn s) {t : CmSystem n}
    (hexposed : t.exposed = s.servers.exposed) : CmLogInv conn ⟨t, s.log⟩ :=
  ⟨hexposed.trans h.exposed, h.put, h.applied, h.get⟩

/-- What is readable is what was shown last. -/
theorem CmLogInv.lastShown (h : CmLogInv conn s) (i : Fin n) (k : Bytes) :
    LastShown (EventLog.shownAt (CmEvent.shows conn) s.log) s.log.length i k
      (match s.servers.readable i k with
      | some m => m.value
      | none => []) := by
  cases hr : s.servers.readable i k with
  | none =>
    refine .inl ⟨rfl, fun t _ m hm hk => ?_⟩
    rw [CmSystem.readable, Option.map_eq_none_iff, h.exposed] at hr
    have hfalse := EventLog.find?_shownBy_none hr hm
    simp [hk] at hfalse
  | some m =>
    obtain ⟨⟨j, m'⟩, hfind, rfl⟩ := Option.map_eq_some_iff.mp hr
    rw [h.exposed] at hfind
    obtain ⟨t, ht, hlast⟩ := EventLog.find?_shownBy_some hfind
    have hp := List.find?_some hfind
    simp only [decide_eq_true_eq] at hp
    obtain ⟨rfl, hk⟩ := hp
    exact .inr ⟨t, EventLog.lt_of_shownAt ht, m', ht, hk, rfl,
      fun t' _ m'' hm'' hk' => hlast t' _ hm'' (by simp [hk'])⟩

theorem CmLogInv.put_step (h : CmLogInv conn s) (hstores : s.servers.StoresReadable)
    {client : UInt32} {key value : Bytes} {t : CmSystem n} {request : KeyStoreRequest}
    (hrequest : request = ClientLib.cmPutRequest client key value)
    (hstep : cmStep s.servers (.request (siteOf conn client) request) = some t) :
    CmLogInv conn ⟨t, s.log ++ [.put client key value
      (cmWrittenMessage (siteOf conn client) request (s.servers.nodes (siteOf conn client)))]⟩ := by
  subst hrequest
  refine h.concat (cmStep_exposed_write hstep rfl) (fun client' key' value' m he => ?_)
    (fun i m he => by cases he) (fun client' key' value' he => by cases he)
  obtain ⟨rfl, rfl, rfl, rfl⟩ := CmEvent.put.inj he
  refine ⟨rfl, cmWrittenMessage_key hstores _ _, ?_⟩
  unfold cmWrittenMessage cmWrittenValue
  split <;> rfl

theorem CmLogInv.get_step (h : CmLogInv conn s) {ok : CmSystem n → CmAction n → Prop}
    (hr : ReachableWhen cmStep ok .init s.servers) {client : UInt32} {key : Bytes} {t : CmSystem n}
    {request : KeyStoreRequest} {node : CmNode n} {reply : KeyStoreResponse}
    (hkey : key ≠ sentinelKey) (hrequest : request = ClientLib.cmGetRequest client key)
    (hreply : cmHandler (siteOf conn client) request (s.servers.nodes (siteOf conn client)) =
      some (node, reply))
    (hstep : cmStep s.servers (.request (siteOf conn client) request) = some t) :
    CmLogInv conn ⟨t, s.log ++ [.get client key reply.value]⟩ := by
  subst hrequest
  refine h.concat (cmStep_exposed_read hstep rfl) (fun client' key' value' m he => by cases he)
    (fun i m he => by cases he) (fun client' key' value' he => ?_)
  obtain ⟨rfl, rfl, rfl⟩ := CmEvent.get.inj he
  have hlast := h.lastShown (siteOf conn client) (cStr key)
  rw [cmHandler_read hr (siteOf conn client) rfl hkey] at hreply
  obtain ⟨_, rfl⟩ := Prod.mk.inj (Option.some.inj hreply)
  cases hread : s.servers.readable (siteOf conn client) (cStr key) with
  | none =>
    rw [hread] at hlast
    simpa [ClientLib.cmGetRequest, ClientLib.makeReqPayload, hread] using hlast
  | some m =>
    rw [hread] at hlast
    simpa [ClientLib.cmGetRequest, ClientLib.makeReqPayload, hread] using hlast

theorem CmLogInv.server_step (h : CmLogInv conn s) (hi : CmInv s.servers) {a : CmAction n}
    {t : CmSystem n} (ha : a.isRequest = false) (hstep : cmStep s.servers a = some t) :
    CmLogInv conn ⟨t, s.log ++ s.servers.applies a⟩ := by
  have hkeep : s.servers.applies a = [] → t.exposed = s.servers.exposed →
      CmLogInv conn ⟨t, s.log ++ s.servers.applies a⟩ := by
    intro hnone hexposed
    rw [hnone, List.append_nil]
    exact h.congr hexposed
  cases cmStep_steps hstep with
  | other => cases ha
  | write => cases ha
  | sendFront | sent => exact hkeep rfl rfl
  | arrive _ _ ht =>
    subst ht
    exact hkeep rfl rfl
  | fetch hthread | pass hthread | refuse hthread | pop hthread | advance hthread =>
    exact hkeep (by simp [CmSystem.applies, hthread]) rfl
  | @apply i req hthread =>
    have happlies : s.servers.applies (.process i) = [.applied i req] := by
      simp [CmSystem.applies, hthread]
    rw [happlies]
    have hready := (hi.node i).thread
    simp only [CmNode.ThreadInv, hthread] at hready
    have hpending := CmNode.mem_pending_of_top hready.1
    have hforeign := (hi.node i).foreign req hpending
    refine h.concat rfl (fun client' key' value' m he => by cases he) (fun j m he => ?_)
      (fun client' key' value' he => by cases he)
    obtain ⟨rfl, rfl⟩ := CmEvent.applied.inj he
    refine ⟨hforeign, ?_⟩
    have hissued : s.servers.Issued req := (hi.flow.of_pending hpending).1
    rw [CmSystem.Issued, h.exposed, EventLog.mem_shownBy] at hissued
    obtain ⟨w, hw⟩ := hissued
    obtain ⟨e, hlog, hshows⟩ := EventLog.shownAt_eq_some.mp hw
    cases e with
    | put client key value m =>
      obtain ⟨_, rfl⟩ := Prod.mk.inj (Option.some.inj hshows)
      exact ⟨w, EventLog.shownAt_eq_some.mpr ⟨_, hlog, rfl⟩⟩
    | get client key value => cases hshows
    | applied j m =>
      obtain ⟨rfl, rfl⟩ := Prod.mk.inj (Option.some.inj hshows)
      exact absurd rfl (h.applied w _ _ hlog).1

theorem cmLogInv_of_reachable
    (h : ReachableWhen (cmClientStep conn) (CallsCounted conn) .init s) : CmLogInv conn s := by
  refine h.invariant ⟨rfl, by simp [CmClients.init], by simp [CmClients.init],
    by simp [CmClients.init]⟩ (fun u a v hu hi hok he => ?_)
  have hr := servers_reachable hu
  have hcalls := cmClientStep_calls he
  cases hcalls with
  | put hrequest hstep => exact hi.put_step (storesReadable_reachable hr) hrequest hstep
  | get hrequest hreply hstep => exact hi.get_step hr hok hrequest hreply hstep
  | server ha hstep => exact hi.server_step (cmInv_reachable hr) ha hstep

end Log

section Operations

variable {n : ℕ} {s : CmClients n} {w : ℕ} {m : CmMessageRequest n}

theorem ordered_servers {s : CmSystem n} (h : ReachableWhen cmStep WritesCounted .init s) :
    CausallyOrdered s := by
  refine (h.invariant (P := fun s => ClocksCover s ∧ CausallyOrdered s)
    ⟨fun _ _ _ _ hsub => by simp [CmSystem.init] at hsub, List.nodup_nil,
      fun _ _ _ _ hsub => by simp [CmSystem.init] at hsub⟩ ?_).2
  intro u a v hu hp hok hstep
  exact causallyOrdered_step (cmInv_reachable hu).flow hp.1 hp.2 hok hstep

theorem shownAt_written : EventLog.shownAt CmEvent.written s.log w = some m ↔
    ∃ client key value, s.log[w]? = some (.put client key value m) := by
  rw [EventLog.shownAt_eq_some]
  constructor
  · rintro ⟨e, he, hm⟩
    cases e with
    | put client key value m' =>
      obtain rfl := Option.some.inj hm
      exact ⟨client, key, value, he⟩
    | _ => cases hm
  · rintro ⟨client, key, value, he⟩
    exact ⟨_, he, rfl⟩

theorem CmClients.history_write {p : UInt32} {k v : Bytes}
    (h : s.history w = some (.write p k v)) :
    ∃ key m, s.log[w]? = some (.put p key v m) ∧ cStr key = k := by
  obtain ⟨e, he, hop⟩ := EventLog.shownAt_eq_some.mp h
  cases e with
  | put client key value m =>
    obtain ⟨rfl, rfl, rfl⟩ := CausalMemory.Op.write.inj (Option.some.inj hop)
    exact ⟨key, m, he, rfl⟩
  | get => simp [CmEvent.op] at hop
  | applied => cases hop

theorem CmClients.history_read {p : UInt32} {k v : Bytes}
    (h : s.history w = some (.read p k v)) :
    ∃ key, s.log[w]? = some (.get p key v) ∧ cStr key = k := by
  obtain ⟨e, he, hop⟩ := EventLog.shownAt_eq_some.mp h
  cases e with
  | put => simp [CmEvent.op] at hop
  | get client key value =>
    obtain ⟨rfl, rfl, rfl⟩ := CausalMemory.Op.read.inj (Option.some.inj hop)
    exact ⟨key, he, rfl⟩
  | applied => cases hop

theorem CmClients.history_put {p : UInt32} {key v : Bytes} (h : s.log[w]? = some (.put p key v m)) :
    s.history w = some (.write p (cStr key) v) :=
  EventLog.shownAt_eq_some.mpr ⟨_, h, rfl⟩

end Operations

section Memory

variable {n : ℕ} [NeZero n] {conn : Fin n → Fin n} {s : CmClients n} {w w' t : ℕ} {i : Fin n}
  {m : CmMessageRequest n}

/-- The server shows from time `t` on what was put at time `w`. -/
def CmClients.Shown (conn : Fin n → Fin n) (s : CmClients n) (i : Fin n) (w t : ℕ) : Prop :=
  ∃ m, EventLog.shownAt CmEvent.written s.log w = some m ∧
    EventLog.shownAt (CmEvent.shows conn) s.log t = some (i, m)

theorem CmLogInv.written_inj (h : CmLogInv conn s) (hnd : s.servers.exposed.Nodup)
    (hw : EventLog.shownAt CmEvent.written s.log w = some m)
    (hw' : EventLog.shownAt CmEvent.written s.log w' = some m) : w = w' := by
  have hshow : ∀ {w}, EventLog.shownAt CmEvent.written s.log w = some m →
      EventLog.shownAt (CmEvent.shows conn) s.log w = some (m.nodenum, m) := by
    intro w hw
    obtain ⟨client, key, value, he⟩ := shownAt_written.mp hw
    refine EventLog.shownAt_eq_some.mpr ⟨_, he, ?_⟩
    rw [CmEvent.shows, (h.put w client key value m he).1]
  exact EventLog.eq_of_shownAt (h.exposed ▸ hnd) (hshow hw) (hshow hw')

/-- A message that a server shows was put, there and then or before. -/
theorem CmLogInv.shown_cases (h : CmLogInv conn s)
    (ht : EventLog.shownAt (CmEvent.shows conn) s.log t = some (i, m)) :
    EventLog.shownAt CmEvent.written s.log t = some m ∨
      s.history t = none ∧ ∃ w < t, EventLog.shownAt CmEvent.written s.log w = some m := by
  obtain ⟨e, he, hshows⟩ := EventLog.shownAt_eq_some.mp ht
  cases e with
  | put client key value m' =>
    obtain ⟨_, rfl⟩ := Prod.mk.inj (Option.some.inj hshows)
    exact .inl (EventLog.shownAt_eq_some.mpr ⟨_, he, rfl⟩)
  | get => cases hshows
  | applied j m' =>
    obtain ⟨rfl, rfl⟩ := Prod.mk.inj (Option.some.inj hshows)
    refine .inr ⟨?_, (h.applied t j m' he).2⟩
    rw [CmClients.history, EventLog.shownAt, he]
    rfl

/-- A put of the key that the server shows is one that a get looks for. -/
theorem CmLogInv.shown_key (h : CmLogInv conn s) {k : Bytes}
    (hw : CausalMemory.Writes s.history w k) (hs : s.Shown conn i w t) :
    ∃ m, EventLog.shownAt (CmEvent.shows conn) s.log t = some (i, m) ∧ cStr m.key = k := by
  obtain ⟨p, v, hw⟩ := hw
  obtain ⟨key, m, he, rfl⟩ := CmClients.history_write hw
  obtain ⟨m', hm', ht⟩ := hs
  obtain rfl := Option.some.inj ((shownAt_written.mpr ⟨p, key, v, he⟩).symm.trans hm')
  exact ⟨m, ht, (h.put w p key v m he).2.1⟩

theorem CmLogInv.reads (h : CmLogInv conn s) {j : ℕ} {p : UInt32} {k v : Bytes}
    (hj : s.history j = some (.read p k v)) :
    (∃ i, CausalMemory.ReadsShown s.history (siteOf conn) (s.Shown conn) j i) ∨
      v = [] ∧ ∀ i t, CausalMemory.Writes s.history i k → s.Shown conn (siteOf conn p) i t →
        j < t := by
  obtain ⟨key, he, rfl⟩ := CmClients.history_read hj
  rcases h.get j p key v he with ⟨hv, hall⟩ | ⟨t, ht, m, hm, hk, rfl, hall⟩
  · refine .inr ⟨hv, fun i t hw hs => ?_⟩
    obtain ⟨m, hm, hk⟩ := h.shown_key hw hs
    rcases Nat.lt_trichotomy t j with hlt | rfl | hgt
    · exact absurd hk (hall t hlt m hm)
    · rw [EventLog.shownAt, he] at hm
      cases hm
    · exact hgt
  · obtain ⟨w, hw⟩ : ∃ w, EventLog.shownAt CmEvent.written s.log w = some m := by
      rcases h.shown_cases hm with hw | ⟨_, w, _, hw⟩
      · exact ⟨t, hw⟩
      · exact ⟨w, hw⟩
    obtain ⟨q, key', v', hput⟩ := shownAt_written.mp hw
    obtain ⟨_, hkey, rfl⟩ := h.put w q key' v' m hput
    have hwrite := CmClients.history_put hput
    rw [← hkey, hk] at hwrite
    refine .inl ⟨w, p, cStr key, m.value, hj, ⟨q, hwrite⟩, t, ht, ⟨m, hw, hm⟩, ?_⟩
    intro i' t' hw' hs' hlt
    obtain ⟨m', hm', hk'⟩ := h.shown_key hw' hs'
    exact hall t' hlt m' hm' hk'

theorem CmLogInv.shows (h : CmLogInv conn s) (ho : CausallyOrdered s.servers) :
    CausalMemory.Shows s.history [] (siteOf conn) (s.Shown conn) s.log.length where
  op_lt i a hi := EventLog.lt_of_shownAt hi
  shown_lt i w t hs := by
    obtain ⟨m, _, ht⟩ := hs
    exact EventLog.lt_of_shownAt ht
  once i w t t' hs hs' := by
    obtain ⟨m, hw, ht⟩ := hs
    obtain ⟨m', hw', ht'⟩ := hs'
    obtain rfl := Option.some.inj (hw.symm.trans hw')
    exact EventLog.eq_of_shownAt (h.exposed ▸ ho.1) ht ht'
  single i w w' t hs hs' := by
    obtain ⟨m, hw, ht⟩ := hs
    obtain ⟨m', hw', ht'⟩ := hs'
    obtain ⟨_, rfl⟩ := Prod.mk.inj (Option.some.inj (ht.symm.trans ht'))
    exact h.written_inj ho.1 hw hw'
  written i w t hs := by
    obtain ⟨m, hw, ht⟩ := hs
    obtain ⟨p, key, v, he⟩ := shownAt_written.mp hw
    refine ⟨?_, cStr key, p, v, CmClients.history_put he⟩
    rcases h.shown_cases ht with ht | ⟨_, w', hlt, hw'⟩
    · exact (h.written_inj ho.1 hw ht).le
    · exact h.written_inj ho.1 hw hw' ▸ hlt.le
  arrives i w t hs hne := by
    obtain ⟨m, hw, ht⟩ := hs
    rcases h.shown_cases ht with ht | ⟨hnone, _⟩
    · exact absurd (h.written_inj ho.1 hw ht) hne
    · exact hnone
  own w p k v hw := by
    obtain ⟨key, m, he, _⟩ := CmClients.history_write hw
    exact ⟨m, shownAt_written.mpr ⟨p, key, v, he⟩, EventLog.shownAt_eq_some.mpr ⟨_, he, rfl⟩⟩
  causal i w w' t t' p k v hw hs' hlt hs := by
    obtain ⟨key, m, he, _⟩ := CmClients.history_write hw
    obtain ⟨m₁, hw₁, ht⟩ := hs
    obtain rfl := Option.some.inj ((shownAt_written.mpr ⟨p, key, v, he⟩).symm.trans hw₁)
    obtain ⟨m', hw', ht'⟩ := hs'
    have hown : EventLog.shownAt (CmEvent.shows conn) s.log w = some (siteOf conn p, m) :=
      EventLog.shownAt_eq_some.mpr ⟨_, he, rfl⟩
    have hsub := EventLog.pair_sublist_shownBy.mpr ⟨w, t', hlt, hown, ht'⟩
    rw [← h.exposed] at hsub
    have hsub' := ho.2 (siteOf conn p) m' m (h.put w p key v m he).1 hsub i
      (h.exposed ▸ EventLog.mem_shownBy.mpr ⟨t, ht⟩)
    rw [h.exposed] at hsub'
    obtain ⟨t₁, u, hlt', ht₁, hu⟩ := EventLog.pair_sublist_shownBy.mp hsub'
    obtain rfl := EventLog.eq_of_shownAt (h.exposed ▸ ho.1) ht₁ ht
    exact ⟨u, hlt', m', hw', hu⟩
  reads j p k v hj := h.reads hj

/-- The servers are a causal memory for their clients in runs in which no put comes
while its server has applied a message and not counted it. -/
theorem cm_isCausal (h : ReachableWhen (cmClientStep conn) (CallsCounted conn) .init s) :
    CausalMemory.IsCausal s.history [] :=
  ((cmLogInv_of_reachable h).shows (ordered_servers (servers_reachable h))).isCausal

/-- Client 4 is at server 1, reads what client 0 put and puts another key, and client 2
reads that one first. -/
def siteRun : List (CmCall 3) :=
  [.put 0 [120] [49], .server (.sendFront 0), .server (.arrive 0 1), .server (.process 1),
    .server (.process 1), .server (.process 1), .get 4 [120], .server (.process 1),
    .server (.process 1), .put 1 [121] [50], .server (.sendFront 1), .server (.arrive 1 2),
    .get 2 [121], .server (.arrive 0 2), .server (.process 2), .server (.process 2),
    .server (.process 2), .server (.process 2), .server (.process 2), .get 2 [120],
    .server (.process 2), .server (.process 2), .server (.process 2), .get 2 [121]]

theorem siteRun_isCausal : ∃ s : CmClients 3,
    runWhen (cmClientStep id) (CallsCounted id) .init siteRun = some s ∧
      s.log.filterMap CmEvent.op = [.write 0 [120] [49], .read 4 [120] [49], .write 1 [121] [50],
        .read 2 [121] [], .read 2 [120] [49], .read 2 [121] [50]] ∧
      CausalMemory.IsCausal s.history [] := by
  obtain ⟨s, hs, hlog⟩ := exists_of_run (P := fun s : CmClients 3 =>
      s.log.filterMap CmEvent.op = [.write 0 [120] [49], .read 4 [120] [49], .write 1 [121] [50],
        .read 2 [121] [], .read 2 [120] [49], .read 2 [121] [50]])
    (show (runWhen (cmClientStep id) (CallsCounted id) .init siteRun).any _ = true by
      decide +kernel)
  exact ⟨s, hs, hlog, cm_isCausal (reachableWhen_of_runWhen hs)⟩

/-- Client 1 reads what client 0 put before its server counts it, so client 2 reads
what client 1 put next and then nothing where client 0 put. -/
def uncountedReads : List (CmCall 3) :=
  [.put 0 [120] [49], .server (.sendFront 0), .server (.arrive 0 1), .server (.process 1),
    .server (.process 1), .server (.process 1), .get 1 [120], .put 1 [121] [50],
    .server (.sendFront 1), .server (.arrive 1 2), .server (.process 2), .server (.process 2),
    .server (.process 2), .get 2 [121], .get 2 [120]]

theorem uncountedReads_not_isCausal : ∃ s : CmClients 3,
    Reachable (cmClientStep id) .init s ∧ ¬ CausalMemory.IsCausal s.history [] := by
  obtain ⟨s, hs, hlog⟩ := exists_of_run (P := fun s : CmClients 3 =>
      s.log.map CmEvent.op = [some (.write 0 [120] [49]), none, some (.read 1 [120] [49]),
        some (.write 1 [121] [50]), none, some (.read 2 [121] [50]), some (.read 2 [120] [])])
    (show (runWhen (cmClientStep id) (fun _ _ => True) .init uncountedReads).any _ = true by
      decide +kernel)
  have hop : ∀ i, s.history i = (s.log.map CmEvent.op)[i]?.join := by
    intro i
    rw [CmClients.history, EventLog.shownAt, List.getElem?_map]
    cases s.log[i]? <;> rfl
  rw [hlog] at hop
  have hw0 : s.history 0 = some (.write 0 [120] [49]) := hop 0
  have hr1 : s.history 2 = some (.read 1 [120] [49]) := hop 2
  have hw1 : s.history 3 = some (.write 1 [121] [50]) := hop 3
  have hr2 : s.history 5 = some (.read 2 [121] [50]) := hop 5
  have hr2' : s.history 6 = some (.read 2 [120] []) := hop 6
  have hwrites : ∀ i q k v, s.history i = some (.write q k v) →
      i = 0 ∧ v = [49] ∨ i = 3 ∧ v = [50] := by
    intro i q k v hi
    rw [hop] at hi
    rcases Nat.lt_or_ge i 7 with hlt | hge
    · interval_cases i <;> simp at hi ⊢ <;> exact hi.2.2.symm
    · rw [List.getElem?_eq_none (by simpa using hge)] at hi
      cases hi
  refine ⟨s, reachableWhen_of_runWhen hs, ?_⟩
  rintro ⟨source, hall⟩
  obtain ⟨_, hser⟩ := hall 1
  obtain ⟨rank, hser'⟩ := hall 2
  obtain ⟨i, q, hsource, hi⟩ := hser.source_of_read hr1 (by decide)
  obtain rfl : i = 0 := by
    rcases hwrites i q _ _ hi with ⟨hi, _⟩ | ⟨_, hv⟩
    · exact hi
    · exact absurd hv (by decide)
  obtain ⟨j, q', hsource', hj⟩ := hser'.source_of_read hr2 (by decide)
  obtain rfl : j = 3 := by
    rcases hwrites j q' _ _ hj with ⟨_, hv⟩ | ⟨hj, _⟩
    · exact absurd hv (by decide)
    · exact hj
  have hbefore : CausalMemory.CausalOrder s.history source 0 6 :=
    (((Relation.TransGen.single (.reads hsource)).tail (.program hr1 hw1 rfl (by decide))).tail
      (.reads hsource')).tail (.program hr2 hr2' rfl (by decide))
  have hlt := hser'.causal 0 6 (.inl ⟨_, _, _, hw0⟩) (.inr ⟨_, _, hr2'⟩) hbefore
  -- the last read can only come before the first put
  have hread := hser'.reads 6 _ _ hr2'
  cases hlast : source 6 with
  | none =>
    rw [hlast] at hread
    exact absurd (hread.2 0 ⟨_, _, hw0⟩) (Nat.lt_asymm hlt)
  | some i =>
    rw [hlast] at hread
    obtain ⟨⟨q, hw⟩, _⟩ := hread
    rcases hwrites i q _ _ hw with ⟨_, hv⟩ | ⟨_, hv⟩ <;> exact absurd hv (by decide)

end Memory

end KeyValueStore
