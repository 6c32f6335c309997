import KeyValueStore.Execution
import Mathlib.Data.List.Dedup
import Mathlib.Data.List.Nodup
import Mathlib.Data.Nat.Notation
import Mathlib.Logic.Function.Basic

/-! The clients of the client library. A call waits for as many replies as it needs,
and the threads that wait for the others go on using the connections of its client. -/

namespace KeyValueStore

structure ServerInfo where
  ip : String
  port : UInt16
  deriving DecidableEq, Repr

/-- The addresses of the connections that `server_connections` makes. -/
def serverConnections (servers : List ServerInfo) : List String :=
  (servers.map fun info => info.ip ++ ":" ++ toString info.port.toNat).dedup

/-- The `Client` and the connections that a wrapper points to, until they are deleted.
The protocol is what the four bytes of its field read as. -/
structure ClientWrapper where
  id : UInt32
  protocol : String
  connections : List String
  freed : Bool
  deriving DecidableEq, Repr

/-- A message that a call sends with the connections of a wrapper: which of its handlers
have ended, and how many the call waits for. -/
structure Sending where
  client : ℕ
  wrapper : ℕ
  handlers : List Bool
  need : ℕ
  returned : Bool
  deriving DecidableEq, Repr

/-- The state of the library; a pointer is the number of its wrapper. The program has
not yet deleted the clients `opened`. -/
structure ClientLibrary where
  wrappers : List ClientWrapper
  clientList : UInt32 → Option ℕ
  locked : Bool
  sendings : List Sending
  opened : List ℕ
  undefined : Bool

inductive ClientAction
  | clientInstance (id : UInt32) (protocol : String) (servers : List ServerInfo)
  | send (p : ℕ)
  | handler (k j : ℕ)
  | returns (k : ℕ)
  | clientDelete (p : ℕ)

namespace ClientLibrary

def init : ClientLibrary := ⟨[], fun _ => none, false, [], [], false⟩

def live (s : ClientLibrary) (p : ℕ) : Option ClientWrapper :=
  s.wrappers[p]?.filter fun c => !c.freed

def clientInstance (s : ClientLibrary) (id : UInt32) (protocol : String)
    (servers : List ServerInfo) : ClientLibrary :=
  { s with
    wrappers := s.wrappers ++ [⟨id, protocol, serverConnections servers, false⟩]
    clientList := Function.update s.clientList id (some s.wrappers.length)
    opened := s.opened ++ [s.wrappers.length] }

/-- The mutex is not unlocked when the list has no client with the id. -/
def clientDelete (s : ClientLibrary) (p : ℕ) : ClientLibrary :=
  let t := { s with opened := s.opened.erase p }
  match s.live p with
  | none => { t with locked := true, undefined := true }
  | some c => match s.clientList c.id with
    | none => { t with locked := true }
    | some q => match s.live q with
      | none => { t with locked := true, undefined := true }
      | some w => { t with
          wrappers := s.wrappers.set q { w with freed := true }
          clientList := Function.update s.clientList c.id none }

/-- A message of `send_message_to_all_server`, or of `send_message_to_one_server`. -/
def message (p q : ℕ) (protocol : String) (connections : List String) : Sending :=
  if protocol = "ABD" then
    ⟨p, q, .replicate connections.length false, connections.length / 2 + 1, false⟩
  else ⟨p, q, .replicate (min connections.length 1) false, min connections.length 1, false⟩

/-- A put or get takes the wrapper that the list has for the id of its client. -/
def send (s : ClientLibrary) (p : ℕ) : ClientLibrary :=
  match s.live p with
  | none => { s with undefined := true }
  | some c => match (s.clientList c.id).bind fun q => (s.live q).map (q, ·) with
    | none => { s with undefined := true }
    | some (q, w) => { s with sendings := s.sendings ++ [message p q c.protocol w.connections] }

/-- A handler uses its connection. -/
def handler (s : ClientLibrary) (k j : ℕ) (x : Sending) : ClientLibrary :=
  match s.live x.wrapper with
  | none => { s with undefined := true }
  | some _ => { s with sendings := s.sendings.set k { x with handlers := x.handlers.set j true } }

end ClientLibrary

/-- `client_instance` and `client_delete` wait for the mutex of the list. -/
def clientStep (s : ClientLibrary) : ClientAction → Option ClientLibrary
  | .clientInstance id protocol servers =>
    if s.locked ∨ s.undefined then none else some (s.clientInstance id protocol servers)
  | .send p => if s.undefined then none else some (s.send p)
  | .handler k j => if s.undefined then none else s.sendings[k]?.bind fun x =>
      if x.handlers[j]? = some false then some (s.handler k j x) else none
  | .returns k => if s.undefined then none else s.sendings[k]?.bind fun x =>
      if x.need ≤ x.handlers.count true then
        some { s with sendings := s.sendings.set k { x with returned := true } }
      else none
  | .clientDelete p => if s.locked ∨ s.undefined then none else some (s.clientDelete p)

section Guards

/-- The program uses clients that it has not deleted, and deletes them when its calls
on them have returned. -/
def UsesOpened (s : ClientLibrary) : ClientAction → Prop
  | .send p => p ∈ s.opened
  | .clientDelete p => p ∈ s.opened ∧ ∀ x ∈ s.sendings, x.client = p → x.returned = true
  | _ => True

/-- No two clients have one id at a time, and none is deleted while a handler still has
to use a connection of it. -/
def Careful (s : ClientLibrary) (a : ClientAction) : Prop :=
  UsesOpened s a ∧ match a with
    | .clientInstance id _ _ => ∀ p ∈ s.opened, s.wrappers[p]?.map ClientWrapper.id ≠ some id
    | .clientDelete p => ∀ x ∈ s.sendings, x.client = p → false ∉ x.handlers
    | _ => True

instance (s : ClientLibrary) : (a : ClientAction) → Decidable (UsesOpened s a)
  | .send p => inferInstanceAs (Decidable (p ∈ s.opened))
  | .clientDelete p => inferInstanceAs
      (Decidable (p ∈ s.opened ∧ ∀ x ∈ s.sendings, x.client = p → x.returned = true))
  | .clientInstance _ _ _ | .handler _ _ | .returns _ => isTrue trivial

instance (s : ClientLibrary) (a : ClientAction) : Decidable (Careful s a) :=
  match a with
  | .clientInstance id protocol servers => inferInstanceAs (Decidable
      (UsesOpened s (.clientInstance id protocol servers) ∧
        ∀ p ∈ s.opened, s.wrappers[p]?.map ClientWrapper.id ≠ some id))
  | .clientDelete p => inferInstanceAs (Decidable (UsesOpened s (.clientDelete p) ∧
      ∀ x ∈ s.sendings, x.client = p → false ∉ x.handlers))
  | .send p => inferInstanceAs (Decidable (UsesOpened s (.send p) ∧ True))
  | .handler k j => inferInstanceAs (Decidable (UsesOpened s (.handler k j) ∧ True))
  | .returns k => inferInstanceAs (Decidable (UsesOpened s (.returns k) ∧ True))

/-- No freed memory was used, the mutex is free, and every message went out with the
connections of its own client. -/
structure ClientLibrary.Sound (s : ClientLibrary) : Prop where
  defined : s.undefined = false
  unlocked : s.locked = false
  own : ∀ x ∈ s.sendings, x.wrapper = x.client

end Guards

section Registered

variable {s t : ClientLibrary} {p q : ℕ} {c : ClientWrapper}

/-- The list has just the clients that are not deleted, each under its id, and these
are all that is allocated. -/
structure Registered (s : ClientLibrary) : Prop where
  sound : s.Sound
  nodup : s.opened.Nodup
  listed : ∀ p ∈ s.opened, ∃ c, s.live p = some c ∧ s.clientList c.id = some p
  client : ∀ id p, s.clientList id = some p → p ∈ s.opened ∧ (s.live p).map ClientWrapper.id = some id
  live : ∀ p c, s.live p = some c → p ∈ s.opened
  pending : ∀ x ∈ s.sendings, false ∈ x.handlers → x.client ∈ s.opened

namespace ClientLibrary

theorem live_eq_some : s.live p = some c ↔ s.wrappers[p]? = some c ∧ c.freed = false := by
  simp [live, Option.filter_eq_some_iff]

theorem live_clientInstance (s : ClientLibrary) (id : UInt32) (protocol : String)
    (servers : List ServerInfo) (p : ℕ) :
    (s.clientInstance id protocol servers).live p =
      if p = s.wrappers.length then some ⟨id, protocol, serverConnections servers, false⟩
      else s.live p := by
  simp only [live, clientInstance]
  rcases Nat.lt_trichotomy p s.wrappers.length with hlt | rfl | hgt
  · rw [List.getElem?_append_left hlt, if_neg (Nat.ne_of_lt hlt)]
  · simp
  · have hlen : (s.wrappers ++ [(⟨id, protocol, serverConnections servers, false⟩ :
        ClientWrapper)]).length ≤ p := by
      rw [List.length_append, List.length_singleton]
      exact hgt
    rw [List.getElem?_eq_none hlen, List.getElem?_eq_none (Nat.le_of_lt hgt),
      if_neg (Nat.ne_of_gt hgt)]

end ClientLibrary

theorem Registered.lt_length (h : Registered s) (hp : p ∈ s.opened) : p < s.wrappers.length := by
  obtain ⟨c, hc, _⟩ := h.listed p hp
  exact (List.getElem?_eq_some_iff.mp (ClientLibrary.live_eq_some.mp hc).1).1

theorem registered_init : Registered .init where
  sound := ⟨rfl, rfl, by simp [ClientLibrary.init]⟩
  nodup := List.nodup_nil
  listed := by simp [ClientLibrary.init]
  client := by simp [ClientLibrary.init]
  live := by simp [ClientLibrary.init, ClientLibrary.live]
  pending := by simp [ClientLibrary.init]

theorem ClientLibrary.Sound.clientStep_eq (h : s.Sound) :
    (∀ id protocol servers, clientStep s (.clientInstance id protocol servers) =
      some (s.clientInstance id protocol servers)) ∧
    (∀ p, clientStep s (.clientDelete p) = some (s.clientDelete p)) ∧
    ∀ p, clientStep s (.send p) = some (s.send p) := by
  simp [clientStep, h.unlocked, h.defined]

theorem Registered.clientInstance (h : Registered s) {id : UInt32} {protocol : String}
    {servers : List ServerInfo}
    (hfresh : ∀ p ∈ s.opened, s.wrappers[p]?.map ClientWrapper.id ≠ some id) :
    Registered (s.clientInstance id protocol servers) := by
  have hne : ∀ p ∈ s.opened, p ≠ s.wrappers.length := fun p hp => Nat.ne_of_lt (h.lt_length hp)
  refine ⟨⟨h.sound.defined, h.sound.unlocked, h.sound.own⟩, ?_, ?_, ?_, ?_, ?_⟩
  · exact List.nodup_append.mpr ⟨h.nodup, List.nodup_singleton _, by simpa using hne⟩
  · intro p hp
    rw [ClientLibrary.live_clientInstance]
    rcases List.mem_append.mp hp with hp | hp
    · obtain ⟨c, hc, hlist⟩ := h.listed p hp
      have hid : c.id ≠ id := by
        have hf := hfresh p hp
        rw [(ClientLibrary.live_eq_some.mp hc).1] at hf
        simpa using hf
      exact ⟨c, by rw [if_neg (hne p hp), hc], by simp [ClientLibrary.clientInstance, hid, hlist]⟩
    · rw [List.mem_singleton.mp hp, if_pos rfl]
      exact ⟨_, rfl, by simp [ClientLibrary.clientInstance]⟩
  · intro id' p hp
    rw [ClientLibrary.live_clientInstance]
    by_cases hid : id' = id
    · simp only [ClientLibrary.clientInstance, hid, Function.update_self, Option.some.injEq] at hp ⊢
      simp [← hp]
    · simp only [ClientLibrary.clientInstance, ne_eq, hid, not_false_eq_true,
        Function.update_of_ne] at hp
      obtain ⟨hopen, hlive⟩ := h.client id' p hp
      exact ⟨List.mem_append_left _ hopen, by rw [if_neg (hne p hopen), hlive]⟩
  · intro p c hc
    rw [ClientLibrary.live_clientInstance] at hc
    split at hc
    next he => exact he ▸ List.mem_append_right _ List.mem_cons_self
    next => exact List.mem_append_left _ (h.live p c hc)
  · exact fun x hx hfalse => List.mem_append_left _ (h.pending x hx hfalse)

theorem Registered.clientDelete_eq (h : Registered s) (hp : p ∈ s.opened) :
    ∃ c, s.live p = some c ∧ s.clientList c.id = some p ∧ s.clientDelete p =
      { s with
        opened := s.opened.erase p
        wrappers := s.wrappers.set p { c with freed := true }
        clientList := Function.update s.clientList c.id none } := by
  obtain ⟨c, hc, hlist⟩ := h.listed p hp
  exact ⟨c, hc, hlist, by simp [ClientLibrary.clientDelete, hc, hlist]⟩

theorem Registered.send_eq (h : Registered s) (hp : p ∈ s.opened) :
    ∃ c, s.live p = some c ∧ s.send p = { s with
      sendings := s.sendings ++ [ClientLibrary.message p p c.protocol c.connections] } := by
  obtain ⟨c, hc, hlist⟩ := h.listed p hp
  exact ⟨c, hc, by simp [ClientLibrary.send, hc, hlist]⟩

theorem Registered.clientDelete (h : Registered s) (hp : p ∈ s.opened)
    (hdone : ∀ x ∈ s.sendings, x.client = p → false ∉ x.handlers) :
    Registered (s.clientDelete p) := by
  obtain ⟨c, hc, hlist, he⟩ := h.clientDelete_eq hp
  have hlive : ∀ q, (s.clientDelete p).live q = if q = p then none else s.live q := by
    intro q
    rw [he]
    simp only [ClientLibrary.live, List.getElem?_set]
    by_cases hq : q = p
    · subst hq
      simp [h.lt_length hp]
    · simp [hq, Ne.symm hq]
  have hmem : ∀ q, q ∈ s.opened.erase p ↔ q ≠ p ∧ q ∈ s.opened := fun q => h.nodup.mem_erase_iff
  rw [he] at hlive ⊢
  refine ⟨⟨h.sound.defined, h.sound.unlocked, h.sound.own⟩, h.nodup.erase p, ?_, ?_, ?_, ?_⟩
  · intro q hq
    obtain ⟨hqp, hq⟩ := (hmem q).mp hq
    obtain ⟨d, hd, hlist'⟩ := h.listed q hq
    have hid : d.id ≠ c.id := by
      intro hid
      rw [hid, hlist] at hlist'
      exact hqp (Option.some.inj hlist').symm
    exact ⟨d, by rw [hlive, if_neg hqp, hd], by simp [hid, hlist']⟩
  · intro id q hq
    by_cases hid : id = c.id
    · simp [hid] at hq
    · simp only [ne_eq, hid, not_false_eq_true, Function.update_of_ne] at hq
      obtain ⟨hopen, hqid⟩ := h.client id q hq
      have hqp : q ≠ p := by
        rintro rfl
        rw [hc, Option.map_some, Option.some.injEq] at hqid
        exact hid hqid.symm
      exact ⟨(hmem q).mpr ⟨hqp, hopen⟩, by rw [hlive, if_neg hqp, hqid]⟩
  · intro q d hd
    rw [hlive] at hd
    split at hd
    next => cases hd
    next hqp => exact (hmem q).mpr ⟨hqp, h.live q d hd⟩
  · intro x hx hfalse
    refine (hmem x.client).mpr ⟨fun hxp => hdone x hx hxp hfalse, h.pending x hx hfalse⟩

/-- Only the messages change, and a handler that has not ended was there before or is
that of a client that is not deleted. -/
theorem Registered.sends (h : Registered s) {sendings : List Sending}
    (hown : ∀ x ∈ sendings, x.wrapper = x.client)
    (hpending : ∀ x ∈ sendings, false ∈ x.handlers → x.client ∈ s.opened) :
    Registered { s with sendings := sendings } :=
  ⟨⟨h.sound.defined, h.sound.unlocked, hown⟩, h.nodup, h.listed, h.client, h.live, hpending⟩

theorem Registered.send (h : Registered s) (hp : p ∈ s.opened) : Registered (s.send p) := by
  obtain ⟨c, _, he⟩ := h.send_eq hp
  have hmessage : (ClientLibrary.message p p c.protocol c.connections).wrapper = p ∧
      (ClientLibrary.message p p c.protocol c.connections).client = p := by
    unfold ClientLibrary.message
    split <;> exact ⟨rfl, rfl⟩
  rw [he]
  refine h.sends (fun x hx => ?_) (fun x hx hfalse => ?_)
  · rcases List.mem_append.mp hx with hx | hx
    · exact h.sound.own x hx
    · rw [List.mem_singleton.mp hx, hmessage.1, hmessage.2]
  · rcases List.mem_append.mp hx with hx | hx
    · exact h.pending x hx hfalse
    · rw [List.mem_singleton.mp hx, hmessage.2]
      exact hp

theorem Registered.set (h : Registered s) {k : ℕ} {x y : Sending} (hx : s.sendings[k]? = some x)
    (hwrapper : y.wrapper = x.wrapper) (hclient : y.client = x.client)
    (hhandlers : false ∈ y.handlers → false ∈ x.handlers) :
    Registered { s with sendings := s.sendings.set k y } := by
  have hmem := List.mem_of_getElem? hx
  refine h.sends (fun z hz => ?_) (fun z hz hfalse => ?_)
  · rcases List.mem_or_eq_of_mem_set hz with hz | rfl
    · exact h.sound.own z hz
    · rw [hwrapper, hclient, h.sound.own x hmem]
  · rcases List.mem_or_eq_of_mem_set hz with hz | rfl
    · exact h.pending z hz hfalse
    · exact hclient ▸ h.pending x hmem (hhandlers hfalse)

theorem Registered.handler (h : Registered s) {k j : ℕ} {x : Sending}
    (hx : s.sendings[k]? = some x) (hj : x.handlers[j]? = some false) :
    Registered (s.handler k j x) := by
  have hmem := List.mem_of_getElem? hx
  obtain ⟨c, hc, _⟩ := h.listed _ (h.pending x hmem (List.mem_of_getElem? hj))
  rw [← h.sound.own x hmem] at hc
  rw [ClientLibrary.handler, hc]
  refine h.set hx rfl rfl (fun hfalse => ?_)
  rcases List.mem_or_eq_of_mem_set hfalse with hfalse | hfalse
  · exact hfalse
  · cases hfalse

theorem Registered.preserved {a : ClientAction} (h : Registered s) (hok : Careful s a)
    (hs : clientStep s a = some t) : Registered t := by
  have hdefined : ¬ s.undefined = true := by simp [h.sound.defined]
  obtain ⟨hinstance, hdelete, hsend⟩ := h.sound.clientStep_eq
  cases a with
  | clientInstance id protocol servers =>
    obtain rfl := Option.some.inj ((hinstance id protocol servers).symm.trans hs)
    exact h.clientInstance hok.2
  | send p =>
    obtain rfl := Option.some.inj ((hsend p).symm.trans hs)
    exact h.send hok.1
  | handler k j =>
    rw [clientStep, if_neg hdefined] at hs
    obtain ⟨x, hx, hs⟩ := Option.bind_eq_some_iff.mp hs
    obtain ⟨hj, hs⟩ := Option.ite_none_right_eq_some.mp hs
    exact Option.some.inj hs ▸ h.handler hx hj
  | returns k =>
    rw [clientStep, if_neg hdefined] at hs
    obtain ⟨x, hx, hs⟩ := Option.bind_eq_some_iff.mp hs
    obtain ⟨_, hs⟩ := Option.ite_none_right_eq_some.mp hs
    exact Option.some.inj hs ▸ h.set hx rfl rfl id
  | clientDelete p =>
    obtain rfl := Option.some.inj ((hdelete p).symm.trans hs)
    exact h.clientDelete hok.1.1 hok.2

theorem registered_of_reachable (h : ReachableWhen clientStep Careful .init s) : Registered s :=
  h.invariant registered_init (fun _ _ _ _ hu hok he => hu.preserved hok he)

end Registered

section Exact

variable {s t : ClientLibrary}

/-- A client that takes the id of another gets its messages. -/
theorem Registered.unsound_of_id_taken (h : Registered s) {id : UInt32} (protocol : String)
    (servers : List ServerInfo) {p : ℕ} (hp : p ∈ s.opened)
    (hid : s.wrappers[p]?.map ClientWrapper.id = some id) :
    ∃ u, ReachableWhen clientStep Careful (s.clientInstance id protocol servers) u ∧ ¬ u.Sound := by
  let t := s.clientInstance id protocol servers
  have hopen : p ∈ t.opened := List.mem_append_left _ hp
  have hne : p ≠ s.wrappers.length := Nat.ne_of_lt (h.lt_length hp)
  have hstep : clientStep t (.send p) = some (t.send p) := by
    rw [clientStep, if_neg (by simp [t, ClientLibrary.clientInstance, h.sound.defined])]
  refine ⟨t.send p, .single ⟨.send p, ⟨hopen, trivial⟩, hstep⟩, fun hsound => hne ?_⟩
  obtain ⟨c, hc, _⟩ := h.listed p hp
  have hcid : c.id = id := by
    rw [(ClientLibrary.live_eq_some.mp hc).1] at hid
    simpa using hid
  have hlive : t.live p = some c := by rw [ClientLibrary.live_clientInstance, if_neg hne, hc]
  have hnew : t.live s.wrappers.length = some ⟨id, protocol, serverConnections servers, false⟩ := by
    rw [ClientLibrary.live_clientInstance, if_pos rfl]
  have hlist : t.clientList c.id = some s.wrappers.length := by
    simp [t, ClientLibrary.clientInstance, hcid]
  have hsend : ClientLibrary.message p s.wrappers.length c.protocol (serverConnections servers) ∈
      (t.send p).sendings := by
    simp [ClientLibrary.send, hlive, hlist, hnew]
  have hown := hsound.own _ hsend
  unfold ClientLibrary.message at hown
  split at hown <;> exact hown.symm

/-- What a handler still uses is freed. -/
theorem Registered.unsound_of_pending (h : Registered s) {p : ℕ} {x : Sending}
    (hp : p ∈ s.opened) (hx : x ∈ s.sendings) (hclient : x.client = p)
    (hfalse : false ∈ x.handlers) :
    ∃ u, ReachableWhen clientStep Careful (s.clientDelete p) u ∧ ¬ u.Sound := by
  obtain ⟨k, hk⟩ := List.getElem?_of_mem hx
  obtain ⟨j, hj⟩ := List.getElem?_of_mem hfalse
  obtain ⟨c, _, _, he⟩ := h.clientDelete_eq hp
  have hsendings : (s.clientDelete p).sendings[k]? = some x := by rw [he, hk]
  have hgone : (s.clientDelete p).live x.wrapper = none := by
    rw [he, h.sound.own x hx, hclient, ClientLibrary.live]
    simp [h.lt_length hp]
  have hstep : clientStep (s.clientDelete p) (.handler k j) =
      some ((s.clientDelete p).handler k j x) := by
    rw [clientStep, hsendings, if_neg (by simp [he, h.sound.defined])]
    simp [hj]
  refine ⟨_, .single ⟨.handler k j, ⟨trivial, trivial⟩, hstep⟩, fun hsound => ?_⟩
  have hdefined := hsound.defined
  simp [ClientLibrary.handler, hgone] at hdefined

/-- A program that uses and deletes the clients it has can go on safely just when it is
careful. -/
theorem staysSound_iff (h : ReachableWhen clientStep Careful .init s) {a : ClientAction}
    (huses : UsesOpened s a) (hs : clientStep s a = some t) :
    (∀ u, ReachableWhen clientStep Careful t u → u.Sound) ↔ Careful s a := by
  have hreg := registered_of_reachable h
  constructor
  · intro hsound
    cases a with
    | send | handler | returns => exact ⟨huses, trivial⟩
    | clientInstance id protocol servers =>
      refine ⟨huses, fun p hp hid => ?_⟩
      obtain rfl := Option.some.inj ((hreg.sound.clientStep_eq.1 id protocol servers).symm.trans hs)
      obtain ⟨u, hu, hnot⟩ := hreg.unsound_of_id_taken protocol servers hp hid
      exact hnot (hsound u hu)
    | clientDelete p =>
      refine ⟨huses, fun x hx hclient hfalse => ?_⟩
      obtain rfl := Option.some.inj ((hreg.sound.clientStep_eq.2.1 p).symm.trans hs)
      obtain ⟨u, hu, hnot⟩ := hreg.unsound_of_pending huses.1 hx hclient hfalse
      exact hnot (hsound u hu)
  · intro hok u hu
    exact (hu.invariant (hreg.preserved hok hs)
      (fun _ _ _ _ hv hcareful he => hv.preserved hcareful he)).sound

end Exact

section Answers

variable {s t : ClientLibrary} {p : ℕ}

/-- A message that has returned has the replies it needs, and those to one server need
all replies. -/
def Answered (s : ClientLibrary) : Prop :=
  ∀ x ∈ s.sendings, (x.returned = true → x.need ≤ x.handlers.count true) ∧
    ∃ c, s.wrappers[x.client]? = some c ∧ (c.protocol ≠ "ABD" → x.handlers.length = x.need)

theorem count_set_true {l : List Bool} {j : ℕ} (hj : l[j]? = some false) :
    l.count true ≤ (l.set j true).count true := by
  obtain ⟨hlt, he⟩ := List.getElem?_eq_some_iff.mp hj
  rw [List.count_set hlt, he]
  simp

theorem Answered.set (h : Answered s) {k : ℕ} {x y : Sending} (hx : s.sendings[k]? = some x)
    (hclient : y.client = x.client) (hneed : y.need = x.need)
    (hlength : y.handlers.length = x.handlers.length)
    (hcount : y.returned = true → y.need ≤ y.handlers.count true) :
    Answered { s with sendings := s.sendings.set k y } := by
  intro z hz
  rcases List.mem_or_eq_of_mem_set hz with hz | rfl
  · exact h z hz
  · obtain ⟨_, c, hc, hall⟩ := h x (List.mem_of_getElem? hx)
    exact ⟨hcount, c, hclient ▸ hc, fun hprotocol => by rw [hlength, hneed, hall hprotocol]⟩

theorem Answered.preserved {a : ClientAction} (h : Answered s) (hreg : Registered s)
    (hok : Careful s a) (hs : clientStep s a = some t) : Answered t := by
  have hdefined : ¬ s.undefined = true := by simp [hreg.sound.defined]
  obtain ⟨hinstance, hdelete, hsend⟩ := hreg.sound.clientStep_eq
  cases a with
  | clientInstance id protocol servers =>
    obtain rfl := Option.some.inj ((hinstance id protocol servers).symm.trans hs)
    intro x hx
    obtain ⟨hcount, c, hc, hall⟩ := h x hx
    refine ⟨hcount, c, ?_, hall⟩
    rw [← hc]
    exact List.getElem?_append_left (List.getElem?_eq_some_iff.mp hc).1
  | send p =>
    obtain rfl := Option.some.inj ((hsend p).symm.trans hs)
    obtain ⟨c, hc, he⟩ := hreg.send_eq hok.1
    rw [he]
    intro x hx
    rcases List.mem_append.mp hx with hx | hx
    · exact h x hx
    · rw [List.mem_singleton.mp hx, ClientLibrary.message]
      split
      next habd => exact ⟨nofun, c, (ClientLibrary.live_eq_some.mp hc).1, fun hne => absurd habd hne⟩
      next => exact ⟨nofun, c, (ClientLibrary.live_eq_some.mp hc).1, fun _ => by simp⟩
  | handler k j =>
    rw [clientStep, if_neg hdefined] at hs
    obtain ⟨x, hx, hs⟩ := Option.bind_eq_some_iff.mp hs
    obtain ⟨hj, hs⟩ := Option.ite_none_right_eq_some.mp hs
    obtain rfl := Option.some.inj hs
    unfold ClientLibrary.handler
    split
    next => exact h
    next =>
      refine h.set hx rfl rfl (by simp) (fun hret => ?_)
      exact Nat.le_trans ((h x (List.mem_of_getElem? hx)).1 hret) (count_set_true hj)
  | returns k =>
    rw [clientStep, if_neg hdefined] at hs
    obtain ⟨x, hx, hs⟩ := Option.bind_eq_some_iff.mp hs
    obtain ⟨hneed, hs⟩ := Option.ite_none_right_eq_some.mp hs
    exact Option.some.inj hs ▸ h.set hx rfl rfl rfl (fun _ => hneed)
  | clientDelete p =>
    obtain rfl := Option.some.inj ((hdelete p).symm.trans hs)
    obtain ⟨c, hc, _, he⟩ := hreg.clientDelete_eq hok.1.1
    rw [he]
    intro x hx
    obtain ⟨hcount, d, hd, hall⟩ := h x hx
    rw [List.getElem?_set]
    by_cases hp : p = x.client
    · subst hp
      obtain rfl := Option.some.inj ((ClientLibrary.live_eq_some.mp hc).1.symm.trans hd)
      exact ⟨hcount, { c with freed := true }, by simp [hreg.lt_length hok.1.1], hall⟩
    · exact ⟨hcount, d, by rw [if_neg hp, hd], hall⟩

/-- No handler of a message to one server goes on when its call has returned. -/
theorem careful_clientDelete (h : ReachableWhen clientStep Careful .init s)
    (huses : UsesOpened s (.clientDelete p))
    (hprotocol : s.wrappers[p]?.map ClientWrapper.protocol ≠ some "ABD") :
    Careful s (.clientDelete p) := by
  have hanswered : Answered s := h.invariant (P := Answered) (by simp [Answered, ClientLibrary.init])
    (fun _ _ _ hr hu hok he => hu.preserved (registered_of_reachable hr) hok he)
  refine ⟨huses, fun x hx hclient hfalse => ?_⟩
  obtain ⟨hcount, c, hc, hall⟩ := hanswered x hx
  have hlength : x.handlers.length ≤ x.handlers.count true := by
    rw [hall (by simpa [← hclient, hc] using hprotocol)]
    exact hcount (huses.2 x hx hclient)
  have htrue := List.count_eq_length.mp (Nat.le_antisymm List.count_le_length hlength)
  exact Bool.noConfusion (htrue false hfalse)

end Answers

section Early

/-- A put of an ABD client returns when two of three servers have replied to its WRITE. -/
def twoReplies : List ClientAction :=
  [.clientInstance 7 "ABD" [⟨"10.0.0.1", 50⟩, ⟨"10.0.0.2", 50⟩, ⟨"10.0.0.3", 50⟩], .send 0,
    .handler 0 0, .handler 0 1, .returns 0, .handler 0 2, .send 0, .handler 1 0, .handler 1 1,
    .returns 1]

theorem twoReplies_staysSound : ∃ s t,
    runWhen clientStep Careful .init twoReplies = some s ∧
    clientStep s (.clientDelete 0) = some t ∧ ¬ Careful s (.clientDelete 0) ∧
    ((∀ u, ReachableWhen clientStep Careful t u → u.Sound) ↔ Careful s (.clientDelete 0)) := by
  obtain ⟨s, hs, huses, hstep, hnot⟩ := exists_of_run (P := fun s : ClientLibrary =>
    UsesOpened s (.clientDelete 0) ∧ (clientStep s (.clientDelete 0)).isSome ∧
      ¬ Careful s (.clientDelete 0))
    (show (runWhen clientStep Careful .init twoReplies).any _ = true by decide +kernel)
  obtain ⟨t, ht⟩ := Option.isSome_iff_exists.mp hstep
  exact ⟨s, t, hs, ht, hnot, staysSound_iff (reachableWhen_of_runWhen hs) huses ht⟩

end Early

end KeyValueStore
