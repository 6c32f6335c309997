import KeyValueStore.AbdStore
import KeyValueStore.Agreement
import KeyValueStore.RoundNumbers

/-! ACCEPT requests that share a proposal. Proposals carry the client id of the
request that a call serves, so they tell servers apart only if requests with one
client id reach one server; a READ is sent without its client's id. -/

namespace KeyValueStore

variable {n : ℕ} {s t : MpSystem n} {a : MpAction n}

section Routing

/-- Whether `send_message_to_one_server` sends a request to a server of the list. -/
def ClientLib.sendMessageToOneServer (req : ClientLib.Request) (i : Fin n) : Bool :=
  req.tag.clientId.toNat % n == i

/-- Servers get what the `put` and `get` of MP clients send them. -/
def RoutedByClient (_ : MpSystem n) : MpAction n → Prop
  | .insertCommand i request _ _ => ∃ req : ClientLib.Request, req.protocol = .mp ∧
      (req.type = .read ∨ req.type = .write) ∧ request = ClientLib.makeReqPayload req ∧
      ClientLib.sendMessageToOneServer req i
  | _ => True

/-- Requests for one key that carry the same client id reach one server. -/
def RoutedByCarriedId (route : Bytes → UInt32 → Fin n) (_ : MpSystem n) : MpAction n → Prop
  | .insertCommand i request _ _ => i = route (cStr request.key) request.clientid
  | _ => True

instance (route : Bytes → UInt32 → Fin n) (s : MpSystem n) (a : MpAction n) :
    Decidable (RoutedByCarriedId route s a) :=
  match a with
  | .insertCommand _ _ _ _ => inferInstanceAs (Decidable (_ = _))
  | .startRound _ | .handle _ _ | .finishPrepare _ _ _ | .finishAccept _ _ _ | .finish _
  | .answer _ => .isTrue trivial

end Routing

section Inversion

variable {b : Fin n} {call : InsertCall}

theorem MpSteps.call_client (hs : MpSteps s a t) (hc : (t.servers b).call = some call) :
    (∃ call', (s.servers b).call = some call' ∧ call'.key = call.key ∧
      call'.origCmd.acceptedProposal.proposalClientId =
        call.origCmd.acceptedProposal.proposalClientId) ∨
    ∃ request rand types, a = .insertCommand b request rand types ∧ call.key = cStr request.key ∧
      call.origCmd.acceptedProposal.proposalClientId = request.clientid.toInt32 := by
  cases hs with
  | @insertCommand i request rand types st call₁ hidle hstart =>
    rcases call_advance hc with ⟨rfl, hc⟩ | hc
    · obtain rfl := Option.some.inj hc
      refine .inr ⟨request, rand, types, rfl, ?_, ?_⟩
      · exact congrArg (fun x => cStr (Content.key x)) hstart.content
      · rw [hstart.accepted]
    · exact .inl ⟨call, hc, rfl, rfl⟩
  | handle => exact .inl ⟨call, call_handled hc, rfl, rfl⟩
  | startRound hcall hphase horig =>
    rcases call_advance_broadcast hc with ⟨rfl, hc⟩ | hc
    · obtain rfl := Option.some.inj hc
      exact .inl ⟨_, hcall, horig ▸ rfl, horig ▸ rfl⟩
    · exact .inl ⟨call, hc, rfl, rfl⟩
  | prepareSend hcall =>
    rcases call_advance_broadcast hc with ⟨rfl, hc⟩ | hc
    · obtain rfl := Option.some.inj hc
      exact .inl ⟨_, hcall, rfl, rfl⟩
    · exact .inl ⟨call, hc, rfl, rfl⟩
  | prepareRetry hcall | acceptDone hcall | acceptRetry hcall =>
    rcases call_advance hc with ⟨rfl, hc⟩ | hc
    · obtain rfl := Option.some.inj hc
      exact .inl ⟨_, hcall, rfl, rfl⟩
    · exact .inl ⟨call, hc, rfl, rfl⟩
  | own hcall _ hrec | retry hcall _ hrec | defeated hcall _ hrec =>
    rcases call_advance hc with ⟨rfl, hc⟩ | hc
    · obtain rfl := Option.some.inj hc
      cases hrec
      exact .inl ⟨_, hcall, rfl, rfl⟩
    · exact .inl ⟨call, hc, rfl, rfl⟩
  | answer hcall =>
    rcases call_advance hc with ⟨rfl, hc⟩ | hc
    · simp at hc
    · exact .inl ⟨call, hc, rfl, rfl⟩

theorem MpSteps.call_preparing (hs : MpSteps s a t) (hc : (t.servers b).call = some call)
    {round : ℕ} {own : Option (Proposal × Content)} (hp : call.phase = .preparing round own) :
    (s.servers b).call = some call ∨ round = (s.servers b).broadcasts.length ∧
      (call.origCmd.acceptedProposal, round) ∈ roundsAt t.history b call.key call.currIdx := by
  cases hs with
  | insertCommand hidle hstart =>
    rcases call_advance hc with ⟨rfl, hc⟩ | hc
    · obtain rfl := Option.some.inj hc
      simp [hstart.phase] at hp
    · exact .inl hc
  | handle => exact .inl (call_handled hc)
  | startRound hcall hphase horig =>
    rcases call_advance_broadcast hc with ⟨rfl, hc⟩ | hc
    · obtain rfl := Option.some.inj hc
      obtain ⟨rfl, _⟩ := Phase.preparing.inj hp
      refine .inr ⟨rfl, ?_⟩
      rw [MpSystem.broadcast_history, MpSystem.advance_history, List.singleton_append,
        roundsAt_promised, if_pos ⟨rfl, horig ▸ rfl, rfl⟩]
      exact List.mem_cons_self
    · exact .inl hc
  | prepareSend =>
    rcases call_advance_broadcast hc with ⟨rfl, hc⟩ | hc
    · obtain rfl := Option.some.inj hc
      simp at hp
    · exact .inl hc
  | prepareRetry | acceptDone | acceptRetry | own | retry | defeated =>
    rcases call_advance hc with ⟨rfl, hc⟩ | hc
    · obtain rfl := Option.some.inj hc
      simp at hp
    · exact .inl hc
  | answer =>
    rcases call_advance hc with ⟨rfl, hc⟩ | hc
    · simp at hc
    · exact .inl hc

/-- An ACCEPT is sent by the call whose round it ends. -/
theorem MpSteps.sentAccept_mem (hs : MpSteps s a t) {key : Bytes} {j : ℕ} {p : Proposal}
    {r : Fin n × ℕ} {x : Content} (hm : .sentAccept key j p r x ∈ t.history) :
    .sentAccept key j p r x ∈ s.history ∨ t.history = .sentAccept key j p r x :: s.history ∧
      (∃ call own, (s.servers r.1).call = some call ∧ call.phase = .preparing r.2 own ∧
        call.key = key ∧ call.currIdx = j ∧ call.origCmd.acceptedProposal = p) ∧
      ∀ call, (t.servers r.1).call = some call → ∀ round own, call.phase ≠ .preparing round own := by
  cases hs with
  | @prepareSend i call round own order junk tempCmd sentCmd vec hcall hphase hvec htemp hcode
      hsent =>
    rcases List.mem_cons.mp hm with he | hm
    · cases he
      refine .inr ⟨rfl, ⟨call, own, hcall, hphase, rfl, rfl, hsent ▸ rfl⟩, fun c hc round' own' => ?_⟩
      rw [MpSystem.advance_broadcast_servers_self] at hc
      obtain rfl := Option.some.inj hc
      simp
    · exact .inl hm
  | handle =>
    rcases List.mem_append.mp hm with hm | hm
    · rcases of_mem_handlerEvents hm with ⟨_, he | he⟩ <;> cases he
    · exact .inl hm
  | _ => exact .inl (by simpa using hm)

theorem MpSteps.round_mem (hs : MpSteps s a t) {key : Bytes} {j : ℕ} {x : Proposal × ℕ}
    (hm : x ∈ roundsAt t.history b key j) : x ∈ roundsAt s.history b key j ∨
      ∃ call, (s.servers b).call = some call ∧ call.key = key ∧
        x.1 = call.origCmd.acceptedProposal := by
  have hquiet : ∀ events : List (MpEvent n), t.history = events ++ s.history →
      (∀ e ∈ events, e.round? b key j = none) → x ∈ roundsAt s.history b key j :=
    fun events ht he => roundsAt_append_of_none he ▸ ht ▸ hm
  cases hs with
  | startRound hcall hphase horig =>
    rw [MpSystem.broadcast_history, MpSystem.advance_history, List.singleton_append,
      roundsAt_promised] at hm
    split at hm
    next hat =>
      obtain ⟨rfl, rfl, rfl⟩ := hat
      rcases List.mem_cons.mp hm with rfl | hm
      · exact .inr ⟨_, hcall, rfl, horig ▸ rfl⟩
      · exact .inl hm
    next => exact .inl hm
  | handle =>
    refine .inl ?_
    rw [MpSystem.handled_history, handlerEvents_round] at hm
    exact hm
  | insertCommand | prepareSend | answer => exact .inl (hquiet [_] rfl (by simp [MpEvent.round?]))
  | prepareRetry | acceptDone | acceptRetry | retry => exact .inl (hquiet [] rfl (by simp))
  | own => exact .inl (hquiet [_, _, _] rfl (by simp [MpEvent.round?]))
  | defeated => exact .inl (hquiet [_, _] rfl (by simp [MpEvent.round?]))

end Inversion

section Invariant

/-- Each ACCEPT belongs to a round of its sender, and a round sends one at most. -/
structure SentInv (s : MpSystem n) : Prop where
  backed : ∀ key j p r x, .sentAccept key j p r x ∈ s.history →
    (p, r.2) ∈ roundsAt s.history r.1 key j
  preparing : ∀ b call round own, (s.servers b).call = some call →
    call.phase = .preparing round own →
    (call.origCmd.acceptedProposal, round) ∈ roundsAt s.history b call.key call.currIdx ∧
      ∀ key j p x, .sentAccept key j p (b, round) x ∉ s.history
  once : ∀ key j p x key' j' p' x' r, .sentAccept key j p r x ∈ s.history →
    .sentAccept key' j' p' r x' ∈ s.history → x = x'

theorem sentInv_init : SentInv (MpSystem.init : MpSystem n) where
  backed := by simp [MpSystem.init]
  preparing := by simp [MpSystem.init, MpServer.start]
  once := by simp [MpSystem.init]

theorem SentInv.step (h : SentInv s) (hr : RoundInv s) (hs : MpSteps s a t) : SentInv t where
  backed key j p r x hm := by
    refine hs.extends.roundsAt_mono ?_
    rcases hs.sentAccept_mem hm with hm | ⟨_, ⟨call, own, hcall, hphase, rfl, rfl, rfl⟩, _⟩
    · exact h.backed key j p r x hm
    · exact (h.preparing r.1 call r.2 own hcall hphase).1
  preparing b call round own hc hp := by
    have hnew : ∀ key j p x, .sentAccept key j p (b, round) x ∈ t.history →
        .sentAccept key j p (b, round) x ∈ s.history := fun key j p x hm =>
      (hs.sentAccept_mem hm).resolve_right (fun hnow => hnow.2.2 call hc round own hp)
    rcases hs.call_preparing hc hp with hold | ⟨rfl, hround⟩
    · obtain ⟨hround, hnone⟩ := h.preparing b call round own hold hp
      exact ⟨hs.extends.roundsAt_mono hround, fun key j p x hm => hnone key j p x (hnew key j p x hm)⟩
    · refine ⟨hround, fun key j p x hm => ?_⟩
      have hlt := (hr.servers b).sent key j _ (h.backed key j p _ x (hnew key j p x hm))
      exact absurd hlt (Nat.lt_irrefl _)
  once key j p x key' j' p' x' r hm hm' := by
    rcases hs.sentAccept_mem hm with hold | ⟨ht, ⟨call, own, hcall, hphase, _⟩, _⟩
    · rcases hs.sentAccept_mem hm' with hold' | ⟨_, ⟨call, own, hcall, hphase, _⟩, _⟩
      · exact h.once key j p x key' j' p' x' r hold hold'
      · exact absurd hold ((h.preparing r.1 call r.2 own hcall hphase).2 key j p x)
    · rw [ht] at hm'
      rcases List.mem_cons.mp hm' with he | hold'
      · cases he
        rfl
      · exact absurd hold' ((h.preparing r.1 call r.2 own hcall hphase).2 key' j' p' x')

theorem sentInv_of_reachable (h : Reachable mpStep .init s) : SentInv s :=
  h.invariant sentInv_init (fun _ _ _ hu hv _ he =>
    hv.step (roundInv_of_reachable hu) (mpStep_steps he))

/-- Calls and rounds propose under the client id of a request that reached their
server. -/
structure CarriesClient (route : Bytes → UInt32 → Fin n) (s : MpSystem n) : Prop where
  call : ∀ b call, (s.servers b).call = some call → ∃ clientid, route call.key clientid = b ∧
    call.origCmd.acceptedProposal.proposalClientId = clientid.toInt32
  rounds : ∀ b key j, ∀ x ∈ roundsAt s.history b key j, ∃ clientid, route key clientid = b ∧
    x.1.proposalClientId = clientid.toInt32

variable {route : Bytes → UInt32 → Fin n}

theorem carriesClient_init : CarriesClient route (MpSystem.init : MpSystem n) where
  call := by simp [MpSystem.init, MpServer.start]
  rounds := by simp [roundsAt, MpSystem.init]

theorem CarriesClient.step (h : CarriesClient route s) (hok : RoutedByCarriedId route s a)
    (hs : MpSteps s a t) : CarriesClient route t where
  call b call hc := by
    rcases hs.call_client hc with ⟨call', hc', hkey, hclient⟩ |
      ⟨request, rand, types, rfl, hkey, hclient⟩
    · obtain ⟨clientid, hroute, hid⟩ := h.call b call' hc'
      exact ⟨clientid, hkey ▸ hroute, hclient ▸ hid⟩
    · have hroute : b = route (cStr request.key) request.clientid := hok
      exact ⟨request.clientid, hkey ▸ hroute.symm, hclient⟩
  rounds b key j x hx := by
    rcases hs.round_mem hx with hx | ⟨call, hcall, rfl, hp⟩
    · exact h.rounds b key j x hx
    · obtain ⟨clientid, hroute, hid⟩ := h.call b call hcall
      exact ⟨clientid, hroute, hp ▸ hid⟩

end Invariant

section Uniqueness

variable {route : Bytes → UInt32 → Fin n}

/-- The rounds of a server at a slot go up in number; the list has its newest first. -/
def NumbersIncrease (s : MpSystem n) : Prop :=
  ∀ b key j, (roundsAt s.history b key j).Pairwise
    (fun later earlier => earlier.1.proposalNum < later.1.proposalNum)

def AcceptsUnique (s : MpSystem n) : Prop :=
  ∀ key j p r x r' x', .sentAccept key j p r x ∈ s.history →
    .sentAccept key j p r' x' ∈ s.history → x.commandId = x'.commandId

theorem numbersIncrease_of_reachable (h : Reachable mpStep .init s) : NumbersIncrease s :=
  fun b => ((roundInv_of_reachable h).servers b).increasing

theorem NumbersIncrease.round_eq (h : NumbersIncrease s) {b : Fin n} {key : Bytes} {j : ℕ}
    {x y : Proposal × ℕ} (hx : x ∈ roundsAt s.history b key j)
    (hy : y ∈ roundsAt s.history b key j) (he : x.1.proposalNum = y.1.proposalNum) : x = y := by
  have hnodup : ((roundsAt s.history b key j).map (fun x => x.1.proposalNum)).Nodup :=
    List.pairwise_map.mpr ((h b key j).imp (fun hlt => (Int32.ne_of_lt hlt).symm))
  exact List.inj_on_of_nodup_map hnodup hx hy he

theorem acceptsUnique_of_client (hnum : NumbersIncrease s) (hsent : SentInv s)
    (hclient : CarriesClient route s) : AcceptsUnique s := by
  intro key j p r x r' x' hm hm'
  have hround := hsent.backed key j p r x hm
  have hround' := hsent.backed key j p r' x' hm'
  obtain ⟨clientid, hroute, hid⟩ := hclient.rounds r.1 key j _ hround
  obtain ⟨clientid', hroute', hid'⟩ := hclient.rounds r'.1 key j _ hround'
  have hsame : clientid = clientid' := by
    rw [← clientid.toUInt32_toInt32, ← clientid'.toUInt32_toInt32, ← hid, ← hid']
  have hserver : r.1 = r'.1 := by rw [← hroute, ← hroute', hsame]
  rw [← hserver] at hround'
  have hcall : r.2 = r'.2 := (Prod.mk.inj (hnum.round_eq hround hround' rfl)).2
  obtain rfl : r = r' := Prod.ext hserver hcall
  exact congrArg Content.commandId (hsent.once _ _ _ _ _ _ _ _ r hm hm')

/-- Numbers go up in every run; ACCEPTs are told apart by their proposals when
requests for a key that carry one client id reach one server. -/
theorem proposals_unique (route : Bytes → UInt32 → Fin n)
    (h : ReachableWhen mpStep (RoutedByCarriedId route) .init s) :
    NumbersIncrease s ∧ AcceptsUnique s := by
  have hany : Reachable mpStep .init s := h.mono (fun _ _ _ => trivial)
  have hsent := sentInv_of_reachable hany
  have hclient : CarriesClient route s := h.invariant carriesClient_init
    (fun _ _ _ _ hu hok he => hu.step hok (mpStep_steps he))
  have hnum := numbersIncrease_of_reachable hany
  exact ⟨hnum, acceptsUnique_of_client hnum hsent hclient⟩

end Uniqueness

section Runs

/-- Server 2 refuses the first round of server 0, which tries the next number. -/
def retryingRun : List (MpAction 3) :=
  [.insertCommand 0 (putRequest 1 49) 10 readTypes,
    .insertCommand 2 (putRequest 2 50) 20 readTypes, .startRound 2, .handle 0 blankMemory,
    .startRound 0, .handle 2 blankMemory, .finishPrepare 0 [2] blankCommand, .startRound 0,
    .handle 3 blankMemory, .finishPrepare 0 [2] blankCommand]

theorem retryingRun_unique : ∃ s : MpSystem 3,
    runWhen mpStep (RoutedByCarriedId (fun _ c => if c = 1 then 0 else 2)) .init retryingRun =
      some s ∧
    roundsAt s.history 0 [107] 0 = [(⟨1, 1⟩, 1), (⟨1, 0⟩, 0)] ∧
    NumbersIncrease s ∧ AcceptsUnique s := by
  obtain ⟨s, hs, hrounds⟩ := exists_of_run
    (P := fun s : MpSystem 3 => roundsAt s.history 0 [107] 0 = [(⟨1, 1⟩, 1), (⟨1, 0⟩, 0)])
    (show (runWhen mpStep (RoutedByCarriedId (fun _ c => if c = 1 then 0 else 2)) .init
      retryingRun).any _ = true by decide +kernel)
  exact ⟨s, hs, hrounds, proposals_unique _ (reachableWhen_of_runWhen hs)⟩

def readerRequest (c : UInt32) : ClientLib.Request := ⟨.read, .mp, ⟨0, c⟩, [107], []⟩

/-- Clients 1 and 2 read the same key through servers 1 and 2. -/
def twoGetsRun : List (MpAction 3) :=
  [.insertCommand 1 (ClientLib.makeReqPayload (readerRequest 1)) 10 readTypes,
    .insertCommand 2 (ClientLib.makeReqPayload (readerRequest 2)) 20 readTypes, .startRound 2,
    .handle 1 blankMemory, .startRound 1, .handle 1 blankMemory, .finishPrepare 1 [0] blankCommand,
    .finishPrepare 2 [1] blankCommand]

/-- The calls of the two readers. -/
def FromReaders (_ : MpSystem 3) : MpAction 3 → Prop
  | .insertCommand i request _ _ => ∃ c ∈ [(1 : UInt32), 2],
      request = ClientLib.makeReqPayload (readerRequest c) ∧
        ClientLib.sendMessageToOneServer (readerRequest c) i
  | _ => True

instance (s : MpSystem 3) (a : MpAction 3) : Decidable (FromReaders s a) :=
  match a with
  | .insertCommand _ _ _ _ => inferInstanceAs (Decidable (∃ c ∈ _, _))
  | .startRound _ | .handle _ _ | .finishPrepare _ _ _ | .finishAccept _ _ _ | .finish _
  | .answer _ => .isTrue trivial

theorem FromReaders.routedByClient {s : MpSystem 3} {a : MpAction 3} (h : FromReaders s a) :
    RoutedByClient s a := by
  cases a with
  | insertCommand i request rand types =>
    obtain ⟨c, _, hrequest, hi⟩ := h
    exact ⟨readerRequest c, rfl, .inl rfl, hrequest, hi⟩
  | _ => trivial

/-- Both ACCEPTs carry the number 0 and the client id 0. -/
theorem twoGetsRun_not_unique : ∃ s : MpSystem 3,
    ReachableWhen mpStep RoutedByClient .init s ∧ ¬ (NumbersIncrease s ∧ AcceptsUnique s) := by
  obtain ⟨s, hs, hm, hm'⟩ := exists_of_run
    (P := fun s : MpSystem 3 =>
      .sentAccept [107] 0 ⟨0, 0⟩ (1, 0) ⟨10, .read, [107], []⟩ ∈ s.history ∧
      .sentAccept [107] 0 ⟨0, 0⟩ (2, 0) ⟨20, .read, [107], []⟩ ∈ s.history)
    (show (runWhen mpStep FromReaders .init twoGetsRun).any _ = true by decide +kernel)
  refine ⟨s, (reachableWhen_of_runWhen hs).mono (fun _ _ hok => hok.routedByClient), fun h => ?_⟩
  exact absurd (h.2 _ _ _ _ _ _ _ hm hm') (by decide)

end Runs

end KeyValueStore
