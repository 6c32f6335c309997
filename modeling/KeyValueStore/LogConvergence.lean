import KeyValueStore.DecidedReads
import KeyValueStore.OwnPromise
import KeyValueStore.ProposalUniqueness
import Mathlib.Data.Fintype.Lattice

/-! Logs that have come to rest. The highest round at a slot was given up by no
one, so its command was sent to every server, and no server could refuse it. -/

namespace KeyValueStore

variable {n : ℕ} {s t : MpSystem n} {a : MpAction n}

section Inversion

/-- A message that has left the calls in flight was answered. -/
theorem MpSteps.call_settles (hs : MpSteps s a t) {rpc : Rpc n} (hc : rpc ∈ s.calls) :
    rpc ∈ t.calls ∨ ∃ reply, (rpc, reply) ∈ t.replies := by
  cases hs with
  | @handle k u rpc' request st reply hrpc hk hreq hslot hh =>
    by_cases he : rpc = rpc'
    · exact .inr ⟨reply, he ▸ List.mem_cons_self⟩
    · obtain ⟨hlt, hget⟩ := List.getElem?_eq_some_iff.mp hk
      have hmem := (List.getElem_cons_eraseIdx_perm hlt).mem_iff.mpr hc
      exact .inl ((List.mem_cons.mp hmem).resolve_left (fun h => he (h.trans hget)))
  | startRound | prepareSend => exact .inl (MpSystem.mem_broadcast_calls.mpr (.inl hc))
  | insertCommand | prepareRetry | acceptDone | acceptRetry | own | retry | defeated | answer =>
    exact .inl hc

/-- A message that was not there before goes to every other server, and a PREPARE
starts a round. -/
theorem MpSteps.payload_new (hs : MpSteps s a t) (ht : Traffic s) {src : Fin n} {call : ℕ}
    {request : PaxosRequest} (hp : t.payload src call = some request) :
    s.payload src call = some request ∨ (∀ b, b ≠ src → ⟨src, b, call⟩ ∈ t.calls) ∧
      (request.mptype = .prepare →
        (request.proposal, call) ∈ roundsAt t.history src (cStr request.key) request.slot) := by
  have hold : ∀ {i : Fin n} {server : MpServer} {events : List (MpEvent n)},
      (s.advance i server events).payload src call = some request →
      server.broadcasts = (s.servers i).broadcasts → s.payload src call = some request :=
    fun hp hb => (MpSystem.payload_advance s _ hb src call).symm.trans hp
  cases hs with
  | @startRound i c st origCmd hcall hphase horig hst =>
    rw [MpSystem.payload_broadcast] at hp
    split at hp
    next hat =>
      obtain ⟨rfl, rfl⟩ := hat
      obtain rfl := Option.some.inj hp
      refine .inr ⟨fun b hb => MpSystem.mem_broadcast_calls.mpr (.inr ⟨rfl, hb, rfl⟩), fun _ => ?_⟩
      have hidx := ((ht.servers src).call c hcall).index
      rw [MpSystem.broadcast_history, MpSystem.advance_history, List.singleton_append,
        roundsAt_promised, if_pos ⟨rfl, horig ▸ rfl, horig ▸ hidx⟩, MpSystem.advance_servers_self]
      exact List.mem_cons_self
    next => exact .inl (hold hp rfl)
  | @prepareSend i c round own order junk tempCmd sentCmd vec hcall hphase hvec htemp hcode hsent =>
    rw [MpSystem.payload_broadcast] at hp
    split at hp
    next hat =>
      obtain ⟨rfl, rfl⟩ := hat
      obtain rfl := Option.some.inj hp
      refine .inr ⟨fun b hb => MpSystem.mem_broadcast_calls.mpr (.inr ⟨rfl, hb, rfl⟩), fun htype => ?_⟩
      simp [makeMpRequestPayload, hsent] at htype
    next => exact .inl (hold hp rfl)
  | handle => exact .inl ((s.payload_handled ..).symm.trans hp)
  | insertCommand | prepareRetry | acceptDone | acceptRetry | own | retry | defeated | answer =>
    exact .inl (hold hp rfl)

/-- A round that was not there before is that of the call at the slot. -/
theorem MpSteps.round_new (hs : MpSteps s a t) {b : Fin n} {key : Bytes} {j : ℕ}
    {x : Proposal × ℕ} (hm : x ∈ roundsAt t.history b key j) : x ∈ roundsAt s.history b key j ∨
      ∃ call, (t.servers b).call = some call ∧ call.At key j ∧
        x.1 = call.origCmd.acceptedProposal := by
  have hquiet : ∀ events : List (MpEvent n), t.history = events ++ s.history →
      (∀ e ∈ events, e.round? b key j = none) → x ∈ roundsAt s.history b key j :=
    fun events ht he => roundsAt_append_of_none he ▸ ht ▸ hm
  cases hs with
  | startRound hcall hphase horig =>
    rw [MpSystem.broadcast_history, MpSystem.advance_history, List.singleton_append,
      roundsAt_promised] at hm
    split at hm
    next hat =>
      obtain ⟨rfl, rfl, rfl⟩ := hat
      rcases List.mem_cons.mp hm with rfl | hm
      · rw [MpSystem.advance_broadcast_servers_self]
        exact .inr ⟨_, rfl, ⟨by simp, horig ▸ rfl, rfl⟩, rfl⟩
      · exact .inl hm
    next => exact .inl hm
  | handle =>
    rw [MpSystem.handled_history, handlerEvents_round] at hm
    exact .inl hm
  | insertCommand | prepareSend | answer => exact .inl (hquiet [_] rfl (by simp [MpEvent.round?]))
  | prepareRetry | acceptDone | acceptRetry | retry => exact .inl (hquiet [] rfl (by simp))
  | own => exact .inl (hquiet [_, _, _] rfl (by simp [MpEvent.round?]))
  | defeated => exact .inl (hquiet [_, _] rfl (by simp [MpEvent.round?]))

/-- A promise that was not there before is that of a round which starts, or answers
a PREPARE. -/
theorem MpSteps.promised_new (hs : MpSteps s a t) {b : Fin n} {key : Bytes} {j : ℕ} {p : Proposal}
    {r : Fin n × ℕ} {last : Option (Proposal × Content)} {byHandler : Bool}
    (hm : .promised b key j p r last byHandler ∈ t.history) :
    .promised b key j p r last byHandler ∈ s.history ∨
      (p, r.2) ∈ roundsAt t.history r.1 key j ∨
      ∃ u request, s.payload r.1 r.2 = some request ∧ request.mptype = .prepare ∧
        requestKey u request = key ∧ request.slot = j ∧ request.proposal = p := by
  cases hs with
  | startRound =>
    rcases List.mem_cons.mp hm with he | hm
    · cases he
      refine .inr (.inl ?_)
      rw [MpSystem.broadcast_history, MpSystem.advance_history, List.singleton_append,
        roundsAt_promised, if_pos ⟨rfl, rfl, rfl⟩]
      exact List.mem_cons_self
    · exact .inl hm
  | @handle k u rpc request st reply hrpc hk hreq hslot hh =>
    rcases List.mem_append.mp hm with hm | hm
    · obtain ⟨hcode, he | he⟩ := of_mem_handlerEvents hm
      · cases he
        refine .inr (.inr ⟨u, request, hreq, ?_, rfl, rfl, rfl⟩)
        rcases hh.ack_iff.mp hcode with ⟨htype, _⟩ | ⟨htype, _⟩
        · exact htype
        · simp [handlerEvents, hcode, htype] at hm
      · cases he
    · exact .inl hm
  | _ => exact .inl (by simpa using hm)

end Inversion

section Traffic

/-- What was sent and promised at a slot belongs to a round, and what was sent is
on its way or answered. -/
structure RoundTraffic (s : MpSystem n) : Prop where
  prepares : ∀ src call request, s.payload src call = some request → request.mptype = .prepare →
    (request.proposal, call) ∈ roundsAt s.history src (cStr request.key) request.slot
  promises : ∀ b key j p r last byHandler, .promised b key j p r last byHandler ∈ s.history →
    (p, r.2) ∈ roundsAt s.history r.1 key j
  accepts : ∀ key j p r x, .sentAccept key j p r x ∈ s.history → ∃ call request,
    s.payload r.1 call = some request ∧ request.mptype = .accept ∧ cStr request.key = key ∧
      request.slot = j ∧ request.proposal = p ∧ request.commandId = x.commandId
  sent : ∀ src call request b, s.payload src call = some request → b ≠ src →
    ⟨src, b, call⟩ ∈ s.calls ∨ ∃ reply, (⟨src, b, call⟩, reply) ∈ s.replies
  rounds : ∀ b key j, ∀ x ∈ roundsAt s.history b key j, 0 ≤ x.1.proposalNum

theorem roundTraffic_init : RoundTraffic (MpSystem.init : MpSystem n) where
  prepares := by simp [MpSystem.payload, MpSystem.init, MpServer.start]
  promises := by simp [MpSystem.init]
  accepts := by simp [MpSystem.init]
  sent := by simp [MpSystem.payload, MpSystem.init, MpServer.start]
  rounds := by simp [roundsAt, MpSystem.init]

/-- The ACCEPT of a step that sends one. -/
theorem MpSteps.accept_new (hs : MpSteps s a t) (ht : PaxosInv t) {key : Bytes} {j : ℕ}
    {p : Proposal} {r : Fin n × ℕ} {x : Content} (hm : .sentAccept key j p r x ∈ t.history) :
    .sentAccept key j p r x ∈ s.history ∨ ∃ call request, t.payload r.1 call = some request ∧
      request.mptype = .accept ∧ cStr request.key = key ∧ request.slot = j ∧
      request.proposal = p ∧ request.commandId = x.commandId := by
  cases hs with
  | @prepareSend i call round own order junk tempCmd sentCmd vec hcall hphase hvec htemp hcode
      hsent =>
    rcases List.mem_cons.mp hm with he | hm
    · cases he
      obtain ⟨hfilled, _⟩ := (ht.calls i { call with
        phase := .accepting round (s.servers i).broadcasts.length sentCmd } (by
          rw [MpSystem.advance_broadcast_servers_self])).phase
      refine .inr ⟨(s.servers i).broadcasts.length, makeMpRequestPayload sentCmd, ?_, hsent ▸ rfl,
        hfilled.key_eq, hfilled.index, rfl, rfl⟩
      rw [MpSystem.payload_broadcast, MpSystem.advance_servers_self, if_pos ⟨rfl, rfl⟩]
    · exact .inl hm
  | handle =>
    rcases List.mem_append.mp hm with hm | hm
    · rcases of_mem_handlerEvents hm with ⟨_, he | he⟩ <;> cases he
    · exact .inl hm
  | _ => exact .inl (by simpa using hm)

theorem RoundTraffic.step (h : RoundTraffic s) (hu : PaxosInv s) (ht : PaxosInv t)
    (hs : MpSteps s a t) : RoundTraffic t where
  prepares src call request hp htype := by
    rcases hs.payload_new hu.traffic hp with hold | ⟨_, hnew⟩
    · exact hs.extends.roundsAt_mono (h.prepares src call request hold htype)
    · exact hnew htype
  promises b key j p r last byHandler hm := by
    rcases hs.promised_new hm with hold | hround | ⟨u, request, hreq, htype, rfl, rfl, rfl⟩
    · exact hs.extends.roundsAt_mono (h.promises b key j p r last byHandler hold)
    · exact hround
    · rw [requestKey_eq (hu.requests _ _ _ hreq).key]
      exact hs.extends.roundsAt_mono (h.prepares r.1 r.2 request hreq htype)
  accepts key j p r x hm := by
    rcases hs.accept_new ht hm with hold | hnew
    · obtain ⟨call, request, hp, hrest⟩ := h.accepts key j p r x hold
      exact ⟨call, request, hs.extends.payload _ _ _ hp, hrest⟩
    · exact hnew
  sent src call request b hp hb := by
    rcases hs.payload_new hu.traffic hp with hold | ⟨hnew, _⟩
    · rcases h.sent src call request b hold hb with hc | ⟨reply, hr⟩
      · exact hs.call_settles hc
      · exact .inr ⟨reply, hs.extends.replies _ hr⟩
    · exact .inl (hnew b hb)
  rounds b key j x hm := by
    rcases hs.round_new hm with hold | ⟨call, hc, _, hx⟩
    · exact h.rounds b key j x hold
    · rw [hx]
      exact ((ht.traffic.servers b).call call hc).num

theorem roundTraffic_of_reachable (h : ReachableWhen mpStep SafeStep .init s) : RoundTraffic s :=
  h.invariant roundTraffic_init (fun _ _ _ hu hv ha he =>
    have hs := mpStep_steps he
    have hinv := paxosInv_of_reachable hu
    hv.step hinv (hinv.step ha hs) hs)

end Traffic

section Promises

/-- The promise of the slot was set to the proposal. -/
def WasSet (s : MpSystem n) (b : Fin n) (key : Bytes) (j : ℕ) (q : Proposal) : Prop :=
  (∃ r l, (synodOf s.history key j).promise b q r l) ∨ ∃ v, (synodOf s.history key j).vote b q v

theorem WasSet.mono (he : Extends s t) {b : Fin n} {key : Bytes} {j : ℕ} {q : Proposal}
    (h : WasSet s b key j q) : WasSet t b key j q := by
  rcases h with ⟨r, l, hp⟩ | ⟨v, hv⟩
  · exact .inl ⟨r, l, he.promise_mono hp⟩
  · exact .inr ⟨v, he.vote_mono hv⟩

theorem WasSet.le (h : PaxosInv s) {b : Fin n} {key : Bytes} {j : ℕ} {q : Proposal}
    (hq : WasSet s b key j q) : q ≤ s.promise b key j := by
  have hup := ((h.slots key j).tracks b).upTo
  rcases hq with ⟨r, l, hp⟩ | ⟨v, hv⟩
  · exact hup.1 q r l hp
  · exact hup.2 q v hv

/-- What is accepted leaves its own proposal as the promise. -/
def AcceptsPromise (s : MpSystem n) : Prop :=
  ∀ b key j cmd byHandler, .accepted b key j cmd byHandler ∈ s.history →
    cmd.minProposalNum = cmd.acceptedProposal

theorem AcceptsPromise.step (h : AcceptsPromise s) (hu : PaxosInv s) (hs : MpSteps s a t) :
    AcceptsPromise t := by
  intro b key j cmd byHandler hm
  cases hs with
  | handle =>
    rcases List.mem_append.mp hm with hm | hm
    · obtain ⟨_, he | he⟩ := of_mem_handlerEvents hm
      · cases he
      · cases he
        rfl
    · exact h b key j cmd byHandler hm
  | @own i call round tempCmd origCmd st hcall hphase hrec =>
    have hback := (hu.calls i call hcall).phase
    simp only [PhaseBacked, hphase] at hback
    cases hrec with
    | own hcl hid hmin =>
      rcases List.mem_append.mp hm with hm | hm
      · simp only [List.mem_cons, reduceCtorEq, MpEvent.accepted.injEq, List.not_mem_nil, or_false,
          false_or] at hm
        obtain ⟨_, _, _, rfl, _⟩ := hm
        exact hmin.symm.trans hback.2.2.1
      · exact h b key j cmd byHandler hm
  | @defeated i call round tempCmd origCmd st currIdx hcall hphase hrec =>
    have hback := (hu.calls i call hcall).phase
    simp only [PhaseBacked, hphase] at hback
    rcases List.mem_append.mp hm with hm | hm
    · simp only [List.mem_cons, reduceCtorEq, MpEvent.accepted.injEq, List.not_mem_nil, or_false,
        false_or] at hm
      obtain ⟨_, _, _, rfl, _⟩ := hm
      exact hback.2.1
    · exact h b key j cmd byHandler hm
  | _ => exact h b key j cmd byHandler (by simpa using hm)

theorem acceptsPromise_of_reachable (h : ReachableWhen mpStep SafeStep .init s) :
    AcceptsPromise s :=
  h.invariant (by simp [AcceptsPromise, MpSystem.init]) (fun _ _ _ hu hv _ he =>
    hv.step (paxosInv_of_reachable hu) (mpStep_steps he))

theorem setterInv_of_safe (h : ReachableWhen mpStep SafeStep .init s) : SetterInv s :=
  setterInv_of_reachable (h.mono (fun _ a ha => by
    cases a with
    | finishAccept => exact ha
    | _ => trivial))

/-- A promise is as it was set last, or never was. -/
theorem SetterInv.wasSet (h : SetterInv s) (ha : AcceptsPromise s) (b : Fin n) (key : Bytes)
    (j : ℕ) : s.promise b key j = .unset ∨ WasSet s b key j (s.promise b key j) := by
  rw [h.promise]
  cases hl : lastSet s.history b key j with
  | none => exact .inl rfl
  | some v =>
    obtain ⟨e, he, hset⟩ := List.exists_of_findSome?_eq_some hl
    refine .inr ?_
    cases e with
    | promised b' key' j' p r last byHandler =>
      simp only [MpEvent.sets?] at hset
      split at hset
      next hat =>
        obtain ⟨rfl, rfl, rfl⟩ := hat
        obtain rfl := Option.some.inj hset
        exact .inl ⟨r, _, last, byHandler, he, rfl⟩
      next => simp at hset
    | accepted b' key' j' cmd byHandler =>
      simp only [MpEvent.sets?] at hset
      split at hset
      next hat =>
        obtain ⟨rfl, rfl, rfl⟩ := hat
        obtain rfl := Option.some.inj hset
        exact .inr ⟨_, cmd, byHandler, he, ha _ _ _ _ _ he, rfl⟩
      next => simp at hset
    | _ => simp [MpEvent.sets?] at hset

/-- A server that refused an ACCEPT had promised a greater number. -/
def RefusedBelow (s : MpSystem n) : Prop :=
  ∀ rpc reply request, (rpc, reply) ∈ s.replies → s.payload rpc.src rpc.call = some request →
    request.mptype = .accept → reply.code = .nack →
      ∃ q, WasSet s rpc.dst (cStr request.key) request.slot q ∧
        request.proposalNum < q.proposalNum

theorem RefusedBelow.step (h : RefusedBelow s) (hu : PaxosInv s) (hset : SetterInv s)
    (ha : AcceptsPromise s) (hs : MpSteps s a t) : RefusedBelow t := by
  intro rpc reply request hr hp htype hcode
  have hold : (rpc, reply) ∈ s.replies → ∃ q,
      WasSet t rpc.dst (cStr request.key) request.slot q ∧ request.proposalNum < q.proposalNum := by
    intro hr
    obtain ⟨_, request', hp'⟩ := hu.traffic.rpcs rpc (.inr ⟨reply, hr⟩)
    obtain rfl := Option.some.inj ((hs.extends.payload _ _ _ hp').symm.trans hp)
    obtain ⟨q, hq, hlt⟩ := h rpc reply request' hr hp' htype hcode
    exact ⟨q, hq.mono hs.extends, hlt⟩
  have hext := hs.extends
  cases hs with
  | @handle k u rpc' request' st reply' hrpc hk hreq hslot hh =>
    rcases List.mem_cons.mp hr with he | hr
    · cases he
      obtain rfl := Option.some.inj (hreq.symm.trans ((s.payload_handled ..).symm.trans hp))
      cases hh with
      | acceptNack _ hlt =>
        rw [requestSlot_promise, requestKey_eq (hu.requests _ _ _ hreq).key] at hlt
        rcases hset.wasSet ha rpc.dst (cStr request'.key) request'.slot with hunset | hq
        · have hnum := Int32.le_trans (hu.traffic.payload_num hreq) (Int32.le_of_lt hlt)
          rw [← MpSystem.promise, hunset] at hnum
          exact absurd hnum (by decide)
        · exact ⟨_, hq.mono hext, hlt⟩
      | prepareAck ht => simp [htype] at ht
      | prepareNack ht => simp [htype] at ht
      | acceptAck => simp [acceptReply] at hcode
    · exact hold hr
  | _ => exact hold hr

theorem refusedBelow_of_reachable (h : ReachableWhen mpStep SafeStep .init s) : RefusedBelow s :=
  h.invariant (by simp [RefusedBelow, MpSystem.init]) (fun _ _ _ hu hv _ he =>
    hv.step (paxosInv_of_reachable hu) (setterInv_of_safe hu) (acceptsPromise_of_reachable hu)
      (mpStep_steps he))

end Promises

section Newest

/-- A call stays at its slot until what its round proposed is recorded there. -/
theorem MpSteps.at_step (hs : MpSteps s a t) (hu : PaxosInv s) {b : Fin n} {call : InsertCall}
    (hc : (s.servers b).call = some call) {key : Bytes} {j : ℕ} (hat : call.At key j) :
    (∃ call', (t.servers b).call = some call' ∧ call'.At key j) ∨
      ∃ round tempCmd, call.phase = .proposed round tempCmd ∧
        (synodOf t.history key j).vote b tempCmd.acceptedProposal tempCmd.commandId := by
  have hstay : ∀ {i : Fin n} {server : MpServer} {events : List (MpEvent n)} {c c' : InsertCall},
      (s.servers i).call = some c → server.call = some c' → c'.phase ≠ .returned →
      c'.key = c.key → c'.currIdx = c.currIdx →
      ∃ call', ((s.advance i server events).servers b).call = some call' ∧ call'.At key j := by
    intro i server events c c' hi hserver hphase hkey hidx
    rw [advance_call]
    split
    next hb =>
      subst hb
      obtain rfl := Option.some.inj (hi.symm.trans hc)
      exact ⟨c', hserver, hphase, hkey.trans hat.2.1, hidx.trans hat.2.2⟩
    next => exact ⟨call, hc, hat⟩
  cases hs with
  | @insertCommand i request rand types st call' hidle hstart =>
    refine .inl ⟨call, ?_, hat⟩
    rw [advance_call, if_neg, hc]
    rintro rfl
    simp [hidle] at hc
  | startRound hcall hphase horig =>
    simp only [broadcast_call]
    exact .inl (hstay hcall rfl (by simp) (horig ▸ rfl) rfl)
  | handle =>
    refine .inl ⟨call, ?_, hat⟩
    rw [MpSystem.handled_servers]
    split
    next hb => exact hb ▸ hc
    next => exact hc
  | prepareRetry hcall => exact .inl (hstay hcall rfl (by simp) rfl rfl)
  | prepareSend hcall =>
    simp only [broadcast_call]
    exact .inl (hstay hcall rfl (by simp) rfl rfl)
  | acceptDone hcall | acceptRetry hcall => exact .inl (hstay hcall rfl (by simp) rfl rfl)
  | @retry i c round tempCmd origCmd hcall hphase hrec =>
    cases hrec with
    | retry => exact .inl (hstay hcall rfl (by simp) rfl rfl)
  | @own i c round tempCmd origCmd st hcall hphase hrec =>
    by_cases hb : b = i
    · subst hb
      obtain rfl := Option.some.inj (hcall.symm.trans hc)
      obtain ⟨_, rfl, rfl⟩ := hat
      have hback := (hu.calls b c hcall).phase
      simp only [PhaseBacked, hphase] at hback
      cases hrec with
      | own hcl hid =>
        exact .inr ⟨round, tempCmd, hphase, _, false, List.mem_cons_of_mem _
          (List.mem_cons_of_mem _ List.mem_cons_self), hback.2.2.1, hid.symm⟩
    · exact .inl ⟨call, by rw [advance_call, if_neg hb, hc], hat⟩
  | @defeated i c round tempCmd origCmd st currIdx hcall hphase hrec =>
    by_cases hb : b = i
    · subst hb
      obtain rfl := Option.some.inj (hcall.symm.trans hc)
      obtain ⟨_, rfl, rfl⟩ := hat
      exact .inr ⟨round, tempCmd, hphase, tempCmd, false,
        List.mem_cons_of_mem _ List.mem_cons_self, rfl, rfl⟩
    · exact .inl ⟨call, by rw [advance_call, if_neg hb, hc], hat⟩
  | @answer i c st reply hcall hphase hans =>
    refine .inl ⟨call, ?_, hat⟩
    rw [advance_call, if_neg, hc]
    rintro rfl
    obtain rfl := Option.some.inj (hcall.symm.trans hc)
    exact hat.1 hphase

/-- A round of a server was given up for a later one, or is that of a call at the
slot, or what it proposed was accepted by the server itself. -/
def RoundsEnd (s : MpSystem n) : Prop :=
  ∀ b key j, ∀ x ∈ roundsAt s.history b key j,
    (∃ y ∈ roundsAt s.history b key j, x.1.proposalNum < y.1.proposalNum) ∨
    (∃ call, (s.servers b).call = some call ∧ call.At key j) ∨
    ∃ v, (synodOf s.history key j).proposed x.1 (b, x.2) v ∧ (synodOf s.history key j).vote b x.1 v

theorem RoundsEnd.step (h : RoundsEnd s) (hu : PaxosInv s) (hr : RoundInv s) (hsent : SentInv s)
    (hs : MpSteps s a t) : RoundsEnd t := by
  intro b key j x hx
  rcases hs.round_new hx with hold | ⟨call, hc, hat, _⟩
  · rcases h b key j x hold with ⟨y, hy, hlt⟩ | ⟨call, hc, hat⟩ | ⟨v, hp, hv⟩
    · exact .inl ⟨y, hs.extends.roundsAt_mono hy, hlt⟩
    · rcases hs.at_step hu hc hat with hnext | ⟨round, tempCmd, hphase, hv⟩
      · exact .inr (.inl hnext)
      · have hback := (hu.calls b call hc).phase
        simp only [PhaseBacked, hphase] at hback
        obtain ⟨_, _, hacc, hp, _⟩ := hback
        obtain ⟨c, hc', _, hpast, _⟩ := (hr.servers b).own key j (.inr ⟨call, hc, hat⟩) x hold
        obtain rfl := Option.some.inj (hc.symm.trans hc')
        obtain ⟨_, rfl, rfl⟩ := hat
        obtain ⟨content, hm, hid⟩ := hp
        have hround := hsent.backed _ _ _ _ _ hm
        rw [← hacc] at hpast
        rcases Int32.lt_or_eq_of_le hpast with hlt | heq
        · exact .inl ⟨_, hs.extends.roundsAt_mono hround, hlt⟩
        · obtain rfl := NumbersIncrease.round_eq (fun b => (hr.servers b).increasing) hold hround heq
          exact .inr (.inr ⟨_, hs.extends.proposed_mono ⟨content, hm, hid⟩, hv⟩)
    · exact .inr (.inr ⟨v, hs.extends.proposed_mono hp, hs.extends.vote_mono hv⟩)
  · exact .inr (.inl ⟨call, hc, hat⟩)

theorem roundsEnd_of_reachable (h : ReachableWhen mpStep SafeStep .init s) : RoundsEnd s :=
  h.invariant (by simp [RoundsEnd, roundsAt, MpSystem.init]) (fun _ _ _ hu hv _ he =>
    have hany := hu.mono (fun _ _ _ => trivial)
    hv.step (paxosInv_of_reachable hu) (roundInv_of_reachable hany) (sentInv_of_reachable hany)
      (mpStep_steps he))

end Newest

section Rest

/-- No call works at the slot, and every ACCEPT for it has been handled; a lost one
stays in `calls` and has not. -/
def MpSystem.AtRest (s : MpSystem n) (key : Bytes) (j : ℕ) : Prop :=
  (∀ b, ∀ call ∈ (s.servers b).call, ¬ call.At key j) ∧
  ∀ rpc ∈ s.calls, ∀ request ∈ s.payload rpc.src rpc.call,
    ¬ (request.mptype = .accept ∧ cStr request.key = key ∧ request.slot = j)

instance (call : InsertCall) (key : Bytes) (j : ℕ) : Decidable (call.At key j) :=
  inferInstanceAs (Decidable (_ ∧ _ ∧ _))

instance (s : MpSystem n) (key : Bytes) (j : ℕ) : Decidable (s.AtRest key j) :=
  inferInstanceAs (Decidable ((∀ b, ∀ call ∈ (s.servers b).call, ¬ call.At key j) ∧
    ∀ rpc ∈ s.calls, ∀ request ∈ s.payload rpc.src rpc.call, ¬ (_ ∧ _ ∧ _)))

/-- No server has promised or accepted anything at the slot, or all have accepted
one command that is decided, and promised its proposal. -/
def MpSystem.SlotAgrees (s : MpSystem n) (key : Bytes) (j : ℕ) : Prop :=
  (∀ b, s.promise b key j = .unset ∧ s.vote b key j = none) ∨
  ∃ p x, s.Decides key j x ∧ ∀ b, s.promise b key j = p ∧ s.vote b key j = some (p, x)

/-- What the rounds at the slots have come to. -/
structure RestInv (s : MpSystem n) : Prop where
  paxos : PaxosInv s
  sent : SentInv s
  setter : SetterInv s
  accepts : AcceptsPromise s
  traffic : RoundTraffic s
  refused : RefusedBelow s
  ends : RoundsEnd s

theorem restInv_of_reachable (h : ReachableWhen mpStep SafeStep .init s) : RestInv s where
  paxos := paxosInv_of_reachable h
  sent := sentInv_of_reachable (h.mono (fun _ _ _ => trivial))
  setter := setterInv_of_safe h
  accepts := acceptsPromise_of_reachable h
  traffic := roundTraffic_of_reachable h
  refused := refusedBelow_of_reachable h
  ends := roundsEnd_of_reachable h

variable {b : Fin n} {key : Bytes} {j : ℕ}

theorem wasSet_of_round {x : Proposal × ℕ} (hx : x ∈ roundsAt s.history b key j) :
    WasSet s b key j x.1 := by
  obtain ⟨e, he, hr⟩ := List.mem_filterMap.mp hx
  unfold MpEvent.round? at hr
  split at hr
  next b' key' j' p round last =>
    split at hr
    next hat =>
      obtain ⟨rfl, rfl, rfl⟩ := hat
      obtain rfl := Option.some.inj hr
      exact .inl ⟨round, _, last, false, he, rfl⟩
    next => simp at hr
  next => simp at hr

theorem RestInv.round_of_wasSet (h : RestInv s) {q : Proposal} (hq : WasSet s b key j q) :
    ∃ c x, x ∈ roundsAt s.history c key j ∧ x.1 = q := by
  rcases hq with ⟨r, _, last, byHandler, hm, _⟩ | ⟨v, hv⟩
  · exact ⟨r.1, _, h.traffic.promises _ _ _ _ _ _ _ hm, rfl⟩
  · have hinv := (h.paxos.slots key j).reachable.inv (fun _ _ => Majority.inter)
    obtain ⟨r, content, hm, _⟩ := hinv.vote_proposed _ _ _ hv
    exact ⟨r.1, _, h.sent.backed _ _ _ _ _ hm, rfl⟩

theorem RestInv.unset_lt (h : RestInv s) {q : Proposal} (hq : WasSet s b key j q) :
    Proposal.unset < q := by
  obtain ⟨c, x, hx, rfl⟩ := h.round_of_wasSet hq
  refine Proposal.lt_iff.mpr (.inl (Int32.lt_of_lt_of_le (by decide) (h.traffic.rounds c key j x hx)))

/-- The greatest promise at a slot is the proposal of some round there. -/
theorem RestInv.top_round (h : RestInv s) (hb : s.promise b key j ≠ .unset) :
    ∃ c x, x ∈ roundsAt s.history c key j ∧ ∀ a, s.promise a key j ≤ x.1 := by
  have : Nonempty (Fin n) := ⟨b⟩
  obtain ⟨top, htop⟩ := Finite.exists_max (fun a => s.promise a key j)
  have hset := (h.setter.wasSet h.accepts b key j).resolve_left hb
  have hne : s.promise top key j ≠ .unset := fun he =>
    absurd ((h.unset_lt hset).trans_le (htop b)) (he ▸ lt_irrefl _)
  obtain ⟨c, x, hx, he⟩ :=
    h.round_of_wasSet ((h.setter.wasSet h.accepts top key j).resolve_left hne)
  exact ⟨c, x, hx, he ▸ htop⟩

/-- At rest the highest round has proposed, and every server has accepted what it did. -/
theorem RestInv.accepted_everywhere (h : RestInv s) (hrest : s.AtRest key j) {c : Fin n}
    {x : Proposal × ℕ} (hx : x ∈ roundsAt s.history c key j)
    (htop : ∀ a, s.promise a key j ≤ x.1) :
    ∃ v, ∀ a, (synodOf s.history key j).vote a x.1 v := by
  rcases h.ends c key j x hx with ⟨y, hy, hlt⟩ | ⟨call, hc, hat⟩ | ⟨v, ⟨content, hm, rfl⟩, hv⟩
  · have hle := ((wasSet_of_round hy).le h.paxos).trans (htop c)
    exact absurd (Proposal.num_le_of_le hle) (Int32.not_le.mpr hlt)
  · exact absurd hat (hrest.1 c call hc)
  · refine ⟨content.commandId, fun a => ?_⟩
    by_cases ha : a = c
    · exact ha ▸ hv
    obtain ⟨call, request, hp, htype, hkey, hslot, hprop, hid⟩ :=
      h.traffic.accepts key j x.1 (c, x.2) content hm
    rcases h.traffic.sent c call request a hp ha with hcall | ⟨reply, hr⟩
    · exact absurd ⟨htype, hkey, hslot⟩ (hrest.2 _ hcall request hp)
    cases h.paxos.replies _ reply request hr hp with
    | prepareFree ht => simp [htype] at ht
    | prepareReport ht => simp [htype] at ht
    | accept _ _ hv => exact hprop ▸ hid ▸ hkey ▸ hslot ▸ hv
    | nack hcode =>
      obtain ⟨q, hq, hlt⟩ := h.refused _ reply request hr hp htype hcode
      rw [hkey, hslot] at hq
      have hle := Proposal.num_le_of_le ((hq.le h.paxos).trans (htop a))
      rw [← hprop] at hle
      exact absurd hle (Int32.not_le.mpr hlt)

theorem RestInv.slotAgrees (h : RestInv s) (hg : Carries Genuine s) (hunique : UniqueIds s)
    (hrest : s.AtRest key j) : s.SlotAgrees key j := by
  by_cases hall : ∀ b, s.promise b key j = .unset
  · refine .inl (fun b => ⟨hall b, ?_⟩)
    have hlast := ((h.paxos.slots key j).tracks b).lastVote
    cases hvote : s.vote b key j with
    | none => rfl
    | some y =>
      rw [hvote] at hlast
      have hset : WasSet s b key j y.1 := .inr ⟨_, hlast.1⟩
      exact absurd ((h.unset_lt hset).trans_le (hset.le h.paxos)) (hall b ▸ lt_irrefl _)
  · obtain ⟨b, hb⟩ := not_forall.mp hall
    obtain ⟨c, x, hx, htop⟩ := h.top_round hb
    obtain ⟨v, hv⟩ := h.accepted_everywhere hrest hx htop
    have : Nonempty (Fin n) := ⟨b⟩
    have hholds : ∀ a, HoldsChosen s a key j v := fun a =>
      ⟨x.1, x.1, v, ⟨Finset.univ, majority_univ, fun a _ => hv a⟩, hv a, le_rfl⟩
    obtain ⟨cl, hcl, _⟩ := (hholds c).slot h.paxos
    have hdecides := (hholds c).decides h.paxos hg hunique hcl
    refine .inr ⟨x.1, (cl.cmdVec j).content, hdecides, fun a => ?_⟩
    have hpromise : s.promise a key j = x.1 :=
      (htop a).antisymm (WasSet.le h.paxos (.inr ⟨v, hv a⟩))
    obtain ⟨cl', hcl', hfilled, _⟩ := (hholds a).slot h.paxos
    have hvote : s.vote a key j =
        some ((cl'.cmdVec j).acceptedProposal, (cl'.cmdVec j).content) := by
      simp [MpSystem.vote, MpStore.vote, hcl', Command.vote, hfilled.num]
    obtain ⟨hup, hlast⟩ := (h.paxos.slots key j).tracks a
    rw [hvote] at hlast
    have hproposal : (cl'.cmdVec j).acceptedProposal = x.1 :=
      ((hup.2 _ _ hlast.1).trans hpromise.le).antisymm (hlast.2 _ _ (hv a))
    have hsame := (hholds a).decides_eq h.paxos hg hunique hcl' hdecides
    exact ⟨hpromise, by rw [hvote, hproposal, hsame]⟩

end Rest

section Convergence

/-- A safe step with a fresh id that copies commands as they are. -/
def GenuineStep (s : MpSystem n) (a : MpAction n) : Prop :=
  SafeStep s a ∧ DrawsFreshId s a ∧ CopiesCommands s a

instance (s : MpSystem n) (a : MpAction n) : Decidable (GenuineStep s a) :=
  inferInstanceAs (Decidable (_ ∧ _ ∧ _))

/-- When a slot has come to rest the logs of all servers agree on it, whatever
rounds the servers have held there and whichever of them were given up. -/
theorem slots_agree (h : ReachableWhen mpStep GenuineStep .init s) (key : Bytes) (j : ℕ)
    (hrest : s.AtRest key j) : s.SlotAgrees key j :=
  (restInv_of_reachable (h.mono (fun _ _ hok => hok.1))).slotAgrees
    (carries_of_reachable genuine_carried (h.mono (fun _ _ hok => hok.2.2)))
    (uniqueIds_of_reachable (h.mono (fun _ _ hok => hok.2.1))) hrest

/-- Server 1 asks for the slot that server 0 is about to decide, and carries the
command of server 0 to a higher round. -/
def carryingRun : List (MpAction 3) :=
  [.insertCommand 0 (putRequest 1 49) 10 readTypes, .startRound 0, .handle 1 blankMemory,
    .finishPrepare 0 [2] blankCommand, .insertCommand 1 (putRequest 2 50) 20 readTypes,
    .handle 0 blankMemory, .handle 1 blankMemory, .finishAccept 0 [2] blankCommand, .finish 0,
    .handle 0 blankMemory, .startRound 1, .handle 1 blankMemory,
    .finishPrepare 1 [2] blankCommand, .handle 2 blankMemory, .finishAccept 1 [2] blankCommand,
    .finish 1, .handle 0 blankMemory, .handle 0 blankMemory]

theorem carryingRun_slots_agree : ∃ s : MpSystem 3,
    runWhen mpStep GenuineStep .init carryingRun = some s ∧
    s.vote 2 [107] 0 = some (⟨2, 0⟩, ⟨11, .write, [107], [49]⟩) ∧ s.SlotAgrees [107] 0 := by
  obtain ⟨s, hs, hrest, hvote⟩ := exists_of_run
    (P := fun s : MpSystem 3 => s.AtRest [107] 0 ∧
      s.vote 2 [107] 0 = some (⟨2, 0⟩, ⟨11, .write, [107], [49]⟩))
    (show (runWhen mpStep GenuineStep .init carryingRun).any _ = true by decide +kernel)
  exact ⟨s, hs, hvote, slots_agree (reachableWhen_of_runWhen hs) [107] 0 hrest⟩

end Convergence

end KeyValueStore
