import KeyValueStore.PaxosSteps

/-! What holds in every run, whatever the requests and the order of messages:
numbers are not negative, a reply fits its request, and a call in progress
waits for the replies to what it last sent. -/

namespace KeyValueStore

variable {n : ℕ} {s t : MpSystem n} {a : MpAction n}

section Extends

structure Extends (s t : MpSystem n) : Prop where
  payload : ∀ src call request, s.payload src call = some request →
    t.payload src call = some request
  replies : ∀ r ∈ s.replies, r ∈ t.replies
  history : ∃ events, t.history = events ++ s.history

theorem Extends.mem_history (h : Extends s t) {e : MpEvent n} (he : e ∈ s.history) :
    e ∈ t.history := by
  obtain ⟨events, ht⟩ := h.history
  exact ht ▸ List.mem_append_right events he

theorem Extends.trans {u : MpSystem n} (h : Extends s t) (h' : Extends t u) : Extends s u where
  payload src call request hp := h'.payload src call request (h.payload src call request hp)
  replies r hr := h'.replies r (h.replies r hr)
  history := by
    obtain ⟨e, he⟩ := h.history
    obtain ⟨e', he'⟩ := h'.history
    exact ⟨e' ++ e, by rw [he', he, List.append_assoc]⟩

theorem Extends.length_le (h : Extends s t) (j : Fin n) :
    (s.servers j).broadcasts.length ≤ (t.servers j).broadcasts.length := by
  by_contra hlt
  have hs := List.getElem?_eq_getElem (Nat.lt_of_not_le hlt)
  exact absurd (MpSystem.lt_length_of_payload (h.payload j _ _ hs)) (Nat.lt_irrefl _)

theorem extends_advance {i : Fin n} {server : MpServer} (events : List (MpEvent n))
    (hb : server.broadcasts = (s.servers i).broadcasts) : Extends s (s.advance i server events) where
  payload src call _ h := (MpSystem.payload_advance s events hb src call).trans h
  replies _ h := h
  history := ⟨events, rfl⟩

theorem extends_broadcast (s : MpSystem n) (i : Fin n) (request : PaxosRequest) :
    Extends s (s.broadcast i request) where
  payload src call r h := by
    rw [MpSystem.payload_broadcast, if_neg, h]
    rintro ⟨rfl, rfl⟩
    exact absurd (MpSystem.lt_length_of_payload h) (Nat.lt_irrefl _)
  replies _ h := h
  history := ⟨[], rfl⟩

theorem extends_handled (s : MpSystem n) (k : ℕ) (rpc : Rpc n) (st : MpStore)
    (reply : PaxosResponse) (events : List (MpEvent n)) :
    Extends s (s.handled k rpc st reply events) where
  payload src call _ h := (s.payload_handled k rpc st reply events src call).trans h
  replies _ h := List.mem_cons_of_mem _ h
  history := ⟨events, rfl⟩

theorem MpSteps.extends (h : MpSteps s a t) : Extends s t := by
  cases h with
  | insertCommand => exact extends_advance _ rfl
  | startRound =>
    refine .trans ?_ (extends_broadcast _ _ _)
    exact extends_advance _ rfl
  | handle => exact extends_handled ..
  | prepareRetry => exact extends_advance _ rfl
  | prepareSend =>
    refine .trans ?_ (extends_broadcast _ _ _)
    exact extends_advance _ rfl
  | acceptDone => exact extends_advance _ rfl
  | acceptRetry => exact extends_advance _ rfl
  | own => exact extends_advance _ rfl
  | retry => exact extends_advance _ rfl
  | defeated => exact extends_advance _ rfl
  | answer => exact extends_advance _ rfl

end Extends

section Replies

/-- A reply, decoded, against the request that it answers. -/
inductive ReplyFits (request : PaxosRequest) (c : Command) : Prop
  | prepareAck (htype : request.mptype = .prepare) (hcode : c.code = .ack)
      (hnum : -1 ≤ c.acceptedProposal.proposalNum)
  | prepareNack (htype : request.mptype = .prepare) (hcode : c.code = .nack)
      (hnum : request.proposalNum ≤ c.acceptedProposal.proposalNum) (hid : c.commandId = 0)
  | acceptAck (htype : request.mptype = .accept) (hcode : c.code = .ack)
      (hacc : c.acceptedProposal = request.proposal) (hmin : c.minProposalNum = request.proposal)
      (hcontent : c.content = request.content) (hindex : c.index = request.index)
  | acceptNack (htype : request.mptype = .accept) (hcode : c.code = .nack)
      (hnum : request.proposalNum < c.acceptedProposal.proposalNum) (hid : c.commandId = 0)
      (hmin : c.minProposalNum = c.acceptedProposal)

theorem Handles.replyFits {u : Uninit} {st st' : MpStore} {request : PaxosRequest}
    {reply : PaxosResponse} (h : Handles u st request st' reply)
    (hslot : -1 ≤ (requestSlot u st request).acceptedProposal.proposalNum) :
    ReplyFits request (extractResponseFromPayload reply) := by
  cases h with
  | prepareAck htype hlt => 
    exact .prepareAck htype rfl (by simpa [extractResponseFromPayload, prepareReply])
  | prepareNack htype hle =>
    exact .prepareNack htype rfl (by
      simpa [extractResponseFromPayload, nackReply, PaxosRequest.proposal] using
        Proposal.num_le_of_le hle) rfl
  | acceptAck htype hle =>
    refine .acceptAck htype rfl rfl rfl ?_ rfl
    simp [extractResponseFromPayload, acceptReply, extractRequestPayloadToCommand,
      Command.content, PaxosRequest.content]
    cases request.commandType <;> rfl
  | acceptNack htype hlt => exact .acceptNack htype rfl hlt rfl rfl

theorem ReplyFits.nack_num {request : PaxosRequest} {c : Command} (h : ReplyFits request c)
    (hc : c.code = .nack) : request.proposalNum ≤ c.acceptedProposal.proposalNum := by
  cases h with
  | prepareAck _ hcode => simp [hc] at hcode
  | prepareNack _ _ hnum => exact hnum
  | acceptAck _ hcode => simp [hc] at hcode
  | acceptNack _ _ hnum => exact Int32.le_of_lt hnum

theorem ReplyFits.ack_num {request : PaxosRequest} {c : Command} (h : ReplyFits request c)
    (hreq : 0 ≤ request.proposalNum) (hc : c.code ≠ .nack) :
    -1 ≤ c.acceptedProposal.proposalNum := by
  cases h with
  | prepareAck _ _ hnum => exact hnum
  | prepareNack _ hcode => exact absurd hcode hc
  | acceptAck _ _ hacc =>
    rw [hacc]
    exact Int32.le_trans (by decide) hreq
  | acceptNack _ hcode => exact absurd hcode hc

theorem ReplyFits.code_ack {request : PaxosRequest} {c : Command} (h : ReplyFits request c)
    (hc : c.code ≠ .nack) : c.code = .ack := by
  cases h with
  | prepareAck _ hcode => exact hcode
  | prepareNack _ hcode => exact absurd hcode hc
  | acceptAck _ hcode => exact hcode
  | acceptNack _ hcode => exact absurd hcode hc

/-- An ACK to an ACCEPT says again what was sent. -/
structure Repeats (request : PaxosRequest) (c : Command) : Prop where
  accepted : c.acceptedProposal = request.proposal
  promised : c.minProposalNum = request.proposal
  content : c.content = request.content
  index : c.index = request.index

theorem ReplyFits.repeats {request : PaxosRequest} {c : Command} (h : ReplyFits request c)
    (htype : request.mptype = .accept) (hc : c.code ≠ .nack) : Repeats request c := by
  cases h with
  | prepareAck ht => simp [htype] at ht
  | prepareNack ht => simp [htype] at ht
  | acceptAck _ _ hacc hmin hcontent hindex => exact ⟨hacc, hmin, hcontent, hindex⟩
  | acceptNack _ hcode => exact absurd hcode hc

theorem selected_of_fits {request : PaxosRequest} {junk c : Command} {vec : List Command}
    {preparePhase : Bool} (hreq : 0 ≤ request.proposalNum)
    (hfits : ∀ c ∈ vec, ReplyFits request c)
    (h : getHighestAcceptedProposal junk vec preparePhase = some c) :
    Selected junk vec preparePhase c :=
  getHighestAcceptedProposal_selected h
    (fun c hc hn => Int32.lt_of_lt_of_le (by decide) (Int32.le_trans hreq ((hfits c hc).nack_num hn)))
    (fun c hc hn => (hfits c hc).ack_num hreq hn)

variable {request : PaxosRequest} {junk tempCmd : Command} {vec : List Command}

/-- Either a NACK was among the replies, and then the selection is a NACK with a
number above the request's, or none was. -/
theorem Selected.rejected_or {preparePhase : Bool} (h : Selected junk vec preparePhase tempCmd)
    (hfits : ∀ c ∈ vec, ReplyFits request c) :
    (tempCmd.code = .nack ∧ request.proposalNum < tempCmd.acceptedProposal.proposalNum) ∨
      ∀ c ∈ vec, c.code ≠ .nack := by
  have hlt : ∀ {maxNack num : Int32}, (∃ c ∈ vec, c.code = .nack) →
      (∀ c ∈ vec, c.code = .nack → c.acceptedProposal.proposalNum ≤ maxNack) →
      Int32.succ? maxNack = some num → request.proposalNum < num := by
    rintro maxNack num ⟨c, hc, hcode⟩ hmax hnum
    exact Int32.lt_of_le_of_lt (Int32.le_trans ((hfits c hc).nack_num hcode) (hmax c hc hcode))
      (succ?_eq_some hnum)
  cases h with
  | @allNack last maxNack num hall hlast hmax hnum =>
    exact .inl ⟨hall last hlast, hlt ⟨last, hlast, hall last hlast⟩ (fun c hc _ => hmax c hc) hnum⟩
  | acceptNack hphase hmax hnack hack hnum => exact .inl ⟨rfl, hlt hnack hmax hnum⟩
  | prepareNack hphase hmax hnack hnum => exact .inl ⟨rfl, hlt hnack hmax hnum⟩
  | free hvec hno hfirst => exact .inr hno
  | best hvec hno hfirst => exact .inr hno

theorem Selected.num_lt_of_nack {preparePhase : Bool} (h : Selected junk vec preparePhase tempCmd)
    (hfits : ∀ c ∈ vec, ReplyFits request c) (hcode : tempCmd.code = .nack) :
    request.proposalNum < tempCmd.acceptedProposal.proposalNum := by
  rcases h.rejected_or hfits with ⟨_, hlt⟩ | hno
  · exact hlt
  · cases h with
    | @allNack last _ _ hall hlast => exact absurd (hall last hlast) (hno last hlast)
    | acceptNack _ _ hnack =>
      obtain ⟨c, hc, hn⟩ := hnack
      exact absurd hn (hno c hc)
    | prepareNack _ _ hnack =>
      obtain ⟨c, hc, hn⟩ := hnack
      exact absurd hn (hno c hc)
    | free => simp at hcode
    | @best head rest hvec =>
      have hmem := (selectHighest_spec head rest).1
      exact absurd hcode (hno _ (hvec ▸ hmem))

inductive AcceptResult (request : PaxosRequest) (junk : Command) (vec : List Command)
    (tempCmd : Command) : Prop
  | accepted (hall : ∀ c ∈ vec, c.code = .ack) (hmem : tempCmd ∈ vec)
  | allRejected (hnum : request.proposalNum < tempCmd.acceptedProposal.proposalNum)
      (hid : tempCmd.commandId = 0)
      (hmin : request.proposalNum < tempCmd.minProposalNum.proposalNum)
  | someRejected (hnum : request.proposalNum < tempCmd.acceptedProposal.proposalNum)
      (hnack : ∃ c ∈ vec, c.code = .nack) (hack : ∃ c ∈ vec, c.code ≠ .nack)
      (hid : tempCmd.commandId = junk.commandId)

theorem Selected.acceptResult (h : Selected junk vec false tempCmd)
    (htype : request.mptype = .accept) (hreq : 0 ≤ request.proposalNum)
    (hfits : ∀ c ∈ vec, ReplyFits request c) : AcceptResult request junk vec tempCmd := by
  have hlt := h.rejected_or hfits
  cases h with
  | @allNack last maxNack num hall hlast hmax hnum =>
    have hl := (hlt.resolve_right (fun hno => hno last hlast (hall last hlast))).2
    cases hfits last hlast with
    | prepareAck ht => simp [htype] at ht
    | prepareNack ht => simp [htype] at ht
    | acceptAck _ hcode => simp [hall last hlast] at hcode
    | acceptNack _ _ hnum' hid hmin => exact .allRejected hl hid (hmin ▸ hnum')
  | acceptNack hphase hmax hnack hack' hnum =>
    obtain ⟨c, hc, hn⟩ := hnack
    exact .someRejected (hlt.resolve_right (fun hno => hno c hc hn)).2 ⟨c, hc, hn⟩ hack' rfl
  | prepareNack hphase => simp at hphase
  | @free head rest hvec hno hfirst =>
    have hmem : head ∈ vec := hvec ▸ List.mem_cons_self
    rw [((hfits head hmem).repeats htype (hno head hmem)).accepted] at hfirst
    have hbad : (0 : Int32) ≤ -1 := hfirst ▸ hreq
    exact absurd hbad (by decide)
  | @best head rest hvec hno hfirst =>
    exact .accepted (fun c hc => (hfits c hc).code_ack (hno c hc))
      (hvec ▸ (selectHighest_spec head rest).1)

end Replies

section Invariant

def InsertCall.At (call : InsertCall) (key : Bytes) (i : ℕ) : Prop :=
  call.phase ≠ .returned ∧ call.key = key ∧ call.currIdx = i

/-- A slot that this server may still propose at: it is free, or the call in
progress is at it. -/
def MpServer.Open (server : MpServer) (key : Bytes) (i : ℕ) : Prop :=
  server.store.available key i = true ∨ ∃ call, server.call = some call ∧ call.At key i

/-- A slot that is open to a call which goes on with it was open to it before. -/
theorem MpServer.Open.proceed {server server' : MpServer} {call call' : InsertCall} {key : Bytes}
    {i : ℕ} (h : server'.Open key i) (hstore : server'.store = server.store)
    (hcall : server.call = some call) (hcall' : server'.call = some call')
    (hactive : call.phase ≠ .returned) (hkey : call'.key = call.key)
    (hidx : call'.currIdx = call.currIdx) : server.Open key i := by
  rcases h with ho | ⟨c, hc, hat⟩
  · exact .inl (hstore ▸ ho)
  · obtain rfl := Option.some.inj (hcall'.symm.trans hc)
    exact .inr ⟨call, hcall, hactive, hkey ▸ hat.2.1, hidx ▸ hat.2.2⟩

def AcceptedNum (_ : Bytes) (_ : ℕ) (c : Command) : Prop := -1 ≤ c.acceptedProposal.proposalNum

theorem acceptedNum_slotPredicate : SlotPredicate AcceptedNum where
  empty _ _ _ := by
    change (-1 : Int32) ≤ -1
    decide
  promised _ _ _ _ h := h
  started _ _ _ _ _ _ h := h

def PhaseFits (server : MpServer) (call : InsertCall) : Prop :=
  match call.phase with
  | .preparing round _ => call.origCmd.mpReqType = .prepare ∧
      server.broadcasts[round]? = some (makeMpRequestPayload call.origCmd)
  | .accepting _ acceptCall sentCmd => sentCmd.mpReqType = .accept ∧
      sentCmd.acceptedProposal = call.origCmd.acceptedProposal ∧
      server.broadcasts[acceptCall]? = some (makeMpRequestPayload sentCmd)
  | .proposed _ tempCmd => 0 ≤ tempCmd.acceptedProposal.proposalNum
  | _ => True

structure CallFits (server : MpServer) (call : InsertCall) : Prop where
  log : (server.store.logMap call.key).isSome
  num : 0 ≤ call.origCmd.acceptedProposal.proposalNum
  index : call.origCmd.index.toNat = call.currIdx
  lt : call.currIdx < initCommandLength
  phase : PhaseFits server call

structure ServerFits (server : MpServer) : Prop where
  slots : server.store.Slots AcceptedNum
  broadcasts : ∀ request ∈ server.broadcasts, 0 ≤ request.proposalNum
  call : ∀ call, server.call = some call → CallFits server call
  promise : ∀ key i, server.Open key i → -1 ≤ (server.store.promise key i).proposalNum

structure Traffic (s : MpSystem n) : Prop where
  servers : ∀ i, ServerFits (s.servers i)
  rpcs : ∀ rpc : Rpc n, (rpc ∈ s.calls ∨ ∃ reply, (rpc, reply) ∈ s.replies) →
    rpc.src ≠ rpc.dst ∧ ∃ request, s.payload rpc.src rpc.call = some request
  replies : ∀ rpc reply request, (rpc, reply) ∈ s.replies →
    s.payload rpc.src rpc.call = some request →
    ReplyFits request (extractResponseFromPayload reply)

theorem traffic_init : Traffic (MpSystem.init : MpSystem n) where
  servers _ := ⟨MpStore.slots_empty, by simp [MpSystem.init, MpServer.start],
    by simp [MpSystem.init, MpServer.start], fun _ _ _ => by
      change (-1 : Int32) ≤ -1
      decide⟩
  rpcs := by simp [MpSystem.init]
  replies := by simp [MpSystem.init]

theorem Traffic.payload_num (h : Traffic s) {src : Fin n} {call : ℕ} {request : PaxosRequest}
    (hp : s.payload src call = some request) : 0 ≤ request.proposalNum :=
  (h.servers src).broadcasts request (List.mem_of_getElem? hp)

theorem Traffic.collect_fits (h : Traffic s) {i : Fin n} {call : ℕ} {order : List (Fin n)}
    {vec : List Command} {request : PaxosRequest} (hvec : s.collect i call order = some vec)
    (hp : s.payload i call = some request) : ∀ c ∈ vec, ReplyFits request c := by
  intro c hc
  obtain ⟨a, _, reply, hmem, rfl⟩ := MpSystem.mem_of_collect hvec hc
  exact h.replies _ _ _ hmem hp

/-- The round of a call was sent as the command that the call holds. -/
theorem Traffic.preparing (h : Traffic s) {i : Fin n} {call : InsertCall} {round : ℕ}
    {own : Option (Proposal × Content)} (hcall : (s.servers i).call = some call)
    (hphase : call.phase = .preparing round own) : call.origCmd.mpReqType = .prepare ∧
      s.payload i round = some (makeMpRequestPayload call.origCmd) := by
  have hfits := ((h.servers i).call call hcall).phase
  simp only [PhaseFits, hphase] at hfits
  exact hfits

theorem Traffic.accepting (h : Traffic s) {i : Fin n} {call : InsertCall} {round acceptCall : ℕ}
    {sentCmd : Command} (hcall : (s.servers i).call = some call)
    (hphase : call.phase = .accepting round acceptCall sentCmd) : sentCmd.mpReqType = .accept ∧
      sentCmd.acceptedProposal = call.origCmd.acceptedProposal ∧
      s.payload i acceptCall = some (makeMpRequestPayload sentCmd) := by
  have hfits := ((h.servers i).call call hcall).phase
  simp only [PhaseFits, hphase] at hfits
  exact hfits

theorem Traffic.proposed_num (h : Traffic s) {i : Fin n} {call : InsertCall} {round : ℕ}
    {tempCmd : Command} (hcall : (s.servers i).call = some call)
    (hphase : call.phase = .proposed round tempCmd) : 0 ≤ tempCmd.acceptedProposal.proposalNum := by
  have hfits := ((h.servers i).call call hcall).phase
  simp only [PhaseFits, hphase] at hfits
  exact hfits

theorem Traffic.advance (h : Traffic s) {i : Fin n} {server : MpServer}
    (events : List (MpEvent n)) (hb : server.broadcasts = (s.servers i).broadcasts)
    (hi : ServerFits server) : Traffic (s.advance i server events) where
  servers j := by
    rw [MpSystem.advance_servers]
    split
    · exact hi
    · exact h.servers j
  rpcs rpc hr := by
    simpa only [MpSystem.payload_advance s events hb] using h.rpcs rpc hr
  replies rpc reply request hr hp :=
    h.replies rpc reply request hr ((MpSystem.payload_advance s events hb _ _).symm.trans hp)

theorem Traffic.advance_broadcast (h : Traffic s) {i : Fin n} {server : MpServer}
    (events : List (MpEvent n)) (request : PaxosRequest)
    (hb : server.broadcasts = (s.servers i).broadcasts)
    (hi : ServerFits { server with broadcasts := server.broadcasts ++ [request] }) :
    Traffic ((s.advance i server events).broadcast i request) where
  servers j := by
    simp only [MpSystem.broadcast_servers, MpSystem.advance_servers, if_true]
    split
    · exact hi
    · exact h.servers j
  rpcs rpc hr := by
    have hold : ∀ r, s.payload rpc.src rpc.call = some r →
        ((s.advance i server events).broadcast i request).payload rpc.src rpc.call = some r :=
      fun r hr => ((extends_advance events hb).trans (extends_broadcast _ _ _)).payload _ _ r hr
    rw [MpSystem.mem_broadcast_calls] at hr
    rcases hr with (hc | ⟨hsrc, hdst, hcall⟩) | hr
    · exact (h.rpcs rpc (.inl hc)).imp_right (fun ⟨r, hr⟩ => ⟨r, hold r hr⟩)
    · exact ⟨hsrc ▸ Ne.symm hdst, request, by rw [MpSystem.payload_broadcast, if_pos ⟨hsrc, hcall⟩]⟩
    · exact (h.rpcs rpc (.inr hr)).imp_right (fun ⟨r, hr⟩ => ⟨r, hold r hr⟩)
  replies rpc reply r hr hp := by
    obtain ⟨_, r', hr'⟩ := h.rpcs rpc (.inr ⟨reply, hr⟩)
    have hsame : r' = r := by
      have he := ((extends_advance events hb).trans (extends_broadcast _ i request)).payload _ _ r' hr'
      exact Option.some.inj (he.symm.trans hp)
    exact h.replies rpc reply r hr (hsame ▸ hr')

theorem CallFits.retry {server : MpServer} {call : InsertCall} (h : CallFits server call)
    {num : Int32} (hnum : 0 ≤ num) : CallFits server
      { call with origCmd := call.origCmd.withAcceptedNum num, phase := .roundStart } where
  log := h.log
  num := hnum
  index := h.index
  lt := h.lt
  phase := trivial

theorem ServerFits.setCall {server : MpServer} (h : ServerFits server) {call : InsertCall}
    (hc : CallFits server call) (hopen : ∀ key i, call.At key i → server.Open key i) :
    ServerFits { server with call := some call } where
  slots := h.slots
  broadcasts := h.broadcasts
  call c he := by
    simp only [Option.some.injEq] at he
    subst he
    exact ⟨hc.log, hc.num, hc.index, hc.lt, hc.phase⟩
  promise key i ho := by
    rcases ho with hav | ⟨c, he, hat⟩
    · exact h.promise key i (.inl hav)
    · simp only [Option.some.injEq] at he
      exact h.promise key i (hopen key i (he ▸ hat))

theorem Traffic.insertCommand (h : Traffic s) {i : Fin n} {request : KeyStoreRequest}
    {rand : UInt32} {st : MpStore} {call : InsertCall}
    (hstart : Starts (s.servers i).store request rand st call) :
    ServerFits { s.servers i with store := st, call := some call } := by
  have hslots := hstart.slots acceptedNum_slotPredicate (h.servers i).slots
  obtain ⟨types, rfl⟩ := hstart.store
  have hav := setLog_lookup_available (s.servers i).store types call.key
  have hserver : ServerFits { s.servers i with
      store := (s.servers i).store.setLog call.key ((s.servers i).store.lookup types call.key)
      call := none } := {
    slots := hslots
    broadcasts := (h.servers i).broadcasts
    call := by simp
    promise := by
      rintro key j (ho | ⟨c, hc, _⟩)
      · rw [setLog_lookup_promise]
        exact (h.servers i).promise key j (.inl ((hav key j).symm.trans ho))
      · simp at hc }
  refine hserver.setCall ⟨?_, ?_, hstart.index, hstart.currIdx_lt, ?_⟩ ?_
  · simp [MpStore.setLog]
  · simp [hstart.accepted]
  · simp [PhaseFits, hstart.phase]
  · rintro key j ⟨_, rfl, rfl⟩
    exact .inl ((hav _ _).trans hstart.available)

theorem Traffic.startRound (h : Traffic s) {i : Fin n} {call : InsertCall} {st : MpStore}
    {own : Option (Proposal × Content)} {origCmd : Command}
    (hcall : (s.servers i).call = some call) (hphase : call.phase = .roundStart)
    (horig : origCmd = { call.origCmd with mpReqType := .prepare })
    (hst : updateLocalValues (s.servers i).store origCmd = some st) :
    ServerFits {
      store := st
      broadcasts := (s.servers i).broadcasts ++ [makeMpRequestPayload origCmd]
      call := some { call with
        origCmd, phase := .preparing (s.servers i).broadcasts.length own } } := by
  have hfits := (h.servers i).call call hcall
  have hprom := updateLocalValues_promise hst
  have hav := updateLocalValues_available hst
  have hslots := updateLocalValues_slots acceptedNum_slotPredicate (h.servers i).slots hst
  obtain ⟨cl, hcl, rfl⟩ := updateLocalValues_log hst
  refine ⟨hslots, ?_, ?_, ?_⟩
  · intro request hr
    rcases List.mem_append.mp hr with hr | hr
    · exact (h.servers i).broadcasts request hr
    · rw [List.mem_singleton.mp hr, horig]
      exact hfits.num
  · intro c hc
    simp only [Option.some.injEq] at hc
    subst hc horig
    exact {
      log := by simp [InsertCall.key, MpStore.setLog]
      num := hfits.num
      index := hfits.index
      lt := hfits.lt
      phase := ⟨rfl, List.getElem?_concat_length⟩ }
  · intro key j ho
    rw [hprom]
    split
    next =>
      rw [horig]
      exact Int32.le_trans (by decide) hfits.num
    next =>
      refine (h.servers i).promise key j ?_
      rcases ho with ho | ⟨c, hc, hat⟩
      · exact .inl ((hav key j).symm.trans ho)
      · simp only [Option.some.injEq] at hc
        subst hc horig
        exact .inr ⟨call, hcall, by simp [hphase], hat.2.1, hat.2.2⟩

theorem Traffic.prepareSend (h : Traffic s) {i : Fin n} {call : InsertCall} {round : ℕ}
    {own : Option (Proposal × Content)} {tempCmd sentCmd : Command}
    (hcall : (s.servers i).call = some call) (hphase : call.phase = .preparing round own)
    (hsent : sentCmd = { (if tempCmd.code = .ok then call.origCmd else tempCmd) with
      mpReqType := .accept, acceptedProposal := call.origCmd.acceptedProposal }) :
    ServerFits {
      store := (s.servers i).store
      broadcasts := (s.servers i).broadcasts ++ [makeMpRequestPayload sentCmd]
      call := some { call with
        phase := .accepting round (s.servers i).broadcasts.length sentCmd } } := by
  have hfits := (h.servers i).call call hcall
  have hacc : sentCmd.acceptedProposal = call.origCmd.acceptedProposal := by rw [hsent]
  refine ⟨(h.servers i).slots, ?_, ?_, ?_⟩
  · intro request hr
    rcases List.mem_append.mp hr with hr | hr
    · exact (h.servers i).broadcasts request hr
    · rw [List.mem_singleton.mp hr]
      change 0 ≤ sentCmd.acceptedProposal.proposalNum
      rw [hacc]
      exact hfits.num
  · intro c hc
    simp only [Option.some.injEq] at hc
    subst hc
    exact {
      log := hfits.log
      num := hfits.num
      index := hfits.index
      lt := hfits.lt
      phase := ⟨by rw [hsent], hacc, List.getElem?_concat_length⟩ }
  · intro key j ho
    refine (h.servers i).promise key j ?_
    rcases ho with ho | ⟨c, hc, hat⟩
    · exact .inl ho
    · simp only [Option.some.injEq] at hc
      subst hc
      exact .inr ⟨call, hcall, by simp [hphase], hat.2.1, hat.2.2⟩

theorem Traffic.prepareSelected (h : Traffic s) {i : Fin n} {call : InsertCall} {round : ℕ}
    {own : Option (Proposal × Content)} {order : List (Fin n)} {junk tempCmd : Command}
    {vec : List Command} (hcall : (s.servers i).call = some call)
    (hphase : call.phase = .preparing round own) (hvec : s.collect i round order = some vec)
    (htemp : getHighestAcceptedProposal junk vec true = some tempCmd) :
    Selected junk vec true tempCmd ∧
      ∀ c ∈ vec, ReplyFits (makeMpRequestPayload call.origCmd) c := by
  have hpay := (h.preparing hcall hphase).2
  have hvecFits := h.collect_fits hvec hpay
  have hreq : 0 ≤ (makeMpRequestPayload call.origCmd).proposalNum := h.payload_num hpay
  exact ⟨selected_of_fits hreq hvecFits htemp, hvecFits⟩

theorem Traffic.acceptSelected (h : Traffic s) {i : Fin n} {call : InsertCall}
    {round acceptCall : ℕ} {sentCmd junk tempCmd : Command} {order : List (Fin n)}
    {vec : List Command} (hcall : (s.servers i).call = some call)
    (hphase : call.phase = .accepting round acceptCall sentCmd)
    (hvec : s.collect i acceptCall order = some vec)
    (htemp : getHighestAcceptedProposal junk vec false = some tempCmd) :
    Selected junk vec false tempCmd ∧ ∀ c ∈ vec, ReplyFits (makeMpRequestPayload sentCmd) c := by
  obtain ⟨_, _, hpay⟩ := h.accepting hcall hphase
  have hvecFits := h.collect_fits hvec hpay
  have hreq : 0 ≤ (makeMpRequestPayload sentCmd).proposalNum := h.payload_num hpay
  exact ⟨selected_of_fits hreq hvecFits htemp, hvecFits⟩

theorem Traffic.acceptResult (h : Traffic s) {i : Fin n} {call : InsertCall}
    {round acceptCall : ℕ} {sentCmd junk tempCmd : Command} {order : List (Fin n)}
    {vec : List Command} (hcall : (s.servers i).call = some call)
    (hphase : call.phase = .accepting round acceptCall sentCmd)
    (hvec : s.collect i acceptCall order = some vec)
    (htemp : getHighestAcceptedProposal junk vec false = some tempCmd) :
    AcceptResult (makeMpRequestPayload sentCmd) junk vec tempCmd ∧
      ∀ c ∈ vec, ReplyFits (makeMpRequestPayload sentCmd) c := by
  obtain ⟨htype, _, hpay⟩ := h.accepting hcall hphase
  obtain ⟨hsel, hvecFits⟩ := h.acceptSelected hcall hphase hvec htemp
  have hreq : 0 ≤ (makeMpRequestPayload sentCmd).proposalNum := h.payload_num hpay
  exact ⟨hsel.acceptResult htype hreq hvecFits, hvecFits⟩

theorem Traffic.prepareRetry_num (h : Traffic s) {i : Fin n} {call : InsertCall}
    {round : ℕ} {own : Option (Proposal × Content)} {order : List (Fin n)}
    {junk tempCmd : Command} {vec : List Command} (hcall : (s.servers i).call = some call)
    (hphase : call.phase = .preparing round own) (hvec : s.collect i round order = some vec)
    (htemp : getHighestAcceptedProposal junk vec true = some tempCmd)
    (hcode : tempCmd.code = .nack) : call.origCmd.acceptedProposal.proposalNum <
      tempCmd.acceptedProposal.proposalNum := by
  obtain ⟨hsel, hvecFits⟩ := h.prepareSelected hcall hphase hvec htemp
  have hlt := hsel.num_lt_of_nack hvecFits hcode
  exact hlt

theorem Traffic.acceptRetry_num (h : Traffic s) {i : Fin n} {call : InsertCall}
    {round acceptCall : ℕ} {order : List (Fin n)} {junk tempCmd sentCmd : Command}
    {vec : List Command} (hcall : (s.servers i).call = some call)
    (hphase : call.phase = .accepting round acceptCall sentCmd)
    (hvec : s.collect i acceptCall order = some vec)
    (htemp : getHighestAcceptedProposal junk vec false = some tempCmd)
    (hid : tempCmd.commandId ≠ sentCmd.commandId) : call.origCmd.acceptedProposal.proposalNum <
      tempCmd.acceptedProposal.proposalNum := by
  obtain ⟨htype, hacc, _⟩ := h.accepting hcall hphase
  obtain ⟨hres, hvecFits⟩ := h.acceptResult hcall hphase hvec htemp
  cases hres with
  | accepted hall hmem =>
    have hsame := (hvecFits _ hmem).repeats htype (by simp [hall _ hmem])
    exact absurd (congrArg Content.commandId hsame.content) hid
  | allRejected hnum => exact hacc ▸ hnum
  | someRejected hnum => exact hacc ▸ hnum

theorem AcceptResult.num_nonneg {request : PaxosRequest} {junk tempCmd : Command}
    {vec : List Command} (h : AcceptResult request junk vec tempCmd)
    (htype : request.mptype = .accept) (hreq : 0 ≤ request.proposalNum)
    (hfits : ∀ c ∈ vec, ReplyFits request c) : 0 ≤ tempCmd.acceptedProposal.proposalNum := by
  cases h with
  | accepted hall hmem =>
    have hsame := (hfits _ hmem).repeats htype (by simp [hall _ hmem])
    exact hsame.accepted ▸ hreq
  | allRejected hnum => exact Int32.le_trans hreq (Int32.le_of_lt hnum)
  | someRejected hnum => exact Int32.le_trans hreq (Int32.le_of_lt hnum)

theorem Traffic.acceptResult_num (h : Traffic s) {i : Fin n} {call : InsertCall}
    {round acceptCall : ℕ} {sentCmd junk tempCmd : Command} {order : List (Fin n)}
    {vec : List Command} (hcall : (s.servers i).call = some call)
    (hphase : call.phase = .accepting round acceptCall sentCmd)
    (hvec : s.collect i acceptCall order = some vec)
    (htemp : getHighestAcceptedProposal junk vec false = some tempCmd) :
    0 ≤ tempCmd.acceptedProposal.proposalNum := by
  obtain ⟨htype, hacc, _⟩ := h.accepting hcall hphase
  obtain ⟨hres, hvecFits⟩ := h.acceptResult hcall hphase hvec htemp
  refine hres.num_nonneg htype ?_ hvecFits
  change 0 ≤ sentCmd.acceptedProposal.proposalNum
  exact hacc ▸ ((h.servers i).call call hcall).num

theorem Traffic.recorded (h : Traffic s) {i : Fin n} {call : InsertCall} {st : MpStore}
    {cl : CommandsList} {cmd : Command}
    (hcl : (s.servers i).store.logMap (cStr call.origCmd.key) = some cl)
    (hst : st = (s.servers i).store.setLog (cStr call.origCmd.key)
      (recordedLog cl call.currIdx cmd))
    (hnum : 0 ≤ cmd.acceptedProposal.proposalNum) :
    ServerFits { s.servers i with store := st, call := none } where
  slots := hst ▸ recordedLog_slots (h.servers i).slots hcl (Int32.le_trans (by decide) hnum)
  broadcasts := (h.servers i).broadcasts
  call c hc := by simp at hc
  promise := by
    rintro key j (ho | ⟨c, hc, _⟩)
    · subst hst
      dsimp only at ho ⊢
      rw [recordedLog_available hcl] at ho
      rw [recordedLog_promise hcl]
      split at ho
      next => simp at ho
      next hne =>
        rw [if_neg hne]
        exact (h.servers i).promise key j (.inl ho)
    · simp at hc

theorem Traffic.handle (h : Traffic s) {k : ℕ} {u : Uninit} {rpc : Rpc n}
    {request : PaxosRequest} {st : MpStore} {reply : PaxosResponse} (hrpc : rpc ∈ s.calls)
    (hreq : s.payload rpc.src rpc.call = some request)
    (hh : Handles u (s.servers rpc.dst).store request st reply) (events : List (MpEvent n)) :
    Traffic (s.handled k rpc st reply events) := by
  have hdst := h.servers rpc.dst
  have hnum := h.payload_num hreq
  refine ⟨fun j => ?_, ?_, ?_⟩
  · rw [MpSystem.handled_servers]
    split
    · exact {
        slots := hh.slots hdst.slots acceptedNum_slotPredicate
          (fun _ _ => Int32.le_trans (by decide) hnum)
        broadcasts := hdst.broadcasts
        call := fun c hc => {
          log := hh.logMap_isSome (hdst.call c hc).log
          num := (hdst.call c hc).num
          index := (hdst.call c hc).index
          lt := (hdst.call c hc).lt
          phase := (hdst.call c hc).phase }
        promise := fun key j ho => by
          dsimp only
          rw [hh.promise_eq]
          split
          next => exact Int32.le_trans (by decide) hnum
          next =>
            refine hdst.promise key j (ho.imp_left (fun hav => ?_))
            dsimp only at hav
            rw [hh.available_eq] at hav
            split at hav
            next => simp at hav
            next => exact hav }
    · exact h.servers j
  · rintro r hr
    simp only [MpSystem.payload_handled]
    rcases hr with hr | ⟨reply', hr⟩
    · exact h.rpcs r (.inl (MpSystem.mem_handled_calls hr))
    · rcases List.mem_cons.mp hr with he | hr
      · cases he
        exact h.rpcs rpc (.inl hrpc)
      · exact h.rpcs r (.inr ⟨reply', hr⟩)
  · intro r reply' request' hr hp
    rw [MpSystem.payload_handled] at hp
    rcases List.mem_cons.mp hr with he | hr
    · cases he
      have hsame : request' = request := Option.some.inj (hp.symm.trans hreq)
      exact hsame ▸ hh.replyFits (hdst.slots.lookup acceptedNum_slotPredicate _ _ _)
    · exact h.replies r reply' request' hr hp

theorem mpAnswer_logMap {st st' : MpStore} {request : KeyStoreRequest} {i : ℕ}
    {reply : KeyStoreResponse} (h : mpAnswer st request i = some (st', reply)) :
    st'.logMap = st.logMap := by
  unfold mpAnswer at h
  split at h
  · obtain ⟨⟨found, st₁⟩, happ, h⟩ := Option.bind_eq_some_iff.mp h
    have hlog := applyLastWrite_logMap happ
    dsimp only at h
    split at h
    · obtain ⟨_, _, he⟩ := Option.map_eq_some_iff.mp h
      simp only [Prod.mk.injEq] at he
      exact he.1 ▸ hlog
    · simp only [Option.some.injEq, Prod.mk.injEq] at h
      exact h.1 ▸ hlog
  · simp only [Option.some.injEq, Prod.mk.injEq] at h
    exact h.1 ▸ rfl

theorem Traffic.step (h : Traffic s) (hs : MpSteps s a t) : Traffic t := by
  have hopen : ∀ {i : Fin n} {call : InsertCall} (origCmd : Command) (phase : Phase),
      (s.servers i).call = some call → call.phase ≠ .returned → origCmd.key = call.origCmd.key →
      ∀ key j, InsertCall.At { call with origCmd, phase } key j → (s.servers i).Open key j :=
    fun origCmd phase hcall hphase hkey key j hat =>
      .inr ⟨_, hcall, hphase, by simpa [InsertCall.key, hkey] using hat.2.1, hat.2.2⟩
  cases hs with
  | insertCommand hidle hstart => exact h.advance _ rfl (h.insertCommand hstart)
  | startRound hcall hphase horig hst =>
    exact h.advance_broadcast _ _ rfl (h.startRound hcall hphase horig hst)
  | handle hrpc hk hreq hslot hh => exact h.handle hrpc hreq hh _
  | @prepareRetry i call round own order junk tempCmd vec hcall hphase hvec htemp hcode =>
    have hc := (h.servers i).call call hcall
    have hlt := h.prepareRetry_num hcall hphase hvec htemp hcode
    exact h.advance _ rfl ((h.servers i).setCall
      (hc.retry (Int32.le_trans hc.num (Int32.le_of_lt hlt)))
      (hopen _ _ hcall (by simp [hphase]) rfl))
  | prepareSend hcall hphase hvec htemp hcode hsent =>
    exact h.advance_broadcast _ _ rfl (h.prepareSend hcall hphase hsent)
  | @acceptDone i call round acceptCall sentCmd order junk tempCmd vec hcall hphase hvec htemp =>
    have hc := (h.servers i).call call hcall
    have hnum := h.acceptResult_num hcall hphase hvec htemp
    exact h.advance _ rfl ((h.servers i).setCall ⟨hc.log, hc.num, hc.index, hc.lt, hnum⟩
      (hopen _ _ hcall (by simp [hphase]) rfl))
  | @acceptRetry i call round acceptCall sentCmd order junk tempCmd vec hcall hphase hvec htemp =>
    have hc := (h.servers i).call call hcall
    have hnum := h.acceptResult_num hcall hphase hvec htemp
    exact h.advance _ rfl ((h.servers i).setCall (hc.retry hnum)
      (hopen _ _ hcall (by simp [hphase]) rfl))
  | @own i call round tempCmd origCmd st hcall hphase hrec =>
    have hc := (h.servers i).call call hcall
    cases hrec with
    | @own cl hcl hid hmin =>
      have hserver := @Traffic.recorded n s h i call _ cl
        { call.origCmd with minProposalNum := (cl.cmdVec call.currIdx).minProposalNum } hcl rfl hc.num
      refine h.advance _ rfl (hserver.setCall ⟨?_, hc.num, hc.index, hc.lt, trivial⟩ ?_)
      · simp [InsertCall.key, MpStore.setLog]
      · exact fun _ _ hat => absurd rfl hat.1
  | @retry i call round tempCmd origCmd hcall hphase hrec =>
    have hc := (h.servers i).call call hcall
    cases hrec with
    | @retry num hid hmin hnum =>
      have hprom := (h.servers i).promise call.key call.currIdx
        (.inr ⟨call, hcall, by simp [hphase], rfl, rfl⟩)
      have hpos : 0 ≤ num := succ?_nonneg hprom hnum
      exact h.advance _ rfl ((h.servers i).setCall (hc.retry hpos)
        (hopen _ _ hcall (by simp [hphase]) rfl))
  | @defeated i call round tempCmd origCmd st currIdx hcall hphase hrec =>
    cases hrec with
    | @defeated cl j hcl hid hi =>
      obtain ⟨hlt, hav, _⟩ := CommandsList.firstAvailable_eq_some hi
      have hserver := h.recorded hcl rfl (h.proposed_num hcall hphase)
      refine h.advance _ rfl (hserver.setCall
        ⟨?_, Int32.le_refl 0, toNat_toUInt32_of_lt hlt, hlt, trivial⟩ ?_)
      · simp [InsertCall.key, MpStore.setLog]
      · rintro key j' ⟨_, rfl, rfl⟩
        exact .inl (by simpa [MpStore.available, MpStore.setLog, InsertCall.key] using hav)
  | @answer i call st reply hcall hphase hans =>
    have hlog := mpAnswer_logMap hans
    have hi := h.servers i
    refine h.advance _ rfl ⟨hi.slots.congr hlog, hi.broadcasts, by simp, ?_⟩
    rintro key j (ho | ⟨c, hc, _⟩)
    · simp only [MpStore.available, MpStore.promise, hlog] at ho ⊢
      exact hi.promise key j (.inl ho)
    · simp at hc

theorem traffic_of_reachable {ok : MpSystem n → MpAction n → Prop}
    (h : ReachableWhen mpStep ok .init s) : Traffic s :=
  h.invariant traffic_init (fun _ _ _ _ hu _ he => hu.step (mpStep_steps he))

end Invariant

end KeyValueStore
