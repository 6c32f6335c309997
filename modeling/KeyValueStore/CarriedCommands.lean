import KeyValueStore.Agreement

/-! How commands travel: request, proposer, ACCEPT, slot, PREPARE reply and the
next proposer. A property of commands that no hop spoils holds of every command
in every log. -/

namespace KeyValueStore

variable {n : ℕ} {s t : MpSystem n} {a : MpAction n}

section Hops

/-- A property of commands that survives every hop of a step which is `ok`. -/
structure Carried (Q : MpSystem n → Content → Prop) (ok : MpSystem n → MpAction n → Prop) :
    Prop where
  mono : ∀ {s t x}, Extends s t → Q s x → Q t x
  zero : ∀ {s x}, x.commandId = 0 → Q s x
  called : ∀ {s t i request rand types}, ok s (.insertCommand i request rand types) →
    .called i request (newCommandId rand request) ∈ t.history →
    Q t ⟨newCommandId rand request, request.type, request.key, request.value⟩
  wire : ∀ {s x}, Q s x → Q s { x with commandType := wireType x.commandType }
  report : ∀ {s k u rpc request}, ok s (.handle k u) → s.calls[k]? = some rpc →
    s.payload rpc.src rpc.call = some request → request.mptype = .prepare →
    s.promise rpc.dst (requestKey u request) request.slot < request.proposal →
    Q s (requestSlot u (s.servers rpc.dst).store request).content →
    Q s { (requestSlot u (s.servers rpc.dst).store request).content with
      commandType := getCCommandType request.commandType }
  junk : ∀ {s i order junk}, ok s (.finishAccept i order junk) → JunkDiffers s i order junk

end Hops

section Invariant

variable {Q : MpSystem n → Content → Prop} {ok : MpSystem n → MpAction n → Prop}

def CallCarries (Q : MpSystem n → Content → Prop) (s : MpSystem n) (call : InsertCall) : Prop :=
  Q s call.origCmd.content ∧
    match call.phase with
    | .accepting _ _ sentCmd => Q s sentCmd.content
    | .proposed _ tempCmd => Q s tempCmd.content
    | _ => True

structure Carries (Q : MpSystem n → Content → Prop) (s : MpSystem n) : Prop where
  slots : ∀ i, (s.servers i).store.Slots (fun _ _ c => Q s c.content)
  payloads : ∀ src call request, s.payload src call = some request → Q s request.content
  replies : ∀ rpc reply, (rpc, reply) ∈ s.replies → Q s (extractResponseFromPayload reply).content
  calls : ∀ i call, (s.servers i).call = some call → CallCarries Q s call
  accepted : ∀ b key i cmd byHandler, .accepted b key i cmd byHandler ∈ s.history →
    Q s cmd.content

theorem Carried.slotPredicate (hQ : Carried Q ok) (s : MpSystem n) :
    SlotPredicate (fun _ _ c => Q s c.content) where
  empty _ _ _ := hQ.zero rfl
  promised _ _ _ _ h := h
  started _ _ _ _ _ _ h := h

theorem CallCarries.mono (hQ : Carried Q ok) (he : Extends s t) {call : InsertCall}
    (h : CallCarries Q s call) : CallCarries Q t call := by
  refine ⟨hQ.mono he h.1, ?_⟩
  have hp := h.2
  split
  next hphase =>
    simp only [hphase] at hp
    exact hQ.mono he hp
  next hphase =>
    simp only [hphase] at hp
    exact hQ.mono he hp
  next => trivial

/-- A step that one server takes alone, by what it leaves in the slots, sends
and goes on with. -/
theorem Carries.local (hQ : Carried Q ok) (h : Carries Q s) {i : Fin n} (hext : Extends s t)
    (hother : ∀ j, j ≠ i → t.servers j = s.servers j) (hreplies : t.replies = s.replies)
    (hslots : (t.servers i).store.Slots (fun _ _ c => Q t c.content))
    (hpayloads : ∀ src call request, t.payload src call = some request →
      s.payload src call = some request ∨ Q t request.content)
    (hcall : ∀ call, (t.servers i).call = some call → CallCarries Q t call)
    (haccepted : ∀ b key i cmd byHandler, .accepted b key i cmd byHandler ∈ t.history →
      .accepted b key i cmd byHandler ∈ s.history ∨ Q t cmd.content) : Carries Q t where
  slots j := by
    by_cases hj : j = i
    · exact hj ▸ hslots
    · intro key cl hcl k
      exact hQ.mono hext (h.slots j key cl (hother j hj ▸ hcl) k)
  payloads src call request hp := by
    rcases hpayloads src call request hp with hp | hg
    · exact hQ.mono hext (h.payloads src call request hp)
    · exact hg
  replies rpc reply hr := hQ.mono hext (h.replies rpc reply (hreplies ▸ hr))
  calls j call hc := by
    by_cases hj : j = i
    · subst hj
      exact hcall call hc
    · exact (h.calls j call (hother j hj ▸ hc)).mono hQ hext
  accepted b key j cmd byHandler hm := by
    rcases haccepted b key j cmd byHandler hm with hm | hg
    · exact hQ.mono hext (h.accepted b key j cmd byHandler hm)
    · exact hg

theorem Carries.advance (hQ : Carried Q ok) (h : Carries Q s) {i : Fin n} {server : MpServer}
    {events : List (MpEvent n)} (hb : server.broadcasts = (s.servers i).broadcasts)
    (hslots : server.store.Slots (fun _ _ c => Q s c.content))
    (hcall : ∀ call, server.call = some call → CallCarries Q (s.advance i server events) call)
    (hevents : ∀ b key i cmd byHandler, .accepted b key i cmd byHandler ∈ events →
      Q s cmd.content) : Carries Q (s.advance i server events) := by
  have hext := extends_advance events hb
  have hi := s.advance_servers_self i server events
  refine h.local (i := i) hQ hext (fun j hj => by simp [hj]) rfl ?_ ?_
    (fun c hc => hcall c (hi ▸ hc)) ?_
  · rw [hi]
    exact fun key cl hcl k => hQ.mono hext (hslots key cl hcl k)
  · exact fun src call request hp => .inl ((s.payload_advance events hb src call).symm.trans hp)
  · intro b key j cmd byHandler hm
    rcases List.mem_append.mp hm with hm | hm
    · exact .inr (hQ.mono hext (hevents b key j cmd byHandler hm))
    · exact .inl hm

theorem Carries.setCall (hQ : Carried Q ok) (h : Carries Q s) {i : Fin n} {call : InsertCall}
    (hcall : CallCarries Q s call) :
    Carries Q (s.advance i { s.servers i with call := some call } []) := by
  refine h.advance hQ rfl (h.slots i) (fun c hc => ?_) (by simp)
  simp only [Option.some.injEq] at hc
  subst hc
  refine hcall.mono hQ ?_
  exact extends_advance [] rfl

theorem Carries.record (hQ : Carried Q ok) (h : Carries Q s) {i : Fin n} {call : InsertCall}
    {cl : CommandsList} {key : Bytes} {k : ℕ} {cmd : Command} {events : List (MpEvent n)}
    (hcl : (s.servers i).store.logMap key = some cl) (hcmd : Q s cmd.content)
    (hcall : CallCarries Q s call)
    (hevents : ∀ b key j c byHandler, .accepted b key j c byHandler ∈ events → c = cmd) :
    Carries Q (s.advance i { s.servers i with
      store := (s.servers i).store.setLog key (recordedLog cl k cmd), call := some call } events) := by
  refine h.advance hQ rfl (recordedLog_slots (h.slots i) hcl hcmd) (fun c hc => ?_)
    (fun b key j c byHandler hm => hevents b key j c byHandler hm ▸ hcmd)
  obtain rfl := Option.some.inj hc
  refine hcall.mono hQ ?_
  exact extends_advance events rfl

theorem Carries.broadcast (hQ : Carried Q ok) (h : Carries Q s) {i : Fin n} {server : MpServer}
    {events : List (MpEvent n)} {cmd : Command}
    (hb : server.broadcasts = (s.servers i).broadcasts)
    (hevents : ∀ b key i cmd byHandler, .accepted b key i cmd byHandler ∉ events)
    (hslots : server.store.Slots (fun _ _ c => Q s c.content))
    (hcall : ∀ call, server.call = some call → CallCarries Q s call) (hcmd : Q s cmd.content) :
    Carries Q ((s.advance i server events).broadcast i (makeMpRequestPayload cmd)) := by
  have hext := (extends_advance events hb).trans
    (extends_broadcast _ i (makeMpRequestPayload cmd))
  refine h.local (i := i) hQ hext (fun j hj => by simp [hj]) rfl ?_ ?_ ?_ ?_
  · simp only [MpSystem.broadcast_servers, MpSystem.advance_servers, if_true]
    exact fun key cl hcl k => hQ.mono hext (hslots key cl hcl k)
  · intro src call request hp
    rw [MpSystem.payload_broadcast] at hp
    split at hp
    next => exact .inr (Option.some.inj hp ▸ hQ.mono hext (hQ.wire hcmd))
    next => exact .inl ((s.payload_advance events hb src call).symm.trans hp)
  · simp only [MpSystem.broadcast_servers, MpSystem.advance_servers, if_true]
    exact fun call hc => (hcall call hc).mono hQ hext
  · intro b key j c byHandler hm
    rcases List.mem_append.mp hm with hm | hm
    · exact absurd hm (hevents b key j c byHandler)
    · exact .inl hm

theorem Carries.handle (hQ : Carried Q ok) (h : Carries Q s) {k : ℕ} {u : Uninit} {rpc : Rpc n}
    {request : PaxosRequest} {st : MpStore} {reply : PaxosResponse} (hok : ok s (.handle k u))
    (hk : s.calls[k]? = some rpc) (hreq : s.payload rpc.src rpc.call = some request)
    (hh : Handles u (s.servers rpc.dst).store request st reply) :
    Carries Q (s.handled k rpc st reply
      (handlerEvents rpc u (s.servers rpc.dst).store request reply)) := by
  have hext := extends_handled s k rpc st reply
    (handlerEvents rpc u (s.servers rpc.dst).store request reply)
  have hsent := h.payloads _ _ _ hreq
  have hslots := h.slots rpc.dst
  refine ⟨?_, ?_, ?_, ?_, ?_⟩
  · intro j key cl hcl i
    rw [MpSystem.handled_servers] at hcl
    split at hcl
    · exact hQ.mono hext (hh.slots hslots (hQ.slotPredicate s) (fun _ _ => hsent) key cl hcl i)
    · exact hQ.mono hext (h.slots j key cl hcl i)
  · intro src call r hp
    exact hQ.mono hext (h.payloads src call r ((s.payload_handled ..).symm.trans hp))
  · intro rpc' reply' hr
    rcases List.mem_cons.mp hr with he | hr
    · cases he
      refine hQ.mono hext ?_
      cases hh with
      | prepareAck hmp hlt =>
        rw [requestSlot_promise] at hlt
        have hreport := hQ.report hok hk hreq hmp hlt
          (hslots.lookup (hQ.slotPredicate s) u.types _ _)
        have hw := hQ.wire hreport
        simp only [wireType_getCCommandType] at hw
        refine cast (congrArg (Q s) ?_) hw
        simp only [Command.content, extractResponseFromPayload, prepareReply,
          extractRequestPayloadToCommand, Content.mk.injEq, and_true, true_and]
        exact (wireType_getCCommandType request.commandType).symm
      | prepareNack => exact hQ.zero rfl
      | acceptAck hmp hle hcl happ =>
        refine cast (congrArg (Q s) ?_) hsent
        simp only [extractResponseFromPayload, acceptReply, extractRequestPayloadToCommand,
          Command.content, PaxosRequest.content, Content.mk.injEq, and_true, true_and]
        exact (wireType_getCCommandType request.commandType).symm
      | acceptNack => exact hQ.zero rfl
    · exact hQ.mono hext (h.replies rpc' reply' hr)
  · intro j call hc
    exact (h.calls j call (call_handled hc)).mono hQ hext
  · intro b key i cmd byHandler hm
    refine hQ.mono hext ?_
    rcases List.mem_append.mp hm with hm | hm
    · rcases of_mem_handlerEvents hm with ⟨_, he | he⟩
      · cases he
      · cases he
        exact hsent
    · exact h.accepted b key i cmd byHandler hm

/-- What is neither a NACK nor free is a reply that reports a command. -/
theorem Selected.reported {junk tempCmd : Command} {vec : List Command}
    (h : Selected junk vec true tempCmd) (hcode : tempCmd.code ≠ .nack) (hok : tempCmd.code ≠ .ok) :
    tempCmd ∈ vec ∧ tempCmd.acceptedProposal.proposalNum ≠ -1 := by
  cases h with
  | allNack hall hlast => exact absurd (hall _ hlast) hcode
  | acceptNack => exact absurd rfl hcode
  | prepareNack => exact absurd rfl hcode
  | free => exact absurd rfl hok
  | @best head rest hvec _ hfirst =>
    obtain ⟨hmem, hnum, _⟩ := selectHighest_spec head rest
    exact ⟨hvec ▸ hmem, hnum ▸ hfirst⟩

theorem Carries.sent (h : Carries Q s) (ht : Traffic s) {i : Fin n} {call : InsertCall}
    {round : ℕ} {own : Option (Proposal × Content)} {order : List (Fin n)}
    {junk tempCmd sentCmd : Command} {vec : List Command} (hcall : (s.servers i).call = some call)
    (hphase : call.phase = .preparing round own) (hvec : s.collect i round order = some vec)
    (htemp : getHighestAcceptedProposal junk vec true = some tempCmd) (hcode : tempCmd.code ≠ .nack)
    (hsent : sentCmd = { (if tempCmd.code = .ok then call.origCmd else tempCmd) with
        mpReqType := .accept, acceptedProposal := call.origCmd.acceptedProposal }) :
    Q s sentCmd.content := by
  have hsel := (ht.prepareSelected hcall hphase hvec htemp).1
  by_cases hok : tempCmd.code = .ok
  · rw [if_pos hok] at hsent
    exact hsent ▸ (h.calls i call hcall).1
  · rw [if_neg hok] at hsent
    obtain ⟨b, _, reply, hr, rfl⟩ := MpSystem.mem_of_collect hvec (hsel.reported hcode hok).1
    exact hsent ▸ h.replies _ reply hr

theorem Carries.proposed (hQ : Carried Q ok) (h : Carries Q s) (ht : Traffic s) {i : Fin n}
    {call : InsertCall} {round acceptCall : ℕ} {order : List (Fin n)}
    {junk tempCmd sentCmd : Command} {vec : List Command} (hcall : (s.servers i).call = some call)
    (hphase : call.phase = .accepting round acceptCall sentCmd)
    (hvec : s.collect i acceptCall order = some vec)
    (htemp : getHighestAcceptedProposal junk vec false = some tempCmd)
    (hid : tempCmd.commandId = sentCmd.commandId) (hsafe : JunkDiffers s i order junk) :
    Q s tempCmd.content := by
  rcases ht.proposed_cases hcall hphase hvec htemp hid hsafe with ⟨_, hmem, _⟩ | ⟨hzero, _⟩
  · obtain ⟨b, _, reply, hr, rfl⟩ := MpSystem.mem_of_collect hvec hmem
    exact h.replies _ reply hr
  · exact hQ.zero hzero

theorem Carries.step (hQ : Carried Q ok) (h : Carries Q s) (ht : Traffic s) (hok : ok s a)
    (hs : MpSteps s a t) : Carries Q t := by
  cases hs with
  | @insertCommand i request rand types st call hidle hstart =>
    have hid : call.origCmd.commandId = newCommandId rand request :=
      congrArg Content.commandId hstart.content
    refine h.advance hQ rfl (hstart.slots (hQ.slotPredicate s) (h.slots i)) (fun c hc => ?_)
      (by simp)
    simp only [Option.some.injEq] at hc
    subst hc
    refine ⟨?_, by simp [hstart.phase]⟩
    rw [hstart.content]
    exact hQ.called hok (hid ▸ List.mem_cons_self)
  | @startRound i call st origCmd hcall hphase horig hst =>
    have hgen := h.calls i call hcall
    refine h.broadcast hQ rfl (by simp)
      (updateLocalValues_slots (hQ.slotPredicate s) (h.slots i) hst) (fun c hc => ?_)
      (horig ▸ hgen.1)
    simp only [Option.some.injEq] at hc
    subst hc horig
    exact ⟨hgen.1, trivial⟩
  | handle hrpc hk hreq hslot hh => exact h.handle hQ hok hk hreq hh
  | @prepareRetry i call round own order junk tempCmd vec hcall =>
    exact h.setCall hQ ⟨(h.calls i call hcall).1, trivial⟩
  | @prepareSend i call round own order junk tempCmd sentCmd vec hcall hphase hvec htemp hcode
      hsent =>
    have hgen := h.sent ht hcall hphase hvec htemp hcode hsent
    refine h.broadcast hQ rfl (by simp) (h.slots i) (fun c hc => ?_) hgen
    simp only [Option.some.injEq] at hc
    subst hc
    exact ⟨(h.calls i call hcall).1, hgen⟩
  | @acceptDone i call round acceptCall sentCmd order junk tempCmd vec hcall hphase hvec htemp hid =>
    exact h.setCall hQ ⟨(h.calls i call hcall).1,
      h.proposed hQ ht hcall hphase hvec htemp hid (hQ.junk hok)⟩
  | @acceptRetry i call round acceptCall sentCmd order junk tempCmd vec hcall =>
    exact h.setCall hQ ⟨(h.calls i call hcall).1, trivial⟩
  | @own i call round tempCmd origCmd st hcall hphase hrec =>
    have hgen := h.calls i call hcall
    cases hrec with
    | own hcl =>
      refine h.record hQ hcl hgen.1 ⟨hgen.1, trivial⟩ (fun b key j c byHandler hm => ?_)
      simp only [List.mem_cons, reduceCtorEq, MpEvent.accepted.injEq, List.not_mem_nil,
        or_false, false_or] at hm
      exact hm.2.2.2.1
  | @retry i call round tempCmd origCmd hcall hphase hrec =>
    cases hrec with
    | retry => exact h.setCall hQ ⟨(h.calls i call hcall).1, trivial⟩
  | @defeated i call round tempCmd origCmd st currIdx hcall hphase hrec =>
    have hgen := h.calls i call hcall
    have htemp := hgen.2
    simp only [hphase] at htemp
    cases hrec with
    | defeated hcl =>
      refine h.record hQ hcl htemp ⟨hgen.1, trivial⟩ (fun b key j c byHandler hm => ?_)
      simp only [List.mem_cons, reduceCtorEq, MpEvent.accepted.injEq, List.not_mem_nil,
        or_false, false_or] at hm
      exact hm.2.2.2.1
  | @answer i call st reply hcall hphase hans =>
    exact h.advance hQ rfl ((h.slots i).congr (mpAnswer_logMap hans)) (by simp) (by simp)

theorem carries_init : Carries Q (MpSystem.init : MpSystem n) where
  slots _ := MpStore.slots_empty
  payloads := by simp [MpSystem.payload, MpSystem.init, MpServer.start]
  replies := by simp [MpSystem.init]
  calls := by simp [MpSystem.init, MpServer.start]
  accepted := by simp [MpSystem.init]

theorem carries_of_reachable (hQ : Carried Q ok) (h : ReachableWhen mpStep ok .init s) :
    Carries Q s :=
  h.invariant carries_init (fun _ _ _ hr hu ha he =>
    hu.step hQ (traffic_of_reachable hr) ha (mpStep_steps he))

end Invariant

end KeyValueStore
