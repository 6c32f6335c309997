import KeyValueStore.PaxosSystem
import KeyValueStore.Quorum

/-! Everything one step of the Multi-Paxos system can do. Payloads, replies and
history only grow, so what refers to them alone is stable. -/

namespace KeyValueStore

variable {n : ℕ} {s t : MpSystem n}

namespace MpSystem

@[simp] theorem advance_servers (s : MpSystem n) (i : Fin n) (server : MpServer)
    (events : List (MpEvent n)) (j : Fin n) :
    (s.advance i server events).servers j = if j = i then server else s.servers j := by
  by_cases h : j = i <;> simp [advance, Function.update, h]

theorem advance_servers_self (s : MpSystem n) (i : Fin n) (server : MpServer)
    (events : List (MpEvent n)) : (s.advance i server events).servers i = server := by
  rw [advance_servers, if_pos rfl]

@[simp] theorem advance_calls (s : MpSystem n) (i : Fin n) (server : MpServer)
    (events : List (MpEvent n)) : (s.advance i server events).calls = s.calls := rfl

@[simp] theorem advance_replies (s : MpSystem n) (i : Fin n) (server : MpServer)
    (events : List (MpEvent n)) : (s.advance i server events).replies = s.replies := rfl

@[simp] theorem advance_history (s : MpSystem n) (i : Fin n) (server : MpServer)
    (events : List (MpEvent n)) :
    (s.advance i server events).history = events ++ s.history := rfl

@[simp] theorem broadcast_servers (s : MpSystem n) (i : Fin n) (request : PaxosRequest)
    (j : Fin n) : (s.broadcast i request).servers j =
      if j = i then { s.servers i with broadcasts := (s.servers i).broadcasts ++ [request] }
      else s.servers j := by
  by_cases h : j = i <;> simp [broadcast, Function.update, h]

theorem advance_broadcast_servers_self (s : MpSystem n) (i : Fin n) (server : MpServer)
    (events : List (MpEvent n)) (request : PaxosRequest) :
    ((s.advance i server events).broadcast i request).servers i =
      { server with broadcasts := server.broadcasts ++ [request] } := by
  rw [broadcast_servers, if_pos rfl, advance_servers_self]

@[simp] theorem broadcast_replies (s : MpSystem n) (i : Fin n) (request : PaxosRequest) :
    (s.broadcast i request).replies = s.replies := rfl

@[simp] theorem broadcast_history (s : MpSystem n) (i : Fin n) (request : PaxosRequest) :
    (s.broadcast i request).history = s.history := rfl

theorem mem_broadcast_calls {i : Fin n} {request : PaxosRequest} {rpc : Rpc n} :
    rpc ∈ (s.broadcast i request).calls ↔ rpc ∈ s.calls ∨
      rpc.src = i ∧ rpc.dst ≠ i ∧ rpc.call = (s.servers i).broadcasts.length := by
  obtain ⟨src, dst, call⟩ := rpc
  simp only [broadcast, List.mem_append, List.mem_map, List.mem_filter, List.mem_finRange,
    true_and, decide_eq_true_eq, Rpc.mk.injEq]
  refine or_congr_right ⟨?_, ?_⟩
  · rintro ⟨a, ha, rfl, rfl, rfl⟩
    exact ⟨rfl, ha, rfl⟩
  · rintro ⟨rfl, hd, rfl⟩
    exact ⟨dst, hd, rfl, rfl, rfl⟩

@[simp] theorem handled_servers (s : MpSystem n) (k : ℕ) (rpc : Rpc n) (st : MpStore)
    (reply : PaxosResponse) (events : List (MpEvent n)) (j : Fin n) :
    (s.handled k rpc st reply events).servers j =
      if j = rpc.dst then { s.servers rpc.dst with store := st } else s.servers j :=
  s.advance_servers rpc.dst _ events j

@[simp] theorem handled_replies (s : MpSystem n) (k : ℕ) (rpc : Rpc n) (st : MpStore)
    (reply : PaxosResponse) (events : List (MpEvent n)) :
    (s.handled k rpc st reply events).replies = (rpc, reply) :: s.replies := rfl

@[simp] theorem handled_history (s : MpSystem n) (k : ℕ) (rpc : Rpc n) (st : MpStore)
    (reply : PaxosResponse) (events : List (MpEvent n)) :
    (s.handled k rpc st reply events).history = events ++ s.history := rfl

theorem mem_handled_calls {k : ℕ} {rpc r : Rpc n} {st : MpStore} {reply : PaxosResponse}
    {events : List (MpEvent n)} (h : r ∈ (s.handled k rpc st reply events).calls) : r ∈ s.calls :=
  List.mem_of_mem_eraseIdx h

theorem payload_advance (s : MpSystem n) {i : Fin n} {server : MpServer}
    (events : List (MpEvent n)) (hb : server.broadcasts = (s.servers i).broadcasts) (src : Fin n)
    (call : ℕ) : (s.advance i server events).payload src call = s.payload src call := by
  by_cases h : src = i <;> simp [payload, h, hb]

@[simp] theorem payload_handled (s : MpSystem n) (k : ℕ) (rpc : Rpc n) (st : MpStore)
    (reply : PaxosResponse) (events : List (MpEvent n)) (src : Fin n) (call : ℕ) :
    (s.handled k rpc st reply events).payload src call = s.payload src call :=
  @payload_advance n s rpc.dst { s.servers rpc.dst with store := st } events rfl src call

theorem payload_broadcast (s : MpSystem n) (i : Fin n) (request : PaxosRequest) (src : Fin n)
    (call : ℕ) : (s.broadcast i request).payload src call =
      if src = i ∧ call = (s.servers i).broadcasts.length then some request
      else s.payload src call := by
  by_cases h : src = i
  · subst h
    simp only [payload, broadcast_servers, if_true, true_and]
    split
    next he => simp [he]
    next he =>
      rcases Nat.lt_or_gt_of_ne he with hlt | hgt
      · rw [List.getElem?_append_left hlt]
      · rw [List.getElem?_eq_none (by simp only [List.length_append, List.length_singleton]; omega),
          List.getElem?_eq_none (by omega)]
  · simp [payload, h]

theorem lt_length_of_payload {src : Fin n} {call : ℕ} {request : PaxosRequest}
    (h : s.payload src call = some request) : call < (s.servers src).broadcasts.length :=
  (List.getElem?_eq_some_iff.mp h).1

theorem of_replyFrom {i : Fin n} {call : ℕ} {a : Fin n} {c : Command}
    (h : s.replyFrom i call a = some c) :
    ∃ reply, (⟨i, a, call⟩, reply) ∈ s.replies ∧ c = extractResponseFromPayload reply := by
  obtain ⟨⟨rpc, reply⟩, hfind, rfl⟩ := Option.map_eq_some_iff.mp h
  have hrpc : rpc = ⟨i, a, call⟩ := by simpa using List.find?_some hfind
  exact ⟨reply, hrpc ▸ List.mem_of_find?_eq_some hfind, rfl⟩

theorem mem_of_collect {i : Fin n} {call : ℕ} {order : List (Fin n)} {vec : List Command}
    (h : s.collect i call order = some vec) {c : Command} (hc : c ∈ vec) :
    ∃ a ∈ order, ∃ reply, (⟨i, a, call⟩, reply) ∈ s.replies ∧
      c = extractResponseFromPayload reply := by
  obtain ⟨a, ha, he⟩ := (collected_spec h).2.2 c hc
  exact ⟨a, ha, of_replyFrom he⟩

theorem collected_of_mem {i : Fin n} {call : ℕ} {order : List (Fin n)} {vec : List Command}
    (h : s.collect i call order = some vec) {a : Fin n} (ha : a ∈ order) :
    ∃ reply, (⟨i, a, call⟩, reply) ∈ s.replies ∧ extractResponseFromPayload reply ∈ vec := by
  obtain ⟨c, hc, he⟩ := (collected_spec h).2.1 a ha
  obtain ⟨reply, hreply, rfl⟩ := of_replyFrom he
  exact ⟨reply, hreply, hc⟩

theorem collect_order {i : Fin n} {call : ℕ} {order : List (Fin n)} {vec : List Command}
    (h : s.collect i call order = some vec) : order.Nodup ∧ n / 2 ≤ order.length := by
  obtain ⟨hnodup, hmaj⟩ := (collected_spec h).1
  rw [Nat.sub_add_cancel i.pos] at hmaj
  exact ⟨hnodup, hmaj⟩

end MpSystem

section Calls

variable {b : Fin n} {call : InsertCall}

theorem call_advance {i : Fin n} {server : MpServer} {events : List (MpEvent n)}
    (hc : ((s.advance i server events).servers b).call = some call) :
    (b = i ∧ server.call = some call) ∨ (s.servers b).call = some call := by
  rw [MpSystem.advance_servers] at hc
  split at hc
  next hb => exact .inl ⟨hb, hc⟩
  next => exact .inr hc

theorem call_advance_broadcast {i : Fin n} {server : MpServer} {events : List (MpEvent n)}
    {request : PaxosRequest}
    (hc : (((s.advance i server events).broadcast i request).servers b).call = some call) :
    (b = i ∧ server.call = some call) ∨ (s.servers b).call = some call := by
  rw [MpSystem.broadcast_servers] at hc
  split at hc
  next hb =>
    rw [MpSystem.advance_servers_self] at hc
    exact .inl ⟨hb, hc⟩
  next hb =>
    rw [MpSystem.advance_servers, if_neg hb] at hc
    exact .inr hc

theorem call_handled {k : ℕ} {rpc : Rpc n} {st : MpStore} {reply : PaxosResponse}
    {events : List (MpEvent n)}
    (hc : ((s.handled k rpc st reply events).servers b).call = some call) :
    (s.servers b).call = some call := by
  rw [MpSystem.handled_servers] at hc
  split at hc
  next hb => exact hb ▸ hc
  next => exact hc

end Calls

/-- All that answering adds: what an ack to a PREPARE promises, or one to an ACCEPT accepts. -/
theorem of_mem_handlerEvents {rpc : Rpc n} {u : Uninit} {st : MpStore} {request : PaxosRequest}
    {reply : PaxosResponse} {e : MpEvent n} (he : e ∈ handlerEvents rpc u st request reply) :
    reply.code = .ack ∧
      (e = .promised rpc.dst (requestKey u request) request.slot request.proposal
          (rpc.src, rpc.call) (st.vote (requestKey u request) request.slot) true ∨
        e = .accepted rpc.dst (requestKey u request) request.slot
          (acceptedCommand (extractRequestPayloadToCommand request) (requestSlot u st request))
          true) := by
  unfold handlerEvents at he
  split at he
  next hc =>
    refine ⟨hc, ?_⟩
    split at he
    next => exact .inl (List.mem_singleton.mp he)
    next => exact .inr (List.mem_singleton.mp he)
  next => simp at he

section Stores

variable {P : Fin n → MpStore → Prop}

/-- A property of every server's store survives what one server does, when it does so there. -/
theorem store_advance (h : ∀ b, P b (s.servers b).store) {i : Fin n} {server : MpServer}
    {events : List (MpEvent n)} (hi : P i server.store) (b : Fin n) :
    P b ((s.advance i server events).servers b).store := by
  rw [MpSystem.advance_servers]
  split
  next hb => exact hb ▸ hi
  next => exact h b

theorem store_broadcast (h : ∀ b, P b (s.servers b).store) {i : Fin n} {request : PaxosRequest}
    (b : Fin n) : P b ((s.broadcast i request).servers b).store := by
  rw [MpSystem.broadcast_servers]
  split
  next hb => exact hb ▸ h i
  next => exact h b

theorem store_handled (h : ∀ b, P b (s.servers b).store) {k : ℕ} {rpc : Rpc n} {st : MpStore}
    {reply : PaxosResponse} {events : List (MpEvent n)} (hdst : P rpc.dst st) (b : Fin n) :
    P b ((s.handled k rpc st reply events).servers b).store := by
  rw [MpSystem.handled_servers]
  split
  next hb => exact hb ▸ hdst
  next => exact h b

end Stores

/-- The outcomes of each action. -/
inductive MpSteps (s : MpSystem n) : MpAction n → MpSystem n → Prop
  | insertCommand {i : Fin n} {request : KeyStoreRequest} {rand : UInt32}
      {types : ℕ → RequestType} {st : MpStore} {call : InsertCall}
      (hidle : (s.servers i).call = none)
      (hstart : Starts (s.servers i).store request rand st call) :
      MpSteps s (.insertCommand i request rand types)
        (s.advance i { s.servers i with store := st, call := some call }
          [.called i request call.origCmd.commandId])
  | startRound {i : Fin n} {call : InsertCall} {st : MpStore} {origCmd : Command}
      (hcall : (s.servers i).call = some call) (hphase : call.phase = .roundStart)
      (horig : origCmd = { call.origCmd with mpReqType := .prepare })
      (hst : updateLocalValues (s.servers i).store origCmd = some st) :
      MpSteps s (.startRound i)
        ((s.advance i { s.servers i with
            store := st
            call := some { call with
              origCmd
              phase := .preparing (s.servers i).broadcasts.length
                ((s.servers i).store.vote call.key call.currIdx) } }
          [.promised i call.key call.currIdx origCmd.acceptedProposal
            (i, (s.servers i).broadcasts.length)
            ((s.servers i).store.vote call.key call.currIdx) false]).broadcast i
          (makeMpRequestPayload origCmd))
  | handle {k : ℕ} {u : Uninit} {rpc : Rpc n} {request : PaxosRequest} {st : MpStore}
      {reply : PaxosResponse} (hrpc : rpc ∈ s.calls) (hk : s.calls[k]? = some rpc)
      (hreq : s.payload rpc.src rpc.call = some request)
      (hslot : request.slot < initCommandLength)
      (hh : Handles u (s.servers rpc.dst).store request st reply) :
      MpSteps s (.handle k u)
        (s.handled k rpc st reply (handlerEvents rpc u (s.servers rpc.dst).store request reply))
  | prepareRetry {i : Fin n} {call : InsertCall} {round : ℕ} {own : Option (Proposal × Content)}
      {order : List (Fin n)} {junk tempCmd : Command} {vec : List Command}
      (hcall : (s.servers i).call = some call) (hphase : call.phase = .preparing round own)
      (hvec : s.collect i round order = some vec)
      (htemp : getHighestAcceptedProposal junk vec true = some tempCmd)
      (hcode : tempCmd.code = .nack) :
      MpSteps s (.finishPrepare i order junk)
        (s.advance i { s.servers i with
          call := some { call with
            origCmd := call.origCmd.withAcceptedNum tempCmd.acceptedProposal.proposalNum
            phase := .roundStart } } [])
  | prepareSend {i : Fin n} {call : InsertCall} {round : ℕ} {own : Option (Proposal × Content)}
      {order : List (Fin n)} {junk tempCmd sentCmd : Command} {vec : List Command}
      (hcall : (s.servers i).call = some call) (hphase : call.phase = .preparing round own)
      (hvec : s.collect i round order = some vec)
      (htemp : getHighestAcceptedProposal junk vec true = some tempCmd)
      (hcode : tempCmd.code ≠ .nack)
      (hsent : sentCmd = { (if tempCmd.code = .ok then call.origCmd else tempCmd) with
        mpReqType := .accept, acceptedProposal := call.origCmd.acceptedProposal }) :
      MpSteps s (.finishPrepare i order junk)
        ((s.advance i { s.servers i with
            call := some { call with
              phase := .accepting round (s.servers i).broadcasts.length sentCmd } }
          [.sentAccept call.key call.currIdx sentCmd.acceptedProposal (i, round)
            sentCmd.content]).broadcast i (makeMpRequestPayload sentCmd))
  | acceptDone {i : Fin n} {call : InsertCall} {round acceptCall : ℕ} {sentCmd : Command}
      {order : List (Fin n)} {junk tempCmd : Command} {vec : List Command}
      (hcall : (s.servers i).call = some call)
      (hphase : call.phase = .accepting round acceptCall sentCmd)
      (hvec : s.collect i acceptCall order = some vec)
      (htemp : getHighestAcceptedProposal junk vec false = some tempCmd)
      (hid : tempCmd.commandId = sentCmd.commandId) :
      MpSteps s (.finishAccept i order junk)
        (s.advance i { s.servers i with
          call := some { call with phase := .proposed round tempCmd } } [])
  | acceptRetry {i : Fin n} {call : InsertCall} {round acceptCall : ℕ} {sentCmd : Command}
      {order : List (Fin n)} {junk tempCmd : Command} {vec : List Command}
      (hcall : (s.servers i).call = some call)
      (hphase : call.phase = .accepting round acceptCall sentCmd)
      (hvec : s.collect i acceptCall order = some vec)
      (htemp : getHighestAcceptedProposal junk vec false = some tempCmd)
      (hid : tempCmd.commandId ≠ sentCmd.commandId) :
      MpSteps s (.finishAccept i order junk)
        (s.advance i { s.servers i with
          call := some { call with
            origCmd := call.origCmd.withAcceptedNum tempCmd.acceptedProposal.proposalNum
            phase := .roundStart } } [])
  | own {i : Fin n} {call : InsertCall} {round : ℕ} {tempCmd origCmd : Command} {st : MpStore}
      (hcall : (s.servers i).call = some call) (hphase : call.phase = .proposed round tempCmd)
      (hrec : Records (s.servers i).store call.origCmd tempCmd call.currIdx (.own st origCmd)) :
      MpSteps s (.finish i)
        (s.advance i { s.servers i with
            store := st, call := some { call with origCmd, phase := .returned } }
          [.returned i call.key call.currIdx origCmd.commandId,
            .recorded i call.key call.currIdx origCmd.content,
            .accepted i call.key call.currIdx origCmd false])
  | retry {i : Fin n} {call : InsertCall} {round : ℕ} {tempCmd origCmd : Command}
      (hcall : (s.servers i).call = some call) (hphase : call.phase = .proposed round tempCmd)
      (hrec : Records (s.servers i).store call.origCmd tempCmd call.currIdx (.retry origCmd)) :
      MpSteps s (.finish i)
        (s.advance i { s.servers i with
          call := some { call with origCmd, phase := .roundStart } } [])
  | defeated {i : Fin n} {call : InsertCall} {round : ℕ} {tempCmd origCmd : Command} {st : MpStore}
      {currIdx : ℕ} (hcall : (s.servers i).call = some call)
      (hphase : call.phase = .proposed round tempCmd)
      (hrec : Records (s.servers i).store call.origCmd tempCmd call.currIdx
        (.defeated st origCmd currIdx)) :
      MpSteps s (.finish i)
        (s.advance i { s.servers i with
            store := st, call := some { call with origCmd, currIdx, phase := .roundStart } }
          [.recorded i call.key call.currIdx tempCmd.content,
            .accepted i call.key call.currIdx tempCmd false])
  | answer {i : Fin n} {call : InsertCall} {st : MpStore} {reply : KeyStoreResponse}
      (hcall : (s.servers i).call = some call) (hphase : call.phase = .returned)
      (hans : mpAnswer (s.servers i).store call.request call.currIdx = some (st, reply)) :
      MpSteps s (.answer i)
        (s.advance i { s.servers i with store := st, call := none }
          [.answered i call.request call.currIdx reply])

section Inversion

theorem handleStep_steps {k : ℕ} {u : Uninit} (h : handleStep s k u = some t) :
    MpSteps s (.handle k u) t := by
  obtain ⟨rpc, hk, h⟩ := Option.bind_eq_some_iff.mp h
  obtain ⟨request, hreq, h⟩ := Option.bind_eq_some_iff.mp h
  obtain ⟨⟨st, reply⟩, hh, rfl⟩ := Option.map_eq_some_iff.mp h
  obtain ⟨hslot, hh⟩ := paxosRequestHandler_handles hh
  exact .handle (List.mem_of_getElem? hk) hk hreq hslot hh

theorem finishPrepareStep_steps {i : Fin n} {call : InsertCall} {round : ℕ}
    {own : Option (Proposal × Content)} {order : List (Fin n)} {junk : Command}
    (hcall : (s.servers i).call = some call) (hphase : call.phase = .preparing round own)
    (h : finishPrepareStep s i call round order junk = some t) :
    MpSteps s (.finishPrepare i order junk) t := by
  obtain ⟨vec, hvec, h⟩ := Option.bind_eq_some_iff.mp h
  obtain ⟨tempCmd, htemp, rfl⟩ := Option.map_eq_some_iff.mp h
  cases hsend : commandToSend call.origCmd tempCmd with
  | none => exact .prepareRetry hcall hphase hvec htemp (commandToSend_eq_none.mp hsend)
  | some sentCmd =>
    have hcode : tempCmd.code ≠ .nack := fun hn => by
      rw [commandToSend_eq_none.mpr hn] at hsend
      cases hsend
    exact .prepareSend hcall hphase hvec htemp hcode (commandToSend_eq_some hsend)

theorem finishAcceptStep_steps {i : Fin n} {call : InsertCall} {round acceptCall : ℕ}
    {sentCmd : Command} {order : List (Fin n)} {junk : Command}
    (hcall : (s.servers i).call = some call)
    (hphase : call.phase = .accepting round acceptCall sentCmd)
    (h : finishAcceptStep s i call round acceptCall sentCmd order junk = some t) :
    MpSteps s (.finishAccept i order junk) t := by
  obtain ⟨vec, hvec, h⟩ := Option.bind_eq_some_iff.mp h
  obtain ⟨_, hproposed, rfl⟩ := Option.map_eq_some_iff.mp h
  obtain ⟨tempCmd, htemp, rfl⟩ := Option.map_eq_some_iff.mp hproposed
  by_cases hid : tempCmd.commandId = sentCmd.commandId
  · rw [if_pos hid]
    exact .acceptDone hcall hphase hvec htemp hid
  · rw [if_neg hid]
    exact .acceptRetry hcall hphase hvec htemp hid

theorem finishStep_steps {i : Fin n} {call : InsertCall} {round : ℕ} {tempCmd : Command}
    (hcall : (s.servers i).call = some call) (hphase : call.phase = .proposed round tempCmd)
    (h : finishStep s i call tempCmd = some t) : MpSteps s (.finish i) t := by
  obtain ⟨r, hr, rfl⟩ := Option.map_eq_some_iff.mp h
  have hrec := recordCommand_records hr
  cases r with
  | own => exact .own hcall hphase hrec
  | retry => exact .retry hcall hphase hrec
  | defeated => exact .defeated hcall hphase hrec

theorem mpStep_steps {a : MpAction n} (h : mpStep s a = some t) : MpSteps s a t := by
  cases a with
  | insertCommand i request rand types =>
    simp only [mpStep] at h
    split at h
    next => simp at h
    next hidle =>
      obtain ⟨⟨st, call⟩, hstart, rfl⟩ := Option.map_eq_some_iff.mp h
      exact .insertCommand hidle (insertCommandStart_starts hstart)
  | handle k u => exact handleStep_steps h
  | startRound i =>
    simp only [mpStep] at h
    split at h
    next call hcall =>
      split at h
      next hphase =>
        obtain ⟨st, hst, rfl⟩ := Option.map_eq_some_iff.mp h
        exact .startRound hcall hphase rfl hst
      next => simp at h
    next => simp at h
  | finishPrepare i order junk =>
    simp only [mpStep] at h
    split at h
    next call hcall =>
      split at h
      next hphase => exact finishPrepareStep_steps hcall hphase h
      next => simp at h
    next => simp at h
  | finishAccept i order junk =>
    simp only [mpStep] at h
    split at h
    next call hcall =>
      split at h
      next hphase => exact finishAcceptStep_steps hcall hphase h
      next => simp at h
    next => simp at h
  | finish i =>
    simp only [mpStep] at h
    split at h
    next call hcall =>
      split at h
      next hphase => exact finishStep_steps hcall hphase h
      next => simp at h
    next => simp at h
  | answer i =>
    simp only [mpStep] at h
    split at h
    next call hcall =>
      split at h
      next hphase =>
        obtain ⟨⟨st, reply⟩, hans, rfl⟩ := Option.map_eq_some_iff.mp h
        exact .answer hcall hphase hans
      next => simp at h
    next => simp at h

end Inversion

end KeyValueStore
