import KeyValueStore.Agreement
import KeyValueStore.Progress
import KeyValueStore.WireKeys

/-! A round of `propose` that nothing disturbs. Half of the other servers handle its
requests; it gets its ACCEPT obeyed, or goes on with a number above all that they
have promised. -/

namespace KeyValueStore

variable {n : ℕ} {i : Fin n} {q : List (Fin n)} {mem : Uninit} {s t u : MpSystem n}

section Condition

/-- Half of the other servers; the byte behind each key in their memory is 0. -/
structure Helpers (i : Fin n) (q : List (Fin n)) (mem : Uninit) : Prop where
  nodup : q.Nodup
  others : i ∉ q
  enough : n / 2 ≤ q.length
  nonempty : q ≠ []
  blank : cStr mem.keyTail = []

theorem Helpers.ne (h : Helpers i q mem) {a : Fin n} (ha : a ∈ q) : a ≠ i :=
  fun he => h.others (he ▸ ha)

/-- Server `i` goes on with its call, and the helpers handle its requests. -/
def Undisturbed (i : Fin n) (q : List (Fin n)) (mem : Uninit) (s : MpSystem n) :
    MpAction n → Prop
  | .insertCommand _ _ _ _ => False
  | .handle k u => u = mem ∧ ∃ rpc ∈ s.calls[k]?, rpc.src = i ∧ rpc.dst ∈ q
  | .startRound b | .finishPrepare b _ _ | .finishAccept b _ _ | .finish b | .answer b => b = i

end Condition

section Handling

/-- The helpers in the list handled the request, and nothing else happened. -/
structure HandledBy (mem : Uninit) (i : Fin n) (r : ℕ) (request : PaxosRequest)
    (l : List (Fin n)) (s t : MpSystem n) : Prop where
  servers : ∀ b ∉ l, t.servers b = s.servers b
  replies : ∀ b ∉ l, t.replyFrom i r b = s.replyFrom i r b
  answered : ∀ a ∈ l, ∃ reply, Handles mem (s.servers a).store request (t.servers a).store reply ∧
    t.replyFrom i r a = some (extractResponseFromPayload reply)

variable {r : ℕ} {request : PaxosRequest} {l : List (Fin n)} {a : Fin n}

theorem requestKey_of_blank (hmem : cStr mem.keyTail = []) (hkey : request.key ≠ []) :
    cStr (request.key ++ mem.keyTail) = requestKey mem request := by
  rw [requestKey, if_neg hkey]
  exact cStr_append_eq_iff.mpr (.inr hmem)

theorem replyFrom_handled {k : ℕ} {st : MpStore} {reply : PaxosResponse}
    {events : List (MpEvent n)} (b : Fin n) :
    (s.handled k ⟨i, a, r⟩ st reply events).replyFrom i r b =
      if b = a then some (extractResponseFromPayload reply) else s.replyFrom i r b := by
  by_cases hb : b = a
  · simp [MpSystem.replyFrom, hb]
  · have hne : ¬ a = b := fun he => hb he.symm
    simp [MpSystem.replyFrom, hb, hne]

theorem handle_one (hmem : cStr mem.keyTail = []) (hrpc : ⟨i, a, r⟩ ∈ s.calls)
    (hreq : s.payload i r = some request) (hkey : request.key ≠ [])
    (hslot : request.slot < initCommandLength) :
    ∃ k st reply events, s.calls[k]? = some ⟨i, a, r⟩ ∧
      Handles mem (s.servers a).store request st reply ∧
      mpStep s (.handle k mem) = some (s.handled k ⟨i, a, r⟩ st reply events) := by
  obtain ⟨k, hk⟩ := List.getElem?_of_mem hrpc
  obtain ⟨⟨st, reply⟩, hrun⟩ := Option.isSome_iff_exists.mp
    (paxosRequestHandler_isSome hslot (requestKey_of_blank hmem hkey) (s.servers a).store)
  refine ⟨k, st, reply, handlerEvents ⟨i, a, r⟩ mem (s.servers a).store request reply, hk,
    (paxosRequestHandler_handles hrun).2, ?_⟩
  simp only [mpStep, handleStep, hk, Option.bind_some, hreq, hrun, Option.map_some]

theorem mem_calls_handled {k : ℕ} {rpc c : Rpc n} {st : MpStore} {reply : PaxosResponse}
    {events : List (MpEvent n)} (hk : s.calls[k]? = some rpc) (hc : c ∈ s.calls) (hne : c ≠ rpc) :
    c ∈ (s.handled k rpc st reply events).calls := by
  obtain ⟨hlt, he⟩ := List.getElem?_eq_some_iff.mp hk
  rcases List.mem_cons.mp ((List.getElem_cons_eraseIdx_perm hlt).mem_iff.mpr hc) with rfl | hc
  · exact absurd he.symm (fun h => hne h.symm)
  · exact hc

theorem handle_all (hmem : cStr mem.keyTail = []) (hnd : l.Nodup) (hl : ∀ a ∈ l, a ∈ q ∧ a ≠ i)
    (hrpcs : ∀ a ∈ l, ⟨i, a, r⟩ ∈ s.calls) (hreq : s.payload i r = some request)
    (hkey : request.key ≠ []) (hslot : request.slot < initCommandLength) :
    Within mpStep (Undisturbed i q mem) l.length s (HandledBy mem i r request l s) := by
  induction l generalizing s with
  | nil => exact .now ⟨fun _ _ => rfl, fun _ _ => rfl, by simp⟩
  | cons a l ih =>
    obtain ⟨hnot, hnd⟩ := List.nodup_cons.mp hnd
    obtain ⟨ha, hai⟩ := hl a List.mem_cons_self
    obtain ⟨k, st, reply, events, hk, hh, hstep⟩ :=
      handle_one hmem (hrpcs a List.mem_cons_self) hreq hkey hslot
    refine .after (.handle k mem) ⟨rfl, ⟨i, a, r⟩, hk, rfl, ha⟩ hstep ?_
    refine (ih hnd (fun b hb => hl b (List.mem_cons_of_mem _ hb)) (fun b hb => ?_) ?_).mono
      le_rfl (fun t ht => ?_)
    · refine mem_calls_handled hk (hrpcs b (List.mem_cons_of_mem _ hb)) (fun he => hnot ?_)
      cases he
      exact hb
    · rw [MpSystem.payload_handled]
      exact hreq
    · refine ⟨fun b hb => ?_, fun b hb => ?_, fun b hb => ?_⟩
      · obtain ⟨hba, hbl⟩ := not_or.mp (fun h => hb (List.mem_cons.mpr h))
        rw [ht.servers b hbl, MpSystem.handled_servers, if_neg hba]
      · obtain ⟨hba, hbl⟩ := not_or.mp (fun h => hb (List.mem_cons.mpr h))
        rw [ht.replies b hbl, replyFrom_handled, if_neg hba]
      · by_cases hba : b = a
        · subst hba
          refine ⟨reply, ?_, ?_⟩
          · rw [ht.servers b hnot, MpSystem.handled_servers, if_pos rfl]
            exact hh
          · rw [ht.replies b hnot, replyFrom_handled, if_pos rfl]
        · obtain ⟨reply', hh', hr⟩ := ht.answered b ((List.mem_cons.mp hb).resolve_left hba)
          rw [MpSystem.handled_servers, if_neg hba] at hh'
          exact ⟨reply', hh', hr⟩

theorem HandledBy.collect (h : HandledBy mem i r request q s t) (hq : Helpers i q mem) :
    ∃ vec, t.collect i r q = some vec ∧ vec ≠ [] ∧
      (∀ c ∈ vec, ∃ a ∈ q, ∃ reply, Handles mem (s.servers a).store request (t.servers a).store reply ∧
        c = extractResponseFromPayload reply) ∧
      ∀ a ∈ q, ∃ reply, Handles mem (s.servers a).store request (t.servers a).store reply ∧
        extractResponseFromPayload reply ∈ vec := by
  have hall : ∀ a ∈ q, (t.replyFrom i r a).isSome := by
    intro a ha
    obtain ⟨reply, _, hr⟩ := h.answered a ha
    simp [hr]
  have hin : ∀ a ∈ q, ∃ reply, Handles mem (s.servers a).store request (t.servers a).store reply ∧
      extractResponseFromPayload reply ∈ q.filterMap (t.replyFrom i r) := by
    intro a ha
    obtain ⟨reply, hh, hr⟩ := h.answered a ha
    exact ⟨reply, hh, List.mem_filterMap.mpr ⟨a, ha, hr⟩⟩
  have henough : (n - 1 + 1) / 2 ≤ q.length := by
    rw [Nat.sub_add_cancel i.pos]
    exact hq.enough
  refine ⟨_, if_pos ⟨hq.nodup, henough, hall⟩, ?_, fun c hc => ?_, hin⟩
  · obtain ⟨a, ha⟩ := List.exists_mem_of_ne_nil q hq.nonempty
    obtain ⟨_, _, hm⟩ := hin a ha
    exact List.ne_nil_of_mem hm
  · obtain ⟨a, ha, hr⟩ := List.mem_filterMap.mp hc
    obtain ⟨reply, hh, hr'⟩ := h.answered a ha
    exact ⟨a, ha, reply, hh, Option.some.inj (hr.symm.trans hr')⟩

end Handling

section Selections

variable {request : PaxosRequest} {junk : Command} {vec : List Command} {preparePhase : Bool}

/-- A NACK sends the proposer back, with a number above those of all NACKs. -/
theorem selected_of_nack (hnack : ∃ c ∈ vec, c.code = .nack)
    (hfits : ∀ c ∈ vec, ReplyFits request c) (hreq : 0 ≤ request.proposalNum)
    (hroom : ∀ c ∈ vec, c.code = .nack → c.acceptedProposal.proposalNum < Int32.maxValue) :
    ∃ tempCmd, getHighestAcceptedProposal junk vec true = some tempCmd ∧ tempCmd.code = .nack ∧
      ∀ c ∈ vec, c.code = .nack →
        c.acceptedProposal.proposalNum < tempCmd.acceptedProposal.proposalNum := by
  have hpos : ∀ c ∈ vec, c.code = .nack → -1 < c.acceptedProposal.proposalNum := fun c hc hn =>
    Int32.lt_of_lt_of_le (by decide) (Int32.le_trans hreq ((hfits c hc).nack_num hn))
  obtain ⟨maxNack, hgt, hm⟩ := exists_greatestNack hnack hpos
  obtain ⟨c, hc, hcode, rfl⟩ := hm.mem
  obtain ⟨num, hnum⟩ := succ?_isSome_iff.mpr (hroom c hc hcode)
  have habove : ∀ d ∈ vec, d.code = .nack → d.acceptedProposal.proposalNum < num :=
    fun d hd hn => Int32.lt_of_le_of_lt (hm.le d hd hn) (succ?_eq_some hnum)
  by_cases hall : ∀ c ∈ vec, c.code = .nack
  · obtain ⟨last, hlast, he⟩ :=
      @getHighestAcceptedProposal_of_all_nack junk vec true _ hall hm hgt
    exact ⟨last.withAcceptedNum num, by rw [he, hnum, Option.map_some], hall last hlast, habove⟩
  · have hsome : ∃ c ∈ vec, c.code ≠ .nack := by
      by_contra hno
      exact hall (fun c hc => by_contra (fun hne => hno ⟨c, hc, hne⟩))
    obtain ⟨best, hbest, hne, he⟩ :=
      @getHighestAcceptedProposal_of_some_nack junk vec true _ hm hgt hsome
    rw [if_neg (by simp), if_pos ((hfits best hbest).ack_num hreq hne), hnum, Option.map_some] at he
    exact ⟨_, he, rfl, habove⟩

theorem selected_of_acks (hne : vec ≠ []) (hno : ∀ c ∈ vec, c.code ≠ .nack) :
    ∃ tempCmd, getHighestAcceptedProposal junk vec preparePhase = some tempCmd ∧
      ((tempCmd.code = .ok ∧ ∃ c ∈ vec, c.acceptedProposal.proposalNum = -1) ∨
        (tempCmd ∈ vec ∧ tempCmd.acceptedProposal.proposalNum ≠ -1)) := by
  cases vec with
  | nil => exact absurd rfl hne
  | cons head rest =>
    obtain ⟨hmem, hnum, _⟩ := selectHighest_spec head rest
    refine ⟨_, getHighestAcceptedProposal_of_no_nack hno, ?_⟩
    split
    next he => exact .inl ⟨rfl, head, List.mem_cons_self, he⟩
    next he => exact .inr ⟨hmem, hnum ▸ he⟩

/-- An acceptor that obeys a PREPARE reports an empty slot or an accepted command. -/
theorem Handles.reported {st st' : MpStore} {reply : PaxosResponse}
    (h : Handles mem st request st' reply) (htype : request.mptype = .prepare)
    (hack : reply.code = .ack) (hslots : st.Slots SlotFilled) :
    SlotFilled (requestKey mem request) request.slot (extractResponseFromPayload reply) := by
  cases h with
  | prepareAck =>
    have hslot : SlotFilled (requestKey mem request) request.slot (requestSlot mem st request) :=
      hslots.lookup slotFilled_slotPredicate mem.types _ _
    refine hslot.imp (fun hnone => ?_) (fun hf => ⟨?_, hf.index, hf.key_eq, hf.key_ne, hf.id⟩)
    · simpa [extractResponseFromPayload, prepareReply] using hnone
    · simpa [extractResponseFromPayload, prepareReply] using hf.num
  | prepareNack => simp [nackReply] at hack
  | acceptAck ht => exact absurd (htype.symm.trans ht) (by decide)
  | acceptNack => simp [nackReply] at hack

/-- A NACK says what the acceptor has promised. -/
theorem Handles.nacked {st st' : MpStore} {reply : PaxosResponse}
    (h : Handles mem st request st' reply) (hn : reply.code = .nack) :
    (extractResponseFromPayload reply).acceptedProposal.proposalNum =
      (st.promise (requestKey mem request) request.slot).proposalNum := by
  rw [← requestSlot_promise]
  cases h with
  | prepareAck => simp [prepareReply] at hn
  | prepareNack => simp [extractResponseFromPayload, nackReply]
  | acceptAck => simp [acceptReply] at hn
  | acceptNack => simp [extractResponseFromPayload, nackReply]

end Selections

section Attempt

variable {call call' : InsertCall}

/-- The call of server `i`, and what the helpers hold that matters to it: `room`
is about the slots that the call may still move to. -/
structure Solo (q : List (Fin n)) (i : Fin n) (call : InsertCall) (s : MpSystem n) : Prop where
  reached : Reachable mpStep .init s
  running : (s.servers i).call = some call
  key : call.origCmd.key ≠ []
  id : call.origCmd.commandId ≠ 0
  filled : ∀ a ∈ q, (s.servers a).store.Slots SlotFilled
  room : ∀ a ∈ q, ∀ j < initCommandLength, j ≠ call.currIdx →
    (s.servers i).store.available call.key j = true →
    ((s.servers a).store.promise call.key j).proposalNum < Int32.maxValue

/-- The call has raised its number above what the helpers have promised. -/
def Ahead (q : List (Fin n)) (call : InsertCall) (s : MpSystem n) : Prop :=
  ∀ a ∈ q, ((s.servers a).store.promise call.key call.currIdx).proposalNum <
    call.origCmd.acceptedProposal.proposalNum

/-- The call is still at its slot, and no slot was filled meanwhile. -/
structure SameSlot (i : Fin n) (call call' : InsertCall) (s t : MpSystem n) : Prop where
  request : call'.request = call.request
  key : call'.origCmd.key = call.origCmd.key
  id : call'.origCmd.commandId = call.origCmd.commandId
  idx : call'.currIdx = call.currIdx
  available : ∀ k j, (t.servers i).store.available k j = (s.servers i).store.available k j

theorem Solo.fits (h : Solo q i call s) : CallFits (s.servers i) call :=
  ((traffic_of_reachable h.reached).servers i).call call h.running

theorem SameSlot.key_eq (h : SameSlot i call call' s t) : call'.key = call.key :=
  congrArg cStr h.key

theorem SameSlot.trans {call'' : InsertCall} (h : SameSlot i call call' s t)
    (h' : SameSlot i call' call'' t u) : SameSlot i call call'' s u where
  request := h'.request.trans h.request
  key := h'.key.trans h.key
  id := h'.id.trans h.id
  idx := h'.idx.trans h.idx
  available k j := (h'.available k j).trans (h.available k j)

/-- What the helpers hold stays fit for the call when they obey its requests. -/
theorem Solo.next (h : Solo q i call s) (hrun : Reachable mpStep s t)
    (hcall : (t.servers i).call = some call') (hsame : SameSlot i call call' s t)
    (hfilled : ∀ a ∈ q, (t.servers a).store.Slots SlotFilled)
    (hroom : ∀ a ∈ q, ∀ j ≠ call.currIdx, (t.servers a).store.promise call.key j =
      (s.servers a).store.promise call.key j) : Solo q i call' t where
  reached := h.reached.trans hrun
  running := hcall
  key := hsame.key ▸ h.key
  id := hsame.id ▸ h.id
  filled := hfilled
  room a ha j hlt hj hav := by
    rw [hsame.key_eq, hsame.available] at hav
    rw [hsame.key_eq, hroom a ha j (hsame.idx ▸ hj)]
    exact h.room a ha j hlt (hsame.idx ▸ hj) hav

/-- Server `i` went on with its call and sent a broadcast. -/
structure Sends (i : Fin n) (r : ℕ) (server : MpServer) (s t : MpSystem n) : Prop where
  others : ∀ b ≠ i, t.servers b = s.servers b
  rpcs : ∀ a ≠ i, ⟨i, a, r⟩ ∈ t.calls
  store : (t.servers i).store = server.store
  call : (t.servers i).call = server.call

theorem sends_broadcast {server : MpServer} {events : List (MpEvent n)} {request : PaxosRequest}
    (hb : server.broadcasts = (s.servers i).broadcasts) :
    Sends i (s.servers i).broadcasts.length server s
      ((s.advance i server events).broadcast i request) where
  others b hne := by
    rw [MpSystem.broadcast_servers, if_neg hne, MpSystem.advance_servers, if_neg hne]
  rpcs a ha := by
    refine MpSystem.mem_broadcast_calls.mpr (.inr ⟨rfl, ha, ?_⟩)
    rw [MpSystem.advance_servers_self, hb]
  store := by rw [MpSystem.advance_broadcast_servers_self]
  call := by rw [MpSystem.advance_broadcast_servers_self]

theorem Solo.sends (hq : Helpers i q mem) (h : Solo q i call s) {r : ℕ} {server : MpServer}
    (hrun : Reachable mpStep s t) (hsends : Sends i r server s t) (hcall : server.call = some call')
    (hrequest : call'.request = call.request) (hkey : call'.origCmd.key = call.origCmd.key)
    (hid : call'.origCmd.commandId = call.origCmd.commandId) (hidx : call'.currIdx = call.currIdx)
    (hav : ∀ k j, server.store.available k j = (s.servers i).store.available k j) :
    Solo q i call' t ∧ SameSlot i call call' s t := by
  have hsame : SameSlot i call call' s t :=
    ⟨hrequest, hkey, hid, hidx, fun k j => by rw [hsends.store, hav]⟩
  refine ⟨h.next hrun (hsends.call.trans hcall) hsame (fun a ha => ?_) (fun a ha j _ => ?_), hsame⟩
  · rw [hsends.others a (hq.ne ha)]
    exact h.filled a ha
  · rw [hsends.others a (hq.ne ha)]

/-- A round starts: the call's own slot promises its number. -/
theorem Solo.startRound (hq : Helpers i q mem) (h : Solo q i call s)
    (hphase : call.phase = .roundStart) : ∃ t r own call', mpStep s (.startRound i) = some t ∧
      call'.phase = .preparing r own ∧
      call'.origCmd.acceptedProposal = call.origCmd.acceptedProposal ∧
      Solo q i call' t ∧ SameSlot i call call' s t ∧ (∀ b ≠ i, t.servers b = s.servers b) ∧
      (∀ a ≠ i, ⟨i, a, r⟩ ∈ t.calls) ∧
      (t.servers i).store.promise call.key call.currIdx = call.origCmd.acceptedProposal := by
  obtain ⟨cl, hcl⟩ := Option.isSome_iff_exists.mp h.fits.log
  let origCmd : Command := { call.origCmd with mpReqType := .prepare }
  obtain ⟨st, hst⟩ : ∃ st, updateLocalValues (s.servers i).store origCmd = some st :=
    ⟨_, by rw [updateLocalValues, show cStr origCmd.key = call.key from rfl, hcl]; rfl⟩
  let r := (s.servers i).broadcasts.length
  let own := (s.servers i).store.vote call.key call.currIdx
  let call' : InsertCall := { call with origCmd, phase := .preparing r own }
  let server : MpServer := { s.servers i with store := st, call := some call' }
  let events : List (MpEvent n) := [.promised i call.key call.currIdx origCmd.acceptedProposal (i, r)
    own false]
  have hstep : mpStep s (.startRound i) =
      some ((s.advance i server events).broadcast i (makeMpRequestPayload origCmd)) := by
    simp only [mpStep, h.running, hphase, startRoundStep]
    rw [show updateLocalValues (s.servers i).store
      { call.origCmd with mpReqType := .prepare } = some st from hst]
    rfl
  have hsends : Sends i r server s
      ((s.advance i server events).broadcast i (makeMpRequestPayload origCmd)) :=
    sends_broadcast rfl
  obtain ⟨hsolo, hsame⟩ := h.sends hq (.single ⟨_, trivial, hstep⟩) hsends
    (show server.call = some call' from rfl) rfl rfl rfl rfl (updateLocalValues_available hst)
  refine ⟨_, r, own, call', hstep, rfl, rfl, hsolo, hsame, hsends.others, hsends.rpcs, ?_⟩
  rw [hsends.store]
  have hp := updateLocalValues_promise hst call.key call.currIdx
  rw [if_pos ⟨rfl, h.fits.index.symm⟩] at hp
  exact hp

theorem Solo.handled (hq : Helpers i q mem) (h : Solo q i call s) {r : ℕ}
    {request : PaxosRequest} (hh : HandledBy mem i r request q s t) (hrun : Reachable mpStep s t)
    (hnum : 0 ≤ request.proposalNum) (hne : request.key ≠ []) (hid : request.commandId ≠ 0)
    (hslot : request.slot = call.currIdx) :
    Solo q i call t ∧ SameSlot i call call s t := by
  have hi := hh.servers i hq.others
  have hsame : SameSlot i call call s t := ⟨rfl, rfl, rfl, rfl, fun k j => by rw [hi]⟩
  refine ⟨h.next hrun (hi ▸ h.running) hsame (fun a ha => ?_) (fun a ha j hj => ?_), hsame⟩
  · obtain ⟨reply, hhandles, _⟩ := hh.answered a ha
    refine hhandles.slots (h.filled a ha) slotFilled_slotPredicate (fun _ _ => .inr ?_)
    exact ⟨hnum, rfl, (requestKey_eq hne).symm, hne, hid⟩
  · obtain ⟨reply, hhandles, _⟩ := hh.answered a ha
    rw [hhandles.promise_eq, if_neg (fun hc => hj (hslot ▸ hc.2.2))]

/-- The helpers have promised the call's number, and the ACCEPT is on its way. -/
structure Accepting (q : List (Fin n)) (i : Fin n) (call : InsertCall) (r : ℕ) (sentCmd : Command)
    (s : MpSystem n) : Prop where
  phase : ∃ round, call.phase = .accepting round r sentCmd
  sent : Filled call.key call.currIdx sentCmd
  rpcs : ∀ a ≠ i, ⟨i, a, r⟩ ∈ s.calls
  own : (s.servers i).store.promise call.key call.currIdx = call.origCmd.acceptedProposal
  promised : ∀ a ∈ q,
    (s.servers a).store.promise call.key call.currIdx = call.origCmd.acceptedProposal

theorem Solo.advance (hq : Helpers i q mem) (h : Solo q i call s) {server : MpServer}
    {events : List (MpEvent n)} (hrun : Reachable mpStep s (s.advance i server events))
    (hcall : server.call = some call') (hstore : server.store = (s.servers i).store)
    (hrequest : call'.request = call.request) (hkey : call'.origCmd.key = call.origCmd.key)
    (hid : call'.origCmd.commandId = call.origCmd.commandId) (hidx : call'.currIdx = call.currIdx) :
    Solo q i call' (s.advance i server events) ∧
      SameSlot i call call' s (s.advance i server events) := by
  have hothers : ∀ a ∈ q, (s.advance i server events).servers a = s.servers a := fun a ha => by
    rw [MpSystem.advance_servers, if_neg (hq.ne ha)]
  have hi := s.advance_servers_self i server events
  have hsame : SameSlot i call call' s (s.advance i server events) :=
    ⟨hrequest, hkey, hid, hidx, fun k j => by rw [hi, hstore]⟩
  refine ⟨h.next hrun (by rw [hi, hcall]) hsame (fun a ha => ?_) (fun a ha j _ => ?_), hsame⟩
  · rw [hothers a ha]
    exact h.filled a ha
  · rw [hothers a ha]

section Prepared

variable {r : ℕ} {own : Option (Proposal × Content)} {vec : List Command}

/-- The replies to the PREPARE of a round, collected from the helpers. -/
structure Collected (q : List (Fin n)) (mem : Uninit) (request : PaxosRequest) (vec : List Command)
    (s t : MpSystem n) : Prop where
  nonempty : vec ≠ []
  fits : ∀ c ∈ vec, ReplyFits request c
  origin : ∀ c ∈ vec, ∃ a ∈ q, ∃ reply,
    Handles mem (s.servers a).store request (t.servers a).store reply ∧
      c = extractResponseFromPayload reply
  answered : ∀ a ∈ q, ∃ reply,
    Handles mem (s.servers a).store request (t.servers a).store reply ∧
      extractResponseFromPayload reply ∈ vec

theorem HandledBy.collected {request : PaxosRequest} (h : HandledBy mem i r request q s t)
    (hq : Helpers i q mem) (ht : Reachable mpStep .init t) (hreq : t.payload i r = some request) :
    ∃ vec, t.collect i r q = some vec ∧ Collected q mem request vec s t := by
  obtain ⟨vec, hvec, hne, horigin, hanswered⟩ := h.collect hq
  exact ⟨vec, hvec, hne, (traffic_of_reachable ht).collect_fits hvec hreq, horigin, hanswered⟩

/-- A NACK came back: the call starts again, ahead of the helpers. -/
theorem Solo.prepareRetry (hq : Helpers i q mem) (h : Solo q i call t)
    (hphase : call.phase = .preparing r own) (hvec : t.collect i r q = some vec)
    (hcol : Collected q mem (makeMpRequestPayload call.origCmd) vec s t)
    (hroom : ∀ a ∈ q, ((s.servers a).store.promise call.key call.currIdx).proposalNum <
      Int32.maxValue)
    (hnack : ∃ c ∈ vec, c.code = .nack) :
    ∃ u call', mpStep t (.finishPrepare i q blankCommand) = some u ∧ call'.phase = .roundStart ∧
      Solo q i call' u ∧ SameSlot i call call' t u ∧ Ahead q call' u := by
  have hkey : requestKey mem (makeMpRequestPayload call.origCmd) = call.key := requestKey_eq h.key
  have hslot : (makeMpRequestPayload call.origCmd).slot = call.currIdx := h.fits.index
  have hnum : ∀ c ∈ vec, c.code = .nack → ∃ a ∈ q, c.acceptedProposal.proposalNum =
      ((s.servers a).store.promise call.key call.currIdx).proposalNum := by
    intro c hc hn
    obtain ⟨a, ha, reply, hh, rfl⟩ := hcol.origin c hc
    exact ⟨a, ha, by rw [hh.nacked hn, hkey, hslot]⟩
  obtain ⟨tempCmd, hsel, hcode, habove⟩ := @selected_of_nack _ blankCommand _ hnack hcol.fits
    h.fits.num (fun c hc hn => by
      obtain ⟨a, ha, he⟩ := hnum c hc hn
      exact he ▸ hroom a ha)
  let call' : InsertCall := { call with
    origCmd := call.origCmd.withAcceptedNum tempCmd.acceptedProposal.proposalNum
    phase := .roundStart }
  let server : MpServer := { t.servers i with call := some call' }
  have hstep : mpStep t (.finishPrepare i q blankCommand) = some (t.advance i server []) := by
    simp only [mpStep, h.running, hphase, finishPrepareStep, hvec, Option.bind_some, hsel,
      Option.map_some, commandToSend_eq_none.mpr hcode]
    rfl
  obtain ⟨hsolo, hsame⟩ := h.advance hq (.single ⟨_, trivial, hstep⟩)
    (show server.call = some call' from rfl) rfl rfl rfl rfl rfl
  refine ⟨_, call', hstep, rfl, hsolo, hsame, fun a ha => ?_⟩
  rw [MpSystem.advance_servers, if_neg (hq.ne ha)]
  show ((t.servers a).store.promise call.key call.currIdx).proposalNum <
    tempCmd.acceptedProposal.proposalNum
  obtain ⟨reply, hh, hm⟩ := hcol.answered a ha
  rcases hh.code with hack | hn
  · obtain ⟨c, hc, hcn⟩ := hnack
    rw [hh.promise_eq, if_pos ⟨hack, hkey.symm, hslot.symm⟩]
    exact Int32.lt_of_le_of_lt ((hcol.fits c hc).nack_num hcn) (habove c hc hcn)
  · have hlt := habove _ hm hn
    rw [hh.nacked hn, hkey, hslot] at hlt
    rw [hh.promise_eq, if_neg (fun hc => by simp [hn] at hc)]
    exact hlt

/-- All helpers promised: the ACCEPT is sent, for the call's own command or for
one that a helper reported. -/
theorem Solo.prepareSend (hq : Helpers i q mem) (h : Solo q i call t)
    (hphase : call.phase = .preparing r own) (hvec : t.collect i r q = some vec)
    (hcol : Collected q mem (makeMpRequestPayload call.origCmd) vec s t)
    (hfilled : ∀ a ∈ q, (s.servers a).store.Slots SlotFilled)
    (hown : (t.servers i).store.promise call.key call.currIdx = call.origCmd.acceptedProposal)
    (hno : ∀ c ∈ vec, c.code ≠ .nack) :
    ∃ u call' r' sentCmd, mpStep t (.finishPrepare i q blankCommand) = some u ∧
      Solo q i call' u ∧ SameSlot i call call' t u ∧ Accepting q i call' r' sentCmd u := by
  have hkey : requestKey mem (makeMpRequestPayload call.origCmd) = call.key := requestKey_eq h.key
  have hslot : (makeMpRequestPayload call.origCmd).slot = call.currIdx := h.fits.index
  have htype := ((traffic_of_reachable h.reached).preparing h.running hphase).1
  obtain ⟨tempCmd, hsel, hkind⟩ :=
    @selected_of_acks blankCommand vec true hcol.nonempty hno
  let sentCmd : Command := { (if tempCmd.code = .ok then call.origCmd else tempCmd) with
    mpReqType := .accept, acceptedProposal := call.origCmd.acceptedProposal }
  have hsent : commandToSend call.origCmd tempCmd = some sentCmd := by
    refine if_neg (fun hn => ?_)
    rcases hkind with ⟨hok, _⟩ | ⟨hm, _⟩
    · simp [hok] at hn
    · exact hno tempCmd hm hn
  have hsentFilled : Filled call.key call.currIdx sentCmd := by
    rcases hkind with ⟨hok, _⟩ | ⟨hm, hne⟩
    · rw [show sentCmd = { call.origCmd with mpReqType := .accept } from by simp [sentCmd, hok]]
      exact ⟨h.fits.num, h.fits.index, rfl, h.key, h.id⟩
    · have hack : tempCmd.code = .ack := (hcol.fits tempCmd hm).code_ack (hno tempCmd hm)
      rw [show sentCmd = { tempCmd with mpReqType := .accept, acceptedProposal :=
        call.origCmd.acceptedProposal } from by simp [sentCmd, hack]]
      obtain ⟨a, ha, reply, hh, rfl⟩ := hcol.origin tempCmd hm
      have hf := (hh.reported htype hack (hfilled a ha)).resolve_left hne
      rw [hkey, hslot] at hf
      exact ⟨h.fits.num, hf.index, hf.key_eq, hf.key_ne, hf.id⟩
  let r' := (t.servers i).broadcasts.length
  let call' : InsertCall := { call with phase := .accepting r r' sentCmd }
  let server : MpServer := { t.servers i with call := some call' }
  let events : List (MpEvent n) := [.sentAccept call.key call.currIdx sentCmd.acceptedProposal (i, r)
    sentCmd.content]
  have hstep : mpStep t (.finishPrepare i q blankCommand) =
      some ((t.advance i server events).broadcast i (makeMpRequestPayload sentCmd)) := by
    simp only [mpStep, h.running, hphase, finishPrepareStep, hvec, Option.bind_some, hsel,
      Option.map_some, hsent]
    rfl
  have hsends : Sends i r' server t
      ((t.advance i server events).broadcast i (makeMpRequestPayload sentCmd)) :=
    sends_broadcast rfl
  obtain ⟨hsolo, hsame⟩ := h.sends hq (.single ⟨_, trivial, hstep⟩) hsends
    (show server.call = some call' from rfl) rfl rfl rfl rfl (fun _ _ => rfl)
  refine ⟨_, call', r', sentCmd, hstep, hsolo, hsame, ⟨r, rfl⟩, hsentFilled, hsends.rpcs, ?_,
    fun a ha => ?_⟩
  · rw [hsends.store]
    exact hown
  · rw [hsends.others a (hq.ne ha)]
    obtain ⟨reply, hh, hm⟩ := hcol.answered a ha
    have hack : reply.code = .ack := hh.code.resolve_right (hno _ hm)
    have hp := hh.promise_eq call.key call.currIdx
    rw [if_pos ⟨hack, hkey.symm, hslot.symm⟩] at hp
    exact hp

end Prepared

section Rounds

/-- One round: the ACCEPT is sent, or the call goes on ahead of the helpers, which
takes that it was not ahead of them before. -/
theorem Solo.round (hq : Helpers i q mem) (h : Solo q i call s) (hphase : call.phase = .roundStart)
    (hroom : ¬ Ahead q call s → ∀ a ∈ q,
      ((s.servers a).store.promise call.key call.currIdx).proposalNum < Int32.maxValue) :
    Within mpStep (Undisturbed i q mem) (q.length + 2) s (fun t => ∃ call',
      Solo q i call' t ∧ SameSlot i call call' s t ∧
      ((¬ Ahead q call s ∧ call'.phase = .roundStart ∧ Ahead q call' t) ∨
        ∃ r sentCmd, Accepting q i call' r sentCmd t)) := by
  obtain ⟨t₁, r, own, call₁, hstart, hphase₁, hnum₁, h₁, hsame₁, hothers, hrpcs, hown⟩ :=
    h.startRound hq hphase
  have hkey₁ : call₁.key = call.key := hsame₁.key_eq
  have hreq := ((traffic_of_reachable h₁.reached).preparing h₁.running hphase₁).2
  have hslot : (makeMpRequestPayload call₁.origCmd).slot = call₁.currIdx := h₁.fits.index
  have hhandle := (handle_all (q := q) hq.blank hq.nodup (fun a ha => ⟨ha, hq.ne ha⟩)
    (fun a ha => hrpcs a (hq.ne ha)) hreq h₁.key (hslot ▸ h₁.fits.lt)).reached
  refine Within.mono (.after (.startRound i) rfl hstart
    (hhandle.bind (m := 1) fun t₂ ⟨hh, hrun⟩ => ?_)) (by omega) fun _ ht => ht
  have hrun₂ : Reachable mpStep t₁ t₂ := hrun.mono (fun _ _ _ => trivial)
  obtain ⟨h₂, hsame₂⟩ := h₁.handled hq hh hrun₂ h₁.fits.num h₁.key h₁.id hslot
  have hreq₂ := ((traffic_of_reachable h₂.reached).preparing h₂.running hphase₁).2
  obtain ⟨vec, hvec, hcol⟩ := hh.collected hq h₂.reached hreq₂
  have hback : ∀ a ∈ q, (t₁.servers a).store.promise call₁.key call₁.currIdx =
      (s.servers a).store.promise call.key call.currIdx := by
    intro a ha
    rw [hothers a (hq.ne ha), hkey₁, hsame₁.idx]
  by_cases hnack : ∃ c ∈ vec, c.code = .nack
  · have hnot : ¬ Ahead q call s := by
      intro hahead
      obtain ⟨c, hc, hn⟩ := hnack
      obtain ⟨a, ha, reply, hhandles, rfl⟩ := hcol.origin c hc
      have hlt := hahead a ha
      rw [← hback a ha, ← hnum₁] at hlt
      have hack : reply.code = .ack := hhandles.ack_iff.mpr (.inl
        ⟨((traffic_of_reachable h₂.reached).preparing h₂.running hphase₁).1, by
          rw [requestKey_eq (u := mem) h₁.key, hslot]
          exact Proposal.lt_iff.mpr (.inl hlt)⟩)
      exact absurd (hack.symm.trans hn) (by decide)
    obtain ⟨t₃, call₃, hstep, hphase₃, h₃, hsame₃, hahead⟩ := h₂.prepareRetry hq hphase₁ hvec hcol
      (fun a ha => hback a ha ▸ hroom hnot a ha) hnack
    exact .after (.finishPrepare i q blankCommand) rfl hstep
      (.now ⟨call₃, h₃, (hsame₁.trans hsame₂).trans hsame₃, .inl ⟨hnot, hphase₃, hahead⟩⟩)
  · have hown₂ : (t₂.servers i).store.promise call₁.key call₁.currIdx =
        call₁.origCmd.acceptedProposal := by
      rw [hh.servers i hq.others, hkey₁, hsame₁.idx, hnum₁]
      exact hown
    obtain ⟨t₃, call₃, r', sentCmd, hstep, h₃, hsame₃, hacc⟩ := h₂.prepareSend hq hphase₁ hvec hcol
      h₁.filled hown₂ (fun c hc hn => hnack ⟨c, hc, hn⟩)
    exact .after (.finishPrepare i q blankCommand) rfl hstep
      (.now ⟨call₃, h₃, (hsame₁.trans hsame₂).trans hsame₃, .inr ⟨r', sentCmd, hacc⟩⟩)

/-- What was proposed got accepted by all helpers under the call's number. -/
theorem Solo.accepted (hq : Helpers i q mem) (h : Solo q i call s) {r : ℕ} {sentCmd : Command}
    (ha : Accepting q i call r sentCmd s) :
    Within mpStep (Undisturbed i q mem) (q.length + 1) s (fun t => ∃ call' round tempCmd,
      Solo q i call' t ∧ SameSlot i call call' s t ∧ call'.phase = .proposed round tempCmd ∧
      tempCmd.acceptedProposal = (t.servers i).store.promise call'.key call'.currIdx) := by
  obtain ⟨round, hphase⟩ := ha.phase
  obtain ⟨htype, hnum, hreq⟩ := (traffic_of_reachable h.reached).accepting h.running hphase
  have hslot : (makeMpRequestPayload sentCmd).slot = call.currIdx := ha.sent.index
  have hkey : requestKey mem (makeMpRequestPayload sentCmd) = call.key :=
    (requestKey_eq ha.sent.key_ne).trans ha.sent.key_eq
  have hhandle := (handle_all (q := q) hq.blank hq.nodup (fun a hm => ⟨hm, hq.ne hm⟩)
    (fun a hm => ha.rpcs a (hq.ne hm)) hreq ha.sent.key_ne (hslot ▸ h.fits.lt)).reached
  refine hhandle.bind (m := 1) fun t ⟨hh, hrun⟩ => ?_
  obtain ⟨h₁, hsame₁⟩ := h.handled hq hh (hrun.mono (fun _ _ _ => trivial)) ha.sent.num
    ha.sent.key_ne ha.sent.id hslot
  have hreq₁ := ((traffic_of_reachable h₁.reached).accepting h₁.running hphase).2.2
  obtain ⟨vec, hvec, hcol⟩ := hh.collected hq h₁.reached hreq₁
  have hno : ∀ c ∈ vec, c.code ≠ .nack := by
    intro c hc hn
    obtain ⟨a, hm, reply, hhandles, rfl⟩ := hcol.origin c hc
    have hack : reply.code = .ack := hhandles.ack_iff.mpr (.inr ⟨htype, by
      rw [hkey, hslot, ha.promised a hm, ← hnum]
      exact Int32.le_refl _⟩)
    exact absurd (hack.symm.trans hn) (by decide)
  have hrepeats : ∀ c ∈ vec, Repeats (makeMpRequestPayload sentCmd) c :=
    fun c hc => (hcol.fits c hc).repeats htype (hno c hc)
  obtain ⟨tempCmd, hsel, hkind⟩ := @selected_of_acks blankCommand vec false hcol.nonempty hno
  have hmem : tempCmd ∈ vec := by
    rcases hkind with ⟨_, c, hc, hneg⟩ | ⟨hm, _⟩
    · rw [(hrepeats c hc).accepted] at hneg
      have hbad : (0 : Int32) ≤ -1 := hneg ▸ ha.sent.num
      exact absurd hbad (by decide)
    · exact hm
  have hid : tempCmd.commandId = sentCmd.commandId :=
    congrArg Content.commandId (hrepeats tempCmd hmem).content
  let call' : InsertCall := { call with phase := .proposed round tempCmd }
  let server : MpServer := { t.servers i with call := some call' }
  have hstep : mpStep t (.finishAccept i q blankCommand) = some (t.advance i server []) := by
    simp only [mpStep, h₁.running, hphase, finishAcceptStep, acceptPhase, hvec, Option.bind_some,
      hsel, Option.map_some, if_pos hid]
    rfl
  obtain ⟨h₂, hsame₂⟩ := h₁.advance hq (.single ⟨_, trivial, hstep⟩)
    (show server.call = some call' from rfl) rfl rfl rfl rfl rfl
  refine .after (.finishAccept i q blankCommand) rfl hstep
    (.now ⟨call', round, tempCmd, h₂, hsame₁.trans hsame₂, rfl, ?_⟩)
  rw [(hrepeats tempCmd hmem).accepted, MpSystem.advance_servers_self]
  show sentCmd.acceptedProposal = (t.servers i).store.promise call.key call.currIdx
  rw [hh.servers i hq.others, ha.own, hnum]

end Rounds

end Attempt

end KeyValueStore
