import KeyValueStore.PaxosInvariant

/-! The request handler as an acceptor of the synod. -/

namespace KeyValueStore

variable {n : ℕ} {s t : MpSystem n} {k : ℕ} {u : Uninit} {rpc : Rpc n}
  {request : PaxosRequest} {st : MpStore} {reply : PaxosResponse}

theorem requestKey_eq (h : request.key ≠ []) : requestKey u request = cStr request.key := by
  simp [requestKey, h]

theorem handlerEvents_prepare (htype : request.mptype = .prepare) (hc : reply.code = .ack)
    (hkey : request.key ≠ []) : handlerEvents rpc u st request reply =
      [.promised rpc.dst (cStr request.key) request.slot request.proposal (rpc.src, rpc.call)
        (st.vote (cStr request.key) request.slot) true] := by
  simp [handlerEvents, htype, hc, requestKey_eq hkey]

theorem handlerEvents_accept (htype : request.mptype = .accept) (hc : reply.code = .ack)
    (hkey : request.key ≠ []) : handlerEvents rpc u st request reply =
      [.accepted rpc.dst (cStr request.key) request.slot
        (acceptedCommand (extractRequestPayloadToCommand request) (requestSlot u st request))
        true] := by
  simp [handlerEvents, htype, hc, requestKey_eq hkey]

theorem handlerEvents_not_concerns {key : Bytes} {i : ℕ}
    (h : ¬ (reply.code = .ack ∧ key = requestKey u request ∧ i = request.slot)) :
    ∀ e ∈ (handlerEvents rpc u st request reply : List (MpEvent n)), ¬ e.Concerns key i := by
  intro e he hcon
  obtain ⟨hc, rfl | rfl⟩ := of_mem_handlerEvents he
  · exact h ⟨hc, hcon.1.symm, hcon.2.symm⟩
  · exact h ⟨hc, hcon.1.symm, hcon.2.symm⟩

theorem handled_promise (s : MpSystem n) (k : ℕ) (rpc : Rpc n) (st : MpStore)
    (reply : PaxosResponse) (events : List (MpEvent n)) (a : Fin n) (key : Bytes) (i : ℕ) :
    (s.handled k rpc st reply events).promise a key i =
      if a = rpc.dst then st.promise key i else s.promise a key i := by
  simp only [MpSystem.promise, MpSystem.handled_servers]
  split <;> rfl

theorem handled_vote (s : MpSystem n) (k : ℕ) (rpc : Rpc n) (st : MpStore)
    (reply : PaxosResponse) (events : List (MpEvent n)) (a : Fin n) (key : Bytes) (i : ℕ) :
    (s.handled k rpc st reply events).vote a key i =
      if a = rpc.dst then st.vote key i else s.vote a key i := by
  simp only [MpSystem.vote, MpSystem.handled_servers]
  split <;> rfl

theorem promise_le_of_accept {p q : Proposal} (hle : p.proposalNum ≤ q.proposalNum)
    (hord : ¬ (q.proposalNum = p.proposalNum ∧ q.proposalClientId < p.proposalClientId)) :
    p ≤ q := by
  rw [Proposal.le_iff]
  rcases Int32.lt_or_eq_of_le hle with hlt | heq
  · exact .inl hlt
  · exact .inr ⟨heq, Int32.not_lt.mp (fun hlt => hord ⟨heq.symm, hlt⟩)⟩

theorem handle_slotStep (hback : RequestBacked s request) (hnum : 0 ≤ request.proposalNum)
    (hord : request.mptype = .accept → ¬ (request.proposalNum =
        (s.promise rpc.dst (requestKey u request) request.slot).proposalNum ∧
      request.proposalClientId <
        (s.promise rpc.dst (requestKey u request) request.slot).proposalClientId))
    (hh : Handles u (s.servers rpc.dst).store request st reply) (key : Bytes) (i : ℕ) :
    SlotStep s (s.handled k rpc st reply
      (handlerEvents rpc u (s.servers rpc.dst).store request reply)) key i := by
  have hother : ∀ a', a' ≠ rpc.dst → ∀ events,
      (s.handled k rpc st reply events).promise a' key i = s.promise a' key i ∧
      (s.handled k rpc st reply events).vote a' key i = s.vote a' key i := fun a' ha events =>
    ⟨(handled_promise ..).trans (if_neg ha), (handled_vote ..).trans (if_neg ha)⟩
  by_cases hat : reply.code = .ack ∧ key = requestKey u request ∧ i = request.slot
  · obtain ⟨hc, rfl, rfl⟩ := hat
    rcases hh.ack_iff.mp hc with ⟨htype, hlt⟩ | ⟨htype, hle⟩
    · rw [handlerEvents_prepare htype hc hback.key, ← requestKey_eq hback.key]
      refine .promise hlt (synodOf_promised ..) ⟨?_, ?_⟩ (fun a' ha => hother a' ha _)
      · rw [handled_promise, if_pos rfl, hh.promise_eq, if_pos ⟨hc, rfl, rfl⟩]
      · rw [handled_vote, if_pos rfl, hh.vote_eq, if_neg (by simp [htype])]
        rfl
    · obtain ⟨r, hr⟩ := hback.proposed htype
      have hup : s.promise rpc.dst (requestKey u request) request.slot ≤ request.proposal :=
        promise_le_of_accept hle (hord htype)
      rw [handlerEvents_accept htype hc hback.key, ← requestKey_eq hback.key]
      refine .vote (x := request.content) (requestKey_eq hback.key ▸ hr) hup
        (synodOf_accepted ..) ⟨?_, ?_⟩ rfl (fun a' ha => hother a' ha _)
      · rw [handled_promise, if_pos rfl, hh.promise_eq, if_pos ⟨hc, rfl, rfl⟩]
      · rw [handled_vote, if_pos rfl, hh.vote_eq, if_pos ⟨hc, htype, rfl, rfl⟩, if_pos hnum]
  · refine .same (synodOf_append_of_not_concerns (handlerEvents_not_concerns hat)) (fun a => ?_)
    by_cases ha : a = rpc.dst
    · subst ha
      rw [handled_promise, if_pos rfl, handled_vote, if_pos rfl, hh.promise_eq, if_neg hat,
        hh.vote_eq, if_neg (fun h => hat ⟨h.1, h.2.2⟩)]
      exact ⟨rfl, rfl⟩
    · exact hother a ha _

/-- The handler's reply tells what the synod's acceptor did. -/
theorem handle_replyBacked (hback : RequestBacked s request)
    (hslots : (s.servers rpc.dst).store.Slots SlotFilled)
    (hh : Handles u (s.servers rpc.dst).store request st reply) :
    ReplyBacked (s.handled k rpc st reply
      (handlerEvents rpc u (s.servers rpc.dst).store request reply)) rpc request
      (extractResponseFromPayload reply) := by
  have hkey := requestKey_eq (u := u) hback.key
  cases hh with
  | prepareAck htype hlt =>
    have hp : ∀ (st' : MpStore) (reply' : PaxosResponse), reply'.code = .ack →
        (synodOf (s.handled k rpc st' reply'
          (handlerEvents rpc u (s.servers rpc.dst).store request reply')).history
          (cStr request.key) request.slot).promise rpc.dst request.proposal (rpc.src, rpc.call)
          (idVote (requestSlot u (s.servers rpc.dst).store request).vote) := by
      intro st' reply' hc
      rw [handlerEvents_prepare htype hc hback.key, requestSlot_vote, hkey]
      exact ⟨_, true, List.mem_cons_self, rfl⟩
    have hslot : SlotFilled (cStr request.key) request.slot
        (requestSlot u (s.servers rpc.dst).store request) :=
      hkey ▸ hslots.lookup slotFilled_slotPredicate u.types _ _
    rcases hslot with hnone | hfilled
    · refine .prepareFree htype rfl ?_ ?_
      · simpa [extractResponseFromPayload, prepareReply] using hnone
      · have hvote := Command.vote_eq_none.mpr (show ¬ 0 ≤ (requestSlot u
          (s.servers rpc.dst).store request).acceptedProposal.proposalNum by
            rw [hnone]
            decide)
        rw [hvote] at hp
        exact hp _ _ rfl
    · refine .prepareReport htype rfl ⟨?_, hfilled.index, hfilled.key_eq, hfilled.key_ne,
        hfilled.id⟩ ?_
      · simpa [extractResponseFromPayload, prepareReply] using hfilled.num
      · have hvote := Command.vote_eq_some.mpr ⟨hfilled.num, rfl, rfl⟩
        rw [hvote] at hp
        exact hp _ _ rfl
  | prepareNack => exact .nack rfl
  | acceptAck htype hle hcl happ =>
    refine .accept htype rfl ?_
    rw [handlerEvents_accept htype rfl hback.key]
    exact ⟨_, true, List.mem_cons_self, rfl, rfl⟩
  | acceptNack => exact .nack rfl

theorem PaxosInv.handle (h : PaxosInv s) (hrpc : rpc ∈ s.calls)
    (hreq : s.payload rpc.src rpc.call = some request)
    (hh : Handles u (s.servers rpc.dst).store request st reply)
    (hord : request.mptype = .accept → ¬ (request.proposalNum =
        (s.promise rpc.dst (requestKey u request) request.slot).proposalNum ∧
      request.proposalClientId <
        (s.promise rpc.dst (requestKey u request) request.slot).proposalClientId)) :
    PaxosInv (s.handled k rpc st reply
      (handlerEvents rpc u (s.servers rpc.dst).store request reply)) := by
  have hback := h.requests _ _ _ hreq
  have hnum := h.traffic.payload_num hreq
  have hext := extends_handled s k rpc st reply
    (handlerEvents rpc u (s.servers rpc.dst).store request reply)
  have hproposed : ∀ key i b r v, (synodOf (s.handled k rpc st reply
      (handlerEvents rpc u (s.servers rpc.dst).store request reply)).history key i).proposed b r v →
      (synodOf s.history key i).proposed b r v := by
    rintro key i b r v ⟨content, hm, rfl⟩
    rcases List.mem_append.mp hm with hm | hm
    · rcases of_mem_handlerEvents hm with ⟨_, he | he⟩ <;> cases he
    · exact ⟨content, hm, rfl⟩
  refine h.next hext (h.traffic.handle hrpc hreq hh _)
    (handle_slotStep hback hnum hord hh) ?_ ?_ ?_ ?_ ?_ ?_
  · refine store_handled (P := fun _ st => st.Slots SlotFilled) h.filled ?_
    refine hh.slots (h.filled rpc.dst) slotFilled_slotPredicate (fun htype hc => .inr ?_)
    exact ⟨hnum, rfl, (requestKey_eq hback.key).symm, hback.key, hback.id⟩
  · exact fun key i b r v hp => .inl (hproposed key i b r v hp)
  · intro src call r hp
    exact .inl ((s.payload_handled ..).symm.trans hp)
  · intro rpc' reply' hr
    rcases List.mem_cons.mp hr with he | hr
    · cases he
      refine .inr (fun request' hp => ?_)
      rw [MpSystem.payload_handled] at hp
      have hsame : request = request' := Option.some.inj (hreq.symm.trans hp)
      exact hsame ▸ handle_replyBacked hback (h.filled rpc.dst) hh
    · exact .inl hr
  · intro j call hc
    exact (h.calls j call (call_handled hc)).mono hext (fun key i b round v hp => hproposed _ _ _ _ _ hp)
  · intro j key i content hm
    rcases List.mem_append.mp hm with hm | hm
    · rcases of_mem_handlerEvents hm with ⟨_, he | he⟩ <;> cases he
    · exact .inl hm

end KeyValueStore
