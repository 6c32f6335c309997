import KeyValueStore.HandlerRefinement

/-! A call of `insert_command` as a proposer of the synod, whose own server is
one of the acceptors it counts. -/

namespace KeyValueStore

variable {n : ℕ} {s t : MpSystem n} {a : MpAction n} {i : Fin n} {call : InsertCall}

section Views

@[simp] theorem advance_promise (s : MpSystem n) (i : Fin n) (server : MpServer)
    (events : List (MpEvent n)) (a : Fin n) (key : Bytes) (j : ℕ) :
    (s.advance i server events).promise a key j =
      if a = i then server.store.promise key j else s.promise a key j := by
  simp only [MpSystem.promise, MpSystem.advance_servers]
  split <;> rfl

@[simp] theorem advance_vote (s : MpSystem n) (i : Fin n) (server : MpServer)
    (events : List (MpEvent n)) (a : Fin n) (key : Bytes) (j : ℕ) :
    (s.advance i server events).vote a key j =
      if a = i then server.store.vote key j else s.vote a key j := by
  simp only [MpSystem.vote, MpSystem.advance_servers]
  split <;> rfl

@[simp] theorem broadcast_promise (s : MpSystem n) (i : Fin n) (request : PaxosRequest)
    (a : Fin n) (key : Bytes) (j : ℕ) :
    (s.broadcast i request).promise a key j = s.promise a key j := by
  simp only [MpSystem.promise, MpSystem.broadcast_servers]
  split
  next ha => rw [ha]
  next => rfl

@[simp] theorem broadcast_vote (s : MpSystem n) (i : Fin n) (request : PaxosRequest)
    (a : Fin n) (key : Bytes) (j : ℕ) :
    (s.broadcast i request).vote a key j = s.vote a key j := by
  simp only [MpSystem.vote, MpSystem.broadcast_servers]
  split
  next ha => rw [ha]
  next => rfl

end Views

section RoundStart

theorem startRound_slotStep (h : PaxosInv s) (hcall : (s.servers i).call = some call)
    {st : MpStore} {origCmd : Command} (horig : origCmd = { call.origCmd with mpReqType := .prepare })
    (hst : updateLocalValues (s.servers i).store origCmd = some st)
    (hlt : s.promise i call.key call.currIdx < call.origCmd.acceptedProposal)
    {server : MpServer} (hserver : server.store = st) (request : PaxosRequest) (round : ℕ)
    (key : Bytes) (j : ℕ) :
    SlotStep s ((s.advance i server
      [.promised i call.key call.currIdx origCmd.acceptedProposal (i, round)
        ((s.servers i).store.vote call.key call.currIdx) false]).broadcast i request) key j := by
  have hidx := ((h.traffic.servers i).call call hcall).index
  subst hserver
  by_cases hat : key = call.key ∧ j = call.currIdx
  · obtain ⟨rfl, rfl⟩ := hat
    refine .promise (a := i) (b := origCmd.acceptedProposal) (r := (i, round)) (horig ▸ hlt)
      (synodOf_promised ..) ⟨?_, ?_⟩ (fun a' ha => by simp [ha])
    · rw [broadcast_promise, advance_promise, if_pos rfl, updateLocalValues_promise hst, if_pos]
      exact ⟨by rw [horig, InsertCall.key], by rw [horig, ← hidx]⟩
    · rw [broadcast_vote, advance_vote, if_pos rfl, updateLocalValues_vote hst]
      rfl
  · refine .same (synodOf_cons_of_not_concerns (fun hc => hat ⟨hc.1.symm, hc.2.symm⟩)) (fun a => ?_)
    by_cases ha : a = i
    · subst ha
      rw [broadcast_promise, advance_promise, if_pos rfl, updateLocalValues_promise hst, if_neg,
        broadcast_vote, advance_vote, if_pos rfl, updateLocalValues_vote hst]
      · exact ⟨rfl, rfl⟩
      · rw [horig, hidx]
        exact hat
    · simp [ha]

theorem PaxosInv.startRound (h : PaxosInv s) (hcall : (s.servers i).call = some call)
    {st : MpStore} {origCmd : Command} (horig : origCmd = { call.origCmd with mpReqType := .prepare })
    (hst : updateLocalValues (s.servers i).store origCmd = some st)
    (hs : MpSteps s a t)
    (ht : t = (s.advance i { s.servers i with
            store := st
            call := some { call with
              origCmd
              phase := .preparing (s.servers i).broadcasts.length
                ((s.servers i).store.vote call.key call.currIdx) } }
          [.promised i call.key call.currIdx origCmd.acceptedProposal
            (i, (s.servers i).broadcasts.length)
            ((s.servers i).store.vote call.key call.currIdx) false]).broadcast i
          (makeMpRequestPayload origCmd))
    (hlt : s.promise i call.key call.currIdx < call.origCmd.acceptedProposal) : PaxosInv t := by
  have hback := h.calls i call hcall
  have hproposed : ∀ key j b r v, (synodOf t.history key j).proposed b r v →
      (synodOf s.history key j).proposed b r v := by
    rintro key j b r v ⟨content, hm, rfl⟩
    subst ht
    exact ⟨content, by simpa using hm, rfl⟩
  refine h.local (i := i) hs ?_ ?_ ?_ ?_ ?_ ?_ ?_ ?_
  · intro j hj
    simp [ht, hj]
  · simp [ht]
  · intro key j
    rw [ht]
    exact startRound_slotStep h hcall horig hst hlt rfl _ _ key j
  · simp only [ht, MpSystem.broadcast_servers, MpSystem.advance_servers, if_true]
    exact updateLocalValues_slots slotFilled_slotPredicate (h.filled i) hst
  · exact fun key j b r v hp => .inl (hproposed key j b r v hp)
  · intro src c request hp
    rw [ht, MpSystem.payload_broadcast] at hp
    split at hp
    next =>
      refine .inr ?_
      obtain rfl := Option.some.inj hp
      subst horig
      exact ⟨hback.key, hback.id, fun htype => by simp [makeMpRequestPayload] at htype⟩
    next =>
      rw [MpSystem.payload_advance] at hp
      · exact .inl hp
      · rfl
  · intro c hc
    simp only [ht, MpSystem.broadcast_servers, MpSystem.advance_servers, if_true,
      Option.some.injEq] at hc
    subst hc horig
    refine ⟨hback.key, hback.id, ?_, ?_, ?_⟩
    · intro v hv
      obtain ⟨p, x⟩ := v
      have hvote : s.vote i call.key call.currIdx = some (p, x) := hv
      exact vote_num hvote
    · rw [ht]
      exact ⟨_, false, List.mem_cons_self, rfl⟩
    · intro key j c w hp
      exact absurd (h.rounds key j c _ w (hproposed key j c _ w hp)) (Nat.lt_irrefl _)
  · intro j key k content hm
    subst ht
    exact .inl (by simpa using hm)

end RoundStart

section Propose

variable {round : ℕ} {own : Option (Proposal × Content)} {order : List (Fin n)}
  {junk tempCmd sentCmd : Command} {vec : List Command}

/-- What a PREPARE phase without a NACK learned from the other servers. -/
structure Prepared (s : MpSystem n) (i : Fin n) (call : InsertCall) (round : ℕ)
    (own : Option (Proposal × Content)) (order : List (Fin n)) (vec : List Command) : Prop where
  quorum : Majority (insert i order.toFinset)
  own_num : ∀ v ∈ own, 0 ≤ v.1.proposalNum
  own_promise : (synodOf s.history call.key call.currIdx).promise i
    call.origCmd.acceptedProposal (i, round) (idVote own)
  reply_of : ∀ a ∈ order, ∃ c ∈ vec,
    (synodOf s.history call.key call.currIdx).promise a call.origCmd.acceptedProposal (i, round)
      (if c.acceptedProposal.proposalNum = -1 then none
        else some (c.acceptedProposal, c.commandId))
  of_reply : ∀ c ∈ vec, ∃ a ∈ order,
    (synodOf s.history call.key call.currIdx).promise a call.origCmd.acceptedProposal (i, round)
      (if c.acceptedProposal.proposalNum = -1 then none
        else some (c.acceptedProposal, c.commandId))
  filled : ∀ c ∈ vec, c.acceptedProposal.proposalNum ≠ -1 → Filled call.key call.currIdx c
  ack : ∀ c ∈ vec, c.code = .ack
  new : ∀ key j c w, ¬ (synodOf s.history key j).proposed c (i, round) w

theorem ReplyBacked.prepared {rpc : Rpc n} {request : PaxosRequest} {c : Command}
    (h : ReplyBacked s rpc request c) (htype : request.mptype = .prepare) (hc : c.code ≠ .nack) :
    c.code = .ack ∧ (c.acceptedProposal.proposalNum ≠ -1 →
      Filled (cStr request.key) request.slot c) ∧
    (synodOf s.history (cStr request.key) request.slot).promise rpc.dst request.proposal
      (rpc.src, rpc.call) (if c.acceptedProposal.proposalNum = -1 then none
        else some (c.acceptedProposal, c.commandId)) := by
  cases h with
  | prepareFree _ hcode hnum hp => exact ⟨hcode, fun hne => absurd hnum hne, by rwa [if_pos hnum]⟩
  | prepareReport _ hcode hfilled hp =>
    refine ⟨hcode, fun _ => hfilled, ?_⟩
    rwa [if_neg]
    intro he
    have hbad := he ▸ hfilled.num
    exact absurd hbad (by decide)
  | accept ht => simp [htype] at ht
  | nack hn => exact absurd hn hc

theorem PaxosInv.prepared (h : PaxosInv s) (hcall : (s.servers i).call = some call)
    (hphase : call.phase = .preparing round own) (hvec : s.collect i round order = some vec)
    (hno : ∀ c ∈ vec, c.code ≠ .nack) : Prepared s i call round own order vec := by
  obtain ⟨htype, hpay⟩ := h.traffic.preparing hcall hphase
  have hidx := ((h.traffic.servers i).call call hcall).index
  have hback := (h.calls i call hcall).phase
  simp only [PhaseBacked, hphase] at hback
  obtain ⟨hnd, hlen⟩ := MpSystem.collect_order hvec
  have hreply : ∀ a reply, (⟨i, a, round⟩, reply) ∈ s.replies →
      extractResponseFromPayload reply ∈ vec →
      (extractResponseFromPayload reply).code = .ack ∧
      ((extractResponseFromPayload reply).acceptedProposal.proposalNum ≠ -1 →
        Filled call.key call.currIdx (extractResponseFromPayload reply)) ∧
      (synodOf s.history call.key call.currIdx).promise a call.origCmd.acceptedProposal (i, round)
        (if (extractResponseFromPayload reply).acceptedProposal.proposalNum = -1 then none
          else some ((extractResponseFromPayload reply).acceptedProposal,
            (extractResponseFromPayload reply).commandId)) := by
    intro a reply hr hm
    have hb := (h.replies _ _ _ hr hpay).prepared htype (hno _ hm)
    have hslot : (makeMpRequestPayload call.origCmd).slot = call.currIdx := hidx
    rw [hslot] at hb
    exact hb
  refine {
    quorum := majority_insert hnd ?_ (by rwa [Fintype.card_fin])
    own_num := hback.1
    own_promise := hback.2.1
    reply_of := ?_
    of_reply := ?_
    filled := ?_
    ack := ?_
    new := hback.2.2 }
  · intro hi
    obtain ⟨reply, hr, _⟩ := MpSystem.collected_of_mem hvec hi
    exact absurd rfl (h.traffic.rpcs _ (.inr ⟨reply, hr⟩)).1
  · intro a ha
    obtain ⟨reply, hr, hm⟩ := MpSystem.collected_of_mem hvec ha
    exact ⟨_, hm, (hreply a reply hr hm).2.2⟩
  · intro c hc
    obtain ⟨a, ha, reply, hr, rfl⟩ := MpSystem.mem_of_collect hvec hc
    exact ⟨a, ha, (hreply a reply hr hc).2.2⟩
  · intro c hc
    obtain ⟨a, ha, reply, hr, rfl⟩ := MpSystem.mem_of_collect hvec hc
    exact (hreply a reply hr hc).2.1
  · intro c hc
    obtain ⟨a, ha, reply, hr, rfl⟩ := MpSystem.mem_of_collect hvec hc
    exact (hreply a reply hr hc).1

/-- If the first reply is free and leads, every acceptor of the quorum is. -/
theorem Prepared.selects_free (hp : Prepared s i call round own order vec) {head : Command}
    {rest : List Command} (hhead : vec = head :: rest) (hlead : LeadsWithHighest vec)
    (hown : OwnReported own vec) (hfirst : head.acceptedProposal.proposalNum = -1) (v : UInt32) :
    (synodOf s.history call.key call.currIdx).Selects (insert i order.toFinset)
      call.origCmd.acceptedProposal (i, round) v := by
  have hle : ∀ c ∈ vec, c.acceptedProposal.proposalNum ≤ -1 := fun c hc =>
    hfirst ▸ hlead head (by simp [hhead]) c hc
  have hfree : ∀ c ∈ vec, c.acceptedProposal.proposalNum = -1 := by
    intro c hc
    by_contra hne
    exact absurd (Int32.le_trans (hp.filled c hc hne).num (hle c hc)) (by decide)
  have hnone : own = none := by
    cases own with
    | none => rfl
    | some w =>
      obtain ⟨c, hc, hwc⟩ := hown w rfl
      have hbad := Int32.le_trans (Int32.le_trans (hp.own_num w rfl) (Proposal.num_le_of_le hwc))
        (hle c hc)
      exact absurd hbad (by decide)
  have hall : ∀ a ∈ insert i order.toFinset,
      (synodOf s.history call.key call.currIdx).promise a call.origCmd.acceptedProposal
        (i, round) none := by
    intro a ha
    rcases Finset.mem_insert.mp ha with rfl | ha
    · simpa [hnone, idVote] using hp.own_promise
    · obtain ⟨c, hc, hpr⟩ := hp.reply_of a (List.mem_toFinset.mp ha)
      rwa [if_pos (hfree c hc)] at hpr
  exact ⟨fun a ha => ⟨none, hall a ha⟩, .inl hall⟩

/-- If the first reply leads, the selected one is the highest of the quorum. -/
theorem Prepared.selects_best (h : PaxosInv s) (hp : Prepared s i call round own order vec)
    {head : Command} {rest : List Command} (hhead : vec = head :: rest)
    (hlead : LeadsWithHighest vec) (hown : OwnReported own vec)
    (hfirst : head.acceptedProposal.proposalNum ≠ -1) :
    (synodOf s.history call.key call.currIdx).Selects (insert i order.toFinset)
      call.origCmd.acceptedProposal (i, round) (selectHighest head rest).commandId := by
  obtain ⟨hmem, hnum, hmax⟩ := selectHighest_spec head rest
  rw [← hhead] at hmem hmax
  have htop : ∀ c ∈ vec, c.acceptedProposal ≤ (selectHighest head rest).acceptedProposal := by
    intro c hc
    rcases Int32.lt_or_eq_of_le (hlead head (by simp [hhead]) c hc) with hlt | heq
    · exact (Proposal.lt_iff.mpr (.inl (hnum ▸ hlt))).le
    · exact hmax c hc heq
  have hinv := (h.slots call.key call.currIdx).reachable.inv (fun _ _ => Majority.inter)
  have hsome : ∀ a ∈ insert i order.toFinset, ∃ l,
      (synodOf s.history call.key call.currIdx).promise a call.origCmd.acceptedProposal
        (i, round) l ∧ ∀ d w, l = some (d, w) → d ≤ (selectHighest head rest).acceptedProposal := by
    intro a ha
    rcases Finset.mem_insert.mp ha with rfl | ha
    · refine ⟨_, hp.own_promise, fun d w he => ?_⟩
      obtain ⟨⟨p, x⟩, hv, he⟩ := Option.map_eq_some_iff.mp he
      simp only [Prod.mk.injEq] at he
      obtain ⟨c, hc, hle⟩ := hown (p, x) hv
      exact he.1 ▸ hle.trans (htop c hc)
    · obtain ⟨c, hc, hpr⟩ := hp.reply_of a (List.mem_toFinset.mp ha)
      refine ⟨_, hpr, fun d w he => ?_⟩
      split at he
      next => simp at he
      next =>
        simp only [Option.some.injEq, Prod.mk.injEq] at he
        exact he.1 ▸ htop c hc
  refine ⟨fun a ha => (hsome a ha).imp (fun _ hl => hl.1),
    .inr ⟨(selectHighest head rest).acceptedProposal, ?_, ?_⟩⟩
  · obtain ⟨a, ha, hpr⟩ := hp.of_reply _ hmem
    rw [if_neg (hnum ▸ hfirst)] at hpr
    exact ⟨a, Finset.mem_insert_of_mem (List.mem_toFinset.mpr ha), hpr⟩
  · intro a ha d w hd
    obtain ⟨l, hl, hle⟩ := hsome a ha
    exact hle d w (hinv.promise_unique _ _ _ _ _ _ hl hd).2

/-- The command that goes out after a PREPARE phase: that of a highest acceptance
in the quorum, own slot included, or any when the whole quorum is free. -/
theorem PaxosInv.sent (h : PaxosInv s) (hcall : (s.servers i).call = some call)
    (hphase : call.phase = .preparing round own) (hvec : s.collect i round order = some vec)
    (htemp : getHighestAcceptedProposal junk vec true = some tempCmd) (hcode : tempCmd.code ≠ .nack)
    (hsent : sentCmd = { (if tempCmd.code = .ok then call.origCmd else tempCmd) with
        mpReqType := .accept, acceptedProposal := call.origCmd.acceptedProposal })
    (hsafe : SelectsHighest s i order) :
    Filled call.key call.currIdx sentCmd ∧
      (∀ key j c w, ¬ (synodOf s.history key j).proposed c (i, round) w) ∧
      Majority (insert i order.toFinset) ∧
      (synodOf s.history call.key call.currIdx).Selects (insert i order.toFinset)
        call.origCmd.acceptedProposal (i, round) sentCmd.commandId := by
  have hc := (h.traffic.servers i).call call hcall
  have hback := h.calls i call hcall
  obtain ⟨hsel, hvecFits⟩ := h.traffic.prepareSelected hcall hphase hvec htemp
  have hno : ∀ c ∈ vec, c.code ≠ .nack :=
    (hsel.rejected_or hvecFits).resolve_left (fun hr => hcode hr.1)
  have hp := h.prepared hcall hphase hvec hno
  have hlead : LeadsWithHighest vec ∧ OwnReported own vec := by
    have hmatch := hsafe call hcall
    simp only [hphase] at hmatch
    exact hmatch vec hvec hno
  cases hsel with
  | allNack hall hlast => exact absurd (hall _ hlast) hcode
  | acceptNack hph => simp at hph
  | prepareNack hph hmax hnack =>
    obtain ⟨c, hm, hn⟩ := hnack
    exact absurd hn (hno c hm)
  | free hhead _ hfirst =>
    simp only [if_true] at hsent
    subst hsent
    exact ⟨⟨hc.num, hc.index, rfl, hback.key, hback.id⟩, hp.new, hp.quorum,
      hp.selects_free hhead hlead.1 hlead.2 hfirst _⟩
  | @best head rest hhead _ hfirst =>
    obtain ⟨hmem, hnum, _⟩ := selectHighest_spec head rest
    have hmem' := hhead ▸ hmem
    have hfilled := hp.filled _ hmem' (hnum ▸ hfirst)
    rw [if_neg (by simp [hp.ack _ hmem'])] at hsent
    subst hsent
    exact ⟨⟨hc.num, hfilled.index, hfilled.key_eq, hfilled.key_ne, hfilled.id⟩, hp.new, hp.quorum,
      hp.selects_best h hhead hlead.1 hlead.2 hfirst⟩

theorem PaxosInv.prepareSend (h : PaxosInv s) (hcall : (s.servers i).call = some call)
    (hphase : call.phase = .preparing round own) (hs : MpSteps s a t)
    (ht : t = (s.advance i { s.servers i with
            call := some { call with
              phase := .accepting round (s.servers i).broadcasts.length sentCmd } }
          [.sentAccept call.key call.currIdx sentCmd.acceptedProposal (i, round)
            sentCmd.content]).broadcast i (makeMpRequestPayload sentCmd))
    (hsent : Filled call.key call.currIdx sentCmd)
    (hnew : ∀ key j c w, ¬ (synodOf s.history key j).proposed c (i, round) w)
    {q : Finset (Fin n)} (hq : Majority q)
    (hsel : (synodOf s.history call.key call.currIdx).Selects q sentCmd.acceptedProposal
      (i, round) sentCmd.commandId) : PaxosInv t := by
  have hback := h.calls i call hcall
  have hround : round < (s.servers i).broadcasts.length :=
    MpSystem.lt_length_of_payload (h.traffic.preparing hcall hphase).2
  have hproposed : (synodOf t.history call.key call.currIdx).proposed sentCmd.acceptedProposal
      (i, round) sentCmd.commandId := by
    subst ht
    exact ⟨_, List.mem_cons_self, rfl⟩
  refine h.local (i := i) hs ?_ ?_ ?_ ?_ ?_ ?_ ?_ ?_
  · intro j hj
    simp [ht, hj]
  · simp [ht]
  · intro key j
    have hviews : ∀ a, t.promise a key j = s.promise a key j ∧ t.vote a key j = s.vote a key j := by
      intro a
      by_cases ha : a = i
      · subst ha
        simp [ht, MpSystem.promise, MpSystem.vote]
      · simp [ht, ha]
    by_cases hat : key = call.key ∧ j = call.currIdx
    · obtain ⟨rfl, rfl⟩ := hat
      exact .propose (fun c w => hnew _ _ c w) hq hsel
        (by rw [ht]; exact synodOf_sentAccept ..) hviews
    · refine .same ?_ hviews
      rw [ht]
      exact synodOf_cons_of_not_concerns (fun hc => hat ⟨hc.1.symm, hc.2.symm⟩)
  · simp only [ht, MpSystem.broadcast_servers, MpSystem.advance_servers, if_true]
    exact h.filled i
  · rintro key j b r v ⟨content, hm, rfl⟩
    subst ht
    rcases List.mem_cons.mp hm with he | hm
    · cases he
      refine .inr ⟨rfl, ?_⟩
      simp only [MpSystem.broadcast_servers, MpSystem.advance_servers, if_true]
      exact hround.trans_le (by simp)
    · exact .inl ⟨content, hm, rfl⟩
  · intro src c request hp
    rw [ht, MpSystem.payload_broadcast] at hp
    split at hp
    next =>
      obtain rfl := Option.some.inj hp
      refine .inr ⟨hsent.key_ne, hsent.id, fun _ => ⟨(i, round), ?_⟩⟩
      have hslot : (makeMpRequestPayload sentCmd).slot = call.currIdx := hsent.index
      have hkey : cStr (makeMpRequestPayload sentCmd).key = call.key := hsent.key_eq
      rw [hslot, hkey]
      exact hproposed
    next =>
      rw [MpSystem.payload_advance] at hp
      · exact .inl hp
      · rfl
  · intro c hc
    simp only [ht, MpSystem.broadcast_servers, MpSystem.advance_servers, if_true,
      Option.some.injEq] at hc
    subst hc
    exact ⟨hback.key, hback.id, hsent, hproposed⟩
  · intro j key k content hm
    subst ht
    exact .inl (by simpa using hm)

end Propose

section Record

variable {round : ℕ} {order : List (Fin n)} {junk tempCmd sentCmd origCmd : Command}
  {vec : List Command} {st : MpStore} {cl : CommandsList}

/-- A majority of ACKs: each is the vote of its acceptor for the command sent. -/
theorem PaxosInv.proposed (h : PaxosInv s) {acceptCall : ℕ}
    (hcall : (s.servers i).call = some call)
    (hphase : call.phase = .accepting round acceptCall sentCmd)
    (hvec : s.collect i acceptCall order = some vec)
    (htemp : getHighestAcceptedProposal junk vec false = some tempCmd)
    (hid : tempCmd.commandId = sentCmd.commandId) (hsafe : JunkDiffers s i order junk) :
    PhaseBacked s i { call with phase := .proposed round tempCmd } := by
  obtain ⟨htype, hacc, hpay⟩ := h.traffic.accepting hcall hphase
  have hback := (h.calls i call hcall).phase
  simp only [PhaseBacked, hphase] at hback
  obtain ⟨hfilled, hproposed⟩ := hback
  have hslot : (makeMpRequestPayload sentCmd).slot = call.currIdx := hfilled.index
  have hkey : cStr (makeMpRequestPayload sentCmd).key = call.key := hfilled.key_eq
  obtain ⟨hnd, hlen⟩ := MpSystem.collect_order hvec
  rcases h.traffic.proposed_cases hcall hphase hvec htemp hid hsafe with
    ⟨hall, hmem, hsame⟩ | ⟨hzero, _⟩
  · have hvote : ∀ a ∈ order, (synodOf s.history call.key call.currIdx).vote a
        sentCmd.acceptedProposal sentCmd.commandId := by
      intro a ha
      obtain ⟨reply, hr, hm⟩ := MpSystem.collected_of_mem hvec ha
      cases h.replies _ _ _ hr hpay with
      | prepareFree ht => exact absurd (htype.symm.trans ht) (by decide)
      | prepareReport ht => exact absurd (htype.symm.trans ht) (by decide)
      | accept _ _ hv =>
        rw [hslot, hkey] at hv
        exact hv
      | nack hn => exact absurd ((hall _ hm).symm.trans hn) (by decide)
    have hnot : i ∉ order := by
      intro hi
      obtain ⟨reply, hr, _⟩ := MpSystem.collected_of_mem hvec hi
      exact absurd rfl (h.traffic.rpcs _ (.inr ⟨reply, hr⟩)).1
    have hprop : tempCmd.acceptedProposal = sentCmd.acceptedProposal := hsame.accepted
    have hkey' : tempCmd.key = sentCmd.key := congrArg Content.key hsame.content
    refine ⟨⟨hprop ▸ hfilled.num, hsame.index ▸ hfilled.index, hkey' ▸ hfilled.key_eq,
      hkey' ▸ hfilled.key_ne, hid ▸ hfilled.id⟩, hsame.promised.trans hsame.accepted.symm,
      hprop.trans hacc, ?_, order, hnd, hnot, hlen, ?_⟩
    · rw [hprop, hid]
      exact hproposed
    · rw [hprop, hid]
      exact hvote
  · exact absurd (hid.symm.trans hzero) hfilled.id

/-- Once the proposer's own slot has accepted what the other servers accepted,
a majority has. -/
theorem PaxosInv.chosen_recorded (h : PaxosInv s) (hcall : (s.servers i).call = some call)
    (hphase : call.phase = .proposed round tempCmd) (hext : Extends s t)
    (hvote : (synodOf t.history call.key call.currIdx).vote i tempCmd.acceptedProposal
      tempCmd.commandId) :
    (synodOf t.history call.key call.currIdx).Chosen Majority tempCmd.acceptedProposal
      tempCmd.commandId := by
  have hback := (h.calls i call hcall).phase
  simp only [PhaseBacked, hphase] at hback
  obtain ⟨_, _, _, _, order, hnd, hnot, hlen, hall⟩ := hback
  refine ⟨insert i order.toFinset, majority_insert hnd hnot (by rwa [Fintype.card_fin]), ?_⟩
  intro b hb
  rcases Finset.mem_insert.mp hb with rfl | hm
  · exact hvote
  · exact hext.vote_mono (hall b (List.mem_toFinset.mp hm))

/-- The proposer's own slot accepts what it records, and so it is chosen. -/
theorem PaxosInv.record (h : PaxosInv s) (hcall : (s.servers i).call = some call)
    (hphase : call.phase = .proposed round tempCmd) {cmd : Command} {server : MpServer}
    {events : List (MpEvent n)} (hs : MpSteps s a (s.advance i server events))
    (hcl : (s.servers i).store.logMap call.key = some cl)
    (hstore : server.store = (s.servers i).store.setLog call.key (recordedLog cl call.currIdx cmd))
    (hb : server.broadcasts = (s.servers i).broadcasts)
    (hacc : cmd.acceptedProposal = tempCmd.acceptedProposal)
    (hmin : cmd.minProposalNum = tempCmd.acceptedProposal)
    (hid : cmd.commandId = tempCmd.commandId) (hfilled : Filled call.key call.currIdx cmd)
    (hle : s.promise i call.key call.currIdx ≤ tempCmd.acceptedProposal)
    (quiet : List (MpEvent n)) (hquiet : ∀ e ∈ quiet, ∀ key j, ¬ e.Concerns key j)
    (hevents : events = quiet ++ [.accepted i call.key call.currIdx cmd false])
    (hrecorded : ∀ j key k content, .recorded j key k content ∈ quiet →
      key = call.key ∧ k = call.currIdx ∧ content.commandId = cmd.commandId)
    (hnext : ∀ c, server.call = some c → CallBacked s i c) :
    PaxosInv (s.advance i server events) := by
  have hback := (h.calls i call hcall).phase
  simp only [PhaseBacked, hphase] at hback
  obtain ⟨_, _, _, hproposed, _⟩ := hback
  have hsynod : ∀ key j, synodOf (s.advance i server events).history key j =
      synodOf (.accepted i call.key call.currIdx cmd false :: s.history) key j := by
    intro key j
    rw [MpSystem.advance_history, hevents, List.append_assoc]
    exact synodOf_append_of_not_concerns (fun e he => hquiet e he key j)
  have hext := extends_advance events hb
  have hold : ∀ key j b r v, (synodOf (s.advance i server events).history key j).proposed b r v →
      (synodOf s.history key j).proposed b r v := by
    intro key j b r v hp
    rw [hsynod] at hp
    obtain ⟨content, hm, rfl⟩ := hp
    exact ⟨content, by simpa using hm, rfl⟩
  have hchosen := h.chosen_recorded hcall hphase hext (by
    rw [hsynod, synodOf_accepted, hacc, hid]
    exact .inr ⟨rfl, rfl, rfl⟩)
  refine h.local (i := i) hs (fun j hj => by simp [hj]) rfl ?_ ?_ ?_ ?_ ?_ ?_
  · intro key j
    by_cases hat : key = call.key ∧ j = call.currIdx
    · obtain ⟨rfl, rfl⟩ := hat
      refine .vote (x := cmd.content) (a := i) (b := tempCmd.acceptedProposal) hproposed hle ?_
        ⟨?_, ?_⟩ hid (fun a' ha => by simp [ha])
      · rw [hsynod, synodOf_accepted, hacc, hid]
      · rw [advance_promise, if_pos rfl, hstore, recordedLog_promise hcl, if_pos ⟨rfl, rfl⟩, hmin]
      · rw [advance_vote, if_pos rfl, hstore, recordedLog_vote hcl, if_pos ⟨rfl, rfl⟩]
        exact Command.vote_eq_some.mpr ⟨hfilled.num, hacc, rfl⟩
    · refine .same ?_ (fun a => ?_)
      · rw [hsynod]
        exact synodOf_cons_of_not_concerns (fun hc => hat ⟨hc.1.symm, hc.2.symm⟩)
      · by_cases ha : a = i
        · subst ha
          rw [advance_promise, if_pos rfl, hstore, recordedLog_promise hcl, if_neg hat,
            advance_vote, if_pos rfl, hstore, recordedLog_vote hcl, if_neg hat]
          exact ⟨rfl, rfl⟩
        · simp [ha]
  · rw [MpSystem.advance_servers, if_pos rfl, hstore]
    exact recordedLog_slots (h.filled i) hcl (.inr hfilled)
  · exact fun key j b r v hp => .inl (hold key j b r v hp)
  · exact fun src c request hp => .inl ((s.payload_advance events hb src c).symm.trans hp)
  · intro c hc
    rw [MpSystem.advance_servers, if_pos rfl] at hc
    exact (hnext c hc).mono hext (fun key j b round v hp => hold key j b _ v hp)
  · intro j key k content hm
    rw [MpSystem.advance_history, hevents, List.append_assoc] at hm
    rcases List.mem_append.mp hm with hm | hm
    · obtain ⟨rfl, rfl, hc⟩ := hrecorded j key k content hm
      exact .inr ⟨_, (hc.trans hid) ▸ hchosen⟩
    · exact .inl (by simpa using hm)

end Record

end KeyValueStore
