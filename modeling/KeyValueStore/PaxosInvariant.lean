import KeyValueStore.SafeSteps

/-! The invariant of safe runs: every message and every call in progress is
backed by what the synod of its slot says. -/

namespace KeyValueStore

variable {n : ℕ} {s t : MpSystem n} {a : MpAction n}

section Backing

/-- A command that was accepted at the slot. -/
structure Filled (key : Bytes) (i : ℕ) (c : Command) : Prop where
  num : 0 ≤ c.acceptedProposal.proposalNum
  index : c.index.toNat = i
  key_eq : cStr c.key = key
  key_ne : c.key ≠ []
  id : c.commandId ≠ 0

def SlotFilled (key : Bytes) (i : ℕ) (c : Command) : Prop :=
  c.acceptedProposal.proposalNum = -1 ∨ Filled key i c

theorem slotFilled_slotPredicate : SlotPredicate SlotFilled where
  empty _ _ _ := .inl rfl
  promised _ _ _ _ h := h.imp_right (fun h => ⟨h.num, h.index, h.key_eq, h.key_ne, h.id⟩)
  started _ _ _ _ _ hi h := h.imp_right (fun h => ⟨h.num, hi, h.key_eq, h.key_ne, h.id⟩)

structure RequestBacked (s : MpSystem n) (request : PaxosRequest) : Prop where
  key : request.key ≠ []
  id : request.commandId ≠ 0
  proposed : request.mptype = .accept → ∃ r, (synodOf s.history (cStr request.key)
    request.slot).proposed request.proposal r request.commandId

inductive ReplyBacked (s : MpSystem n) (rpc : Rpc n) (request : PaxosRequest) (c : Command) : Prop
  | prepareFree (htype : request.mptype = .prepare) (hcode : c.code = .ack)
      (hnum : c.acceptedProposal.proposalNum = -1)
      (hp : (synodOf s.history (cStr request.key) request.slot).promise rpc.dst request.proposal
        (rpc.src, rpc.call) none)
  | prepareReport (htype : request.mptype = .prepare) (hcode : c.code = .ack)
      (hfilled : Filled (cStr request.key) request.slot c)
      (hp : (synodOf s.history (cStr request.key) request.slot).promise rpc.dst request.proposal
        (rpc.src, rpc.call) (some (c.acceptedProposal, c.commandId)))
  | accept (htype : request.mptype = .accept) (hcode : c.code = .ack)
      (hv : (synodOf s.history (cStr request.key) request.slot).vote rpc.dst request.proposal
        request.commandId)
  | nack (hcode : c.code = .nack)

/-- Half of the other servers accepted the command under the proposal. -/
def RemotelyAccepted (s : MpSystem n) (i : Fin n) (key : Bytes) (idx : ℕ) (p : Proposal)
    (commandId : UInt32) : Prop :=
  ∃ order : List (Fin n), order.Nodup ∧ i ∉ order ∧ n / 2 ≤ order.length ∧
    ∀ a ∈ order, (synodOf s.history key idx).vote a p commandId

def PhaseBacked (s : MpSystem n) (i : Fin n) (call : InsertCall) : Prop :=
  match call.phase with
  | .preparing round own => (∀ v ∈ own, 0 ≤ v.1.proposalNum) ∧
      (synodOf s.history call.key call.currIdx).promise i call.origCmd.acceptedProposal (i, round)
        (idVote own) ∧
      ∀ key j c w, ¬ (synodOf s.history key j).proposed c (i, round) w
  | .accepting round _ sentCmd => Filled call.key call.currIdx sentCmd ∧
      (synodOf s.history call.key call.currIdx).proposed sentCmd.acceptedProposal (i, round)
        sentCmd.commandId
  | .proposed round tempCmd => Filled call.key call.currIdx tempCmd ∧
      tempCmd.minProposalNum = tempCmd.acceptedProposal ∧
      tempCmd.acceptedProposal = call.origCmd.acceptedProposal ∧
      (synodOf s.history call.key call.currIdx).proposed tempCmd.acceptedProposal (i, round)
        tempCmd.commandId ∧
      RemotelyAccepted s i call.key call.currIdx tempCmd.acceptedProposal tempCmd.commandId
  | _ => True

structure CallBacked (s : MpSystem n) (i : Fin n) (call : InsertCall) : Prop where
  key : call.origCmd.key ≠ []
  id : call.origCmd.commandId ≠ 0
  phase : PhaseBacked s i call

structure PaxosInv (s : MpSystem n) : Prop where
  traffic : Traffic s
  slots : ∀ key i, SlotRefines s key i
  filled : ∀ a, (s.servers a).store.Slots SlotFilled
  rounds : ∀ key i b r v, (synodOf s.history key i).proposed b r v →
    r.2 < (s.servers r.1).broadcasts.length
  requests : ∀ src call request, s.payload src call = some request → RequestBacked s request
  replies : ∀ rpc reply request, (rpc, reply) ∈ s.replies →
    s.payload rpc.src rpc.call = some request →
    ReplyBacked s rpc request (extractResponseFromPayload reply)
  calls : ∀ i call, (s.servers i).call = some call → CallBacked s i call
  recorded : ∀ i key j content, .recorded i key j content ∈ s.history →
    ∃ b, (synodOf s.history key j).Chosen Majority b content.commandId

end Backing

section Stable

variable {key : Bytes} {i : ℕ}

theorem Extends.promise_mono (h : Extends s t) {a : Fin n} {b : Proposal} {r : Fin n × ℕ}
    {l : Option (Proposal × UInt32)} (hp : (synodOf s.history key i).promise a b r l) :
    (synodOf t.history key i).promise a b r l := by
  obtain ⟨own, byHandler, hm, rfl⟩ := hp
  exact ⟨own, byHandler, h.mem_history hm, rfl⟩

theorem Extends.proposed_mono (h : Extends s t) {b : Proposal} {r : Fin n × ℕ} {v : UInt32}
    (hp : (synodOf s.history key i).proposed b r v) : (synodOf t.history key i).proposed b r v := by
  obtain ⟨content, hm, rfl⟩ := hp
  exact ⟨content, h.mem_history hm, rfl⟩

theorem Extends.vote_mono (h : Extends s t) {a : Fin n} {b : Proposal} {v : UInt32}
    (hv : (synodOf s.history key i).vote a b v) : (synodOf t.history key i).vote a b v := by
  obtain ⟨cmd, byHandler, hm, rfl, rfl⟩ := hv
  exact ⟨cmd, byHandler, h.mem_history hm, rfl, rfl⟩

theorem Extends.chosen_mono (h : Extends s t) {b : Proposal} {v : UInt32}
    (hc : (synodOf s.history key i).Chosen Majority b v) :
    (synodOf t.history key i).Chosen Majority b v := by
  obtain ⟨q, hq, hall⟩ := hc
  exact ⟨q, hq, fun a ha => h.vote_mono (hall a ha)⟩

theorem RequestBacked.mono (he : Extends s t) {request : PaxosRequest}
    (h : RequestBacked s request) : RequestBacked t request where
  key := h.key
  id := h.id
  proposed ht := (h.proposed ht).imp (fun _ hp => he.proposed_mono hp)

theorem ReplyBacked.mono (he : Extends s t) {rpc : Rpc n} {request : PaxosRequest} {c : Command}
    (h : ReplyBacked s rpc request c) : ReplyBacked t rpc request c := by
  cases h with
  | prepareFree htype hcode hnum hp => exact .prepareFree htype hcode hnum (he.promise_mono hp)
  | prepareReport htype hcode hfilled hp =>
    exact .prepareReport htype hcode hfilled (he.promise_mono hp)
  | accept htype hcode hv => exact .accept htype hcode (he.vote_mono hv)
  | nack hcode => exact .nack hcode

theorem RemotelyAccepted.mono (he : Extends s t) {j : Fin n} {p : Proposal} {v : UInt32}
    (h : RemotelyAccepted s j key i p v) : RemotelyAccepted t j key i p v := by
  obtain ⟨order, hnd, hj, hlen, hall⟩ := h
  exact ⟨order, hnd, hj, hlen, fun a ha => he.vote_mono (hall a ha)⟩

theorem CallBacked.mono (he : Extends s t) {j : Fin n} {call : InsertCall}
    (hnew : ∀ key i b round v, (synodOf t.history key i).proposed b (j, round) v →
      (synodOf s.history key i).proposed b (j, round) v)
    (h : CallBacked s j call) : CallBacked t j call where
  key := h.key
  id := h.id
  phase := by
    have hp := h.phase
    unfold PhaseBacked at hp ⊢
    split
    next hphase =>
      simp only [hphase] at hp
      exact ⟨hp.1, he.promise_mono hp.2.1, fun key i c w hc => hp.2.2 key i c w (hnew _ _ _ _ _ hc)⟩
    next hphase =>
      simp only [hphase] at hp
      exact ⟨hp.1, he.proposed_mono hp.2⟩
    next hphase =>
      simp only [hphase] at hp
      exact ⟨hp.1, hp.2.1, hp.2.2.1, he.proposed_mono hp.2.2.2.1, hp.2.2.2.2.mono he⟩
    next => trivial

/-- What has to be checked of a step; what only grows needs no check. -/
theorem PaxosInv.next (h : PaxosInv s) (he : Extends s t) (ht : Traffic t)
    (hslots : ∀ key i, SlotStep s t key i)
    (hfilled : ∀ a, (t.servers a).store.Slots SlotFilled)
    (hrounds : ∀ key i b r v, (synodOf t.history key i).proposed b r v →
      (synodOf s.history key i).proposed b r v ∨ r.2 < (t.servers r.1).broadcasts.length)
    (hrequests : ∀ src call request, t.payload src call = some request →
      s.payload src call = some request ∨ RequestBacked t request)
    (hreplies : ∀ rpc reply, (rpc, reply) ∈ t.replies → (rpc, reply) ∈ s.replies ∨
      ∀ request, t.payload rpc.src rpc.call = some request →
        ReplyBacked t rpc request (extractResponseFromPayload reply))
    (hcalls : ∀ j call, (t.servers j).call = some call → CallBacked t j call)
    (hrecorded : ∀ j key i content, .recorded j key i content ∈ t.history →
      .recorded j key i content ∈ s.history ∨
        ∃ b, (synodOf t.history key i).Chosen Majority b content.commandId) : PaxosInv t where
  traffic := ht
  slots key i := (h.slots key i).step (hslots key i)
  filled := hfilled
  rounds key i b r v hp := by
    rcases hrounds key i b r v hp with hp | hlt
    · exact (h.rounds key i b r v hp).trans_le (he.length_le r.1)
    · exact hlt
  requests src call request hp := by
    rcases hrequests src call request hp with hp | hb
    · exact (h.requests src call request hp).mono he
    · exact hb
  replies rpc reply request hr hp := by
    rcases hreplies rpc reply hr with hr | hb
    · obtain ⟨_, r, hpr⟩ := h.traffic.rpcs rpc (.inr ⟨reply, hr⟩)
      have hsame : r = request := Option.some.inj ((he.payload _ _ r hpr).symm.trans hp)
      exact (h.replies rpc reply request hr (hsame ▸ hpr)).mono he
    · exact hb request hp
  calls := hcalls
  recorded j key i content hm := by
    rcases hrecorded j key i content hm with hm | hb
    · exact (h.recorded j key i content hm).imp (fun _ hc => he.chosen_mono hc)
    · exact hb

end Stable

section Local

variable {i : Fin n}

theorem PaxosInv.local (h : PaxosInv s) (hs : MpSteps s a t)
    (hother : ∀ j, j ≠ i → t.servers j = s.servers j) (hreplies : t.replies = s.replies)
    (hslots : ∀ key j, SlotStep s t key j) (hfilled : (t.servers i).store.Slots SlotFilled)
    (hproposed : ∀ key j b r v, (synodOf t.history key j).proposed b r v →
      (synodOf s.history key j).proposed b r v ∨
        r.1 = i ∧ r.2 < (t.servers i).broadcasts.length)
    (hrequests : ∀ src call request, t.payload src call = some request →
      s.payload src call = some request ∨ RequestBacked t request)
    (hcall : ∀ call, (t.servers i).call = some call → CallBacked t i call)
    (hrecorded : ∀ j key k content, .recorded j key k content ∈ t.history →
      .recorded j key k content ∈ s.history ∨
        ∃ b, (synodOf t.history key k).Chosen Majority b content.commandId) : PaxosInv t := by
  have hext := hs.extends
  refine h.next hext (h.traffic.step hs) hslots ?_ ?_ hrequests ?_ ?_ hrecorded
  · intro j
    by_cases hj : j = i
    · exact hj ▸ hfilled
    · exact hother j hj ▸ h.filled j
  · rintro key j b r v hp
    refine (hproposed key j b r v hp).imp_right (fun ⟨hr, hlt⟩ => ?_)
    rw [hr]
    exact hlt
  · exact fun rpc reply hr => .inl (hreplies ▸ hr)
  · intro j call hc
    by_cases hj : j = i
    · subst hj
      exact hcall call hc
    · refine (h.calls j call (hother j hj ▸ hc)).mono hext (fun key k b round v hp => ?_)
      exact (hproposed key k b (j, round) v hp).resolve_right (fun hr => hj hr.1)

theorem PaxosInv.quiet (h : PaxosInv s) {server : MpServer} {events : List (MpEvent n)}
    (hs : MpSteps s a (s.advance i server events))
    (he : ∀ e ∈ events, (∀ key j, ¬ e.Concerns key j) ∧ ∀ j key k c, e ≠ .recorded j key k c)
    (hb : server.broadcasts = (s.servers i).broadcasts)
    (hviews : ∀ key j, server.store.promise key j = (s.servers i).store.promise key j ∧
      server.store.vote key j = (s.servers i).store.vote key j)
    (hfilled : server.store.Slots SlotFilled)
    (hcall : ∀ call, server.call = some call → CallBacked s i call) :
    PaxosInv (s.advance i server events) := by
  have hsynod : ∀ key j, synodOf (s.advance i server events).history key j =
      synodOf s.history key j := fun key j =>
    synodOf_append_of_not_concerns (fun e hm => (he e hm).1 key j)
  have hi : (s.advance i server events).servers i = server := by simp
  refine h.local hs (fun j hj => by simp [hj]) rfl (fun key j => ?_) (hi.symm ▸ hfilled) ?_ ?_ ?_ ?_
  · refine .same (hsynod key j) (fun a => ?_)
    simp only [MpSystem.promise, MpSystem.vote, MpSystem.advance_servers]
    split
    next ha => exact ha ▸ hviews key j
    next => exact ⟨rfl, rfl⟩
  · exact fun key j b r v hp => .inl (hsynod key j ▸ hp)
  · exact fun src call request hp => .inl ((s.payload_advance events hb src call).symm.trans hp)
  · rw [hi]
    exact fun call hc => (hcall call hc).mono (extends_advance events hb)
      (fun key j b round v hp => hsynod key j ▸ hp)
  · intro j key k content hm
    rcases List.mem_append.mp hm with hm | hm
    · exact absurd rfl ((he _ hm).2 j key k content)
    · exact .inl hm

end Local

end KeyValueStore
