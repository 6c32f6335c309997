import KeyValueStore.LoneProposer
import Mathlib.Data.Finset.Card

/-! The bounds of a log. Every subscript is in range, as each index on its way from
slot to PREPARE reply to ACCEPT was once picked from a set of free slots. But the
set is filled once, and only shrinks. -/

namespace KeyValueStore

variable {n : ℕ} {s t : MpSystem n} {a : MpAction n}

section Bounds

/-- The slots that the step subscripts are in the log, and it dereferences `begin()`
of no empty set. -/
def InBounds (s : MpSystem n) : MpAction n → Prop
  | .insertCommand i request _ types => (s.servers i).call = none →
      ((s.servers i).store.lookup types (cStr request.key)).firstAvailable ≠ none
  | .startRound i => ∀ call ∈ (s.servers i).call, call.origCmd.index.toNat < initCommandLength
  | .handle k _ => ∀ rpc ∈ s.calls[k]?, ∀ request ∈ s.payload rpc.src rpc.call,
      request.slot < initCommandLength
  | .finish i => ∀ call ∈ (s.servers i).call, call.currIdx < initCommandLength ∧
      (call.Defeated → ∀ cl ∈ (s.servers i).store.logMap call.key,
        (cl.eraseSlot call.currIdx).firstAvailable ≠ none)
  | .finishPrepare _ _ _ | .finishAccept _ _ _ | .answer _ => True

def filledSlots (st : MpStore) (key : Bytes) : Finset ℕ :=
  (Finset.range initCommandLength).filter (fun i => (st.vote key i).isSome = true)

/-- When a step picks a slot, the server's log of the key has one that is not
filled, apart from the one that the step itself fills. -/
def HasRoom (s : MpSystem n) : MpAction n → Prop
  | .insertCommand i request _ _ => (s.servers i).call = none →
      (filledSlots (s.servers i).store (cStr request.key)).card < initCommandLength
  | .finish i => ∀ call ∈ (s.servers i).call, call.Defeated →
      (insert call.currIdx (filledSlots (s.servers i).store call.key)).card < initCommandLength
  | _ => True

/-- Where the result of an ACCEPT phase may be a new command, whose index is never set,
the command is told from the one that was sent, or the index happens to be in range. -/
def KnowsIndex (s : MpSystem n) : MpAction n → Prop
  | .finishAccept i order junk => JunkDiffers s i order junk ∨ junk.index.toNat < initCommandLength
  | _ => True

instance (s : MpSystem n) (a : MpAction n) : Decidable (KnowsIndex s a) :=
  match a with
  | .finishAccept i order junk => inferInstanceAs (Decidable (JunkDiffers s i order junk ∨ _ < _))
  | .insertCommand _ _ _ _ | .startRound _ | .handle _ _ | .finishPrepare _ _ _ | .finish _
  | .answer _ => .isTrue trivial

end Bounds

section Indices

/-- The index of a command that some acceptor accepted, and of every NACK. -/
def ReplyIndexed (c : Command) : Prop :=
  c.code = .nack ∨ c.acceptedProposal.proposalNum ≠ -1 → c.index.toNat < initCommandLength

def SlotIndexed (_ : Bytes) (j : ℕ) (c : Command) : Prop :=
  j < initCommandLength → c.acceptedProposal.proposalNum ≠ -1 → c.index.toNat < initCommandLength

theorem slotIndexed_slotPredicate : SlotPredicate SlotIndexed where
  empty _ _ _ _ hne := absurd rfl hne
  promised _ _ _ _ h := h
  started _ _ _ _ _ hindex _ hj _ := hindex ▸ hj

structure Indexed (s : MpSystem n) : Prop where
  slots : ∀ b, (s.servers b).store.Slots SlotIndexed
  sent : ∀ src call request, s.payload src call = some request → request.slot < initCommandLength
  replies : ∀ rpc reply, (rpc, reply) ∈ s.replies → ReplyIndexed (extractResponseFromPayload reply)
  proposed : ∀ b call, (s.servers b).call = some call → ∀ round tempCmd,
    call.phase = .proposed round tempCmd → tempCmd.index.toNat < initCommandLength

theorem indexed_init : Indexed (MpSystem.init : MpSystem n) where
  slots _ := MpStore.slots_empty
  sent := by simp [MpSystem.payload, MpSystem.init, MpServer.start]
  replies := by simp [MpSystem.init]
  proposed := by simp [MpSystem.init, MpServer.start]

variable {b : Fin n} {call : InsertCall}

theorem Indexed.inHand (h : Indexed s) (ht : Traffic s) (hcall : (s.servers b).call = some call)
    {c : Command} (hc : c ∈ s.inHand b call) (hnum : c.acceptedProposal.proposalNum ≠ -1) :
    c.index.toNat < initCommandLength := by
  cases hphase : call.phase with
  | preparing round own =>
    obtain ⟨rpc, reply, hr, _, _, rfl⟩ := (mem_inHand_preparing hphase).mp hc
    exact h.replies rpc reply hr (.inr hnum)
  | accepting round acceptCall sentCmd =>
    simp only [MpSystem.inHand, hphase, List.mem_singleton] at hc
    subst hc
    exact h.sent b acceptCall _ (ht.accepting hcall hphase).2.2
  | proposed round tempCmd =>
    simp only [MpSystem.inHand, hphase, List.mem_singleton] at hc
    subst hc
    exact h.proposed b call hcall round c hphase
  | roundStart => simp [MpSystem.inHand, hphase] at hc
  | returned => simp [MpSystem.inHand, hphase] at hc

theorem Traffic.index_lt (ht : Traffic s) (hcall : (s.servers b).call = some call) :
    call.origCmd.index.toNat < initCommandLength := by
  have hfits := (ht.servers b).call call hcall
  rw [hfits.index]
  exact hfits.lt

theorem Indexed.slots_step (h : Indexed s) (ht : Traffic s) (hs : MpSteps s a t) (b : Fin n) :
    (t.servers b).store.Slots SlotIndexed := by
  have hold := h.slots b
  cases hs.storeStep (b := b) with
  | kept hlog => exact hold.congr hlog
  | allocated hstart => exact hstart.slots slotIndexed_slotPredicate hold
  | started hst => exact updateLocalValues_slots slotIndexed_slotPredicate hold hst
  | @handled u rpc request reply hrpc hreq hh =>
    refine hh.slots hold slotIndexed_slotPredicate (fun _ _ _ _ => ?_)
    exact h.sent _ _ _ hreq
  | recorded hcall hcl hst hcmd =>
    rw [hst]
    refine recordedLog_slots hold hcl (fun _ hnum => ?_)
    rcases hcmd with hin | ⟨p, rfl⟩
    · exact h.inHand ht hcall hin hnum
    · exact ht.index_lt hcall

/-- What an acceptor accepted is reported with its index; a NACK has none, that is 0. -/
theorem Indexed.reply (h : Indexed s) {u : Uninit} {rpc : Rpc n} {request : PaxosRequest}
    {st : MpStore} {reply : PaxosResponse} (hreq : s.payload rpc.src rpc.call = some request)
    (hh : Handles u (s.servers rpc.dst).store request st reply) :
    ReplyIndexed (extractResponseFromPayload reply) := by
  have hslot := h.sent _ _ _ hreq
  have hzero : (0 : UInt32).toNat < initCommandLength := by decide
  cases hh with
  | prepareAck htype hlt =>
    rintro (hcode | hnum)
    · simp [extractResponseFromPayload, prepareReply] at hcode
    · have hindexed := (h.slots rpc.dst).lookup slotIndexed_slotPredicate u.types
        (requestKey u request) request.slot hslot
      apply hindexed
      intro he
      apply hnum
      have hround : (requestSlot u (s.servers rpc.dst).store request).acceptedProposal.proposalNum
        = -1 := he
      simp [extractResponseFromPayload, prepareReply, hround]
  | prepareNack => exact fun _ => hzero
  | acceptAck => exact fun _ => hslot
  | acceptNack => exact fun _ => hzero

/-- The index of an ACCEPT is the call's own, or that of a command accepted elsewhere. -/
theorem Indexed.chosen (h : Indexed s) (ht : Traffic s) {round : ℕ}
    {own : Option (Proposal × Content)} {order : List (Fin n)} {junk tempCmd sentCmd : Command}
    {vec : List Command} (hcall : (s.servers b).call = some call)
    (hphase : call.phase = .preparing round own) (hvec : s.collect b round order = some vec)
    (htemp : getHighestAcceptedProposal junk vec true = some tempCmd) (hcode : tempCmd.code ≠ .nack)
    (hsent : sentCmd = { (if tempCmd.code = .ok then call.origCmd else tempCmd) with
      mpReqType := .accept, acceptedProposal := call.origCmd.acceptedProposal }) :
    sentCmd.index.toNat < initCommandLength := by
  subst hsent
  by_cases hok : tempCmd.code = .ok
  · simp only [hok, if_true]
    exact ht.index_lt hcall
  · simp only [hok, if_false]
    have hsel := (ht.prepareSelected hcall hphase hvec htemp).1
    obtain ⟨hmem, hnum⟩ := hsel.reported hcode hok
    obtain ⟨k, _, reply, hr, he⟩ := MpSystem.mem_of_collect hvec hmem
    rw [he] at hnum ⊢
    exact h.replies _ _ hr (.inr hnum)

/-- The index of what an ACCEPT phase returns. -/
theorem Indexed.accepted (h : Indexed s) (ht : Traffic s) {round acceptCall : ℕ}
    {order : List (Fin n)} {junk tempCmd sentCmd : Command} {vec : List Command}
    (hcall : (s.servers b).call = some call)
    (hphase : call.phase = .accepting round acceptCall sentCmd)
    (hvec : s.collect b acceptCall order = some vec)
    (htemp : getHighestAcceptedProposal junk vec false = some tempCmd)
    (hid : tempCmd.commandId = sentCmd.commandId)
    (hjunk : JunkDiffers s b order junk ∨ junk.index.toNat < initCommandLength) :
    tempCmd.index.toNat < initCommandLength := by
  obtain ⟨hsel, hvecFits⟩ := ht.acceptSelected hcall hphase hvec htemp
  obtain ⟨htype, _, hpayload⟩ := ht.accepting hcall hphase
  have hsent : sentCmd.index.toNat < initCommandLength := h.sent b acceptCall _ hpayload
  have hrepeats : ∀ {head rest}, vec = head :: rest → (∀ c ∈ vec, c.code ≠ .nack) →
      (selectHighest head rest).index.toNat < initCommandLength := by
    intro head rest he hno
    have hmem : selectHighest head rest ∈ vec := he ▸ (selectHighest_spec head rest).1
    rw [((hvecFits _ hmem).repeats htype (hno _ hmem)).index]
    exact hsent
  cases hsel with
  | @allNack last _ _ hall hlast =>
    obtain ⟨k, _, reply, hr, rfl⟩ := MpSystem.mem_of_collect hvec hlast
    exact h.replies _ _ hr (.inl (hall _ hlast))
  | acceptNack _ _ hnack hack =>
    rcases hjunk with hdiffers | hlt
    · have hne := hdiffers call hcall
      simp only [hphase] at hne
      exact absurd hid (hne vec hvec hnack hack)
    · exact hlt
  | prepareNack hphase' => simp at hphase'
  | free he hno => exact hrepeats he hno
  | best he hno => exact hrepeats he hno

theorem Indexed.sent_step (h : Indexed s) (ht : Traffic s) (hs : MpSteps s a t) {src : Fin n}
    {k : ℕ} {request : PaxosRequest} (hreq : t.payload src k = some request) :
    request.slot < initCommandLength := by
  have hadvance : ∀ {i : Fin n} {server : MpServer} {events : List (MpEvent n)},
      (s.advance i server events).payload src k = some request →
      server.broadcasts = (s.servers i).broadcasts → request.slot < initCommandLength := by
    intro i server events hreq hb
    rw [MpSystem.payload_advance s events hb] at hreq
    exact h.sent src k request hreq
  have hbroadcast : ∀ {i : Fin n} {server : MpServer} {events : List (MpEvent n)} {c : Command},
      ((s.advance i server events).broadcast i (makeMpRequestPayload c)).payload src k =
        some request → server.broadcasts = (s.servers i).broadcasts →
      c.index.toNat < initCommandLength → request.slot < initCommandLength := by
    intro i server events c hreq hb hc
    rw [MpSystem.payload_broadcast] at hreq
    split at hreq
    next =>
      obtain rfl := Option.some.inj hreq
      exact hc
    next => exact hadvance hreq hb
  cases hs with
  | startRound hcall _ horig =>
    subst horig
    exact hbroadcast hreq rfl (ht.index_lt hcall)
  | prepareSend hcall hphase hvec htemp hcode hsent =>
    exact hbroadcast hreq rfl (h.chosen ht hcall hphase hvec htemp hcode hsent)
  | handle =>
    rw [MpSystem.payload_handled] at hreq
    exact h.sent src k request hreq
  | insertCommand | prepareRetry | acceptDone | acceptRetry | own | retry | defeated | answer =>
    exact hadvance hreq rfl

theorem Indexed.replies_step (h : Indexed s) (hs : MpSteps s a t) {rpc : Rpc n}
    {reply : PaxosResponse} (hr : (rpc, reply) ∈ t.replies) :
    ReplyIndexed (extractResponseFromPayload reply) := by
  cases hs with
  | handle hrpc hk hreq hslot hh =>
    rcases List.mem_cons.mp hr with he | hr
    · cases he
      exact h.reply hreq hh
    · exact h.replies rpc reply hr
  | _ => exact h.replies rpc reply hr

theorem Indexed.proposed_step (h : Indexed s) (ht : Traffic s) (hok : KnowsIndex s a)
    (hs : MpSteps s a t) {call' : InsertCall} (hc : (t.servers b).call = some call') {round : ℕ}
    {tempCmd : Command} (hphase' : call'.phase = .proposed round tempCmd) :
    tempCmd.index.toNat < initCommandLength := by
  have hother : (s.servers b).call = some call' → tempCmd.index.toNat < initCommandLength :=
    fun hold => h.proposed b call' hold round tempCmd hphase'
  cases hs with
  | insertCommand hidle hstart =>
    rcases call_advance hc with ⟨_, he⟩ | hold
    · obtain rfl := Option.some.inj he
      rw [hstart.phase] at hphase'
      cases hphase'
    · exact hother hold
  | startRound | prepareSend =>
    rcases call_advance_broadcast hc with ⟨_, he⟩ | hold
    · obtain rfl := Option.some.inj he
      cases hphase'
    · exact hother hold
  | handle => exact hother (call_handled hc)
  | acceptDone hcall hphase hvec htemp hid =>
    rcases call_advance hc with ⟨rfl, he⟩ | hold
    · obtain rfl := Option.some.inj he
      cases hphase'
      exact h.accepted ht hcall hphase hvec htemp hid hok
    · exact hother hold
  | prepareRetry | acceptRetry | own | retry | defeated =>
    rcases call_advance hc with ⟨_, he⟩ | hold
    · obtain rfl := Option.some.inj he
      cases hphase'
    · exact hother hold
  | answer =>
    rcases call_advance hc with ⟨_, he⟩ | hold
    · simp at he
    · exact hother hold

theorem Indexed.step (h : Indexed s) (ht : Traffic s) (hok : KnowsIndex s a) (hs : MpSteps s a t) :
    Indexed t where
  slots := h.slots_step ht hs
  sent _ _ _ hreq := h.sent_step ht hs hreq
  replies _ _ hr := h.replies_step hs hr
  proposed _ _ hc _ _ hphase := h.proposed_step ht hok hs hc hphase

theorem indexed_of_reachable (h : ReachableWhen mpStep KnowsIndex .init s) : Indexed s :=
  h.invariant indexed_init (fun _ _ _ hr hu ha he =>
    hu.step (traffic_of_reachable hr) ha (mpStep_steps he))

end Indices

section Room

variable {st : MpStore} {key : Bytes} {cl : CommandsList}

theorem firstAvailable_ne_none :
    cl.firstAvailable ≠ none ↔ ∃ i < initCommandLength, cl.nextAvailableSlot i = true := by
  simp [CommandsList.firstAvailable, List.find?_eq_none, List.mem_range'_1]

theorem card_lt_iff {m : ℕ} {T : Finset ℕ} (hT : T ⊆ Finset.range m) :
    T.card < m ↔ ∃ i < m, i ∉ T := by
  constructor
  · intro hlt
    by_contra hno
    have hsub : Finset.range m ⊆ T := fun i hi =>
      by_contra (fun hm => hno ⟨i, Finset.mem_range.mp hi, hm⟩)
    have hle := Finset.card_le_card hsub
    rw [Finset.card_range] at hle
    omega
  · rintro ⟨i, hi, hm⟩
    have hss : T ⊂ Finset.range m :=
      Finset.ssubset_iff_subset_ne.mpr ⟨hT, fun he => hm (he ▸ Finset.mem_range.mpr hi)⟩
    have hlt := Finset.card_lt_card hss
    rwa [Finset.card_range] at hlt

theorem filledSlots_subset : filledSlots st key ⊆ Finset.range initCommandLength :=
  Finset.filter_subset _ _

theorem MpStore.Accounted.available_iff (h : st.Accounted) {i : ℕ} (hi : i < initCommandLength) :
    st.available key i = true ↔ i ∉ filledSlots st key := by
  have hslot := h key i hi
  rw [filledSlots, Finset.mem_filter, Option.isSome_iff_ne_none, ← hslot]
  simp [hi]

theorem MpStore.Accounted.room_iff (h : st.Accounted) (types : ℕ → RequestType) (key : Bytes) :
    (st.lookup types key).firstAvailable ≠ none ↔
      (filledSlots st key).card < initCommandLength := by
  rw [firstAvailable_ne_none, card_lt_iff filledSlots_subset]
  refine exists_congr (fun i => and_congr_right (fun hi => ?_))
  rw [← MpStore.available_eq_lookup]
  exact h.available_iff hi

/-- As `room_iff`, for the slots left once one more is filled. -/
theorem MpStore.Accounted.room_erase_iff (h : st.Accounted) (hcl : st.logMap key = some cl) {k : ℕ}
    (hk : k < initCommandLength) : (cl.eraseSlot k).firstAvailable ≠ none ↔
      (insert k (filledSlots st key)).card < initCommandLength := by
  have hsub : insert k (filledSlots st key) ⊆ Finset.range initCommandLength :=
    Finset.insert_subset (Finset.mem_range.mpr hk) filledSlots_subset
  rw [firstAvailable_ne_none, card_lt_iff hsub]
  refine exists_congr (fun i => and_congr_right (fun hi => ?_))
  have havailable : st.available key i = cl.nextAvailableSlot i := by
    simp only [MpStore.available, hcl]
  rw [CommandsList.eraseSlot_nextAvailableSlot, Finset.mem_insert, not_or,
    ← h.available_iff hi, havailable]
  by_cases hik : i = k <;> simp [hik]

end Room

/-- The subscripts are in range in every run; a free slot is found while not all are filled. -/
theorem logBounds_iff (s : MpSystem n) (a : MpAction n)
    (h : ReachableWhen mpStep KnowsIndex .init s) : InBounds s a ↔ HasRoom s a := by
  have ht := traffic_of_reachable h
  have hacc := allAccounted_of_reachable h
  cases a with
  | insertCommand i request rand types =>
    exact forall_congr' (fun _ => (hacc i).room_iff types (cStr request.key))
  | startRound i => exact ⟨fun _ => trivial, fun _ call hcall => ht.index_lt hcall⟩
  | handle k u =>
    exact ⟨fun _ => trivial, fun _ rpc _ request hreq => (indexed_of_reachable h).sent _ _ _ hreq⟩
  | finish i =>
    refine forall_congr' (fun call => forall_congr' (fun hcall => ?_))
    have hfits := (ht.servers i).call call hcall
    obtain ⟨cl, hcl⟩ := Option.isSome_iff_exists.mp hfits.log
    have hroom := (hacc i).room_erase_iff hcl hfits.lt
    simp only [hcl, Option.mem_def, Option.some.injEq, forall_eq', hroom, hfits.lt, true_and]
  | finishPrepare => exact Iff.rfl
  | finishAccept => exact Iff.rfl
  | answer => exact Iff.rfl

/-- Server 1 has to give up slot 0 to the command of server 0. -/
theorem learningRun_inBounds : ∃ s : MpSystem 3,
    runWhen mpStep KnowsIndex .init (learningRun.take 13) = some s ∧ InBounds s (.finish 1) := by
  obtain ⟨s, hs, call, hcall, hkey, hidx, hempty⟩ := exists_of_run
    (P := fun s : MpSystem 3 => ∃ call ∈ (s.servers 1).call, call.key = [107] ∧ call.currIdx = 0 ∧
      (s.servers 1).store.vote [107] 2 = none)
    (show (runWhen mpStep KnowsIndex .init (learningRun.take 13)).any _ = true by decide +kernel)
  refine ⟨s, hs, (logBounds_iff s (.finish 1) (reachableWhen_of_runWhen hs)).mpr ?_⟩
  intro call' hcall' _
  obtain rfl : call = call' := Option.some.inj (hcall.symm.trans hcall')
  have hlt : 2 < initCommandLength := by decide
  have hsub : insert 0 (filledSlots (s.servers 1).store [107]) ⊆ Finset.range initCommandLength :=
    Finset.insert_subset (Finset.mem_range.mpr (Nat.zero_lt_of_lt hlt)) filledSlots_subset
  rw [hkey, hidx]
  exact (card_lt_iff hsub).mpr ⟨2, hlt, by simp [filledSlots, hempty]⟩

section Exhaustion

/-- Any number of slots, up to all of them, can be filled by one WRITE after the other. -/
theorem exists_filled (k : ℕ) (hk : k ≤ initCommandLength) :
    ∃ s, Idle s ∧ ∀ j < k, (s.servers 0).store.available [107] j = false := by
  induction k with
  | zero => exact ⟨.init, idle_init, fun j hj => absurd hj (Nat.not_lt_zero j)⟩
  | succ k ih =>
    obtain ⟨s, hs, htaken⟩ := ih (by omega)
    cases hav : (s.servers 0).store.available [107] k with
    | false =>
      refine ⟨s, hs, fun j hj => ?_⟩
      rcases Nat.lt_succ_iff_lt_or_eq.mp hj with hlt | rfl
      · exact htaken j hlt
      · exact hav
    | true =>
      have hfirst : ((s.servers 0).store.lookup readTypes [107]).firstAvailable = some k := by
        apply CommandsList.firstAvailable_eq (by omega)
        · rw [← MpStore.available_eq_lookup, hav]
        · intro j hj
          rw [← MpStore.available_eq_lookup, htaken j hj]
      obtain ⟨t, ht, hrun, hk'⟩ := idle_write hs hfirst
      refine ⟨t, ht, fun j hj => ?_⟩
      rcases Nat.lt_succ_iff_lt_or_eq.mp hj with hlt | rfl
      · exact available_of_reachable hrun (htaken j hlt)
      · exact hk'

theorem fullLog_not_inBounds : ¬ ∀ (n : ℕ) (s : MpSystem n) (a : MpAction n),
    Reachable mpStep .init s → InBounds s a := by
  intro hall
  obtain ⟨s, hs, htaken⟩ := exists_filled initCommandLength le_rfl
  have hbounds := hall 2 s (.insertCommand 0 (putRequest 1 49) 10 readTypes) hs.reached hs.call
  obtain ⟨i, hi, hav⟩ := firstAvailable_ne_none.mp hbounds
  rw [← MpStore.available_eq_lookup] at hav
  have hkey : cStr (putRequest 1 49).key = [107] := by decide
  rw [hkey, htaken i hi] at hav
  simp at hav

end Exhaustion

end KeyValueStore
