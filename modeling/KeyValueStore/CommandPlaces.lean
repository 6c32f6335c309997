import KeyValueStore.DecidedSlots
import KeyValueStore.HandlerRefinement

/-! Where the copies of a command are: in the logs, in ACCEPTs that no one has
handled yet, and with the calls that propose it. Every hop keeps a command at
the key and the slot that it was proposed for. -/

namespace KeyValueStore

variable {n : ℕ} {s t : MpSystem n} {a : MpAction n}

section Copies

/-- The id that a log holds at a slot, 0 where nothing was accepted. -/
def MpStore.commandIdAt (st : MpStore) (key : Bytes) (j : ℕ) : UInt32 :=
  match st.logMap key with
  | some cl => (cl.cmdVec j).commandId
  | none => 0

/-- The commands of others that a call was told, proposes or saw accepted. -/
def MpSystem.inHand (s : MpSystem n) (b : Fin n) (call : InsertCall) : List Command :=
  match call.phase with
  | .preparing round _ => (s.replies.filter (fun r => r.1.src = b ∧ r.1.call = round)).map
      (fun r => extractResponseFromPayload r.2)
  | .accepting _ _ sentCmd => [sentCmd]
  | .proposed _ tempCmd => [tempCmd]
  | .roundStart | .returned => []

inductive Copy (s : MpSystem n) (id : UInt32) : Bytes → ℕ → Prop
  | held {b : Fin n} {key : Bytes} {j : ℕ} (h : (s.servers b).store.commandIdAt key j = id) :
      Copy s id key j
  | sent {rpc : Rpc n} {request : PaxosRequest} (hrpc : rpc ∈ s.calls)
      (hreq : s.payload rpc.src rpc.call = some request) (htype : request.mptype = .accept)
      (hid : request.commandId = id) : Copy s id (cStr request.key) request.slot
  | inHand {b : Fin n} {call : InsertCall} {c : Command} (hcall : (s.servers b).call = some call)
      (hc : c ∈ s.inHand b call) (hid : c.commandId = id) : Copy s id call.key call.currIdx
  | own {b : Fin n} {call : InsertCall} (hcall : (s.servers b).call = some call)
      (hid : call.origCmd.commandId = id) : Copy s id call.key call.currIdx

theorem mem_inHand_preparing {b : Fin n} {call : InsertCall} {round : ℕ}
    {own : Option (Proposal × Content)} (hphase : call.phase = .preparing round own) {c : Command} :
    c ∈ s.inHand b call ↔ ∃ rpc reply, (rpc, reply) ∈ s.replies ∧ rpc.src = b ∧ rpc.call = round ∧
      c = extractResponseFromPayload reply := by
  simp only [MpSystem.inHand, hphase, List.mem_map, List.mem_filter, decide_eq_true_eq]
  constructor
  · rintro ⟨⟨rpc, reply⟩, ⟨hm, hsrc, hcall⟩, rfl⟩
    exact ⟨rpc, reply, hm, hsrc, hcall, rfl⟩
  · rintro ⟨rpc, reply, hm, hsrc, hcall, rfl⟩
    exact ⟨(rpc, reply), ⟨hm, hsrc, hcall⟩, rfl⟩

theorem inHand_congr (h : t.replies = s.replies) (b : Fin n) (call : InsertCall) :
    t.inHand b call = s.inHand b call := by
  unfold MpSystem.inHand
  rw [h]

theorem inHand_eq_nil {b : Fin n} {call : InsertCall}
    (h : call.phase = .roundStart ∨ call.phase = .returned) : s.inHand b call = [] := by
  unfold MpSystem.inHand
  rcases h with h | h <;> rw [h]

theorem commandIdAt_ne_zero {st : MpStore} {key : Bytes} {j : ℕ} (h : st.commandIdAt key j ≠ 0) :
    ∃ cl, st.logMap key = some cl ∧ (cl.cmdVec j).commandId = st.commandIdAt key j := by
  unfold MpStore.commandIdAt at h ⊢
  split
  next cl hcl => exact ⟨cl, hcl, rfl⟩
  next hnone => simp [hnone] at h

theorem recordedLog_commandIdAt {st : MpStore} {cl : CommandsList} {cmd : Command} {key : Bytes}
    {currIdx : ℕ} (hcl : st.logMap key = some cl) (k : Bytes) (j : ℕ) :
    (st.setLog key (recordedLog cl currIdx cmd)).commandIdAt k j =
      if k = key ∧ j = currIdx then cmd.commandId else st.commandIdAt k j := by
  by_cases hk : k = key
  · by_cases hj : j = currIdx <;>
      simp [hk, hj, recordedLog, MpStore.commandIdAt, MpStore.setLog, hcl]
  · simp [hk, MpStore.commandIdAt, MpStore.setLog, Function.update]

end Copies

section Places

variable {Q R : UInt32 → Bytes → ℕ → Prop}

/-- The command, if it is one, spells the place that it is at, and `Q` holds of
its id there. -/
def PlacedAt (Q : UInt32 → Bytes → ℕ → Prop) (key : Bytes) (j : ℕ) (c : Command) : Prop :=
  c.commandId ≠ 0 → c.key ≠ [] ∧ cStr c.key = key ∧ c.index.toNat = j ∧ Q c.commandId key j

structure Placed (Q : UInt32 → Bytes → ℕ → Prop) (s : MpSystem n) : Prop where
  slots : ∀ b, (s.servers b).store.Slots (PlacedAt Q)
  sent : ∀ rpc request, rpc ∈ s.calls → s.payload rpc.src rpc.call = some request →
    request.mptype = .accept → request.commandId ≠ 0 →
      request.key ≠ [] ∧ Q request.commandId (cStr request.key) request.slot
  inHand : ∀ b call, (s.servers b).call = some call → ∀ c ∈ s.inHand b call,
    PlacedAt Q call.key call.currIdx c
  own : ∀ b call, (s.servers b).call = some call → call.origCmd.key ≠ [] ∧
    (call.origCmd.commandId ≠ 0 → Q call.origCmd.commandId call.key call.currIdx)

theorem placedAt_slotPredicate : SlotPredicate (PlacedAt Q) where
  empty _ _ _ h := absurd rfl h
  promised _ _ _ _ h := h
  started _ _ _ _ _ hj h hid :=
    have ⟨hne, hkey, _, hplace⟩ := h hid
    ⟨hne, hkey, hj, hplace⟩

theorem PlacedAt.congr {key : Bytes} {j : ℕ} {c d : Command} (h : PlacedAt Q key j c)
    (hid : d.commandId = c.commandId) (hkey : d.key = c.key) (hindex : d.index = c.index) :
    PlacedAt Q key j d := by
  unfold PlacedAt at h ⊢
  rw [hid, hkey, hindex]
  exact h

theorem PlacedAt.imp {key : Bytes} {j : ℕ} {c : Command} (h : PlacedAt Q key j c)
    (himp : c.commandId ≠ 0 → Q c.commandId key j → R c.commandId key j) : PlacedAt R key j c := by
  intro hid
  obtain ⟨hne, hkey, hindex, hplace⟩ := h hid
  exact ⟨hne, hkey, hindex, himp hid hplace⟩

theorem placedAt_of_zero {key : Bytes} {j : ℕ} {c : Command} (h : c.commandId = 0) :
    PlacedAt Q key j c := fun hne => absurd h hne

theorem Placed.of_copy (h : Placed Q s) {id : UInt32} (hid : id ≠ 0) {key : Bytes} {j : ℕ}
    (hc : Copy s id key j) : Q id key j := by
  cases hc with
  | @held b _ _ he =>
    subst he
    obtain ⟨cl, hcl, he⟩ := commandIdAt_ne_zero hid
    exact he ▸ (h.slots b key cl hcl j (he ▸ hid)).2.2.2
  | sent hrpc hreq htype he =>
    subst he
    exact (h.sent _ _ hrpc hreq htype hid).2
  | inHand hcall hc he =>
    subst he
    exact (h.inHand _ _ hcall _ hc hid).2.2.2
  | own hcall he =>
    subst he
    exact (h.own _ _ hcall).2 hid

/-- Conversely `Q` may be what holds of all copies, in a system whose commands
spell their places. -/
theorem Placed.copies (h : Placed Q s)
    (hR : ∀ id key j, id ≠ 0 → Copy s id key j → R id key j) : Placed R s where
  slots b key cl hcl j := by
    refine (h.slots b key cl hcl j).imp (fun hid _ => hR _ key j hid (.held (b := b) ?_))
    simp [MpStore.commandIdAt, hcl]
  sent rpc request hrpc hreq htype hid :=
    ⟨(h.sent rpc request hrpc hreq htype hid).1, hR _ _ _ hid (.sent hrpc hreq htype rfl)⟩
  inHand b call hcall c hc :=
    (h.inHand b call hcall c hc).imp (fun hid _ => hR _ _ _ hid (.inHand hcall hc rfl))
  own b call hcall :=
    ⟨(h.own b call hcall).1, fun hid => hR _ _ _ hid (.own hcall rfl)⟩

theorem placed_init : Placed Q (MpSystem.init : MpSystem n) where
  slots _ := MpStore.slots_empty
  sent := by simp [MpSystem.init]
  inHand := by simp [MpSystem.init, MpServer.start]
  own := by simp [MpSystem.init, MpServer.start]

end Places

section Steps

/-- A key that names a log, and a new command that does not pass for the sent
one by chance. -/
def KeepsPlaces (s : MpSystem n) : MpAction n → Prop
  | .insertCommand _ request _ _ => request.key ≠ []
  | .finishAccept i order junk => JunkDiffers s i order junk
  | _ => True

instance (s : MpSystem n) (a : MpAction n) : Decidable (KeepsPlaces s a) :=
  match a with
  | .insertCommand _ request _ _ => inferInstanceAs (Decidable (request.key ≠ []))
  | .finishAccept i order junk => inferInstanceAs (Decidable (JunkDiffers s i order junk))
  | .startRound _ | .handle _ _ | .finishPrepare _ _ _ | .finish _ | .answer _ => .isTrue trivial

/-- What was proposed is not the call's own command. -/
def InsertCall.Defeated (call : InsertCall) : Prop :=
  match call.phase with
  | .proposed _ tempCmd => call.origCmd.commandId ≠ tempCmd.commandId
  | _ => False

instance (call : InsertCall) : Decidable call.Defeated :=
  match h : call.phase with
  | .proposed _ tempCmd => decidable_of_iff (call.origCmd.commandId ≠ tempCmd.commandId)
      (by simp [InsertCall.Defeated, h])
  | .roundStart | .preparing _ _ | .accepting _ _ _ | .returned =>
    .isFalse (by simp [InsertCall.Defeated, h])

/-- A call that a step starts, or moves to another slot. -/
inductive NewPlace (s : MpSystem n) (a : MpAction n) (b : Fin n) (call' : InsertCall) : Prop
  | started {request : KeyStoreRequest} {rand : UInt32} {types : ℕ → RequestType}
      (ha : a = .insertCommand b request rand types)
      (hid : call'.origCmd.commandId = newCommandId rand request)
  | moved {call : InsertCall} (ha : a = .finish b) (hcall : (s.servers b).call = some call)
      (hdefeated : call.Defeated) (hcontent : call'.origCmd.content = call.origCmd.content)
      (havailable : (s.servers b).store.available call.key call'.currIdx = true)
      (hne : call'.currIdx ≠ call.currIdx)

variable {Q : UInt32 → Bytes → ℕ → Prop} {b : Fin n}

/-- What a step does to the logs of a server. -/
inductive StoreStep (s : MpSystem n) (b : Fin n) (st : MpStore) : Prop
  | kept (hlog : st.logMap = (s.servers b).store.logMap)
  | allocated {request : KeyStoreRequest} {rand : UInt32} {call : InsertCall}
      (hstart : Starts (s.servers b).store request rand st call)
  | started {origCmd : Command} (hst : updateLocalValues (s.servers b).store origCmd = some st)
  | handled {u : Uninit} {rpc : Rpc n} {request : PaxosRequest} {reply : PaxosResponse}
      (hrpc : rpc ∈ s.calls) (hreq : s.payload rpc.src rpc.call = some request)
      (hh : Handles u (s.servers b).store request st reply)
  | recorded {call : InsertCall} {cl : CommandsList} {cmd : Command}
      (hcall : (s.servers b).call = some call)
      (hcl : (s.servers b).store.logMap call.key = some cl)
      (hst : st = (s.servers b).store.setLog call.key (recordedLog cl call.currIdx cmd))
      (hcmd : cmd ∈ s.inHand b call ∨ ∃ p, cmd = { call.origCmd with minProposalNum := p })

theorem MpSteps.storeStep (hs : MpSteps s a t) : StoreStep s b (t.servers b).store := by
  have hadvance : ∀ {i : Fin n} {server : MpServer} {events : List (MpEvent n)},
      StoreStep s i server.store → StoreStep s b ((s.advance i server events).servers b).store :=
    fun hi => store_advance (P := StoreStep s) (fun _ => .kept rfl) hi b
  have hbroadcast : ∀ {i : Fin n} {server : MpServer} {events : List (MpEvent n)}
      {request : PaxosRequest}, StoreStep s i server.store →
      StoreStep s b (((s.advance i server events).broadcast i request).servers b).store :=
    fun hi => store_broadcast (P := StoreStep s)
      (store_advance (P := StoreStep s) (fun _ => .kept rfl) hi) b
  cases hs with
  | insertCommand hidle hstart => exact hadvance (.allocated hstart)
  | startRound hcall hphase horig hst => exact hbroadcast (.started hst)
  | handle hrpc hk hreq hslot hh =>
    exact store_handled (P := StoreStep s) (fun _ => .kept rfl) (.handled hrpc hreq hh) b
  | prepareRetry | acceptDone | acceptRetry | retry => exact hadvance (.kept rfl)
  | prepareSend => exact hbroadcast (.kept rfl)
  | own hcall hphase hrec =>
    cases hrec with
    | own hcl => exact hadvance (.recorded hcall hcl rfl (.inr ⟨_, rfl⟩))
  | defeated hcall hphase hrec =>
    cases hrec with
    | defeated hcl =>
      exact hadvance (.recorded hcall hcl rfl (.inl (by simp [MpSystem.inHand, hphase])))
  | answer hcall hphase hans => exact hadvance (.kept (mpAnswer_logMap hans))

theorem MpSteps.available_anti (hs : MpSteps s a t) {key : Bytes} {j : ℕ}
    (h : (s.servers b).store.available key j = false) :
    (t.servers b).store.available key j = false := by
  cases hs.storeStep (b := b) with
  | kept hlog => simpa only [MpStore.available, hlog] using h
  | allocated hstart =>
    obtain ⟨types, he⟩ := hstart.store
    rw [he, setLog_lookup_available, h]
  | started hst => rw [updateLocalValues_available hst, h]
  | handled _ _ hh => rw [hh.available_eq, h, ite_self]
  | recorded _ hcl hst => rw [hst, recordedLog_available hcl, h, ite_self]

theorem MpSteps.finish_defeated {i : Fin n} {call : InsertCall} (hs : MpSteps s (.finish i) t)
    (hcall : (s.servers i).call = some call) (hdefeated : call.Defeated) :
    ∃ tempCmd cl call' events, call.origCmd.commandId ≠ tempCmd.commandId ∧
      (s.servers i).store.logMap call.key = some cl ∧
      t = s.advance i { s.servers i with
        store := (s.servers i).store.setLog call.key (recordedLog cl call.currIdx tempCmd)
        call := some call' } events ∧
      call'.phase = .roundStart ∧ call'.key = call.key ∧ call'.currIdx ≠ call.currIdx := by
  have hnot : ∀ {round tempCmd}, call.phase = .proposed round tempCmd →
      call.origCmd.commandId ≠ tempCmd.commandId := by
    intro round tempCmd hphase
    simpa [InsertCall.Defeated, hphase] using hdefeated
  cases hs with
  | own hcall' hphase hrec =>
    obtain rfl := Option.some.inj (hcall.symm.trans hcall')
    cases hrec with
    | own _ hid => exact absurd hid (hnot hphase)
  | retry hcall' hphase hrec =>
    obtain rfl := Option.some.inj (hcall.symm.trans hcall')
    cases hrec with
    | retry hid => exact absurd hid (hnot hphase)
  | @defeated _ _ _ tempCmd origCmd st currIdx hcall' hphase hrec =>
    obtain rfl := Option.some.inj (hcall.symm.trans hcall')
    cases hrec with
    | @defeated cl j hcl hid hi =>
      refine ⟨tempCmd, cl, _, _, hid, hcl, rfl, rfl, rfl, ?_⟩
      have hfirst := (CommandsList.firstAvailable_eq_some hi).2.1
      rw [recordedLog, CommandsList.eraseSlot_nextAvailableSlot] at hfirst
      split at hfirst
      next => simp at hfirst
      next hidx => exact hidx

/-- The slot that a defeated call leaves is not offered again. -/
theorem MpSteps.defeated_available {i : Fin n} {call : InsertCall} (hs : MpSteps s (.finish i) t)
    (hcall : (s.servers i).call = some call) (hdefeated : call.Defeated) :
    (t.servers i).store.available call.key call.currIdx = false := by
  obtain ⟨tempCmd, cl, call', events, _, hcl, rfl, _⟩ := hs.finish_defeated hcall hdefeated
  rw [MpSystem.advance_servers_self]
  dsimp only
  rw [recordedLog_available hcl, if_pos ⟨rfl, rfl⟩]

theorem Placed.orig (h : Placed Q s) (ht : Traffic s) {call : InsertCall}
    (hcall : (s.servers b).call = some call) :
    PlacedAt Q call.key call.currIdx call.origCmd := fun hid =>
  ⟨(h.own b call hcall).1, rfl, ((ht.servers b).call call hcall).index, (h.own b call hcall).2 hid⟩

/-- The command of an ACCEPT is the call's own or one that it was told. -/
theorem Placed.chosen (h : Placed Q s) (ht : Traffic s) {call : InsertCall} {round : ℕ}
    {own : Option (Proposal × Content)} {order : List (Fin n)} {junk tempCmd sentCmd : Command}
    {vec : List Command} (hcall : (s.servers b).call = some call)
    (hphase : call.phase = .preparing round own) (hvec : s.collect b round order = some vec)
    (htemp : getHighestAcceptedProposal junk vec true = some tempCmd) (hcode : tempCmd.code ≠ .nack)
    (hsent : sentCmd = { (if tempCmd.code = .ok then call.origCmd else tempCmd) with
      mpReqType := .accept, acceptedProposal := call.origCmd.acceptedProposal }) :
    PlacedAt Q call.key call.currIdx sentCmd := by
  have hsel := (ht.prepareSelected hcall hphase hvec htemp).1
  subst hsent
  by_cases hok : tempCmd.code = .ok
  · rw [if_pos hok]
    exact (h.orig ht hcall).congr rfl rfl rfl
  · rw [if_neg hok]
    obtain ⟨k, _, reply, hr, rfl⟩ := MpSystem.mem_of_collect hvec (hsel.reported hcode hok).1
    have hin := (mem_inHand_preparing hphase).mpr ⟨_, reply, hr, rfl, rfl, rfl⟩
    exact (h.inHand b call hcall _ hin).congr rfl rfl rfl

theorem Placed.accepted (h : Placed Q s) (ht : Traffic s) {call : InsertCall}
    {round acceptCall : ℕ} {order : List (Fin n)} {junk tempCmd sentCmd : Command}
    {vec : List Command} (hcall : (s.servers b).call = some call)
    (hphase : call.phase = .accepting round acceptCall sentCmd)
    (hvec : s.collect b acceptCall order = some vec)
    (htemp : getHighestAcceptedProposal junk vec false = some tempCmd)
    (hid : tempCmd.commandId = sentCmd.commandId) (hjunk : JunkDiffers s b order junk) :
    PlacedAt Q call.key call.currIdx tempCmd := by
  have hin : sentCmd ∈ s.inHand b call := by simp [MpSystem.inHand, hphase]
  rcases ht.proposed_cases hcall hphase hvec htemp hid hjunk with ⟨_, _, hsame⟩ | ⟨hzero, _⟩
  · have hkey : tempCmd.key = sentCmd.key := congrArg Content.key hsame.content
    exact (h.inHand b call hcall _ hin).congr hid hkey hsame.index
  · exact placedAt_of_zero hzero

/-- What the handler reports of a slot is at the place of the round that asked. -/
theorem Placed.reported (h : Placed Q s) {u : Uninit} {rpc : Rpc n} {request : PaxosRequest}
    {st : MpStore} {reply : PaxosResponse}
    (hh : Handles u (s.servers rpc.dst).store request st reply)
    (htype : request.mptype = .prepare) :
    PlacedAt Q (requestKey u request) request.slot (extractResponseFromPayload reply) := by
  cases hh with
  | prepareAck =>
    have hslot := (h.slots rpc.dst).lookup placedAt_slotPredicate u.types (requestKey u request)
      request.slot
    exact hslot.congr rfl rfl rfl
  | prepareNack => exact placedAt_of_zero rfl
  | acceptAck ht => exact absurd (htype.symm.trans ht) (by decide)
  | acceptNack ht => exact absurd (htype.symm.trans ht) (by decide)

theorem Placed.slots_step (h : Placed Q s) (ht : Traffic s) (hs : MpSteps s a t) (b : Fin n) :
    (t.servers b).store.Slots (PlacedAt Q) := by
  have hold := h.slots b
  cases hs.storeStep (b := b) with
  | kept hlog => exact hold.congr hlog
  | allocated hstart => exact hstart.slots placedAt_slotPredicate hold
  | started hst => exact updateLocalValues_slots placedAt_slotPredicate hold hst
  | @handled u rpc request reply hrpc hreq hh =>
    refine hh.slots hold placedAt_slotPredicate (fun htype _ hid => ?_)
    obtain ⟨hne, hplace⟩ := h.sent rpc request hrpc hreq htype hid
    exact ⟨hne, (requestKey_eq hne).symm, rfl, requestKey_eq (u := u) hne ▸ hplace⟩
  | recorded hcall hcl hst hcmd =>
    rw [hst]
    refine recordedLog_slots hold hcl ?_
    rcases hcmd with hin | ⟨p, rfl⟩
    · exact h.inHand b _ hcall _ hin
    · exact (h.orig ht hcall).congr rfl rfl rfl

theorem MpSteps.sent_accept (hs : MpSteps s a t) (ht : Traffic s) {rpc : Rpc n}
    {request : PaxosRequest} (hrpc : rpc ∈ t.calls)
    (hreq : t.payload rpc.src rpc.call = some request) (htype : request.mptype = .accept) :
    (rpc ∈ s.calls ∧ s.payload rpc.src rpc.call = some request) ∨
    ∃ call sentCmd, (s.servers rpc.src).call = some call ∧ request = makeMpRequestPayload sentCmd ∧
      ∀ Q, Placed Q s → PlacedAt Q call.key call.currIdx sentCmd := by
  have hold : rpc ∈ s.calls → rpc ∈ s.calls ∧ s.payload rpc.src rpc.call = some request := by
    intro hmem
    obtain ⟨_, r, hr⟩ := ht.rpcs rpc (.inl hmem)
    have hsame : r = request := Option.some.inj ((hs.extends.payload _ _ r hr).symm.trans hreq)
    exact ⟨hmem, hsame ▸ hr⟩
  cases hs with
  | @startRound i call st origCmd hcall hphase horig hst =>
    rcases MpSystem.mem_broadcast_calls.mp hrpc with hmem | ⟨hsrc, _, hnew⟩
    · exact .inl (hold hmem)
    · rw [MpSystem.payload_broadcast, if_pos ⟨hsrc, hnew⟩] at hreq
      obtain rfl := Option.some.inj hreq
      subst horig
      simp [makeMpRequestPayload] at htype
  | @prepareSend i call round own order junk tempCmd sentCmd vec hcall hphase hvec htemp hcode
      hsent =>
    rcases MpSystem.mem_broadcast_calls.mp hrpc with hmem | ⟨rfl, _, hnew⟩
    · exact .inl (hold hmem)
    · rw [MpSystem.payload_broadcast, if_pos ⟨rfl, hnew⟩] at hreq
      obtain rfl := Option.some.inj hreq
      exact .inr ⟨call, sentCmd, hcall, rfl,
        fun Q h => h.chosen ht hcall hphase hvec htemp hcode hsent⟩
  | handle => exact .inl (hold (MpSystem.mem_handled_calls hrpc))
  | _ => exact .inl (hold hrpc)

theorem Placed.sent_step (h : Placed Q s) (ht : Traffic s) (hs : MpSteps s a t) {rpc : Rpc n}
    {request : PaxosRequest} (hrpc : rpc ∈ t.calls)
    (hreq : t.payload rpc.src rpc.call = some request) (htype : request.mptype = .accept)
    (hid : request.commandId ≠ 0) :
    request.key ≠ [] ∧ Q request.commandId (cStr request.key) request.slot := by
  rcases hs.sent_accept ht hrpc hreq htype with ⟨hmem, hold⟩ | ⟨call, sentCmd, hcall, rfl, hsent⟩
  · exact h.sent rpc request hmem hold htype hid
  · obtain ⟨hne, hkey, hindex, hplace⟩ := hsent Q h hid
    refine ⟨hne, ?_⟩
    rw [← hkey, ← hindex] at hplace
    exact hplace

theorem Placed.inHand_step (h : Placed Q s) (ht : Traffic s) (hok : KeepsPlaces s a)
    (hs : MpSteps s a t) {call : InsertCall} (hc : (t.servers b).call = some call) :
    ∀ c ∈ t.inHand b call, PlacedAt Q call.key call.currIdx c := by
  -- the calls of the other servers, and those that start a round, hold nothing new
  have hkept : t.replies = s.replies → (s.servers b).call = some call →
      ∀ c ∈ t.inHand b call, PlacedAt Q call.key call.currIdx c := by
    intro hreplies hold
    rw [inHand_congr hreplies]
    exact h.inHand b call hold
  have hempty : call.phase = .roundStart ∨ call.phase = .returned →
      ∀ c ∈ t.inHand b call, PlacedAt Q call.key call.currIdx c := by
    intro hphase
    rw [inHand_eq_nil hphase]
    simp
  cases hs with
  | insertCommand hidle hstart =>
    rcases call_advance hc with ⟨rfl, hc⟩ | hc
    · obtain rfl := Option.some.inj hc
      exact hempty (.inl hstart.phase)
    · exact hkept rfl hc
  | @startRound i _ st origCmd hcall hphase horig hst =>
    rcases call_advance_broadcast hc with ⟨rfl, hc⟩ | hc
    · obtain rfl := Option.some.inj hc
      intro c hin
      obtain ⟨rpc, reply, hm, hsrc, hround, _⟩ := (mem_inHand_preparing rfl).mp hin
      obtain ⟨_, request, hr⟩ := ht.rpcs rpc (.inr ⟨reply, hm⟩)
      have hlt := MpSystem.lt_length_of_payload hr
      rw [hsrc, hround] at hlt
      exact absurd hlt (Nat.lt_irrefl _)
    · exact hkept rfl hc
  | @handle k u rpc request st reply hrpc hk hreq hslot hh =>
    have hold := call_handled hc
    by_cases hprep : ∃ round own, call.phase = .preparing round own
    · obtain ⟨round, own, hphase⟩ := hprep
      intro c hin
      obtain ⟨rpc', reply', hm, hsrc, hround, rfl⟩ := (mem_inHand_preparing hphase).mp hin
      rcases List.mem_cons.mp hm with he | hm
      · -- the reply that was just sent answers the PREPARE of this round
        cases he
        obtain ⟨htype, hpay⟩ := ht.preparing hold hphase
        have hpayload : s.payload rpc.src rpc.call = some (makeMpRequestPayload call.origCmd) := by
          rw [hsrc, hround]
          exact hpay
        obtain rfl := Option.some.inj (hreq.symm.trans hpayload)
        have hreport := h.reported hh htype
        rw [requestKey_eq (h.own b call hold).1] at hreport
        have hindex := ((ht.servers b).call call hold).index
        exact hindex ▸ hreport
      · exact h.inHand b call hold _
          ((mem_inHand_preparing hphase).mpr ⟨rpc', reply', hm, hsrc, hround, rfl⟩)
    · have hsame : (s.handled k rpc st reply (handlerEvents rpc u (s.servers rpc.dst).store request
          reply)).inHand b call = s.inHand b call := by
        unfold MpSystem.inHand
        split
        next hphase => exact absurd ⟨_, _, hphase⟩ hprep
        all_goals rfl
      rw [hsame]
      exact h.inHand b call hold
  | prepareSend hcall hphase hvec htemp hcode hsent =>
    rcases call_advance_broadcast hc with ⟨rfl, hc⟩ | hc
    · obtain rfl := Option.some.inj hc
      intro c hin
      obtain rfl := List.mem_singleton.mp hin
      have hplaced := h.chosen ht hcall hphase hvec htemp hcode hsent
      exact hplaced
    · exact hkept rfl hc
  | acceptDone hcall hphase hvec htemp hid =>
    rcases call_advance hc with ⟨rfl, hc⟩ | hc
    · obtain rfl := Option.some.inj hc
      intro c hin
      obtain rfl := List.mem_singleton.mp hin
      have hplaced := h.accepted ht hcall hphase hvec htemp hid hok
      exact hplaced
    · exact hkept rfl hc
  | prepareRetry | acceptRetry | retry | defeated =>
    rcases call_advance hc with ⟨rfl, hc⟩ | hc
    · obtain rfl := Option.some.inj hc
      exact hempty (.inl rfl)
    · exact hkept rfl hc
  | own =>
    rcases call_advance hc with ⟨rfl, hc⟩ | hc
    · obtain rfl := Option.some.inj hc
      exact hempty (.inr rfl)
    · exact hkept rfl hc
  | answer =>
    rcases call_advance hc with ⟨rfl, hc⟩ | hc
    · simp at hc
    · exact hkept rfl hc

theorem MpSteps.newPlace (hs : MpSteps s a t) {call' : InsertCall}
    (hc : (t.servers b).call = some call') : NewPlace s a b call' ∨
      ∃ call, (s.servers b).call = some call ∧ call'.origCmd.content = call.origCmd.content ∧
        call'.currIdx = call.currIdx := by
  cases hs.callStep hc with
  | kept hcall _ hcontent hidx => exact .inr ⟨_, hcall, hcontent, hidx⟩
  | recorded hcall _ _ _ hcontent hidx => exact .inr ⟨_, hcall, hcontent, hidx⟩
  | started ha hstart =>
    exact .inl (.started ha (congrArg Content.commandId hstart.content))
  | @moved call round tempCmd cl ha hcall hphase hcl hid hi _ hcontent =>
    have hfirst := (CommandsList.firstAvailable_eq_some hi).2.1
    rw [CommandsList.eraseSlot_nextAvailableSlot] at hfirst
    split at hfirst
    next => simp at hfirst
    next hne =>
      refine .inl (.moved ha hcall ?_ hcontent ?_ hne)
      · simp [InsertCall.Defeated, hphase, hid]
      · simp [MpStore.available, hcl, hfirst]

theorem Placed.own_step (h : Placed Q s) (hok : KeepsPlaces s a) (hs : MpSteps s a t)
    (hnew : ∀ b call, (t.servers b).call = some call → NewPlace s a b call →
      call.origCmd.commandId ≠ 0 → Q call.origCmd.commandId call.key call.currIdx)
    {call' : InsertCall} (hc : (t.servers b).call = some call') : call'.origCmd.key ≠ [] ∧
      (call'.origCmd.commandId ≠ 0 → Q call'.origCmd.commandId call'.key call'.currIdx) := by
  have hkey : call'.origCmd.key ≠ [] := by
    have hold : ∀ call : InsertCall, (s.servers b).call = some call →
        call'.origCmd.content = call.origCmd.content → call'.origCmd.key ≠ [] := by
      intro call hcall hcontent
      have hsame : call'.origCmd.key = call.origCmd.key := congrArg Content.key hcontent
      exact hsame ▸ (h.own b call hcall).1
    cases hs.callStep hc with
    | kept hcall _ hcontent => exact hold _ hcall hcontent
    | recorded hcall _ _ _ hcontent => exact hold _ hcall hcontent
    | moved _ hcall _ _ _ _ _ hcontent => exact hold _ hcall hcontent
    | started ha hstart =>
      subst ha
      have hsame := congrArg Content.key hstart.content
      exact fun hnil => hok (hsame.symm.trans hnil)
  refine ⟨hkey, fun hid => ?_⟩
  rcases hs.newPlace hc with hplace | ⟨call, hcall, hcontent, hidx⟩
  · exact hnew b call' hc hplace hid
  · have hsame : call'.origCmd.commandId = call.origCmd.commandId :=
      congrArg Content.commandId hcontent
    rw [hsame] at hid ⊢
    rw [InsertCall.key_congr hcontent, hidx]
    exact (h.own b call hcall).2 hid

/-- A step keeps every command at its place, or `Q` holds of the new place. -/
theorem Placed.step (h : Placed Q s) (ht : Traffic s) (hok : KeepsPlaces s a)
    (hs : MpSteps s a t)
    (hnew : ∀ b call, (t.servers b).call = some call → NewPlace s a b call →
      call.origCmd.commandId ≠ 0 → Q call.origCmd.commandId call.key call.currIdx) : Placed Q t where
  slots := h.slots_step ht hs
  sent _ _ hrpc hreq htype hid := h.sent_step ht hs hrpc hreq htype hid
  inHand _ _ hc := h.inHand_step ht hok hs hc
  own _ _ hc := h.own_step hok hs hnew hc

/-- A copy is at a place that its command had, or at the new place of a call
for that command. -/
theorem MpSteps.copy_origin (hs : MpSteps s a t) (ht : Traffic s) (hplaced : Placed Q s)
    (hok : KeepsPlaces s a) {id : UInt32} (hid : id ≠ 0) {key : Bytes} {j : ℕ}
    (hc : Copy t id key j) : Copy s id key j ∨ ∃ b call, (t.servers b).call = some call ∧
      NewPlace s a b call ∧ call.origCmd.commandId = id ∧ call.key = key ∧ call.currIdx = j := by
  have hcopies : Placed (fun id key j => Copy s id key j ∨ ∃ b call,
      (t.servers b).call = some call ∧ NewPlace s a b call ∧ call.origCmd.commandId = id ∧
        call.key = key ∧ call.currIdx = j) s :=
    hplaced.copies (fun _ _ _ _ hcopy => .inl hcopy)
  exact (hcopies.step ht hok hs (fun b call hcall hnew _ =>
    .inr ⟨b, call, hcall, hnew, rfl, rfl, rfl⟩)).of_copy hid hc

end Steps

end KeyValueStore
