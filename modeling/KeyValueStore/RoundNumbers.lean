import KeyValueStore.ProposerRefinement

/-! The rounds that one server starts at one slot. A slot sees one call of each
server, and each of its retries goes above the number of the round before. -/

namespace KeyValueStore

variable {n : ℕ} {s t : MpSystem n} {a : MpAction n}

section Rounds

/-- The proposal and the broadcast of a round that the server starts at the slot. -/
def MpEvent.round? (e : MpEvent n) (b : Fin n) (key : Bytes) (j : ℕ) : Option (Proposal × ℕ) :=
  match e with
  | .promised b' key' j' p round _ false =>
    if b' = b ∧ key' = key ∧ j' = j then some (p, round.2) else none
  | _ => none

/-- The newest round first. -/
def roundsAt (history : List (MpEvent n)) (b : Fin n) (key : Bytes) (j : ℕ) :
    List (Proposal × ℕ) := history.filterMap (fun e => e.round? b key j)

variable {history events : List (MpEvent n)} {b : Fin n} {key : Bytes} {j : ℕ}

theorem roundsAt_append_of_none (h : ∀ e ∈ events, e.round? b key j = none) :
    roundsAt (events ++ history) b key j = roundsAt history b key j := by
  rw [roundsAt, List.filterMap_append, List.filterMap_eq_nil_iff.mpr h, List.nil_append]
  rfl

theorem Extends.roundsAt_mono (h : Extends s t) {x : Proposal × ℕ}
    (hx : x ∈ roundsAt s.history b key j) : x ∈ roundsAt t.history b key j := by
  obtain ⟨e, he, hr⟩ := List.mem_filterMap.mp hx
  exact List.mem_filterMap.mpr ⟨e, h.mem_history he, hr⟩

theorem handlerEvents_round {rpc : Rpc n} {u : Uninit} {st : MpStore} {request : PaxosRequest}
    {reply : PaxosResponse} :
    roundsAt (handlerEvents rpc u st request reply ++ history) b key j = roundsAt history b key j := by
  refine roundsAt_append_of_none (fun e he => ?_)
  obtain ⟨_, rfl | rfl⟩ := of_mem_handlerEvents he
  · rfl
  · rfl

theorem roundsAt_promised (p : Proposal) (round : ℕ) (own : Option (Proposal × Content))
    (b' : Fin n) (key' : Bytes) (j' : ℕ) :
    roundsAt (.promised b key j p (b, round) own false :: history) b' key' j' =
      if b' = b ∧ key' = key ∧ j' = j then (p, round) :: roundsAt history b' key' j'
      else roundsAt history b' key' j' := by
  by_cases hat : b' = b ∧ key' = key ∧ j' = j
  · obtain ⟨rfl, rfl, rfl⟩ := hat
    simp [roundsAt, MpEvent.round?]
  · rw [if_neg hat, roundsAt, List.filterMap_cons_none]
    · rfl
    · rw [MpEvent.round?, if_neg]
      exact fun h => hat ⟨h.1.symm, h.2.1.symm, h.2.2.symm⟩

end Rounds

section Server

/-- The round is one of the call's: not above its number, and below it when the
next round is due. -/
def InsertCall.Past (call : InsertCall) (p : Proposal) : Prop :=
  p.proposalNum ≤ call.origCmd.acceptedProposal.proposalNum ∧
    (call.phase = .roundStart → p.proposalNum < call.origCmd.acceptedProposal.proposalNum)

/-- The rounds of a server against what it is doing. -/
structure ServerRounds (rounds : Bytes → ℕ → List (Proposal × ℕ)) (server : MpServer) : Prop where
  increasing : ∀ key j, (rounds key j).Pairwise (fun x y => y.1.proposalNum < x.1.proposalNum)
  sent : ∀ key j, ∀ x ∈ rounds key j, x.2 < server.broadcasts.length
  own : ∀ key j, server.Open key j → ∀ x ∈ rounds key j,
    ∃ call, server.call = some call ∧ call.At key j ∧ call.Past x.1
  promise : ∀ call, server.call = some call → call.phase ≠ .roundStart → call.phase ≠ .returned →
    call.origCmd.acceptedProposal.proposalNum ≤
      (server.store.promise call.key call.currIdx).proposalNum

variable {rounds : Bytes → ℕ → List (Proposal × ℕ)} {server server' : MpServer}
  {call call' : InsertCall} {key : Bytes} {j : ℕ}

theorem ServerRounds.nil_of_not_at (h : ServerRounds rounds server) (ho : server.Open key j)
    (hat : ∀ call, server.call = some call → ¬ call.At key j) : rounds key j = [] := by
  refine List.eq_nil_iff_forall_not_mem.mpr (fun x hx => ?_)
  obtain ⟨call, hcall, h', _⟩ := h.own key j ho x hx
  exact hat call hcall h'

theorem ServerRounds.proceed (h : ServerRounds rounds server)
    (hcall : server.call = some call) (hactive : call.phase ≠ .returned)
    (hb : server.broadcasts.length ≤ server'.broadcasts.length)
    (hstore : server'.store = server.store) (hcall' : server'.call = some call')
    (hactive' : call'.phase ≠ .returned) (hkey : call'.key = call.key)
    (hidx : call'.currIdx = call.currIdx) (hpast : ∀ p, call.Past p → call'.Past p)
    (hpromise : call'.phase ≠ .roundStart → call'.origCmd.acceptedProposal.proposalNum ≤
      (server.store.promise call.key call.currIdx).proposalNum) : ServerRounds rounds server' where
  increasing := h.increasing
  sent key j x hx := (h.sent key j x hx).trans_le hb
  own key j ho x hx := by
    have hopen := ho.proceed hstore hcall hcall' hactive hkey hidx
    obtain ⟨c, hc, ⟨_, rfl, rfl⟩, hp⟩ := h.own key j hopen x hx
    obtain rfl := Option.some.inj (hcall.symm.trans hc)
    exact ⟨call', hcall', ⟨hactive', hkey, hidx⟩, hpast _ hp⟩
  promise c hc hstart _ := by
    obtain rfl := Option.some.inj (hcall'.symm.trans hc)
    rw [hstore, hkey, hidx]
    exact hpromise hstart

theorem ServerRounds.move (h : ServerRounds rounds server)
    (hb : server'.broadcasts = server.broadcasts)
    (hfree : ∀ key j, server'.Open key j → rounds key j = [])
    (hstart : ∀ call, server'.call = some call → call.phase = .roundStart ∨ call.phase = .returned) :
    ServerRounds rounds server' where
  increasing := h.increasing
  sent key j x hx := hb ▸ h.sent key j x hx
  own key j ho x hx := by simp [hfree key j ho] at hx
  promise c hc hs hr := ((hstart c hc).elim hs hr).elim

/-- After a record the slot is closed, and no other free slot has seen a round. -/
theorem ServerRounds.record (h : ServerRounds rounds server) {cl : CommandsList} (cmd : Command)
    (hcall : server.call = some call) (hcl : server.store.logMap call.key = some cl)
    (hav : (server.store.setLog call.key (recordedLog cl call.currIdx cmd)).available key j = true) :
    rounds key j = [] := by
  rw [recordedLog_available hcl] at hav
  split at hav
  next => simp at hav
  next hne =>
    refine h.nil_of_not_at (.inl hav) (fun c hc hat => ?_)
    obtain rfl := Option.some.inj (hcall.symm.trans hc)
    exact hne ⟨hat.2.1.symm, hat.2.2.symm⟩

end Server

section Invariant

structure RoundInv (s : MpSystem n) : Prop where
  traffic : Traffic s
  servers : ∀ b, ServerRounds (roundsAt s.history b) (s.servers b)

theorem RoundInv.local (h : RoundInv s) {i : Fin n} {events : List (MpEvent n)}
    (hs : MpSteps s a t) (ht : t.history = events ++ s.history)
    (hevents : ∀ e ∈ events, ∀ b key j, e.round? b key j = none)
    (hother : ∀ b, b ≠ i → t.servers b = s.servers b)
    (hi : ServerRounds (roundsAt s.history i) (t.servers i)) : RoundInv t where
  traffic := h.traffic.step hs
  servers b := by
    have hrounds : roundsAt t.history b = roundsAt s.history b :=
      funext₂ (fun key j => ht ▸ roundsAt_append_of_none (fun e he => hevents e he b key j))
    rw [hrounds]
    by_cases hb : b = i
    · exact hb ▸ hi
    · rw [hother b hb]
      exact h.servers b

theorem RoundInv.advance (h : RoundInv s) {i : Fin n} {server : MpServer}
    {events : List (MpEvent n)} (hs : MpSteps s a (s.advance i server events))
    (hevents : ∀ e ∈ events, ∀ b key j, e.round? b key j = none)
    (hi : ServerRounds (roundsAt s.history i) server) : RoundInv (s.advance i server events) :=
  h.local hs rfl hevents (fun b hb => by simp [hb]) (s.advance_servers_self i server events ▸ hi)

theorem RoundInv.insertCommand (h : RoundInv s) {i : Fin n} {request : KeyStoreRequest}
    {rand : UInt32} {st : MpStore} {call : InsertCall} {e : MpEvent n}
    (hs : MpSteps s a (s.advance i { s.servers i with store := st, call := some call } [e]))
    (he : ∀ b key j, e.round? b key j = none) (hidle : (s.servers i).call = none)
    (hstart : Starts (s.servers i).store request rand st call) :
    RoundInv (s.advance i { s.servers i with store := st, call := some call } [e]) := by
  have hfree : ∀ key j, (s.servers i).store.available key j = true →
      roundsAt s.history i key j = [] := fun key j hav =>
    (h.servers i).nil_of_not_at (.inl hav) (fun c hc => by simp [hidle] at hc)
  obtain ⟨types, hst⟩ := hstart.store
  refine h.advance hs (by simpa using he) ((h.servers i).move rfl ?_ ?_)
  · rintro key j (ho | ⟨c, hc, hat⟩)
    · exact hfree key j ((setLog_lookup_available ..).symm.trans (hst ▸ ho))
    · obtain rfl := Option.some.inj hc
      obtain ⟨_, rfl, rfl⟩ := hat
      exact hfree _ _ hstart.available
  · intro c hc
    exact .inl (Option.some.inj hc ▸ hstart.phase)

theorem RoundInv.startRound (h : RoundInv s) {i : Fin n} {call : InsertCall} {st : MpStore}
    {origCmd : Command} {own : Option (Proposal × Content)} (hs : MpSteps s a t)
    (hcall : (s.servers i).call = some call) (hphase : call.phase = .roundStart)
    (horig : origCmd = { call.origCmd with mpReqType := .prepare })
    (hst : updateLocalValues (s.servers i).store origCmd = some st)
    (ht : t = (s.advance i { s.servers i with
            store := st
            call := some { call with
              origCmd, phase := .preparing (s.servers i).broadcasts.length own } }
          [.promised i call.key call.currIdx origCmd.acceptedProposal
            (i, (s.servers i).broadcasts.length) own false]).broadcast i
          (makeMpRequestPayload origCmd)) : RoundInv t where
  traffic := h.traffic.step hs
  servers b := by
    have hold := h.servers i
    have hidx := ((h.traffic.servers i).call call hcall).index
    have hpast : ∀ x ∈ roundsAt s.history i call.key call.currIdx,
        x.1.proposalNum < call.origCmd.acceptedProposal.proposalNum := by
      intro x hx
      obtain ⟨c, hc, _, hp⟩ := hold.own _ _ (.inr ⟨call, hcall, by simp [hphase], rfl, rfl⟩) x hx
      obtain rfl := Option.some.inj (hcall.symm.trans hc)
      exact hp.2 hphase
    have hnum : origCmd.acceptedProposal = call.origCmd.acceptedProposal := by rw [horig]
    have hkey : cStr origCmd.key = call.key := by rw [horig]; rfl
    have hrounds : ∀ key j, roundsAt t.history b key j =
        if b = i ∧ key = call.key ∧ j = call.currIdx
        then (origCmd.acceptedProposal, (s.servers i).broadcasts.length) ::
          roundsAt s.history b key j
        else roundsAt s.history b key j := by
      intro key j
      rw [ht]
      exact roundsAt_promised ..
    by_cases hb : b = i
    · subst hb
      have hserver : t.servers b = { s.servers b with
          store := st
          broadcasts := (s.servers b).broadcasts ++ [makeMpRequestPayload origCmd]
          call := some { call with
            origCmd, phase := .preparing (s.servers b).broadcasts.length own } } := by
        rw [ht, MpSystem.advance_broadcast_servers_self]
      rw [hserver]
      refine ⟨fun key j => ?_, fun key j x hx => ?_, fun key j ho x hx => ?_, fun c hc _ _ => ?_⟩
      · rw [hrounds]
        split
        next hat =>
          obtain ⟨_, rfl, rfl⟩ := hat
          exact List.pairwise_cons.mpr ⟨fun x hx => hnum ▸ hpast x hx, hold.increasing _ _⟩
        next => exact hold.increasing key j
      · rw [hrounds] at hx
        simp only [List.length_append, List.length_singleton]
        split at hx
        next =>
          rcases List.mem_cons.mp hx with rfl | hx
          · exact Nat.lt_succ_self _
          · exact (hold.sent key j x hx).trans (Nat.lt_succ_self _)
        next => exact (hold.sent key j x hx).trans (Nat.lt_succ_self _)
      · rw [hrounds] at hx
        split at hx
        next hat =>
          obtain ⟨_, rfl, rfl⟩ := hat
          refine ⟨_, rfl, ⟨by simp, hkey, rfl⟩, ?_, by simp⟩
          rcases List.mem_cons.mp hx with rfl | hx
          · exact Int32.le_refl _
          · exact hnum ▸ Int32.le_of_lt (hpast x hx)
        next hat =>
          have hopen : (s.servers b).Open key j := by
            rcases ho with ho | ⟨c, hc, hc'⟩
            · exact .inl ((updateLocalValues_available hst key j).symm.trans ho)
            · obtain rfl := Option.some.inj hc
              exact absurd ⟨rfl, hc'.2.1.symm.trans hkey, hc'.2.2.symm⟩ hat
          obtain ⟨c, hc, hc', _⟩ := hold.own key j hopen x hx
          obtain rfl := Option.some.inj (hcall.symm.trans hc)
          exact absurd ⟨rfl, hc'.2.1.symm, hc'.2.2.symm⟩ hat
      · obtain rfl := Option.some.inj hc
        change origCmd.acceptedProposal.proposalNum ≤ (st.promise (cStr origCmd.key) _).proposalNum
        rw [updateLocalValues_promise hst, if_pos ⟨rfl, by rw [horig, ← hidx]⟩]
        exact Int32.le_refl _
    · have hsame : roundsAt t.history b = roundsAt s.history b :=
        funext₂ (fun key j => (hrounds key j).trans (if_neg (fun hat => hb hat.1)))
      rw [hsame, ht, MpSystem.broadcast_servers, if_neg hb, MpSystem.advance_servers, if_neg hb]
      exact h.servers b

theorem RoundInv.handle (h : RoundInv s) {k : ℕ} {u : Uninit} {rpc : Rpc n}
    {request : PaxosRequest} {st : MpStore} {reply : PaxosResponse} (hrpc : rpc ∈ s.calls)
    (hreq : s.payload rpc.src rpc.call = some request)
    (hh : Handles u (s.servers rpc.dst).store request st reply) :
    RoundInv (s.handled k rpc st reply
      (handlerEvents rpc u (s.servers rpc.dst).store request reply)) where
  traffic := h.traffic.handle hrpc hreq hh _
  servers b := by
    have hrounds : roundsAt (s.handled k rpc st reply
        (handlerEvents rpc u (s.servers rpc.dst).store request reply)).history b =
        roundsAt s.history b := funext₂ (fun _ _ => handlerEvents_round)
    rw [hrounds, MpSystem.handled_servers]
    split
    next hb =>
      subst hb
      have hold := h.servers rpc.dst
      refine ⟨hold.increasing, hold.sent, fun key j ho x hx => ?_, fun c hc hs hr => ?_⟩
      · refine hold.own key j (ho.imp_left (fun hav => ?_)) x hx
        dsimp only at hav
        rw [hh.available_eq] at hav
        split at hav
        next => simp at hav
        next => exact hav
      · refine Int32.le_trans (hold.promise c hc hs hr) ?_
        rw [hh.promise_eq]
        split
        next hat =>
          obtain ⟨hcode, hkey, hidx⟩ := hat
          rw [hkey, hidx]
          rcases hh.ack_iff.mp hcode with ⟨_, hlt⟩ | ⟨_, hle⟩
          · exact Proposal.num_le_of_le hlt.le
          · exact hle
        next => exact Int32.le_refl _
    next => exact h.servers b

/-- The next round of the call is to go above all of its rounds. -/
theorem RoundInv.again (h : RoundInv s) {i : Fin n} {call : InsertCall} {origCmd : Command}
    (hs : MpSteps s a (s.advance i { s.servers i with
      call := some { call with origCmd, phase := .roundStart } } []))
    (hcall : (s.servers i).call = some call) (hphase : call.phase ≠ .returned)
    (hkey : origCmd.key = call.origCmd.key)
    (hlt : call.origCmd.acceptedProposal.proposalNum < origCmd.acceptedProposal.proposalNum) :
    RoundInv (s.advance i { s.servers i with
      call := some { call with origCmd, phase := .roundStart } } []) := by
  refine h.advance hs (by simp) ((h.servers i).proceed hcall hphase (Nat.le_refl _) rfl rfl (by simp)
    (congrArg cStr hkey) rfl (fun p hp => ?_) (fun hne => absurd rfl hne))
  have hnum : p.proposalNum < origCmd.acceptedProposal.proposalNum :=
    Int32.lt_of_le_of_lt hp.1 hlt
  exact ⟨Int32.le_of_lt hnum, fun _ => hnum⟩

theorem RoundInv.step (h : RoundInv s) (hs : MpSteps s a t) : RoundInv t := by
  have hstep := hs
  cases hs with
  | insertCommand hidle hstart => exact h.insertCommand hstep (fun _ _ _ => rfl) hidle hstart
  | startRound hcall hphase horig hst => exact h.startRound hstep hcall hphase horig hst rfl
  | handle hrpc hk hreq hslot hh => exact h.handle hrpc hreq hh
  | prepareRetry hcall hphase hvec htemp hcode =>
    have hlt := h.traffic.prepareRetry_num hcall hphase hvec htemp hcode
    exact h.again hstep hcall (by simp [hphase]) rfl hlt
  | @prepareSend i call round own order junk tempCmd sentCmd vec hcall hphase hvec htemp hcode
      hsent =>
    have hpromise := (h.servers i).promise call hcall (by simp [hphase]) (by simp [hphase])
    have hquiet : ∀ e ∈ [MpEvent.sentAccept call.key call.currIdx sentCmd.acceptedProposal
        (i, round) sentCmd.content], ∀ b key j, e.round? b key j = none := by simp [MpEvent.round?]
    refine h.local (i := i) hstep rfl hquiet (fun b hb => by simp [hb]) ?_
    rw [MpSystem.advance_broadcast_servers_self]
    exact (h.servers i).proceed hcall (by simp [hphase]) (by simp) rfl rfl (by simp) rfl rfl
      (fun p hp => ⟨hp.1, by simp⟩) (fun _ => hpromise)
  | @acceptDone i call round acceptCall sentCmd order junk tempCmd vec hcall hphase hvec htemp hid =>
    have hpromise := (h.servers i).promise call hcall (by simp [hphase]) (by simp [hphase])
    refine h.advance hstep (by simp) ((h.servers i).proceed hcall (by simp [hphase]) (Nat.le_refl _)
      rfl rfl (by simp) rfl rfl (fun p hp => ⟨hp.1, by simp⟩) (fun _ => hpromise))
  | acceptRetry hcall hphase hvec htemp hid =>
    have hlt := h.traffic.acceptRetry_num hcall hphase hvec htemp hid
    exact h.again hstep hcall (by simp [hphase]) rfl hlt
  | @own i call round tempCmd origCmd st hcall hphase hrec =>
    cases hrec with
    | @own cl hcl hid hmin =>
      refine h.advance hstep (by simp [MpEvent.round?]) ((h.servers i).move rfl ?_ ?_)
      · rintro key j (ho | ⟨c, hc, hat⟩)
        · exact (h.servers i).record _ hcall hcl ho
        · obtain rfl := Option.some.inj hc
          exact absurd rfl hat.1
      · exact fun c hc => .inr (Option.some.inj hc ▸ rfl)
  | @retry i call round tempCmd origCmd hcall hphase hrec =>
    cases hrec with
    | @retry num hid hmin hnum =>
      have hpromise := (h.servers i).promise call hcall (by simp [hphase]) (by simp [hphase])
      exact h.again hstep hcall (by simp [hphase]) rfl
        (Int32.lt_of_le_of_lt hpromise (succ?_eq_some hnum))
  | @defeated i call round tempCmd origCmd st currIdx hcall hphase hrec =>
    cases hrec with
    | @defeated cl j hcl hid hi =>
      refine h.advance hstep (by simp [MpEvent.round?]) ((h.servers i).move rfl ?_ ?_)
      · rintro key j (ho | ⟨c, hc, hat⟩)
        · exact (h.servers i).record _ hcall hcl ho
        · obtain rfl := Option.some.inj hc
          obtain ⟨_, rfl, rfl⟩ := hat
          refine (h.servers i).record tempCmd hcall hcl ?_
          have hav := (CommandsList.firstAvailable_eq_some hi).2.1
          simpa [MpStore.available, MpStore.setLog, InsertCall.key] using hav
      · exact fun c hc => .inl (Option.some.inj hc ▸ rfl)
  | @answer i call st reply hcall hphase hans =>
    have hlog := mpAnswer_logMap hans
    refine h.advance hstep (by simp [MpEvent.round?]) ((h.servers i).move rfl ?_ (by simp))
    rintro key j (ho | ⟨c, hc, _⟩)
    · have hav : (s.servers i).store.available key j = true := by
        simpa only [MpStore.available, hlog] using ho
      refine (h.servers i).nil_of_not_at (.inl hav) (fun c hc hat => ?_)
      obtain rfl := Option.some.inj (hcall.symm.trans hc)
      exact hat.1 hphase
    · simp at hc

theorem roundInv_init : RoundInv (MpSystem.init : MpSystem n) where
  traffic := traffic_init
  servers _ := ⟨by simp [roundsAt, MpSystem.init], by simp [roundsAt, MpSystem.init],
    by simp [roundsAt, MpSystem.init], by simp [MpSystem.init, MpServer.start]⟩

theorem roundInv_of_reachable (h : Reachable mpStep .init s) : RoundInv s :=
  h.invariant roundInv_init (fun _ _ _ _ hu _ he => hu.step (mpStep_steps he))

end Invariant

end KeyValueStore
