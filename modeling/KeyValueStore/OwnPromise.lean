import KeyValueStore.CommandIntegrity

/-! What a proposer does to the promise of its own slot. Its rounds only raise
what they set themselves; what the request handler has set they overwrite
without a look. -/

namespace KeyValueStore

variable {n : ℕ} {s t : MpSystem n} {a : MpAction n}

section Setter

/-- The promise that an event leaves in the slot, and whether the request
handler set it. -/
def MpEvent.sets? (e : MpEvent n) (a : Fin n) (key : Bytes) (i : ℕ) : Option (Proposal × Bool) :=
  match e with
  | .promised a' k j p _ _ byHandler =>
    if a' = a ∧ k = key ∧ j = i then some (p, byHandler) else none
  | .accepted a' k j cmd byHandler =>
    if a' = a ∧ k = key ∧ j = i then some (cmd.minProposalNum, byHandler) else none
  | _ => none

def lastSet (history : List (MpEvent n)) (a : Fin n) (key : Bytes) (i : ℕ) :
    Option (Proposal × Bool) := history.findSome? (fun e => e.sets? a key i)

/-- The promise of the slot, if the request handler was the last to set it. -/
def handlerPromise (s : MpSystem n) (a : Fin n) (key : Bytes) (i : ℕ) : Option Proposal :=
  match lastSet s.history a key i with
  | some (p, true) => some p
  | _ => none

variable {history events : List (MpEvent n)} {b : Fin n} {key : Bytes} {i : ℕ}

theorem lastSet_append_of_none (h : ∀ e ∈ events, e.sets? b key i = none) :
    lastSet (events ++ history) b key i = lastSet history b key i := by
  rw [lastSet, List.findSome?_append, List.findSome?_eq_none_iff.mpr h, Option.none_or]
  rfl

theorem lastSet_cons_of_some {e : MpEvent n} {v : Proposal × Bool}
    (h : e.sets? b key i = some v) : lastSet (e :: history) b key i = some v := by
  rw [lastSet, List.findSome?_cons, h]

end Setter

section Condition

/-- The promise that a local step of the proposer writes, and where. -/
def localWrite (s : MpSystem n) : MpAction n → Option (Fin n × Bytes × ℕ × Proposal)
  | .startRound i =>
    (s.servers i).call.map fun call => (i, call.key, call.currIdx, call.origCmd.acceptedProposal)
  | .finish i => (s.servers i).call.bind fun call =>
    match call.phase with
    | .proposed _ tempCmd =>
      if call.origCmd.commandId = tempCmd.commandId then none
      else some (i, call.key, call.currIdx, tempCmd.minProposalNum)
    | _ => none
  | _ => none

/-- What the handler was the last to promise at the slot is not above what the
proposer writes there. -/
def RespectsHandler (s : MpSystem n) (a : MpAction n) : Prop :=
  ∀ w ∈ localWrite s a, ∀ p ∈ handlerPromise s w.1 w.2.1 w.2.2.1, p ≤ w.2.2.2

def MpAction.proposer : MpAction n → Option (Fin n)
  | .startRound i => some i
  | .finish i => some i
  | _ => none

instance (s : MpSystem n) (a : MpAction n) : Decidable (RespectsHandler s a) :=
  inferInstanceAs (Decidable (∀ w ∈ localWrite s a, ∀ p ∈ handlerPromise s _ _ _, _ ≤ _))

def KeepsOwnPromises (x : Taken (MpSystem n) (MpAction n)) : Prop :=
  ∀ i ∈ x.action.proposer, ∀ key j, x.before.promise i key j ≤ x.after.promise i key j

def SeesRejection (s : MpSystem n) : MpAction n → Prop
  | .finishAccept i order junk => JunkDiffers s i order junk
  | _ => True

instance (s : MpSystem n) (a : MpAction n) : Decidable (SeesRejection s a) :=
  match a with
  | .finishAccept i order junk => inferInstanceAs (Decidable (JunkDiffers s i order junk))
  | .insertCommand _ _ _ _ | .startRound _ | .handle _ _ | .finishPrepare _ _ _ | .finish _
  | .answer _ => .isTrue trivial

end Condition

section Invariant

structure SetterInv (s : MpSystem n) : Prop where
  traffic : Traffic s
  promise : ∀ b key i, s.promise b key i =
    ((lastSet s.history b key i).map Prod.fst).getD .unset
  own : ∀ b key i p, (s.servers b).Open key i → lastSet s.history b key i = some (p, false) →
    ∃ call, (s.servers b).call = some call ∧ call.At key i ∧ p ≤ call.origCmd.acceptedProposal
  proposed : ∀ b call round tempCmd, (s.servers b).call = some call →
    call.phase = .proposed round tempCmd →
    call.origCmd.acceptedProposal ≤ tempCmd.minProposalNum

theorem SetterInv.local (h : SetterInv s) {i : Fin n} (hs : MpSteps s a t)
    (hother : ∀ j, j ≠ i → t.servers j = s.servers j)
    (hset : ∀ j, j ≠ i → ∀ key k, lastSet t.history j key k = lastSet s.history j key k)
    (hpromise : ∀ key k, t.promise i key k =
      ((lastSet t.history i key k).map Prod.fst).getD .unset)
    (hown : ∀ key k p, (t.servers i).Open key k → lastSet t.history i key k = some (p, false) →
      ∃ call, (t.servers i).call = some call ∧ call.At key k ∧
        p ≤ call.origCmd.acceptedProposal)
    (hproposed : ∀ call round tempCmd, (t.servers i).call = some call →
      call.phase = .proposed round tempCmd →
      call.origCmd.acceptedProposal ≤ tempCmd.minProposalNum) : SetterInv t where
  traffic := h.traffic.step hs
  promise j key k := by
    by_cases hj : j = i
    · exact hj ▸ hpromise key k
    · rw [hset j hj, MpSystem.promise, hother j hj]
      exact h.promise j key k
  own j key k p ho hl := by
    by_cases hj : j = i
    · subst hj
      exact hown key k p ho hl
    · rw [hother j hj] at ho ⊢
      exact h.own j key k p ho (hset j hj key k ▸ hl)
  proposed j call round tempCmd hc hp := by
    by_cases hj : j = i
    · subst hj
      exact hproposed call round tempCmd hc hp
    · exact h.proposed j call round tempCmd (hother j hj ▸ hc) hp

theorem SetterInv.advance (h : SetterInv s) {i : Fin n} {server : MpServer}
    {events : List (MpEvent n)} (hs : MpSteps s a (s.advance i server events))
    (hevents : ∀ e ∈ events, ∀ j key k, e.sets? j key k = none)
    (hviews : ∀ key k, server.store.promise key k = (s.servers i).store.promise key k)
    (hown : ∀ key k p, server.Open key k → lastSet s.history i key k = some (p, false) →
      ∃ call, server.call = some call ∧ call.At key k ∧ p ≤ call.origCmd.acceptedProposal)
    (hproposed : ∀ call round tempCmd, server.call = some call →
      call.phase = .proposed round tempCmd →
      call.origCmd.acceptedProposal ≤ tempCmd.minProposalNum) :
    SetterInv (s.advance i server events) := by
  have hset : ∀ j key k, lastSet (s.advance i server events).history j key k =
      lastSet s.history j key k := fun j key k =>
    lastSet_append_of_none (fun e he => hevents e he j key k)
  have hi : (s.advance i server events).servers i = server := by simp
  refine h.local hs (fun j hj => by simp [hj]) (fun j _ => hset j) (fun key k => ?_) ?_ (hi ▸ hproposed)
  · rw [hset, advance_promise, if_pos rfl, hviews]
    exact h.promise i key k
  · intro key k p ho hl
    rw [hset] at hl
    rw [hi] at ho ⊢
    exact hown key k p ho hl

/-- The slot at which the call in progress is the only one whose promise a
proposer of this server can have set. -/
theorem SetterInv.own_call (h : SetterInv s) {i : Fin n} {call : InsertCall}
    (hcall : (s.servers i).call = some call) {key : Bytes} {k : ℕ} {p : Proposal}
    (ho : (s.servers i).Open key k) (hl : lastSet s.history i key k = some (p, false)) :
    call.At key k ∧ p ≤ call.origCmd.acceptedProposal := by
  obtain ⟨c, hc, hat⟩ := h.own i key k p ho hl
  rw [hcall] at hc
  exact Option.some.inj hc ▸ hat

theorem SetterInv.not_own (h : SetterInv s) {i : Fin n} (hidle : ∀ call,
    (s.servers i).call = some call → call.phase = .returned) {key : Bytes} {k : ℕ} {p : Proposal}
    (ho : (s.servers i).Open key k) : lastSet s.history i key k ≠ some (p, false) := by
  intro hl
  obtain ⟨c, hc, hat, _⟩ := h.own i key k p ho hl
  exact hat.1 (hidle c hc)

theorem SetterInv.insertCommand (h : SetterInv s) {i : Fin n} {request : KeyStoreRequest}
    {rand : UInt32} {st : MpStore} {call : InsertCall} {events : List (MpEvent n)}
    (hs : MpSteps s a (s.advance i { s.servers i with store := st, call := some call } events))
    (hevents : ∀ e ∈ events, ∀ j key k, e.sets? j key k = none)
    (hidle : (s.servers i).call = none)
    (hstart : Starts (s.servers i).store request rand st call) :
    SetterInv (s.advance i { s.servers i with store := st, call := some call } events) := by
  have hold : ∀ key k p, (s.servers i).Open key k → lastSet s.history i key k ≠ some (p, false) :=
    fun key k p ho => h.not_own (fun c hc => by simp [hidle] at hc) ho
  have hav := hstart.available
  have hphase := hstart.phase
  obtain ⟨types, rfl⟩ := hstart.store
  refine h.advance hs hevents (fun key k => setLog_lookup_promise ..) ?_ ?_
  · rintro key k p (ho | ⟨c, hc, hat⟩) hl
    · exact absurd hl (hold key k p (.inl ((setLog_lookup_available ..).symm.trans ho)))
    · simp only [Option.some.injEq] at hc
      subst hc
      obtain ⟨_, rfl, rfl⟩ := hat
      exact absurd hl (hold _ _ p (.inl hav))
  · intro c round tempCmd hc hp
    simp only [Option.some.injEq] at hc
    subst hc
    simp [hphase] at hp

theorem SetterInv.proceed (h : SetterInv s) {i : Fin n} {call call' : InsertCall}
    {server : MpServer} (hs : MpSteps s a t) (hother : ∀ j, j ≠ i → t.servers j = s.servers j)
    (hserver : t.servers i = server)
    (hset : ∀ j key k, lastSet t.history j key k = lastSet s.history j key k)
    (hstore : server.store = (s.servers i).store) (hcall' : server.call = some call')
    (hcall : (s.servers i).call = some call) (hactive : call.phase ≠ .returned)
    (hactive' : call'.phase ≠ .returned)
    (hkey : call'.key = call.key) (hidx : call'.currIdx = call.currIdx)
    (hle : ∀ p, lastSet s.history i call.key call.currIdx = some (p, false) →
      p ≤ call.origCmd.acceptedProposal → p ≤ call'.origCmd.acceptedProposal)
    (hproposed : ∀ round tempCmd, call'.phase = .proposed round tempCmd →
      call'.origCmd.acceptedProposal ≤ tempCmd.minProposalNum) : SetterInv t := by
  subst hserver
  refine h.local hs hother (fun j _ => hset j) (fun key k => ?_) (fun key k p ho hl => ?_) ?_
  · rw [hset, MpSystem.promise, hstore]
    exact h.promise i key k
  · have hopen := ho.proceed hstore hcall hcall' hactive hkey hidx
    rw [hset] at hl
    obtain ⟨⟨_, rfl, rfl⟩, hp⟩ := h.own_call hcall hopen hl
    exact ⟨call', hcall', ⟨hactive', hkey, hidx⟩, hle p hl hp⟩
  · intro c round tempCmd hc hp
    obtain rfl := Option.some.inj (hcall'.symm.trans hc)
    exact hproposed round tempCmd hp

theorem SetterInv.startRound (h : SetterInv s) {i : Fin n} {call : InsertCall} {st : MpStore}
    {origCmd : Command} (hs : MpSteps s a t) (hcall : (s.servers i).call = some call)
    (horig : origCmd = { call.origCmd with mpReqType := .prepare })
    (hst : updateLocalValues (s.servers i).store origCmd = some st)
    (ht : t = (s.advance i { s.servers i with
            store := st
            call := some { call with
              origCmd
              phase := .preparing (s.servers i).broadcasts.length
                ((s.servers i).store.vote call.key call.currIdx) } }
          [.promised i call.key call.currIdx origCmd.acceptedProposal
            (i, (s.servers i).broadcasts.length)
            ((s.servers i).store.vote call.key call.currIdx) false]).broadcast i
          (makeMpRequestPayload origCmd)) : SetterInv t := by
  have hidx := ((h.traffic.servers i).call call hcall).index
  have hself : lastSet t.history i call.key call.currIdx =
      some (origCmd.acceptedProposal, false) := by
    subst ht
    exact lastSet_cons_of_some (by simp [MpEvent.sets?])
  have hrest : ∀ j key k, ¬ (j = i ∧ key = call.key ∧ k = call.currIdx) →
      lastSet t.history j key k = lastSet s.history j key k := by
    intro j key k hne
    subst ht
    refine lastSet_append_of_none (fun e he => ?_)
    rw [List.mem_singleton.mp he, MpEvent.sets?, if_neg]
    exact fun hc => hne ⟨hc.1.symm, hc.2.1.symm, hc.2.2.symm⟩
  refine h.local (i := i) hs (fun j hj => by simp [ht, hj])
    (fun j hj key k => hrest j key k (fun hc => hj hc.1)) (fun key k => ?_) ?_ ?_
  · rw [ht, broadcast_promise, advance_promise, if_pos rfl, updateLocalValues_promise hst, ← ht]
    by_cases hat : key = call.key ∧ k = call.currIdx
    · obtain ⟨rfl, rfl⟩ := hat
      rw [hself, if_pos]
      · rfl
      · exact ⟨by rw [horig, InsertCall.key], by rw [horig, ← hidx]⟩
    · rw [hrest i key k (fun hc => hat hc.2), if_neg]
      · exact h.promise i key k
      · rw [horig, hidx]
        exact hat
  · intro key k p ho hl
    simp only [ht, MpSystem.broadcast_servers, MpSystem.advance_servers, if_true] at ho ⊢
    refine ⟨_, rfl, ?_⟩
    by_cases hat : key = call.key ∧ k = call.currIdx
    · obtain ⟨rfl, rfl⟩ := hat
      rw [hself] at hl
      simp only [Option.some.injEq, Prod.mk.injEq, and_true] at hl
      subst hl horig
      exact ⟨⟨by simp, rfl, rfl⟩, le_rfl⟩
    · rw [hrest i key k (fun hc => hat hc.2)] at hl
      have hopen : (s.servers i).Open key k := by
        rcases ho with ho | ⟨c, hc, hc'⟩
        · exact .inl ((updateLocalValues_available hst key k).symm.trans ho)
        · simp only [Option.some.injEq] at hc
          subst hc horig
          exact absurd ⟨hc'.2.1.symm, hc'.2.2.symm⟩ hat
      have hcur := (h.own_call hcall hopen hl).1
      exact absurd ⟨hcur.2.1.symm, hcur.2.2.symm⟩ hat
  · intro c round tempCmd hc hp
    simp only [ht, MpSystem.broadcast_servers, MpSystem.advance_servers, if_true,
      Option.some.injEq] at hc
    subst hc
    simp at hp

theorem handlerEvents_sets {rpc : Rpc n} {u : Uninit} {st : MpStore} {request : PaxosRequest}
    {reply : PaxosResponse} {j : Fin n} {key : Bytes} {k : ℕ} {history : List (MpEvent n)} :
    lastSet (handlerEvents rpc u st request reply ++ history) j key k =
      if reply.code = .ack ∧ j = rpc.dst ∧ key = requestKey u request ∧ k = request.slot
      then some (request.proposal, true) else lastSet history j key k := by
  unfold handlerEvents
  by_cases hc : reply.code = .ack
  · by_cases hat : j = rpc.dst ∧ key = requestKey u request ∧ k = request.slot
    · obtain ⟨rfl, rfl, rfl⟩ := hat
      rw [if_pos hc, if_pos ⟨hc, rfl, rfl, rfl⟩]
      split <;> exact lastSet_cons_of_some (by
        simp [MpEvent.sets?, acceptedCommand, extractRequestPayloadToCommand, PaxosRequest.proposal])
    · rw [if_pos hc, if_neg (fun h => hat h.2)]
      have hne : ¬ (rpc.dst = j ∧ requestKey u request = key ∧ request.slot = k) :=
        fun h => hat ⟨h.1.symm, h.2.1.symm, h.2.2.symm⟩
      split <;> exact lastSet_append_of_none (fun e he => by
        rw [List.mem_singleton.mp he, MpEvent.sets?, if_neg hne])
  · rw [if_neg hc, if_neg (fun h => hc h.1), List.nil_append]

theorem SetterInv.handle (h : SetterInv s) {k : ℕ} {u : Uninit} {rpc : Rpc n}
    {request : PaxosRequest} {st : MpStore} {reply : PaxosResponse} (hrpc : rpc ∈ s.calls)
    (hreq : s.payload rpc.src rpc.call = some request)
    (hh : Handles u (s.servers rpc.dst).store request st reply) :
    SetterInv (s.handled k rpc st reply
      (handlerEvents rpc u (s.servers rpc.dst).store request reply)) where
  traffic := h.traffic.handle hrpc hreq hh _
  promise j key i := by
    rw [MpSystem.handled_history, handlerEvents_sets, handled_promise, hh.promise_eq]
    by_cases hj : j = rpc.dst
    · subst hj
      by_cases hat : reply.code = .ack ∧ key = requestKey u request ∧ i = request.slot
      · rw [if_pos rfl, if_pos hat, if_pos ⟨hat.1, rfl, hat.2⟩]
        rfl
      · rw [if_pos rfl, if_neg hat, if_neg (fun hc => hat ⟨hc.1, hc.2.2⟩)]
        exact h.promise rpc.dst key i
    · rw [if_neg hj, if_neg (fun hc => hj hc.2.1)]
      exact h.promise j key i
  own j key i p ho hl := by
    rw [MpSystem.handled_history, handlerEvents_sets] at hl
    split at hl
    next => simp at hl
    next =>
      rw [MpSystem.handled_servers] at ho ⊢
      split
      next hj =>
        subst hj
        rw [if_pos rfl] at ho
        refine h.own rpc.dst key i p (ho.imp_left (fun hav => ?_)) hl
        dsimp only at hav
        rw [hh.available_eq] at hav
        split at hav
        next => simp at hav
        next => exact hav
      next hj =>
        rw [if_neg hj] at ho
        exact h.own j key i p ho hl
  proposed j call round tempCmd hc hp := h.proposed j call round tempCmd (call_handled hc) hp

theorem SetterInv.record (h : SetterInv s) {i : Fin n} {call : InsertCall} {cl : CommandsList}
    {cmd : Command} {server : MpServer} {events : List (MpEvent n)}
    (hs : MpSteps s a (s.advance i server events)) (hcall : (s.servers i).call = some call)
    (hcl : (s.servers i).store.logMap call.key = some cl)
    (hstore : server.store = (s.servers i).store.setLog call.key (recordedLog cl call.currIdx cmd))
    (quiet : List (MpEvent n)) (hquiet : ∀ e ∈ quiet, ∀ j key k, e.sets? j key k = none)
    (hevents : events = quiet ++ [.accepted i call.key call.currIdx cmd false])
    (hopen : ∀ key k, server.Open key k → server.store.available key k = true)
    (hproposed : ∀ c round tempCmd, server.call = some c → c.phase ≠ .proposed round tempCmd) :
    SetterInv (s.advance i server events) := by
  have hset : ∀ j key k, lastSet (s.advance i server events).history j key k =
      if j = i ∧ key = call.key ∧ k = call.currIdx then some (cmd.minProposalNum, false)
      else lastSet s.history j key k := by
    intro j key k
    rw [MpSystem.advance_history, hevents, List.append_assoc,
      lastSet_append_of_none (fun e he => hquiet e he j key k)]
    split
    next hat =>
      obtain ⟨rfl, rfl, rfl⟩ := hat
      exact lastSet_cons_of_some (by simp [MpEvent.sets?])
    next hat =>
      refine lastSet_append_of_none (fun e he => ?_)
      rw [List.mem_singleton.mp he, MpEvent.sets?, if_neg]
      exact fun hc => hat ⟨hc.1.symm, hc.2.1.symm, hc.2.2.symm⟩
  have hi : (s.advance i server events).servers i = server := by simp
  refine h.local hs (fun j hj => by simp [hj])
    (fun j hj key k => (hset j key k).trans (if_neg (fun hc => hj hc.1))) (fun key k => ?_) ?_ ?_
  · rw [hset, advance_promise, if_pos rfl, hstore, recordedLog_promise hcl]
    by_cases hat : key = call.key ∧ k = call.currIdx
    · rw [if_pos hat, if_pos ⟨rfl, hat⟩]
      rfl
    · rw [if_neg hat, if_neg (fun hc => hat hc.2)]
      exact h.promise i key k
  · intro key k p ho hl
    rw [hi] at ho
    have hav := hopen key k ho
    rw [hstore, recordedLog_available hcl] at hav
    split at hav
    next => simp at hav
    next hat =>
      rw [hset, if_neg (fun hc => hat hc.2)] at hl
      have hcur := (h.own_call hcall (.inl hav) hl).1
      exact absurd ⟨hcur.2.1.symm, hcur.2.2.symm⟩ hat
  · intro c round tempCmd hc hp
    exact absurd hp (hproposed c round tempCmd (hi ▸ hc))

theorem Proposal.le_of_num_lt {p q : Proposal} (h : p.proposalNum < q.proposalNum) : p ≤ q :=
  (Proposal.lt_iff.mpr (.inl h)).le

section Accept

variable {i : Fin n} {call : InsertCall} {round acceptCall : ℕ} {order : List (Fin n)}
  {junk tempCmd sentCmd : Command} {vec : List Command}

theorem SetterInv.finishAccept_done (h : SetterInv s) (hcall : (s.servers i).call = some call)
    (hphase : call.phase = .accepting round acceptCall sentCmd)
    (hvec : s.collect i acceptCall order = some vec)
    (htemp : getHighestAcceptedProposal junk vec false = some tempCmd)
    (hid : tempCmd.commandId = sentCmd.commandId) (hsafe : JunkDiffers s i order junk) :
    call.origCmd.acceptedProposal ≤ tempCmd.minProposalNum := by
  obtain ⟨_, hacc, _⟩ := h.traffic.accepting hcall hphase
  rcases h.traffic.proposed_cases hcall hphase hvec htemp hid hsafe with
    ⟨_, _, hsame⟩ | ⟨_, hmin⟩
  · exact (hacc.symm.trans hsame.promised.symm).le
  · exact hacc ▸ Proposal.le_of_num_lt hmin

end Accept

theorem SetterInv.step (h : SetterInv s) (hsafe : SeesRejection s a) (hs : MpSteps s a t) :
    SetterInv t := by
  have hstep := hs
  have hother : ∀ {i : Fin n} {server : MpServer} {events : List (MpEvent n)} (j : Fin n), j ≠ i →
      (s.advance i server events).servers j = s.servers j := fun j hj => by simp [hj]
  cases hs with
  | insertCommand hidle hstart =>
    exact h.insertCommand hstep (by simp [MpEvent.sets?]) hidle hstart
  | startRound hcall hphase horig hst => exact h.startRound hstep hcall horig hst rfl
  | handle hrpc hk hreq hslot hh => exact h.handle hrpc hreq hh
  | prepareRetry hcall hphase hvec htemp hcode =>
    have hlt := h.traffic.prepareRetry_num hcall hphase hvec htemp hcode
    exact h.proceed hstep hother (s.advance_servers_self ..) (fun _ _ _ => rfl) rfl rfl hcall
      (by simp [hphase]) (by simp) rfl rfl (fun p _ hp => hp.trans (Proposal.le_of_num_lt hlt))
      (by simp)
  | prepareSend hcall hphase hvec htemp hcode hsent =>
    exact h.proceed hstep (fun j hj => by simp [hj]) (s.advance_broadcast_servers_self ..)
      (fun _ _ _ => lastSet_append_of_none (by simp [MpEvent.sets?])) rfl rfl hcall
      (by simp [hphase]) (by simp) rfl rfl (fun _ _ hp => hp) (by simp)
  | acceptDone hcall hphase hvec htemp hid =>
    have hle := h.finishAccept_done hcall hphase hvec htemp hid hsafe
    refine h.proceed hstep hother (s.advance_servers_self ..) (fun _ _ _ => rfl) rfl rfl hcall
      (by simp [hphase]) (by simp) rfl rfl (fun _ _ hp => hp) (fun r c hp => ?_)
    simp only [Phase.proposed.injEq] at hp
    exact hp.2 ▸ hle
  | acceptRetry hcall hphase hvec htemp hid =>
    have hlt := h.traffic.acceptRetry_num hcall hphase hvec htemp hid
    exact h.proceed hstep hother (s.advance_servers_self ..) (fun _ _ _ => rfl) rfl rfl hcall
      (by simp [hphase]) (by simp) rfl rfl (fun p _ hp => hp.trans (Proposal.le_of_num_lt hlt))
      (by simp)
  | @own i call round tempCmd origCmd st hcall hphase hrec =>
    cases hrec with
    | @own cl hcl =>
      refine h.record hstep hcall hcl rfl
        [.returned i call.key call.currIdx call.origCmd.commandId,
          .recorded i call.key call.currIdx call.origCmd.content]
        (by simp [MpEvent.sets?]) rfl ?_ ?_
      · rintro key k (ho | ⟨c, hc, hat⟩)
        · exact ho
        · simp only [Option.some.injEq] at hc
          subst hc
          exact absurd rfl hat.1
      · intro c round' temp' hc
        simp only [Option.some.injEq] at hc
        subst hc
        simp
  | @retry i call round tempCmd origCmd hcall hphase hrec =>
    cases hrec with
    | @retry num hid hmin hnum =>
      have hlt := succ?_eq_some hnum
      have hp := h.promise i call.key call.currIdx
      refine h.proceed hstep hother (s.advance_servers_self ..) (fun _ _ _ => rfl) rfl rfl hcall
        (by simp [hphase]) (by simp) rfl rfl (fun p hl _ => ?_) (by simp)
      rw [hl] at hp
      have hsame : (s.servers i).store.promise (cStr call.origCmd.key) call.currIdx = p := hp
      rw [hsame] at hlt
      exact Proposal.le_of_num_lt hlt
  | @defeated i call round tempCmd origCmd st currIdx hcall hphase hrec =>
    cases hrec with
    | @defeated cl j hcl hid hi =>
      refine h.record hstep hcall hcl rfl
        [.recorded i call.key call.currIdx tempCmd.content]
        (by simp [MpEvent.sets?]) rfl ?_ ?_
      · rintro key k (ho | ⟨c, hc, hat⟩)
        · exact ho
        · simp only [Option.some.injEq] at hc
          subst hc
          obtain ⟨_, rfl, rfl⟩ := hat
          have hav := (CommandsList.firstAvailable_eq_some hi).2.1
          simpa [MpStore.available, MpStore.setLog, InsertCall.key] using hav
      · intro c round' temp' hc
        simp only [Option.some.injEq] at hc
        subst hc
        simp
  | @answer i call st reply hcall hphase hans =>
    have hlog := mpAnswer_logMap hans
    refine h.advance hstep (by simp [MpEvent.sets?]) (fun key k => ?_) ?_ (by simp)
    · simp only [MpStore.promise, hlog]
    · rintro key k p (ho | ⟨c, hc, _⟩) hl
      · have hav : (s.servers i).store.available key k = true := by
          simpa only [MpStore.available, hlog] using ho
        have hidle : ∀ c, (s.servers i).call = some c → c.phase = .returned := by
          intro c hc
          rw [hcall] at hc
          exact Option.some.inj hc ▸ hphase
        exact absurd hl (h.not_own hidle (.inl hav))
      · simp at hc

theorem setterInv_init : SetterInv (MpSystem.init : MpSystem n) where
  traffic := traffic_init
  promise _ _ _ := rfl
  own b key i p _ hl := by simp [MpSystem.init, lastSet] at hl
  proposed b call round tempCmd hc := by simp [MpSystem.init, MpServer.start] at hc

theorem setterInv_of_reachable (h : ReachableWhen mpStep SeesRejection .init s) : SetterInv s :=
  h.invariant setterInv_init (fun _ _ _ _ hu ha he => hu.step ha (mpStep_steps he))

end Invariant

section Promises

/-- A proposal of the call in progress, or a higher one, is below the slot's
promise only if the handler set that promise. -/
theorem SetterInv.promise_le_iff (h : SetterInv s) {i : Fin n} {call : InsertCall}
    (hcall : (s.servers i).call = some call) (hphase : call.phase ≠ .returned) {w : Proposal}
    (hw : call.origCmd.acceptedProposal ≤ w) : s.promise i call.key call.currIdx ≤ w ↔
      ∀ p ∈ handlerPromise s i call.key call.currIdx, p ≤ w := by
  have hopen : (s.servers i).Open call.key call.currIdx :=
    .inr ⟨call, hcall, hphase, rfl, rfl⟩
  rw [h.promise]
  cases hl : lastSet s.history i call.key call.currIdx with
  | none =>
    have hnum := ((h.traffic.servers i).call call hcall).num
    have hunset : Proposal.unset ≤ call.origCmd.acceptedProposal :=
      Proposal.le_of_num_lt (Int32.lt_of_lt_of_le (by decide) hnum)
    simpa [handlerPromise, hl] using hunset.trans hw
  | some v =>
    obtain ⟨p, byHandler⟩ := v
    cases byHandler with
    | true => simp [handlerPromise, hl]
    | false => simpa [handlerPromise, hl] using (h.own_call hcall hopen hl).2.trans hw

/-- A step of the proposer keeps the promises of its server's slots if the one
that it overwrites is not below a promise of the handler, and only then. -/
theorem SetterInv.keepsOwn_iff (h : SetterInv s) (hs : MpSteps s a t) :
    KeepsOwnPromises ⟨s, a, t⟩ ↔ RespectsHandler s a := by
  have hwrite : ∀ (i : Fin n) (call : InsertCall) (w : Proposal),
      (∀ key j, t.promise i key j =
        if key = call.key ∧ j = call.currIdx then w else s.promise i key j) →
      ((∀ key j, s.promise i key j ≤ t.promise i key j) ↔
        s.promise i call.key call.currIdx ≤ w) := by
    intro i call w ht
    refine ⟨fun hall => ?_, fun hle key j => ?_⟩
    · have hat := hall call.key call.currIdx
      rwa [ht, if_pos ⟨rfl, rfl⟩] at hat
    · rw [ht]
      split
      next hat =>
        obtain ⟨rfl, rfl⟩ := hat
        exact hle
      next => exact le_rfl
  cases hs with
  | @startRound i call st origCmd hcall hphase horig hst =>
    have hidx := ((h.traffic.servers i).call call hcall).index
    have ht := hwrite i call call.origCmd.acceptedProposal (fun key j => by
      rw [broadcast_promise, advance_promise, if_pos rfl, updateLocalValues_promise hst, horig,
        ← hidx]
      rfl)
    simp only [KeepsOwnPromises, MpAction.proposer, RespectsHandler, localWrite, hcall,
      Option.mem_some_iff, forall_eq', Option.map_some]
    exact ht.trans (h.promise_le_iff hcall (by simp [hphase]) le_rfl)
  | @own i call round tempCmd origCmd st hcall hphase hrec =>
    cases hrec with
    | @own cl hcl hid hmin =>
      refine iff_of_true ?_ (by simp [RespectsHandler, localWrite, hcall, hphase, hid])
      rintro j hj key k
      obtain rfl := Option.some.inj hj
      rw [advance_promise, if_pos rfl, recordedLog_promise hcl]
      split
      next hat =>
        obtain ⟨rfl, rfl⟩ := hat
        simp [MpSystem.promise, MpStore.promise, hcl]
      next => exact le_rfl
  | @retry i call round tempCmd origCmd hcall hphase hrec =>
    cases hrec with
    | retry hid =>
      refine iff_of_true ?_ (by simp [RespectsHandler, localWrite, hcall, hphase, hid])
      rintro j hj key k
      obtain rfl := Option.some.inj hj
      rw [advance_promise, if_pos rfl]
      exact le_rfl
  | @defeated i call round tempCmd origCmd st currIdx hcall hphase hrec =>
    cases hrec with
    | @defeated cl j hcl hid hi =>
      have ht := hwrite i call tempCmd.minProposalNum (fun key j => by
        rw [advance_promise, if_pos rfl, recordedLog_promise hcl]
        rfl)
      simp only [KeepsOwnPromises, MpAction.proposer, RespectsHandler, localWrite, hcall, hphase,
        if_neg hid, Option.mem_some_iff, forall_eq', Option.bind_some]
      exact ht.trans (h.promise_le_iff hcall (by simp [hphase])
        (h.proposed i call round tempCmd hcall hphase))
  | insertCommand | handle | prepareRetry | prepareSend | acceptDone | acceptRetry | answer =>
    simp [KeepsOwnPromises, MpAction.proposer, RespectsHandler, localWrite]

/-- Over a whole run the proposers keep the promises of their own slots exactly
when no step of theirs writes below what the handler was the last to promise. -/
theorem keepsOwnPromises_iff (actions : List (MpAction n))
    (hsees : ∀ x ∈ trace mpStep .init actions, SeesRejection x.before x.action) :
    (∀ x ∈ trace mpStep .init actions, KeepsOwnPromises x) ↔
      ∀ x ∈ trace mpStep .init actions, RespectsHandler x.before x.action := by
  refine forall₂_congr (fun x hx => ?_)
  have hinv := setterInv_of_reachable (reachableWhen_of_mem_trace hsees hx)
  exact hinv.keepsOwn_iff (mpStep_steps (step_of_mem_trace hx))

theorem learningRun_keepsOwnPromises :
    (trace mpStep (.init : MpSystem 3) learningRun).length = learningRun.length ∧
      ∀ x ∈ trace mpStep (.init : MpSystem 3) learningRun, KeepsOwnPromises x :=
  ⟨by decide, (keepsOwnPromises_iff learningRun (by decide)).mpr (by decide)⟩

/-- Server 0 promises a round of server 2 before it starts its own at the slot. -/
def overwritingRun : List (MpAction 3) :=
  [.insertCommand 0 (putRequest 1 49) 10 readTypes,
    .insertCommand 2 (putRequest 2 50) 20 readTypes, .startRound 2, .handle 0 blankMemory,
    .startRound 0]

theorem overwritingRun_promise_lost :
    ¬ ∀ x ∈ trace mpStep (.init : MpSystem 3) overwritingRun, KeepsOwnPromises x := by
  intro hkeep
  have hrun : (trace mpStep (.init : MpSystem 3) overwritingRun).getLast?.map
      (fun x => (x.action.proposer, x.before.promise 0 [107] 0, x.after.promise 0 [107] 0)) =
      some (some 0, ⟨2, 0⟩, ⟨1, 0⟩) := by decide
  obtain ⟨x, hx, he⟩ := Option.map_eq_some_iff.mp hrun
  simp only [Prod.mk.injEq] at he
  have hle := hkeep x (List.mem_of_getLast? hx) 0 he.1 [107] 0
  rw [he.2.1, he.2.2] at hle
  exact absurd hle (by decide)

end Promises

end KeyValueStore
