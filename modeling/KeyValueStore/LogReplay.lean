import KeyValueStore.DecidedReads
import KeyValueStore.SlotAvailability
import KeyValueStore.WireKeys
import Mathlib.Data.Nat.SuccPred

/-! What `apply_last_write` takes out of a log. A slot that was never filled may
have any type, so the last slot typed WRITE need not be a filled one; it is one
whenever the log is that of the key the caller has filled the slot under. -/

namespace KeyValueStore

section Log

variable {st st' : MpStore} {key : Bytes} {cl : CommandsList} {idx j : ℕ}

/-- The slots that the loop of `apply_last_write` takes for WRITEs. -/
def typedWrites (cl : CommandsList) (idx : ℕ) : Set ℕ :=
  {j | j ≤ idx ∧ j < initCommandLength ∧ (cl.cmdVec j).commandType = .write}

def filledWrites (cl : CommandsList) (idx : ℕ) : Set ℕ :=
  {j | j ∈ typedWrites cl idx ∧ 0 ≤ (cl.cmdVec j).acceptedProposal.proposalNum}

theorem lastWrite_cases (cl : CommandsList) (idx : ℕ) :
    (lastWrite cl idx = none ∧ typedWrites cl idx = ∅) ∨
      ∃ j, IsGreatest (typedWrites cl idx) j ∧ lastWrite cl idx = some (cl.cmdVec j) := by
  cases hlast : lastWrite cl idx with
  | none =>
    have hno := lastWrite_none hlast
    refine .inl ⟨rfl, Set.eq_empty_iff_forall_notMem.mpr (fun j hj => ?_)⟩
    obtain ⟨hle, hlt, hwrite⟩ := hj
    exact hno j (by omega) hwrite
  | some c =>
    obtain ⟨j, hj, rfl, hwrite, hafter⟩ := lastWrite_some hlast
    refine .inr ⟨j, ⟨⟨by omega, by omega, hwrite⟩, fun k hk => ?_⟩, rfl⟩
    obtain ⟨hle, hlt, hkwrite⟩ := hk
    by_contra hjk
    exact hafter k (by omega) (by omega) hkwrite

theorem exists_isGreatest_filledWrites (h : filledWrites cl idx ≠ ∅) :
    ∃ j, IsGreatest (filledWrites cl idx) j :=
  BddAbove.exists_isGreatest_of_nonempty ⟨idx, fun _ hj => hj.1.1⟩ (Set.nonempty_iff_ne_empty.mpr h)

/-- The value of one key changes, and nothing else does. -/
structure SetsValue (st : MpStore) (key value : Bytes) (st' : MpStore) : Prop where
  value : (st'.mpKsMap key).map ValueT.value = some value
  others : ∀ k ≠ key, st'.mpKsMap k = st.mpKsMap k
  logs : st'.logMap = st.logMap

theorem applyLastWrite_none (hcl : st.logMap key = some cl) (h : lastWrite cl idx = none) :
    applyLastWrite st key idx = some (false, st) := by
  simp [applyLastWrite, hcl, h]

theorem applyLastWrite_some (hcl : st.logMap key = some cl) {prev : Command}
    (h : lastWrite cl idx = some prev) :
    ∃ st', applyLastWrite st key idx = some (true, st') ∧ SetsValue st key prev.value st' := by
  simp only [applyLastWrite, hcl, h, Option.map_some]
  refine ⟨_, rfl, ⟨?_, fun k hk => Function.update_of_ne hk _ _, rfl⟩⟩
  cases hold : st.mpKsMap key <;> simp

/-- The call takes the value of the last filled WRITE, or finds that there is none. -/
def Replays (st : MpStore) (key : Bytes) (idx : ℕ) : Prop :=
  ∀ cl ∈ st.logMap key,
    (∀ j, IsGreatest (filledWrites cl idx) j → lastWrite cl idx = some (cl.cmdVec j) ∧
      ∃ st', applyLastWrite st key idx = some (true, st') ∧
        SetsValue st key (cl.cmdVec j).value st') ∧
    (filledWrites cl idx = ∅ → applyLastWrite st key idx = some (false, st))

/-- The last slot typed WRITE is a filled one. -/
def LastTypedFilled (st : MpStore) (key : Bytes) (idx : ℕ) : Prop :=
  ∀ cl ∈ st.logMap key, ∀ j, IsGreatest (typedWrites cl idx) j →
    0 ≤ (cl.cmdVec j).acceptedProposal.proposalNum

theorem LastTypedFilled.replays (h : LastTypedFilled st key idx) : Replays st key idx := by
  intro cl hcl
  rcases lastWrite_cases cl idx with ⟨hlast, hempty⟩ | ⟨i, hi, hlast⟩
  · refine ⟨fun j hj => ?_, fun _ => applyLastWrite_none hcl hlast⟩
    have hmem : j ∈ typedWrites cl idx := hj.1.1
    rw [hempty] at hmem
    exact absurd hmem (Set.notMem_empty j)
  · have hfilled : i ∈ filledWrites cl idx := ⟨hi.1, h cl hcl i hi⟩
    refine ⟨fun j hj => ?_, fun hno => ?_⟩
    · have hji : j = i := le_antisymm (hi.2 hj.1.1) (hj.2 hfilled)
      subst hji
      exact ⟨hlast, applyLastWrite_some hcl hlast⟩
    · rw [hno] at hfilled
      exact absurd hfilled (Set.notMem_empty i)

theorem Replays.lastTypedFilled (h : Replays st key idx) : LastTypedFilled st key idx := by
  intro cl hcl i hi
  obtain ⟨hsome, hnone⟩ := h cl hcl
  have hlast : lastWrite cl idx = some (cl.cmdVec i) := by
    rcases lastWrite_cases cl idx with ⟨_, hempty⟩ | ⟨k, hk, hlast⟩
    · have hmem := hi.1
      rw [hempty] at hmem
      exact absurd hmem (Set.notMem_empty i)
    · rw [hi.unique hk, hlast]
  by_cases hempty : filledWrites cl idx = ∅
  · obtain ⟨st', happ, _⟩ := applyLastWrite_some hcl hlast
    rw [hnone hempty] at happ
    simp at happ
  · -- the value came from a slot that is filled, so from no other one
    obtain ⟨j, hj⟩ := exists_isGreatest_filledWrites hempty
    have hsame : cl.cmdVec i = cl.cmdVec j := Option.some.inj (hlast.symm.trans (hsome j hj).1)
    rw [hsame]
    exact hj.1.2

theorem replays_iff : Replays st key idx ↔ LastTypedFilled st key idx :=
  ⟨Replays.lastTypedFilled, LastTypedFilled.replays⟩

/-- After a log with no gaps below the slot, as a READ has it. -/
theorem lastTypedFilled_of_filled (h : ∀ j ≤ idx, st.Filled key j) : LastTypedFilled st key idx := by
  intro cl hcl j hj
  obtain ⟨cl', hcl', hfilled⟩ := h j hj.1.1
  obtain rfl : cl' = cl := Option.some.inj (hcl'.symm.trans hcl)
  exact hfilled

/-- The slot itself is a filled WRITE, as an ACCEPT leaves it. -/
theorem lastTypedFilled_of_last (hcl : st.logMap key = some cl) (hlt : idx < initCommandLength)
    (hwrite : (cl.cmdVec idx).commandType = .write)
    (hfilled : 0 ≤ (cl.cmdVec idx).acceptedProposal.proposalNum) : LastTypedFilled st key idx := by
  intro cl' hcl' j hj
  obtain rfl : cl = cl' := Option.some.inj (hcl.symm.trans hcl')
  have hidx : idx ≤ j := hj.2 ⟨le_rfl, hlt, hwrite⟩
  obtain rfl : j = idx := le_antisymm hj.1.1 hidx
  exact hfilled

end Log

section Calls

variable {n : ℕ} {s t : MpSystem n} {a : MpAction n} {b : Fin n}

/-- A step of a server calls `apply_last_write`: the store that the call finds, and
its arguments. -/
inductive Applies (s : MpSystem n) : MpAction n → Fin n → MpStore → Bytes → ℕ → Prop
  | read {i : Fin n} {call : InsertCall} (hcall : (s.servers i).call = some call)
      (hphase : call.phase = .returned) (hread : call.request.type = .read) :
      Applies s (.answer i) i (s.servers i).store (cStr call.request.key) call.currIdx
  | accept {k : ℕ} {u : Uninit} {rpc : Rpc n} {request : PaxosRequest} {cmd : Command}
      (hk : s.calls[k]? = some rpc) (hreq : s.payload rpc.src rpc.call = some request)
      (hslot : request.slot < initCommandLength) (htype : request.mptype = .accept)
      (hle : (requestSlot u (s.servers rpc.dst).store request).minProposalNum.proposalNum ≤
        request.proposalNum)
      (hcmd : cmd = acceptedCommand (extractRequestPayloadToCommand request)
        (requestSlot u (s.servers rpc.dst).store request))
      (hwrite : cmd.commandType = .write) :
      Applies s (.handle k u) rpc.dst
        ((s.servers rpc.dst).store.setLog (requestKey u request)
          (requestLog u (s.servers rpc.dst).store request cmd))
        (appliedKey u cmd) request.slot

theorem mpAnswer_ksMap {st st' : MpStore} {request : KeyStoreRequest} {i : ℕ}
    {reply : KeyStoreResponse} (h : mpAnswer st request i = some (st', reply)) :
    st' = st ∨ request.type = .read ∧
      ∃ found, applyLastWrite st (cStr request.key) i = some (found, st') := by
  unfold mpAnswer at h
  split at h
  next hread =>
    obtain ⟨⟨found, st₁⟩, happ, h⟩ := Option.bind_eq_some_iff.mp h
    have hst : st' = st₁ := by
      dsimp only at h
      split at h
      · obtain ⟨_, _, he⟩ := Option.map_eq_some_iff.mp h
        exact (Prod.mk.inj he).1.symm
      · exact (Prod.mk.inj (Option.some.inj h)).1.symm
    exact .inr ⟨hread, found, hst ▸ happ⟩
  next => exact .inl (Prod.mk.inj (Option.some.inj h)).1.symm

def KeepsKsMap (s : MpSystem n) (b : Fin n) (st : MpStore) : Prop :=
  st.mpKsMap = (s.servers b).store.mpKsMap

/-- Only these calls change what a server has for a key. -/
theorem MpSteps.ksMap (hs : MpSteps s a t) (b : Fin n) :
    (t.servers b).store.mpKsMap = (s.servers b).store.mpKsMap ∨
      ∃ st key idx found st', Applies s a b st key idx ∧
        applyLastWrite st key idx = some (found, st') ∧
        (t.servers b).store.mpKsMap = st'.mpKsMap := by
  have hadvance : ∀ {i : Fin n} {server : MpServer} {events : List (MpEvent n)},
      KeepsKsMap s i server.store → KeepsKsMap s b ((s.advance i server events).servers b).store :=
    fun hi => store_advance (P := KeepsKsMap s) (fun _ => rfl) hi b
  have hbroadcast : ∀ {i : Fin n} {server : MpServer} {events : List (MpEvent n)}
      {request : PaxosRequest}, KeepsKsMap s i server.store →
      KeepsKsMap s b (((s.advance i server events).broadcast i request).servers b).store :=
    fun hi => store_broadcast (P := KeepsKsMap s)
      (store_advance (P := KeepsKsMap s) (fun _ => rfl) hi) b
  cases hs with
  | insertCommand hidle hstart =>
    obtain ⟨types, rfl⟩ := hstart.store
    exact .inl (hadvance rfl)
  | startRound hcall hphase horig hst =>
    obtain ⟨cl, hcl, rfl⟩ := updateLocalValues_log hst
    exact .inl (hbroadcast rfl)
  | @handle k u rpc request st reply hrpc hk hreq hslot hh =>
    rw [MpSystem.handled_servers]
    split
    next hb =>
      subst hb
      cases hh with
      | prepareAck | prepareNack | acceptNack => exact .inl rfl
      | @acceptAck cl st₁ htype hle hcl happ =>
        have hcmd : cl.cmdVec request.slot = acceptedCommand
            (extractRequestPayloadToCommand request)
            (requestSlot u (s.servers rpc.dst).store request) := by simp [hcl, requestLog]
        rw [hcmd] at happ
        unfold applyAccepted at happ
        split at happ
        next hwrite =>
          obtain ⟨⟨found, st₂⟩, hlast, rfl⟩ := Option.map_eq_some_iff.mp happ
          rw [hcl] at hlast
          exact .inr ⟨_, _, _, found, st₂, .accept hk hreq hslot htype hle rfl hwrite, hlast, rfl⟩
        next =>
          obtain rfl := Option.some.inj happ
          exact .inl rfl
    next => exact .inl rfl
  | prepareRetry | acceptDone | acceptRetry | retry => exact .inl (hadvance rfl)
  | prepareSend => exact .inl (hbroadcast rfl)
  | own hcall hphase hrec =>
    cases hrec with
    | own => exact .inl (hadvance rfl)
  | defeated hcall hphase hrec =>
    cases hrec with
    | defeated => exact .inl (hadvance rfl)
  | @answer i call st reply hcall hphase hans =>
    rcases mpAnswer_ksMap hans with rfl | ⟨hread, found, happ⟩
    · exact .inl (hadvance rfl)
    · by_cases hb : b = i
      · subst hb
        refine .inr ⟨_, _, _, found, st, .read hcall hphase hread, happ, ?_⟩
        rw [MpSystem.advance_servers_self]
      · exact .inl (by rw [MpSystem.advance_servers, if_neg hb])

end Calls

section Returned

variable {n : ℕ} {s t : MpSystem n} {a : MpAction n} {b : Fin n}

/-- A call returns with the step that fills its slot. -/
theorem MpSteps.returned_available (hs : MpSteps s a t) {call : InsertCall}
    (hc : (t.servers b).call = some call) (hret : call.phase = .returned) :
    (s.servers b).call = some call ∨
      (t.servers b).store.available call.key call.currIdx = false := by
  have hnot : ∀ {i : Fin n} {server : MpServer} {events : List (MpEvent n)} {call₁ : InsertCall},
      server.call = some call₁ → call₁.phase ≠ .returned →
      ((s.advance i server events).servers b).call = some call → (s.servers b).call = some call := by
    intro i server events call₁ hserver hphase hc
    rcases call_advance hc with ⟨_, he⟩ | he
    · obtain rfl := Option.some.inj (hserver.symm.trans he)
      exact absurd hret hphase
    · exact he
  cases hs with
  | insertCommand hidle hstart => exact .inl (hnot rfl (by simp [hstart.phase]) hc)
  | startRound =>
    rcases call_advance_broadcast hc with ⟨_, he⟩ | he
    · obtain rfl := Option.some.inj he
      simp at hret
    · exact .inl he
  | prepareSend =>
    rcases call_advance_broadcast hc with ⟨_, he⟩ | he
    · obtain rfl := Option.some.inj he
      simp at hret
    · exact .inl he
  | handle => exact .inl (call_handled hc)
  | prepareRetry | acceptDone | acceptRetry | retry | defeated =>
    exact .inl (hnot rfl (by simp) hc)
  | @own i call₁ _ _ _ _ hcall hphase hrec =>
    rcases call_advance hc with ⟨rfl, he⟩ | he
    · cases hrec with
      | own hcl =>
        obtain rfl := Option.some.inj he
        rw [MpSystem.advance_servers_self]
        exact .inr ((recordedLog_available hcl _ _).trans (if_pos ⟨rfl, rfl⟩))
    · exact .inl he
  | answer =>
    rcases call_advance hc with ⟨_, he⟩ | he
    · simp at he
    · exact .inl he

/-- The key of a call is its request's, and its slot is taken once it has returned. -/
structure Settled (s : MpSystem n) : Prop where
  requests : ∀ i call, (s.servers i).call = some call → CallOfRequest call
  returned : ∀ i call, (s.servers i).call = some call → call.phase = .returned →
    (s.servers i).store.available call.key call.currIdx = false

theorem Settled.step (h : Settled s) (hs : MpSteps s a t) : Settled t where
  requests _ _ hc := hs.callOfRequest h.requests hc
  returned i call hc hret := by
    rcases hs.returned_available hc hret with hold | havailable
    · exact hs.available_anti (h.returned i call hold hret)
    · exact havailable

theorem settled_of_reachable {ok : MpSystem n → MpAction n → Prop}
    (h : ReachableWhen mpStep ok .init s) : Settled s := by
  refine h.invariant ⟨?_, ?_⟩ (fun _ _ _ _ hu _ he => hu.step (mpStep_steps he))
  · simp [MpSystem.init, MpServer.start]
  · simp [MpSystem.init, MpServer.start]

theorem Settled.filled (h : Settled s) (ht : Traffic s) (hacc : AllAccounted s) (hbelow : TakenBelow s)
    {i : Fin n} {call : InsertCall} (hcall : (s.servers i).call = some call)
    (hret : call.phase = .returned) :
    ∀ j ≤ call.currIdx, (s.servers i).store.Filled (cStr call.request.key) j := by
  intro j hj
  have hkey : call.key = cStr call.request.key :=
    congrArg (fun c => cStr (Content.key c)) (h.requests i call hcall)
  rw [← hkey]
  rcases Nat.lt_or_eq_of_le hj with hlt | rfl
  · exact hbelow.filled ht hacc hcall hlt
  · have hlt := ((ht.servers i).call call hcall).lt
    have hremoved := (removed_iff hlt).mpr (h.returned i call hcall hret)
    exact ((hacc i).removed_iff_filled hlt).mp hremoved

end Returned

section Replay

variable {n : ℕ} {s : MpSystem n} {a : MpAction n} {b : Fin n} {st : MpStore} {key : Bytes}
  {idx : ℕ}

/-- An ACCEPT is applied under the key that it is filed under, or the log of the
other key ends, up to the slot, in a filled WRITE. -/
def FindsFilled (s : MpSystem n) : MpAction n → Prop
  | .handle k u => ∀ rpc ∈ s.calls[k]?, ∀ request ∈ s.payload rpc.src rpc.call,
      cStr (request.key ++ u.keyTail) = requestKey u request ∨
      LastTypedFilled (s.servers rpc.dst).store (cStr (request.key ++ u.keyTail)) request.slot
  | _ => True

theorem FindsFilled.accept {k : ℕ} {u : Uninit} {rpc : Rpc n} {request : PaxosRequest}
    (hk : s.calls[k]? = some rpc) (hreq : s.payload rpc.src rpc.call = some request) :
    FindsFilled s (.handle k u) ↔ cStr (request.key ++ u.keyTail) = requestKey u request ∨
      LastTypedFilled (s.servers rpc.dst).store (cStr (request.key ++ u.keyTail)) request.slot := by
  simp [FindsFilled, hk, hreq]

/-- The log of another key is as it was. -/
theorem lastTypedFilled_setLog {k : Bytes} {cl : CommandsList} (hne : key ≠ k) :
    LastTypedFilled (st.setLog k cl) key idx ↔ LastTypedFilled st key idx := by
  have hlog : (st.setLog k cl).logMap key = st.logMap key := Function.update_of_ne hne _ _
  unfold LastTypedFilled
  rw [hlog]

theorem logReplay_iff (s : MpSystem n) (a : MpAction n) (b : Fin n) (st : MpStore) (key : Bytes)
    (idx : ℕ) (h : Reachable mpStep .init s) (happ : Applies s a b st key idx) :
    Replays st key idx ↔ FindsFilled s a := by
  have ht := traffic_of_reachable h
  cases happ with
  | read hcall hphase hread =>
    have hfilled := (settled_of_reachable h).filled ht (allAccounted_of_reachable h)
      (takenBelow_of_reachable h) hcall hphase
    exact ⟨fun _ => trivial, fun _ => (lastTypedFilled_of_filled hfilled).replays⟩
  | @accept k u rpc request cmd hk hreq hslot htype hle hcmd hwrite =>
    have hkey : appliedKey u cmd = cStr (request.key ++ u.keyTail) := by
      rw [hcmd]
      rfl
    rw [replays_iff, FindsFilled.accept hk hreq, hkey]
    by_cases hsame : cStr (request.key ++ u.keyTail) = requestKey u request
    · -- the slot is the one that the same handler has just filled
      have hnum : 0 ≤ cmd.acceptedProposal.proposalNum := by
        rw [hcmd]
        exact ht.payload_num hreq
      have hslotCmd : (requestLog u (s.servers rpc.dst).store request cmd).cmdVec request.slot =
          cmd := by simp [requestLog]
      rw [hsame]
      refine ⟨fun _ => .inl rfl, fun _ => ?_⟩
      refine lastTypedFilled_of_last (Function.update_self _ _ _) hslot ?_ ?_
      · rw [hslotCmd]
        exact hwrite
      · rw [hslotCmd]
        exact hnum
    · rw [lastTypedFilled_setLog hsame]
      exact ⟨.inr, fun hor => hor.resolve_left hsame⟩

theorem rereadingRun_replays : ∃ s : MpSystem 3,
    runWhen mpStep (fun _ _ => True) .init rereadingRun = some s ∧
    Replays (s.servers 0).store [107] 1 := by
  obtain ⟨s, hs, call, hcall, hphase, hread, hkey, hidx⟩ := exists_of_run
    (P := fun s : MpSystem 3 => ∃ call ∈ (s.servers 0).call, call.phase = .returned ∧
      call.request.type = .read ∧ cStr call.request.key = [107] ∧ call.currIdx = 1)
    (show (runWhen mpStep (fun _ _ => True) .init rereadingRun).any _ = true by decide +kernel)
  have hreplays := (logReplay_iff s (.answer 0) 0 _ _ _ (reachableWhen_of_runWhen hs)
    (.read hcall hphase hread)).mpr trivial
  rw [hkey, hidx] at hreplays
  exact ⟨s, hs, hreplays⟩

/-- Where the slot's copy of the key {97} happens to be followed by 98. -/
def followedMemory : Uninit := ⟨[], [98], readTypes⟩

/-- Server 2 makes server 1 allocate the log of the key ab, whose slots happen to be
typed WRITE, and server 0 sends an ACCEPT for the key a. -/
def strayRun : List (MpAction 3) :=
  [.insertCommand 2 (writeOf [97, 98]) 20 readTypes, .startRound 2,
    .handle 1 ⟨[], [], fun _ => .write⟩, .insertCommand 0 (writeOf [97]) 10 readTypes,
    .startRound 0, .handle 1 blankMemory, .finishPrepare 0 [1] blankCommand]

abbrev StrayAccept (s : MpSystem 3) : Prop :=
  ∃ rpc ∈ s.calls[2]?, ∃ request ∈ s.payload rpc.src rpc.call,
    request.slot = 0 ∧ request.mptype = .accept ∧ request.key = [97] ∧
    (requestSlot followedMemory (s.servers rpc.dst).store request).minProposalNum.proposalNum ≤
      request.proposalNum ∧
    getCCommandType request.commandType = .write ∧
    ∃ cl ∈ (s.servers rpc.dst).store.logMap [97, 98],
      (cl.cmdVec 0).commandType = .write ∧ ¬ 0 ≤ (cl.cmdVec 0).acceptedProposal.proposalNum

theorem strayRun_not_replays : ¬ ∀ (n : ℕ) (s : MpSystem n) (a : MpAction n) (b : Fin n)
    (st : MpStore) (key : Bytes) (idx : ℕ), Reachable mpStep .init s →
      Applies s a b st key idx → Replays st key idx := by
  intro hall
  obtain ⟨s, hs, rpc, hk, request, hreq, hslot, htype, hkey, hle, hwrite, cl, hcl, htyped,
      hempty⟩ := exists_of_run (P := StrayAccept)
    (show (runWhen mpStep (fun _ _ => True) .init strayRun).any _ = true by decide +kernel)
  have hreplays := hall 3 s (.handle 2 followedMemory) rpc.dst _ _ _ (reachableWhen_of_runWhen hs)
    (.accept hk hreq (hslot ▸ (by decide)) htype hle rfl hwrite)
  have happlied : cStr (request.key ++ followedMemory.keyTail) = [97, 98] := by
    rw [hkey]
    decide
  have hfiled : requestKey followedMemory request = [97] := by
    rw [requestKey, hkey]
    decide
  have hfilled := hreplays.lastTypedFilled
  change LastTypedFilled _ (cStr (request.key ++ followedMemory.keyTail)) _ at hfilled
  rw [happlied, hfiled, lastTypedFilled_setLog (by decide), hslot] at hfilled
  exact hempty (hfilled cl hcl 0 ⟨⟨le_rfl, by decide, htyped⟩, fun j hj => hj.1⟩)

end Replay

end KeyValueStore
