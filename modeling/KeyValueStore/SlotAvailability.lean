import KeyValueStore.Agreement
import KeyValueStore.CommandPlaces

/-! The set of free slots of a log and its commands agree: a slot is off the set
exactly when it holds an accepted command, it never comes back, and below the slot
that a call picked no slot is empty. -/

namespace KeyValueStore

variable {n : ℕ} {s t : MpSystem n} {a : MpAction n}

section Store

variable {st st' : MpStore} {key : Bytes} {cl : CommandsList} {i : ℕ}

/-- The slot is not in `next_available_slot`. -/
def MpStore.Removed (st : MpStore) (key : Bytes) (i : ℕ) : Prop :=
  ∃ cl ∈ st.logMap key, cl.nextAvailableSlot i = false

/-- The slot holds an accepted command. -/
def MpStore.Filled (st : MpStore) (key : Bytes) (i : ℕ) : Prop :=
  ∃ cl ∈ st.logMap key, 0 ≤ (cl.cmdVec i).acceptedProposal.proposalNum

theorem removed_iff (hi : i < initCommandLength) :
    st.Removed key i ↔ st.available key i = false := by
  unfold MpStore.Removed MpStore.available
  cases st.logMap key with
  | none => simp [hi]
  | some cl => simp

theorem filled_iff : st.Filled key i ↔ st.vote key i ≠ none := by
  unfold MpStore.Filled MpStore.vote
  cases st.logMap key with
  | none => simp
  | some cl => simp [Command.vote_eq_none]

/-- A log that is not allocated counts as one whose slots are all free. -/
def MpStore.Accounted (st : MpStore) : Prop :=
  ∀ key, ∀ i < initCommandLength, st.available key i = false ↔ st.vote key i ≠ none

theorem accounted_empty : MpStore.empty.Accounted := by
  intro key i hi
  simp [MpStore.available, MpStore.vote, MpStore.empty, hi]

/-- Neither promises nor new logs change what is free or filled. -/
theorem MpStore.Accounted.congr (h : st.Accounted)
    (hav : ∀ k j, st'.available k j = st.available k j)
    (hvote : ∀ k j, st'.vote k j = st.vote k j) : st'.Accounted := by
  intro k j hj
  rw [hav, hvote]
  exact h k j hj

/-- A slot that becomes filled leaves the set with the same step. -/
theorem MpStore.Accounted.fill (h : st.Accounted) {P : Bytes → ℕ → Prop}
    [∀ k j, Decidable (P k j)] {v : Option (Proposal × Content)} (hv : v ≠ none)
    (hav : ∀ k j, st'.available k j = if P k j then false else st.available k j)
    (hvote : ∀ k j, st'.vote k j = if P k j then v else st.vote k j) : st'.Accounted := by
  intro k j hj
  rw [hav, hvote]
  split
  next => exact ⟨fun _ => hv, fun _ => rfl⟩
  next => exact h k j hj

theorem MpStore.Accounted.started (h : st.Accounted) {origCmd : Command}
    (hst : updateLocalValues st origCmd = some st') : st'.Accounted :=
  h.congr (updateLocalValues_available hst) (updateLocalValues_vote hst)

theorem MpStore.Accounted.allocated (h : st.Accounted) {request : KeyStoreRequest} {rand : UInt32}
    {call : InsertCall} (hstart : Starts st request rand st' call) : st'.Accounted := by
  obtain ⟨types, rfl⟩ := hstart.store
  exact h.congr (setLog_lookup_available st types call.key) (setLog_lookup_vote st types call.key)

theorem MpStore.Accounted.handled (h : st.Accounted) {u : Uninit} {request : PaxosRequest}
    {reply : PaxosResponse} (hnum : 0 ≤ request.proposalNum)
    (hh : Handles u st request st' reply) : st'.Accounted := by
  have hvote := hh.vote_eq
  simp only [if_pos hnum] at hvote
  exact h.fill (by simp) hh.available_eq hvote

theorem MpStore.Accounted.recorded (h : st.Accounted) {cmd : Command} {currIdx : ℕ}
    (hcl : st.logMap key = some cl) (hnum : 0 ≤ cmd.acceptedProposal.proposalNum) :
    (st.setLog key (recordedLog cl currIdx cmd)).Accounted := by
  have hfilled : cmd.vote ≠ none := fun hv => Command.vote_eq_none.mp hv hnum
  exact h.fill hfilled (recordedLog_available hcl) (recordedLog_vote hcl)

theorem MpStore.Accounted.removed_iff_filled (h : st.Accounted) (hi : i < initCommandLength) :
    st.Removed key i ↔ st.Filled key i := by
  rw [removed_iff hi, filled_iff]
  exact h key i hi

end Store

section System

def AllAccounted (s : MpSystem n) : Prop := ∀ b, (s.servers b).store.Accounted

theorem AllAccounted.step (h : AllAccounted s) (ht : Traffic s) (hs : MpSteps s a t) :
    AllAccounted t := by
  have hadvance : ∀ {i : Fin n} {server : MpServer} {events : List (MpEvent n)},
      server.store.Accounted → AllAccounted (s.advance i server events) :=
    fun hi => store_advance (P := fun _ st => st.Accounted) h hi
  have hbroadcast : ∀ {u : MpSystem n} {i : Fin n} {request : PaxosRequest},
      AllAccounted u → AllAccounted (u.broadcast i request) :=
    fun hu => store_broadcast (P := fun _ st => st.Accounted) hu
  cases hs with
  | @insertCommand i _ _ _ _ _ hidle hstart => exact hadvance ((h i).allocated hstart)
  | @startRound i _ _ _ hcall hphase horig hst => exact hbroadcast (hadvance ((h i).started hst))
  | @handle k u rpc request st reply hrpc hk hreq hslot hh =>
    exact store_handled (P := fun _ st => st.Accounted) h
      ((h rpc.dst).handled (ht.payload_num hreq) hh)
  | @prepareRetry i | @acceptDone i | @acceptRetry i | @retry i => exact hadvance (h i)
  | @prepareSend i => exact hbroadcast (hadvance (h i))
  | @own i call round tempCmd origCmd st hcall hphase hrec =>
    cases hrec with
    | @own cl hcl =>
      have hnum := ((ht.servers i).call call hcall).num
      exact hadvance ((h i).recorded hcl hnum)
  | @defeated i call round tempCmd origCmd st currIdx hcall hphase hrec =>
    cases hrec with
    | defeated hcl =>
      exact hadvance ((h i).recorded hcl (ht.proposed_num hcall hphase))
  | @answer i _ _ _ hcall hphase hans =>
    have hlog := mpAnswer_logMap hans
    refine hadvance ((h i).congr (fun k j => ?_) (fun k j => ?_))
    · simp only [MpStore.available, hlog]
    · simp only [MpStore.vote, hlog]

theorem allAccounted_of_reachable {ok : MpSystem n → MpAction n → Prop}
    (h : ReachableWhen mpStep ok .init s) : AllAccounted s :=
  h.invariant (fun _ => accounted_empty) (fun _ _ _ hr hu _ he =>
    hu.step (traffic_of_reachable hr) (mpStep_steps he))

theorem available_of_reachable {ok : MpSystem n → MpAction n → Prop}
    (h : ReachableWhen mpStep ok s t) {b : Fin n} {key : Bytes} {i : ℕ}
    (hi : (s.servers b).store.available key i = false) :
    (t.servers b).store.available key i = false := by
  induction h with
  | refl => exact hi
  | tail _ hstep ih =>
    obtain ⟨a, _, he⟩ := hstep
    exact (mpStep_steps he).available_anti ih

/-- The slots below the one that a call in progress picked are taken. -/
def TakenBelow (s : MpSystem n) : Prop :=
  ∀ b call, (s.servers b).call = some call → ∀ j < call.currIdx,
    (s.servers b).store.available call.key j = false

theorem TakenBelow.step (h : TakenBelow s) (hs : MpSteps s a t) : TakenBelow t := by
  intro b call' hc j hj
  have hkept : ∀ call : InsertCall, (s.servers b).call = some call →
      call'.origCmd.content = call.origCmd.content → call'.currIdx = call.currIdx →
      (t.servers b).store.available call'.key j = false := by
    intro call hcall hcontent hidx
    rw [InsertCall.key_congr hcontent]
    exact hs.available_anti (h b call hcall j (hidx ▸ hj))
  cases hs.callStep hc with
  | kept hcall _ hcontent hidx => exact hkept _ hcall hcontent hidx
  | recorded hcall _ _ _ hcontent hidx => exact hkept _ hcall hcontent hidx
  | started ha hstart => exact hs.available_anti (hstart.below j hj)
  | @moved call round tempCmd cl ha hcall hphase hcl hid hi _ hcontent =>
    rw [InsertCall.key_congr hcontent]
    subst ha
    by_cases hjc : j = call.currIdx
    · -- the slot that the call was defeated at
      subst hjc
      exact hs.defeated_available hcall (by simpa [InsertCall.Defeated, hphase] using hid)
    · apply hs.available_anti
      have hbelow := (CommandsList.firstAvailable_eq_some hi).2.2 j hj
      rw [CommandsList.eraseSlot_nextAvailableSlot, if_neg hjc] at hbelow
      simpa only [MpStore.available, hcl] using hbelow

theorem takenBelow_of_reachable {ok : MpSystem n → MpAction n → Prop}
    (h : ReachableWhen mpStep ok .init s) : TakenBelow s :=
  h.invariant (fun _ _ hc => by simp [MpSystem.init, MpServer.start] at hc)
    (fun _ _ _ _ hu _ he => hu.step (mpStep_steps he))

theorem TakenBelow.filled (h : TakenBelow s) (ht : Traffic s) (hacc : AllAccounted s) {b : Fin n}
    {call : InsertCall} (hcall : (s.servers b).call = some call) {j : ℕ} (hj : j < call.currIdx) :
    (s.servers b).store.Filled call.key j := by
  have hlt := ((ht.servers b).call call hcall).lt
  have hremoved := (removed_iff (hj.trans hlt)).mpr (h b call hcall j hj)
  exact ((hacc b).removed_iff_filled (hj.trans hlt)).mp hremoved

end System

/-- In every reachable state the removed slots are the filled ones, they stay removed,
and all slots below the one that a call picked are filled. -/
theorem slots_accounted (s : MpSystem n) (h : Reachable mpStep .init s) :
    (∀ b key, ∀ i < initCommandLength,
      (s.servers b).store.Removed key i ↔ (s.servers b).store.Filled key i) ∧
    (∀ t, Reachable mpStep s t → ∀ b key, ∀ i < initCommandLength,
      (s.servers b).store.Removed key i → (t.servers b).store.Removed key i) ∧
    ∀ b call, (s.servers b).call = some call → ∀ j < call.currIdx,
      (s.servers b).store.Filled call.key j := by
  have hacc := allAccounted_of_reachable h
  have htaken := takenBelow_of_reachable h
  refine ⟨fun b key i hi => (hacc b).removed_iff_filled hi, fun t ht b key i hi hr => ?_,
    fun b call hcall j hj => htaken.filled (traffic_of_reachable h) hacc hcall hj⟩
  rw [removed_iff hi] at hr ⊢
  exact available_of_reachable ht hr

/-- Server 1 learns of a command in slot 0 and takes its own to slot 1. -/
theorem learningRun_accounted : ∃ s : MpSystem 3,
    runWhen mpStep (fun _ _ => True) .init learningRun = some s ∧
    (s.servers 1).call.map (fun call => (call.key, call.currIdx)) = some ([107], 1) ∧
    (s.servers 1).store.Filled [107] 0 := by
  obtain ⟨s, hs, hcall⟩ := exists_of_run
    (P := fun s : MpSystem 3 =>
      (s.servers 1).call.map (fun call => (call.key, call.currIdx)) = some ([107], 1))
    (show (runWhen mpStep (fun _ _ => True) .init learningRun).any _ = true by decide +kernel)
  obtain ⟨call, hc, he⟩ := Option.map_eq_some_iff.mp hcall
  obtain ⟨hkey, hidx⟩ := Prod.mk.inj he
  have hfilled := (slots_accounted s (reachableWhen_of_runWhen hs)).2.2 1 call hc 0
    (hidx ▸ Nat.zero_lt_one)
  exact ⟨s, hs, hcall, hkey ▸ hfilled⟩

end KeyValueStore
