import KeyValueStore.CommandPlaces
import KeyValueStore.DecidedReads
import KeyValueStore.SoloRounds
import Mathlib.Data.Finset.Range

/-! Obstruction freedom of Multi-Paxos. While no other server proposes, a call of
`insert_command` returns with the help of half of the other servers, whatever is
already promised and accepted, or runs out of slots. -/

namespace KeyValueStore

variable {n : ℕ} {i : Fin n} {q : List (Fin n)} {mem : Uninit} {s t u : MpSystem n}
  {call call' : InsertCall}

section Finish

theorem mpAnswer_isSome {st : MpStore} {request : KeyStoreRequest}
    (hlog : (st.logMap (cStr request.key)).isSome) (idx : ℕ) :
    (mpAnswer st request idx).isSome := by
  obtain ⟨cl, hcl⟩ := Option.isSome_iff_exists.mp hlog
  by_cases hread : request.type = .read
  · rcases mpAnswer_read idx hread hcl with ⟨_, he⟩ | ⟨_, _, _, _, he⟩ <;> simp [he]
  · unfold mpAnswer
    split
    next ht => exact absurd ht hread
    next => rfl

theorem callOfRequest_of_reachable (h : Reachable mpStep .init s)
    (hcall : (s.servers i).call = some call) : CallOfRequest call := by
  have hall : ∀ b c, (s.servers b).call = some c → CallOfRequest c :=
    h.invariant (by simp [MpSystem.init, MpServer.start])
      (fun _ _ _ _ hu _ he _ _ hc => (mpStep_steps he).callOfRequest hu hc)
  exact hall i call hcall

/-- The last thing that happened is that server `i` answered the client. -/
def Served (i : Fin n) (request : KeyStoreRequest) (s : MpSystem n) : Prop :=
  (s.servers i).call = none ∧ ∃ k reply, s.history.head? = some (.answered i request k reply)

/-- A defeated call has no slot left to go to. -/
def LogFull (i : Fin n) (s : MpSystem n) : Prop :=
  ∃ call, (s.servers i).call = some call ∧ call.Defeated ∧
    ∀ j < initCommandLength, j ≠ call.currIdx →
      (s.servers i).store.available call.key j = false

/-- A call that may start a round, with room for a higher number at its slot. -/
structure Ready (q : List (Fin n)) (i : Fin n) (request : KeyStoreRequest) (call : InsertCall)
    (s : MpSystem n) : Prop where
  solo : Solo q i call s
  phase : call.phase = .roundStart
  request : call.request = request
  room : ∀ a ∈ q, ((s.servers a).store.promise call.key call.currIdx).proposalNum < Int32.maxValue

/-- A defeated call went on to another free slot. -/
structure Moved (i : Fin n) (call call' : InsertCall) (s t : MpSystem n) : Prop where
  key : call'.key = call.key
  ne : call'.currIdx ≠ call.currIdx
  free : (s.servers i).store.available call.key call'.currIdx = true
  available : ∀ j, (t.servers i).store.available call.key j = true →
    j ≠ call.currIdx ∧ (s.servers i).store.available call.key j = true

theorem Solo.finishOwn (h : Solo q i call s) {round : ℕ} {tempCmd : Command}
    (hphase : call.phase = .proposed round tempCmd)
    (hid : call.origCmd.commandId = tempCmd.commandId)
    (hmin : tempCmd.acceptedProposal = (s.servers i).store.promise call.key call.currIdx) :
    Within mpStep (Undisturbed i q mem) 2 s (Served i call.request) := by
  obtain ⟨cl, hcl⟩ := Option.isSome_iff_exists.mp h.fits.log
  have hlocal : tempCmd.acceptedProposal = (cl.cmdVec call.currIdx).minProposalNum := by
    rw [hmin, MpStore.promise, hcl]
  let origCmd : Command :=
    { call.origCmd with minProposalNum := (cl.cmdVec call.currIdx).minProposalNum }
  let st := (s.servers i).store.setLog call.key (recordedLog cl call.currIdx origCmd)
  have hrec : recordCommand (s.servers i).store call.origCmd tempCmd call.currIdx =
      some (.own st origCmd) := by
    have hlog : (s.servers i).store.logMap (cStr call.origCmd.key) = some cl := hcl
    simp only [recordCommand, hlog, Option.bind_some, if_pos hid, hlocal, and_self, if_true]
    rfl
  let server : MpServer := { s.servers i with
    store := st, call := some { call with origCmd, phase := .returned } }
  let events : List (MpEvent n) := [.returned i call.key call.currIdx origCmd.commandId,
    .recorded i call.key call.currIdx origCmd.content, .accepted i call.key call.currIdx origCmd false]
  have hstep : mpStep s (.finish i) = some (s.advance i server events) := by
    simp only [mpStep, h.running, hphase, finishStep, hrec, Option.map_some]
    rfl
  have hkey : call.key = cStr call.request.key := congrArg (fun c => cStr (Content.key c))
    (callOfRequest_of_reachable h.reached h.running)
  obtain ⟨⟨st', reply⟩, hans⟩ := Option.isSome_iff_exists.mp
    (@mpAnswer_isSome st call.request (by simp [st, ← hkey, MpStore.setLog]) call.currIdx)
  have hanswer : mpStep (s.advance i server events) (.answer i) =
      some ((s.advance i server events).advance i { server with store := st', call := none }
        [.answered i call.request call.currIdx reply]) := by
    simp only [mpStep, MpSystem.advance_servers_self, server, hans, Option.map_some]
  refine .after (.finish i) rfl hstep (.after (.answer i) rfl hanswer (.now (k := 0) ⟨?_, ?_⟩))
  · rw [MpSystem.advance_servers_self]
  · exact ⟨call.currIdx, reply, rfl⟩

theorem firstAvailable_eq_none {cl : CommandsList} (h : cl.firstAvailable = none) :
    ∀ j < initCommandLength, cl.nextAvailableSlot j = false := by
  intro j hj
  have hnone := List.find?_eq_none.mp h j (List.mem_range'_1.mpr ⟨Nat.zero_le j, by omega⟩)
  simpa using hnone

theorem Solo.finishDefeated (hq : Helpers i q mem) (h : Solo q i call s) {round : ℕ}
    {tempCmd : Command} (hphase : call.phase = .proposed round tempCmd)
    (hid : call.origCmd.commandId ≠ tempCmd.commandId) :
    Within mpStep (Undisturbed i q mem) 1 s (fun t => LogFull i t ∨
      ∃ call', Ready q i call.request call' t ∧ Moved i call call' s t) := by
  obtain ⟨cl, hcl⟩ := Option.isSome_iff_exists.mp h.fits.log
  have hav : ∀ j, (s.servers i).store.available call.key j = cl.nextAvailableSlot j := fun j => by
    simp [MpStore.available, hcl]
  have herased : ∀ j, (recordedLog cl call.currIdx tempCmd).nextAvailableSlot j =
      if j = call.currIdx then false else (s.servers i).store.available call.key j := fun j => by
    simp [recordedLog, hav]
  cases hfirst : (recordedLog cl call.currIdx tempCmd).firstAvailable with
  | none =>
    refine .now (.inl ⟨call, h.running, by simpa [InsertCall.Defeated, hphase] using hid, ?_⟩)
    intro j hj hne
    have hnone := firstAvailable_eq_none hfirst j hj
    rwa [herased, if_neg hne] at hnone
  | some k =>
    obtain ⟨hlt, hfree, _⟩ := CommandsList.firstAvailable_eq_some hfirst
    rw [herased] at hfree
    have hne : k ≠ call.currIdx := fun he => by simp [he] at hfree
    rw [if_neg hne] at hfree
    let origCmd : Command := { call.origCmd with
      index := k.toUInt32
      acceptedProposal := { call.origCmd.acceptedProposal with proposalNum := 0 }
      minProposalNum := { call.origCmd.minProposalNum with proposalNum := 0 } }
    let call' : InsertCall := { call with origCmd, currIdx := k, phase := .roundStart }
    let server : MpServer := { s.servers i with
      store := (s.servers i).store.setLog call.key (recordedLog cl call.currIdx tempCmd)
      call := some call' }
    let events : List (MpEvent n) := [.recorded i call.key call.currIdx tempCmd.content,
      .accepted i call.key call.currIdx tempCmd false]
    have hrec : recordCommand (s.servers i).store call.origCmd tempCmd call.currIdx =
        some (.defeated server.store origCmd k) := by
      have hlog : (s.servers i).store.logMap (cStr call.origCmd.key) = some cl := hcl
      have hfirst' : ((cl.setCmd call.currIdx tempCmd).eraseSlot call.currIdx).firstAvailable =
        some k := hfirst
      simp only [recordCommand, hlog, Option.bind_some, if_neg hid, hfirst', Option.map_some]
      rfl
    have hstep : mpStep s (.finish i) = some (s.advance i server events) := by
      simp only [mpStep, h.running, hphase, finishStep, hrec, Option.map_some]
      rfl
    have hself := s.advance_servers_self i server events
    have hothers : ∀ a ∈ q, (s.advance i server events).servers a = s.servers a := fun a ha => by
      rw [MpSystem.advance_servers, if_neg (hq.ne ha)]
    have hleft : ∀ j, ((s.advance i server events).servers i).store.available call.key j =
        if j = call.currIdx then false else (s.servers i).store.available call.key j := by
      intro j
      rw [hself]
      show ((s.servers i).store.setLog call.key _).available call.key j = _
      rw [recordedLog_available hcl]
      simp
    have hbefore : ∀ j, ((s.advance i server events).servers i).store.available call.key j = true →
        j ≠ call.currIdx ∧ (s.servers i).store.available call.key j = true := by
      intro j hj
      rw [hleft] at hj
      split at hj
      next => simp at hj
      next hne => exact ⟨hne, hj⟩
    have hsolo : Solo q i call' (s.advance i server events) := {
      reached := h.reached.tail ⟨_, trivial, hstep⟩
      running := by rw [hself]
      key := h.key
      id := h.id
      filled := fun a ha => hothers a ha ▸ h.filled a ha
      room := fun a ha j hlt _ hj => by
        obtain ⟨hne', hj'⟩ := hbefore j hj
        rw [hothers a ha]
        exact h.room a ha j hlt hne' hj' }
    refine .after (.finish i) rfl hstep (.now (k := 0) (.inr ⟨call', ⟨hsolo, rfl, rfl, ?_⟩, rfl, hne, hfree,
      hbefore⟩))
    intro a ha
    rw [hothers a ha]
    exact h.room a ha k hlt hne hfree

end Finish

section Rank

/-- The slots that the call may still go to, and the one that it is at. -/
def MpSystem.slotsLeft (s : MpSystem n) (i : Fin n) : ℕ :=
  match (s.servers i).call with
  | some call =>
    if call.phase = .roundStart then
      ((Finset.range initCommandLength).filter (fun j =>
        j ≠ call.currIdx ∧ (s.servers i).store.available call.key j = true)).card + 1
    else 0
  | none => 0

variable {request : KeyStoreRequest}

theorem Ready.slotsLeft_eq (h : Ready q i request call s) : s.slotsLeft i =
    ((Finset.range initCommandLength).filter (fun j =>
      j ≠ call.currIdx ∧ (s.servers i).store.available call.key j = true)).card + 1 := by
  simp only [MpSystem.slotsLeft, h.solo.running, h.phase, if_true]

theorem Ready.slotsLeft_le (h : Ready q i request call s) : s.slotsLeft i ≤ initCommandLength := by
  have hlt := h.solo.fits.lt
  have hsub : (Finset.range initCommandLength).filter (fun j =>
      j ≠ call.currIdx ∧ (s.servers i).store.available call.key j = true) ⊆
      (Finset.range initCommandLength).erase call.currIdx := by
    intro j hj
    obtain ⟨hr, hne, _⟩ := Finset.mem_filter.mp hj
    exact Finset.mem_erase.mpr ⟨hne, hr⟩
  have hcard := Finset.card_le_card hsub
  rw [Finset.card_erase_of_mem (Finset.mem_range.mpr hlt), Finset.card_range] at hcard
  rw [h.slotsLeft_eq]
  omega

theorem Moved.slotsLeft_lt (hm : Moved i call call' s t) (h : Ready q i request call s)
    (h' : Ready q i request call' t) : t.slotsLeft i < s.slotsLeft i := by
  rw [h.slotsLeft_eq, h'.slotsLeft_eq]
  refine Nat.succ_lt_succ (Finset.card_lt_card (Finset.ssubset_iff_of_subset ?_ |>.mpr ?_))
  · intro j hj
    obtain ⟨hr, _, hav⟩ := Finset.mem_filter.mp hj
    rw [hm.key] at hav
    exact Finset.mem_filter.mpr ⟨hr, hm.available j hav⟩
  · refine ⟨call'.currIdx, Finset.mem_filter.mpr ⟨Finset.mem_range.mpr h'.solo.fits.lt, hm.ne,
      hm.free⟩, fun hj => ?_⟩
    exact (Finset.mem_filter.mp hj).2.1 rfl

theorem Served.slotsLeft (h : Served i request s) : s.slotsLeft i = 0 := by
  simp only [MpSystem.slotsLeft, h.1]

theorem LogFull.slotsLeft (h : LogFull i s) : s.slotsLeft i = 0 := by
  obtain ⟨call, hcall, hdefeated, _⟩ := h
  have hphase : call.phase ≠ .roundStart := fun he => by simp [InsertCall.Defeated, he] at hdefeated
  simp only [MpSystem.slotsLeft, hcall, if_neg hphase]

end Rank

section Served

variable {request : KeyStoreRequest}

theorem Moved.before {call₀ : InsertCall} (h : Moved i call call' s t)
    (hsame : SameSlot i call₀ call u s) : Moved i call₀ call' u t where
  key := h.key.trans hsame.key_eq
  ne := hsame.idx ▸ h.ne
  free := hsame.key_eq ▸ (hsame.available _ _).symm.trans h.free
  available j hj := by
    have hkey := hsame.key_eq
    obtain ⟨hne, hav⟩ := h.available j (hkey.symm ▸ hj)
    exact ⟨hsame.idx ▸ hne, (hsame.available _ _).symm.trans (hkey ▸ hav)⟩

/-- At most two rounds fill a slot. -/
theorem Ready.attempt (hq : Helpers i q mem) (h : Ready q i request call s) :
    Within mpStep (Undisturbed i q mem) (3 * q.length + 7) s (fun t =>
      (Served i request t ∨ LogFull i t) ∨
        ∃ call', Ready q i request call' t ∧ Moved i call call' s t) := by
  have hfinish : ∀ {call₁ u}, Solo q i call₁ u → SameSlot i call call₁ s u →
      (∃ r sentCmd, Accepting q i call₁ r sentCmd u) →
      Within mpStep (Undisturbed i q mem) (q.length + 3) u (fun t =>
        (Served i request t ∨ LogFull i t) ∨
          ∃ call', Ready q i request call' t ∧ Moved i call call' s t) := by
    rintro call₁ u h₁ hsame₁ ⟨r, sentCmd, hacc⟩
    refine (h₁.accepted hq hacc).bind (m := 2) fun t ⟨call₂, round, tempCmd, h₂, hsame₂, hphase, hmin⟩ => ?_
    have hsame := hsame₁.trans hsame₂
    have hreq : call₂.request = request := hsame.request.trans h.request
    by_cases hid : call₂.origCmd.commandId = tempCmd.commandId
    · exact (h₂.finishOwn hphase hid hmin).mono le_rfl (fun t ht => .inl (.inl (hreq ▸ ht)))
    · refine (h₂.finishDefeated hq hphase hid).mono (by omega) (fun t ht => ?_)
      rcases ht with hfull | ⟨call₃, hready, hmoved⟩
      · exact .inl (.inr hfull)
      · exact .inr ⟨call₃, hreq ▸ hready, hmoved.before hsame⟩
  have hround := h.solo.round hq h.phase (fun _ => h.room)
  refine (hround.bind (m := 2 * q.length + 5) fun t ⟨call₁, h₁, hsame₁, hnext⟩ => ?_).mono (by omega)
    fun _ ht => ht
  rcases hnext with ⟨_, hphase₁, hahead⟩ | hacc
  · have hround₁ := h₁.round hq hphase₁ (fun hnot => absurd hahead hnot)
    refine (hround₁.bind (m := q.length + 3) fun u ⟨call₂, h₂, hsame₂, hnext₂⟩ => ?_).mono (by omega)
      fun _ ht => ht
    rcases hnext₂ with ⟨hnot, _⟩ | hacc
    · exact absurd hahead hnot
    · exact hfinish h₂ (hsame₁.trans hsame₂) hacc
  · exact (hfinish h₁ hsame₁ hacc).mono (by omega) fun _ ht => ht

/-- A call that starts a round answers its client, or fills its log, while nobody
disturbs it, in a number of steps that depends on the helpers and the log alone. -/
theorem undisturbed_served (hq : Helpers i q mem) (h : ReachableWhen mpStep SafeStep .init s)
    (hcall : (s.servers i).call = some call) (hphase : call.phase = .roundStart)
    (hroom : ∀ a ∈ q, ∀ j < initCommandLength,
      ((s.servers a).store.promise call.key j).proposalNum < Int32.maxValue) :
    Within mpStep (Undisturbed i q mem) ((3 * q.length + 7) * initCommandLength) s
      (fun t => Served i call.request t ∨ LogFull i t) := by
  have hu := paxosInv_of_reachable h
  have hreached : Reachable mpStep .init s := h.mono (fun _ _ _ => trivial)
  have hsolo : Solo q i call s := ⟨hreached, hcall, (hu.calls i call hcall).key,
    (hu.calls i call hcall).id, fun a _ => hu.filled a, fun a ha j hj _ _ => hroom a ha j hj⟩
  have hready : Ready q i call.request call s :=
    ⟨hsolo, hphase, rfl, fun a ha => hroom a ha _ hsolo.fits.lt⟩
  have hdescend : Within mpStep (Undisturbed i q mem) ((3 * q.length + 7) * s.slotsLeft i) s
      (fun t => Served i call.request t ∨ LogFull i t) := by
    refine .descend (P := fun u => (Served i call.request u ∨ LogFull i u) ∨
      ∃ call', Ready q i call.request call' u) (fun u => u.slotsLeft i) (fun u hu => ?_)
      (.inr ⟨call, hready⟩)
    rcases hu with hdone | ⟨call₁, h₁⟩
    · exact .inl hdone
    · refine .inr ((h₁.attempt hq).mono le_rfl fun t ht => ?_)
      rcases ht with hdone | ⟨call₂, h₂, hmoved⟩
      · refine ⟨.inl hdone, ?_⟩
        have hpos := h₁.slotsLeft_eq
        rcases hdone with hserved | hfull
        · rw [hserved.slotsLeft]
          omega
        · rw [hfull.slotsLeft]
          omega
      · exact ⟨.inr ⟨call₂, h₂⟩, hmoved.slotsLeft_lt h₁ h₂⟩
  exact hdescend.mono (Nat.mul_le_mul_left _ hready.slotsLeft_le) fun _ ht => ht

/-- Server 2 has promised its slot to server 0 when a call of its own starts there. -/
def contendedRun : List (MpAction 3) :=
  [.insertCommand 0 (putRequest 1 49) 10 readTypes, .startRound 0, .handle 1 blankMemory,
    .insertCommand 2 (putRequest 3 51) 30 readTypes]

theorem contendedRun_served : ∃ s : MpSystem 3,
    runWhen mpStep SafeStep .init contendedRun = some s ∧
    (s.servers 2).store.promise [107] 0 = ⟨1, 0⟩ ∧
    Within mpStep (Undisturbed 2 [1] blankMemory) ((3 * 1 + 7) * initCommandLength) s
      (fun t => Served 2 (putRequest 3 51) t ∨ LogFull 2 t) := by
  obtain ⟨s, hs, hpromise, hcall, hnone⟩ := exists_of_run (P := fun s : MpSystem 3 =>
    (s.servers 2).store.promise [107] 0 = ⟨1, 0⟩ ∧
    ((s.servers 2).call.any (fun call : InsertCall => call.request = putRequest 3 51 ∧
      call.key = [107] ∧ call.phase = .roundStart)) = true ∧
    ((s.servers 1).store.logMap [107]).isNone = true)
    (show (runWhen mpStep SafeStep .init contendedRun).any _ = true by decide +kernel)
  obtain ⟨call, hc, hreq⟩ := (Option.any_eq_true _ _).mp hcall
  obtain ⟨hreq, hkey, hphase⟩ := of_decide_eq_true hreq
  have hhelp : Helpers (2 : Fin 3) [1] blankMemory :=
    ⟨by decide, by decide, by decide, by decide, by decide⟩
  refine ⟨s, hs, hpromise,
    hreq ▸ undisturbed_served hhelp (reachableWhen_of_runWhen hs) hc hphase ?_⟩
  intro a ha j _
  rw [List.mem_singleton.mp ha, hkey, MpStore.promise, Option.isNone_iff_eq_none.mp hnone]
  exact show Proposal.unset.proposalNum < Int32.maxValue by decide

end Served

end KeyValueStore
