import KeyValueStore.CommandPlaces
import KeyValueStore.RealTimeOrder

/-! Exactly-once execution of Multi-Paxos calls. A call that finds its command
defeated takes it to another slot under the same id, whether or not copies of it
are left; when none is, all copies of a command stay together. -/

namespace KeyValueStore

variable {n : ℕ} {s t : MpSystem n} {a : MpAction n}

section Condition

/-- No other log holds the call's command at its slot, no ACCEPT with it is left
to handle, and no other call was told, proposes or saw it accepted. -/
def NoCopyLeft (s : MpSystem n) (i : Fin n) (call : InsertCall) : Prop :=
  (∀ b ≠ i, (s.servers b).store.commandIdAt call.key call.currIdx ≠ call.origCmd.commandId) ∧
  (∀ rpc ∈ s.calls, ∀ request ∈ s.payload rpc.src rpc.call, request.mptype = .accept →
    request.commandId ≠ call.origCmd.commandId) ∧
  ∀ b ≠ i, ∀ call' ∈ (s.servers b).call, ∀ c ∈ s.inHand b call',
    c.commandId ≠ call.origCmd.commandId

/-- A step that starts a command under a new id or 0, and that moves a defeated
command only when no copy of it is left. -/
def OnceStep (s : MpSystem n) : MpAction n → Prop
  | .insertCommand _ request rand _ => request.key ≠ [] ∧
      (newCommandId rand request ≠ 0 → newCommandId rand request ∉ s.calledIds)
  | .finishAccept i order junk => JunkDiffers s i order junk
  | .finish i => ∀ call ∈ (s.servers i).call, call.Defeated → call.origCmd.commandId ≠ 0 →
      NoCopyLeft s i call
  | _ => True

instance (s : MpSystem n) (i : Fin n) (call : InsertCall) : Decidable (NoCopyLeft s i call) :=
  inferInstanceAs (Decidable ((∀ b ≠ i, _ ≠ _) ∧ (∀ rpc ∈ s.calls, ∀ request ∈ _, _ → _ ≠ _) ∧
    ∀ b ≠ i, ∀ call' ∈ (s.servers b).call, ∀ c ∈ s.inHand b call', _ ≠ _))

instance (s : MpSystem n) (a : MpAction n) : Decidable (OnceStep s a) :=
  match a with
  | .insertCommand _ request rand _ => inferInstanceAs (Decidable (request.key ≠ [] ∧
      (newCommandId rand request ≠ 0 → newCommandId rand request ∉ s.calledIds)))
  | .finishAccept i order junk => inferInstanceAs (Decidable (JunkDiffers s i order junk))
  | .finish i => inferInstanceAs (Decidable (∀ call ∈ (s.servers i).call, call.Defeated →
      call.origCmd.commandId ≠ 0 → NoCopyLeft s i call))
  | .startRound _ | .handle _ _ | .finishPrepare _ _ _ | .answer _ => .isTrue trivial

theorem OnceStep.keepsPlaces (h : OnceStep s a) : KeepsPlaces s a := by
  cases a with
  | insertCommand => exact h.1
  | finishAccept => exact h
  | _ => trivial

end Condition

section Ids

variable {b : Fin n}

theorem MpSteps.called_new {i : Fin n} {request : KeyStoreRequest} {rand : UInt32}
    {types : ℕ → RequestType} (hs : MpSteps s (.insertCommand i request rand types) t) :
    newCommandId rand request ∈ t.calledIds := by
  cases hs with
  | insertCommand hidle hstart =>
    have hid : _ = newCommandId rand request := congrArg Content.commandId hstart.content
    exact mem_calledIds.mpr ⟨i, request, hid ▸ List.mem_cons_self⟩

theorem MpSteps.owner (hs : MpSteps s a t) {call' : InsertCall}
    (hc : (t.servers b).call = some call') :
    (∃ call, (s.servers b).call = some call ∧
      call'.origCmd.commandId = call.origCmd.commandId) ∨
    ∃ request rand types, a = .insertCommand b request rand types ∧
      call'.origCmd.commandId = newCommandId rand request := by
  rcases hs.newPlace hc with hnew | ⟨call, hcall, hcontent, _⟩
  · cases hnew with
    | started ha hid => exact .inr ⟨_, _, _, ha, hid⟩
    | moved _ hcall _ hcontent => exact .inl ⟨_, hcall, congrArg Content.commandId hcontent⟩
  · exact .inl ⟨call, hcall, congrArg Content.commandId hcontent⟩

end Ids

section Invariant

structure Once (s : MpSystem n) : Prop where
  known : Placed (fun id _ _ => id ∈ s.calledIds) s
  owners : ∀ b c call call', (s.servers b).call = some call → (s.servers c).call = some call' →
    call.origCmd.commandId ≠ 0 → call.origCmd.commandId = call'.origCmd.commandId → b = c
  together : ∀ id key j key' j', id ≠ 0 → Copy s id key j → Copy s id key' j' →
    key = key' ∧ j = j'

theorem once_init : Once (MpSystem.init : MpSystem n) where
  known := placed_init
  owners := by simp [MpSystem.init, MpServer.start]
  together id key j key' j' hid hc :=
    (Placed.of_copy (Q := fun _ _ _ => False) placed_init hid hc).elim

theorem Once.known_of_copy (h : Once s) {id : UInt32} (hid : id ≠ 0) {key : Bytes} {j : ℕ}
    (hc : Copy s id key j) : id ∈ s.calledIds := h.known.of_copy hid hc

theorem Once.known_step (h : Once s) (ht : Traffic s) (hok : OnceStep s a)
    (hs : MpSteps s a t) : Placed (fun id _ _ => id ∈ t.calledIds) t := by
  have hold : Placed (fun id _ _ => id ∈ t.calledIds) s :=
    h.known.copies (fun _ _ _ hid hc => hs.extends.calledIds_mono (h.known_of_copy hid hc))
  refine hold.step ht hok.keepsPlaces hs (fun b call' hc hnew hid => ?_)
  rcases hs.owner hc with ⟨call, hcall, hsame⟩ | ⟨request, rand, types, rfl, hsame⟩
  · rw [hsame] at hid ⊢
    exact (hold.own b call hcall).2 hid
  · exact hsame ▸ hs.called_new

theorem Once.no_copy_of_new (h : Once s) {i : Fin n} {request : KeyStoreRequest} {rand : UInt32}
    {types : ℕ → RequestType} (hok : OnceStep s (.insertCommand i request rand types))
    (hid : newCommandId rand request ≠ 0) (key : Bytes) (j : ℕ) :
    ¬ Copy s (newCommandId rand request) key j :=
  fun hc => hok.2 hid (h.known_of_copy hid hc)

theorem Once.owners_step (h : Once s) (hok : OnceStep s a) (hs : MpSteps s a t) {b c : Fin n}
    {call call' : InsertCall} (hb : (t.servers b).call = some call)
    (hc : (t.servers c).call = some call') (hid : call.origCmd.commandId ≠ 0)
    (he : call.origCmd.commandId = call'.origCmd.commandId) : b = c := by
  rcases hs.owner hb with ⟨call₀, hb₀, hsame⟩ | ⟨request, rand, types, rfl, hsame⟩
  · rcases hs.owner hc with ⟨call₁, hc₁, hsame'⟩ | ⟨request, rand, types, rfl, hsame'⟩
    · exact h.owners b c call₀ call₁ hb₀ hc₁ (hsame ▸ hid) (by rw [← hsame, ← hsame', he])
    · have hnew : call₀.origCmd.commandId = newCommandId rand request := by
        rw [← hsame, ← hsame', he]
      exact absurd (.own hb₀ hnew) (h.no_copy_of_new hok (hnew ▸ hsame ▸ hid) _ _)
  · rcases hs.owner hc with ⟨call₁, hc₁, hsame'⟩ | ⟨_, _, _, ha, _⟩
    · have hnew : call₁.origCmd.commandId = newCommandId rand request := by
        rw [← hsame, ← hsame', he]
      exact absurd (.own hc₁ hnew) (h.no_copy_of_new hok (hsame ▸ hid) _ _)
    · cases ha
      rfl

/-- When no copy was left, the copies of a moved command are where it moved to. -/
theorem Once.moved_copy (h : Once s) {i : Fin n} {call : InsertCall}
    (hs : MpSteps s (.finish i) t) (hcall : (s.servers i).call = some call)
    (hdefeated : call.Defeated) (hid : call.origCmd.commandId ≠ 0) (hleft : NoCopyLeft s i call)
    {key : Bytes} {j : ℕ} (hc : Copy t call.origCmd.commandId key j) :
    ∃ call', (t.servers i).call = some call' ∧ call'.key = key ∧ call'.currIdx = j ∧
      j ≠ call.currIdx := by
  obtain ⟨tempCmd, cl, call', events, hne, hcl, rfl, hphase, hkey, hidx⟩ :=
    hs.finish_defeated hcall hdefeated
  obtain ⟨hlogs, hsent, hcalls⟩ := hleft
  cases hc with
  | @held b _ _ he =>
    rw [MpSystem.advance_servers] at he
    split at he
    next =>
      dsimp only at he
      rw [recordedLog_commandIdAt hcl] at he
      split at he
      next => exact absurd he.symm hne
      next hother => exact absurd (h.together _ _ _ _ _ hid (.held he) (.own hcall rfl)) hother
    next hb =>
      obtain ⟨rfl, rfl⟩ := h.together _ _ _ _ _ hid (.held he) (.own hcall rfl)
      exact absurd he (hlogs b hb)
  | @sent rpc request hrpc hreq htype he =>
    rw [MpSystem.payload_advance] at hreq
    · exact absurd he (hsent rpc hrpc request hreq htype)
    · rfl
  | @inHand b call₁ c hc hin he =>
    by_cases hb : b = i
    · subst hb
      rw [MpSystem.advance_servers_self] at hc
      obtain rfl := Option.some.inj hc
      rw [inHand_eq_nil (.inl hphase)] at hin
      simp at hin
    · rw [MpSystem.advance_servers, if_neg hb] at hc
      exact absurd he (hcalls b hb call₁ hc c hin)
  | @own b call₁ hc he =>
    by_cases hb : b = i
    · subst hb
      rw [MpSystem.advance_servers_self] at hc
      obtain rfl := Option.some.inj hc
      exact ⟨call', by rw [MpSystem.advance_servers_self], rfl, rfl, hidx⟩
    · rw [MpSystem.advance_servers, if_neg hb] at hc
      exact absurd (h.owners b i _ _ hc hcall (he ▸ hid) he) hb

theorem Once.together_step (h : Once s) (ht : Traffic s) (hok : OnceStep s a)
    (hs : MpSteps s a t) {id : UInt32} {key key' : Bytes} {j j' : ℕ} (hid : id ≠ 0)
    (hc : Copy t id key j) (hc' : Copy t id key' j') : key = key' ∧ j = j' := by
  -- a place is new only when all copies are there
  have hnew : ∀ b call, (t.servers b).call = some call → NewPlace s a b call →
      call.origCmd.commandId = id → ∀ key j, Copy t id key j →
        key = call.key ∧ j = call.currIdx := by
    intro b call hcall hplace he key j hcopy
    cases hplace with
    | @started request rand types ha hnewId =>
      subst ha
      rcases hs.copy_origin ht h.known hok.keepsPlaces hid hcopy with hold | hplace
      · have hnone := h.no_copy_of_new hok (hnewId ▸ he.symm ▸ hid) key j
        exact absurd (hnewId ▸ he.symm ▸ hold) hnone
      · obtain ⟨b', call', hcall', hplace', _, rfl, rfl⟩ := hplace
        cases hplace' with
        | started ha' =>
          cases ha'
          obtain rfl := Option.some.inj (hcall.symm.trans hcall')
          exact ⟨rfl, rfl⟩
        | moved ha' => cases ha'
    | @moved call₀ ha hcall₀ hdefeated hcontent =>
      subst ha
      have hsame : call.origCmd.commandId = call₀.origCmd.commandId :=
        congrArg Content.commandId hcontent
      have hid₀ : call₀.origCmd.commandId ≠ 0 := hsame ▸ he.symm ▸ hid
      obtain ⟨call', hcall', rfl, rfl, _⟩ := h.moved_copy hs hcall₀ hdefeated hid₀
        (hok call₀ hcall₀ hdefeated hid₀) (hsame ▸ he.symm ▸ hcopy)
      obtain rfl := Option.some.inj (hcall.symm.trans hcall')
      exact ⟨rfl, rfl⟩
  rcases hs.copy_origin ht h.known hok.keepsPlaces hid hc with hold | ⟨b, call, hb, hp, he, rfl, rfl⟩
  · rcases hs.copy_origin ht h.known hok.keepsPlaces hid hc' with
      hold' | ⟨b, call, hb, hp, he, rfl, rfl⟩
    · exact h.together id key j key' j' hid hold hold'
    · exact hnew b call hb hp he key j hc
  · obtain ⟨hk, hj⟩ := hnew b call hb hp he key' j' hc'
    exact ⟨hk.symm, hj.symm⟩

theorem Once.step (h : Once s) (ht : Traffic s) (hok : OnceStep s a) (hs : MpSteps s a t) :
    Once t where
  known := h.known_step ht hok hs
  owners _ _ _ _ hb hc := h.owners_step hok hs hb hc
  together _ _ _ _ _ hid := h.together_step ht hok hs hid

theorem once_of_reachable (h : ReachableWhen mpStep OnceStep .init s) : Once s :=
  h.invariant once_init (fun _ _ _ hr hu ha he =>
    hu.step (traffic_of_reachable hr) ha (mpStep_steps he))

end Invariant

section Moved

/-- The command has left the slot, and its server no longer offers the slot. -/
structure Left (i : Fin n) (id : UInt32) (key : Bytes) (j : ℕ) (s : MpSystem n) : Prop where
  known : id ∈ s.calledIds
  copies : ¬ Copy s id key j
  taken : (s.servers i).store.available key j = false
  owner : ∀ b call, (s.servers b).call = some call → call.origCmd.commandId = id → b = i

variable {i : Fin n} {id : UInt32} {key : Bytes} {j : ℕ}

theorem Once.left (h : Once s) {call : InsertCall} (hok : OnceStep s (.finish i))
    (hcall : (s.servers i).call = some call) (hdefeated : call.Defeated)
    (hid : call.origCmd.commandId ≠ 0) (hs : MpSteps s (.finish i) t) :
    Left i call.origCmd.commandId call.key call.currIdx t where
  known := hs.extends.calledIds_mono ((h.known.own i call hcall).2 hid)
  copies hc := by
    obtain ⟨_, _, _, _, hne⟩ :=
      h.moved_copy hs hcall hdefeated hid (hok call hcall hdefeated hid) hc
    exact hne rfl
  taken := hs.defeated_available hcall hdefeated
  owner b call₁ hc he := by
    rcases hs.owner hc with ⟨call₀, hold, hsame⟩ | ⟨_, _, _, ha, _⟩
    · exact h.owners b i call₀ call hold hcall (hsame ▸ he.symm ▸ hid) (hsame ▸ he)
    · cases ha

theorem Left.step (hl : Left i id key j s) (h : Once s) (ht : Traffic s) (hid : id ≠ 0)
    (hok : OnceStep s a) (hs : MpSteps s a t) : Left i id key j t where
  known := hs.extends.calledIds_mono hl.known
  copies hc := by
    rcases hs.copy_origin ht h.known hok.keepsPlaces hid hc with
      hold | ⟨b, call', hcall', hplace, he, rfl, rfl⟩
    · exact hl.copies hold
    · cases hplace with
      | started ha hnew =>
        subst ha
        rw [hnew] at he
        exact hok.2 (he ▸ hid) (he ▸ hl.known)
      | @moved call ha hcall _ hcontent havailable =>
        have hsame : call'.origCmd.commandId = call.origCmd.commandId :=
          congrArg Content.commandId hcontent
        obtain rfl := hl.owner b call hcall (hsame ▸ he)
        rw [← InsertCall.key_congr hcontent, hl.taken] at havailable
        exact absurd havailable (by decide)
  taken := hs.available_anti hl.taken
  owner b call' hc he := by
    rcases hs.owner hc with ⟨call, hcall, hsame⟩ | ⟨request, rand, types, rfl, hnew⟩
    · exact hl.owner b call hcall (hsame ▸ he)
    · rw [hnew] at he
      exact absurd (he ▸ hl.known) (hok.2 (he ▸ hid))

end Moved

section ExactlyOnce

/-- No log has one command in two slots. -/
def HoldsOnce (s : MpSystem n) : Prop :=
  ∀ b key j k, (s.servers b).store.commandIdAt key j ≠ 0 →
    (s.servers b).store.commandIdAt key k = (s.servers b).store.commandIdAt key j → j = k

/-- Once a call moves its defeated command on, no log has it in the slot that it
left, then or later. -/
def MovesAway (ok : MpSystem n → MpAction n → Prop) (s : MpSystem n) : Prop :=
  ∀ i call t u, (s.servers i).call = some call → call.Defeated → call.origCmd.commandId ≠ 0 →
    ok s (.finish i) → mpStep s (.finish i) = some t → ReachableWhen mpStep ok t u →
      ∀ b, (u.servers b).store.commandIdAt call.key call.currIdx ≠ call.origCmd.commandId

/-- Commands are held once, and stay away from where they were defeated, when
those that move leave no copy behind. -/
theorem commands_once (h : ReachableWhen mpStep OnceStep .init s) :
    HoldsOnce s ∧ MovesAway OnceStep s := by
  have hinv := once_of_reachable h
  refine ⟨fun b key j k hid he => ?_, ?_⟩
  · exact (hinv.together _ key j key k hid (.held rfl) (.held he)).2
  · intro i call t u hcall hdefeated hid hok hstep hu b he
    have ht : ReachableWhen mpStep OnceStep .init t := h.tail ⟨_, hok, hstep⟩
    have hleft : Left i call.origCmd.commandId call.key call.currIdx u :=
      hu.invariant (hinv.left hok hcall hdefeated hid (mpStep_steps hstep))
        (fun v a w hv hl ha he => hl.step (once_of_reachable (ht.trans hv))
          (traffic_of_reachable (ht.trans hv)) hid ha (mpStep_steps he))
    exact hleft.copies (.held he)

/-- Server 1 learns of the choice at slot 0 before it sends an ACCEPT of its own,
and takes its command to slot 1. -/
theorem movingRun_once : ∃ s : MpSystem 3, runWhen mpStep OnceStep .init movingRun = some s ∧
    (s.servers 1).store.commandIdAt [107] 0 = 11 ∧ (s.servers 1).store.commandIdAt [107] 1 = 22 ∧
    HoldsOnce s ∧ MovesAway OnceStep s := by
  obtain ⟨s, hs, h₀, h₁⟩ := exists_of_run (P := fun s : MpSystem 3 =>
    (s.servers 1).store.commandIdAt [107] 0 = 11 ∧ (s.servers 1).store.commandIdAt [107] 1 = 22)
    (show (runWhen mpStep OnceStep .init movingRun).any _ = true by decide +kernel)
  exact ⟨s, hs, h₀, h₁, commands_once (reachableWhen_of_runWhen hs)⟩

/-- Server 1 accepts the command of server 0 at slot 0, which server 2 then decides
for its own with server 0. Server 0 moves to slot 1, where server 1 accepts again. -/
def leftBehindRun : List (MpAction 3) :=
  [.insertCommand 0 (putRequest 3 49) 10 readTypes,
    .insertCommand 2 (putRequest 2 50) 20 readTypes, .startRound 0, .handle 0 blankMemory,
    .startRound 2, .handle 1 blankMemory, .finishPrepare 2 [0] blankCommand,
    .finishPrepare 0 [1] blankCommand, .handle 2 blankMemory, .startRound 2, .handle 2 blankMemory,
    .handle 2 blankMemory, .finishPrepare 2 [0] blankCommand, .handle 3 blankMemory,
    .finishAccept 2 [0] blankCommand, .finish 2, .finishAccept 0 [2] blankCommand, .startRound 0,
    .handle 5 blankMemory, .finishPrepare 0 [2] blankCommand, .handle 6 blankMemory,
    .finishAccept 0 [2] blankCommand, .finish 0, .startRound 0, .handle 6 blankMemory,
    .finishPrepare 0 [1] blankCommand, .handle 7 blankMemory]

theorem leftBehindRun_holds_twice : ∃ s : MpSystem 3,
    ReachableWhen mpStep (fun s a => SafeStep s a ∧ DrawsFreshId s a) .init s ∧ ¬ HoldsOnce s := by
  obtain ⟨s, hs, h₀, h₁⟩ := exists_of_run (P := fun s : MpSystem 3 =>
    (s.servers 1).store.commandIdAt [107] 0 = 13 ∧ (s.servers 1).store.commandIdAt [107] 1 = 13)
    (show (runWhen mpStep (fun s a => SafeStep s a ∧ DrawsFreshId s a) .init leftBehindRun).any _ =
      true by decide +kernel)
  refine ⟨s, reachableWhen_of_runWhen hs, fun honce => ?_⟩
  exact absurd (honce 1 [107] 0 1 (by rw [h₀]; decide) (h₁.trans h₀.symm)) (by decide)

end ExactlyOnce

end KeyValueStore
