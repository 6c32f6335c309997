import KeyValueStore.CarriedCommands

/-! Decided slots, where a majority accepted one command under one proposal.
The slot that a call picks has only such slots below it when every pick does. -/

namespace KeyValueStore

variable {n : ℕ} {s t : MpSystem n} {a : MpAction n} {key : Bytes} {j : ℕ}

section Decided

def MpEvent.acceptance? (e : MpEvent n) (key : Bytes) (j : ℕ) :
    Option (Fin n × Proposal × UInt32) :=
  match e with
  | .accepted a k i cmd _ =>
    if k = key ∧ i = j then some (a, cmd.acceptedProposal, cmd.commandId) else none
  | _ => none

def MpSystem.acceptances (s : MpSystem n) (key : Bytes) (j : ℕ) :
    List (Fin n × Proposal × UInt32) := s.history.filterMap (fun e => e.acceptance? key j)

def MpSystem.acceptors (s : MpSystem n) (key : Bytes) (j : ℕ) (b : Proposal) (v : UInt32) :
    Finset (Fin n) := Finset.univ.filter (fun a => (a, b, v) ∈ s.acceptances key j)

theorem mem_acceptances {a : Fin n} {b : Proposal} {v : UInt32} :
    (a, b, v) ∈ s.acceptances key j ↔ (synodOf s.history key j).vote a b v := by
  constructor
  · intro h
    obtain ⟨e, he, hm⟩ := List.mem_filterMap.mp h
    cases e with
    | accepted a' k i cmd byHandler =>
      simp only [MpEvent.acceptance?, Option.ite_none_right_eq_some, Option.some.injEq,
        Prod.mk.injEq] at hm
      obtain ⟨⟨rfl, rfl⟩, rfl, rfl, rfl⟩ := hm
      exact ⟨cmd, byHandler, he, rfl, rfl⟩
    | _ => simp [MpEvent.acceptance?] at hm
  · rintro ⟨cmd, byHandler, he, rfl, rfl⟩
    exact List.mem_filterMap.mpr ⟨_, he, by simp [MpEvent.acceptance?]⟩

theorem chosen_iff_majority {b : Proposal} {v : UInt32} :
    (synodOf s.history key j).Chosen Majority b v ↔ Majority (s.acceptors key j b v) := by
  constructor
  · rintro ⟨q, hq, hall⟩
    refine hq.mono (fun a ha => ?_)
    simpa [MpSystem.acceptors] using mem_acceptances.mpr (hall a ha)
  · intro h
    refine ⟨_, h, fun a ha => mem_acceptances.mp ?_⟩
    simpa [MpSystem.acceptors] using ha

def MpSystem.Decided (s : MpSystem n) (key : Bytes) (j : ℕ) : Prop :=
  ∃ x ∈ s.acceptances key j, Majority (s.acceptors key j x.2.1 x.2.2)

/-- The server accepted at the slot under a proposal not below one that decided
the slot. -/
def MpSystem.HoldsDecided (s : MpSystem n) (i : Fin n) (key : Bytes) (j : ℕ) : Prop :=
  ∃ x ∈ s.acceptances key j, Majority (s.acceptors key j x.2.1 x.2.2) ∧
    ∃ y ∈ s.acceptances key j, y.1 = i ∧ x.2.1 ≤ y.2.1

instance (s : MpSystem n) (key : Bytes) (j : ℕ) : Decidable (s.Decided key j) :=
  inferInstanceAs (Decidable (∃ x ∈ s.acceptances key j, _))

instance (s : MpSystem n) (i : Fin n) (key : Bytes) (j : ℕ) : Decidable (s.HoldsDecided i key j) :=
  inferInstanceAs (Decidable (∃ x ∈ s.acceptances key j, _ ∧ ∃ y ∈ s.acceptances key j, _ ∧ _))

theorem decided_iff : s.Decided key j ↔
    ∃ b v, (synodOf s.history key j).Chosen Majority b v := by
  constructor
  · rintro ⟨⟨a, b, v⟩, _, hm⟩
    exact ⟨b, v, chosen_iff_majority.mpr hm⟩
  · rintro ⟨b, v, hc⟩
    have hm := chosen_iff_majority.mp hc
    obtain ⟨a, ha⟩ := hm.nonempty
    exact ⟨(a, b, v), by simpa [MpSystem.acceptors] using ha, hm⟩

/-- The server accepted at the slot under a proposal not below one that chose
the id. -/
def HoldsChosen (s : MpSystem n) (i : Fin n) (key : Bytes) (j : ℕ) (v : UInt32) : Prop :=
  ∃ b c w, (synodOf s.history key j).Chosen Majority b v ∧
    (synodOf s.history key j).vote i c w ∧ b ≤ c

theorem holdsDecided_iff {i : Fin n} : s.HoldsDecided i key j ↔ ∃ v, HoldsChosen s i key j v := by
  constructor
  · rintro ⟨⟨a, b, v⟩, _, hm, ⟨i, c, w⟩, hy, rfl, hle⟩
    exact ⟨v, b, c, w, chosen_iff_majority.mpr hm, mem_acceptances.mp hy, hle⟩
  · rintro ⟨v, b, c, w, hc, hv, hle⟩
    have hm := chosen_iff_majority.mp hc
    obtain ⟨a, ha⟩ := hm.nonempty
    exact ⟨(a, b, v), by simpa [MpSystem.acceptors] using ha, hm, (i, c, w),
      mem_acceptances.mpr hv, rfl, hle⟩

theorem HoldsChosen.mono (he : Extends s t) {i : Fin n} {v : UInt32}
    (h : HoldsChosen s i key j v) : HoldsChosen t i key j v := by
  obtain ⟨b, c, w, hc, hv, hle⟩ := h
  exact ⟨b, c, w, he.chosen_mono hc, he.vote_mono hv, hle⟩

theorem Extends.decided_mono (h : Extends s t) (hd : s.Decided key j) : t.Decided key j := by
  obtain ⟨b, v, hc⟩ := decided_iff.mp hd
  exact decided_iff.mpr ⟨b, v, h.chosen_mono hc⟩

theorem Extends.holdsDecided_mono (h : Extends s t) {i : Fin n} (hd : s.HoldsDecided i key j) :
    t.HoldsDecided i key j := by
  obtain ⟨v, hv⟩ := holdsDecided_iff.mp hd
  exact holdsDecided_iff.mpr ⟨v, hv.mono h⟩

theorem MpSystem.HoldsDecided.decided {i : Fin n} (h : s.HoldsDecided i key j) :
    s.Decided key j := by
  obtain ⟨x, hx, hm, _⟩ := h
  exact ⟨x, hx, hm⟩

end Decided

section Picks

/-- Whenever a slot is picked, `P` holds of every slot below it but the one that
the same step fills. -/
def Picks (P : MpSystem n → Fin n → RequestType → Bytes → ℕ → Prop) (s : MpSystem n) :
    MpAction n → Prop
  | .insertCommand i request _ types =>
    ∀ k ∈ ((s.servers i).store.lookup types (cStr request.key)).firstAvailable,
      ∀ j < k, P s i request.type (cStr request.key) j
  | .finish i => ∀ call ∈ (s.servers i).call,
    match call.phase with
    | .proposed _ tempCmd => call.origCmd.commandId ≠ tempCmd.commandId →
        ∀ cl ∈ (s.servers i).store.logMap call.key,
          ∀ k ∈ (cl.eraseSlot call.currIdx).firstAvailable,
            ∀ j < k, j ≠ call.currIdx → P s i call.request.type call.key j
    | _ => True
  | _ => True

instance (P : MpSystem n → Fin n → RequestType → Bytes → ℕ → Prop)
    [∀ s i type key j, Decidable (P s i type key j)] (s : MpSystem n) (a : MpAction n) : Decidable (Picks P s a) :=
  match a with
  | .insertCommand i request _ types => inferInstanceAs (Decidable
      (∀ k ∈ ((s.servers i).store.lookup types (cStr request.key)).firstAvailable,
        ∀ j < k, P s i request.type (cStr request.key) j))
  | .finish i =>
    @Option.decidableForallMem _ _ (fun call =>
      match call.phase with
      | .proposed _ tempCmd => inferInstanceAs (Decidable
          (call.origCmd.commandId ≠ tempCmd.commandId →
            ∀ cl ∈ (s.servers i).store.logMap call.key,
              ∀ k ∈ (cl.eraseSlot call.currIdx).firstAvailable,
                ∀ j < k, j ≠ call.currIdx → P s i call.request.type call.key j))
      | .roundStart | .preparing _ _ | .accepting _ _ _ | .returned => .isTrue trivial) _
  | .startRound _ | .handle _ _ | .finishPrepare _ _ _ | .finishAccept _ _ _ | .answer _ =>
    .isTrue trivial

def SettledBelow (P : MpSystem n → Fin n → RequestType → Bytes → ℕ → Prop) (s : MpSystem n) : Prop :=
  ∀ i call, (s.servers i).call = some call → ∀ j < call.currIdx, P s i call.request.type call.key j

variable {P : MpSystem n → Fin n → RequestType → Bytes → ℕ → Prop}

theorem advance_call (s : MpSystem n) (i : Fin n) (server : MpServer) (events : List (MpEvent n))
    (k : Fin n) : ((s.advance i server events).servers k).call =
      if k = i then server.call else (s.servers k).call := by
  rw [MpSystem.advance_servers]
  split <;> rfl

theorem broadcast_call (s : MpSystem n) (i : Fin n) (request : PaxosRequest) (k : Fin n) :
    ((s.broadcast i request).servers k).call = (s.servers k).call := by
  rw [MpSystem.broadcast_servers]
  split
  next hk => exact hk ▸ rfl
  next => rfl

theorem InsertCall.key_congr {call call' : InsertCall}
    (h : call'.origCmd.content = call.origCmd.content) : call'.key = call.key :=
  congrArg (fun c => cStr (Content.key c)) h

/-- Where the call that a server has after a step comes from. -/
inductive CallStep (s : MpSystem n) (a : MpAction n) (t : MpSystem n) (i : Fin n)
    (call' : InsertCall) : Prop
  | kept {call : InsertCall} (hcall : (s.servers i).call = some call)
      (hrequest : call'.request = call.request)
      (hcontent : call'.origCmd.content = call.origCmd.content)
      (hidx : call'.currIdx = call.currIdx) (hphase : call'.phase = .returned → call' = call)
  | recorded {call : InsertCall} {round : ℕ} {tempCmd : Command}
      (hcall : (s.servers i).call = some call) (hphase : call.phase = .proposed round tempCmd)
      (hid : call.origCmd.commandId = tempCmd.commandId)
      (hrequest : call'.request = call.request)
      (hcontent : call'.origCmd.content = call.origCmd.content)
      (hidx : call'.currIdx = call.currIdx)
      (hproposal : call'.origCmd.acceptedProposal = call.origCmd.acceptedProposal)
      (haccepted : .accepted i call.key call.currIdx call'.origCmd false ∈ t.history)
  | started {request : KeyStoreRequest} {rand : UInt32} {types : ℕ → RequestType} {st : MpStore}
      (ha : a = .insertCommand i request rand types)
      (hstart : Starts (s.servers i).store request rand st call')
  | moved {call : InsertCall} {round : ℕ} {tempCmd : Command} {cl : CommandsList}
      (ha : a = .finish i) (hcall : (s.servers i).call = some call)
      (hphase : call.phase = .proposed round tempCmd)
      (hcl : (s.servers i).store.logMap call.key = some cl)
      (hid : call.origCmd.commandId ≠ tempCmd.commandId)
      (hi : (cl.eraseSlot call.currIdx).firstAvailable = some call'.currIdx)
      (hrequest : call'.request = call.request)
      (hcontent : call'.origCmd.content = call.origCmd.content)
      (haccepted : .accepted i call.key call.currIdx tempCmd false ∈ t.history)
      (hne : call'.phase ≠ .returned)

theorem MpSteps.callStep (h : MpSteps s a t) {k : Fin n} {call' : InsertCall}
    (hc : (t.servers k).call = some call') : CallStep s a t k call' := by
  have hsame : ∀ {i : Fin n} {call call₁ : InsertCall}, (s.servers i).call = some call →
      (if k = i then some call₁ else (s.servers k).call) = some call' →
      call₁.request = call.request → call₁.origCmd.content = call.origCmd.content →
      call₁.currIdx = call.currIdx → call₁.phase ≠ .returned → CallStep s a t k call' := by
    intro i call call₁ hcall hc hrequest hcontent hidx hphase
    split at hc
    next hk =>
      simp only [Option.some.injEq] at hc
      subst hk hc
      exact .kept hcall hrequest hcontent hidx (fun h => absurd h hphase)
    next => exact .kept hc rfl rfl rfl (fun _ => rfl)
  cases h with
  | insertCommand hidle hstart =>
    rw [advance_call] at hc
    split at hc
    next hk =>
      subst hk
      simp only [Option.some.injEq] at hc
      exact .started rfl (hc ▸ hstart)
    next => exact .kept hc rfl rfl rfl (fun _ => rfl)
  | startRound hcall hphase horig hst =>
    rw [broadcast_call, advance_call] at hc
    dsimp only at hc
    subst horig
    exact hsame hcall hc rfl rfl rfl (by simp)
  | handle => exact .kept (call_handled hc) rfl rfl rfl (fun _ => rfl)
  | prepareRetry hcall =>
    rw [advance_call] at hc
    dsimp only at hc
    exact hsame hcall hc rfl rfl rfl (by simp)
  | prepareSend hcall =>
    rw [broadcast_call, advance_call] at hc
    dsimp only at hc
    exact hsame hcall hc rfl rfl rfl (by simp)
  | acceptDone hcall =>
    rw [advance_call] at hc
    dsimp only at hc
    exact hsame hcall hc rfl rfl rfl (by simp)
  | acceptRetry hcall =>
    rw [advance_call] at hc
    dsimp only at hc
    exact hsame hcall hc rfl rfl rfl (by simp)
  | own hcall hphase hrec =>
    rw [advance_call] at hc
    cases hrec with
    | own hcl hid =>
      split at hc
      next hk =>
        subst hk
        simp only [Option.some.injEq] at hc
        subst hc
        exact .recorded hcall hphase hid rfl rfl rfl rfl
          (List.mem_cons_of_mem _ (List.mem_cons_of_mem _ List.mem_cons_self))
      next => exact .kept hc rfl rfl rfl (fun _ => rfl)
  | retry hcall hphase hrec =>
    rw [advance_call] at hc
    dsimp only at hc
    cases hrec with
    | retry => exact hsame hcall hc rfl rfl rfl (by simp)
  | defeated hcall hphase hrec =>
    cases hrec with
    | defeated hcl hid hi =>
      rw [advance_call] at hc
      split at hc
      next hk =>
        subst hk
        simp only [Option.some.injEq] at hc
        subst hc
        exact .moved rfl hcall hphase hcl hid hi rfl rfl
          (List.mem_cons_of_mem _ List.mem_cons_self) (by simp)
      next => exact .kept hc rfl rfl rfl (fun _ => rfl)
  | answer =>
    rw [advance_call] at hc
    split at hc
    next => simp at hc
    next => exact .kept hc rfl rfl rfl (fun _ => rfl)

/-- When every pick has `P` below it, so has every call: what a call is
defeated at it holds decided afterwards. -/
theorem SettledBelow.step
    (hmono : ∀ {s t i type key j}, Extends s t → P s i type key j → P t i type key j)
    (hholds : ∀ {s i type key j}, s.HoldsDecided i key j → P s i type key j) (h : SettledBelow P s)
    (hu : PaxosInv s) (hpicks : Picks P s a) (hs : MpSteps s a t) : SettledBelow P t := by
  intro k call' hc j hj
  cases hs.callStep hc with
  | kept hcall hrequest hcontent hidx =>
    rw [InsertCall.key_congr hcontent, hrequest]
    exact hmono hs.extends (h k _ hcall j (hidx ▸ hj))
  | recorded hcall _ _ hrequest hcontent hidx =>
    rw [InsertCall.key_congr hcontent, hrequest]
    exact hmono hs.extends (h k _ hcall j (hidx ▸ hj))
  | @started request rand types st ha hstart =>
    subst ha
    have hkey : call'.key = cStr request.key :=
      congrArg (fun c => cStr (Content.key c)) hstart.content
    have hpick := CommandsList.firstAvailable_eq hstart.currIdx_lt
      ((MpStore.available_eq_lookup _ types _ _).symm.trans hstart.available)
      (fun i hi => (MpStore.available_eq_lookup _ types _ _).symm.trans (hstart.below i hi))
    rw [hkey, hstart.request]
    rw [hkey] at hpick
    exact hmono hs.extends (hpicks _ hpick j hj)
  | @moved call round tempCmd cl ha hcall hphase hcl hid hi hrequest hcontent haccepted =>
    subst ha
    rw [InsertCall.key_congr hcontent, hrequest]
    by_cases hidx : j = call.currIdx
    · subst hidx
      refine hholds ?_
      have hvote : (synodOf t.history call.key call.currIdx).vote k tempCmd.acceptedProposal
          tempCmd.commandId := ⟨tempCmd, false, haccepted, rfl, rfl⟩
      exact holdsDecided_iff.mpr ⟨_, _, _, _, hu.chosen_recorded hcall hphase hs.extends hvote,
        hvote, le_rfl⟩
    · have hpick := hpicks call hcall
      simp only [hphase] at hpick
      exact hmono hs.extends (hpick hid cl hcl _ hi j hj hidx)

end Picks

end KeyValueStore
