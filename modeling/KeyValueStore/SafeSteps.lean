import KeyValueStore.SlotRefinement

/-! The steps at which the code does what the synod asks of it, one condition
for each place where it may not. -/

namespace KeyValueStore

variable {n : ℕ}

/-- No ACCEPT has the promised number and a smaller client id. -/
def AcceptsInOrder (s : MpSystem n) (k : ℕ) (u : Uninit) : Prop :=
  ∀ rpc ∈ s.calls[k]?, ∀ request ∈ s.payload rpc.src rpc.call, request.mptype = .accept →
    ¬ (request.proposalNum =
        (s.promise rpc.dst (requestKey u request) request.slot).proposalNum ∧
      request.proposalClientId <
        (s.promise rpc.dst (requestKey u request) request.slot).proposalClientId)

/-- The round that starts is above what the proposer's own slot has promised. -/
def RaisesPromise (s : MpSystem n) (i : Fin n) : Prop :=
  ∀ call ∈ (s.servers i).call,
    s.promise i call.key call.currIdx < call.origCmd.acceptedProposal

/-- No reply to PREPARE has a greater number than the first one. -/
def LeadsWithHighest (vec : List Command) : Prop :=
  ∀ first ∈ vec.head?, ∀ c ∈ vec,
    c.acceptedProposal.proposalNum ≤ first.acceptedProposal.proposalNum

/-- What the proposer's own slot held is not above all that was reported. -/
def OwnReported (own : Option (Proposal × Content)) (vec : List Command) : Prop :=
  ∀ v ∈ own, ∃ c ∈ vec, v.1 ≤ c.acceptedProposal

def SelectsHighest (s : MpSystem n) (i : Fin n) (order : List (Fin n)) : Prop :=
  ∀ call ∈ (s.servers i).call,
    match call.phase with
    | .preparing round own => ∀ vec ∈ s.collect i round order,
        (∀ c ∈ vec, c.code ≠ .nack) → LeadsWithHighest vec ∧ OwnReported own vec
    | _ => True

/-- When an ACCEPT phase gets both answers, the id in the new command, which is
never set, is not by chance the id that was sent. -/
def JunkDiffers (s : MpSystem n) (i : Fin n) (order : List (Fin n)) (junk : Command) : Prop :=
  ∀ call ∈ (s.servers i).call,
    match call.phase with
    | .accepting _ acceptCall sentCmd => ∀ vec ∈ s.collect i acceptCall order,
        (∃ c ∈ vec, c.code = .nack) → (∃ c ∈ vec, c.code ≠ .nack) →
          junk.commandId ≠ sentCmd.commandId
    | _ => True

/-- A command that replaces the slot of a defeated one is not below what the
slot has promised. -/
def StoresAbove (s : MpSystem n) (i : Fin n) : Prop :=
  ∀ call ∈ (s.servers i).call,
    match call.phase with
    | .proposed _ tempCmd => call.origCmd.commandId ≠ tempCmd.commandId →
        s.promise i call.key call.currIdx ≤ tempCmd.minProposalNum
    | _ => True

def SafeStep (s : MpSystem n) : MpAction n → Prop
  | .insertCommand _ request rand _ => newCommandId rand request ≠ 0 ∧ request.key ≠ []
  | .startRound i => RaisesPromise s i
  | .handle k u => AcceptsInOrder s k u
  | .finishPrepare i order _ => SelectsHighest s i order
  | .finishAccept i order junk => JunkDiffers s i order junk
  | .finish i => StoresAbove s i
  | .answer _ => True

section Decidable

instance (s : MpSystem n) (k : ℕ) (u : Uninit) : Decidable (AcceptsInOrder s k u) :=
  inferInstanceAs (Decidable (∀ rpc ∈ s.calls[k]?, ∀ request ∈ s.payload rpc.src rpc.call, _ → ¬ _))

instance (s : MpSystem n) (i : Fin n) : Decidable (RaisesPromise s i) :=
  inferInstanceAs (Decidable (∀ call ∈ (s.servers i).call, _ < _))

instance (vec : List Command) : Decidable (LeadsWithHighest vec) :=
  inferInstanceAs (Decidable (∀ first ∈ vec.head?, ∀ c ∈ vec, _ ≤ _))

instance (own : Option (Proposal × Content)) (vec : List Command) :
    Decidable (OwnReported own vec) :=
  inferInstanceAs (Decidable (∀ v ∈ own, ∃ c ∈ vec, _ ≤ _))

instance (s : MpSystem n) (i : Fin n) (order : List (Fin n)) : Decidable (SelectsHighest s i order) :=
  @Option.decidableForallMem _ _ (fun call =>
    match call.phase with
    | .preparing round own => inferInstanceAs (Decidable (∀ vec ∈ s.collect i round order,
        (∀ c ∈ vec, c.code ≠ .nack) → LeadsWithHighest vec ∧ OwnReported own vec))
    | .roundStart | .accepting _ _ _ | .proposed _ _ | .returned => .isTrue trivial) _

instance (s : MpSystem n) (i : Fin n) (order : List (Fin n)) (junk : Command) :
    Decidable (JunkDiffers s i order junk) :=
  @Option.decidableForallMem _ _ (fun call =>
    match call.phase with
    | .accepting _ acceptCall sentCmd => inferInstanceAs (Decidable
        (∀ vec ∈ s.collect i acceptCall order, (∃ c ∈ vec, c.code = .nack) →
          (∃ c ∈ vec, c.code ≠ .nack) → junk.commandId ≠ sentCmd.commandId))
    | .roundStart | .preparing _ _ | .proposed _ _ | .returned => .isTrue trivial) _

instance (s : MpSystem n) (i : Fin n) : Decidable (StoresAbove s i) :=
  @Option.decidableForallMem _ _ (fun call =>
    match call.phase with
    | .proposed _ tempCmd => inferInstanceAs (Decidable (call.origCmd.commandId ≠ tempCmd.commandId →
        s.promise i call.key call.currIdx ≤ tempCmd.minProposalNum))
    | .roundStart | .preparing _ _ | .accepting _ _ _ | .returned => .isTrue trivial) _

instance (s : MpSystem n) (a : MpAction n) : Decidable (SafeStep s a) :=
  match a with
  | .insertCommand _ request rand _ =>
    inferInstanceAs (Decidable (newCommandId rand request ≠ 0 ∧ request.key ≠ []))
  | .startRound i => inferInstanceAs (Decidable (RaisesPromise s i))
  | .handle k u => inferInstanceAs (Decidable (AcceptsInOrder s k u))
  | .finishPrepare i order _ => inferInstanceAs (Decidable (SelectsHighest s i order))
  | .finishAccept i order junk => inferInstanceAs (Decidable (JunkDiffers s i order junk))
  | .finish i => inferInstanceAs (Decidable (StoresAbove s i))
  | .answer _ => .isTrue trivial

end Decidable

/-- What a proposal ends with was said by every reply, or has no id. -/
theorem Traffic.proposed_cases {s : MpSystem n} (h : Traffic s) {i : Fin n} {call : InsertCall}
    {round acceptCall : ℕ} {sentCmd junk tempCmd : Command} {order : List (Fin n)}
    {vec : List Command} (hcall : (s.servers i).call = some call)
    (hphase : call.phase = .accepting round acceptCall sentCmd)
    (hvec : s.collect i acceptCall order = some vec)
    (htemp : getHighestAcceptedProposal junk vec false = some tempCmd)
    (hid : tempCmd.commandId = sentCmd.commandId) (hjunk : JunkDiffers s i order junk) :
    ((∀ c ∈ vec, c.code = .ack) ∧ tempCmd ∈ vec ∧
      Repeats (makeMpRequestPayload sentCmd) tempCmd) ∨
    (tempCmd.commandId = 0 ∧
      sentCmd.acceptedProposal.proposalNum < tempCmd.minProposalNum.proposalNum) := by
  obtain ⟨hresult, hfits⟩ := h.acceptResult hcall hphase hvec htemp
  obtain ⟨htype, _⟩ := h.accepting hcall hphase
  cases hresult with
  | accepted hall hmem =>
    have hsame := (hfits _ hmem).repeats htype (by simp [hall _ hmem])
    exact .inl ⟨hall, hmem, hsame⟩
  | allRejected _ hzero hmin => exact .inr ⟨hzero, hmin⟩
  | someRejected _ hnack hack hjunkId =>
    have hmatch := hjunk call hcall
    simp only [hphase] at hmatch
    exact absurd (hjunkId.symm.trans hid) (hmatch vec hvec hnack hack)

end KeyValueStore
