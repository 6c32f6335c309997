import KeyValueStore.OwnPromise

/-! What a round sends when the proposer's own slot already held a command. Only
the replies of the other servers take part in the selection. -/

namespace KeyValueStore

variable {n : ℕ} {s t : MpSystem n} {a : MpAction n}

/-- The PREPARE broadcast of a round, and what the proposer's own slot held when
the round started. -/
def InsertCall.ownHeld (call : InsertCall) : Option (ℕ × Proposal × Content) :=
  match call.phase with
  | .preparing round (some v) => some (round, v)
  | _ => none

def InsertCall.sentCmd (call : InsertCall) : Option Command :=
  match call.phase with
  | .accepting _ _ sentCmd => some sentCmd
  | _ => none

/-- The round goes on with the command of the own slot, or with one that a reply
reports from above it. -/
def RespectsOwnSlot (x : Taken (MpSystem n) (MpAction n)) : Prop :=
  match x.action with
  | .finishPrepare i order _ => ∀ call ∈ (x.before.servers i).call, ∀ held ∈ call.ownHeld,
      ∀ next ∈ (x.after.servers i).call, ∀ sent ∈ next.sentCmd,
        sent.content = held.2.2 ∨
          ∃ vec ∈ x.before.collect i held.1 order, ∃ c ∈ vec,
            held.2.1 < c.acceptedProposal ∧ c.content = sent.content
  | _ => True

instance (x : Taken (MpSystem n) (MpAction n)) : Decidable (RespectsOwnSlot x) :=
  match x with
  | ⟨before, .finishPrepare i order _, after⟩ =>
    inferInstanceAs (Decidable (∀ call ∈ (before.servers i).call, ∀ held ∈ call.ownHeld,
      ∀ next ∈ (after.servers i).call, ∀ sent ∈ next.sentCmd,
        sent.content = held.2.2 ∨
          ∃ vec ∈ before.collect i held.1 order, ∃ c ∈ vec,
            held.2.1 < c.acceptedProposal ∧ c.content = sent.content))
  | ⟨_, .insertCommand _ _ _ _, _⟩ | ⟨_, .startRound _, _⟩ | ⟨_, .handle _ _, _⟩
  | ⟨_, .finishAccept _ _ _, _⟩ | ⟨_, .finish _, _⟩ | ⟨_, .answer _, _⟩ => .isTrue trivial

/-- A reply with the first reply's number reports a command that is not below the
one of the own slot, and at its very proposal only that command is reported. -/
def ReportsOwn (p : Proposal) (x : Content) (vec : List Command) : Prop :=
  (∃ c ∈ vec, 0 ≤ c.acceptedProposal.proposalNum ∧ p ≤ c.acceptedProposal ∧
    ∀ first ∈ vec.head?, c.acceptedProposal.proposalNum = first.acceptedProposal.proposalNum) ∧
  ∀ c ∈ vec, c.acceptedProposal = p → c.content = x

def HearsOwnSlot (s : MpSystem n) : MpAction n → Prop
  | .finishPrepare i order _ => ∀ call ∈ (s.servers i).call, ∀ held ∈ call.ownHeld,
      ∀ vec ∈ s.collect i held.1 order, (∀ c ∈ vec, c.code ≠ .nack) →
        ReportsOwn held.2.1 held.2.2 vec
  | _ => True

instance (p : Proposal) (x : Content) (vec : List Command) : Decidable (ReportsOwn p x vec) :=
  inferInstanceAs (Decidable (_ ∧ _))

instance (s : MpSystem n) (a : MpAction n) : Decidable (HearsOwnSlot s a) :=
  match a with
  | .finishPrepare i order _ =>
    inferInstanceAs (Decidable (∀ call ∈ (s.servers i).call, ∀ held ∈ call.ownHeld,
      ∀ vec ∈ s.collect i held.1 order, (∀ c ∈ vec, c.code ≠ .nack) →
        ReportsOwn held.2.1 held.2.2 vec))
  | .insertCommand _ _ _ _ | .startRound _ | .handle _ _ | .finishAccept _ _ _ | .finish _
  | .answer _ => .isTrue trivial

/-- The selection keeps to a command that is reported from the own slot or above. -/
theorem ReportsOwn.selected {p : Proposal} {x : Content} {vec : List Command}
    {junk tempCmd : Command} (h : ReportsOwn p x vec) (hsel : Selected junk vec true tempCmd)
    (hcode : tempCmd.code ≠ .nack) : tempCmd ∈ vec ∧
      (tempCmd.content = x ∨ p < tempCmd.acceptedProposal) := by
  obtain ⟨⟨c, hc, hnum, hle, hfirst⟩, hsame⟩ := h
  cases hsel with
  | allNack hall hlast => exact absurd (hall _ hlast) hcode
  | acceptNack hphase => simp at hphase
  | prepareNack => exact absurd rfl hcode
  | @free head rest hvec hno hfree =>
    rw [hfirst head (by simp [hvec]), hfree] at hnum
    exact absurd hnum (by decide)
  | @best head rest hvec hno hbest =>
    obtain ⟨hmem, _, hmax⟩ := selectHighest_spec head rest
    rw [← hvec] at hmem hmax
    have hup := hle.trans (hmax c hc (hfirst head (by simp [hvec])))
    rcases hup.lt_or_eq with hlt | heq
    · exact ⟨hmem, .inr hlt⟩
    · exact ⟨hmem, .inl (hsame _ hmem heq.symm)⟩

theorem HearsOwnSlot.respects (h : HearsOwnSlot s a) (ht : Traffic s) (hs : MpSteps s a t) :
    RespectsOwnSlot ⟨s, a, t⟩ := by
  cases hs with
  | @prepareRetry i call round own order junk tempCmd vec hcall hphase hvec htemp hcode =>
    intro call' _ held _ next hnext sent hsent
    rw [Option.mem_def, MpSystem.advance_servers_self] at hnext
    obtain rfl := Option.some.inj hnext
    simp [InsertCall.sentCmd] at hsent
  | @prepareSend i call round own order junk tempCmd sentCmd vec hcall hphase hvec htemp hcode
      hsent =>
    intro call' hcall' held hheld next hnext sent hsent'
    obtain rfl := Option.some.inj (hcall.symm.trans hcall')
    rw [Option.mem_def, MpSystem.advance_broadcast_servers_self] at hnext
    obtain rfl := Option.some.inj hnext
    obtain rfl := Option.some.inj hsent'
    have hround : held.1 = round := by
      unfold InsertCall.ownHeld at hheld
      rw [hphase] at hheld
      cases own <;> simp at hheld
      rw [← hheld]
    obtain ⟨hsel, hvecFits⟩ := ht.prepareSelected hcall hphase hvec htemp
    have hno := (hsel.rejected_or hvecFits).resolve_left (fun hr => hcode hr.1)
    obtain ⟨hmem, hor⟩ := (h call hcall held hheld vec (hround ▸ hvec) hno).selected hsel hcode
    have hack : tempCmd.code = .ack := (hvecFits _ hmem).code_ack hcode
    rw [if_neg (by simp [hack])] at hsent
    subst hsent
    exact hor.imp_right (fun hlt => ⟨vec, hround ▸ hvec, tempCmd, hmem, hlt, rfl⟩)
  | insertCommand | startRound | handle | acceptDone | acceptRetry | own | retry | defeated
  | answer => trivial

/-- In a run whose rounds hear of what their own slot held, every round goes on
with that command or one from above it. -/
theorem respectsOwnSlot_of_hearsOwnSlot (actions : List (MpAction n))
    (h : ∀ x ∈ trace mpStep .init actions, HearsOwnSlot x.before x.action) :
    ∀ x ∈ trace mpStep .init actions, RespectsOwnSlot x := by
  intro x hx
  have ht := traffic_of_reachable (reachableWhen_of_mem_trace h hx)
  exact (h x hx).respects ht (mpStep_steps (step_of_mem_trace hx))

/-- Server 2 helps server 0 to decide, and its own round hears of that from
server 0. -/
def hearingRun : List (MpAction 3) :=
  [.insertCommand 0 (putRequest 1 49) 10 readTypes,
    .insertCommand 2 (putRequest 2 50) 20 readTypes, .startRound 0, .handle 1 blankMemory,
    .finishPrepare 0 [2] blankCommand, .handle 2 blankMemory, .finishAccept 0 [2] blankCommand,
    .finish 0, .startRound 2, .handle 2 blankMemory, .finishPrepare 2 [0] blankCommand]

theorem hearingRun_respectsOwnSlot :
    (trace mpStep (.init : MpSystem 3) hearingRun).length = 11 ∧
    ∀ x ∈ trace mpStep (.init : MpSystem 3) hearingRun, RespectsOwnSlot x :=
  ⟨by decide, respectsOwnSlot_of_hearsOwnSlot hearingRun (by decide)⟩

theorem forgettingRun_disregards_own_slot :
    ¬ ∀ x ∈ trace mpStep (.init : MpSystem 3) forgettingRun, RespectsOwnSlot x := by
  decide

end KeyValueStore
