import KeyValueStore.SafeSteps

/-! What a proposer learns from a PREPARE phase that no acceptor refused. The
selection finds the greatest accepted proposal exactly when it leads the
vector, and tells "nothing accepted" apart from it under the same condition. -/

namespace KeyValueStore

variable {junk head : Command} {rest vec : List Command}

/-- The mark that lets the proposer use its own value. -/
def Command.markedOk (c : Command) : Command := { c with code := .ok, key := [], value := [] }

def NoneAccepted (vec : List Command) : Prop := ∀ c ∈ vec, c.acceptedProposal.proposalNum = -1

instance (vec : List Command) : Decidable (NoneAccepted vec) :=
  inferInstanceAs (Decidable (∀ c ∈ vec, c.acceptedProposal.proposalNum = -1))

/-- A reply with the greatest accepted proposal is returned, and marked when and
only when no reply reports one. -/
def SelectsMaximum (junk : Command) (vec : List Command) : Prop :=
  ∃ c ∈ vec, (∀ d ∈ vec, d.acceptedProposal ≤ c.acceptedProposal) ∧
    getHighestAcceptedProposal junk vec true =
      some (if NoneAccepted vec then c.markedOk else c)

instance (junk : Command) (vec : List Command) : Decidable (SelectsMaximum junk vec) :=
  inferInstanceAs (Decidable (∃ c ∈ vec, (∀ d ∈ vec, d.acceptedProposal ≤ c.acceptedProposal) ∧ _))

theorem selectHighest_of_leads (hlead : LeadsWithHighest (head :: rest)) :
    ∀ d ∈ head :: rest, d.acceptedProposal ≤ (selectHighest head rest).acceptedProposal := by
  intro d hd
  obtain ⟨_, hn, hmax⟩ := selectHighest_spec head rest
  have hle := hlead head rfl d hd
  by_cases he : d.acceptedProposal.proposalNum = head.acceptedProposal.proposalNum
  · exact hmax d hd he
  · have hlt := Int32.lt_of_le_of_ne hle he
    exact Proposal.le_iff.mpr (.inl (hn ▸ hlt))

theorem leads_of_maximum {c : Command}
    (hnum : c.acceptedProposal.proposalNum = head.acceptedProposal.proposalNum)
    (hmax : ∀ d ∈ head :: rest, d.acceptedProposal ≤ c.acceptedProposal) :
    LeadsWithHighest (head :: rest) := by
  intro first hfirst d hd
  obtain rfl : head = first := by simpa using hfirst
  have hle := Proposal.num_le_of_le (hmax d hd)
  exact hnum ▸ hle

/-- No acceptor reports a number below -1, so the second condition is the first
one's for a vector of replies. -/
theorem prepareSelection_iff (junk head : Command) (rest : List Command)
    (hack : ∀ c ∈ head :: rest, c.code = .ack) :
    SelectsMaximum junk (head :: rest) ↔ LeadsWithHighest (head :: rest) ∧
      (head.acceptedProposal.proposalNum = -1 → NoneAccepted (head :: rest)) := by
  have hno : ∀ c ∈ head :: rest, c.code ≠ .nack := fun c hc => by simp [hack c hc]
  have hget := @getHighestAcceptedProposal_of_no_nack junk true head rest hno
  obtain ⟨hmem, hnum, _⟩ := selectHighest_spec head rest
  constructor
  · rintro ⟨c, hc, hmax, hr⟩
    rw [hget, Option.some.injEq] at hr
    by_cases hfree : head.acceptedProposal.proposalNum = -1
    · -- the returned command is marked, which none of the replies is
      have hall : NoneAccepted (head :: rest) := by
        by_contra hsome
        rw [if_pos hfree, if_neg hsome] at hr
        have hcode := congrArg Command.code hr
        simp [hack c hc] at hcode
      have hcn : c.acceptedProposal.proposalNum = head.acceptedProposal.proposalNum :=
        (hall c hc).trans hfree.symm
      exact ⟨leads_of_maximum hcn hmax, fun _ => hall⟩
    · have hsome : ¬ NoneAccepted (head :: rest) := fun hall => hfree (hall head List.mem_cons_self)
      rw [if_neg hfree, if_neg hsome] at hr
      exact ⟨leads_of_maximum (hr ▸ hnum) hmax, fun he => absurd he hfree⟩
  · rintro ⟨hlead, hmark⟩
    refine ⟨selectHighest head rest, hmem, selectHighest_of_leads hlead, ?_⟩
    by_cases hfree : head.acceptedProposal.proposalNum = -1
    · rw [hget, if_pos hfree, if_pos (hmark hfree), Command.markedOk]
    · have hsome : ¬ NoneAccepted (head :: rest) := fun hall => hfree (hall head List.mem_cons_self)
      rw [hget, if_neg hfree, if_neg hsome]

/-- The reply for a slot that accepted under the proposal. -/
def slotReply (p : Proposal) : Command :=
  extractResponseFromPayload
    (prepareReply (emptyCommand .write) { emptyCommand .write with acceptedProposal := p })

theorem prepareSelection_greatest_first :
    SelectsMaximum (emptyCommand .read) [slotReply ⟨2, 3⟩, slotReply ⟨1, 0⟩, slotReply .unset] :=
  (prepareSelection_iff _ _ _ (by decide)).mpr ⟨by decide, by decide⟩

theorem prepareSelection_greatest_second : ¬ ∀ (junk : Command) (vec : List Command), vec ≠ [] →
    (∀ c ∈ vec, c.code = .ack) → SelectsMaximum junk vec := by
  intro h
  have hbad := h (emptyCommand .read) [slotReply ⟨1, 0⟩, slotReply ⟨2, 3⟩] (by simp) (by decide)
  exact absurd hbad (by decide)

end KeyValueStore
