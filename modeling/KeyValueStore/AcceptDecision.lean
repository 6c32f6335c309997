import KeyValueStore.KeyStoreServer
import KeyValueStore.PaxosSteps

/-! How a proposer judges its ACCEPT phase. It compares the id of the selected
command with the id it sent, and a NACK may carry that id: the id that every
NACK decodes to is 0, and that of a new command is never set. -/

namespace KeyValueStore

variable {origCmd sentCmd junk c : Command} {vec : List Command}

section Decision

/-- What an acceptor, in whatever state, answers to the ACCEPT of a command. -/
def AnswersAccept (sentCmd c : Command) : Prop :=
  ∃ u st st' reply, paxosRequestHandler u st (makeMpRequestPayload sentCmd) = some (st', reply) ∧
    c = extractResponseFromPayload reply

theorem AnswersAccept.cases (h : AnswersAccept sentCmd c) (htype : sentCmd.mpReqType = .accept) :
    (c.code = .ack ∧ c.commandId = sentCmd.commandId) ∨
    (c.code = .nack ∧ c.commandId = 0 ∧
      sentCmd.acceptedProposal.proposalNum < c.acceptedProposal.proposalNum) := by
  obtain ⟨u, st, st', reply, hh, rfl⟩ := h
  cases (paxosRequestHandler_handles hh).2 with
  | prepareAck ht => exact absurd (htype.symm.trans ht) (by decide)
  | prepareNack ht => exact absurd (htype.symm.trans ht) (by decide)
  | acceptAck _ hle => exact .inl ⟨rfl, rfl⟩
  | acceptNack _ hlt => exact .inr ⟨rfl, rfl, hlt⟩

structure DecidesAcceptance (origCmd sentCmd junk : Command) (vec : List Command) : Prop where
  accepted : ∀ tempCmd, acceptPhase origCmd sentCmd junk vec = some (.decided tempCmd) →
    ∀ c ∈ vec, c.code = .ack ∧ c.commandId = sentCmd.commandId
  rejected : ∀ num, GreatestNack vec num → ∃ next : Int32, next.toInt = num.toInt + 1 ∧
    acceptPhase origCmd sentCmd junk vec = some (.again (origCmd.withAcceptedNum next))

/-- No NACK passes for the sent command, and none has the last number. -/
def NacksDiffer (sentCmd junk : Command) (vec : List Command) : Prop :=
  ∀ c ∈ vec, c.code = .nack → c.acceptedProposal.proposalNum < Int32.maxValue ∧
    ((∀ d ∈ vec, d.code = .nack) → sentCmd.commandId ≠ 0) ∧
    ((∃ d ∈ vec, d.code ≠ .nack) → junk.commandId ≠ sentCmd.commandId)

instance (sentCmd junk : Command) (vec : List Command) : Decidable (NacksDiffer sentCmd junk vec) :=
  inferInstanceAs (Decidable (∀ c ∈ vec, c.code = .nack → _ ∧ _ ∧ _))

end Decision

section Outcome

variable {num : Int32}

theorem acceptPhase_all_nack (origCmd : Command) (hall : ∀ c ∈ vec, c.code = .nack)
    (hid : ∀ c ∈ vec, c.commandId = 0) (hm : GreatestNack vec num) (hpos : -1 < num) :
    ∃ last ∈ vec, acceptPhase origCmd sentCmd junk vec = (Int32.succ? num).map fun next =>
      if sentCmd.commandId = 0 then .decided (last.withAcceptedNum next)
      else .again (origCmd.withAcceptedNum next) := by
  obtain ⟨last, hlast, he⟩ := @getHighestAcceptedProposal_of_all_nack junk vec false num hall hm hpos
  refine ⟨last, hlast, ?_⟩
  have hzero := hid last hlast
  rw [acceptPhase, he, Option.map_map]
  congr 1
  funext next
  simp [Command.withAcceptedNum, hzero, eq_comm]

theorem acceptPhase_some_nack (origCmd : Command) (hack : ∃ c ∈ vec, c.code ≠ .nack)
    (hm : GreatestNack vec num) (hpos : -1 < num) :
    acceptPhase origCmd sentCmd junk vec = (Int32.succ? num).map fun next =>
      if junk.commandId = sentCmd.commandId then
        .decided ({ junk with code := .nack, key := [], value := [] }.withAcceptedNum next)
      else .again (origCmd.withAcceptedNum next) := by
  obtain ⟨_, _, _, he⟩ := @getHighestAcceptedProposal_of_some_nack junk vec false num hm hpos hack
  rw [acceptPhase, he, if_pos rfl, Option.map_map]
  congr 1

/-- A round that ends in another one had a number left, and no NACK passed for
the sent command. -/
theorem nacksDiffer_of_again {next : Int32} (hid : ∀ c ∈ vec, c.code = .nack → c.commandId = 0)
    (hm : GreatestNack vec num) (hpos : -1 < num)
    (hagain : acceptPhase origCmd sentCmd junk vec = some (.again (origCmd.withAcceptedNum next))) :
    NacksDiffer sentCmd junk vec := by
  have hlt : num < Int32.maxValue := by
    apply succ?_isSome_iff.mp
    by_contra hnone
    have hover : Int32.succ? num = none := Option.eq_none_iff_forall_ne_some.mpr
      (fun y hy => hnone ⟨y, hy⟩)
    by_cases hall : ∀ c ∈ vec, c.code = .nack
    · obtain ⟨last, _, he⟩ := @acceptPhase_all_nack sentCmd junk vec num origCmd hall
        (fun c hc => hid c hc (hall c hc)) hm hpos
      simp [he, hover] at hagain
    · have hack : ∃ c ∈ vec, c.code ≠ .nack := by simpa using hall
      rw [acceptPhase_some_nack origCmd hack hm hpos] at hagain
      simp [hover] at hagain
  intro c hc hcode
  refine ⟨Int32.lt_of_le_of_lt (hm.le c hc hcode) hlt, fun hall hzero => ?_, fun hack hjunk => ?_⟩
  · obtain ⟨last, _, he⟩ := @acceptPhase_all_nack sentCmd junk vec num origCmd hall
      (fun c hc => hid c hc (hall c hc)) hm hpos
    obtain ⟨_, _, hbad⟩ := Option.map_eq_some_iff.mp (he.symm.trans hagain)
    simp [hzero] at hbad
  · have he := @acceptPhase_some_nack sentCmd junk vec num origCmd hack hm hpos
    obtain ⟨_, _, hbad⟩ := Option.map_eq_some_iff.mp (he.symm.trans hagain)
    simp [hjunk] at hbad

theorem NacksDiffer.again (h : NacksDiffer sentCmd junk vec)
    (hid : ∀ c ∈ vec, c.code = .nack → c.commandId = 0) (hm : GreatestNack vec num)
    (hpos : -1 < num) (origCmd : Command) : ∃ next : Int32, next.toInt = num.toInt + 1 ∧
      acceptPhase origCmd sentCmd junk vec = some (.again (origCmd.withAcceptedNum next)) := by
  obtain ⟨c, hc, hcode, hnum⟩ := hm.mem
  obtain ⟨hlt, hzero, hjunk⟩ := h c hc hcode
  rw [hnum] at hlt
  obtain ⟨next, hnext⟩ := succ?_isSome_iff.mpr hlt
  refine ⟨next, succ?_toInt hnext, ?_⟩
  by_cases hall : ∀ c ∈ vec, c.code = .nack
  · obtain ⟨last, _, he⟩ := @acceptPhase_all_nack sentCmd junk vec num origCmd hall
      (fun c hc => hid c hc (hall c hc)) hm hpos
    rw [he, hnext, Option.map_some, if_neg (hzero hall)]
  · have hack : ∃ c ∈ vec, c.code ≠ .nack := by simpa using hall
    rw [acceptPhase_some_nack origCmd hack hm hpos, hnext, Option.map_some, if_neg (hjunk hack)]

end Outcome

theorem acceptDecision_iff (origCmd sentCmd junk : Command) (vec : List Command)
    (htype : sentCmd.mpReqType = .accept) (hnum : 0 ≤ sentCmd.acceptedProposal.proposalNum)
    (hreply : ∀ c ∈ vec, AnswersAccept sentCmd c) :
    DecidesAcceptance origCmd sentCmd junk vec ↔ NacksDiffer sentCmd junk vec := by
  have hid : ∀ c ∈ vec, c.code = .nack → c.commandId = 0 := by
    intro c hc hcode
    rcases (hreply c hc).cases htype with ⟨hack, _⟩ | ⟨_, hzero, _⟩
    · simp [hcode] at hack
    · exact hzero
  have hpos : ∀ c ∈ vec, c.code = .nack → -1 < c.acceptedProposal.proposalNum := by
    intro c hc hcode
    rcases (hreply c hc).cases htype with ⟨hack, _⟩ | ⟨_, _, hlt⟩
    · simp [hcode] at hack
    · exact Int32.lt_of_lt_of_le (by decide) (Int32.le_trans hnum (Int32.le_of_lt hlt))
  by_cases hnack : ∃ c ∈ vec, c.code = .nack
  · obtain ⟨num, hgt, hm⟩ := exists_greatestNack hnack hpos
    constructor
    · intro h
      obtain ⟨next, _, hagain⟩ := h.rejected num hm
      exact nacksDiffer_of_again hid hm hgt hagain
    · intro h
      refine ⟨fun tempCmd hdone => ?_, fun num' hm' => ?_⟩
      · obtain ⟨next, _, hagain⟩ := h.again hid hm hgt origCmd
        simp [hagain] at hdone
      · obtain ⟨c, hc, hcode, hnum'⟩ := hm'.mem
        exact h.again hid hm' (hnum' ▸ hpos c hc hcode) origCmd
  · have hall : ∀ c ∈ vec, c.code = .ack ∧ c.commandId = sentCmd.commandId := by
      intro c hc
      rcases (hreply c hc).cases htype with ⟨hack, hsame⟩ | ⟨hcode, _⟩
      · exact ⟨hack, hsame⟩
      · exact absurd ⟨c, hc, hcode⟩ hnack
    constructor
    · exact fun _ c hc hcode => absurd ⟨c, hc, hcode⟩ hnack
    · refine fun _ => ⟨fun _ _ => hall, fun num hm => ?_⟩
      obtain ⟨c, hc, hcode, _⟩ := hm.mem
      exact absurd ⟨c, hc, hcode⟩ hnack

section Example

def sentWrite (commandId : UInt32) : Command where
  mpReqType := .accept
  commandType := .write
  code := .ack
  commandId := commandId
  index := 0
  key := [107, 0]
  value := [118]
  minProposalNum := ⟨1, 0⟩
  acceptedProposal := ⟨1, 0⟩

def promisedSlot : Command := { emptyCommand .read with minProposalNum := ⟨2, 3⟩ }

def promisedStore : MpStore :=
  .setLog .empty [107] ((newCommandsList (fun _ => .read)).setCmd 0 promisedSlot)

def refusal : Command := extractResponseFromPayload (nackReply promisedSlot)

theorem answersAccept_refusal (commandId : UInt32) : AnswersAccept (sentWrite commandId) refusal :=
  ⟨⟨[], [], fun _ => .read⟩, promisedStore, _, nackReply promisedSlot, rfl, rfl⟩

theorem acceptDecision_refused :
    DecidesAcceptance (sentWrite 7) (sentWrite 7) (emptyCommand .read) [refusal] :=
  (acceptDecision_iff _ _ _ _ rfl (by decide)
    (by simpa using answersAccept_refusal 7)).mpr (by decide)

/-- A command whose id is 0 passes for accepted where all replies are NACKs. -/
theorem acceptDecision_zero_id : ¬ ∀ (origCmd sentCmd junk : Command) (vec : List Command),
    sentCmd.mpReqType = .accept → 0 ≤ sentCmd.acceptedProposal.proposalNum →
      (∀ c ∈ vec, AnswersAccept sentCmd c) → DecidesAcceptance origCmd sentCmd junk vec := by
  intro h
  have hbad := h (sentWrite 0) (sentWrite 0) (emptyCommand .read) [refusal] rfl (by decide)
    (by simpa using answersAccept_refusal 0)
  have hdone : acceptPhase (sentWrite 0) (sentWrite 0) (emptyCommand .read) [refusal] =
      some (.decided (refusal.withAcceptedNum 4)) := rfl
  have hack := hbad.accepted _ hdone refusal List.mem_cons_self
  exact absurd hack.1 (by decide)

end Example

end KeyValueStore
