import KeyValueStore.Command

/-! The selection among the replies of one phase. Its second loop compares the
numbers but, when a reply has the greater one, falls through to the deletion:
the selected number is always that of the first reply that is not a NACK. -/

namespace KeyValueStore

def Command.withAcceptedNum (c : Command) (num : Int32) : Command :=
  { c with acceptedProposal := { c.acceptedProposal with proposalNum := num } }

/-- The first loop of `get_highest_accepted_proposal`: the last NACK, the
largest number of a NACK, and the replies that are left. -/
def removeNacks (maxResp : Command) (maxNack : Int32) : List Command → Command × Int32 × List Command
  | [] => (maxResp, maxNack, [])
  | it :: rest =>
    if it.code = .nack then
      removeNacks it
        (if it.acceptedProposal.proposalNum > maxNack then it.acceptedProposal.proposalNum
          else maxNack) rest
    else
      let r := removeNacks maxResp maxNack rest
      (r.1, r.2.1, it :: r.2.2)

/-- The second loop, from the second reply on. -/
def selectHighest (maxResp : Command) : List Command → Command
  | [] => maxResp
  | it :: rest =>
    if it.acceptedProposal.proposalNum ≥ maxResp.acceptedProposal.proposalNum then
      if it.acceptedProposal.proposalNum = maxResp.acceptedProposal.proposalNum then
        if it.acceptedProposal.proposalClientId ≥ maxResp.acceptedProposal.proposalClientId then
          selectHighest it rest
        else selectHighest maxResp rest
      else selectHighest maxResp rest -- a greater number is deleted like a smaller one
    else selectHighest maxResp rest

/-- `junk` is what the memory of a new `command_t` holds. The first element of
an empty vector and an overflowing number are undefined. -/
def getHighestAcceptedProposal (junk : Command) (vec : List Command) (preparePhase : Bool) :
    Option Command :=
  match vec with
  | [] => none
  | first :: _ =>
    let (maxResp, maxNack, acks) := removeNacks first (-1) vec
    match acks with
    | [] => (Int32.succ? maxNack).map maxResp.withAcceptedNum
    | head :: rest =>
      let maxResp := selectHighest head rest
      if maxNack > -1 && !preparePhase then
        (Int32.succ? maxNack).map
          { junk with code := .nack, key := [], value := [] }.withAcceptedNum
      else if maxResp.acceptedProposal.proposalNum ≥ -1 && maxNack > -1 then
        (Int32.succ? maxNack).map
          { maxResp with code := .nack, key := [], value := [] }.withAcceptedNum
      else if maxResp.acceptedProposal.proposalNum = -1 then
        some { maxResp with code := .ok, key := [], value := [] }
      else some maxResp

theorem succ?_toInt {x y : Int32} (h : Int32.succ? x = some y) : y.toInt = x.toInt + 1 := by
  unfold Int32.succ? at h
  split at h
  next hlt =>
    simp only [Option.some.injEq] at h
    subst h
    rw [Int32.lt_iff_toInt_lt] at hlt
    have hx := Int32.le_toInt x
    have hm : Int32.maxValue.toInt = 2 ^ 31 - 1 := rfl
    rw [Int32.toInt_add, Int32.toInt_one, Int.bmod_eq_of_le (by omega) (by omega)]
  next => simp at h

theorem succ?_eq_some {x y : Int32} (h : Int32.succ? x = some y) : x < y := by
  have he := succ?_toInt h
  rw [Int32.lt_iff_toInt_lt]
  omega

theorem succ?_isSome_iff {x : Int32} : (∃ y, Int32.succ? x = some y) ↔ x < Int32.maxValue := by
  unfold Int32.succ?
  split <;> simp_all

theorem succ?_nonneg {x y : Int32} (hx : -1 ≤ x) (h : Int32.succ? x = some y) : 0 ≤ y := by
  have hlt := Int32.lt_iff_toInt_lt.mp (Int32.lt_of_le_of_lt hx (succ?_eq_some h))
  rw [Int32.le_iff_toInt_le]
  have hm : (-1 : Int32).toInt = -1 := rfl
  have hz : (0 : Int32).toInt = 0 := rfl
  omega

section Selection

variable {maxResp it : Command} {maxNack : Int32} {vec : List Command}

theorem removeNacks_acks (maxResp : Command) (maxNack : Int32) (vec : List Command) :
    (removeNacks maxResp maxNack vec).2.2 = vec.filter (·.code ≠ .nack) := by
  induction vec generalizing maxResp maxNack with
  | nil => rfl
  | cons it rest ih =>
    by_cases hc : it.code = .nack <;> simp [removeNacks, hc, ih]

theorem removeNacks_le (maxResp : Command) (maxNack : Int32) (vec : List Command) :
    maxNack ≤ (removeNacks maxResp maxNack vec).2.1 ∧ ∀ c ∈ vec, c.code = .nack →
      c.acceptedProposal.proposalNum ≤ (removeNacks maxResp maxNack vec).2.1 := by
  induction vec generalizing maxResp maxNack with
  | nil => exact ⟨Int32.le_refl _, by simp⟩
  | cons it rest ih =>
    by_cases hc : it.code = .nack
    · simp only [removeNacks, hc, if_true, List.mem_cons, forall_eq_or_imp]
      split
      next hgt =>
        have hh := ih it it.acceptedProposal.proposalNum
        exact ⟨Int32.le_trans (Int32.le_of_lt hgt) hh.1, fun _ => hh.1, hh.2⟩
      next hgt =>
        have hh := ih it maxNack
        exact ⟨hh.1, fun _ => Int32.le_trans (Int32.not_lt.mp hgt) hh.1, hh.2⟩
    · simpa [removeNacks, hc] using ih maxResp maxNack

theorem removeNacks_max (maxResp : Command) (maxNack : Int32) (vec : List Command) :
    (removeNacks maxResp maxNack vec).2.1 = maxNack ∨ ∃ c ∈ vec, c.code = .nack ∧
      c.acceptedProposal.proposalNum = (removeNacks maxResp maxNack vec).2.1 := by
  induction vec generalizing maxResp maxNack with
  | nil => exact .inl rfl
  | cons it rest ih =>
    by_cases hc : it.code = .nack
    · simp only [removeNacks, hc, if_true, List.mem_cons, exists_eq_or_imp, true_and]
      split
      next hgt =>
        rcases ih it it.acceptedProposal.proposalNum with he | hm
        · exact .inr (.inl he.symm)
        · exact .inr (.inr hm)
      next hgt => exact (ih it maxNack).imp_right .inr
    · simpa [removeNacks, hc] using ih maxResp maxNack

theorem removeNacks_of_all_nack (maxResp : Command) (maxNack : Int32)
    (hall : ∀ c ∈ vec, c.code = .nack) (hm : maxResp.code = .nack) :
    (removeNacks maxResp maxNack vec).1 = maxResp ∨
      (removeNacks maxResp maxNack vec).1 ∈ vec := by
  induction vec generalizing maxResp maxNack with
  | nil => exact .inl rfl
  | cons it rest ih =>
    have hc := hall it List.mem_cons_self
    simp only [removeNacks, hc, if_true]
    rcases ih it _ (fun c hm => hall c (List.mem_cons_of_mem _ hm)) hc with he | hm
    · exact .inr (by rw [he]; exact List.mem_cons_self)
    · exact .inr (List.mem_cons_of_mem _ hm)

theorem removeNacks_of_no_nack (hno : ∀ c ∈ vec, c.code ≠ .nack) :
    removeNacks maxResp maxNack vec = (maxResp, maxNack, vec) := by
  induction vec generalizing maxResp maxNack with
  | nil => rfl
  | cons it rest ih =>
    have hc := hno it List.mem_cons_self
    simp [removeNacks, hc, ih (fun c hm => hno c (List.mem_cons_of_mem _ hm))]

theorem selectHighest_cons (head it : Command) (rest : List Command) :
    selectHighest head (it :: rest) =
      if it.acceptedProposal.proposalNum = head.acceptedProposal.proposalNum ∧
          head.acceptedProposal.proposalClientId ≤ it.acceptedProposal.proposalClientId then
        selectHighest it rest
      else selectHighest head rest := by
  by_cases hn : it.acceptedProposal.proposalNum = head.acceptedProposal.proposalNum
  · by_cases hc : head.acceptedProposal.proposalClientId ≤ it.acceptedProposal.proposalClientId <;>
      simp [selectHighest, hn, hc]
  · simp [selectHighest, hn]

/-- The selected reply has the first reply's number and, among the replies with
that number, the largest client id. -/
theorem selectHighest_spec (head : Command) (rest : List Command) :
    selectHighest head rest ∈ head :: rest ∧
    (selectHighest head rest).acceptedProposal.proposalNum = head.acceptedProposal.proposalNum ∧
    ∀ c ∈ head :: rest, c.acceptedProposal.proposalNum = head.acceptedProposal.proposalNum →
      c.acceptedProposal ≤ (selectHighest head rest).acceptedProposal := by
  induction rest generalizing head with
  | nil => simp [selectHighest]
  | cons it rest ih =>
    rw [selectHighest_cons]
    split
    next hup =>
      obtain ⟨hmem, hnum, hmax⟩ := ih it
      have hit : it.acceptedProposal ≤ (selectHighest it rest).acceptedProposal :=
        hmax it List.mem_cons_self rfl
      have hhead : head.acceptedProposal ≤ it.acceptedProposal :=
        Proposal.le_iff.mpr (.inr ⟨hup.1.symm, hup.2⟩)
      refine ⟨List.mem_cons_of_mem _ hmem, hnum.trans hup.1, fun c hc hcn => ?_⟩
      rcases List.mem_cons.mp hc with rfl | hc
      · exact hhead.trans hit
      · exact hmax c hc (hcn.trans hup.1.symm)
    next hkeep =>
      obtain ⟨hmem, hnum, hmax⟩ := ih head
      have hhead : head.acceptedProposal ≤ (selectHighest head rest).acceptedProposal :=
        hmax head List.mem_cons_self rfl
      refine ⟨?_, hnum, fun c hc hcn => ?_⟩
      · rcases List.mem_cons.mp hmem with he | hm
        · rw [he]
          exact List.mem_cons_self
        · exact List.mem_cons_of_mem _ (List.mem_cons_of_mem _ hm)
      · rcases List.mem_cons.mp hc with rfl | hc
        · exact hhead
        · rcases List.mem_cons.mp hc with rfl | hc
          · have hlow : c.acceptedProposal ≤ head.acceptedProposal :=
              Proposal.le_iff.mpr (.inr ⟨hcn, Int32.le_of_lt
                (Int32.not_le.mp (fun hle => hkeep ⟨hcn, hle⟩))⟩)
            exact hlow.trans hhead
          · exact hmax c (List.mem_cons_of_mem _ hc) hcn

end Selection

section Result

variable {junk r : Command} {vec : List Command} {preparePhase : Bool}

/-- What the selection returns, with the data it returns it from. -/
inductive Selected (junk : Command) (vec : List Command) (preparePhase : Bool) : Command → Prop
  | allNack {last : Command} {maxNack num : Int32} (hall : ∀ c ∈ vec, c.code = .nack)
      (hlast : last ∈ vec) (hmax : ∀ c ∈ vec, c.acceptedProposal.proposalNum ≤ maxNack)
      (hnum : Int32.succ? maxNack = some num) :
      Selected junk vec preparePhase (last.withAcceptedNum num)
  | acceptNack {maxNack num : Int32} (hphase : preparePhase = false)
      (hmax : ∀ c ∈ vec, c.code = .nack → c.acceptedProposal.proposalNum ≤ maxNack)
      (hnack : ∃ c ∈ vec, c.code = .nack) (hack : ∃ c ∈ vec, c.code ≠ .nack)
      (hnum : Int32.succ? maxNack = some num) :
      Selected junk vec preparePhase
        ({ junk with code := .nack, key := [], value := [] }.withAcceptedNum num)
  | prepareNack {best : Command} {maxNack num : Int32} (hphase : preparePhase = true)
      (hmax : ∀ c ∈ vec, c.code = .nack → c.acceptedProposal.proposalNum ≤ maxNack)
      (hnack : ∃ c ∈ vec, c.code = .nack) (hnum : Int32.succ? maxNack = some num) :
      Selected junk vec preparePhase
        ({ best with code := .nack, key := [], value := [] }.withAcceptedNum num)
  | free {head : Command} {rest : List Command} (hvec : vec = head :: rest)
      (hno : ∀ c ∈ vec, c.code ≠ .nack) (hfirst : head.acceptedProposal.proposalNum = -1) :
      Selected junk vec preparePhase
        { selectHighest head rest with code := .ok, key := [], value := [] }
  | best {head : Command} {rest : List Command} (hvec : vec = head :: rest)
      (hno : ∀ c ∈ vec, c.code ≠ .nack) (hfirst : head.acceptedProposal.proposalNum ≠ -1) :
      Selected junk vec preparePhase (selectHighest head rest)

/-- The largest number among the NACKs. -/
structure GreatestNack (vec : List Command) (num : Int32) : Prop where
  mem : ∃ c ∈ vec, c.code = .nack ∧ c.acceptedProposal.proposalNum = num
  le : ∀ c ∈ vec, c.code = .nack → c.acceptedProposal.proposalNum ≤ num

variable {head : Command} {rest : List Command} {num : Int32}

theorem removeNacks_greatest (maxResp : Command) (hm : GreatestNack vec num) (hpos : -1 < num) :
    (removeNacks maxResp (-1) vec).2.1 = num := by
  obtain ⟨c, hc, hcode, rfl⟩ := hm.mem
  have hle := (removeNacks_le maxResp (-1) vec).2 c hc hcode
  apply Int32.le_antisymm _ hle
  rcases removeNacks_max maxResp (-1) vec with he | ⟨d, hd, hdcode, he⟩
  · rw [he]
    exact Int32.le_of_lt hpos
  · rw [← he]
    exact hm.le d hd hdcode

theorem exists_greatestNack (hnack : ∃ c ∈ vec, c.code = .nack)
    (hpos : ∀ c ∈ vec, c.code = .nack → -1 < c.acceptedProposal.proposalNum) :
    ∃ num, -1 < num ∧ GreatestNack vec num := by
  obtain ⟨c, hc, hcode⟩ := hnack
  have hle := (removeNacks_le c (-1) vec).2
  have hgt : -1 < (removeNacks c (-1) vec).2.1 := Int32.lt_of_lt_of_le (hpos c hc hcode) (hle c hc hcode)
  refine ⟨_, hgt, ?_, hle⟩
  rcases removeNacks_max c (-1) vec with he | hm
  · rw [he] at hgt
    exact absurd hgt (by decide)
  · exact hm

theorem getHighestAcceptedProposal_of_no_nack (hno : ∀ c ∈ head :: rest, c.code ≠ .nack) :
    getHighestAcceptedProposal junk (head :: rest) preparePhase =
      some (if head.acceptedProposal.proposalNum = -1 then
        { selectHighest head rest with code := .ok, key := [], value := [] }
      else selectHighest head rest) := by
  obtain ⟨_, hn, _⟩ := selectHighest_spec head rest
  simp only [getHighestAcceptedProposal, removeNacks_of_no_nack hno, gt_iff_lt, Int32.lt_irrefl,
    decide_false, Bool.false_and, Bool.false_eq_true, if_false, Bool.and_false, hn]
  split <;> rfl

theorem getHighestAcceptedProposal_of_all_nack (hall : ∀ c ∈ vec, c.code = .nack)
    (hm : GreatestNack vec num) (hpos : -1 < num) :
    ∃ last ∈ vec, getHighestAcceptedProposal junk vec preparePhase =
      (Int32.succ? num).map last.withAcceptedNum := by
  cases vec with
  | nil =>
    obtain ⟨_, hc, _⟩ := hm.mem
    simp at hc
  | cons first tail =>
    have hacks := removeNacks_acks first (-1) (first :: tail)
    have hnone : (first :: tail).filter (·.code ≠ .nack) = [] := by
      rw [List.filter_eq_nil_iff]
      exact fun c hc => by simp [hall c hc]
    have hlast := removeNacks_of_all_nack first (-1) hall (hall first List.mem_cons_self)
    refine ⟨(removeNacks first (-1) (first :: tail)).1, ?_, ?_⟩
    · rcases hlast with he | hmem
      · rw [he]
        exact List.mem_cons_self
      · exact hmem
    · simp only [getHighestAcceptedProposal, hacks.trans hnone, removeNacks_greatest first hm hpos]

/-- Among the other replies one is selected first, which only the PREPARE phase keeps. -/
theorem getHighestAcceptedProposal_of_some_nack (hm : GreatestNack vec num) (hpos : -1 < num)
    (hack : ∃ c ∈ vec, c.code ≠ .nack) :
    ∃ best ∈ vec, best.code ≠ .nack ∧ getHighestAcceptedProposal junk vec preparePhase =
      if preparePhase = false then (Int32.succ? num).map
        { junk with code := .nack, key := [], value := [] }.withAcceptedNum
      else if -1 ≤ best.acceptedProposal.proposalNum then (Int32.succ? num).map
        { best with code := .nack, key := [], value := [] }.withAcceptedNum
      else some best := by
  obtain ⟨c, hc, hcode⟩ := hack
  cases vec with
  | nil => simp at hc
  | cons first tail =>
    have hacks := removeNacks_acks first (-1) (first :: tail)
    have hin : c ∈ (first :: tail).filter (·.code ≠ .nack) :=
      List.mem_filter.mpr ⟨hc, by simpa using hcode⟩
    cases hcase : (first :: tail).filter (·.code ≠ .nack) with
    | nil =>
      rw [hcase] at hin
      simp at hin
    | cons head rest =>
      have hbest := (selectHighest_spec head rest).1
      rw [← hcase] at hbest
      have hne := (List.mem_filter.mp hbest).2
      refine ⟨selectHighest head rest, (List.mem_filter.mp hbest).1, by simpa using hne, ?_⟩
      simp only [getHighestAcceptedProposal, hacks.trans hcase, removeNacks_greatest first hm hpos]
      cases preparePhase with
      | false => simp [hpos]
      | true =>
        by_cases hge : -1 ≤ (selectHighest head rest).acceptedProposal.proposalNum
        · simp [hpos, hge]
        · have hne : (selectHighest head rest).acceptedProposal.proposalNum ≠ -1 := by
            intro he
            exact hge (he ▸ Int32.le_refl _)
          simp [hge, hne]

theorem getHighestAcceptedProposal_selected
    (h : getHighestAcceptedProposal junk vec preparePhase = some r)
    (hpos : ∀ c ∈ vec, c.code = .nack → -1 < c.acceptedProposal.proposalNum)
    (hack : ∀ c ∈ vec, c.code ≠ .nack → -1 ≤ c.acceptedProposal.proposalNum) :
    Selected junk vec preparePhase r := by
  by_cases hnack : ∃ c ∈ vec, c.code = .nack
  · obtain ⟨maxNack, hgt, hm⟩ := exists_greatestNack hnack hpos
    by_cases hall : ∀ c ∈ vec, c.code = .nack
    · obtain ⟨last, hlast, he⟩ :=
        @getHighestAcceptedProposal_of_all_nack junk vec preparePhase maxNack hall hm hgt
      obtain ⟨num, hnum, rfl⟩ := Option.map_eq_some_iff.mp (he.symm.trans h)
      exact .allNack hall hlast (fun c hc => hm.le c hc (hall c hc)) hnum
    · have hsome : ∃ c ∈ vec, c.code ≠ .nack := by
        by_contra hno
        exact hall (fun c hc => by_contra (fun hne => hno ⟨c, hc, hne⟩))
      obtain ⟨best, hbest, hne, he⟩ :=
        @getHighestAcceptedProposal_of_some_nack junk vec preparePhase maxNack hm hgt hsome
      rw [he] at h
      cases preparePhase with
      | false =>
        obtain ⟨num, hnum, rfl⟩ := Option.map_eq_some_iff.mp h
        exact .acceptNack rfl hm.le hnack hsome hnum
      | true =>
        rw [if_neg (by simp), if_pos (hack best hbest hne)] at h
        obtain ⟨num, hnum, rfl⟩ := Option.map_eq_some_iff.mp h
        exact .prepareNack rfl hm.le hnack hnum
  · have hno : ∀ c ∈ vec, c.code ≠ .nack := fun c hc he => hnack ⟨c, hc, he⟩
    cases vec with
    | nil => simp [getHighestAcceptedProposal] at h
    | cons head rest =>
      rw [getHighestAcceptedProposal_of_no_nack hno, Option.some.injEq] at h
      split at h
      next hfree => exact h ▸ .free rfl hno hfree
      next hbest => exact h ▸ .best rfl hno hbest

end Result

end KeyValueStore
