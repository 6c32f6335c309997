import KeyValueStore.ObjectHeap
import KeyValueStore.ValueSelection

/-! `get_highest_accepted_proposal` with the pointers and the deletions of the source:
it deletes every reply but the one it returns, and the replies that lose a tie of
numbers, which it only forgets. -/

namespace KeyValueStore

abbrev CommandHeap := ObjectHeap Command

namespace CommandHeap

/-- The first loop; `size` is the length of the vector. -/
def removeNacks (h : CommandHeap) (size maxResp : ℕ) (maxNack : Int32) :
    List ℕ → Option (CommandHeap × ℕ × Int32 × List ℕ)
  | [] => some (h, maxResp, maxNack, [])
  | it :: rest => (h.cell it).bind fun c =>
    if c.code = .nack then
      let maxNack :=
        if c.acceptedProposal.proposalNum > maxNack then c.acceptedProposal.proposalNum else maxNack
      if size > 1 then
        (h.delete it).bind fun h => removeNacks h (size - 1) it maxNack rest
      else removeNacks h (size - 1) it maxNack rest
    else (removeNacks h size maxResp maxNack rest).map fun r =>
      (r.1, r.2.1, r.2.2.1, it :: r.2.2.2)

/-- The second loop, from the second reply on. -/
def selectHighest (h : CommandHeap) (maxResp : ℕ) : List ℕ → Option (CommandHeap × ℕ)
  | [] => some (h, maxResp)
  | it :: rest => (h.cell it).bind fun c => (h.cell maxResp).bind fun m =>
    if c.acceptedProposal.proposalNum ≥ m.acceptedProposal.proposalNum then
      if c.acceptedProposal.proposalNum = m.acceptedProposal.proposalNum then
        if c.acceptedProposal.proposalClientId ≥ m.acceptedProposal.proposalClientId then
          (h.delete maxResp).bind fun h => selectHighest h it rest
        else selectHighest h maxResp rest -- erased from the vector, but not deleted
      else (h.delete it).bind fun h => selectHighest h maxResp rest
    else (h.delete it).bind fun h => selectHighest h maxResp rest

def getHighestAcceptedProposal (junk : Command) (h : CommandHeap) (vec : List ℕ)
    (preparePhase : Bool) : Option (CommandHeap × ℕ) :=
  match vec with
  | [] => none
  | first :: _ =>
    (removeNacks h vec.length first (-1) vec).bind fun (h, maxResp, maxNack, acks) =>
    match acks with
    | [] => (Int32.succ? maxNack).bind fun num =>
      (h.modify maxResp (·.withAcceptedNum num)).map (·, maxResp)
    | head :: rest => (selectHighest h head rest).bind fun (h, maxResp) =>
      (h.cell maxResp).bind fun c =>
      if maxNack > -1 && !preparePhase then
        (h.delete maxResp).bind fun h => (Int32.succ? maxNack).map fun num =>
          (h.new ({ junk with code := .nack, key := [], value := [] }.withAcceptedNum num), h.next)
      else if c.acceptedProposal.proposalNum ≥ -1 && maxNack > -1 then
        (Int32.succ? maxNack).bind fun num =>
          (h.modify maxResp fun c =>
            { c with code := .nack, key := [], value := [] }.withAcceptedNum num).map (·, maxResp)
      else if c.acceptedProposal.proposalNum = -1 then
        (h.modify maxResp fun c => { c with code := .ok, key := [], value := [] }).map (·, maxResp)
      else some (h, maxResp)

end CommandHeap

/-- How many replies the second loop forgets. -/
def losingTies (maxResp : Command) : List Command → ℕ
  | [] => 0
  | it :: rest =>
    if it.acceptedProposal.proposalNum = maxResp.acceptedProposal.proposalNum then
      if it.acceptedProposal.proposalClientId ≥ maxResp.acceptedProposal.proposalClientId then
        losingTies it rest
      else losingTies maxResp rest + 1
    else losingTies maxResp rest

def forgottenReplies (vec : List Command) : ℕ :=
  match vec.filter (·.code ≠ .nack) with
  | [] => 0
  | head :: rest => losingTies head rest

namespace CommandHeap

variable {h : CommandHeap} {it : ℕ} {ps rest : List ℕ} {c : Command} {cs : List Command}

theorem holds_rest (hit : it ∉ rest) (hrest : h.Holds rest cs) :
    (h.without {it}).Holds rest cs :=
  ObjectHeap.Holds.without hrest (fun _ hp hD => hit (Finset.mem_singleton.mp hD ▸ hp))

/-- Every NACK is deleted, except that the last stays when nothing else does; `kept`
counts the replies before `ps` that stay. -/
theorem removeNacks_spec (kept maxResp : ℕ) (maxNack : Int32) (m : Command)
    (hh : h.Holds ps cs) (hnd : ps.Nodup) :
    ∃ D maxResp' acks, removeNacks h (kept + ps.length) maxResp maxNack ps =
        some (h.without D, maxResp', (KeyValueStore.removeNacks m maxNack cs).2.1, acks) ∧
      h.Holds acks (KeyValueStore.removeNacks m maxNack cs).2.2 ∧ acks.Sublist ps ∧
      (kept = 0 → acks = [] → ps ≠ [] → maxResp' ∈ ps ∧ D = ps.toFinset.erase maxResp' ∧
        h.cell maxResp' = some (KeyValueStore.removeNacks m maxNack cs).1) ∧
      (0 < kept ∨ acks ≠ [] → D = ps.toFinset \ acks.toFinset) := by
  induction ps generalizing h cs kept maxResp maxNack m with
  | nil =>
    obtain rfl := List.forall₂_nil_left_iff.mp hh
    refine ⟨∅, maxResp, [], ?_, .nil, .slnil, fun _ _ hne => absurd rfl hne, fun _ => by simp⟩
    rw [removeNacks, ObjectHeap.without_empty]
    rfl
  | cons it rest ih =>
    obtain ⟨c, cs, hc, hrest, rfl⟩ := List.forall₂_cons_left_iff.mp hh
    obtain ⟨hit, hnd⟩ := List.nodup_cons.mp hnd
    rw [List.length_cons, ← Nat.add_assoc]
    by_cases hn : c.code = .nack
    · simp only [removeNacks, KeyValueStore.removeNacks, hc, hn, if_true, Option.bind_some,
        Nat.add_sub_cancel]
      by_cases hsize : kept + rest.length + 1 > 1
      · obtain ⟨D, maxResp', acks, hrun, hacks, hsub, hall, hsome⟩ :=
          ih kept it (if c.acceptedProposal.proposalNum > maxNack then
            c.acceptedProposal.proposalNum else maxNack) c (holds_rest hit hrest) hnd
        have hita : it ∉ acks := fun h => hit (hsub.subset h)
        refine ⟨insert it D, maxResp', acks, ?_, hacks.of_without, hsub.cons it, ?_, ?_⟩
        · rw [if_pos hsize, ObjectHeap.delete_of_cell hc, Option.bind_some, hrun,
            ObjectHeap.without_without, Finset.insert_eq]
        · intro hk he _
          have hne : rest ≠ [] := fun hr => by simp [hk, hr] at hsize
          obtain ⟨hm, hD, hcell⟩ := hall hk he hne
          have hne : it ≠ maxResp' := fun h => hit (h ▸ hm)
          refine ⟨List.mem_cons_of_mem _ hm, ?_, ?_⟩
          · rw [hD, List.toFinset_cons, Finset.erase_insert_of_ne hne]
          · rwa [ObjectHeap.without_cell_of_notMem
              (fun h => hne (Finset.mem_singleton.mp h).symm)] at hcell
        · intro h
          rw [hsome h, List.toFinset_cons,
            Finset.insert_sdiff_of_notMem _ (fun h => hita (List.mem_toFinset.mp h))]
      · obtain rfl : kept = 0 := by omega
        obtain rfl := List.eq_nil_of_length_eq_zero (show rest.length = 0 by omega)
        obtain rfl := List.forall₂_nil_left_iff.mp hrest
        refine ⟨∅, it, [], ?_, .nil, List.nil_sublist _, fun _ _ _ => ?_, fun h => ?_⟩
        · rw [if_neg hsize, removeNacks, ObjectHeap.without_empty]
          rfl
        · exact ⟨List.mem_cons_self, by simp, hc⟩
        · simp at h
    · obtain ⟨D, maxResp', acks, hrun, hacks, hsub, _, hsome⟩ :=
        ih (kept + 1) maxResp maxNack m hrest hnd
      refine ⟨D, maxResp', it :: acks, ?_, ?_, hsub.cons_cons it,
        fun _ he => absurd he (List.cons_ne_nil it acks), ?_⟩
      · rw [Nat.add_right_comm] at hrun
        simp only [removeNacks, KeyValueStore.removeNacks, hc, hn, if_false, Option.bind_some,
          hrun, Option.map_some]
      · rw [KeyValueStore.removeNacks, if_neg hn]
        exact .cons hc hacks
      · intro _
        rw [hsome (.inl (Nat.succ_pos kept)), List.toFinset_cons, List.toFinset_cons,
          Finset.insert_sdiff_insert,
          Finset.sdiff_insert_of_notMem (fun h => hit (List.mem_toFinset.mp h))]

theorem selectHighest_spec (maxResp : ℕ) (m : Command) (hh : h.Holds ps cs) (hnd : ps.Nodup)
    (hm : h.cell maxResp = some m) (hmax : maxResp ∉ ps) :
    ∃ D r, selectHighest h maxResp ps = some (h.without D, r) ∧
      h.cell r = some (KeyValueStore.selectHighest m cs) ∧ r ∈ maxResp :: ps ∧ r ∉ D ∧
      (∀ p ∈ D, p ∈ maxResp :: ps) ∧ D.card + losingTies m cs = ps.length := by
  induction ps generalizing h cs maxResp m with
  | nil =>
    obtain rfl := List.forall₂_nil_left_iff.mp hh
    exact ⟨∅, maxResp, by simp [selectHighest, ObjectHeap.without_empty], hm,
      List.mem_cons_self, by simp, by simp, rfl⟩
  | cons it rest ih =>
    obtain ⟨c, cs, hc, hrest, rfl⟩ := List.forall₂_cons_left_iff.mp hh
    obtain ⟨hit, hnd⟩ := List.nodup_cons.mp hnd
    obtain ⟨hne, hmax⟩ := not_or.mp (fun h => hmax (List.mem_cons.mpr h))
    -- one of the two compared replies is deleted and the other one stays
    have hdel : ∀ {p q : ℕ} {a b : Command}, h.cell p = some a → h.cell q = some b → p ≠ q →
        p ∉ rest → q ∉ rest → (∀ r, r ∈ q :: p :: rest → r ∈ maxResp :: it :: rest) →
        ∃ D r, (h.delete p).bind (fun h => selectHighest h q rest) = some (h.without D, r) ∧
          h.cell r = some (KeyValueStore.selectHighest b cs) ∧ r ∈ maxResp :: it :: rest ∧
          r ∉ D ∧ (∀ p ∈ D, p ∈ maxResp :: it :: rest) ∧
          D.card + losingTies b cs = (it :: rest).length := by
      intro p q a b ha hb hpq hp hq hmem
      have hb' : (h.without {p}).cell q = some b := by
        rwa [ObjectHeap.without_cell_of_notMem (fun h => hpq (Finset.mem_singleton.mp h).symm)]
      obtain ⟨D, r, hrun, hr, hrm, hrD, hD, hcard⟩ := ih q b (holds_rest hp hrest) hnd hb' hq
      have hnot : ∀ {r}, r ∈ q :: rest → r ≠ p := fun hr he => by
        rcases List.mem_cons.mp hr with rfl | hr
        · exact hpq he.symm
        · exact hp (he ▸ hr)
      have hin : ∀ {r}, r ∈ q :: rest → r ∈ maxResp :: it :: rest := fun hr => hmem _ (by
        rcases List.mem_cons.mp hr with rfl | hr
        · exact List.mem_cons_self
        · exact List.mem_cons_of_mem _ (List.mem_cons_of_mem _ hr))
      refine ⟨insert p D, r, ?_, ?_, hin hrm, ?_, ?_, ?_⟩
      · rw [ObjectHeap.delete_of_cell ha, Option.bind_some, hrun, ObjectHeap.without_without,
          Finset.insert_eq]
      · rwa [ObjectHeap.without_cell_of_notMem
          (fun h => hnot hrm (Finset.mem_singleton.mp h))] at hr
      · exact fun h => (Finset.mem_insert.mp h).elim (hnot hrm) hrD
      · intro s hs
        rcases Finset.mem_insert.mp hs with rfl | hs
        · exact hmem _ (List.mem_cons_of_mem _ List.mem_cons_self)
        · exact hin (hD s hs)
      · rw [Finset.card_insert_of_notMem (fun h => hnot (hD p h) rfl), List.length_cons]
        omega
    have hkeep := hdel hc hm (Ne.symm hne) hit hmax (fun r hr => hr)
    simp only [selectHighest, KeyValueStore.selectHighest, losingTies, hc, hm, Option.bind_some]
    by_cases hnum : c.acceptedProposal.proposalNum = m.acceptedProposal.proposalNum
    · have hle : m.acceptedProposal.proposalNum ≥ m.acceptedProposal.proposalNum :=
        Int32.le_refl _
      by_cases hcid : c.acceptedProposal.proposalClientId ≥ m.acceptedProposal.proposalClientId
      · simp only [hnum, hle, hcid, if_true]
        exact hdel hm hc hne hmax hit (fun r hr => (List.Perm.swap maxResp it rest).subset hr)
      · simp only [hnum, hle, hcid, if_true, if_false]
        obtain ⟨D, r, hrun, hr, hrm, hrD, hD, hcard⟩ := ih maxResp m hrest hnd hm hmax
        have hin : ∀ {r}, r ∈ maxResp :: rest → r ∈ maxResp :: it :: rest := fun hr =>
          (List.Sublist.cons_cons maxResp (List.sublist_cons_self it rest)).subset hr
        exact ⟨D, r, hrun, hr, hin hrm, hrD, fun p hp => hin (hD p hp), by
          rw [List.length_cons]; omega⟩
    · simp only [hnum, if_false, ite_self]
      exact hkeep

section Ownership

variable {β π : Type*} {R : Command → β → Prop} {own : π → Option ℕ} {val : π → Option β} {n : ℕ}

theorem removeNacks_owns (maxResp : ℕ) (maxNack : Int32) (m : Command)
    (ho : ObjectHeap.Owns R h own val ps.toFinset n) (hh : h.Holds ps cs) (hnd : ps.Nodup)
    (hne : ps ≠ []) :
    ∃ h' maxResp' acks, removeNacks h ps.length maxResp maxNack ps =
        some (h', maxResp', (KeyValueStore.removeNacks m maxNack cs).2.1, acks) ∧
      h'.Holds acks (KeyValueStore.removeNacks m maxNack cs).2.2 ∧ acks.Nodup ∧
      (acks = [] → h'.cell maxResp' = some (KeyValueStore.removeNacks m maxNack cs).1 ∧
        ObjectHeap.Owns R h' own val {maxResp'} n) ∧
      (acks ≠ [] → ObjectHeap.Owns R h' own val acks.toFinset n) := by
  obtain ⟨D, maxResp', acks, hrun, hacks, hsub, hall, hsome⟩ :=
    removeNacks_spec 0 maxResp maxNack m hh hnd
  rw [Nat.zero_add] at hrun
  have hin : acks.toFinset ⊆ ps.toFinset := fun p hp =>
    List.mem_toFinset.mpr (hsub.subset (List.mem_toFinset.mp hp))
  have hholds : (h.without D).Holds acks (KeyValueStore.removeNacks m maxNack cs).2.2 := by
    refine hacks.without (fun p hp hD => ?_)
    rw [hsome (.inr (List.ne_nil_of_mem hp)), Finset.mem_sdiff, List.mem_toFinset (l := acks)] at hD
    exact hD.2 hp
  refine ⟨h.without D, maxResp', acks, hrun, hholds, hnd.sublist hsub, fun he => ?_, fun he => ?_⟩
  · obtain ⟨hm, hD, hcell⟩ := hall rfl he hne
    have hw := ho.without (hD ▸ Finset.erase_subset maxResp' ps.toFinset)
    rw [hD, Finset.sdiff_erase_self (List.mem_toFinset.mpr hm), ← hD] at hw
    refine ⟨?_, hw⟩
    rwa [ObjectHeap.without_cell_of_notMem (by rw [hD]; exact Finset.notMem_erase _ _)]
  · have hD := hsome (.inr he)
    have hw := ho.without (hD ▸ Finset.sdiff_subset)
    rwa [hD, Finset.sdiff_sdiff_eq_self hin, ← hD] at hw

theorem selectHighest_owns (maxResp : ℕ) (m : Command)
    (ho : ObjectHeap.Owns R h own val (maxResp :: ps).toFinset n)
    (hh : h.Holds (maxResp :: ps) (m :: cs)) (hnd : (maxResp :: ps).Nodup) :
    ∃ h' r, selectHighest h maxResp ps = some (h', r) ∧
      h'.cell r = some (KeyValueStore.selectHighest m cs) ∧
      ObjectHeap.Owns R h' own val {r} (n + losingTies m cs) := by
  obtain ⟨hm, hrest⟩ := List.forall₂_cons.mp hh
  obtain ⟨hmax, hnd'⟩ := List.nodup_cons.mp hnd
  obtain ⟨D, r, hrun, hr, hrm, hrD, hD, hcard⟩ := selectHighest_spec maxResp m hrest hnd' hm hmax
  have hDF : D ⊆ (maxResp :: ps).toFinset := fun p hp => List.mem_toFinset.mpr (hD p hp)
  have hrF : r ∈ (maxResp :: ps).toFinset \ D :=
    Finset.mem_sdiff.mpr ⟨List.mem_toFinset.mpr hrm, hrD⟩
  have hsize : (((maxResp :: ps).toFinset \ D).erase r).card = losingTies m cs := by
    rw [Finset.card_erase_of_mem hrF, Finset.card_sdiff_of_subset hDF,
      List.toFinset_card_of_nodup hnd, List.length_cons]
    omega
  have hlose := (ho.without hDF).lose (Finset.erase_subset r _)
  rw [hsize, Finset.sdiff_erase_self hrF] at hlose
  exact ⟨h.without D, r, hrun, (ObjectHeap.without_cell_of_notMem hrD).trans hr, hlose⟩

/-- Of the replies, the function returns one object and forgets the losers of ties; all
the others are deleted. -/
theorem getHighestAcceptedProposal_owns (junk : Command) (preparePhase : Bool)
    (ho : ObjectHeap.Owns R h own val ps.toFinset n) (hh : h.Holds ps cs) (hnd : ps.Nodup) :
    Option.Rel (fun r c => r.1.cell r.2 = some c ∧
        ObjectHeap.Owns R r.1 own val {r.2} (n + forgottenReplies cs))
      (getHighestAcceptedProposal junk h ps preparePhase)
      (KeyValueStore.getHighestAcceptedProposal junk cs preparePhase) := by
  cases ps with
  | nil =>
    obtain rfl := List.forall₂_nil_left_iff.mp hh
    exact .none
  | cons first rest =>
    obtain ⟨c, cs, hc, hrest, rfl⟩ := List.forall₂_cons_left_iff.mp hh
    obtain ⟨h', maxResp, acks, hrun, hacks, hnda, hall, hsome⟩ :=
      removeNacks_owns first (-1) c ho hh hnd (List.cons_ne_nil first rest)
    have hforgot := removeNacks_acks c (-1) (c :: cs)
    rw [forgottenReplies, ← hforgot]
    simp only [getHighestAcceptedProposal, KeyValueStore.getHighestAcceptedProposal, hrun,
      Option.bind_some]
    generalize KeyValueStore.removeNacks c (-1) (c :: cs) = r at *
    obtain ⟨m, maxNack, vec⟩ := r
    cases acks with
    | nil =>
      obtain rfl := List.forall₂_nil_left_iff.mp hacks
      obtain ⟨hm, ho⟩ := hall rfl
      cases Int32.succ? maxNack with
      | none => exact .none
      | some num =>
        obtain ⟨h'', hmod, hcell, _, ho⟩ :=
          ho.modify_floating (Finset.mem_singleton_self maxResp) hm (·.withAcceptedNum num)
        simp only [Option.bind_some, hmod, Option.map_some]
        exact .some ⟨hcell, ho⟩
    | cons head tail =>
      obtain ⟨d, ds, hd, htail, rfl⟩ := List.forall₂_cons_left_iff.mp hacks
      obtain ⟨h'', r, hsel, hcell, ho⟩ := selectHighest_owns head d (hsome (by simp)) hacks hnda
      have hr : r ∈ ({r} : Finset ℕ) := Finset.mem_singleton_self r
      simp only [hsel, Option.bind_some, hcell]
      generalize KeyValueStore.selectHighest d ds = m at *
      by_cases hlate : (maxNack > -1 && !preparePhase) = true
      · obtain ⟨h₃, hdel, _, ho⟩ := ho.delete hr hcell
        rw [Finset.erase_singleton] at ho
        simp only [hlate, if_true, hdel, Option.bind_some]
        cases Int32.succ? maxNack with
        | none => exact .none
        | some num => exact .some ⟨ObjectHeap.new_cell_next, ho.new _⟩
      · by_cases hnack : (m.acceptedProposal.proposalNum ≥ -1 && maxNack > -1) = true
        · simp only [hlate, hnack, if_true, Bool.false_eq_true, if_false]
          cases Int32.succ? maxNack with
          | none => exact .none
          | some num =>
            obtain ⟨h₃, hmod, hcell, _, ho⟩ := ho.modify_floating hr hcell fun c =>
              { c with code := .nack, key := [], value := [] }.withAcceptedNum num
            simp only [Option.bind_some, hmod, Option.map_some]
            exact .some ⟨hcell, ho⟩
        · simp only [hlate, hnack, Bool.false_eq_true, if_false]
          by_cases hunset : m.acceptedProposal.proposalNum = -1
          · obtain ⟨h₃, hmod, hcell, _, ho⟩ := ho.modify_floating hr hcell fun c =>
              { c with code := .ok, key := [], value := [] }
            simp only [if_pos hunset, hmod, Option.map_some]
            exact .some ⟨hcell, ho⟩
          · simp only [if_neg hunset]
            exact .some ⟨hcell, ho⟩

end Ownership

end CommandHeap

end KeyValueStore
