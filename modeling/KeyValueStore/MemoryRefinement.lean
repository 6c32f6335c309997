import KeyValueStore.HandlerMemory

/-! The server with its commands behind pointers does what the server with its commands
as values does: its steps are defined at the same inputs, so that none of them touches a
deleted command, and the commands that are lost are those that the steps forget. -/

namespace KeyValueStore

variable {hs : HeapServer} {s : MpServer} {hc : HeapCall} {call : InsertCall} {n : ℕ}

section Relation

structure SameCall (hc : HeapCall) (call : InsertCall) : Prop where
  request : hc.request = call.request
  cl : hc.cl = call.key
  currIdx : hc.currIdx = call.currIdx
  index : call.origCmd.index.toNat = call.currIdx
  currIdx_lt : call.currIdx < initCommandLength

/-- Which commands the variables of a call point to: `orig_cmd`, until it is in the log,
and the reply that `sent_cmd` or `temp_cmd` took over, if they did. -/
inductive PhaseHolds (p : ℕ) (orig : Command) :
    HeapPhase → Phase → Option ℕ → Option ℕ → Option Command → Option Command → Prop
  | roundStart : PhaseHolds p orig .roundStart .roundStart (some p) none (some orig) none
  | preparing {round : ℕ} {own : Option (Proposal × Content)} :
      PhaseHolds p orig .preparing (.preparing round own) (some p) none (some orig) none
  | ownSent {round call : ℕ} {sentCmd : Command} (hsent : SameCommand sentCmd orig) :
      PhaseHolds p orig (.accepting p) (.accepting round call sentCmd) (some p) none (some orig)
        none
  | adopted {round call q : ℕ} {sentCmd : Command} :
      PhaseHolds p orig (.accepting q) (.accepting round call sentCmd) (some p) (some q) (some orig)
        (some sentCmd)
  | proposed {round q : ℕ} {tempCmd : Command} :
      PhaseHolds p orig (.proposed q) (.proposed round tempCmd) (some p) (some q) (some orig)
        (some tempCmd)
  | returned : PhaseHolds p orig .returned .returned none none none none

inductive CallHolds : Option HeapCall → Option InsertCall →
    Option ℕ → Option ℕ → Option Command → Option Command → Prop
  | idle : CallHolds none none none none none none
  | running {hc : HeapCall} {call : InsertCall} {o t : Option ℕ} {ov tv : Option Command}
      (hsame : SameCall hc call)
      (hphase : PhaseHolds hc.origCmd call.origCmd hc.phase call.phase o t ov tv) :
      CallHolds (some hc) (some call) o t ov tv

structure SameStore (hs : HeapServer) (s : MpServer) : Prop where
  logs : LogsMatch hs.logMap s.store.logMap
  mpKsMap : hs.mpKsMap = s.store.mpKsMap
  broadcasts : hs.broadcasts = s.broadcasts

/-- Nothing points to `n` commands that were never deleted, and each other command has
exactly one pointer, in a slot of a log or in the call. -/
structure Refines (hs : HeapServer) (s : MpServer) (n : ℕ) : Prop extends SameStore hs s where
  memory : ∃ o t ov tv, CallHolds hs.call s.call o t ov tv ∧
    Holding hs.heap hs.logMap o t s.store.logMap ov tv ∅ n

theorem start_refines : Refines .start .start 0 where
  logs _ := .none
  mpKsMap := rfl
  broadcasts := rfl
  memory := by
    refine ⟨none, none, none, none, .idle, ObjectHeap.Owns.congr .empty (fun x => ?_) fun x => ?_⟩
    · cases x <;> rfl
    · cases x <;> rfl

end Relation

section Start

theorem insertCommand_refines (hstore : SameStore hs s)
    (hh : Holding hs.heap hs.logMap none none s.store.logMap none none ∅ n)
    (request : KeyStoreRequest) (rand : UInt32) (types : ℕ → RequestType) :
    Option.Rel (fun x y => Refines x y n) (hs.insertCommand request rand types)
      (s.insertCommand request rand types) := by
  let origCmd := fillCommandFromRequest request (getNewAllocCommand rand request.clientid.toInt32 0)
  have hnew := hh.new origCmd
  rw [insert_empty_eq] at hnew
  obtain ⟨h', L', m, hopen, hL, hm, hlogs, hkeep, hh'⟩ := openLog_spec
    { hs with heap := hs.heap.new origCmd } s.store types (cStr origCmd.key) hstore.logs hnew
  have hcell := hkeep _ _ ObjectHeap.new_cell_next
  simp only [HeapServer.insertCommand, MpServer.insertCommand, insertCommandStart]
  rw [hopen]
  simp only [hm.firstAvailable]
  cases hi : (s.store.lookup types (cStr origCmd.key)).firstAvailable with
  | none => exact .none
  | some i =>
    have hlt := (CommandsList.firstAvailable_eq_some hi).1
    obtain ⟨h₁, hmod, hcell₁, _, hh₁⟩ := hh'.modify_floating (Finset.mem_singleton_self _) hcell
      fun c => { c with index := i.toUInt32 }
    have hdone := Holding.putOrig hh₁ (Finset.mem_singleton_self _) hcell₁ (SameCommand.refl _)
    rw [Finset.erase_singleton] at hdone
    simp only [Option.bind_some, Option.map_some, hmod]
    exact .some {
      logs := hlogs
      mpKsMap := hstore.mpKsMap
      broadcasts := hstore.broadcasts
      memory := ⟨_, _, _, _, .running ⟨rfl, rfl, rfl, toNat_toUInt32_of_lt hlt, hlt⟩ .roundStart,
        hdone⟩ }

end Start

section Rounds

theorem startRound_refines (hstore : SameStore hs s) (hsame : SameCall hc call)
    (hh : Holding hs.heap hs.logMap (some hc.origCmd) none s.store.logMap (some call.origCmd) none
      ∅ n) :
    Option.Rel (fun x y => Refines x y n) (hs.startRound hc) (s.startRound call) := by
  obtain ⟨a, ha, type, rfl⟩ := hh.origCmd_cell
  have hi : call.origCmd.index.toNat < initCommandLength := hsame.index ▸ hsame.currIdx_lt
  simp only [HeapServer.startRound, HeapServer.updateLocalValues, MpServer.startRound,
    updateLocalValues, ha, Option.bind_some]
  rcases hstore.logs.cases (cStr call.origCmd.key) with ⟨hL, hV⟩ | ⟨m, cl, hL, hV, hm⟩
  · simp only [hL, hV]
    exact .none
  obtain ⟨q, hq⟩ := hm.slot hi
  obtain ⟨h₁, hmod, _, hkeep, hh₁⟩ := hh.modifySlot hL hV hq hi
    (fun c => { c with
      minProposalNum := call.origCmd.acceptedProposal, index := call.origCmd.index })
    { cl.cmdVec call.origCmd.index.toNat with
      minProposalNum := call.origCmd.acceptedProposal, index := call.origCmd.index }
    (by rintro _ ⟨t, rfl⟩; exact ⟨t, rfl⟩)
  have hpq : hc.origCmd ≠ q := fun he => by
    cases hh.apart .origCmd (.slot _ _) q (he ▸ rfl) (Holding.slot_pointer hL hq)
  obtain ⟨h₂, hmod₂, hcell₂, _, hh₂⟩ := hh₁.modifyOrig
    (fun c => { c with mpReqType := .prepare }) { call.origCmd with mpReqType := .prepare }
    (by rintro _ ⟨t, rfl⟩; exact SameCommand.refl _)
  simp only [hL, hV, hq, hmod, hmod₂, HeapServer.send, hcell₂, hkeep _ hpq, ha, Option.bind_some,
    Option.map_some]
  exact .some {
    logs := hstore.logs.update_right hL (hm.congr rfl)
    mpKsMap := hstore.mpKsMap
    broadcasts := by rw [hstore.broadcasts]
    memory := ⟨_, _, _, _, .running ⟨hsame.request, hsame.cl, hsame.currIdx, hsame.index,
      hsame.currIdx_lt⟩ .preparing, hh₂⟩ }

/-- The replies of a phase are made, and the one that the phase goes on with is left. -/
theorem collected_refines {h : CommandHeap} {L : Bytes → Option LogMemory} {o t : Option ℕ}
    {V : Bytes → Option CommandsList} {ov tv : Option Command} (hh : Holding h L o t V ov tv ∅ n)
    (vec : List Command) (junk : Command) (preparePhase : Bool) :
    Option.Rel (fun r c => r.1.cell r.2 = some c ∧
        Holding r.1 L o t V ov tv {r.2} (n + forgottenReplies vec))
      (CommandHeap.getHighestAcceptedProposal junk (h.newAll vec) (h.addresses vec.length)
        preparePhase)
      (getHighestAcceptedProposal junk vec preparePhase) := by
  have hnew := hh.newAll vec
  rw [Finset.empty_union] at hnew
  exact CommandHeap.getHighestAcceptedProposal_owns junk preparePhase hnew (h.holds_newAll vec)
    (ObjectHeap.addresses_nodup _)

theorem finishPrepare_refines {round : ℕ} (hstore : SameStore hs s) (hsame : SameCall hc call)
    (hh : Holding hs.heap hs.logMap (some hc.origCmd) none s.store.logMap (some call.origCmd) none
      ∅ n) (vec : List Command) (junk : Command) :
    Option.Rel (fun x y => Refines x y (n + forgottenReplies vec)) (hs.finishPrepare hc vec junk)
      (s.finishPrepare call round vec junk) := by
  simp only [HeapServer.finishPrepare, MpServer.finishPrepare]
  refine (collected_refines hh vec junk true).bind_map ?_
  rintro ⟨h₁, p⟩ temp ⟨hp, hh₁⟩
  dsimp only at hp hh₁
  have hpF : p ∈ ({p} : Finset ℕ) := Finset.mem_singleton_self p
  have hpo : hc.origCmd ≠ p := fun he => hh₁.floating p hpF .origCmd (by rw [he]; rfl)
  simp only [hp, Option.bind_some, commandToSend]
  by_cases hnack : temp.code = .nack
  · obtain ⟨h₂, h₃, hmod, hdel, _, _, hh₂⟩ := hh₁.retry hpF hp temp.acceptedProposal.proposalNum
    rw [Finset.erase_singleton] at hh₂
    simp only [hnack, if_true, hmod, hdel, Option.bind_some, Option.map_some]
    exact .some ⟨{ hstore with }, _, _, _, _, .running { hsame with } .roundStart, hh₂⟩
  · obtain ⟨a, ha, type, rfl⟩ := Holding.origCmd_cell hh₁
    simp only [if_neg hnack]
    by_cases hok : temp.code = .ok
    · obtain ⟨h₂, hdel, hkeep, hh₂⟩ := hh₁.delete hpF hp
      rw [Finset.erase_singleton] at hh₂
      obtain ⟨h₃, hmod, hcell, _, hh₃⟩ := Holding.modifyOrig hh₂
        (fun c => { c with
          mpReqType := .accept, acceptedProposal := call.origCmd.acceptedProposal })
        call.origCmd (by rintro _ ⟨t, rfl⟩; exact ⟨.accept, rfl⟩)
      simp only [hok, if_true, hdel, hkeep _ hpo, ha, hmod, HeapServer.send, hcell,
        Option.bind_some, Option.map_some]
      exact .some ⟨{ hstore with broadcasts := by rw [hstore.broadcasts] }, _, _, _, _,
        .running { hsame with } (.ownSent ⟨.accept, rfl⟩), hh₃⟩
    · obtain ⟨h₂, hmod, hcell, _, hh₂⟩ := hh₁.modify_floating hpF hp fun c => { c with
        mpReqType := .accept, acceptedProposal := call.origCmd.acceptedProposal }
      have hh₃ := Holding.putTemp hh₂ hpF hcell (SameCommand.refl _)
      rw [Finset.erase_singleton] at hh₃
      simp only [hok, if_false, ha, hmod, HeapServer.send, hcell, Option.bind_some,
        Option.map_some]
      exact .some ⟨{ hstore with broadcasts := by rw [hstore.broadcasts] }, _, _, _, _,
        .running { hsame with } .adopted, hh₃⟩

theorem finishAccept_ownSent {round : ℕ} {sentCmd : Command} (hstore : SameStore hs s)
    (hsame : SameCall hc call) (hsent : SameCommand sentCmd call.origCmd)
    (hh : Holding hs.heap hs.logMap (some hc.origCmd) none s.store.logMap (some call.origCmd) none
      ∅ n) (vec : List Command) (junk : Command) :
    Option.Rel (fun x y => Refines x y (n + forgottenReplies vec))
      (hs.finishAccept hc hc.origCmd vec junk) (s.finishAccept call round sentCmd vec junk) := by
  obtain ⟨type, rfl⟩ := hsent
  simp only [HeapServer.finishAccept, MpServer.finishAccept, acceptPhase, Option.map_map]
  refine (collected_refines hh vec junk false).bind_map ?_
  rintro ⟨h₁, p⟩ temp ⟨hp, hh₁⟩
  dsimp only at hp hh₁
  have hpF : p ∈ ({p} : Finset ℕ) := Finset.mem_singleton_self p
  obtain ⟨a, ha, type, rfl⟩ := Holding.origCmd_cell hh₁
  simp only [hp, ha, Option.bind_some, Function.comp_apply]
  by_cases hid : temp.commandId = call.origCmd.commandId
  · have hh₂ := Holding.putTemp hh₁ hpF hp (SameCommand.refl _)
    rw [Finset.erase_singleton] at hh₂
    simp only [hid, if_true, InsertCall.afterAccept]
    exact .some ⟨{ hstore with }, _, _, _, _, .running { hsame with } .proposed, hh₂⟩
  · obtain ⟨h₂, h₃, hmod, hdel, hcell, _, hh₂⟩ :=
      Holding.retry hh₁ hpF hp temp.acceptedProposal.proposalNum
    rw [Finset.erase_singleton] at hh₂
    simp only [hid, if_false, if_true, hmod, hdel, hcell, ha, Option.bind_some, Option.map_some,
      InsertCall.afterAccept]
    exact .some ⟨{ hstore with }, _, _, _, _, .running { hsame with } .roundStart, hh₂⟩

/-- A command that was adopted from the replies is deleted only when the round starts
again and the command is not the client's own. -/
theorem finishAccept_adopted {round q : ℕ} {sentCmd : Command} (hstore : SameStore hs s)
    (hsame : SameCall hc call)
    (hh : Holding hs.heap hs.logMap (some hc.origCmd) (some q) s.store.logMap (some call.origCmd)
      (some sentCmd) ∅ n) (vec : List Command) (junk : Command) :
    Option.Rel (fun x y => Refines x y (n + (forgottenReplies vec +
        if (getHighestAcceptedProposal junk vec false).map Command.commandId =
            some sentCmd.commandId ∨ sentCmd.commandId = call.origCmd.commandId then 1 else 0)))
      (hs.finishAccept hc q vec junk) (s.finishAccept call round sentCmd vec junk) := by
  have hrel := collected_refines hh vec junk false
  simp only [HeapServer.finishAccept, MpServer.finishAccept, acceptPhase, Option.map_map]
  generalize CommandHeap.getHighestAcceptedProposal _ _ _ _ = r at hrel ⊢
  generalize getHighestAcceptedProposal junk vec false = r' at hrel ⊢
  cases hrel with
  | none => exact .none
  | @some r temp hr =>
    obtain ⟨h₁, p⟩ := r
    obtain ⟨hp, hh₁⟩ := hr
    dsimp only at hp hh₁
    have hpF : p ∈ ({p} : Finset ℕ) := Finset.mem_singleton_self p
    have hqF : q ∉ ({p} : Finset ℕ) := fun hq => hh₁.floating q hq .tempCmd rfl
    have hqo : q ≠ hc.origCmd := fun he => by
      cases hh₁.apart .origCmd .tempCmd q (by rw [he]; rfl) rfl
    obtain ⟨a, ha, type, rfl⟩ := Holding.origCmd_cell hh₁
    obtain ⟨b, hb, type', rfl⟩ := Holding.tempCmd_cell hh₁
    have hh₂ := Holding.takeTemp hh₁
    simp only [hp, hb, Option.bind_some, Option.map_some, Function.comp_apply, Option.some.injEq]
    by_cases hid : temp.commandId = sentCmd.commandId
    · have hh₃ := hh₂.forget (Finset.mem_insert_self q {p})
      rw [Finset.erase_insert hqF] at hh₃
      have hh₃ := Holding.putTemp hh₃ hpF hp (SameCommand.refl _)
      rw [Finset.erase_singleton] at hh₃
      simp only [hid, if_true, true_or, InsertCall.afterAccept]
      exact .some ⟨{ hstore with }, _, _, _, _, .running { hsame with } .proposed, hh₃⟩
    · have hqp : q ≠ p := fun he => hqF (Finset.mem_singleton.mpr he)
      obtain ⟨h₂, h₃, hmod, hdel, hcell, hkeep, hh₄⟩ := Holding.retry hh₂
        (Finset.mem_insert_of_mem hpF) hp temp.acceptedProposal.proposalNum
      have hq : h₃.cell q = h₁.cell q := hkeep q hqo hqp
      have hF : (insert q {p} : Finset ℕ).erase p = {q} := by
        rw [Finset.erase_insert_of_ne hqp, Finset.erase_singleton, insert_empty_eq]
      rw [hF] at hh₄
      simp only [hid, if_false, false_or, hmod, hdel, hq, hb, hcell, ha, Option.bind_some,
        Option.map_some, InsertCall.afterAccept]
      by_cases hown : sentCmd.commandId = call.origCmd.commandId
      · simp only [hown, Command.withAcceptedNum, if_true, Option.map_some]
        exact .some ⟨{ hstore with }, _, _, _, _, .running { hsame with } .roundStart,
          Holding.loseOne hh₄⟩
      · obtain ⟨h₄, hdel₄, _, hh₅⟩ := hh₄.delete (Finset.mem_singleton_self q) (hq.trans hb)
        rw [Finset.erase_singleton] at hh₅
        simp only [hown, Command.withAcceptedNum, if_false, hdel₄, Option.map_some]
        exact .some ⟨{ hstore with }, _, _, _, _, .running { hsame with } .roundStart, hh₅⟩

theorem finish_refines {q : ℕ} {tempCmd : Command} (hstore : SameStore hs s)
    (hsame : SameCall hc call)
    (hh : Holding hs.heap hs.logMap (some hc.origCmd) (some q) s.store.logMap (some call.origCmd)
      (some tempCmd) ∅ n) :
    Option.Rel (fun x y => Refines x y n) (hs.finish hc q) (s.finish call tempCmd) := by
  obtain ⟨a, ha, type, rfl⟩ := hh.origCmd_cell
  obtain ⟨b, hb, type', rfl⟩ := hh.tempCmd_cell
  simp only [HeapServer.finish, MpServer.finish, recordCommand, ha, hb, hsame.cl, hsame.currIdx,
    InsertCall.key, Option.bind_some]
  rcases hstore.logs.cases (cStr call.origCmd.key) with ⟨hL, hV⟩ | ⟨m, cl, hL, hV, hm⟩
  · simp only [hL, hV]
    exact .none
  obtain ⟨r, hr⟩ := hm.slot hsame.currIdx_lt
  obtain ⟨c, hc', type'', rfl⟩ := hh.slot_cell hL hV hr hsame.currIdx_lt
  have hrq : r ≠ q := fun he => by
    cases hh.apart (.slot _ _) .tempCmd q (he ▸ Holding.slot_pointer hL hr) rfl
  have hh₁ := hh.takeTemp
  rw [insert_empty_eq] at hh₁
  have hqF : q ∈ ({q} : Finset ℕ) := Finset.mem_singleton_self q
  simp only [hL, hV, hr, hc', Option.bind_some]
  by_cases hid : call.origCmd.commandId = tempCmd.commandId
  · obtain ⟨h₂, hdel, hkeep, hh₂⟩ := hh₁.delete hqF hb
    rw [Finset.erase_singleton] at hh₂
    simp only [if_pos hid, hdel, hkeep r hrq, hc', Option.bind_some]
    by_cases hmin : tempCmd.acceptedProposal.proposalNum =
          (cl.cmdVec call.currIdx).minProposalNum.proposalNum ∧
        tempCmd.acceptedProposal.proposalClientId =
          (cl.cmdVec call.currIdx).minProposalNum.proposalClientId
    · obtain ⟨h₃, hmod, hcell, _, hh₃⟩ := Holding.modifyOrig hh₂
        (fun c => { c with minProposalNum := (cl.cmdVec call.currIdx).minProposalNum })
        { call.origCmd with minProposalNum := (cl.cmdVec call.currIdx).minProposalNum }
        (by rintro _ ⟨t, rfl⟩; exact ⟨t, rfl⟩)
      obtain ⟨a', ha', hsame'⟩ := Holding.origCmd_cell hh₃
      obtain ⟨h₄, hdel₄, _, hh₄⟩ := (Holding.takeOrig hh₃).replaceSlot hL hV hr hsame.currIdx_lt
        (Finset.mem_insert_self hc.origCmd ∅) ha' hsame'
        ((m.setCmd call.currIdx hc.origCmd).eraseSlot call.currIdx)
        ((cl.setCmd call.currIdx { call.origCmd with
          minProposalNum := (cl.cmdVec call.currIdx).minProposalNum }).eraseSlot call.currIdx)
        rfl rfl
      rw [Finset.erase_insert (Finset.notMem_empty _)] at hh₄
      simp only [hmin, and_self, if_true, hmod, hdel₄, Option.bind_some, Option.map_some]
      exact .some ⟨⟨hstore.logs.update _ ((hm.setCmd _ _ _).eraseSlot _), hstore.mpKsMap,
        hstore.broadcasts⟩, _, _, _, _, .running { hsame with cl := rfl, currIdx := rfl } .returned,
        hh₄⟩
    · simp only [hmin, if_false]
      cases Int32.succ? (cl.cmdVec call.currIdx).minProposalNum.proposalNum with
      | none => exact .none
      | some num =>
        obtain ⟨h₃, hmod, _, _, hh₃⟩ := Holding.renumberOrig hh₂ num
        simp only [hmod, Option.bind_some, Option.map_some]
        exact .some ⟨{ hstore with }, _, _, _, _,
          .running { hsame with cl := rfl, currIdx := rfl } .roundStart, hh₃⟩
  · obtain ⟨h₂, hdel, hkeep, hh₂⟩ := Holding.replaceSlot hh₁ hL hV hr hsame.currIdx_lt hqF hb
      ⟨type', rfl⟩ ((m.setCmd call.currIdx q).eraseSlot call.currIdx)
      ((cl.setCmd call.currIdx tempCmd).eraseSlot call.currIdx) rfl rfl
    rw [Finset.erase_singleton] at hh₂
    have hm' : LogMatches ((m.setCmd call.currIdx q).eraseSlot call.currIdx)
        ((cl.setCmd call.currIdx tempCmd).eraseSlot call.currIdx) := (hm.setCmd _ _ _).eraseSlot _
    simp only [if_neg hid, hdel, hm'.firstAvailable, Option.bind_some]
    cases hi : ((cl.setCmd call.currIdx tempCmd).eraseSlot call.currIdx).firstAvailable with
    | none => exact .none
    | some i =>
      have hlt := (CommandsList.firstAvailable_eq_some hi).1
      obtain ⟨h₃, hmod, _, _, hh₃⟩ := Holding.modifyOrig hh₂ (fun c => { c with
          index := i.toUInt32
          acceptedProposal := { c.acceptedProposal with proposalNum := 0 }
          minProposalNum := { c.minProposalNum with proposalNum := 0 } })
        { call.origCmd with
          index := i.toUInt32
          acceptedProposal := { call.origCmd.acceptedProposal with proposalNum := 0 }
          minProposalNum := { call.origCmd.minProposalNum with proposalNum := 0 } }
        (by rintro _ ⟨t, rfl⟩; exact ⟨t, rfl⟩)
      simp only [hmod, Option.bind_some, Option.map_some]
      exact .some ⟨⟨hstore.logs.update _ hm', hstore.mpKsMap, hstore.broadcasts⟩, _, _, _, _,
        .running ⟨hsame.request, rfl, rfl, toNat_toUInt32_of_lt hlt, hlt⟩ .roundStart, hh₃⟩

end Rounds

section Steps

theorem mpAnswer_refines (hstore : SameStore hs s)
    (hh : Holding hs.heap hs.logMap none none s.store.logMap none none ∅ n)
    (request : KeyStoreRequest) (index : ℕ) :
    Option.Rel (fun x y => x.2 = y.2 ∧
        ∃ K, x.1 = { hs with mpKsMap := K } ∧ y.1 = { s.store with mpKsMap := K })
      (hs.mpAnswer request index) (KeyValueStore.mpAnswer s.store request index) := by
  simp only [HeapServer.mpAnswer, KeyValueStore.mpAnswer]
  cases request.type with
  | read =>
    refine (applyLastWrite_refines hstore.logs hstore.mpKsMap hh (cStr request.key) index).bind ?_
    rintro ⟨found, _⟩ ⟨_, _⟩ ⟨rfl, K, rfl, rfl⟩
    cases found with
    | true =>
      simp only [if_true]
      cases K (cStr request.key) with
      | none => exact .none
      | some temp => exact .some ⟨rfl, K, rfl, rfl⟩
    | false => exact .some ⟨rfl, K, rfl, rfl⟩
  | _ => exact .some ⟨rfl, s.store.mpKsMap, by rw [← hstore.mpKsMap], rfl⟩

theorem forgotten_adopted {q : ℕ} {sentCmd origCmd : Command} (hcall : hs.call = some hc)
    (hphase : hc.phase = .accepting q)
    (hh : Holding hs.heap hs.logMap (some hc.origCmd) (some q) s.store.logMap (some origCmd)
      (some sentCmd) ∅ n) (vec : List Command) (junk : Command) :
    hs.forgotten (.finishAccept vec junk) = forgottenReplies vec +
      if (getHighestAcceptedProposal junk vec false).map Command.commandId =
          some sentCmd.commandId ∨ sentCmd.commandId = origCmd.commandId then 1 else 0 := by
  have hqo : q ≠ hc.origCmd := fun he => by
    cases hh.apart .origCmd .tempCmd q (by rw [he]; rfl) rfl
  obtain ⟨a, ha, type, rfl⟩ := hh.origCmd_cell
  obtain ⟨b, hb, type', rfl⟩ := hh.tempCmd_cell
  simp [HeapServer.forgotten, HeapServer.forgetsSent, hcall, hphase, hqo, ha, hb]

theorem duringCall_refines {o t : Option ℕ} {ov tv : Option Command} (hstore : SameStore hs s)
    (hsame : SameCall hc call) (hcall : hs.call = some hc)
    (hphase : PhaseHolds hc.origCmd call.origCmd hc.phase call.phase o t ov tv)
    (hh : Holding hs.heap hs.logMap o t s.store.logMap ov tv ∅ n) (input : ServerInput) :
    Option.Rel (fun x y => x.2 = y.2 ∧ Refines x.1 y.1 (n + hs.forgotten input))
      (hs.duringCall hc input) (s.duringCall call input) := by
  obtain ⟨request, origCmd, cl, currIdx, phase⟩ := hc
  obtain ⟨request', origCmd', currIdx', phase'⟩ := call
  dsimp only at hphase hh
  cases hphase with
  | roundStart =>
    cases input with
    | startRound => exact (startRound_refines hstore hsame hh).map fun _ _ hr => ⟨rfl, hr⟩
    | _ => exact .none
  | preparing =>
    cases input with
    | finishPrepare vec junk =>
      exact (finishPrepare_refines hstore hsame hh vec junk).map fun _ _ hr => ⟨rfl, hr⟩
    | _ => exact .none
  | ownSent hsent =>
    cases input with
    | finishAccept vec junk =>
      refine (finishAccept_ownSent hstore hsame hsent hh vec junk).map fun _ _ hr => ⟨rfl, ?_⟩
      simpa [HeapServer.forgotten, HeapServer.forgetsSent, hcall] using hr
    | _ => exact .none
  | adopted =>
    cases input with
    | finishAccept vec junk =>
      rw [forgotten_adopted hcall rfl hh vec junk]
      exact (finishAccept_adopted hstore hsame hh vec junk).map fun _ _ hr => ⟨rfl, hr⟩
    | _ => exact .none
  | proposed =>
    cases input with
    | finish => exact (finish_refines hstore hsame hh).map fun _ _ hr => ⟨rfl, hr⟩
    | _ => exact .none
  | returned =>
    cases input with
    | answer =>
      obtain rfl : request = request' := hsame.request
      obtain rfl : currIdx = currIdx' := hsame.currIdx
      refine (mpAnswer_refines hstore hh request currIdx).map ?_
      rintro ⟨_, _⟩ ⟨_, _⟩ ⟨rfl, K, rfl, rfl⟩
      exact ⟨rfl, ⟨hstore.logs, rfl, hstore.broadcasts⟩, _, _, _, _, .idle, hh⟩
    | _ => exact .none

/-- A step behind pointers is defined where the step with values is, and answers the same. -/
theorem heapStep_refines (hr : Refines hs s n) (input : ServerInput) :
    Option.Rel (fun x y => x.2 = y.2 ∧ Refines x.1 y.1 (n + hs.forgotten input))
      (heapStep hs input) (serverStep s input) := by
  obtain ⟨hstore, o, t, ov, tv, hcall, hh⟩ := hr
  cases input with
  | handle u request =>
    refine (paxosRequestHandler_refines hstore.logs hstore.mpKsMap hh u request).map ?_
    rintro ⟨hs', reply'⟩ ⟨st, reply⟩ ⟨hreply, h', L', he, hlogs, hh'⟩
    obtain rfl : reply' = reply := hreply
    obtain rfl : hs' = _ := he
    exact ⟨rfl, ⟨hlogs, rfl, hstore.broadcasts⟩, o, t, ov, tv, hcall, hh'⟩
  | insertCommand request rand types =>
    simp only [heapStep, serverStep]
    generalize hhc : hs.call = hc, hc' : s.call = call at hcall
    cases hcall with
    | idle => exact (insertCommand_refines hstore hh request rand types).map fun _ _ hr => ⟨rfl, hr⟩
    | running => exact .none
  | _ =>
    simp only [heapStep, serverStep]
    generalize hhc : hs.call = hc, hc' : s.call = call at hcall
    cases hcall with
    | idle => exact .none
    | running hsame hphase => exact duringCall_refines hstore hsame hhc hphase hh _

end Steps

section Runs

theorem heapRun_refines (hr : Refines hs s n) (inputs : List ServerInput) :
    Option.Rel
      (fun x y => x.2 = y.2 ∧ Refines x.1 y.1 (n + runCost heapStep HeapServer.forgotten hs inputs))
      (runOutputs heapStep hs inputs) (runOutputs serverStep s inputs) :=
  runOutputs_related (R := Refines) (fun _ _ _ a h => heapStep_refines h a) hr inputs

theorem exists_serverRun {k : ℕ} {s : MpSystem k} (h : Reachable mpStep .init s) (i : Fin k) :
    ∃ inputs outputs, runOutputs serverStep .start inputs = some (s.servers i, outputs) := by
  refine h.invariant (P := fun s => ∃ inputs outputs,
    runOutputs serverStep .start inputs = some (s.servers i, outputs)) ⟨[], [], rfl⟩ ?_
  rintro u a v - ⟨inputs, outputs, hrun⟩ - hstep
  obtain ⟨j, input, out, hj, hrest⟩ := mpStep_serverStep hstep
  by_cases hij : i = j
  · subst hij
    exact ⟨inputs ++ [input], outputs ++ [out], runOutputs_concat hrun hj⟩
  · rw [hrest i hij]
    exact ⟨inputs, outputs, hrun⟩

/-- Each server of a system, in every order of its steps, is such a server in memory. -/
theorem exists_heapServer {k : ℕ} {s : MpSystem k} (h : Reachable mpStep .init s) (i : Fin k) :
    ∃ inputs outputs hs, runOutputs serverStep .start inputs = some (s.servers i, outputs) ∧
      runOutputs heapStep .start inputs = some (hs, outputs) ∧
      Refines hs (s.servers i) (runCost heapStep HeapServer.forgotten .start inputs) := by
  obtain ⟨inputs, outputs, hrun⟩ := exists_serverRun h i
  have hrel := heapRun_refines start_refines inputs
  rw [hrun, Nat.zero_add] at hrel
  generalize hr' : runOutputs heapStep .start inputs = r at hrel
  cases hrel with
  | @some x y hxy =>
    obtain ⟨hs, outputs'⟩ := x
    obtain ⟨rfl, hr⟩ := hxy
    exact ⟨inputs, _, hs, hrun, hr', hr⟩

end Runs

end KeyValueStore
