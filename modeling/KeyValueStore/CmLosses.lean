import KeyValueStore.CmReachable

/-! The CM servers when calls of `CMRequestHandler` fail. `cm_sending_thread` goes
on as if such a call had been answered; the server handles it later or never. A
call that fails after its server handled it is one that arrived. -/

namespace KeyValueStore

/-- `failed` are the failed calls, by server, that may still be handled. `received`
is what was pushed at which server and `removed` what the sending threads removed
from their queues, both newest first. -/
structure CmLossySystem (n : ℕ) where
  sys : CmSystem n
  failed : List (Fin n × CmMessageRequest n)
  received : List (Fin n × CmMessageRequest n)
  removed : List (CmMessageRequest n)

inductive CmLossyAction (n : ℕ)
  | act (a : CmAction n)
  | fail (k i : Fin n)
  | late (j : ℕ)

namespace CmLossySystem

variable {n : ℕ}

def init : CmLossySystem n := ⟨.init, [], [], []⟩

/-- The failed calls to server `i`. -/
def lost (s : CmLossySystem n) (i : Fin n) : List (CmMessageRequest n) :=
  (s.failed.filter fun p => p.1 = i).map Prod.snd

end CmLossySystem

section Step

variable {n : ℕ} {s t : CmLossySystem n}

def cmReceipt (s : CmSystem n) : CmAction n → List (Fin n × CmMessageRequest n)
  | .arrive k i => ((s.nodes k).sending.map fun p => (i, p.1)).toList
  | _ => []

def cmRemoval (s : CmSystem n) : CmAction n → List (CmMessageRequest n)
  | .sent k => (s.nodes k).cmMessageOutqueue.head?.toList
  | _ => []

def cmLossyStep (s : CmLossySystem n) : CmLossyAction n → Option (CmLossySystem n)
  | .act a => (cmStep s.sys a).map fun t =>
      ⟨t, s.failed, cmReceipt s.sys a ++ s.received, cmRemoval s.sys a ++ s.removed⟩
  | .fail k i =>
    match (s.sys.nodes k).sending with
    | some (req, dsts) =>
      if i ∈ dsts then
        some { s with
          sys := s.sys.setNode k { s.sys.nodes k with sending := some (req, dsts.erase i) }
          failed := (i, req) :: s.failed }
      else none
    | none => none
  | .late j =>
    s.failed[j]?.map fun (i, req) => { s with
      sys := s.sys.setNode i (cmRequestHandler req (s.sys.nodes i))
      failed := s.failed.eraseIdx j
      received := (i, req) :: s.received }

inductive CmLossySteps (s : CmLossySystem n) : CmLossyAction n → CmLossySystem n → Prop
  | act {a : CmAction n} {u : CmSystem n} (hstep : cmStep s.sys a = some u) :
      CmLossySteps s (.act a)
        ⟨u, s.failed, cmReceipt s.sys a ++ s.received, cmRemoval s.sys a ++ s.removed⟩
  | fail {k i : Fin n} {req : CmMessageRequest n} {dsts : List (Fin n)}
      (hsending : (s.sys.nodes k).sending = some (req, dsts)) (hi : i ∈ dsts) :
      CmLossySteps s (.fail k i) { s with
        sys := s.sys.setNode k { s.sys.nodes k with sending := some (req, dsts.erase i) }
        failed := (i, req) :: s.failed }
  | late {j : ℕ} {i : Fin n} {req : CmMessageRequest n} (hj : s.failed[j]? = some (i, req)) :
      CmLossySteps s (.late j) { s with
        sys := s.sys.setNode i (cmRequestHandler req (s.sys.nodes i))
        failed := s.failed.eraseIdx j
        received := (i, req) :: s.received }

theorem cmLossyStep_steps {a : CmLossyAction n} (h : cmLossyStep s a = some t) :
    CmLossySteps s a t := by
  cases a with
  | act a =>
    obtain ⟨u, hu, rfl⟩ := Option.map_eq_some_iff.mp h
    exact .act hu
  | fail k i =>
    simp only [cmLossyStep] at h
    split at h
    next req dsts hsending =>
      split at h
      next hi => exact Option.some.inj h ▸ .fail hsending hi
      next => simp at h
    next => simp at h
  | late j =>
    obtain ⟨⟨i, req⟩, hj, rfl⟩ := Option.map_eq_some_iff.mp h
    exact .late hj

end Step

section Flow

variable {n : ℕ} {s : CmSystem n} {i k : Fin n} {req : CmMessageRequest n}
  {lost lost' : Fin n → List (CmMessageRequest n)}

theorem CmFlowInv.fail (hi : CmFlowInv lost s) {dsts : List (Fin n)}
    (hsending : (s.nodes k).sending = some (req, dsts)) (hdst : i ∈ dsts)
    (hlost : ∀ a, lost' a = if a = i then req :: lost a else lost a) :
    CmFlowInv lost' (s.setNode k { s.nodes k with sending := some (req, dsts.erase i) }) := by
  obtain ⟨hfront, hnodup, hself⟩ := (hi.node k).sending req dsts hsending
  obtain ⟨rest, hqueue⟩ := List.head?_eq_some_iff.mp hfront
  have hnum : req.nodenum = k := (hi.node k).own req (by simp [hqueue])
  have hne : i ≠ k := fun he => hself (he ▸ hdst)
  refine hi.of_moves (CmSystem.setNode_kept CmNode.t rfl) rfl (fun a b hab => ?_)
    (fun a m hm => ?_) (CmSystem.setNode_kept (fun node => node.thread.uncounted) rfl) (fun j => ?_)
  · have hpending : ((s.setNode k { s.nodes k with
        sending := some (req, dsts.erase i) }).nodes a).pending = (s.nodes a).pending :=
      CmSystem.setNode_kept CmNode.pending (by rfl) a
    rw [CmSystem.missing, CmSystem.missing, CmSystem.waiting, CmSystem.waiting, hpending, hlost,
      CmSystem.setNode_nodes]
    by_cases hb : b = k
    · subst hb
      rw [if_pos rfl]
      by_cases ha : a = i
      · subst ha
        have hnew : CmNode.undelivered { s.nodes b with sending := some (req, dsts.erase a) } a =
            rest := by simp [CmNode.undelivered, hnodup.mem_erase_iff, hqueue]
        have hold : (s.nodes b).undelivered a = req :: rest := by
          simp [CmNode.undelivered, hsending, hdst, hqueue]
        rw [hnew, hold, if_pos rfl, List.filter_cons, if_pos (by simp [hnum]), List.cons_append,
          ← List.append_assoc, ← List.append_assoc]
        exact List.perm_middle.symm
      · have hsame : CmNode.undelivered { s.nodes b with sending := some (req, dsts.erase i) } a =
            (s.nodes b).undelivered a := by
          simp [CmNode.undelivered, hsending, hnodup.mem_erase_iff, ha]
        rw [hsame, if_neg ha]
    · rw [if_neg hb]
      split
      next ha =>
        rw [List.filter_cons, if_neg (by simp [hnum, Ne.symm hb])]
      next => exact .refl _
  · rw [hlost] at hm
    split at hm
    next ha =>
      rcases List.mem_cons.mp hm with rfl | hm
      · exact fun he => hne (ha ▸ he.symm.trans hnum)
      · exact hi.foreign a m hm
    next => exact hi.foreign a m hm
  · rw [CmSystem.setNode_nodes]
    split
    next hj =>
      subst hj
      refine ⟨(hi.node j).foreign, (hi.node j).own, fun m ds he => ?_, (hi.node j).thread⟩
      simp only [Option.some.injEq, Prod.mk.injEq] at he
      obtain ⟨rfl, rfl⟩ := he
      exact ⟨hfront, hnodup.erase _, fun hm => hself (List.mem_of_mem_erase hm)⟩
    next => exact hi.node j

theorem CmFlowInv.late (hi : CmFlowInv lost s) (hlost : ∀ a, (lost a).Perm
      (if a = i then req :: lost' a else lost' a)) :
    CmFlowInv lost' (s.setNode i (cmRequestHandler req (s.nodes i))) := by
  have hreq : req ∈ lost i := (hlost i).mem_iff.mpr (by simp)
  have hmissing := hi.of_lost hreq
  refine hi.of_moves (CmSystem.setNode_kept CmNode.t rfl) rfl (fun a b hab => ?_)
    (fun a m hm => hi.foreign a m ((hlost a).mem_iff.mpr ?_))
    (CmSystem.setNode_kept (fun node => node.thread.uncounted) rfl) (fun j => ?_)
  · have hway : ((s.setNode i (cmRequestHandler req (s.nodes i))).nodes b).undelivered a =
        (s.nodes b).undelivered a := by
      rw [CmSystem.setNode_nodes]
      split
      next hb => exact hb ▸ rfl
      next => rfl
    rw [CmSystem.missing, CmSystem.missing, CmSystem.waiting, CmSystem.waiting, hway,
      CmSystem.setNode_nodes, ← List.append_assoc, ← List.append_assoc]
    refine List.Perm.append_right _ ?_
    rw [← List.filter_append, ← List.filter_append]
    refine List.Perm.filter _ ?_
    split
    next ha =>
      subst ha
      refine (List.Perm.append_left _ (cmRequestHandler_pending _)).trans ?_
      refine List.perm_middle.trans ?_
      have hperm := hlost a
      rw [if_pos rfl] at hperm
      exact (hperm.append_right (s.nodes a).pending).symm
    next ha =>
      have hperm := hlost a
      rw [if_neg ha] at hperm
      exact (hperm.append_right (s.nodes a).pending).symm
  · split
    next => exact List.mem_cons_of_mem _ hm
    next => exact hm
  · rw [CmSystem.setNode_nodes]
    split
    next hj =>
      subst hj
      refine ⟨fun m hm => ?_, (hi.node j).own, (hi.node j).sending,
        cmRequestHandler_threadInv (hi.node j).thread fun r hd hr hle => ?_⟩
      · rcases List.mem_cons.mp ((cmRequestHandler_pending _).mem_iff.mp hm) with rfl | hm
        · exact hi.foreign j m hreq
        · exact (hi.node j).foreign m hm
      · have hr := (hi.of_pending (CmNode.mem_pending_of_top hr)).1
        exact hi.eq_of_deliverable hr hmissing.1 hd hmissing.2 hle
    next => exact hi.node j

end Flow

section Reachable

variable {n : ℕ} {s t : CmLossySystem n}

theorem lost_late {j : ℕ} {i : Fin n} {req : CmMessageRequest n}
    (hj : s.failed[j]? = some (i, req)) (a : Fin n) : (s.lost a).Perm
      (if a = i then req :: ((s.failed.eraseIdx j).filter fun p => p.1 = a).map Prod.snd
        else ((s.failed.eraseIdx j).filter fun p => p.1 = a).map Prod.snd) := by
  obtain ⟨hlt, he⟩ := List.getElem?_eq_some_iff.mp hj
  have hperm := (List.getElem_cons_eraseIdx_perm hlt).symm
  rw [he] at hperm
  refine ((hperm.filter fun p => p.1 = a).map Prod.snd).trans (.of_eq ?_)
  rw [List.filter_cons]
  by_cases ha : a = i
  · simp [ha]
  · simp [ha, Ne.symm ha]

theorem cmLossyInv_step (hi : CmFlowInv s.lost s.sys) {a : CmLossyAction n}
    (h : CmLossySteps s a t) : CmFlowInv t.lost t.sys := by
  cases h with
  | act hstep => exact cmFlowInv_step hi hstep
  | @fail k i req dsts hsending hdst =>
    refine hi.fail hsending hdst (fun a => ?_)
    by_cases ha : a = i
    · simp [CmLossySystem.lost, ha]
    · simp [CmLossySystem.lost, ha, Ne.symm ha]
  | late hj => exact hi.late (lost_late hj)

theorem cmLossyInv_reachable {ok : CmLossySystem n → CmLossyAction n → Prop}
    (h : ReachableWhen cmLossyStep ok CmLossySystem.init s) : CmFlowInv s.lost s.sys :=
  h.invariant (P := fun s => CmFlowInv s.lost s.sys) cmFlowInv_init
    (fun _ _ _ _ hi _ hstep => cmLossyInv_step hi (cmLossyStep_steps hstep))

end Reachable

end KeyValueStore
