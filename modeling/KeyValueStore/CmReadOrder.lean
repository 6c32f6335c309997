import KeyValueStore.CmClockOrder
import KeyValueStore.CmConservation

/-! What READs of the CM servers return over time. At every server writes become
readable in the order of their clocks, so that no READ goes back to a write that
comes before one that was read there. -/

namespace KeyValueStore

theorem not_sublist_both {α : Type*} {a b : α} {l : List α} (hnd : l.Nodup)
    (h : [a, b].Sublist l) : ¬ [b, a].Sublist l := by
  induction l with
  | nil => exact fun h' => absurd h' (by simp)
  | cons c l ih =>
    obtain ⟨hc, hnd⟩ := List.nodup_cons.mp hnd
    intro h'
    rcases List.sublist_cons_iff.mp h with hl | ⟨r, hr, hl⟩
    · rcases List.sublist_cons_iff.mp h' with hl' | ⟨r, hr, _⟩
      · exact ih hnd hl hl'
      · exact hc ((List.cons.inj hr).1 ▸ hl.subset (by simp))
    · rcases List.sublist_cons_iff.mp h' with hl' | ⟨r', hr', hl'⟩
      · exact hc ((List.cons.inj hr).1 ▸ hl'.subset (by simp))
      · obtain ⟨rfl, rfl⟩ := List.cons.inj hr
        exact hc ((List.cons.inj hr').1 ▸ hl.subset (by simp))

section Order

variable {n : ℕ} {s t : CmSystem n} {lost : Fin n → List (CmMessageRequest n)} {i : Fin n}
  {k : Bytes} {m m' x : CmMessageRequest n}

/-- A write is executed when all that it counts is readable at its server. -/
def WritesFollow (s : CmSystem n) : Prop :=
  ∀ m x, s.Issued m → s.Issued x → (cmStamping n).Counts m.vecClk x → x ≠ m →
    [(m.nodenum, m), (m.nodenum, x)].Sublist s.exposed

theorem writesFollow_write (hi : CmFlowInv lost s) (h : WritesFollow s) (hw : CmWrites s t i m) :
    WritesFollow t := by
  intro y x hy hx hc hne
  rw [hw.exposed]
  rcases (hw.issued y).mp hy with rfl | hy
  · have hxs : s.Issued x := ((hw.issued x).mp hx).resolve_left hne
    have hcount : (cmStamping n).Counts (s.nodes i).t x := by
      have hself : (cmStamping n).Counts (t.nodes i).t x := by rwa [hw.clock, if_pos rfl]
      exact ((hw.counts_iff hi hx i).mp hself).resolve_left (fun he => hne he.1)
    rw [hw.nodenum]
    exact (List.singleton_sublist.mpr ((hi.exposed i x).mpr ⟨hxs, .inl hcount⟩)).cons_cons _
  · rcases (hw.issued x).mp hx with rfl | hx
    · -- nothing that was there counts the new write
      have hclosed := hi.stamped.closed y hy x.nodenum _ (Nat.lt_of_lt_of_le (Nat.succ_pos _)
        hw.index.ge) hc
      obtain ⟨z, hz, hk, hindex, _⟩ := hclosed
      have hzn : z.nodenum = i := hk.trans hw.nodenum
      have hle := hi.counted z hz
      rw [Stamping.Counts, hindex, hw.index, hzn] at hle
      have hsender : (cmStamping n).sender z = i := hzn
      rw [hsender] at hle
      exact absurd hle (by omega)
    · exact (h y x hy hx hc hne).cons _

theorem writesFollow_step (hi : CmFlowInv lost s) (h : WritesFollow s) {a : CmAction n}
    (hstep : cmStep s a = some t) : WritesFollow t := by
  cases cmStep_steps hstep with
  | other => exact h
  | write _ hmax => exact writesFollow_write hi h (cmWrites_expose hmax rfl)
  | @apply i req hthread =>
    have hforeign := (hi.node i).foreign req (hi.ready hthread).1
    have hissued := issued_of_foreign (t := (s.setNode i { s.nodes i with
      cmKsMap := applyToStore (s.nodes i).cmKsMap req, thread := .applied req }).expose i req)
      rfl hforeign
    intro m x hm hx hc hne
    rw [hissued] at hm hx
    exact (h m x hm hx hc hne).cons _
  | arrive _ _ ht =>
    subst ht
    exact h
  | sendFront | sent | fetch | pass | refuse | pop | advance => exact h

structure ReadsInOrder (s : CmSystem n) : Prop where
  clocks : ClockOrdered s
  follow : WritesFollow s

/-- At every server, whoever the writes are from. -/
theorem ReadsInOrder.sublist (h : ReadsInOrder s) (hi : CmFlowInv lost s) (hm : s.Issued m)
    (hm' : (i, m') ∈ s.exposed) (hle : m.vecClk ≤ m'.vecClk) (hne : m ≠ m') :
    [(i, m'), (i, m)].Sublist s.exposed := by
  have hissued := ((hi.exposed i m').mp hm').1
  by_cases hown' : m'.nodenum = i
  · exact hown' ▸ h.follow m' m hissued hm (hle _) hne
  by_cases hown : m.nodenum = i
  · obtain ⟨w, hw, hindex, hsub⟩ := h.clocks.counted i i m' (m.vecClk i) hm' hown'
      (hown ▸ hi.stamped.pos m hm) (hle i)
    have hw' : s.Issued w := ((hi.exposed i w).mp (hsub.subset (by simp))).1
    obtain rfl : w = m := by
      refine hi.stamped.inj w m hw' hm (hw.trans hown.symm) ?_
      change w.vecClk w.nodenum = m.vecClk m.nodenum
      rw [hw, hown, hindex]
    exact hsub
  · exact h.clocks.smaller i m m' hm hown hown' hle hne hm'

theorem ReadsInOrder.vecClk_inj (h : ReadsInOrder s) (hi : CmFlowInv lost s) (hm : s.Issued m)
    (hm' : s.Issued m') (he : m.vecClk = m'.vecClk) : m = m' := by
  by_contra hne
  have hsub := h.sublist hi hm hm' he.le hne
  have hmem : (m'.nodenum, m) ∈ s.exposed := hsub.subset (by simp)
  have hsub' := h.sublist hi hm' hmem he.ge (Ne.symm hne)
  exact not_sublist_both hi.nodup hsub hsub'

theorem mem_exposed_of_readable (h : s.readable i k = some m) : (i, m) ∈ s.exposed := by
  obtain ⟨⟨j, m'⟩, hfind, rfl⟩ := Option.map_eq_some_iff.mp h
  have hp := List.find?_some hfind
  simp only [decide_eq_true_eq] at hp
  exact hp.1 ▸ List.mem_of_find?_eq_some hfind

/-- What else became readable there did so before. -/
theorem readable_last (h : s.readable i k = some m) (hx : (i, x) ∈ s.exposed)
    (hk : cStr x.key = k) : x = m ∨ [(i, m), (i, x)].Sublist s.exposed := by
  obtain ⟨⟨j, m'⟩, hfind, rfl⟩ := Option.map_eq_some_iff.mp h
  obtain ⟨hp, as, bs, he, has⟩ := List.find?_eq_some_iff_append.mp hfind
  simp only [decide_eq_true_eq] at hp
  obtain ⟨rfl, _⟩ := hp
  rw [he] at hx ⊢
  rcases List.mem_append.mp hx with hx | hx
  · have hno := has _ hx
    simp [hk] at hno
  · rcases List.mem_cons.mp hx with hx | hx
    · exact .inl (congrArg Prod.snd hx)
    · exact .inr (((List.singleton_sublist.mpr hx).cons_cons _).trans
        (List.sublist_append_right as _))

theorem readable_isSome (hx : (i, x) ∈ s.exposed) (hk : cStr x.key = k) :
    ∃ m, s.readable i k = some m := by
  cases hr : s.readable i k with
  | some m => exact ⟨m, rfl⟩
  | none =>
    rw [CmSystem.readable, Option.map_eq_none_iff] at hr
    have hno := List.find?_eq_none.mp hr _ hx
    simp [hk] at hno

/-- No write that is readable at the server comes after what a READ returns, but for
those to which it does not compare. -/
theorem ReadsInOrder.readable_greatest (h : ReadsInOrder s) (hi : CmFlowInv lost s)
    (hm : s.readable i k = some m) (hx : (i, x) ∈ s.exposed) (hk : cStr x.key = k)
    (hle : m.vecClk ≤ x.vecClk) : x = m := by
  by_contra hne
  have hissued := ((hi.exposed i m).mp (mem_exposed_of_readable hm)).1
  have hsub := h.sublist hi hissued hx hle (Ne.symm hne)
  exact not_sublist_both hi.nodup hsub ((readable_last hm hx hk).resolve_left hne)

end Order

section Monotone

variable {n : ℕ} {s t : CmLossySystem n} {i : Fin n} {k : Bytes} {m : CmMessageRequest n}

theorem cmStep_exposed {s t : CmSystem n} {a : CmAction n} (h : cmStep s a = some t) :
    ∀ p ∈ s.exposed, p ∈ t.exposed := by
  cases cmStep_steps h with
  | write | apply => exact fun p hp => List.mem_cons_of_mem _ hp
  | arrive _ _ ht =>
    subst ht
    exact fun p hp => hp
  | other | sendFront | sent | fetch | pass | refuse | pop | advance => exact fun p hp => hp

end Monotone

end KeyValueStore
