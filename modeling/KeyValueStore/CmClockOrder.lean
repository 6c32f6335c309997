import KeyValueStore.CausalOrder
import KeyValueStore.CmAccounting

/-! The CM servers apply messages in the order of their clocks, however these
arrive and whichever are lost. -/

namespace KeyValueStore

section Order

variable {n : ℕ} {s t : CmSystem n} {lost : Fin n → List (CmMessageRequest n)}

/-- Other servers' messages become readable after all those with smaller clocks,
and everywhere after the writes that they count. -/
structure ClockOrdered (s : CmSystem n) : Prop where
  smaller : ∀ (i : Fin n) (m m' : CmMessageRequest n), s.Issued m → m.nodenum ≠ i →
    m'.nodenum ≠ i → m.vecClk ≤ m'.vecClk → m ≠ m' → (i, m') ∈ s.exposed →
    [(i, m'), (i, m)].Sublist s.exposed
  counted : ∀ (i j : Fin n) (m : CmMessageRequest n) (c : ℕ), (j, m) ∈ s.exposed →
    m.nodenum ≠ i → 0 < c → c ≤ m.vecClk i → ∃ w, w.nodenum = i ∧ w.vecClk i = c ∧
    [(j, m), (i, w)].Sublist s.exposed

/-- Of a message that becomes readable, only what it counts has to be looked up. -/
theorem ClockOrdered.counted_cons (h : ClockOrdered s) {i : Fin n} {m : CmMessageRequest n}
    (hexposed : t.exposed = (i, m) :: s.exposed)
    (hnew : ∀ a c, m.nodenum ≠ a → 0 < c → c ≤ m.vecClk a →
      ∃ w, s.Issued w ∧ w.nodenum = a ∧ w.vecClk w.nodenum = c) (a j : Fin n)
    (x : CmMessageRequest n) (c : ℕ) (hmem : (j, x) ∈ t.exposed) (hxa : x.nodenum ≠ a)
    (hc : 0 < c) (hle : c ≤ x.vecClk a) : ∃ w, w.nodenum = a ∧ w.vecClk a = c ∧
      [(j, x), (a, w)].Sublist t.exposed := by
  rw [hexposed] at hmem ⊢
  rcases List.mem_cons.mp hmem with he | hmem
  · obtain ⟨rfl, rfl⟩ := Prod.mk.inj he
    obtain ⟨w, hissued, rfl, hindex⟩ := hnew a c hxa hc hle
    exact ⟨w, rfl, hindex, List.Sublist.cons_cons _ (List.singleton_sublist.mpr hissued)⟩
  · obtain ⟨w, hwa, hindex, hsub⟩ := h.counted a j x c hmem hxa hc hle
    exact ⟨w, hwa, hindex, hsub.cons _⟩

theorem clockOrdered_write (hi : CmFlowInv lost s) (h : ClockOrdered s) {i : Fin n}
    {m : CmMessageRequest n} (hw : CmWrites s t i m) : ClockOrdered t := by
  refine ⟨fun a x x' hx hxa hxa' hle hne hmem => ?_,
    h.counted_cons hw.exposed (fun a c hxa hc hle => ?_)⟩
  · rw [hw.exposed] at hmem ⊢
    have hold : (a, x') ∈ s.exposed := by
      rcases List.mem_cons.mp hmem with he | hmem
      · obtain ⟨rfl, rfl⟩ := Prod.mk.inj he
        exact absurd hw.nodenum hxa'
      · exact hmem
    have hissued := ((hi.exposed a x').mp hold).1
    rcases (hw.issued x).mp hx with rfl | hx
    · -- no message that was there counts the new one
      have hcount : (s.nodes i).t i + 1 ≤ x'.vecClk i := by
        have hi' := hle i
        rwa [hw.stamp, Function.update_self] at hi'
      obtain ⟨w, hwi, hk, hindex, _⟩ :=
        hi.stamped.closed x' hissued i _ (Nat.succ_pos _) hcount
      have hwn : w.nodenum = i := hk
      have hle := hi.counted w hwi
      rw [Stamping.Counts, hindex, hwn] at hle
      exact absurd (hwn ▸ hle) (by simp [cmStamping, hwn])
    · exact (h.smaller a x x' hx hxa hxa' hle hne hold).cons _
  · have hia : i ≠ a := fun he => hxa (hw.nodenum.trans he)
    rw [hw.stamp, Function.update_of_ne hia.symm] at hle
    obtain ⟨w, hissued, hk, hindex, _⟩ := hi.closed i a c hc hle
    exact ⟨w, hissued, hk, hindex⟩

theorem clockOrdered_apply (hi : CmFlowInv lost s) (h : ClockOrdered s) {i : Fin n}
    {req : CmMessageRequest n} (hthread : (s.nodes i).thread = .ready req)
    (hexposed : t.exposed = (i, req) :: s.exposed) : ClockOrdered t := by
  have hready := (hi.node i).thread
  simp only [CmNode.ThreadInv, hthread] at hready
  obtain ⟨hpending, _⟩ := hi.ready hthread
  have hreq := (hi.of_pending hpending).1
  have hissued := issued_of_foreign hexposed ((hi.node i).foreign req hpending)
  refine ⟨fun a x x' hx hxa hxa' hle hne hmem => ?_,
    h.counted_cons hexposed (fun a c _ hc hle => ?_)⟩
  · rw [hissued] at hx
    rw [hexposed] at hmem ⊢
    rcases List.mem_cons.mp hmem with he | hmem
    · obtain ⟨rfl, rfl⟩ := Prod.mk.inj he
      have hcount := hready.2.counts hi.stamped hreq hx (hle _) hne
      refine List.Sublist.cons_cons _ (List.singleton_sublist.mpr ?_)
      exact (hi.exposed a x).mpr ⟨hx, .inl hcount⟩
    · exact (h.smaller a x x' hx hxa hxa' hle hne hmem).cons _
  · obtain ⟨w, hissued, hk, hindex, _⟩ := hi.stamped.closed req hreq a c hc hle
    exact ⟨w, hissued, hk, hindex⟩

theorem ClockOrdered.of_eq (h : ClockOrdered s) (he : t.exposed = s.exposed) :
    ClockOrdered t := by
  refine ⟨?_, ?_⟩
  · rw [he]
    have hissued : t.Issued = s.Issued := by
      funext m
      simp only [CmSystem.Issued, he]
    rw [hissued]
    exact h.smaller
  · rw [he]
    exact h.counted

theorem clockOrdered_step (hi : CmFlowInv lost s) (h : ClockOrdered s) {a : CmAction n}
    (hstep : cmStep s a = some t) : ClockOrdered t := by
  cases cmStep_steps hstep with
  | other => exact h
  | write _ hmax => exact clockOrdered_write hi h (cmWrites_expose hmax rfl)
  | apply hthread => exact clockOrdered_apply hi h hthread rfl
  | arrive _ _ ht =>
    subst ht
    exact h.of_eq rfl
  | sendFront | sent | fetch | pass | refuse | pop | advance => exact h.of_eq rfl

theorem clockOrdered_reachable {ok : CmLossySystem n → CmLossyAction n → Prop}
    {s : CmLossySystem n} (h : ReachableWhen cmLossyStep ok CmLossySystem.init s) :
    ClockOrdered s.sys := by
  refine h.invariant (P := fun s => ClockOrdered s.sys)
    ⟨fun _ _ _ hm => absurd hm (by simp [CmSystem.Issued, CmSystem.init, CmLossySystem.init]),
      fun _ _ _ _ hm => absurd hm (by simp [CmSystem.init, CmLossySystem.init])⟩
    (fun u a v hu ho _ hstep => ?_)
  have hi := cmLossyInv_reachable hu
  cases cmLossyStep_steps hstep with
  | act hact => exact clockOrdered_step hi ho hact
  | fail | late => exact ho.of_eq rfl

/-- A write's place among those of its server is its own entry of its clock. -/
theorem CmSystem.Logged.getElem?_writes (h : s.Logged) {i : Fin n} {w : CmMessageRequest n}
    (hw : w ∈ s.writes i) : (s.writes i)[w.vecClk i - 1]? = some w := by
  obtain ⟨c, hc⟩ := List.mem_iff_getElem?.mp hw
  have hindex : (List.range' 1 ((s.nodes i).stored i))[c]? = some (w.vecClk i) := by
    rw [← h i i, List.getElem?_map, ← CmSystem.writes, hc, Option.map_some]
  obtain ⟨_, he⟩ := List.getElem?_eq_some_iff.mp hindex
  rw [List.getElem_range', Nat.one_mul] at he
  rwa [← he, Nat.add_sub_cancel_left]

end Order

section Applied

variable {n : ℕ} {s : CmLossySystem n}

/-- A message of another server is applied after all those with smaller clocks;
and a write of the server itself that it counts was executed before it was made. -/
def CmLossySystem.AppliesInOrder (s : CmLossySystem n) (i : Fin n) (m' : CmMessageRequest n) :
    Prop :=
  ((i, m') ∈ s.sys.exposed → ∀ m, s.sys.Issued m → m.nodenum ≠ i → m.vecClk ≤ m'.vecClk → m ≠ m' →
    [(i, m'), (i, m)].Sublist s.sys.exposed) ∧
  ∀ c, 0 < c → c ≤ m'.vecClk i → ∃ w, (s.sys.writes i)[c - 1]? = some w ∧
    [(m'.nodenum, m'), (i, w)].Sublist s.sys.exposed ∧
    ((i, m') ∈ s.sys.exposed → [(i, m'), (i, w)].Sublist s.sys.exposed)

theorem applied_in_clock_order (h : Reachable cmLossyStep CmLossySystem.init s) {i : Fin n}
    {m' : CmMessageRequest n} (hissued : s.sys.Issued m') (hforeign : m'.nodenum ≠ i) :
    s.AppliesInOrder i m' := by
  have hi := cmLossyInv_reachable h
  have ho := clockOrdered_reachable h
  refine ⟨fun hm' m hm hne hle hdiff => ho.smaller i m m' hm hne hforeign hle hdiff hm',
    fun c hc hle => ?_⟩
  obtain ⟨w, hw, rfl, hsub⟩ := ho.counted i m'.nodenum m' c hissued hforeign hc hle
  have hexposed : (i, w) ∈ s.sys.exposed := hsub.subset (by simp)
  refine ⟨w, (logged_reachable h).getElem?_writes (CmSystem.mem_log.mpr ⟨hexposed, hw⟩), hsub,
    fun hm' => ?_⟩
  obtain ⟨w', hw', hindex, hsub'⟩ := ho.counted i i m' _ hm' hforeign hc hle
  have hexposed' : (i, w') ∈ s.sys.exposed := hsub'.subset (by simp)
  have hissued' : s.sys.Issued w' := ((hi.exposed i w').mp hexposed').1
  obtain rfl : w' = w := by
    refine hi.stamped.inj w' w hissued' ((hi.exposed i w).mp hexposed).1 (hw'.trans hw.symm) ?_
    change w'.vecClk w'.nodenum = w.vecClk w.nodenum
    rw [hw', hw, hindex]
  exact hsub'

/-- In `countingRun` server 1's write counts server 0's, and reaches server 2 first. -/
theorem countingRun_applied_in_clock_order : ∃ s : CmLossySystem 3,
    Reachable cmLossyStep CmLossySystem.init s ∧
    s.AppliesInOrder 2 ⟨1, [121], [50], ![1, 1, 0]⟩ ∧
    s.AppliesInOrder 0 ⟨1, [121], [50], ![1, 1, 0]⟩ := by
  let m' : CmMessageRequest 3 := ⟨1, [121], [50], ![1, 1, 0]⟩
  obtain ⟨s, hs, hm'⟩ := exists_of_run (P := fun s : CmLossySystem 3 => (1, m') ∈ s.sys.exposed)
    (show (runWhen cmLossyStep (fun _ _ => True) .init (countingRun.map .act)).any _ = true by
      decide +kernel)
  have hr := reachableWhen_of_runWhen hs
  exact ⟨s, hr, applied_in_clock_order hr hm' (by decide),
    applied_in_clock_order hr hm' (by decide)⟩

end Applied

end KeyValueStore
