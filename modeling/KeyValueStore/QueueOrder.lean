import KeyValueStore.CmServer
import KeyValueStore.HeapOrder
import Mathlib.Data.Fin.VecNotation
import Mathlib.Data.Set.Function
import Mathlib.Tactic.FinCases

/-! The order of the CM queue. Its top comes before all others when every
message is ordered with one of any two that are ordered, which a partial order
of clocks need not be. With three messages or fewer it always does. -/

namespace KeyValueStore

variable {n : ℕ} {S : Set (CmMessageRequest n)} {q : List (CmMessageRequest n)}

section Queue

inductive QueueOp (n : ℕ)
  | push (req : CmMessageRequest n)
  | pop

/-- A `pop` of an empty queue is undefined. -/
def runQueue : List (CmMessageRequest n) → List (QueueOp n) → Option (List (CmMessageRequest n))
  | q, [] => some q
  | q, .push req :: ops => runQueue (BinaryHeap.push vectclkComparator q req) ops
  | [], .pop :: _ => none
  | m :: q, .pop :: ops => runQueue (BinaryHeap.pop vectclkComparator (m :: q)) ops

def pushes : List (QueueOp n) → List (CmMessageRequest n)
  | [] => []
  | .push req :: ops => req :: pushes ops
  | .pop :: ops => pushes ops

def TopMinimal (q : List (CmMessageRequest n)) : Prop :=
  ∀ top ∈ q.head?, ∀ m ∈ q, m ≠ top → ¬ m.vecClk ≤ top.vecClk

/-- Whatever is pushed and popped in whatever order, each message once. -/
def TopsMinimal (S : Set (CmMessageRequest n)) : Prop :=
  ∀ ops q, (∀ m ∈ pushes ops, m ∈ S) → (pushes ops).Nodup → runQueue [] ops = some q → TopMinimal q

/-- Of four messages, none is concurrent with two that are ordered. -/
def Layered (S : Set (CmMessageRequest n)) : Prop :=
  ∀ a ∈ S, ∀ b ∈ S, ∀ c ∈ S, ∀ d ∈ S, [a, b, c, d].Nodup → c.vecClk ≤ a.vecClk →
    b.vecClk ≤ a.vecClk ∨ c.vecClk ≤ b.vecClk

end Queue

section Sufficient

theorem partial_of_subset (hinj : Set.InjOn CmMessageRequest.vecClk S) (hnd : q.Nodup)
    (hq : ∀ m ∈ q, m ∈ S) : BinaryHeap.Partial vectclkComparator q := by
  apply BinaryHeap.partial_of_mem hnd
  · intro x hx y hy hxy hyx
    have hle := vectclkComparator_iff.mp hxy
    have hge := vectclkComparator_iff.mp hyx
    exact hinj (hq x hx) (hq y hy) (le_antisymm hge hle)
  · intro x _ y _ z _ hxy hyz
    have hle := vectclkComparator_iff.mp hxy
    have hle' := vectclkComparator_iff.mp hyz
    exact vectclkComparator_iff.mpr (hle'.trans hle)

/-- A message outside the queue is the fourth one. -/
theorem Layered.told_apart (hl : Layered S) (hq : ∀ m ∈ q, m ∈ S) {d : CmMessageRequest n}
    (hd : d ∈ S) (hdq : d ∉ q) : ∀ x ∈ q, ∀ y ∈ q, ∀ z ∈ q, x ≠ z →
      vectclkComparator x z = true → vectclkComparator x y = true ∨ vectclkComparator y z = true := by
  intro x hx y hy z hz hxz hcomp
  have hle := vectclkComparator_iff.mp hcomp
  simp only [vectclkComparator_iff]
  by_cases hxy : x = y
  · exact .inl (hxy ▸ le_rfl)
  · by_cases hyz : y = z
    · exact .inr (hyz ▸ le_rfl)
    · have hne : ∀ {m}, m ∈ q → m ≠ d := fun hm he => hdq (he ▸ hm)
      have hfour : [x, y, z, d].Nodup := by
        simp [hxy, hyz, hxz, hne hx, hne hy, hne hz]
      exact hl x (hq x hx) y (hq y hy) z (hq z hz) d hd hfour hle

/-- So is one of a queue of more than three. -/
theorem Layered.weak (hl : Layered S) (hnd : q.Nodup) (hq : ∀ m ∈ q, m ∈ S)
    (hlen : 3 < q.length) : BinaryHeap.Weak vectclkComparator q := by
  apply BinaryHeap.weak_of_mem hnd
  intro x hx y hy z hz hxz hcomp
  obtain ⟨d, hd, hout⟩ : ∃ d ∈ q, d ∉ [x, y, z] := by
    by_contra hno
    have hsub : q ⊆ [x, y, z] := fun d hd => by_contra (fun hm => hno ⟨d, hd, hm⟩)
    have hle := (List.subperm_of_subset hnd hsub).length_le
    simp only [List.length_cons, List.length_nil] at hle
    omega
  have hmem : ∀ m ∈ [x, y, z], m ∈ S := by
    intro m hm
    simp only [List.mem_cons, List.not_mem_nil, or_false] at hm
    rcases hm with rfl | rfl | rfl
    · exact hq _ hx
    · exact hq _ hy
    · exact hq _ hz
  exact hl.told_apart hmem (hq d hd) hout x (by simp) y (by simp) z (by simp) hxz hcomp

theorem runQueue_ordered (hinj : Set.InjOn CmMessageRequest.vecClk S) (hl : Layered S)
    {ops : List (QueueOp n)} {q' : List (CmMessageRequest n)}
    (hS : ∀ m ∈ q ++ pushes ops, m ∈ S) (hnd : (q ++ pushes ops).Nodup)
    (ho : BinaryHeap.Ordered vectclkComparator q) (h : runQueue q ops = some q') :
    (∀ m ∈ q', m ∈ S) ∧ q'.Nodup ∧ BinaryHeap.Ordered vectclkComparator q' := by
  induction ops generalizing q with
  | nil =>
    simp only [runQueue, Option.some.injEq] at h
    simp only [pushes, List.append_nil] at hS hnd
    exact h ▸ ⟨hS, hnd, ho⟩
  | cons op ops ih =>
    cases op with
    | push req =>
      simp only [pushes] at hS hnd
      have hperm := (BinaryHeap.push_perm vectclkComparator q req).append_right (pushes ops)
      have hall : (req :: q ++ pushes ops).Perm (q ++ req :: pushes ops) := List.perm_middle.symm
      have hconcat : (q ++ [req]).Perm (req :: q) := List.perm_append_singleton req q
      have hcons : (req :: q).Nodup := (List.nodup_append.mp (hall.nodup_iff.mpr hnd)).1
      have hconsS : ∀ m ∈ req :: q, m ∈ S := fun m hm =>
        hS m (hall.mem_iff.mp (List.mem_append_left _ hm))
      have hpart := partial_of_subset hinj (hconcat.nodup_iff.mpr hcons)
        (fun m hm => hconsS m (hconcat.mem_iff.mp hm))
      have hweak := BinaryHeap.weakExcept_of_mem (x := req) (List.nodup_cons.mp hcons).2
        (hl.told_apart (fun m hm => hconsS m (List.mem_cons_of_mem _ hm))
          (hconsS req List.mem_cons_self) (List.nodup_cons.mp hcons).1)
      exact ih (fun m hm => hS m (hall.mem_iff.mp (hperm.mem_iff.mp hm)))
        (hperm.nodup_iff.mpr (hall.nodup_iff.mpr hnd)) (BinaryHeap.push_ordered ho hpart hweak) h
    | pop =>
      cases q with
      | nil => simp [runQueue] at h
      | cons m q =>
        simp only [pushes] at hS hnd
        have hperm := (BinaryHeap.pop_perm vectclkComparator m q).append_right (pushes ops)
        obtain ⟨hm, hrest⟩ := List.nodup_cons.mp hnd
        have hqnd := (List.nodup_append.mp hrest).1
        have hmq : m ∉ q := fun hin => hm (List.mem_append_left _ hin)
        have hqS : ∀ x ∈ q, x ∈ S := fun x hx =>
          hS x (List.mem_cons_of_mem _ (List.mem_append_left _ hx))
        refine ih (fun x hx => hS x (List.mem_cons_of_mem _ (hperm.mem_iff.mp hx)))
          (hperm.nodup_iff.mpr hrest) (BinaryHeap.pop_ordered ho (fun h' hh => ?_) (fun h' hh => ?_)) h
        · exact partial_of_subset hinj (hh.nodup_iff.mpr hqnd) (fun x hx => hqS x (hh.mem_iff.mp hx))
        · apply BinaryHeap.weak_of_mem (hh.nodup_iff.mpr hqnd)
          exact hl.told_apart (fun x hx => hqS x (hh.mem_iff.mp hx)) (hS m List.mem_cons_self)
            (fun hin => hmq (hh.mem_iff.mp hin))

theorem topMinimal_of_ordered (ho : BinaryHeap.Ordered vectclkComparator q)
    (hw : 3 < q.length → BinaryHeap.Weak vectclkComparator q) : TopMinimal q := by
  intro top htop m hm hne hle
  rw [List.head?_eq_getElem?] at htop
  obtain ⟨j, hj⟩ := List.mem_iff_getElem?.mp hm
  have hj0 : j ≠ 0 := by
    rintro rfl
    exact hne (Option.some.inj (hj.symm.trans htop))
  have hroot := ho.root hw hj0
  have hlow : BinaryHeap.lower vectclkComparator q 0 j = true :=
    BinaryHeap.lower_iff.mpr ⟨top, m, htop, hj, vectclkComparator_iff.mpr hle⟩
  simp [hroot] at hlow

theorem topsMinimal_of_layered (hinj : Set.InjOn CmMessageRequest.vecClk S) (hl : Layered S) :
    TopsMinimal S := by
  intro ops q hS hnd h
  obtain ⟨hqS, hqnd, ho⟩ := @runQueue_ordered n S [] hinj hl ops q hS hnd
    (fun j _ => BinaryHeap.lower_eq_false_of_le (Nat.zero_le j)) h
  exact topMinimal_of_ordered ho (hl.weak hqnd hqS)

end Sufficient

section Necessary

variable {a b c d x y : CmMessageRequest n}

theorem push_one (a : CmMessageRequest n) : BinaryHeap.push vectclkComparator [] a = [a] :=
  BinaryHeap.push_eq_append (fun h => absurd rfl h)

theorem push_two (hab : ¬ b.vecClk ≤ a.vecClk) :
    BinaryHeap.push vectclkComparator [a] b = [a, b] := by
  apply BinaryHeap.push_eq_append
  simpa [BinaryHeap.lower, ← Bool.not_eq_true, vectclkComparator_iff] using hab

theorem push_three (hac : ¬ c.vecClk ≤ a.vecClk) :
    BinaryHeap.push vectclkComparator [a, b] c = [a, b, c] := by
  apply BinaryHeap.push_eq_append
  simpa [BinaryHeap.lower, ← Bool.not_eq_true, vectclkComparator_iff] using hac

theorem push_four (hbd : ¬ d.vecClk ≤ b.vecClk) :
    BinaryHeap.push vectclkComparator [a, b, c] d = [a, b, c, d] := by
  apply BinaryHeap.push_eq_append
  simpa [BinaryHeap.lower, ← Bool.not_eq_true, vectclkComparator_iff] using hbd

/-- The last message stays at the root when it is beside the chosen child. -/
theorem pop_four (hcb : ¬ b.vecClk ≤ c.vecClk) (hdc : ¬ c.vecClk ≤ d.vecClk) :
    BinaryHeap.pop vectclkComparator [a, b, c, d] = [d, b, c] := by
  have hsibling : BinaryHeap.lower vectclkComparator [d, b, c] 2 1 = false := by
    simpa [BinaryHeap.lower, ← Bool.not_eq_true, vectclkComparator_iff] using hcb
  have hchild : BinaryHeap.upperChild vectclkComparator [d, b, c] 0 = 2 :=
    if_pos ⟨by simp, hsibling⟩
  have hstop : BinaryHeap.lower vectclkComparator [d, b, c] 0 2 = false := by
    simpa [BinaryHeap.lower, ← Bool.not_eq_true, vectclkComparator_iff] using hdc
  have hpop := BinaryHeap.pop_concat vectclkComparator a d [b, c]
  rw [List.cons_append, List.cons_append, List.nil_append] at hpop
  rw [hpop, BinaryHeap.siftDown, dif_neg (by simp [hchild, hstop])]

theorem not_topMinimal (hle : c.vecClk ≤ a.vecClk) (hne : c ≠ a) (hc : c ∈ q) :
    ¬ TopMinimal (a :: q) := fun h => h a rfl c (List.mem_cons_of_mem _ hc) hne hle

/-- If the fourth message is not before the third's successor, the third is queued
under the second. -/
theorem runQueue_pushed (hba : ¬ b.vecClk ≤ a.vecClk) (hda : ¬ d.vecClk ≤ a.vecClk)
    (hcb : ¬ c.vecClk ≤ b.vecClk) :
    runQueue [] [.push a, .push b, .push d, .push c] = some [a, b, d, c] := by
  simp only [runQueue, push_one, push_two hba, push_three hda, push_four hcb]

/-- Otherwise its successor, as the last message, takes the popped root's place. -/
theorem runQueue_popped (hyx : ¬ y.vecClk ≤ x.vecClk) (hbx : ¬ b.vecClk ≤ x.vecClk)
    (hay : ¬ a.vecClk ≤ y.vecClk) (hyb : ¬ y.vecClk ≤ b.vecClk) (hba : ¬ b.vecClk ≤ a.vecClk) :
    runQueue [] [.push x, .push y, .push b, .push a, .pop] = some [a, y, b] := by
  simp only [runQueue, push_one, push_two hyx, push_three hbx, push_four hay, pop_four hyb hba]

theorem TopsMinimal.layered (hinj : Set.InjOn CmMessageRequest.vecClk S) (h : TopsMinimal S) :
    Layered S := by
  intro a ha b hb c hc d hd hnd hca
  by_contra hno
  obtain ⟨hba, hcb⟩ := not_or.mp hno
  have hS : ∀ m ∈ [a, b, c, d], m ∈ S := by
    intro m hm
    simp only [List.mem_cons, List.not_mem_nil, or_false] at hm
    rcases hm with rfl | rfl | rfl | rfl <;> assumption
  have htop : ∀ {ops q}, (pushes ops).Perm [a, b, c, d] → runQueue [] ops = some q →
      TopMinimal q := fun hperm hrun =>
    h _ _ (fun m hm => hS m (hperm.mem_iff.mp hm)) (hperm.nodup_iff.mpr hnd) hrun
  simp only [List.nodup_cons, List.mem_cons, List.not_mem_nil, or_false, not_or] at hnd
  obtain ⟨⟨_, hac, had⟩, _, hcd, _⟩ := hnd
  have hnle : ∀ {x y}, x ∈ S → y ∈ S → x ≠ y → x.vecClk ≤ y.vecClk → ¬ y.vecClk ≤ x.vecClk :=
    fun hx hy hne hxy hyx => hne (hinj hx hy (le_antisymm hxy hyx))
  by_cases hda : d.vecClk ≤ a.vecClk
  · by_cases hcd' : c.vecClk ≤ d.vecClk
    · have hdb : ¬ d.vecClk ≤ b.vecClk := fun hle => hcb (hcd'.trans hle)
      have hbc : ¬ b.vecClk ≤ c.vecClk := fun hle => hba (hle.trans hca)
      have hrun := runQueue_popped (hnle hc hd hcd hcd') hbc
        (hnle hd ha (Ne.symm had) hda) hdb hba
      have hperm : (pushes [.push c, .push d, .push b, .push a, .pop]).Perm [a, b, c, d] :=
        (List.reverse_perm [a, b, d, c]).trans
          (((List.Perm.swap c d []).cons b).cons a)
      exact not_topMinimal hda (Ne.symm had) (by simp) (htop hperm hrun)
    · have hbd : ¬ b.vecClk ≤ d.vecClk := fun hle => hba (hle.trans hda)
      have hrun := runQueue_popped hcd' hbd (hnle hc ha (Ne.symm hac) hca) hcb hba
      have hperm : (pushes [.push d, .push c, .push b, .push a, .pop]).Perm [a, b, c, d] :=
        List.reverse_perm [a, b, c, d]
      exact not_topMinimal hca (Ne.symm hac) (by simp) (htop hperm hrun)
  · have hrun := runQueue_pushed hba hda hcb
    have hperm : (pushes [.push a, .push b, .push d, .push c]).Perm [a, b, c, d] :=
      ((List.Perm.swap c d []).cons b).cons a
    exact not_topMinimal hca (Ne.symm hac) (by simp) (htop hperm hrun)

end Necessary

theorem queueTops_iff (S : Set (CmMessageRequest n)) (hinj : Set.InjOn CmMessageRequest.vecClk S) :
    TopsMinimal S ↔ Layered S :=
  ⟨TopsMinimal.layered hinj, topsMinimal_of_layered hinj⟩

def clockMessage (clk : Fin n → ℕ) (sender : Fin n) : CmMessageRequest n := ⟨sender, [107], [], clk⟩

/-- A chain of messages of two servers. -/
def turnMessage (k : ℕ) : CmMessageRequest 2 := clockMessage ![(k + 1) / 2, k / 2] ⟨0, Nat.zero_lt_two⟩

theorem turnMessage_le {j k : ℕ} (h : j ≤ k) :
    (turnMessage j).vecClk ≤ (turnMessage k).vecClk := by
  intro i
  match i with
  | 0 =>
    show (j + 1) / 2 ≤ (k + 1) / 2
    omega
  | 1 =>
    show j / 2 ≤ k / 2
    omega

theorem turnMessage_injective {j k : ℕ} (h : (turnMessage j).vecClk = (turnMessage k).vecClk) :
    j = k := by
  have hfirst : (j + 1) / 2 = (k + 1) / 2 := congrFun h 0
  have hsecond : j / 2 = k / 2 := congrFun h 1
  omega

theorem queueTops_turns : TopsMinimal (Set.range turnMessage) := by
  apply (queueTops_iff (Set.range turnMessage) ?_).mpr
  · intro a ha b hb c hc d _ _ hca
    obtain ⟨i, rfl⟩ := ha
    obtain ⟨j, rfl⟩ := hb
    rcases le_total j i with hle | hle
    · exact .inl (turnMessage_le hle)
    · exact .inr (hca.trans (turnMessage_le hle))
  · intro a ha b hb he
    obtain ⟨i, rfl⟩ := ha
    obtain ⟨j, rfl⟩ := hb
    rw [turnMessage_injective he]

/-- The first message of server 0 is queued below one of server 2, so that of
server 1, which had seen it, is on top. -/
theorem queueTops_concurrent : ¬ ∀ (n : ℕ) (ops : List (QueueOp n)) (q : List (CmMessageRequest n)),
    ((pushes ops).map CmMessageRequest.vecClk).Nodup → runQueue [] ops = some q → TopMinimal q := by
  intro h
  have hrun := @runQueue_pushed 4 (clockMessage ![1, 1, 0, 0] 1) (clockMessage ![0, 0, 1, 0] 2)
    (clockMessage ![1, 0, 0, 0] 0) (clockMessage ![0, 0, 2, 0] 2)
    (fun hle => absurd (hle 2) (by decide)) (fun hle => absurd (hle 2) (by decide))
    (fun hle => absurd (hle 0) (by decide))
  have hle : (clockMessage ![1, 0, 0, 0] (0 : Fin 4)).vecClk ≤
      (clockMessage ![1, 1, 0, 0] (1 : Fin 4)).vecClk := by
    intro i
    fin_cases i <;> decide
  refine not_topMinimal hle (fun he => ?_) (by simp) (h 4 _ _ (by decide) hrun)
  have hsender := congrArg CmMessageRequest.nodenum he
  exact absurd hsender (by decide)

end KeyValueStore
