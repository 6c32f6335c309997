import Mathlib.Order.Lattice
import Mathlib.Data.List.Basic

/-! Linearizability of a read/write register. Sorting the operations by a key
that respects real time and what each get read is a linearization. -/

namespace KeyValueStore

/-- What is known of a register from outside. A put is known by its value; a get
returns what it read, none when nothing was put. -/
structure RegisterHistory (ω α : Type*) where
  invoked : ω → Prop
  puts : ω → Option α
  returned : ω → Option α → Prop
  before : ω → ω → Prop

namespace RegisterHistory

variable {ω α κ : Type*} {h : RegisterHistory ω α}

def lastPut (h : RegisterHistory ω α) (order : List ω) : Option α :=
  (order.filterMap h.puts).getLast?

/-- An order of all operations that returned, and of others that took effect, in
which every get reads the last put before it. -/
structure IsLinearization (h : RegisterHistory ω α) (order : List ω) : Prop where
  nodup : order.Nodup
  invoked : ∀ o ∈ order, h.invoked o
  complete : ∀ o r, h.returned o r → o ∈ order
  realTime : order.Pairwise (fun a b => ¬ h.before b a)
  reads : ∀ pre o post r, order = pre ++ o :: post → h.puts o = none → h.returned o r →
    r = h.lastPut pre

def Linearizable (h : RegisterHistory ω α) : Prop := ∃ order, h.IsLinearization order

theorem filterMap_puts_eq_nil {l : List ω} (hl : ∀ w ∈ l, h.puts w = none) :
    l.filterMap h.puts = [] := List.filterMap_eq_nil_iff.mpr hl

section Keys

variable [LinearOrder κ] {key : ω → κ} {ops order : List ω}

/-- What a get read, by the keys of the puts. -/
inductive ReadsByKey (h : RegisterHistory ω α) (key : ω → κ) (ops : List ω) (o : ω) :
    Option α → Prop
  | absent (hall : ∀ w ∈ ops, h.puts w ≠ none → key o < key w) : ReadsByKey h key ops o none
  | put {w : ω} {v : α} (hw : w ∈ ops) (hv : h.puts w = some v) (hlt : key w < key o)
      (hlast : ∀ w' ∈ ops, h.puts w' ≠ none → key w' ≤ key w ∨ key o < key w') :
      ReadsByKey h key ops o (some v)

theorem mem_pre_iff (hsorted : order.Pairwise (fun a b => key a < key b)) {pre post : List ω}
    {o w : ω} (he : order = pre ++ o :: post) (hw : w ∈ order) : w ∈ pre ↔ key w < key o := by
  subst he
  obtain ⟨_, hpost, hcross⟩ := List.pairwise_append.mp hsorted
  constructor
  · exact fun hm => hcross w hm o List.mem_cons_self
  · intro hlt
    rcases List.mem_append.mp hw with hm | hm
    · exact hm
    rcases List.mem_cons.mp hm with rfl | hm
    · exact absurd hlt (lt_irrefl _)
    · exact absurd hlt (not_lt.mpr ((List.pairwise_cons.mp hpost).1 w hm).le)

/-- In a sorted list a get reads the last put before it. -/
theorem ReadsByKey.eq_lastPut (hsorted : order.Pairwise (fun a b => key a < key b))
    {pre post : List ω} {o : ω} {r : Option α} (he : order = pre ++ o :: post)
    (hr : ReadsByKey h key order o r) : r = h.lastPut pre := by
  have hmem : ∀ w ∈ pre, w ∈ order := fun w hw => he ▸ List.mem_append_left _ hw
  have hlt : ∀ w ∈ pre, key w < key o := fun w hw => (mem_pre_iff hsorted he (hmem w hw)).mp hw
  cases hr with
  | absent hall =>
    have hnone : pre.filterMap h.puts = [] := by
      refine filterMap_puts_eq_nil (fun w hw => ?_)
      by_contra hne
      exact lt_asymm (hlt w hw) (hall w (hmem w hw) hne)
    rw [lastPut, hnone, List.getLast?_nil]
  | @put w v hw hv hlt' hlast =>
    obtain ⟨pre₁, pre₂, rfl⟩ := List.append_of_mem ((mem_pre_iff hsorted he hw).mpr hlt')
    have hnone : pre₂.filterMap h.puts = [] := by
      refine filterMap_puts_eq_nil (fun x hx => ?_)
      by_contra hne
      have hx' : x ∈ pre₁ ++ w :: pre₂ := List.mem_append_right _ (List.mem_cons_of_mem _ hx)
      have hgt : key w < key x := by
        have hpre := (List.pairwise_append.mp (he ▸ hsorted)).1
        exact (List.pairwise_cons.mp (List.pairwise_append.mp hpre).2.1).1 x hx
      rcases hlast x (hmem x hx') hne with hle | hgt'
      · exact not_lt.mpr hle hgt
      · exact lt_asymm (hlt x hx') hgt'
    rw [lastPut, List.filterMap_append, List.filterMap_cons_some hv, hnone, List.getLast?_concat]

/-- A key that orders all operations as real time does, and every get after the
put it read and before all later puts. -/
theorem linearizable_of_key (hnd : ops.Nodup)
    (hinj : ∀ a ∈ ops, ∀ b ∈ ops, key a = key b → a = b) (hinv : ∀ o ∈ ops, h.invoked o)
    (hcomplete : ∀ o r, h.returned o r → o ∈ ops)
    (hreal : ∀ a ∈ ops, ∀ b ∈ ops, h.before a b → key a < key b)
    (hreads : ∀ o ∈ ops, ∀ r, h.puts o = none → h.returned o r → ReadsByKey h key ops o r) :
    h.Linearizable := by
  let order := ops.mergeSort (fun a b => key a ≤ key b)
  have hmem : ∀ o, o ∈ order ↔ o ∈ ops := fun o => List.mem_mergeSort
  have hnodup : order.Nodup := (List.mergeSort_perm ops _).nodup_iff.mpr hnd
  have hle : order.Pairwise (fun a b => (decide (key a ≤ key b)) = true) := by
    refine List.pairwise_mergeSort (fun a b c hab hbc => ?_) (fun a b => ?_) ops
    · simp only [decide_eq_true_eq] at hab hbc ⊢
      exact hab.trans hbc
    · simpa using le_total (key a) (key b)
  have hsorted : order.Pairwise (fun a b => key a < key b) := by
    refine (hle.and hnodup).imp_of_mem (fun {a b} ha hb hab => ?_)
    refine lt_of_le_of_ne (of_decide_eq_true hab.1) (fun he => hab.2 ?_)
    exact hinj a ((hmem a).mp ha) b ((hmem b).mp hb) he
  refine ⟨order, hnodup, fun o ho => hinv o ((hmem o).mp ho), fun o r hr =>
    (hmem o).mpr (hcomplete o r hr), ?_, ?_⟩
  · refine hsorted.imp_of_mem (fun {a b} ha hb hab hba => ?_)
    exact lt_asymm hab (hreal b ((hmem b).mp hb) a ((hmem a).mp ha) hba)
  · intro pre o post r he hget hret
    have ho : o ∈ order := he ▸ List.mem_append_right _ List.mem_cons_self
    have hr : ReadsByKey h key order o r := by
      cases hreads o ((hmem o).mp ho) r hget hret with
      | absent hall => exact .absent (fun w hw => hall w ((hmem w).mp hw))
      | put hw hv hlt hlast =>
        exact .put ((hmem _).mpr hw) hv hlt (fun w' hw' => hlast w' ((hmem w').mp hw'))
    exact hr.eq_lastPut hsorted he

end Keys

/-- A get that read nothing although a put had returned has no place in any
order. -/
theorem not_linearizable_of_absent {w o : ω} {v : α} {r : Option α} (hv : h.puts w = some v)
    (hget : h.puts o = none) (hw : h.returned w r) (ho : h.returned o none)
    (hbefore : h.before w o) : ¬ h.Linearizable := by
  rintro ⟨order, hlin⟩
  obtain ⟨pre, post, he⟩ := List.append_of_mem (hlin.complete o none ho)
  have hpre : w ∈ pre := by
    have hm := hlin.complete w r hw
    rw [he] at hm
    rcases List.mem_append.mp hm with hm | hm
    · exact hm
    rcases List.mem_cons.mp hm with rfl | hm
    · exact absurd (hget.symm.trans hv) (by simp)
    · have hreal := (List.pairwise_append.mp (he ▸ hlin.realTime)).2.1
      exact absurd hbefore ((List.pairwise_cons.mp hreal).1 w hm)
  have hlast := hlin.reads pre o post none he hget ho
  rw [lastPut, eq_comm, List.getLast?_eq_none_iff, List.filterMap_eq_nil_iff] at hlast
  exact absurd ((hlast w hpre).symm.trans hv) (by simp)

end RegisterHistory

end KeyValueStore
