import KeyValueStore.Linearization
import Mathlib.Data.Finset.Lattice.Fold
import Mathlib.Data.Prod.Lex
import Mathlib.Data.Set.Finite.Basic
import Mathlib.Order.Lattice.Nat

/-! Locality of linearizability. Where calls and returns are entries of one log, a
store is linearizable when each of its registers is. An operation takes effect at
the latest start of those that its register has up to it. -/

namespace KeyValueStore

/-- What is known of a store of registers from outside. An operation is at one key. -/
structure StoreHistory (ω κ α : Type*) where
  key : ω → κ
  invoked : ω → Prop
  puts : ω → Option α
  returned : ω → Option α → Prop
  before : ω → ω → Prop

section Agree

variable {ω α : Type*} {g h : RegisterHistory ω α}

/-- A history that agrees on the operations in the order and knows less else. -/
theorem RegisterHistory.Linearizable.of_agree (hg : g.Linearizable)
    (hinv : ∀ o, g.invoked o → h.invoked o) (hret : ∀ o r, h.returned o r → g.returned o r)
    (hputs : h.puts = g.puts)
    (hbefore : ∀ a b, g.invoked a → g.invoked b → h.before a b → g.before a b) :
    h.Linearizable := by
  obtain ⟨order, hl⟩ := hg
  refine ⟨order, hl.nodup, fun o ho => hinv o (hl.invoked o ho),
    fun o r hr => hl.complete o r (hret o r hr), ?_, fun pre o post r he hget hr => ?_⟩
  · refine hl.realTime.imp_of_mem (fun {a b} ha hb hab hba => hab ?_)
    exact hbefore b a (hl.invoked b hb) (hl.invoked a ha) hba
  · rw [RegisterHistory.lastPut, hputs]
    exact hl.reads pre o post r he (hputs ▸ hget) (hret o r hr)

end Agree

namespace StoreHistory

variable {ω κ α : Type*} {h : StoreHistory ω κ α}

def register (h : StoreHistory ω κ α) (k : κ) : RegisterHistory ω α where
  invoked o := h.invoked o ∧ h.key o = k
  puts := h.puts
  returned o r := h.returned o r ∧ h.key o = k
  before a b := h.before a b ∧ h.key a = k ∧ h.key b = k

/-- What returned before an operation started returned before all that started later. -/
structure Timed (h : StoreHistory ω κ α) (start : ω → ℕ) : Prop where
  inj : ∀ a b, h.invoked a → h.invoked b → start a = start b → a = b
  irrefl : ∀ a, ¬ h.before a a
  later : ∀ a b c, h.before a b → h.invoked c → start b ≤ start c → h.before a c

section Log

variable {ε : Type*} {call ret : ε → Option ω} {log : List ε} {a b : ω}

/-- The log has a return of `a` before a call of `b`. -/
def ReturnedBefore (call ret : ε → Option ω) (log : List ε) (a b : ω) : Prop :=
  ∃ e e', call e = some b ∧ ret e' = some a ∧ [e, e'].Sublist log

theorem returnedBefore_iff : ReturnedBefore call ret log a b ↔
    ∃ new old, log = new ++ old ∧ (∃ e ∈ new, call e = some b) ∧ ∃ e ∈ old, ret e = some a := by
  constructor
  · rintro ⟨e, e', he, he', hsub⟩
    obtain ⟨new, old, hlog, hm, hsub⟩ := List.cons_sublist_iff.mp hsub
    exact ⟨new, old, hlog, ⟨e, hm, he⟩, e', List.singleton_sublist.mp hsub, he'⟩
  · rintro ⟨new, old, hlog, ⟨e, hm, he⟩, e', hm', he'⟩
    exact ⟨e, e', he, he', List.cons_sublist_iff.mpr
      ⟨new, old, hlog, hm, List.singleton_sublist.mpr hm'⟩⟩

variable [DecidableEq ω]

/-- Where the latest call of `o` stands in a log that has its newest entry first. -/
def startIn (call : ε → Option ω) (log : List ε) (o : ω) : ℕ :=
  log.length - log.findIdx (fun e => call e = some o)

theorem findIdx_lt (h : ∃ e ∈ log, call e = some a) :
    log.findIdx (fun e => call e = some a) < log.length :=
  List.findIdx_lt_length.mpr (by simpa using h)

theorem call_findIdx (h : log.findIdx (fun e => call e = some a) < log.length) :
    call log[log.findIdx (fun e => call e = some a)] = some a := by
  simpa using List.findIdx_getElem (w := h)

theorem timed_of_log (ret : ε → Option ω) (hinv : ∀ o, h.invoked o → ∃ e ∈ log, call e = some o)
    (hbefore : ∀ a b, h.before a b ↔ ReturnedBefore call ret log a b)
    (hirrefl : ∀ a, ¬ h.before a a) : h.Timed (startIn call log) where
  inj a b ha hb he := by
    have hlt := findIdx_lt (hinv a ha)
    have hlt' := findIdx_lt (hinv b hb)
    have hidx : log.findIdx (fun e => call e = some a) = log.findIdx (fun e => call e = some b) := by
      unfold startIn at he
      omega
    have hcall := call_findIdx hlt
    simp only [hidx, call_findIdx hlt', Option.some.injEq] at hcall
    exact hcall.symm
  irrefl := hirrefl
  later a b c hab hc hle := by
    rw [hbefore, returnedBefore_iff] at hab ⊢
    obtain ⟨new, old, rfl, hnew, hold⟩ := hab
    refine ⟨new, old, rfl, ?_, hold⟩
    have hlt := findIdx_lt hnew
    have hlt' := findIdx_lt (hinv c hc)
    have hb : (new ++ old).findIdx (fun e => call e = some b) =
        new.findIdx (fun e => call e = some b) := by
      rw [List.findIdx_append, if_pos hlt]
    have hcnew : (new ++ old).findIdx (fun e => call e = some c) < new.length := by
      unfold startIn at hle
      omega
    have hcall := call_findIdx hlt'
    rw [List.getElem_append_left hcnew] at hcall
    exact ⟨_, List.getElem_mem hcnew, hcall⟩

end Log

section Points

variable [DecidableEq ω] {start : ω → ℕ} {order : κ → List ω} {k : κ} {a b o : ω} {l : List ω}

/-- The operations of a list up to `o`. -/
def upTo (l : List ω) (o : ω) : Finset ω := l.toFinset.filter (fun a => l.idxOf a ≤ l.idxOf o)

def point (start : ω → ℕ) (l : List ω) (o : ω) : ℕ := (upTo l o).sup start

theorem mem_upTo : a ∈ upTo l o ↔ a ∈ l ∧ l.idxOf a ≤ l.idxOf o := by
  simp only [upTo, Finset.mem_filter, List.mem_toFinset]

theorem exists_point (start : ω → ℕ) (ho : o ∈ l) :
    ∃ c ∈ l, l.idxOf c ≤ l.idxOf o ∧ point start l o = start c := by
  have hne : (upTo l o).Nonempty := ⟨o, mem_upTo.mpr ⟨ho, le_rfl⟩⟩
  obtain ⟨c, hc, he⟩ := Finset.exists_mem_eq_sup _ hne start
  obtain ⟨hm, hle⟩ := mem_upTo.mp hc
  exact ⟨c, hm, hle, he⟩

theorem start_le_point (ho : o ∈ l) : start o ≤ point start l o :=
  Finset.le_sup (f := start) (mem_upTo.mpr ⟨ho, le_rfl⟩)

theorem point_mono (h : l.idxOf a ≤ l.idxOf b) : point start l a ≤ point start l b := by
  refine Finset.sup_mono (fun c hc => ?_)
  obtain ⟨hm, hle⟩ := mem_upTo.mp hc
  exact mem_upTo.mpr ⟨hm, hle.trans h⟩

/-- An operation that returned takes effect before all that start later. -/
theorem Timed.point_lt (ht : h.Timed start) (hl : (h.register k).IsLinearization l) (ha : a ∈ l)
    (hbefore : h.before a b) : point start l a < start b := by
  obtain ⟨c, hc, hle, he⟩ := exists_point start ha
  rw [he]
  by_contra hge
  obtain ⟨hinv, hkey⟩ := hl.invoked c hc
  have hac : h.before a c := ht.later a b c hbefore hinv (Nat.le_of_not_lt hge)
  rcases hle.lt_or_eq with hlt | heq
  · have hreal := List.pairwise_iff_getElem.mp hl.realTime _ _ (List.idxOf_lt_length_of_mem hc)
      (List.idxOf_lt_length_of_mem ha) hlt
    simp only [List.getElem_idxOf] at hreal
    exact hreal ⟨hac, (hl.invoked a ha).2, hkey⟩
  · obtain rfl := (List.idxOf_inj hc).mp heq
    exact ht.irrefl c hac

def rank (h : StoreHistory ω κ α) (start : ω → ℕ) (order : κ → List ω) (o : ω) : ℕ ×ₗ ℕ :=
  toLex (point start (order (h.key o)) o, (order (h.key o)).idxOf o)

theorem rank_lt_iff : h.rank start order a < h.rank start order b ↔
    point start (order (h.key a)) a < point start (order (h.key b)) b ∨
      point start (order (h.key a)) a = point start (order (h.key b)) b ∧
        (order (h.key a)).idxOf a < (order (h.key b)).idxOf b := by
  simp only [rank, Prod.Lex.toLex_lt_toLex]

theorem Timed.rank_inj (ht : h.Timed start)
    (hl : ∀ k, (h.register k).IsLinearization (order k)) (ha : a ∈ order (h.key a))
    (hb : b ∈ order (h.key b)) (he : h.rank start order a = h.rank start order b) : a = b := by
  obtain ⟨hpoint, hidx⟩ := Prod.mk.inj (toLex.injective he)
  obtain ⟨c, hc, _, hca⟩ := exists_point start ha
  obtain ⟨d, hd, _, hdb⟩ := exists_point start hb
  obtain ⟨hc, hkc⟩ := (hl _).invoked c hc
  obtain ⟨hd, hkd⟩ := (hl _).invoked d hd
  have hcd : c = d := ht.inj c d hc hd (by rw [← hca, ← hdb, hpoint])
  have hkey : h.key a = h.key b := by rw [← hkc, ← hkd, hcd]
  rw [← hkey] at hidx
  exact (List.idxOf_inj ha).mp hidx

/-- The order of a register goes up in rank. -/
theorem pairwise_rank (hl : (h.register k).IsLinearization (order k)) :
    (order k).Pairwise (fun a b => h.rank start order a < h.rank start order b) := by
  rw [List.pairwise_iff_getElem]
  intro i j hi hj hij
  have hki := (hl.invoked _ (List.getElem_mem hi)).2
  have hkj := (hl.invoked _ (List.getElem_mem hj)).2
  rw [rank_lt_iff, hki, hkj, hl.nodup.idxOf_getElem i hi, hl.nodup.idxOf_getElem j hj]
  refine Or.imp_right (fun he => ⟨he, hij⟩) (point_mono ?_).lt_or_eq
  rw [hl.nodup.idxOf_getElem i hi, hl.nodup.idxOf_getElem j hj]
  exact hij.le

end Points

section Store

variable [DecidableEq κ]

/-- An order of all operations that returned, and of others that took effect, in
which every get reads the last put at its key before it. -/
structure IsLinearization (h : StoreHistory ω κ α) (order : List ω) : Prop where
  nodup : order.Nodup
  invoked : ∀ o ∈ order, h.invoked o
  complete : ∀ o r, h.returned o r → o ∈ order
  realTime : order.Pairwise (fun a b => ¬ h.before b a)
  reads : ∀ pre o post r, order = pre ++ o :: post → h.puts o = none → h.returned o r →
    r = (h.register (h.key o)).lastPut (pre.filter (fun w => h.key w = h.key o))

def Linearizable (h : StoreHistory ω κ α) : Prop := ∃ order, h.IsLinearization order

/-- A list without repetitions, sorted by a key that tells its elements apart. -/
theorem exists_sorted {σ : Type*} [LinearOrder σ] {key : ω → σ} {ops : List ω} (hnd : ops.Nodup)
    (hinj : ∀ a ∈ ops, ∀ b ∈ ops, key a = key b → a = b) :
    ∃ order : List ω, order.Perm ops ∧ order.Pairwise (fun a b => key a < key b) := by
  have hperm := List.mergeSort_perm ops (fun a b => key a ≤ key b)
  refine ⟨_, hperm, ?_⟩
  have hle := @List.pairwise_mergeSort _ (fun a b => decide (key a ≤ key b))
    (fun a b c hab hbc => by
      simp only [decide_eq_true_eq] at hab hbc ⊢
      exact hab.trans hbc)
    (fun a b => by simpa using le_total (key a) (key b)) ops
  refine (hle.and (hperm.nodup_iff.mpr hnd)).imp_of_mem (fun {a b} ha hb hab => ?_)
  refine lt_of_le_of_ne (of_decide_eq_true hab.1) (fun he => hab.2 ?_)
  exact hinj a (hperm.mem_iff.mp ha) b (hperm.mem_iff.mp hb) he

/-- A store is linearizable if its registers are. -/
theorem Timed.linearizable {start : ω → ℕ} (ht : h.Timed start) (hfin : {o | h.invoked o}.Finite)
    (hlocal : ∀ k, (h.register k).Linearizable) : h.Linearizable := by
  classical
  choose order hl using hlocal
  let ops := hfin.toFinset.toList.filter (fun o => o ∈ order (h.key o))
  have hops : ∀ o, o ∈ ops ↔ o ∈ order (h.key o) := by
    intro o
    simp only [ops, List.mem_filter, Finset.mem_toList, Set.Finite.mem_toFinset, Set.mem_ofPred_eq,
      decide_eq_true_eq, and_iff_right_iff_imp]
    exact fun ho => ((hl _).invoked o ho).1
  have hnd : ops.Nodup := (Finset.nodup_toList _).filter _
  obtain ⟨sorted, hperm, hsorted⟩ := exists_sorted hnd (fun a ha b hb =>
    ht.rank_inj hl ((hops a).mp ha) ((hops b).mp hb))
  have hmem : ∀ o, o ∈ sorted ↔ o ∈ order (h.key o) := fun o => hperm.mem_iff.trans (hops o)
  -- what the sorted list has at a key is the order of that register
  have hfilter : ∀ k, sorted.filter (fun o => h.key o = k) = order k := by
    intro k
    refine List.Perm.eq_of_pairwise (fun a b _ _ hab hba => absurd hab (lt_asymm hba))
      (hsorted.filter _) (pairwise_rank (hl k)) ?_
    refine (List.perm_ext_iff_of_nodup ((hperm.nodup_iff.mpr hnd).filter _) (hl k).nodup).mpr
      (fun o => ?_)
    simp only [List.mem_filter, hmem, decide_eq_true_eq]
    exact ⟨fun ⟨ho, hk⟩ => hk ▸ ho, fun ho => ⟨((hl k).invoked o ho).2 ▸ ho, ((hl k).invoked o ho).2⟩⟩
  refine ⟨sorted, hperm.nodup_iff.mpr hnd, fun o ho => ?_, fun o r hr => ?_, ?_, ?_⟩
  · exact ((hl _).invoked o ((hmem o).mp ho)).1
  · exact (hmem o).mpr ((hl _).complete o r ⟨hr, rfl⟩)
  · refine hsorted.imp_of_mem (fun {a b} ha hb hab hba => ?_)
    have hlt : point start (order (h.key b)) b < point start (order (h.key a)) a :=
      (ht.point_lt (hl _) ((hmem b).mp hb) hba).trans_le
        (start_le_point ((hmem a).mp ha))
    exact lt_asymm hab (rank_lt_iff.mpr (.inl hlt))
  · intro pre o post r he hget hr
    refine (hl (h.key o)).reads _ o (post.filter (fun w => h.key w = h.key o)) r ?_ hget ⟨hr, rfl⟩
    rw [← hfilter, he, List.filter_append, List.filter_cons_of_pos (by simp)]

end Store

end StoreHistory

end KeyValueStore
