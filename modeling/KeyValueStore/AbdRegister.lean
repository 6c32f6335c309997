import KeyValueStore.AbdInvariant
import KeyValueStore.Linearization
import Mathlib.Algebra.Group.Nat.Defs

/-! ABD histories are linearizable, ordered by tag, a put before the gets of its
tag, and calls of one kind as they were made. -/

namespace KeyValueStore

variable {n : ℕ} {s t : AbdSystem n} {a : AbdAction n} {key : Bytes}

section Keys

structure KeyInv (s : AbdSystem n) : Prop where
  sentinel : ∀ op ∈ s.ops, cStr op.key = sentinelKey → op.key = sentinelKey
  apart : ∀ op ∈ s.ops, ∀ op' ∈ s.ops, cStr op.key = cStr op'.key → op.key = op'.key

theorem AbdSteps.keys (h : AbdSteps s a t) {op' : AbdOp} (hop : op' ∈ t.ops) :
    (∃ op ∈ s.ops, op.key = op'.key) ∨ ∃ client put, a = .invoke client op'.key put := by
  have hset : ∀ {i : ℕ} {op : AbdOp} {p : AbdPhase}, s.ops[i]? = some op →
      op' ∈ s.ops.set i { op with phase := p } → ∃ op ∈ s.ops, op.key = op'.key := by
    intro i op p hi hm
    rcases List.mem_or_eq_of_mem_set hm with hm | rfl
    · exact ⟨op', hm, rfl⟩
    · exact ⟨op, List.mem_of_getElem? hi, rfl⟩
  cases h with
  | invoke hidle he =>
    rcases List.mem_append.mp hop with hop | hop
    · exact .inl ⟨op', hop, rfl⟩
    · rw [List.mem_singleton.mp hop, he]
      exact .inr ⟨_, _, rfl⟩
  | deliver => exact .inl ⟨op', hop, rfl⟩
  | startWrite hi => exact .inl (hset hi hop)
  | absent hi => exact .inl (hset hi hop)
  | finishWrite hi => exact .inl (hset hi hop)

theorem KeyInv.step (h : KeyInv s) (hok : LeadStep s a) (hs : AbdSteps s a t) : KeyInv t := by
  refine ⟨fun op hop he => ?_, fun op hop op' hop' he => ?_⟩
  · rcases hs.keys hop with ⟨o, ho, hk⟩ | ⟨client, put, rfl⟩
    · exact hk ▸ h.sentinel o ho (hk ▸ he)
    · exact hok.1 he
  · rcases hs.keys hop with ⟨o, ho, hk⟩ | ⟨client, put, rfl⟩
    · rcases hs.keys hop' with ⟨o', ho', hk'⟩ | ⟨client, put, rfl⟩
      · rw [← hk, ← hk'] at he ⊢
        exact h.apart o ho o' ho' he
      · rw [← hk] at he ⊢
        exact hok.2 o ho he
    · rcases hs.keys hop' with ⟨o', ho', hk'⟩ | ⟨client', put', hinv⟩
      · rw [← hk'] at he ⊢
        exact (hok.2 o' ho' he.symm).symm
      · exact (AbdAction.invoke.inj hinv).2.1

theorem keyInv_of_reachable (h : ReachableWhen abdStep LeadStep .init s) : KeyInv s :=
  h.invariant ⟨by simp [AbdSystem.init], by simp [AbdSystem.init]⟩
    (fun _ _ _ _ hu ha he => hu.step ha (abdStep_steps he))

end Keys

section Register

/-- The history of the calls on one key. -/
def AbdSystem.register (s : AbdSystem n) (key : Bytes) : RegisterHistory ℕ Bytes where
  invoked i := ∃ op : AbdOp, s.ops[i]? = some op ∧ op.key = key
  puts i := s.ops[i]?.bind AbdOp.put
  returned i r := ∃ (op : AbdOp) (τ : Tag), s.ops[i]? = some op ∧ op.key = key ∧
    op.phase = .returned τ r
  before i j := s.Precedes i j

/-- A call that has its place in the order: a get that returned, or a put that
chose its tag. -/
def AbdOp.placed (op : AbdOp) (key : Bytes) : Bool :=
  op.key = key && op.tag?.isSome && (op.put.isSome || op.done)

def AbdSystem.placedOps (s : AbdSystem n) (key : Bytes) : List ℕ :=
  (List.range s.ops.length).filter (fun i => (s.ops[i]?).any (fun op => op.placed key))

theorem mem_placedOps {i : ℕ} : i ∈ s.placedOps key ↔ ∃ (op : AbdOp) (τ : Tag),
    s.ops[i]? = some op ∧ op.key = key ∧ op.tag? = some τ ∧ (op.put ≠ none ∨ op.done = true) := by
  simp only [AbdSystem.placedOps, List.mem_filter, List.mem_range, Option.any_eq_true,
    AbdOp.placed, Bool.and_eq_true, Bool.or_eq_true, decide_eq_true_eq, Option.isSome_iff_exists,
    Option.ne_none_iff_exists']
  constructor
  · rintro ⟨_, op, hop, ⟨hkey, τ, hτ⟩, hkind⟩
    exact ⟨op, τ, hop, hkey, hτ, hkind⟩
  · rintro ⟨op, τ, hop, hkey, hτ, hkind⟩
    exact ⟨(List.getElem?_eq_some_iff.mp hop).1, op, hop, ⟨hkey, τ, hτ⟩, hkind⟩

def AbdOp.sortKey (op : AbdOp) (τ : Tag) (i : ℕ) : Tag ×ₗ (ℕ ×ₗ ℕ) :=
  toLex (τ, toLex (if op.put = none then 1 else 0, i))

def AbdSystem.sortKey (s : AbdSystem n) (i : ℕ) : Tag ×ₗ (ℕ ×ₗ ℕ) :=
  match s.ops[i]? with
  | some op => op.sortKey (op.tag?.getD .zero) i
  | none => toLex (.zero, toLex (0, i))

theorem sortKey_eq {i : ℕ} {op : AbdOp} {τ : Tag} (hop : s.ops[i]? = some op)
    (hτ : op.tag? = some τ) : s.sortKey i = op.sortKey τ i := by
  simp only [AbdSystem.sortKey, hop, hτ, Option.getD_some]

theorem sortKey_lt_iff {op op' : AbdOp} {τ τ' : Tag} {i j : ℕ} :
    op.sortKey τ i < op'.sortKey τ' j ↔ τ < τ' ∨ τ = τ' ∧
      ((if op.put = none then 1 else 0) < (if op'.put = none then 1 else 0) ∨
        (if op.put = none then 1 else 0) = (if op'.put = none then 1 else 0) ∧ i < j) := by
  simp only [AbdOp.sortKey, Prod.Lex.toLex_lt_toLex]

theorem sortKey_injective {i j : ℕ} (h : s.sortKey i = s.sortKey j) : i = j := by
  have hsnd : ∀ k, (ofLex (ofLex (s.sortKey k)).2).2 = k := by
    intro k
    unfold AbdSystem.sortKey
    split <;> rfl
  rw [← hsnd i, h, hsnd]

variable {i j : ℕ} {opi opj : AbdOp} {τ τ' : Tag}

theorem AbdInv.sortKey_lt (h : AbdInv s) (hp : s.Precedes i j) (hi : s.ops[i]? = some opi)
    (hj : s.ops[j]? = some opj) (hkey : cStr opj.key = cStr opi.key)
    (hne : cStr opi.key ≠ sentinelKey) (hτ : opi.tag? = some τ) (hτ' : opj.tag? = some τ') :
    opi.sortKey τ i < opj.sortKey τ' j := by
  obtain ⟨hle, hput⟩ := (h.behind i j opi opj τ hp hi hj hkey hne hτ).chosen τ' hτ'
  rw [sortKey_lt_iff]
  rcases hle.lt_or_eq with hlt | rfl
  · exact .inl hlt
  · refine .inr ⟨rfl, ?_⟩
    have hget : opj.put = none := by
      by_contra hne'
      exact lt_irrefl _ (hput hne')
    by_cases hgeti : opi.put = none
    · exact .inr ⟨by simp [hget, hgeti], h.fits.order i j hp⟩
    · exact .inl (by simp [hget, hgeti])

/-- No two puts on a key chose the same tag: those of one client follow each
other. -/
theorem AbdInv.put_unique (h : AbdInv s) (hi : s.ops[i]? = some opi) (hj : s.ops[j]? = some opj)
    (hkey : cStr opi.key = cStr opj.key) (hne : cStr opi.key ≠ sentinelKey)
    (hputi : opi.put ≠ none) (hputj : opj.put ≠ none) (hτ : opi.tag? = some τ)
    (hτ' : opj.tag? = some τ) : i = j := by
  obtain ⟨v, hv⟩ := Option.ne_none_iff_exists'.mp hputi
  obtain ⟨w, hw⟩ := Option.ne_none_iff_exists'.mp hputj
  have hclient : opi.client = opj.client := by
    rw [← ((h.ops i opi hi hne).put v τ hv hτ).1,
      ((h.ops j opj hj (hkey ▸ hne)).put w τ hw hτ').1]
  refine h.fits.eq_of_client hi hj hclient (fun hp => ?_) (fun hp => ?_)
  · exact lt_irrefl _ (((h.behind i j opi opj τ hp hi hj hkey.symm hne hτ).chosen τ hτ').2 hputj)
  · exact lt_irrefl _
      (((h.behind j i opj opi τ hp hj hi hkey (hkey ▸ hne) hτ').chosen τ hτ).2 hputi)

theorem AbdInv.readsByKey (h : AbdInv s) (hk : KeyInv s) (hne : cStr key ≠ sentinelKey)
    (hi : s.ops[i]? = some opi) (hkey : opi.key = key) (hget : opi.put = none) {r : Option Bytes}
    (hphase : opi.phase = .returned τ r) :
    RegisterHistory.ReadsByKey (s.register key) s.sortKey (s.placedOps key) i r := by
  have hτ : opi.tag? = some τ := by simp [AbdOp.tag?, hphase]
  have hfits := h.ops i opi hi (hkey ▸ hne)
  have hputs : ∀ {w : ℕ} {op : AbdOp}, s.ops[w]? = some op → (s.register key).puts w = op.put :=
    fun hw => by simp [AbdSystem.register, hw]
  cases r with
  | none =>
    refine .absent (fun w hw hput => ?_)
    obtain ⟨op, σ, hop, hkey', hσ, _⟩ := mem_placedOps.mp hw
    rw [hputs hop] at hput
    obtain ⟨v, hv⟩ := Option.ne_none_iff_exists'.mp hput
    rw [sortKey_eq hi hτ, sortKey_eq hop hσ, sortKey_lt_iff]
    refine .inl (Tag.lt_of_integer_lt ?_)
    rw [hfits.absent hget τ hphase]
    exact UInt32.pos_iff_ne_zero.mpr ((h.ops w op hop (hkey' ▸ hne)).put v σ hv hσ).2
  | some v =>
    obtain ⟨w, op, hop, hkeys, hv, hσ⟩ := hfits.read hget τ v (.inr hphase)
    have hput : op.put ≠ none := by simp [hv]
    have hkey' : op.key = key := (hk.apart op (List.mem_of_getElem? hop) opi
      (List.mem_of_getElem? hi) hkeys).trans hkey
    refine .put (mem_placedOps.mpr ⟨op, τ, hop, hkey', hσ, .inl hput⟩) ((hputs hop).trans hv) ?_
      (fun w' hw' hput' => ?_)
    · rw [sortKey_eq hop hσ, sortKey_eq hi hτ, sortKey_lt_iff]
      exact .inr ⟨rfl, .inl (by simp [hput, hget])⟩
    · obtain ⟨op', σ', hop', hkey'', hσ', _⟩ := mem_placedOps.mp hw'
      rw [hputs hop'] at hput'
      rcases lt_trichotomy σ' τ with hlt | rfl | hgt
      · left
        rw [sortKey_eq hop hσ, sortKey_eq hop' hσ']
        exact (sortKey_lt_iff.mpr (.inl hlt)).le
      · left
        have hcc : cStr op'.key = cStr op.key := by rw [hkey'', hkey']
        exact (congrArg s.sortKey (h.put_unique hop' hop hcc (hkey'' ▸ hne) hput' hput hσ' hσ)).le
      · right
        rw [sortKey_eq hi hτ, sortKey_eq hop' hσ', sortKey_lt_iff]
        exact .inl hgt

end Register

section Linearizable

theorem AbdInv.register_linearizable (hinv : AbdInv s) (hk : KeyInv s) (hkey : key ≠ sentinelKey) :
    (s.register key).Linearizable := by
  have hne : ∀ {i : ℕ} {op : AbdOp}, s.ops[i]? = some op → op.key = key →
      cStr key ≠ sentinelKey := fun hop he hc =>
    hkey (he ▸ hk.sentinel _ (List.mem_of_getElem? hop) (he ▸ hc))
  refine @RegisterHistory.linearizable_of_key _ _ _ (s.register key) _ s.sortKey
    (s.placedOps key) (List.nodup_range.filter _) (fun _ _ _ _ he => sortKey_injective he)
    (fun i hi => ?_) (fun i r hr => ?_) (fun i hi j hj hp => ?_) (fun i hi r hget hr => ?_)
  · obtain ⟨op, _, hop, he, _⟩ := mem_placedOps.mp hi
    exact ⟨op, hop, he⟩
  · obtain ⟨op, τ, hop, he, hphase⟩ := hr
    exact mem_placedOps.mpr ⟨op, τ, hop, he, by simp [AbdOp.tag?, hphase],
      .inr (by simp [AbdOp.done, hphase])⟩
  · obtain ⟨opi, τ, hopi, hei, hτ, _⟩ := mem_placedOps.mp hi
    obtain ⟨opj, τ', hopj, hej, hτ', _⟩ := mem_placedOps.mp hj
    rw [sortKey_eq hopi hτ, sortKey_eq hopj hτ']
    exact hinv.sortKey_lt hp hopi hopj (by rw [hei, hej]) (hei.symm ▸ hne hopi hei) hτ hτ'
  · obtain ⟨op, τ, hop, he, hphase⟩ := hr
    have hget' : op.put = none := by simpa [AbdSystem.register, hop] using hget
    exact hinv.readsByKey hk (hne hop he) hop he hget' hphase

/-- Runs whose queries select the greatest tag are linearizable on every key. -/
theorem linearizable_of_leads (h : ReachableWhen abdStep LeadStep .init s)
    (hputs : s.putCount < 2 ^ 32 - 1) (hkey : key ≠ sentinelKey) :
    (s.register key).Linearizable :=
  (abdInv_of_reachable h hputs).register_linearizable (keyInv_of_reachable h) hkey

/-- Client 1 puts a value at replicas 0 and 1, and client 2 queries two replicas. -/
def putThenQuery : List (AbdAction 3) :=
  [.invoke 1 [107] (some [49]), .deliver 0, .deliver 0, .finishQuery 0 [0, 1], .deliver 1,
    .deliver 1, .finishWrite 0 [0, 1], .invoke 2 [107] none, .deliver 3, .deliver 3]

/-- The replica that has the value answers first. -/
def leadingRun : List (AbdAction 3) :=
  putThenQuery ++ [.finishQuery 1 [1, 2], .deliver 3, .deliver 3, .finishWrite 1 [0, 1]]

theorem leadingRun_linearizable : ∃ s : AbdSystem 3,
    runWhen abdStep LeadStep .init leadingRun = some s ∧
    s.ops.map AbdOp.phase = [.returned ⟨1, 1⟩ none, .returned ⟨1, 1⟩ (some [49])] ∧
    (s.register [107]).Linearizable := by
  obtain ⟨s, hs, hops, hputs⟩ := exists_of_run (P := fun s : AbdSystem 3 =>
    s.ops.map AbdOp.phase = [.returned ⟨1, 1⟩ none, .returned ⟨1, 1⟩ (some [49])] ∧
      s.putCount < 2 ^ 32 - 1)
    (show (runWhen abdStep LeadStep .init leadingRun).any _ = true by decide +kernel)
  exact ⟨s, hs, hops, linearizable_of_leads (reachableWhen_of_runWhen hs) hputs (by decide)⟩

/-- The replica that lacks the value answers first, and the other's greater
integer is dropped. -/
def droppingRun : List (AbdAction 3) := putThenQuery ++ [.finishQuery 1 [2, 1]]

theorem droppingRun_not_linearizable : ∃ s : AbdSystem 3, Reachable abdStep .init s ∧
    s.putCount < 2 ^ 32 - 1 ∧ ¬ (s.register [107]).Linearizable := by
  obtain ⟨s, hs, hops, hputs, hp⟩ := exists_of_run
    (P := fun s : AbdSystem 3 =>
      s.ops = [⟨1, [107], some [49], .returned ⟨1, 1⟩ none⟩, ⟨2, [107], none, .returned ⟨0, 0⟩ none⟩] ∧
        s.putCount < 2 ^ 32 - 1 ∧ [AbdEvent.invoked 1, .returned 0].Sublist s.history)
    (show (runWhen abdStep (fun _ _ => True) .init droppingRun).any _ = true by decide +kernel)
  refine ⟨s, reachableWhen_of_runWhen hs, hputs, ?_⟩
  exact RegisterHistory.not_linearizable_of_absent (w := 0) (o := 1) (v := [49]) (r := none)
    (by simp [AbdSystem.register, hops]) (by simp [AbdSystem.register, hops])
    (by simp [AbdSystem.register, hops]) (by simp [AbdSystem.register, hops]) hp

end Linearizable

end KeyValueStore
