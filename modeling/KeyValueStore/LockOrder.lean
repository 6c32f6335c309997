import KeyValueStore.Execution
import Mathlib.Algebra.BigOperators.Group.List.Basic
import Mathlib.Algebra.GroupWithZero.Nat
import Mathlib.Data.Finset.Max
import Mathlib.Data.List.Count
import Mathlib.Data.Prod.Lex

/-! Threads that take mutexes and wait for calls. A call starts a thread for each
of its programs and waits until so many of them have ended. Where the operations of
every program go up in rank, all threads come to an end, in whatever order they run. -/

namespace LockOrder

open KeyValueStore

inductive Op (μ π : Type*)
  | lock (m : μ)
  | unlock (m : μ)
  | call (kids : List π) (need : ℕ)

/-- The call that a thread waits for, whose threads are numbered from `first` on. -/
structure Wait (π : Type*) where
  first : ℕ
  kids : List π
  need : ℕ

structure Thread (μ π : Type*) where
  prog : π
  todo : List (Op μ π)
  waits : Option (Wait π)

structure Threads (μ π : Type*) where
  threads : List (Thread μ π)
  owner : μ → Option ℕ

inductive Act (π : Type*)
  | start (p : π)
  | run (i : ℕ)

variable {μ π : Type*}

def Thread.ended (th : Thread μ π) : Bool := th.todo.isEmpty && th.waits.isNone

namespace Threads

def init : Threads μ π := ⟨[], fun _ => none⟩

def Ended (s : Threads μ π) (i : ℕ) : Prop := ∃ th, s.threads[i]? = some th ∧ th.ended = true

instance (s : Threads μ π) (i : ℕ) : Decidable (s.Ended i) :=
  decidable_of_iff (s.threads[i]?.any Thread.ended = true) (Option.any_eq_true _ _)

/-- How many of the threads of a call have ended. -/
def answers (s : Threads μ π) (w : Wait π) : ℕ :=
  (List.range w.kids.length).countP (fun k => s.Ended (w.first + k))

def set (s : Threads μ π) (i : ℕ) (th : Thread μ π) : Threads μ π :=
  { s with threads := s.threads.set i th }

end Threads

section Step

variable [DecidableEq μ]

def runThread (code : π → List (Op μ π)) (s : Threads μ π) (i : ℕ) (th : Thread μ π) :
    Option (Threads μ π) :=
  match th.waits with
  | some w => if w.need ≤ s.answers w then some (s.set i { th with waits := none }) else none
  | none => match th.todo with
    | [] => none
    | .lock m :: ops =>
      if s.owner m = none then
        some { s.set i { th with todo := ops } with owner := Function.update s.owner m (some i) }
      else none
    | .unlock m :: ops =>
      if s.owner m = some i then
        some { s.set i { th with todo := ops } with owner := Function.update s.owner m none }
      else none
    | .call kids need :: ops =>
      some { s with
        threads := s.threads.set i { th with todo := ops, waits := some ⟨s.threads.length, kids, need⟩ } ++
          kids.map (fun p => ⟨p, code p, none⟩) }

/-- A mutex may only be unlocked by the thread that holds it. -/
def step (code : π → List (Op μ π)) (s : Threads μ π) : Act π → Option (Threads μ π)
  | .start p => some { s with threads := s.threads ++ [⟨p, code p, none⟩] }
  | .run i => s.threads[i]?.bind (runThread code s i)

end Step

section Ranked

variable [DecidableEq μ] {code : π → List (Op μ π)} {rank : Op μ π → ℕ} {held : List μ}
  {ops : List (Op μ π)}

/-- The operations go up in rank while mutexes are held, and the threads of a call
are not below it. -/
def Ranked (code : π → List (Op μ π)) (rank : Op μ π → ℕ) : List μ → List (Op μ π) → Prop
  | held, [] => held = []
  | held, .lock m :: ops =>
    (∀ h ∈ held, rank (.lock h) < rank (.lock m)) ∧ Ranked code rank (m :: held) ops
  | held, .unlock m :: ops => m ∈ held ∧ Ranked code rank (held.erase m) ops
  | held, .call kids need :: ops =>
    need ≤ kids.length ∧ (∀ h ∈ held, rank (.lock h) < rank (.call kids need)) ∧
      (∀ p ∈ kids, ∀ op ∈ code p, rank (.call kids need) ≤ rank op) ∧ Ranked code rank held ops

theorem Ranked.call_mem (h : Ranked code rank held ops) {kids : List π} {need : ℕ}
    (hm : .call kids need ∈ ops) :
    need ≤ kids.length ∧ ∀ p ∈ kids, ∀ op ∈ code p, rank (.call kids need) ≤ rank op := by
  induction ops generalizing held with
  | nil => simp at hm
  | cons op ops ih =>
    cases op with
    | lock m => exact ih h.2 (by simpa using hm)
    | unlock m => exact ih h.2 (by simpa using hm)
    | call kids' need' =>
      rcases List.mem_cons.mp hm with he | hm
      · cases he
        exact ⟨h.1, h.2.2.1⟩
      · exact ih h.2.2.2 hm

/-- Operations that may stand anywhere while these mutexes are held, and leave them held. -/
def Balanced (code : π → List (Op μ π)) (rank : Op μ π → ℕ) (held : List μ)
    (ops : List (Op μ π)) : Prop :=
  ∀ rest, Ranked code rank held rest → Ranked code rank held (ops ++ rest)

namespace Balanced

variable {ops' : List (Op μ π)}

theorem ranked (h : Balanced code rank [] ops) : Ranked code rank [] ops := by
  simpa using h [] rfl

theorem nil : Balanced code rank held [] := fun _ h => h

theorem append (h : Balanced code rank held ops) (h' : Balanced code rank held ops') :
    Balanced code rank held (ops ++ ops') := by
  intro rest hrest
  rw [List.append_assoc]
  exact h _ (h' rest hrest)

theorem flatMap {ι : Type*} {l : List ι} {f : ι → List (Op μ π)}
    (h : ∀ x ∈ l, Balanced code rank held (f x)) : Balanced code rank held (l.flatMap f) := by
  induction l with
  | nil => exact nil
  | cons x l ih =>
    rw [List.flatMap_cons]
    exact (h x List.mem_cons_self).append (ih (fun y hy => h y (List.mem_cons_of_mem _ hy)))

/-- A critical section. -/
theorem guarded {m : μ} (hrank : ∀ h ∈ held, rank (.lock h) < rank (.lock m))
    (h : Balanced code rank (m :: held) ops) :
    Balanced code rank held (.lock m :: ops ++ [.unlock m]) := by
  intro rest hrest
  rw [List.append_assoc]
  refine ⟨hrank, h _ ⟨List.mem_cons_self, ?_⟩⟩
  rwa [List.erase_cons_head]

theorem call {kids : List π} {need : ℕ} (hneed : need ≤ kids.length)
    (hrank : ∀ h ∈ held, rank (.lock h) < rank (.call kids need))
    (hkids : ∀ p ∈ kids, ∀ op ∈ code p, rank (.call kids need) ≤ rank op) :
    Balanced code rank held [.call kids need] :=
  fun _ hrest => ⟨hneed, hrank, hkids, hrest⟩

end Balanced

end Ranked

section Steps

variable [DecidableEq μ] {code : π → List (Op μ π)} {s t : Threads μ π}

/-- The outcomes of each action. -/
inductive Steps (code : π → List (Op μ π)) (s : Threads μ π) : Act π → Threads μ π → Prop
  | start {p : π} : Steps code s (.start p) { s with threads := s.threads ++ [⟨p, code p, none⟩] }
  | answered {i : ℕ} {th : Thread μ π} {w : Wait π} (hth : s.threads[i]? = some th)
      (hwaits : th.waits = some w) : Steps code s (.run i) (s.set i { th with waits := none })
  | lock {i : ℕ} {th : Thread μ π} {m : μ} {ops : List (Op μ π)} (hth : s.threads[i]? = some th)
      (hwaits : th.waits = none) (htodo : th.todo = .lock m :: ops) (hfree : s.owner m = none) :
      Steps code s (.run i)
        { s.set i { th with todo := ops } with owner := Function.update s.owner m (some i) }
  | unlock {i : ℕ} {th : Thread μ π} {m : μ} {ops : List (Op μ π)} (hth : s.threads[i]? = some th)
      (hwaits : th.waits = none) (htodo : th.todo = .unlock m :: ops)
      (hheld : s.owner m = some i) :
      Steps code s (.run i)
        { s.set i { th with todo := ops } with owner := Function.update s.owner m none }
  | call {i : ℕ} {th : Thread μ π} {kids : List π} {need : ℕ} {ops : List (Op μ π)}
      (hth : s.threads[i]? = some th) (hwaits : th.waits = none)
      (htodo : th.todo = .call kids need :: ops) :
      Steps code s (.run i) { s with
        threads := s.threads.set i { th with todo := ops, waits := some ⟨s.threads.length, kids, need⟩ } ++
          kids.map (fun p => ⟨p, code p, none⟩) }

theorem step_steps {a : Act π} (h : step code s a = some t) : Steps code s a t := by
  cases a with
  | start p =>
    obtain rfl := Option.some.inj h
    exact .start
  | run i =>
    obtain ⟨th, hth, h⟩ := Option.bind_eq_some_iff.mp h
    unfold runThread at h
    split at h
    next w hwaits =>
      split at h
      next =>
        obtain rfl := Option.some.inj h
        exact .answered hth hwaits
      next => cases h
    next hwaits =>
      split at h
      next => cases h
      next m ops htodo =>
        split at h
        next hfree =>
          obtain rfl := Option.some.inj h
          exact .lock hth hwaits htodo hfree
        next => cases h
      next m ops htodo =>
        split at h
        next hheld =>
          obtain rfl := Option.some.inj h
          exact .unlock hth hwaits htodo hheld
        next => cases h
      next kids need ops htodo =>
        obtain rfl := Option.some.inj h
        exact .call hth hwaits htodo

end Steps

section Moves

variable {code : π → List (Op μ π)} {s t : Threads μ π} {i : ℕ} {th : Thread μ π}

def SameProgs (s t : Threads μ π) : Prop :=
  ∀ (k : ℕ) (th : Thread μ π), s.threads[k]? = some th →
    ∃ th' : Thread μ π, t.threads[k]? = some th' ∧ th'.prog = th.prog

/-- What a step of one thread leaves: the thread as it is now, the others as they
were, and new ones. -/
structure Moves (code : π → List (Op μ π)) (s t : Threads μ π) (i : ℕ) (th : Thread μ π) :
    Prop where
  threads : ∃ new : List π,
    t.threads = s.threads.set i th ++ new.map (fun p => ⟨p, code p, none⟩)
  others : ∀ m j, j ≠ i → (t.owner m = some j ↔ s.owner m = some j)

theorem Moves.sameProgs {old : Thread μ π} (h : Moves code s t i th)
    (hi : s.threads[i]? = some old) (hprog : th.prog = old.prog) : SameProgs s t := by
  obtain ⟨new, hnew⟩ := h.threads
  intro k th' hk
  obtain ⟨hlt, he⟩ := List.getElem?_eq_some_iff.mp hk
  rw [hnew, List.getElem?_append_left (by simpa using hlt), List.getElem?_set]
  by_cases hik : i = k
  · subst hik
    obtain rfl := Option.some.inj (hi.symm.trans hk)
    exact ⟨th, by simp [hlt], hprog⟩
  · exact ⟨th', by simp [hik, hk], rfl⟩

end Moves

section Invariant

variable [DecidableEq μ] {code : π → List (Op μ π)} {rank : Op μ π → ℕ} {s t : Threads μ π}
  {i : ℕ} {th : Thread μ π}

/-- A thread holds what it locked and has not unlocked, and the threads it waits for
came after it. -/
structure Fits (code : π → List (Op μ π)) (rank : Op μ π → ℕ) (s : Threads μ π) (i : ℕ)
    (th : Thread μ π) : Prop where
  ranked : ∃ held, Ranked code rank held th.todo ∧ held.Nodup ∧
    (∀ m, m ∈ held ↔ s.owner m = some i) ∧
    ∀ w, th.waits = some w → ∀ h ∈ held, rank (.lock h) < rank (.call w.kids w.need)
  within : ∀ op ∈ th.todo, op ∈ code th.prog
  waits : ∀ w, th.waits = some w → i < w.first ∧ .call w.kids w.need ∈ code th.prog ∧
    ∀ k p, w.kids[k]? = some p → ∃ th', s.threads[w.first + k]? = some th' ∧ th'.prog = p

structure Inv (code : π → List (Op μ π)) (rank : Op μ π → ℕ) (s : Threads μ π) : Prop where
  fits : ∀ i th, s.threads[i]? = some th → Fits code rank s i th
  owners : ∀ m i, s.owner m = some i → i < s.threads.length

theorem inv_init : Inv code rank .init where
  fits := by simp [Threads.init]
  owners := by simp [Threads.init]

theorem Fits.mono (h : Fits code rank s i th) (hown : ∀ m, t.owner m = some i ↔ s.owner m = some i)
    (hprogs : SameProgs s t) : Fits code rank t i th where
  ranked := by
    obtain ⟨held, hranked, hnd, hheld, hwaits⟩ := h.ranked
    exact ⟨held, hranked, hnd, fun m => (hheld m).trans (hown m).symm, hwaits⟩
  within := h.within
  waits w hw := by
    obtain ⟨hlt, hm, hkids⟩ := h.waits w hw
    refine ⟨hlt, hm, fun k p hk => ?_⟩
    obtain ⟨th', hth', hp⟩ := hkids k p hk
    obtain ⟨th'', hth'', hp'⟩ := hprogs _ _ hth'
    exact ⟨th'', hth'', hp'.trans hp⟩

theorem fits_fresh (hcode : ∀ p, Ranked code rank [] (code p)) (p : π)
    (hown : ∀ m, s.owner m ≠ some i) : Fits code rank s i ⟨p, code p, none⟩ where
  ranked := ⟨[], hcode p, List.nodup_nil, fun m => by simp [hown m], by simp⟩
  within _ hop := hop
  waits := by simp

theorem Moves.inv (th : Thread μ π) {old : Thread μ π} (h : Moves code s t i th) (hinv : Inv code rank s)
    (hcode : ∀ p, Ranked code rank [] (code p)) (hi : s.threads[i]? = some old)
    (hprog : th.prog = old.prog) (hfits : Fits code rank t i th) : Inv code rank t := by
  obtain ⟨new, hnew⟩ := h.threads
  have hlt := (List.getElem?_eq_some_iff.mp hi).1
  have hprogs := h.sameProgs hi hprog
  have howners : ∀ m j, t.owner m = some j → j < s.threads.length := by
    intro m j hm
    by_cases hji : j = i
    · exact hji ▸ hlt
    · exact hinv.owners m j ((h.others m j hji).mp hm)
  refine ⟨fun j th' hj => ?_, fun m j hm => ?_⟩
  · rcases Nat.lt_or_ge j s.threads.length with hjs | hjs
    · rw [hnew, List.getElem?_append_left (by simpa using hjs), List.getElem?_set] at hj
      by_cases hij : i = j
      · subst hij
        simp only [if_true, hjs] at hj
        exact Option.some.inj hj ▸ hfits
      · rw [if_neg hij] at hj
        exact (hinv.fits j th' hj).mono (fun m => h.others m j (Ne.symm hij)) hprogs
    · rw [hnew, List.getElem?_append_right (by simpa using hjs), List.getElem?_map] at hj
      obtain ⟨p, _, rfl⟩ := Option.map_eq_some_iff.mp hj
      exact fits_fresh hcode p (fun m hm => absurd (howners m j hm) (Nat.not_lt_of_le hjs))
  · rw [hnew, List.length_append, List.length_set]
    exact Nat.lt_add_right _ (howners m j hm)

theorem Inv.start (h : Inv code rank s) (hcode : ∀ p, Ranked code rank [] (code p)) (p : π) :
    Inv code rank { s with threads := s.threads ++ [⟨p, code p, none⟩] } := by
  refine ⟨fun j th hj => ?_, fun m j hm => ?_⟩
  · rcases Nat.lt_or_ge j s.threads.length with hlt | hge
    · rw [List.getElem?_append_left hlt] at hj
      refine (h.fits j th hj).mono (fun _ => Iff.rfl) (fun k th' hk => ⟨th', ?_, rfl⟩)
      rw [List.getElem?_append_left (List.getElem?_eq_some_iff.mp hk).1]
      exact hk
    · rw [List.getElem?_append_right hge, List.getElem?_singleton] at hj
      simp only [Option.ite_none_right_eq_some, Option.some.injEq] at hj
      obtain ⟨_, rfl⟩ := hj
      exact fits_fresh hcode p (fun m hm => absurd (h.owners m j hm) (Nat.not_lt_of_le hge))
  · rw [List.length_append]
    exact Nat.lt_add_right _ (h.owners m j hm)

theorem Inv.preserved {a : Act π} (h : Inv code rank s) (hcode : ∀ p, Ranked code rank [] (code p))
    (hs : step code s a = some t) : Inv code rank t := by
  cases step_steps hs with
  | @start p => exact h.start hcode p
  | @answered i th w hth hwaits =>
    have hfits := h.fits i th hth
    have hmoves : Moves code s (s.set i { th with waits := none }) i { th with waits := none } :=
      ⟨⟨[], by simp [Threads.set]⟩, fun _ _ _ => Iff.rfl⟩
    refine hmoves.inv _ h hcode hth rfl ⟨?_, hfits.within, by simp⟩
    obtain ⟨held, hranked, hnd, hheld, _⟩ := hfits.ranked
    exact ⟨held, hranked, hnd, hheld, by simp⟩
  | @lock i th m ops hth hwaits htodo hfree =>
    have hfits := h.fits i th hth
    refine Moves.inv { th with todo := ops } ⟨⟨[], by simp [Threads.set]⟩, fun m' j hj => ?_⟩
      h hcode hth rfl ⟨?_, fun op hop => hfits.within op (by simp [htodo, hop]), by simp [hwaits]⟩
    · by_cases hm : m' = m
      · simp [hm, hfree, Ne.symm hj]
      · simp [Function.update, hm]
    · obtain ⟨held, hranked, hnd, hheld, _⟩ := hfits.ranked
      rw [htodo] at hranked
      have hnot : m ∉ held := fun hm => by simp [(hheld m).mp hm] at hfree
      refine ⟨m :: held, hranked.2, List.nodup_cons.mpr ⟨hnot, hnd⟩, fun m' => ?_, by simp [hwaits]⟩
      by_cases hm : m' = m
      · simp [hm]
      · simp [Function.update, hm, hheld]
  | @unlock i th m ops hth hwaits htodo howner =>
    have hfits := h.fits i th hth
    refine Moves.inv { th with todo := ops } ⟨⟨[], by simp [Threads.set]⟩, fun m' j hj => ?_⟩
      h hcode hth rfl ⟨?_, fun op hop => hfits.within op (by simp [htodo, hop]), by simp [hwaits]⟩
    · by_cases hm : m' = m
      · simp [hm, howner, Ne.symm hj]
      · simp [Function.update, hm]
    · obtain ⟨held, hranked, hnd, hheld, _⟩ := hfits.ranked
      rw [htodo] at hranked
      refine ⟨held.erase m, hranked.2, hnd.erase m, fun m' => ?_, by simp [hwaits]⟩
      rw [hnd.mem_erase_iff, hheld]
      by_cases hm : m' = m
      · simp [hm]
      · simp [Function.update, hm]
  | @call i th kids need ops hth hwaits htodo =>
    have hfits := h.fits i th hth
    refine Moves.inv
      { th with todo := ops, waits := some ⟨s.threads.length, kids, need⟩ }
      ⟨⟨kids, rfl⟩, fun _ _ _ => Iff.rfl⟩ h hcode hth rfl ⟨?_, ?_, ?_⟩
    · obtain ⟨held, hranked, hnd, hheld, _⟩ := hfits.ranked
      rw [htodo] at hranked
      exact ⟨held, hranked.2.2.2, hnd, hheld, fun w hw => by
        obtain rfl := Option.some.inj hw
        exact hranked.2.1⟩
    · exact fun op hop => hfits.within op (by simp [htodo, show op ∈ ops from hop])
    · intro w hw
      obtain rfl := Option.some.inj hw
      refine ⟨(List.getElem?_eq_some_iff.mp hth).1, hfits.within _ (by simp [htodo]),
        fun k p hk => ⟨⟨p, code p, none⟩, ?_, rfl⟩⟩
      rw [List.getElem?_append_right (by simp)]
      simp [hk]

theorem inv_of_reachable (hcode : ∀ p, Ranked code rank [] (code p))
    (h : Reachable (step code) .init s) : Inv code rank s :=
  h.invariant inv_init (fun _ _ _ _ hu _ hs => hu.preserved hcode hs)

end Invariant

section Progress

variable {code : π → List (Op μ π)} {rank : Op μ π → ℕ} {s : Threads μ π} {i : ℕ}
  {th : Thread μ π} {op : Op μ π}

/-- The operation that a thread is at. -/
def Thread.current (th : Thread μ π) : Option (Op μ π) :=
  match th.waits with
  | some w => some (.call w.kids w.need)
  | none => th.todo.head?

theorem current_eq_none : th.current = none ↔ th.ended = true := by
  obtain ⟨p, todo, waits⟩ := th
  cases waits <;> cases todo <;> simp [Thread.current, Thread.ended]

variable [DecidableEq μ]

theorem Fits.current_mem (h : Fits code rank s i th) (hop : th.current = some op) :
    op ∈ code th.prog := by
  unfold Thread.current at hop
  split at hop
  next w hw =>
    obtain rfl := Option.some.inj hop
    exact (h.waits w hw).2.1
  next => exact h.within op (List.mem_of_mem_head? hop)

/-- A thread that holds a mutex is at an operation of a higher rank, or can go on. -/
theorem Fits.above {m : μ} (h : Fits code rank s i th) (hi : s.threads[i]? = some th)
    (hm : s.owner m = some i) : (∃ t, step code s (.run i) = some t) ∨
      ∃ op, th.current = some op ∧ rank (.lock m) < rank op := by
  obtain ⟨held, hranked, _, hheld, hwait⟩ := h.ranked
  have hmem := (hheld m).mpr hm
  cases hw : th.waits with
  | some w => exact .inr ⟨.call w.kids w.need, by simp [Thread.current, hw], hwait w hw m hmem⟩
  | none =>
    cases htodo : th.todo with
    | nil =>
      rw [htodo] at hranked
      obtain rfl : held = [] := hranked
      cases hmem
    | cons op ops =>
      rw [htodo] at hranked
      cases op with
      | lock m' => exact .inr ⟨.lock m', by simp [Thread.current, hw, htodo], hranked.1 m hmem⟩
      | unlock m' =>
        left
        have howner := (hheld m').mp hranked.1
        simp [step, hi, runThread, hw, htodo, howner]
      | call kids need =>
        left
        simp [step, hi, runThread, hw, htodo]

/-- A thread that cannot go on waits for one that is further up, by rank or by age. -/
theorem Inv.blocked (h : Inv code rank s) (hcode : ∀ p, Ranked code rank [] (code p))
    (hi : s.threads[i]? = some th) (hop : th.current = some op) :
    (∃ j t, step code s (.run j) = some t) ∨
      ∃ j th' op', s.threads[j]? = some th' ∧ th'.current = some op' ∧
        (rank op < rank op' ∨ rank op ≤ rank op' ∧ i < j) := by
  have hfits := h.fits i th hi
  cases hw : th.waits with
  | some w =>
    obtain rfl : Op.call w.kids w.need = op := by simpa [Thread.current, hw] using hop
    obtain ⟨hlt, hmem, hkids⟩ := hfits.waits w hw
    obtain ⟨hneed, hbelow⟩ := (hcode th.prog).call_mem hmem
    by_cases hall : w.need ≤ s.answers w
    · left
      exact ⟨i, by simp [step, hi, runThread, hw, hall]⟩
    · right
      obtain ⟨k, hk, hrun⟩ : ∃ k < w.kids.length, ¬ s.Ended (w.first + k) := by
        by_contra hno
        have hcount : s.answers w = (List.range w.kids.length).length :=
          List.countP_eq_length.mpr (fun k hk => by
            simpa using not_not.mp (fun he => hno ⟨k, List.mem_range.mp hk, he⟩))
        rw [List.length_range] at hcount
        exact hall (hcount ▸ hneed)
      obtain ⟨th', hth', hprog⟩ := hkids k _ (List.getElem?_eq_getElem hk)
      cases hop' : th'.current with
      | none => exact absurd ⟨th', hth', current_eq_none.mp hop'⟩ hrun
      | some op' =>
        refine ⟨w.first + k, th', op', hth', hop', .inr ⟨?_, by omega⟩⟩
        have hmem' := (h.fits _ th' hth').current_mem hop'
        rw [hprog] at hmem'
        exact hbelow _ (List.getElem_mem hk) op' hmem'
  | none =>
    cases htodo : th.todo with
    | nil => simp [Thread.current, hw, htodo] at hop
    | cons op₁ ops =>
      obtain rfl : op₁ = op := by simpa [Thread.current, hw, htodo] using hop
      cases op₁ with
      | lock m =>
        cases howner : s.owner m with
        | none => exact .inl ⟨i, by simp [step, hi, runThread, hw, htodo, howner]⟩
        | some j =>
          have hj := List.getElem?_eq_getElem (h.owners m j howner)
          rcases (h.fits j _ hj).above hj howner with ⟨t, ht⟩ | ⟨op', hop', hlt⟩
          · exact .inl ⟨j, t, ht⟩
          · exact .inr ⟨j, _, op', hj, hop', .inl hlt⟩
      | unlock m =>
        left
        obtain ⟨held, hranked, _, hheld, _⟩ := hfits.ranked
        rw [htodo] at hranked
        have howner := (hheld m).mp hranked.1
        exact ⟨i, by simp [step, hi, runThread, hw, htodo, howner]⟩
      | call kids need => exact .inl ⟨i, by simp [step, hi, runThread, hw, htodo]⟩

/-- While a thread has not ended, some thread can go on. -/
theorem Inv.not_stuck (h : Inv code rank s) (hcode : ∀ p, Ranked code rank [] (code p))
    (hi : s.threads[i]? = some th) (hrun : th.ended = false) :
    ∃ j t, step code s (.run j) = some t := by
  by_contra hstuck
  let at' : ℕ → Option (Op μ π) := fun j => s.threads[j]?.bind Thread.current
  let live := (Finset.range s.threads.length).filter (fun j => (at' j).isSome)
  have hlive : ∀ {j th' op'}, s.threads[j]? = some th' → th'.current = some op' →
      j ∈ live ∧ at' j = some op' := by
    intro j th' op' hj hop'
    have hat : at' j = some op' := by simp [at', hj, hop']
    exact ⟨by simp [live, hat, (List.getElem?_eq_some_iff.mp hj).1], hat⟩
  have hne : live.Nonempty := by
    cases hop : th.current with
    | none => simp [current_eq_none.mp hop] at hrun
    | some op => exact ⟨i, (hlive hi hop).1⟩
  obtain ⟨j, hj, hmax⟩ :=
    live.exists_max_image (fun j => toLex (((at' j).map rank).getD 0, j)) hne
  obtain ⟨op, hop⟩ := Option.isSome_iff_exists.mp (Finset.mem_filter.mp hj).2
  obtain ⟨th', hth', hcur⟩ := Option.bind_eq_some_iff.mp hop
  rcases h.blocked hcode hth' hcur with hgo | ⟨k, th'', op', hth'', hcur', hup⟩
  · exact hstuck hgo
  · obtain ⟨hk, hat⟩ := hlive hth'' hcur'
    have hle := hmax k hk
    simp only [hop, hat, Option.map_some, Option.getD_some, Prod.Lex.toLex_le_toLex] at hle
    omega

end Progress

section Work

variable {code : π → List (Op μ π)} {cost cost' : π → ℕ} {depth : π → ℕ}

/-- The steps that an operation takes, with those of the threads it starts. -/
def Op.steps (cost : π → ℕ) : Op μ π → ℕ
  | .lock _ | .unlock _ => 1
  | .call kids _ => 2 + (kids.map cost).sum

def opsSteps (cost : π → ℕ) (ops : List (Op μ π)) : ℕ := (ops.map (Op.steps cost)).sum

/-- What the programs cost when calls are followed `d` deep. -/
def costAt (code : π → List (Op μ π)) : ℕ → π → ℕ
  | 0, _ => 0
  | d + 1, p => opsSteps (costAt code d) (code p)

/-- Every program calls only such as are less deep. -/
def Deep (code : π → List (Op μ π)) (depth : π → ℕ) : Prop :=
  ∀ p kids need, .call kids need ∈ code p → ∀ q ∈ kids, depth q < depth p

def progCost (code : π → List (Op μ π)) (depth : π → ℕ) (p : π) : ℕ := costAt code (depth p + 1) p

theorem opsSteps_congr {ops : List (Op μ π)}
    (h : ∀ kids need, .call kids need ∈ ops → ∀ q ∈ kids, cost q = cost' q) :
    opsSteps cost ops = opsSteps cost' ops := by
  refine congrArg List.sum (List.map_congr_left (fun op hop => ?_))
  cases op with
  | lock | unlock => rfl
  | call kids need =>
    simp only [Op.steps]
    rw [List.map_congr_left (fun q hq => h kids need hop q hq)]

theorem Deep.costAt_eq (h : Deep code depth) {d : ℕ} {p : π} (hd : depth p < d) :
    costAt code d p = progCost code depth p := by
  induction d using Nat.strongRecOn generalizing p with
  | ind d ih =>
    obtain ⟨d, rfl⟩ := Nat.exists_eq_add_of_lt (Nat.zero_lt_of_lt hd)
    simp only [progCost, costAt, Nat.zero_add]
    refine opsSteps_congr (fun kids need hm q hq => ?_)
    have hlt := h p kids need hm q hq
    by_cases heq : depth p = d
    · rw [heq]
    · rw [ih d (by omega) (by omega), ← ih (depth p) (by omega) hlt]

theorem Deep.opsSteps_code (h : Deep code depth) (p : π) :
    opsSteps (progCost code depth) (code p) = progCost code depth p :=
  opsSteps_congr (fun kids need hm q hq => (h.costAt_eq (h p kids need hm q hq)).symm)

def Thread.steps (cost : π → ℕ) (th : Thread μ π) : ℕ :=
  opsSteps cost th.todo + if th.waits.isSome then 1 else 0

/-- The steps that all threads still take. -/
def Threads.work (cost : π → ℕ) (s : Threads μ π) : ℕ := (s.threads.map (Thread.steps cost)).sum

theorem sum_set (cost : π → ℕ) (th : Thread μ π) {l : List (Thread μ π)} {i : ℕ} {old : Thread μ π}
    (hi : l[i]? = some old) :
    ((l.set i th).map (Thread.steps cost)).sum + old.steps cost =
      (l.map (Thread.steps cost)).sum + th.steps cost := by
  induction l generalizing i with
  | nil => simp at hi
  | cons x l ih =>
    cases i with
    | zero =>
      obtain rfl : x = old := by simpa using hi
      simp only [List.set_cons_zero, List.map_cons, List.sum_cons]
      omega
    | succ i =>
      have hrest := ih (i := i) (by simpa using hi)
      simp only [List.set_cons_succ, List.map_cons, List.sum_cons]
      omega

variable {rank : Op μ π → ℕ} {s t : Threads μ π} {i : ℕ}

/-- A step that leaves its thread with less to do, the threads it starts included. -/
theorem work_lt_of_set {old th : Thread μ π} {new : List (Thread μ π)}
    (hi : s.threads[i]? = some old) (ht : t.threads = s.threads.set i th ++ new)
    (hlt : th.steps cost + (new.map (Thread.steps cost)).sum < old.steps cost) :
    t.work cost < s.work cost := by
  have hsum := sum_set cost th hi
  rw [Threads.work, Threads.work, ht, List.map_append, List.sum_append]
  omega

variable [DecidableEq μ]

theorem work_lt (hdeep : Deep code depth) (h : step code s (.run i) = some t) :
    t.work (progCost code depth) < s.work (progCost code depth) := by
  cases step_steps h with
  | answered hth hwaits =>
    refine work_lt_of_set hth (List.append_nil _).symm ?_
    simp [Thread.steps, hwaits]
  | lock hth hwaits htodo | unlock hth hwaits htodo =>
    refine work_lt_of_set hth (List.append_nil _).symm ?_
    simp [Thread.steps, htodo, opsSteps, Op.steps]
  | @call _ th kids need ops hth hwaits htodo =>
    refine work_lt_of_set hth rfl ?_
    have hkids : (kids.map (fun p => Thread.steps (progCost code depth)
        (⟨p, code p, none⟩ : Thread μ π))).sum = (kids.map (progCost code depth)).sum := by
      refine congrArg List.sum (List.map_congr_left (fun p _ => ?_))
      simp [Thread.steps, hdeep.opsSteps_code]
    rw [List.map_map, Function.comp_def, hkids]
    simp only [Thread.steps, htodo, hwaits, opsSteps, List.map_cons, List.sum_cons, Op.steps,
      Option.isSome_some, Option.isSome_none, if_true]
    simp
    omega

/-- All threads have ended and no mutex is held. -/
def Threads.Settled (s : Threads μ π) : Prop :=
  (∀ th ∈ s.threads, th.ended = true) ∧ ∀ m, s.owner m = none

theorem Inv.settled (h : Inv code rank s) (hall : ∀ th ∈ s.threads, th.ended = true) :
    s.Settled := by
  refine ⟨hall, fun m => ?_⟩
  cases howner : s.owner m with
  | none => rfl
  | some i =>
    have hi := List.getElem?_eq_getElem (h.owners m i howner)
    obtain ⟨held, hranked, _, hheld, _⟩ := (h.fits i _ hi).ranked
    have hend := hall _ (List.mem_of_getElem? hi)
    simp only [Thread.ended, Bool.and_eq_true, List.isEmpty_iff] at hend
    rw [hend.1] at hranked
    obtain rfl : held = [] := hranked
    exact absurd ((hheld m).mpr howner) List.not_mem_nil

theorem Inv.settled_or_step (h : Inv code rank s) (hcode : ∀ p, Ranked code rank [] (code p)) :
    s.Settled ∨ ∃ i t, step code s (.run i) = some t := by
  by_cases hall : ∀ th ∈ s.threads, th.ended = true
  · exact .inl (h.settled hall)
  · right
    obtain ⟨th, hth⟩ := not_forall.mp hall
    obtain ⟨hm, hrun⟩ := Classical.not_imp.mp hth
    obtain ⟨i, hi⟩ := List.getElem?_of_mem hm
    exact h.not_stuck hcode hi (by simpa using hrun)

/-- In whatever order its threads go on, a reachable state has only so many steps left,
and until all threads have ended and no mutex is held some thread can go on. -/
theorem settles (hcode : ∀ p, Ranked code rank [] (code p)) (hdeep : Deep code depth)
    (h : Reachable (step code) .init s) (order : List ℕ)
    (hrun : runActions (step code) s (order.map .run) = some t) :
    order.length + t.work (progCost code depth) ≤ s.work (progCost code depth) ∧
      (t.Settled ∨ ∃ i u, step code t (.run i) = some u) := by
  induction order generalizing s with
  | nil =>
    obtain rfl := Option.some.inj hrun
    exact ⟨by simp, (inv_of_reachable hcode h).settled_or_step hcode⟩
  | cons i order ih =>
    obtain ⟨u, hu, hrest⟩ := Option.bind_eq_some_iff.mp hrun
    obtain ⟨hle, hend⟩ := ih (h.tail ⟨.run i, trivial, hu⟩) hrest
    have hlt := work_lt hdeep hu
    refine ⟨?_, hend⟩
    rw [List.length_cons]
    omega

end Work

end LockOrder
