import Mathlib.Logic.Relation
import Mathlib.Data.Nat.Notation
import Mathlib.Order.Nat
import Mathlib.Tactic.Common

/-! Causal memory: every process sees all writes and its own reads in an order that
respects what could influence what. Sites that show the writes in causal order
implement it. -/

namespace CausalMemory

/-- An operation of a process on a location, a read with the value that it returned. -/
inductive Op (π κ α : Type*)
  | write (p : π) (k : κ) (v : α)
  | read (p : π) (k : κ) (v : α)
  deriving DecidableEq

def Op.process {π κ α : Type*} : Op π κ α → π
  | write p _ _ => p
  | read p _ _ => p

/-- The operation that is executed at a time, if one is. -/
abbrev History (π κ α : Type*) := ℕ → Option (Op π κ α)

section Spec

variable {π κ α : Type*}

def Writes (h : History π κ α) (i : ℕ) (k : κ) : Prop := ∃ p v, h i = some (.write p k v)

/-- Program order, and a read after the write that it reads from. -/
inductive Influences (h : History π κ α) (source : ℕ → Option ℕ) (i j : ℕ) : Prop
  | program {a b : Op π κ α} (hi : h i = some a) (hj : h j = some b) (hp : a.process = b.process)
      (hlt : i < j)
  | reads (hj : source j = some i)

def CausalOrder (h : History π κ α) (source : ℕ → Option ℕ) : ℕ → ℕ → Prop :=
  Relation.TransGen (Influences h source)

def Sees (h : History π κ α) (p : π) (i : ℕ) : Prop :=
  (∃ k, Writes h i k) ∨ ∃ k v, h i = some (.read p k v)

/-- The read at `j` returns what the last write before it wrote. -/
def ReadsLast (h : History π κ α) (initial : α) (rank : ℕ → ℕ) (j : ℕ) (k : κ) (v : α) :
    Option ℕ → Prop
  | none => v = initial ∧ ∀ i, Writes h i k → rank j < rank i
  | some i => (∃ p, h i = some (.write p k v)) ∧ rank i < rank j ∧
      ∀ i', Writes h i' k → rank i' ≤ rank i ∨ rank j < rank i'

/-- The order in which a process sees what it sees. -/
structure Serializes (h : History π κ α) (initial : α) (source : ℕ → Option ℕ) (p : π)
    (rank : ℕ → ℕ) : Prop where
  inj : ∀ i j, Sees h p i → Sees h p j → rank i = rank j → i = j
  causal : ∀ i j, Sees h p i → Sees h p j → CausalOrder h source i j → rank i < rank j
  reads : ∀ j k v, h j = some (.read p k v) → ReadsLast h initial rank j k v (source j)

def IsCausal (h : History π κ α) (initial : α) : Prop :=
  ∃ source, ∀ p, ∃ rank, Serializes h initial source p rank

variable {h : History π κ α} {initial : α} {source : ℕ → Option ℕ} {rank : ℕ → ℕ} {j : ℕ} {p : π}
  {k : κ} {v : α}

theorem Serializes.source_of_read (hs : Serializes h initial source p rank)
    (hj : h j = some (.read p k v)) (hv : v ≠ initial) :
    ∃ i q, source j = some i ∧ h i = some (.write q k v) := by
  have hread := hs.reads j k v hj
  cases hi : source j with
  | none =>
    rw [hi] at hread
    exact absurd hread.1 hv
  | some i =>
    rw [hi] at hread
    obtain ⟨⟨q, hw⟩, _⟩ := hread
    exact ⟨i, q, rfl, hw⟩

end Spec

section Sites

variable {π κ α σ : Type*} {h : History π κ α} {initial : α} {site : π → σ}
  {shown : σ → ℕ → ℕ → Prop} {bound i j w t u : ℕ} {s : σ} {p q : π} {k : κ} {v : α}

/-- The read at `j` returns what was written at `i`, the last that its site showed. -/
def ReadsShown (h : History π κ α) (site : π → σ) (shown : σ → ℕ → ℕ → Prop) (j i : ℕ) : Prop :=
  ∃ p k v, h j = some (.read p k v) ∧ (∃ q, h i = some (.write q k v)) ∧
    ∃ t < j, shown (site p) i t ∧
      ∀ i' t', Writes h i' k → shown (site p) i' t' → t' < j → t' ≤ t

/-- Processes work at sites. A write is shown at the site of its process at once and
at the others when it arrives; `shown s w t` says that site `s` shows at time `t` what
was written at time `w`. -/
structure Shows (h : History π κ α) (initial : α) (site : π → σ) (shown : σ → ℕ → ℕ → Prop)
    (bound : ℕ) : Prop where
  op_lt : ∀ i a, h i = some a → i < bound
  shown_lt : ∀ s w t, shown s w t → t < bound
  once : ∀ s w t t', shown s w t → shown s w t' → t = t'
  single : ∀ s w w' t, shown s w t → shown s w' t → w = w'
  written : ∀ s w t, shown s w t → w ≤ t ∧ ∃ k, Writes h w k
  arrives : ∀ s w t, shown s w t → w ≠ t → h t = none
  own : ∀ w p k v, h w = some (.write p k v) → shown (site p) w w
  causal : ∀ s w w' t t' p k v, h w = some (.write p k v) → shown (site p) w' t' → t' < w →
    shown s w t → ∃ u < t, shown s w' u
  reads : ∀ j p k v, h j = some (.read p k v) → (∃ i, ReadsShown h site shown j i) ∨
    v = initial ∧ ∀ i t, Writes h i k → shown (site p) i t → j < t

open Classical in
noncomputable def sourceOf (h : History π κ α) (site : π → σ) (shown : σ → ℕ → ℕ → Prop) (j : ℕ) :
    Option ℕ :=
  if hj : ∃ i, ReadsShown h site shown j i then some hj.choose else none

open Classical in
/-- The writes in the order in which a site shows them, then all others as they were
executed, and the reads when they happen. -/
noncomputable def rankAt (h : History π κ α) (shown : σ → ℕ → ℕ → Prop) (bound : ℕ) (s : σ)
    (i : ℕ) : ℕ :=
  if hi : ∃ t, shown s i t then hi.choose else if ∃ k, Writes h i k then bound + i else i

theorem readsShown_of_source (hs : sourceOf h site shown j = some i) :
    ReadsShown h site shown j i := by
  unfold sourceOf at hs
  split at hs
  next hj => exact Option.some.inj hs ▸ hj.choose_spec
  next => cases hs

theorem not_readsShown_of_source (hs : sourceOf h site shown j = none) :
    ¬ ∃ i, ReadsShown h site shown j i := by
  unfold sourceOf at hs
  split at hs
  next => cases hs
  next hj => exact hj

theorem not_writes_of_read (hj : h j = some (.read p k v)) {k' : κ} : ¬ Writes h j k' := by
  rintro ⟨q, w, hw⟩
  cases hj.symm.trans hw

theorem rank_unshown (hi : ∀ t, ¬ shown s i t) (hw : Writes h i k) :
    rankAt h shown bound s i = bound + i := by
  rw [rankAt, dif_neg (not_exists.mpr hi), if_pos ⟨k, hw⟩]

/-- A read influences others only through later writes of its process. -/
theorem of_read (hi : h i = some (.read p k v))
    (hc : CausalOrder h (sourceOf h site shown) i j) :
    (∃ b, h j = some b ∧ b.process = p ∧ i < j) ∨ ∃ w k v, h w = some (.write p k v) ∧ i < w ∧
      (w = j ∨ CausalOrder h (sourceOf h site shown) w j) := by
  induction hc with
  | single he =>
    cases he with
    | program hi' hj hp hlt =>
      cases hi'.symm.trans hi
      exact .inl ⟨_, hj, hp.symm, hlt⟩
    | reads hsource =>
      obtain ⟨_, _, _, _, ⟨q, hwrite⟩, _⟩ := readsShown_of_source hsource
      cases hwrite.symm.trans hi
  | @tail c d _ he ih =>
    rcases ih with ⟨b, hb, hp, hlt⟩ | ⟨w, k', v', hw, hlt, hrest⟩
    · cases he with
      | program hi' hj hp' hlt' =>
        cases hi'.symm.trans hb
        exact .inl ⟨_, hj, hp' ▸ hp, hlt.trans hlt'⟩
      | reads hsource =>
        obtain ⟨_, _, _, _, ⟨q, hwrite⟩, _⟩ := readsShown_of_source hsource
        cases hwrite.symm.trans hb
        obtain rfl : q = p := hp
        exact .inr ⟨c, _, _, hwrite, hlt, .inr (.single (.reads hsource))⟩
    · refine .inr ⟨w, k', v', hw, hlt, .inr ?_⟩
      rcases hrest with rfl | hrest
      · exact .single he
      · exact hrest.tail he

namespace Shows

variable (H : Shows h initial site shown bound)

include H

theorem rank_shown (hi : shown s i t) : rankAt h shown bound s i = t := by
  have hex : ∃ t, shown s i t := ⟨t, hi⟩
  rw [rankAt, dif_pos hex]
  exact H.once s i _ _ hex.choose_spec hi

theorem rank_read (hi : h i = some (.read p k v)) : rankAt h shown bound s i = i := by
  have hno : ¬ ∃ k, Writes h i k := fun ⟨k, hk⟩ => not_writes_of_read hi hk
  rw [rankAt, dif_neg (fun ⟨t, ht⟩ => hno (H.written s i t ht).2), if_neg hno]

theorem rank_write_cases (s : σ) (hw : Writes h i k) :
    (∃ t, shown s i t ∧ rankAt h shown bound s i = t) ∨
      (∀ t, ¬ shown s i t) ∧ rankAt h shown bound s i = bound + i := by
  by_cases hs : ∃ t, shown s i t
  · obtain ⟨t, ht⟩ := hs
    exact .inl ⟨t, ht, H.rank_shown ht⟩
  · have hno := not_exists.mp hs
    exact .inr ⟨hno, rank_unshown hno hw⟩

/-- What is causally before an operation is shown at its site before it. -/
theorem shown_before {b : Op π κ α} (hc : CausalOrder h (sourceOf h site shown) w j)
    (hw : Writes h w k) (hj : h j = some b) : ∃ u < j, shown (site b.process) w u := by
  obtain ⟨q, v, hw⟩ := hw
  induction hc generalizing b with
  | single he =>
    cases he with
    | program hi hj' hp hlt =>
      cases hi.symm.trans hw
      cases hj'.symm.trans hj
      exact ⟨w, hlt, hp ▸ H.own w q k v hw⟩
    | reads hsource =>
      obtain ⟨p, k, v, hread, _, t, ht, hshown, _⟩ := readsShown_of_source hsource
      cases hread.symm.trans hj
      exact ⟨t, ht, hshown⟩
  | tail _ he ih =>
    cases he with
    | program hi hj' hp hlt =>
      cases hj'.symm.trans hj
      obtain ⟨u, hu, hshown⟩ := ih hi
      exact ⟨u, hu.trans hlt, hp ▸ hshown⟩
    | reads hsource =>
      obtain ⟨p, k, v, hread, ⟨q', hwrite⟩, t, ht, hshown, _⟩ := readsShown_of_source hsource
      cases hread.symm.trans hj
      obtain ⟨u, hu, hseen⟩ := ih hwrite
      obtain ⟨u', hu', hseen'⟩ := H.causal _ _ _ _ _ _ _ _ hwrite hseen hu hshown
      exact ⟨u', hu'.trans ht, hseen'⟩

theorem rank_lt_of_write (hi : Writes h i k) (hj : Sees h p j)
    (hc : CausalOrder h (sourceOf h site shown) i j) :
    rankAt h shown bound (site p) i < rankAt h shown bound (site p) j := by
  rcases hj with ⟨k', hw⟩ | ⟨k', v', hread⟩
  · obtain ⟨q, v', hwj⟩ := id hw
    obtain ⟨u, hu, hseen⟩ := H.shown_before hc hi hwj
    rcases H.rank_write_cases (site p) hw with ⟨t, ht, hrank⟩ | ⟨hno, hrank⟩
    · obtain ⟨u', hu', hseen'⟩ := H.causal _ _ _ _ _ _ _ _ hwj hseen hu ht
      rw [hrank, H.rank_shown hseen']
      exact hu'
    · have hle := (H.written _ _ _ hseen).1
      rcases H.rank_write_cases (site p) hi with ⟨t, ht, hrank'⟩ | ⟨_, hrank'⟩
      · have hlt := H.shown_lt _ _ _ ht
        omega
      · omega
  · obtain ⟨u, hu, hseen⟩ := H.shown_before hc hi hread
    have hseen : shown (site p) i u := hseen
    rw [H.rank_shown hseen, H.rank_read hread]
    exact hu

theorem rank_lt (hi : Sees h p i) (hj : Sees h p j)
    (hc : CausalOrder h (sourceOf h site shown) i j) :
    rankAt h shown bound (site p) i < rankAt h shown bound (site p) j := by
  rcases hi with ⟨k, hw⟩ | ⟨k, v, hread⟩
  · exact H.rank_lt_of_write hw hj hc
  rw [H.rank_read hread]
  have hown : ∀ {w k v}, h w = some (.write p k v) → rankAt h shown bound (site p) w = w :=
    fun hw => H.rank_shown (H.own _ _ _ _ hw)
  rcases of_read hread hc with ⟨b, hb, hp, hlt⟩ | ⟨w, k', v', hw, hlt, hrest⟩
  · cases b with
    | write q k' v' =>
      obtain rfl : q = p := hp
      rwa [hown hb]
    | read q k' v' =>
      obtain rfl : q = p := hp
      rwa [H.rank_read hb]
  · rcases hrest with rfl | hrest
    · rwa [hown hw]
    · have hstep := H.rank_lt_of_write ⟨p, v', hw⟩ hj hrest
      rw [hown hw] at hstep
      exact hlt.trans hstep

theorem rank_ne_read (hi : Writes h i k) {k' : κ} (hj : h j = some (.read p k' v)) :
    rankAt h shown bound s i ≠ j := by
  intro he
  rcases H.rank_write_cases s hi with ⟨t, ht, hrank⟩ | ⟨_, hrank⟩
  · obtain rfl : t = j := hrank.symm.trans he
    by_cases hit : i = t
    · exact not_writes_of_read hj (hit ▸ hi)
    · cases hj.symm.trans (H.arrives s i t ht hit)
  · have hlt := H.op_lt j _ hj
    omega

theorem rank_inj (hi : Sees h p i) (hj : Sees h p j)
    (he : rankAt h shown bound s i = rankAt h shown bound s j) : i = j := by
  rcases hi with ⟨k, hw⟩ | ⟨k, v, hread⟩
  · rcases hj with ⟨k', hw'⟩ | ⟨k', v', hread'⟩
    · rcases H.rank_write_cases s hw with ⟨t, ht, hrank⟩ | ⟨_, hrank⟩ <;>
        rcases H.rank_write_cases s hw' with ⟨t', ht', hrank'⟩ | ⟨_, hrank'⟩
      · obtain rfl : t = t' := hrank.symm.trans (he.trans hrank')
        exact H.single s i j t ht ht'
      · have hlt := H.shown_lt s i t ht
        omega
      · have hlt := H.shown_lt s j t' ht'
        omega
      · omega
    · exact absurd (he.trans (H.rank_read hread')) (H.rank_ne_read hw hread')
  · rcases hj with ⟨k', hw'⟩ | ⟨k', v', hread'⟩
    · exact absurd (he.symm.trans (H.rank_read hread)) (H.rank_ne_read hw' hread)
    · rwa [H.rank_read hread, H.rank_read hread'] at he

theorem readsLast (hj : h j = some (.read p k v)) :
    ReadsLast h initial (rankAt h shown bound (site p)) j k v (sourceOf h site shown j) := by
  have hrank : rankAt h shown bound (site p) j = j := H.rank_read hj
  have hlt := H.op_lt j _ hj
  cases hsource : sourceOf h site shown j with
  | none =>
    obtain ⟨hv, hall⟩ := (H.reads j p k v hj).resolve_left (not_readsShown_of_source hsource)
    refine ⟨hv, fun i hi => ?_⟩
    rcases H.rank_write_cases (site p) hi with ⟨t, ht, hranki⟩ | ⟨_, hranki⟩
    · have hjt := hall i t hi ht
      omega
    · omega
  | some i =>
    obtain ⟨p', k', v', hread, hwrite, t, ht, hshown, hlast⟩ := readsShown_of_source hsource
    cases hread.symm.trans hj
    have hranki := H.rank_shown hshown
    refine ⟨hwrite, by omega, fun i' hi' => ?_⟩
    have hne : rankAt h shown bound (site p) i' ≠ j := H.rank_ne_read hi' hj
    rcases H.rank_write_cases (site p) hi' with ⟨t', ht', hrank'⟩ | ⟨_, hrank'⟩
    · by_cases hlt' : t' < j
      · exact .inl (hrank'.trans_le ((hlast i' t' hi' ht' hlt').trans hranki.ge))
      · exact .inr (by omega)
    · exact .inr (by omega)

theorem isCausal : IsCausal h initial :=
  ⟨sourceOf h site shown, fun p => ⟨rankAt h shown bound (site p),
    fun _ _ hi hj he => H.rank_inj hi hj he, fun _ _ hi hj hc => H.rank_lt hi hj hc,
    fun _ _ _ hj => H.readsLast hj⟩⟩

end Shows

end Sites

end CausalMemory
