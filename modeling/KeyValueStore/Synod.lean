import Mathlib.Data.Finset.Basic
import Mathlib.Logic.Relation
import Mathlib.Order.Defs.LinearOrder

/-! The single-decree synod over arbitrary acceptors, rounds, ballots and values.
The state is the history of what was promised, proposed and voted. Ballots need
not be unique to a round: an acceptor promises a ballot at most once, and that
already keeps two rounds from proposing under one ballot. -/

namespace KeyValueStore

@[ext] structure Synod (α ρ β ν : Type*) where
  promise : α → β → ρ → Option (β × ν) → Prop
  proposed : β → ρ → ν → Prop
  vote : α → β → ν → Prop

namespace Synod

variable {α ρ β ν : Type*}

def empty : Synod α ρ β ν := ⟨fun _ _ _ _ => False, fun _ _ _ => False, fun _ _ _ => False⟩

def addPromise (A : Synod α ρ β ν) (a : α) (b : β) (r : ρ) (last : Option (β × ν)) :
    Synod α ρ β ν :=
  { A with promise := fun a' b' r' l' =>
      A.promise a' b' r' l' ∨ (a' = a ∧ b' = b ∧ r' = r ∧ l' = last) }

def addProposal (A : Synod α ρ β ν) (b : β) (r : ρ) (v : ν) : Synod α ρ β ν :=
  { A with proposed := fun b' r' v' => A.proposed b' r' v' ∨ (b' = b ∧ r' = r ∧ v' = v) }

def addVote (A : Synod α ρ β ν) (a : α) (b : β) (v : ν) : Synod α ρ β ν :=
  { A with vote := fun a' b' v' => A.vote a' b' v' ∨ (a' = a ∧ b' = b ∧ v' = v) }

variable [LinearOrder β]

def Below (A : Synod α ρ β ν) (a : α) (b : β) : Prop :=
  (∀ c r l, A.promise a c r l → c < b) ∧ ∀ c v, A.vote a c v → c < b

def UpTo (A : Synod α ρ β ν) (a : α) (b : β) : Prop :=
  (∀ c r l, A.promise a c r l → c ≤ b) ∧ ∀ c v, A.vote a c v → c ≤ b

def LastVote (A : Synod α ρ β ν) (a : α) : Option (β × ν) → Prop
  | none => ∀ b v, ¬ A.vote a b v
  | some (b, v) => A.vote a b v ∧ ∀ c w, A.vote a c w → c ≤ b

/-- The acceptor's own record of its promise and of its last vote. -/
structure Tracks (A : Synod α ρ β ν) (a : α) (b : β) (last : Option (β × ν)) : Prop where
  upTo : A.UpTo a b
  lastVote : A.LastVote a last

theorem UpTo.below {A : Synod α ρ β ν} {a : α} {b c : β} (h : A.UpTo a b) (hc : b < c) :
    A.Below a c :=
  ⟨fun d r l hd => (h.1 d r l hd).trans_lt hc, fun d v hd => (h.2 d v hd).trans_lt hc⟩

section Tracks

variable {A : Synod α ρ β ν} {a a' : α} {b c : β} {r : ρ} {v : ν} {last l : Option (β × ν)}

theorem empty_tracks (a : α) (b : β) : (empty : Synod α ρ β ν).Tracks a b none where
  upTo := ⟨fun _ _ _ h => h.elim, fun _ _ h => h.elim⟩
  lastVote := fun _ _ h => h

theorem Tracks.addProposal (h : A.Tracks a b last) (c : β) (r : ρ) (v : ν) :
    (A.addProposal c r v).Tracks a b last := ⟨h.upTo, by cases last <;> exact h.lastVote⟩

theorem Tracks.addPromise_self (h : A.Tracks a b last) (hc : b ≤ c) (r : ρ)
    (l : Option (β × ν)) : (A.addPromise a c r l).Tracks a c last where
  upTo := by
    refine ⟨?_, fun d v hd => (h.upTo.2 d v hd).trans hc⟩
    rintro d r' l' (hd | ⟨_, rfl, _⟩)
    · exact (h.upTo.1 d r' l' hd).trans hc
    · exact le_rfl
  lastVote := by cases last <;> exact h.lastVote

theorem Tracks.addPromise_other (h : A.Tracks a b last) (ha : a ≠ a') (c : β) (r : ρ)
    (l : Option (β × ν)) : (A.addPromise a' c r l).Tracks a b last where
  upTo := by
    refine ⟨?_, h.upTo.2⟩
    rintro d r' l' (hd | ⟨he, _⟩)
    · exact h.upTo.1 d r' l' hd
    · exact absurd he ha
  lastVote := by cases last <;> exact h.lastVote

theorem Tracks.addVote_self (h : A.Tracks a b last) (hc : b ≤ c) (v : ν) :
    (A.addVote a c v).Tracks a c (some (c, v)) where
  upTo := by
    refine ⟨fun d r l hd => (h.upTo.1 d r l hd).trans hc, ?_⟩
    rintro d w (hd | ⟨_, rfl, _⟩)
    · exact (h.upTo.2 d w hd).trans hc
    · exact le_rfl
  lastVote := by
    refine ⟨.inr ⟨rfl, rfl, rfl⟩, ?_⟩
    rintro d w (hd | ⟨_, rfl, _⟩)
    · exact (h.upTo.2 d w hd).trans hc
    · exact le_rfl

theorem Tracks.addVote_other (h : A.Tracks a b last) (ha : a ≠ a') (c : β) (v : ν) :
    (A.addVote a' c v).Tracks a b last where
  upTo := by
    refine ⟨h.upTo.1, ?_⟩
    rintro d w (hd | ⟨he, _⟩)
    · exact h.upTo.2 d w hd
    · exact absurd he ha
  lastVote := by
    cases last with
    | none =>
      rintro d w (hd | ⟨he, _⟩)
      · exact h.lastVote d w hd
      · exact ha he
    | some p =>
      refine ⟨.inl h.lastVote.1, ?_⟩
      rintro d w (hd | ⟨he, _⟩)
      · exact h.lastVote.2 d w hd
      · exact absurd he ha

end Tracks

/-- A quorum promised the round, and the value is that of the highest vote
which the promises report, or free when they report none. -/
def Selects (A : Synod α ρ β ν) (q : Finset α) (b : β) (r : ρ) (v : ν) : Prop :=
  (∀ a ∈ q, ∃ l, A.promise a b r l) ∧
  ((∀ a ∈ q, A.promise a b r none) ∨
    ∃ c, (∃ a ∈ q, A.promise a b r (some (c, v))) ∧
      ∀ a ∈ q, ∀ d w, A.promise a b r (some (d, w)) → d ≤ c)

inductive Step (quorum : Finset α → Prop) : Synod α ρ β ν → Synod α ρ β ν → Prop
  | promise {A : Synod α ρ β ν} {a : α} {b : β} {last : Option (β × ν)} (r : ρ)
      (hb : A.Below a b) (hl : A.LastVote a last) : Step quorum A (A.addPromise a b r last)
  | propose {A : Synod α ρ β ν} {q : Finset α} {b : β} {r : ρ} {v : ν}
      (hnew : ∀ c w, ¬ A.proposed c r w) (hq : quorum q) (hs : A.Selects q b r v) :
      Step quorum A (A.addProposal b r v)
  | vote {A : Synod α ρ β ν} {a : α} {b : β} {r : ρ} {v : ν}
      (hp : A.proposed b r v) (hb : A.UpTo a b) : Step quorum A (A.addVote a b v)

abbrev Reachable (quorum : Finset α → Prop) : Synod α ρ β ν → Prop :=
  Relation.ReflTransGen (Step quorum) empty

/-- No other value can ever gather a quorum below the ballot: some quorum moved
past each lower ballot without voting for anything else there. -/
def SafeAt (quorum : Finset α → Prop) (A : Synod α ρ β ν) (b : β) (v : ν) : Prop :=
  ∀ c, c < b → ∃ q, quorum q ∧ ∀ a ∈ q,
    (∀ w, A.vote a c w → w = v) ∧ ∃ d r l, c < d ∧ A.promise a d r l

structure Inv (quorum : Finset α → Prop) (A : Synod α ρ β ν) : Prop where
  promise_unique : ∀ a b r l r' l', A.promise a b r l → A.promise a b r' l' → r = r' ∧ l = l'
  promise_vote : ∀ a b r c v, A.promise a b r (some (c, v)) → A.vote a c v ∧ c < b
  promise_last : ∀ a b r l c v, A.promise a b r l → A.vote a c v → c < b →
    ∃ d w, l = some (d, w) ∧ c ≤ d
  vote_proposed : ∀ a b v, A.vote a b v → ∃ r, A.proposed b r v
  proposed_round : ∀ b r v b' v', A.proposed b r v → A.proposed b' r v' → b = b' ∧ v = v'
  proposed_quorum : ∀ b r v, A.proposed b r v →
    ∃ q, quorum q ∧ ∀ a ∈ q, ∃ l, A.promise a b r l
  proposed_safe : ∀ b r v, A.proposed b r v → SafeAt quorum A b v

variable {quorum : Finset α → Prop}

theorem empty_inv : Inv quorum (empty : Synod α ρ β ν) := by
  constructor <;> intros <;> simp_all [empty]

theorem Inv.promise {A : Synod α ρ β ν} (h : Inv quorum A) {a : α} {b : β}
    {last : Option (β × ν)} (r : ρ) (hb : A.Below a b) (hl : A.LastVote a last) :
    Inv quorum (A.addPromise a b r last) where
  promise_unique := by
    rintro a' b' r₁ l₁ r₂ l₂ (h₁ | ⟨rfl, rfl, rfl, rfl⟩) (h₂ | ⟨ha, hb', rfl, rfl⟩)
    · exact h.promise_unique _ _ _ _ _ _ h₁ h₂
    · subst ha hb'
      exact absurd (hb.1 _ _ _ h₁) (lt_irrefl _)
    · exact absurd (hb.1 _ _ _ h₂) (lt_irrefl _)
    · exact ⟨rfl, rfl⟩
  promise_vote := by
    rintro a' b' r' c v (h₁ | ⟨rfl, rfl, rfl, rfl⟩)
    · exact h.promise_vote _ _ _ _ _ h₁
    · exact ⟨hl.1, hb.2 _ _ hl.1⟩
  promise_last := by
    rintro a' b' r' l c v (h₁ | ⟨rfl, rfl, rfl, rfl⟩) hv hc
    · exact h.promise_last _ _ _ _ _ _ h₁ hv hc
    · cases l with
      | none => exact absurd hv (hl c v)
      | some p => exact ⟨p.1, p.2, rfl, hl.2 _ _ hv⟩
  vote_proposed := h.vote_proposed
  proposed_round := h.proposed_round
  proposed_quorum := by
    intro b' r' v hp
    obtain ⟨q, hq, hall⟩ := h.proposed_quorum b' r' v hp
    exact ⟨q, hq, fun a' ha' => (hall a' ha').imp (fun _ hl' => .inl hl')⟩
  proposed_safe := by
    intro b' r' v hp c hc
    obtain ⟨q, hq, hall⟩ := h.proposed_safe b' r' v hp c hc
    refine ⟨q, hq, fun a' ha' => ⟨(hall a' ha').1, ?_⟩⟩
    obtain ⟨d, r'', l, hd, hpr⟩ := (hall a' ha').2
    exact ⟨d, r'', l, hd, .inl hpr⟩

theorem Inv.vote {A : Synod α ρ β ν} (h : Inv quorum A) {a : α} {b : β} {r : ρ} {v : ν}
    (hp : A.proposed b r v) (hb : A.UpTo a b) : Inv quorum (A.addVote a b v) where
  promise_unique := h.promise_unique
  promise_vote := fun a' b' r' c w hpr =>
    ⟨.inl (h.promise_vote a' b' r' c w hpr).1, (h.promise_vote a' b' r' c w hpr).2⟩
  promise_last := by
    rintro a' b' r' l c w hpr (hv | ⟨rfl, rfl, rfl⟩) hc
    · exact h.promise_last _ _ _ _ _ _ hpr hv hc
    · exact absurd hc (not_lt.mpr (hb.1 _ _ _ hpr))
  vote_proposed := by
    rintro a' b' w (hv | ⟨rfl, rfl, rfl⟩)
    · exact h.vote_proposed _ _ _ hv
    · exact ⟨r, hp⟩
  proposed_round := h.proposed_round
  proposed_quorum := h.proposed_quorum
  proposed_safe := by
    intro b' r' v' hp' c hc
    obtain ⟨q, hq, hall⟩ := h.proposed_safe b' r' v' hp' c hc
    refine ⟨q, hq, fun a' ha' => ⟨?_, (hall a' ha').2⟩⟩
    rintro w (hv | ⟨rfl, rfl, rfl⟩)
    · exact (hall a' ha').1 w hv
    · obtain ⟨d, _, _, hd, hpr⟩ := (hall a' ha').2
      exact absurd hd (not_lt.mpr (hb.1 _ _ _ hpr))

section Intersecting

variable (hinter : ∀ p q, quorum p → quorum q → ∃ a, a ∈ p ∧ a ∈ q)
include hinter

theorem Inv.proposed_unique {A : Synod α ρ β ν} (h : Inv quorum A) {b : β} {r r' : ρ} {v v' : ν}
    (hp : A.proposed b r v) (hp' : A.proposed b r' v') : v = v' := by
  obtain ⟨q, hq, hall⟩ := h.proposed_quorum b r v hp
  obtain ⟨q', hq', hall'⟩ := h.proposed_quorum b r' v' hp'
  obtain ⟨a, ha, ha'⟩ := hinter q q' hq hq'
  obtain ⟨l, hl⟩ := hall a ha
  obtain ⟨l', hl'⟩ := hall' a ha'
  obtain ⟨rfl, _⟩ := h.promise_unique a b r l r' l' hl hl'
  exact (h.proposed_round b r v b v' hp hp').2

/-- The value that a quorum of promises selects is safe: below the highest
reported vote by the safety of that vote, at it by uniqueness, and between it
and the ballot because no member of the quorum voted there. -/
theorem Inv.safeAt_of_selects {A : Synod α ρ β ν} (h : Inv quorum A) {q : Finset α} {b : β}
    {r : ρ} {v : ν} (hq : quorum q) (hs : A.Selects q b r v) : SafeAt quorum A b v := by
  intro c hc
  have hpast : ∀ a ∈ q, ∃ d r l, c < d ∧ A.promise a d r l := fun a ha =>
    (hs.1 a ha).elim (fun l hl => ⟨b, r, l, hc, hl⟩)
  rcases hs.2 with hnone | ⟨top, ⟨a₀, ha₀, hp₀⟩, htop⟩
  · refine ⟨q, hq, fun a ha => ⟨fun w hw => ?_, hpast a ha⟩⟩
    obtain ⟨d, w', he, _⟩ := h.promise_last _ _ _ _ _ _ (hnone a ha) hw hc
    cases he
  · obtain ⟨hv₀, _⟩ := h.promise_vote _ _ _ _ _ hp₀
    obtain ⟨r₀, hr₀⟩ := h.vote_proposed _ _ _ hv₀
    rcases lt_trichotomy c top with hlt | heq | hgt
    · exact h.proposed_safe _ _ _ hr₀ c hlt
    · subst heq
      refine ⟨q, hq, fun a ha => ⟨fun w hw => ?_, hpast a ha⟩⟩
      obtain ⟨r₁, hr₁⟩ := h.vote_proposed _ _ _ hw
      exact h.proposed_unique hinter hr₁ hr₀
    · refine ⟨q, hq, fun a ha => ⟨fun w hw => ?_, hpast a ha⟩⟩
      obtain ⟨l, hl⟩ := hs.1 a ha
      obtain ⟨d, w', rfl, hd⟩ := h.promise_last _ _ _ _ _ _ hl hw hc
      exact absurd (hgt.trans_le hd) (not_lt.mpr (htop a ha d w' hl))

theorem Inv.propose {A : Synod α ρ β ν} (h : Inv quorum A) {q : Finset α} {b : β} {r : ρ} {v : ν}
    (hnew : ∀ c w, ¬ A.proposed c r w) (hq : quorum q) (hs : A.Selects q b r v) :
    Inv quorum (A.addProposal b r v) where
  promise_unique := h.promise_unique
  promise_vote := h.promise_vote
  promise_last := h.promise_last
  vote_proposed := fun a b' w hv => (h.vote_proposed a b' w hv).imp (fun _ hr => .inl hr)
  proposed_round := by
    rintro b₁ r₁ v₁ b₂ v₂ (h₁ | ⟨rfl, rfl, rfl⟩) (h₂ | ⟨rfl, hr, rfl⟩)
    · exact h.proposed_round _ _ _ _ _ h₁ h₂
    · exact absurd (hr ▸ h₁) (hnew _ _)
    · exact absurd h₂ (hnew _ _)
    · exact ⟨rfl, rfl⟩
  proposed_quorum := by
    rintro b' r' v' (hp | ⟨rfl, rfl, rfl⟩)
    · exact h.proposed_quorum _ _ _ hp
    · exact ⟨q, hq, hs.1⟩
  proposed_safe := by
    rintro b' r' v' (hp | ⟨rfl, rfl, rfl⟩)
    · exact h.proposed_safe _ _ _ hp
    · exact h.safeAt_of_selects hinter hq hs

theorem Reachable.inv {A : Synod α ρ β ν} (h : Reachable quorum A) : Inv quorum A := by
  induction h with
  | refl => exact empty_inv
  | tail _ hstep ih =>
    cases hstep with
    | promise r hb hl => exact ih.promise r hb hl
    | propose hnew hq hs => exact ih.propose hinter hnew hq hs
    | vote hp hb => exact ih.vote hp hb

end Intersecting

def Chosen (quorum : Finset α → Prop) (A : Synod α ρ β ν) (b : β) (v : ν) : Prop :=
  ∃ q, quorum q ∧ ∀ a ∈ q, A.vote a b v

section Agreement

variable (hinter : ∀ p q, quorum p → quorum q → ∃ a, a ∈ p ∧ a ∈ q)
include hinter

/-- Nothing else is proposed at or above a ballot at which a value was chosen. -/
theorem Chosen.proposed_eq {A : Synod α ρ β ν} (h : Reachable quorum A) {b c : β} {r : ρ}
    {v w : ν} (hc : Chosen quorum A b v) (hp : A.proposed c r w) (hbc : b ≤ c) : w = v := by
  have hi := h.inv hinter
  obtain ⟨q, hq, hall⟩ := hc
  rcases hbc.lt_or_eq with hlt | rfl
  · obtain ⟨q', hq', hsafe⟩ := hi.proposed_safe c r w hp b hlt
    obtain ⟨a, ha, ha'⟩ := hinter q q' hq hq'
    exact ((hsafe a ha').1 v (hall a ha)).symm
  · obtain ⟨a, ha, _⟩ := hinter q q hq hq
    obtain ⟨r', hr'⟩ := hi.vote_proposed _ _ _ (hall a ha)
    exact hi.proposed_unique hinter hp hr'

theorem Chosen.vote_eq {A : Synod α ρ β ν} (h : Reachable quorum A) {a : α} {b c : β} {v w : ν}
    (hc : Chosen quorum A b v) (hv : A.vote a c w) (hbc : b ≤ c) : w = v := by
  obtain ⟨r, hr⟩ := (h.inv hinter).vote_proposed _ _ _ hv
  exact hc.proposed_eq hinter h hr hbc

theorem Chosen.agree {A : Synod α ρ β ν} (h : Reachable quorum A) {b c : β} {v w : ν}
    (hv : Chosen quorum A b v) (hw : Chosen quorum A c w) : v = w := by
  obtain ⟨q, hq, hall⟩ := id hv
  obtain ⟨p, hp, hall'⟩ := id hw
  obtain ⟨a, ha, _⟩ := hinter q q hq hq
  obtain ⟨a', ha', _⟩ := hinter p p hp hp
  rcases le_total b c with hle | hle
  · exact (hv.vote_eq hinter h (hall' a' ha') hle).symm
  · exact hw.vote_eq hinter h (hall a ha) hle

end Agreement

end Synod

end KeyValueStore
