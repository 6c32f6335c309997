import KeyValueStore.PaxosTraffic
import KeyValueStore.Quorum
import KeyValueStore.Synod

/-! Each slot of each key as a synod whose value is a command id: what the
history says was promised, sent in ACCEPT requests and accepted there. -/

namespace KeyValueStore

variable {n : ℕ} {s t : MpSystem n} {key : Bytes} {i : ℕ}

def idVote (last : Option (Proposal × Content)) : Option (Proposal × UInt32) :=
  last.map (fun v => (v.1, v.2.commandId))

/-- The slot of the key as the history tells it. -/
def synodOf (history : List (MpEvent n)) (key : Bytes) (i : ℕ) :
    Synod (Fin n) (Fin n × ℕ) Proposal UInt32 where
  promise a b r last := ∃ own byHandler, .promised a key i b r own byHandler ∈ history ∧
    last = idVote own
  proposed b r v := ∃ content, .sentAccept key i b r content ∈ history ∧ v = content.commandId
  vote a b v := ∃ cmd byHandler, .accepted a key i cmd byHandler ∈ history ∧
    b = cmd.acceptedProposal ∧ v = cmd.commandId

def MpEvent.Concerns (e : MpEvent n) (key : Bytes) (i : ℕ) : Prop :=
  match e with
  | .promised _ k j _ _ _ _ => k = key ∧ j = i
  | .sentAccept k j _ _ _ => k = key ∧ j = i
  | .accepted _ k j _ _ => k = key ∧ j = i
  | _ => False

section SynodOf

variable {history : List (MpEvent n)}

theorem synodOf_cons_of_not_concerns {e : MpEvent n} (he : ¬ e.Concerns key i) :
    synodOf (e :: history) key i = synodOf history key i := by
  ext a b r v
  · refine exists₂_congr (fun own byHandler => and_congr_left' ?_)
    rw [List.mem_cons, or_iff_right]
    rintro rfl
    exact he ⟨rfl, rfl⟩
  · refine exists_congr (fun content => and_congr_left' ?_)
    rw [List.mem_cons, or_iff_right]
    rintro rfl
    exact he ⟨rfl, rfl⟩
  · refine exists₂_congr (fun cmd byHandler => and_congr_left' ?_)
    rw [List.mem_cons, or_iff_right]
    rintro rfl
    exact he ⟨rfl, rfl⟩

theorem synodOf_append_of_not_concerns {events : List (MpEvent n)}
    (he : ∀ e ∈ events, ¬ e.Concerns key i) :
    synodOf (events ++ history) key i = synodOf history key i := by
  induction events with
  | nil => rfl
  | cons e events ih =>
    rw [List.cons_append, synodOf_cons_of_not_concerns (he e List.mem_cons_self),
      ih (fun e' h' => he e' (List.mem_cons_of_mem _ h'))]

theorem synodOf_promised (a : Fin n) (b : Proposal) (r : Fin n × ℕ)
    (own : Option (Proposal × Content)) (byHandler : Bool) :
    synodOf (.promised a key i b r own byHandler :: history) key i =
      (synodOf history key i).addPromise a b r (idVote own) := by
  ext a' b' r' v'
  · simp only [synodOf, Synod.addPromise, List.mem_cons, MpEvent.promised.injEq,
      true_and]
    constructor
    · rintro ⟨o, h, ⟨rfl, rfl, rfl, rfl, rfl⟩ | hm, rfl⟩
      · exact .inr ⟨rfl, rfl, rfl, rfl⟩
      · exact .inl ⟨o, h, hm, rfl⟩
    · rintro (⟨o, h, hm, rfl⟩ | ⟨rfl, rfl, rfl, rfl⟩)
      · exact ⟨o, h, .inr hm, rfl⟩
      · exact ⟨own, byHandler, .inl ⟨rfl, rfl, rfl, rfl, rfl⟩, rfl⟩
  · simp [synodOf, Synod.addPromise]
  · simp [synodOf, Synod.addPromise]

theorem synodOf_sentAccept (b : Proposal) (r : Fin n × ℕ) (content : Content) :
    synodOf (.sentAccept key i b r content :: history) key i =
      (synodOf history key i).addProposal b r content.commandId := by
  ext a' b' r' v'
  · simp [synodOf, Synod.addProposal]
  · simp only [synodOf, Synod.addProposal, List.mem_cons, MpEvent.sentAccept.injEq,
      true_and]
    constructor
    · rintro ⟨c, ⟨rfl, rfl, rfl⟩ | hm, rfl⟩
      · exact .inr ⟨rfl, rfl, rfl⟩
      · exact .inl ⟨c, hm, rfl⟩
    · rintro (⟨c, hm, rfl⟩ | ⟨rfl, rfl, rfl⟩)
      · exact ⟨c, .inr hm, rfl⟩
      · exact ⟨content, .inl ⟨rfl, rfl, rfl⟩, rfl⟩
  · simp [synodOf, Synod.addProposal]

theorem synodOf_accepted (a : Fin n) (cmd : Command) (byHandler : Bool) :
    synodOf (.accepted a key i cmd byHandler :: history) key i =
      (synodOf history key i).addVote a cmd.acceptedProposal cmd.commandId := by
  ext a' b' r' v'
  · simp [synodOf, Synod.addVote]
  · simp [synodOf, Synod.addVote]
  · simp only [synodOf, Synod.addVote, List.mem_cons, MpEvent.accepted.injEq,
      true_and]
    constructor
    · rintro ⟨c, h, ⟨rfl, rfl, rfl⟩ | hm, rfl, rfl⟩
      · exact .inr ⟨rfl, rfl, rfl⟩
      · exact .inl ⟨c, h, hm, rfl, rfl⟩
    · rintro (⟨c, h, hm, rfl, rfl⟩ | ⟨rfl, rfl, rfl⟩)
      · exact ⟨c, h, .inr hm, rfl, rfl⟩
      · exact ⟨cmd, byHandler, .inl ⟨rfl, rfl, rfl⟩, rfl, rfl⟩

theorem synodOf_nil : synodOf ([] : List (MpEvent n)) key i = .empty := by
  ext <;> simp [synodOf, Synod.empty]

end SynodOf

section Views

def MpSystem.promise (s : MpSystem n) (a : Fin n) (key : Bytes) (i : ℕ) : Proposal :=
  (s.servers a).store.promise key i

def MpSystem.vote (s : MpSystem n) (a : Fin n) (key : Bytes) (i : ℕ) :
    Option (Proposal × Content) := (s.servers a).store.vote key i

theorem vote_num {a : Fin n} {p : Proposal} {x : Content} (h : s.vote a key i = some (p, x)) :
    0 ≤ p.proposalNum := by
  unfold MpSystem.vote at h
  rw [(s.servers a).store.vote_eq_lookup (fun _ => .read), Command.vote_eq_some] at h
  exact h.2.1 ▸ h.1

/-- What one step means at one slot: nothing, or one step of its synod in which
the acceptor's own record keeps up. -/
inductive SlotStep (s t : MpSystem n) (key : Bytes) (i : ℕ) : Prop
  | same (hsynod : synodOf t.history key i = synodOf s.history key i)
      (hviews : ∀ a, t.promise a key i = s.promise a key i ∧ t.vote a key i = s.vote a key i)
  | promise {a : Fin n} {b : Proposal} {r : Fin n × ℕ} (hlt : s.promise a key i < b)
      (hsynod : synodOf t.history key i =
        (synodOf s.history key i).addPromise a b r (idVote (s.vote a key i)))
      (hself : t.promise a key i = b ∧ t.vote a key i = s.vote a key i)
      (hother : ∀ a', a' ≠ a → t.promise a' key i = s.promise a' key i ∧
        t.vote a' key i = s.vote a' key i)
  | propose {q : Finset (Fin n)} {b : Proposal} {r : Fin n × ℕ} {v : UInt32}
      (hnew : ∀ c w, ¬ (synodOf s.history key i).proposed c r w) (hq : Majority q)
      (hs : (synodOf s.history key i).Selects q b r v)
      (hsynod : synodOf t.history key i = (synodOf s.history key i).addProposal b r v)
      (hviews : ∀ a, t.promise a key i = s.promise a key i ∧ t.vote a key i = s.vote a key i)
  | vote {a : Fin n} {b : Proposal} {r : Fin n × ℕ} {v : UInt32} {x : Content}
      (hp : (synodOf s.history key i).proposed b r v) (hle : s.promise a key i ≤ b)
      (hsynod : synodOf t.history key i = (synodOf s.history key i).addVote a b v)
      (hself : t.promise a key i = b ∧ t.vote a key i = some (b, x)) (hx : x.commandId = v)
      (hother : ∀ a', a' ≠ a → t.promise a' key i = s.promise a' key i ∧
        t.vote a' key i = s.vote a' key i)

/-- The slot's synod took only its own steps, and each server's slot is the
server's record of it. -/
structure SlotRefines (s : MpSystem n) (key : Bytes) (i : ℕ) : Prop where
  reachable : Synod.Reachable Majority (synodOf s.history key i)
  tracks : ∀ a, (synodOf s.history key i).Tracks a (s.promise a key i) (idVote (s.vote a key i))

theorem slotRefines_init : SlotRefines (MpSystem.init : MpSystem n) key i where
  reachable := by
    rw [MpSystem.init, synodOf_nil]
  tracks a := by
    rw [MpSystem.init, synodOf_nil]
    exact Synod.empty_tracks a _

theorem SlotRefines.step (h : SlotRefines s key i) (hs : SlotStep s t key i) :
    SlotRefines t key i := by
  cases hs with
  | same hsynod hviews =>
    refine ⟨hsynod ▸ h.reachable, fun a => ?_⟩
    rw [hsynod, (hviews a).1, (hviews a).2]
    exact h.tracks a
  | @promise a b r hlt hsynod hself hother =>
    refine ⟨?_, fun a' => ?_⟩
    · rw [hsynod]
      exact .tail h.reachable (.promise r ((h.tracks a).upTo.below hlt) (h.tracks a).lastVote)
    · rw [hsynod]
      by_cases ha : a' = a
      · subst ha
        rw [hself.1, hself.2]
        exact (h.tracks a').addPromise_self hlt.le r _
      · rw [(hother a' ha).1, (hother a' ha).2]
        exact (h.tracks a').addPromise_other ha b r _
  | @propose q b r v hnew hq hsel hsynod hviews =>
    refine ⟨?_, fun a => ?_⟩
    · rw [hsynod]
      exact .tail h.reachable (.propose hnew hq hsel)
    · rw [hsynod, (hviews a).1, (hviews a).2]
      exact (h.tracks a).addProposal b r v
  | @vote a b r v x hp hle hsynod hself hx hother =>
    have hup := (h.tracks a).upTo
    refine ⟨?_, fun a' => ?_⟩
    · rw [hsynod]
      exact .tail h.reachable (.vote hp
        ⟨fun c r l hc => (hup.1 c r l hc).trans hle, fun c w hc => (hup.2 c w hc).trans hle⟩)
    · rw [hsynod]
      by_cases ha : a' = a
      · subst ha
        rw [hself.1, hself.2]
        exact hx ▸ (h.tracks a').addVote_self hle v
      · rw [(hother a' ha).1, (hother a' ha).2]
        exact (h.tracks a').addVote_other ha b v

end Views

end KeyValueStore
