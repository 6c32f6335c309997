import KeyValueStore.SlotViews

/-! The promise of an acceptor over whole sequences of requests. The handler
keeps it exactly while no ACCEPT carries the promised number with a smaller
client id, since the ACCEPT branch compares the numbers alone. -/

namespace KeyValueStore

structure Handled where
  uninit : Uninit
  before : MpStore
  request : PaxosRequest
  reply : PaxosResponse
  after : MpStore

/-- Requests handled one after another, up to the first one that the source
leaves undefined. -/
def handleAll : MpStore → List (Uninit × PaxosRequest) → List Handled
  | _, [] => []
  | st, (u, request) :: rest =>
    match paxosRequestHandler u st request with
    | none => []
    | some (st', reply) => ⟨u, st, request, reply, st'⟩ :: handleAll st' rest

namespace Handled

def On (h : Handled) (key : Bytes) (i : ℕ) : Prop :=
  requestKey h.uninit h.request = key ∧ h.request.slot = i

def Acks (h : Handled) (type : MpRequestType) (key : Bytes) (i : ℕ) : Prop :=
  h.On key i ∧ h.request.mptype = type ∧ h.reply.code = .ack

def Overwrites (h : Handled) (key : Bytes) (i : ℕ) : Prop :=
  h.before.vote key i ≠ h.after.vote key i

def Unchanged (h : Handled) : Prop :=
  (∀ k j, h.after.promise k j = h.before.promise k j ∧ h.after.vote k j = h.before.vote k j ∧
    h.after.available k j = h.before.available k j) ∧ h.after.mpKsMap = h.before.mpKsMap

/-- An ACCEPT under the promised number, of a client with a smaller id. -/
def AcceptsBelow (h : Handled) (key : Bytes) (i : ℕ) : Prop :=
  h.On key i ∧ h.request.mptype = .accept ∧
    h.request.proposalNum = (h.before.promise key i).proposalNum ∧
    h.request.proposalClientId < (h.before.promise key i).proposalClientId

end Handled

structure KeepsPromises (key : Bytes) (i : ℕ) (trace : List Handled) : Prop where
  no_accept_below : trace.Pairwise fun a b => a.Acks .prepare key i →
    b.Acks .accept key i ∨ b.Overwrites key i → a.request.proposal ≤ b.request.proposal
  promise_mono : ∀ h ∈ trace, h.before.promise key i ≤ h.after.promise key i
  nack_unchanged : ∀ h ∈ trace, h.reply.code = .nack → h.Unchanged

theorem handleAll_handles {st : MpStore} {requests : List (Uninit × PaxosRequest)} {h : Handled}
    (hm : h ∈ handleAll st requests) : Handles h.uninit h.before h.request h.after h.reply := by
  induction requests generalizing st with
  | nil => simp [handleAll] at hm
  | cons r rest ih =>
    obtain ⟨u, request⟩ := r
    simp only [handleAll] at hm
    split at hm
    next => simp at hm
    next st' reply he =>
      rcases List.mem_cons.mp hm with rfl | hm
      · exact (paxosRequestHandler_handles he).2
      · exact ih hm

theorem Handles.unchanged_of_nack {h : Handled}
    (hh : Handles h.uninit h.before h.request h.after h.reply) (hn : h.reply.code = .nack) :
    h.Unchanged := by
  refine ⟨fun k j => ⟨?_, ?_, ?_⟩, hh.mpKsMap_of_nack hn⟩
  · simp [hh.promise_eq, hn]
  · simp [hh.vote_eq, hn]
  · simp [hh.available_eq, hn]

theorem Handles.acks_accept_of_overwrites {h : Handled} {key : Bytes} {i : ℕ}
    (hh : Handles h.uninit h.before h.request h.after h.reply) (ho : h.Overwrites key i) :
    h.Acks .accept key i := by
  by_contra hno
  apply ho
  rw [hh.vote_eq, if_neg]
  rintro ⟨hc, ht, hk, hi⟩
  exact hno ⟨⟨hk.symm, hi.symm⟩, ht, hc⟩

/-- Off the equal-number case the ACCEPT branch is the full comparison. -/
theorem Handles.promise_le_of_acks_accept {h : Handled} {key : Bytes} {i : ℕ}
    (hh : Handles h.uninit h.before h.request h.after h.reply) (ha : h.Acks .accept key i)
    (hno : ¬ h.AcceptsBelow key i) : h.before.promise key i ≤ h.request.proposal := by
  obtain ⟨⟨rfl, rfl⟩, ht, hc⟩ := ha
  rcases hh.ack_iff.mp hc with ⟨hp, _⟩ | ⟨_, hle⟩
  · simp [ht] at hp
  · rw [Proposal.le_iff]
    rcases Int32.lt_or_eq_of_le hle with hlt | heq
    · exact .inl hlt
    · exact .inr ⟨heq, Int32.not_lt.mp (fun hlt => hno ⟨⟨rfl, rfl⟩, ht, heq.symm, hlt⟩)⟩

theorem Handles.promise_le {h : Handled} {key : Bytes} {i : ℕ}
    (hh : Handles h.uninit h.before h.request h.after h.reply) (hno : ¬ h.AcceptsBelow key i) :
    h.before.promise key i ≤ h.after.promise key i := by
  rw [hh.promise_eq]
  split
  next hif =>
    obtain ⟨hc, rfl, rfl⟩ := hif
    rcases hh.ack_iff.mp hc with ⟨_, hlt⟩ | ⟨ht, _⟩
    · exact hlt.le
    · exact hh.promise_le_of_acks_accept ⟨⟨rfl, rfl⟩, ht, hc⟩ hno
  next => exact le_rfl

theorem handleAll_promise_le {st : MpStore} {requests : List (Uninit × PaxosRequest)}
    {key : Bytes} {i : ℕ} (hno : ∀ h ∈ handleAll st requests, ¬ h.AcceptsBelow key i)
    {h : Handled} (hm : h ∈ handleAll st requests) : st.promise key i ≤ h.before.promise key i := by
  induction requests generalizing st with
  | nil => simp [handleAll] at hm
  | cons r rest ih =>
    obtain ⟨u, request⟩ := r
    simp only [handleAll] at hm hno
    split at hm
    next => simp at hm
    next st' reply he =>
      simp only [he] at hno
      rcases List.mem_cons.mp hm with rfl | hm
      · exact le_rfl
      · have hfirst := (paxosRequestHandler_handles he).2
        have hstep := Handles.promise_le (h := ⟨u, st, request, reply, st'⟩) hfirst
          (hno _ List.mem_cons_self)
        exact hstep.trans (ih (fun h hh => hno h (List.mem_cons_of_mem _ hh)) hm)

theorem handleAll_no_accept_below {st : MpStore} {requests : List (Uninit × PaxosRequest)}
    {key : Bytes} {i : ℕ} (hno : ∀ h ∈ handleAll st requests, ¬ h.AcceptsBelow key i) :
    (handleAll st requests).Pairwise fun a b => a.Acks .prepare key i →
      b.Acks .accept key i ∨ b.Overwrites key i → a.request.proposal ≤ b.request.proposal := by
  induction requests generalizing st with
  | nil => simp [handleAll]
  | cons r rest ih =>
    obtain ⟨u, request⟩ := r
    simp only [handleAll] at hno ⊢
    split
    next => exact .nil
    next st' reply he =>
      simp only [he] at hno
      have hrest : ∀ h ∈ handleAll st' rest, ¬ h.AcceptsBelow key i :=
        fun h hh => hno h (List.mem_cons_of_mem _ hh)
      refine List.pairwise_cons.mpr ⟨fun b hb ha hor => ?_, ih hrest⟩
      have hfirst := (paxosRequestHandler_handles he).2
      have hpromised : st'.promise key i = request.proposal := by
        obtain ⟨⟨hk, hi⟩, _, hc⟩ := ha
        rw [hfirst.promise_eq, if_pos ⟨hc, hk.symm, hi.symm⟩]
      have hb' := handleAll_handles hb
      have haccept : b.Acks .accept key i :=
        hor.elim id (hb'.acks_accept_of_overwrites)
      exact hpromised.ge.trans ((handleAll_promise_le hrest hb).trans
        (hb'.promise_le_of_acks_accept haccept (hrest b hb)))

/-- An acceptor keeps its promises over a sequence of requests exactly when no
ACCEPT in it has the promised number and a smaller client id. -/
theorem keepsPromises_iff (st : MpStore) (requests : List (Uninit × PaxosRequest))
    (key : Bytes) (i : ℕ) : KeepsPromises key i (handleAll st requests) ↔
      ∀ h ∈ handleAll st requests, ¬ h.AcceptsBelow key i := by
  constructor
  · rintro hkeep h hm ⟨⟨rfl, rfl⟩, ht, heq, hlt⟩
    have hh := handleAll_handles hm
    have hc : h.reply.code = .ack := hh.ack_iff.mpr (.inr ⟨ht, Int32.le_of_eq heq.symm⟩)
    have hmono := hkeep.promise_mono h hm
    rw [hh.promise_eq, if_pos ⟨hc, rfl, rfl⟩] at hmono
    have hbelow : h.request.proposal <
        h.before.promise (requestKey h.uninit h.request) h.request.slot :=
      Proposal.lt_iff.mpr (.inr ⟨heq, hlt⟩)
    exact absurd hbelow (not_lt.mpr hmono)
  · intro hno
    exact {
      no_accept_below := handleAll_no_accept_below hno
      promise_mono := fun h hm => (handleAll_handles hm).promise_le (hno h hm)
      nack_unchanged := fun h hm hn => (handleAll_handles hm).unchanged_of_nack hn }

section EqualNumbers

/-- PREPARE of client 2 and then ACCEPT of client 1, both with number 0. -/
def equalNumberRequests : List (Uninit × PaxosRequest) :=
  [(⟨[], [], fun _ => .read⟩, ⟨.prepare, .write, 2, 0, [107, 0], [50], 0, 2⟩),
   (⟨[], [], fun _ => .read⟩, ⟨.accept, .write, 1, 0, [107, 0], [49], 0, 1⟩)]

theorem equalNumberRequests_promise_lost :
    ¬ KeepsPromises [107] 0 (handleAll .empty equalNumberRequests) := by
  intro hkeep
  have hrun : (handleAll .empty equalNumberRequests).map
      (fun h => (h.reply.code, h.before.promise [107] 0, h.after.promise [107] 0)) =
      [(.ack, .unset, ⟨2, 0⟩), (.ack, ⟨2, 0⟩, ⟨1, 0⟩)] := by decide
  have hm : (ReturnCode.ack, (⟨2, 0⟩ : Proposal), (⟨1, 0⟩ : Proposal)) ∈
      (handleAll .empty equalNumberRequests).map
        (fun h => (h.reply.code, h.before.promise [107] 0, h.after.promise [107] 0)) := by
    rw [hrun]
    simp
  obtain ⟨h, hh, he⟩ := List.mem_map.mp hm
  simp only [Prod.mk.injEq] at he
  have hmono := hkeep.promise_mono h hh
  rw [he.2.1, he.2.2] at hmono
  exact absurd hmono (by decide)

end EqualNumbers

end KeyValueStore
