import KeyValueStore.DecidedReads
import KeyValueStore.ExactlyOnce
import KeyValueStore.Linearization
import Mathlib.Data.List.Dedup

/-! Multi-Paxos histories are linearizable, ordered by the slot that decided the
command, in runs where every slot holds one command and every command one slot. -/

namespace KeyValueStore

variable {n : ℕ} {s t : MpSystem n} {a : MpAction n} {key : Bytes}

section Condition

/-- A step that decides slots in order, answers READs from logs that hold all
that is decided, and keeps the copies of a command together. -/
def LedgerStep (s : MpSystem n) (a : MpAction n) : Prop :=
  HeldStep s a ∧ Picks DecidedSlot s a ∧ OnceStep s a

instance (s : MpSystem n) (a : MpAction n) : Decidable (LedgerStep s a) :=
  inferInstanceAs (Decidable (_ ∧ _ ∧ _))

theorem LedgerStep.inOrder (h : LedgerStep s a) : InOrderStep s a := ⟨h.1.1, h.1.2.1, h.2.1⟩

end Condition

section Replies

/-- What a client makes of the reply to its READ. -/
def KeyStoreResponse.read? (reply : KeyStoreResponse) : Option Bytes :=
  if reply.code = .error then none else some reply.value

/-- The reply that a READ at slot `k` gets from a log. -/
inductive LogReply (log : ℕ → Content) (k : ℕ) (reply : KeyStoreResponse) : Prop
  | absent (hall : ∀ j < k, (log j).commandType ≠ .write) (hcode : reply.code = .error)
  | last {j : ℕ} (hj : j < k) (hwrite : (log j).commandType = .write)
      (hlast : ∀ l < k, j < l → (log l).commandType ≠ .write) (hcode : reply.code ≠ .error)
      (hvalue : reply.value = (log j).value)

def DecidedReply (s : MpSystem n) (key : Bytes) (k : ℕ) (reply : KeyStoreResponse) : Prop :=
  ∃ log : ℕ → Content, (∀ j < k, s.Decides key j (log j)) ∧ LogReply log k reply

theorem Extends.decides_mono (h : Extends s t) {j : ℕ} {x : Content} (hd : s.Decides key j x) :
    t.Decides key j x := by
  obtain ⟨b, q, hq, hall⟩ := hd
  refine ⟨b, q, hq, fun a ha => ?_⟩
  obtain ⟨cmd, byHandler, hm, hsame⟩ := hall a ha
  exact ⟨cmd, byHandler, h.mem_history hm, hsame⟩

theorem DecidedReply.mono (he : Extends s t) {k : ℕ} {reply : KeyStoreResponse}
    (h : DecidedReply s key k reply) : DecidedReply t key k reply := by
  obtain ⟨log, hlog, hreply⟩ := h
  exact ⟨log, fun j hj => he.decides_mono (hlog j hj), hreply⟩

/-- A READ is answered from the log of its server, where its own slot has no
WRITE. -/
theorem logReply_of_answer {st st' : MpStore} {request : KeyStoreRequest} {cl : CommandsList}
    {idx : ℕ} {reply : KeyStoreResponse} (hread : request.type = .read)
    (hcl : st.logMap (cStr request.key) = some cl) (hlt : idx < initCommandLength)
    (hself : (cl.cmdVec idx).commandType ≠ .write)
    (hans : mpAnswer st request idx = some (st', reply)) :
    LogReply (fun j => (cl.cmdVec j).content) idx reply := by
  have hrange : min (idx + 1) initCommandLength = idx + 1 := by omega
  rcases mpAnswer_read idx hread hcl with ⟨hlast, hans'⟩ | ⟨prev, st₁, k, hlast, hans'⟩
  · rw [lastWrite, hrange] at hlast
    rw [hans'] at hans
    cases hans
    exact .absent (fun j hj => lastWrite_none hlast j (by omega)) rfl
  · rw [lastWrite, hrange] at hlast
    rw [hans'] at hans
    cases hans
    obtain ⟨j, hj, rfl, hwrite, hafter⟩ := lastWrite_some hlast
    have hne : j ≠ idx := fun he => hself (he ▸ hwrite)
    exact .last (j := j) (by omega) hwrite (fun l hl hjl => hafter l (by omega) hjl) (by simp) rfl

theorem HeldInv.decidedReply (h : HeldInv s) (hu : PaxosInv s) (hg : Carries Genuine s)
    (hunique : UniqueIds s) {i : Fin n} {call : InsertCall} {st : MpStore}
    {reply : KeyStoreResponse} (hcall : (s.servers i).call = some call)
    (hret : call.phase = .returned) (hread : call.request.type = .read)
    (hans : mpAnswer (s.servers i).store call.request call.currIdx = some (st, reply)) :
    DecidedReply s (cStr call.request.key) call.currIdx reply := by
  have hreq := h.requests i call hcall
  have hkey : call.key = cStr call.request.key := congrArg (fun c => cStr (Content.key c)) hreq
  obtain ⟨cl, hcl, hfilled, hid⟩ := (h.returned i call hcall hret).slot hu
  have hself : (cl.cmdVec call.currIdx).commandType ≠ .write := by
    have hne : call.origCmd.commandId ≠ 0 := fun hz => hfilled.id (hid.trans hz)
    have hsame := hunique.submitted_eq (hg.slots i call.key cl hcl call.currIdx hfilled.id).1
      ((hg.calls i call hcall).1 hne).1 hid
    have htype : (cl.cmdVec call.currIdx).commandType = call.request.type :=
      (congrArg Content.commandType hsame).trans (congrArg Content.commandType hreq)
    simp [htype, hread]
  rw [← hkey]
  refine ⟨fun j => (cl.cmdVec j).content, fun j hj => ?_, ?_⟩
  · obtain ⟨v, hv⟩ := holdsDecided_iff.mp (h.below i call hcall j hj hread)
    exact hv.decides hu hg hunique hcl
  · exact logReply_of_answer hread (hkey ▸ hcl) ((hu.traffic.servers i).call call hcall).lt hself
      hans

end Replies

section Answers

theorem MpSteps.answered (h : MpSteps s a t) {i : Fin n} {request : KeyStoreRequest} {k : ℕ}
    {reply : KeyStoreResponse} (hm : .answered i request k reply ∈ t.history) :
    .answered i request k reply ∈ s.history ∨ ∃ call st, (s.servers i).call = some call ∧
      call.phase = .returned ∧ call.request = request ∧ call.currIdx = k ∧
      mpAnswer (s.servers i).store request k = some (st, reply) := by
  cases h with
  | handle hrpc hk hreq hslot hh =>
    refine .inl ?_
    rcases List.mem_append.mp hm with hm | hm
    · rcases of_mem_handlerEvents hm with ⟨_, he | he⟩ <;> cases he
    · exact hm
  | answer hcall hphase hans =>
    rcases List.mem_cons.mp hm with he | hm
    · cases he
      exact .inr ⟨_, _, hcall, hphase, rfl, rfl, hans⟩
    · exact .inl hm
  | _ => exact .inl (by simpa using hm)

/-- The records of calls and of answers name the same commands. -/
structure Recorded (s : MpSystem n) : Prop where
  called : ∀ i call, (s.servers i).call = some call →
    .called i call.request call.origCmd.commandId ∈ s.history
  returned : ∀ i call, (s.servers i).call = some call → call.phase = .returned →
    .returned i call.key call.currIdx call.origCmd.commandId ∈ s.history
  answered : ∀ i request k reply, .answered i request k reply ∈ s.history →
    (∃ id, .called i request id ∈ s.history ∧
      .returned i (cStr request.key) k id ∈ s.history) ∧
    (request.type = .read → DecidedReply s (cStr request.key) k reply)

theorem MpSteps.records (hs : MpSteps s a t) {i : Fin n} {call' : InsertCall}
    (hc : (t.servers i).call = some call') (hret : call'.phase = .returned) :
    (s.servers i).call = some call' ∨
      .returned i call'.key call'.currIdx call'.origCmd.commandId ∈ t.history := by
  cases hs with
  | insertCommand hidle hstart =>
    rcases call_advance hc with ⟨rfl, he⟩ | hc
    · obtain rfl := Option.some.inj he
      exact absurd (hstart.phase.symm.trans hret) (by simp)
    · exact .inl hc
  | startRound hcall hphase horig hst =>
    rcases call_advance_broadcast hc with ⟨rfl, he⟩ | hc
    · obtain rfl := Option.some.inj he
      simp at hret
    · exact .inl hc
  | handle => exact .inl (call_handled hc)
  | prepareSend =>
    rcases call_advance_broadcast hc with ⟨rfl, he⟩ | hc
    · obtain rfl := Option.some.inj he
      simp at hret
    · exact .inl hc
  | own hcall hphase hrec =>
    rcases call_advance hc with ⟨rfl, he⟩ | hc
    · obtain rfl := Option.some.inj he
      cases hrec with
      | own => exact .inr List.mem_cons_self
    · exact .inl hc
  | answer =>
    rcases call_advance hc with ⟨rfl, he⟩ | hc
    · simp at he
    · exact .inl hc
  | _ =>
    rcases call_advance hc with ⟨rfl, he⟩ | hc
    · obtain rfl := Option.some.inj he
      simp at hret
    · exact .inl hc

theorem Recorded.step (h : Recorded s) (hheld : HeldInv s) (hu : PaxosInv s)
    (hg : Carries Genuine s) (hunique : UniqueIds s) (hs : MpSteps s a t) : Recorded t := by
  have hext := hs.extends
  refine ⟨fun i call' hc => ?_, fun i call' hc hret => ?_, fun i request k reply hm => ?_⟩
  · cases hs.callStep hc with
    | kept hcall hrequest hcontent =>
      have hid : call'.origCmd.commandId = _ := congrArg Content.commandId hcontent
      rw [hid, hrequest]
      exact hext.mem_history (h.called i _ hcall)
    | recorded hcall _ _ hrequest hcontent =>
      have hid : call'.origCmd.commandId = _ := congrArg Content.commandId hcontent
      rw [hid, hrequest]
      exact hext.mem_history (h.called i _ hcall)
    | moved _ hcall _ _ _ _ hrequest hcontent =>
      have hid : call'.origCmd.commandId = _ := congrArg Content.commandId hcontent
      rw [hid, hrequest]
      exact hext.mem_history (h.called i _ hcall)
    | started ha hstart =>
      subst ha
      have hid : call'.origCmd.commandId = _ := congrArg Content.commandId hstart.content
      rw [hid, hstart.request]
      cases hs with
      | insertCommand hidle hstart' =>
        have hid' : _ = newCommandId _ _ := congrArg Content.commandId hstart'.content
        exact hid' ▸ List.mem_cons_self
  · rcases hs.records hc hret with hold | hnew
    · exact hext.mem_history (h.returned i call' hold hret)
    · exact hnew
  · rcases hs.answered hm with hold | ⟨call, st, hcall, hret, rfl, rfl, hans⟩
    · obtain ⟨⟨id, hcalled, hreturned⟩, hread⟩ := h.answered i request k reply hold
      exact ⟨⟨id, hext.mem_history hcalled, hext.mem_history hreturned⟩,
        fun hr => (hread hr).mono hext⟩
    · have hkey : call.key = cStr call.request.key :=
        congrArg (fun c => cStr (Content.key c)) (hheld.requests i call hcall)
      refine ⟨⟨call.origCmd.commandId, hext.mem_history (h.called i call hcall), ?_⟩, fun hr => ?_⟩
      · exact hkey ▸ hext.mem_history (h.returned i call hcall hret)
      · exact (hheld.decidedReply hu hg hunique hcall hret hr hans).mono hext

end Answers

section Slots

def MpSystem.ChosenAt (s : MpSystem n) (key : Bytes) (j : ℕ) (id : UInt32) : Prop :=
  ∃ b, (synodOf s.history key j).Chosen Majority b id

theorem MpSystem.Decides.chosenAt {j : ℕ} {x : Content} (h : s.Decides key j x) :
    s.ChosenAt key j x.commandId := h.chosen

variable {j k : ℕ} {id id' : UInt32}

theorem PaxosInv.holder (hu : PaxosInv s) (h : s.ChosenAt key j id) :
    ∃ i cl, (s.servers i).store.logMap key = some cl ∧ Filled key j (cl.cmdVec j) ∧
      (cl.cmdVec j).commandId = id := by
  obtain ⟨b, hc⟩ := h
  obtain ⟨q, hq, hall⟩ := hc
  obtain ⟨i, hi⟩ := hq.nonempty
  have hholds : HoldsChosen s i key j id := ⟨b, b, id, ⟨q, hq, hall⟩, hall i hi, le_rfl⟩
  obtain ⟨cl, hcl, hfilled, hid⟩ := hholds.slot hu
  exact ⟨i, cl, hcl, hfilled, hid⟩

theorem PaxosInv.chosenAt_agree (hu : PaxosInv s) (h : s.ChosenAt key j id)
    (h' : s.ChosenAt key j id') : id = id' := by
  obtain ⟨b, hc⟩ := h
  obtain ⟨b', hc'⟩ := h'
  exact hc.agree (fun _ _ => Majority.inter) (hu.slots key j).reachable hc'

theorem Once.slot_unique (ho : Once s) (hu : PaxosInv s) (h : s.ChosenAt key j id)
    (h' : s.ChosenAt key k id) : j = k := by
  obtain ⟨i, cl, hcl, hfilled, rfl⟩ := hu.holder h
  obtain ⟨i', cl', hcl', _, hid'⟩ := hu.holder h'
  have hcopy : Copy s (cl.cmdVec j).commandId key j :=
    .held (b := i) (by simp [MpStore.commandIdAt, hcl])
  have hcopy' : Copy s (cl.cmdVec j).commandId key k :=
    .held (b := i') (by simpa [MpStore.commandIdAt, hcl'] using hid')
  exact (ho.together _ _ _ _ _ hfilled.id hcopy hcopy').2

theorem PaxosInv.called_of_chosenAt (hu : PaxosInv s) (hg : Carries Genuine s)
    (h : s.ChosenAt key j id) :
    ∃ i request, .called i request id ∈ s.history ∧ cStr request.key = key := by
  obtain ⟨i, cl, hcl, hfilled, rfl⟩ := hu.holder h
  obtain ⟨i', request, hm, _, hkey, _⟩ := (hg.slots i key cl hcl j hfilled.id).1
  exact ⟨i', request, hm, hkey ▸ hfilled.key_eq⟩

/-- The slot that decided the command, if there is one. -/
noncomputable def MpSystem.slotOf (s : MpSystem n) (key : Bytes) (id : UInt32) : ℕ :=
  Classical.epsilon (fun j => s.ChosenAt key j id)

theorem chosenAt_slotOf (h : ∃ j, s.ChosenAt key j id) : s.ChosenAt key (s.slotOf key id) id :=
  Classical.epsilon_spec h

theorem Once.slotOf_eq (ho : Once s) (hu : PaxosInv s) (h : s.ChosenAt key j id) :
    s.slotOf key id = j := ho.slot_unique hu (chosenAt_slotOf ⟨j, h⟩) h

open Classical in
noncomputable def MpSystem.decidedIds (s : MpSystem n) (key : Bytes) : List UInt32 :=
  s.calledIds.dedup.filter (fun id => ∃ j, s.ChosenAt key j id)

theorem mem_decidedIds (hu : PaxosInv s) (hg : Carries Genuine s) :
    id ∈ s.decidedIds key ↔ ∃ j, s.ChosenAt key j id := by
  simp only [MpSystem.decidedIds, List.mem_filter, List.mem_dedup, decide_eq_true_eq,
    and_iff_right_iff_imp]
  rintro ⟨j, hj⟩
  obtain ⟨i, request, hm, _⟩ := hu.called_of_chosenAt hg hj
  exact mem_calledIds.mpr ⟨i, request, hm⟩

end Slots

section Register

def MpEvent.put? (e : MpEvent n) (id : UInt32) : Option Bytes :=
  match e with
  | .called _ request commandId =>
    if commandId = id ∧ request.type = .write then some request.value else none
  | _ => none

/-- The history of the commands on one key. A command is over when
`insert_command` returns, which is before the client gets the reply. -/
def MpSystem.register (s : MpSystem n) (key : Bytes) : RegisterHistory UInt32 Bytes where
  invoked id := ∃ i request, .called i request id ∈ s.history ∧ cStr request.key = key
  puts id := s.history.findSome? (fun e => e.put? id)
  returned id r := ∃ i request k reply, .called i request id ∈ s.history ∧
    .returned i key k id ∈ s.history ∧ .answered i request k reply ∈ s.history ∧
    cStr request.key = key ∧ reply.read? = r
  before id id' := ∃ i request i' k, cStr request.key = key ∧
    [.called i request id', .returned i' key k id].Sublist s.history

variable {id : UInt32} {i : Fin n} {request : KeyStoreRequest}

theorem put?_eq_some {e : MpEvent n} {v : Bytes} : e.put? id = some v ↔
    ∃ i request, e = .called i request id ∧ request.type = .write ∧ request.value = v := by
  constructor
  · intro h
    cases e with
    | called i request commandId =>
      simp only [MpEvent.put?, Option.ite_none_right_eq_some, Option.some.injEq] at h
      obtain ⟨⟨rfl, hwrite⟩, hv⟩ := h
      exact ⟨i, request, rfl, hwrite, hv⟩
    | _ => simp [MpEvent.put?] at h
  · rintro ⟨i, request, rfl, hwrite, rfl⟩
    simp [MpEvent.put?, hwrite]

theorem UniqueIds.puts_eq (h : UniqueIds s) (hm : .called i request id ∈ s.history) :
    (s.register key).puts id = if request.type = .write then some request.value else none := by
  split
  next hwrite =>
    cases hput : (s.register key).puts id with
    | none =>
      have hnone := List.findSome?_eq_none_iff.mp hput _ hm
      simp [MpEvent.put?, hwrite] at hnone
    | some v =>
      obtain ⟨e, he, hv⟩ := List.exists_of_findSome?_eq_some hput
      obtain ⟨i', request', rfl, _, rfl⟩ := put?_eq_some.mp hv
      rw [h i request i' request' id hm he]
  next hread =>
    refine List.findSome?_eq_none_iff.mpr (fun e he => ?_)
    by_contra hne
    obtain ⟨v, hv⟩ := Option.ne_none_iff_exists'.mp hne
    obtain ⟨i', request', rfl, hwrite, _⟩ := put?_eq_some.mp hv
    exact hread (h i request i' request' id hm he ▸ hwrite)

end Register

section Linearizable

variable {id : UInt32}

theorem MpSystem.Decides.submitted (hu : PaxosInv s) (hg : Carries Genuine s) {j : ℕ}
    {x : Content} (h : s.Decides key j x) : Submitted s x := by
  obtain ⟨_, _, _, hfilled, hid⟩ := hu.holder h.chosenAt
  obtain ⟨_, q, hq, hall⟩ := h
  obtain ⟨a, ha⟩ := hq.nonempty
  obtain ⟨cmd, byHandler, hm, _, rfl⟩ := hall a ha
  have hne : cmd.commandId ≠ 0 := fun hz => hfilled.id (hid.trans hz)
  exact (hg.accepted a key j cmd byHandler hm hne).1

theorem PaxosInv.type_of_chosenAt (hu : PaxosInv s) (hg : Carries Genuine s)
    (hunique : UniqueIds s) {k : ℕ} {i : Fin n} {request : KeyStoreRequest}
    (h : s.ChosenAt key k id) (hm : .called i request id ∈ s.history) :
    request.type = .read ∨ request.type = .write := by
  obtain ⟨i', cl, hcl, hfilled, rfl⟩ := hu.holder h
  obtain ⟨⟨i'', request', hm', htype, _⟩, hkind⟩ := hg.slots i' key cl hcl k hfilled.id
  have hsame : request' = request := hunique i'' request' i request _ hm' hm
  rw [← hsame, ← htype]
  exact hkind

/-- A READ whose reply the decided log gives has its place after the WRITE that
it read. -/
theorem DecidedReply.readsByKey (hu : PaxosInv s) (hg : Carries Genuine s) (ho : Once s)
    (hunique : UniqueIds s) {k : ℕ} {reply : KeyStoreResponse} (h : DecidedReply s key k reply)
    (hk : s.ChosenAt key k id) (hget : (s.register key).puts id = none) :
    RegisterHistory.ReadsByKey (s.register key) (s.slotOf key) (s.decidedIds key) id
      reply.read? := by
  obtain ⟨log, hlog, hreply⟩ := h
  have hid : s.slotOf key id = k := ho.slotOf_eq hu hk
  have hputs : ∀ j < k, (s.register key).puts (log j).commandId =
      if (log j).commandType = .write then some (log j).value else none := by
    intro j hj
    obtain ⟨i, request, hm, htype, _, hvalue⟩ := (hlog j hj).submitted hu hg
    rw [hunique.puts_eq hm, htype, hvalue]
  -- a WRITE that is not after the read is one that the log has below it
  have hbelow : ∀ w ∈ s.decidedIds key, (s.register key).puts w ≠ none → s.slotOf key w ≤ k →
      s.slotOf key w < k ∧ (log (s.slotOf key w)).commandType = .write := by
    intro w hw hput hle
    have hchosen := chosenAt_slotOf ((mem_decidedIds hu hg).mp hw)
    have hlt : s.slotOf key w < k := by
      refine lt_of_le_of_ne hle (fun he => hput ?_)
      rw [he] at hchosen
      rw [hu.chosenAt_agree hchosen hk, hget]
    refine ⟨hlt, ?_⟩
    by_contra hne
    have hsame := hu.chosenAt_agree hchosen (hlog _ hlt).chosenAt
    rw [hsame, hputs _ hlt, if_neg hne] at hput
    exact hput rfl
  cases hreply with
  | absent hall hcode =>
    rw [KeyStoreResponse.read?, if_pos hcode]
    refine .absent (fun w hw hput => ?_)
    rw [hid]
    by_contra hge
    obtain ⟨hlt, hwrite⟩ := hbelow w hw hput (Nat.le_of_not_lt hge)
    exact hall _ hlt hwrite
  | @last j hj hwrite hlast hcode hvalue =>
    rw [KeyStoreResponse.read?, if_neg hcode, hvalue]
    have hj' : s.slotOf key (log j).commandId = j := ho.slotOf_eq hu (hlog j hj).chosenAt
    refine .put ((mem_decidedIds hu hg).mpr ⟨j, (hlog j hj).chosenAt⟩)
      ((hputs j hj).trans (if_pos hwrite)) (by rw [hj', hid]; exact hj)
      (fun w hw hput => ?_)
    rw [hid, hj']
    by_contra hmid
    obtain ⟨hlt, hwrite'⟩ := hbelow w hw hput (by omega)
    exact hlast _ hlt (by omega) hwrite'

/-- What is known of the states that such runs reach. -/
structure Ledger (s : MpSystem n) : Prop where
  paxos : PaxosInv s
  genuine : Carries Genuine s
  unique : UniqueIds s
  once : Once s
  inOrder : InOrder s
  recorded : Recorded s

theorem Ledger.chosenAt (h : Ledger s) {i : Fin n} {k : ℕ}
    (hret : .returned i key k id ∈ s.history) : s.ChosenAt key k id :=
  (h.inOrder.returned _ _ _ _ hret).1

/-- A command returned at the key of its request. -/
theorem Ledger.key_eq (h : Ledger s) {i i' : Fin n} {k : ℕ} {request : KeyStoreRequest}
    (hcalled : .called i request id ∈ s.history) (hret : .returned i' key k id ∈ s.history) :
    cStr request.key = key := by
  obtain ⟨j, request', hcalled', hkey⟩ := h.paxos.called_of_chosenAt h.genuine (h.chosenAt hret)
  rw [h.unique i request j request' id hcalled hcalled', hkey]

/-- The commands on each key, in the order of their slots, are those of one
register. -/
theorem Ledger.register_linearizable (h : Ledger s) (key : Bytes) :
    (s.register key).Linearizable := by
  refine @RegisterHistory.linearizable_of_key _ _ _ (s.register key) _ (s.slotOf key)
    (s.decidedIds key) ((List.nodup_dedup _).filter _) ?_ ?_ ?_ ?_ ?_
  · intro a ha b hb he
    have hca := chosenAt_slotOf ((mem_decidedIds h.paxos h.genuine).mp ha)
    have hcb := chosenAt_slotOf ((mem_decidedIds h.paxos h.genuine).mp hb)
    exact h.paxos.chosenAt_agree (he ▸ hca) hcb
  · intro id hid
    obtain ⟨j, hj⟩ := (mem_decidedIds h.paxos h.genuine).mp hid
    exact h.paxos.called_of_chosenAt h.genuine hj
  · rintro id r ⟨i, request, k, reply, _, hret, _⟩
    exact (mem_decidedIds h.paxos h.genuine).mpr ⟨k, h.chosenAt hret⟩
  · rintro a ha b hb ⟨i, request, i', k, rfl, hsub⟩
    have hca := h.chosenAt (hsub.subset (List.mem_cons_of_mem _ List.mem_cons_self))
    have hcb := chosenAt_slotOf ((mem_decidedIds h.paxos h.genuine).mp hb)
    rw [h.once.slotOf_eq h.paxos hca]
    by_contra hle
    obtain ⟨c, v, hc, hne⟩ :=
      h.inOrder.later i request b i' k a hsub _ (Nat.le_of_not_lt hle)
    exact hne (h.paxos.chosenAt_agree ⟨c, hc⟩ hcb)
  · rintro id hid r hget ⟨i, request, k, reply, hcalled, hret, hans, rfl, rfl⟩
    have hkind := h.paxos.type_of_chosenAt h.genuine h.unique (h.chosenAt hret) hcalled
    have hread : request.type = .read := by
      refine hkind.resolve_right (fun hwrite => ?_)
      rw [h.unique.puts_eq hcalled, if_pos hwrite] at hget
      cases hget
    exact ((h.recorded.answered i request k reply hans).2 hread).readsByKey h.paxos h.genuine
      h.once h.unique (h.chosenAt hret) hget

/-- Server 0 puts at slot 1 and answers, and server 2 then gets nothing at slot 0,
which no one decided. -/
def skippingReadRun : List (MpAction 3) := skippingRun.take 12 ++
  [.answer 0, .insertCommand 2 (getRequest 3) 30 readTypes, .startRound 2, .handle 5 blankMemory,
    .finishPrepare 2 [1] blankCommand, .handle 6 blankMemory, .finishAccept 2 [1] blankCommand,
    .finish 2, .answer 2]

theorem skippingReadRun_not_linearizable : ∃ s : MpSystem 3,
    ReachableWhen mpStep (fun s a => HeldStep s a ∧ OnceStep s a) .init s ∧
    ¬ (s.register [107]).Linearizable := by
  obtain ⟨s, hs, hput, hcalled, hsub, hans, hget, hret, hnone⟩ := exists_of_run
    (P := fun s : MpSystem 3 =>
      (s.history.findSome? (fun e => e.put? 11)) = some [49] ∧
      .called 0 (putRequest 1 49) 11 ∈ s.history ∧
      [.called 2 (getRequest 3) 33, .returned 0 [107] 1 11].Sublist s.history ∧
      .answered 0 (putRequest 1 49) 1 { protocol := .mp, code := .ok } ∈ s.history ∧
      (s.history.findSome? (fun e => e.put? 33)) = none ∧
      .returned 2 [107] 0 33 ∈ s.history ∧
      .answered 2 (getRequest 3) 0 { protocol := .mp, code := .error } ∈ s.history)
    (show (runWhen mpStep (fun s a => HeldStep s a ∧ OnceStep s a) .init skippingReadRun).any _ =
      true by decide +kernel)
  refine ⟨s, reachableWhen_of_runWhen hs, ?_⟩
  have hstart := hsub.subset List.mem_cons_self
  have hdone := hsub.subset (List.mem_cons_of_mem _ List.mem_cons_self)
  exact RegisterHistory.not_linearizable_of_absent hput hget
    ⟨0, putRequest 1 49, 1, _, hcalled, hdone, hans, by decide, rfl⟩
    ⟨2, getRequest 3, 0, _, hstart, hret, hnone, by decide, rfl⟩
    ⟨2, getRequest 3, 0, 1, by decide, hsub⟩

end Linearizable

end KeyValueStore
