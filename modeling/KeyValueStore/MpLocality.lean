import KeyValueStore.Locality
import KeyValueStore.MpRegister

/-! The Multi-Paxos store as a whole. Each key has its own log, and a call starts
and returns in one history for all of them. -/

namespace KeyValueStore

variable {n : ℕ} {s : MpSystem n} {id : UInt32} {i : Fin n} {request : KeyStoreRequest}

def MpEvent.called? : MpEvent n → Option UInt32
  | .called _ _ id => some id
  | _ => none

def MpEvent.returned? : MpEvent n → Option UInt32
  | .returned _ _ _ id => some id
  | _ => none

def MpEvent.keyOf? (e : MpEvent n) (id : UInt32) : Option Bytes :=
  match e with
  | .called _ request commandId => if commandId = id then some (cStr request.key) else none
  | _ => none

/-- The history of the commands on all keys. -/
def MpSystem.store (s : MpSystem n) : StoreHistory UInt32 Bytes Bytes where
  key id := (s.history.findSome? (fun e => e.keyOf? id)).getD []
  invoked id := ∃ i request, .called i request id ∈ s.history
  puts id := s.history.findSome? (fun e => e.put? id)
  returned id r := ∃ i request k reply, .called i request id ∈ s.history ∧
    .returned i (cStr request.key) k id ∈ s.history ∧ .answered i request k reply ∈ s.history ∧
    reply.read? = r
  before := StoreHistory.ReturnedBefore MpEvent.called? MpEvent.returned? s.history

theorem called?_eq_some {e : MpEvent n} :
    e.called? = some id ↔ ∃ i request, e = .called i request id := by
  cases e <;> simp [MpEvent.called?, eq_comm]

theorem returned?_eq_some {e : MpEvent n} :
    e.returned? = some id ↔ ∃ i key k, e = .returned i key k id := by
  cases e <;> simp [MpEvent.returned?, eq_comm]

theorem UniqueIds.store_key (h : UniqueIds s) (hm : .called i request id ∈ s.history) :
    s.store.key id = cStr request.key := by
  cases hkey : s.history.findSome? (fun e => e.keyOf? id) with
  | none =>
    have hnone := List.findSome?_eq_none_iff.mp hkey _ hm
    simp [MpEvent.keyOf?] at hnone
  | some key =>
    obtain ⟨e, he, hk⟩ := List.exists_of_findSome?_eq_some hkey
    cases e with
    | called i' request' commandId =>
      simp only [MpEvent.keyOf?, Option.ite_none_right_eq_some, Option.some.injEq] at hk
      obtain ⟨rfl, rfl⟩ := hk
      simp only [MpSystem.store, hkey, Option.getD_some, h i request i' request' _ hm he]
    | _ => simp [MpEvent.keyOf?] at hk

/-- No command returned before it was called. -/
theorem Ledger.timed (h : Ledger s) :
    s.store.Timed (StoreHistory.startIn MpEvent.called? s.history) := by
  refine StoreHistory.timed_of_log MpEvent.returned? (fun id hid => ?_)
    (fun _ _ => Iff.rfl) (fun id hid => ?_)
  · obtain ⟨i, request, hm⟩ := hid
    exact ⟨_, hm, rfl⟩
  · obtain ⟨e, e', he, he', hsub⟩ := hid
    obtain ⟨i, request, rfl⟩ := called?_eq_some.mp he
    obtain ⟨i', key, k, rfl⟩ := returned?_eq_some.mp he'
    have hret := hsub.subset (List.mem_cons_of_mem _ List.mem_cons_self)
    obtain rfl := h.key_eq (hsub.subset List.mem_cons_self) hret
    obtain ⟨b, v, hv, hne⟩ := h.inOrder.later i request id i' k id hsub k le_rfl
    exact hne (h.paxos.chosenAt_agree ⟨b, hv⟩ (h.chosenAt hret))

end KeyValueStore
