import KeyValueStore.Proposer

/-! The log key of a command on its way from `insert_command` to the acceptors
and on to `apply_last_write`. Each stop reads a C string out of its own copy,
and the last copy has no terminator of its own. -/

namespace KeyValueStore

section CStrings

variable {key tail : Bytes}

theorem cStr_cons (b : UInt8) (key : Bytes) :
    cStr (b :: key) = if b = 0 then [] else b :: cStr key := by
  by_cases h : b = 0 <;> simp [cStr, h]

theorem cStr_append_of_nul (h : 0 ∈ key) : cStr (key ++ tail) = cStr key := by
  induction key with
  | nil => simp at h
  | cons b key ih =>
    rw [List.cons_append, cStr_cons, cStr_cons]
    by_cases hb : b = 0
    · rw [if_pos hb, if_pos hb]
    · have hmem : 0 ∈ key := (List.mem_cons.mp h).resolve_left (Ne.symm hb)
      rw [if_neg hb, if_neg hb, ih hmem]

theorem cStr_append_of_no_nul (h : 0 ∉ key) : cStr (key ++ tail) = key ++ cStr tail := by
  induction key with
  | nil => rfl
  | cons b key ih =>
    have hb : b ≠ 0 := fun he => h (he ▸ List.mem_cons_self)
    have hrest : 0 ∉ key := fun hm => h (List.mem_cons_of_mem _ hm)
    rw [List.cons_append, cStr_cons, if_neg hb, ih hrest, List.cons_append]

theorem cStr_of_no_nul (h : 0 ∉ key) : cStr key = key := by
  have happ := @cStr_append_of_no_nul key [] h
  simpa [cStr] using happ

/-- What follows a key in memory is read with it unless it ends in itself. -/
theorem cStr_append_eq_iff : cStr (key ++ tail) = cStr key ↔ 0 ∈ key ∨ cStr tail = [] := by
  by_cases h : 0 ∈ key
  · simp [h, cStr_append_of_nul h]
  · rw [cStr_append_of_no_nul h, cStr_of_no_nul h]
    simp [h]

end CStrings

section Places

variable {u : Uninit} {st st' : MpStore} {c : Command}

/-- `string(cmd->key)` for the slot of an ACCEPT -/
def appliedKey (u : Uninit) (cmd : Command) : Bytes := cStr (cmd.key ++ u.keyTail)

/-- The acceptor files a command under `key`, applies it under `key`, and finds
a log there. -/
structure SameKey (u : Uninit) (key : Bytes) (c : Command) : Prop where
  filed : requestKey u (makeMpRequestPayload c) = key
  applied : ∀ slot, appliedKey u
    (acceptedCommand (extractRequestPayloadToCommand (makeMpRequestPayload c)) slot) = key
  handled : ∀ st, (paxosRequestHandler u st
    (makeMpRequestPayload { c with mpReqType := .accept })).isSome

theorem applyAccepted_isSome {cmd : Command} {key : Bytes} {cl : CommandsList} {i : ℕ}
    (hkey : appliedKey u cmd = key) : (applyAccepted u (st.setLog key cl) cmd i).isSome := by
  unfold applyAccepted
  split
  · have hlog : (st.setLog key cl).logMap (cStr (cmd.key ++ u.keyTail)) = some cl := by
      rw [show cStr (cmd.key ++ u.keyTail) = key from hkey]
      simp [MpStore.setLog]
    simp [applyLastWrite, hlog]
  · rfl

theorem paxosRequestHandler_isSome {request : PaxosRequest}
    (hslot : request.slot < initCommandLength)
    (hkey : cStr (request.key ++ u.keyTail) = requestKey u request) (st : MpStore) :
    (paxosRequestHandler u st request).isSome := by
  unfold paxosRequestHandler
  dsimp only
  rw [if_pos (show (extractRequestPayloadToCommand request).index.toNat < _ from hslot)]
  cases hm : (extractRequestPayloadToCommand request).mpReqType with
  | prepare =>
    dsimp only
    split <;> rfl
  | accept =>
    dsimp only
    split
    · rw [Option.isSome_map]
      exact applyAccepted_isSome hkey
    · rfl

/-- In every round, at every slot and under every number. -/
theorem keyIdentity_iff (st st' : MpStore) (request : KeyStoreRequest) (rand : UInt32)
    (types : ℕ → RequestType) (call : InsertCall)
    (h : insertCommandStart st request rand types = some (st', call)) :
    (∀ (u : Uninit) (c : Command), c.content = call.origCmd.content →
      c.index.toNat < initCommandLength → SameKey u call.key c) ↔ 0 ∈ request.key := by
  have hstart := insertCommandStart_starts h
  have hkey : call.origCmd.key = request.key := congrArg Content.key hstart.content
  constructor
  · intro hsame
    have hslot : call.origCmd.index.toNat < initCommandLength := hstart.index ▸ hstart.currIdx_lt
    have happlied := (hsame ⟨[], [1], fun _ => .read⟩ _ rfl hslot).applied (emptyCommand .read)
    have hends : cStr (call.origCmd.key ++ [1]) = cStr call.origCmd.key := happlied
    rcases cStr_append_eq_iff.mp hends with hmem | hnil
    · exact hkey ▸ hmem
    · simp [cStr] at hnil
  · intro hnul u c hcontent hslot
    have hsame : c.key = call.origCmd.key := congrArg Content.key hcontent
    have hmem : 0 ∈ c.key := by
      rw [hsame, hkey]
      exact hnul
    have hcall : call.key = cStr c.key := by rw [hsame, InsertCall.key]
    have hfiled : requestKey u (makeMpRequestPayload c) = cStr c.key :=
      if_neg (List.ne_nil_of_mem hmem)
    have happlied : cStr (c.key ++ u.keyTail) = cStr c.key := cStr_append_of_nul hmem
    exact {
      filed := hfiled.trans hcall.symm
      applied := fun _ => happlied.trans hcall.symm
      handled := paxosRequestHandler_isSome hslot (happlied.trans hfiled.symm) }

end Places

section Example

def writeOf (key : Bytes) : KeyStoreRequest where
  type := .write
  protocol := .mp
  integer := 0
  clientid := 1
  key := key
  value := [118]

def startedWrite (key : Bytes) : InsertCall where
  request := writeOf key
  origCmd := fillCommandFromRequest (writeOf key) (getNewAllocCommand 6 1 0)
  currIdx := 0
  phase := .roundStart

theorem insertCommandStart_empty (key : Bytes) :
    insertCommandStart .empty (writeOf key) 6 (fun _ => .read) =
      some (MpStore.empty.setLog (cStr key) (newCommandsList (fun _ => .read)),
        startedWrite key) := by
  have hfirst : (newCommandsList (fun _ => .read)).firstAvailable = some 0 :=
    CommandsList.firstAvailable_eq (by decide) (by decide) (by simp)
  have hlog : MpStore.empty.lookup (fun _ => .read) (cStr key) =
      newCommandsList (fun _ => .read) := rfl
  simp only [insertCommandStart, fillCommandFromRequest, writeOf, hlog, hfirst, Option.map_some]
  rfl

theorem keyIdentity_terminated :
    SameKey ⟨[], [49], fun _ => .read⟩ [107] (startedWrite [107, 0]).origCmd :=
  (keyIdentity_iff _ _ _ _ _ _ (insertCommandStart_empty [107, 0])).mpr (by decide) _ _ rfl
    (by decide)

theorem keyIdentity_unterminated : ¬ ∀ (st st' : MpStore) (request : KeyStoreRequest)
    (rand : UInt32) (types : ℕ → RequestType) (call : InsertCall), request.type = .write →
    insertCommandStart st request rand types = some (st', call) →
      ∀ (u : Uninit) (c : Command), c.content = call.origCmd.content →
        c.index.toNat < initCommandLength → SameKey u call.key c := by
  intro h
  have hsame := h _ _ _ _ _ _ rfl (insertCommandStart_empty [107]) ⟨[], [49], fun _ => .read⟩
    (startedWrite [107]).origCmd rfl (by decide)
  have happlied := hsame.applied (emptyCommand .read)
  exact absurd happlied (by decide)

end Example

end KeyValueStore
