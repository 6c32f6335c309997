import KeyValueStore.CarriedCommands

/-! The commands in the logs are those that clients submitted. A command keeps
its fields over every hop but one: the reply to PREPARE takes the type of the
slot's command from the request. -/

namespace KeyValueStore

variable {n : ℕ} {s t : MpSystem n}

/-- A client's request, with the command id that was drawn for it. -/
def Submitted (s : MpSystem n) (x : Content) : Prop :=
  ∃ i request, .called i request x.commandId ∈ s.history ∧
    x.commandType = request.type ∧ x.key = request.key ∧ x.value = request.value

section Condition

/-- No PREPARE gets an ACK at a slot that holds a command of another type. -/
def ReportsType (s : MpSystem n) (k : ℕ) (u : Uninit) : Prop :=
  ∀ rpc ∈ s.calls[k]?, ∀ request ∈ s.payload rpc.src rpc.call, request.mptype = .prepare →
    s.promise rpc.dst (requestKey u request) request.slot < request.proposal →
    (requestSlot u (s.servers rpc.dst).store request).commandId ≠ 0 →
    getCCommandType request.commandType =
      (requestSlot u (s.servers rpc.dst).store request).commandType

/-- Requests are READs and WRITEs, and no step copies a field from a wrong place. -/
def CopiesCommands (s : MpSystem n) : MpAction n → Prop
  | .insertCommand _ request _ _ => request.type = .read ∨ request.type = .write
  | .handle k u => ReportsType s k u
  | .finishAccept i order junk => JunkDiffers s i order junk
  | _ => True

instance (s : MpSystem n) (k : ℕ) (u : Uninit) : Decidable (ReportsType s k u) :=
  inferInstanceAs (Decidable (∀ rpc ∈ s.calls[k]?, ∀ request ∈ s.payload rpc.src rpc.call,
    _ → _ → _ → _ = _))

instance (s : MpSystem n) (a : MpAction n) : Decidable (CopiesCommands s a) :=
  match a with
  | .insertCommand _ request _ _ =>
    inferInstanceAs (Decidable (request.type = .read ∨ request.type = .write))
  | .handle k u => inferInstanceAs (Decidable (ReportsType s k u))
  | .finishAccept i order junk => inferInstanceAs (Decidable (JunkDiffers s i order junk))
  | .startRound _ | .finishPrepare _ _ _ | .finish _ | .answer _ => .isTrue trivial

end Condition

section Invariant

def Genuine (s : MpSystem n) (x : Content) : Prop :=
  x.commandId ≠ 0 → Submitted s x ∧ (x.commandType = .read ∨ x.commandType = .write)

theorem Submitted.mono (he : Extends s t) {x : Content} (h : Submitted s x) : Submitted t x := by
  obtain ⟨i, request, hm, hsame⟩ := h
  exact ⟨i, request, he.mem_history hm, hsame⟩

theorem genuine_carried : Carried (n := n) Genuine CopiesCommands where
  mono he h hne := ⟨(h hne).1.mono he, (h hne).2⟩
  zero h hne := absurd h hne
  called hok hm _ := ⟨⟨_, _, hm, rfl, rfl, rfl⟩, hok⟩
  wire h hne := by
    obtain ⟨⟨i, request, hm, htype, hrest⟩, ht⟩ := h hne
    rw [wireType_eq ht]
    exact ⟨⟨i, request, hm, htype, hrest⟩, ht⟩
  report hok hk hreq hmp hlt h hne := by
    rw [hok _ hk _ hreq hmp hlt hne]
    exact h hne
  junk hok := hok

end Invariant

section Integrity

/-- Every command with an id that a log holds is the one a client submitted
under that id. -/
def LogsSubmitted (s : MpSystem n) : Prop :=
  ∀ i key cl j, (s.servers i).store.logMap key = some cl → (cl.cmdVec j).commandId ≠ 0 →
    Submitted s (cl.cmdVec j).content

theorem logsSubmitted_of_copiesCommands (h : ReachableWhen mpStep CopiesCommands .init s) :
    LogsSubmitted s :=
  fun i key cl j hcl hne => ((carries_of_reachable genuine_carried h).slots i key cl hcl j hne).1

def MpSystem.logged (s : MpSystem n) (i : Fin n) (key : Bytes) (j : ℕ) :
    Option (UInt32 × RequestType) :=
  ((s.servers i).store.logMap key).map (fun cl =>
    ((cl.cmdVec j).commandId, (cl.cmdVec j).commandType))

theorem learningRun_logsSubmitted : ∃ s : MpSystem 3,
    runWhen mpStep CopiesCommands .init learningRun = some s ∧
    s.logged 1 [107] 0 = some (11, .write) ∧ LogsSubmitted s := by
  have hrun : (runWhen mpStep CopiesCommands .init learningRun).map (fun s => s.logged 1 [107] 0) =
      some (some (11, .write)) := by decide
  obtain ⟨s, hs, hlog⟩ := Option.map_eq_some_iff.mp hrun
  exact ⟨s, hs, hlog, logsSubmitted_of_copiesCommands (reachableWhen_of_runWhen hs)⟩

def getRequest (client : UInt32) : KeyStoreRequest := ⟨.read, .mp, 0, client, [107], []⟩

/-- Server 1 learns of a WRITE from server 2 while it runs a READ itself. -/
def readingRun : List (MpAction 3) :=
  [.insertCommand 0 (putRequest 1 49) 10 readTypes, .startRound 0, .handle 1 blankMemory,
    .finishPrepare 0 [2] blankCommand, .handle 2 blankMemory, .finishAccept 0 [2] blankCommand,
    .finish 0, .insertCommand 1 (getRequest 2) 20 readTypes, .startRound 1,
    .handle 3 blankMemory, .finishPrepare 1 [2] blankCommand, .handle 4 blankMemory,
    .finishAccept 1 [2] blankCommand, .finish 1]

def MpSystem.submissions (s : MpSystem n) : List (UInt32 × RequestType) :=
  s.history.filterMap fun
    | .called _ request commandId => some (commandId, request.type)
    | _ => none

theorem readingRun_write_becomes_read : ∃ s : MpSystem 3,
    ReachableWhen mpStep DrawsFreshId .init s ∧ s.logged 1 [107] 0 = some (11, .read) ∧
    ¬ LogsSubmitted s := by
  have hrun : (runWhen mpStep DrawsFreshId .init readingRun).map
      (fun s => (s.logged 1 [107] 0, s.submissions)) =
      some (some (11, .read), [(22, .read), (11, .write)]) := by decide
  obtain ⟨s, hs, he⟩ := Option.map_eq_some_iff.mp hrun
  simp only [Prod.mk.injEq] at he
  obtain ⟨hlog, hsub⟩ := he
  refine ⟨s, reachableWhen_of_runWhen hs, hlog, fun hall => ?_⟩
  obtain ⟨cl, hcl, hcmd⟩ := Option.map_eq_some_iff.mp hlog
  simp only [Prod.mk.injEq] at hcmd
  obtain ⟨i, request, hm, htype, _⟩ := hall 1 [107] cl 0 hcl (hcmd.1 ▸ by decide)
  have hmem : ((cl.cmdVec 0).commandId, request.type) ∈ s.submissions :=
    List.mem_filterMap.mpr ⟨_, hm, rfl⟩
  have ht : request.type = .read := htype.symm.trans hcmd.2
  rw [hsub, hcmd.1, ht] at hmem
  exact absurd hmem (by decide)

end Integrity

end KeyValueStore
