import KeyValueStore.Commons
import KeyValueStore.LockOrder
import Mathlib.Data.Fintype.Card
import Mathlib.Data.List.FinRange

/-! The mutexes of the servers. A handler that proposes a command holds `mp_mutex`
while it waits for the other servers, and what they run for it takes other mutexes.
Every thread here makes a number of turns that is fixed in advance, where the source
has loops without a bound. -/

namespace KeyValueStore

open LockOrder

inductive ServerMutex
  | abdKsMap
  | cmKsMap
  | cmPq
  | cmOutque
  | mpKsMap
  | logMap
  | mp
  deriving DecidableEq

abbrev Mutex (n : ℕ) := Fin n × ServerMutex

/-- What a round of `propose` sends: a PREPARE, and unless that was refused an ACCEPT,
with the servers that obey it. -/
abbrev ProposeSends (n : ℕ) := Option (Fin n → Bool)

/-- The way of a request through `KeyStoreRequestHandler`; `passes` are the rounds of
`propose` for each pass of the loop of `insert_command`. The source bounds neither loop;
here it is fixed in advance how often they turn. -/
inductive Branch (n : ℕ)
  | cmRead (found : Bool)
  | cmWrite
  | abdReadQuery (found : Bool)
  | abdWriteQuery
  | abdWrite
  | mp (read : Bool) (passes : List (List (ProposeSends n)))
  | other

/-- What the threads of servers and clients run. The threads of the CM server loop for
ever; here they are cut off after so many messages and turns, fixed in advance. A turn
knows whether the front was ready. -/
inductive Program (n : ℕ)
  | keyStoreRequestHandler (i : Fin n) (branch : Branch n)
  | paxosRequestHandler (i : Fin n) (obeys : Bool)
  | cmRequestHandler (i : Fin n)
  | cmSendingThread (i : Fin n) (messages : ℕ)
  | cmInternalProcessingThread (i : Fin n) (turns : List Bool)
  | sendMessageToOneServer (i : Fin n) (branch : Branch n)
  | sendMessageToAllServer (phases : List (Fin n → Branch n))

section Code

variable {n : ℕ}

abbrev LockOp (n : ℕ) := Op (Mutex n) (Program n)

def locked (m : Mutex n) (ops : List (LockOp n)) : List (LockOp n) := .lock m :: ops ++ [.unlock m]

def otherServers (i : Fin n) : List (Fin n) := (List.finRange n).filter (· ≠ i)

def sendMessageToAllMpServer (i : Fin n) (obeys : Fin n → Bool) : LockOp n :=
  .call ((otherServers i).map fun a => .paxosRequestHandler a (obeys a)) ((n - 1 + 1) / 2)

def proposeSends (i : Fin n) : ProposeSends n → List (LockOp n)
  | none => [sendMessageToAllMpServer i fun _ => false]
  | some obeys => [sendMessageToAllMpServer i fun _ => false, sendMessageToAllMpServer i obeys]

def insertCommandLocks (i : Fin n) (passes : List (List (ProposeSends n))) : List (LockOp n) :=
  locked (i, .logMap) [] ++
    passes.flatMap fun rounds => rounds.flatMap (proposeSends i) ++ locked (i, .logMap) []

def keyStoreRequestLocks (i : Fin n) : Branch n → List (LockOp n)
  | .cmRead found => if found then locked (i, .cmKsMap) [] else []
  | .cmWrite => locked (i, .cmKsMap) (locked (i, .cmOutque) [])
  | .abdReadQuery found => if found then locked (i, .abdKsMap) [] else []
  | .abdWriteQuery | .abdWrite => locked (i, .abdKsMap) []
  | .mp read passes =>
    locked (i, .mp) (insertCommandLocks i passes ++ if read then locked (i, .mpKsMap) [] else [])
  | .other => []

/-- The mutexes that a program takes and the calls it waits for, with its loops cut
off. -/
def lockCode : Program n → List (LockOp n)
  | .keyStoreRequestHandler i branch => keyStoreRequestLocks i branch
  | .paxosRequestHandler i obeys =>
    locked (i, .logMap) (if obeys then locked (i, .mpKsMap) [] else [])
  | .cmRequestHandler i => locked (i, .cmPq) []
  | .cmSendingThread i messages => (List.range messages).flatMap fun _ =>
    locked (i, .cmOutque) [] ++ [.call ((otherServers i).map .cmRequestHandler) (n - 1)] ++
      locked (i, .cmOutque) []
  | .cmInternalProcessingThread i turns => turns.flatMap fun ready =>
    locked (i, .cmPq) [] ++
      if ready then locked (i, .cmKsMap) [] ++ locked (i, .cmPq) [] else []
  | .sendMessageToOneServer i branch => [.call [.keyStoreRequestHandler i branch] 1]
  | .sendMessageToAllServer phases => phases.flatMap fun branch =>
    [.call ((List.finRange n).map fun i => .keyStoreRequestHandler i (branch i)) (n / 2 + 1)]

end Code

section Order

variable {n : ℕ}

def ServerMutex.rank : ServerMutex → ℕ
  | .mp => 1
  | .abdKsMap | .cmKsMap | .cmPq | .logMap => 3
  | .cmOutque | .mpKsMap => 4

def Program.isPaxosRequestHandler : Program n → Bool
  | .paxosRequestHandler _ _ => true
  | _ => false

/-- The calls of `propose` come between `mp_mutex` and what the other servers take. -/
def lockRank : LockOp n → ℕ
  | .lock m | .unlock m => m.2.rank
  | .call kids _ => if kids.all Program.isPaxosRequestHandler then 2 else 0

def programDepth : Program n → ℕ
  | .paxosRequestHandler _ _ | .cmRequestHandler _ | .cmInternalProcessingThread _ _ => 0
  | .keyStoreRequestHandler _ _ | .cmSendingThread _ _ => 1
  | .sendMessageToOneServer _ _ | .sendMessageToAllServer _ => 2

theorem length_otherServers (i : Fin n) : (otherServers i).length = n - 1 := by
  have herase : otherServers i = (List.finRange n).erase i := by
    rw [List.Nodup.erase_eq_filter (List.nodup_finRange n), otherServers]
    exact List.filter_congr fun x _ => by simp [bne, beq_eq_decide]
  rw [herase, List.length_erase_of_mem (List.mem_finRange i), List.length_finRange]

theorem balanced_locked {held : List (Mutex n)} {m : Mutex n} {ops : List (LockOp n)}
    (hrank : ∀ h ∈ held, h.2.rank < m.2.rank) (h : Balanced lockCode lockRank (m :: held) ops) :
    Balanced lockCode lockRank held (locked m ops) := .guarded hrank h

theorem lockRank_paxosRequestHandler {i : Fin n} {obeys : Bool} {op : LockOp n}
    (hop : op ∈ lockCode (.paxosRequestHandler i obeys)) : 3 ≤ lockRank op := by
  cases obeys <;> simp [lockCode, locked] at hop
  · rcases hop with rfl | rfl <;> simp [lockRank, ServerMutex.rank]
  · rcases hop with rfl | rfl | rfl | rfl <;> simp [lockRank, ServerMutex.rank]

theorem lockRank_keyStoreRequestHandlers {kids : List (Program n)} {need : ℕ} {i : Fin n}
    {branch : Branch n} (hm : .keyStoreRequestHandler i branch ∈ kids) :
    lockRank (.call kids need) = 0 := by
  have hnot : kids.all Program.isPaxosRequestHandler = false :=
    List.all_eq_false.mpr ⟨_, hm, by simp [Program.isPaxosRequestHandler]⟩
  simp [lockRank, hnot]

theorem lockRank_call_le {kids : List (Program n)} {need : ℕ} :
    lockRank (.call kids need) ≤ 3 := by
  rw [lockRank]
  split <;> omega

theorem balanced_sendMessageToAllMpServer (i : Fin n) (obeys : Fin n → Bool) :
    Balanced lockCode lockRank [(i, .mp)] [sendMessageToAllMpServer i obeys] := by
  have hrank : ∀ need, lockRank
      (.call ((otherServers i).map fun a => .paxosRequestHandler a (obeys a)) need) = 2 := by
    intro need
    simp [lockRank, Program.isPaxosRequestHandler]
  refine .call ?_ ?_ ?_
  · rw [List.length_map, length_otherServers]
    have := i.pos
    omega
  · intro h hh
    rw [hrank, List.mem_singleton.mp hh]
    exact Nat.lt_succ_self 1
  · intro p hp op hop
    obtain ⟨a, _, rfl⟩ := List.mem_map.mp hp
    rw [hrank]
    exact Nat.le_of_succ_le (lockRank_paxosRequestHandler hop)

theorem balanced_insertCommandLocks (i : Fin n) (passes : List (List (ProposeSends n))) :
    Balanced lockCode lockRank [(i, .mp)] (insertCommandLocks i passes) := by
  have hlog : Balanced lockCode lockRank [(i, .mp)] (locked (i, .logMap) []) :=
    balanced_locked (by simp [ServerMutex.rank]) .nil
  refine hlog.append (.flatMap fun rounds _ => .append (.flatMap fun sends _ => ?_) hlog)
  cases sends with
  | none => exact balanced_sendMessageToAllMpServer i _
  | some obeys =>
    exact (balanced_sendMessageToAllMpServer i _).append (balanced_sendMessageToAllMpServer i obeys)

theorem balanced_keyStoreRequestLocks (i : Fin n) (branch : Branch n) :
    Balanced lockCode lockRank [] (keyStoreRequestLocks i branch) := by
  have hfree : ∀ m : Mutex n, Balanced lockCode lockRank [] (locked m []) :=
    fun m => balanced_locked (by simp) .nil
  cases branch with
  | cmRead found | abdReadQuery found =>
    cases found with
    | false => exact .nil
    | true => exact hfree _
  | abdWriteQuery | abdWrite => exact hfree _
  | other => exact .nil
  | cmWrite => exact balanced_locked (by simp) (balanced_locked (by simp [ServerMutex.rank]) .nil)
  | mp read passes =>
    refine balanced_locked (by simp) ((balanced_insertCommandLocks i passes).append ?_)
    cases read with
    | false => exact .nil
    | true => exact balanced_locked (by simp [ServerMutex.rank]) .nil

theorem balanced_lockCode [NeZero n] (p : Program n) :
    Balanced lockCode lockRank [] (lockCode p) := by
  have hfree : ∀ m : Mutex n, Balanced lockCode lockRank [] (locked m []) :=
    fun m => balanced_locked (by simp) .nil
  cases p with
  | keyStoreRequestHandler i branch => exact balanced_keyStoreRequestLocks i branch
  | paxosRequestHandler i obeys =>
    cases obeys with
    | false => exact hfree _
    | true => exact balanced_locked (by simp) (balanced_locked (by simp [ServerMutex.rank]) .nil)
  | cmRequestHandler i => exact hfree _
  | cmSendingThread i messages =>
    refine .flatMap fun _ _ => ((hfree _).append (.call ?_ (by simp) fun p hp op hop => ?_)).append
      (hfree _)
    · rw [List.length_map, length_otherServers]
    · obtain ⟨a, _, rfl⟩ := List.mem_map.mp hp
      have hup : lockRank op = 3 := by
        simp [lockCode, locked] at hop
        rcases hop with rfl | rfl <;> rfl
      rw [hup]
      exact lockRank_call_le
  | cmInternalProcessingThread i turns =>
    refine .flatMap fun ready _ => (hfree _).append ?_
    cases ready with
    | false => exact .nil
    | true => exact (hfree _).append (hfree _)
  | sendMessageToOneServer i branch =>
    refine .call (by simp) (by simp) fun p hp op hop => ?_
    rw [lockRank_keyStoreRequestHandlers List.mem_cons_self]
    exact Nat.zero_le _
  | sendMessageToAllServer phases =>
    refine .flatMap fun branch _ => .call ?_ (by simp) fun p hp op hop => ?_
    · rw [List.length_map, List.length_finRange]
      have := Nat.pos_of_neZero n
      omega
    · obtain ⟨i, hi, rfl⟩ := List.mem_map.mp hp
      rw [lockRank_keyStoreRequestHandlers hp]
      exact Nat.zero_le _

theorem call_mem_insertCommandLocks {i : Fin n} {passes : List (List (ProposeSends n))}
    {kids : List (Program n)} {need : ℕ} (hm : .call kids need ∈ insertCommandLocks i passes) :
    ∃ obeys, Op.call kids need = sendMessageToAllMpServer i obeys := by
  rcases List.mem_append.mp hm with hm | hm
  · simp [locked] at hm
  · obtain ⟨rounds, _, hm⟩ := List.mem_flatMap.mp hm
    rcases List.mem_append.mp hm with hm | hm
    · obtain ⟨sends, _, hm⟩ := List.mem_flatMap.mp hm
      cases sends with
      | none => exact ⟨_, List.mem_singleton.mp hm⟩
      | some obeys =>
        rcases List.mem_pair.mp hm with he | he
        · exact ⟨_, he⟩
        · exact ⟨obeys, he⟩
    · simp [locked] at hm

theorem deep_keyStoreRequestLocks {i : Fin n} {branch : Branch n} {kids : List (Program n)}
    {need : ℕ} (hm : .call kids need ∈ keyStoreRequestLocks i branch) :
    ∀ q ∈ kids, programDepth q = 0 := by
  cases branch with
  | cmRead found | abdReadQuery found => cases found <;> simp [keyStoreRequestLocks, locked] at hm
  | cmWrite | abdWriteQuery | abdWrite | other => simp [keyStoreRequestLocks, locked] at hm
  | mp read passes =>
    have hm : .call kids need ∈ insertCommandLocks i passes := by
      cases read <;> simpa [keyStoreRequestLocks, locked] using hm
    obtain ⟨obeys, he⟩ := call_mem_insertCommandLocks hm
    obtain ⟨rfl, _⟩ := Op.call.inj he
    intro q hq
    obtain ⟨a, _, rfl⟩ := List.mem_map.mp hq
    rfl

theorem deep_lockCode : Deep (lockCode (n := n)) programDepth := by
  intro p kids need hm q hq
  cases p with
  | keyStoreRequestHandler i branch =>
    rw [deep_keyStoreRequestLocks hm q hq]
    exact Nat.one_pos
  | paxosRequestHandler i obeys => cases obeys <;> simp [lockCode, locked] at hm
  | cmRequestHandler i => simp [lockCode, locked] at hm
  | cmSendingThread i messages =>
    obtain ⟨_, rfl, rfl⟩ : _ ∧ kids = (otherServers i).map .cmRequestHandler ∧ need = n - 1 := by
      simpa [lockCode, locked] using hm
    obtain ⟨a, _, rfl⟩ := List.mem_map.mp hq
    exact Nat.one_pos
  | cmInternalProcessingThread i turns =>
    obtain ⟨ready, _, hm⟩ := List.mem_flatMap.mp hm
    cases ready <;> simp [locked] at hm
  | sendMessageToOneServer i branch =>
    obtain ⟨rfl, _⟩ : kids = [.keyStoreRequestHandler i branch] ∧ need = 1 := by
      simpa [lockCode] using hm
    obtain rfl := List.mem_singleton.mp hq
    exact Nat.lt_succ_self 1
  | sendMessageToAllServer phases =>
    obtain ⟨branch, _, hm⟩ := List.mem_flatMap.mp hm
    obtain ⟨rfl, _⟩ := Op.call.inj (List.mem_singleton.mp hm)
    obtain ⟨i, _, rfl⟩ := List.mem_map.mp hq
    exact Nat.lt_succ_self 1

end Order

section Settle

variable {n : ℕ} [NeZero n] {s t : Threads (Mutex n) (Program n)}

/-- Whatever requests the servers have taken, and in whatever order their threads go on,
none of them waits for ever: some thread can go on until all have ended. The steps are
bounded because the loops are cut off. -/
theorem servers_settle (h : Reachable (step lockCode) .init s) (order : List ℕ)
    (hrun : runActions (step lockCode) s (order.map .run) = some t) :
    order.length + t.work (progCost lockCode programDepth) ≤
        s.work (progCost lockCode programDepth) ∧
      (t.Settled ∨ ∃ i u, step lockCode t (.run i) = some u) :=
  LockOrder.settles (fun p => (balanced_lockCode p).ranked) deep_lockCode h order hrun

end Settle

section Crossed

/-- The branch of a put that all other servers obey at once. -/
def agreedPut : Branch 3 := .mp false [[some fun _ => true]]

/-- Servers 0 and 1 both handle a put, and both hold their `mp_mutex`. -/
def crossedPuts : List (Act (Program 3)) :=
  [.start (.sendMessageToOneServer 0 agreedPut), .start (.sendMessageToOneServer 1 agreedPut),
    .run 0, .run 1, .run 2, .run 3]

/-- They read their logs, and send their PREPARE to each other and to server 2. -/
def crossedOrder : List ℕ := [2, 3, 2, 3, 2, 3]

theorem crossedPuts_settle : ∃ s t : Threads (Mutex 3) (Program 3),
    runWhen (step lockCode) (fun _ _ => True) .init crossedPuts = some s ∧
    (s.owner (0, .mp) = some 2 ∧ s.owner (1, .mp) = some 3) ∧
    runActions (step lockCode) s (crossedOrder.map .run) = some t ∧
    crossedOrder.length + t.work (progCost lockCode programDepth) ≤
        s.work (progCost lockCode programDepth) ∧
      (t.Settled ∨ ∃ i u, step lockCode t (.run i) = some u) := by
  have hall : (runWhen (step lockCode) (fun _ _ => True) .init crossedPuts).any (fun s =>
      (s.owner (0, .mp) = some 2 ∧ s.owner (1, .mp) = some 3) &&
        (runActions (step lockCode) s (crossedOrder.map .run)).isSome) = true := by
    decide +kernel
  obtain ⟨s, hs, hall⟩ := (Option.any_eq_true _ _).mp hall
  obtain ⟨howners, hsome⟩ := Bool.and_eq_true_iff.mp hall
  obtain ⟨t, ht⟩ := Option.isSome_iff_exists.mp hsome
  exact ⟨s, t, hs, of_decide_eq_true howners, ht,
    servers_settle (reachableWhen_of_runWhen hs) crossedOrder ht⟩

end Crossed

end KeyValueStore
