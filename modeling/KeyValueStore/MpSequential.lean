import KeyValueStore.AcceptDecision
import KeyValueStore.Agreement
import KeyValueStore.KeyIsolation

/-! The handler of MP requests as one computation. While its server handles requests
for other keys only, the steps of a call do what the handler computes from the
replies that the call collected. -/

namespace KeyValueStore

variable {n : ℕ} {i : Fin n} {K : Bytes} {s t u : MpSystem n}

section Spares

/-- The keys that handling a request can change: the one of its log, and the one that
the buffer of its slot spells. -/
def handledKeys (mem : Uninit) (request : PaxosRequest) : List Bytes :=
  [requestKey mem request, cStr (request.key ++ mem.keyTail)]

/-- The call of server `i` is not answered yet, and the server handles requests for
other keys only. -/
def Spares (i : Fin n) (K : Bytes) (s : MpSystem n) : MpAction n → Prop
  | .handle k mem => ∀ rpc ∈ s.calls[k]?, rpc.dst = i →
      ∀ request ∈ s.payload rpc.src rpc.call, K ∉ handledKeys mem request
  | .answer b => b ≠ i
  | _ => True

instance (i : Fin n) (K : Bytes) (s : MpSystem n) : (a : MpAction n) → Decidable (Spares i K s a)
  | .handle k mem => inferInstanceAs (Decidable (∀ rpc ∈ s.calls[k]?, rpc.dst = i →
      ∀ request ∈ s.payload rpc.src rpc.call, K ∉ handledKeys mem request))
  | .answer b => inferInstanceAs (Decidable (b ≠ i))
  | .insertCommand _ _ _ _ | .startRound _ | .finishPrepare _ _ _ | .finishAccept _ _ _ |
    .finish _ => inferInstanceAs (Decidable True)

theorem setLog_entry {st : MpStore} {key : Bytes} {cl : CommandsList} (h : key ≠ K) :
    (st.setLog key cl).entry K = st.entry K := by
  simp [MpStore.entry, MpStore.setLog, Function.update, h.symm]

theorem applyLastWrite_entry {st st' : MpStore} {key : Bytes} {index : ℕ} {found : Bool}
    (hkey : key ≠ K) (h : applyLastWrite st key index = some (found, st')) :
    st'.entry K = st.entry K := by
  obtain ⟨cl, _, he⟩ := Option.map_eq_some_iff.mp h
  split at he
  next =>
    obtain ⟨_, rfl⟩ := Prod.mk.inj he
    rfl
  next =>
    obtain ⟨_, rfl⟩ := Prod.mk.inj he
    simp [MpStore.entry, Function.update, hkey.symm]

theorem Handles.entry_eq {mem : Uninit} {st st' : MpStore} {request : PaxosRequest}
    {reply : PaxosResponse} (h : Handles mem st request st' reply)
    (hkeys : K ∉ handledKeys mem request) : st'.entry K = st.entry K := by
  obtain ⟨hlog, hbuf⟩ : requestKey mem request ≠ K ∧ cStr (request.key ++ mem.keyTail) ≠ K := by
    simpa [handledKeys, eq_comm] using hkeys
  cases h with
  | prepareAck | prepareNack | acceptNack => exact setLog_entry hlog
  | acceptAck htype hle hcl happ =>
    rw [setLog_entry hlog]
    subst hcl
    unfold applyAccepted at happ
    split at happ
    next =>
      obtain ⟨⟨found, st₂⟩, hlast, rfl⟩ := Option.map_eq_some_iff.mp happ
      rw [requestLog, CommandsList.setCmd_cmdVec, if_pos rfl] at hlast
      exact (applyLastWrite_entry hbuf hlast).trans (setLog_entry hlog)
    next =>
      obtain rfl := Option.some.inj happ
      exact setLog_entry hlog

/-- The server that takes the step. -/
def MpAction.server (s : MpSystem n) : MpAction n → Option (Fin n)
  | .handle k _ => s.calls[k]?.map Rpc.dst
  | .insertCommand b _ _ _ | .startRound b | .finishPrepare b _ _ | .finishAccept b _ _ |
    .finish b | .answer b => some b

theorem servers_of_ne {a : MpAction n} (h : mpStep s a = some t) (hne : a.server s ≠ some i) :
    t.servers i = s.servers i := by
  cases mpStep_steps h with
  | handle hrpc hk =>
    simp only [MpAction.server, hk, Option.map_some, ne_eq, Option.some.injEq] at hne
    simp [Ne.symm hne]
  | _ =>
    simp only [MpAction.server, ne_eq, Option.some.injEq] at hne
    simp [Ne.symm hne]

end Spares

section Follows

/-- The broadcast whose replies a call waits for. -/
def Phase.awaited : Phase → Option (MpRequestType × ℕ)
  | .preparing round _ => some (.prepare, round)
  | .accepting _ call _ => some (.accept, call)
  | .roundStart | .proposed _ _ | .returned => none

/-- The call of server `i` can collect these replies now. -/
def Collectable (s : MpSystem n) (i : Fin n) (type : MpRequestType) (vec : List Command) : Prop :=
  ∃ call ∈ (s.servers i).call, ∃ r, call.phase.awaited = some (type, r) ∧
    ∃ order, s.collect i r order = some vec

variable {H : MpRequestType → List Command → Prop} {start : List ProposeRound → Option (MpStore × ℕ)}
  {call : InsertCall} {st : MpStore}

/-- What a pass of the loop does when its round ended so, and what follows it. -/
def finishLoop (origCmd : Command) (currIdx : ℕ) (rest : List ProposeRound) (st : MpStore)
    (proposed : Proposed) : Option (MpStore × ℕ) :=
  (finishPass origCmd currIdx proposed st).bind fun r => insertLoop rest r.2 r.1

theorem insertLoop_again {origCmd : Command} {currIdx : ℕ} {st₁ : MpStore} (round : ProposeRound)
    (rest : List ProposeRound)
    (hstart : updateLocalValues st { origCmd with mpReqType := .prepare } = some st₁) :
    insertLoop (round :: rest) (.again origCmd currIdx) st =
      (proposeRound { origCmd with mpReqType := .prepare } round).bind
        (finishLoop { origCmd with mpReqType := .prepare } currIdx rest st₁) := by
  rw [insertLoop, insertPass, startPass, hstart, Option.map_some, Option.bind_some,
    Option.bind_assoc]
  rfl

/-- The replies of a round were collected, those of its ACCEPT phase if it had one. -/
def ProposeRound.Heard (H : MpRequestType → List Command → Prop) (round : ProposeRound) : Prop :=
  H .prepare round.prepared ∧ (round.accepted = [] ∨ H .accept round.accepted)

theorem heard_concat {rounds : List ProposeRound} (round : ProposeRound)
    (h : ∀ r ∈ rounds, r.Heard H) (hround : round.Heard H) :
    ∀ r ∈ rounds ++ [round], r.Heard H := by
  intro r hr
  rcases List.mem_append.mp hr with hr | hr
  · exact h r hr
  · rwa [List.mem_singleton.mp hr]

/-- After the rounds so far the computation is where the call is. -/
inductive Follows (H : MpRequestType → List Command → Prop) (start : List ProposeRound → Option (MpStore × ℕ))
    (call : InsertCall) (st : MpStore) : Prop
  | roundStart (hphase : call.phase = .roundStart) (rounds : List ProposeRound)
      (hheard : ∀ r ∈ rounds, r.Heard H)
      (h : ∀ rest, start (rounds ++ rest) = insertLoop rest (.again call.origCmd call.currIdx) st)
  | preparing {rounds : List ProposeRound} {r : ℕ} {own : Option (Proposal × Content)}
      (hphase : call.phase = .preparing r own) (hheard : ∀ r ∈ rounds, r.Heard H)
      (h : ∀ round rest, start (rounds ++ round :: rest) =
        (proposeRound call.origCmd round).bind (finishLoop call.origCmd call.currIdx rest st))
  | accepting {rounds : List ProposeRound} {r q : ℕ} {sentCmd : Command}
      {prepared : List Command} (hphase : call.phase = .accepting r q sentCmd)
      (prepareJunk : Command)
      (hheard : ∀ r ∈ rounds, r.Heard H) (hprepared : H .prepare prepared)
      (h : ∀ accepted acceptJunk rest,
        start (rounds ++ ⟨prepared, prepareJunk, accepted, acceptJunk⟩ :: rest) =
          (acceptPhase call.origCmd sentCmd acceptJunk accepted).bind
            (finishLoop call.origCmd call.currIdx rest st))
  | proposed {rounds : List ProposeRound} {r : ℕ} {tempCmd : Command}
      (hphase : call.phase = .proposed r tempCmd) (hheard : ∀ r ∈ rounds, r.Heard H)
      (h : ∀ rest, start (rounds ++ rest) =
        finishLoop call.origCmd call.currIdx rest st (.decided tempCmd))
  | returned {rounds : List ProposeRound} (hphase : call.phase = .returned)
      (hheard : ∀ r ∈ rounds, r.Heard H)
      (h : ∀ rest, start (rounds ++ rest) = some (st, call.currIdx))

/-- The computation is where the call of server `i` is, and agrees with the server
on what it holds for the key. -/
structure Tracks (H : MpRequestType → List Command → Prop) (start : List ProposeRound → Option (MpStore × ℕ))
    (i : Fin n) (K : Bytes) (request : KeyStoreRequest) (s : MpSystem n) (call : InsertCall)
    (st : MpStore) : Prop where
  current : (s.servers i).call = some call
  key : call.key = K
  request : call.request = request
  same : SameOn MpStore.entry {K} (s.servers i).store st
  follows : Follows H start call st

end Follows

section Step

variable {H : MpRequestType → List Command → Prop} {start : List ProposeRound → Option (MpStore × ℕ)}
  {call : InsertCall} {st : MpStore} {request : KeyStoreRequest}

theorem tracks_of_server {server : MpServer} (ht : t.servers i = server)
    (hcall : server.call = some call) (hkey : call.key = K) (hreq : call.request = request)
    (hsame : SameOn MpStore.entry {K} server.store st) (hf : Follows H start call st) :
    ∃ call' st', Tracks H start i K request t call' st' := by
  subst ht
  exact ⟨call, st, hcall, hkey, hreq, hsame, hf⟩

theorem Tracks.startRound (h : Tracks H start i K request s call st)
    (hphase : call.phase = .roundStart) (hs : startRoundStep s i call = some t) :
    ∃ call' st', Tracks H start i K request t call' st' := by
  obtain ⟨st₁, hst, rfl⟩ := Option.map_eq_some_iff.mp hs
  cases h.follows with
  | roundStart _ _ hheard hstart =>
    have hfoot := startPass_footprint { call.origCmd with mpReqType := .prepare }
    have hkey : cStr { call.origCmd with mpReqType := .prepare }.key = K := h.key
    rw [hkey] at hfoot
    obtain ⟨st', hst', hsame⟩ := hfoot.determined (a := ()) h.same
      (show startPass _ _ = some (st₁, ()) by rw [startPass, hst, Option.map_some])
    obtain ⟨_, hupd, he⟩ := Option.map_eq_some_iff.mp hst'
    obtain ⟨rfl, _⟩ := Prod.mk.inj he
    exact tracks_of_server (MpSystem.advance_broadcast_servers_self ..) rfl h.key h.request hsame
      (.preparing rfl hheard (fun round rest => by rw [hstart, insertLoop_again round rest hupd]))
  | _ hphase' => simp [hphase] at hphase'

theorem Tracks.finishPrepare (h : Tracks H start i K request s call st) {r : ℕ}
    {own : Option (Proposal × Content)} {order : List (Fin n)} {junk : Command}
    (hheard : ∀ type vec, Collectable s i type vec → H type vec)
    (hphase : call.phase = .preparing r own)
    (hs : finishPrepareStep s i call r order junk = some t) :
    ∃ call' st', Tracks H start i K request t call' st' := by
  obtain ⟨vec, hvec, hs⟩ := Option.bind_eq_some_iff.mp hs
  obtain ⟨tempCmd, htemp, rfl⟩ := Option.map_eq_some_iff.mp hs
  have hprepared : H .prepare vec :=
    hheard _ _ ⟨call, h.current, r, by rw [hphase]; rfl, order, hvec⟩
  cases h.follows with
  | @preparing rounds _ _ _ hrounds hstart =>
    cases hsend : commandToSend call.origCmd tempCmd with
    | none =>
      refine tracks_of_server (MpSystem.advance_servers_self ..) rfl h.key h.request h.same
        (.roundStart rfl (rounds ++ [⟨vec, junk, [], junk⟩]) ?_ (fun rest => ?_))
      · exact heard_concat _ hrounds ⟨hprepared, .inl rfl⟩
      · rw [List.append_assoc, List.singleton_append, hstart, proposeRound, htemp,
          Option.bind_some, hsend]
        rfl
    | some sentCmd =>
      refine tracks_of_server (MpSystem.advance_broadcast_servers_self ..) rfl h.key h.request h.same
        (.accepting rfl junk hrounds hprepared
          (fun accepted acceptJunk rest => ?_))
      rw [hstart, proposeRound, htemp, Option.bind_some, hsend]
  | _ hphase' => simp [hphase] at hphase'

theorem Tracks.finishAccept (h : Tracks H start i K request s call st) {r q : ℕ}
    {sentCmd : Command} {order : List (Fin n)} {junk : Command}
    (hheard : ∀ type vec, Collectable s i type vec → H type vec)
    (hphase : call.phase = .accepting r q sentCmd)
    (hs : finishAcceptStep s i call r q sentCmd order junk = some t) :
    ∃ call' st', Tracks H start i K request t call' st' := by
  obtain ⟨vec, hvec, hs⟩ := Option.bind_eq_some_iff.mp hs
  obtain ⟨proposed, hproposed, rfl⟩ := Option.map_eq_some_iff.mp hs
  have haccepted : H .accept vec :=
    hheard _ _ ⟨call, h.current, q, by rw [hphase]; rfl, order, hvec⟩
  cases h.follows with
  | @accepting rounds _ _ sentCmd' prepared hphase' prepareJunk hrounds hprepared hstart =>
    obtain rfl : sentCmd = sentCmd' := by
      rw [hphase] at hphase'
      cases hphase'
      rfl
    have hrounds' := heard_concat ⟨prepared, prepareJunk, vec, junk⟩ hrounds
      ⟨hprepared, .inr haccepted⟩
    have hnext : ∀ rest, start ((rounds ++ [⟨prepared, prepareJunk, vec, junk⟩]) ++ rest) =
        finishLoop call.origCmd call.currIdx rest st proposed := by
      intro rest
      rw [List.append_assoc, List.singleton_append, hstart, hproposed, Option.bind_some]
    cases proposed with
    | decided tempCmd =>
      exact tracks_of_server (MpSystem.advance_servers_self ..) rfl h.key h.request h.same
        (.proposed rfl hrounds' hnext)
    | again origCmd =>
      obtain ⟨tempCmd, _, he⟩ := Option.map_eq_some_iff.mp hproposed
      split at he
      next => cases he
      next =>
        obtain rfl := Proposed.again.inj he
        exact tracks_of_server (MpSystem.advance_servers_self ..) rfl h.key h.request h.same
          (.roundStart rfl _ hrounds' hnext)
  | _ hphase' => simp [hphase] at hphase'

theorem Tracks.finish (h : Tracks H start i K request s call st) {r : ℕ} {tempCmd : Command}
    (hphase : call.phase = .proposed r tempCmd) (hs : finishStep s i call tempCmd = some t) :
    ∃ call' st', Tracks H start i K request t call' st' := by
  obtain ⟨recording, hrec, rfl⟩ := Option.map_eq_some_iff.mp hs
  cases h.follows with
  | @proposed rounds _ tempCmd' hphase' hrounds hstart =>
    obtain rfl : tempCmd = tempCmd' := by
      rw [hphase] at hphase'
      cases hphase'
      rfl
    have hfoot := recordPass_footprint call.origCmd tempCmd call.currIdx
    rw [show cStr call.origCmd.key = K from h.key] at hfoot
    cases recording with
    | own st₁ origCmd =>
      obtain ⟨st', hst', hsame⟩ := hfoot.determined h.same
        (show recordPass _ _ _ _ = some (st₁, .inserted call.currIdx) by rw [recordPass, hrec]; rfl)
      refine tracks_of_server (MpSystem.advance_servers_self ..) rfl ?_ h.request hsame
        (.returned rfl hrounds (fun rest => ?_))
      · cases recordCommand_records hrec
        exact h.key
      · rw [hstart, finishLoop, finishPass, hst', Option.bind_some]
        cases rest <;> rfl
    | retry origCmd =>
      obtain ⟨st', hst', hsame⟩ := hfoot.determined h.same
        (show recordPass _ _ _ _ = some ((s.servers i).store, .again origCmd call.currIdx) by
          rw [recordPass, hrec]; rfl)
      refine tracks_of_server (MpSystem.advance_servers_self ..) rfl ?_ h.request hsame
        (.roundStart rfl _ hrounds (fun rest => ?_))
      · cases recordCommand_records hrec
        exact h.key
      · rw [hstart, finishLoop, finishPass, hst', Option.bind_some]
    | defeated st₁ origCmd currIdx =>
      obtain ⟨st', hst', hsame⟩ := hfoot.determined h.same
        (show recordPass _ _ _ _ = some (st₁, .again origCmd currIdx) by
          rw [recordPass, hrec]; rfl)
      refine tracks_of_server (MpSystem.advance_servers_self ..) rfl ?_ h.request hsame
        (.roundStart rfl _ hrounds (fun rest => ?_))
      · cases recordCommand_records hrec
        exact h.key
      · rw [hstart, finishLoop, finishPass, hst', Option.bind_some]
  | _ hphase' => simp [hphase] at hphase'

theorem Tracks.step {a : MpAction n} (h : Tracks H start i K request s call st)
    (hheard : ∀ type vec, Collectable s i type vec → H type vec) (hok : Spares i K s a)
    (hs : mpStep s a = some t) : ∃ call' st', Tracks H start i K request t call' st' := by
  by_cases hserver : a.server s = some i
  · cases a with
    | insertCommand b =>
      obtain rfl := Option.some.inj hserver
      simp [mpStep, h.current] at hs
    | startRound b =>
      obtain rfl := Option.some.inj hserver
      simp only [mpStep, h.current] at hs
      split at hs
      next hphase => exact h.startRound hphase hs
      next => cases hs
    | handle k mem =>
      cases mpStep_steps hs with
      | @handle _ _ rpc request' st' reply hrpc hk hreq hslot hh =>
        obtain ⟨rpc', hk', rfl⟩ := Option.map_eq_some_iff.mp hserver
        obtain rfl := Option.some.inj (hk'.symm.trans hk)
        have hentry := hh.entry_eq (hok rpc' hk rfl request' hreq)
        refine tracks_of_server (MpSystem.handled_servers ..) ?_ h.key h.request ?_ h.follows
        · rw [if_pos rfl]
          exact h.current
        · rintro key rfl
          rw [if_pos rfl]
          exact hentry.trans (h.same _ rfl)
    | finishPrepare b order junk =>
      obtain rfl := Option.some.inj hserver
      simp only [mpStep, h.current] at hs
      split at hs
      next hphase => exact h.finishPrepare hheard hphase hs
      next => cases hs
    | finishAccept b order junk =>
      obtain rfl := Option.some.inj hserver
      simp only [mpStep, h.current] at hs
      split at hs
      next hphase => exact h.finishAccept hheard hphase hs
      next => cases hs
    | finish b =>
      obtain rfl := Option.some.inj hserver
      simp only [mpStep, h.current] at hs
      split at hs
      next hphase => exact h.finish hphase hs
      next => cases hs
    | answer b => exact absurd (Option.some.inj hserver) hok
  · exact tracks_of_server (servers_of_ne hs hserver) h.current h.key h.request h.same h.follows

end Step

section Run

variable {request : KeyStoreRequest} {rand : UInt32} {types : ℕ → RequestType} {s₁ : MpSystem n}

/-- The replies that the call of server `i` collected in a state on the way from `s` to
`u`. -/
def CollectedOn (s u : MpSystem n) (i : Fin n) (K : Bytes) (type : MpRequestType)
    (vec : List Command) : Prop :=
  ∃ v, ReachableWhen mpStep (Spares i K) s v ∧ ReachableWhen mpStep (Spares i K) v u ∧
    Collectable v i type vec

/-- A call answers and leaves the key as the handler does from the replies that it
collected on the way, while its server handles requests for other keys only. -/
theorem answer_sequential
    (hstart : mpStep s (.insertCommand i request rand types) = some s₁)
    (hrun : ReachableWhen mpStep (Spares i (cStr request.key)) s₁ u)
    (hans : mpStep u (.answer i) = some t) :
    ∃ rounds st reply k,
      (∀ round ∈ rounds, round.Heard (CollectedOn s₁ u i (cStr request.key))) ∧
      mpHandler request ⟨rand, types, rounds⟩ (s.servers i).store = some (st, reply) ∧
      SameOn MpStore.entry {cStr request.key} (t.servers i).store st ∧
      t.history.head? = some (.answered i request k reply) := by
  let H := CollectedOn s₁ u i (cStr request.key)
  let start := fun rounds => insertCommand request ⟨rand, types, rounds⟩ (s.servers i).store
  have hbegin : ∃ call st, Tracks H start i (cStr request.key) request s₁ call st := by
    simp only [mpStep] at hstart
    split at hstart
    next => cases hstart
    next =>
      obtain ⟨⟨st, call⟩, hst, rfl⟩ := Option.map_eq_some_iff.mp hstart
      have hcall := insertCommandStart_starts hst
      refine tracks_of_server (MpSystem.advance_servers_self ..) rfl
        (congrArg (fun c => cStr (Content.key c)) hcall.content) hcall.request (fun _ _ => rfl)
        (.roundStart hcall.phase [] (by simp) (fun rest => ?_))
      simp only [start, List.nil_append, insertCommand, hst, Option.bind_some]
  obtain ⟨call, st, hu⟩ : ∃ call st, Tracks H start i (cStr request.key) request u call st := by
    refine hrun.invariant_towards
      (P := fun v => ∃ call st, Tracks H start i (cStr request.key) request v call st) hbegin ?_
    intro v a w hv hrest hbefore hok hs
    obtain ⟨call, st, hu⟩ := hbefore
    exact hu.step (fun type vec hvec => ⟨v, hv, hrest, hvec⟩) hok hs
  simp only [mpStep, hu.current] at hans
  split at hans
  next hphase =>
    obtain ⟨⟨st', reply⟩, hreply, rfl⟩ := Option.map_eq_some_iff.mp hans
    rw [hu.request] at hreply
    obtain ⟨st₂, hst₂, hsame⟩ := (mpAnswer_footprint request call.currIdx).determined hu.same hreply
    cases hu.follows with
    | @returned rounds _ hheard hrest =>
      refine ⟨rounds, st₂, reply, call.currIdx, hheard, ?_, ?_, by rw [hu.request]; rfl⟩
      · have hins : insertCommand request ⟨rand, types, rounds⟩ (s.servers i).store =
            some (st, call.currIdx) := by simpa only [List.append_nil] using hrest []
        rw [mpHandler, hins, Option.bind_some]
        exact hst₂
      · rw [MpSystem.advance_servers_self]
        exact hsame
    | _ hphase' => simp [hphase] at hphase'
  next => cases hans

/-- Server 0 promises server 1 a slot of another key while it decides a put with
server 2. -/
def sparedRun : List (MpAction 3) :=
  [.startRound 0, .handle 1 blankMemory,
    .insertCommand 1 { putRequest 2 50 with key := [108] } 20 readTypes, .startRound 1,
    .finishPrepare 0 [2] blankCommand, .handle 1 blankMemory, .handle 3 blankMemory,
    .finishAccept 0 [2] blankCommand, .finish 0]

theorem sparedRun_sequential : ∃ s₁ u t : MpSystem 3,
    mpStep .init (.insertCommand 0 (putRequest 1 49) 10 readTypes) = some s₁ ∧
    runWhen mpStep (Spares 0 [107]) s₁ sparedRun = some u ∧ mpStep u (.answer 0) = some t ∧
    ∃ rounds st reply k,
      (∀ round ∈ rounds, round.Heard (CollectedOn s₁ u 0 [107])) ∧
      mpHandler (putRequest 1 49) ⟨10, readTypes, rounds⟩
        ((.init : MpSystem 3).servers 0).store = some (st, reply) ∧
      SameOn MpStore.entry {[107]} (t.servers 0).store st ∧
      t.history.head? = some (.answered 0 (putRequest 1 49) k reply) := by
  have hall : (mpStep (.init : MpSystem 3) (.insertCommand 0 (putRequest 1 49) 10 readTypes)).any
      (fun s₁ => (runWhen mpStep (Spares 0 [107]) s₁ sparedRun).any
        (fun u => (mpStep u (.answer 0)).isSome)) = true := by decide +kernel
  obtain ⟨s₁, hs₁, hall⟩ := (Option.any_eq_true _ _).mp hall
  obtain ⟨u, hu, hans⟩ := (Option.any_eq_true _ _).mp hall
  obtain ⟨t, ht⟩ := Option.isSome_iff_exists.mp hans
  exact ⟨s₁, u, t, hs₁, hu, ht, answer_sequential hs₁ (reachableWhen_of_runWhen hu) ht⟩

end Run

end KeyValueStore
