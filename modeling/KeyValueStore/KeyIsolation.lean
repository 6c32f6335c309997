import KeyValueStore.KeyStoreServer

/-! Requests for one key and the answers to requests for another. Every branch
of the handler works on map entries under C strings, so keys that agree up to
their first NUL share an entry, and ABD's default entry is a key like any other. -/

namespace KeyValueStore

section MpFootprint

variable {K : Bytes} {α : Type*}

abbrev MpEntry := Option CommandsList × Option ValueT

def MpStore.entry (st : MpStore) (key : Bytes) : MpEntry := (st.logMap key, st.mpKsMap key)

def MpStore.putEntry (st : MpStore) (K : Bytes) (e : MpEntry) : MpStore :=
  ⟨Function.update st.logMap K e.1, Function.update st.mpKsMap K e.2⟩

theorem MpStore.putEntry_entry (st : MpStore) : st.putEntry K (st.entry K) = st := by
  simp [MpStore.putEntry, MpStore.entry]

/-- A computation that could as well run on the entry of one key alone. -/
theorem Footprint.of_entry {m : MpStore → Option (MpStore × α)}
    (hm : ∀ (st : MpStore) e, m (st.putEntry K e) =
      (m (MpStore.empty.putEntry K e)).map fun r => (st.putEntry K (r.1.entry K), r.2)) :
    Footprint MpStore.entry {K} {K} m := by
  refine .of_update (Set.mem_singleton K)
    (fun e => (m (MpStore.empty.putEntry K e)).map fun r => (r.1.entry K, r.2))
    (fun st e => st.putEntry K e) (fun st e => ?_) (fun st e k hk => ?_) (fun st => ?_)
  · simp [MpStore.entry, MpStore.putEntry]
  · simp [MpStore.entry, MpStore.putEntry, Function.update, hk]
  · have hst := hm st (st.entry K)
    rw [st.putEntry_entry] at hst
    rw [hst, Option.map_map]
    rfl

theorem insertCommandStart_footprint (request : KeyStoreRequest) (rand : UInt32)
    (types : ℕ → RequestType) : Footprint MpStore.entry {cStr request.key} {cStr request.key}
      (fun st => insertCommandStart st request rand types) := by
  refine .of_entry (fun st e => ?_)
  simp [insertCommandStart, Function.comp_def, MpStore.lookup, MpStore.putEntry, MpStore.setLog,
    MpStore.entry, fillCommandFromRequest]

theorem startPass_footprint (origCmd : Command) :
    Footprint MpStore.entry {cStr origCmd.key} {cStr origCmd.key} (startPass origCmd) := by
  refine .of_entry (fun st e => ?_)
  simp [startPass, updateLocalValues, Function.comp_def, MpStore.putEntry, MpStore.setLog,
    MpStore.entry]

theorem recordPass_footprint (origCmd tempCmd : Command) (currIdx : ℕ) :
    Footprint MpStore.entry {cStr origCmd.key} {cStr origCmd.key}
      (recordPass origCmd tempCmd currIdx) := by
  refine .of_entry (fun st e => ?_)
  obtain ⟨log, value⟩ := e
  cases log with
  | none => simp [recordPass, recordCommand, MpStore.putEntry]
  | some cl =>
    simp only [recordPass, recordCommand, MpStore.putEntry, Function.update_self, Option.bind_some]
    split
    · split
      · simp [MpStore.setLog, MpStore.entry]
      · simp [Function.comp_def, MpStore.entry]
    · simp [Function.comp_def, MpStore.setLog, MpStore.entry]

theorem mpAnswer_footprint (request : KeyStoreRequest) (index : ℕ) :
    Footprint MpStore.entry {cStr request.key} {cStr request.key}
      (fun st => mpAnswer st request index) := by
  refine .of_entry (fun st e => ?_)
  obtain ⟨log, value⟩ := e
  unfold mpAnswer
  split
  next =>
    cases log with
    | none => simp [applyLastWrite, MpStore.putEntry]
    | some cl =>
      simp only [applyLastWrite, MpStore.putEntry, Function.update_self, Option.map_some,
        Option.bind_some]
      cases lastWrite cl index with
      | none => simp [MpStore.entry]
      | some prev => cases value <;> simp [MpStore.entry]
  next => simp [MpStore.putEntry, MpStore.entry]

theorem key_of_proposeRound {origCmd origCmd' : Command} {round : ProposeRound}
    (h : proposeRound origCmd round = some (.again origCmd')) : origCmd'.key = origCmd.key := by
  obtain ⟨tempCmd, _, h⟩ := Option.bind_eq_some_iff.mp h
  split at h
  next =>
    simp only [Option.some.injEq, Proposed.again.injEq] at h
    rw [← h]
    rfl
  next =>
    obtain ⟨_, _, h⟩ := Option.map_eq_some_iff.mp h
    split at h
    next => simp at h
    next =>
      simp only [Proposed.again.injEq] at h
      rw [← h]
      rfl

def Pass.OnKey (K : Bytes) : Pass → Prop
  | .again origCmd _ => cStr origCmd.key = K
  | .inserted _ => True

theorem recordPass_onKey {origCmd tempCmd : Command} {currIdx : ℕ} {st st' : MpStore} {pass : Pass}
    (h : recordPass origCmd tempCmd currIdx st = some (st', pass)) :
    pass.OnKey (cStr origCmd.key) := by
  obtain ⟨recording, hrec, he⟩ := Option.map_eq_some_iff.mp h
  cases recordCommand_records hrec with
  | own =>
    obtain ⟨_, rfl⟩ := Prod.mk.inj he
    exact trivial
  | retry | defeated =>
    obtain ⟨_, rfl⟩ := Prod.mk.inj he
    rfl

theorem insertPass_footprint (origCmd : Command) (currIdx : ℕ) (round : ProposeRound) :
    Footprint MpStore.entry {cStr origCmd.key} {cStr origCmd.key}
      (insertPass origCmd currIdx round) := by
  refine (startPass_footprint origCmd).bind (f := fun _ st =>
    (proposeRound origCmd round).bind fun proposed => finishPass origCmd currIdx proposed st)
    (fun _ => .lift _ (fun proposed _ => ?_))
  cases proposed with
  | again origCmd' => exact .pure _
  | decided tempCmd => exact recordPass_footprint origCmd tempCmd currIdx

theorem insertPass_onKey {origCmd : Command} {currIdx : ℕ} {round : ProposeRound}
    {st st' : MpStore} {pass : Pass} (h : insertPass origCmd currIdx round st = some (st', pass)) :
    pass.OnKey (cStr origCmd.key) := by
  obtain ⟨_, _, h⟩ := Option.bind_eq_some_iff.mp h
  obtain ⟨proposed, hp, h⟩ := Option.bind_eq_some_iff.mp h
  cases proposed with
  | again origCmd' =>
    obtain ⟨_, rfl⟩ := Prod.mk.inj (Option.some.inj h)
    exact congrArg cStr (key_of_proposeRound hp)
  | decided tempCmd => exact recordPass_onKey h

theorem insertLoop_footprint (rounds : List ProposeRound) {pass : Pass} (hpass : pass.OnKey K) :
    Footprint MpStore.entry {K} {K} (insertLoop rounds pass) := by
  induction rounds generalizing pass with
  | nil =>
    cases pass with
    | again => exact .fail
    | inserted => exact .pure _
  | cons round rounds ih =>
    cases pass with
    | again origCmd currIdx =>
      have hkey : cStr origCmd.key = K := hpass
      subst hkey
      refine (insertPass_footprint { origCmd with mpReqType := .prepare } currIdx round).bind
        (f := insertLoop rounds) (fun h => ih ?_)
      have hnext := insertPass_onKey h
      exact hnext
    | inserted => exact .pure _

theorem mpHandler_footprint (request : KeyStoreRequest) (oracle : MpOracle) :
    Footprint MpStore.entry {cStr request.key} {cStr request.key} (mpHandler request oracle) := by
  refine Footprint.bind (m := insertCommand request oracle)
    (f := fun index st => mpAnswer st request index) ?_ (fun _ => mpAnswer_footprint request _)
  refine (insertCommandStart_footprint request oracle.rand oracle.types).bind
    (f := fun call => insertLoop oracle.rounds (.again call.origCmd call.currIdx)) (fun h => ?_)
  refine insertLoop_footprint oracle.rounds ?_
  exact congrArg (fun c => cStr (Content.key c)) (insertCommandStart_starts h).content

end MpFootprint

section Footprints

variable {n : ℕ}

theorem abdHandler_footprint (request : KeyStoreRequest) :
    Footprint (fun (ks : KsMap) key => ks key) {cStr request.key, sentinelKey} {cStr request.key}
      (fun ks => abdHandler ks request) where
  frame {ks ks' reply} h key hkey := by
    rcases abdHandler_entries h with ⟨_, rfl⟩ | ⟨_, v, _, rfl⟩
    · rfl
    · exact Function.update_of_ne hkey _ _
  determined {ks ks' ks₁ reply} hsame h := by
    have hown : ks (cStr request.key) = ks' (cStr request.key) := hsame _ (by simp)
    have hdefault : ks sentinelKey = ks' sentinelKey := hsame _ (by simp)
    have hquery : readQueryReply ks request = readQueryReply ks' request := by
      rw [readQueryReply, readQueryReply, hown]
    unfold abdHandler at h ⊢
    rw [hown, hdefault, hquery] at h
    cases htype : request.type with
    | read =>
      simp only [htype, Option.some.injEq, Prod.mk.injEq] at h ⊢
      obtain ⟨rfl, rfl⟩ := h
      exact ⟨ks', ⟨rfl, rfl⟩, hsame⟩
    | readQuery =>
      simp only [htype] at h ⊢
      obtain ⟨reply, hreply, he⟩ := Option.map_eq_some_iff.mp h
      obtain ⟨rfl, rfl⟩ := Prod.mk.inj he
      exact ⟨ks', by rw [hreply, Option.map_some], hsame⟩
    | writeQuery =>
      simp only [htype] at h ⊢
      obtain ⟨v, hv, he⟩ := Option.map_eq_some_iff.mp h
      obtain ⟨rfl, rfl⟩ := Prod.mk.inj he
      exact ⟨ks', by rw [hv, Option.map_some], hsame⟩
    | write =>
      simp only [htype] at h ⊢
      obtain ⟨v, hv, he⟩ := Option.map_eq_some_iff.mp h
      obtain ⟨rfl, rfl⟩ := Prod.mk.inj he
      refine ⟨_, by rw [hv, Option.map_some], fun key hkey => ?_⟩
      by_cases hk : key = cStr request.key
      · simp [hk]
      · simpa [Function.update, hk] using hsame key hkey

/-- The entries on which the answer to a request for a key depends. -/
def readEntries : ProtocolType → Bytes → Set Bytes
  | .cm, key => {k | k = cStr key ∧ key ≠ sentinelKey}
  | .abd, key => {cStr key, sentinelKey}
  | .mp, key => {cStr key}

/-- The CM branch with a clock that does not overflow. -/
def cmHandled (mynodenumber : Fin n) (request : KeyStoreRequest) (node : CmNode n) :
    CmNode n × KeyStoreResponse :=
  match request.type with
  | .read => (node, cmReadReply node.cmKsMap request)
  | .write => (cmWritten mynodenumber request node, { code := .ok, protocol := .cm })
  | _ => (node, { protocol := .cm })

theorem cmHandler_eq_some {mynodenumber : Fin n} {request : KeyStoreRequest} {node : CmNode n}
    {r : CmNode n × KeyStoreResponse} : cmHandler mynodenumber request node = some r ↔
      (request.type = .write → node.t mynodenumber < intMax) ∧
        r = cmHandled mynodenumber request node := by
  cases htype : request.type with
  | write =>
    simp only [cmHandler, cmHandled, htype, Option.map_eq_some_iff, cmWrite_eq_some]
    constructor
    · rintro ⟨_, ⟨hmax, rfl⟩, rfl⟩
      exact ⟨fun _ => hmax, rfl⟩
    · rintro ⟨hmax, rfl⟩
      exact ⟨_, ⟨hmax trivial, rfl⟩, rfl⟩
  | readQuery | writeQuery | read => simp [cmHandler, cmHandled, htype, eq_comm]

theorem cmHandled_cmKsMap (mynodenumber : Fin n) (request : KeyStoreRequest) (node : CmNode n)
    (key : Bytes) : (cmHandled mynodenumber request node).1.cmKsMap key =
      if request.type = .write ∧ key = cStr request.key
        then some (cmWrittenValue request (node.cmKsMap key)) else node.cmKsMap key := by
  cases htype : request.type with
  | write =>
    by_cases hk : key = cStr request.key
    · simp [cmHandled, htype, cmWritten, enqueueInOutgoingQueue, hk]
    · simp [cmHandled, htype, cmWritten, enqueueInOutgoingQueue, hk, Function.update]
  | readQuery | writeQuery | read => simp [cmHandled, htype]

theorem cmHandled_reply (mynodenumber : Fin n) {request : KeyStoreRequest} {node other : CmNode n}
    (hsame : SameOn (fun (node : CmNode n) key => node.cmKsMap key) (readEntries .cm request.key)
      node other) :
    (cmHandled mynodenumber request node).2 = (cmHandled mynodenumber request other).2 := by
  unfold cmHandled cmReadReply
  split
  next =>
    by_cases hkey : request.key = sentinelKey
    · simp [hkey]
    · simp only [if_neg hkey, hsame _ ⟨rfl, hkey⟩]
  next => rfl
  next => rfl

theorem cmHandled_footprint (mynodenumber : Fin n) (request : KeyStoreRequest) :
    Footprint (fun (node : CmNode n) key => node.cmKsMap key) (readEntries .cm request.key)
      {cStr request.key} (fun node => some (cmHandled mynodenumber request node)) where
  frame {node node' reply} h key hkey := by
    obtain rfl : (cmHandled mynodenumber request node).1 = node' :=
      congrArg Prod.fst (Option.some.inj h)
    rw [cmHandled_cmKsMap, if_neg (fun hc => hkey hc.2)]
  determined {node other node' reply} hsame h := by
    obtain rfl : (cmHandled mynodenumber request node).1 = node' :=
      congrArg Prod.fst (Option.some.inj h)
    obtain rfl : (cmHandled mynodenumber request node).2 = reply :=
      congrArg Prod.snd (Option.some.inj h)
    refine ⟨_, by rw [cmHandled_reply mynodenumber hsame], fun key hkey => ?_⟩
    simp only [cmHandled_cmKsMap, hsame key hkey]

inductive KeyStoreEntry
  | cm (entry : Option CmValue)
  | abd (entry : Option AbdValue)
  | mp (entry : MpEntry)

def KeyStoreServer.entry (s : KeyStoreServer n) : ProtocolType × Bytes → KeyStoreEntry
  | (.cm, key) => .cm (s.cm.cmKsMap key)
  | (.abd, key) => .abd (s.abdKsMap key)
  | (.mp, key) => .mp (s.mp.entry key)

/-- A WRITE that overflows the server's clock, whatever its key. -/
def KeyStoreServer.Exhausted (mynodenumber : Fin n) (s : KeyStoreServer n)
    (request : KeyStoreRequest) : Prop :=
  request.protocol = .cm ∧ request.type = .write ∧ intMax ≤ s.cm.t mynodenumber

/-- As `keyStoreRequestHandler`, with clocks that do not overflow. -/
def unboundedHandler (mynodenumber : Fin n) (r : KeyStoreRequest × MpOracle)
    (s : KeyStoreServer n) : Option (KeyStoreServer n × KeyStoreResponse) :=
  match r.1.protocol with
  | .cm => (some (cmHandled mynodenumber r.1 s.cm)).map fun a => ({ s with cm := a.1 }, a.2)
  | .abd | .mp => keyStoreRequestHandler mynodenumber r s

theorem keyStoreRequestHandler_eq {mynodenumber : Fin n} {r : KeyStoreRequest × MpOracle}
    {s : KeyStoreServer n} (h : ¬ s.Exhausted mynodenumber r.1) :
    keyStoreRequestHandler mynodenumber r s = unboundedHandler mynodenumber r s := by
  unfold unboundedHandler
  cases hprotocol : r.1.protocol with
  | cm =>
    have hcm : cmHandler mynodenumber r.1 s.cm = some (cmHandled mynodenumber r.1 s.cm) :=
      cmHandler_eq_some.mpr ⟨fun htype => Nat.lt_of_not_le fun hmax =>
        h ⟨hprotocol, htype, hmax⟩, rfl⟩
    simp only [keyStoreRequestHandler, hprotocol, hcm]
  | abd | mp => rfl

theorem not_exhausted {mynodenumber : Fin n} {r : KeyStoreRequest × MpOracle}
    {s : KeyStoreServer n} {x : KeyStoreServer n × KeyStoreResponse}
    (h : keyStoreRequestHandler mynodenumber r s = some x) : ¬ s.Exhausted mynodenumber r.1 := by
  rintro ⟨hprotocol, htype, hmax⟩
  simp only [keyStoreRequestHandler, hprotocol] at h
  obtain ⟨a, ha, _⟩ := Option.map_eq_some_iff.mp h
  exact Nat.not_le.mpr ((cmHandler_eq_some.mp ha).1 htype) hmax

theorem clock_le_handler {mynodenumber : Fin n} {r : KeyStoreRequest × MpOracle}
    {s t : KeyStoreServer n} {reply : KeyStoreResponse}
    (h : keyStoreRequestHandler mynodenumber r s = some (t, reply)) :
    s.cm.t mynodenumber ≤ t.cm.t mynodenumber := by
  unfold keyStoreRequestHandler at h
  split at h
  next =>
    obtain ⟨a, ha, he⟩ := Option.map_eq_some_iff.mp h
    obtain ⟨rfl, _⟩ := Prod.mk.inj he
    obtain ⟨_, rfl⟩ := cmHandler_eq_some.mp ha
    unfold cmHandled
    split
    next => exact le_rfl
    next => simp [cmWritten, enqueueInOutgoingQueue]
    next => exact le_rfl
  next =>
    obtain ⟨a, _, he⟩ := Option.map_eq_some_iff.mp h
    exact (Prod.mk.inj he).1 ▸ le_rfl
  next =>
    obtain ⟨a, _, he⟩ := Option.map_eq_some_iff.mp h
    exact (Prod.mk.inj he).1 ▸ le_rfl

/-- A run of the server is one without overflows, and its clock only grows. -/
theorem unbounded_of_serve {mynodenumber : Fin n} {requests : List (KeyStoreRequest × MpOracle)}
    {s t : KeyStoreServer n}
    (h : runActions (serve (keyStoreRequestHandler mynodenumber)) s requests = some t) :
    runActions (serve (unboundedHandler mynodenumber)) s requests = some t ∧
      s.cm.t mynodenumber ≤ t.cm.t mynodenumber := by
  induction requests generalizing s with
  | nil =>
    obtain rfl := Option.some.inj h
    exact ⟨rfl, le_rfl⟩
  | cons r rest ih =>
    obtain ⟨u, hu, ht⟩ := Option.bind_eq_some_iff.mp h
    obtain ⟨⟨u, reply⟩, hr, rfl⟩ := Option.map_eq_some_iff.mp hu
    obtain ⟨hrun, hle⟩ := ih ht
    have hsame := (keyStoreRequestHandler_eq (not_exhausted hr)).symm.trans hr
    refine ⟨?_, (clock_le_handler hr).trans hle⟩
    rw [runActions, serve, hsame]
    exact hrun

theorem unboundedHandler_footprint (mynodenumber : Fin n) (r : KeyStoreRequest × MpOracle) :
    Footprint KeyStoreServer.entry (Prod.mk r.1.protocol '' readEntries r.1.protocol r.1.key)
      {(r.1.protocol, cStr r.1.key)} (unboundedHandler mynodenumber r) := by
  rw [← Set.image_singleton]
  unfold unboundedHandler keyStoreRequestHandler
  cases r.1.protocol with
  | cm =>
    refine (cmHandled_footprint mynodenumber r.1).zoom KeyStoreServer.cm
      (fun s node => { s with cm := node }) (Prod.mk ProtocolType.cm) KeyStoreEntry.cm
      (fun _ _ h => KeyStoreEntry.cm.inj h) (fun _ _ => rfl) (fun _ _ => rfl) (fun s node k hk => ?_)
    obtain ⟨protocol, key⟩ := k
    cases protocol with
    | cm => exact absurd rfl (hk key)
    | abd | mp => rfl
  | abd =>
    refine (abdHandler_footprint r.1).zoom KeyStoreServer.abdKsMap
      (fun s ks => { s with abdKsMap := ks }) (Prod.mk ProtocolType.abd) KeyStoreEntry.abd
      (fun _ _ h => KeyStoreEntry.abd.inj h) (fun _ _ => rfl) (fun _ _ => rfl) (fun s ks k hk => ?_)
    obtain ⟨protocol, key⟩ := k
    cases protocol with
    | abd => exact absurd rfl (hk key)
    | cm | mp => rfl
  | mp =>
    refine (mpHandler_footprint r.1 r.2).zoom KeyStoreServer.mp
      (fun s st => { s with mp := st }) (Prod.mk ProtocolType.mp) KeyStoreEntry.mp
      (fun _ _ h => KeyStoreEntry.mp.inj h) (fun _ _ => rfl) (fun _ _ => rfl) (fun s st k hk => ?_)
    obtain ⟨protocol, key⟩ := k
    cases protocol with
    | mp => exact absurd rfl (hk key)
    | cm | abd => rfl

end Footprints

section Isolation

variable {n : ℕ} {mynodenumber : Fin n} {protocol : ProtocolType} {k k' : Bytes}

/-- Requests for `k` leave what requests for `k'` of one protocol are answered,
under MP also the log of `k'`, whatever the other servers reply. A CM server that
has counted `intMax` writes can execute none, of no key. -/
def KeyIsolated (mynodenumber : Fin n) (protocol : ProtocolType) (k k' : Bytes) : Prop :=
  ∀ (s t : KeyStoreServer n) (requests : List (KeyStoreRequest × MpOracle)),
    (∀ r ∈ requests, r.1.key = k) →
    runActions (serve (keyStoreRequestHandler mynodenumber)) s requests = some t →
    (∀ r : KeyStoreRequest × MpOracle, r.1.protocol = protocol → r.1.key = k' →
      ¬ t.Exhausted mynodenumber r.1 →
      answerTo (keyStoreRequestHandler mynodenumber) t r =
        answerTo (keyStoreRequestHandler mynodenumber) s r) ∧
    (protocol = .mp → t.mp.logMap (cStr k') = s.mp.logMap (cStr k'))

/-- The entry of `k` is not among those that requests for `k'` read. -/
def EntriesApart (protocol : ProtocolType) (k k' : Bytes) : Prop :=
  match protocol with
  | .cm => cStr k ≠ cStr k' ∨ k' = sentinelKey
  | .abd => cStr k ≠ cStr k' ∧ cStr k ≠ sentinelKey
  | .mp => cStr k ≠ cStr k'

theorem entriesApart_iff : EntriesApart protocol k k' ↔ cStr k ∉ readEntries protocol k' := by
  cases protocol with
  | cm => simp [EntriesApart, readEntries, imp_iff_not_or]
  | abd => simp [EntriesApart, readEntries, not_or]
  | mp => simp [EntriesApart, readEntries]

theorem answerTo_eq_unbounded {r : KeyStoreRequest × MpOracle} {s : KeyStoreServer n}
    (h : ¬ s.Exhausted mynodenumber r.1) :
    answerTo (keyStoreRequestHandler mynodenumber) s r =
      answerTo (unboundedHandler mynodenumber) s r := by
  rw [answerTo, answerTo, keyStoreRequestHandler_eq h]

theorem keyIsolated_of_apart (h : EntriesApart protocol k k') :
    KeyIsolated mynodenumber protocol k k' := by
  intro s t requests hk hrun
  obtain ⟨hrun, hclock⟩ := unbounded_of_serve hrun
  refine ⟨fun r hprotocol hkey hroom => ?_, ?_⟩
  · have hroom' : ¬ s.Exhausted mynodenumber r.1 := fun he =>
      hroom ⟨he.1, he.2.1, he.2.2.trans hclock⟩
    rw [answerTo_eq_unbounded hroom, answerTo_eq_unbounded hroom']
    refine answerTo_serve (unboundedHandler_footprint mynodenumber) hrun
      (fun r' hr' entry hread hwrite => ?_)
    obtain ⟨key, hread, rfl⟩ := hread
    obtain ⟨_, hkey'⟩ := Prod.mk.inj (Set.mem_singleton_iff.mp hwrite)
    rw [hprotocol, hkey, hkey', hk r' hr'] at hread
    exact entriesApart_iff.mp h hread
  · rintro rfl
    have hentry := part_serve (unboundedHandler_footprint mynodenumber) hrun
      (k := (.mp, cStr k')) (fun r hr hw => ?_)
    · exact congrArg Prod.fst (KeyStoreEntry.mp.inj hentry)
    · obtain ⟨_, he⟩ := Prod.mk.inj (Set.mem_singleton_iff.mp hw)
      rw [hk r hr] at he
      exact h he.symm

def writeRequest (protocol : ProtocolType) (k : Bytes) : KeyStoreRequest :=
  ⟨.write, protocol, 1, 1, k, [49]⟩

/-- A round in which one server promises an empty slot and accepts. -/
def acceptingRound : ProposeRound where
  prepared := [extractResponseFromPayload { proposalNum := -1, proposalClientId := -1 }]
  prepareJunk := emptyCommand .read
  accepted := [extractResponseFromPayload { proposalNum := 0, proposalClientId := 1, commandId := 1 }]
  acceptJunk := emptyCommand .read

def acceptingOracle : MpOracle := ⟨0, fun _ => .read, [acceptingRound]⟩

def writeCommand (k : Bytes) : Command :=
  { fillCommandFromRequest (writeRequest .mp k) (getNewAllocCommand 0 1 0) with index := 0 }

theorem insertPass_acceptingRound {st : MpStore} {cl : CommandsList}
    (hcl : st.logMap (cStr k) = some cl) : ∃ st',
      insertPass (writeCommand k) 0 acceptingRound st = some (st', .inserted 0) ∧
        (st'.logMap (cStr k)).isSome := by
  have hround : proposeRound (writeCommand k) acceptingRound = some (.decided
      (extractResponseFromPayload { proposalNum := 0, proposalClientId := 1, commandId := 1 })) :=
    rfl
  have hkey : (writeCommand k).key = k := rfl
  have hid : (writeCommand k).commandId = 1 := rfl
  have hindex : (writeCommand k).index.toNat = 0 := rfl
  have hproposal : (writeCommand k).acceptedProposal = ⟨1, 0⟩ := rfl
  simp [insertPass, startPass, updateLocalValues, finishPass, recordPass, recordCommand, hround,
    hkey, hid, hindex, hproposal, hcl, MpStore.setLog, extractResponseFromPayload]

theorem mpHandler_writeRequest (k : Bytes) : ∃ st reply,
    mpHandler (writeRequest .mp k) acceptingOracle .empty = some (st, reply) ∧
      (st.logMap (cStr k)).isSome := by
  have hfirst : (newCommandsList (fun _ => .read)).firstAvailable = some 0 :=
    CommandsList.firstAvailable_eq (by decide) (by decide) (by simp)
  have hstart : insertCommandStart .empty (writeRequest .mp k) 0 (fun _ => .read) =
      some (MpStore.empty.setLog (cStr k) (newCommandsList (fun _ => .read)),
        ⟨writeRequest .mp k, writeCommand k, 0, .roundStart⟩) := by
    simp only [insertCommandStart, MpStore.lookup, MpStore.empty, Option.getD_none, hfirst]
    rfl
  have hlog : (MpStore.empty.setLog (cStr k) (newCommandsList (fun _ => .read))).logMap (cStr k) =
      some (newCommandsList (fun _ => .read)) := Function.update_self ..
  obtain ⟨st, hpass, hsome⟩ := insertPass_acceptingRound hlog
  refine ⟨st, { protocol := .mp, code := .ok }, ?_, hsome⟩
  have hloop : insertLoop [acceptingRound] (.again (writeCommand k) 0)
      (MpStore.empty.setLog (cStr k) (newCommandsList (fun _ => .read))) = some (st, 0) :=
    Option.bind_eq_some_iff.mpr ⟨_, hpass, rfl⟩
  simp only [mpHandler, insertCommand, acceptingOracle, hstart, Option.bind_some, hloop]
  rfl

theorem KeyIsolated.after_write (h : KeyIsolated mynodenumber protocol k k')
    (s : KeyStoreServer n) {t : KeyStoreServer n} {write : KeyStoreRequest} (hwrite : write.key = k)
    (ht : serve (keyStoreRequestHandler mynodenumber) s (write, acceptingOracle) = some t)
    (request : KeyStoreRequest) (hprotocol : request.protocol = protocol)
    (hrequest : request.key = k') (htype : request.type ≠ .write) :
    answerTo (keyStoreRequestHandler mynodenumber) t (request, acceptingOracle) =
      answerTo (keyStoreRequestHandler mynodenumber) s (request, acceptingOracle) := by
  refine (h s t [(write, acceptingOracle)] (by simpa using hwrite) ?_).1 _ hprotocol hrequest
    (fun he => htype he.2.1)
  simp [runActions, ht]

theorem not_isolated_cm (hk : ¬ EntriesApart .cm k k') : ¬ KeyIsolated mynodenumber .cm k k' := by
  intro h
  let s : KeyStoreServer n := .start
  let node := cmWritten mynodenumber (writeRequest .cm k) s.cm
  have hserve : serve (keyStoreRequestHandler mynodenumber) s
      (writeRequest .cm k, acceptingOracle) = some { s with cm := node } := by
    have hclock : s.cm.t mynodenumber < intMax := show 0 < intMax by decide
    have hcm : cmHandler mynodenumber (writeRequest .cm k) s.cm =
        some (node, { code := .ok, protocol := .cm }) :=
      cmHandler_eq_some.mpr ⟨fun _ => hclock, rfl⟩
    have hhandler : keyStoreRequestHandler mynodenumber (writeRequest .cm k, acceptingOracle) s =
        (cmHandler mynodenumber (writeRequest .cm k) s.cm).map
          fun a => ({ s with cm := a.1 }, a.2) := rfl
    rw [serve, hhandler, hcm]
    rfl
  have hanswer := h.after_write s rfl hserve ⟨.read, .cm, 0, 0, k', []⟩ rfl rfl (by simp)
  simp only [EntriesApart, not_or, not_not] at hk
  simp [answerTo, keyStoreRequestHandler, cmHandler, cmReadReply, s, node, cmWritten, writeRequest,
    enqueueInOutgoingQueue, KeyStoreServer.start, hk.1, hk.2] at hanswer

theorem answerTo_writeQuery (s : KeyStoreServer n) (oracle : MpOracle) :
    answerTo (keyStoreRequestHandler mynodenumber) s (⟨.writeQuery, .abd, 0, 0, k', []⟩, oracle) =
      ((s.abdKsMap (cStr k')).or (s.abdKsMap sentinelKey)).map fun v =>
        { protocol := .abd, integer := v.tag.integer, clientid := v.tag.clientId } := by
  simp only [answerTo, keyStoreRequestHandler, abdHandler, Option.map_map]
  rfl

/-- A replica whose sentinel has an empty value. -/
def emptyDefault : KsMap := Function.update (fun _ => none) sentinelKey (some ⟨.zero, [], some []⟩)

theorem emptyDefault_or (key : Bytes) : (emptyDefault key).or (emptyDefault sentinelKey) =
    some ⟨.zero, [], some []⟩ := by
  by_cases hs : key = sentinelKey <;> simp [emptyDefault, Function.update, hs]

theorem writtenValue_emptyDefault (k : Bytes) : ∃ v,
    writtenValue (writeRequest .abd k) (emptyDefault (cStr k)) = some v ∧ v.tag = ⟨1, 1⟩ := by
  by_cases hs : cStr k = sentinelKey
  · exact ⟨_, by rw [emptyDefault, hs, Function.update_self]; rfl, rfl⟩
  · exact ⟨_, by rw [emptyDefault, Function.update_of_ne hs]; rfl, rfl⟩

theorem not_isolated_abd (hk : ¬ EntriesApart .abd k k') :
    ¬ KeyIsolated mynodenumber .abd k k' := by
  intro h
  obtain ⟨v, hv, htag⟩ := writtenValue_emptyDefault k
  let s : KeyStoreServer n := { KeyStoreServer.start with abdKsMap := emptyDefault }
  let written : KsMap := Function.update emptyDefault (cStr k) (some v)
  have hserve : serve (keyStoreRequestHandler mynodenumber) s
      (writeRequest .abd k, acceptingOracle) = some { s with abdKsMap := written } := by
    have hwrite : abdHandler emptyDefault (writeRequest .abd k) =
        (writtenValue (writeRequest .abd k) (emptyDefault (cStr k))).map fun v =>
          (Function.update emptyDefault (cStr k) (some v), { protocol := .abd }) := rfl
    have hhandler : keyStoreRequestHandler mynodenumber (writeRequest .abd k, acceptingOracle) s =
        (abdHandler emptyDefault (writeRequest .abd k)).map
          fun a => ({ s with abdKsMap := a.1 }, a.2) := rfl
    rw [serve, hhandler, hwrite, hv]
    rfl
  have hanswer := h.after_write s rfl hserve ⟨.writeQuery, .abd, 0, 0, k', []⟩ rfl rfl (by simp)
  have hentry : (written (cStr k')).or (written sentinelKey) = some v := by
    by_cases he : cStr k' = cStr k
    · simp [written, he]
    · have hs : cStr k = sentinelKey := by
        by_contra hs
        exact hk ⟨fun hc => he hc.symm, hs⟩
      have hne : cStr k' ≠ sentinelKey := hs ▸ he
      have hnone : written (cStr k') = none := by
        simp [written, emptyDefault, Function.update, he, hne]
      rw [hnone, Option.none_or, ← hs]
      exact Function.update_self ..
  rw [answerTo_writeQuery, answerTo_writeQuery] at hanswer
  change ((written (cStr k')).or (written sentinelKey)).map _ =
    ((emptyDefault (cStr k')).or (emptyDefault sentinelKey)).map _ at hanswer
  rw [hentry, emptyDefault_or] at hanswer
  simp [htag, Tag.zero] at hanswer

theorem not_isolated_mp (hk : ¬ EntriesApart .mp k k') : ¬ KeyIsolated mynodenumber .mp k k' := by
  intro h
  obtain ⟨st, reply, hst, hsome⟩ := mpHandler_writeRequest k
  let s : KeyStoreServer n := .start
  have hserve : serve (keyStoreRequestHandler mynodenumber) s
      (writeRequest .mp k, acceptingOracle) = some { s with mp := st } := by
    have hhandler : mpHandler (writeRequest .mp k) acceptingOracle s.mp = some (st, reply) := hst
    simp only [serve, keyStoreRequestHandler, writeRequest] at hhandler ⊢
    rw [hhandler]
    rfl
  have hlog := (h s { s with mp := st }
    [(writeRequest .mp k, acceptingOracle)] (by simp [writeRequest])
    (by rw [runActions, hserve]; rfl)).2 rfl
  have hsame : cStr k = cStr k' := not_not.mp hk
  rw [hsame, hlog] at hsome
  simp [s, KeyStoreServer.start, MpStore.empty] at hsome

theorem not_isolated_of_not_apart (hk : ¬ EntriesApart protocol k k') :
    ¬ KeyIsolated mynodenumber protocol k k' := by
  cases protocol with
  | cm => exact not_isolated_cm hk
  | abd => exact not_isolated_abd hk
  | mp => exact not_isolated_mp hk

/-- Whatever a server has served, requests for `k` leave `k'` alone exactly when
their C strings differ and `k` is not ABD's default entry. -/
theorem keyIsolated_iff (mynodenumber : Fin n) (protocol : ProtocolType) (k k' : Bytes) :
    KeyIsolated mynodenumber protocol k k' ↔ EntriesApart protocol k k' :=
  ⟨fun h => not_not.mp (fun hk => not_isolated_of_not_apart hk h), keyIsolated_of_apart⟩

/-- Two keys that differ behind a NUL share an entry under every protocol, and a
WRITE under ABD's default key shows in all keys that the replica lacks. -/
theorem distinctKeys_not_isolated :
    ([97, 0, 98] : Bytes) ≠ [97] ∧ sentinelKey ≠ [97] ∧
      (∀ protocol, ¬ KeyIsolated (0 : Fin 3) protocol [97, 0, 98] [97]) ∧
      ¬ KeyIsolated (0 : Fin 3) .abd sentinelKey [97] := by
  refine ⟨by decide, by decide, fun protocol => ?_, ?_⟩
  · cases protocol with
    | cm | abd | mp => exact not_isolated_of_not_apart (by unfold EntriesApart; decide)
  · exact not_isolated_of_not_apart (by unfold EntriesApart; decide)

end Isolation

end KeyValueStore
