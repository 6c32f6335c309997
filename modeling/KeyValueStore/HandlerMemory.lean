import KeyValueStore.MemoryPlaces
import KeyValueStore.RelatedRuns

/-! The logs of a server behind pointers: looking one up, applying its last write, and
the handler of PREPARE and ACCEPT requests do what they do with commands as values. -/

namespace KeyValueStore

variable {h : CommandHeap} {L : Bytes → Option LogMemory} {o t : Option ℕ}
  {V : Bytes → Option CommandsList} {ov tv : Option Command} {F : Finset ℕ} {n p q i : ℕ}
  {a b c : Command} {key : Bytes} {m : LogMemory} {cl cl' : CommandsList}

section Logs

/-- A log in memory: the same slots are free, and each has a pointer. -/
structure LogMatches (m : LogMemory) (cl : CommandsList) : Prop where
  available : m.nextAvailableSlot = cl.nextAvailableSlot
  length : m.cmdVec.length = initCommandLength

def LogsMatch (L : Bytes → Option LogMemory) (V : Bytes → Option CommandsList) : Prop :=
  ∀ key, Option.Rel LogMatches (L key) (V key)

theorem LogMatches.slot (hm : LogMatches m cl) (hi : i < initCommandLength) :
    ∃ q, m.cmdVec[i]? = some q :=
  ⟨_, List.getElem?_eq_getElem (hm.length ▸ hi)⟩

theorem LogMatches.firstAvailable (hm : LogMatches m cl) :
    m.firstAvailable = cl.firstAvailable := by
  rw [LogMemory.firstAvailable, hm.available, CommandsList.firstAvailable]

theorem LogMatches.congr (hm : LogMatches m cl)
    (hav : cl'.nextAvailableSlot = cl.nextAvailableSlot) : LogMatches m cl' :=
  ⟨hm.available.trans hav.symm, hm.length⟩

theorem LogMatches.eraseSlot (hm : LogMatches m cl) (i : ℕ) :
    LogMatches (m.eraseSlot i) (cl.eraseSlot i) :=
  ⟨by rw [LogMemory.eraseSlot, hm.available, CommandsList.eraseSlot], hm.length⟩

theorem LogMatches.setCmd (hm : LogMatches m cl) (i p : ℕ) (c : Command) :
    LogMatches (m.setCmd i p) (cl.setCmd i c) :=
  ⟨hm.available, by rw [LogMemory.setCmd, List.length_set, hm.length]⟩

theorem LogsMatch.cases (hlogs : LogsMatch L V) (key : Bytes) :
    (L key = none ∧ V key = none) ∨
      ∃ m cl, L key = some m ∧ V key = some cl ∧ LogMatches m cl := by
  have hrel := hlogs key
  cases hL : L key with
  | none =>
    rw [hL] at hrel
    cases hV : V key with
    | none => exact .inl ⟨rfl, rfl⟩
    | some cl => rw [hV] at hrel; cases hrel
  | some m =>
    rw [hL] at hrel
    cases hV : V key with
    | none => rw [hV] at hrel; cases hrel
    | some cl =>
      rw [hV] at hrel
      cases hrel with
      | some hm => exact .inr ⟨m, cl, rfl, rfl, hm⟩

theorem LogsMatch.update (hlogs : LogsMatch L V) (key : Bytes) (hm : LogMatches m cl) :
    LogsMatch (Function.update L key (some m)) (Function.update V key (some cl)) := by
  intro k
  by_cases hk : k = key
  · rw [hk, Function.update_self, Function.update_self]
    exact .some hm
  · rw [Function.update_of_ne hk, Function.update_of_ne hk]
    exact hlogs k

theorem LogsMatch.update_right (hlogs : LogsMatch L V) (hL : L key = some m)
    (hm : LogMatches m cl) : LogsMatch L (Function.update V key (some cl)) := by
  have hup := hlogs.update key hm
  rwa [← hL, Function.update_eq_self] at hup

end Logs

section Open

/-- The slots of a new log take over the objects that were made for them. -/
theorem Holding.newLog {as : List Command} (hh : Holding h L o t V ov tv F n)
    (hL : L key = none) (hlen : as.length = initCommandLength)
    (hcl : ∀ i (hi : i < as.length), cl.cmdVec i = as[i])
    (hm : m.cmdVec = h.addresses as.length) :
    Holding (h.newAll as) (Function.update L key (some m)) o t
      (Function.update V key (some cl)) ov tv F n := by
  have hnew := hh.newAll as
  have hdisj : (F ∪ (h.addresses as.length).toFinset) \ (h.addresses as.length).toFinset = F := by
    rw [Finset.union_sdiff_right, Finset.sdiff_eq_self_iff_disjoint, Finset.disjoint_left]
    intro p hp hp'
    obtain ⟨a, ha⟩ := Option.isSome_iff_exists.mp (hh.live p hp)
    have hlt := ObjectHeap.lt_next ha
    have hle := (ObjectHeap.mem_addresses.mp (List.mem_toFinset.mp hp')).1
    omega
  rw [← hdisj]
  have hslot : ∀ {j r}, pointers (Function.update L key (some m)) o t (.slot key j) = some r ↔
      j < as.length ∧ r = h.next + j := by
    intro j r
    simp only [pointers, Function.update_self, Option.bind_some, hm,
      ObjectHeap.addresses_getElem?]
    split
    next hj => simp [hj, eq_comm]
    next hj => simp [hj]
  refine hnew.adopt Finset.subset_union_right ?_ ?_ ?_ ?_ ?_
  · intro y r hy
    cases y with
    | slot k j =>
      have hk : k ≠ key := fun he => by simp [pointers, he, hL] at hy
      simp only [pointers, commands, Function.update_of_ne hk] at hy ⊢
      exact ⟨hy, trivial⟩
    | origCmd | tempCmd => exact ⟨hy, rfl⟩
  · intro y r hy hy'
    cases y with
    | slot k j =>
      by_cases hk : k = key
      · subst hk
        obtain ⟨hj, rfl⟩ := hslot.mp hy'
        refine ⟨by simp [ObjectHeap.mem_addresses, hj], as[j], cl.cmdVec j, ?_, ?_, ?_⟩
        · rw [ObjectHeap.newAll_cell_add, List.getElem?_eq_getElem hj]
        · simp [commands, hlen ▸ hj]
        · rw [hcl j hj]
          exact SameCommand.refl _
      · simp only [pointers, Function.update_of_ne hk] at hy hy'
        simp [hy] at hy'
    | origCmd | tempCmd =>
      simp only [pointers] at hy hy'
      simp [hy] at hy'
  · intro y hy
    cases y with
    | slot k j =>
      by_cases hk : k = key
      · subst hk
        have hj : ¬ j < as.length := fun hj => by
          rw [hslot.mpr ⟨hj, rfl⟩] at hy
          cases hy
        simp [commands, hlen ▸ hj]
      · simp only [pointers, commands, Function.update_of_ne hk] at hy ⊢
        exact hh.absent (.slot k j) hy
    | origCmd => exact hh.absent .origCmd hy
    | tempCmd => exact hh.absent .tempCmd hy
  · intro y z r hy hz hy' hz'
    have hkey : ∀ {y : Place}, pointers L o t y = none →
        pointers (Function.update L key (some m)) o t y = some r →
        y = .slot key (r - h.next) := by
      intro y hy hy'
      cases y with
      | slot k j =>
        by_cases hk : k = key
        · subst hk
          obtain ⟨_, rfl⟩ := hslot.mp hy'
          rw [Nat.add_sub_cancel_left]
        · simp only [pointers, Function.update_of_ne hk] at hy hy'
          simp [hy] at hy'
      | origCmd | tempCmd =>
        simp only [pointers] at hy hy'
        simp [hy] at hy'
    rw [hkey hy hy', hkey hz hz']
  · intro r hr
    obtain ⟨hle, hlt⟩ := ObjectHeap.mem_addresses.mp (List.mem_toFinset.mp hr)
    exact ⟨.slot key (r - h.next), hslot.mpr ⟨by omega, by omega⟩⟩

theorem openLog_spec (s : HeapServer) (st : MpStore) (types : ℕ → RequestType) (key : Bytes)
    (hlogs : LogsMatch s.logMap st.logMap) (hh : Holding s.heap s.logMap o t st.logMap ov tv F n) :
    ∃ h' L' m, s.openLog types key = ({ s with heap := h', logMap := L' }, m) ∧
      L' key = some m ∧ LogMatches m (st.lookup types key) ∧
      LogsMatch L' (st.setLog key (st.lookup types key)).logMap ∧
      (∀ p a, s.heap.cell p = some a → h'.cell p = some a) ∧
      Holding h' L' o t (st.setLog key (st.lookup types key)).logMap ov tv F n := by
  rcases hlogs.cases key with ⟨hL, hV⟩ | ⟨m, cl, hL, hV, hm⟩
  · let as := (List.range initCommandLength).map fun i => emptyCommand (types i)
    let m : LogMemory := ⟨fun i => i < initCommandLength, s.heap.addresses initCommandLength⟩
    have hlen : as.length = initCommandLength := by simp [as]
    have hlookup : st.lookup types key = newCommandsList types := by
      rw [MpStore.lookup, hV, Option.getD_none]
    have hm : LogMatches m (newCommandsList types) :=
      ⟨rfl, by simp [m, ObjectHeap.addresses]⟩
    refine ⟨s.heap.newAll as, Function.update s.logMap key (some m), m, ?_, ?_, ?_, ?_, ?_, ?_⟩
    · simp only [HeapServer.openLog, hL, HeapServer.setLog]
      rfl
    · exact Function.update_self ..
    · rw [hlookup]
      exact hm
    · rw [hlookup]
      exact hlogs.update key hm
    · exact fun p a ha => ObjectHeap.newAll_cell_of_some ha
    · rw [hlookup]
      refine hh.newLog hL hlen (fun i hi => ?_) (by rw [hlen])
      simp [as, newCommandsList]
  · have hlookup : st.lookup types key = cl := by rw [MpStore.lookup, hV, Option.getD_some]
    have hsame : (st.setLog key cl).logMap = st.logMap := by
      rw [MpStore.setLog, ← hV, Function.update_eq_self]
    refine ⟨s.heap, s.logMap, m, by simp only [HeapServer.openLog, hL], hL, ?_, ?_,
      fun _ _ ha => ha, ?_⟩
    · rwa [hlookup]
    · rwa [hlookup, hsame]
    · rwa [hlookup, hsame]

end Open

section Writes

/-- The pointer points to the command, whatever the type of its next message. -/
def Points (h : CommandHeap) (p : ℕ) (c : Command) : Prop :=
  ∃ a, h.cell p = some a ∧ SameCommand a c

theorem lastWrite_points {qs : List ℕ} {cs : List Command} (hqs : List.Forall₂ (Points h) qs cs)
    {prevCmd : Option ℕ} {prev : Option Command} (hprev : Option.Rel (Points h) prevCmd prev) :
    ∃ r, HeapServer.lastWrite h qs prevCmd = some r ∧ Option.Rel (Points h) r
      (cs.foldl (fun prev c => if c.commandType = .write then some c else prev) prev) := by
  induction hqs generalizing prevCmd prev with
  | nil => exact ⟨prevCmd, rfl, hprev⟩
  | @cons q c qs cs hq _ ih =>
    obtain ⟨a, ha, type, rfl⟩ := hq
    rw [HeapServer.lastWrite, ha, Option.bind_some, List.foldl_cons]
    refine ih ?_
    split
    next hw => exact .some ⟨_, ha, type, rfl⟩
    next => exact hprev

theorem slots_point (hh : Holding h L o t V ov tv F n) (hL : L key = some m) (hV : V key = some cl)
    (hm : LogMatches m cl) (index : ℕ) : List.Forall₂ (Points h) (m.cmdVec.take (index + 1))
      ((List.range (min (index + 1) initCommandLength)).map cl.cmdVec) := by
  rw [List.forall₂_iff_get]
  refine ⟨by simp [hm.length], fun j hj hj' => ?_⟩
  have hlt : j < m.cmdVec.length := by
    rw [List.length_take] at hj
    omega
  obtain ⟨a, ha, hsame⟩ := hh.slot_cell hL hV (List.getElem?_eq_getElem hlt) (hm.length ▸ hlt)
  exact ⟨a, by simpa using ha, by simpa using hsame⟩

theorem applyLastWrite_refines {s : HeapServer} {st : MpStore}
    (hlogs : LogsMatch s.logMap st.logMap) (hmap : s.mpKsMap = st.mpKsMap)
    (hh : Holding s.heap s.logMap o t st.logMap ov tv F n) (key : Bytes) (index : ℕ) :
    Option.Rel (fun r r' => r.1 = r'.1 ∧
        ∃ K, r.2 = { s with mpKsMap := K } ∧ r'.2 = { st with mpKsMap := K })
      (s.applyLastWrite key index) (KeyValueStore.applyLastWrite st key index) := by
  rcases hlogs.cases key with ⟨hL, hV⟩ | ⟨m, cl, hL, hV, hm⟩
  · simp only [HeapServer.applyLastWrite, KeyValueStore.applyLastWrite, hL, hV]
    exact .none
  obtain ⟨r, hr, hrel⟩ := lastWrite_points (slots_point hh hL hV hm index) .none
  rw [List.foldl_map] at hrel
  simp only [HeapServer.applyLastWrite, KeyValueStore.applyLastWrite, hL, hV, Option.bind_some,
    Option.map_some, hr, lastWrite]
  generalize (List.range (min (index + 1) initCommandLength)).foldl _ none = prev at hrel ⊢
  cases hrel with
  | none => exact .some ⟨rfl, st.mpKsMap, by rw [← hmap], rfl⟩
  | @some q c hq =>
    obtain ⟨a, ha, type, rfl⟩ := hq
    simp only [ha, Option.map_some]
    obtain ⟨heap, logMap, mpKsMap, broadcasts, call⟩ := s
    obtain rfl : mpKsMap = st.mpKsMap := hmap
    exact .some ⟨rfl, _, rfl, rfl⟩

theorem applyAccepted_refines {s : HeapServer} {st : MpStore} (u : Uninit)
    (hlogs : LogsMatch s.logMap st.logMap) (hmap : s.mpKsMap = st.mpKsMap)
    (hh : Holding s.heap s.logMap o t st.logMap ov tv F n) (hsame : SameCommand a c) (i : ℕ) :
    Option.Rel (fun s' st' => ∃ K, s' = { s with mpKsMap := K } ∧ st' = { st with mpKsMap := K })
      (s.applyAccepted u a i) (KeyValueStore.applyAccepted u st c i) := by
  obtain ⟨type, rfl⟩ := hsame
  simp only [HeapServer.applyAccepted, KeyValueStore.applyAccepted]
  split
  · exact (applyLastWrite_refines hlogs hmap hh (cStr (c.key ++ u.keyTail)) i).map
      fun _ _ hr => hr.2
  · exact .some ⟨st.mpKsMap, by rw [← hmap], rfl⟩

theorem Holding.congrLog {m' : LogMemory} (hh : Holding h L o t V ov tv F n) (hL : L key = some m)
    (hV : V key = some cl) (hm : m'.cmdVec = m.cmdVec) (hcl : cl'.cmdVec = cl.cmdVec) :
    Holding h (Function.update L key (some m')) o t (Function.update V key (some cl')) ov tv
      F n := by
  refine ObjectHeap.Owns.congr hh (fun y => ?_) (fun y => ?_)
  · cases y with
    | slot k j =>
      by_cases hk : k = key
      · subst hk
        simp [pointers, hL, hm]
      · simp [pointers, Function.update_of_ne hk]
    | origCmd | tempCmd => rfl
  · cases y with
    | slot k j =>
      by_cases hk : k = key
      · subst hk
        simp [commands, hV, hcl]
      · simp [commands, Function.update_of_ne hk]
    | origCmd | tempCmd => rfl

end Writes

section Requests

theorem Holding.loseOne (hh : Holding h L o t V ov tv {p} n) :
    Holding h L o t V ov tv ∅ (n + 1) := by
  have hforget := hh.forget (Finset.mem_singleton_self p)
  rwa [Finset.erase_singleton] at hforget

theorem MpStore.setLog_setLog (st : MpStore) (key : Bytes) (cl cl' : CommandsList) :
    (st.setLog key cl).setLog key cl' = st.setLog key cl' := by
  simp [setLog]

theorem SameCommand.prepareUpdates (hsame : SameCommand a c) (cReq : Command) :
    prepareUpdates cReq a = prepareUpdates cReq c := by
  obtain ⟨type, rfl⟩ := hsame
  rfl

theorem SameCommand.acceptUpdates (hsame : SameCommand a c) (cReq : Command) :
    acceptUpdates cReq a = acceptUpdates cReq c := by
  obtain ⟨type, rfl⟩ := hsame
  rfl

theorem SameCommand.nackReply (hsame : SameCommand a c) : nackReply a = nackReply c := by
  obtain ⟨type, rfl⟩ := hsame
  rfl

theorem SameCommand.prepareReply (hsame : SameCommand a c) (cReq : Command) :
    prepareReply cReq a = prepareReply cReq c := by
  obtain ⟨type, rfl⟩ := hsame
  rfl

theorem SameCommand.promisedCommand (hsame : SameCommand a c) (cReq : Command) :
    SameCommand (promisedCommand cReq a) (promisedCommand cReq c) := by
  obtain ⟨type, rfl⟩ := hsame
  exact ⟨type, rfl⟩

theorem SameCommand.acceptedCommand (hsame : SameCommand a c) (cReq : Command) :
    SameCommand (acceptedCommand cReq a) (acceptedCommand cReq c) := by
  obtain ⟨type, rfl⟩ := hsame
  exact ⟨type, rfl⟩

/-- The handler keeps the places of the call in progress, and forgets the command that
it makes of the request. -/
theorem paxosRequestHandler_refines {s : HeapServer} {st : MpStore}
    (hlogs : LogsMatch s.logMap st.logMap) (hmap : s.mpKsMap = st.mpKsMap)
    (hh : Holding s.heap s.logMap o t st.logMap ov tv ∅ n) (u : Uninit) (request : PaxosRequest) :
    Option.Rel (fun r r' => r.2 = r'.2 ∧ ∃ h' L', r.1 = { s with
          heap := h', logMap := L', mpKsMap := r'.1.mpKsMap } ∧
        LogsMatch L' r'.1.logMap ∧ Holding h' L' o t r'.1.logMap ov tv ∅ (n + 1))
      (s.paxosRequestHandler u request) (KeyValueStore.paxosRequestHandler u st request) := by
  have hnew := hh.new (extractRequestPayloadToCommand request)
  rw [insert_empty_eq] at hnew
  obtain ⟨h', L', m, hopen, hL, hm, hlogs', hkeep, hh'⟩ := openLog_spec
    { s with heap := s.heap.new (extractRequestPayloadToCommand request) } st u.types
    (requestKey u request) hlogs hnew
  have hcReq := hkeep _ _ ObjectHeap.new_cell_next
  simp only [HeapServer.paxosRequestHandler, KeyValueStore.paxosRequestHandler]
  rw [hopen]
  simp only [hcReq, Option.bind_some]
  generalize extractRequestPayloadToCommand request = cReq at *
  generalize requestKey u request = key at *
  generalize st.lookup u.types key = cl at *
  generalize cReq.index.toNat = i
  have hV : (st.setLog key cl).logMap key = some cl := Function.update_self ..
  by_cases hi : i < initCommandLength
  · obtain ⟨q, hq⟩ := hm.slot hi
    obtain ⟨a, ha, hsame⟩ := hh'.slot_cell hL hV hq hi
    simp only [hq, Option.bind_some, ha, if_pos hi]
    have hnack : Option.Rel (fun r r' => r.2 = r'.2 ∧ ∃ h' L', r.1 = { s with
          heap := h', logMap := L', mpKsMap := r'.1.mpKsMap } ∧
        LogsMatch L' r'.1.logMap ∧ Holding h' L' o t r'.1.logMap ov tv ∅ (n + 1))
        (some ({ s with heap := h', logMap := L' }, nackReply a))
        (some (st.setLog key cl, nackReply (cl.cmdVec i))) :=
      .some ⟨hsame.nackReply, h', L', by rw [hmap]; rfl, hlogs', hh'.loseOne⟩
    cases cReq.mpReqType with
    | prepare =>
      simp only [hsame.prepareUpdates cReq]
      split
      next =>
        obtain ⟨h₁, hmod, _, _, hh₁⟩ := hh'.modifySlot hL hV hq hi
          (promisedCommand cReq) _ (fun a ha => ha.promisedCommand cReq)
        simp only [hmod, Option.map_some]
        rw [← MpStore.setLog_setLog st key cl]
        exact .some ⟨hsame.prepareReply cReq, h₁, L', by rw [hmap]; rfl,
          hlogs'.update_right hL (hm.congr rfl), hh₁.loseOne⟩
      next => exact hnack
    | accept =>
      simp only [hsame.acceptUpdates cReq]
      split
      next =>
        obtain ⟨h₁, hmod, hcell, _, hh₁⟩ := hh'.modifySlot hL hV hq hi
          (acceptedCommand cReq) _ (fun a ha => ha.acceptedCommand cReq)
        simp only [hmod, hcell, ha, Option.bind_some, Option.map_some]
        rw [← MpStore.setLog_setLog st key cl]
        have hm' : LogMatches m (cl.setCmd i (acceptedCommand cReq (cl.cmdVec i))) := hm.congr rfl
        have hlogs₁ : LogsMatch L' ((st.setLog key cl).setLog key
          (cl.setCmd i (acceptedCommand cReq (cl.cmdVec i)))).logMap := hlogs'.update_right hL hm'
        refine (applyAccepted_refines (s := { s with heap := h₁, logMap := L' }) u hlogs₁ hmap hh₁
          (hsame.acceptedCommand cReq) i).map ?_
        rintro _ _ ⟨K, rfl, rfl⟩
        exact ⟨rfl, h₁, _, rfl, hlogs₁.update key (hm'.eraseSlot i),
          hh₁.loseOne.congrLog hL (Function.update_self ..) rfl rfl⟩
      next => exact hnack
  · have hnone : m.cmdVec[i]? = none := List.getElem?_eq_none (hm.length ▸ Nat.le_of_not_lt hi)
    simp only [hnone, Option.bind_none, if_neg hi]
    exact .none

end Requests

end KeyValueStore
