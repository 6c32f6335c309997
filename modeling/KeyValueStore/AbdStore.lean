import KeyValueStore.Commons
import Mathlib.Data.Prod.Lex
import Mathlib.Logic.Function.Basic

/-! One ABD replica and the choices of its clients. Tags are ordered by integer
and then by client id, as replicas compare them. -/

namespace KeyValueStore

namespace Tag

def rank (t : Tag) : ℕ ×ₗ ℕ := toLex (t.integer.toNat, t.clientId.toNat)

theorem rank_injective : Function.Injective rank := by
  intro t u h
  simp only [rank, EmbeddingLike.apply_eq_iff_eq, Prod.mk.injEq, UInt32.toNat_inj] at h
  cases t
  cases u
  simp_all

instance : LinearOrder Tag := LinearOrder.lift' rank rank_injective

theorem lt_iff {t u : Tag} : t < u ↔ t.integer < u.integer ∨
    t.integer = u.integer ∧ t.clientId < u.clientId := by
  change t.rank < u.rank ↔ _
  rw [rank, rank, Prod.Lex.toLex_lt_toLex]
  simp [UInt32.lt_iff_toNat_lt, UInt32.toNat_inj]

theorem le_iff {t u : Tag} : t ≤ u ↔ t.integer < u.integer ∨
    t.integer = u.integer ∧ t.clientId ≤ u.clientId := by
  change t.rank ≤ u.rank ↔ _
  rw [rank, rank, Prod.Lex.toLex_le_toLex]
  simp [UInt32.lt_iff_toNat_lt, UInt32.le_iff_toNat_le, UInt32.toNat_inj]

theorem lt_of_integer_lt {t u : Tag} (h : t.integer < u.integer) : t < u := lt_iff.mpr (.inl h)

def zero : Tag := ⟨0, 0⟩

theorem zero_le (t : Tag) : zero ≤ t := by
  rw [le_iff, zero]
  by_cases h : t.integer = 0
  · exact .inr ⟨h.symm, UInt32.zero_le⟩
  · exact .inl (UInt32.pos_iff_ne_zero.mpr h)

end Tag

/-- `value_t` under ABD. The value is absent while its pointer was never set. -/
structure AbdValue where
  tag : Tag
  key : Bytes
  value : Option Bytes
  deriving DecidableEq, Repr

abbrev KsMap := Bytes → Option AbdValue

/-- `main` sets the tag and the key of the sentinel, but neither its value nor
its `value_sz`. -/
def abdStart : KsMap :=
  Function.update (fun _ => none) sentinelKey (some ⟨.zero, [], none⟩)

/-- Undefined when the entry it finds has a value that was never set. -/
def readQueryReply (ks : KsMap) (request : KeyStoreRequest) : Option KeyStoreResponse :=
  match (if request.key = sentinelKey then none else ks (cStr request.key)) with
  | some v => v.value.map fun value =>
      { protocol := .abd, integer := v.tag.integer, clientid := v.tag.clientId,
        key := v.key, value }
  | none => some { protocol := .abd }

/-- The entry that a WRITE leaves. The old value is deleted before the new one is
stored, which is undefined when it was never set. -/
def writtenValue (request : KeyStoreRequest) : Option AbdValue → Option AbdValue
  | some old =>
    if old.tag.integer < request.integer then
      old.value.map fun _ =>
        { old with tag := ⟨request.integer, request.clientid⟩, value := some request.value }
    else if old.tag.integer = request.integer ∧ old.tag.clientId < request.clientid then
      old.value.map fun _ =>
        { old with
          tag := { old.tag with clientId := request.clientid }, value := some request.value }
    else some old
  | none => some ⟨⟨request.integer, request.clientid⟩, request.key, some request.value⟩

/-- The ABD branch of `KeyStoreRequestHandler`; undefined also when a WRITE_QUERY
finds neither its key nor the sentinel. -/
def abdHandler (ks : KsMap) (request : KeyStoreRequest) : Option (KsMap × KeyStoreResponse) :=
  match request.type with
  | .readQuery => (readQueryReply ks request).map fun reply => (ks, reply)
  | .read => some (ks, { protocol := .abd })
  | .writeQuery =>
    ((ks (cStr request.key)).or (ks sentinelKey)).map fun v =>
      (ks, { protocol := .abd, integer := v.tag.integer, clientid := v.tag.clientId })
  | .write => (writtenValue request (ks (cStr request.key))).map fun v =>
      (Function.update ks (cStr request.key) (some v), { protocol := .abd })

namespace ClientLib

/-- `response_t`, as far as `put` and `get` look at it. -/
structure Response where
  tag : Tag
  value : Bytes
  deriving DecidableEq, Repr

def extractResponseFromPayload (response : KeyStoreResponse) : Response :=
  ⟨⟨response.integer, response.clientid⟩, response.value⟩

structure Request where
  type : RequestType
  protocol : ProtocolType
  tag : Tag
  key : Bytes
  value : Bytes

def makeReqPayload (req : Request) : KeyStoreRequest :=
  match req.type with
  | .write => ⟨.write, req.protocol, req.tag.integer, req.tag.clientId, req.key, req.value⟩
  | type => ⟨type, req.protocol, 0, 0, req.key, []⟩

/-- One turn of the loop of `find_majority_tag`. A response with a greater
integer than the one kept is dropped like those with a smaller one. -/
def majorityTagStep (maxResp resp : Response) : Response :=
  if maxResp.tag.integer ≤ resp.tag.integer ∧ resp.tag.integer = maxResp.tag.integer ∧
      maxResp.tag.clientId < resp.tag.clientId then resp
  else maxResp

def findMajorityTag (vec : List Response) : Option Response :=
  vec.head?.map fun first => vec.foldl majorityTagStep first

end ClientLib

section Replica

variable {ks ks' : KsMap} {request : KeyStoreRequest} {reply : KeyStoreResponse} {k : Bytes}
  {v : AbdValue} {old : Option AbdValue}

def KsMap.tagAt (ks : KsMap) (k : Bytes) : Tag := ((ks k).map AbdValue.tag).getD .zero

def KeyStoreRequest.tag (request : KeyStoreRequest) : Tag := ⟨request.integer, request.clientid⟩

theorem abdStart_eq (k : Bytes) :
    abdStart k = if k = sentinelKey then some ⟨.zero, [], none⟩ else none := by
  by_cases h : k = sentinelKey <;> simp [abdStart, Function.update, h]

theorem writtenValue_of_le (h : request.tag ≤ v.tag) : writtenValue request (some v) = some v := by
  rcases Tag.le_iff.mp h with hint | ⟨hint, hclient⟩
  · have hint' : request.integer < v.tag.integer := hint
    simp [writtenValue, UInt32.not_lt.mpr (UInt32.le_of_lt hint'), (UInt32.ne_of_lt hint').symm]
  · have hint' : request.integer = v.tag.integer := hint
    have hclient' : request.clientid ≤ v.tag.clientId := hclient
    simp [writtenValue, hint', UInt32.not_lt.mpr hclient']

theorem writtenValue_of_lt (h : v.tag < request.tag) : writtenValue request (some v) =
    v.value.map fun _ => { v with tag := request.tag, value := some request.value } := by
  rcases Tag.lt_iff.mp h with hint | ⟨hint, hclient⟩
  · have hif : v.tag.integer < request.integer := hint
    simp [writtenValue, hif, KeyStoreRequest.tag]
  · have hint' : v.tag.integer = request.integer := hint
    have hclient' : v.tag.clientId < request.clientid := hclient
    simp [writtenValue, hint', hclient', KeyStoreRequest.tag]

theorem writtenValue_isSome (h : ∀ v, old = some v → v.value.isSome) :
    (writtenValue request old).isSome := by
  cases old with
  | none => rfl
  | some v =>
    rcases lt_or_ge v.tag request.tag with hlt | hle
    · simpa [writtenValue_of_lt hlt] using h v rfl
    · simp [writtenValue_of_le hle]

theorem writtenValue_cases (h : writtenValue request old = some v) :
    ((old.map AbdValue.tag).getD .zero ≤ request.tag ∧ v.tag = request.tag ∧
        v.value = some request.value) ∨
      request.tag ≤ v.tag ∧ old = some v := by
  cases old with
  | none =>
    obtain rfl := Option.some.inj h
    exact .inl ⟨Tag.zero_le _, rfl, rfl⟩
  | some u =>
    rcases lt_or_ge u.tag request.tag with hlt | hle
    · rw [writtenValue_of_lt hlt] at h
      obtain ⟨_, _, rfl⟩ := Option.map_eq_some_iff.mp h
      exact .inl ⟨hlt.le, rfl, rfl⟩
    · rw [writtenValue_of_le hle] at h
      exact .inr ⟨Option.some.inj h ▸ hle, h⟩

theorem KsMap.tagAt_some (h : ks k = some v) : ks.tagAt k = v.tag := by
  simp [KsMap.tagAt, h]

theorem abdHandler_entries (h : abdHandler ks request = some (ks', reply)) :
    (request.type ≠ .write ∧ ks' = ks) ∨ (request.type = .write ∧ ∃ v,
      writtenValue request (ks (cStr request.key)) = some v ∧
        ks' = Function.update ks (cStr request.key) (some v)) := by
  unfold abdHandler at h
  split at h
  next htype =>
    obtain ⟨_, _, he⟩ := Option.map_eq_some_iff.mp h
    simp only [Prod.mk.injEq] at he
    exact .inl ⟨by simp [htype], he.1.symm⟩
  next htype =>
    simp only [Option.some.injEq, Prod.mk.injEq] at h
    exact .inl ⟨by simp [htype], h.1.symm⟩
  next htype =>
    obtain ⟨w, _, he⟩ := Option.map_eq_some_iff.mp h
    simp only [Prod.mk.injEq] at he
    exact .inl ⟨by simp [htype], he.1.symm⟩
  next htype =>
    obtain ⟨v, hv, he⟩ := Option.map_eq_some_iff.mp h
    simp only [Prod.mk.injEq] at he
    exact .inr ⟨htype, v, hv, he.1.symm⟩

theorem abdHandler_stored (h : abdHandler ks request = some (ks', reply)) (hv : ks' k = some v) :
    ks k = some v ∨ request.type = .write ∧ k = cStr request.key ∧
      v.tag = request.tag ∧ v.value = some request.value := by
  rcases abdHandler_entries h with ⟨_, rfl⟩ | ⟨htype, u, hu, rfl⟩
  · exact .inl hv
  by_cases hk : k = cStr request.key
  · subst hk
    simp only [Function.update_self, Option.some.injEq] at hv
    subst hv
    rcases writtenValue_cases hu with ⟨_, htag, hvalue⟩ | ⟨_, hold⟩
    · exact .inr ⟨htype, rfl, htag, hvalue⟩
    · exact .inl hold
  · exact .inl (by simpa [Function.update, hk] using hv)

theorem abdHandler_keeps (h : abdHandler ks request = some (ks', reply)) (hv : ks k = some v)
    (hle : request.type = .write → k = cStr request.key → request.tag ≤ v.tag) :
    ks' k = some v := by
  rcases abdHandler_entries h with ⟨_, rfl⟩ | ⟨htype, u, hu, rfl⟩
  · exact hv
  by_cases hk : k = cStr request.key
  · subst hk
    rw [hv, writtenValue_of_le (hle htype rfl)] at hu
    rw [Function.update_self, hu]
  · simpa [Function.update, hk] using hv

theorem abdHandler_isSome (h : abdHandler ks request = some (ks', reply)) (hk : (ks k).isSome) :
    (ks' k).isSome := by
  rcases abdHandler_entries h with ⟨_, rfl⟩ | ⟨_, _, _, rfl⟩
  · exact hk
  by_cases he : k = cStr request.key
  · simp [he]
  · simpa [Function.update, he] using hk

theorem tagAt_update_self (v : AbdValue) :
    KsMap.tagAt (Function.update ks k (some v)) k = v.tag := by
  simp [KsMap.tagAt]

theorem abdHandler_tagAt_le (h : abdHandler ks request = some (ks', reply)) (k : Bytes) :
    ks.tagAt k ≤ ks'.tagAt k := by
  rcases abdHandler_entries h with ⟨_, rfl⟩ | ⟨_, v, hv, rfl⟩
  · exact le_rfl
  by_cases hk : k = cStr request.key
  · subst hk
    rw [tagAt_update_self]
    rcases writtenValue_cases hv with ⟨hle, htag, _⟩ | ⟨_, hold⟩
    · exact htag ▸ hle
    · exact (KsMap.tagAt_some hold).le
  · simp [KsMap.tagAt, Function.update, hk]

theorem abdHandler_write (h : abdHandler ks request = some (ks', reply))
    (htype : request.type = .write) : request.tag ≤ ks'.tagAt (cStr request.key) := by
  rcases abdHandler_entries h with ⟨hne, _⟩ | ⟨_, v, hv, rfl⟩
  · exact absurd htype hne
  rw [tagAt_update_self]
  rcases writtenValue_cases hv with ⟨_, htag, _⟩ | ⟨hle, _⟩
  · exact htag.ge
  · exact hle

theorem readQueryReply_cases (h : abdHandler ks request = some (ks', reply))
    (htype : request.type = .readQuery) :
    ClientLib.extractResponseFromPayload reply = ⟨.zero, []⟩ ∨
      ∃ v value, ks (cStr request.key) = some v ∧ v.value = some value ∧
        ClientLib.extractResponseFromPayload reply = ⟨v.tag, value⟩ := by
  simp only [abdHandler, htype] at h
  obtain ⟨_, hreply, he⟩ := Option.map_eq_some_iff.mp h
  simp only [Prod.mk.injEq] at he
  obtain ⟨_, rfl⟩ := he
  unfold readQueryReply at hreply
  split at hreply
  next v hv =>
    obtain ⟨value, hvalue, rfl⟩ := Option.map_eq_some_iff.mp hreply
    split at hv
    · simp at hv
    · exact .inr ⟨v, value, hv, hvalue, rfl⟩
  next => exact .inl (Option.some.inj hreply ▸ rfl)

theorem abdHandler_readQuery (h : abdHandler ks request = some (ks', reply))
    (htype : request.type = .readQuery) (hkey : request.key ≠ sentinelKey) :
    (ks (cStr request.key) = none ∧ ClientLib.extractResponseFromPayload reply = ⟨.zero, []⟩) ∨
      ∃ v value, ks (cStr request.key) = some v ∧ v.value = some value ∧
        ClientLib.extractResponseFromPayload reply = ⟨v.tag, value⟩ := by
  cases hks : ks (cStr request.key) with
  | none =>
    rcases readQueryReply_cases h htype with he | ⟨v, _, hv, _⟩
    · exact .inl ⟨rfl, he⟩
    · simp [hks] at hv
  | some v =>
    simp only [abdHandler, htype, readQueryReply, if_neg hkey, hks, Option.map_map] at h
    obtain ⟨value, hvalue, he⟩ := Option.map_eq_some_iff.mp h
    simp only [Function.comp_apply, Prod.mk.injEq] at he
    exact .inr ⟨v, value, rfl, hvalue, he.2 ▸ rfl⟩

theorem abdHandler_writeQuery (h : abdHandler ks request = some (ks', reply))
    (htype : request.type = .writeQuery) :
    ks.tagAt (cStr request.key) ≤ (ClientLib.extractResponseFromPayload reply).tag ∧
      ∃ k v, ks k = some v ∧ (ClientLib.extractResponseFromPayload reply).tag = v.tag := by
  simp only [abdHandler, htype] at h
  obtain ⟨v, hv, he⟩ := Option.map_eq_some_iff.mp h
  simp only [Prod.mk.injEq] at he
  obtain ⟨_, rfl⟩ := he
  rcases Option.or_eq_some_iff.mp hv with hks | ⟨hnone, hks⟩
  · exact ⟨(KsMap.tagAt_some hks).le, _, v, hks, rfl⟩
  · refine ⟨?_, _, v, hks, rfl⟩
    simp only [KsMap.tagAt, hnone, Option.map_none, Option.getD_none]
    exact Tag.zero_le _

end Replica

section Majority

namespace ClientLib

variable {vec : List Response} {maxResp : Response}

/-- No response has a greater integer than the first one. -/
def LeadsWithHighestTag (vec : List Response) : Prop :=
  ∀ first ∈ vec.head?, ∀ r ∈ vec, r.tag.integer ≤ first.tag.integer

instance (vec : List Response) : Decidable (LeadsWithHighestTag vec) :=
  inferInstanceAs (Decidable (∀ first ∈ vec.head?, ∀ r ∈ vec, _ ≤ _))

/-- The loop keeps the integer it starts with and looks for the greatest client
id under it. -/
theorem majorityTagStep_foldl (vec : List Response) (maxResp : Response) :
    (vec.foldl majorityTagStep maxResp = maxResp ∨ vec.foldl majorityTagStep maxResp ∈ vec) ∧
    (vec.foldl majorityTagStep maxResp).tag.integer = maxResp.tag.integer ∧
    maxResp.tag.clientId ≤ (vec.foldl majorityTagStep maxResp).tag.clientId ∧
    ∀ r ∈ vec, r.tag.integer = maxResp.tag.integer →
      r.tag.clientId ≤ (vec.foldl majorityTagStep maxResp).tag.clientId := by
  induction vec generalizing maxResp with
  | nil => simp
  | cons r vec ih =>
    obtain ⟨hmem, hint, hclient, hall⟩ := ih (majorityTagStep maxResp r)
    have hstep : majorityTagStep maxResp r = r ∧ r.tag.integer = maxResp.tag.integer ∧
          maxResp.tag.clientId < r.tag.clientId ∨
        majorityTagStep maxResp r = maxResp ∧
          (r.tag.integer = maxResp.tag.integer → r.tag.clientId ≤ maxResp.tag.clientId) := by
      unfold majorityTagStep
      split
      next hif => exact .inl ⟨rfl, hif.2⟩
      next hif =>
        refine .inr ⟨rfl, fun he => ?_⟩
        exact UInt32.not_lt.mp (fun hlt => hif ⟨UInt32.le_of_eq he.symm, he, hlt⟩)
    rw [List.foldl_cons]
    rcases hstep with ⟨he, heq, hlt⟩ | ⟨he, hle⟩
    · rw [he] at hmem hint hclient hall ⊢
      refine ⟨.inr ?_, hint.trans heq, UInt32.le_trans (UInt32.le_of_lt hlt) hclient, ?_⟩
      · rcases hmem with hmem | hmem
        · rw [hmem]
          exact List.mem_cons_self
        · exact List.mem_cons_of_mem _ hmem
      · intro x hx hxe
        rcases List.mem_cons.mp hx with rfl | hx
        · exact hclient
        · exact hall x hx (hxe.trans heq.symm)
    · rw [he] at hmem hint hclient hall ⊢
      refine ⟨hmem.imp_right (List.mem_cons_of_mem _), hint, hclient, ?_⟩
      intro x hx hxe
      rcases List.mem_cons.mp hx with rfl | hx
      · exact UInt32.le_trans (hle hxe) hclient
      · exact hall x hx hxe

theorem findMajorityTag_spec (h : findMajorityTag vec = some maxResp)
    (hlead : LeadsWithHighestTag vec) : maxResp ∈ vec ∧ ∀ r ∈ vec, r.tag ≤ maxResp.tag := by
  obtain ⟨first, hfirst, rfl⟩ := Option.map_eq_some_iff.mp h
  obtain ⟨hmem, hint, _, hall⟩ := majorityTagStep_foldl vec first
  refine ⟨?_, fun r hr => ?_⟩
  · rcases hmem with hmem | hmem
    · rw [hmem]
      exact List.mem_of_mem_head? hfirst
    · exact hmem
  · rw [Tag.le_iff, hint]
    rcases Nat.lt_or_eq_of_le (UInt32.le_iff_toNat_le.mp (hlead first hfirst r hr)) with hlt | heq
    · exact .inl (UInt32.lt_iff_toNat_lt.mpr hlt)
    · have he : r.tag.integer = first.tag.integer := UInt32.toNat_inj.mp heq
      exact .inr ⟨he, hall r hr he⟩

end ClientLib

end Majority

end KeyValueStore
