import KeyValueStore.AbdReplica
import KeyValueStore.KeyStoreServer

/-! A WRITE followed by a read of the same key on one server. The two look the
key up alike but for the test of the read, which compares all its bytes with
"00000" and finds nothing under that key. The WRITE itself is undefined where it
deletes a value that was never set, or counts its clock past an `int`. -/

namespace KeyValueStore

variable {n : ℕ}

def abdWriteThenReadQuery (mynodenumber : Fin n) (oracle : MpOracle) (s : KeyStoreServer n)
    (key value : Bytes) (tag : Tag) : Option KeyStoreResponse :=
  (keyStoreRequestHandler mynodenumber
    (ClientLib.makeReqPayload ⟨.write, .abd, tag, key, value⟩, oracle) s).bind fun r =>
  (keyStoreRequestHandler mynodenumber
    (ClientLib.makeReqPayload ⟨.readQuery, .abd, tag, key, []⟩, oracle) r.1).map Prod.snd

def cmWriteThenRead (mynodenumber : Fin n) (oracle : MpOracle) (s : KeyStoreServer n)
    (key value : Bytes) (tag : Tag) : Option KeyStoreResponse :=
  (keyStoreRequestHandler mynodenumber
    (ClientLib.makeReqPayload ⟨.write, .cm, tag, key, value⟩, oracle) s).bind fun r =>
  (keyStoreRequestHandler mynodenumber
    (ClientLib.makeReqPayload ⟨.read, .cm, tag, key, []⟩, oracle) r.1).map Prod.snd

def AbdReadsBack (mynodenumber : Fin n) (oracle : MpOracle) (s : KeyStoreServer n)
    (key value : Bytes) (tag : Tag) : Prop :=
  ∃ reply, abdWriteThenReadQuery mynodenumber oracle s key value tag = some reply ∧
    reply.integer = tag.integer ∧ reply.clientid = tag.clientId ∧ reply.value = value

def CmReadsBack (mynodenumber : Fin n) (oracle : MpOracle) (s : KeyStoreServer n)
    (key value : Bytes) (tag : Tag) : Prop :=
  ∃ reply, cmWriteThenRead mynodenumber oracle s key value tag = some reply ∧
    reply.code = .ok ∧ reply.value = value

section ReadsBack

variable {mynodenumber : Fin n} {oracle : MpOracle} {s : KeyStoreServer n} {key value : Bytes}
  {tag : Tag}

theorem register_of_greatest {ks ks' : KsMap} {request : KeyStoreRequest} {reply : KeyStoreResponse}
    (h : abdHandler ks request = some (ks', reply)) (htype : request.type = .write)
    (htag : ∀ v, ks (cStr request.key) = some v → v.tag < request.tag) :
    ks'.register (cStr request.key) = some request.written := by
  rw [abdHandler_register h htype]
  apply MaxRegister.write_of_greatest
  intro x hx
  obtain ⟨v, hv, rfl⟩ := Option.map_eq_some_iff.mp hx
  exact htag v hv

theorem abdWriteThenReadQuery_eq_some {reply : KeyStoreResponse} :
    abdWriteThenReadQuery mynodenumber oracle s key value tag = some reply ↔
      ∃ r, abdHandler s.abdKsMap (putOf tag key value) = some r ∧
        readQueryReply r.1 (ClientLib.makeReqPayload ⟨.readQuery, .abd, tag, key, []⟩) =
          some reply := by
  have hwrite : keyStoreRequestHandler mynodenumber
      (ClientLib.makeReqPayload ⟨.write, .abd, tag, key, value⟩, oracle) s =
      (abdHandler s.abdKsMap (putOf tag key value)).map fun a =>
        ({ s with abdKsMap := a.1 }, a.2) := rfl
  have hread (t : KeyStoreServer n) : (keyStoreRequestHandler mynodenumber
      (ClientLib.makeReqPayload ⟨.readQuery, .abd, tag, key, []⟩, oracle) t).map Prod.snd =
      readQueryReply t.abdKsMap (ClientLib.makeReqPayload ⟨.readQuery, .abd, tag, key, []⟩) := by
    simp [keyStoreRequestHandler, abdHandler, ClientLib.makeReqPayload, Function.comp_def]
  rw [abdWriteThenReadQuery, hwrite, Option.bind_map, Option.bind_eq_some_iff]
  exact exists_congr fun r => and_congr_right fun _ => Eq.congr_left (hread _)

/-- The entry that a WRITE with the greatest tag leaves is what the query finds. -/
theorem abdReadsBack_iff (hkey : key ≠ sentinelKey)
    (htag : ∀ v, s.abdKsMap (cStr key) = some v → v.tag < tag) :
    AbdReadsBack mynodenumber oracle s key value tag ↔
      ∀ v, s.abdKsMap (cStr key) = some v → v.value ≠ none := by
  constructor
  · rintro ⟨reply, hrun, _⟩ v hv hnone
    obtain ⟨r, hwrite, _⟩ := abdWriteThenReadQuery_eq_some.mp hrun
    exact not_lt.mpr (abdHandler_write_le hwrite rfl hv hnone) (htag v hv)
  intro hset
  have hreplace : s.abdKsMap.Replaceable (cStr key) [putOf tag key value] :=
    fun v hv hnone => absurd hnone (hset v hv)
  obtain ⟨ks, written, hwrite⟩ : ∃ ks written,
      abdHandler s.abdKsMap (putOf tag key value) = some (ks, written) :=
    abdHandler_write_isSome rfl rfl hreplace
  have hreg := register_of_greatest hwrite rfl htag
  obtain ⟨v, hv, hpair⟩ := Option.map_eq_some_iff.mp hreg
  have hv' : ks (cStr key) = some v := hv
  have htagv : v.tag = tag := congrArg Prod.fst hpair
  have hvalue : v.value = some value := congrArg Prod.snd hpair
  have hread : readQueryReply ks (ClientLib.makeReqPayload ⟨.readQuery, .abd, tag, key, []⟩) =
      some { protocol := .abd, integer := tag.integer, clientid := tag.clientId, key := v.key,
             value } := by
    simp [readQueryReply, ClientLib.makeReqPayload, hkey, hv', htagv, hvalue]
  exact ⟨_, abdWriteThenReadQuery_eq_some.mpr ⟨_, hwrite, hread⟩, rfl, rfl, rfl⟩

theorem cmWriteThenRead_eq_some {reply : KeyStoreResponse} :
    cmWriteThenRead mynodenumber oracle s key value tag = some reply ↔
      s.cm.t mynodenumber < intMax ∧
        cmReadReply (cmWritten mynodenumber
          (ClientLib.makeReqPayload ⟨.write, .cm, tag, key, value⟩) s.cm).cmKsMap
          (ClientLib.makeReqPayload ⟨.read, .cm, tag, key, []⟩) = reply := by
  simp [cmWriteThenRead, keyStoreRequestHandler, cmHandler, ClientLib.makeReqPayload,
    Option.bind_eq_some_iff, cmWrite_eq_some]

theorem cmReadReply_sentinel {ks : CmKsMap} {request : KeyStoreRequest}
    (h : request.key = sentinelKey) :
    cmReadReply ks request = { code := .error, protocol := .cm } := by
  rw [cmReadReply, if_pos h]

theorem cmWrittenValue_value (request : KeyStoreRequest) (old : Option CmValue) :
    (cmWrittenValue request old).value = request.value := by
  cases old <;> rfl

theorem cmReadReply_written {request read : KeyStoreRequest} {node : CmNode n}
    (hkey : read.key = request.key) (hne : request.key ≠ sentinelKey) :
    (cmReadReply (cmWritten mynodenumber request node).cmKsMap read).code = .ok ∧
      (cmReadReply (cmWritten mynodenumber request node).cmKsMap read).value = request.value := by
  have hentry : (cmWritten mynodenumber request node).cmKsMap (cStr read.key) =
      some (cmWrittenValue request (node.cmKsMap (cStr request.key))) := by
    rw [hkey]
    exact Function.update_self _ _ _
  simp [cmReadReply, hkey ▸ hne, hentry, cmWrittenValue_value]

theorem cmReadsBack_iff : CmReadsBack mynodenumber oracle s key value tag ↔
    key ≠ sentinelKey ∧ s.cm.t mynodenumber < intMax := by
  simp only [CmReadsBack, cmWriteThenRead_eq_some]
  constructor
  · rintro ⟨reply, ⟨hlt, rfl⟩, hcode, _⟩
    refine ⟨?_, hlt⟩
    rintro rfl
    rw [cmReadReply_sentinel rfl] at hcode
    simp at hcode
  · rintro ⟨hkey, hlt⟩
    exact ⟨_, ⟨hlt, rfl⟩, cmReadReply_written rfl hkey⟩

theorem readAfterWrite_iff (mynodenumber : Fin n) (oracle : MpOracle) (s : KeyStoreServer n)
    (key value : Bytes) (tag : Tag)
    (htag : ∀ v, s.abdKsMap (cStr key) = some v → v.tag < tag) :
    (AbdReadsBack mynodenumber oracle s key value tag ∧
      CmReadsBack mynodenumber oracle s key value tag) ↔
      key ≠ sentinelKey ∧ (∀ v, s.abdKsMap (cStr key) = some v → v.value ≠ none) ∧
        s.cm.t mynodenumber < intMax := by
  rw [cmReadsBack_iff]
  constructor
  · rintro ⟨habd, hkey, hlt⟩
    exact ⟨hkey, (abdReadsBack_iff hkey htag).mp habd, hlt⟩
  · rintro ⟨hkey, hset, hlt⟩
    exact ⟨(abdReadsBack_iff hkey htag).mpr hset, hkey, hlt⟩

theorem readAfterWrite_nul : AbdReadsBack (0 : Fin 1) ⟨0, fun _ => .read, []⟩ .start [107, 0, 1]
      [0] ⟨1, 0⟩ ∧ CmReadsBack (0 : Fin 1) ⟨0, fun _ => .read, []⟩ .start [107, 0, 1] [0] ⟨1, 0⟩ := by
  have hnone : (KeyStoreServer.start : KeyStoreServer 1).abdKsMap (cStr [107, 0, 1]) = none := by
    decide
  refine (readAfterWrite_iff (0 : Fin 1) _ .start [107, 0, 1] [0] ⟨1, 0⟩ ?_).mpr
    ⟨by decide, ?_, by decide⟩
  · simp [hnone]
  · simp [hnone]

/-- A READ of the sentinel's own key answers ERROR right after its WRITE. -/
theorem readAfterWrite_sentinel : ¬ ∀ (n : ℕ) (mynodenumber : Fin n) (oracle : MpOracle)
    (s : KeyStoreServer n) (key value : Bytes) (tag : Tag),
    (∀ v, s.abdKsMap (cStr key) = some v → v.tag < tag) →
      AbdReadsBack mynodenumber oracle s key value tag ∧
        CmReadsBack mynodenumber oracle s key value tag := by
  intro h
  obtain ⟨_, hcm⟩ := h 1 0 ⟨0, fun _ => .read, []⟩ .start sentinelKey [] ⟨1, 0⟩ (by
    simp [KeyStoreServer.start, abdStart, sentinelKey, cStr, Tag.zero, Tag.lt_iff])
  exact (cmReadsBack_iff.mp hcm).1 rfl

end ReadsBack

end KeyValueStore
