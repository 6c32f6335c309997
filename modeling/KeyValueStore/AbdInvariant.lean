import KeyValueStore.AbdTraffic

/-! The invariant of ABD runs whose queries select the greatest tag: what a call
chose is at a majority when it returns, and no later call on its key chooses
less. -/

namespace KeyValueStore

variable {n : ℕ} {s t : AbdSystem n} {a : AbdAction n}

section Condition

/-- Different keys in use are different map keys, and none is the sentinel's. -/
def KeysApart (s : AbdSystem n) (key : Bytes) : Prop :=
  (cStr key = sentinelKey → key = sentinelKey) ∧
    ∀ op ∈ s.ops, cStr op.key = cStr key → op.key = key

/-- The first response has the greatest integer, and a get does not take an
empty value for an absent one. -/
def SelectsGreatest (s : AbdSystem n) (i : ℕ) (order : List (Fin n)) : Prop :=
  ∀ op ∈ s.ops[i]?, ∀ vec ∈ s.collect i false order, ClientLib.LeadsWithHighestTag vec ∧
    (op.put = none → ∀ m ∈ ClientLib.findMajorityTag vec, m.value = [] → m.tag.integer = 0)

def LeadStep (s : AbdSystem n) : AbdAction n → Prop
  | .invoke _ key _ => KeysApart s key
  | .finishQuery i order => SelectsGreatest s i order
  | _ => True

instance (s : AbdSystem n) (key : Bytes) : Decidable (KeysApart s key) :=
  inferInstanceAs (Decidable (_ ∧ ∀ op ∈ s.ops, _))

instance (s : AbdSystem n) (i : ℕ) (order : List (Fin n)) : Decidable (SelectsGreatest s i order) :=
  inferInstanceAs (Decidable (∀ op ∈ s.ops[i]?, ∀ vec ∈ s.collect i false order,
    _ ∧ (_ → ∀ m ∈ ClientLib.findMajorityTag vec, _)))

instance (s : AbdSystem n) (a : AbdAction n) : Decidable (LeadStep s a) :=
  match a with
  | .invoke _ key _ => inferInstanceAs (Decidable (KeysApart s key))
  | .finishQuery i order => inferInstanceAs (Decidable (SelectsGreatest s i order))
  | .deliver _ | .finishWrite _ _ => .isTrue trivial

end Condition

section Invariant

/-- A put of the value under the key chose the tag. -/
def AbdSystem.Wrote (s : AbdSystem n) (k : Bytes) (τ : Tag) (v : Bytes) : Prop :=
  ∃ (i : ℕ) (op : AbdOp), s.ops[i]? = some op ∧ cStr op.key = k ∧ op.put = some v ∧
    op.tag? = some τ

/-- A majority of the replicas is not below the tag. -/
def AbdSystem.Reached (s : AbdSystem n) (k : Bytes) (τ : Tag) : Prop :=
  ∃ q : Finset (Fin n), Majority q ∧ ∀ r ∈ q, τ ≤ (s.replicas r).tagAt k

structure AbdReplyFits (s : AbdSystem n) (c : AbdCall n) (r : ClientLib.Response) : Prop where
  query : c.request.type = .readQuery →
    r = ⟨.zero, []⟩ ∨ s.Wrote (cStr c.request.key) r.tag r.value
  write : c.request.type = .write → c.request.tag ≤ (s.replicas c.dst).tagAt (cStr c.request.key)

structure OpFits (s : AbdSystem n) (op : AbdOp) : Prop where
  put : ∀ v τ, op.put = some v → op.tag? = some τ → τ.clientId = op.client ∧ τ.integer ≠ 0
  read : op.put = none → ∀ τ v, (op.phase = .write τ v ∨ op.phase = .returned τ (some v)) →
    s.Wrote (cStr op.key) τ v
  absent : op.put = none → ∀ τ, op.phase = .returned τ none → τ.integer = 0

/-- The call comes after one that chose the tag: its query finds that tag, and
it chooses no smaller one. -/
structure Behind (s : AbdSystem n) (j : ℕ) (op : AbdOp) (k : Bytes) (τ : Tag) : Prop where
  quorum : ∃ q : Finset (Fin n), Majority q ∧ ∀ r ∈ q, τ ≤ (s.replicas r).tagAt k ∧
    ∀ c reply, (c, reply) ∈ s.replies → c.op = j → c.second = false → c.dst = r →
      τ ≤ (ClientLib.extractResponseFromPayload reply).tag
  chosen : ∀ τ', op.tag? = some τ' → τ ≤ τ' ∧ (op.put ≠ none → τ < τ')

structure AbdInv (s : AbdSystem n) : Prop where
  fits : AbdFits s
  stored : ∀ r k v, k ≠ sentinelKey → s.replicas r k = some v →
    ∃ value, v.value = some value ∧ s.Wrote k v.tag value
  payloads : ∀ c ∈ s.calls, c.second = true → cStr c.request.key ≠ sentinelKey →
    s.Wrote (cStr c.request.key) c.request.tag c.request.value
  replies : ∀ c reply, (c, reply) ∈ s.replies → cStr c.request.key ≠ sentinelKey →
    AbdReplyFits s c (ClientLib.extractResponseFromPayload reply)
  ops : ∀ (i : ℕ) (op : AbdOp), s.ops[i]? = some op → cStr op.key ≠ sentinelKey → OpFits s op
  returned : ∀ (i : ℕ) (op : AbdOp) (τ : Tag), s.ops[i]? = some op → cStr op.key ≠ sentinelKey →
    op.done = true → op.tag? = some τ → s.Reached (cStr op.key) τ
  behind : ∀ (i j : ℕ) (opi opj : AbdOp) (τ : Tag), s.Precedes i j → s.ops[i]? = some opi →
    s.ops[j]? = some opj → cStr opj.key = cStr opi.key → cStr opi.key ≠ sentinelKey →
    opi.tag? = some τ → Behind s j opj (cStr opi.key) τ

theorem AbdSystem.Wrote.mono (he : AbdExtends s t) {k : Bytes} {τ : Tag} {v : Bytes}
    (h : s.Wrote k τ v) : t.Wrote k τ v := by
  obtain ⟨i, op, hop, rfl, hput, htag⟩ := h
  obtain ⟨op', hop', _, hkey, hput', htag'⟩ := he.ops i op hop
  exact ⟨i, op', hop', hkey ▸ rfl, hput'.trans hput, htag' τ htag⟩

theorem AbdSystem.Reached.mono (he : AbdExtends s t) {k : Bytes} {τ : Tag} (h : s.Reached k τ) :
    t.Reached k τ := by
  obtain ⟨q, hq, hall⟩ := h
  exact ⟨q, hq, fun r hr => (hall r hr).trans (he.tags r k)⟩

theorem AbdFits.reached_of_collect (h : AbdFits s) {i : ℕ} {op : AbdOp} {tag : Tag}
    {order : List (Fin n)} {vec : List ClientLib.Response} (hop : s.ops[i]? = some op)
    (htag : op.tag? = some tag) (hvec : s.collect i true order = some vec)
    (hreplies : ∀ c reply, (c, reply) ∈ s.replies → c.request.key = op.key →
      c.request.type = .write → c.request.tag ≤ (s.replicas c.dst).tagAt (cStr c.request.key)) :
    s.Reached (cStr op.key) tag := by
  obtain ⟨hnd, hlen, hcollected⟩ := AbdSystem.collect_majority hvec
  refine ⟨_, majority_toFinset hnd (by rwa [Fintype.card_fin]), fun r hr => ?_⟩
  obtain ⟨c, reply, hm, hc, hsec, rfl, _⟩ := hcollected r (List.mem_toFinset.mp hr)
  obtain ⟨op', hfit⟩ := h.calls c (.inr ⟨reply, hm⟩)
  cases (hc ▸ hop).symm.trans hfit.sender
  obtain ⟨htype, hreq⟩ := hfit.write hsec
  have hle := hreplies c reply hm hfit.key htype
  rw [hfit.key] at hle
  cases htag.symm.trans hreq
  exact hle

theorem AbdReplyFits.mono (he : AbdExtends s t) {c : AbdCall n} {r : ClientLib.Response}
    (h : AbdReplyFits s c r) : AbdReplyFits t c r where
  query htype := (h.query htype).imp_right (fun hw => hw.mono he)
  write htype := (h.write htype).trans (he.tags _ _)

theorem OpFits.mono (he : AbdExtends s t) {op : AbdOp} (h : OpFits s op) : OpFits t op where
  put := h.put
  read hput τ v hp := (h.read hput τ v hp).mono he
  absent := h.absent

end Invariant

section Deliver

theorem cStr_sentinelKey : cStr sentinelKey = sentinelKey := by decide

theorem abdHandler_query_tag {ks ks' : KsMap} {request : KeyStoreRequest} {reply : KeyStoreResponse}
    (h : abdHandler ks request = some (ks', reply)) (hkey : cStr request.key ≠ sentinelKey)
    (htype : request.type = .readQuery ∨ request.type = .writeQuery) :
    ks.tagAt (cStr request.key) ≤ (ClientLib.extractResponseFromPayload reply).tag := by
  rcases htype with htype | htype
  · have hne : request.key ≠ sentinelKey := fun he => hkey (he ▸ cStr_sentinelKey)
    rcases abdHandler_readQuery h htype hne with ⟨hks, he⟩ | ⟨v, _, hks, _, he⟩
    · simp [he, KsMap.tagAt, hks]
    · rw [he, KsMap.tagAt_some hks]
  · exact (abdHandler_writeQuery h htype).1

theorem AbdCallFits.second_of_write {c : AbdCall n} {op : AbdOp} (h : AbdCallFits s c op)
    (htype : c.request.type = .write) : c.second = true := by
  by_contra hs
  have hq := h.query (by simpa using hs)
  rw [htype] at hq
  split at hq <;> simp at hq

theorem AbdCallFits.query_type {c : AbdCall n} {op : AbdOp} (h : AbdCallFits s c op)
    (hs : c.second = false) : c.request.type = .readQuery ∨ c.request.type = .writeQuery := by
  rw [h.query hs]
  split
  · exact .inl rfl
  · exact .inr rfl

theorem Behind.deliver {j k : ℕ} {opj : AbdOp} {key : Bytes} {τ : Tag} {call : AbdCall n}
    {ks : KsMap} {reply : KeyStoreResponse} (h : Behind s j opj key τ) (hfits : AbdFits s)
    (hcall : call ∈ s.calls)
    (hh : abdHandler (s.replicas call.dst) call.request = some (ks, reply))
    (hs : AbdSteps s a (s.delivered k call ks reply)) (hj : s.ops[j]? = some opj)
    (hkey : cStr opj.key = key) (hfinds : key ≠ sentinelKey ∨ opj.put ≠ none) :
    Behind (s.delivered k call ks reply) j opj key τ := by
  obtain ⟨⟨q, hq, hall⟩, hchosen⟩ := h
  refine ⟨⟨q, hq, fun r hr => ⟨(hall r hr).1.trans (hs.extends.tags r _),
    fun c rep hm hc hsec hd => ?_⟩⟩, hchosen⟩
  rcases List.mem_cons.mp hm with he | hm
  · simp only [Prod.mk.injEq] at he
    obtain ⟨rfl, rfl⟩ := he
    obtain ⟨op, hfit⟩ := hfits.calls c (.inl hcall)
    subst hc hd
    cases hj.symm.trans hfit.sender
    have hkeys : cStr c.request.key = key := (congrArg cStr hfit.key).trans hkey
    have hle : (s.replicas c.dst).tagAt (cStr c.request.key) ≤
        (ClientLib.extractResponseFromPayload rep).tag := by
      rcases hfinds with hne | hput
      · exact abdHandler_query_tag hh (hkeys ▸ hne) (hfit.query_type hsec)
      · exact (abdHandler_writeQuery hh ((hfit.query hsec).trans (if_neg hput))).1
    rw [hkeys] at hle
    exact (hall c.dst hr).1.trans hle
  · exact (hall r hr).2 c rep hm hc hsec hd

theorem AbdInv.deliver (h : AbdInv s) {k : ℕ} {call : AbdCall n} {ks : KsMap}
    {reply : KeyStoreResponse} (hcall : call ∈ s.calls)
    (hh : abdHandler (s.replicas call.dst) call.request = some (ks, reply))
    (hs : AbdSteps s a (s.delivered k call ks reply)) : AbdInv (s.delivered k call ks reply) := by
  have hext := hs.extends
  obtain ⟨op, hfit⟩ := h.fits.calls call (.inl hcall)
  have hself : (s.delivered k call ks reply).replicas call.dst = ks := by
    simp [AbdSystem.delivered]
  have hstored : ∀ r k' v, k' ≠ sentinelKey → s.replicas r k' = some v →
      ∃ value, v.value = some value ∧ (s.delivered k call ks reply).Wrote k' v.tag value :=
    fun r k' v hk hv => (h.stored r k' v hk hv).imp (fun _ hx => ⟨hx.1, hx.2.mono hext⟩)
  refine ⟨h.fits.step hs, fun r k' v hk hv => ?_, fun c hc hsec hk => ?_, fun c rep hr hk => ?_,
    fun i opi hi hk => (h.ops i opi hi hk).mono hext,
    fun i opi τ hi hk hd hτ => (h.returned i opi τ hi hk hd hτ).mono hext,
    fun i j opi opj τ hp hi hj hkey hk hτ => ?_⟩
  · by_cases hr : r = call.dst
    · subst hr
      rw [hself] at hv
      rcases abdHandler_stored hh hv with hold | ⟨htype, rfl, htag, hvalue⟩
      · exact hstored _ k' v hk hold
      · rw [htag]
        exact ⟨_, hvalue, (h.payloads call hcall (hfit.second_of_write htype) hk).mono hext⟩
    · exact hstored r k' v hk (by simpa [AbdSystem.delivered, Function.update, hr] using hv)
  · exact (h.payloads c (List.mem_of_mem_eraseIdx hc) hsec hk).mono hext
  · rcases List.mem_cons.mp hr with he | hr
    · simp only [Prod.mk.injEq] at he
      obtain ⟨rfl, rfl⟩ := he
      refine ⟨fun htype => ?_, fun htype => ?_⟩
      · have hne : c.request.key ≠ sentinelKey := fun he => hk (he ▸ cStr_sentinelKey)
        rcases abdHandler_readQuery hh htype hne with ⟨_, he⟩ | ⟨v, value, hv, hvalue, he⟩
        · exact .inl he
        · obtain ⟨value', hvalue', hw⟩ := hstored _ _ v hk hv
          cases hvalue.symm.trans hvalue'
          rw [he]
          exact .inr hw
      · rw [hself]
        exact abdHandler_write hh htype
    · exact (h.replies c rep hr hk).mono hext
  · exact (h.behind i j opi opj τ hp hi hj hkey hk hτ).deliver h.fits hcall hh hs hj hkey (.inl hk)

end Deliver

section Invoke

/-- Nothing has answered a new call, so a tag at a majority is not behind it. -/
theorem AbdSystem.Reached.behind {op : AbdOp} {k : Bytes} {τ : Tag} (h : s.Reached k τ)
    (hfits : AbdFits s) (hphase : op.phase = .query) :
    Behind ((s.invokes op).send s.ops.length false op.queryRequest) s.ops.length op k τ := by
  obtain ⟨q, hq, hall⟩ := h
  refine ⟨⟨q, hq, fun r hr => ⟨hall r hr, fun c rep hm hc _ _ => ?_⟩⟩, fun τ' hτ' => ?_⟩
  · obtain ⟨_, hfit⟩ := hfits.calls c (.inr ⟨rep, hm⟩)
    exact absurd (hc ▸ (List.getElem?_eq_some_iff.mp hfit.sender).1) (lt_irrefl _)
  · simp [tag?_eq_none hphase] at hτ'

theorem AbdInv.invoke (h : AbdInv s) {op : AbdOp} (hphase : op.phase = .query)
    (hs : AbdSteps s a ((s.invokes op).send s.ops.length false op.queryRequest)) :
    AbdInv ((s.invokes op).send s.ops.length false op.queryRequest) := by
  have hext := hs.extends
  have hget : ∀ (j : ℕ) (opj : AbdOp), (s.ops ++ [op])[j]? = some opj →
      s.ops[j]? = some opj ∨ j = s.ops.length ∧ opj = op := fun _ _ => AbdSystem.ops_concat
  refine ⟨h.fits.step hs, fun r k v hk hv => (h.stored r k v hk hv).imp
      (fun _ hx => ⟨hx.1, hx.2.mono hext⟩),
    fun c hc hsec hk => ?_, fun c rep hr hk => (h.replies c rep hr hk).mono hext,
    fun i opi hi hk => ?_, fun i opi τ hi hk hd hτ => ?_, fun i j opi opj τ hp hi hj hkey hk hτ => ?_⟩
  · rcases mem_send_calls.mp hc with hc | ⟨_, hs, _⟩
    · exact (h.payloads c hc hsec hk).mono hext
    · exact absurd (hs.symm.trans hsec) (by simp)
  · rcases hget i opi hi with hi | ⟨_, rfl⟩
    · exact (h.ops i opi hi hk).mono hext
    · exact ⟨fun v τ _ hτ => by simp [tag?_eq_none hphase] at hτ,
        fun _ τ v hp => by simp [hphase] at hp, fun _ τ hp => by simp [hphase] at hp⟩
  · rcases hget i opi hi with hi | ⟨_, rfl⟩
    · exact (h.returned i opi τ hi hk hd hτ).mono hext
    · simp [tag?_eq_none hphase] at hτ
  · have hi' : s.ops[i]? = some opi := by
      rcases hget i opi hi with hi | ⟨_, rfl⟩
      · exact hi
      · simp [tag?_eq_none hphase] at hτ
    rcases List.sublist_cons_iff.mp hp with hp | ⟨rest, he, hrest⟩
    · have hold := (h.fits.invoked j).mp (hp.subset List.mem_cons_self)
      rcases hget j opj hj with hj | ⟨rfl, _⟩
      · exact ⟨(h.behind i j opi opj τ hp hi' hj hkey hk hτ).quorum,
          (h.behind i j opi opj τ hp hi' hj hkey hk hτ).chosen⟩
      · exact absurd hold (lt_irrefl _)
    · obtain ⟨hj', rfl⟩ := List.cons.inj he
      cases hj'
      obtain ⟨opi', hi'', hd⟩ := (h.fits.returned i).mp (hrest.subset List.mem_cons_self)
      cases hi'.symm.trans hi''
      rcases hget _ opj hj with hj | ⟨_, rfl⟩
      · exact absurd (List.getElem?_eq_some_iff.mp hj).1 (lt_irrefl _)
      · exact (h.returned i opi τ hi' hk hd hτ).behind h.fits hphase

end Invoke

section Choose

variable {i : ℕ} {op : AbdOp} {order : List (Fin n)} {vec : List ClientLib.Response}
  {maxResp : ClientLib.Response}

/-- The query of a call finds what earlier calls left at a majority. -/
theorem Behind.le_of_mem {k : Bytes} {τ : Tag} (h : Behind s i op k τ)
    (hvec : s.collect i false order = some vec) : ∃ r ∈ vec, τ ≤ r.tag := by
  obtain ⟨⟨q, hq, hall⟩, _⟩ := h
  obtain ⟨hnd, hlen, hcollected⟩ := AbdSystem.collect_majority hvec
  obtain ⟨x, hx, hxq⟩ := (majority_toFinset hnd (by rwa [Fintype.card_fin])).inter hq
  obtain ⟨c, reply, hm, hc, hsec, hd, hr⟩ := hcollected x (List.mem_toFinset.mp hx)
  exact ⟨_, hr, (hall x hxq).2 c reply hm hc hsec hd⟩

theorem AbdInv.selected (h : AbdInv s) (hop : s.ops[i]? = some op) (hput : op.put = none)
    (hk : cStr op.key ≠ sentinelKey) (hvec : s.collect i false order = some vec)
    (hmax : ClientLib.findMajorityTag vec = some maxResp) :
    maxResp = ⟨.zero, []⟩ ∨ s.Wrote (cStr op.key) maxResp.tag maxResp.value := by
  obtain ⟨c, reply, hm, hc, hsec, he⟩ := AbdSystem.mem_of_collect hvec (findMajorityTag_mem hmax)
  obtain ⟨op', hfit⟩ := h.fits.calls c (.inr ⟨reply, hm⟩)
  cases (hc ▸ hop).symm.trans hfit.sender
  have htype : c.request.type = .readQuery := (hfit.query hsec).trans (if_pos hput)
  rw [he, ← hfit.key]
  exact (h.replies c reply hm (hfit.key ▸ hk)).query htype

theorem AbdSystem.Wrote.integer_ne_zero (h : AbdInv s) {k : Bytes} {τ : Tag} {v : Bytes}
    (hk : k ≠ sentinelKey) (hw : s.Wrote k τ v) : τ.integer ≠ 0 := by
  obtain ⟨j, opj, hj, rfl, hput, hτ⟩ := hw
  exact ((h.ops j opj hj hk).put v τ hput hτ).2

theorem AbdInv.set (h : AbdInv s) {p : AbdPhase} (hs : AbdSteps s a t)
    (hop : s.ops[i]? = some op) (hundone : op.done = false)
    (hops : t.ops = s.ops.set i { op with phase := p }) (hreplicas : t.replicas = s.replicas)
    (hreplies : t.replies = s.replies) (hprec : ∀ j k, t.Precedes j k ↔ s.Precedes j k)
    (hcalls : ∀ c ∈ t.calls, c ∈ s.calls ∨ (cStr c.request.key ≠ sentinelKey →
      t.Wrote (cStr c.request.key) c.request.tag c.request.value))
    (hfits : cStr op.key ≠ sentinelKey → OpFits t { op with phase := p })
    (hreturned : cStr op.key ≠ sentinelKey → AbdOp.done { op with phase := p } = true →
      ∀ τ, AbdOp.tag? { op with phase := p } = some τ → s.Reached (cStr op.key) τ)
    (hchosen : cStr op.key ≠ sentinelKey → ∀ τ, Behind s i op (cStr op.key) τ →
      ∀ τ', AbdOp.tag? { op with phase := p } = some τ' → τ ≤ τ' ∧ (op.put ≠ none → τ < τ')) :
    AbdInv t := by
  have hext := hs.extends
  have hget := fun j => hops ▸ AbdSystem.ops_set hop { op with phase := p } j
  refine ⟨h.fits.step hs, fun r k v hk hv => (h.stored r k v hk (hreplicas ▸ hv)).imp
      (fun _ hx => ⟨hx.1, hx.2.mono hext⟩),
    fun c hc hsec hk => ?_, fun c rep hr hk => (h.replies c rep (hreplies ▸ hr) hk).mono hext,
    fun j opj hj hk => ?_, fun j opj τ hj hk hd hτ => ?_, fun j k opj opk τ hp hj hk hkey hne hτ => ?_⟩
  · rcases hcalls c hc with hc | hw
    · exact (h.payloads c hc hsec hk).mono hext
    · exact hw hk
  · rw [hget] at hj
    split at hj
    next =>
      cases hj
      exact hfits hk
    next => exact (h.ops j opj hj hk).mono hext
  · rw [hget] at hj
    split at hj
    next =>
      cases hj
      exact (hreturned hk hd τ hτ).mono hext
    next => exact (h.returned j opj τ hj hk hd hτ).mono hext
  · rw [hprec] at hp
    have hj' := h.fits.before_set hop hundone hp (hops ▸ hj)
    rw [hget] at hk
    split at hk
    next he =>
      cases hk
      subst he
      have hb := h.behind j k opj op τ hp hj' hop hkey hne hτ
      refine ⟨?_, hchosen (hkey ▸ hne) τ (hkey ▸ hb)⟩
      rw [hreplicas, hreplies]
      exact hb.quorum
    next =>
      have hb := h.behind j k opj opk τ hp hj' hk hkey hne hτ
      refine ⟨?_, hb.chosen⟩
      rw [hreplicas, hreplies]
      exact hb.quorum

theorem AbdInv.startWrite (h : AbdInv s) {tag : Tag} {value : Bytes} (hop : s.ops[i]? = some op)
    (hphase : op.phase = .query) (hvec : s.collect i false order = some vec)
    (hmax : ClientLib.findMajorityTag vec = some maxResp)
    (hwrite : (op.put = some value ∧ tag = ⟨maxResp.tag.integer + 1, op.client⟩) ∨
      op.put = none ∧ value ≠ [] ∧ tag = maxResp.tag ∧ value = maxResp.value)
    (hlead : ClientLib.LeadsWithHighestTag vec)
    (hbound : maxResp.tag.integer.toNat + 1 < UInt32.size)
    (hs : AbdSteps s a ((s.setOp i { op with phase := .write tag value }).send i true
      (op.writeRequest tag value))) :
    AbdInv ((s.setOp i { op with phase := .write tag value }).send i true
      (op.writeRequest tag value)) := by
  have hext := hs.extends
  have hsucc : (maxResp.tag.integer + 1).toNat = maxResp.tag.integer.toNat + 1 := by
    rw [UInt32.toNat_add]
    exact Nat.mod_eq_of_lt hbound
  have hlt : maxResp.tag.integer < maxResp.tag.integer + 1 := by
    rw [UInt32.lt_iff_toNat_lt, hsucc]
    omega
  have hself : ((s.setOp i { op with phase := .write tag value }).send i true
      (op.writeRequest tag value)).ops[i]? = some { op with phase := .write tag value } :=
    (AbdSystem.ops_set hop _ _).trans (if_pos rfl)
  have hwrote : cStr op.key ≠ sentinelKey → ((s.setOp i { op with phase := .write tag value }).send
      i true (op.writeRequest tag value)).Wrote (cStr op.key) tag value := by
    intro hk
    rcases hwrite with ⟨hput, _⟩ | ⟨hput, hne, rfl, rfl⟩
    · exact ⟨i, _, hself, rfl, hput, rfl⟩
    · rcases h.selected hop hput hk hvec hmax with he | hw
      · exact absurd (congrArg ClientLib.Response.value he) hne
      · exact hw.mono hext
  refine h.set hs hop (by simp [AbdOp.done, hphase]) rfl rfl rfl (fun _ _ => Iff.rfl)
    (fun c hc => ?_) (fun hk => ?_) (fun _ hd => by simp [AbdOp.done] at hd)
    (fun hk τ hb τ' hτ' => ?_)
  · rcases mem_send_calls.mp hc with hc | ⟨_, _, hreq⟩
    · exact .inl hc
    · refine .inr ?_
      rw [hreq]
      exact hwrote
  · refine ⟨fun v τ hput hτ => ?_, fun hput τ v hp => ?_, fun _ τ hp => by simp at hp⟩
    · cases hτ
      rcases hwrite with ⟨_, rfl⟩ | ⟨hnone, _⟩
      · exact ⟨rfl, (UInt32.ne_of_lt (UInt32.lt_of_le_of_lt UInt32.zero_le hlt)).symm⟩
      · exact absurd (hnone.symm.trans hput) (by simp)
    · rcases hp with hp | hp
      · cases hp
        exact hwrote hk
      · simp at hp
  · cases hτ'
    obtain ⟨r, hr, hle⟩ := hb.le_of_mem hvec
    have hmaxle := hle.trans ((ClientLib.findMajorityTag_spec hmax hlead).2 r hr)
    rcases hwrite with ⟨_, rfl⟩ | ⟨hnone, _, rfl, _⟩
    · have hstrict := hmaxle.trans_lt (Tag.lt_of_integer_lt
        (u := ⟨maxResp.tag.integer + 1, op.client⟩) hlt)
      exact ⟨hstrict.le, fun _ => hstrict⟩
    · exact ⟨hmaxle, fun hne => absurd hnone hne⟩

/-- A get that finds nothing needs no majority: its tag is below all others. -/
theorem AbdInv.absent (h : AbdInv s) (hop : s.ops[i]? = some op) (hphase : op.phase = .query)
    (hput : op.put = none) (hvec : s.collect i false order = some vec)
    (hmax : ClientLib.findMajorityTag vec = some maxResp)
    (hlead : ClientLib.LeadsWithHighestTag vec) (hzero : maxResp.tag.integer = 0)
    (hs : AbdSteps s a (s.returns i { op with phase := .returned maxResp.tag none })) :
    AbdInv (s.returns i { op with phase := .returned maxResp.tag none }) := by
  refine h.set hs hop (by simp [AbdOp.done, hphase]) rfl rfl rfl
    (fun _ _ => precedes_cons_returned _) (fun c hc => .inl hc) (fun _ => ?_)
    (fun hk _ τ hτ => ?_) (fun _ τ hb τ' hτ' => ?_)
  · refine ⟨fun v τ hv _ => absurd (hput.symm.trans hv) (by simp), fun _ τ v hp => ?_,
      fun _ τ hp => ?_⟩
    · rcases hp with hp | hp <;> simp at hp
    · cases hp
      exact hzero
  · cases hτ
    rcases h.selected hop hput hk hvec hmax with he | hw
    · obtain ⟨hnd, hlen, _⟩ := AbdSystem.collect_majority hvec
      refine ⟨_, majority_toFinset hnd (by rwa [Fintype.card_fin]), fun r _ => ?_⟩
      rw [he]
      exact Tag.zero_le _
    · exact absurd hzero (hw.integer_ne_zero h hk)
  · cases hτ'
    obtain ⟨r, hr, hle⟩ := hb.le_of_mem hvec
    exact ⟨hle.trans ((ClientLib.findMajorityTag_spec hmax hlead).2 r hr),
      fun hne => absurd hput hne⟩

theorem AbdInv.finishWrite (h : AbdInv s) {tag : Tag} {value : Bytes} (hop : s.ops[i]? = some op)
    (hphase : op.phase = .write tag value) (hvec : s.collect i true order = some vec)
    (hs : AbdSteps s a (s.returns i { op with
      phase := .returned tag (if op.put = none then some value else none) })) :
    AbdInv (s.returns i { op with
      phase := .returned tag (if op.put = none then some value else none) }) := by
  have hext := hs.extends
  have htag := tag?_write hphase
  refine h.set hs hop (by simp [AbdOp.done, hphase]) rfl rfl rfl
    (fun _ _ => precedes_cons_returned _) (fun c hc => .inl hc) (fun hk => ?_)
    (fun hk _ τ hτ => ?_) (fun _ τ hb τ' hτ' => ?_)
  · have hold := h.ops i op hop hk
    refine ⟨fun v τ hput hτ => hold.put v τ hput (htag.trans hτ), fun hput τ v hp => ?_,
      fun hput τ hp => ?_⟩
    · rcases hp with hp | hp
      · simp at hp
      · simp only [AbdPhase.returned.injEq, show op.put = none from hput, if_true,
          Option.some.injEq] at hp
        obtain ⟨rfl, rfl⟩ := hp
        exact (hold.read hput tag value (.inl hphase)).mono hext
    · simp [show op.put = none from hput] at hp
  · cases hτ
    exact h.fits.reached_of_collect hop htag hvec
      (fun c reply hm hkey htype => (h.replies c reply hm (hkey ▸ hk)).write htype)
  · exact hb.chosen τ' (htag.trans hτ')

theorem AbdInv.step (h : AbdInv s) (hb : Bounded s s.chosenPuts)
    (hputs : s.putCount < UInt32.size - 1) (hok : LeadStep s a) (hs : AbdSteps s a t) :
    AbdInv t := by
  have hstep := hs
  cases hs with
  | invoke hidle hop =>
    subst hop
    exact h.invoke rfl hstep
  | deliver hcall hh => exact h.deliver hcall hh hstep
  | @startWrite i op order vec maxResp tag value hop hphase hvec hmax hwrite =>
    have hle := (collect_integer_le hb hvec (findMajorityTag_mem hmax)).trans s.chosenPuts_le
    exact h.startWrite hop hphase hvec hmax hwrite (hok op hop vec hvec).1 (by omega) hstep
  | absent hop hphase hput hvec hmax hvalue =>
    exact h.absent hop hphase hput hvec hmax (hok _ hop _ hvec).1
      ((hok _ hop _ hvec).2 hput _ hmax hvalue) hstep
  | finishWrite hop hphase hvec => exact h.finishWrite hop hphase hvec hstep

theorem abdInv_init : AbdInv (AbdSystem.init : AbdSystem n) where
  fits := abdFits_init
  stored r k v hk hv := by simp [AbdSystem.init, abdStart_eq, hk] at hv
  payloads := by simp [AbdSystem.init]
  replies := by simp [AbdSystem.init]
  ops := by simp [AbdSystem.init]
  returned := by simp [AbdSystem.init]
  behind := by simp [AbdSystem.init]

theorem AbdSteps.putCount_le (h : AbdSteps s a t) : s.putCount ≤ t.putCount := by
  have hset : ∀ {i : ℕ} {op : AbdOp} {p : AbdPhase}, s.ops[i]? = some op →
      t.ops = s.ops.set i { op with phase := p } → s.putCount ≤ t.putCount := by
    intro i op p hop hops
    have hcount := countP_set (p := fun op => op.put.isSome) hop { op with phase := p }
    rw [AbdSystem.putCount, AbdSystem.putCount, hops]
    exact (Nat.add_right_cancel hcount).ge
  cases h with
  | invoke =>
    simp [AbdSystem.putCount, AbdSystem.send, AbdSystem.invokes, List.countP_append]
  | deliver => exact le_rfl
  | startWrite hop => exact hset hop rfl
  | absent hop => exact hset hop rfl
  | finishWrite hop => exact hset hop rfl

theorem abdInv_of_reachable (h : ReachableWhen abdStep LeadStep .init s)
    (hputs : s.putCount < UInt32.size - 1) : AbdInv s := by
  refine h.invariant (P := fun s => s.putCount < UInt32.size - 1 → AbdInv s)
    (fun _ => abdInv_init) (fun u a v hr hu ha he hv => ?_) hputs
  have hs := abdStep_steps he
  have hlt := hs.putCount_le.trans_lt hv
  exact (hu hlt).step (bounded_of_reachable hr) hlt ha hs

end Choose

end KeyValueStore
