import KeyValueStore.AbdTraffic
import KeyValueStore.Progress

/-! No request of an ABD call is lost, so a call returns once a majority of the
replicas handle what it sent, whatever the other calls and replicas do. -/

namespace KeyValueStore

variable {n : ℕ} {s t : AbdSystem n} {a : AbdAction n}

section Sent

/-- The request is on its way or was answered. -/
def AbdSystem.Carries (s : AbdSystem n) (c : AbdCall n) : Prop :=
  c ∈ s.calls ∨ ∃ reply, (c, reply) ∈ s.replies

def AbdSystem.Sent (s : AbdSystem n) (i : ℕ) (second : Bool) (request : KeyStoreRequest) : Prop :=
  ∀ r, s.Carries ⟨i, second, r, request⟩

/-- The tag and the value of the WRITE that a call sent. -/
def AbdOp.sentWrite (op : AbdOp) : Option (Tag × Bytes) :=
  match op.phase with
  | .query => none
  | .write tag value => some (tag, value)
  | .returned tag result => (op.put.or result).map fun value => (tag, value)

structure AbdSentInv (s : AbdSystem n) : Prop where
  default : ∀ r, (s.replicas r sentinelKey).isSome
  stored : ∀ r k v, s.replicas r k = some v → k ≠ sentinelKey → v.value.isSome
  query : ∀ (i : ℕ) (op : AbdOp), s.ops[i]? = some op → s.Sent i false op.queryRequest
  write : ∀ (i : ℕ) (op : AbdOp) (τ : Tag) (v : Bytes), s.ops[i]? = some op →
    op.sentWrite = some (τ, v) → s.Sent i true (op.writeRequest τ v)
  put : ∀ (i : ℕ) (op : AbdOp) (τ : Tag) (v w : Bytes), s.ops[i]? = some op →
    op.phase = .write τ v → op.put = some w → w = v

theorem abdStep_deliver {k : ℕ} (h : abdStep s (.deliver k) = some t) : ∃ call ks reply,
    s.calls[k]? = some call ∧ abdHandler (s.replicas call.dst) call.request = some (ks, reply) ∧
      t = s.delivered k call ks reply := by
  obtain ⟨call, hk, h⟩ := Option.bind_eq_some_iff.mp h
  obtain ⟨⟨ks, reply⟩, hh, rfl⟩ := Option.map_eq_some_iff.mp h
  exact ⟨call, ks, reply, hk, hh, rfl⟩

theorem AbdSystem.Carries.delivered {k : ℕ} {c call : AbdCall n} {ks : KsMap}
    {reply : KeyStoreResponse} (h : s.Carries c) (hk : s.calls[k]? = some call) :
    (s.delivered k call ks reply).Carries c := by
  rcases h with hc | ⟨rep, hr⟩
  · obtain ⟨hlt, he⟩ := List.getElem?_eq_some_iff.mp hk
    rcases List.mem_cons.mp ((List.getElem_cons_eraseIdx_perm hlt).mem_iff.mpr hc) with rfl | hc
    · exact .inr ⟨reply, he ▸ List.mem_cons_self⟩
    · exact .inl hc
  · exact .inr ⟨rep, List.mem_cons_of_mem _ hr⟩

theorem AbdSystem.Carries.step {c : AbdCall n} (h : s.Carries c) (hstep : abdStep s a = some t) :
    t.Carries c := by
  have hsend : ∀ {u : AbdSystem n} {i : ℕ} {second : Bool} {request : KeyStoreRequest},
      u.Carries c → (u.send i second request).Carries c :=
    fun hc => hc.imp_left fun hm => mem_send_calls.mpr (.inl hm)
  have hsteps := abdStep_steps hstep
  cases hsteps with
  | invoke => exact hsend h
  | deliver =>
    obtain ⟨call, ks, reply, hk, _, he⟩ := abdStep_deliver hstep
    exact he ▸ h.delivered hk
  | startWrite => exact hsend h
  | absent => exact h
  | finishWrite => exact h

theorem abdSentInv_init : AbdSentInv (AbdSystem.init : AbdSystem n) where
  default := by simp [AbdSystem.init, abdStart_eq]
  stored r k v hv hk := by simp [AbdSystem.init, abdStart_eq, hk] at hv
  query := by simp [AbdSystem.init]
  write := by simp [AbdSystem.init]
  put := by simp [AbdSystem.init]

theorem AbdSentInv.set (h : AbdSentInv s) (hstep : abdStep s a = some t) {i : ℕ} {op : AbdOp}
    {p : AbdPhase} (hop : s.ops[i]? = some op) (hops : t.ops = s.ops.set i { op with phase := p })
    (hreplicas : t.replicas = s.replicas)
    (hwrite : ∀ τ v, AbdOp.sentWrite { op with phase := p } = some (τ, v) →
      t.Sent i true (op.writeRequest τ v))
    (hput : ∀ τ v w, p = .write τ v → op.put = some w → w = v) : AbdSentInv t := by
  have hget := fun j => hops ▸ AbdSystem.ops_set hop { op with phase := p } j
  refine ⟨hreplicas ▸ h.default, hreplicas ▸ h.stored, fun j opj hj => ?_,
    fun j opj τ v hj hw => ?_,
    fun j opj τ v w hj hph hp => ?_⟩ <;> rw [hget] at hj <;> split at hj
  next he =>
    subst he
    cases hj
    exact fun r => (h.query j op hop r).step hstep
  next => exact fun r => (h.query j opj hj r).step hstep
  next he =>
    subst he
    cases hj
    exact hwrite τ v hw
  next => exact fun r => (h.write j opj τ v hj hw r).step hstep
  next he =>
    subst he
    cases hj
    exact hput τ v w hph hp
  next => exact h.put j opj τ v w hj hph hp

theorem AbdSentInv.invoke (h : AbdSentInv s) {client : UInt32} {key : Bytes} {put : Option Bytes}
    (hstep : abdStep s (.invoke client key put) = some t) : AbdSentInv t := by
  have hkept := fun c (hc : s.Carries c) => hc.step hstep
  cases abdStep_steps hstep with
  | @invoke _ _ _ op hidle hop =>
    refine ⟨h.default, h.stored, fun j opj hj r => ?_, fun j opj τ v hj hw r => ?_,
      fun j opj τ v w hj hph hp => ?_⟩ <;> rcases AbdSystem.ops_concat hj with hj | ⟨rfl, rfl⟩
    · exact hkept _ (h.query j opj hj r)
    · exact .inl (mem_send_calls.mpr (.inr ⟨rfl, rfl, rfl⟩))
    · exact hkept _ (h.write j opj τ v hj hw r)
    · subst hop
      simp [AbdOp.sentWrite] at hw
    · exact h.put j opj τ v w hj hph hp
    · subst hop
      simp at hph

theorem AbdSentInv.deliver (h : AbdSentInv s) {k : ℕ} (hstep : abdStep s (.deliver k) = some t) :
    AbdSentInv t := by
  have hkept := fun c (hc : s.Carries c) => hc.step hstep
  obtain ⟨call, ks, reply, hk, hh, rfl⟩ := abdStep_deliver hstep
  refine ⟨fun r => ?_, fun r k' v hv hne => ?_, fun i op hi r => hkept _ (h.query i op hi r),
    fun i op τ v hi hw r => hkept _ (h.write i op τ v hi hw r), h.put⟩
  · by_cases hr : r = call.dst
    · subst hr
      simpa [AbdSystem.delivered] using abdHandler_isSome hh (h.default _)
    · simpa [AbdSystem.delivered, Function.update, hr] using h.default r
  · by_cases hr : r = call.dst
    · subst hr
      simp only [AbdSystem.delivered, Function.update_self] at hv
      rcases abdHandler_stored hh hv with hold | ⟨_, _, _, hvalue⟩
      · exact h.stored _ k' v hold hne
      · simp [hvalue]
    · exact h.stored r k' v (by simpa [AbdSystem.delivered, Function.update, hr] using hv) hne

theorem AbdSentInv.step (h : AbdSentInv s) (hstep : abdStep s a = some t) : AbdSentInv t := by
  have hsteps := abdStep_steps hstep
  cases hsteps with
  | invoke => exact h.invoke hstep
  | deliver => exact h.deliver hstep
  | @startWrite i op order vec maxResp tag value hop hphase hvec hmax hwrite =>
    refine h.set hstep hop rfl rfl (fun τ v hw r => ?_) (fun τ v w he hp => ?_)
    · obtain ⟨rfl, rfl⟩ := Prod.mk.inj (Option.some.inj hw)
      exact .inl (mem_send_calls.mpr (.inr ⟨rfl, rfl, rfl⟩))
    · obtain ⟨rfl, rfl⟩ := AbdPhase.write.inj he
      rcases hwrite with ⟨hput, _⟩ | ⟨hput, _⟩
      · exact Option.some.inj (hp.symm.trans hput)
      · exact absurd (hp.symm.trans hput) (by simp)
  | @absent i op order vec maxResp hop hphase hput =>
    exact h.set hstep hop rfl rfl (fun τ v hw => by simp [AbdOp.sentWrite, hput] at hw)
      (fun τ v w he => by simp at he)
  | @finishWrite i op order vec tag value hop hphase hvec =>
    refine h.set hstep hop rfl rfl (fun τ v hw r => ?_) (fun τ v w he => by simp at he)
    have hsent : op.sentWrite = some (τ, v) := by
      rw [← hw, AbdOp.sentWrite, AbdOp.sentWrite, hphase]
      cases hput : op.put with
      | none => simp
      | some w => simp [h.put i op tag value w hop hphase hput]
    exact (h.write i op τ v hop hsent r).step hstep

theorem abdSentInv_of_reachable {ok : AbdSystem n → AbdAction n → Prop}
    (h : ReachableWhen abdStep ok .init s) : AbdSentInv s :=
  h.invariant abdSentInv_init (fun _ _ _ _ hu _ he => hu.step he)

end Sent

section Served

variable {i : ℕ} {op : AbdOp} {q : Finset (Fin n)}

def AbdSystem.Done (s : AbdSystem n) (i : ℕ) : Prop :=
  ∃ op : AbdOp, s.ops[i]? = some op ∧ op.done = true

/-- Call `i` goes on, or one of the replicas `q` handles a request of it. -/
def Serves (i : ℕ) (q : Finset (Fin n)) (s : AbdSystem n) : AbdAction n → Prop
  | .invoke _ _ _ => False
  | .deliver k => ∃ call ∈ s.calls[k]?, call.op = i ∧ call.dst ∈ q
  | .finishQuery j _ => j = i
  | .finishWrite j _ => j = i

theorem abdHandler_defined {ks : KsMap} {request : KeyStoreRequest}
    (hks : (ks sentinelKey).isSome) (hset : ∀ v, ks (cStr request.key) = some v → v.value.isSome) :
    ∃ r, abdHandler ks request = some r := by
  cases htype : request.type with
  | read => simp [abdHandler, htype]
  | readQuery =>
    simp only [abdHandler, htype, readQueryReply]
    split
    next v hv =>
      have hfound : ks (cStr request.key) = some v := by
        split at hv
        · simp at hv
        · exact hv
      obtain ⟨value, hvalue⟩ := Option.isSome_iff_exists.mp (hset v hfound)
      simp [hvalue]
    next => simp
  | write =>
    have hwritten : (writtenValue request (ks (cStr request.key))).isSome := writtenValue_isSome hset
    obtain ⟨v, hv⟩ := Option.isSome_iff_exists.mp hwritten
    simp [abdHandler, htype, hv]
  | writeQuery =>
    obtain ⟨v, hv⟩ := Option.isSome_iff_exists.mp hks
    cases hkey : ks (cStr request.key) <;> simp [abdHandler, htype, hkey, hv]

theorem AbdSystem.replyFrom_isSome {second : Bool} {r : Fin n} :
    (s.replyFrom i second r).isSome ↔
      ∃ x ∈ s.replies, x.1.op = i ∧ x.1.second = second ∧ x.1.dst = r := by
  simp [AbdSystem.replyFrom, List.find?_isSome]

theorem AbdSystem.collect_of_answered {second : Bool} (hq : Majority q)
    (h : ∀ r ∈ q, (s.replyFrom i second r).isSome) :
    ∃ first rest, s.collect i second q.toList = some (first :: rest) := by
  have hlen : n / 2 + 1 ≤ q.toList.length := by
    rw [Finset.length_toList]
    simpa [Majority] using hq
  have hall : ∀ r ∈ q.toList, (s.replyFrom i second r).isSome :=
    fun r hr => h r (Finset.mem_toList.mp hr)
  have hvec : s.collect i second q.toList = some (q.toList.filterMap (s.replyFrom i second)) :=
    if_pos ⟨q.nodup_toList, hlen, hall⟩
  obtain ⟨r, hr⟩ := hq.nonempty
  obtain ⟨resp, hresp⟩ := Option.isSome_iff_exists.mp (h r hr)
  have hmem : resp ∈ q.toList.filterMap (s.replyFrom i second) :=
    List.mem_filterMap.mpr ⟨r, Finset.mem_toList.mpr hr, hresp⟩
  obtain ⟨first, rest, he⟩ := List.exists_cons_of_ne_nil (List.ne_nil_of_mem hmem)
  exact ⟨first, rest, hvec.trans (congrArg some he)⟩

/-- One replica handles the request, if it did not before. -/
theorem AbdSentInv.answer (h : AbdSentInv s) {second : Bool} {request : KeyStoreRequest}
    (hkey : cStr request.key ≠ sentinelKey) (hsent : s.Sent i second request) {r : Fin n} (hr : r ∈ q) :
    Within abdStep (Serves i q) 1 s fun t =>
      (AbdSentInv t ∧ t.Sent i second request ∧ t.ops = s.ops) ∧
        (t.replyFrom i second r).isSome ∧
        ∀ c, (s.replyFrom i second c).isSome → (t.replyFrom i second c).isSome := by
  rcases hsent r with hc | ⟨reply, hreply⟩
  · obtain ⟨k, hk⟩ := List.getElem?_of_mem hc
    obtain ⟨⟨ks, reply⟩, hh⟩ : ∃ x, abdHandler (s.replicas r) request = some x :=
      abdHandler_defined (h.default r) fun v hv => h.stored r _ v hv hkey
    have hstep : abdStep s (.deliver k) =
        some (s.delivered k ⟨i, second, r, request⟩ ks reply) := by
      simp [abdStep, hk, hh]
    refine .after (.deliver k) ⟨_, hk, rfl, hr⟩ hstep
      (.now ⟨⟨h.step hstep, fun c => (hsent c).step hstep, rfl⟩, ?_, fun c hc => ?_⟩)
    · exact AbdSystem.replyFrom_isSome.mpr ⟨_, List.mem_cons_self, rfl, rfl, rfl⟩
    · obtain ⟨x, hx, hfrom⟩ := AbdSystem.replyFrom_isSome.mp hc
      exact AbdSystem.replyFrom_isSome.mpr ⟨x, List.mem_cons_of_mem _ hx, hfrom⟩
  · exact .now ⟨⟨h, hsent, rfl⟩,
      AbdSystem.replyFrom_isSome.mpr ⟨_, hreply, rfl, rfl, rfl⟩, fun _ hc => hc⟩

theorem AbdSentInv.answers (h : AbdSentInv s) {second : Bool} {request : KeyStoreRequest}
    (hkey : cStr request.key ≠ sentinelKey) (hsent : s.Sent i second request) :
    Within abdStep (Serves i q) q.card s fun t =>
      (AbdSentInv t ∧ t.Sent i second request ∧ t.ops = s.ops) ∧
        ∀ r ∈ q, (t.replyFrom i second r).isSome := by
  have hall : Within abdStep (Serves i q) (1 * q.toList.length) s fun t =>
      (AbdSentInv t ∧ t.Sent i second request ∧ t.ops = s.ops) ∧
        ∀ r ∈ q.toList, (t.replyFrom i second r).isSome = true :=
    .all (P := fun t => AbdSentInv t ∧ t.Sent i second request ∧ t.ops = s.ops)
      (R := fun r t => (t.replyFrom i second r).isSome = true) q.toList
      (fun u hu r hr => (hu.1.answer hkey hu.2.1 (Finset.mem_toList.mp hr)).mono le_rfl
        fun t ht => ⟨⟨ht.1.1, ht.1.2.1, ht.1.2.2.trans hu.2.2⟩, ht.2⟩) ⟨h, hsent, rfl⟩
  refine hall.mono (by simp) fun t ht => ⟨ht.1, fun r hr => ht.2 r (Finset.mem_toList.mpr hr)⟩

theorem AbdSentInv.write_returns (h : AbdSentInv s) (hq : Majority q) {τ : Tag} {v : Bytes}
    (hop : s.ops[i]? = some op) (hkey : cStr op.key ≠ sentinelKey)
    (hphase : op.phase = .write τ v) :
    Within abdStep (Serves i q) (q.card + 1) s (·.Done i) := by
  have hsent := h.write i op τ v hop (by simp [AbdOp.sentWrite, hphase])
  refine (h.answers hkey hsent).bind fun t ht => ?_
  obtain ⟨first, rest, hvec⟩ := AbdSystem.collect_of_answered hq ht.2
  have hop' : t.ops[i]? = some op := ht.1.2.2 ▸ hop
  have hstep : abdStep t (.finishWrite i q.toList) = some (t.returns i { op with
      phase := .returned τ (if op.put = none then some v else none) }) := by
    simp [abdStep, hop', hphase, hvec]
  exact .after (.finishWrite i q.toList) rfl hstep
    (.now ⟨_, (AbdSystem.ops_set hop' _ _).trans (if_pos rfl), rfl⟩)

theorem AbdOp.queryRequest_key (op : AbdOp) : op.queryRequest.key = op.key := by
  unfold AbdOp.queryRequest
  split <;> rfl

theorem AbdSentInv.query_returns (h : AbdSentInv s) (hq : Majority q)
    (hop : s.ops[i]? = some op) (hkey : cStr op.key ≠ sentinelKey) (hphase : op.phase = .query) :
    Within abdStep (Serves i q) (2 * q.card + 2) s (·.Done i) := by
  have hle : q.card + (q.card + 1 + 1) ≤ 2 * q.card + 2 := by omega
  have hquery : cStr op.queryRequest.key ≠ sentinelKey := by rwa [op.queryRequest_key]
  refine Within.mono ((h.answers hquery (h.query i op hop)).bind fun t ht => ?_) hle fun _ h => h
  obtain ⟨first, rest, hvec⟩ := AbdSystem.collect_of_answered hq ht.2
  have hop' : t.ops[i]? = some op := ht.1.2.2 ▸ hop
  obtain ⟨u, hu⟩ : ∃ u, finishQueryStep t i op q.toList = some u := by
    simp [finishQueryStep, hvec, ClientLib.findMajorityTag]
  have hstep : abdStep t (.finishQuery i q.toList) = some u := by
    simp only [abdStep, hop', Option.bind_some, hphase, hu]
  refine .after (.finishQuery i q.toList) rfl hstep ?_
  cases abdStep_steps hstep with
  | @startWrite _ op₁ _ vec maxResp tag value hop₁ =>
    obtain rfl := Option.some.inj (hop₁.symm.trans hop')
    exact (ht.1.1.step hstep).write_returns hq
      ((AbdSystem.ops_set hop' _ _).trans (if_pos rfl)) hkey rfl
  | absent hop₁ => exact .now ⟨_, (AbdSystem.ops_set hop₁ _ _).trans (if_pos rfl), rfl⟩

theorem AbdSentInv.returns (h : AbdSentInv s) (hq : Majority q) (hop : s.ops[i]? = some op)
    (hkey : cStr op.key ≠ sentinelKey) :
    Within abdStep (Serves i q) (2 * q.card + 2) s (·.Done i) := by
  cases hphase : op.phase with
  | query => exact h.query_returns hq hop hkey hphase
  | write => exact (h.write_returns hq hop hkey hphase).mono (by omega) fun _ h => h
  | returned => exact .now ⟨op, hop, by simp [AbdOp.done, hphase]⟩

end Served

section Majority

variable {i : ℕ} {op : AbdOp} {q : Finset (Fin n)}

/-- Without a majority a call is left with its query. -/
def Starved (i : ℕ) (q : Finset (Fin n)) (s : AbdSystem n) : Prop :=
  (∀ x ∈ s.replies, x.1.op = i → x.1.dst ∈ q) ∧
    ∃ op : AbdOp, s.ops[i]? = some op ∧ op.phase = .query

theorem AbdSystem.majority_of_collect (hreplies : ∀ x ∈ s.replies, x.1.op = i → x.1.dst ∈ q)
    {second : Bool} {order : List (Fin n)} {vec : List ClientLib.Response}
    (h : s.collect i second order = some vec) : Majority q := by
  obtain ⟨hnodup, hlen, hall⟩ := AbdSystem.collect_majority h
  refine (majority_toFinset hnodup (by rwa [Fintype.card_fin])).mono fun r hr => ?_
  obtain ⟨call, reply, hm, hop, _, hdst, _⟩ := hall r (List.mem_toFinset.mp hr)
  exact hdst ▸ hreplies _ hm hop

theorem Starved.step (h : Starved i q s) (hq : ¬ Majority q) (hok : Serves i q s a)
    (hstep : abdStep s a = some t) : Starved i q t := by
  obtain ⟨hreplies, op, hop, hphase⟩ := h
  have hsteps := abdStep_steps hstep
  cases hsteps with
  | invoke => exact hok.elim
  | @deliver k call =>
    obtain ⟨call, ks, reply, hk, _, he⟩ := abdStep_deliver hstep
    rw [he]
    refine ⟨fun x hx hxi => ?_, op, hop, hphase⟩
    rcases List.mem_cons.mp hx with rfl | hx
    · obtain ⟨call', hk', _, hdst⟩ := hok
      obtain rfl := Option.some.inj (hk.symm.trans hk')
      exact hdst
    · exact hreplies x hx hxi
  | startWrite _ _ hvec =>
    obtain rfl := hok
    exact absurd (AbdSystem.majority_of_collect hreplies hvec) hq
  | absent _ _ _ hvec =>
    obtain rfl := hok
    exact absurd (AbdSystem.majority_of_collect hreplies hvec) hq
  | finishWrite _ _ hvec =>
    obtain rfl := hok
    exact absurd (AbdSystem.majority_of_collect hreplies hvec) hq

/-- A majority is what the calls need of the replicas, and all that they need,
but for the sentinel's key: a replica cannot answer the WRITE of its first put. -/
theorem returns_iff_majority (q : Finset (Fin n)) :
    (∀ (s : AbdSystem n) (i : ℕ) (op : AbdOp), Reachable abdStep .init s →
      s.ops[i]? = some op → cStr op.key ≠ sentinelKey →
      Within abdStep (Serves i q) (2 * q.card + 2) s (·.Done i)) ↔ Majority q := by
  refine ⟨fun h => ?_,
    fun hq s i op hs hop hkey => (abdSentInv_of_reachable hs).returns hq hop hkey⟩
  by_contra hq
  let op : AbdOp := ⟨0, [], none, .query⟩
  let start : AbdSystem n := .init
  have hstep : abdStep start (.invoke 0 [] none) =
      some ((start.invokes op).send 0 false op.queryRequest) := by
    simp [abdStep, start, AbdSystem.init, op]
  have hstart : Starved 0 q ((start.invokes op).send 0 false op.queryRequest) :=
    ⟨by simp [start, AbdSystem.init, AbdSystem.invokes, AbdSystem.send],
      op, by simp [start, AbdSystem.init, AbdSystem.invokes, AbdSystem.send], rfl⟩
  obtain ⟨t, hrun, opt, hopt, hdone⟩ := h _ 0 op (.single ⟨_, trivial, hstep⟩)
    (by simp [start, AbdSystem.init, AbdSystem.invokes, AbdSystem.send])
    (show cStr [] ≠ sentinelKey by decide)
  obtain ⟨_, op', hop', hphase⟩ := hrun.reachable.invariant hstart
    (fun _ _ _ _ hu ha he => hu.step hq ha he)
  obtain rfl := Option.some.inj (hopt.symm.trans hop')
  simp [AbdOp.done, hphase] at hdone

end Majority

end KeyValueStore
