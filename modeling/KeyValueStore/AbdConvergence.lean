import KeyValueStore.AbdProgress
import KeyValueStore.AbdReplica
import KeyValueStore.TagUniqueness

/-! Where the values that ABD calls write come from, and where they end up: a get
returns what a put wrote, and replicas that handled all WRITEs hold the same. -/

namespace KeyValueStore

variable {n : ℕ} {s t : AbdSystem n} {a : AbdAction n}
  {i j : ℕ} {op : AbdOp} {k : Bytes} {τ : Tag} {v : Bytes}

section Writes

/-- What a call sent stays what it sent when it returns. -/
theorem AbdSentInv.sentWrite_step (h : AbdSentInv s) (hs : AbdSteps s a t)
    (hop : s.ops[i]? = some op) (hsent : op.sentWrite = some (τ, v)) : ∃ op' : AbdOp,
      t.ops[i]? = some op' ∧ op'.key = op.key ∧ op'.put = op.put ∧ op'.sentWrite = some (τ, v) := by
  have hset : ∀ {l : ℕ} {opl : AbdOp} {p : AbdPhase}, s.ops[l]? = some opl →
      t.ops = s.ops.set l { opl with phase := p } →
      (opl.sentWrite = some (τ, v) → AbdOp.sentWrite { opl with phase := p } = some (τ, v)) →
      ∃ op' : AbdOp, t.ops[i]? = some op' ∧ op'.key = op.key ∧ op'.put = op.put ∧
        op'.sentWrite = some (τ, v) := by
    intro l opl p hl hops hp
    rw [hops, AbdSystem.ops_set hl]
    split
    next he =>
      obtain rfl := Option.some.inj ((he ▸ hop).symm.trans hl)
      exact ⟨_, rfl, rfl, rfl, hp hsent⟩
    next => exact ⟨op, hop, rfl, rfl, hsent⟩
  cases hs with
  | invoke => exact ⟨op, (List.getElem?_append_left (List.getElem?_eq_some_iff.mp hop).1).trans hop,
      rfl, rfl, hsent⟩
  | deliver => exact ⟨op, hop, rfl, rfl, hsent⟩
  | startWrite hl hphase => exact hset hl rfl (fun he => by simp [AbdOp.sentWrite, hphase] at he)
  | absent hl hphase => exact hset hl rfl (fun he => by simp [AbdOp.sentWrite, hphase] at he)
  | @finishWrite l opl order vec tag value hl hphase =>
    refine hset hl rfl (fun he => ?_)
    rw [← he, AbdOp.sentWrite, AbdOp.sentWrite, hphase]
    cases hput : opl.put with
    | none => simp
    | some w => simp [h.put l opl tag value w hl hphase hput]

/-- A put that was not called after call `i` returned chose the tag. -/
def AbdSystem.WroteBefore (s : AbdSystem n) (i : ℕ) (k : Bytes) (τ : Tag) (v : Bytes) : Prop :=
  ∃ (j : ℕ) (op : AbdOp), s.ops[j]? = some op ∧ cStr op.key = k ∧ op.put = some v ∧
    op.tag? = some τ ∧ ¬ s.Precedes i j

structure OriginInv (s : AbdSystem n) : Prop where
  value : ∀ (i : ℕ) (op : AbdOp) (τ : Tag) (v : Bytes), s.ops[i]? = some op → op.put = none →
    op.sentWrite = some (τ, v) → v ≠ []
  origin : ∀ (i : ℕ) (op : AbdOp) (τ : Tag) (v : Bytes), s.ops[i]? = some op →
    op.sentWrite = some (τ, v) → s.WroteBefore i (cStr op.key) τ v
  payload : ∀ c, s.Carries c → c.second = true → ∃ (op : AbdOp) (τ : Tag) (v : Bytes),
    s.ops[c.op]? = some op ∧ op.sentWrite = some (τ, v) ∧ c.request = op.writeRequest τ v

theorem AbdSteps.precedes (h : AbdSteps s a t) (hp : t.Precedes i j) (hj : j < s.ops.length) :
    s.Precedes i j := by
  cases h with
  | invoke =>
    rcases List.sublist_cons_iff.mp hp with hrest | ⟨r, hr, _⟩
    · exact hrest
    · have he : s.ops.length = j := (AbdEvent.invoked.inj (List.cons.inj hr).1).symm
      exact absurd hj (he ▸ lt_irrefl _)
  | deliver => exact hp
  | startWrite => exact hp
  | absent => exact (precedes_cons_returned _).mp hp
  | finishWrite => exact (precedes_cons_returned _).mp hp

theorem AbdSystem.WroteBefore.step (h : s.WroteBefore i k τ v) (hs : AbdSteps s a t) :
    t.WroteBefore i k τ v := by
  obtain ⟨j, op, hj, rfl, hput, hτ, hp⟩ := h
  obtain ⟨op', hj', _, hkey, hput', hτ'⟩ := hs.extends.ops j op hj
  exact ⟨j, op', hj', hkey ▸ rfl, hput'.trans hput, hτ' τ hτ,
    fun hp' => hp (hs.precedes hp' (List.getElem?_eq_some_iff.mp hj).1)⟩

theorem originInv_init : OriginInv (AbdSystem.init : AbdSystem n) where
  value := by simp [AbdSystem.init]
  origin := by simp [AbdSystem.init]
  payload := by simp [AbdSystem.init, AbdSystem.Carries]

/-- A call has sent its WRITE before the step, or sends it now. -/
inductive SentBy (s : AbdSystem n) (i : ℕ) (op' : AbdOp) (τ : Tag) (v : Bytes) : Prop
  | before {op : AbdOp} (hop : s.ops[i]? = some op) (hkey : op.key = op'.key)
      (hput : op.put = op'.put) (hsent : op.sentWrite = some (τ, v))
  | now {op : AbdOp} {order : List (Fin n)} {vec : List ClientLib.Response}
      {maxResp : ClientLib.Response} (hop : s.ops[i]? = some op) (hphase : op.phase = .query)
      (hvec : s.collect i false order = some vec)
      (hmax : ClientLib.findMajorityTag vec = some maxResp)
      (hwrite : (op.put = some v ∧ τ = ⟨maxResp.tag.integer + 1, op.client⟩) ∨
        op.put = none ∧ v ≠ [] ∧ τ = maxResp.tag ∧ v = maxResp.value)
      (hop' : op' = { op with phase := .write τ v })

theorem AbdSentInv.sentBy (h : AbdSentInv s) (hs : AbdSteps s a t) {op' : AbdOp}
    (hop : t.ops[i]? = some op') (hsent : op'.sentWrite = some (τ, v)) : SentBy s i op' τ v := by
  have hset : ∀ {l : ℕ} {opl : AbdOp} {p : AbdPhase}, s.ops[l]? = some opl →
      t.ops = s.ops.set l { opl with phase := p } →
      (i = l → op' = { opl with phase := p } → SentBy s i op' τ v) → SentBy s i op' τ v := by
    intro l opl p hl hops hp
    rw [hops, AbdSystem.ops_set hl] at hop
    split at hop
    next he => exact hp he (Option.some.inj hop).symm
    next => exact .before hop rfl rfl hsent
  cases hs with
  | invoke hidle he =>
    rcases AbdSystem.ops_concat hop with hi | ⟨rfl, rfl⟩
    · exact .before hi rfl rfl hsent
    · subst he
      simp [AbdOp.sentWrite] at hsent
  | deliver => exact .before hop rfl rfl hsent
  | @startWrite l opl order vec maxResp tag value hl hphase hvec hmax hwrite =>
    refine hset hl rfl fun hi he => ?_
    subst hi he
    obtain ⟨rfl, rfl⟩ := Prod.mk.inj (Option.some.inj hsent)
    exact .now hl hphase hvec hmax hwrite rfl
  | @absent l opl order vec maxResp hl hphase hput =>
    refine hset hl rfl fun hi he => ?_
    subst hi he
    simp [AbdOp.sentWrite, hput] at hsent
  | @finishWrite l opl order vec tag value hl hphase =>
    refine hset hl rfl fun hi he => ?_
    subst hi he
    refine .before hl rfl rfl ?_
    rw [← hsent, AbdOp.sentWrite, AbdOp.sentWrite, hphase]
    cases hput : opl.put with
    | none => simp
    | some w => simp [h.put i opl tag value w hl hphase hput]

theorem OriginInv.origin_step (h : OriginInv s) (hw : WrittenInv s) (hsent : AbdSentInv s)
    (hs : AbdSteps s a t) {op' : AbdOp} (hop : t.ops[i]? = some op')
    (hsw : op'.sentWrite = some (τ, v)) :
    t.WroteBefore i (cStr op'.key) τ v := by
  cases hsent.sentBy hs hop hsw with
  | before hi he _ hold => exact (he ▸ h.origin i _ τ v hi hold).step hs
  | @now op order vec maxResp hi hphase hvec hmax hwrite he =>
    subst he
    rcases hwrite with ⟨hput, _⟩ | ⟨hput, hne, rfl, rfl⟩
    · exact ⟨i, _, hop, rfl, hput, rfl, fun hp => lt_irrefl _ ((hw.fits.step hs).order i i hp)⟩
    · rcases hw.selected hi hput hvec hmax with hz | ⟨j, opj, hj, hkeyj, hputj, hτj⟩
      · exact absurd (congrArg ClientLib.Response.value hz) hne
      refine AbdSystem.WroteBefore.step ⟨j, opj, hj, hkeyj, hputj, hτj, fun hp => ?_⟩ hs
      have hdone := hw.fits.done_of_precedes hp hi
      simp [AbdOp.done, hphase] at hdone

theorem OriginInv.payload_step (h : OriginInv s) (hsent : AbdSentInv s) (hs : AbdSteps s a t)
    {c : AbdCall n} (hc : t.Carries c) (hsecond : c.second = true) :
    ∃ (op : AbdOp) (τ : Tag) (v : Bytes),
      t.ops[c.op]? = some op ∧ op.sentWrite = some (τ, v) ∧ c.request = op.writeRequest τ v := by
  have hold : s.Carries c → ∃ (op : AbdOp) (τ : Tag) (v : Bytes),
      t.ops[c.op]? = some op ∧ op.sentWrite = some (τ, v) ∧ c.request = op.writeRequest τ v := by
    intro hc
    obtain ⟨op, τ, v, hop, hw, hreq⟩ := h.payload c hc hsecond
    obtain ⟨op', hop', hkey, _, hw'⟩ := hsent.sentWrite_step hs hop hw
    exact ⟨op', τ, v, hop', hw', by rw [hreq, AbdOp.writeRequest, AbdOp.writeRequest, hkey]⟩
  cases hs with
  | invoke =>
    refine hold (hc.imp_left fun hm => ?_)
    rcases mem_send_calls.mp hm with hm | ⟨_, hfirst, _⟩
    · exact hm
    · exact absurd (hfirst.symm.trans hsecond) (by simp)
  | @deliver k call ks reply hcall =>
    rcases hc with hm | ⟨rep, hr⟩
    · exact hold (.inl (List.mem_of_mem_eraseIdx hm))
    · rcases List.mem_cons.mp hr with he | hr
      · have hcc : c = call := congrArg Prod.fst he
        exact hold (.inl (hcc ▸ hcall))
      · exact hold (.inr ⟨rep, hr⟩)
  | @startWrite l opl order vec maxResp tag value hl =>
    rcases hc with hm | hr
    · rcases mem_send_calls.mp hm with hm | ⟨he, _, hreq⟩
      · exact hold (.inl hm)
      · refine ⟨{ opl with phase := .write tag value }, tag, value, ?_, rfl, hreq⟩
        exact he ▸ (AbdSystem.ops_set hl _ _).trans (if_pos rfl)
    · exact hold (.inr hr)
  | absent => exact hold hc
  | finishWrite => exact hold hc

theorem OriginInv.step (h : OriginInv s) (hw : WrittenInv s) (hsent : AbdSentInv s)
    (hs : AbdSteps s a t) : OriginInv t := by
  refine ⟨fun i op' τ v hop hput hsw => ?_, fun i op' τ v hop hsw =>
    h.origin_step hw hsent hs hop hsw, fun c hc hsecond => h.payload_step hsent hs hc hsecond⟩
  cases hsent.sentBy hs hop hsw with
  | before hi _ he hold => exact h.value i _ τ v hi (he.trans hput) hold
  | now hi _ _ _ hwrite he =>
    subst he
    rcases hwrite with ⟨hp, _⟩ | ⟨_, hne, _⟩
    · exact absurd (hp.symm.trans hput) (by simp)
    · exact hne

theorem originInv_of_reachable {ok : AbdSystem n → AbdAction n → Prop}
    (h : ReachableWhen abdStep ok .init s) : OriginInv s :=
  h.invariant originInv_init (fun _ _ _ hr hu _ he =>
    hu.step (writtenInv_of_reachable hr) (abdSentInv_of_reachable hr) (abdStep_steps he))

/-- A get returns nothing but what a put wrote that was called before it returned. -/
theorem get_returns_put (h : Reachable abdStep .init s) (hop : s.ops[i]? = some op)
    (hget : op.put = none) (hphase : op.phase = .returned τ (some v)) :
    v ≠ [] ∧ s.WroteBefore i (cStr op.key) τ v := by
  have hinv := originInv_of_reachable h
  have hsent : op.sentWrite = some (τ, v) := by simp [AbdOp.sentWrite, hphase, hget]
  exact ⟨hinv.value i op τ v hop hget hsent, hinv.origin i op τ v hop hsent⟩

/-- One client puts a value at the replicas 0 and 1, and another gets it from 1 and 2. -/
def relayedGet : List (AbdAction 3) :=
  [.invoke 1 [107] (some [49]), .deliver 0, .deliver 0, .finishQuery 0 [0, 1], .deliver 1,
    .deliver 1, .invoke 2 [107] none, .deliver 3, .deliver 3, .finishQuery 1 [1, 2], .deliver 4,
    .deliver 4, .finishWrite 1 [1, 2]]

theorem relayedGet_returns_put : ∃ s : AbdSystem 3,
    runWhen abdStep PutsLead .init relayedGet = some s ∧
      ([49] : Bytes) ≠ [] ∧ s.WroteBefore 1 [107] ⟨1, 1⟩ [49] := by
  obtain ⟨s, hs, hop⟩ := exists_of_run (P := fun s : AbdSystem 3 =>
      s.ops[1]? = some ⟨2, [107], none, .returned ⟨1, 1⟩ (some [49])⟩)
    (show (runWhen abdStep PutsLead .init relayedGet).any _ = true by
      decide +kernel)
  exact ⟨s, hs, get_returns_put ((reachableWhen_of_runWhen hs).mono fun _ _ _ => trivial) hop rfl
    rfl⟩

end Writes

section Converge

variable {r : Fin n}

/-- The WRITEs on `k` that the replica handled. -/
def AbdSystem.handledWrites (s : AbdSystem n) (r : Fin n) (k : Bytes) : Set (Tag × Option Bytes) :=
  {x | ∃ c reply, (c, reply) ∈ s.replies ∧ c.dst = r ∧ c.request.type = .write ∧
    cStr c.request.key = k ∧ c.request.written = x}

/-- The WRITEs on `k` that calls sent. -/
def AbdSystem.sentWrites (s : AbdSystem n) (k : Bytes) : Set (Tag × Option Bytes) :=
  {x | ∃ (i : ℕ) (op : AbdOp) (τ : Tag) (v : Bytes), s.ops[i]? = some op ∧ cStr op.key = k ∧
    op.sentWrite = some (τ, v) ∧ (τ, some v) = x}

/-- The replicas agree on every map key, and but for the sentinel's, which no WRITE
replaces, they hold the greatest tag that was sent. -/
def AbdSystem.Converged (s : AbdSystem n) : Prop :=
  ∀ k r, (k ≠ sentinelKey → MaxRegister.Holds (s.sentWrites k) ((s.replicas r).register k)) ∧
    ∀ r', (s.replicas r').register k = (s.replicas r).register k

/-- Only requests on the sentinel are left, which a replica may be unable to
answer. -/
def AbdSystem.Drained (s : AbdSystem n) : Prop := ∀ c ∈ s.calls, cStr c.request.key = sentinelKey

def AbdSystem.pending (s : AbdSystem n) : ℕ :=
  s.calls.countP fun c => cStr c.request.key ≠ sentinelKey

def Delivers (_ : AbdSystem n) : AbdAction n → Prop
  | .deliver _ => True
  | _ => False

theorem register_congr {ks ks' : KsMap} (h : ks' k = ks k) : ks'.register k = ks.register k := by
  rw [KsMap.register, KsMap.register, h]

theorem handledWrites_delivered {i : ℕ} {c : AbdCall n} {ks : KsMap} {reply : KeyStoreResponse}
    (hw : c.dst = r ∧ c.request.type = .write ∧ cStr c.request.key = k) :
    (s.delivered i c ks reply).handledWrites r k =
      insert c.request.written (s.handledWrites r k) := by
  ext x
  refine ⟨?_, ?_⟩
  · rintro ⟨c', reply', hm, hdst, htype, hkey, rfl⟩
    rcases List.mem_cons.mp hm with he | hm
    · obtain rfl : c' = c := congrArg Prod.fst he
      exact .inl rfl
    · exact .inr ⟨c', reply', hm, hdst, htype, hkey, rfl⟩
  · rintro (rfl | ⟨c', reply', hm, hrest⟩)
    · exact ⟨c, reply, List.mem_cons_self, hw.1, hw.2.1, hw.2.2, rfl⟩
    · exact ⟨c', reply', List.mem_cons_of_mem _ hm, hrest⟩

theorem handledWrites_delivered_other {i : ℕ} {c : AbdCall n} {ks : KsMap}
    {reply : KeyStoreResponse}
    (hw : ¬ (c.dst = r ∧ c.request.type = .write ∧ cStr c.request.key = k)) :
    (s.delivered i c ks reply).handledWrites r k = s.handledWrites r k := by
  ext x
  refine ⟨?_, fun ⟨c', reply', hm, hrest⟩ => ⟨c', reply', List.mem_cons_of_mem _ hm, hrest⟩⟩
  rintro ⟨c', reply', hm, hdst, htype, hkey, rfl⟩
  rcases List.mem_cons.mp hm with he | hm
  · obtain rfl : c' = c := congrArg Prod.fst he
    exact absurd ⟨hdst, htype, hkey⟩ hw
  · exact ⟨c', reply', hm, hdst, htype, hkey, rfl⟩

theorem abdHandler_register_other {ks ks' : KsMap} {request : KeyStoreRequest}
    {reply : KeyStoreResponse} (h : abdHandler ks request = some (ks', reply))
    (hw : ¬ (request.type = .write ∧ cStr request.key = k)) :
    ks'.register k = ks.register k := by
  rcases abdHandler_entries h with ⟨_, rfl⟩ | ⟨htype, _⟩
  · rfl
  · exact register_congr (abdHandler_other h (fun he => hw ⟨htype, he.symm⟩))

/-- A replica holds the greatest tag of the WRITEs that it handled. -/
def ReplicasHold (s : AbdSystem n) : Prop :=
  ∀ k ≠ sentinelKey, ∀ r, MaxRegister.Holds (s.handledWrites r k) ((s.replicas r).register k)

theorem ReplicasHold.delivered (h : ReplicasHold s) {i : ℕ} {c : AbdCall n} {ks : KsMap}
    {reply : KeyStoreResponse} (hh : abdHandler (s.replicas c.dst) c.request = some (ks, reply)) :
    ReplicasHold (s.delivered i c ks reply) := by
  intro k hk r
  by_cases hr : c.dst = r
  · subst hr
    have hself : (s.delivered i c ks reply).replicas c.dst = ks := by simp [AbdSystem.delivered]
    rw [hself]
    by_cases hw : c.request.type = .write ∧ cStr c.request.key = k
    · obtain ⟨htype, rfl⟩ := hw
      rw [handledWrites_delivered ⟨rfl, htype, rfl⟩, abdHandler_register hh htype]
      exact (h _ hk c.dst).write _
    · rw [handledWrites_delivered_other (fun hw' => hw hw'.2), abdHandler_register_other hh hw]
      exact h k hk c.dst
  · have hother : (s.delivered i c ks reply).replicas r = s.replicas r := by
      simp [AbdSystem.delivered, Function.update, Ne.symm hr]
    rw [hother, handledWrites_delivered_other (fun hw => hr hw.1)]
    exact h k hk r

theorem replicasHold_of_reachable {ok : AbdSystem n → AbdAction n → Prop}
    (h : ReachableWhen abdStep ok .init s) : ReplicasHold s := by
  refine h.invariant (fun k hk r => ?_) (fun u _ v _ hu _ he => ?_)
  · have hnone : ((AbdSystem.init : AbdSystem n).replicas r).register k = none := by
      simp [AbdSystem.init, abdStart_eq, KsMap.register, hk]
    have hempty : (AbdSystem.init : AbdSystem n).handledWrites r k = ∅ := by
      simp [AbdSystem.handledWrites, AbdSystem.init]
    rw [hnone, hempty]
    rfl
  · have hsteps := abdStep_steps he
    cases hsteps with
    | invoke => exact hu
    | deliver hcall hh => exact hu.delivered hh
    | startWrite => exact hu
    | absent => exact hu
    | finishWrite => exact hu

/-- What a replica handled was sent, and when no call is left it handled all. -/
theorem handledWrites_eq (hsent : AbdSentInv s) (horigin : OriginInv s) (hfits : AbdFits s)
    (hdrained : s.Drained) (r : Fin n) (hk : k ≠ sentinelKey) :
    s.handledWrites r k = s.sentWrites k := by
  ext x
  refine ⟨?_, ?_⟩
  · rintro ⟨c, reply, hm, _, htype, rfl, rfl⟩
    obtain ⟨op, hfit⟩ := hfits.calls c (.inr ⟨reply, hm⟩)
    obtain ⟨op, τ, v, hop, hw, hreq⟩ :=
      horigin.payload c (.inr ⟨reply, hm⟩) (hfit.second_of_write htype)
    exact ⟨c.op, op, τ, v, hop, hreq ▸ rfl, hw, hreq ▸ rfl⟩
  · rintro ⟨i, op, τ, v, hop, rfl, hw, rfl⟩
    rcases hsent.write i op τ v hop hw r with hc | ⟨reply, hm⟩
    · exact absurd (hdrained _ hc) hk
    · exact ⟨_, reply, hm, rfl, rfl, rfl, rfl⟩

/-- The WRITEs of one tag carry the value of one put. -/
theorem sentWrites_consistent (horigin : OriginInv s) (hput : PutInv s) (hfits : AbdFits s) :
    MaxRegister.Consistent (s.sentWrites k) := by
  rintro _ ⟨i, op, τ, v, hop, rfl, hw, rfl⟩ _ ⟨i', op', τ', v', hop', hkey', hw', rfl⟩ he
  obtain rfl : τ = τ' := he
  obtain ⟨j, opj, hj, hkj, hputj, hτj, _⟩ := horigin.origin i op τ v hop hw
  obtain ⟨j', opj', hj', hkj', hputj', hτj', _⟩ := horigin.origin i' op' τ v' hop' hw'
  obtain rfl := hput.unique hfits hj hj' (hkj.trans (hkj'.trans hkey').symm) (by simp [hputj])
    (by simp [hputj']) hτj hτj'
  obtain rfl := Option.some.inj (hj.symm.trans hj')
  exact hputj.symm.trans hputj'

theorem converged_of_drained (h : ReachableWhen abdStep PutsLead .init s)
    (hputs : s.putCount < 2 ^ 32 - 1) (hdrained : s.Drained) : s.Converged := by
  have horigin := originInv_of_reachable h
  have hwritten := writtenInv_of_reachable h
  have hholds : ∀ r k, k ≠ sentinelKey →
      MaxRegister.Holds (s.sentWrites k) ((s.replicas r).register k) := fun r k hk =>
    handledWrites_eq (abdSentInv_of_reachable h) horigin hwritten.fits hdrained r hk ▸
      replicasHold_of_reachable h k hk r
  refine fun k r => ⟨hholds r k, fun r' => ?_⟩
  by_cases hk : k = sentinelKey
  · subst hk
    exact register_congr ((hwritten.default r').trans (hwritten.default r).symm)
  · exact (hholds r' k hk).unique (hholds r k hk)
      (sentWrites_consistent horigin (putInv_of_reachable h hputs) hwritten.fits)

theorem AbdSentInv.drains (h : AbdSentInv s) :
    Within abdStep Delivers s.pending s fun t => t.ops = s.ops ∧ t.Drained := by
  suffices hdescend : Within abdStep Delivers (1 * s.pending) s fun t =>
      t.ops = s.ops ∧ t.Drained by
    exact hdescend.mono (by omega) fun _ h => h
  refine .descend (P := fun t => AbdSentInv t ∧ t.ops = s.ops) AbdSystem.pending
    (fun t ht => ?_) ⟨h, rfl⟩
  by_cases hdrained : t.Drained
  · exact .inl ⟨ht.2, hdrained⟩
  obtain ⟨c, hc, hkey⟩ : ∃ c ∈ t.calls, cStr c.request.key ≠ sentinelKey := by
    simpa [AbdSystem.Drained] using hdrained
  obtain ⟨i, hi⟩ := List.getElem?_of_mem hc
  obtain ⟨⟨ks, reply⟩, hh⟩ := abdHandler_defined (ht.1.default c.dst)
    fun v hv => ht.1.stored c.dst _ v hv hkey
  have hstep : abdStep t (.deliver i) = some (t.delivered i c ks reply) := by
    simp [abdStep, hi, hh]
  refine .inr (.after (.deliver i) trivial hstep (.now ⟨⟨ht.1.step hstep, ht.2⟩, ?_⟩))
  obtain ⟨hlt, rfl⟩ := List.getElem?_eq_some_iff.mp hi
  have hperm := (List.getElem_cons_eraseIdx_perm hlt).countP_eq
    fun c : AbdCall n => decide (cStr c.request.key ≠ sentinelKey)
  rw [List.countP_cons_of_pos (by simpa using hkey)] at hperm
  simp only [AbdSystem.pending, AbdSystem.delivered]
  omega

/-- When no request but on the sentinel is outstanding every replica has the greatest
tag that any call wrote, with one value, and from any state this is only a matter of
handling what is outstanding. -/
theorem replicas_converge (h : ReachableWhen abdStep PutsLead .init s)
    (hputs : s.putCount < 2 ^ 32 - 1) :
    (s.Drained → s.Converged) ∧ Within abdStep Delivers s.pending s fun t =>
      t.ops = s.ops ∧ t.Drained ∧ t.Converged := by
  refine ⟨converged_of_drained h hputs, ?_⟩
  obtain ⟨t, hrun, hops, hdrained⟩ := (abdSentInv_of_reachable h).drains
  have hlead : ReachableWhen abdStep PutsLead s t := hrun.reachable.mono fun u a hu => by
    cases a with
    | deliver => trivial
    | invoke => exact hu.elim
    | finishQuery => exact hu.elim
    | finishWrite => exact hu.elim
  refine ⟨t, hrun, hops, hdrained, converged_of_drained (h.trans hlead) ?_ hdrained⟩
  rwa [AbdSystem.putCount, hops]

theorem relayedGet_converges : ∃ s : AbdSystem 3,
    runWhen abdStep PutsLead .init relayedGet = some s ∧ s.pending = 4 ∧
      (s.Drained → s.Converged) ∧ Within abdStep Delivers s.pending s fun t =>
        t.ops = s.ops ∧ t.Drained ∧ t.Converged := by
  obtain ⟨s, hs, hcalls, hputs⟩ := exists_of_run (P := fun s : AbdSystem 3 =>
      s.pending = 4 ∧ s.putCount < 2 ^ 32 - 1)
    (show (runWhen abdStep PutsLead .init relayedGet).any _ = true by
      decide +kernel)
  exact ⟨s, hs, hcalls, replicas_converge (reachableWhen_of_runWhen hs) hputs⟩

end Converge

end KeyValueStore
