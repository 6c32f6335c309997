import KeyValueStore.AbdDurability
import Mathlib.Algebra.Group.Nat.Defs

/-! A tag names one put: no two puts on a key choose the same one, and replicas
with equal tags have equal values. -/

namespace KeyValueStore

variable {n : ℕ} {s t : AbdSystem n} {a : AbdAction n}

section Written

/-- What replicas, requests and replies hold was put by some client. The sentinel
keeps the entry it started with: no WRITE can replace a value that was never set. -/
structure WrittenInv (s : AbdSystem n) : Prop where
  fits : AbdFits s
  default : ∀ r, s.replicas r sentinelKey = some ⟨.zero, [], none⟩
  stored : ∀ r k v, k ≠ sentinelKey → s.replicas r k = some v →
    ∃ value, v.value = some value ∧ s.Wrote k v.tag value
  payloads : ∀ c ∈ s.calls, c.second = true →
    s.Wrote (cStr c.request.key) c.request.tag c.request.value
  replies : ∀ c reply, (c, reply) ∈ s.replies → c.request.type = .readQuery →
    ClientLib.extractResponseFromPayload reply = ⟨.zero, []⟩ ∨ s.Wrote (cStr c.request.key)
      (ClientLib.extractResponseFromPayload reply).tag
      (ClientLib.extractResponseFromPayload reply).value

theorem abdHandler_unset {ks ks' : KsMap} {request : KeyStoreRequest} {reply : KeyStoreResponse}
    {k : Bytes} {v : AbdValue} (h : abdHandler ks request = some (ks', reply)) (hv : ks k = some v)
    (hnone : v.value = none) : ks' k = some v := by
  refine abdHandler_keeps h hv (fun htype hk => ?_)
  by_contra hlt
  have hundef : writtenValue request (ks (cStr request.key)) = none := by
    rw [← hk, hv, writtenValue_of_lt (not_le.mp hlt), hnone, Option.map_none]
  simp [abdHandler, htype, hundef] at h

theorem WrittenInv.value_eq (h : WrittenInv s) {r : Fin n} {k : Bytes} {v : AbdValue}
    {value : Bytes} (hv : s.replicas r k = some v) (hvalue : v.value = some value) :
    s.Wrote k v.tag value := by
  by_cases hk : k = sentinelKey
  · subst hk
    cases hv.symm.trans (h.default r)
    simp at hvalue
  · obtain ⟨value', hvalue', hw⟩ := h.stored r k v hk hv
    cases hvalue.symm.trans hvalue'
    exact hw

theorem WrittenInv.deliver (h : WrittenInv s) {k : ℕ} {call : AbdCall n} {ks : KsMap}
    {reply : KeyStoreResponse} (hcall : call ∈ s.calls)
    (hh : abdHandler (s.replicas call.dst) call.request = some (ks, reply))
    (hs : AbdSteps s a (s.delivered k call ks reply)) :
    WrittenInv (s.delivered k call ks reply) := by
  have hext := hs.extends
  obtain ⟨op, hfit⟩ := h.fits.calls call (.inl hcall)
  have hself : (s.delivered k call ks reply).replicas call.dst = ks := by
    simp [AbdSystem.delivered]
  have hother : ∀ r, r ≠ call.dst → (s.delivered k call ks reply).replicas r = s.replicas r :=
    fun r hr => by simp [AbdSystem.delivered, Function.update, hr]
  have hold : ∀ r k' v, k' ≠ sentinelKey → s.replicas r k' = some v →
      ∃ value, v.value = some value ∧ (s.delivered k call ks reply).Wrote k' v.tag value :=
    fun r k' v hk hv => (h.stored r k' v hk hv).imp (fun _ hx => ⟨hx.1, hx.2.mono hext⟩)
  refine ⟨h.fits.step hs, fun r => ?_, fun r k' v hk hv => ?_,
    fun c hc hsec => (h.payloads c (List.mem_of_mem_eraseIdx hc) hsec).mono hext,
    fun c rep hr htype => ?_⟩
  · by_cases hr : r = call.dst
    · subst hr
      rw [hself]
      exact abdHandler_unset hh (h.default _) rfl
    · rw [hother r hr]
      exact h.default r
  · by_cases hr : r = call.dst
    · subst hr
      rw [hself] at hv
      rcases abdHandler_stored hh hv with hold' | ⟨htype, rfl, htag, hvalue⟩
      · exact hold _ k' v hk hold'
      · rw [htag]
        exact ⟨_, hvalue, (h.payloads call hcall (hfit.second_of_write htype)).mono hext⟩
    · rw [hother r hr] at hv
      exact hold r k' v hk hv
  · rcases List.mem_cons.mp hr with he | hr
    · simp only [Prod.mk.injEq] at he
      obtain ⟨rfl, rfl⟩ := he
      rcases readQueryReply_cases hh htype with he | ⟨v, value, hv, hvalue, he⟩
      · exact .inl he
      · rw [he]
        exact .inr ((h.value_eq hv hvalue).mono hext)
    · exact (h.replies c rep hr htype).imp_right (fun hw => hw.mono hext)

theorem WrittenInv.selected (h : WrittenInv s) {i : ℕ} {op : AbdOp} {order : List (Fin n)}
    {vec : List ClientLib.Response} {maxResp : ClientLib.Response} (hop : s.ops[i]? = some op)
    (hput : op.put = none) (hvec : s.collect i false order = some vec)
    (hmax : ClientLib.findMajorityTag vec = some maxResp) :
    maxResp = ⟨.zero, []⟩ ∨ s.Wrote (cStr op.key) maxResp.tag maxResp.value := by
  obtain ⟨c, reply, hm, hc, hsec, he⟩ := AbdSystem.mem_of_collect hvec (findMajorityTag_mem hmax)
  obtain ⟨op', hfit⟩ := h.fits.calls c (.inr ⟨reply, hm⟩)
  cases (hc ▸ hop).symm.trans hfit.sender
  rw [he, ← hfit.key]
  exact h.replies c reply hm ((hfit.query hsec).trans (if_pos hput))

theorem WrittenInv.step (h : WrittenInv s) (hs : AbdSteps s a t) : WrittenInv t := by
  have hext := hs.extends
  have hfits := h.fits.step hs
  -- a step that leaves the replicas and the replies as they are
  have hkeep : t.replicas = s.replicas → t.replies = s.replies →
      (∀ c ∈ t.calls, c.second = true → c ∈ s.calls ∨
        t.Wrote (cStr c.request.key) c.request.tag c.request.value) → WrittenInv t := by
    intro hreplicas hreplies hcalls
    refine ⟨hfits, hreplicas ▸ h.default, fun r k v hk hv => ?_, fun c hc hsec => ?_,
      fun c rep hr htype => ?_⟩
    · exact (h.stored r k v hk (hreplicas ▸ hv)).imp (fun _ hx => ⟨hx.1, hx.2.mono hext⟩)
    · rcases hcalls c hc hsec with hc | hw
      · exact (h.payloads c hc hsec).mono hext
      · exact hw
    · exact (h.replies c rep (hreplies ▸ hr) htype).imp_right (fun hw => hw.mono hext)
  cases hs with
  | invoke hidle hop =>
    refine hkeep rfl rfl (fun c hc hsec => ?_)
    rcases mem_send_calls.mp hc with hc | ⟨_, hfirst, _⟩
    · exact .inl hc
    · exact absurd (hfirst.symm.trans hsec) (by simp)
  | deliver hcall hh => exact h.deliver hcall hh (.deliver hcall hh)
  | @startWrite i op order vec maxResp tag value hop hphase hvec hmax hwrite =>
    refine hkeep rfl rfl (fun c hc _ => ?_)
    rcases mem_send_calls.mp hc with hc | ⟨_, _, hreq⟩
    · exact .inl hc
    · rw [hreq]
      refine .inr ?_
      rcases hwrite with ⟨hput, rfl⟩ | ⟨hput, hne, rfl, rfl⟩
      · exact ⟨i, _, (AbdSystem.ops_set hop _ _).trans (if_pos rfl), rfl, hput, rfl⟩
      · rcases h.selected hop hput hvec hmax with he | hw
        · exact absurd (congrArg ClientLib.Response.value he) hne
        · exact hw.mono hext
  | absent => exact hkeep rfl rfl (fun c hc _ => .inl hc)
  | finishWrite => exact hkeep rfl rfl (fun c hc _ => .inl hc)

theorem writtenInv_of_reachable {ok : AbdSystem n → AbdAction n → Prop}
    (h : ReachableWhen abdStep ok .init s) : WrittenInv s := by
  refine h.invariant ⟨abdFits_init, fun r => ?_, fun r k v hk hv => ?_, ?_, ?_⟩
    (fun _ _ _ _ hu _ he => hu.step (abdStep_steps he))
  · simp [AbdSystem.init, abdStart_eq]
  · simp [AbdSystem.init, abdStart_eq, hk] at hv
  · simp [AbdSystem.init]
  · simp [AbdSystem.init]

end Written

section Puts

/-- The first response that a put collects has the greatest integer. -/
def PutsLead (s : AbdSystem n) : AbdAction n → Prop
  | .finishQuery i order => ∀ op ∈ s.ops[i]?, op.put ≠ none → ∀ vec ∈ s.collect i false order,
      ClientLib.LeadsWithHighestTag vec
  | _ => True

instance (s : AbdSystem n) (a : AbdAction n) : Decidable (PutsLead s a) :=
  match a with
  | .finishQuery i order => inferInstanceAs (Decidable (∀ op ∈ s.ops[i]?, _ →
      ∀ vec ∈ s.collect i false order, ClientLib.LeadsWithHighestTag vec))
  | .invoke _ _ _ | .deliver _ | .finishWrite _ _ => .isTrue trivial

/-- A put chooses a greater tag than the puts on its key that came before it. -/
structure PutInv (s : AbdSystem n) : Prop where
  puts : ∀ (i : ℕ) (op : AbdOp) (τ : Tag), s.ops[i]? = some op → op.put ≠ none →
    op.tag? = some τ → τ.clientId = op.client ∧ τ.integer ≠ 0
  behind : ∀ (i j : ℕ) (opi opj : AbdOp) (τ : Tag), s.Precedes i j → s.ops[i]? = some opi →
    s.ops[j]? = some opj → cStr opj.key = cStr opi.key → opi.put ≠ none → opj.put ≠ none →
    opi.tag? = some τ → Behind s j opj (cStr opi.key) τ

theorem WriteInv.reached_put (h : WriteInv s) {i : ℕ} {op : AbdOp} {τ : Tag}
    (hop : s.ops[i]? = some op) (hput : op.put ≠ none) (hd : op.done = true)
    (hτ : op.tag? = some τ) : s.Reached (cStr op.key) τ := by
  cases hp : op.phase with
  | query => simp [AbdOp.done, hp] at hd
  | write => simp [AbdOp.done, hp] at hd
  | returned tag r =>
    obtain rfl : tag = τ := by simpa [AbdOp.tag?, hp] using hτ
    exact h.returned i op tag r hop hp (.inl hput)

theorem PutInv.invoke (h : PutInv s) (hw : WriteInv s) {op : AbdOp} (hphase : op.phase = .query) :
    PutInv ((s.invokes op).send s.ops.length false op.queryRequest) := by
  refine ⟨fun i opi τ hi hput hτ => ?_, fun i j opi opj τ hp hi hj hkey hputi hputj hτ => ?_⟩
  · rcases AbdSystem.ops_concat hi with hi | ⟨_, rfl⟩
    · exact h.puts i opi τ hi hput hτ
    · simp [tag?_eq_none hphase] at hτ
  have hi' : s.ops[i]? = some opi := by
    rcases AbdSystem.ops_concat hi with hi | ⟨_, rfl⟩
    · exact hi
    · simp [tag?_eq_none hphase] at hτ
  rcases List.sublist_cons_iff.mp hp with hp | ⟨rest, he, hrest⟩
  · rcases AbdSystem.ops_concat hj with hj | ⟨rfl, _⟩
    · have hb := h.behind i j opi opj τ hp hi' hj hkey hputi hputj hτ
      exact ⟨hb.quorum, hb.chosen⟩
    · exact absurd ((hw.fits.invoked _).mp (hp.subset List.mem_cons_self)) (lt_irrefl _)
  · obtain ⟨hj', rfl⟩ := List.cons.inj he
    cases hj'
    obtain ⟨opi', hi'', hd⟩ := (hw.fits.returned i).mp (hrest.subset List.mem_cons_self)
    cases hi'.symm.trans hi''
    rcases AbdSystem.ops_concat hj with hj | ⟨_, rfl⟩
    · exact absurd (List.getElem?_eq_some_iff.mp hj).1 (lt_irrefl _)
    · exact (hw.reached_put hi' hputi hd hτ).behind hw.fits hphase

theorem PutInv.set (h : PutInv s) (hfits : AbdFits s) {i : ℕ} {op : AbdOp} {p : AbdPhase}
    (hop : s.ops[i]? = some op) (hundone : op.done = false)
    (hops : t.ops = s.ops.set i { op with phase := p }) (hreplicas : t.replicas = s.replicas)
    (hreplies : t.replies = s.replies) (hprec : ∀ j k, t.Precedes j k ↔ s.Precedes j k)
    (hchosen : op.put ≠ none → ∀ τ', AbdOp.tag? { op with phase := p } = some τ' →
      (τ'.clientId = op.client ∧ τ'.integer ≠ 0) ∧
        ∀ τ, Behind s i op (cStr op.key) τ → τ < τ') : PutInv t := by
  have hget := fun j => hops ▸ AbdSystem.ops_set hop { op with phase := p } j
  refine ⟨fun j opj τ hj hput hτ => ?_, fun j k opj opk τ hp hj hk hkey hputj hputk hτ => ?_⟩
  · rw [hget] at hj
    split at hj
    next =>
      cases hj
      exact (hchosen hput τ hτ).1
    next => exact h.puts j opj τ hj hput hτ
  · rw [hprec] at hp
    have hj' := hfits.before_set hop hundone hp (hops ▸ hj)
    rw [hget] at hk
    split at hk
    next he =>
      cases hk
      subst he
      have hb := h.behind j k opj op τ hp hj' hop hkey hputj hputk hτ
      refine ⟨?_, fun τ' hτ' => ?_⟩
      · rw [hreplicas, hreplies]
        exact hb.quorum
      · have hlt := (hchosen hputk τ' hτ').2 τ (hkey ▸ hb)
        exact ⟨hlt.le, fun _ => hlt⟩
    next =>
      have hb := h.behind j k opj opk τ hp hj' hk hkey hputj hputk hτ
      refine ⟨?_, hb.chosen⟩
      rw [hreplicas, hreplies]
      exact hb.quorum

theorem PutInv.step (h : PutInv s) (hw : WriteInv s) (hb : Bounded s s.chosenPuts)
    (hputs : s.putCount < UInt32.size - 1) (hok : PutsLead s a) (hs : AbdSteps s a t) :
    PutInv t := by
  cases hs with
  | invoke hidle hop =>
    subst hop
    exact h.invoke hw rfl
  | deliver hcall hh =>
    refine ⟨h.puts, fun i j opi opj τ hp hi hj hkey hputi hputj hτ => ?_⟩
    exact (h.behind i j opi opj τ hp hi hj hkey hputi hputj hτ).deliver hw.fits hcall hh
      (.deliver hcall hh) hj hkey (.inr hputj)
  | @startWrite i op order vec maxResp tag value hop hphase hvec hmax hwrite =>
    refine h.set hw.fits hop (by simp [AbdOp.done, hphase]) rfl rfl rfl (fun _ _ => Iff.rfl)
      (fun hput τ' hτ' => ?_)
    obtain rfl : tag = τ' := Option.some.inj hτ'
    rcases hwrite with ⟨_, rfl⟩ | ⟨hnone, _⟩
    · have hle := (collect_integer_le hb hvec (findMajorityTag_mem hmax)).trans s.chosenPuts_le
      have hlt : maxResp.tag.integer < maxResp.tag.integer + 1 := by
        rw [UInt32.lt_iff_toNat_lt, UInt32.toNat_add]
        rw [Nat.mod_eq_of_lt (by change maxResp.tag.integer.toNat + 1 < UInt32.size; omega)]
        exact Nat.lt_succ_self _
      refine ⟨⟨rfl, (UInt32.ne_of_lt (UInt32.lt_of_le_of_lt UInt32.zero_le hlt)).symm⟩,
        fun τ hbehind => ?_⟩
      obtain ⟨r, hr, hle⟩ := hbehind.le_of_mem hvec
      have hmaxle := (ClientLib.findMajorityTag_spec hmax (hok op hop hput vec hvec)).2 r hr
      exact (hle.trans hmaxle).trans_lt (Tag.lt_of_integer_lt hlt)
    · exact absurd hnone hput
  | absent hop hphase hput =>
    exact h.set hw.fits hop (by simp [AbdOp.done, hphase]) rfl rfl rfl
      (fun _ _ => precedes_cons_returned _) (fun hne => absurd hput hne)
  | @finishWrite i op order vec tag value hop hphase hvec =>
    -- the tag stays the one chosen before
    have hold : ∀ {τ'}, AbdOp.tag? { op with
        phase := .returned tag (if op.put = none then some value else none) } = some τ' →
        op.tag? = some τ' := fun hτ' => (tag?_write hphase).trans hτ'
    refine h.set hw.fits hop (by simp [AbdOp.done, hphase]) rfl rfl rfl
      (fun _ _ => precedes_cons_returned _) (fun hput τ' hτ' => ⟨h.puts i op τ' hop hput (hold hτ'),
        fun τ hbehind => (hbehind.chosen τ' (hold hτ')).2 hput⟩)

theorem putInv_of_reachable (h : ReachableWhen abdStep PutsLead .init s)
    (hputs : s.putCount < UInt32.size - 1) : PutInv s := by
  refine h.invariant (P := fun s => s.putCount < UInt32.size - 1 → PutInv s)
    (fun _ => ⟨by simp [AbdSystem.init], by simp [AbdSystem.init]⟩)
    (fun u a v hr hu ha he hv => ?_) hputs
  have hs := abdStep_steps he
  have hlt := hs.putCount_le.trans_lt hv
  exact (hu hlt).step (writeInv_of_reachable hr) (bounded_of_reachable hr) hlt ha hs

end Puts

section Unique

theorem PutInv.unique (h : PutInv s) (hfits : AbdFits s) {i j : ℕ} {opi opj : AbdOp} {τ : Tag}
    (hi : s.ops[i]? = some opi) (hj : s.ops[j]? = some opj) (hkey : cStr opi.key = cStr opj.key)
    (hputi : opi.put ≠ none) (hputj : opj.put ≠ none) (hτ : opi.tag? = some τ)
    (hτ' : opj.tag? = some τ) : i = j := by
  have hclient : opi.client = opj.client := by
    rw [← (h.puts i opi τ hi hputi hτ).1, (h.puts j opj τ hj hputj hτ').1]
  refine hfits.eq_of_client hi hj hclient (fun hp => ?_) (fun hp => ?_)
  · have hb := h.behind i j opi opj τ hp hi hj hkey.symm hputi hputj hτ
    exact lt_irrefl _ ((hb.chosen τ hτ').2 hputj)
  · have hb := h.behind j i opj opi τ hp hj hi hkey hputj hputi hτ'
    exact lt_irrefl _ ((hb.chosen τ hτ).2 hputi)

/-- Replicas with one tag under a key have one value, only the default entry has
none, and different puts on a key have different tags. -/
def AbdSystem.TagsIdentify (s : AbdSystem n) : Prop :=
  (∀ (r r' : Fin n) (k : Bytes) (v v' : AbdValue), s.replicas r k = some v →
    s.replicas r' k = some v' → v.tag = v'.tag → v.value = v'.value) ∧
  (∀ (r : Fin n) (k : Bytes) (v : AbdValue), s.replicas r k = some v → v.value = none →
    k = sentinelKey ∧ v.tag = .zero) ∧
  ∀ (i j : ℕ) (opi opj : AbdOp) (τ : Tag), s.ops[i]? = some opi → s.ops[j]? = some opj →
    cStr opi.key = cStr opj.key → opi.put ≠ none → opj.put ≠ none → opi.tag? = some τ →
      opj.tag? = some τ → i = j

theorem WrittenInv.unset (h : WrittenInv s) {r : Fin n} {k : Bytes} {v : AbdValue}
    (hv : s.replicas r k = some v) (hnone : v.value = none) : k = sentinelKey ∧ v.tag = .zero := by
  by_cases hk : k = sentinelKey
  · subst hk
    cases hv.symm.trans (h.default r)
    exact ⟨rfl, rfl⟩
  · obtain ⟨_, hvalue, _⟩ := h.stored r k v hk hv
    simp [hnone] at hvalue

/-- Runs in which every put sees the greatest integer first. -/
theorem tags_identify_values (h : ReachableWhen abdStep PutsLead .init s)
    (hputs : s.putCount < 2 ^ 32 - 1) : s.TagsIdentify := by
  have hput := putInv_of_reachable h hputs
  have hwritten := writtenInv_of_reachable h
  refine ⟨fun r r' k v v' hv hv' he => ?_, fun r k v hv hnone => hwritten.unset hv hnone,
    fun i j opi opj τ hi hj hkey hputi hputj hτ hτ' =>
      hput.unique hwritten.fits hi hj hkey hputi hputj hτ hτ'⟩
  by_cases hk : k = sentinelKey
  · subst hk
    cases hv.symm.trans (hwritten.default r)
    cases hv'.symm.trans (hwritten.default r')
    rfl
  obtain ⟨x, hx, i, opi, hi, hki, hpi, hτ⟩ := hwritten.stored r k v hk hv
  obtain ⟨y, hy, j, opj, hj, hkj, hpj, hτ'⟩ := hwritten.stored r' k v' hk hv'
  obtain rfl := hput.unique hwritten.fits hi hj (hki.trans hkj.symm) (by simp [hpi])
    (by simp [hpj]) hτ (he ▸ hτ')
  cases hi.symm.trans hj
  rw [hx, hy, ← hpi, hpj]

/-- Client 1 puts a value at the replicas 0 and 1, and its next put queries the
replicas 0 and 2. -/
def twoPuts : List (AbdAction 3) :=
  [.invoke 1 [107] (some [49]), .deliver 0, .deliver 0, .finishQuery 0 [0, 1], .deliver 1,
    .deliver 1, .finishWrite 0 [0, 1], .invoke 1 [107] (some [50]), .deliver 2, .deliver 3]

theorem twoPuts_tagsIdentify : ∃ s : AbdSystem 3, runWhen abdStep PutsLead .init
      (twoPuts ++ [.finishQuery 1 [0, 2], .deliver 5]) = some s ∧
    s.ops.map AbdOp.phase = [.returned ⟨1, 1⟩ none, .write ⟨2, 1⟩ [50]] ∧
    s.TagsIdentify := by
  obtain ⟨s, hs, hops, hputs⟩ := exists_of_run (P := fun s : AbdSystem 3 =>
    s.ops.map AbdOp.phase = [.returned ⟨1, 1⟩ none, .write ⟨2, 1⟩ [50]] ∧ s.putCount < 2 ^ 32 - 1)
    (show (runWhen abdStep PutsLead .init
      (twoPuts ++ [.finishQuery 1 [0, 2], .deliver 5])).any _ = true by decide +kernel)
  exact ⟨s, hs, hops, tags_identify_values (reachableWhen_of_runWhen hs) hputs⟩

/-- The second put hears replica 2 first and takes the tag of the first one. -/
theorem repeatedTag_not_tagsIdentify : ∃ s : AbdSystem 3,
    Reachable abdStep .init s ∧ s.putCount < 2 ^ 32 - 1 ∧
    s.ops.map AbdOp.tag? = [some ⟨1, 1⟩, some ⟨1, 1⟩] ∧ ¬ s.TagsIdentify := by
  obtain ⟨s, hs, hputs, htags, hold, hnew⟩ := exists_of_run (P := fun s : AbdSystem 3 =>
    s.putCount < 2 ^ 32 - 1 ∧ s.ops.map AbdOp.tag? = [some ⟨1, 1⟩, some ⟨1, 1⟩] ∧
      s.replicas 0 [107] = some ⟨⟨1, 1⟩, [107], some [49]⟩ ∧
      s.replicas 2 [107] = some ⟨⟨1, 1⟩, [107], some [50]⟩)
    (show (runWhen abdStep (fun _ _ => True) .init
      (twoPuts ++ [.finishQuery 1 [2, 0], .deliver 5])).any _ = true by decide +kernel)
  refine ⟨s, reachableWhen_of_runWhen hs, hputs, htags, fun h => ?_⟩
  have hvalue := h.1 0 2 [107] _ _ hold hnew rfl
  exact absurd hvalue (by decide)

end Unique

end KeyValueStore
