import KeyValueStore.AbdSystem
import KeyValueStore.Quorum
import Mathlib.Data.Fintype.Card

/-! What holds in every ABD run: a request carries what its call chose, tags
count the puts, and calls of one client follow each other. -/

namespace KeyValueStore

variable {n : ℕ} {s t : AbdSystem n} {a : AbdAction n}

section Extends

structure AbdExtends (s t : AbdSystem n) : Prop where
  ops : ∀ (i : ℕ) (op : AbdOp), s.ops[i]? = some op → ∃ op' : AbdOp, t.ops[i]? = some op' ∧
    op'.client = op.client ∧ op'.key = op.key ∧ op'.put = op.put ∧
    ∀ τ, op.tag? = some τ → op'.tag? = some τ
  tags : ∀ r k, (s.replicas r).tagAt k ≤ (t.replicas r).tagAt k
  replies : ∀ x ∈ s.replies, x ∈ t.replies

theorem AbdSystem.ops_set {i : ℕ} {op : AbdOp} (hop : s.ops[i]? = some op) (op' : AbdOp) (j : ℕ) :
    (s.ops.set i op')[j]? = if j = i then some op' else s.ops[j]? := by
  by_cases hj : j = i
  · subst hj
    have hlt := (List.getElem?_eq_some_iff.mp hop).1
    simp [hlt]
  · rw [List.getElem?_set_ne (Ne.symm hj), if_neg hj]

theorem AbdSystem.ops_concat {op opj : AbdOp} {j : ℕ} (h : (s.ops ++ [op])[j]? = some opj) :
    s.ops[j]? = some opj ∨ j = s.ops.length ∧ opj = op := by
  rcases Nat.lt_or_ge j s.ops.length with hlt | hge
  · exact .inl (by rwa [List.getElem?_append_left hlt] at h)
  · rw [List.getElem?_append_right hge, List.getElem?_singleton] at h
    simp only [Option.ite_none_right_eq_some, Option.some.injEq] at h
    exact .inr ⟨by omega, h.2.symm⟩

theorem extends_set {i : ℕ} {op : AbdOp} {p : AbdPhase} (hop : s.ops[i]? = some op)
    (hops : t.ops = s.ops.set i { op with phase := p }) (hreplicas : t.replicas = s.replicas)
    (hreplies : t.replies = s.replies)
    (htag : ∀ τ, op.tag? = some τ → AbdOp.tag? { op with phase := p } = some τ) :
    AbdExtends s t where
  ops j opj hj := by
    rw [hops, AbdSystem.ops_set hop]
    split
    next he =>
      subst he
      cases hop.symm.trans hj
      exact ⟨_, rfl, rfl, rfl, rfl, htag⟩
    next => exact ⟨opj, hj, rfl, rfl, rfl, fun _ h => h⟩
  tags r k := by rw [hreplicas]
  replies x hx := hreplies ▸ hx

theorem tag?_eq_none {op : AbdOp} (h : op.phase = .query) : op.tag? = none := by
  simp [AbdOp.tag?, h]

theorem tag?_write {op : AbdOp} {tag : Tag} {value : Bytes} (h : op.phase = .write tag value) :
    op.tag? = some tag := by
  simp [AbdOp.tag?, h]

theorem AbdSteps.extends (h : AbdSteps s a t) : AbdExtends s t := by
  cases h with
  | invoke hidle hop =>
    refine ⟨fun i op hi => ⟨op, ?_, rfl, rfl, rfl, fun _ h => h⟩, fun _ _ => le_rfl, fun _ h => h⟩
    exact (List.getElem?_append_left (List.getElem?_eq_some_iff.mp hi).1).trans hi
  | @deliver k call ks reply hcall hh =>
    refine ⟨fun i op hi => ⟨op, hi, rfl, rfl, rfl, fun _ h => h⟩, fun r k' => ?_,
      fun _ h => List.mem_cons_of_mem _ h⟩
    by_cases hr : r = call.dst
    · subst hr
      simp only [AbdSystem.delivered, Function.update_self]
      exact abdHandler_tagAt_le hh k'
    · simp [AbdSystem.delivered, Function.update, hr]
  | startWrite hop hphase =>
    refine extends_set hop rfl rfl rfl (fun τ h => ?_)
    rw [tag?_eq_none hphase] at h
    cases h
  | absent hop hphase =>
    refine extends_set hop rfl rfl rfl (fun τ h => ?_)
    rw [tag?_eq_none hphase] at h
    cases h
  | finishWrite hop hphase =>
    refine extends_set hop rfl rfl rfl (fun τ h => ?_)
    rw [tag?_write hphase] at h
    exact h

end Extends

section Fits

/-- The call with the index `i` returned before the one with the index `j` was
made. -/
def AbdSystem.Precedes (s : AbdSystem n) (i j : ℕ) : Prop :=
  [AbdEvent.invoked j, .returned i].Sublist s.history

structure AbdCallFits (s : AbdSystem n) (c : AbdCall n) (op : AbdOp) : Prop where
  sender : s.ops[c.op]? = some op
  key : c.request.key = op.key
  query : c.second = false → c.request.type = if op.put = none then .readQuery else .writeQuery
  write : c.second = true → c.request.type = .write ∧ op.tag? = some c.request.tag

structure AbdFits (s : AbdSystem n) : Prop where
  invoked : ∀ i, .invoked i ∈ s.history ↔ i < s.ops.length
  returned : ∀ i, .returned i ∈ s.history ↔ ∃ op : AbdOp, s.ops[i]? = some op ∧ op.done = true
  order : ∀ i j, s.Precedes i j → i < j
  clients : ∀ i j (opi opj : AbdOp), i < j → s.ops[i]? = some opi → s.ops[j]? = some opj →
    opi.client = opj.client → s.Precedes i j
  calls : ∀ c, (c ∈ s.calls ∨ ∃ reply, (c, reply) ∈ s.replies) → ∃ op, AbdCallFits s c op

theorem abdFits_init : AbdFits (AbdSystem.init : AbdSystem n) where
  invoked := by simp [AbdSystem.init]
  returned := by simp [AbdSystem.init]
  order := by simp [AbdSystem.init, AbdSystem.Precedes]
  clients := by simp [AbdSystem.init]
  calls := by simp [AbdSystem.init]

theorem AbdCallFits.mono (he : AbdExtends s t) {c : AbdCall n} {op : AbdOp}
    (h : AbdCallFits s c op) : ∃ op', AbdCallFits t c op' := by
  obtain ⟨op', hop', _, hkey, hput, htag⟩ := he.ops _ _ h.sender
  exact ⟨op', hop', h.key.trans hkey.symm, fun hs => hput ▸ h.query hs,
    fun hs => ⟨(h.write hs).1, htag _ (h.write hs).2⟩⟩

theorem mem_send_calls {i : ℕ} {second : Bool} {request : KeyStoreRequest} {c : AbdCall n} :
    c ∈ (s.send i second request).calls ↔
      c ∈ s.calls ∨ c.op = i ∧ c.second = second ∧ c.request = request := by
  obtain ⟨op, sec, dst, req⟩ := c
  simp only [AbdSystem.send, List.mem_append, List.mem_map, List.mem_finRange, true_and,
    AbdCall.mk.injEq]
  refine or_congr_right ⟨?_, ?_⟩
  · rintro ⟨a, rfl, rfl, rfl, rfl⟩
    exact ⟨rfl, rfl, rfl⟩
  · rintro ⟨rfl, rfl, rfl⟩
    exact ⟨dst, rfl, rfl, rfl, rfl⟩

theorem precedes_cons_returned {i j k : ℕ} (ops : List AbdOp) :
    ({ s with ops, history := .returned k :: s.history } : AbdSystem n).Precedes i j ↔
      s.Precedes i j := by
  refine ⟨fun h => ?_, fun h => h.cons _⟩
  rcases List.sublist_cons_iff.mp h with h | ⟨r, hr, _⟩
  · exact h
  · exact absurd (List.cons.inj hr).1 (by simp)

theorem AbdFits.done_of_precedes (h : AbdFits s) {i j : ℕ} {op : AbdOp} (hp : s.Precedes i j)
    (hop : s.ops[i]? = some op) : op.done = true := by
  obtain ⟨op', hop', hd⟩ := (h.returned i).mp
    (hp.subset (List.mem_cons_of_mem _ List.mem_cons_self))
  cases hop.symm.trans hop'
  exact hd

theorem AbdFits.before_set (h : AbdFits s) {i j k : ℕ} {op op' opj : AbdOp}
    (hop : s.ops[i]? = some op) (hundone : op.done = false) (hp : s.Precedes j k)
    (hj : (s.ops.set i op')[j]? = some opj) : s.ops[j]? = some opj := by
  rw [AbdSystem.ops_set hop] at hj
  split at hj
  next he =>
    subst he
    exact absurd (hundone.symm.trans (h.done_of_precedes hp hop)) (by simp)
  next => exact hj

/-- Calls of one client that do not precede each other are the same. -/
theorem AbdFits.eq_of_client (h : AbdFits s) {i j : ℕ} {opi opj : AbdOp}
    (hi : s.ops[i]? = some opi) (hj : s.ops[j]? = some opj) (hclient : opi.client = opj.client)
    (hij : ¬ s.Precedes i j) (hji : ¬ s.Precedes j i) : i = j := by
  rcases lt_trichotomy i j with hlt | heq | hgt
  · exact absurd (h.clients i j opi opj hlt hi hj hclient) hij
  · exact heq
  · exact absurd (h.clients j i opj opi hgt hj hi hclient.symm) hji

theorem AbdFits.set (h : AbdFits s) {i : ℕ} {op : AbdOp} {p : AbdPhase}
    (hop : s.ops[i]? = some op) (hundone : op.done = false) (hext : AbdExtends s t)
    (hops : t.ops = s.ops.set i { op with phase := p }) (hreplies : t.replies = s.replies)
    (hhistory : (t.history = s.history ∧ AbdOp.done { op with phase := p } = false) ∨
      t.history = .returned i :: s.history ∧ AbdOp.done { op with phase := p } = true)
    (hcalls : ∀ c ∈ t.calls, c ∈ s.calls ∨ ∃ op', AbdCallFits t c op') : AbdFits t := by
  have hget := fun j => hops ▸ AbdSystem.ops_set hop { op with phase := p } j
  have hlen : t.ops.length = s.ops.length := by rw [hops, List.length_set]
  have hprec : ∀ j k, t.Precedes j k ↔ s.Precedes j k := by
    intro j k
    unfold AbdSystem.Precedes
    rcases hhistory with ⟨he, _⟩ | ⟨he, _⟩
    · rw [he]
    · rw [he]
      exact precedes_cons_returned s.ops
  refine ⟨fun j => ?_, fun j => ?_, fun j k hp => h.order j k ((hprec j k).mp hp),
    fun j k opj opk hlt hj hk hc => (hprec j k).mpr ?_, fun c hc => ?_⟩
  · rw [hlen, ← h.invoked j]
    rcases hhistory with ⟨he, _⟩ | ⟨he, _⟩ <;> simp [he]
  · rw [hget]
    have hold := h.returned j
    rcases hhistory with ⟨he, hd⟩ | ⟨he, hd⟩
    · rw [he, hold]
      split
      next hj =>
        subst hj
        simp [hop, hundone, hd]
      next => rfl
    · rw [he]
      split
      next hj =>
        subst hj
        simp [hd]
      next hj => simp [hj, hold]
  · have hclient : ∀ {m : ℕ} {opm : AbdOp}, t.ops[m]? = some opm →
        ∃ opm' : AbdOp, s.ops[m]? = some opm' ∧ opm'.client = opm.client := by
      intro m opm hm
      rw [hget] at hm
      split at hm
      next he =>
        simp only [Option.some.injEq] at hm
        exact ⟨op, he ▸ hop, hm ▸ rfl⟩
      next => exact ⟨opm, hm, rfl⟩
    obtain ⟨opj', hj', hcj⟩ := hclient hj
    obtain ⟨opk', hk', hck⟩ := hclient hk
    exact h.clients j k opj' opk' hlt hj' hk' (hcj.trans (hc.trans hck.symm))
  · have hold : (c ∈ s.calls ∨ ∃ reply, (c, reply) ∈ s.replies) → ∃ op', AbdCallFits t c op' :=
      fun hm => (h.calls c hm).elim (fun _ hf => hf.mono hext)
    rcases hc with hc | ⟨reply, hr⟩
    · rcases hcalls c hc with hm | hf
      · exact hold (.inl hm)
      · exact hf
    · exact hold (.inr ⟨reply, hreplies ▸ hr⟩)

theorem AbdFits.invoke (h : AbdFits s) {op : AbdOp}
    (hidle : ∀ op' ∈ s.ops, op'.client = op.client → op'.done) (hphase : op.phase = .query)
    (hext : AbdExtends s ((s.invokes op).send s.ops.length false op.queryRequest)) :
    AbdFits ((s.invokes op).send s.ops.length false op.queryRequest) := by
  have hget : ∀ j opj, (s.ops ++ [op])[j]? = some opj →
      s.ops[j]? = some opj ∨ j = s.ops.length ∧ opj = op := fun _ _ => AbdSystem.ops_concat
  have hprec : ∀ i j, ((s.invokes op).send s.ops.length false op.queryRequest).Precedes i j →
      s.Precedes i j ∨ j = s.ops.length ∧ .returned i ∈ s.history := by
    intro i j hp
    rcases List.sublist_cons_iff.mp hp with hrest | ⟨r, hr, hrest⟩
    · exact .inl hrest
    · obtain ⟨he, rfl⟩ := List.cons.inj hr
      cases he
      exact .inr ⟨rfl, hrest.subset List.mem_cons_self⟩
  refine ⟨fun j => ?_, fun j => ?_, fun i j hp => ?_, fun i j opi opj hlt hi hj hc => ?_, ?_⟩
  · have := h.invoked j
    simp only [AbdSystem.send, AbdSystem.invokes, List.mem_cons, AbdEvent.invoked.injEq, this,
      List.length_append, List.length_singleton]
    omega
  · simp only [AbdSystem.send, AbdSystem.invokes, List.mem_cons, reduceCtorEq, false_or, h.returned]
    constructor
    · rintro ⟨opj, hj, hd⟩
      exact ⟨opj, (List.getElem?_append_left (List.getElem?_eq_some_iff.mp hj).1).trans hj, hd⟩
    · rintro ⟨opj, hj, hd⟩
      rcases hget j opj hj with hj | ⟨_, rfl⟩
      · exact ⟨opj, hj, hd⟩
      · simp [AbdOp.done, hphase] at hd
  · rcases hprec i j hp with hp | ⟨rfl, hr⟩
    · exact h.order i j hp
    · obtain ⟨opi, hi, _⟩ := (h.returned i).mp hr
      exact (List.getElem?_eq_some_iff.mp hi).1
  · rcases hget i opi hi with hi' | ⟨rfl, rfl⟩
    · rcases hget j opj hj with hj' | ⟨rfl, rfl⟩
      · exact (h.clients i j opi opj hlt hi' hj' hc).cons _
      · have hd := hidle opi (List.mem_of_getElem? hi') hc
        exact (List.singleton_sublist.mpr ((h.returned i).mpr ⟨opi, hi', hd⟩)).cons_cons _
    · have hj' := (List.getElem?_eq_some_iff.mp hj).1
      simp only [AbdSystem.send, AbdSystem.invokes, List.length_append, List.length_singleton] at hj'
      omega
  · intro c hc
    rcases hc with hc | ⟨reply, hr⟩
    · rcases mem_send_calls.mp hc with hc | ⟨hop, hsecond, hreq⟩
      · exact (h.calls c (.inl hc)).elim (fun _ hf => hf.mono hext)
      · refine ⟨op, ?_, ?_, ?_, ?_⟩
        · rw [hop]
          simp [AbdSystem.send, AbdSystem.invokes]
        · rw [hreq, AbdOp.queryRequest]
          split <;> rfl
        · intro _
          rw [hreq, AbdOp.queryRequest]
          split <;> rfl
        · exact fun he => absurd (hsecond.symm.trans he) (by simp)
    · exact (h.calls c (.inr ⟨reply, hr⟩)).elim (fun _ hf => hf.mono hext)

theorem AbdFits.step (h : AbdFits s) (hs : AbdSteps s a t) : AbdFits t := by
  have hext := hs.extends
  cases hs with
  | invoke hidle hop =>
    subst hop
    exact h.invoke hidle rfl hext
  | @deliver k call ks reply hcall hh =>
    refine ⟨h.invoked, h.returned, h.order, h.clients, fun c hc => ?_⟩
    have hold : c ∈ s.calls ∨ ∃ reply', (c, reply') ∈ s.replies := by
      rcases hc with hc | ⟨reply', hr⟩
      · exact .inl (List.mem_of_mem_eraseIdx hc)
      · rcases List.mem_cons.mp hr with he | hr
        · have hcc : c = call := congrArg Prod.fst he
          exact .inl (hcc ▸ hcall)
        · exact .inr ⟨reply', hr⟩
    exact (h.calls c hold).elim (fun _ hf => hf.mono hext)
  | @startWrite i op order vec maxResp tag value hop hphase =>
    refine h.set hop (by simp [AbdOp.done, hphase]) hext rfl rfl (.inl ⟨rfl, rfl⟩) (fun c hc => ?_)
    rcases mem_send_calls.mp hc with hc | ⟨he, hsecond, hreq⟩
    · exact .inl hc
    · refine .inr ⟨{ op with phase := .write tag value }, ?_, hreq ▸ rfl, ?_, ?_⟩
      · rw [he]
        exact (AbdSystem.ops_set hop _ _).trans (if_pos rfl)
      · exact fun hf => absurd (hsecond.symm.trans hf) (by simp)
      · exact fun _ => ⟨hreq ▸ rfl, hreq ▸ rfl⟩
  | @absent i op order vec maxResp hop hphase =>
    exact h.set hop (by simp [AbdOp.done, hphase]) hext rfl rfl (.inr ⟨rfl, rfl⟩) (fun c hc => .inl hc)
  | @finishWrite i op order vec tag value hop hphase =>
    exact h.set hop (by simp [AbdOp.done, hphase]) hext rfl rfl (.inr ⟨rfl, rfl⟩) (fun c hc => .inl hc)

end Fits

section Bounded

/-- The puts that chose their tag, and all puts that were called. -/
def AbdSystem.chosenPuts (s : AbdSystem n) : ℕ :=
  s.ops.countP (fun op => op.put.isSome && op.tag?.isSome)

def AbdSystem.putCount (s : AbdSystem n) : ℕ := s.ops.countP (fun op => op.put.isSome)

theorem AbdSystem.chosenPuts_le (s : AbdSystem n) : s.chosenPuts ≤ s.putCount :=
  List.countP_mono_left (fun _ _ h => (Bool.and_eq_true _ _ ▸ h).1)

theorem countP_set {α : Type*} {p : α → Bool} {l : List α} {i : ℕ} {x : α} (hx : l[i]? = some x)
    (y : α) : (l.set i y).countP p + (if p x then 1 else 0) =
      l.countP p + (if p y then 1 else 0) := by
  induction l generalizing i with
  | nil => simp at hx
  | cons z l ih =>
    cases i with
    | zero =>
      simp only [List.getElem?_cons_zero, Option.some.injEq] at hx
      subst hx
      simp only [List.set_cons_zero, List.countP_cons]
      omega
    | succ i =>
      have := ih (i := i) (by simpa using hx)
      simp only [List.set_cons_succ, List.countP_cons]
      omega

theorem chosenPuts_set {i : ℕ} {op op' : AbdOp} (hop : s.ops[i]? = some op)
    (hops : t.ops = s.ops.set i op') :
    t.chosenPuts + (if op.put.isSome && op.tag?.isSome then 1 else 0) =
      s.chosenPuts + (if op'.put.isSome && op'.tag?.isSome then 1 else 0) := by
  rw [AbdSystem.chosenPuts, hops]
  exact countP_set hop op'

structure Bounded (s : AbdSystem n) (m : ℕ) : Prop where
  replicas : ∀ r k v, s.replicas r k = some v → v.tag.integer.toNat ≤ m
  calls : ∀ c ∈ s.calls, c.request.integer.toNat ≤ m
  replies : ∀ x ∈ s.replies, x.2.integer.toNat ≤ m

theorem Bounded.mono {m m' : ℕ} (h : Bounded s m) (hm : m ≤ m') : Bounded s m' where
  replicas r k v hv := (h.replicas r k v hv).trans hm
  calls c hc := (h.calls c hc).trans hm
  replies x hx := (h.replies x hx).trans hm

theorem abdHandler_integer {ks ks' : KsMap} {request : KeyStoreRequest} {reply : KeyStoreResponse}
    (h : abdHandler ks request = some (ks', reply)) :
    reply.integer = 0 ∨ ∃ k v, ks k = some v ∧ reply.integer = v.tag.integer := by
  cases htype : request.type with
  | writeQuery =>
    obtain ⟨_, k, v, hv, he⟩ := abdHandler_writeQuery h htype
    exact .inr ⟨k, v, hv, congrArg Tag.integer he⟩
  | readQuery =>
    rcases readQueryReply_cases h htype with he | ⟨v, value, hv, _, he⟩
    · exact .inl (congrArg (fun r => r.tag.integer) he)
    · exact .inr ⟨_, v, hv, congrArg (fun r => r.tag.integer) he⟩
  | read =>
    simp only [abdHandler, htype, Option.some.injEq, Prod.mk.injEq] at h
    exact .inl (h.2 ▸ rfl)
  | write =>
    simp only [abdHandler, htype] at h
    obtain ⟨_, _, he⟩ := Option.map_eq_some_iff.mp h
    simp only [Prod.mk.injEq] at he
    exact .inl (he.2 ▸ rfl)

theorem collect_integer_le {m : ℕ} (h : Bounded s m) {i : ℕ} {second : Bool} {order : List (Fin n)}
    {vec : List ClientLib.Response} (hvec : s.collect i second order = some vec)
    {r : ClientLib.Response} (hr : r ∈ vec) : r.tag.integer.toNat ≤ m := by
  obtain ⟨call, reply, hm, _, _, rfl⟩ := AbdSystem.mem_of_collect hvec hr
  exact h.replies _ hm

theorem findMajorityTag_mem {vec : List ClientLib.Response} {maxResp : ClientLib.Response}
    (h : ClientLib.findMajorityTag vec = some maxResp) : maxResp ∈ vec := by
  obtain ⟨first, hfirst, rfl⟩ := Option.map_eq_some_iff.mp h
  rcases (ClientLib.majorityTagStep_foldl vec first).1 with he | hm
  · rw [he]
    exact List.mem_of_mem_head? hfirst
  · exact hm

theorem Bounded.step (h : Bounded s s.chosenPuts) (hs : AbdSteps s a t) :
    Bounded t t.chosenPuts := by
  cases hs with
  | @invoke client key put op hidle hop =>
    subst hop
    have hcount : s.chosenPuts ≤
        ((s.invokes ⟨client, key, put, .query⟩).send s.ops.length false
          (AbdOp.queryRequest ⟨client, key, put, .query⟩)).chosenPuts := by
      simp [AbdSystem.chosenPuts, AbdSystem.send, AbdSystem.invokes, List.countP_append]
    refine ⟨(h.mono hcount).replicas, fun c hc => ?_, (h.mono hcount).replies⟩
    rcases mem_send_calls.mp hc with hc | ⟨_, _, hreq⟩
    · exact (h.mono hcount).calls c hc
    · rw [hreq, AbdOp.queryRequest]
      split <;> simp [ClientLib.makeReqPayload]
  | @deliver k call ks reply hcall hh =>
    refine ⟨fun r k' v hv => ?_, fun c hc => h.calls c (List.mem_of_mem_eraseIdx hc), fun x hx => ?_⟩
    · by_cases hr : r = call.dst
      · subst hr
        simp only [AbdSystem.delivered, Function.update_self] at hv
        rcases abdHandler_stored hh hv with hold | ⟨_, _, htag, _⟩
        · exact h.replicas _ _ _ hold
        · rw [htag]
          exact h.calls call hcall
      · exact h.replicas r k' v (by simpa [AbdSystem.delivered, Function.update, hr] using hv)
    · rcases List.mem_cons.mp hx with rfl | hx
      · rcases abdHandler_integer hh with hz | ⟨k', v, hv, he⟩
        · simp [hz]
        · rw [he]
          exact h.replicas _ _ _ hv
      · exact h.replies x hx
  | @startWrite i op order vec maxResp tag value hop hphase hvec hmax hwrite =>
    have hle := collect_integer_le h hvec (findMajorityTag_mem hmax)
    have hcount := chosenPuts_set (t := (s.setOp i { op with phase := .write tag value }).send i true
      (op.writeRequest tag value)) hop rfl
    have hnew : AbdOp.tag? { op with phase := .write tag value } = some tag := rfl
    simp only [tag?_eq_none hphase, hnew, Option.isSome_none, Bool.and_false, Option.isSome_some,
      Bool.and_true, Bool.false_eq_true, if_false, Nat.add_zero] at hcount
    have hmono := h.mono (Nat.le.intro hcount.symm)
    refine ⟨hmono.replicas, fun c hc => ?_, hmono.replies⟩
    rcases mem_send_calls.mp hc with hc | ⟨_, _, hreq⟩
    · exact hmono.calls c hc
    · rw [hreq]
      change tag.integer.toNat ≤ _
      rw [hcount]
      rcases hwrite with ⟨hput, rfl⟩ | ⟨_, _, rfl, _⟩
      · have hsucc : (maxResp.tag.integer + 1).toNat ≤ maxResp.tag.integer.toNat + 1 := by
          rw [UInt32.toNat_add]
          exact Nat.mod_le _ _
        simp only [hput, Option.isSome_some, if_true]
        exact hsucc.trans (Nat.succ_le_succ hle)
      · exact hle.trans (Nat.le_add_right _ _)
  | @absent i op order vec maxResp hop hphase hput =>
    have hcount := chosenPuts_set (t := s.returns i { op with phase := .returned maxResp.tag none })
      hop rfl
    have hget : op.put.isSome = false := congrArg Option.isSome hput
    simp only [hget, Bool.false_and, Bool.false_eq_true, if_false, Nat.add_zero] at hcount
    have hmono := h.mono hcount.ge
    exact ⟨hmono.replicas, hmono.calls, hmono.replies⟩
  | @finishWrite i op order vec tag value hop hphase =>
    have hcount := chosenPuts_set (t := s.returns i { op with
        phase := .returned tag (if op.put = none then some value else none) }) hop rfl
    rw [tag?_write hphase] at hcount
    have hmono := h.mono (Nat.add_right_cancel hcount).ge
    exact ⟨hmono.replicas, hmono.calls, hmono.replies⟩

theorem bounded_init :
    Bounded (AbdSystem.init : AbdSystem n) (AbdSystem.init : AbdSystem n).chosenPuts where
  replicas r k v hv := by
    simp only [AbdSystem.init, abdStart_eq, Option.ite_none_right_eq_some, Option.some.injEq] at hv
    simp [← hv.2, Tag.zero]
  calls := by simp [AbdSystem.init]
  replies := by simp [AbdSystem.init]

theorem bounded_of_reachable {ok : AbdSystem n → AbdAction n → Prop}
    (h : ReachableWhen abdStep ok .init s) : Bounded s s.chosenPuts :=
  h.invariant (P := fun s => Bounded s s.chosenPuts) bounded_init
    (fun _ _ _ _ hu _ he => hu.step (abdStep_steps he))

end Bounded

end KeyValueStore
