import KeyValueStore.AbdStore
import KeyValueStore.MaxRegister

/-! One ABD replica under any sequence of WRITEs: each map entry is a register
that keeps the greatest tag. -/

namespace KeyValueStore

variable {ks ks' : KsMap} {request : KeyStoreRequest} {reply : KeyStoreResponse} {k : Bytes}

/-- Tag and value of an entry. Its own key is that of the first WRITE. -/
def KsMap.register (ks : KsMap) (k : Bytes) : Option (Tag × Option Bytes) :=
  (ks k).map fun v => (v.tag, v.value)

def KeyStoreRequest.written (request : KeyStoreRequest) : Tag × Option Bytes :=
  (request.tag, some request.value)

/-- The requests one after another, up to one that is undefined. -/
def abdHandleAll : KsMap → List KeyStoreRequest → Option KsMap
  | ks, [] => some ks
  | ks, request :: rest => (abdHandler ks request).bind fun r => abdHandleAll r.1 rest

/-- The three branches of a WRITE are one comparison of tags. -/
theorem writtenValue_register {old : Option AbdValue} {v : AbdValue}
    (h : writtenValue request old = some v) : some (v.tag, v.value) =
      MaxRegister.write (old.map fun v => (v.tag, v.value)) request.written := by
  cases old with
  | none =>
    obtain rfl := Option.some.inj h
    rfl
  | some u =>
    by_cases hlt : u.tag < request.tag
    · have hwrite : MaxRegister.write (some (u.tag, u.value)) request.written =
          some request.written := MaxRegister.write_of_lt hlt
      rw [writtenValue_of_lt hlt] at h
      obtain ⟨_, _, rfl⟩ := Option.map_eq_some_iff.mp h
      rw [Option.map_some, hwrite, KeyStoreRequest.written]
    · have hkeep : MaxRegister.write (some (u.tag, u.value)) request.written =
          some (u.tag, u.value) := MaxRegister.write_of_not_lt hlt
      rw [writtenValue_of_le (not_lt.mp hlt)] at h
      rw [Option.map_some, hkeep, Option.some.inj h]

theorem abdHandler_register (h : abdHandler ks request = some (ks', reply))
    (htype : request.type = .write) :
    ks'.register (cStr request.key) =
      MaxRegister.write (ks.register (cStr request.key)) request.written := by
  rcases abdHandler_entries h with ⟨hne, _⟩ | ⟨_, v, hv, rfl⟩
  · exact absurd htype hne
  · rw [KsMap.register, Function.update_self, Option.map_some]
    exact writtenValue_register hv

theorem abdHandler_other (h : abdHandler ks request = some (ks', reply))
    (hk : k ≠ cStr request.key) : ks' k = ks k := by
  rcases abdHandler_entries h with ⟨_, rfl⟩ | ⟨_, v, _, rfl⟩
  · rfl
  · exact Function.update_of_ne hk _ _

/-- No WRITE has a greater tag than an entry whose value was never set. -/
def KsMap.Replaceable (ks : KsMap) (k : Bytes) (ws : List KeyStoreRequest) : Prop :=
  ∀ v, ks k = some v → v.value = none → ∀ w ∈ ws, w.tag ≤ v.tag

theorem writtenValue_eq_none {old : Option AbdValue} : writtenValue request old = none ↔
    ∃ v, old = some v ∧ v.value = none ∧ v.tag < request.tag := by
  cases old with
  | none => simp [writtenValue]
  | some u =>
    rcases lt_or_ge u.tag request.tag with hlt | hle
    · simp [writtenValue_of_lt hlt, hlt]
    · simp [writtenValue_of_le hle, not_lt.mpr hle]

theorem abdHandler_write_isSome {w : KeyStoreRequest} {ws : List KeyStoreRequest}
    (htype : w.type = .write) (hk : cStr w.key = k) (h : ks.Replaceable k (w :: ws)) :
    ∃ ks' reply, abdHandler ks w = some (ks', reply) := by
  simp only [abdHandler, htype, hk]
  cases hw : writtenValue w (ks k) with
  | none =>
    obtain ⟨v, hv, hnone, hlt⟩ := writtenValue_eq_none.mp hw
    exact absurd hlt (not_lt.mpr (h v hv hnone w List.mem_cons_self))
  | some v => exact ⟨_, _, rfl⟩

theorem KsMap.Replaceable.step {w : KeyStoreRequest} {ws : List KeyStoreRequest}
    (h : ks.Replaceable k (w :: ws)) (hw : abdHandler ks w = some (ks', reply)) :
    ks'.Replaceable k ws := by
  intro v hv hnone x hx
  rcases abdHandler_stored hw hv with hold | ⟨_, _, _, hvalue⟩
  · exact h v hold hnone x (List.mem_cons_of_mem _ hx)
  · simp [hnone] at hvalue

theorem abdHandleAll_writes {ws : List KeyStoreRequest} (ks : KsMap)
    (hws : ∀ w ∈ ws, w.type = .write ∧ cStr w.key = k) (hset : ks.Replaceable k ws) :
    ∃ ks', abdHandleAll ks ws = some ks' ∧
      ks'.register k =
        MaxRegister.writeAll (ks.register k) (ws.map KeyStoreRequest.written) ∧
      ∀ j ≠ k, ks' j = ks j := by
  induction ws generalizing ks with
  | nil => exact ⟨ks, rfl, rfl, fun _ _ => rfl⟩
  | cons w ws ih =>
    obtain ⟨htype, hkey⟩ := hws w List.mem_cons_self
    obtain ⟨ks₁, reply, hw⟩ := abdHandler_write_isSome htype hkey hset
    obtain ⟨ks', hrun, hreg, hother⟩ :=
      ih ks₁ (fun w hm => hws w (List.mem_cons_of_mem _ hm)) (hset.step hw)
    have hstep := abdHandler_register hw htype
    rw [hkey] at hstep
    refine ⟨ks', ?_, ?_, fun j hj => ?_⟩
    · rw [abdHandleAll, hw, Option.bind_some, hrun]
    · rw [hreg, hstep, List.map_cons, MaxRegister.writeAll, MaxRegister.writeAll, List.foldl_cons]
    · rw [hother j hj, abdHandler_other hw (hkey ▸ hj)]

theorem abdHandler_write_le {w : KeyStoreRequest} {v : AbdValue}
    (h : abdHandler ks w = some (ks', reply)) (htype : w.type = .write)
    (hv : ks (cStr w.key) = some v) (hnone : v.value = none) : w.tag ≤ v.tag := by
  by_contra hlt
  have hundef : writtenValue w (ks (cStr w.key)) = none :=
    writtenValue_eq_none.mpr ⟨v, hv, hnone, not_le.mp hlt⟩
  simp [abdHandler, htype, hundef] at h

/-- The first WRITE that would delete a value that was never set ends the run. -/
theorem replaceable_of_abdHandleAll {ws : List KeyStoreRequest} {ks ks' : KsMap}
    (hws : ∀ w ∈ ws, w.type = .write ∧ cStr w.key = k) (h : abdHandleAll ks ws = some ks') :
    ks.Replaceable k ws := by
  intro v hv hnone
  induction ws generalizing ks with
  | nil => simp
  | cons w ws ih =>
    obtain ⟨⟨ks₁, reply⟩, hw, hrest⟩ := Option.bind_eq_some_iff.mp h
    obtain ⟨htype, hkey⟩ := hws w List.mem_cons_self
    have hle : w.tag ≤ v.tag := abdHandler_write_le hw htype (hkey ▸ hv) hnone
    intro x hx
    rcases List.mem_cons.mp hx with rfl | hx
    · exact hle
    · exact ih (fun w hm => hws w (List.mem_cons_of_mem _ hm)) hrest
        (abdHandler_keeps hw hv (fun _ _ => hle)) x hx

/-- What the WRITEs offer a register that holds `r`. -/
def offered (r : Option (Tag × Option Bytes)) (ws : List KeyStoreRequest) :
    Set (Tag × Option Bytes) :=
  MaxRegister.contents r ∪ {x | x ∈ ws.map KeyStoreRequest.written}

theorem mem_offered {r : Option (Tag × Option Bytes)} {ws : List KeyStoreRequest}
    {x : Tag × Option Bytes} :
    x ∈ offered r ws ↔ r = some x ∨ ∃ w ∈ ws, w.written = x := by
  simp [offered, MaxRegister.contents]

theorem offered_congr {r : Option (Tag × Option Bytes)} {ws ws' : List KeyStoreRequest}
    (h : ∀ w, w ∈ ws' ↔ w ∈ ws) : offered r ws' = offered r ws := by
  ext x
  simp [mem_offered, h]

/-- The greatest of what was offered is in the entry, in whatever order and however
often the WRITEs come, and the other entries are as before. -/
def KsMap.KeepsGreatest (ks : KsMap) (k : Bytes) (ws : List KeyStoreRequest) : Prop :=
  ∃ ks', abdHandleAll ks ws = some ks' ∧
    MaxRegister.Holds (offered (ks.register k) ws) (ks'.register k) ∧
    (∀ j ≠ k, ks' j = ks j) ∧
    ∀ ws', (∀ w, w ∈ ws' ↔ w ∈ ws) → ∃ ks'', abdHandleAll ks ws' = some ks'' ∧
      ks''.register k = ks'.register k ∧ ∀ j ≠ k, ks'' j = ks' j

theorem abdReplica_maxRegister_iff (ks : KsMap) (k : Bytes) (ws : List KeyStoreRequest)
    (hws : ∀ w ∈ ws, w.type = .write ∧ cStr w.key = k)
    (htags : MaxRegister.Consistent (offered (ks.register k) ws)) :
    ks.KeepsGreatest k ws ↔ ks.Replaceable k ws := by
  constructor
  · rintro ⟨ks', hrun, _⟩
    exact replaceable_of_abdHandleAll hws hrun
  intro hset
  have hholds := (MaxRegister.holds_contents (ks.register k)).writeAll
  obtain ⟨ks', hrun, hreg, hother⟩ := abdHandleAll_writes ks hws hset
  have hks' : MaxRegister.Holds (offered (ks.register k) ws) (ks'.register k) := by
    rw [hreg]
    exact hholds _
  refine ⟨ks', hrun, hks', hother, fun ws' hsame => ?_⟩
  obtain ⟨ks'', hrun', hreg', hother'⟩ :=
    abdHandleAll_writes ks (fun w hw => hws w ((hsame w).mp hw))
      (fun v hv hnone w hw => hset v hv hnone w ((hsame w).mp hw))
  have hks'' : MaxRegister.Holds (offered (ks.register k) ws) (ks''.register k) := by
    rw [hreg', ← offered_congr hsame]
    exact hholds _
  refine ⟨ks'', hrun', hks''.unique hks' htags, fun j hj => ?_⟩
  rw [hother' j hj, hother j hj]

def putOf (tag : Tag) (key value : Bytes) : KeyStoreRequest :=
  ClientLib.makeReqPayload ⟨.write, .abd, tag, key, value⟩

theorem abdReplica_two_puts : abdStart.KeepsGreatest [107]
    [putOf ⟨2, 1⟩ [107] [98], putOf ⟨1, 3⟩ [107, 0] [97]] := by
  have htags : MaxRegister.Consistent
      (offered none [putOf ⟨2, 1⟩ [107] [98], putOf ⟨1, 3⟩ [107, 0] [97]]) := by
    rintro x hx y hy htag
    simp only [mem_offered, reduceCtorEq, false_or, List.mem_cons, List.not_mem_nil, or_false,
      exists_eq_or_imp, exists_eq_left] at hx hy
    rcases hx with rfl | rfl <;> rcases hy with rfl | rfl
    · rfl
    · exact absurd htag (by decide)
    · exact absurd htag (by decide)
    · rfl
  have hnone : abdStart [107] = none := by decide
  refine (abdReplica_maxRegister_iff abdStart [107] _
    (by simp [putOf, ClientLib.makeReqPayload, cStr]) ?_).mpr (fun v hv => ?_)
  · rwa [KsMap.register, hnone]
  · simp [hnone] at hv

/-- The first put of the sentinel's key deletes a value that was never set. -/
theorem abdReplica_sentinel_put : ¬ ∀ (ks : KsMap) (k : Bytes) (ws : List KeyStoreRequest),
    (∀ w ∈ ws, w.type = .write ∧ cStr w.key = k) →
    MaxRegister.Consistent (offered (ks.register k) ws) → ks.KeepsGreatest k ws := by
  intro h
  have htags : MaxRegister.Consistent
      (offered (abdStart.register sentinelKey) [putOf ⟨1, 0⟩ sentinelKey [120]]) := by
    have hreg : abdStart.register sentinelKey = some (.zero, none) := by decide
    rintro x hx y hy htag
    simp only [mem_offered, hreg, Option.some.injEq, List.mem_singleton, exists_eq_left] at hx hy
    rcases hx with rfl | rfl <;> rcases hy with rfl | rfl
    · rfl
    · exact absurd htag (by decide)
    · exact absurd htag (by decide)
    · rfl
  obtain ⟨ks', hrun, _⟩ := h abdStart sentinelKey [putOf ⟨1, 0⟩ sentinelKey [120]]
    (by simp [putOf, ClientLib.makeReqPayload, cStr, sentinelKey]) htags
  have hnone : abdHandleAll abdStart [putOf ⟨1, 0⟩ sentinelKey [120]] = none := by rfl
  exact absurd (hnone.symm.trans hrun) (by simp)

end KeyValueStore
