import KeyValueStore.CmServer
import KeyValueStore.Memory

/-! A CM message in memory and in the `CMRequest` that carries it. The clock goes
over as the bytes of its `int`s. A string is received into one byte more than its
size, and this sum is computed in 32 bits. -/

namespace KeyValueStore

open Memory

/-- `cm_message_request_t` in memory. Its pointers, with the sizes beside them, are
blocks; a clock's element is an `int`, of `w` bytes. -/
structure CmRecord (w : ℕ) where
  nodenum : UInt32
  key : Block UInt8 1
  value : Block UInt8 1
  vecClk : Block UInt8 w

structure CmRequest where
  nodenum : UInt32 := 0
  key : Bytes := []
  keysz : UInt32 := 0
  value : Bytes := []
  valuesz : UInt32 := 0
  vecclk : Bytes := []
  vecclksz : UInt32 := 0
  deriving DecidableEq, Repr

section Codec

variable {w : ℕ}

/-- A field of the payload, which is set only when there is something to send. -/
def setSized (b : Block UInt8 w) (old : Bytes) : Bytes := if b.count ≠ 0 then b.used else old

def makeCmRequestPayload (payload : CmRequest) (req : CmRecord w) : CmRequest where
  nodenum := req.nodenum
  keysz := req.key.count
  key := setSized req.key payload.key
  valuesz := req.value.count
  value := setSized req.value payload.value
  vecclksz := UInt32.ofNat (req.vecClk.count.toNat * w)
  vecclk := setSized req.vecClk payload.vecclk

/-- A string's copy in `new char[sz+1]`. What is copied is `c_str()`, with the NUL
behind the string. -/
def newString (junk : ℕ → UInt8) (s : Bytes) (sz : UInt32) : Option (Block UInt8 1) :=
  (copyNew junk (sz + 1).toNat 0 (sz + 1).toNat (s ++ [0]) sz.toNat).map fun d =>
    ⟨d.1, sz, (Nat.mul_one _).symm ▸ d.2⟩

/-- A clock's copy in `new int[sz/INT_SIZE]` -/
def newInts (junk : ℕ → UInt8) (s : Bytes) (sz : UInt32) : Option (Block UInt8 w) :=
  (copyNew junk (sz.toNat / w * w) 0 sz.toNat (s ++ [0]) sz.toNat).map fun d =>
    ⟨d.1, UInt32.ofNat (sz.toNat / w), by
      rw [UInt32.toNat_ofNat']
      calc sz.toNat / w % 2 ^ 32 * w
        _ ≤ sz.toNat / w * w := Nat.mul_le_mul_right w (Nat.mod_le _ _)
        _ ≤ sz.toNat := Nat.div_mul_le_self _ _
        _ ≤ d.1.length := d.2⟩

def makeCmRequestT (junk : ℕ → UInt8) (request : CmRequest) : Option (CmRecord w) := do
  let key ← newString junk request.key request.keysz
  let value ← newString junk request.value request.valuesz
  let vecClk ← newInts junk request.vecclk request.vecclksz
  some ⟨request.nodenum, key, value, vecClk⟩

end Codec

section Copies

variable {w : ℕ} {junk : ℕ → UInt8} {s : Bytes} {sz : UInt32}

theorem newString_isSome : (newString junk s sz).isSome ↔
    sz.toNat ≤ s.length + 1 ∧ sz.toNat + 1 < 2 ^ 32 := by
  have hsz := sz.toNat_lt
  rw [newString, Option.isSome_map, copyNew_isSome, List.length_append, UInt32.toNat_add]
  simp only [UInt32.reduceToNat, List.length_singleton, Nat.le_refl, true_and]
  omega

theorem newString_spec {b : Block UInt8 1} (h : newString junk s sz = some b) :
    b.count = sz ∧ b.used = (s ++ [0]).take (sz.toNat * 1) := by
  obtain ⟨d, hd, rfl⟩ := Option.map_eq_some_iff.mp h
  refine ⟨rfl, ?_⟩
  rw [Nat.mul_one, ← take_of_copyNew hd, Block.used, Nat.mul_one]

theorem newInts_isSome : (newInts junk s sz : Option (Block UInt8 w)).isSome ↔
    sz.toNat ≤ s.length + 1 ∧ w ∣ sz.toNat := by
  rw [newInts, Option.isSome_map, copyNew_isSome, List.length_append, List.length_singleton]
  constructor
  · rintro ⟨hle, hread, _⟩
    exact ⟨hread, Dvd.intro_left _ (Nat.le_antisymm (Nat.div_mul_le_self _ _) hle)⟩
  · rintro ⟨hread, hdvd⟩
    rw [Nat.div_mul_cancel hdvd]
    exact ⟨Nat.le_refl _, hread, Nat.le_refl _⟩

theorem newInts_spec {b : Block UInt8 w} (h : newInts junk s sz = some b) (hdvd : w ∣ sz.toNat) :
    b.count = UInt32.ofNat (sz.toNat / w) ∧ b.used = (s ++ [0]).take sz.toNat := by
  obtain ⟨d, hd, rfl⟩ := Option.map_eq_some_iff.mp h
  have hcount : (UInt32.ofNat (sz.toNat / w)).toNat = sz.toNat / w :=
    UInt32.toNat_ofNat_of_lt' (Nat.lt_of_le_of_lt (Nat.div_le_self _ _) sz.toNat_lt)
  refine ⟨rfl, ?_⟩
  rw [← take_of_copyNew hd, Block.used, hcount, Nat.div_mul_cancel hdvd]

theorem makeCmRequestT_eq_some {request : CmRequest} {m : CmRecord w} :
    makeCmRequestT junk request = some m ↔ newString junk request.key request.keysz = some m.key ∧
      newString junk request.value request.valuesz = some m.value ∧
      newInts junk request.vecclk request.vecclksz = some m.vecClk ∧
      m.nodenum = request.nodenum := by
  obtain ⟨nodenum, key, value, vecClk⟩ := m
  simp only [makeCmRequestT, Option.bind_eq_bind, Option.bind_eq_some_iff, Option.some.injEq,
    CmRecord.mk.injEq]
  constructor
  · rintro ⟨_, hkey, _, hvalue, _, hclk, hnode, rfl, rfl, rfl⟩
    exact ⟨hkey, hvalue, hclk, hnode.symm⟩
  · rintro ⟨hkey, hvalue, hclk, hnode⟩
    exact ⟨_, hkey, _, hvalue, _, hclk, hnode.symm, rfl, rfl, rfl⟩

/-- A field that was not set is read for no bytes. -/
theorem take_setSized (b : Block UInt8 w) (old : Bytes) :
    (setSized b old ++ [0]).take (b.count.toNat * w) = b.used := by
  by_cases hc : b.count = 0
  · rw [b.used_of_count_eq_zero hc, hc, UInt32.toNat_zero, Nat.zero_mul, List.take_zero]
  · rw [setSized, if_pos hc]
    exact List.take_left' b.length_used

theorem le_length_setSized (b : Block UInt8 w) (old : Bytes) :
    b.count.toNat * w ≤ (setSized b old).length + 1 := by
  by_cases hc : b.count = 0
  · rw [hc, UInt32.toNat_zero, Nat.zero_mul]
    exact Nat.zero_le _
  · rw [setSized, if_pos hc, b.length_used]
    exact Nat.le_succ _

end Copies

section RoundTrip

variable {ι : Type*} {w : ℕ} {int : Layout ι UInt8 w} {m m' : CmRecord w}

structure SameMessage (int : Layout ι UInt8 w) (m m' : CmRecord w) : Prop where
  nodenum : m'.nodenum = m.nodenum
  keySz : m'.key.count = m.key.count
  key : m'.key.used = m.key.used
  valueSz : m'.value.count = m.value.count
  value : m'.value.used = m.value.used
  vecclkSz : m'.vecClk.count = m.vecClk.count
  vecClk : m'.vecClk.entries int = m.vecClk.entries int

/-- A record is received as it was sent, whatever the payload and new memory hold. -/
def RoundTrips (int : Layout ι UInt8 w) (m : CmRecord w) : Prop :=
  ∀ junk payload, ∃ m', makeCmRequestT junk (makeCmRequestPayload payload m) = some m' ∧
    SameMessage int m m'

/-- The size of a string with its NUL is a 32-bit number. -/
def SizesFit (m : CmRecord w) : Prop :=
  m.key.count.toNat + 1 < 2 ^ 32 ∧ m.value.count.toNat + 1 < 2 ^ 32

instance (m : CmRecord w) : Decidable (SizesFit m) := inferInstanceAs (Decidable (_ ∧ _))

/-- protobuf serialises no message of 2 GiB or more. -/
def CmRequest.Serializable (request : CmRequest) : Prop :=
  request.key.length + request.value.length + request.vecclk.length < 2 ^ 31

theorem RoundTrips.sizesFit (h : RoundTrips int m) : SizesFit m := by
  obtain ⟨m', hm', _⟩ := h (fun _ => 0) {}
  obtain ⟨hkey, hvalue, _⟩ := makeCmRequestT_eq_some.mp hm'
  exact ⟨(newString_isSome.mp (Option.isSome_of_eq_some hkey)).2,
    (newString_isSome.mp (Option.isSome_of_eq_some hvalue)).2⟩

/-- A string whose size fits arrives. -/
theorem newString_sent (junk : ℕ → UInt8) (b : Block UInt8 1) (old : Bytes)
    (hfit : b.count.toNat + 1 < 2 ^ 32) :
    ∃ b', newString junk (setSized b old) b.count = some b' ∧
      b'.count = b.count ∧ b'.used = b.used := by
  have hle := le_length_setSized b old
  rw [Nat.mul_one] at hle
  have hsome : (newString junk (setSized b old) b.count).isSome :=
    newString_isSome.mpr ⟨hle, hfit⟩
  obtain ⟨b', hb'⟩ := Option.isSome_iff_exists.mp hsome
  obtain ⟨hcount, hused⟩ := newString_spec hb'
  exact ⟨b', hb', hcount, hused.trans (take_setSized b old)⟩

/-- A clock arrives when the number of its bytes fits. -/
theorem newInts_sent (junk : ℕ → UInt8) (b : Block UInt8 w) (old : Bytes) (hw : 0 < w)
    (hfit : b.count.toNat * w < 2 ^ 32) :
    ∃ b' : Block UInt8 w,
      newInts junk (setSized b old) (UInt32.ofNat (b.count.toNat * w)) = some b' ∧
        b'.count = b.count ∧ b'.used = b.used := by
  have hsz : (UInt32.ofNat (b.count.toNat * w)).toNat = b.count.toNat * w :=
    UInt32.toNat_ofNat_of_lt' hfit
  have hdvd : w ∣ (UInt32.ofNat (b.count.toNat * w)).toNat := by
    rw [hsz]
    exact Nat.dvd_mul_left w _
  have hsome : (newInts junk (setSized b old) (UInt32.ofNat (b.count.toNat * w)) :
      Option (Block UInt8 w)).isSome := by
    refine newInts_isSome.mpr ⟨?_, hdvd⟩
    rw [hsz]
    exact le_length_setSized b old
  obtain ⟨b', hb'⟩ := Option.isSome_iff_exists.mp hsome
  obtain ⟨hcount, hused⟩ := newInts_spec hb' hdvd
  rw [hsz, Nat.mul_div_cancel _ hw, UInt32.ofNat_toNat] at hcount
  rw [hsz] at hused
  exact ⟨b', hb', hcount, hused.trans (take_setSized b old)⟩

theorem roundTrips_of_fits (hclk : m.vecClk.count.toNat * w < 2 ^ 32) (hfit : SizesFit m) :
    RoundTrips int m := by
  intro junk payload
  obtain ⟨key, hkey, hkeyCount, hkeyUsed⟩ := newString_sent junk m.key payload.key hfit.1
  obtain ⟨value, hvalue, hvalueCount, hvalueUsed⟩ :=
    newString_sent junk m.value payload.value hfit.2
  obtain ⟨vecClk, hvecClk, hclkCount, hclkUsed⟩ :=
    newInts_sent junk m.vecClk payload.vecclk int.width_pos hclk
  refine ⟨⟨m.nodenum, key, value, vecClk⟩,
    makeCmRequestT_eq_some.mpr ⟨hkey, hvalue, hvecClk, rfl⟩, ?_⟩
  exact {
    nodenum := rfl
    keySz := hkeyCount
    key := hkeyUsed
    valueSz := hvalueCount
    value := hvalueUsed
    vecclkSz := hclkCount
    vecClk := Block.entries_congr int hclkCount hclkUsed }

theorem cmCodec_iff (int : Layout ι UInt8 w) (m : CmRecord w)
    (hclk : m.vecClk.count.toNat * w < 2 ^ 32) : RoundTrips int m ↔ SizesFit m :=
  ⟨RoundTrips.sizesFit, roundTrips_of_fits hclk⟩

/-- The sizes of a record that protobuf can send fit. -/
theorem sizesFit_of_serializable {payload : CmRequest}
    (h : (makeCmRequestPayload payload m).Serializable) : SizesFit m := by
  have hkey := le_length_setSized m.key payload.key
  have hvalue := le_length_setSized m.value payload.value
  have hsum : (setSized m.key payload.key).length + (setSized m.value payload.value).length +
      (setSized m.vecClk payload.vecclk).length < 2 ^ 31 := h
  constructor <;> omega

/-- A message of any sizes that can be sent is received as it was. -/
theorem cmCodec_roundTrips (int : Layout ι UInt8 w) (m : CmRecord w)
    (hclk : m.vecClk.count.toNat * w < 2 ^ 32) (hfit : SizesFit m) : RoundTrips int m :=
  (cmCodec_iff int m hclk).mpr hfit

/-- A record for strings of any sizes and the clock of three servers -/
def recordOfSizes (keySz valueSz : UInt32) : CmRecord 4 where
  nodenum := 1
  key := (Layout.cell UInt8).block (List.replicate keySz.toNat 107) [0] (by
    rw [List.length_replicate]
    exact keySz.toNat_lt)
  value := (Layout.cell UInt8).block (List.replicate valueSz.toNat 0) [0] (by
    rw [List.length_replicate]
    exact valueSz.toNat_lt)
  vecClk := (littleEndian 4 (by decide)).block [2, 1, 0] [] (by decide)

theorem sizesFit_recordOfSizes {keySz valueSz : UInt32} : SizesFit (recordOfSizes keySz valueSz) ↔
    keySz.toNat + 1 < 2 ^ 32 ∧ valueSz.toNat + 1 < 2 ^ 32 := by
  rw [SizesFit, recordOfSizes, Layout.count_block, Layout.count_block, List.length_replicate,
    List.length_replicate]

example : ((makeCmRequestT (fun _ => 7) (makeCmRequestPayload {} (recordOfSizes 2 0))).map
    fun m => (m.key.used, m.vecClk.entries (littleEndian 4 (by decide)))) =
      some ([107, 107], [2, 1, 0]) := by decide

theorem cmCodec_emptyValue : RoundTrips (littleEndian 4 (by decide)) (recordOfSizes 2 0) :=
  cmCodec_roundTrips _ (recordOfSizes 2 0) (by decide)
    (sizesFit_recordOfSizes.mpr (by decide))

/-- A key of 2^32 - 1 bytes is copied into no bytes at all. -/
theorem cmCodec_longKey : ¬ ∀ m : CmRecord 4, m.vecClk.count.toNat * 4 < 2 ^ 32 →
    RoundTrips (littleEndian 4 (by decide)) m := by
  intro h
  have hfit := (h (recordOfSizes 4294967295 0) (by decide)).sizesFit
  exact absurd (sizesFit_recordOfSizes.mp hfit).1 (by decide)

end RoundTrip

section System

variable {n w : ℕ} {int : Layout (BitVec (8 * w)) UInt8 w} {r r' : CmRecord w}
  {m : CmMessageRequest n}

/-- The record is what a server has in memory for a message of the system. -/
structure CmRecord.Represents (int : Layout (BitVec (8 * w)) UInt8 w) (r : CmRecord w)
    (m : CmMessageRequest n) : Prop where
  nodenum : r.nodenum.toNat = m.nodenum
  key : r.key.used = m.key
  value : r.value.used = m.value
  vecClk : (r.vecClk.entries int).map BitVec.toInt = List.ofFn fun i => (m.vecClk i : ℤ)

theorem SameMessage.represents (h : SameMessage int r r') (hr : r.Represents int m) :
    r'.Represents int m where
  nodenum := h.nodenum ▸ hr.nodenum
  key := h.key.trans hr.key
  value := h.value.trans hr.value
  vecClk := h.vecClk ▸ hr.vecClk

/-- The sizes are 32-bit numbers, and the clock's entries `int`s of `w` bytes. -/
structure CmMessageRequest.Fits (w : ℕ) (m : CmMessageRequest n) : Prop where
  key : m.key.length + 1 < 2 ^ 32
  value : m.value.length + 1 < 2 ^ 32
  clock : n * w < 2 ^ 32
  entries : ∀ i, 2 * m.vecClk i < 2 ^ (8 * w)

theorem CmMessageRequest.Fits.servers (h : m.Fits w) (hw : 0 < w) : n < 2 ^ 32 :=
  Nat.lt_of_le_of_lt (Nat.le_mul_of_pos_right n hw) h.clock

/-- The record that `enqueue_in_outgoing_queue` makes, whose strings end in a NUL -/
def CmMessageRequest.record (int : Layout (BitVec (8 * w)) UInt8 w) (m : CmMessageRequest n)
    (h : m.Fits w) : CmRecord w where
  nodenum := UInt32.ofNat m.nodenum
  key := (Layout.cell UInt8).block m.key [0] (Nat.lt_of_succ_lt h.key)
  value := (Layout.cell UInt8).block m.value [0] (Nat.lt_of_succ_lt h.value)
  vecClk := int.block (List.ofFn fun i => BitVec.ofNat (8 * w) (m.vecClk i)) [] (by
    rw [List.length_ofFn]
    exact h.servers int.width_pos)

theorem CmMessageRequest.record_represents (h : m.Fits w) : (m.record int h).Represents int m where
  nodenum := UInt32.toNat_ofNat_of_lt' (Nat.lt_trans m.nodenum.isLt (h.servers int.width_pos))
  key := Layout.used_cell_block _ _ (Nat.lt_of_succ_lt h.key)
  value := Layout.used_cell_block _ _ (Nat.lt_of_succ_lt h.value)
  vecClk := by
    have hentry : ∀ i, (BitVec.ofNat (8 * w) (m.vecClk i)).toInt = m.vecClk i := by
      intro i
      have hi := h.entries i
      have hnat : (BitVec.ofNat (8 * w) (m.vecClk i)).toNat = m.vecClk i := by
        rw [BitVec.toNat_ofNat, Nat.mod_eq_of_lt (by omega)]
      rw [BitVec.toInt_eq_toNat_of_lt (hnat.symm ▸ hi), hnat]
    rw [CmMessageRequest.record, Layout.entries_block, List.map_ofFn]
    exact congrArg List.ofFn (funext hentry)

/-- What a server pushes for a message that another one sent is this message. -/
theorem CmMessageRequest.received (int : Layout (BitVec (8 * w)) UInt8 w) (m : CmMessageRequest n)
    (h : m.Fits w) (junk : ℕ → UInt8) (payload : CmRequest) :
    ∃ r, makeCmRequestT junk (makeCmRequestPayload payload (m.record int h)) = some r ∧
      r.Represents int m := by
  have hclk : (m.record int h).vecClk.count.toNat * w < 2 ^ 32 := by
    rw [CmMessageRequest.record, Layout.count_block, List.length_ofFn]
    exact h.clock
  have hfit : SizesFit (m.record int h) := by
    rw [SizesFit, CmMessageRequest.record, Layout.count_block, Layout.count_block]
    exact ⟨h.key, h.value⟩
  obtain ⟨r, hr, hsame⟩ := @roundTrips_of_fits _ _ int _ hclk hfit junk payload
  exact ⟨r, hr, hsame.represents (record_represents h)⟩

end System

end KeyValueStore
