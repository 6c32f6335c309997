import KeyValueStore.ServerMemory

/-! Where a Multi-Paxos server points to its commands, and how the steps of the source
move commands between these places. -/

namespace KeyValueStore

/-- The type of a message is set before every use, on the pointer that is sent. -/
def SameCommand (a b : Command) : Prop := ∃ t, a = { b with mpReqType := t }

theorem SameCommand.refl (a : Command) : SameCommand a a := ⟨a.mpReqType, rfl⟩

inductive Place
  | slot (key : Bytes) (i : ℕ)
  | origCmd
  | tempCmd
  deriving DecidableEq

def pointers (L : Bytes → Option LogMemory) (o t : Option ℕ) : Place → Option ℕ
  | .slot key i => (L key).bind fun cl => cl.cmdVec[i]?
  | .origCmd => o
  | .tempCmd => t

def commands (V : Bytes → Option CommandsList) (o t : Option Command) : Place → Option Command
  | .slot key i => (V key).bind fun cl =>
    if i < initCommandLength then some (cl.cmdVec i) else none
  | .origCmd => o
  | .tempCmd => t

abbrev Holding (h : CommandHeap) (L : Bytes → Option LogMemory) (o t : Option ℕ)
    (V : Bytes → Option CommandsList) (ov tv : Option Command) (F : Finset ℕ) (n : ℕ) : Prop :=
  ObjectHeap.Owns SameCommand h (pointers L o t) (commands V ov tv) F n

namespace Holding

variable {h : CommandHeap} {L : Bytes → Option LogMemory} {o t : Option ℕ}
  {V : Bytes → Option CommandsList} {ov tv : Option Command} {F : Finset ℕ} {n p q i : ℕ}
  {a b b' : Command} {f : Command → Command} {key : Bytes} {m m' : LogMemory}
  {cl cl' : CommandsList}

section Variables

theorem pointers_origCmd {o' : Option ℕ} :
    ∀ y ≠ Place.origCmd, pointers L o' t y = pointers L o t y := by
  intro y hy
  cases y with
  | origCmd => exact absurd rfl hy
  | slot | tempCmd => rfl

theorem commands_origCmd {ov' : Option Command} :
    ∀ y ≠ Place.origCmd, commands V ov' tv y = commands V ov tv y := by
  intro y hy
  cases y with
  | origCmd => exact absurd rfl hy
  | slot | tempCmd => rfl

theorem pointers_tempCmd {t' : Option ℕ} :
    ∀ y ≠ Place.tempCmd, pointers L o t' y = pointers L o t y := by
  intro y hy
  cases y with
  | tempCmd => exact absurd rfl hy
  | slot | origCmd => rfl

theorem commands_tempCmd {tv' : Option Command} :
    ∀ y ≠ Place.tempCmd, commands V ov tv' y = commands V ov tv y := by
  intro y hy
  cases y with
  | tempCmd => exact absurd rfl hy
  | slot | origCmd => rfl

theorem takeOrig (hh : Holding h L (some p) t V ov tv F n) :
    Holding h L none t V none tv (insert p F) n :=
  hh.take (x := .origCmd) rfl rfl rfl
    (fun y hy => ⟨pointers_origCmd y hy, commands_origCmd y hy⟩)

theorem takeTemp (hh : Holding h L o (some p) V ov tv F n) :
    Holding h L o none V ov none (insert p F) n :=
  hh.take (x := .tempCmd) rfl rfl rfl
    (fun y hy => ⟨pointers_tempCmd y hy, commands_tempCmd y hy⟩)

theorem putOrig (hh : Holding h L none t V none tv F n) (hF : p ∈ F) (ha : h.cell p = some a)
    (hab : SameCommand a b) : Holding h L (some p) t V (some b) tv (F.erase p) n :=
  hh.put (x := .origCmd) hF ha rfl rfl rfl hab
    (fun y hy => ⟨pointers_origCmd y hy, commands_origCmd y hy⟩)

theorem putTemp (hh : Holding h L o none V ov none F n) (hF : p ∈ F) (ha : h.cell p = some a)
    (hab : SameCommand a b) : Holding h L o (some p) V ov (some b) (F.erase p) n :=
  hh.put (x := .tempCmd) hF ha rfl rfl rfl hab
    (fun y hy => ⟨pointers_tempCmd y hy, commands_tempCmd y hy⟩)

theorem modifyOrig (hh : Holding h L (some p) t V (some b) tv F n) (f : Command → Command)
    (b' : Command) (hf : ∀ a, SameCommand a b → SameCommand (f a) b') :
    ∃ h', h.modify p f = some h' ∧ h'.cell p = (h.cell p).map f ∧
      (∀ q ≠ p, h'.cell q = h.cell q) ∧ Holding h' L (some p) t V (some b') tv F n :=
  hh.modify (x := .origCmd) rfl
    (fun a _ _ hc hac => ⟨b', rfl, hf a (Option.some.inj hc ▸ hac)⟩) commands_origCmd

theorem renumberOrig (hh : Holding h L (some p) t V (some b) tv F n) (num : Int32) :
    ∃ h', h.modify p (·.withAcceptedNum num) = some h' ∧
      h'.cell p = (h.cell p).map (·.withAcceptedNum num) ∧ (∀ q ≠ p, h'.cell q = h.cell q) ∧
      Holding h' L (some p) t V (some (b.withAcceptedNum num)) tv F n := by
  refine hh.modifyOrig (·.withAcceptedNum num) (b.withAcceptedNum num) ?_
  rintro _ ⟨type, rfl⟩
  exact ⟨type, rfl⟩

/-- A round starts again: the client's command takes another number, and the selected reply
is deleted. -/
theorem retry (hh : Holding h L (some p) t V (some b) tv F n) (hF : q ∈ F)
    (ha : h.cell q = some a) (num : Int32) :
    ∃ h₁ h₂, h.modify p (·.withAcceptedNum num) = some h₁ ∧ h₁.delete q = some h₂ ∧
      h₂.cell p = (h.cell p).map (·.withAcceptedNum num) ∧
      (∀ r ≠ p, r ≠ q → h₂.cell r = h.cell r) ∧
      Holding h₂ L (some p) t V (some (b.withAcceptedNum num)) tv (F.erase q) n := by
  have hpq : p ≠ q := fun he => hh.floating q hF .origCmd (by rw [← he]; rfl)
  obtain ⟨h₁, hmod, hp, hkeep, hh₁⟩ := hh.renumberOrig num
  obtain ⟨h₂, hdel, hkeep₂, hh₂⟩ := hh₁.delete hF ((hkeep q hpq.symm).trans ha)
  exact ⟨h₁, h₂, hmod, hdel, (hkeep₂ p hpq).trans hp,
    fun r hrp hrq => (hkeep₂ r hrq).trans (hkeep r hrp), hh₂⟩

theorem origCmd_cell (hh : Holding h L (some p) t V (some b) tv F n) :
    ∃ a, h.cell p = some a ∧ SameCommand a b := by
  obtain ⟨a, c, ha, hc, hac⟩ := hh.held .origCmd p rfl
  exact ⟨a, ha, Option.some.inj hc ▸ hac⟩

theorem tempCmd_cell (hh : Holding h L o (some p) V ov (some b) F n) :
    ∃ a, h.cell p = some a ∧ SameCommand a b := by
  obtain ⟨a, c, ha, hc, hac⟩ := hh.held .tempCmd p rfl
  exact ⟨a, ha, Option.some.inj hc ▸ hac⟩

end Variables

section Slots

theorem slot_pointer (hL : L key = some m) (hq : m.cmdVec[i]? = some q) :
    pointers L o t (.slot key i) = some q := by
  rw [pointers, hL]
  exact hq

theorem slot_command (hV : V key = some cl) (hi : i < initCommandLength) :
    commands V ov tv (.slot key i) = some (cl.cmdVec i) := by
  simp [commands, hV, hi]

theorem slot_cell (hh : Holding h L o t V ov tv F n) (hL : L key = some m)
    (hV : V key = some cl) (hq : m.cmdVec[i]? = some q) (hi : i < initCommandLength) :
    ∃ a, h.cell q = some a ∧ SameCommand a (cl.cmdVec i) := by
  obtain ⟨a, c, ha, hc, hac⟩ := hh.held (.slot key i) q (slot_pointer hL hq)
  rw [slot_command hV hi] at hc
  exact ⟨a, ha, Option.some.inj hc ▸ hac⟩

theorem commands_update (hV : V key = some cl)
    (hcl : ∀ j ≠ i, cl'.cmdVec j = cl.cmdVec j) :
    ∀ y ≠ Place.slot key i, commands (Function.update V key (some cl')) ov tv y =
      commands V ov tv y := by
  intro y hy
  cases y with
  | slot k j =>
    by_cases hk : k = key
    · subst hk
      have hj : j ≠ i := fun he => hy (he ▸ rfl)
      simp [commands, hV, hcl j hj]
    · simp [commands, Function.update, hk]
  | origCmd | tempCmd => rfl

theorem modifySlot (hh : Holding h L o t V ov tv F n) (hL : L key = some m)
    (hV : V key = some cl) (hq : m.cmdVec[i]? = some q) (hi : i < initCommandLength)
    (f : Command → Command) (b : Command)
    (hf : ∀ a, SameCommand a (cl.cmdVec i) → SameCommand (f a) b) :
    ∃ h', h.modify q f = some h' ∧ h'.cell q = (h.cell q).map f ∧
      (∀ r ≠ q, h'.cell r = h.cell r) ∧
      Holding h' L o t (Function.update V key (some (cl.setCmd i b))) ov tv F n := by
  refine hh.modify (slot_pointer hL hq) (fun a c _ hc hac => ?_)
    (commands_update hV fun j hj => by simp [hj])
  rw [slot_command hV hi] at hc
  refine ⟨b, ?_, hf a (Option.some.inj hc ▸ hac)⟩
  simp [commands, hi]

/-- The command of a slot is deleted and another one put in its place. -/
theorem replaceSlot (hh : Holding h L o t V ov tv F n) (hL : L key = some m)
    (hV : V key = some cl) (hq : m.cmdVec[i]? = some q) (hi : i < initCommandLength)
    (hF : p ∈ F) (ha : h.cell p = some a) (hab : SameCommand a b) (m' : LogMemory)
    (cl' : CommandsList) (hm : m'.cmdVec = m.cmdVec.set i p)
    (hcl : cl'.cmdVec = (cl.setCmd i b).cmdVec) :
    ∃ h', h.delete q = some h' ∧ (∀ r ≠ q, h'.cell r = h.cell r) ∧
      Holding h' (Function.update L key (some m')) o t (Function.update V key (some cl')) ov tv
        (F.erase p) n := by
  have hlen : i < m.cmdVec.length := (List.getElem?_eq_some_iff.mp hq).1
  have hpq : p ≠ q := fun he => hh.floating p hF _ (he ▸ slot_pointer hL hq)
  have hqF : q ∉ F := fun h => hh.floating q h _ (slot_pointer hL hq)
  obtain ⟨c, hc, _⟩ := slot_cell hh hL hV hq hi
  have htake : ObjectHeap.Owns SameCommand h
      (Function.update (pointers L o t) (Place.slot key i) none)
      (Function.update (commands V ov tv) (Place.slot key i) none) (insert q F) n :=
    hh.take (slot_pointer hL hq) (by simp) (by simp) (fun y hy => by
      rw [Function.update_of_ne hy, Function.update_of_ne hy]
      exact ⟨rfl, rfl⟩)
  obtain ⟨h', hdel, hcell, hdone⟩ := htake.delete (Finset.mem_insert_self q F) hc
  rw [Finset.erase_insert hqF] at hdone
  refine ⟨h', hdel, hcell, hdone.put (x := .slot key i) hF ((hcell p hpq).trans ha)
    (Function.update_self ..) ?_ ?_ hab ?_⟩
  · simp [pointers, hm, hlen]
  · simp [commands, hcl, hi]
  · intro y hy
    simp only [Function.update_of_ne hy]
    refine ⟨?_, commands_update hV (fun j hj => by simp [hcl, hj]) y hy⟩
    cases y with
    | slot k j =>
      by_cases hk : k = key
      · subst hk
        have hj : i ≠ j := fun he => hy (he ▸ rfl)
        simp [pointers, hL, hm, hj]
      · simp [pointers, Function.update, hk]
    | origCmd | tempCmd => rfl

end Slots

end Holding

end KeyValueStore
