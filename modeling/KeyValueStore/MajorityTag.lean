import KeyValueStore.AbdStore

/-! The loop of `find_majority_tag`, which erases the vector while it walks it. -/

namespace KeyValueStore

namespace ClientLib

/-- The vector, the place of the iterator in it and the response kept so far. -/
structure MajorityLoop where
  vec : List Response
  it : ℕ
  maxResp : Response
  deriving DecidableEq, Repr

namespace MajorityLoop

/-- `erase(it)`: the iterator then stands on the response after the erased one. -/
def erase (s : MajorityLoop) : MajorityLoop := { s with vec := s.vec.eraseIdx s.it }

/-- The body of the loop at the response `resp`. -/
def turn (s : MajorityLoop) (resp : Response) : MajorityLoop :=
  if s.maxResp.tag.integer ≤ resp.tag.integer then
    if resp.tag.integer = s.maxResp.tag.integer then
      if s.maxResp.tag.clientId < resp.tag.clientId then { s with maxResp := resp }.erase
      else s.erase
    -- a greater integer: nothing keeps the response, and it goes like a smaller one
    else s.erase
  else s.erase

theorem turn_eq (s : MajorityLoop) (resp : Response) :
    s.turn resp = ⟨s.vec.eraseIdx s.it, s.it, majorityTagStep s.maxResp resp⟩ := by
  unfold turn majorityTagStep
  by_cases hle : s.maxResp.tag.integer ≤ resp.tag.integer
  · by_cases heq : resp.tag.integer = s.maxResp.tag.integer
    · by_cases hlt : s.maxResp.tag.clientId < resp.tag.clientId
      · simp [heq, hlt, erase]
      · simp [heq, hlt, erase]
    · simp [hle, heq, erase]
  · simp [hle, erase]

def run (s : MajorityLoop) : MajorityLoop :=
  if h : s.it < s.vec.length then (s.turn s.vec[s.it]).run else s
termination_by s.vec.length - s.it
decreasing_by
  simp only [turn_eq, List.length_eraseIdx_of_lt h]
  omega

/-- From its beginning the loop drops the vector response by response. -/
theorem run_begin (vec : List Response) (maxResp : Response) :
    run ⟨vec, 0, maxResp⟩ = ⟨[], 0, vec.foldl majorityTagStep maxResp⟩ := by
  induction vec generalizing maxResp with
  | nil =>
    rw [run]
    simp
  | cons resp vec ih =>
    rw [run, dif_pos (by simp), turn_eq]
    exact ih (majorityTagStep maxResp resp)

end MajorityLoop

/-- `find_majority_tag` with what it leaves of the vector; undefined on an empty
one, whose first response it would read. -/
def findMajorityTagLoop (vec : List Response) : Option (Response × List Response) :=
  vec.head?.map fun first =>
    let done := MajorityLoop.run ⟨vec, 0, first⟩
    (done.maxResp, done.vec)

theorem findMajorityTagLoop_eq (vec : List Response) :
    findMajorityTagLoop vec = (findMajorityTag vec).map (fun maxResp => (maxResp, [])) := by
  cases vec with
  | nil => rfl
  | cons first rest =>
    simp only [findMajorityTagLoop, findMajorityTag, List.head?_cons, Option.map_some,
      MajorityLoop.run_begin]

/-- The loop ends with an empty vector and selects a response whose tag no other
exceeds. -/
def SelectsNewest (vec : List Response) : Prop :=
  ∃ maxResp, findMajorityTagLoop vec = some (maxResp, []) ∧ maxResp ∈ vec ∧
    ∀ r ∈ vec, r.tag ≤ maxResp.tag

/-- The selection keeps the integer of the first response, so it is the newest
exactly when no other has a greater one. -/
theorem selectsNewest_iff (first : Response) (rest : List Response) :
    SelectsNewest (first :: rest) ↔ ∀ r ∈ rest, r.tag.integer ≤ first.tag.integer := by
  constructor
  · intro h r hr
    obtain ⟨maxResp, he, _, hall⟩ := h
    rw [findMajorityTagLoop_eq] at he
    obtain ⟨m, hm, hpair⟩ := Option.map_eq_some_iff.mp he
    obtain ⟨rfl, _⟩ := Prod.mk.injEq .. ▸ hpair
    have hint : m.tag.integer = first.tag.integer := by
      have hfold : (first :: rest).foldl majorityTagStep first = m := Option.some.inj hm
      rw [← hfold]
      exact (majorityTagStep_foldl (first :: rest) first).2.1
    have hle := hall r (List.mem_cons_of_mem _ hr)
    rw [Tag.le_iff, hint] at hle
    rcases hle with hlt | ⟨heq, _⟩
    · exact UInt32.le_of_lt hlt
    · exact UInt32.le_of_eq heq
  · intro h
    have hlead : LeadsWithHighestTag (first :: rest) := by
      intro f hf r hr
      obtain rfl : first = f := Option.some.inj hf
      rcases List.mem_cons.mp hr with rfl | hr
      · exact UInt32.le_refl _
      · exact h r hr
    obtain ⟨m, hm⟩ : ∃ m, findMajorityTag (first :: rest) = some m := ⟨_, rfl⟩
    obtain ⟨hmem, hall⟩ := findMajorityTag_spec hm hlead
    exact ⟨m, by rw [findMajorityTagLoop_eq, hm, Option.map_some], hmem, hall⟩

theorem not_selectsNewest_older_first :
    ¬ SelectsNewest [⟨⟨0, 0⟩, []⟩, ⟨⟨1, 1⟩, [49]⟩] := by
  intro h
  obtain ⟨maxResp, he, _, hall⟩ := h
  rw [findMajorityTagLoop_eq] at he
  obtain rfl : ⟨⟨0, 0⟩, []⟩ = maxResp := by
    simpa [findMajorityTag, majorityTagStep] using he
  exact absurd (hall ⟨⟨1, 1⟩, [49]⟩ (by simp)) (by decide)

end ClientLib

end KeyValueStore
