import KeyValueStore.Execution
import Mathlib.Data.Set.Insert

/-! Computations on a state that is made of named parts. A footprint names the
parts on which the result depends and those which the computation may change. -/

namespace KeyValueStore

section Footprint

variable {σ κ V α β : Type*} {part : σ → κ → V} {R W : Set κ}

def SameOn (part : σ → κ → V) (R : Set κ) (s t : σ) : Prop := ∀ k ∈ R, part s k = part t k

structure Footprint (part : σ → κ → V) (R W : Set κ) (m : σ → Option (σ × α)) : Prop where
  frame : ∀ {s t a}, m s = some (t, a) → ∀ k ∉ W, part t k = part s k
  determined : ∀ {s s' t a}, SameOn part R s s' → m s = some (t, a) →
    ∃ t', m s' = some (t', a) ∧ SameOn part R t t'

theorem SameOn.symm {s t : σ} (h : SameOn part R s t) : SameOn part R t s :=
  fun k hk => (h k hk).symm

theorem Footprint.result_eq {m : σ → Option (σ × α)} (hm : Footprint part R W m) {s s' : σ}
    (h : SameOn part R s s') : (m s).map Prod.snd = (m s').map Prod.snd := by
  cases hs : m s with
  | some r =>
    obtain ⟨t, a⟩ := r
    obtain ⟨t', ht', _⟩ := hm.determined h hs
    rw [ht', Option.map_some, Option.map_some]
  | none =>
    cases hs' : m s' with
    | none => rfl
    | some r =>
      obtain ⟨t', a⟩ := r
      obtain ⟨t, ht, _⟩ := hm.determined h.symm hs'
      rw [hs] at ht
      simp at ht

theorem Footprint.pure (a : α) : Footprint part R W (fun s => some (s, a)) where
  frame h k _ := by
    obtain ⟨rfl, _⟩ := Prod.mk.inj (Option.some.inj h)
    rfl
  determined hsame h := by
    obtain ⟨rfl, rfl⟩ := Prod.mk.inj (Option.some.inj h)
    exact ⟨_, rfl, hsame⟩

theorem Footprint.fail : Footprint part R W (fun _ => (none : Option (σ × α))) where
  frame h := by simp at h
  determined _ h := by simp at h

theorem Footprint.bind {m : σ → Option (σ × α)} {f : α → σ → Option (σ × β)}
    (hm : Footprint part R W m) (hf : ∀ {s t a}, m s = some (t, a) → Footprint part R W (f a)) :
    Footprint part R W (fun s => (m s).bind fun r => f r.2 r.1) where
  frame h k hk := by
    obtain ⟨⟨u, a⟩, hu, ht⟩ := Option.bind_eq_some_iff.mp h
    exact ((hf hu).frame ht k hk).trans (hm.frame hu k hk)
  determined hsame h := by
    obtain ⟨⟨u, a⟩, hu, ht⟩ := Option.bind_eq_some_iff.mp h
    obtain ⟨u', hu', hsame'⟩ := hm.determined hsame hu
    obtain ⟨t', ht', hlast⟩ := (hf hu).determined hsame' ht
    exact ⟨t', Option.bind_eq_some_iff.mpr ⟨_, hu', ht'⟩, hlast⟩

theorem Footprint.lift (o : Option α) {f : α → σ → Option (σ × β)}
    (hf : ∀ a, o = some a → Footprint part R W (f a)) :
    Footprint part R W (fun s => o.bind fun a => f a s) := by
  cases o with
  | none => exact .fail
  | some a => exact hf a rfl

/-- A computation that replaces one part by what it computes from this part. -/
theorem Footprint.of_update {K : κ} (hK : K ∈ R) {m : σ → Option (σ × α)}
    (f : V → Option (V × α)) (put : σ → V → σ)
    (hself : ∀ s e, part (put s e) K = e)
    (hother : ∀ s e k, k ≠ K → part (put s e) k = part s k)
    (hm : ∀ s, m s = (f (part s K)).map fun r => (put s r.1, r.2)) :
    Footprint part R {K} m where
  frame {s t a} h k hk := by
    rw [hm] at h
    obtain ⟨⟨e, b⟩, _, he⟩ := Option.map_eq_some_iff.mp h
    obtain ⟨rfl, _⟩ := Prod.mk.inj he
    exact hother s e k hk
  determined {s s' t a} hsame h := by
    rw [hm] at h
    obtain ⟨⟨e, b⟩, hf, he⟩ := Option.map_eq_some_iff.mp h
    obtain ⟨rfl, rfl⟩ := Prod.mk.inj he
    refine ⟨put s' e, ?_, fun k hk => ?_⟩
    · rw [hm, ← hsame K hK, hf, Option.map_some]
    · by_cases hkK : k = K
      · rw [hkK, hself, hself]
      · rw [hother s e k hkK, hother s' e k hkK, hsame k hk]

theorem Footprint.zoom {σ' κ' V' : Type*} {part' : σ' → κ' → V'} {m : σ → Option (σ × α)}
    (get : σ' → σ) (set : σ' → σ → σ') (name : κ → κ') (inj : V → V')
    (hm : Footprint part R W m) (hinj : Function.Injective inj)
    (hget : ∀ s k, part' s (name k) = inj (part (get s) k))
    (hset : ∀ s u, get (set s u) = u)
    (hother : ∀ s u k', (∀ k, k' ≠ name k) → part' (set s u) k' = part' s k') :
    Footprint part' (name '' R) (name '' W)
      (fun s => (m (get s)).map fun r => (set s r.1, r.2)) where
  frame {s t a} h k' hk' := by
    obtain ⟨⟨u, b⟩, hu, he⟩ := Option.map_eq_some_iff.mp h
    obtain ⟨rfl, _⟩ := Prod.mk.inj he
    by_cases hn : ∃ k, k' = name k
    · obtain ⟨k, rfl⟩ := hn
      have hk : k ∉ W := fun hw => hk' (Set.mem_image_of_mem name hw)
      rw [hget, hget, hset, hm.frame hu k hk]
    · exact hother s u k' (fun k he => hn ⟨k, he⟩)
  determined {s s' t a} hsame h := by
    obtain ⟨⟨u, b⟩, hu, he⟩ := Option.map_eq_some_iff.mp h
    obtain ⟨rfl, rfl⟩ := Prod.mk.inj he
    have hsame' : SameOn part R (get s) (get s') := by
      intro k hk
      have h' := hsame (name k) (Set.mem_image_of_mem name hk)
      rw [hget, hget] at h'
      exact hinj h'
    obtain ⟨u', hu', hlast⟩ := hm.determined hsame' hu
    refine ⟨set s' u', Option.map_eq_some_iff.mpr ⟨_, hu', rfl⟩, ?_⟩
    rintro _ ⟨k, hk, rfl⟩
    rw [hget, hget, hset, hset, hlast k hk]

end Footprint

section Requests

variable {σ κ V ρ ω : Type*} {part : σ → κ → V} {handle : ρ → σ → Option (σ × ω)}
  {reads writes : ρ → Set κ}

/-- Serves requests and drops the answers. -/
def serve (handle : ρ → σ → Option (σ × ω)) (s : σ) (r : ρ) : Option σ := (handle r s).map Prod.fst

/-- What a request would be answered. -/
def answerTo (handle : ρ → σ → Option (σ × ω)) (s : σ) (r : ρ) : Option ω :=
  (handle r s).map Prod.snd

theorem part_serve (hfoot : ∀ r, Footprint part (reads r) (writes r) (handle r)) {rs : List ρ}
    {s t : σ} (h : runActions (serve handle) s rs = some t) {k : κ} (hk : ∀ r ∈ rs, k ∉ writes r) :
    part t k = part s k := by
  induction rs generalizing s with
  | nil =>
    simp only [runActions, Option.some.injEq] at h
    rw [h]
  | cons r rs ih =>
    obtain ⟨u, hu, ht⟩ := Option.bind_eq_some_iff.mp h
    obtain ⟨⟨u', a⟩, hr, rfl⟩ := Option.map_eq_some_iff.mp hu
    have hrest := ih ht (fun r' hr' => hk r' (List.mem_cons_of_mem _ hr'))
    exact hrest.trans ((hfoot r).frame hr k (hk r List.mem_cons_self))

/-- Requests that change no part which a request reads leave its answer as it is. -/
theorem answerTo_serve (hfoot : ∀ r, Footprint part (reads r) (writes r) (handle r))
    {rs : List ρ} {s t : σ} (h : runActions (serve handle) s rs = some t) {q : ρ}
    (hq : ∀ r ∈ rs, ∀ k ∈ reads q, k ∉ writes r) : answerTo handle t q = answerTo handle s q :=
  (hfoot q).result_eq (fun k hk => part_serve hfoot h (fun r hr => hq r hr k hk))

end Requests

end KeyValueStore
