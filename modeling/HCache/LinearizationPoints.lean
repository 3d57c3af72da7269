import HCache.InterleavedSystems
import Mathlib.Data.List.ReduceOption

/-!
# Linearization points

Operations that take several events of an interleaved system. When each takes effect at one
event, while it is in progress, the order of these events is one order of the operations,
and at each moment of a run there is one value that the operations so far have left.
-/
namespace HCache.LinearizationPoints
open InterleavedSystems

variable {σ ε ι τ : Type*} {step : σ → ε → Option σ}

/-- For each event of a run, the operation that takes effect there. -/
def effectsOf (step : σ → ε → Option σ) (effect : σ → ε → Option ι) : σ → List ε → List (Option ι)
  | _, [] => []
  | s, e :: es => effect s e :: ((step s e).map (fun s' => effectsOf step effect s' es)).getD []

/-- What the operations that take effect in the first `t` events leave. -/
def valueAt (apply : τ → ι → τ) (x : τ) (effects : List (Option ι)) (t : ℕ) : τ :=
  (effects.take t).reduceOption.foldl apply x

/-- Each operation takes effect at most once and while it is in progress, and each one that
has returned has taken effect. -/
structure EffectOrder (step : σ → ε → Option σ) (InProgress Returned : σ → ι → Prop) (s₀ : σ)
    (es : List ε) (effects : List (Option ι)) : Prop where
  length : effects.length = es.length
  within : ∀ (p : ℕ) (i : ι) (s : σ), effects[p]? = some (some i) →
    run step s₀ (es.take p) = some s → InProgress s i
  once : ∀ (p q : ℕ) (i : ι), effects[p]? = some (some i) → effects[q]? = some (some i) → p = q
  complete : ∀ (t : ℕ) (i : ι) (s : σ), run step s₀ (es.take t) = some s → Returned s i →
    some i ∈ effects.take t

variable {effect : σ → ε → Option ι} {s t : σ} {es : List ε}

theorem effectsOf_cons {s' : σ} {e : ε} (h : step s e = some s') :
    effectsOf step effect s (e :: es) = effect s e :: effectsOf step effect s' es := by
  simp [effectsOf, h]

theorem length_effectsOf (hr : run step s es = some t) :
    (effectsOf step effect s es).length = es.length := by
  induction es generalizing s with
  | nil => rfl
  | cons e es ih =>
    obtain ⟨s', hs, hr'⟩ := run_cons_eq_some.mp hr
    rw [effectsOf_cons hs, List.length_cons, List.length_cons, ih hr']

theorem take_effectsOf (hr : run step s es = some t) (n : ℕ) :
    (effectsOf step effect s es).take n = effectsOf step effect s (es.take n) := by
  induction es generalizing s n with
  | nil => simp [effectsOf]
  | cons e es ih =>
    obtain ⟨s', hs, hr'⟩ := run_cons_eq_some.mp hr
    cases n with
    | zero => rfl
    | succ n =>
      rw [effectsOf_cons hs, List.take_succ_cons, List.take_succ_cons, effectsOf_cons hs, ih hr']

/-- The event at which an operation takes effect. -/
theorem event_of_effect (hr : run step s es = some t) {p : ℕ} {o : Option ι}
    (h : (effectsOf step effect s es)[p]? = some o) :
    ∃ u e u', run step s (es.take p) = some u ∧ es[p]? = some e ∧ step u e = some u' ∧
      effect u e = o := by
  induction es generalizing s p with
  | nil => simp [effectsOf] at h
  | cons e es ih =>
    obtain ⟨s', hs, hr'⟩ := run_cons_eq_some.mp hr
    rw [effectsOf_cons hs] at h
    cases p with
    | zero => exact ⟨s, e, s', rfl, rfl, hs, by simpa using h⟩
    | succ p =>
      obtain ⟨u, e', u', hu, he', hs', ho⟩ := ih hr' (by simpa using h)
      exact ⟨u, e', u', run_cons_eq_some.mpr ⟨s', hs, hu⟩, by simpa using he', hs', ho⟩

theorem getElem?_effectsOf (hr : run step s es = some t) {p : ℕ} {u : σ} {e : ε}
    (hu : run step s (es.take p) = some u) (he : es[p]? = some e) :
    (effectsOf step effect s es)[p]? = some (effect u e) := by
  have hp : p < (effectsOf step effect s es).length := by
    rw [length_effectsOf hr]
    exact (List.getElem?_eq_some_iff.mp he).1
  obtain ⟨v, e', _, hv, he', -, heffect⟩ := event_of_effect hr (List.getElem?_eq_getElem hp)
  obtain rfl := Option.some.inj (hu.symm.trans hv)
  obtain rfl := Option.some.inj (he.symm.trans he')
  rw [heffect]
  exact List.getElem?_eq_getElem hp

/-- The value one event later. -/
theorem valueAt_succ (apply : τ → ι → τ) (x : τ) {effects : List (Option ι)} {p : ℕ} {o : Option ι}
    (h : effects[p]? = some o) :
    valueAt apply x effects (p + 1) =
      o.elim (valueAt apply x effects p) (apply (valueAt apply x effects p)) := by
  rw [valueAt, List.take_add_one, h, List.reduceOption_append, List.foldl_append, ← valueAt]
  cases o with
  | none => rfl
  | some i => rfl

/-- After the last event the value stays. -/
theorem valueAt_succ_of_none (apply : τ → ι → τ) (x : τ) {effects : List (Option ι)} {p : ℕ}
    (h : effects[p]? = none) :
    valueAt apply x effects (p + 1) = valueAt apply x effects p := by
  rw [valueAt, List.take_add_one, h, Option.toList_none, List.append_nil, ← valueAt]

/-- The rules of a system whose operations take effect at the events that `effect` names:
`Taken` says which have, and `Inv` relates the state to the value that they have left. -/
structure Commits (step : σ → ε → Option σ) (effect : σ → ε → Option ι) (apply : τ → ι → τ)
    (InProgress Returned Taken : σ → ι → Prop) (P : σ → ε → Prop) (Inv : σ → τ → Prop) : Prop where
  inv : ∀ {s x e s'}, Inv s x → P s e → step s e = some s' → Inv s' ((effect s e).elim x (apply x))
  within : ∀ {s x e s' i}, Inv s x → P s e → step s e = some s' → effect s e = some i →
    InProgress s i ∧ ¬ Taken s i
  taken : ∀ {s x e s' i}, Inv s x → P s e → step s e = some s' →
    (Taken s' i ↔ Taken s i ∨ effect s e = some i)
  returned : ∀ {s x i}, Inv s x → Returned s i → Taken s i

variable {apply : τ → ι → τ} {InProgress Returned Taken : σ → ι → Prop}
  {P : σ → ε → Prop} {Inv : σ → τ → Prop} {s t : σ} {x : τ} {es : List ε}

theorem Commits.run (h : Commits step effect apply InProgress Returned Taken P Inv) (hi : Inv s x)
    (hm : Meets step P s es) (hr : InterleavedSystems.run step s es = some t) :
    Inv t ((effectsOf step effect s es).reduceOption.foldl apply x) ∧
      ∀ i, Taken t i ↔ Taken s i ∨ some i ∈ effectsOf step effect s es := by
  induction es generalizing s x with
  | nil =>
    obtain rfl := Option.some.inj hr
    simpa [effectsOf] using hi
  | cons e es ih =>
    obtain ⟨s', hs, hr'⟩ := run_cons_eq_some.mp hr
    obtain ⟨hinv, htaken⟩ := ih (h.inv hi hm.1 hs) (hm.2 s' hs) hr'
    rw [effectsOf_cons hs]
    constructor
    · cases heffect : effect s e with
      | none => simpa [heffect] using hinv
      | some i => simpa [heffect] using hinv
    · intro i
      rw [htaken, h.taken hi hm.1 hs, List.mem_cons, or_assoc, eq_comm]

/-- At each moment of a run the state goes with the value of that moment. -/
theorem Commits.inv_at (h : Commits step effect apply InProgress Returned Taken P Inv)
    (hi : Inv s x) (hm : Meets step P s es) (hr : InterleavedSystems.run step s es = some t) {n : ℕ}
    {u : σ} (hu : InterleavedSystems.run step s (es.take n) = some u) :
    Inv u (valueAt apply x (effectsOf step effect s es) n) := by
  rw [valueAt, take_effectsOf hr]
  exact (h.run hi (hm.take n) hu).1

theorem Commits.effectOrder (h : Commits step effect apply InProgress Returned Taken P Inv)
    (hi : Inv s x) (hnone : ∀ i, ¬ Taken s i) (hm : Meets step P s es)
    (hr : InterleavedSystems.run step s es = some t) :
    EffectOrder step InProgress Returned s es (effectsOf step effect s es) := by
  have htake : ∀ {p q : ℕ} {i : ι}, p < q → (effectsOf step effect s es)[p]? = some (some i) →
      some i ∈ (effectsOf step effect s es).take q := by
    intro p q i hlt hp
    exact List.mem_of_getElem? ((List.getElem?_take_of_lt hlt).trans hp)
  -- an operation that has taken effect earlier is not the one of a later event
  have honce : ∀ {p q : ℕ} {i : ι}, p < q → (effectsOf step effect s es)[p]? = some (some i) →
      (effectsOf step effect s es)[q]? ≠ some (some i) := by
    intro p q i hlt hp hq
    obtain ⟨u, e, u', hu, he, hs, heffect⟩ := event_of_effect hr hq
    apply (h.within (h.inv_at hi hm hr hu) (hm.of_getElem? hu he) hs heffect).2
    rw [(h.run hi (hm.take q) hu).2, ← take_effectsOf hr]
    exact .inr (htake hlt hp)
  constructor
  · exact length_effectsOf hr
  · intro p i u hp hu
    obtain ⟨v, e, u', hv, he, hs, heffect⟩ := event_of_effect hr hp
    obtain rfl := Option.some.inj (hu.symm.trans hv)
    exact (h.within (h.inv_at hi hm hr hu) (hm.of_getElem? hu he) hs heffect).1
  · intro p q i hp hq
    rcases Nat.lt_trichotomy p q with hlt | heq | hgt
    · exact absurd hq (honce hlt hp)
    · exact heq
    · exact absurd hp (honce hgt hq)
  · intro n i u hu hreturned
    have htaken := h.returned (h.inv_at hi hm hr hu) hreturned
    rw [(h.run hi (hm.take n) hu).2, ← take_effectsOf hr] at htaken
    exact htaken.resolve_left (hnone i)

/-- What an event has brought about was there at a moment before it. -/
theorem exists_moment (Result Sees : σ → Prop)
    (hstep : ∀ s e s', step s e = some s' → Result s' → Result s ∨ Sees s) {s t : σ} {es : List ε}
    (hs : ¬ Result s) (hr : run step s es = some t) (ht : Result t) :
    ∃ n u, run step s (es.take n) = some u ∧ Sees u := by
  induction es generalizing s with
  | nil =>
    obtain rfl := Option.some.inj hr
    exact absurd ht hs
  | cons e es ih =>
    obtain ⟨s', he, hr'⟩ := run_cons_eq_some.mp hr
    by_cases hs' : Result s'
    · exact ⟨0, s, rfl, (hstep s e s' he hs').resolve_left hs⟩
    · obtain ⟨n, u, hu, hsees⟩ := ih hs' hr'
      exact ⟨n + 1, u, run_cons_eq_some.mpr ⟨s', he, hu⟩, hsees⟩

end HCache.LinearizationPoints
