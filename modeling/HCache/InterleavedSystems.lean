import Mathlib.Data.List.Basic
import Mathlib.Logic.Function.Basic

/-!
# Interleaved systems

A system takes one event at a time; an event may be disabled, and then there is no next
state. A run is a list of events that are enabled one after another, so the interleavings
of concurrent activities are the runs over their events.
-/
namespace HCache.InterleavedSystems

variable {σ ε : Type*} {step : σ → ε → Option σ}

/-- The state after a list of events, if each of them is enabled in its turn. -/
def run (step : σ → ε → Option σ) : σ → List ε → Option σ
  | s, [] => some s
  | s, e :: es => (step s e).bind (fun s' => run step s' es)

@[simp] theorem run_nil (s : σ) : run step s [] = some s := rfl

theorem run_cons_eq_some {s t : σ} {e : ε} {es : List ε} :
    run step s (e :: es) = some t ↔ ∃ s', step s e = some s' ∧ run step s' es = some t := by
  simp [run, Option.bind_eq_some_iff]

theorem run_singleton {s t : σ} {e : ε} : run step s [e] = some t ↔ step s e = some t := by
  simp [run]

theorem run_append_eq_some {s t : σ} {es es' : List ε} :
    run step s (es ++ es') = some t ↔ ∃ s', run step s es = some s' ∧ run step s' es' = some t := by
  induction es generalizing s with
  | nil => simp
  | cons e es ih =>
    simp only [List.cons_append, run_cons_eq_some, ih]
    constructor
    · rintro ⟨s₁, he, s', hs', ht⟩
      exact ⟨s', ⟨s₁, he, hs'⟩, ht⟩
    · rintro ⟨s', ⟨s₁, he, hs'⟩, ht⟩
      exact ⟨s₁, he, s', hs', ht⟩

theorem run_take_succ {s u : σ} {es : List ε} {n : ℕ} (h : run step s (es.take (n + 1)) = some u) :
    (es[n]? = none ∧ run step s (es.take n) = some u) ∨
      ∃ v e, es[n]? = some e ∧ run step s (es.take n) = some v ∧ step v e = some u := by
  rw [List.take_add_one] at h
  cases he : es[n]? with
  | none => exact .inl ⟨rfl, by simpa [he] using h⟩
  | some e =>
    rw [he, Option.toList_some, run_append_eq_some] at h
    obtain ⟨v, hv, hu⟩ := h
    obtain ⟨u', hs, hu'⟩ := run_cons_eq_some.mp hu
    obtain rfl := Option.some.inj hu'
    exact .inr ⟨v, e, rfl, hv, hs⟩

/-- What the runs of one system can do, the runs of a system that simulates it can do. -/
theorem run_of_simulates {τ α : Type*} {abs : τ → α → Option τ} (R : σ → τ → Prop) (f : α → ε)
    (hstep : ∀ s x a x', R s x → abs x a = some x' → ∃ s', step s (f a) = some s' ∧ R s' x')
    {s : σ} {x x' : τ} {as : List α} (hr : R s x) (ha : run abs x as = some x') :
    ∃ s', run step s (as.map f) = some s' ∧ R s' x' := by
  induction as generalizing s x with
  | nil =>
    obtain rfl := Option.some.inj ha
    exact ⟨s, rfl, hr⟩
  | cons a as ih =>
    obtain ⟨x₁, hx, ha'⟩ := run_cons_eq_some.mp ha
    obtain ⟨s₁, hs, hr₁⟩ := hstep s x a x₁ hr hx
    obtain ⟨s', hs', hr'⟩ := ih hr₁ ha'
    exact ⟨s', run_cons_eq_some.mpr ⟨s₁, hs, hs'⟩, hr'⟩

/-- A system whose steps another one matches, each by some steps of its own, is refined by it:
what relates their states is kept along every run, in which the states of the other one come
after one another. -/
theorem run_of_matches {τ α : Type*} {abs : τ → α → Option τ} (R : σ → τ → Prop)
    (hstep : ∀ s x e s', R s x → step s e = some s' → ∃ as x', run abs x as = some x' ∧ R s' x')
    {s t : σ} {x : τ} {es : List ε} (hr : R s x) (ht : run step s es = some t) :
    ∃ xs : ℕ → τ, xs 0 = x ∧ (∀ i, ∃ as, run abs (xs i) as = some (xs (i + 1))) ∧
      ∀ i u, run step s (es.take i) = some u → R u (xs i) := by
  induction es generalizing s x with
  | nil =>
    refine ⟨fun _ => x, rfl, fun _ => ⟨[], rfl⟩, fun i u hu => ?_⟩
    rw [List.take_nil] at hu
    obtain rfl := Option.some.inj hu
    exact hr
  | cons e es ih =>
    obtain ⟨s', hs, ht'⟩ := run_cons_eq_some.mp ht
    obtain ⟨as, x₁, hx₁, hr₁⟩ := hstep s x e s' hr hs
    obtain ⟨xs, rfl, habs, hrel⟩ := ih hr₁ ht'
    refine ⟨fun i => i.casesOn x xs, rfl, fun i => ?_, fun i u hu => ?_⟩
    · cases i with
      | zero => exact ⟨as, hx₁⟩
      | succ i => exact habs i
    · cases i with
      | zero =>
        obtain rfl := Option.some.inj hu
        exact hr
      | succ i =>
        obtain ⟨s'', hs', hu'⟩ := run_cons_eq_some.mp hu
        obtain rfl := Option.some.inj (hs.symm.trans hs')
        exact hrel i u hu'

/-- An invariant of the steps holds along states that come after one another. -/
theorem invariant_of_chain {τ α : Type*} {abs : τ → α → Option τ} {xs : ℕ → τ} (Inv : τ → Prop)
    (habs : ∀ i, ∃ as, run abs (xs i) as = some (xs (i + 1))) {i j : ℕ}
    (hrun : ∀ x x' as, Inv x → run abs x as = some x' → Inv x') (hi : Inv (xs i)) (hij : i ≤ j) :
    Inv (xs j) := by
  induction hij with
  | refl => exact hi
  | step _ ih =>
    obtain ⟨as, hs⟩ := habs _
    exact hrun _ _ as ih hs

/-- What relates the states of a system to those of a machine that reads the same events. -/
theorem run_related {τ : Type*} {abs : τ → ε → τ} (R : σ → τ → Prop) {P : ε → Prop}
    (hstep : ∀ s x e s', R s x → P e → step s e = some s' → R s' (abs x e)) {s t : σ} {x : τ}
    {es : List ε} (hr : R s x) (hp : ∀ e ∈ es, P e) (ht : run step s es = some t) :
    R t (es.foldl abs x) := by
  induction es generalizing s x with
  | nil =>
    obtain rfl := Option.some.inj ht
    exact hr
  | cons e es ih =>
    obtain ⟨s', hs, ht'⟩ := run_cons_eq_some.mp ht
    exact ih (hstep s x e s' hr (hp e (by simp)) hs) (fun e' he' => hp e' (by simp [he'])) ht'

/-- `P` holds of each event together with the state in which it is taken. -/
def Meets (step : σ → ε → Option σ) (P : σ → ε → Prop) : σ → List ε → Prop
  | _, [] => True
  | s, e :: es => P s e ∧ ∀ s', step s e = some s' → Meets step P s' es

theorem Meets.take {P : σ → ε → Prop} {s : σ} {es : List ε} (h : Meets step P s es) (n : ℕ) :
    Meets step P s (es.take n) := by
  induction es generalizing s n with
  | nil =>
    rw [List.take_nil]
    trivial
  | cons e es ih =>
    cases n with
    | zero => trivial
    | succ n => exact ⟨h.1, fun s' hs => ih (h.2 s' hs) n⟩

theorem Meets.of_getElem? {P : σ → ε → Prop} {s u : σ} {es : List ε} {e : ε} {n : ℕ}
    (h : Meets step P s es) (hu : run step s (es.take n) = some u) (he : es[n]? = some e) :
    P u e := by
  induction es generalizing s n with
  | nil => simp at he
  | cons a es ih =>
    cases n with
    | zero =>
      obtain rfl := Option.some.inj hu
      obtain rfl : a = e := by simpa using he
      exact h.1
    | succ n =>
      obtain ⟨s', hs, hu'⟩ := run_cons_eq_some.mp hu
      exact ih (h.2 s' hs) hu' (by simpa using he)

theorem meets_const {P : ε → Prop} {s : σ} {es : List ε} (h : ∀ e ∈ es, P e) :
    Meets step (fun _ e => P e) s es := by
  induction es generalizing s with
  | nil => trivial
  | cons e es ih => exact ⟨h e (by simp), fun s' _ => ih (fun e' he' => h e' (by simp [he']))⟩

private theorem meets_const_iff {P : ε → Prop} {s t : σ} {es : List ε}
    (hr : run step s es = some t) :
    Meets step (fun _ e => P e) s es ↔ ∀ e ∈ es, P e := by
  constructor
  · intro hm
    induction es generalizing s with
    | nil => simp
    | cons e es ih =>
      obtain ⟨s', he, hr'⟩ := run_cons_eq_some.mp hr
      intro e' he'
      rcases List.mem_cons.mp he' with rfl | htail
      · exact hm.1
      · exact ih hr' (hm.2 s' he) e' htail
  · exact meets_const

theorem not_mem_iff_meets {e : ε} {s t : σ} {es : List ε} (hr : run step s es = some t) :
    e ∉ es ↔ Meets step (fun _ e' => e' ≠ e) s es := by
  rw [meets_const_iff hr]
  constructor
  · intro hnot e' he' heq
    exact hnot (heq ▸ he')
  · intro hall hin
    exact hall e hin rfl

/-- The run rule: what every allowed event preserves holds at the end of a run of them. -/
theorem run_invariant (Inv : σ → Prop) {P : σ → ε → Prop}
    (hstep : ∀ s e s', Inv s → P s e → step s e = some s' → Inv s') {s t : σ} {es : List ε}
    (hs : Inv s) (hm : Meets step P s es) (hr : run step s es = some t) : Inv t := by
  induction es generalizing s with
  | nil =>
    obtain rfl := Option.some.inj hr
    exact hs
  | cons e es ih =>
    obtain ⟨s', he, hr'⟩ := run_cons_eq_some.mp hr
    exact ih (hstep s e s' hs hm.1 he) (hm.2 s' he) hr'

/-- The same for an invariant of every event. -/
theorem run_invariant_of_step (Inv : σ → Prop)
    (hstep : ∀ s e s', Inv s → step s e = some s' → Inv s') {s t : σ} {es : List ε} (hs : Inv s)
    (hr : run step s es = some t) : Inv t := by
  have hm : Meets step (fun _ _ => True) s es := meets_const (fun _ _ => trivial)
  exact run_invariant Inv (fun s e s' hi _ => hstep s e s' hi) hs hm hr

theorem meets_of_forall {P : σ → ε → Prop} (h : ∀ s e, P s e) (s : σ) (es : List ε) :
    Meets step P s es := by
  induction es generalizing s with
  | nil => trivial
  | cons e es ih => exact ⟨h s e, fun s' _ => ih s'⟩

/-- The exactness rule for damage that is never undone. `Aux` always holds, and an event
keeps `Inv` exactly when it is `Good`; then `Inv` holds at the end of a run exactly when it
held at the start and every event of the run is `Good`. -/
theorem run_exact (Aux Inv : σ → Prop) (Good : σ → ε → Prop)
    (haux : ∀ s e s', Aux s → step s e = some s' → Aux s')
    (hexact : ∀ s e s', Aux s → step s e = some s' → (Inv s' ↔ Inv s ∧ Good s e))
    {s t : σ} {es : List ε} (hs : Aux s) (hr : run step s es = some t) :
    Inv t ↔ Inv s ∧ Meets step Good s es := by
  induction es generalizing s with
  | nil =>
    obtain rfl := Option.some.inj hr
    simp [Meets]
  | cons e es ih =>
    obtain ⟨s', he, hr'⟩ := run_cons_eq_some.mp hr
    rw [ih (haux s e s' hs he) hr', hexact s e s' hs he]
    constructor
    · rintro ⟨⟨hi, hg⟩, hm⟩
      refine ⟨hi, hg, ?_⟩
      intro s'' he'
      obtain rfl := Option.some.inj (he.symm.trans he')
      exact hm
    · rintro ⟨hi, hg, hm⟩
      exact ⟨⟨hi, hg⟩, hm s' he⟩

/-- The exactness rule for damage that a later event may repair: where `Aux` always holds and
an event leads from `Inv` to `Inv` exactly when it is `Good`, `Inv` holds in every state of
a run exactly when every event of the run is `Good`. -/
theorem always_iff_meets (Aux Inv : σ → Prop) (Good : σ → ε → Prop)
    (haux : ∀ s e s', Aux s → step s e = some s' → Aux s')
    (hexact : ∀ s e s', Aux s → Inv s → step s e = some s' → (Inv s' ↔ Good s e))
    {s t : σ} {es : List ε} (hs : Aux s) (hi : Inv s) (hr : run step s es = some t) :
    (∀ p u, p <+: es → run step s p = some u → Inv u) ↔ Meets step Good s es := by
  induction es generalizing s with
  | nil =>
    simp only [Meets, iff_true]
    intro p u hp hu
    rw [List.prefix_nil.mp hp] at hu
    exact Option.some.inj hu ▸ hi
  | cons e es ih =>
    obtain ⟨s', he, hr'⟩ := run_cons_eq_some.mp hr
    have hgood := hexact s e s' hs hi he
    constructor
    · intro hall
      have hi' : Inv s' := hall [e] s' (List.prefix_cons_iff.mpr (.inr ⟨[], rfl, List.nil_prefix⟩))
        (run_cons_eq_some.mpr ⟨s', he, rfl⟩)
      refine ⟨hgood.mp hi', ?_⟩
      intro s'' he'
      obtain rfl := Option.some.inj (he.symm.trans he')
      refine (ih (haux s e s' hs he) hi' hr').mp ?_
      intro p u hp hu
      exact hall (e :: p) u (List.prefix_cons_iff.mpr (.inr ⟨p, rfl, hp⟩))
        (run_cons_eq_some.mpr ⟨s', he, hu⟩)
    · rintro ⟨hg, hm⟩ p u hp hu
      rcases List.prefix_cons_iff.mp hp with rfl | ⟨q, rfl, hq⟩
      · exact Option.some.inj hu ▸ hi
      · obtain ⟨s'', he', hu'⟩ := run_cons_eq_some.mp hu
        obtain rfl := Option.some.inj (he.symm.trans he')
        exact (ih (haux s e s' hs he) (hgood.mpr hg) hr').mpr (hm s' he) q u hq hu'

variable {κ π : Type*} [DecidableEq κ] {parties : κ → Option π} {i j : κ} {p q : π}

/-- A party after one has moved is the one that has moved or was there before. -/
theorem update_eq_some_cases (h : Function.update parties i (some p) j = some q) :
    (j = i ∧ q = p) ∨ (j ≠ i ∧ parties j = some q) := by
  rcases eq_or_ne j i with rfl | hne
  · rw [Function.update_self] at h
    exact .inl ⟨rfl, (Option.some.inj h).symm⟩
  · rw [Function.update_of_ne hne] at h
    exact .inr ⟨hne, h⟩

/-- What holds of every party keeps doing so when it holds of the one that moves. -/
theorem forall_update_some {P : κ → π → Prop} (h : ∀ j q, parties j = some q → P j q) (hp : P i p) :
    ∀ j q, Function.update parties i (some p) j = some q → P j q := by
  intro j q hq
  rcases update_eq_some_cases hq with ⟨rfl, rfl⟩ | ⟨-, hold⟩
  · exact hp
  · exact h j q hold

/-- A list of calls in which no two conflict, by their places. -/
theorem pairwise_iff_of_ne {R : π → π → Prop} (hsymm : ∀ a b, R a b → R b a) {calls : List π} :
    calls.Pairwise R ↔ ∀ (i j : ℕ) a b, calls[i]? = some a → calls[j]? = some b →
    i ≠ j → R a b := by
  rw [List.pairwise_iff_getElem]
  constructor
  · intro h i j a b hi hj hne
    obtain ⟨hilt, rfl⟩ := List.getElem?_eq_some_iff.mp hi
    obtain ⟨hjlt, rfl⟩ := List.getElem?_eq_some_iff.mp hj
    rcases Nat.lt_or_gt_of_ne hne with hij | hji
    · exact h i j hilt hjlt hij
    · exact hsymm _ _ (h j i hjlt hilt hji)
  · intro h i j hi hj hij
    exact h i j _ _ (List.getElem?_eq_getElem hi) (List.getElem?_eq_getElem hj) (Nat.ne_of_lt hij)

end HCache.InterleavedSystems
