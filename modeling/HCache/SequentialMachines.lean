import Mathlib.Data.List.Forall2
import Mathlib.Logic.Basic

/-!
# Deterministic machines run on finite operation sequences

A machine is a step function; a run folds it over a list of operations. States are
observed after every prefix. A property that each step either keeps or loses,
depending on the step alone, holds after every prefix exactly when no step loses it. A loop
repeats one step while its guard holds.
-/
namespace HCache.SequentialMachines

universe u

variable {σ τ α β ρ ρ' : Type*}

/-- `P` holds of each operation together with the state it is executed in. -/
def AllSteps (step : σ → α → σ) (P : σ → α → Prop) : σ → List α → Prop
  | _, [] => True
  | s, a :: as => P s a ∧ AllSteps step P (step s a) as

/-- `P` holds of the state before each operation and of the last state. -/
def AllStates (step : σ → α → σ) (P : σ → Prop) : σ → List α → Prop
  | s, [] => P s
  | s, a :: as => P s ∧ AllStates step P (step s a) as

private theorem allStates_iff_prefix {step : σ → α → σ} {P : σ → Prop} {s : σ} {as : List α} :
    AllStates step P s as ↔ ∀ p, p <+: as → P (p.foldl step s) := by
  induction as generalizing s with
  | nil =>
    constructor
    · intro h p hp
      rw [List.prefix_nil.mp hp]
      exact h
    · intro h
      exact h [] List.nil_prefix
  | cons a as ih =>
    constructor
    · intro h p hp
      rcases List.prefix_cons_iff.mp hp with rfl | ⟨q, rfl, hq⟩
      · exact h.1
      · exact ih.mp h.2 q hq
    · intro h
      refine ⟨h [] List.nil_prefix, ih.mpr ?_⟩
      intro p hp
      exact h (a :: p) (List.prefix_cons_iff.mpr (.inr ⟨p, rfl, hp⟩))

theorem AllStates.last {step : σ → α → σ} {P : σ → Prop} {s : σ} {as : List α}
    (h : AllStates step P s as) : P (as.foldl step s) :=
  allStates_iff_prefix.mp h as List.prefix_rfl

theorem AllSteps.imp {step : σ → α → σ} {P Q : σ → α → Prop} {Inv : σ → Prop} {s : σ} {as : List α}
    (hi : AllStates step Inv s as) (hpq : ∀ s a, Inv s → P s a → Q s a)
    (h : AllSteps step P s as) : AllSteps step Q s as := by
  induction as generalizing s with
  | nil => trivial
  | cons a as ih => exact ⟨hpq s a hi.1 h.1, ih hi.2 h.2⟩

/-- An operation-wise condition that ignores the state is a condition on the list. -/
theorem allSteps_const {step : σ → α → σ} {P : α → Prop} {s : σ} {as : List α} :
    AllSteps step (fun _ a => P a) s as ↔ ∀ a ∈ as, P a := by
  induction as generalizing s with
  | nil => simp [AllSteps]
  | cons a as ih => simp [AllSteps, ih]

/-- Two properties of steps that agree while an invariant holds, where the steps with one of
them keep the invariant, hold along the same runs. -/
theorem allSteps_iff_allSteps {step : σ → α → σ} (Inv : σ → Prop) {P Q : σ → α → Prop}
    (hiff : ∀ s a, Inv s → (P s a ↔ Q s a)) (hstep : ∀ s a, Inv s → Q s a → Inv (step s a))
    {s : σ} (hs : Inv s) {as : List α} : AllSteps step P s as ↔ AllSteps step Q s as := by
  induction as generalizing s with
  | nil => exact Iff.rfl
  | cons a as ih =>
    have ha := hiff s a hs
    constructor
    · intro h
      have hq := ha.mp h.1
      exact ⟨hq, (ih (hstep s a hs hq)).mp h.2⟩
    · intro h
      exact ⟨ha.mpr h.1, (ih (hstep s a hs h.1)).mpr h.2⟩

/-- A computation that goes through in two parts. -/
theorem bind_eq_ok {ε : Type*} {α β : Type u} {x : Except ε α} {f : α → Except ε β} {b : β} :
    (x >>= f) = .ok b ↔ ∃ a, x = .ok a ∧ f a = .ok b := by
  cases x with
  | error err => simp [bind, Except.bind]
  | ok a => simp [bind, Except.bind]

/-- A map over a list goes through when it does at every element. -/
theorem mapM_ok_iff {ε : Type*} {β : Type u} {f : α → Except ε β} {l : List α} :
    (∃ bs, l.mapM f = .ok bs) ↔ ∀ a ∈ l, ∃ b, f a = .ok b := by
  induction l with
  | nil => simp [pure, Except.pure]
  | cons a l ih =>
    rw [List.forall_mem_cons, ← ih]
    simp only [List.mapM_cons, bind_eq_ok]
    constructor
    · rintro ⟨-, b, hb, bs, hbs, -⟩
      exact ⟨⟨b, hb⟩, bs, hbs⟩
    · rintro ⟨⟨b, hb⟩, bs, hbs⟩
      exact ⟨b :: bs, b, hb, bs, hbs, rfl⟩

theorem foldl_invariant {step : σ → α → σ} (Inv : σ → Prop)
    (hstep : ∀ s a, Inv s → Inv (step s a)) {s : σ} (hs : Inv s) (as : List α) :
    Inv (as.foldl step s) := by
  induction as generalizing s with
  | nil => exact hs
  | cons a as ih => exact ih (hstep s a hs)

/-- The same for a step that may fail, when the whole fold succeeds. -/
theorem foldlM_invariant {ε : Type*} {step : σ → α → Except ε σ} (Inv : σ → Prop)
    (hstep : ∀ s a s', Inv s → step s a = .ok s' → Inv s') {s t : σ} {as : List α} (hs : Inv s)
    (ht : as.foldlM step s = .ok t) : Inv t := by
  induction as generalizing s with
  | nil =>
    obtain rfl := Except.ok.inj ht
    exact hs
  | cons a as ih =>
    rw [List.foldlM_cons] at ht
    obtain ⟨s', ha, ht'⟩ := bind_eq_ok.mp ht
    exact ih (hstep s a s' hs ha) ht'

/-- The exactness rule. `Aux` always holds; from a state with `Inv`, a step leads to a
state with `Inv` exactly when it is `Good`. Then `Inv` holds along a run exactly when
every step of the run is `Good`. -/
theorem allStates_iff_allSteps {step : σ → α → σ} (Aux Inv : σ → Prop) (P Good : σ → α → Prop)
    (haux : ∀ s a, Aux s → P s a → Aux (step s a))
    (hexact : ∀ s a, Aux s → Inv s → P s a → (Inv (step s a) ↔ Good s a))
    {s : σ} (hs : Aux s) (hi : Inv s) {as : List α} (hp : AllSteps step P s as) :
    AllStates step Inv s as ↔ AllSteps step Good s as := by
  induction as generalizing s with
  | nil => simpa [AllStates, AllSteps] using hi
  | cons a as ih =>
    have hgood := hexact s a hs hi hp.1
    constructor
    · intro h
      have hnext : Inv (step s a) := by
        cases as with
        | nil => exact h.2
        | cons b bs => exact h.2.1
      exact ⟨hgood.mp hnext, (ih (haux s a hs hp.1) hnext hp.2).mp h.2⟩
    · intro h
      have hnext := hgood.mpr h.1
      exact ⟨hi, (ih (haux s a hs hp.1) hnext hp.2).mpr h.2⟩

/-- A loop that repeats `body` while `guard` holds, from one state to the one it exits in. -/
inductive Exits (guard : σ → Prop) (body : σ → σ) : σ → σ → Prop
  | stop {s} (h : ¬guard s) : Exits guard body s s
  | next {s t} (h : guard s) (hrest : Exits guard body (body s) t) : Exits guard body s t

variable {guard : σ → Prop} {body : σ → σ} {s t : σ}

theorem exits_iff_of_guard (h : guard s) : Exits guard body s t ↔ Exits guard body (body s) t := by
  constructor
  · intro hexit
    cases hexit with
    | stop hg => exact absurd h hg
    | next _ hrest => exact hrest
  · exact .next h

theorem Exits.invariant (Inv : σ → Prop) (hbody : ∀ s, Inv s → Inv (body s))
    (hexit : Exits guard body s t) (h : Inv s) : Inv t := by
  induction hexit with
  | stop _ => exact h
  | next _ _ ih => exact ih (hbody _ h)

/-- A loop never exits from states in which the guard holds and which the body keeps. -/
theorem not_exits_of_trap (Trap : σ → Prop) (htrap : ∀ s, Trap s → guard s ∧ Trap (body s))
    (h : Trap s) :
    ¬Exits guard body s t := by
  intro hexit
  induction hexit with
  | stop hg => exact hg (htrap _ h).1
  | next _ _ ih => exact ih (htrap _ h).2

/-- The responses of a machine to a sequence of operations. -/
def responses (m : σ → α → σ × ρ) : σ → List α → List ρ
  | _, [] => []
  | s, a :: as => (m s a).2 :: responses m (m s a).1 as

/-- The state of a machine after a sequence of operations. -/
def final (m : σ → α → σ × ρ) (s : σ) (as : List α) : σ :=
  as.foldl (fun s a => (m s a).1) s

@[simp] theorem final_nil (m : σ → α → σ × ρ) (s : σ) : final m s [] = s := rfl

@[simp] theorem final_cons (m : σ → α → σ × ρ) (s : σ) (a : α) (as : List α) :
    final m s (a :: as) = final m (m s a).1 as := rfl

theorem final_append (m : σ → α → σ × ρ) (s : σ) (as bs : List α) :
    final m s (as ++ bs) = final m (final m s as) bs := by
  simp [final]

theorem responses_append (m : σ → α → σ × ρ) (s : σ) (as bs : List α) :
    responses m s (as ++ bs) = responses m s as ++ responses m (final m s as) bs := by
  induction as generalizing s with
  | nil => rfl
  | cons a as ih => simp [responses, ih]

theorem responses_map (m : σ → α → σ × ρ) (f : β → α) (s : σ) (bs : List β) :
    responses (fun s b => m s (f b)) s bs = responses m s (bs.map f) := by
  induction bs generalizing s with
  | nil => rfl
  | cons b bs ih => simp [responses, ih]

theorem final_map (m : σ → α → σ × ρ) (f : β → α) (s : σ) (bs : List β) :
    final (fun s b => m s (f b)) s bs = final m s (bs.map f) := by
  simp [final, List.foldl_map]

@[simp] theorem length_responses (m : σ → α → σ × ρ) (s : σ) (as : List α) :
    (responses m s as).length = as.length := by
  induction as generalizing s with
  | nil => rfl
  | cons a as ih => simp [responses, ih]

/-- `m` simulates `n` along `R`: each operation keeps `R` and gives `E`-related responses. -/
structure Simulates (m : σ → α → σ × ρ) (n : τ → α → τ × ρ') (P : α → Prop)
    (R : σ → τ → Prop) (E : ρ → ρ' → Prop) : Prop where
  state : ∀ s t a, R s t → P a → R (m s a).1 (n t a).1
  response : ∀ s t a, R s t → P a → E (m s a).2 (n t a).2

variable {m : σ → α → σ × ρ} {n : τ → α → τ × ρ'} {P : α → Prop}
  {R : σ → τ → Prop} {E : ρ → ρ' → Prop}

theorem Simulates.final (h : Simulates m n P R E) {s : σ} {t : τ} (hr : R s t) {as : List α}
    (hp : ∀ a ∈ as, P a) : R (final m s as) (final n t as) := by
  induction as generalizing s t with
  | nil => exact hr
  | cons a as ih =>
    have ha := hp a (by simp)
    exact ih (h.state s t a hr ha) (fun b hb => hp b (by simp [hb]))

theorem Simulates.responses (h : Simulates m n P R E) {s : σ} {t : τ} (hr : R s t) {as : List α}
    (hp : ∀ a ∈ as, P a) : List.Forall₂ E (responses m s as) (responses n t as) := by
  induction as generalizing s t with
  | nil => exact .nil
  | cons a as ih =>
    have ha := hp a (by simp)
    exact .cons (h.response s t a hr ha)
      (ih (h.state s t a hr ha) (fun b hb => hp b (by simp [hb])))

end HCache.SequentialMachines
