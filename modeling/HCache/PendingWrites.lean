import Mathlib.Data.List.Basic
import Mathlib.Logic.Function.Basic

/-!
# Two copies that are written in turn

Two registers hold copies of one value. Any number of programs write them, each register
at its own moments, and each program has one value that it writes last to both. As long as
programs with writes to make agree on that value, the copies agree whenever nobody writes.
-/
namespace HCache.PendingWrites

variable {β : Type*}

/-- A register on its way to `e`, with the writes that each program still has to make. -/
structure Heading (e : β) (pending : ℕ → List β) (x : β) : Prop where
  last : ∀ i, pending i ≠ [] → (pending i).getLast? = some e
  reached : (∀ i, pending i = []) → x = e

variable {e : β} {pending : ℕ → List β} {x : β} {i : ℕ}

theorem Heading.start (h : Heading e pending x) (hi : pending i = []) {ws : List β}
    (hws : ws.getLast? = some e) :
    Heading e (Function.update pending i ws) x := by
  constructor
  · intro j hj
    rcases eq_or_ne j i with rfl | hne
    · rwa [Function.update_self]
    · rw [Function.update_of_ne hne] at hj ⊢
      exact h.last j hj
  · intro hall
    have hself := hall i
    rw [Function.update_self] at hself
    simp [hself] at hws

private theorem heading_first (hall : ∀ j, pending j = []) {ws : List β}
    (hws : ws.getLast? = some e) :
    Heading e (Function.update pending i ws) x := by
  constructor
  · intro j hj
    rcases eq_or_ne j i with rfl | hne
    · rwa [Function.update_self]
    · rw [Function.update_of_ne hne] at hj
      exact absurd (hall j) hj
  · intro hnone
    have hself := hnone i
    rw [Function.update_self] at hself
    simp [hself] at hws

/-- A program makes its next write, or a step that does not write the register. -/
theorem Heading.advance (h : Heading e pending x) {o : Option β} {ws : List β}
    (hi : pending i = o.toList ++ ws) :
    Heading e (Function.update pending i ws) (o.getD x) := by
  have hlast : ws ≠ [] → ws.getLast? = some e := by
    intro hne
    have hl := h.last i (by simp [hi, hne])
    rwa [hi, List.getLast?_append_of_ne_nil _ hne] at hl
  constructor
  · intro j hj
    rcases eq_or_ne j i with rfl | hne
    · rw [Function.update_self] at hj ⊢
      exact hlast hj
    · rw [Function.update_of_ne hne] at hj ⊢
      exact h.last j hj
  · intro hall
    have hws := hall i
    rw [Function.update_self] at hws
    subst hws
    cases o with
    | none =>
      apply h.reached
      intro j
      rcases eq_or_ne j i with rfl | hne
      · simpa using hi
      · have hj := hall j
        rwa [Function.update_of_ne hne] at hj
    | some v =>
      have hl := h.last i (by simp [hi])
      simpa [hi] using hl

/-- Both copies are on their way to one value, and it is the value of every program that
still has writes to make. -/
def Era (goal : ℕ → Option β) (p q : ℕ → List β) (x y : β) : Prop :=
  ∃ e, (∀ i, p i ≠ [] ∨ q i ≠ [] → goal i = some e) ∧ Heading e p x ∧ Heading e q y

variable {goal : ℕ → Option β} {p q : ℕ → List β} {x y : β} {i : ℕ}

theorem era_of_eq (hp : ∀ j, p j = []) (hq : ∀ j, q j = []) (h : x = y) : Era goal p q x y := by
  refine ⟨y, ?_, ⟨?_, fun _ => h⟩, ⟨?_, fun _ => rfl⟩⟩
  · intro j hj
    simp [hp j, hq j] at hj
  · intro j hj
    exact absurd (hp j) hj
  · intro j hj
    exact absurd (hq j) hj

theorem Era.settled (h : Era goal p q x y) (hp : ∀ j, p j = []) (hq : ∀ j, q j = []) : x = y := by
  obtain ⟨e, -, hx, hy⟩ := h
  rw [hx.reached hp, hy.reached hq]

theorem Era.advance (h : Era goal p q x y) {o o' : Option β} {ps qs : List β}
    (hp : p i = o.toList ++ ps) (hq : q i = o'.toList ++ qs) :
    Era goal (Function.update p i ps) (Function.update q i qs) (o.getD x) (o'.getD y) := by
  obtain ⟨e, hgoal, hx, hy⟩ := h
  refine ⟨e, ?_, hx.advance hp, hy.advance hq⟩
  intro j hj
  apply hgoal
  rcases eq_or_ne j i with rfl | hne
  · simp only [Function.update_self] at hj
    rw [hp, hq]
    rcases hj with hj | hj
    · exact .inl (by simp [hj])
    · exact .inr (by simp [hj])
  · simpa only [Function.update_of_ne hne] using hj

/-- A program starts beside programs that want the same value. -/
theorem Era.start (h : Era goal p q x y) (hp : p i = []) (hq : q i = []) {ps qs : List β} {e : β}
    (hgoal : goal i = some e) (hps : ps.getLast? = some e) (hqs : qs.getLast? = some e)
    (hsame : ∀ j e', p j ≠ [] ∨ q j ≠ [] → goal j = some e' → e' = e) :
    Era goal (Function.update p i ps) (Function.update q i qs) x y := by
  obtain ⟨e', hgoals, hx, hy⟩ := h
  by_cases hbusy : ∃ j, p j ≠ [] ∨ q j ≠ []
  · obtain ⟨j, hj⟩ := hbusy
    obtain rfl := hsame j e' hj (hgoals j hj)
    refine ⟨e', ?_, hx.start hp hps, hy.start hq hqs⟩
    intro k hk
    rcases eq_or_ne k i with rfl | hne
    · exact hgoal
    · simp only [Function.update_of_ne hne] at hk
      exact hgoals k hk
  · have hidle : ∀ j, p j = [] ∧ q j = [] := by
      intro j
      by_contra hj
      exact hbusy ⟨j, by simpa only [ne_eq, ← not_and_or] using hj⟩
    refine ⟨e, ?_, heading_first (fun j => (hidle j).1) hps,
      heading_first (fun j => (hidle j).2) hqs⟩
    intro k hk
    rcases eq_or_ne k i with rfl | hne
    · exact hgoal
    · simp [Function.update_of_ne hne, hidle k] at hk

end HCache.PendingWrites
