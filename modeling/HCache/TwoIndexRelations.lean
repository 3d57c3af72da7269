import HCache.OrderedMaps
import Mathlib.Data.Set.Insert
import Mathlib.Logic.Function.Basic

/-!
# Partial maps stored as two indexes

A finite relation from values to scores is kept twice: as a map from values to scores
and as buckets of values, one for each score. `level m s` is the bucket that the partial
map `m` prescribes for `s`. The lemmas say which bucket edits keep the second index in
step when the first one is changed.
-/
namespace HCache.TwoIndexRelations
open Std OrderedMaps

variable {V S : Type*}

/-- The values that a partial map sends to `s`. -/
def level (m : V → Option S) (s : S) : Set V := {v | m v = some s}

@[simp] theorem mem_level {m : V → Option S} {s : S} {v : V} : v ∈ level m s ↔ m v = some s :=
  Iff.rfl

/-- Add `v` to the bucket of `s`. -/
def enter (b : S → Set V) (s : S) (v : V) : S → Set V := fun t => {w | (w = v ∧ t = s) ∨ w ∈ b t}

/-- Take `v` out of the bucket of `s`. -/
def leave (b : S → Set V) (s : S) (v : V) : S → Set V := fun t => {w | w ∈ b t ∧ ¬(w = v ∧ t = s)}

@[simp] theorem mem_enter {b : S → Set V} {s t : S} {v w : V} :
    w ∈ enter b s v t ↔ (w = v ∧ t = s) ∨ w ∈ b t := Iff.rfl

@[simp] theorem mem_leave {b : S → Set V} {s t : S} {v w : V} :
    w ∈ leave b s v t ↔ w ∈ b t ∧ ¬(w = v ∧ t = s) := Iff.rfl

section Edits
variable [DecidableEq V]

def put (m : V → Option S) (v : V) (s : S) : V → Option S := Function.update m v (some s)

def drop (m : V → Option S) (v : V) : V → Option S := Function.update m v none

@[simp] theorem put_self (m : V → Option S) (v : V) (s : S) : put m v s v = some s := by
  simp [put]

theorem put_of_ne {m : V → Option S} {v w : V} {s : S} (h : w ≠ v) : put m v s w = m w := by
  simp [put, h]

@[simp] theorem drop_self (m : V → Option S) (v : V) : drop m v v = none := by
  simp [drop]

theorem drop_of_ne {m : V → Option S} {v w : V} (h : w ≠ v) : drop m v w = m w := by
  simp [drop, h]

theorem put_eq_self {m : V → Option S} {v : V} {s : S} (h : m v = some s) : put m v s = m := by
  rw [put, ← h]
  exact Function.update_eq_self v m

theorem drop_eq_self {m : V → Option S} {v : V} (h : m v = none) : drop m v = m := by
  rw [drop, ← h]
  exact Function.update_eq_self v m

/-- A value that is in no bucket only has to enter its new one. -/
theorem level_put_new {m : V → Option S} {v : V} (s : S) (h : m v = none) :
    level (put m v s) = enter (level m) s v := by
  funext t
  ext w
  by_cases hw : w = v
  · subst hw
    simp [h, eq_comm]
  · simp [put_of_ne hw, hw]

/-- A value that can only be in the bucket of `old` leaves that one and enters its new one. -/
theorem level_put_moved {m : V → Option S} {v : V} {old : S} (s : S)
    (h : ∀ t, m v = some t → t = old) :
    level (put m v s) = enter (leave (level m) old v) s v := by
  funext t
  ext w
  by_cases hw : w = v
  · subst hw
    have hold : ¬(m w = some t ∧ t ≠ old) := fun ht => ht.2 (h t ht.1)
    simp only [mem_level, put_self, Option.some.injEq, mem_enter, mem_leave, true_and]
    constructor
    · intro hs
      exact .inl hs.symm
    · rintro (hs | ht)
      · exact hs.symm
      · exact absurd ht hold
  · simp [put_of_ne hw, hw]

/-- A value that can only be in the bucket of `old` only has to leave that one. -/
theorem level_drop {m : V → Option S} {v : V} {old : S} (h : ∀ t, m v = some t → t = old) :
    level (drop m v) = leave (level m) old v := by
  funext t
  ext w
  by_cases hw : w = v
  · subst hw
    have hold : ¬(m w = some t ∧ t ≠ old) := fun ht => ht.2 (h t ht.1)
    simpa using hold
  · simp [drop_of_ne hw, hw]

end Edits

section Lookups
variable [DecidableEq V] [Ord V] [TransOrd V] [LawfulEqOrd V]

theorem lookup_insert_eq_put (m : ExtTreeMap V S) (v : V) (s : S) :
    (fun w => (m.insert v s)[w]?) = put (fun w => m[w]?) v s := by
  funext w
  by_cases hw : w = v
  · simp [hw]
  · simp [put_of_ne hw, lookup_insert, Ne.symm hw]

theorem lookup_erase_eq_drop (m : ExtTreeMap V S) (v : V) :
    (fun w => (m.erase v)[w]?) = drop (fun w => m[w]?) v := by
  funext w
  by_cases hw : w = v
  · simp [hw]
  · simp [drop_of_ne hw, lookup_erase, Ne.symm hw]

end Lookups

variable [Ord S] [TransOrd S]

/-- The bucket of a score in an ordered map of buckets; absent buckets are empty. -/
def bucketOf (b : ExtTreeMap S (Finset V)) (s : S) : Set V := {v | ∃ vs, b[s]? = some vs ∧ v ∈ vs}

theorem mem_bucketOf {b : ExtTreeMap S (Finset V)} {s : S} {v : V} :
    v ∈ bucketOf b s ↔ ∃ vs, b[s]? = some vs ∧ v ∈ vs := Iff.rfl

theorem bucketOf_of_getElem? {b : ExtTreeMap S (Finset V)} {s : S} {vs : Finset V}
    (h : b[s]? = some vs) : bucketOf b s = vs := by
  ext v
  simp [mem_bucketOf, h]

/-- A range scan meets a value in the bucket of `s` exactly when the bucket is in range. -/
theorem mem_range_bucket [LawfulEqOrd S] {b : ExtTreeMap S (Finset V)} {lo hi s : S} {v : V} :
    (∃ vs, (s, vs) ∈ rangeEntries b lo hi ∧ v ∈ vs) ↔
      v ∈ bucketOf b s ∧ (compare lo s).isLE ∧ (compare s hi).isLE := by
  simp only [mem_rangeEntries, mem_bucketOf]
  constructor
  · rintro ⟨vs, ⟨hget, hrange⟩, hv⟩
    exact ⟨⟨vs, hget, hv⟩, hrange⟩
  · rintro ⟨⟨vs, hget, hv⟩, hrange⟩
    exact ⟨vs, ⟨hget, hrange⟩, hv⟩

end HCache.TwoIndexRelations
