import HCache.OrderedMaps
import Mathlib.Logic.Function.Basic

/-!
# Maps that hold the last writes

A partial record of the last write to each key, where a write leaves a value or nothing. A
map agrees with it when it holds, under every written key, what the last write has left.
Writes that are recorded keep the agreement; one that is not keeps it only by repeating.
-/
namespace HCache.LastWrites
open Std OrderedMaps

variable {κ β : Type*} [Ord κ] [TransOrd κ] [LawfulEqOrd κ] [DecidableEq κ]

/-- The map holds what the last write to each written key has left. -/
def Agrees (last : κ → Option (Option β)) (m : ExtTreeMap κ β) : Prop :=
  ∀ k entry, last k = some entry → m[k]? = entry

/-- Record a write that leaves `entry`. -/
def record (last : κ → Option (Option β)) (k : κ) (entry : Option β) : κ → Option (Option β) :=
  Function.update last k (some entry)

variable {last : κ → Option (Option β)} {m : ExtTreeMap κ β}

theorem Agrees.insert (h : Agrees last m) (k : κ) (v : β) :
    Agrees (record last k (some v)) (m.insert k v) := by
  intro k' entry he
  rw [lookup_insert]
  rcases eq_or_ne k' k with rfl | hne
  · rw [record, Function.update_self] at he
    rw [if_pos rfl]
    exact Option.some.inj he
  · rw [record, Function.update_of_ne hne] at he
    rw [if_neg (Ne.symm hne)]
    exact h k' entry he

theorem Agrees.erase (h : Agrees last m) (k : κ) : Agrees (record last k none) (m.erase k) := by
  intro k' entry he
  rw [lookup_erase]
  rcases eq_or_ne k' k with rfl | hne
  · rw [record, Function.update_self] at he
    rw [if_pos rfl]
    exact Option.some.inj he
  · rw [record, Function.update_of_ne hne] at he
    rw [if_neg (Ne.symm hne)]
    exact h k' entry he

/-- Record the writes of a list of entries, one after another. -/
def recordAll (last : κ → Option (Option β)) (l : List (κ × β)) : κ → Option (Option β) :=
  l.foldl (fun last e => record last e.1 (some e.2)) last

theorem Agrees.insertAll (h : Agrees last m) (l : List (κ × β)) :
    Agrees (recordAll last l) (insertAll m l) := by
  induction l generalizing last m with
  | nil => exact h
  | cons e l ih => exact ih (h.insert e.1 e.2)

/-- An unrecorded write keeps the agreement exactly when it repeats the last write. -/
theorem Agrees.insert_iff (h : Agrees last m) (k : κ) (v : β) :
    Agrees last (m.insert k v) ↔ ∀ entry, last k = some entry → entry = some v := by
  constructor
  · intro hi entry he
    have hk := hi k entry he
    rwa [lookup_insert, if_pos rfl, eq_comm] at hk
  · intro hrepeat k' entry he
    rw [lookup_insert]
    rcases eq_or_ne k k' with rfl | hne
    · rw [if_pos rfl, hrepeat entry he]
    · rw [if_neg hne]
      exact h k' entry he

end HCache.LastWrites
