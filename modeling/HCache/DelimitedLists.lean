import Mathlib.Data.List.TakeWhile

/-!
# Splitting lists at separators

`splitn n p` cuts a list at its first `n - 1` separators; later separators stay in the
last part. The separators themselves are dropped.
-/
namespace HCache.DelimitedLists

variable {α : Type*}

def splitn (n : ℕ) (p : α → Bool) (l : List α) : List (List α) :=
  match n with
  | 0 => []
  | 1 => [l]
  | n + 2 => match l.dropWhile (fun c => !p c) with
    | [] => [l]
    | _ :: rest => l.takeWhile (fun c => !p c) :: splitn (n + 1) p rest

/-- A list without separators is one part. -/
theorem splitn_of_forall {p : α → Bool} {xs : List α} (n : ℕ) (hxs : ∀ a ∈ xs, p a = false) :
    splitn (n + 1) p xs = [xs] := by
  cases n with
  | zero => rfl
  | succ n =>
    have hd : xs.dropWhile (fun c => !p c) = [] := by
      rw [List.dropWhile_eq_nil_iff]
      intro a ha
      simp [hxs a ha]
    simp only [splitn, hd]

/-- The first cut is at the first separator, whatever follows it. -/
theorem splitn_append_cons {p : α → Bool} {xs ys : List α} {c : α} (n : ℕ)
    (hxs : ∀ a ∈ xs, p a = false) (hc : p c = true) :
    splitn (n + 2) p (xs ++ c :: ys) = xs :: splitn (n + 1) p ys := by
  have hkeep : ∀ a ∈ xs, (!p a) = true := by
    intro a ha
    simp [hxs a ha]
  have hd : (xs ++ c :: ys).dropWhile (fun c => !p c) = c :: ys := by
    rw [List.dropWhile_append_of_pos hkeep, List.dropWhile_cons_of_neg (by simp [hc])]
  have ht : (xs ++ c :: ys).takeWhile (fun c => !p c) = xs := by
    rw [List.takeWhile_append_of_pos hkeep, List.takeWhile_cons_of_neg (by simp [hc]),
      List.append_nil]
  simp only [splitn, hd, ht]

end HCache.DelimitedLists
