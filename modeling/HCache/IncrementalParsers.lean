import Mathlib.Data.List.Basic

/-!
# Parsers of growing input

A parser is given the input received so far. It answers with a value and the rest of that
input, rejects, asks for more, or has read past the end. A stable parser keeps an answer and
a rejection whatever arrives later, so it asks for more on every strict prefix of what it
consumes.
-/
namespace HCache.IncrementalParsers

universe u
variable {α β γ : Type u}

inductive Outcome (α β : Type u) where
  | done (value : β) (rest : List α)
  | failed
  | incomplete
  | overread
  deriving DecidableEq, Repr

def Outcome.map (f : β → γ) : Outcome α β → Outcome α γ
  | done value rest => done (f value) rest
  | failed => failed
  | incomplete => incomplete
  | overread => overread

def Reader (α β : Type u) := List α → Outcome α β

namespace Reader

protected def pure (value : β) : Reader α β := fun xs => .done value xs

protected def bind (p : Reader α β) (f : β → Reader α γ) : Reader α γ := fun xs =>
  match p xs with
  | .done value rest => f value rest
  | .failed => .failed
  | .incomplete => .incomplete
  | .overread => .overread

instance : Monad (Reader α) where
  pure := Reader.pure
  bind := Reader.bind

def fail : Reader α β := fun _ => .failed

def checkEof : Reader α PUnit
  | [] => .incomplete
  | x :: xs => .done ⟨⟩ (x :: xs)

def current : Reader α α
  | [] => .overread
  | x :: xs => .done x (x :: xs)

def advance : Reader α PUnit
  | [] => .overread
  | _ :: xs => .done ⟨⟩ xs

/-- Nothing is read before `k` elements are there. -/
def needs (k : ℕ) (p : Reader α β) : Reader α β :=
  fun xs => if xs.length < k then .incomplete else p xs

end Reader

open Reader

inductive Verdict where
  | go
  | stop
  | bad
  deriving DecidableEq, Repr

/-- The elements up to the first one at which the scan stops. -/
def scan (classify : α → Verdict) : Reader α (List α)
  | [] => .incomplete
  | x :: xs =>
    match classify x with
    | .stop => .done [] (x :: xs)
    | .bad => .failed
    | .go => (scan classify xs).map (x :: ·)

variable {p : Reader α β} {f : β → Reader α γ} {xs rest : List α}

@[simp] theorem pure_apply (value : β) (xs : List α) :
    (Pure.pure value : Reader α β) xs = .done value xs :=
  rfl

theorem bind_apply (p : Reader α β) (f : β → Reader α γ) (xs : List α) : (p >>= f) xs =
    match p xs with
    | .done value rest => f value rest
    | .failed => .failed
    | .incomplete => .incomplete
    | .overread => .overread := rfl

theorem bind_eq_done {value : γ} :
    (p >>= f) xs = .done value rest ↔ ∃ v mid, p xs = .done v mid ∧ f v mid = .done value rest := by
  rw [bind_apply]
  cases p xs <;> simp

theorem bind_of_done {v : β} (h : p xs = .done v rest) : (p >>= f) xs = f v rest := by
  rw [bind_apply, h]

private theorem bind_eq_failed :
    (p >>= f) xs = .failed ↔ p xs = .failed ∨ ∃ v mid, p xs = .done v mid ∧ f v mid = .failed := by
  rw [bind_apply]
  cases p xs <;> simp

theorem bind_ne_overread (hp : p xs ≠ .overread)
    (hf : ∀ v mid, p xs = .done v mid → f v mid ≠ .overread) :
    (p >>= f) xs ≠ .overread := by
  rw [bind_apply]
  cases h : p xs with
  | done v mid => exact hf v mid h
  | overread => exact absurd h hp
  | failed | incomplete => simp

theorem bind_pure_apply (p : Reader α β) (f : β → γ) (xs : List α) :
    (p >>= fun v => Pure.pure (f v)) xs = (p xs).map f := by
  rw [bind_apply]
  cases p xs <;> rfl

@[simp] theorem checkEof_eq_done {v : PUnit} :
    checkEof xs = .done v rest ↔ rest = xs ∧ xs ≠ [] := by
  cases xs <;> simp [checkEof, eq_comm]

@[simp] theorem current_eq_done {x : α} :
    current xs = .done x rest ↔ rest = xs ∧ ∃ tail, xs = x :: tail := by
  cases xs with
  | nil => simp [current]
  | cons y ys =>
    simp only [current, Outcome.done.injEq, List.cons.injEq]
    constructor
    · rintro ⟨rfl, rfl⟩
      exact ⟨rfl, ys, rfl, rfl⟩
    · rintro ⟨rfl, -, rfl, -⟩
      exact ⟨rfl, rfl⟩

@[simp] theorem advance_eq_done {v : PUnit} : advance xs = .done v rest ↔ ∃ x, xs = x :: rest := by
  cases xs <;> simp [advance]

theorem Outcome.map_eq_done {f : β → γ} {o : Outcome α β} {value : γ} :
    o.map f = .done value rest ↔ ∃ v, o = .done v rest ∧ f v = value := by
  cases o <;> simp [Outcome.map, and_comm]

variable {classify : α → Verdict} {xs token rest : List α}

theorem scan_eq_done : scan classify xs = .done token rest ↔
    xs = token ++ rest ∧ (∀ x ∈ token, classify x = .go) ∧ ∃ x tail, rest = x :: tail ∧
      classify x = .stop := by
  induction xs generalizing token with
  | nil =>
    simp only [scan, reduceCtorEq, false_iff]
    rintro ⟨hnil, -, x, tail, rfl, -⟩
    simp at hnil
  | cons x xs ih =>
    cases hx : classify x with
    | stop =>
      simp only [scan, hx, Outcome.done.injEq]
      constructor
      · rintro ⟨rfl, rfl⟩
        exact ⟨rfl, by simp, x, xs, rfl, hx⟩
      · rintro ⟨heq, hgo, -⟩
        cases token with
        | nil => exact ⟨rfl, heq⟩
        | cons y token =>
          obtain rfl := (List.cons.inj heq).1
          have hy := hgo x (by simp)
          rw [hx] at hy
          cases hy
    | bad =>
      simp only [scan, hx, reduceCtorEq, false_iff]
      rintro ⟨heq, hgo, y, tail, rfl, hy⟩
      cases token with
      | nil =>
        obtain rfl := (List.cons.inj heq).1
        rw [hx] at hy
        cases hy
      | cons z token =>
        obtain rfl := (List.cons.inj heq).1
        have hz := hgo x (by simp)
        rw [hx] at hz
        cases hz
    | go =>
      simp only [scan, hx, Outcome.map_eq_done]
      constructor
      · rintro ⟨token', hscan, rfl⟩
        obtain ⟨rfl, hgo, hstop⟩ := ih.mp hscan
        refine ⟨rfl, ?_, hstop⟩
        intro y hy
        rcases List.mem_cons.mp hy with rfl | hy
        · exact hx
        · exact hgo y hy
      · rintro ⟨heq, hgo, y, tail, rfl, hy⟩
        cases token with
        | nil =>
          obtain rfl := (List.cons.inj heq).1
          rw [hx] at hy
          cases hy
        | cons z token =>
          obtain ⟨rfl, rfl⟩ := List.cons.inj heq
          exact ⟨token, ih.mpr ⟨rfl, fun w hw => hgo w (by simp [hw]), y, tail, rfl, hy⟩, rfl⟩

theorem scan_ne_overread (classify : α → Verdict) (xs : List α) : scan classify xs ≠ .overread := by
  induction xs with
  | nil => simp [scan]
  | cons x xs ih =>
    cases hx : classify x with
    | stop => simp [scan, hx]
    | bad => simp [scan, hx]
    | go =>
      simp only [scan, hx]
      cases hscan : scan classify xs <;> simp_all [Outcome.map]

/-- A scan may start behind elements that it only passes. -/
theorem scan_append {pre : List α} (h : ∀ x ∈ pre, classify x = .go) (xs : List α) :
    scan classify (pre ++ xs) = (scan classify xs).map (pre ++ ·) := by
  induction pre with
  | nil =>
    rw [List.nil_append]
    cases scan classify xs <;> rfl
  | cons x pre ih =>
    have hx : classify x = .go := h x (by simp)
    rw [List.cons_append, scan, hx, ih (fun y hy => h y (by simp [hy]))]
    cases scan classify xs <;> rfl

/-- An answer and a rejection stand whatever arrives later. -/
structure Stable (p : Reader α β) : Prop where
  done : ∀ xs ys value rest, p xs = .done value rest → p (xs ++ ys) = .done value (rest ++ ys)
  failed : ∀ xs ys, p xs = .failed → p (xs ++ ys) = .failed

namespace Stable

theorem pure (value : β) : Stable (Pure.pure value : Reader α β) := by
  constructor
  · intro xs ys v rest h
    obtain ⟨rfl, rfl⟩ := Outcome.done.inj h
    rfl
  · intro xs ys h
    cases h

theorem fail : Stable (Reader.fail : Reader α β) := by
  constructor
  · intro xs ys v rest h
    cases h
  · intro xs ys _
    rfl

theorem bind (hp : Stable p) (hf : ∀ v, Stable (f v)) : Stable (p >>= f) := by
  constructor
  · intro xs ys value rest h
    obtain ⟨v, mid, hv, hrest⟩ := bind_eq_done.mp h
    exact bind_eq_done.mpr ⟨v, mid ++ ys, hp.done xs ys v mid hv,
      (hf v).done mid ys value rest hrest⟩
  · intro xs ys h
    rcases bind_eq_failed.mp h with h | ⟨v, mid, hv, hrest⟩
    · exact bind_eq_failed.mpr (.inl (hp.failed xs ys h))
    · exact bind_eq_failed.mpr
        (.inr ⟨v, mid ++ ys, hp.done xs ys v mid hv, (hf v).failed mid ys hrest⟩)

theorem checkEof : Stable (checkEof : Reader α PUnit) := by
  constructor
  · intro xs ys v rest h
    obtain ⟨rfl, hne⟩ := checkEof_eq_done.mp h
    exact checkEof_eq_done.mpr ⟨rfl, by simp [hne]⟩
  · intro xs ys h
    cases xs <;> simp [Reader.checkEof] at h

theorem current : Stable (current : Reader α α) := by
  constructor
  · intro xs ys v rest h
    obtain ⟨rfl, tail, rfl⟩ := current_eq_done.mp h
    rfl
  · intro xs ys h
    cases xs <;> simp [Reader.current] at h

theorem advance : Stable (advance : Reader α PUnit) := by
  constructor
  · intro xs ys v rest h
    obtain ⟨x, rfl⟩ := advance_eq_done.mp h
    rfl
  · intro xs ys h
    cases xs <;> simp [Reader.advance] at h

theorem needs (k : ℕ) (hp : Stable p) : Stable (needs k p) := by
  have hlonger : ∀ xs ys : List α, ¬xs.length < k → ¬(xs ++ ys).length < k := by
    intro xs ys h
    rw [List.length_append]
    omega
  constructor
  · intro xs ys value rest h
    unfold Reader.needs at h ⊢
    split at h
    · cases h
    · next hk =>
      rw [if_neg (hlonger xs ys hk)]
      exact hp.done xs ys value rest h
  · intro xs ys h
    unfold Reader.needs at h ⊢
    split at h
    · cases h
    · next hk =>
      rw [if_neg (hlonger xs ys hk)]
      exact hp.failed xs ys h

theorem scan (classify : α → Verdict) : Stable (scan classify) := by
  constructor
  · intro xs ys token rest h
    obtain ⟨rfl, hgo, x, tail, rfl, hx⟩ := scan_eq_done.mp h
    exact scan_eq_done.mpr ⟨by simp, hgo, x, tail ++ ys, rfl, hx⟩
  · intro xs ys h
    induction xs with
    | nil => cases h
    | cons x xs ih =>
      cases hx : classify x with
      | stop => simp [IncrementalParsers.scan, hx] at h
      | bad => simp [IncrementalParsers.scan, hx]
      | go =>
        simp only [IncrementalParsers.scan, hx, List.cons_append] at h ⊢
        have hxs : IncrementalParsers.scan classify xs = .failed := by
          cases hscan : IncrementalParsers.scan classify xs <;> simp_all [Outcome.map]
        rw [ih hxs]
        rfl

theorem ite {c : Prop} [Decidable c] {q : Reader α β} (hp : Stable p) (hq : Stable q) :
    Stable (if c then p else q) := by
  split
  · exact hp
  · exact hq

/-- What is consumed at last is asked for as long as a part of it is missing. -/
theorem not_settled (hp : Stable p) {text rest part : List α} {value : β}
    (h : p (text ++ rest) = .done value rest) (hpart : part <+: text) (hne : part ≠ text) :
    (∀ v r, p part ≠ .done v r) ∧ p part ≠ .failed := by
  obtain ⟨more, rfl⟩ := hpart
  have hmore : more ≠ [] := by
    rintro rfl
    simp at hne
  rw [List.append_assoc] at h
  constructor
  · intro v r hdone
    have hlong := (hp.done part (more ++ rest) v r hdone).symm.trans h
    have hlength := congrArg List.length (Outcome.done.inj hlong).2
    have hpos := List.length_pos_iff.mpr hmore
    simp only [List.length_append] at hlength
    omega
  · intro hfailed
    cases (hp.failed part (more ++ rest) hfailed).symm.trans h

end Stable

end HCache.IncrementalParsers
