import HCache.InterleavedSystems
import Mathlib.Data.Set.Insert
import Mathlib.Order.BooleanAlgebra.Set

/-!
# One value of a sorted set under concurrent calls

The three places that say whether a value is in a sorted set: its score in the first index,
the buckets that hold it, and its record. Calls of `zadd` and `zrmv` on the value work on
them one atomic step at a time. While all calls in progress agree on what they want, the
places differ only in ways that these calls are going to mend.
-/
namespace HCache.RustZSetMembers
open InterleavedSystems

variable {S R : Type*}

structure Member (S R : Type*) where
  score : Option S
  buckets : Set S
  record : Option R

inductive Op (S : Type*) where
  | zadd (score : S)
  | zrmv
  deriving DecidableEq, Repr

inductive Phase (S : Type*) where
  | putRecord
  | getOrInsert
  | getScore
  | insertNew
  | enterNew
  | moveBucket (old : S)
  | insertMoved
  | getZset
  | removeScore
  | deleteRecord (old : S)
  | leaveBucket (old : S)
  | returned
  deriving DecidableEq, Repr

def Op.first : Op S → Phase S
  | .zadd _ => .putRecord
  | .zrmv => .getZset

/-- Calls that may overlap: removals, and additions with one score. -/
def Op.Compatible : Op S → Op S → Prop
  | .zadd s, .zadd t => s = t
  | .zrmv, .zrmv => True
  | _, _ => False

def Settled (enc : S → R) (x : Member S R) : Prop :=
  (∀ s, s ∈ x.buckets ↔ x.score = some s) ∧ x.record = x.score.map enc

section Steps
variable [DecidableEq S] (enc : S → R)

/-- One atomic step of a call on its value; `found` says whether the sorted set exists. -/
def next (found : Bool) (x : Member S R) : Op S → Phase S → Phase S × Member S R
  | .zadd s, .putRecord => (.getOrInsert, { x with record := some (enc s) })
  | .zadd _, .getOrInsert => (.getScore, x)
  | .zadd s, .getScore =>
    match x.score with
    | some old => (if old = s then .returned else .moveBucket old, x)
    | none => (.insertNew, x)
  | .zadd s, .insertNew => (.enterNew, { x with score := some s })
  | .zadd s, .enterNew => (.returned, { x with buckets := insert s x.buckets })
  | .zadd s, .moveBucket old => (.insertMoved, { x with buckets := insert s (x.buckets \ {old}) })
  | .zadd s, .insertMoved => (.returned, { x with score := some s })
  | .zrmv, .getZset => (if found then .removeScore else .returned, x)
  | .zrmv, .removeScore =>
    match x.score with
    | some old => (.deleteRecord old, { x with score := none })
    | none => (.returned, x)
  | .zrmv, .deleteRecord old => (.leaveBucket old, { x with record := none })
  | .zrmv, .leaveBucket old => (.returned, { x with buckets := x.buckets \ {old} })
  | _, ph => (ph, x)

end Steps

/-- What the value looks like when an addition of `s` is about to take a step. -/
def AddingAt (enc : S → R) (s : S) (x : Member S R) : Phase S → Prop
  | .putRecord => True
  | .getOrInsert | .getScore => x.record = some (enc s)
  | .insertNew => x.record = some (enc s) ∧ (x.score = none ∨ x.score = some s)
  | .enterNew => x.record = some (enc s) ∧ x.score = some s
  | .moveBucket old => x.record = some (enc s) ∧ old ≠ s ∧ (x.score = some old ∨ x.score = some s)
  | .insertMoved => x.record = some (enc s) ∧ (x.score = some s ∨ (∀ t, t ∈ x.buckets ↔ t = s))
  | _ => False

/-- The buckets follow the index, but for an addition that still has to enter its bucket or
to correct the index. -/
structure Adding (enc : S → R) (s : S) (x : Member S R) (entering correcting : Prop) : Prop where
  record : x.record = some (enc s) ∨ x.record = x.score.map enc
  buckets : (∀ t, t ∈ x.buckets ↔ x.score = some t) ∨
    (x.score = some s ∧ (∀ t, t ∉ x.buckets) ∧ entering) ∨
    ((∀ t, t ∈ x.buckets ↔ t = s) ∧ correcting)

section AddingSteps
variable [DecidableEq S] {enc : S → R} {s : S} {x x' : Member S R} {ph ph' : Phase S} {found : Bool}

/-- What one step of an addition does. -/
theorem AddingAt.cases (h : AddingAt enc s x ph) (hn : next enc found x (.zadd s) ph = (ph', x')) :
    (ph = .putRecord ∧ ph' = .getOrInsert ∧ x' = { x with record := some (enc s) }) ∨
    ((ph = .getOrInsert ∨ ph = .getScore) ∧ x' = x ∧ x.record = some (enc s) ∧
      (ph' = .getScore ∨ (ph' = .returned ∧ x.score = some s) ∨
      (ph' = .insertNew ∧ x.score = none) ∨ ∃ old, ph' = .moveBucket old ∧
        x.score = some old ∧ old ≠ s)) ∨
    (x.record = some (enc s) ∧ (x.score = none ∨ x.score = some s) ∧ ph = .insertNew ∧
      ph' = .enterNew ∧
      x' = { x with score := some s }) ∨
    (x.record = some (enc s) ∧ x.score = some s ∧ ph = .enterNew ∧ ph' = .returned ∧
      x' = { x with buckets := insert s x.buckets }) ∨
    (x.record = some (enc s) ∧ ∃ old, old ≠ s ∧ (x.score = some old ∨ x.score = some s) ∧
      ph = .moveBucket old ∧
      ph' = .insertMoved ∧ x' = { x with buckets := insert s (x.buckets \ {old}) }) ∨
    (x.record = some (enc s) ∧ (x.score = some s ∨ ∀ t, t ∈ x.buckets ↔ t = s) ∧ ph = .insertMoved ∧
      ph' = .returned ∧ x' = { x with score := some s }) := by
  cases ph with
  | putRecord =>
    obtain ⟨rfl, rfl⟩ := Prod.mk.inj hn
    exact .inl ⟨rfl, rfl, rfl⟩
  | getOrInsert =>
    obtain ⟨rfl, rfl⟩ := Prod.mk.inj hn
    exact .inr (.inl ⟨.inl rfl, rfl, h, .inl rfl⟩)
  | getScore =>
    simp only [next] at hn
    split at hn
    · next old hscore =>
      obtain ⟨rfl, rfl⟩ := Prod.mk.inj hn
      split
      · next hsame => exact .inr (.inl ⟨.inr rfl, rfl, h, .inr (.inl ⟨rfl, hsame ▸ hscore⟩)⟩)
      · next hne => exact .inr (.inl ⟨.inr rfl, rfl, h, .inr (.inr (.inr ⟨old, rfl, hscore, hne⟩))⟩)
    · next hscore =>
      obtain ⟨rfl, rfl⟩ := Prod.mk.inj hn
      exact .inr (.inl ⟨.inr rfl, rfl, h, .inr (.inr (.inl ⟨rfl, hscore⟩))⟩)
  | insertNew =>
    obtain ⟨rfl, rfl⟩ := Prod.mk.inj hn
    exact .inr (.inr (.inl ⟨h.1, h.2, rfl, rfl, rfl⟩))
  | enterNew =>
    obtain ⟨rfl, rfl⟩ := Prod.mk.inj hn
    exact .inr (.inr (.inr (.inl ⟨h.1, h.2, rfl, rfl, rfl⟩)))
  | moveBucket old =>
    obtain ⟨rfl, rfl⟩ := Prod.mk.inj hn
    exact .inr (.inr (.inr (.inr (.inl ⟨h.1, old, h.2.1, h.2.2, rfl, rfl, rfl⟩))))
  | insertMoved =>
    obtain ⟨rfl, rfl⟩ := Prod.mk.inj hn
    exact .inr (.inr (.inr (.inr (.inr ⟨h.1, h.2, rfl, rfl, rfl⟩))))
  | _ => exact h.elim

omit [DecidableEq S] in
/-- What other additions of the same score change does not disturb an addition. -/
theorem AddingAt.mono {q : Phase S} (hq : AddingAt enc s x q) (hrecord : x'.record = some (enc s))
    (hscore : x'.score = x.score ∨ x'.score = some s)
    (hbuckets : x'.score = some s ∨ ((∀ t, t ∈ x.buckets ↔ t = s) → ∀ t, t ∈ x'.buckets ↔ t = s)) :
    AddingAt enc s x' q := by
  have hkeep : x.score = some s → x'.score = some s := by
    intro hs
    rcases hscore with hsame | hnew
    · exact hsame.trans hs
    · exact hnew
  cases q with
  | putRecord => trivial
  | getOrInsert => exact hrecord
  | getScore => exact hrecord
  | insertNew =>
    refine ⟨hrecord, ?_⟩
    rcases hscore with hsame | hnew
    · exact hsame ▸ hq.2
    · exact .inr hnew
  | enterNew => exact ⟨hrecord, hkeep hq.2⟩
  | moveBucket old =>
    refine ⟨hrecord, hq.2.1, ?_⟩
    rcases hscore with hsame | hnew
    · exact hsame ▸ hq.2.2
    · exact .inr hnew
  | insertMoved =>
    refine ⟨hrecord, ?_⟩
    rcases hq.2 with hs | honly
    · exact .inl (hkeep hs)
    · exact hbuckets.imp_right (fun hb => hb honly)
  | _ => exact hq.elim

/-- A step of one addition leaves the expectations of the others as they were. -/
theorem AddingAt.stable (h : AddingAt enc s x ph) (hn : next enc found x (.zadd s) ph = (ph', x'))
    {q : Phase S} (hq : AddingAt enc s x q) : AddingAt enc s x' q := by
  rcases h.cases hn with ⟨-, -, rfl⟩ | ⟨-, rfl, -, -⟩ | ⟨hrecord, -, -, -, rfl⟩ |
    ⟨hrecord, hscore, -, -, rfl⟩ | ⟨hrecord, old, hne, -, -, -, rfl⟩ | ⟨hrecord, -, -, -, rfl⟩
  · exact hq.mono rfl (.inl rfl) (.inr id)
  · exact hq
  · exact hq.mono hrecord (.inr rfl) (.inl rfl)
  · exact hq.mono hrecord (.inl rfl) (.inl hscore)
  · refine hq.mono hrecord (.inl rfl) (.inr ?_)
    intro honly t
    simp only [Set.mem_insert_iff, Set.mem_sdiff, honly, Set.mem_singleton_iff]
    exact ⟨fun ht => ht.elim id And.left, .inl⟩
  · exact hq.mono hrecord (.inr rfl) (.inl rfl)

omit [DecidableEq S] in
theorem Adding.mono {entering correcting entering' correcting' : Prop}
    (h : Adding enc s x entering correcting) (he : entering → entering')
    (hc : correcting → correcting') : Adding enc s x entering' correcting' := by
  refine ⟨h.record, ?_⟩
  rcases h.buckets with hb | ⟨hs, hb, hpending⟩ | ⟨hb, hpending⟩
  · exact .inl hb
  · exact .inr (.inl ⟨hs, hb, he hpending⟩)
  · exact .inr (.inr ⟨hb, hc hpending⟩)

omit [DecidableEq S] in
/-- Moving the value out of the bucket of its old score leaves it in that of the new one only. -/
theorem Adding.move {entering correcting : Prop} (h : Adding enc s x entering correcting) {old : S}
    (hscore : x.score = some old) (hne : old ≠ s) (t : S) :
    t ∈ insert s (x.buckets \ {old}) ↔ t = s := by
  simp only [Set.mem_insert_iff, Set.mem_sdiff, Set.mem_singleton_iff]
  rcases h.buckets with hb | ⟨hs, -⟩ | ⟨hb, -⟩
  · simp only [hb, hscore, Option.some.injEq]
    exact ⟨fun ht => ht.elim id (fun hold => absurd hold.1.symm hold.2), .inl⟩
  · exact absurd (Option.some.inj (hscore.symm.trans hs)) hne
  · simp only [hb]
    exact ⟨fun ht => ht.elim id And.left, .inl⟩

/-- The call itself finds what it expects next, or has returned with its score in place. -/
theorem AddingAt.next (h : AddingAt enc s x ph) {entering correcting : Prop}
    (hx : Adding enc s x entering correcting)
    (hn : RustZSetMembers.next enc found x (.zadd s) ph = (ph', x')) :
    AddingAt enc s x' ph' ∨ (ph' = .returned ∧ x'.score = some s ∧ x'.record = some (enc s)) := by
  rcases h.cases hn with ⟨-, rfl, rfl⟩ | ⟨-, rfl, hrecord, hphase⟩ | ⟨hrecord, -, -, rfl, rfl⟩ |
    ⟨hrecord, hscore, -, rfl, rfl⟩ | ⟨hrecord, old, hne, hscore, -, rfl, rfl⟩ |
    ⟨hrecord, -, -, rfl, rfl⟩
  · exact .inl rfl
  · rcases hphase with rfl | ⟨rfl, hscore⟩ | ⟨rfl, hscore⟩ | ⟨old, rfl, hscore, hne⟩
    · exact .inl hrecord
    · exact .inr ⟨rfl, hscore, hrecord⟩
    · exact .inl ⟨hrecord, .inl hscore⟩
    · exact .inl ⟨hrecord, hne, .inl hscore⟩
  · exact .inl ⟨hrecord, rfl⟩
  · exact .inr ⟨rfl, hscore, hrecord⟩
  · refine .inl ⟨hrecord, ?_⟩
    rcases hscore with hscore | hscore
    · exact .inr (hx.move hscore hne)
    · exact .inl hscore
  · exact .inr ⟨rfl, rfl, hrecord⟩

/-- The buckets follow the index again once the call that was to mend them has done so. -/
theorem Adding.next {entering correcting : Prop} (entering' correcting' : Prop)
    (hx : Adding enc s x entering correcting) (h : AddingAt enc s x ph)
    (hn : RustZSetMembers.next enc found x (.zadd s) ph = (ph', x'))
    (hentering : ph ≠ .enterNew → entering → entering')
    (hcorrecting : ph ≠ .insertMoved → correcting → correcting')
    (henter : ph' = .enterNew → entering') (hcorrect : ph' = .insertMoved → correcting') :
    Adding enc s x' entering' correcting' := by
  rcases h.cases hn with ⟨rfl, rfl, rfl⟩ | ⟨hph, rfl, hrecord, -⟩ |
    ⟨hrecord, hscore, rfl, rfl, rfl⟩ | ⟨hrecord, hscore, rfl, rfl, rfl⟩ |
    ⟨hrecord, old, hne, hscore, rfl, rfl, rfl⟩ | ⟨hrecord, hscore, rfl, rfl, rfl⟩
  · exact ⟨.inl rfl, (hx.mono (hentering (by simp)) (hcorrecting (by simp))).buckets⟩
  · have hquiet : ph ≠ .enterNew ∧ ph ≠ .insertMoved := by
      rcases hph with rfl | rfl <;> simp
    exact ⟨.inl hrecord, (hx.mono (hentering hquiet.1) (hcorrecting hquiet.2)).buckets⟩
  · refine ⟨.inl hrecord, ?_⟩
    rcases hx.buckets with hb | ⟨-, hb, -⟩ | ⟨hb, -⟩
    · rcases hscore with hnone | hs
      · exact .inr (.inl ⟨rfl, by simp [hb, hnone], henter rfl⟩)
      · exact .inl (fun t => by rw [hb, hs])
    · exact .inr (.inl ⟨rfl, hb, henter rfl⟩)
    · exact .inl (fun t => by simp [hb, eq_comm])
  · refine ⟨.inl hrecord, .inl ?_⟩
    intro t
    rcases hx.buckets with hb | ⟨-, hb, -⟩ | ⟨hb, -⟩
    · simp [hb, hscore]
    · simp [hb, hscore, eq_comm]
    · simp [hb, hscore, eq_comm]
  · refine ⟨.inl hrecord, ?_⟩
    rcases hscore with hold | hs
    · exact .inr (.inr ⟨hx.move hold hne, hcorrect rfl⟩)
    · -- another call has corrected the index meanwhile
      refine .inl ?_
      intro t
      rcases hx.buckets with hb | ⟨-, hb, -⟩ | ⟨hb, -⟩
      · simp only [Set.mem_insert_iff, Set.mem_sdiff, hb, hs, Option.some.injEq, eq_comm]
        exact ⟨fun ht => ht.elim id And.left, .inl⟩
      · simp [hb, hs, eq_comm]
      · simp only [Set.mem_insert_iff, Set.mem_sdiff, hb, hs, Option.some.injEq, eq_comm]
        exact ⟨fun ht => ht.elim id And.left, .inl⟩
  · refine ⟨.inl hrecord, ?_⟩
    rcases hscore with hs | honly
    · rcases hx.buckets with hb | ⟨-, hb, hpending⟩ | ⟨hb, -⟩
      · exact .inl (fun t => by rw [hb, hs])
      · exact .inr (.inl ⟨rfl, hb, hentering (by simp) hpending⟩)
      · exact .inl (fun t => by simp [hb, eq_comm])
    · exact .inl (fun t => by simp [honly, eq_comm])

end AddingSteps

/-- What the value looks like when a removal is about to take a step. -/
def RemovingAt (x : Member S R) : Phase S → Prop
  | .getZset | .removeScore => True
  | .deleteRecord old | .leaveBucket old => x.score = none ∧ ∀ t ∈ x.buckets, t = old
  | _ => False

/-- Settled, or out of the index while a removal still has to leave the bucket or to delete
the record. -/
def Removing (enc : S → R) (x : Member S R) (leaving deleting : Prop) : Prop :=
  Settled enc x ∨
    (x.score = none ∧ ((∀ t, t ∉ x.buckets) ∨ leaving) ∧ (x.record = none ∨ deleting))

section RemovingSteps
variable [DecidableEq S] {enc : S → R} {x x' : Member S R} {ph ph' : Phase S}

/-- What one step of a removal does. -/
theorem RemovingAt.cases (h : RemovingAt x ph) (hn : next enc found x .zrmv ph = (ph', x')) :
    ((ph = .getZset ∨ ph = .removeScore) ∧ x' = x ∧ (ph' = .removeScore ∨ ph' = .returned)) ∨
    (∃ old, ph = .removeScore ∧ x.score = some old ∧ ph' = .deleteRecord old ∧
      x' = { x with score := none }) ∨
    (∃ old, ph = .deleteRecord old ∧ x.score = none ∧ (∀ t ∈ x.buckets, t = old) ∧
      ph' = .leaveBucket old ∧
      x' = { x with record := none }) ∨
    ∃ old, ph = .leaveBucket old ∧ x.score = none ∧ (∀ t ∈ x.buckets, t = old) ∧ ph' = .returned ∧
      x' = { x with buckets := x.buckets \ {old} } := by
  cases ph with
  | getZset =>
    obtain ⟨rfl, rfl⟩ := Prod.mk.inj hn
    refine .inl ⟨.inl rfl, rfl, ?_⟩
    cases found with
    | true => exact .inl rfl
    | false => exact .inr rfl
  | removeScore =>
    simp only [next] at hn
    split at hn
    · next old hscore =>
      obtain ⟨rfl, rfl⟩ := Prod.mk.inj hn
      exact .inr (.inl ⟨old, rfl, hscore, rfl, rfl⟩)
    · obtain ⟨rfl, rfl⟩ := Prod.mk.inj hn
      exact .inl ⟨.inr rfl, rfl, .inr rfl⟩
  | deleteRecord old =>
    obtain ⟨rfl, rfl⟩ := Prod.mk.inj hn
    exact .inr (.inr (.inl ⟨old, rfl, h.1, h.2, rfl, rfl⟩))
  | leaveBucket old =>
    obtain ⟨rfl, rfl⟩ := Prod.mk.inj hn
    exact .inr (.inr (.inr ⟨old, rfl, h.1, h.2, rfl, rfl⟩))
  | _ => exact h.elim

omit [DecidableEq S] in
theorem RemovingAt.mono {q : Phase S} (hq : RemovingAt x q)
    (hscore : x.score = none → x'.score = none) (hbuckets : x'.buckets ⊆ x.buckets) :
    RemovingAt x' q := by
  cases q with
  | getZset => trivial
  | removeScore => trivial
  | deleteRecord old => exact ⟨hscore hq.1, fun t ht => hq.2 t (hbuckets ht)⟩
  | leaveBucket old => exact ⟨hscore hq.1, fun t ht => hq.2 t (hbuckets ht)⟩
  | _ => exact hq.elim

theorem RemovingAt.stable (h : RemovingAt x ph) (hn : next enc found x .zrmv ph = (ph', x'))
    {q : Phase S} (hq : RemovingAt x q) : RemovingAt x' q := by
  rcases h.cases hn with ⟨-, rfl, -⟩ | ⟨old, -, -, -, rfl⟩ | ⟨old, -, -, -, -, rfl⟩ |
    ⟨old, -, -, -, -, rfl⟩
  · exact hq
  · exact hq.mono (fun _ => rfl) (fun _ ht => ht)
  · exact hq.mono id (fun _ ht => ht)
  · exact hq.mono id (fun _ ht => ht.1)

theorem RemovingAt.next (h : RemovingAt x ph) {leaving deleting : Prop}
    (hx : Removing enc x leaving deleting)
    (hn : RustZSetMembers.next enc found x .zrmv ph = (ph', x')) :
    RemovingAt x' ph' ∨ ph' = .returned := by
  rcases h.cases hn with ⟨-, rfl, rfl | rfl⟩ | ⟨old, -, hscore, rfl, rfl⟩ |
    ⟨old, -, hscore, hbuckets, rfl, rfl⟩ | ⟨old, -, -, -, rfl, -⟩
  · exact .inl trivial
  · exact .inr rfl
  · refine .inl ⟨rfl, ?_⟩
    rcases hx with ⟨hbuckets, -⟩ | ⟨hnone, -⟩
    · intro t ht
      exact (Option.some.inj (hscore.symm.trans ((hbuckets t).mp ht))).symm
    · simp [hnone] at hscore
  · exact .inl ⟨hscore, hbuckets⟩
  · exact .inr rfl

omit [DecidableEq S] in
theorem Removing.mono {leaving deleting leaving' deleting' : Prop}
    (h : Removing enc x leaving deleting) (hl : leaving → leaving') (hd : deleting → deleting') :
    Removing enc x leaving' deleting' := by
  rcases h with h | ⟨hs, hb, hr⟩
  · exact .inl h
  · exact .inr ⟨hs, hb.imp_right hl, hr.imp_right hd⟩

theorem Removing.next {leaving deleting : Prop} (leaving' deleting' : Prop)
    (hx : Removing enc x leaving deleting) (h : RemovingAt x ph)
    (hn : RustZSetMembers.next enc found x .zrmv ph = (ph', x'))
    (hleaving : (∀ old, ph ≠ .leaveBucket old) → leaving → leaving')
    (hdeleting : (∀ old, ph ≠ .deleteRecord old) → deleting → deleting')
    (hdelete : ∀ old, ph' = .deleteRecord old → leaving' ∧ deleting')
    (hleave : ∀ old, ph' = .leaveBucket old → leaving') : Removing enc x' leaving' deleting' := by
  rcases h.cases hn with ⟨hph, rfl, -⟩ | ⟨old, rfl, hscore, rfl, rfl⟩ |
    ⟨old, rfl, hscore, hbuckets, rfl, rfl⟩ | ⟨old, rfl, hscore, hbuckets, rfl, rfl⟩
  · have hquiet : (∀ old, ph ≠ .leaveBucket old) ∧ ∀ old, ph ≠ .deleteRecord old := by
      rcases hph with rfl | rfl <;> simp
    exact hx.mono (hleaving hquiet.1) (hdeleting hquiet.2)
  · exact .inr ⟨rfl, .inr (hdelete old rfl).1, .inr (hdelete old rfl).2⟩
  · exact .inr ⟨hscore, .inr (hleave old rfl), .inl rfl⟩
  · refine .inr ⟨hscore, .inl ?_, ?_⟩
    · intro t ht
      exact ht.2 (hbuckets t ht.1)
    · rcases hx with ⟨-, hrecord⟩ | ⟨-, -, hrecord⟩
      · exact .inl (by simp [hrecord, hscore])
      · exact hrecord.imp_right (hdeleting (by simp))

end RemovingSteps

/-- The calls in progress all add the value with one score, or all remove it. -/
inductive Era (enc : S → R) (active : ℕ → Option (Op S × Phase S)) (x : Member S R) : Prop
  | adding (s : S) (hops : ∀ i op ph, active i = some (op, ph) → op = .zadd s ∧ AddingAt enc s x ph)
      (hbusy : ∃ i op ph, active i = some (op, ph))
      (hx : Adding enc s x (∃ i op, active i = some (op, .enterNew)) (∃ i op,
        active i = some (op, .insertMoved)))
  | removing (hops : ∀ i op ph, active i = some (op, ph) → op = .zrmv ∧ RemovingAt x ph)
      (hx : Removing enc x
        (∃ i op old, active i = some (op, .deleteRecord old) ∨
          active i = some (op, .leaveBucket old))
        (∃ i op old, active i = some (op, .deleteRecord old)))

section Eras
variable {enc : S → R} {active : ℕ → Option (Op S × Phase S)} {x x' : Member S R}

theorem Era.settled (h : Era enc active x) (hquiet : ∀ i, active i = none) : Settled enc x := by
  cases h with
  | adding s hops hbusy hx =>
    obtain ⟨i, op, ph, hi⟩ := hbusy
    simp [hquiet i] at hi
  | removing hops hx =>
    rcases hx with hx | ⟨hscore, hbuckets, hrecord⟩
    · exact hx
    · have hempty : ∀ t, t ∉ x.buckets := by
        rcases hbuckets with hbuckets | ⟨i, op, old, hi | hi⟩
        · exact hbuckets
        · simp [hquiet i] at hi
        · simp [hquiet i] at hi
      have hnone : x.record = none := by
        rcases hrecord with hrecord | ⟨i, op, old, hi⟩
        · exact hrecord
        · simp [hquiet i] at hi
      exact ⟨by simp [hempty, hscore], by simp [hnone, hscore]⟩

theorem era_of_settled (h : Settled enc x) (hquiet : ∀ i, active i = none) : Era enc active x :=
  .removing (by simp [hquiet]) (.inl h)

theorem Settled.adding {s : S} (h : Settled enc x) (entering correcting : Prop) :
    Adding enc s x entering correcting :=
  ⟨.inr h.2, .inl h.1⟩

/-- The table of active calls after call `i` has moved. -/
theorem moved_cases {i j : ℕ} {p : Option (Op S × Phase S)} {q : Op S × Phase S}
    (h : Function.update active i p j = some q) : p = some q ∨ active j = some q := by
  rcases eq_or_ne j i with rfl | hne
  · rw [Function.update_self] at h
    exact .inl h
  · rw [Function.update_of_ne hne] at h
    exact .inr h

/-- Calls that were not where call `i` was are where they were. -/
theorem moved_keeps {i j : ℕ} (p : Option (Op S × Phase S)) {q : Op S × Phase S}
    (hj : active j = some q) (hne : active i ≠ some q) : Function.update active i p j = some q := by
  have hji : j ≠ i := by
    rintro rfl
    exact hne hj
  rw [Function.update_of_ne hji, hj]

/-- A call may start beside compatible ones. -/
theorem Era.start (h : Era enc active x) {i : ℕ} (hi : active i = none) {op : Op S}
    (hc : ∀ j op' ph, active j = some (op', ph) → op.Compatible op') :
    Era enc (Function.update active i (some (op, op.first))) x := by
  have hkeep : ∀ {j q}, active j = some q →
      Function.update active i (some (op, op.first)) j = some q :=
    fun hj => moved_keeps _ hj (by simp [hi])
  cases h with
  | adding s hops hbusy hx =>
    obtain ⟨j, op', ph, hj⟩ := hbusy
    have hop : op = .zadd s := by
      have hcompatible := hc j op' ph hj
      obtain ⟨rfl, -⟩ := hops j op' ph hj
      cases op with
      | zadd t => exact congrArg Op.zadd hcompatible
      | zrmv => exact absurd hcompatible (by simp [Op.Compatible])
    subst hop
    refine .adding s ?_ ⟨j, op', ph, hkeep hj⟩ (hx.mono ?_ ?_)
    · intro k op'' ph' hk
      rcases moved_cases hk with hk | hk
      · obtain ⟨rfl, rfl⟩ := Prod.mk.inj (Option.some.inj hk)
        exact ⟨rfl, trivial⟩
      · exact hops k op'' ph' hk
    · exact fun ⟨k, op'', hk⟩ => ⟨k, op'', hkeep hk⟩
    · exact fun ⟨k, op'', hk⟩ => ⟨k, op'', hkeep hk⟩
  | removing hops hx =>
    cases op with
    | zrmv =>
      refine .removing ?_ (hx.mono ?_ ?_)
      · intro k op'' ph' hk
        rcases moved_cases hk with hk | hk
        · obtain ⟨rfl, rfl⟩ := Prod.mk.inj (Option.some.inj hk)
          exact ⟨rfl, trivial⟩
        · exact hops k op'' ph' hk
      · exact fun ⟨k, op'', old, hk⟩ => ⟨k, op'', old, hk.imp hkeep hkeep⟩
      · exact fun ⟨k, op'', old, hk⟩ => ⟨k, op'', old, hkeep hk⟩
    | zadd s =>
      -- no removal is in progress, so the addition finds the value settled
      have hquiet : ∀ j, active j = none := by
        intro j
        cases hj : active j with
        | none => rfl
        | some p =>
          have hcompatible := hc j p.1 p.2 hj
          rw [(hops j p.1 p.2 hj).1] at hcompatible
          exact absurd hcompatible (by simp [Op.Compatible])
      have hsettled := (Era.removing hops hx).settled hquiet
      refine .adding s ?_ ⟨i, .zadd s, .putRecord, by simp [Op.first]⟩ (hsettled.adding _ _)
      intro k op'' ph' hk
      rcases moved_cases hk with hk | hk
      · obtain ⟨rfl, rfl⟩ := Prod.mk.inj (Option.some.inj hk)
        exact ⟨rfl, trivial⟩
      · simp [hquiet k] at hk

theorem Adding.settled {s : S} {entering correcting : Prop} (h : Adding enc s x entering correcting)
    (he : ¬ entering) (hc : ¬ correcting) (hscore : x.score = some s)
    (hrecord : x.record = some (enc s)) :
    Settled enc x := by
  refine ⟨?_, by rw [hrecord, hscore]; rfl⟩
  rcases h.buckets with hb | ⟨-, -, hpending⟩ | ⟨-, hpending⟩
  · exact hb
  · exact absurd hpending he
  · exact absurd hpending hc

variable [DecidableEq S]

def remaining (op : Op S) (ph : Phase S) : Option (Op S × Phase S) :=
  if ph = .returned then none else some (op, ph)

theorem remaining_eq_some {op op' : Op S} {ph ph' : Phase S} :
    remaining op ph = some (op', ph') ↔ ph ≠ .returned ∧ op = op' ∧ ph = ph' := by
  simp [remaining]

variable {i : ℕ} {ph ph' : Phase S}

theorem moved_self {op : Op S} (hne : ph' ≠ .returned) :
    Function.update active i (remaining op ph') i = some (op, ph') := by
  rw [Function.update_self, remaining_eq_some]
  exact ⟨hne, rfl, rfl⟩

theorem Era.step_adding {s : S}
    (hops : ∀ j op q, active j = some (op, q) → op = .zadd s ∧ AddingAt enc s x q)
    (hx : Adding enc s x (∃ j op, active j = some (op, .enterNew)) (∃ j op,
    active j = some (op, .insertMoved)))
    (hi : active i = some (.zadd s, ph)) (hn : next enc found x (.zadd s) ph = (ph', x')) :
    Era enc (Function.update active i (remaining (.zadd s) ph')) x' := by
  have hat : AddingAt enc s x ph := (hops i _ ph hi).2
  have hnext := hat.next hx hn
  have hkeep : ∀ {j op q}, ph ≠ q → active j = some (op, q) →
      Function.update active i (remaining (.zadd s) ph') j = some (op, q) := by
    intro j op q hne hj
    refine moved_keeps _ hj ?_
    rw [hi]
    exact fun he => hne (Prod.mk.inj (Option.some.inj he)).2
  have hadding : Adding enc s x'
      (∃ j op, Function.update active i (remaining (.zadd s) ph') j = some (op, .enterNew))
      (∃ j op, Function.update active i (remaining (.zadd s) ph') j = some (op, .insertMoved)) := by
    refine hx.next _ _ hat hn ?_ ?_ ?_ ?_
    · exact fun hne ⟨j, op, hj⟩ => ⟨j, op, hkeep hne hj⟩
    · exact fun hne ⟨j, op, hj⟩ => ⟨j, op, hkeep hne hj⟩
    · rintro rfl
      exact ⟨i, _, moved_self (by simp)⟩
    · rintro rfl
      exact ⟨i, _, moved_self (by simp)⟩
  rcases hnext with hnext | ⟨rfl, hscore, hrecord⟩
  · have hne : ph' ≠ .returned := by
      rintro rfl
      exact hnext
    refine .adding s ?_ ⟨i, _, ph', moved_self hne⟩ hadding
    intro j op q hj
    rcases moved_cases hj with hj | hj
    · obtain ⟨-, rfl, rfl⟩ := remaining_eq_some.mp hj
      exact ⟨rfl, hnext⟩
    · obtain ⟨rfl, hq⟩ := hops j op q hj
      exact ⟨rfl, hat.stable hn hq⟩
  · have hops' : ∀ j op q,
        Function.update active i (remaining (.zadd s) .returned) j = some (op, q) →
        op = .zadd s ∧ AddingAt enc s x' q := by
      intro j op q hj
      rcases moved_cases hj with hj | hj
      · exact absurd rfl (remaining_eq_some.mp hj).1
      · obtain ⟨rfl, hq⟩ := hops j op q hj
        exact ⟨rfl, hat.stable hn hq⟩
    rcases Classical.em (∃ j op q, Function.update active i (remaining (.zadd s) .returned) j =
      some (op, q)) with
      hbusy | hquiet
    · exact .adding s hops' hbusy hadding
    · refine .removing (fun j op q hj => absurd ⟨j, op, q, hj⟩ hquiet) (.inl ?_)
      refine hadding.settled ?_ ?_ hscore hrecord
      · exact fun ⟨j, op, hj⟩ => hquiet ⟨j, op, _, hj⟩
      · exact fun ⟨j, op, hj⟩ => hquiet ⟨j, op, _, hj⟩

theorem Era.step_removing (hops : ∀ j op q, active j = some (op, q) → op = .zrmv ∧ RemovingAt x q)
    (hx : Removing enc x
      (∃ j op old, active j = some (op, .deleteRecord old) ∨ active j = some (op, .leaveBucket old))
      (∃ j op old, active j = some (op, .deleteRecord old)))
    (hi : active i = some (.zrmv, ph)) (hn : next enc found x .zrmv ph = (ph', x')) :
    Era enc (Function.update active i (remaining .zrmv ph')) x' := by
  have hat : RemovingAt x ph := (hops i _ ph hi).2
  have hkeep : ∀ {j op q}, ph ≠ q → active j = some (op, q) →
      Function.update active i (remaining .zrmv ph') j = some (op, q) := by
    intro j op q hne hj
    refine moved_keeps _ hj ?_
    rw [hi]
    exact fun he => hne (Prod.mk.inj (Option.some.inj he)).2
  refine .removing ?_ (hx.next _ _ hat hn ?_ ?_ ?_ ?_)
  · intro j op q hj
    rcases moved_cases hj with hj | hj
    · obtain ⟨hreturned, rfl, rfl⟩ := remaining_eq_some.mp hj
      rcases hat.next hx hn with hnext | hq
      · exact ⟨rfl, hnext⟩
      · exact absurd hq hreturned
    · obtain ⟨rfl, hq⟩ := hops j op q hj
      exact ⟨rfl, hat.stable hn hq⟩
  · rintro hne ⟨j, op, old, hj | hj⟩
    · rcases eq_or_ne ph (.deleteRecord old) with rfl | hdelete
      · -- the call that has deleted the record leaves the bucket next
        have hleave : ph' = .leaveBucket old := by
          obtain ⟨rfl, -⟩ := Prod.mk.inj hn
          rfl
        exact ⟨i, _, old, .inr (by rw [hleave]; exact moved_self (by simp))⟩
      · exact ⟨j, op, old, .inl (hkeep hdelete hj)⟩
    · exact ⟨j, op, old, .inr (hkeep (hne old) hj)⟩
  · exact fun hne ⟨j, op, old, hj⟩ => ⟨j, op, old, hkeep (hne old) hj⟩
  · rintro old rfl
    have hself : Function.update active i (remaining .zrmv (.deleteRecord old)) i =
      some (.zrmv, .deleteRecord old) :=
      moved_self (by simp)
    exact ⟨⟨i, _, old, .inl hself⟩, ⟨i, _, old, hself⟩⟩
  · rintro old rfl
    exact ⟨i, _, old, .inr (moved_self (by simp))⟩

/-- One step of a call in progress. -/
theorem Era.step (h : Era enc active x) {op : Op S} (hi : active i = some (op, ph))
    (hn : next enc found x op ph = (ph', x')) :
    Era enc (Function.update active i (remaining op ph')) x' := by
  cases h with
  | adding s hops hbusy hx =>
    obtain ⟨rfl, -⟩ := hops i op ph hi
    exact .step_adding hops hx hi hn
  | removing hops hx =>
    obtain ⟨rfl, -⟩ := hops i op ph hi
    exact .step_removing hops hx hi hn

end Eras

variable [DecidableEq S]

/-- A turn of the first or the second of two calls on a value. -/
def duelStep (enc : S → R) (a b : Op S) :
    Phase S × Phase S × Member S R → Bool → Option (Phase S × Phase S × Member S R)
  | (p, q, x), true =>
    if p = .returned ∨ (p = .getZset ∧ x.score = none) then none
    else some ((next enc true x a p).1, q, (next enc true x a p).2)
  | (p, q, x), false =>
    if q = .returned ∨ (q = .getZset ∧ x.score = none) then none
    else some (p, (next enc true x b q).1, (next enc true x b q).2)

def CanTear (enc : S → R) (a b : Op S) : Prop :=
  ∃ turns x, run (duelStep enc a b) (a.first, b.first, ⟨none, ∅, none⟩) turns =
    some (.returned, .returned, x) ∧
    ¬ Settled enc x

/-- Both additions miss each other in the index, and both enter a bucket. -/
theorem canTear_zadd_zadd (enc : S → R) {s t : S} (h : s ≠ t) :
    CanTear enc (.zadd s) (.zadd t) := by
  refine ⟨[true, true, true, false, false, false, true, true, false, false],
    ⟨some t, {t, s}, some (enc t)⟩, ?_, ?_⟩
  · simp [run, duelStep, next, Op.first]
  · intro hx
    have hs : some t = some s := (hx.1 s).mp (by simp)
    exact h (Option.some.inj hs).symm

/-- The removal takes the value out of the index before the addition enters its bucket. -/
theorem canTear_zadd_zrmv (enc : S → R) (s : S) : CanTear enc (.zadd s) .zrmv := by
  refine ⟨[true, true, true, true, false, false, false, false, true], ⟨none, {s}, none⟩, ?_, ?_⟩
  · simp [run, duelStep, next, Op.first]
  · intro hx
    have hs : (none : Option S) = some s := (hx.1 s).mp (by simp)
    simp at hs

theorem CanTear.symm {enc : S → R} {a b : Op S} (h : CanTear enc a b) : CanTear enc b a := by
  obtain ⟨turns, x, hrun, hx⟩ := h
  have hstep :
      ∀ (y z : Phase S × Phase S × Member S R) (turn : Bool) (z' : Phase S × Phase S × Member S R),
      y = (z.2.1, z.1, z.2.2) → duelStep enc a b z turn = some z' →
      ∃ y', duelStep enc b a y (!turn) = some y' ∧ y' = (z'.2.1, z'.1, z'.2.2) := by
    rintro y ⟨p, q, w⟩ turn z' rfl hz
    cases turn <;>
    · simp only [duelStep] at hz
      split at hz
      · simp at hz
      · next hready =>
        obtain rfl := Option.some.inj hz
        exact ⟨_, if_neg hready, rfl⟩
  obtain ⟨y, hy, rfl⟩ := run_of_simulates _ _ hstep rfl hrun
  exact ⟨_, x, hy, hx⟩

theorem canTear_of_conflict (enc : S → R) {a b : Op S} (h : ¬ a.Compatible b) :
    CanTear enc a b := by
  cases a with
  | zadd s =>
    cases b with
    | zadd t => exact canTear_zadd_zadd enc h
    | zrmv => exact canTear_zadd_zrmv enc s
  | zrmv =>
    cases b with
    | zadd t => exact (canTear_zadd_zrmv enc t).symm
    | zrmv => exact absurd trivial h

end HCache.RustZSetMembers
