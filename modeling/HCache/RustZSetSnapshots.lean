import HCache.LinearizationPoints
import HCache.RustZSetRaces

/-!
# `zrange` beside `zadd_memory` and `zrmv`

Writers and readers of one sorted set, where no value has two writers at once. Readers see
the buckets only, writers decide from the other index. A call that changes a value takes
effect when it enters, moves or leaves a bucket, one that does not when it looks the value
up, and a `zrange` answers for the moment of its read section.
-/
namespace HCache.RustZSetSnapshots
open Std OrderedMaps TwoIndexRelations InterleavedSystems LinearizationPoints RustStorage
  RustSortedSets RustZSetMembers
open RustZSetRaces (Call atomicStep memberOf activeOn)

/-- A `zrange` call: before it has got the sorted set, before its read section, and after. -/
inductive Reader where
  | entered
  | gotZset
  | returned (answer : Except Panic (Option (List ScoreValue)))

structure State where
  store : RustZSetRaces.State
  readers : ℕ → Option Reader

inductive Event where
  | start (i : ℕ)
  | advance (i : ℕ)
  | startZrange (j : ℕ)
  | getZset (j : ℕ)
  | read (j : ℕ) (order : IterationOrder Str)

/-- The first step of `zadd_memory` and of `zrmv`. -/
def first : Call → Phase UInt32
  | .zadd _ => .getOrInsert
  | .zrmv _ => .getZset

def State.start (z : ZSet) (zsetDb : ExtTreeMap (List UInt8) (List UInt8)) : State :=
  ⟨⟨some z, zsetDb, fun _ => none⟩, fun _ => none⟩

def State.setReader (s : State) (j : ℕ) (reader : Reader) : State :=
  { s with readers := Function.update s.readers j (some reader) }

/-- Each of `calls` and of `ranges` starts at most once, and takes its steps at any time after
that. -/
def step (key : Str) (calls : List Call) (ranges : List ScoreRange) (s : State) :
    Event → Option State
  | .start i =>
    match calls[i]?, s.store.phases i with
    | some call, none => some { s with store := s.store.setPhase i (first call) }
    | _, _ => none
  | .advance i =>
    (RustZSetRaces.step key calls s.store (.advance i)).map (fun store => { s with store := store })
  | .startZrange j =>
    match ranges[j]?, s.readers j with
    | some _, none => some (s.setReader j .entered)
    | _, _ => none
  | .getZset j =>
    match s.readers j with
    | some .entered =>
      some (s.setReader j (if s.store.zset.isSome then .gotZset else .returned (.ok none)))
    | _ => none
  | .read j order =>
    match ranges[j]?, s.readers j with
    | some range, some .gotZset =>
      some (s.setReader j (.returned ((s.store.deref.zrange order range).map some)))
    | _, _ => none

def InProgress (s : State) (i : ℕ) : Prop := ∃ ph, s.store.phases i = some ph ∧ ph ≠ .returned

def Returned (s : State) (i : ℕ) : Prop := s.store.phases i = some .returned

def Reading (s : State) (j : ℕ) : Prop := s.readers j = some .entered ∨ s.readers j = some .gotZset

/-- A call starts only when no other call on its value is in progress. -/
def NotShared (calls : List Call) (s : State) : Event → Prop
  | .start i => ∀ j call call', calls[i]? = some call → calls[j]? = some call' → InProgress s j →
      call.value ≠ call'.value
  | _ => True

/-- The map from values to scores after call `i`. -/
def perform (calls : List Call) (m : Str → Option UInt32) (i : ℕ) : Str → Option UInt32 :=
  match calls[i]? with
  | some (.zadd sv) => put m sv.value sv.score
  | some (.zrmv value) => drop m value
  | none => m

variable {S R : Type*} [DecidableEq S]

def target : Op S → Option S
  | .zadd s => some s
  | .zrmv => none

/-- The steps at which a call takes effect: its bucket edit, or the lookup after which it has
nothing to edit. -/
def Takes (score : Option S) : Op S → Phase S → Prop
  | .zadd s, .getScore => score = some s
  | .zadd _, .enterNew => True
  | .zadd _, .moveBucket _ => True
  | .zrmv, .removeScore => score = none
  | .zrmv, .leaveBucket _ => True
  | _, _ => False

instance (score : Option S) (op : Op S) (ph : Phase S) : Decidable (Takes score op ph) := by
  unfold Takes
  split <;> infer_instance

def Past : Phase S → Prop
  | .insertMoved | .returned => True
  | _ => False

def Shows (x : Member S R) (y : Option S) : Prop := ∀ t, t ∈ x.buckets ↔ y = some t

/-- What the only call in progress on a value expects of the index and of the map. -/
def Expects (x : Member S R) (y : Option S) : Op S → Phase S → Prop
  | .zadd _, .getOrInsert | .zadd _, .getScore | .zrmv, .getZset | .zrmv, .removeScore =>
    x.score = y
  | .zadd _, .insertNew => x.score = none ∧ y = none
  | .zadd s, .enterNew => x.score = some s ∧ y = none
  | .zadd _, .moveBucket old => x.score = some old ∧ y = some old
  | .zadd s, .insertMoved => y = some s
  | .zrmv, .deleteRecord old | .zrmv, .leaveBucket old => x.score = none ∧ y = some old
  | _, .returned => x.score = y
  | _, _ => False

variable {enc : S → R} {x x' : Member S R} {y : Option S} {op : Op S} {ph ph' : Phase S}

omit [DecidableEq S] in
theorem not_past_of_takes {score : Option S} (h : Takes score op ph) : ¬ Past ph := by
  cases op <;> cases ph <;> first | exact h.elim | exact id

/-- The step at which the only call in progress on a value takes effect. -/
theorem Expects.takes (h : Expects x y op ph) (hshows : Shows x y) (ht : Takes x.score op ph)
    (hn : next enc true x op ph = (ph', x')) :
    Shows x' (target op) ∧ Expects x' (target op) op ph' ∧ Past ph' := by
  cases op with
  | zadd s =>
    cases ph with
    | getScore =>
      have hscore : x.score = some s := ht
      obtain rfl : x.score = y := h
      simp only [next, hscore, if_true] at hn
      obtain ⟨rfl, rfl⟩ := Prod.mk.inj hn
      rw [hscore] at hshows
      exact ⟨hshows, hscore, trivial⟩
    | enterNew =>
      obtain ⟨rfl, rfl⟩ := Prod.mk.inj hn
      obtain ⟨hscore, rfl⟩ := h
      refine ⟨?_, hscore, trivial⟩
      intro t
      simp [target, hshows t, eq_comm]
    | moveBucket old =>
      obtain ⟨rfl, rfl⟩ := Prod.mk.inj hn
      obtain ⟨-, rfl⟩ := h
      refine ⟨?_, rfl, trivial⟩
      intro t
      simp [target, hshows t, eq_comm]
    | _ => exact ht.elim
  | zrmv =>
    cases ph with
    | removeScore =>
      have hscore : x.score = none := ht
      obtain rfl : x.score = y := h
      simp only [next, hscore] at hn
      obtain ⟨rfl, rfl⟩ := Prod.mk.inj hn
      rw [hscore] at hshows
      exact ⟨hshows, hscore, trivial⟩
    | leaveBucket old =>
      obtain ⟨rfl, rfl⟩ := Prod.mk.inj hn
      obtain ⟨hscore, rfl⟩ := h
      refine ⟨?_, hscore, trivial⟩
      intro t
      simp [target, hshows t, eq_comm]
    | _ => exact ht.elim

/-- Any other step of it. -/
theorem Expects.keeps (h : Expects x y op ph) (hshows : Shows x y) (hne : ph ≠ .returned)
    (ht : ¬ Takes x.score op ph) (hn : next enc true x op ph = (ph', x')) :
    Shows x' y ∧ Expects x' y op ph' ∧ (Past ph' ↔ Past ph) := by
  cases op with
  | zadd s =>
    cases ph with
    | getOrInsert =>
      obtain ⟨rfl, rfl⟩ := Prod.mk.inj hn
      exact ⟨hshows, h, Iff.rfl⟩
    | getScore =>
      obtain rfl : x.score = y := h
      cases hscore : x.score with
      | none =>
        simp only [next, hscore] at hn
        obtain ⟨rfl, rfl⟩ := Prod.mk.inj hn
        exact ⟨hscore ▸ hshows, ⟨hscore, rfl⟩, Iff.rfl⟩
      | some old =>
        have hmoved : old ≠ s := fun he => ht (he ▸ hscore)
        simp only [next, hscore, if_neg hmoved] at hn
        obtain ⟨rfl, rfl⟩ := Prod.mk.inj hn
        exact ⟨hscore ▸ hshows, ⟨hscore, rfl⟩, Iff.rfl⟩
    | insertNew =>
      obtain ⟨rfl, rfl⟩ := Prod.mk.inj hn
      exact ⟨hshows, ⟨rfl, h.2⟩, Iff.rfl⟩
    | insertMoved =>
      obtain ⟨rfl, rfl⟩ := Prod.mk.inj hn
      have hy : y = some s := h
      exact ⟨hshows, hy.symm, Iff.rfl⟩
    | enterNew => exact absurd trivial ht
    | moveBucket old => exact absurd trivial ht
    | returned => exact absurd rfl hne
    | _ => exact h.elim
  | zrmv =>
    cases ph with
    | getZset =>
      obtain ⟨rfl, rfl⟩ := Prod.mk.inj hn
      exact ⟨hshows, h, Iff.rfl⟩
    | removeScore =>
      obtain rfl : x.score = y := h
      obtain ⟨old, hscore⟩ := Option.ne_none_iff_exists'.mp ht
      simp only [next, hscore] at hn
      obtain ⟨rfl, rfl⟩ := Prod.mk.inj hn
      exact ⟨hshows, ⟨rfl, hscore⟩, Iff.rfl⟩
    | deleteRecord old =>
      obtain ⟨rfl, rfl⟩ := Prod.mk.inj hn
      exact ⟨hshows, h, Iff.rfl⟩
    | leaveBucket old => exact absurd trivial ht
    | returned => exact absurd rfl hne
    | _ => exact h.elim

def effect (calls : List Call) (s : State) : Event → Option ℕ
  | .advance i =>
    match calls[i]?, s.store.phases i with
    | some call, some ph =>
      if Takes (members s.store.deref call.value) call.op ph then some i else none
    | _, _ => none
  | _ => none

private theorem run_advances {key : Str} {calls : List Call} (ranges : List ScoreRange) {s : State}
    {store : RustZSetRaces.State} {i n : ℕ}
    (h : run (RustZSetRaces.step key calls) s.store (List.replicate n (.advance i)) = some store) :
    run (step key calls ranges) s (List.replicate n (.advance i)) =
      some { s with store := store } := by
  induction n generalizing s with
  | zero =>
    obtain rfl := Option.some.inj h
    rfl
  | succ n ih =>
    rw [List.replicate_succ, run_cons_eq_some] at h ⊢
    obtain ⟨store', hs, hr⟩ := h
    exact ⟨{ s with store := store' }, by simp [step, hs], ih (s := { s with store := store' }) hr⟩

/-- A `zadd_memory` that no other call interrupts does what the sequential operation does. -/
theorem run_alone (key : Str) {calls : List Call} (ranges : List ScoreRange) {s : State} {i : ℕ}
    {sv : ScoreValue} (hi : calls[i]? = some (.zadd sv)) (hnone : s.store.phases i = none) :
    ∃ n t, run (step key calls ranges) s (.start i :: List.replicate n (.advance i)) = some t ∧
      t.store.zset = some (s.store.deref.zaddMemory sv) := by
  obtain ⟨n, hn⟩ := RustZSetRaces.run_finish hi (RustZSetRaces.finish_zaddMemory key s.store sv)
  refine ⟨n, _, run_cons_eq_some.mpr ⟨{ s with store := s.store.setPhase i .getOrInsert }, ?_,
    run_advances ranges hn⟩, rfl⟩
  simp [step, hi, hnone, first]

variable {key : Str} {calls : List Call} {ranges : List ScoreRange} {s s' : State}
  {m : Str → Option UInt32}

theorem perform_eq {i : ℕ} {call : Call} (hi : calls[i]? = some call) (m : Str → Option UInt32)
    (value : Str) :
    perform calls m i value = if call.value = value then target call.op else m value := by
  cases call with
  | zadd sv =>
    rcases eq_or_ne value sv.value with rfl | hne
    · simp [perform, hi, Call.value, Call.op, target]
    · simp [perform, hi, Call.value, put_of_ne hne, Ne.symm hne]
  | zrmv removed =>
    rcases eq_or_ne value removed with rfl | hne
    · simp [perform, hi, Call.value, Call.op, target]
    · simp [perform, hi, Call.value, drop_of_ne hne, Ne.symm hne]

/-- What one event does: a call starts or takes an atomic step, or only a reader moves. -/
theorem step_cases {event : Event} (h : step key calls ranges s event = some s') :
    (∃ i call, event = .start i ∧ calls[i]? = some call ∧ s.store.phases i = none ∧
      s' = { s with store := s.store.setPhase i (first call) }) ∨
    (∃ i call ph, event = .advance i ∧ calls[i]? = some call ∧ s.store.phases i = some ph ∧
      ph ≠ .returned ∧
      s' = { s with store :=
        (atomicStep key s.store call ph).2.setPhase i (atomicStep key s.store call ph).1 }) ∨
    ∃ j reader, s' = s.setReader j reader ∧ effect calls s event = none ∧ (∀ i, event ≠ .start i) ∧
      ((∀ answer, reader ≠ .returned answer) ∨
        (s.store.zset.isSome = false ∧ Reading s j ∧ reader = .returned (.ok none)) ∨
        ∃ range order, ranges[j]? = some range ∧ Reading s j ∧
          reader = .returned ((s.store.deref.zrange order range).map some)) := by
  cases event with
  | start i =>
    simp only [step] at h
    split at h
    · next call hi hnone => exact .inl ⟨i, call, rfl, hi, hnone, (Option.some.inj h).symm⟩
    · simp at h
  | advance i =>
    obtain ⟨store, hstore, rfl⟩ := Option.map_eq_some_iff.mp h
    rcases RustZSetRaces.step_cases hstore with ⟨_, _, he, -⟩ | ⟨_, call, ph, he, hi, hph, hne, rfl⟩
    · simp at he
    · obtain rfl := RustZSetRaces.Event.advance.inj he
      exact .inr (.inl ⟨i, call, ph, rfl, hi, hph, hne, rfl⟩)
  | startZrange j =>
    simp only [step] at h
    split at h
    · exact .inr (.inr ⟨j, .entered, (Option.some.inj h).symm, rfl, by simp, .inl (by simp)⟩)
    · simp at h
  | getZset j =>
    simp only [step] at h
    split at h
    · next hj =>
      obtain rfl := Option.some.inj h
      cases hz : s.store.zset.isSome with
      | true => exact .inr (.inr ⟨j, .gotZset, by simp, rfl, by simp, .inl (by simp)⟩)
      | false => exact .inr (.inr ⟨j, _, by simp, rfl, by simp, .inr (.inl ⟨rfl, .inl hj, rfl⟩)⟩)
    · simp at h
  | read j order =>
    simp only [step] at h
    split at h
    · next range hrange hj =>
      exact .inr (.inr ⟨j, _, (Option.some.inj h).symm, rfl, by simp,
        .inr (.inr ⟨range, order, hrange, .inr hj, rfl⟩)⟩)
    · simp at h

/-- The sorted set exists, its buckets are the levels of the map, and the index of a value
says the same but for the call in progress on it, of which there is one at most. -/
structure Inv (key : Str) (calls : List Call) (s : State) (m : Str → Option UInt32) : Prop where
  found : s.store.zset.isSome = true
  shows : ∀ value, Shows (memberOf key s.store value) (m value)
  idle : ∀ value, (∀ i, activeOn calls s.store value i = none) →
    members s.store.deref value = m value
  active : ∀ value i op ph, activeOn calls s.store value i = some (op, ph) →
    Expects (memberOf key s.store value) (m value) op ph
  alone : ∀ value i j p q, activeOn calls s.store value i = some p →
    activeOn calls s.store value j = some q → i = j

private theorem expects_returned {x : Member UInt32 (List UInt8)} {y : Option UInt32}
    {op : Op UInt32} :
    Expects x y op .returned ↔ x.score = y := by
  cases op <;> exact Iff.rfl

theorem inv_start {z : ZSet} (hz : Consistent z) (zsetDb : ExtTreeMap (List UInt8) (List UInt8)) :
    Inv key calls (State.start z zsetDb) (members z) := by
  have hnone : ∀ value i, activeOn calls (State.start z zsetDb).store value i = none := by
    intro value i
    cases hi : calls[i]? <;> simp [activeOn, State.start, hi]
  refine ⟨rfl, ?_, fun _ _ => rfl, ?_, ?_⟩
  · intro value t
    exact hz.mem_bucket
  · intro value i op ph hi
    simp [hnone] at hi
  · intro value i j p q hi
    simp [hnone] at hi

theorem Inv.moved (h : Inv key calls s m) {i : ℕ} {call : Call} (hi : calls[i]? = some call)
    {store : RustZSetRaces.State} (hphases : store.phases = s.store.phases)
    (hfound : store.zset.isSome = true) {ph : Phase UInt32} {m' : Str → Option UInt32}
    (hquiet : ∀ j, j ≠ i → activeOn calls s.store call.value j = none)
    (hshows : Shows (memberOf key store call.value) (m' call.value))
    (hexpects : Expects (memberOf key store call.value) (m' call.value) call.op ph)
    (hother : ∀ value, value ≠ call.value → memberOf key store value = memberOf key s.store value ∧
    m' value = m value) :
    Inv key calls { s with store := store.setPhase i ph } m' := by
  have hself : activeOn calls (store.setPhase i ph) call.value =
      Function.update (activeOn calls s.store call.value) i (remaining call.op ph) := by
    rw [RustZSetRaces.activeOn_setPhase hi hphases, if_pos rfl]
  have haway : ∀ value, value ≠ call.value →
      activeOn calls (store.setPhase i ph) value = activeOn calls s.store value := by
    intro value hne
    rw [RustZSetRaces.activeOn_setPhase hi hphases, if_neg (Ne.symm hne)]
  have honly : ∀ j p, activeOn calls (store.setPhase i ph) call.value j = some p →
      j = i ∧ remaining call.op ph = some p := by
    intro j p hj
    rcases eq_or_ne j i with rfl | hne
    · rw [hself, Function.update_self] at hj
      exact ⟨rfl, hj⟩
    · rw [hself, Function.update_of_ne hne, hquiet j hne] at hj
      simp at hj
  refine ⟨hfound, ?_, ?_, ?_, ?_⟩
  · intro value
    rcases eq_or_ne value call.value with rfl | hne
    · exact hshows
    · simp only [RustZSetRaces.memberOf_setPhase, hother value hne]
      exact h.shows value
  · intro value hidle
    rcases eq_or_ne value call.value with rfl | hne
    · have hreturned : ph = .returned := by
        by_contra hne
        have hi' := hidle i
        rw [hself, Function.update_self, remaining, if_neg hne] at hi'
        simp at hi'
      subst hreturned
      exact expects_returned.mp hexpects
    · simp only [haway value hne] at hidle
      have hmember := (hother value hne).1
      rw [(hother value hne).2, ← h.idle value hidle]
      exact congrArg Member.score hmember
  · intro value j op q hj
    rcases eq_or_ne value call.value with rfl | hne
    · obtain ⟨-, hq⟩ := honly j _ hj
      obtain ⟨-, rfl, rfl⟩ := remaining_eq_some.mp hq
      exact hexpects
    · rw [haway value hne] at hj
      simp only [RustZSetRaces.memberOf_setPhase, hother value hne]
      exact h.active value j op q hj
  · intro value j k p q hj hk
    rcases eq_or_ne value call.value with rfl | hne
    · rw [(honly j p hj).1, (honly k q hk).1]
    · rw [haway value hne] at hj hk
      exact h.alone value j k p q hj hk

private theorem found_atomicStep (key : Str) {store : RustZSetRaces.State}
    (h : store.zset.isSome = true) (call : Call) (ph : Phase UInt32) :
    (atomicStep key store call ph).2.zset.isSome = true := by
  cases call with
  | zadd sv =>
    cases ph with
    | getScore =>
      simp only [atomicStep]
      split <;> exact h
    | _ => first | exact h | rfl
  | zrmv value =>
    cases ph with
    | removeScore =>
      simp only [atomicStep]
      split
      · rfl
      · exact h
    | _ => first | exact h | rfl

private theorem inProgress_of_activeOn {value : Str} {i : ℕ} {p : Op UInt32 × Phase UInt32}
    (h : activeOn calls s.store value i = some p) :
    ∃ call, calls[i]? = some call ∧ call.value = value ∧ InProgress s i := by
  obtain ⟨call, hi, hph, hvalue, hne, -⟩ := RustZSetRaces.activeOn_eq_some.mp h
  exact ⟨call, hi, hvalue, _, hph, hne⟩

private theorem inv_step (h : Inv key calls s m) {event : Event} (hc : NotShared calls s event)
    (hs : step key calls ranges s event = some s') :
    Inv key calls s' ((effect calls s event).elim m (perform calls m)) := by
  rcases step_cases hs with ⟨i, call, rfl, hi, hnone, rfl⟩ | ⟨i, call, ph, rfl, hi, hph, hne, rfl⟩ |
    ⟨j, reader, rfl, heffect, -, -⟩
  · have hquiet : ∀ j, activeOn calls s.store call.value j = none := by
      intro j
      by_contra hj
      obtain ⟨p, hp⟩ := Option.ne_none_iff_exists'.mp hj
      obtain ⟨call', hcall', hvalue, hprogress⟩ := inProgress_of_activeOn hp
      exact hc j call call' hi hcall' hprogress hvalue.symm
    have hidle := h.idle call.value hquiet
    refine h.moved hi rfl h.found (fun j _ => hquiet j) (h.shows call.value) ?_
      (fun _ _ => ⟨rfl, rfl⟩)
    cases call <;> exact hidle
  · have hactive : activeOn calls s.store call.value i = some (call.op, ph) :=
      RustZSetRaces.activeOn_eq_some.mpr ⟨call, hi, hph, rfl, hne, rfl⟩
    have hexpects := h.active call.value i _ _ hactive
    have hnext := RustZSetRaces.memberOf_atomicStep_self key s.store call ph
    rw [h.found] at hnext
    have hquiet : ∀ j, j ≠ i → activeOn calls s.store call.value j = none := by
      intro j hj
      by_contra hsome
      obtain ⟨p, hp⟩ := Option.ne_none_iff_exists'.mp hsome
      exact hj (h.alone call.value j i p _ hp hactive)
    have hother : ∀ value, value ≠ call.value →
        memberOf key (atomicStep key s.store call ph).2 value = memberOf key s.store value :=
      fun value hvalue => RustZSetRaces.memberOf_atomicStep_other key s.store call ph hvalue
    have hphases := RustZSetRaces.atomicStep_phases key s.store call ph
    have hfound := found_atomicStep key h.found call ph
    by_cases ht : Takes (members s.store.deref call.value) call.op ph
    · have heffect : effect calls s (.advance i) = some i := by simp [effect, hi, hph, ht]
      obtain ⟨hshows, hexpects', -⟩ := hexpects.takes (h.shows call.value) ht hnext.symm
      rw [heffect, Option.elim_some]
      have hm : perform calls m i call.value = target call.op := by rw [perform_eq hi, if_pos rfl]
      refine h.moved hi hphases hfound hquiet (hm ▸ hshows) (hm ▸ hexpects') ?_
      intro value hvalue
      exact ⟨hother value hvalue, by rw [perform_eq hi, if_neg (Ne.symm hvalue)]⟩
    · have heffect : effect calls s (.advance i) = none := by simp [effect, hi, hph, ht]
      obtain ⟨hshows, hexpects', -⟩ := hexpects.keeps (h.shows call.value) hne ht hnext.symm
      rw [heffect, Option.elim_none]
      exact h.moved hi hphases hfound hquiet hshows hexpects'
        (fun value hvalue => ⟨hother value hvalue, rfl⟩)
  · rw [heffect, Option.elim_none]
    exact ⟨h.found, h.shows, h.idle, h.active, h.alone⟩

def Taken (s : State) (i : ℕ) : Prop := ∃ ph, s.store.phases i = some ph ∧ Past ph

theorem effect_eq_some {event : Event} {i : ℕ} : effect calls s event = some i ↔
    ∃ call ph, event = .advance i ∧ calls[i]? = some call ∧ s.store.phases i = some ph ∧
      Takes (members s.store.deref call.value) call.op ph := by
  constructor
  · intro h
    cases event with
    | advance j =>
      simp only [effect] at h
      split at h
      · next call ph hj hph =>
        obtain ⟨ht, hi⟩ := Option.ite_none_right_eq_some.mp h
        obtain rfl := Option.some.inj hi
        exact ⟨call, ph, rfl, hj, hph, ht⟩
      · simp at h
    | _ => simp [effect] at h
  · rintro ⟨call, ph, rfl, hi, hph, ht⟩
    simp [effect, hi, hph, ht]

private theorem taken_step (h : Inv key calls s m) {event : Event}
    (hs : step key calls ranges s event = some s') (i : ℕ) :
    Taken s' i ↔ Taken s i ∨ effect calls s event = some i := by
  rcases step_cases hs with ⟨j, call, rfl, hj, hnone, rfl⟩ | ⟨j, call, ph, rfl, hj, hph, hne, rfl⟩ |
    ⟨j, reader, rfl, heffect, -, -⟩
  · have heffect : effect calls s (.start j) = none := rfl
    rcases eq_or_ne i j with rfl | hij
    · have hfirst : ¬ Past (first call) := by cases call <;> exact id
      simp [Taken, RustZSetRaces.State.setPhase, heffect, hnone, hfirst]
    · simp [Taken, RustZSetRaces.State.setPhase, heffect, Function.update_of_ne hij]
  · have hactive : activeOn calls s.store call.value j = some (call.op, ph) :=
      RustZSetRaces.activeOn_eq_some.mpr ⟨call, hj, hph, rfl, hne, rfl⟩
    have hexpects := h.active call.value j _ _ hactive
    have hnext := RustZSetRaces.memberOf_atomicStep_self key s.store call ph
    rw [h.found] at hnext
    rcases eq_or_ne i j with rfl | hij
    · have hpast : Past (atomicStep key s.store call ph).1 ↔
          Past ph ∨ Takes (members s.store.deref call.value) call.op ph := by
        by_cases ht : Takes (members s.store.deref call.value) call.op ph
        · exact iff_of_true (hexpects.takes (h.shows _) ht hnext.symm).2.2 (.inr ht)
        · rw [(hexpects.keeps (h.shows _) hne ht hnext.symm).2.2, or_iff_left ht]
      simp [Taken, RustZSetRaces.State.setPhase, effect, hj, hph, hpast]
    · have heffect : effect calls s (.advance j) ≠ some i := by
        intro he
        obtain ⟨_, _, hadvance, -⟩ := effect_eq_some.mp he
        exact hij (Event.advance.inj hadvance).symm
      simp [Taken, RustZSetRaces.State.setPhase, RustZSetRaces.atomicStep_phases, heffect,
        Function.update_of_ne hij]
  · rw [heffect]
    simp [Taken, State.setReader]

/-- Calls take effect at their bucket edits, or at the lookups after which there is none. -/
theorem commits (key : Str) (calls : List Call) (ranges : List ScoreRange) :
    Commits (step key calls ranges) (effect calls) (perform calls) InProgress Returned Taken
      (NotShared calls)
      (Inv key calls) := by
  constructor
  · exact fun h hc hs => inv_step h hc hs
  · intro s m event s' i _ _ _ heffect
    obtain ⟨call, ph, -, -, hph, ht⟩ := effect_eq_some.mp heffect
    have hpast := not_past_of_takes ht
    constructor
    · refine ⟨ph, hph, ?_⟩
      rintro rfl
      exact hpast trivial
    · rintro ⟨q, hq, hpast'⟩
      obtain rfl := Option.some.inj (hph.symm.trans hq)
      exact hpast hpast'
  · exact fun h _ hs => taken_step h hs _
  · exact fun _ hreturned => ⟨_, hreturned, trivial⟩

private theorem exists_reading {z : ZSet} {zsetDb : ExtTreeMap (List UInt8) (List UInt8)}
    {events : List Event} (hr : run (step key calls ranges) (State.start z zsetDb) events = some s)
    {j : ℕ} {range : ScoreRange} (hj : ranges[j]? = some range)
    {answer : Except Panic (Option (List ScoreValue))}
    (hanswer : s.readers j = some (.returned answer)) :
    ∃ n u, run (step key calls ranges) (State.start z zsetDb) (events.take n) = some u ∧
      Reading u j ∧
      ((u.store.zset.isSome = false ∧ answer = .ok none) ∨
        ∃ order, answer = (u.store.deref.zrange order range).map some) := by
  refine exists_moment (fun s => s.readers j = some (.returned answer)) _ ?_ ?_ hr hanswer
  · intro s event s' hs hanswer'
    rcases step_cases hs with ⟨i, call, -, -, -, rfl⟩ | ⟨i, call, ph, -, -, -, -, rfl⟩ |
    ⟨k, reader, rfl, -, -, hreader⟩
    · exact .inl hanswer'
    · exact .inl hanswer'
    · rcases eq_or_ne j k with rfl | hne
      · obtain rfl : reader = .returned answer := by simpa [State.setReader] using hanswer'
        rcases hreader with hmoving | ⟨hz, hreading, he⟩ | ⟨range', order, hrange, hreading, he⟩
        · exact absurd rfl (hmoving answer)
        · exact .inr ⟨hreading, .inl ⟨hz, Reader.returned.inj he⟩⟩
        · obtain rfl := Option.some.inj (hj.symm.trans hrange)
          exact .inr ⟨hreading, .inr ⟨order, Reader.returned.inj he⟩⟩
      · refine .inl ?_
        simpa [State.setReader, Function.update_of_ne hne] using hanswer'
  · simp [State.start]

private theorem inProgress_step {event : Event} (hs : step key calls ranges s event = some s')
    {i : ℕ} (h : InProgress s' i) :
    event = .start i ∨ InProgress s i := by
  obtain ⟨q, hq, hne⟩ := h
  rcases step_cases hs with ⟨j, call, rfl, -, -, rfl⟩ | ⟨j, call, ph, rfl, -, hph, hph', rfl⟩ |
    ⟨j, reader, rfl, -, -, -⟩
  · rcases eq_or_ne i j with rfl | hij
    · exact .inl rfl
    · exact .inr ⟨q,
        by simpa [RustZSetRaces.State.setPhase, Function.update_of_ne hij] using hq, hne⟩
  · rcases eq_or_ne i j with rfl | hij
    · exact .inr ⟨ph, hph, hph'⟩
    · refine .inr ⟨q, ?_, hne⟩
      simpa [RustZSetRaces.State.setPhase, RustZSetRaces.atomicStep_phases,
      Function.update_of_ne hij] using hq
  · exact .inr ⟨q, hq, hne⟩

theorem Inv.perform_inProgress (h : Inv key calls s m) {i k : ℕ} {call : Call}
    (hi : calls[i]? = some call) (hprogress : InProgress s i) {event : Event}
    (hk : effect calls s event = some k) :
    perform calls m k call.value = target call.op ∨
    perform calls m k call.value = m call.value := by
  obtain ⟨call', ph', -, hcall', hph', ht⟩ := effect_eq_some.mp hk
  obtain ⟨ph, hph, hne⟩ := hprogress
  rw [perform_eq hcall']
  split
  · next hvalue =>
    have hne' : ph' ≠ .returned := by
      rintro rfl
      exact not_past_of_takes ht trivial
    have hactive : activeOn calls s.store call.value i = some (call.op, ph) :=
      RustZSetRaces.activeOn_eq_some.mpr ⟨call, hi, hph, rfl, hne, rfl⟩
    have hactive' : activeOn calls s.store call.value k = some (call'.op, ph') :=
      RustZSetRaces.activeOn_eq_some.mpr ⟨call', hcall', hph', hvalue, hne', rfl⟩
    obtain rfl := h.alone call.value i k _ _ hactive hactive'
    obtain rfl := Option.some.inj (hi.symm.trans hcall')
    exact .inl rfl
  · exact .inr rfl

/-- The calls of a run in the order in which they take effect. -/
def effectsIn (key : Str) (calls : List Call) (ranges : List ScoreRange) (s₀ : State)
    (events : List Event) :
    List (Option ℕ) :=
  effectsOf (step key calls ranges) (effect calls) s₀ events

/-- The value of a call in progress has the score it had when the call started, or the one
that the call leaves. -/
theorem score_while_inProgress {z : ZSet} (hz : Consistent z)
    {zsetDb : ExtTreeMap (List UInt8) (List UInt8)} {events : List Event}
    (hr : run (step key calls ranges) (State.start z zsetDb) events = some s)
    (hm : Meets (step key calls ranges) (NotShared calls) (State.start z zsetDb) events) {n : ℕ}
    {u : State} (hu : run (step key calls ranges) (State.start z zsetDb) (events.take n) = some u)
    {i : ℕ} {call : Call} (hi : calls[i]? = some call) (hprogress : InProgress u i)
    {effects : List (Option ℕ)}
    (heffects : effects = effectsIn key calls ranges (State.start z zsetDb) events) :
    ∃ p, p < n ∧ events[p]? = some (.start i) ∧
      (valueAt (perform calls) (members z) effects n call.value =
        valueAt (perform calls) (members z) effects p call.value ∨
      valueAt (perform calls) (members z) effects n call.value = target call.op) := by
  subst heffects
  induction n generalizing u with
  | zero =>
    obtain rfl := Option.some.inj hu
    obtain ⟨ph, hph, -⟩ := hprogress
    simp [State.start] at hph
  | succ n ih =>
    rcases run_take_succ hu with ⟨hend, hv⟩ | ⟨v, event, hevent, hv, hs⟩
    · obtain ⟨p, hp, hstart, hscore⟩ := ih hv hprogress
      have hnone : (effectsIn key calls ranges (State.start z zsetDb) events)[n]? = none := by
        rw [List.getElem?_eq_none_iff, effectsIn, length_effectsOf hr]
        exact List.getElem?_eq_none_iff.mp hend
      exact ⟨p, Nat.lt_succ_of_lt hp, hstart, by rwa [valueAt_succ_of_none _ _ hnone]⟩
    · have hinv :
          Inv key calls v
            (valueAt (perform calls) (members z) (effectsIn key calls ranges _ events) n) :=
        (commits key calls ranges).inv_at (inv_start hz zsetDb) hm hr hv
      have hat : (effectsIn key calls ranges (State.start z zsetDb) events)[n]? =
          some (effect calls v event) :=
        getElem?_effectsOf hr hv hevent
      rw [valueAt_succ _ _ hat]
      rcases inProgress_step hs hprogress with rfl | hprogress
      · exact ⟨n, Nat.lt_succ_self n, hevent, .inl rfl⟩
      · obtain ⟨p, hp, hstart, hscore⟩ := ih hv hprogress
        refine ⟨p, Nat.lt_succ_of_lt hp, hstart, ?_⟩
        cases heffect : effect calls v event with
        | none => exact hscore
        | some k =>
          rcases hinv.perform_inProgress hi hprogress heffect with htarget | hsame
          · exact .inr htarget
          · rw [Option.elim_some, hsame]
            exact hscore

def fullRange : ScoreRange := ⟨0, 0xffffffff⟩

private theorem mem_fullRange (score : UInt32) :
    fullRange.minScore ≤ score ∧ score ≤ fullRange.maxScore := by
  constructor
  · rw [UInt32.le_iff_toNat_le]
    exact Nat.zero_le _
  · rw [UInt32.le_iff_toNat_le]
    have hlt := score.toNat_lt
    show score.toNat ≤ 4294967295
    omega

/-- Where no two calls on one value are in progress at once, each call takes effect at one
event between its start and its end, and every `zrange` answers for the map of a moment
between its own: a value whose score is being changed is there once, under the score it had
when the change started or under the new one. -/
theorem zrange_snapshot (key : Str) (calls : List Call) (ranges : List ScoreRange) {z : ZSet}
    (hz : Consistent z) (zsetDb : ExtTreeMap (List UInt8) (List UInt8)) {events : List Event}
    {s : State} (hr : run (step key calls ranges) (State.start z zsetDb) events = some s)
    (hm : Meets (step key calls ranges) (NotShared calls) (State.start z zsetDb) events) :
    ∃ effects : List (Option ℕ),
      EffectOrder (step key calls ranges) InProgress Returned
        (State.start z zsetDb) events effects ∧
      ∀ j range answer, ranges[j]? = some range → range.minScore ≤ range.maxScore →
        s.readers j = some (.returned answer) → ∃ t u l,
          run (step key calls ranges) (State.start z zsetDb) (events.take t) = some u ∧
          Reading u j ∧
          answer = .ok (some l) ∧
          RangeAnswer (valueAt (perform calls) (members z) effects t) range l ∧
          ∀ i sv, range = fullRange → calls[i]? = some (.zadd sv) → InProgress u i →
            ∃ p, p < t ∧ events[p]? = some (.start i) ∧ ∀ old,
              valueAt (perform calls) (members z) effects p sv.value = some old →
                l.filter (fun e => e.value = sv.value) = [⟨old, sv.value⟩] ∨
                l.filter (fun e => e.value = sv.value) = [sv] := by
  have hnone : ∀ i, ¬ Taken (State.start z zsetDb) i := by
    rintro i ⟨ph, hph, -⟩
    simp [State.start] at hph
  refine ⟨effectsIn key calls ranges (State.start z zsetDb) events,
    (commits key calls ranges).effectOrder (inv_start hz zsetDb) hnone hm hr, ?_⟩
  intro j range answer hj hrange hanswer
  obtain ⟨t, u, hu, hreading, hsees⟩ := exists_reading hr hj hanswer
  have hinv :
      Inv key calls u
        (valueAt (perform calls) (members z) (effectsIn key calls ranges _ events) t) :=
    (commits key calls ranges).inv_at (inv_start hz zsetDb) hm hr hu
  rcases hsees with ⟨hmissing, -⟩ | ⟨order, rfl⟩
  · simp [hinv.found] at hmissing
  · have hlevel : bucketOf u.store.deref.scoreToValues =
        level
          (valueAt (perform calls) (members z)
            (effectsIn key calls ranges (State.start z zsetDb) events) t) := by
      funext score
      ext value
      exact hinv.shows value score
    obtain ⟨l, hl, hrangeAnswer⟩ := zrange_of_level hlevel order hrange
    refine ⟨t, u, l, hu, hreading, by rw [hl]; rfl, hrangeAnswer, ?_⟩
    rintro i sv rfl hi hprogress
    obtain ⟨p, hp, hstart, hscore⟩ := score_while_inProgress hz hr hm hu hi hprogress rfl
    refine ⟨p, hp, hstart, ?_⟩
    intro old hold
    rcases hscore with hsame | hnew
    · exact .inl (hrangeAnswer.filter_value (hsame.trans hold) (mem_fullRange old).1
        (mem_fullRange old).2)
    · exact .inr (hrangeAnswer.filter_value hnew (mem_fullRange sv.score).1
        (mem_fullRange sv.score).2)

/-- A score that moves from 1 to 2 between the two steps of a `zrange`. -/
def movedBetween (order : IterationOrder Str) : List Event :=
  [.start 0, .advance 0, .advance 0, .startZrange 0, .getZset 0, .advance 0, .read 0 order]

theorem zrange_snapshot_moving : ∃ s t u l,
    run (step [122] [.zadd ⟨2, [97]⟩] [fullRange]) (State.start (ZSet.new.zaddMemory ⟨1, [97]⟩) ∅)
      (movedBetween (IterationOrder.choice Str)) = some s ∧
      s.readers 0 = some (.returned (.ok (some l))) ∧
    run (step [122] [.zadd ⟨2, [97]⟩] [fullRange]) (State.start (ZSet.new.zaddMemory ⟨1, [97]⟩) ∅)
      ((movedBetween (IterationOrder.choice Str)).take t) = some u ∧ Reading u 0 := by
  have hrun :
      ∃ s,
      run (step [122] [.zadd ⟨2, [97]⟩] [fullRange]) (State.start (ZSet.new.zaddMemory ⟨1, [97]⟩) ∅)
      (movedBetween (IterationOrder.choice Str)) = some s ∧
      ∃ answer, s.readers 0 = some (.returned answer) :=
    ⟨_, rfl, _, rfl⟩
  obtain ⟨s, hr, answer, hanswer⟩ := hrun
  have hm : Meets (step [122] [.zadd ⟨2, [97]⟩] [fullRange]) (NotShared [.zadd ⟨2, [97]⟩])
      (State.start (ZSet.new.zaddMemory ⟨1, [97]⟩) ∅)
        (movedBetween (IterationOrder.choice Str)) := by
    simp [movedBetween, Meets, NotShared, InProgress, State.start]
  obtain ⟨effects, -, hall⟩ := zrange_snapshot [122] [.zadd ⟨2, [97]⟩] [fullRange]
    (consistent_zaddMemory consistent_new ⟨1, [97]⟩) ∅ hr hm
  obtain ⟨t, u, l, hu, hreading, rfl, -⟩ := hall 0 fullRange answer rfl (by decide) hanswer
  exact ⟨s, t, u, l, hr, hanswer, hu, hreading⟩

end HCache.RustZSetSnapshots
