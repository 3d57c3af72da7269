import HCache.InterleavedSystems
import HCache.RustSortedSets
import HCache.RustZSetMembers

/-!
# Concurrent `zadd` and `zrmv` on one sorted set

The calls of `Storage::zadd` and `Storage::zrmv` on one key, each taken apart into its
calls of the lock-free hash maps, its RocksDB writes and its sections under the write lock
of the buckets. No lock spans a call, so calls that want different things of one value may
leave the indexes and the database apart; calls on different values never disturb each other.
-/
namespace HCache.RustZSetRaces
open Std OrderedMaps TwoIndexRelations InterleavedSystems RustStorage RustSortedSets RustZSetMembers

inductive Call where
  | zadd (scoreValue : ScoreValue)
  | zrmv (value : Str)
  deriving DecidableEq, Repr

def Call.value : Call → Str
  | .zadd scoreValue => scoreValue.value
  | .zrmv value => value

def Call.op : Call → Op UInt32
  | .zadd scoreValue => .zadd scoreValue.score
  | .zrmv _ => .zrmv

/-- What is stored for the key in `zsets`, `zset_db`, and how far each call is. -/
structure State where
  zset : Option ZSet
  zsetDb : ExtTreeMap (List UInt8) (List UInt8)
  phases : ℕ → Option (Phase UInt32)

inductive Event where
  | start (i : ℕ)
  | advance (i : ℕ)
  deriving DecidableEq, Repr

def State.start : State := ⟨none, ∅, fun _ => none⟩

/-- The sorted set behind a reference that a call has got; nothing here removes it. -/
def State.deref (s : State) : ZSet := s.zset.getD ZSet.new

def State.update (s : State) (f : ZSet → ZSet) : State := { s with zset := some (f s.deref) }

/-- The next atomic step of a call: the phase after it and what it has changed. -/
def atomicStep (key : Str) (s : State) : Call → Phase UInt32 → Phase UInt32 × State
  | .zadd sv, .putRecord =>
    (.getOrInsert,
      { s with zsetDb := s.zsetDb.insert (getZsetKey key sv.value) (toLeBytes sv.score) })
  | .zadd _, .getOrInsert => (.getScore, s.update id)
  | .zadd sv, .getScore =>
    match s.deref.valueToScore[sv.value]? with
    | some score => (if score = sv.score then .returned else .moveBucket score, s)
    | none => (.insertNew, s)
  | .zadd sv, .insertNew =>
    (.enterNew,
      s.update (fun z => { z with valueToScore := z.valueToScore.insert sv.value sv.score }))
  | .zadd sv, .enterNew =>
    (.returned,
      s.update (fun z => { z with scoreToValues := addToBucket z.scoreToValues sv.score sv.value }))
  | .zadd sv, .moveBucket score =>
    (.insertMoved, s.update (fun z => { z with
      scoreToValues :=
        addToBucket (removeFromBucket z.scoreToValues score sv.value) sv.score sv.value }))
  | .zadd sv, .insertMoved =>
    (.returned,
      s.update (fun z => { z with valueToScore := z.valueToScore.insert sv.value sv.score }))
  | .zrmv _, .getZset => (if s.zset.isSome then .removeScore else .returned, s)
  | .zrmv value, .removeScore =>
    match s.deref.valueToScore[value]? with
    | some score =>
      (.deleteRecord score,
        s.update (fun z => { z with valueToScore := z.valueToScore.erase value }))
    | none => (.returned, s)
  | .zrmv value, .deleteRecord score =>
    (.leaveBucket score, { s with zsetDb := s.zsetDb.erase (getZsetKey key value) })
  | .zrmv value, .leaveBucket score =>
    (.returned,
      s.update (fun z => { z with scoreToValues := removeFromBucket z.scoreToValues score value }))
  | _, ph => (ph, s)

def State.setPhase (s : State) (i : ℕ) (ph : Phase UInt32) : State :=
  { s with phases := Function.update s.phases i (some ph) }

/-- Each of `calls` starts at most once, and takes its steps at any time after that. -/
def step (key : Str) (calls : List Call) (s : State) : Event → Option State
  | .start i =>
    match calls[i]?, s.phases i with
    | some call, none => some (s.setPhase i call.op.first)
    | _, _ => none
  | .advance i =>
    match calls[i]?, s.phases i with
    | some call, some ph =>
      if ph = .returned then none
      else some ((atomicStep key s call ph).2.setPhase i (atomicStep key s call ph).1)
    | _, _ => none

def Quiescent (s : State) : Prop := ∀ i ph, s.phases i = some ph → ph = .returned

/-- The two indexes describe the same relation, and `zset_db` has the score of every member
and nothing else. -/
def InStep (key : Str) (s : State) : Prop :=
  Consistent s.deref ∧ ∀ value, s.zsetDb[getZsetKey key value]? =
    (members s.deref value).map toLeBytes

/-- Calls that may overlap: on different values, two removals, or two additions of one score. -/
def Call.Compatible (a b : Call) : Prop := a.value = b.value → a.op.Compatible b.op

/-- A call starts only when no conflicting call is in progress. -/
def NoConflict (calls : List Call) (s : State) : Event → Prop
  | .start i =>
    ∀ j call call' ph, calls[i]? = some call → calls[j]? = some call' → s.phases j = some ph →
      ph ≠ .returned → call.Compatible call'
  | .advance _ => True

/-- `n` atomic steps of a call in a row. -/
def finish (key : Str) (call : Call) : ℕ → Phase UInt32 → State → Phase UInt32 × State
  | 0, ph, s => (ph, s)
  | n + 1, ph, s => finish key call n (atomicStep key s call ph).1 (atomicStep key s call ph).2

variable (s : State) (f : ZSet → ZSet)

@[simp] theorem deref_update : (s.update f).deref = f s.deref := rfl
@[simp] theorem update_zsetDb : (s.update f).zsetDb = s.zsetDb := rfl
@[simp] theorem update_phases : (s.update f).phases = s.phases := rfl
@[simp] theorem deref_zsetDb (db : ExtTreeMap (List UInt8) (List UInt8)) :
    State.deref { s with zsetDb := db } = s.deref := rfl

variable {key : Str} {calls : List Call} {i : ℕ} {s : State} {call : Call}

private theorem atomicStep_setPhase (key : Str) (s : State) (call : Call) (ph q : Phase UInt32) :
    atomicStep key (s.setPhase i q) call ph =
      ((atomicStep key s call ph).1, (atomicStep key s call ph).2.setPhase i q) := by
  cases call with
  | zadd sv =>
    cases ph with
    | getScore =>
      have hderef : (s.setPhase i q).deref = s.deref := rfl
      simp only [atomicStep, hderef]
      split <;> rfl
    | _ => rfl
  | zrmv value =>
    cases ph with
    | removeScore =>
      have hderef : (s.setPhase i q).deref = s.deref := rfl
      simp only [atomicStep, hderef]
      split <;> rfl
    | _ => rfl

private theorem setPhase_setPhase (s : State) (i : ℕ) (ph q : Phase UInt32) :
    (s.setPhase i ph).setPhase i q = s.setPhase i q := by
  simp [State.setPhase]

private theorem finish_returned (key : Str) (call : Call) (n : ℕ) (s : State) :
    finish key call n .returned s = (.returned, s) := by
  induction n with
  | zero => rfl
  | succ n ih => cases call <;> exact ih

/-- A call that no other call interrupts takes its steps in a row. -/
theorem run_finish (hi : calls[i]? = some call) {n : ℕ} {ph : Phase UInt32} {t : State}
    (h : finish key call n ph s = (.returned, t)) :
    ∃ m, run (step key calls) (s.setPhase i ph) (List.replicate m (.advance i)) =
      some (t.setPhase i .returned) := by
  induction n generalizing s ph with
  | zero =>
    obtain ⟨rfl, rfl⟩ := Prod.mk.inj h
    exact ⟨0, rfl⟩
  | succ n ih =>
    rcases eq_or_ne ph .returned with rfl | hne
    · rw [finish_returned] at h
      obtain ⟨-, rfl⟩ := Prod.mk.inj h
      exact ⟨0, rfl⟩
    · obtain ⟨m, hm⟩ := ih h
      refine ⟨m + 1, ?_⟩
      rw [List.replicate_succ, run_cons_eq_some]
      refine ⟨_, ?_, hm⟩
      have hph : (s.setPhase i ph).phases i = some ph := Function.update_self _ _ _
      simp only [step, hi, hph, if_neg hne, atomicStep_setPhase, setPhase_setPhase]

/-- The store has the sorted set and the records of the state. -/
def Matches (key : Str) (s : State) (store : Storage) : Prop :=
  store.zsets[key]? = s.zset ∧ store.zsetDb = s.zsetDb

/-- The operation that the call is when nothing runs beside it. -/
def Call.apply (key : Str) (store : Storage) : Call → Storage
  | .zadd sv => store.zadd key sv
  | .zrmv value => store.zrmv key value

theorem finish_zaddMemory (key : Str) (s : State) (sv : ScoreValue) :
    finish key (.zadd sv) 4 .getOrInsert s =
      (.returned, { s with zset := some (s.deref.zaddMemory sv) }) := by
  cases hv : s.deref.valueToScore[sv.value]? with
  | none =>
    rw [zaddMemory_new hv]
    simp [finish, atomicStep, hv]
    rfl
  | some score =>
    rcases eq_or_ne score sv.score with rfl | hs
    · rw [zaddMemory_same hv]
      simp [finish, atomicStep, hv]
      rfl
    · rw [zaddMemory_moved hv hs]
      simp [finish, atomicStep, hv, hs]
      rfl

private theorem finish_zadd (key : Str) (s : State) (sv : ScoreValue) :
    finish key (.zadd sv) 5 .putRecord s = (.returned, { s with
      zset := some (s.deref.zaddMemory sv)
      zsetDb := s.zsetDb.insert (getZsetKey key sv.value) (toLeBytes sv.score) }) :=
  finish_zaddMemory key { s
    with zsetDb := s.zsetDb.insert (getZsetKey key sv.value) (toLeBytes sv.score) } sv

private theorem finish_zrmv_missing (key : Str) {s : State} {value : Str}
    (h : s.deref.valueToScore[value]? = none) :
    finish key (.zrmv value) 5 .getZset s = (.returned, s) := by
  cases hz : s.zset with
  | none => simp [finish, atomicStep, hz]
  | some z => simp [finish, atomicStep, hz, h]

private theorem finish_zrmv (key : Str) {s : State} {value : Str} {z : ZSet} (hz : s.zset = some z)
    {score : UInt32} (h : z.valueToScore[value]? = some score) :
    finish key (.zrmv value) 5 .getZset s = (.returned, { s with
      zset := some (z.zrmv value score)
      zsetDb := s.zsetDb.erase (getZsetKey key value) }) := by
  obtain ⟨_, zsetDb, phases⟩ := s
  obtain rfl := hz
  have hderef : State.deref ⟨some z, zsetDb, phases⟩ = z := rfl
  simp [finish, atomicStep, hderef, h]
  rfl

private theorem finish_apply (call : Call) {store : Storage} (h : Matches key s store) :
    ∃ t, finish key call 5 call.op.first s = (.returned, t) ∧
      Matches key t (call.apply key store) := by
  obtain ⟨hzset, hdb⟩ := h
  have hget : store.getOrInsertZset key = s.deref := by
    rw [Storage.getOrInsertZset, hzset, State.deref]
  cases call with
  | zadd sv =>
    refine ⟨_, finish_zadd key s sv, ?_, ?_⟩
    · simp [Call.apply, hget]
    · simp [Call.apply, hdb]
  | zrmv value =>
    rcases zrmv_cases store key value with ⟨hstore, hmissing⟩ | ⟨z, score, hz, hv, hstore⟩
    · have hnone : s.deref.valueToScore[value]? = none := by
        cases hz : s.zset with
        | none => simp [State.deref, hz, ZSet.new]
        | some z => simpa [State.deref, hz] using hmissing z (hzset.trans hz)
      exact ⟨s, finish_zrmv_missing key hnone, by rw [Call.apply, hstore]; exact ⟨hzset, hdb⟩⟩
    · refine ⟨_, finish_zrmv key (hzset.symm.trans hz) hv, ?_⟩
      rw [Call.apply, hstore]
      exact ⟨by simp, by simp [hdb]⟩

/-- A call whose steps no other call interrupts does what the sequential operation does. -/
theorem run_alone (hi : calls[i]? = some call) {store : Storage} (h : Matches key s store)
    (hnone : s.phases i = none) :
    ∃ n t, run (step key calls) s (.start i :: List.replicate n (.advance i)) =
      some (t.setPhase i .returned) ∧
      Matches key t (call.apply key store) := by
  obtain ⟨t, ht, hmatches⟩ := finish_apply call h
  obtain ⟨n, hn⟩ := run_finish hi ht
  refine ⟨n, t, ?_, hmatches⟩
  rw [run_cons_eq_some]
  exact ⟨_, by simp [step, hi, hnone], hn⟩

def memberOf (key : Str) (s : State) (value : Str) : Member UInt32 (List UInt8) :=
  ⟨members s.deref value, {t | value ∈ bucketOf s.deref.scoreToValues t},
    s.zsetDb[getZsetKey key value]?⟩

theorem inStep_iff_settled (key : Str) (s : State) :
    InStep key s ↔ ∀ value, Settled toLeBytes (memberOf key s value) := by
  constructor
  · rintro ⟨hz, hdb⟩ value
    exact ⟨fun t => hz.mem_bucket, hdb value⟩
  · intro h
    refine ⟨?_, fun value => (h value).2⟩
    funext t
    ext value
    exact (h value).1 t

private theorem getZsetKey_ne (key : Str) {v w : Str} (h : v ≠ w) :
    getZsetKey key v ≠ getZsetKey key w :=
  fun he => h (getZsetKey_inj_value he)

/-- On its own value a call takes the step of the abstract member. -/
theorem memberOf_atomicStep_self (key : Str) (s : State) (call : Call) (ph : Phase UInt32) :
    ((atomicStep key s call ph).1, memberOf key (atomicStep key s call ph).2 call.value) =
      next toLeBytes s.zset.isSome (memberOf key s call.value) call.op ph := by
  cases call with
  | zadd sv =>
    cases ph with
    | putRecord => simp [atomicStep, next, memberOf, Call.value, Call.op]
    | getOrInsert => rfl
    | getScore =>
      simp only [atomicStep, next, memberOf, Call.value, Call.op, members]
      cases hv : s.deref.valueToScore[sv.value]? with
      | none => simp [hv]
      | some score => simp [hv]
    | insertNew => simp [atomicStep, next, memberOf, Call.value, Call.op, members]
    | enterNew =>
      simp [atomicStep, next, memberOf, Call.value, Call.op, members, bucketOf_addToBucket,
        Set.insert_def]
    | moveBucket score =>
      simp [atomicStep, next, memberOf, Call.value, Call.op, members, bucketOf_addToBucket,
        bucketOf_removeFromBucket, Set.insert_def, Set.sdiff_eq]
    | insertMoved => simp [atomicStep, next, memberOf, Call.value, Call.op, members]
    | _ => rfl
  | zrmv value =>
    cases ph with
    | getZset => rfl
    | removeScore =>
      simp only [atomicStep, next, memberOf, Call.value, Call.op, members]
      cases hv : s.deref.valueToScore[value]? with
      | none => simp [hv]
      | some score => simp
    | deleteRecord score => simp [atomicStep, next, memberOf, Call.value, Call.op]
    | leaveBucket score =>
      simp [atomicStep, next, memberOf, Call.value, Call.op, members, bucketOf_removeFromBucket,
        Set.sdiff_eq]
      rfl
    | _ => rfl

/-- A call leaves what the state says about other values alone. -/
theorem memberOf_atomicStep_other (key : Str) (s : State) (call : Call) (ph : Phase UInt32)
    {value : Str} (h : value ≠ call.value) :
    memberOf key (atomicStep key s call ph).2 value = memberOf key s value := by
  have hkey := getZsetKey_ne key h
  cases call with
  | zadd sv =>
    simp only [Call.value] at h hkey
    cases ph with
    | putRecord => simp [atomicStep, memberOf, lookup_insert, Ne.symm hkey]
    | getScore =>
      simp only [atomicStep]
      split <;> rfl
    | insertNew => simp [atomicStep, memberOf, members, lookup_insert, Ne.symm h]
    | enterNew => simp [atomicStep, memberOf, members, bucketOf_addToBucket, h]
    | moveBucket score =>
      simp [atomicStep, memberOf, members, bucketOf_addToBucket, bucketOf_removeFromBucket, h]
    | insertMoved => simp [atomicStep, memberOf, members, lookup_insert, Ne.symm h]
    | _ => rfl
  | zrmv removed =>
    simp only [Call.value] at h hkey
    cases ph with
    | removeScore =>
      simp only [atomicStep]
      split
      · simp [memberOf, members, lookup_erase, Ne.symm h]
      · rfl
    | deleteRecord score => simp [atomicStep, memberOf, lookup_erase, Ne.symm hkey]
    | leaveBucket score => simp [atomicStep, memberOf, members, bucketOf_removeFromBucket, h]
    | _ => rfl

def activeOn (calls : List Call) (s : State) (value : Str) (i : ℕ) :
    Option (Op UInt32 × Phase UInt32) :=
  match calls[i]?, s.phases i with
  | some call, some ph => if call.value = value then remaining call.op ph else none
  | _, _ => none

variable {s s' : State}

@[simp] theorem memberOf_setPhase (s : State) (i : ℕ) (ph : Phase UInt32) :
    memberOf key (s.setPhase i ph) = memberOf key s := rfl

theorem atomicStep_phases (key : Str) (s : State) (call : Call) (ph : Phase UInt32) :
    (atomicStep key s call ph).2.phases = s.phases := by
  cases call with
  | zadd sv =>
    cases ph with
    | getScore =>
      simp only [atomicStep]
      split <;> rfl
    | _ => rfl
  | zrmv value =>
    cases ph with
    | removeScore =>
      simp only [atomicStep]
      split <;> rfl
    | _ => rfl

/-- What one event does. -/
theorem step_cases {event : Event} (h : step key calls s event = some s') :
    (∃ i call, event = .start i ∧ calls[i]? = some call ∧ s.phases i = none ∧
      s' = s.setPhase i call.op.first) ∨
    ∃ i call ph, event = .advance i ∧ calls[i]? = some call ∧ s.phases i = some ph ∧
      ph ≠ .returned ∧
      s' = (atomicStep key s call ph).2.setPhase i (atomicStep key s call ph).1 := by
  cases event with
  | start i =>
    simp only [step] at h
    split at h
    · next call hi hnone => exact .inl ⟨i, call, rfl, hi, hnone, (Option.some.inj h).symm⟩
    · simp at h
  | advance i =>
    simp only [step] at h
    split at h
    · next call ph hi hph =>
      split at h
      · simp at h
      · next hne => exact .inr ⟨i, call, ph, rfl, hi, hph, hne, (Option.some.inj h).symm⟩
    · simp at h

/-- Only the entry of the call that has moved changes, and only on its own value. -/
theorem activeOn_setPhase {i : ℕ} {call : Call} (hi : calls[i]? = some call)
    (hs : s'.phases = s.phases) (ph : Phase UInt32) (value : Str) :
    activeOn calls (s'.setPhase i ph) value =
      if call.value = value then Function.update (activeOn calls s value) i (remaining call.op ph)
      else activeOn calls s value := by
  funext j
  rcases eq_or_ne j i with rfl | hne
  · simp only [activeOn, State.setPhase, hi, Function.update_self]
    split
    · rw [Function.update_self]
    · next hvalue =>
      cases hj : s.phases j with
      | none => simp [activeOn, hj]
      | some ph' => simp [activeOn, hi, hj, hvalue]
  · have hsame : activeOn calls (s'.setPhase i ph) value j = activeOn calls s value j := by
      simp only [activeOn, State.setPhase, Function.update_of_ne hne, hs]
    rw [hsame]
    split
    · rw [Function.update_of_ne hne]
    · rfl

def Inv (key : Str) (calls : List Call) (s : State) : Prop :=
  ∀ value, Era toLeBytes (activeOn calls s value) (memberOf key s value)

theorem memberOf_start (value : Str) : memberOf key State.start value = ⟨none, ∅, none⟩ := by
  simp [memberOf, State.start, State.deref, members, mem_bucketOf, ZSet.new]

theorem activeOn_eq_some {value : Str} {i : ℕ} {op : Op UInt32} {ph : Phase UInt32} :
    activeOn calls s value i = some (op, ph) ↔
      ∃ call, calls[i]? = some call ∧ s.phases i = some ph ∧ call.value = value ∧ ph ≠ .returned ∧
        call.op = op := by
  cases hi : calls[i]? with
  | none => simp [activeOn, hi]
  | some call =>
    cases hph : s.phases i with
    | none => simp [activeOn, hi, hph]
    | some q =>
      simp only [activeOn, hi, hph, Option.ite_none_right_eq_some, remaining_eq_some,
        Option.some.injEq]
      constructor
      · rintro ⟨hvalue, hne, hop, rfl⟩
        exact ⟨call, rfl, rfl, hvalue, hne, hop⟩
      · rintro ⟨_, rfl, rfl, hvalue, hne, hop⟩
        exact ⟨hvalue, hne, hop, rfl⟩

/-- No call is in progress on any value. -/
theorem activeOn_of_quiescent (hq : Quiescent s) (value : Str) (i : ℕ) :
    activeOn calls s value i = none := by
  by_contra hi
  obtain ⟨p, hp⟩ := Option.ne_none_iff_exists'.mp hi
  obtain ⟨-, -, hph, -, hne, -⟩ := activeOn_eq_some.mp hp
  exact hne (hq i _ hph)

theorem inv_of_inStep (h : InStep key s) (hq : Quiescent s) : Inv key calls s := fun value =>
  era_of_settled ((inStep_iff_settled key s).mp h value) (activeOn_of_quiescent hq value)

theorem inStep_of_inv (h : Inv key calls s) (hq : Quiescent s) : InStep key s := by
  rw [inStep_iff_settled]
  intro value
  exact (h value).settled (activeOn_of_quiescent hq value)

private theorem quiescent_start : Quiescent State.start := by
  intro i ph hi
  simp [State.start] at hi

private theorem inStep_start : InStep key State.start := by
  rw [inStep_iff_settled]
  intro value
  rw [memberOf_start]
  simp [Settled]

theorem inv_step (h : Inv key calls s) {event : Event} (hc : NoConflict calls s event)
    (hs : step key calls s event = some s') : Inv key calls s' := by
  intro value
  rcases step_cases hs with ⟨i, call, rfl, hi, hnone, rfl⟩ | ⟨i, call, ph, rfl, hi, hph, hne, rfl⟩
  · rw [activeOn_setPhase hi rfl, memberOf_setPhase]
    split
    · next hvalue =>
      have hfirst : remaining call.op call.op.first = some (call.op, call.op.first) := by
        rw [remaining_eq_some]
        refine ⟨?_, rfl, rfl⟩
        cases call <;> simp [Call.op, Op.first]
      rw [hfirst]
      apply (h value).start
      · simp [activeOn, hi, hnone]
      · intro j op ph hj
        obtain ⟨call', hcall', hph', hvalue', hne, rfl⟩ := activeOn_eq_some.mp hj
        exact hc j call call' ph hi hcall' hph' hne (hvalue.trans hvalue'.symm)
    · exact h value
  · rw [activeOn_setPhase hi (atomicStep_phases key s call ph), memberOf_setPhase]
    split
    · next hvalue =>
      subst hvalue
      exact (h call.value).step (activeOn_eq_some.mpr ⟨call, hi, hph, rfl, hne, rfl⟩)
        (memberOf_atomicStep_self key s call ph).symm
    · next hvalue =>
      rw [memberOf_atomicStep_other key s call ph (Ne.symm hvalue)]
      exact h value

variable {i j : ℕ} {a b : Call}

private theorem found_of_member {value : Str} (h : (memberOf key s value).score ≠ none) :
    s.zset.isSome = true := by
  cases hz : s.zset with
  | none => exact absurd (by simp [memberOf, members, State.deref, hz, ZSet.new]) h
  | some z => rfl

private theorem next_found {enc : UInt32 → List UInt8} {found : Bool}
    {x : Member UInt32 (List UInt8)} {op : Op UInt32} {ph : Phase UInt32}
    (h : ph = .getZset → found = true) :
    next enc found x op ph = next enc true x op ph := by
  cases op <;> cases ph <;> simp_all [next]

private theorem step_of_ready (hi : calls[i]? = some a) {ph : Phase UInt32}
    (hph : s.phases i = some ph)
    (hready : ¬ (ph = .returned ∨ (ph = .getZset ∧ (memberOf key s a.value).score = none))) :
    ∃ s', step key calls s (.advance i) = some s' ∧
      s'.phases =
        Function.update s.phases i (some (next toLeBytes true (memberOf key s a.value) a.op ph).1) ∧
      memberOf key s' a.value = (next toLeBytes true (memberOf key s a.value) a.op ph).2 := by
  obtain ⟨hreturned, hget⟩ := not_or.mp hready
  have hnext := memberOf_atomicStep_self key s a ph
  rw [next_found (fun hq => found_of_member (fun hscore => hget ⟨hq, hscore⟩))] at hnext
  refine ⟨(atomicStep key s a ph).2.setPhase i (atomicStep key s a ph).1, ?_, ?_, ?_⟩
  · simp [step, hi, hph, hreturned]
  · rw [← hnext, State.setPhase, atomicStep_phases]
  · rw [memberOf_setPhase, ← hnext]

/-- The two calls are where the duel is, and no other call has started. -/
structure Duel (key value : Str) (i j : ℕ) (s : State)
    (y : Phase UInt32 × Phase UInt32 × Member UInt32 (List UInt8)) : Prop where
  first : s.phases i = some y.1
  second : s.phases j = some y.2.1
  others : ∀ k, k ≠ i → k ≠ j → s.phases k = none
  member : memberOf key s value = y.2.2

private theorem duel_step (hi : calls[i]? = some a) (hj : calls[j]? = some b) (hne : i ≠ j)
    (hvalue : a.value = b.value) (s : State)
    (y : Phase UInt32 × Phase UInt32 × Member UInt32 (List UInt8)) (turn : Bool)
    (y' : Phase UInt32 × Phase UInt32 × Member UInt32 (List UInt8)) (h : Duel key a.value i j s y)
    (hy : duelStep toLeBytes a.op b.op y turn = some y') :
    ∃ s', step key calls s (.advance (if turn then i else j)) = some s' ∧
      Duel key a.value i j s' y' := by
  obtain ⟨p, q, x⟩ := y
  obtain ⟨hfirst, hsecond, hothers, rfl⟩ := h
  cases turn with
  | true =>
    simp only [duelStep] at hy
    split at hy
    · simp at hy
    · next hready =>
      obtain rfl := Option.some.inj hy
      obtain ⟨s', hs', hphases, hmember⟩ := step_of_ready hi hfirst hready
      refine ⟨s', hs', ?_, ?_, ?_, hmember⟩
      · rw [hphases, Function.update_self]
      · rw [hphases, Function.update_of_ne hne.symm, hsecond]
      · intro k hki hkj
        rw [hphases, Function.update_of_ne hki, hothers k hki hkj]
  | false =>
    simp only [duelStep] at hy
    split at hy
    · simp at hy
    · next hready =>
      obtain rfl := Option.some.inj hy
      rw [hvalue] at hready ⊢
      obtain ⟨s', hs', hphases, hmember⟩ := step_of_ready hj hsecond hready
      refine ⟨s', hs', ?_, ?_, ?_, hmember⟩
      · rw [hphases, Function.update_of_ne hne, hfirst]
      · rw [hphases, Function.update_self]
      · intro k hki hkj
        rw [hphases, Function.update_of_ne hkj, hothers k hki hkj]

private theorem torn_of_conflict (key : Str) (hi : calls[i]? = some a) (hj : calls[j]? = some b)
    (hne : i ≠ j) (h : ¬ a.Compatible b) :
    ∃ events s, run (step key calls) State.start events = some s ∧ Quiescent s ∧
      ¬ InStep key s := by
  obtain ⟨hvalue, hops⟩ := Classical.not_imp.mp h
  obtain ⟨turns, x, hrun, hx⟩ := canTear_of_conflict toLeBytes hops
  have hstart : Duel key a.value i j ((State.start.setPhase i a.op.first).setPhase j b.op.first)
      (a.op.first, b.op.first, ⟨none, ∅, none⟩) := by
    refine ⟨?_, ?_, ?_, ?_⟩
    · simp [State.setPhase, Function.update_of_ne hne]
    · simp [State.setPhase]
    · intro k hki hkj
      simp [State.setPhase, State.start, Function.update_of_ne hki, Function.update_of_ne hkj]
    · rw [memberOf_setPhase, memberOf_setPhase, memberOf_start]
  obtain ⟨s, hs, hduel⟩ :=
    run_of_simulates (Duel key a.value i j) _ (duel_step hi hj hne hvalue) hstart hrun
  refine ⟨.start i :: .start j :: turns.map (fun turn => .advance (if turn then i else j)),
    s, ?_, ?_, ?_⟩
  · rw [run_cons_eq_some]
    refine ⟨State.start.setPhase i a.op.first, by simp [step, hi, State.start], ?_⟩
    rw [run_cons_eq_some]
    refine ⟨_, ?_, hs⟩
    simp [step, hj, State.start, State.setPhase, Function.update_of_ne hne.symm]
  · intro k ph hk
    rcases eq_or_ne k i with rfl | hki
    · exact (Option.some.inj (hk.symm.trans hduel.first))
    · rcases eq_or_ne k j with rfl | hkj
      · exact (Option.some.inj (hk.symm.trans hduel.second))
      · simp [hduel.others k hki hkj] at hk
  · intro hin
    have hsettled := (inStep_iff_settled key s).mp hin a.value
    rw [hduel.member] at hsettled
    exact hx hsettled

theorem Call.compatible_symm {a b : Call} (h : a.Compatible b) : b.Compatible a := by
  intro hvalue
  have hops := h hvalue.symm
  cases a <;> cases b <;> simp_all [Call.op, Op.Compatible]

/-- Where no two calls conflict, no call starts beside a conflicting one. -/
theorem noConflict_of_pairwise {key : Str} {calls : List Call} (h : calls.Pairwise Call.Compatible)
    {s s' : State} {event : Event} (hs : step key calls s event = some s') :
    NoConflict calls s event := by
  rcases step_cases hs with ⟨i, _, rfl, -, hnone, -⟩ | ⟨i, _, _, rfl, -⟩
  · intro j call call' ph hi hj hph _
    have hne : i ≠ j := by
      rintro rfl
      simp [hnone] at hph
    exact (pairwise_iff_of_ne (fun _ _ => Call.compatible_symm)).mp h i j call call' hi hj hne
  · trivial

private theorem inStep_of_noConflict {key : Str} {calls : List Call} {events : List Event}
    {s₀ s : State} (h : InStep key s₀) (hq₀ : Quiescent s₀)
    (hr : run (step key calls) s₀ events = some s)
    (hm : Meets (step key calls) (NoConflict calls) s₀ events) (hq : Quiescent s) :
    InStep key s := by
  have hinv : Inv key calls s :=
    run_invariant (Inv key calls) (fun _ _ _ hi hc hs => inv_step hi hc hs)
      (inv_of_inStep h hq₀) hm hr
  exact inStep_of_inv hinv hq

private theorem inStep_of_pairwise {key : Str} {calls : List Call}
    (h : calls.Pairwise Call.Compatible) {events : List Event} {s : State}
    (hr : run (step key calls) State.start events = some s) (hq : Quiescent s) : InStep key s := by
  have hinv : Inv key calls s :=
    run_invariant_of_step (Inv key calls)
      (fun _ _ _ hi hs => inv_step hi (noConflict_of_pairwise h hs) hs)
      (inv_of_inStep inStep_start quiescent_start) hr
  exact inStep_of_inv hinv hq

/-- A run in which no call starts beside a conflicting one leaves the sorted set and its
records in step. Every interleaving of the calls does so exactly when no two of them conflict. -/
theorem quiescent_inStep_iff (key : Str) (calls : List Call) :
    (∀ events s₀ s, InStep key s₀ → Quiescent s₀ → run (step key calls) s₀ events = some s →
      Meets (step key calls) (NoConflict calls) s₀ events → Quiescent s → InStep key s) ∧
    ((∀ events s, run (step key calls) State.start events = some s → Quiescent s → InStep key s) ↔
      calls.Pairwise Call.Compatible) := by
  refine ⟨fun events s₀ s h hq₀ hr hm hq => inStep_of_noConflict h hq₀ hr hm hq, ?_, ?_⟩
  · intro hall
    rw [pairwise_iff_of_ne (fun _ _ => Call.compatible_symm)]
    intro i j a b hi hj hne
    by_contra hconflict
    obtain ⟨events, s, hr, hq, hs⟩ := torn_of_conflict key hi hj hne hconflict
    exact hs (hall events s hr hq)
  · intro hp events s hr hq
    exact inStep_of_pairwise hp hr hq

private theorem started_lt_length {key : Str} {calls : List Call} {events : List Event} {s : State}
    (hr : run (step key calls) State.start events = some s) :
    ∀ i ph, s.phases i = some ph → i < calls.length := by
  refine run_invariant_of_step (fun s => ∀ i ph, s.phases i = some ph → i < calls.length) ?_ ?_ hr
  · intro s event s' h hs i ph hi
    have hmoved : ∃ j call q, calls[j]? = some call ∧
    s'.phases = Function.update s.phases j (some q) := by
      rcases step_cases hs with ⟨j, call, -, hj, -, rfl⟩ | ⟨j, call, q, -, hj, -, -, rfl⟩
      · exact ⟨j, call, _, hj, rfl⟩
      · exact ⟨j, call, _, hj, by rw [State.setPhase, atomicStep_phases]⟩
    obtain ⟨j, call, q, hj, hphases⟩ := hmoved
    rcases eq_or_ne i j with rfl | hne
    · exact (List.getElem?_eq_some_iff.mp hj).1
    · rw [hphases, Function.update_of_ne hne] at hi
      exact h i ph hi
  · intro i ph hi
    simp [State.start] at hi

def crossedCalls : List Call := [.zadd ⟨1, [97]⟩, .zadd ⟨2, [97]⟩]

/-- Each looks the value up before the other has put it into the index. -/
def crossedRun : Option State :=
  run (step [122] crossedCalls) State.start
    [.start 0, .start 1, .advance 0, .advance 0, .advance 0, .advance 1, .advance 1, .advance 1,
      .advance 0, .advance 0, .advance 1, .advance 1]

/-- The value ends in the buckets of both scores. -/
theorem quiescent_not_always_inStep : ∃ s, crossedRun = some s ∧ Quiescent s ∧
    [97] ∈ bucketOf s.deref.scoreToValues 1 ∧ [97] ∈ bucketOf s.deref.scoreToValues 2 ∧
    ¬ InStep [122] s := by
  have hphases : crossedRun.map (fun s => (s.phases 0, s.phases 1)) =
      some (some .returned, some .returned) := by
    decide
  have hbuckets : crossedRun.map (fun s => (s.deref.scoreToValues[(1 : UInt32)]?,
      s.deref.scoreToValues[(2 : UInt32)]?)) = some (some {[97]}, some {[97]}) := by decide
  obtain ⟨s, hr, hs⟩ := Option.map_eq_some_iff.mp hphases
  obtain ⟨hfirst, hsecond⟩ := Prod.mk.inj hs
  rw [hr, Option.map_some] at hbuckets
  obtain ⟨hone, htwo⟩ := Prod.mk.inj (Option.some.inj hbuckets)
  have hmem₁ : [97] ∈ bucketOf s.deref.scoreToValues 1 := ⟨_, hone, by simp⟩
  have hmem₂ : [97] ∈ bucketOf s.deref.scoreToValues 2 := ⟨_, htwo, by simp⟩
  refine ⟨s, hr, ?_, hmem₁, hmem₂, ?_⟩
  · intro i ph hi
    have hlt : i < 2 := started_lt_length hr i ph hi
    obtain rfl | rfl : i = 0 ∨ i = 1 := by omega
    · exact Option.some.inj (hi.symm.trans hfirst)
    · exact Option.some.inj (hi.symm.trans hsecond)
  · rintro ⟨hz, -⟩
    have hscores := (hz.mem_bucket.mp hmem₁).symm.trans (hz.mem_bucket.mp hmem₂)
    simp at hscores

end HCache.RustZSetRaces
