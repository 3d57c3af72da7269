import HCache.CppStorage
import HCache.InterleavedSystems

/-!
# Readers beside an overwriting writer

One object of the C++ storage, one writer and any number of readers. Each call of a hash map
and each section under `mutex_` is one step. `add_key_value` erases before it emplaces and
`zadd` leaves the old bucket before it enters the new one, so there is a gap in which a
reader finds nothing.
-/
namespace HCache.CppStorageReaders
open Std OrderedMaps SequentialMachines TwoIndexRelations InterleavedSystems CppSingleThreadStorage
  CppStorage

inductive Write where
  | addKeyValue (key value : Fbstring)
  | zsetAdd (key value : Fbstring) (score : UInt32)
  deriving DecidableEq, Repr

inductive Phase where
  | kvErase
  | zsetsErase
  | kvEmplace
  | kvFind
  | zsetsFind
  | zsetsEmplace
  | indexFind
  | leaveOld (oldScore : UInt32)
  | enterNew
  | indexErase
  | indexEmplace
  | returned
  deriving DecidableEq, Repr

def Write.first : Write → Phase
  | .addKeyValue _ _ => .kvErase
  | .zsetAdd _ _ _ => .kvFind

inductive Read where
  | getValueByKey (key : Fbstring)
  | zsetZrange (key : Fbstring) (minScore maxScore : UInt32)
  deriving DecidableEq, Repr

/-- A reader: before its first call, with the sorted set it has found, or with its result. -/
inductive Reader where
  | calling (op : Read)
  | found (key : Fbstring) (minScore maxScore : UInt32)
  | gotValue (key : Fbstring) (result : Option Fbstring)
  | gotGroups (key : Fbstring) (minScore maxScore : UInt32) (result : Option (List ScoreValues))
  deriving DecidableEq

/-- `removed` is the sorted set that the writer has taken out of the map; readers that have
found it before still hold it. -/
structure State where
  storage : Storage
  removed : Option Zset
  writer : Phase
  readers : ℕ → Option Reader

inductive Event where
  | write
  | start (id : ℕ) (op : Read)
  | read (id : ℕ)
  deriving DecidableEq, Repr

def State.start (s : Storage) (w : Write) : State := ⟨s, none, w.first, fun _ => none⟩

def State.setReader (s : State) (id : ℕ) (r : Reader) : State :=
  { s with readers := Function.update s.readers id (some r) }

def changeZset (s : Storage) (key : Fbstring) (f : Zset → Zset) : Storage :=
  { s with zsets := s.zsets.insert key (f (s.zsets[key]?.getD Zset.new)) }

def Write.perform (s : State) : Write → Phase → State
  | .addKeyValue key _, .kvErase =>
    { s with storage := { s.storage with kv := s.storage.kv.erase key }, writer := .zsetsErase }
  | .addKeyValue key _, .zsetsErase =>
    { s with
      removed := s.storage.zsets[key]?
      storage := { s.storage with zsets := s.storage.zsets.erase key }
      writer := .kvEmplace }
  | .addKeyValue key value, .kvEmplace =>
    { s with
      storage := { s.storage with kv := s.storage.kv.insertIfNew key value }
      writer := .returned }
  | .zsetAdd key _ _, .kvFind =>
    { s with writer := if s.storage.kv[key]?.isSome then .returned else .zsetsFind }
  | .zsetAdd key _ _, .zsetsFind =>
    { s with writer := if s.storage.zsets[key]?.isSome then .indexFind else .zsetsEmplace }
  | .zsetAdd key _ _, .zsetsEmplace =>
    { s with
      storage := { s.storage with zsets := s.storage.zsets.insertIfNew key Zset.new }
      writer := .indexFind }
  | .zsetAdd key value _, .indexFind =>
    match (s.storage.zsets[key]?.getD Zset.new).valueToScore[value]? with
    | some oldScore => { s with writer := .leaveOld oldScore }
    | none => { s with writer := .enterNew }
  | .zsetAdd key value _, .leaveOld oldScore =>
    { s with
      storage := changeZset s.storage key
        (fun z => { z with scoreToValues := eraseFromBucket z.scoreToValues oldScore value })
      writer := .enterNew }
  | .zsetAdd key value score, .enterNew =>
    { s with
      storage := changeZset s.storage key
        (fun z => { z with scoreToValues := emplaceInBucket z.scoreToValues score value })
      writer := .indexErase }
  | .zsetAdd key value _, .indexErase =>
    { s with
      storage :=
        changeZset s.storage key (fun z => { z with valueToScore := z.valueToScore.erase value })
      writer := .indexEmplace }
  | .zsetAdd key value score, .indexEmplace =>
    { s with
      storage := changeZset s.storage key
        (fun z => { z with valueToScore := z.valueToScore.insertIfNew value score })
      writer := .returned }
  | _, _ => s

def Reader.perform (s : State) : Reader → Option Reader
  | .calling (.getValueByKey key) => some (.gotValue key s.storage.kv[key]?)
  | .calling (.zsetZrange key minScore maxScore) =>
    match s.storage.zsets[key]? with
    | some _ => some (.found key minScore maxScore)
    | none => some (.gotGroups key minScore maxScore none)
  | .found key minScore maxScore =>
    some (.gotGroups key minScore maxScore
      ((s.storage.zsets[key]?.or s.removed).map (fun z => zrange z minScore maxScore)))
  | .gotValue _ _ | .gotGroups _ _ _ _ => none

def step (w : Write) (s : State) : Event → Option State
  | .write => if s.writer = .returned then none else some (w.perform s s.writer)
  | .start id op =>
    match s.readers id with
    | none => some (s.setReader id (.calling op))
    | some _ => none
  | .read id => (s.readers id).bind (fun r => (r.perform s).map (s.setReader id))

def Write.exec (s : Storage) : Write → Storage
  | .addKeyValue key value => s.addKeyValue key value
  | .zsetAdd key value score => (s.zsetAdd key value score).1

def scoresSeen (value : Fbstring) (gs : List ScoreValues) : List UInt32 :=
  (gs.filter (fun g => value ∈ g.values)).map ScoreValues.score

/-- An overwrite of a plain key, or of the score of a member. -/
inductive Overwrite where
  | plain (key old new : Fbstring)
  | member (key value : Fbstring) (old new : UInt32)
  deriving DecidableEq, Repr

def Overwrite.write : Overwrite → Write
  | .plain key _ new => .addKeyValue key new
  | .member key value _ new => .zsetAdd key value new

def Overwrite.Of (s : Storage) : Overwrite → Prop
  | .plain key old _ => s.kv[key]? = some old
  | .member key value old new =>
    old ≠ new ∧ ∃ z, s.zsets[key]? = some z ∧ value ∈ bucketOf z.scoreToValues old

/-- A reader of what is overwritten has seen the old or the new. -/
def Overwrite.SeenBy : Overwrite → Reader → Prop
  | .plain key old new, .gotValue key' result => key' = key → result = some old ∨ result = some new
  | .member key value old new, .gotGroups key' minScore maxScore result =>
    key' = key → minScore ≤ old → old ≤ maxScore → minScore ≤ new → new ≤ maxScore →
      ∃ gs, result = some gs ∧ (scoresSeen value gs = [old] ∨ scoresSeen value gs = [new])
  | _, _ => True

def AlwaysSeen (o : Overwrite) (s : State) : Prop := ∀ id r, s.readers id = some r → o.SeenBy r

/-- The writer has taken the old away and not yet put the new. -/
def Overwrite.Gap : Overwrite → Phase → Prop
  | .plain _ _ _, .zsetsErase | .plain _ _ _, .kvEmplace | .member _ _ _ _, .enterNew => True
  | _, _ => False

/-- The step of the reader that decides its result on what is overwritten. -/
def Overwrite.Reads : Overwrite → Reader → Prop
  | .plain key _ _, .calling (.getValueByKey key') => key' = key
  | .member key _ old new, .found key' minScore maxScore =>
    key' = key ∧ (minScore ≤ old ∧ old ≤ maxScore) ∧ minScore ≤ new ∧ new ≤ maxScore
  | _, _ => False

/-- No reader decides while the writer is in the gap. -/
def OutsideGap (o : Overwrite) (s : State) : Event → Prop
  | .read id => ∀ r, s.readers id = some r → o.Reads r → ¬ o.Gap s.writer
  | _ => True

/-- A storage that calls one at a time lead to. -/
def Reachable (s : Storage) : Prop := ∃ ops, s = final Storage.exec Storage.new ops

/-- The value is in the bucket of one score and in no other. -/
def OnlyIn (z : Zset) (value : Fbstring) (score : UInt32) : Prop :=
  ∀ t, value ∈ bucketOf z.scoreToValues t ↔ t = score

def Nowhere (z : Zset) (value : Fbstring) : Prop := ∀ t, value ∉ bucketOf z.scoreToValues t

theorem mem_scoresSeen {z : Zset} {value : Fbstring} {minScore maxScore t : UInt32} :
    t ∈ scoresSeen value (zrange z minScore maxScore) ↔
      value ∈ bucketOf z.scoreToValues t ∧ minScore ≤ t ∧ t ≤ maxScore := by
  have hrange := @mem_range_bucket Fbstring UInt32 _ _ _ z.scoreToValues minScore maxScore t value
  rw [isLE_compare, isLE_compare] at hrange
  rw [← hrange, zrange, scanEntries_eq_rangeEntries]
  simp only [scoresSeen, List.mem_map, List.mem_filter, decide_eq_true_eq]
  constructor
  · rintro ⟨g, ⟨⟨⟨s, vs⟩, he, rfl⟩, hv⟩, rfl⟩
    exact ⟨vs, he, hv⟩
  · rintro ⟨vs, he, hv⟩
    exact ⟨⟨t, vs⟩, ⟨⟨(t, vs), he, rfl⟩, hv⟩, rfl⟩

private theorem nodup_scoresSeen (z : Zset) (value : Fbstring) (minScore maxScore : UInt32) :
    (scoresSeen value (zrange z minScore maxScore)).Nodup := by
  have hascending := ascending_rangeEntries z.scoreToValues minScore maxScore
  rw [scoresSeen, zrange, scanEntries_eq_rangeEntries, List.Nodup, List.pairwise_map]
  apply List.Pairwise.filter
  rw [List.pairwise_map]
  refine hascending.imp ?_
  intro a b hab he
  simp only at he
  rw [he] at hab
  simp at hab

/-- A value that is in one bucket is shown once, if the bucket is in range. -/
theorem OnlyIn.scoresSeen_eq {z : Zset} {value : Fbstring} {score minScore maxScore : UInt32}
    (h : OnlyIn z value score) (hmin : minScore ≤ score) (hmax : score ≤ maxScore) :
    scoresSeen value (zrange z minScore maxScore) = [score] := by
  have hmem : ∀ t, t ∈ scoresSeen value (zrange z minScore maxScore) ↔ t ∈ [score] := by
    intro t
    rw [mem_scoresSeen, h t, List.mem_singleton]
    constructor
    · exact And.left
    · rintro rfl
      exact ⟨rfl, hmin, hmax⟩
  have hperm := (List.perm_ext_iff_of_nodup (nodup_scoresSeen z value minScore maxScore)
    (List.nodup_singleton score)).mpr hmem
  exact List.perm_singleton.mp hperm

theorem Nowhere.scoresSeen_eq {z : Zset} {value : Fbstring} (h : Nowhere z value)
    (minScore maxScore : UInt32) :
    scoresSeen value (zrange z minScore maxScore) = [] := by
  rw [List.eq_nil_iff_forall_not_mem]
  intro t ht
  exact h t (mem_scoresSeen.mp ht).1

theorem OnlyIn.leave {z : Zset} {value : Fbstring} {score : UInt32} (h : OnlyIn z value score) :
    Nowhere { z with scoreToValues := eraseFromBucket z.scoreToValues score value } value := by
  intro t ht
  simp only [bucketOf_eraseFromBucket, mem_leave, h t, true_and] at ht
  exact ht.2 ht.1

theorem Nowhere.enter {z : Zset} {value : Fbstring} (h : Nowhere z value) (score : UInt32) :
    OnlyIn { z with scoreToValues := emplaceInBucket z.scoreToValues score value } value score := by
  intro t
  simp [bucketOf_emplaceInBucket, h t]

def Shape : Overwrite → State → Prop
  | .plain key old new, s =>
    match s.writer with
    | .kvErase => s.storage.kv[key]? = some old
    | .zsetsErase | .kvEmplace => s.storage.kv[key]? = none
    | .returned => s.storage.kv[key]? = some new
    | _ => False
  | .member key value old new, s =>
    old ≠ new ∧ ∃ z, s.storage.zsets[key]? = some z ∧
      match s.writer with
      | .kvFind =>
        s.storage.kv[key]? = none ∧ z.valueToScore[value]? = some old ∧ OnlyIn z value old
      | .zsetsFind | .indexFind => z.valueToScore[value]? = some old ∧ OnlyIn z value old
      | .leaveOld oldScore => oldScore = old ∧ OnlyIn z value old
      | .enterNew => Nowhere z value
      | .indexErase | .indexEmplace | .returned => OnlyIn z value new
      | _ => False

variable {o : Overwrite} {s s' : State}

/-- What one event does. -/
theorem step_cases {w : Write} {event : Event} (h : step w s event = some s') :
    (event = .write ∧ s.writer ≠ .returned ∧ s' = w.perform s s.writer) ∨
    (∃ id op, event = .start id op ∧ s.readers id = none ∧ s' = s.setReader id (.calling op)) ∨
    ∃ id r r', event = .read id ∧ s.readers id = some r ∧ r.perform s = some r' ∧
      s' = s.setReader id r' := by
  cases event with
  | write =>
    simp only [step] at h
    split at h
    · simp at h
    · next hne => exact .inl ⟨rfl, hne, (Option.some.inj h).symm⟩
  | start id op =>
    simp only [step] at h
    split at h
    · next hnone => exact .inr (.inl ⟨id, op, rfl, hnone, (Option.some.inj h).symm⟩)
    · simp at h
  | read id =>
    obtain ⟨r, hr, hs⟩ := Option.bind_eq_some_iff.mp h
    obtain ⟨r', hr', rfl⟩ := Option.map_eq_some_iff.mp hs
    exact .inr (.inr ⟨id, r, r', rfl, hr, hr', rfl⟩)

private theorem perform_readers (w : Write) (s : State) (ph : Phase) :
    (w.perform s ph).readers = s.readers := by
  cases w with
  | addKeyValue key value => cases ph <;> rfl
  | zsetAdd key value score =>
    cases ph with
    | indexFind =>
      simp only [Write.perform]
      split <;> rfl
    | _ => rfl

private theorem lookup_changeZset {storage : Storage} {key : Fbstring} {z : Zset}
    (hz : storage.zsets[key]? = some z) (f : Zset → Zset) :
    (changeZset storage key f).zsets[key]? = some (f z) := by
  simp [changeZset, hz]

theorem Shape.write (h : Shape o s) (hne : s.writer ≠ .returned) :
    Shape o (o.write.perform s s.writer) := by
  cases o with
  | plain key old new =>
    cases hw : s.writer with
    | kvErase => simp [Shape, Overwrite.write, Write.perform]
    | zsetsErase =>
      simp only [Shape, hw] at h
      simpa [Shape, Overwrite.write, Write.perform] using h
    | kvEmplace =>
      simp only [Shape, hw] at h
      have hnew : (s.storage.kv.insertIfNew key new)[key]? = some new := by
        rw [ExtTreeMap.getElem?_insertIfNew, h]
        simp [ExtTreeMap.mem_iff_isSome_getElem?, h]
      exact hnew
    | returned => exact absurd hw hne
    | _ => simp [Shape, hw] at h
  | member key value old new =>
    obtain ⟨hdiff, z, hz, h⟩ := h
    refine ⟨hdiff, ?_⟩
    cases hw : s.writer with
    | kvFind =>
      simp only [hw] at h
      exact ⟨z, hz, by simpa [Overwrite.write, Write.perform, h.1] using h.2⟩
    | zsetsFind =>
      simp only [hw] at h
      exact ⟨z, hz, by simpa [Overwrite.write, Write.perform, hz] using h⟩
    | indexFind =>
      simp only [hw] at h
      have hfind : (Overwrite.member key value old new).write.perform s .indexFind =
          { s with writer := .leaveOld old } := by
        simp [Overwrite.write, Write.perform, hz, h.1]
      rw [hfind]
      exact ⟨z, hz, rfl, h.2⟩
    | leaveOld oldScore =>
      simp only [hw] at h
      obtain ⟨rfl, honly⟩ := h
      exact ⟨_, lookup_changeZset hz _, honly.leave⟩
    | enterNew =>
      simp only [hw] at h
      exact ⟨_, lookup_changeZset hz _, h.enter new⟩
    | indexErase =>
      simp only [hw] at h
      exact ⟨_, lookup_changeZset hz _, h⟩
    | indexEmplace =>
      simp only [hw] at h
      exact ⟨_, lookup_changeZset hz _, h⟩
    | returned => exact absurd hw hne
    | _ => simp [hw] at h

theorem Shape.step (h : Shape o s) {event : Event}
    (hs : CppStorageReaders.step o.write s event = some s') :
    Shape o s' := by
  rcases step_cases hs with ⟨-, hne, rfl⟩ | ⟨id, op, -, -, rfl⟩ | ⟨id, r, r', -, -, -, rfl⟩
  · exact h.write hne
  · cases o <;> exact h
  · cases o <;> exact h

private theorem seenBy_of_perform {r r' : Reader} (hr : r.perform s = some r') : o.SeenBy r := by
  cases r with
  | calling op => cases o <;> trivial
  | found key minScore maxScore => cases o <;> trivial
  | gotValue key result => simp [Reader.perform] at hr
  | gotGroups key minScore maxScore result => simp [Reader.perform] at hr

private theorem value_seen_iff {key old new : Fbstring} (h : Shape (.plain key old new) s) :
    (s.storage.kv[key]? = some old ∨ s.storage.kv[key]? = some new) ↔
    ¬ (Overwrite.plain key old new).Gap s.writer := by
  cases hw : s.writer <;> simp only [Shape, hw] at h <;> simp [Overwrite.Gap, h]

private theorem groups_seen_iff {key value : Fbstring} {old new minScore maxScore : UInt32}
    (h : Shape (.member key value old new) s) (hold : minScore ≤ old ∧ old ≤ maxScore)
    (hnew : minScore ≤ new ∧ new ≤ maxScore) :
    (∃ gs, (s.storage.zsets[key]?.or s.removed).map (fun z => zrange z minScore maxScore) =
      some gs ∧
      (scoresSeen value gs = [old] ∨ scoresSeen value gs = [new])) ↔
    ¬ (Overwrite.member key value old new).Gap s.writer := by
  obtain ⟨-, z, hz, h⟩ := h
  simp only [hz, Option.some_or, Option.map_some, Option.some.injEq, exists_eq_left']
  cases hw : s.writer with
  | kvFind =>
    simp only [hw] at h
    simp [Overwrite.Gap, h.2.2.scoresSeen_eq hold.1 hold.2]
  | zsetsFind | indexFind | leaveOld =>
    simp only [hw] at h
    simp [Overwrite.Gap, h.2.scoresSeen_eq hold.1 hold.2]
  | enterNew =>
    simp only [hw] at h
    simp [Overwrite.Gap, h.scoresSeen_eq]
  | indexErase | indexEmplace | returned =>
    simp only [hw] at h
    simp [Overwrite.Gap, h.scoresSeen_eq hnew.1 hnew.2]
  | _ => simp [hw] at h

/-- A reader sees the old or the new exactly when it does not decide in the gap. -/
theorem seenBy_iff (h : Shape o s) {r r' : Reader} (hr : r.perform s = some r') :
    o.SeenBy r' ↔ (o.Reads r → ¬ o.Gap s.writer) := by
  cases r with
  | calling op =>
    cases op with
    | getValueByKey key' =>
      obtain rfl := Option.some.inj hr
      cases o with
      | plain key old new =>
        simp only [Overwrite.SeenBy, Overwrite.Reads]
        constructor
        · rintro hseen rfl
          exact (value_seen_iff h).mp (hseen rfl)
        · rintro hgap rfl
          exact (value_seen_iff h).mpr (hgap rfl)
      | member key value old new => simp [Overwrite.SeenBy, Overwrite.Reads]
    | zsetZrange key' minScore maxScore =>
      simp only [Reader.perform] at hr
      split at hr
      · obtain rfl := Option.some.inj hr
        cases o <;> simp [Overwrite.SeenBy, Overwrite.Reads]
      · next hnone =>
        obtain rfl := Option.some.inj hr
        cases o with
        | plain key old new => simp [Overwrite.SeenBy, Overwrite.Reads]
        | member key value old new =>
          obtain ⟨-, z, hz, -⟩ := h
          simp only [Overwrite.SeenBy, Overwrite.Reads, false_imp_iff, iff_true]
          rintro rfl
          simp [hz] at hnone
  | found key' minScore maxScore =>
    obtain rfl := Option.some.inj hr
    cases o with
    | plain key old new => simp [Overwrite.SeenBy, Overwrite.Reads]
    | member key value old new =>
      simp only [Overwrite.SeenBy, Overwrite.Reads]
      constructor
      · rintro hseen ⟨rfl, hold, hnew⟩
        exact (groups_seen_iff h hold hnew).mp (hseen rfl hold.1 hold.2 hnew.1 hnew.2)
      · rintro hgap rfl hminOld hmaxOld hminNew hmaxNew
        exact (groups_seen_iff h ⟨hminOld, hmaxOld⟩ ⟨hminNew, hmaxNew⟩).mpr
          (hgap ⟨rfl, ⟨hminOld, hmaxOld⟩, hminNew, hmaxNew⟩)
  | gotValue key result => simp [Reader.perform] at hr
  | gotGroups key minScore maxScore result => simp [Reader.perform] at hr

private theorem alwaysSeen_setReader {id : ℕ} {r : Reader}
    (hid : ∀ q, s.readers id = some q → o.SeenBy q) :
    AlwaysSeen o (s.setReader id r) ↔ AlwaysSeen o s ∧ o.SeenBy r := by
  constructor
  · intro ha
    constructor
    · intro i q hq
      rcases eq_or_ne i id with rfl | hne
      · exact hid q hq
      · exact ha i q (by simp [State.setReader, hne, hq])
    · exact ha id r (by simp [State.setReader])
  · rintro ⟨ha, hr⟩
    exact forall_update_some ha hr

/-- One event keeps everything seen exactly when it is no decision in the gap. -/
theorem Shape.exact (h : Shape o s) {event : Event}
    (hs : CppStorageReaders.step o.write s event = some s') :
    AlwaysSeen o s' ↔ AlwaysSeen o s ∧ OutsideGap o s event := by
  rcases step_cases hs with ⟨rfl, -, rfl⟩ | ⟨id, op, rfl, hnone, rfl⟩ |
    ⟨id, r, r', rfl, hr, hr', rfl⟩
  · simp only [AlwaysSeen, perform_readers, OutsideGap, and_true]
  · rw [alwaysSeen_setReader (by simp [hnone])]
    cases o <;> simp [Overwrite.SeenBy, OutsideGap]
  · have hseen : ∀ q, s.readers id = some q → o.SeenBy q := by
      intro q hq
      obtain rfl := Option.some.inj (hr.symm.trans hq)
      exact seenBy_of_perform hr'
    rw [alwaysSeen_setReader hseen, seenBy_iff h hr']
    simp only [OutsideGap, hr, Option.some.injEq, forall_eq']

theorem changeZset_changeZset (s : Storage) (key : Fbstring) (f g : Zset → Zset) :
    changeZset (changeZset s key f) key g = changeZset s key (fun z => g (f z)) := by
  have hlookup : ((changeZset s key f).zsets[key]?).getD Zset.new =
      f (s.zsets[key]?.getD Zset.new) := by
    simp [changeZset]
  have hinsert : ∀ (m : ExtTreeMap Fbstring Zset) (a b : Zset), (m.insert key a).insert key b =
      m.insert key b := by
    intro m a b
    apply ExtTreeMap.ext_getElem?
    intro k
    simp only [lookup_insert]
    split <;> rfl
  rw [changeZset, hlookup, changeZset, changeZset, hinsert]

/-- From the look into the index on, the writer computes `zadd`. -/
theorem run_zadd (s : State) (key value : Fbstring) (score : UInt32) :
    ∃ n t, run (step (.zsetAdd key value score)) { s with writer := .indexFind }
        (List.replicate n .write) = some t ∧
      t.writer = .returned ∧
      t.storage = changeZset s.storage key (fun z => zadd z value score) := by
  have hlast : ∀ u : Storage, ∃ t, run (step (.zsetAdd key value score))
      { s with storage := u, writer := .enterNew } (List.replicate 3 .write) = some t ∧
      t.writer = .returned ∧ t.storage = changeZset u key (fun z =>
        ⟨(z.valueToScore.erase value).insertIfNew value score,
          emplaceInBucket z.scoreToValues score value⟩) := by
    intro u
    refine ⟨_, rfl, rfl, ?_⟩
    simp only [Write.perform]
    rw [changeZset_changeZset, changeZset_changeZset]
  cases hindex : (s.storage.zsets[key]?.getD Zset.new).valueToScore[value]? with
  | none =>
    have hfind : step (.zsetAdd key value score) { s with writer := .indexFind } .write =
        some { s with writer := .enterNew } := by
      simp [step, Write.perform, hindex]
    obtain ⟨t, ht, hw, hstorage⟩ := hlast s.storage
    refine ⟨4, t, run_cons_eq_some.mpr ⟨_, hfind, ht⟩, hw, ?_⟩
    rw [hstorage]
    simp only [changeZset, zadd, hindex, leaveOld]
  | some oldScore =>
    have hfind : step (.zsetAdd key value score) { s with writer := .indexFind } .write =
        some { s with writer := .leaveOld oldScore } := by
      simp [step, Write.perform, hindex]
    have hleave : step (.zsetAdd key value score) { s with writer := .leaveOld oldScore } .write =
        some { s with
          storage := changeZset s.storage key
            (fun z => { z with scoreToValues := eraseFromBucket z.scoreToValues oldScore value })
          writer := .enterNew } := rfl
    obtain ⟨t, ht, hw, hstorage⟩ := hlast (changeZset s.storage key
      (fun z => { z with scoreToValues := eraseFromBucket z.scoreToValues oldScore value }))
    refine ⟨5, t, run_cons_eq_some.mpr ⟨_, hfind, run_cons_eq_some.mpr ⟨_, hleave, ht⟩⟩, hw, ?_⟩
    rw [hstorage, changeZset_changeZset]
    simp only [changeZset, zadd, hindex, leaveOld]

theorem run_alone (s : Storage) (w : Write) : ∃ n t,
    run (step w) (State.start s w) (List.replicate n .write) = some t ∧ t.writer = .returned ∧
    t.storage = w.exec s := by
  cases w with
  | addKeyValue key value => exact ⟨3, _, rfl, rfl, rfl⟩
  | zsetAdd key value score =>
    cases hkv : s.kv[key]? with
    | some v =>
      have hfirst :
          step (.zsetAdd key value score) (State.start s (.zsetAdd key value score)) .write =
          some { State.start s (.zsetAdd key value score) with writer := .returned } := by
        simp [step, State.start, Write.first, Write.perform, hkv]
      refine ⟨1, _, run_cons_eq_some.mpr ⟨_, hfirst, rfl⟩, rfl, ?_⟩
      simp [State.start, Write.exec, Storage.zsetAdd, hkv]
    | none =>
      have hfirst :
          step (.zsetAdd key value score) (State.start s (.zsetAdd key value score)) .write =
          some { State.start s (.zsetAdd key value score) with writer := .zsetsFind } := by
        simp [step, State.start, Write.first, Write.perform, hkv]
      have hexec : (Write.zsetAdd key value score).exec s =
          changeZset s key (fun z => zadd z value score) := by
        simp only [Write.exec, Storage.zsetAdd, hkv, changeZset]
      cases hz : s.zsets[key]? with
      | some z =>
        have hsecond : step (.zsetAdd key value score)
            { State.start s (.zsetAdd key value score) with writer := .zsetsFind } .write =
              some { State.start s (.zsetAdd key value score) with writer := .indexFind } := by
          simp [step, State.start, Write.perform, hz]
        obtain ⟨n, t, ht, hw, hstorage⟩ :=
          run_zadd (State.start s (.zsetAdd key value score)) key value score
        exact ⟨n + 2, t, run_cons_eq_some.mpr ⟨_, hfirst, run_cons_eq_some.mpr ⟨_, hsecond, ht⟩⟩,
          hw, hstorage.trans hexec.symm⟩
      | none =>
        have hsecond : step (.zsetAdd key value score)
            { State.start s (.zsetAdd key value score) with writer := .zsetsFind } .write =
              some { State.start s (.zsetAdd key value score) with writer := .zsetsEmplace } := by
          simp [step, State.start, Write.perform, hz]
        have hthird : step (.zsetAdd key value score)
            { State.start s (.zsetAdd key value score) with writer := .zsetsEmplace } .write =
              some { State.start s (.zsetAdd key value score) with
                storage := { s with zsets := s.zsets.insertIfNew key Zset.new }
                writer := .indexFind } := rfl
        obtain ⟨n, t, ht, hw, hstorage⟩ := run_zadd { State.start s (.zsetAdd key value score) with
          storage := { s with zsets := s.zsets.insertIfNew key Zset.new } } key value score
        refine ⟨n + 3, t, run_cons_eq_some.mpr ⟨_, hfirst, run_cons_eq_some.mpr ⟨_, hsecond,
          run_cons_eq_some.mpr ⟨_, hthird, ht⟩⟩⟩, hw, ?_⟩
        have hnew : s.zsets.insertIfNew key Zset.new = s.zsets.insert key Zset.new := by
          apply ExtTreeMap.ext_getElem?
          intro k
          rw [ExtTreeMap.getElem?_insertIfNew, lookup_insert]
          by_cases hk : key = k
          · subst hk
            simp [ExtTreeMap.mem_iff_isSome_getElem?, hz]
          · simp [hk]
        have hempty : ({ s with zsets := s.zsets.insertIfNew key Zset.new } : Storage) =
            changeZset s key (fun _ => Zset.new) := by
          rw [hnew, changeZset]
        rw [hstorage, hexec, hempty, changeZset_changeZset]
        simp only [changeZset, hz, Option.getD_none]

variable {s : Storage} {o : Overwrite}

/-- In a storage that single calls have led to, a member is indexed and in one bucket, and
its key is no plain key. -/
theorem shape_start (hr : Reachable s) (ho : o.Of s) : Shape o (State.start s o.write) := by
  obtain ⟨ops, rfl⟩ := hr
  have hmaps := sameMaps_final ops
  have hrel : StorageRel _ _ :=
    simulates_api.final storageRel_new (fun op (_ : op ∈ ops) => trivial)
  cases o with
  | plain key old new => exact ho
  | member key value old new =>
    obtain ⟨hdiff, z, hz, hmem⟩ := ho
    refine ⟨hdiff, z, hz, ?_⟩
    have hentry := hrel key
    rw [hmaps.zsets] at hz
    have hkv := hentry.value
    cases he : final apiExec (fun _ => .absent) ops key with
    | absent =>
      rw [he] at hentry
      cases hentry with
      | absent _ hnone => simp [hz] at hnone
    | kv v =>
      rw [he] at hentry
      cases hentry with
      | kv _ hnone => simp [hz] at hnone
    | zset m =>
      rw [he] at hentry hkv
      cases hentry with
      | zset _ hz' hzset =>
        obtain rfl := Option.some.inj (hz.symm.trans hz')
        have hlevel : ∀ t, value ∈ bucketOf z.scoreToValues t ↔ m[value]? = some t := by
          intro t
          rw [hzset.buckets]
          rfl
        have hold := (hlevel old).mp hmem
        refine ⟨?_, hzset.indexed value old hold, ?_⟩
        · exact hmaps.kv ▸ hkv
        · intro t
          rw [hlevel t, hold, Option.some.injEq, eq_comm]

private theorem alwaysSeen_iff_meets (hr : Reachable s) (ho : o.Of s) {events : List Event}
    {t : State} (ht : run (step o.write) (State.start s o.write) events = some t) :
    AlwaysSeen o t ↔ Meets (step o.write) (OutsideGap o) (State.start s o.write) events := by
  rw [run_exact (Shape o) (AlwaysSeen o) (OutsideGap o) (fun _ _ _ h hs => h.step hs)
    (fun _ _ _ h hs => h.exact hs)
    (shape_start hr ho) ht]
  have hnobody : AlwaysSeen o (State.start s o.write) := by
    intro id r hid
    simp [State.start] at hid
  simp [hnobody]

private theorem exists_gap (hr : Reachable s) (ho : o.Of s) : ∃ events g,
    run (step o.write) (State.start s o.write) events = some g ∧ Shape o g ∧ o.Gap g.writer ∧
    g.readers 0 = none := by
  have hstart := shape_start hr ho
  have hgap : ∃ events g, run (step o.write) (State.start s o.write) events = some g ∧
      o.Gap g.writer ∧
      g.readers 0 = none := by
    cases o with
    | plain key old new => exact ⟨[.write], _, rfl, trivial, rfl⟩
    | member key value old new =>
      obtain ⟨-, z, hz, hkv, hindex, -⟩ := hstart
      have hfirst : step (.zsetAdd key value new) (State.start s (.zsetAdd key value new)) .write =
          some { State.start s (.zsetAdd key value new) with writer := .zsetsFind } := by
        simp only [State.start] at hkv
        simp [step, State.start, Write.first, Write.perform, hkv]
      have hsecond : step (.zsetAdd key value new)
          { State.start s (.zsetAdd key value new) with writer := .zsetsFind } .write =
            some { State.start s (.zsetAdd key value new) with writer := .indexFind } := by
        simp only [State.start] at hz
        simp [step, State.start, Write.perform, hz]
      have hthird : step (.zsetAdd key value new)
          { State.start s (.zsetAdd key value new) with writer := .indexFind } .write =
            some { State.start s (.zsetAdd key value new) with writer := .leaveOld old } := by
        simp only [State.start] at hz
        simp [step, State.start, Write.perform, hz, hindex]
      have hfourth : ∃ g, step (.zsetAdd key value new)
          { State.start s (.zsetAdd key value new) with writer := .leaveOld old } .write = some g ∧
            g.writer = .enterNew ∧ g.readers 0 = none := ⟨_, rfl, rfl, rfl⟩
      obtain ⟨g, hg, hw, hnone⟩ := hfourth
      refine ⟨[.write, .write, .write, .write], g, ?_, by simp [hw, Overwrite.Gap], hnone⟩
      exact run_cons_eq_some.mpr ⟨_, hfirst,
        run_cons_eq_some.mpr ⟨_, hsecond,
        run_cons_eq_some.mpr ⟨_, hthird, run_cons_eq_some.mpr ⟨_, hg, run_nil _⟩⟩⟩⟩
  obtain ⟨events, g, hg, hin, hnone⟩ := hgap
  exact ⟨events, g, hg, run_invariant_of_step (Shape o) (fun _ _ _ h hs => h.step hs) hstart hg,
    hin, hnone⟩

theorem setReader_self (g : State) (id : ℕ) (r : Reader) : (g.setReader id r).readers id = some r :=
  Function.update_self _ _ _

theorem perform_setReader (g : State) (id : ℕ) (q r : Reader) :
    r.perform (g.setReader id q) = r.perform g := by
  cases r with
  | calling op => cases op <;> rfl
  | _ => rfl

theorem run_read {w : Write} {g : State} {r r' : Reader} (hr : g.readers 0 = some r)
    (hp : r.perform g = some r') :
    run (step w) g [.read 0] = some (g.setReader 0 r') := by
  simp [run, step, hr, hp]

private theorem run_calling {w : Write} {g : State} (hnone : g.readers 0 = none) {op : Read}
    {r : Reader} (hr : (Reader.calling op).perform g = some r) :
    run (step w) g [.start 0 op, .read 0] = some ((g.setReader 0 (.calling op)).setReader 0 r) := by
  rw [run_cons_eq_some]
  have hperform : (Reader.calling op).perform (g.setReader 0 (.calling op)) = some r := by
    rw [perform_setReader, hr]
  exact ⟨g.setReader 0 (.calling op), by simp [step, hnone],
    run_read (setReader_self _ _ _) hperform⟩

private theorem exists_unseen (hr : Reachable s) (ho : o.Of s) : ∃ events t,
    run (step o.write) (State.start s o.write) events = some t ∧ ¬ AlwaysSeen o t := by
  obtain ⟨events, g, hg, hshape, hgap, hnone⟩ := exists_gap hr ho
  have hlast : ∃ es t r r', run (step o.write) g es = some t ∧ r.perform g = some r' ∧ o.Reads r ∧
      t.readers 0 = some r' := by
    cases o with
    | plain key old new =>
      have hfirst : (Reader.calling (.getValueByKey key)).perform g =
        some (.gotValue key g.storage.kv[key]?) := rfl
      exact ⟨_, _, _, _, run_calling hnone hfirst, hfirst, rfl, by simp [State.setReader]⟩
    | member key value old new =>
      obtain ⟨-, z, hz, -⟩ := hshape
      have hrange : ∀ score : UInt32, 0 ≤ score ∧ score ≤ 4294967295 := by
        intro score
        have hlt := score.toNat_lt
        simp only [UInt32.le_iff_toNat_le, UInt32.reduceToNat]
        omega
      have hfirst : (Reader.calling (.zsetZrange key 0 4294967295)).perform g =
          some (.found key 0 4294967295) := by
        simp [Reader.perform, hz]
      have hsecond : (Reader.found key 0 4294967295).perform g = some (.gotGroups key 0 4294967295
          ((g.storage.zsets[key]?.or g.removed).map (fun z => zrange z 0 4294967295))) := rfl
      have hperform : (Reader.found key 0 4294967295).perform
          ((g.setReader 0 (.calling (.zsetZrange key 0 4294967295))).setReader 0
            (.found key 0 4294967295)) =
          some (.gotGroups key 0 4294967295
            ((g.storage.zsets[key]?.or g.removed).map (fun z => zrange z 0 4294967295))) := by
        rw [perform_setReader, perform_setReader, hsecond]
      exact ⟨_, _, _, _, run_append_eq_some.mpr
        ⟨_, run_calling hnone hfirst, run_read (setReader_self _ _ _) hperform⟩,
        hsecond, ⟨rfl, hrange old, hrange new⟩, setReader_self _ _ _⟩
  obtain ⟨es, t, r, r', ht, hperform, hreads, hreader⟩ := hlast
  refine ⟨events ++ es, t, run_append_eq_some.mpr ⟨g, hg, ht⟩, ?_⟩
  intro hall
  exact (seenBy_iff hshape hperform).mp (hall 0 r' hreader) hreads hgap

/-- What is overwritten is always seen, old or new, exactly in the runs in which no reader
decides in the gap of the writer; and every overwrite has runs in which one does. -/
theorem overwrite_always_seen_iff {s : Storage} {o : Overwrite} (hr : Reachable s) (ho : o.Of s) :
    (∀ events t, run (step o.write) (State.start s o.write) events = some t →
      (AlwaysSeen o t ↔ Meets (step o.write) (OutsideGap o) (State.start s o.write) events)) ∧
    ∃ events t, run (step o.write) (State.start s o.write) events = some t ∧ ¬ AlwaysSeen o t :=
  ⟨fun _ _ ht => alwaysSeen_iff_meets hr ho ht, exists_unseen hr ho⟩

/-- The plain key `a`, and the sorted set `z` with the member `a` of score 5. -/
def stored : List StorageOp := [.on [97] (.addKeyValue [98]), .on [122] (.zsetAdd [97] 5)]

/-- Overwriting the plain key `a`: a reader that comes before the writer, and some reader that
does not see the key. -/
theorem overwrite_of_a :
    (∃ t,
      run (step (.addKeyValue [97] [99]))
        (State.start (final Storage.exec Storage.new stored) (.addKeyValue [97] [99]))
        [.start 0 (.getValueByKey [97]), .read 0, .write, .write, .write] = some t ∧
      AlwaysSeen (.plain [97] [98] [99]) t) ∧
    ∃ events t, run (step (.addKeyValue [97] [99]))
        (State.start (final Storage.exec Storage.new stored) (.addKeyValue [97] [99])) events =
          some t ∧
      ¬ AlwaysSeen (.plain [97] [98] [99]) t := by
  have hold : (Overwrite.plain [97] [98] [99]).Of (final Storage.exec Storage.new stored) := by
    have hlookup : (final Storage.exec Storage.new stored).kv[([97] : Fbstring)]? = some [98] := by
      decide
    exact hlookup
  obtain ⟨hruns, hunseen⟩ := overwrite_always_seen_iff ⟨stored, rfl⟩ hold
  have hrun : ∃ t, run (step (.addKeyValue [97] [99]))
      (State.start (final Storage.exec Storage.new stored) (.addKeyValue [97] [99]))
      [.start 0 (.getValueByKey [97]), .read 0, .write, .write, .write] = some t := ⟨_, rfl⟩
  obtain ⟨t, ht⟩ := hrun
  refine ⟨⟨t, ht, (hruns _ t ht).mpr ⟨trivial, fun s₁ hs₁ => ⟨?_, ?_⟩⟩⟩, hunseen⟩
  · obtain rfl := Option.some.inj hs₁
    exact fun _ _ _ hgap => hgap
  · exact fun _ _ => ⟨trivial, fun _ _ => ⟨trivial, fun _ _ => ⟨trivial, fun _ _ => trivial⟩⟩⟩

/-- A query finds no value while `a` is overwritten, and a range over all scores finds no
member while `a` moves from score 5 to 7. -/
theorem overwrite_not_always_seen :
    (∃ t,
      run (step (.addKeyValue [97] [99]))
        (State.start (final Storage.exec Storage.new stored) (.addKeyValue [97] [99]))
        [.write, .start 0 (.getValueByKey [97]), .read 0] = some t ∧
      t.readers 0 = some (.gotValue [97] none) ∧ ¬ AlwaysSeen (.plain [97] [98] [99]) t) ∧
    ∃ t,
      run (step (.zsetAdd [122] [97] 7))
        (State.start (final Storage.exec Storage.new stored) (.zsetAdd [122] [97] 7))
        [.write, .write, .write, .write, .start 0 (.zsetZrange [122] 0 9), .read 0, .read 0] =
          some t ∧
      t.readers 0 = some (.gotGroups [122] 0 9 (some [])) ∧
      ¬ AlwaysSeen (.member [122] [97] 5 7) t := by
  have hvalue : (run (step (.addKeyValue [97] [99]))
      (State.start (final Storage.exec Storage.new stored) (.addKeyValue [97] [99]))
      [.write, .start 0 (.getValueByKey [97]), .read 0]).map (fun t => t.readers 0) =
        some (some (.gotValue [97] none)) := by decide
  have hgroups : (run (step (.zsetAdd [122] [97] 7))
      (State.start (final Storage.exec Storage.new stored) (.zsetAdd [122] [97] 7))
      [.write, .write, .write, .write, .start 0 (.zsetZrange [122] 0 9), .read 0, .read 0]).map
        (fun t => t.readers 0) =
        some (some (.gotGroups [122] 0 9 (some []))) := by decide
  constructor
  · obtain ⟨t, ht, hreader⟩ := Option.map_eq_some_iff.mp hvalue
    refine ⟨t, ht, hreader, ?_⟩
    intro hall
    have hseen := hall 0 _ hreader rfl
    simp at hseen
  · obtain ⟨t, ht, hreader⟩ := Option.map_eq_some_iff.mp hgroups
    refine ⟨t, ht, hreader, ?_⟩
    intro hall
    obtain ⟨gs, hgs, hseen⟩ := hall 0 _ hreader rfl (by decide) (by decide) (by decide) (by decide)
    obtain rfl := Option.some.inj hgs
    simp [scoresSeen] at hseen

end HCache.CppStorageReaders
