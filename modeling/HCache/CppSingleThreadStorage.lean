import HCache.OrderedMaps
import HCache.SequentialMachines
import HCache.TwoIndexRelations

/-!
# The C++ single-threaded storage refines an API

`single_thread_zset` and `single_thread_storage` as the code computes them, and the API as
a machine in which each key is absent, a plain value, or a map from values to scores. The
removal of a member leaves its entry in `value_to_score_`; only the buckets say who is in
the set, so the simulation relation reads the first index one way only.
-/
namespace HCache.CppSingleThreadStorage
open Std OrderedMaps SequentialMachines TwoIndexRelations

/-- An `fbstring` is its bytes. -/
abbrev Fbstring := List UInt8

structure KeyValue where
  key : Fbstring
  value : Fbstring
  deriving DecidableEq, Repr

structure ScoreValues where
  score : UInt32
  values : Finset Fbstring
  deriving DecidableEq

structure Zset where
  valueToScore : ExtTreeMap Fbstring UInt32
  scoreToValues : ExtTreeMap UInt32 (Finset Fbstring)
  deriving DecidableEq

def Zset.new : Zset := ⟨∅, ∅⟩

/-- `score_to_values_[score].erase(value)`, then the bucket goes if it is empty. -/
def eraseFromBucket (b : ExtTreeMap UInt32 (Finset Fbstring)) (score : UInt32) (value : Fbstring) :
    ExtTreeMap UInt32 (Finset Fbstring) :=
  let values := (b[score]?.getD ∅).erase value
  if values = ∅ then b.erase score else b.insert score values

/-- `score_to_values_[score].emplace(value)` -/
def emplaceInBucket (b : ExtTreeMap UInt32 (Finset Fbstring)) (score : UInt32) (value : Fbstring) :
    ExtTreeMap UInt32 (Finset Fbstring) :=
  b.insert score (insert value (b[score]?.getD ∅))

def Zset.zrmv (z : Zset) (value : Fbstring) : Zset :=
  match z.valueToScore[value]? with
  | none => z
  | some score => { z with scoreToValues := eraseFromBucket z.scoreToValues score value }

def Zset.zadd (z : Zset) (value : Fbstring) (score : UInt32) : Zset :=
  let b := match z.valueToScore[value]? with
    | some oldScore =>
      emplaceInBucket (eraseFromBucket z.scoreToValues oldScore value) score value
    | none => z.scoreToValues
  { scoreToValues := emplaceInBucket b score value
    valueToScore := (z.valueToScore.erase value).insertIfNew value score }

/-- From `lower_bound(min_score)` until a score above `max_score`. -/
def Zset.zrange (z : Zset) (minScore maxScore : UInt32) : List ScoreValues :=
  (scanEntries z.scoreToValues minScore maxScore).map (fun e => ⟨e.1, e.2⟩)

structure SingleThreadStorage where
  zsets : ExtTreeMap Fbstring Zset
  kv : ExtTreeMap Fbstring Fbstring

namespace SingleThreadStorage

def new : SingleThreadStorage := ⟨∅, ∅⟩

def getValueByKey (s : SingleThreadStorage) (key : Fbstring) : Option Fbstring := s.kv[key]?

def addKeyValue (s : SingleThreadStorage) (key value : Fbstring) : SingleThreadStorage :=
  let s := { s with kv := s.kv.erase key }
  let s := { s with zsets := s.zsets.erase key }
  { s with kv := s.kv.insertIfNew key value }

def delKey (s : SingleThreadStorage) (key : Fbstring) : SingleThreadStorage :=
  { s with kv := s.kv.erase key, zsets := s.zsets.erase key }

def listKeys (s : SingleThreadStorage) (keys : List Fbstring) : List KeyValue :=
  keys.filterMap (fun key => s.kv[key]?.map (fun value => ⟨key, value⟩))

def zsetAdd (s : SingleThreadStorage) (key value : Fbstring) (score : UInt32) :
    SingleThreadStorage × Bool :=
  match s.kv[key]? with
  | some _ => (s, false)
  | none =>
    let zset := s.zsets[key]?.getD Zset.new
    ({ s with zsets := s.zsets.insert key (zset.zadd value score) }, true)

def zsetRmv (s : SingleThreadStorage) (key value : Fbstring) : SingleThreadStorage :=
  match s.zsets[key]? with
  | none => s
  | some zset => { s with zsets := s.zsets.insert key (zset.zrmv value) }

def zsetZrange (s : SingleThreadStorage) (key : Fbstring) (minScore maxScore : UInt32) :
    Option (List ScoreValues) :=
  s.zsets[key]?.map (fun zset => zset.zrange minScore maxScore)

end SingleThreadStorage

inductive KeyOp where
  | addKeyValue (value : Fbstring)
  | delKey
  | getValueByKey
  | zsetAdd (value : Fbstring) (score : UInt32)
  | zsetRmv (value : Fbstring)
  | zsetZrange (minScore maxScore : UInt32)
  deriving DecidableEq, Repr

inductive StorageOp where
  | on (key : Fbstring) (op : KeyOp)
  | listKeys (keys : List Fbstring)
  deriving DecidableEq, Repr

inductive Reply where
  | unit
  | value (v : Option Fbstring)
  | keyValues (kvs : List KeyValue)
  | flag (success : Bool)
  | groups (gs : Option (List ScoreValues))
  deriving DecidableEq

def SingleThreadStorage.execOn (s : SingleThreadStorage) (key : Fbstring) :
    KeyOp → SingleThreadStorage × Reply
  | .addKeyValue value => (s.addKeyValue key value, .unit)
  | .delKey => (s.delKey key, .unit)
  | .getValueByKey => (s, .value (s.getValueByKey key))
  | .zsetAdd value score => ((s.zsetAdd key value score).1, .flag (s.zsetAdd key value score).2)
  | .zsetRmv value => (s.zsetRmv key value, .unit)
  | .zsetZrange minScore maxScore => (s, .groups (s.zsetZrange key minScore maxScore))

def SingleThreadStorage.exec (s : SingleThreadStorage) : StorageOp → SingleThreadStorage × Reply
  | .on key op => s.execOn key op
  | .listKeys keys => (s, .keyValues (s.listKeys keys))

inductive Entry where
  | absent
  | kv (value : Fbstring)
  | zset (members : ExtTreeMap Fbstring UInt32)
  deriving DecidableEq

def Entry.value? : Entry → Option Fbstring
  | .kv value => some value
  | .absent | .zset _ => none

def valuesAt (m : ExtTreeMap Fbstring UInt32) (score : UInt32) : Finset Fbstring :=
  ((m.toList.filter (fun e => e.2 = score)).map Prod.fst).toFinset

def scoresOf (m : ExtTreeMap Fbstring UInt32) : List UInt32 :=
  (ExtTreeSet.ofList (m.toList.map Prod.snd)).toList

/-- The members with scores in range, grouped by score. -/
def groupsOf (m : ExtTreeMap Fbstring UInt32) (minScore maxScore : UInt32) : List ScoreValues :=
  ((scoresOf m).filter (fun s => minScore ≤ s ∧ s ≤ maxScore)).map (fun s => ⟨s, valuesAt m s⟩)

/-- The API on the entry of the key that an operation names. -/
def Entry.act : Entry → KeyOp → Entry × Reply
  | _, .addKeyValue value => (.kv value, .unit)
  | _, .delKey => (.absent, .unit)
  | e, .getValueByKey => (e, .value e.value?)
  | .kv v, .zsetAdd _ _ => (.kv v, .flag false)
  | .absent, .zsetAdd value score =>
    (.zset ((∅ : ExtTreeMap Fbstring UInt32).insert value score), .flag true)
  | .zset m, .zsetAdd value score => (.zset (m.insert value score), .flag true)
  | .zset m, .zsetRmv value => (.zset (m.erase value), .unit)
  | e, .zsetRmv _ => (e, .unit)
  | .zset m, .zsetZrange minScore maxScore =>
    (.zset m, .groups (some (groupsOf m minScore maxScore)))
  | e, .zsetZrange _ _ => (e, .groups none)

/-- The API as a machine over all keys. -/
def apiExec (api : Fbstring → Entry) : StorageOp → (Fbstring → Entry) × Reply
  | .on key op => (Function.update api key ((api key).act op).1, ((api key).act op).2)
  | .listKeys keys =>
    (api, .keyValues (keys.filterMap (fun key => (api key).value?.map (fun value => ⟨key, value⟩))))

theorem mem_valuesAt {m : ExtTreeMap Fbstring UInt32} {score : UInt32} {value : Fbstring} :
    value ∈ valuesAt m score ↔ m[value]? = some score := by
  simp only [valuesAt, List.mem_toFinset, List.mem_map, List.mem_filter, decide_eq_true_eq]
  constructor
  · rintro ⟨⟨v, s⟩, ⟨he, rfl⟩, rfl⟩
    exact ExtTreeMap.mem_toList_iff_getElem?_eq_some.mp he
  · intro h
    exact ⟨(value, score), ⟨ExtTreeMap.mem_toList_iff_getElem?_eq_some.mpr h, rfl⟩, rfl⟩

theorem mem_scoresOf {m : ExtTreeMap Fbstring UInt32} {score : UInt32} :
    score ∈ scoresOf m ↔ ∃ value : Fbstring, m[value]? = some score := by
  rw [scoresOf, ExtTreeSet.mem_toList, ExtTreeSet.mem_ofList, List.contains_iff_mem, List.mem_map]
  constructor
  · rintro ⟨⟨v, s⟩, he, rfl⟩
    exact ⟨v, ExtTreeMap.mem_toList_iff_getElem?_eq_some.mp he⟩
  · rintro ⟨v, hv⟩
    exact ⟨(v, score), ExtTreeMap.mem_toList_iff_getElem?_eq_some.mpr hv, rfl⟩

/-- The same groups as entries of a map from scores to sets of values. -/
def groupEntries (m : ExtTreeMap Fbstring UInt32) (minScore maxScore : UInt32) :
    List (UInt32 × Finset Fbstring) :=
  ((scoresOf m).filter (fun s => minScore ≤ s ∧ s ≤ maxScore)).map (fun s => (s, valuesAt m s))

theorem groupsOf_eq (m : ExtTreeMap Fbstring UInt32) (minScore maxScore : UInt32) :
    groupsOf m minScore maxScore =
      (groupEntries m minScore maxScore).map (fun e => ⟨e.1, e.2⟩) := by
  simp [groupsOf, groupEntries, Function.comp_def]

theorem ascending_groupEntries (m : ExtTreeMap Fbstring UInt32) (minScore maxScore : UInt32) :
    Ascending (groupEntries m minScore maxScore) := by
  have h : (scoresOf m).Pairwise (fun a b => compare a b = .lt) := ExtTreeSet.ordered_toList
  rw [Ascending, groupEntries, List.pairwise_map]
  exact h.filter _

theorem mem_groupEntries {m : ExtTreeMap Fbstring UInt32} {minScore maxScore s : UInt32}
    {vs : Finset Fbstring} : (s, vs) ∈ groupEntries m minScore maxScore ↔
      (s ∈ scoresOf m ∧ vs = valuesAt m s) ∧ minScore ≤ s ∧ s ≤ maxScore := by
  simp only [groupEntries, List.mem_map, List.mem_filter, decide_eq_true_eq, Prod.mk.injEq]
  constructor
  · rintro ⟨t, ⟨hs, hr⟩, rfl, rfl⟩
    exact ⟨⟨hs, rfl⟩, hr⟩
  · rintro ⟨⟨hs, rfl⟩, hr⟩
    exact ⟨s, ⟨hs, hr⟩, rfl, rfl⟩

/-- What a range answer of the API says about its members. -/
structure GroupsSpec (m : ExtTreeMap Fbstring UInt32) (minScore maxScore : UInt32)
    (l : List ScoreValues) : Prop where
  ascending : l.Pairwise (fun a b => a.score < b.score)
  in_range : ∀ g ∈ l, minScore ≤ g.score ∧ g.score ≤ maxScore
  nonempty : ∀ g ∈ l, g.values.Nonempty
  values : ∀ g ∈ l, ∀ value, value ∈ g.values ↔ m[value]? = some g.score
  complete : ∀ (value : Fbstring) (score : UInt32), m[value]? = some score → minScore ≤ score →
    score ≤ maxScore → ∃ g ∈ l, g.score = score

theorem groupsOf_spec (m : ExtTreeMap Fbstring UInt32) (minScore maxScore : UInt32) :
    GroupsSpec m minScore maxScore (groupsOf m minScore maxScore) := by
  have hmem : ∀ g, g ∈ groupsOf m minScore maxScore ↔
      (g.score ∈ scoresOf m ∧ g.values = valuesAt m g.score) ∧ minScore ≤ g.score ∧
      g.score ≤ maxScore := by
    rintro ⟨s, vs⟩
    rw [groupsOf_eq, ← mem_groupEntries]
    simp
  constructor
  · rw [groupsOf_eq, List.pairwise_map]
    exact (ascending_groupEntries m minScore maxScore).imp (fun h => compare_eq_lt.mp h)
  · intro g hg
    exact ((hmem g).mp hg).2
  · intro g hg
    obtain ⟨⟨hs, hvs⟩, -⟩ := (hmem g).mp hg
    obtain ⟨v, hv⟩ := mem_scoresOf.mp hs
    exact ⟨v, hvs ▸ mem_valuesAt.mpr hv⟩
  · intro g hg value
    rw [((hmem g).mp hg).1.2]
    exact mem_valuesAt
  · intro value score hv hmin hmax
    exact ⟨⟨score, valuesAt m score⟩,
    (hmem _).mpr ⟨⟨mem_scoresOf.mpr ⟨value, hv⟩, rfl⟩, hmin, hmax⟩, rfl⟩

theorem bucketOf_emplaceInBucket (b : ExtTreeMap UInt32 (Finset Fbstring)) (score : UInt32)
    (value : Fbstring) :
    bucketOf (emplaceInBucket b score value) = enter (bucketOf b) score value := by
  funext t
  ext w
  by_cases ht : score = t
  · subst ht
    cases hb : b[score]? with
    | none => simp [mem_bucketOf, emplaceInBucket, hb]
    | some vs => simp [mem_bucketOf, emplaceInBucket, hb]
  · simp [mem_bucketOf, emplaceInBucket, lookup_insert, ht, Ne.symm ht]

private theorem lookup_eraseFromBucket_of_ne (b : ExtTreeMap UInt32 (Finset Fbstring))
    {score t : UInt32} (value : Fbstring) (h : score ≠ t) :
    (eraseFromBucket b score value)[t]? = b[t]? := by
  simp only [eraseFromBucket]
  split
  · rw [lookup_erase, if_neg h]
  · rw [lookup_insert, if_neg h]

theorem bucketOf_eraseFromBucket (b : ExtTreeMap UInt32 (Finset Fbstring)) (score : UInt32)
    (value : Fbstring) :
    bucketOf (eraseFromBucket b score value) = leave (bucketOf b) score value := by
  have hlocal : ∀ w : Fbstring, w ∈ (b[score]?.getD ∅).erase value ↔ w ∈ bucketOf b score ∧
      w ≠ value := by
    intro w
    cases hb : b[score]? with
    | none => simp [mem_bucketOf, hb]
    | some vs => simp [mem_bucketOf, hb, and_comm]
  funext t
  ext w
  rcases eq_or_ne score t with rfl | ht
  · rcases Finset.eq_empty_or_nonempty ((b[score]?.getD ∅).erase value) with hempty | hne
    · have hno := hlocal w
      rw [hempty] at hno
      simpa [mem_bucketOf, eraseFromBucket, hempty] using hno
    · simpa [mem_bucketOf, eraseFromBucket, hne.ne_empty] using hlocal w
  · rw [mem_leave, mem_bucketOf, mem_bucketOf, lookup_eraseFromBucket_of_ne b value ht]
    simp [Ne.symm ht]

def NoEmptyBucket (b : ExtTreeMap UInt32 (Finset Fbstring)) : Prop :=
  ∀ (score : UInt32) (vs : Finset Fbstring), b[score]? = some vs → vs ≠ ∅

private theorem noEmptyBucket_emplaceInBucket {b : ExtTreeMap UInt32 (Finset Fbstring)}
    (h : NoEmptyBucket b) (score : UInt32) (value : Fbstring) :
    NoEmptyBucket (emplaceInBucket b score value) := by
  intro t vs ht
  rw [emplaceInBucket, lookup_insert] at ht
  split at ht
  · rw [← Option.some.inj ht]
    exact Finset.insert_ne_empty _ _
  · exact h t vs ht

theorem noEmptyBucket_eraseFromBucket {b : ExtTreeMap UInt32 (Finset Fbstring)}
    (h : NoEmptyBucket b) (score : UInt32) (value : Fbstring) :
    NoEmptyBucket (eraseFromBucket b score value) := by
  intro t vs ht
  simp only [eraseFromBucket] at ht
  split at ht
  · rw [lookup_erase] at ht
    split at ht
    · simp at ht
    · exact h t vs ht
  · next hne =>
    rw [lookup_insert] at ht
    split at ht
    · rwa [← Option.some.inj ht]
    · exact h t vs ht

/-- The buckets are the levels of the members; `value_to_score_` has at least the members. -/
structure ZsetRel (z : Zset) (m : ExtTreeMap Fbstring UInt32) : Prop where
  buckets : bucketOf z.scoreToValues = level (fun value => m[value]?)
  noEmpty : NoEmptyBucket z.scoreToValues
  indexed : ∀ (value : Fbstring) (score : UInt32), m[value]? = some score →
    z.valueToScore[value]? = some score

theorem zsetRel_new : ZsetRel Zset.new ∅ := by
  refine ⟨?_, ?_, ?_⟩
  · funext t
    ext w
    simp [mem_bucketOf, Zset.new]
  · intro t vs ht
    simp [Zset.new] at ht
  · intro value score h
    simp at h

theorem zadd_valueToScore (z : Zset) (value v : Fbstring) (score : UInt32) :
    (z.zadd value score).valueToScore[v]? = if v = value then some score
      else z.valueToScore[v]? := by
  simp only [Zset.zadd, lookup_replace, eq_comm]

/-- The bucket that a dead entry names may hold other values, or be created and erased again;
either way only `value` moves. -/
theorem ZsetRel.zadd {z : Zset} {m : ExtTreeMap Fbstring UInt32} (h : ZsetRel z m)
    (value : Fbstring) (score : UInt32) : ZsetRel (z.zadd value score) (m.insert value score) := by
  refine ⟨?_, ?_, ?_⟩
  · rw [lookup_insert_eq_put]
    unfold Zset.zadd
    cases hv : z.valueToScore[value]? with
    | none =>
      have hnone : m[value]? = none := by
        cases hm : m[value]? with
        | none => rfl
        | some s => simp [h.indexed value s hm] at hv
      rw [level_put_new score hnone, ← h.buckets]
      exact bucketOf_emplaceInBucket z.scoreToValues score value
    | some oldScore =>
      have hold : ∀ t, m[value]? = some t → t = oldScore := by
        intro t ht
        exact Option.some.inj ((h.indexed value t ht).symm.trans hv)
      have htwice : ∀ b : UInt32 → Set Fbstring, enter (enter b score value) score value =
          enter b score value := by
        intro b
        funext t
        ext w
        simp only [mem_enter]
        tauto
      rw [level_put_moved score hold, ← h.buckets]
      simp only [bucketOf_emplaceInBucket, bucketOf_eraseFromBucket, htwice]
  · unfold Zset.zadd
    split
    · exact noEmptyBucket_emplaceInBucket (noEmptyBucket_emplaceInBucket
        (noEmptyBucket_eraseFromBucket h.noEmpty _ _) _ _) _ _
    · exact noEmptyBucket_emplaceInBucket h.noEmpty _ _
  · intro v s hs
    rw [lookup_insert] at hs
    rw [zadd_valueToScore]
    split at hs
    · next he => rwa [if_pos he.symm]
    · next he => rw [if_neg (Ne.symm he), h.indexed v s hs]

theorem ZsetRel.zrmv {z : Zset} {m : ExtTreeMap Fbstring UInt32} (h : ZsetRel z m)
    (value : Fbstring) :
    ZsetRel (z.zrmv value) (m.erase value) := by
  have hindexed : ∀ (v : Fbstring) (s : UInt32), (m.erase value)[v]? = some s →
      z.valueToScore[v]? = some s := by
    intro v s hs
    rw [lookup_erase] at hs
    split at hs
    · simp at hs
    · exact h.indexed v s hs
  unfold Zset.zrmv
  cases hv : z.valueToScore[value]? with
  | none =>
    have hnone : m[value]? = none := by
      cases hm : m[value]? with
      | none => rfl
      | some s => simp [h.indexed value s hm] at hv
    refine ⟨?_, h.noEmpty, hindexed⟩
    rw [lookup_erase_eq_drop, drop_eq_self hnone, h.buckets]
  | some score =>
    have hold : ∀ t, m[value]? = some t → t = score := by
      intro t ht
      exact Option.some.inj ((h.indexed value t ht).symm.trans hv)
    refine ⟨?_, noEmptyBucket_eraseFromBucket h.noEmpty score value, hindexed⟩
    rw [lookup_erase_eq_drop, level_drop hold, ← h.buckets]
    exact bucketOf_eraseFromBucket z.scoreToValues score value

theorem ZsetRel.bucket_iff {z : Zset} {m : ExtTreeMap Fbstring UInt32} (h : ZsetRel z m)
    {score : UInt32} {vs : Finset Fbstring} :
    z.scoreToValues[score]? = some vs ↔ score ∈ scoresOf m ∧ vs = valuesAt m score := by
  have hvalues : ∀ ws : Finset Fbstring, z.scoreToValues[score]? = some ws →
      ws = valuesAt m score := by
    intro ws hws
    ext v
    have hb : v ∈ bucketOf z.scoreToValues score ↔ m[v]? = some score := by
      rw [h.buckets]
      rfl
    rw [bucketOf_of_getElem? hws] at hb
    exact hb.trans mem_valuesAt.symm
  constructor
  · intro hs
    have hvs := hvalues vs hs
    obtain ⟨v, hv⟩ := Finset.nonempty_iff_ne_empty.mpr (h.noEmpty score vs hs)
    exact ⟨mem_scoresOf.mpr ⟨v, mem_valuesAt.mp (hvs ▸ hv)⟩, hvs⟩
  · rintro ⟨hs, rfl⟩
    obtain ⟨v, hv⟩ := mem_scoresOf.mp hs
    have hb : v ∈ bucketOf z.scoreToValues score := by
      rw [h.buckets]
      exact hv
    obtain ⟨ws, hws, -⟩ := hb
    rw [hws, hvalues ws hws]

theorem ZsetRel.zrange {z : Zset} {m : ExtTreeMap Fbstring UInt32} (h : ZsetRel z m)
    (minScore maxScore : UInt32) : z.zrange minScore maxScore = groupsOf m minScore maxScore := by
  have hentries : rangeEntries z.scoreToValues minScore maxScore =
      groupEntries m minScore maxScore := by
    refine (ascending_rangeEntries _ _ _).eq_of_mem_iff (ascending_groupEntries _ _ _) ?_
    rintro ⟨s, vs⟩
    rw [mem_rangeEntries, mem_groupEntries, h.bucket_iff, isLE_compare, isLE_compare]
  rw [Zset.zrange, scanEntries_eq_rangeEntries, hentries, groupsOf_eq]

inductive EntryRel (s : SingleThreadStorage) (key : Fbstring) : Entry → Prop where
  | absent (hkv : s.kv[key]? = none) (hz : s.zsets[key]? = none) : EntryRel s key .absent
  | kv {value} (hkv : s.kv[key]? = some value)
      (hz : s.zsets[key]? = none) : EntryRel s key (.kv value)
  | zset {z m} (hkv : s.kv[key]? = none) (hz : s.zsets[key]? = some z) (hrel : ZsetRel z m) :
      EntryRel s key (.zset m)

def StorageRel (s : SingleThreadStorage) (api : Fbstring → Entry) : Prop :=
  ∀ key, EntryRel s key (api key)

theorem EntryRel.value {s : SingleThreadStorage} {key : Fbstring} {e : Entry}
    (h : EntryRel s key e) :
    s.kv[key]? = e.value? := by
  cases h <;> assumption

theorem EntryRel.congr {s s' : SingleThreadStorage} {key : Fbstring} {e : Entry}
    (h : EntryRel s key e) (hkv : s'.kv[key]? = s.kv[key]?) (hz : s'.zsets[key]? = s.zsets[key]?) :
    EntryRel s' key e := by
  cases h with
  | absent h1 h2 => exact .absent (hkv.trans h1) (hz.trans h2)
  | kv h1 h2 => exact .kv (hkv.trans h1) (hz.trans h2)
  | zset h1 h2 hrel => exact .zset (hkv.trans h1) (hz.trans h2) hrel

/-- An operation leaves the entries of all other keys alone. -/
theorem execOn_other (s : SingleThreadStorage) {key k : Fbstring} (op : KeyOp) (h : k ≠ key) :
    (s.execOn key op).1.kv[k]? = s.kv[k]? ∧ (s.execOn key op).1.zsets[k]? = s.zsets[k]? := by
  have hne : key ≠ k := Ne.symm h
  cases op with
  | addKeyValue value =>
    simp only [SingleThreadStorage.execOn, SingleThreadStorage.addKeyValue, lookup_replace,
      lookup_erase, if_neg hne, and_self]
  | delKey => simp [SingleThreadStorage.execOn, SingleThreadStorage.delKey, lookup_erase, hne]
  | getValueByKey => exact ⟨rfl, rfl⟩
  | zsetAdd value score =>
    simp only [SingleThreadStorage.execOn, SingleThreadStorage.zsetAdd]
    split
    · exact ⟨rfl, rfl⟩
    · simp [lookup_insert, hne]
  | zsetRmv value =>
    simp only [SingleThreadStorage.execOn, SingleThreadStorage.zsetRmv]
    split
    · exact ⟨rfl, rfl⟩
    · simp [lookup_insert, hne]
  | zsetZrange minScore maxScore => exact ⟨rfl, rfl⟩

/-- The storage after an operation on `key` matches the entry, and so does the response. -/
def Follows (s : SingleThreadStorage) (key : Fbstring) (e : Entry) (op : KeyOp) : Prop :=
  EntryRel (s.execOn key op).1 key (e.act op).1 ∧ (s.execOn key op).2 = (e.act op).2

variable {s : SingleThreadStorage} {key : Fbstring} {e : Entry}

theorem EntryRel.zsetAdd (h : EntryRel s key e) (value : Fbstring) (score : UInt32) :
    Follows s key e (.zsetAdd value score) := by
  cases h with
  | absent hkv hz =>
    have hexec : s.execOn key (.zsetAdd value score) =
        ({ s with zsets := s.zsets.insert key (Zset.new.zadd value score) }, .flag true) := by
      simp [SingleThreadStorage.execOn, SingleThreadStorage.zsetAdd, hkv, hz]
    rw [Follows, hexec]
    exact ⟨.zset hkv (by simp) (zsetRel_new.zadd value score), rfl⟩
  | kv hkv hz =>
    have hexec : s.execOn key (.zsetAdd value score) = (s, .flag false) := by
      simp [SingleThreadStorage.execOn, SingleThreadStorage.zsetAdd, hkv]
    rw [Follows, hexec]
    exact ⟨.kv hkv hz, rfl⟩
  | @zset z m hkv hz hrel =>
    have hexec : s.execOn key (.zsetAdd value score) =
        ({ s with zsets := s.zsets.insert key (z.zadd value score) }, .flag true) := by
      simp [SingleThreadStorage.execOn, SingleThreadStorage.zsetAdd, hkv, hz]
    rw [Follows, hexec]
    exact ⟨.zset hkv (by simp) (hrel.zadd value score), rfl⟩

theorem EntryRel.zsetRmv (h : EntryRel s key e) (value : Fbstring) :
    Follows s key e (.zsetRmv value) := by
  have hmissing : s.zsets[key]? = none → s.execOn key (.zsetRmv value) = (s, .unit) := by
    intro hz
    simp [SingleThreadStorage.execOn, SingleThreadStorage.zsetRmv, hz]
  cases h with
  | absent hkv hz =>
    rw [Follows, hmissing hz]
    exact ⟨.absent hkv hz, rfl⟩
  | kv hkv hz =>
    rw [Follows, hmissing hz]
    exact ⟨.kv hkv hz, rfl⟩
  | @zset z m hkv hz hrel =>
    have hexec : s.execOn key (.zsetRmv value) =
        ({ s with zsets := s.zsets.insert key (z.zrmv value) }, .unit) := by
      simp [SingleThreadStorage.execOn, SingleThreadStorage.zsetRmv, hz]
    rw [Follows, hexec]
    exact ⟨.zset hkv (by simp) (hrel.zrmv value), rfl⟩

theorem EntryRel.zsetZrange (h : EntryRel s key e) (minScore maxScore : UInt32) :
    Follows s key e (.zsetZrange minScore maxScore) := by
  cases h with
  | absent hkv hz =>
    exact ⟨.absent hkv hz, by simp [SingleThreadStorage.execOn, SingleThreadStorage.zsetZrange,
      hz, Entry.act]⟩
  | kv hkv hz =>
    exact ⟨.kv hkv hz, by simp [SingleThreadStorage.execOn, SingleThreadStorage.zsetZrange,
      hz, Entry.act]⟩
  | zset hkv hz hrel =>
    refine ⟨.zset hkv hz hrel, ?_⟩
    simp [SingleThreadStorage.execOn, SingleThreadStorage.zsetZrange, hz, Entry.act, hrel.zrange]

theorem EntryRel.execOn (h : EntryRel s key e) (op : KeyOp) : Follows s key e op := by
  cases op with
  | addKeyValue value =>
    refine ⟨.kv ?_ ?_, rfl⟩
    · exact (lookup_replace s.kv key value key).trans (if_pos rfl)
    · simp [SingleThreadStorage.execOn, SingleThreadStorage.addKeyValue]
  | delKey =>
    refine ⟨.absent ?_ ?_, rfl⟩
    · simp [SingleThreadStorage.execOn, SingleThreadStorage.delKey]
    · simp [SingleThreadStorage.execOn, SingleThreadStorage.delKey]
  | getValueByKey => exact ⟨h, congrArg Reply.value h.value⟩
  | zsetAdd value score => exact h.zsetAdd value score
  | zsetRmv value => exact h.zsetRmv value
  | zsetZrange minScore maxScore => exact h.zsetZrange minScore maxScore

theorem storageRel_new : StorageRel SingleThreadStorage.new (fun _ => .absent) := by
  intro key
  exact .absent (by simp [SingleThreadStorage.new]) (by simp [SingleThreadStorage.new])

theorem simulates_api :
    Simulates SingleThreadStorage.exec apiExec (fun _ => True) StorageRel Eq := by
  constructor
  · intro s api op h _
    cases op with
    | listKeys keys => exact h
    | on key op =>
      intro k
      simp only [SingleThreadStorage.exec, apiExec]
      rcases eq_or_ne k key with rfl | hk
      · rw [Function.update_self]
        exact ((h k).execOn op).1
      · rw [Function.update_of_ne hk]
        exact (h k).congr (execOn_other s op hk).1 (execOn_other s op hk).2
  · intro s api op h _
    cases op with
    | listKeys keys =>
      simp only [SingleThreadStorage.exec, SingleThreadStorage.listKeys, apiExec, (h _).value]
    | on key op => exact ((h key).execOn op).2

/-- Every response of the storage is the response of the API, whose range
answers are strictly ascending groups without an empty one. -/
theorem singleThreadStorage_implements_api (ops : List StorageOp) :
    responses SingleThreadStorage.exec SingleThreadStorage.new ops =
      responses apiExec (fun _ => .absent) ops ∧
    ∀ m minScore maxScore, GroupsSpec m minScore maxScore (groupsOf m minScore maxScore) := by
  refine ⟨?_, groupsOf_spec⟩
  have h := simulates_api.responses storageRel_new (fun op (_ : op ∈ ops) => trivial)
  exact List.forall₂_eq_eq_eq ▸ h

/-- A removed member is added again under another score while its dead entry is still indexed. -/
example : responses SingleThreadStorage.exec SingleThreadStorage.new
    [.on [122] (.zsetAdd [97] 5), .on [122] (.zsetRmv [97]), .on [122] (.zsetZrange 0 9),
      .on [122] (.zsetAdd [97] 7), .on [122] (.zsetZrange 0 9), .on [122] (.zsetZrange 9 0)] =
    [.flag true, .unit, .groups (some []), .flag true, .groups (some [⟨7, {[97]}⟩]),
      .groups (some [])] := by
  decide

end HCache.CppSingleThreadStorage
