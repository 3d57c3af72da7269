import HCache.RustStorage
import HCache.SequentialMachines
import HCache.TwoIndexRelations
import Mathlib.Data.List.Nodup

/-!
# The Rust sorted set implements a map from values to scores

`members` reads a sorted set as a partial map. The two indexes agree when the buckets are
the levels of that map. Each operation edits the map as its name says and keeps the
agreement, so a run is described by the history of its operations alone.
-/
namespace HCache.RustSortedSets
open Std OrderedMaps TwoIndexRelations RustStorage

/-- The score of each value, as `value_to_score` has it. -/
def members (z : ZSet) (value : Str) : Option UInt32 := z.valueToScore[value]?

/-- `value_to_score` maps `v` to `s` exactly when `v` is in the bucket of `s`. -/
def Consistent (z : ZSet) : Prop := bucketOf z.scoreToValues = level (members z)

theorem Consistent.bucketOf_eq {z : ZSet} (h : Consistent z) :
    bucketOf z.scoreToValues = level (members z) := h

theorem Consistent.mem_bucket {z : ZSet} (h : Consistent z) {value : Str} {score : UInt32} :
    value ∈ bucketOf z.scoreToValues score ↔ z.valueToScore[value]? = some score := by
  rw [h.bucketOf_eq]
  rfl

theorem bucketOf_addToBucket (b : ExtTreeMap UInt32 (Finset Str)) (score : UInt32) (value : Str) :
    bucketOf (addToBucket b score value) = enter (bucketOf b) score value := by
  funext t
  ext w
  by_cases ht : score = t
  · subst ht
    cases hb : b[score]? with
    | none => simp [mem_bucketOf, addToBucket, hb]
    | some vs => simp [mem_bucketOf, addToBucket, hb]
  · simp [mem_bucketOf, addToBucket, ExtTreeMap.getElem?_alter, ht, Ne.symm ht]

theorem bucketOf_removeFromBucket (b : ExtTreeMap UInt32 (Finset Str)) (score : UInt32)
    (value : Str) :
    bucketOf (removeFromBucket b score value) = leave (bucketOf b) score value := by
  funext t
  ext w
  by_cases ht : score = t
  · subst ht
    cases hb : b[score]? with
    | none => simp [mem_bucketOf, removeFromBucket, hb]
    | some vs => simp [mem_bucketOf, removeFromBucket, hb, and_comm]
  · simp [mem_bucketOf, removeFromBucket, ExtTreeMap.getElem?_modify, ht, Ne.symm ht]

private theorem members_insert {z z' : ZSet} {value : Str} {score : UInt32}
    (h : z'.valueToScore = z.valueToScore.insert value score) :
    members z' = put (members z) value score := by
  have hput := lookup_insert_eq_put z.valueToScore value score
  rw [← h] at hput
  exact hput

private theorem members_erase {z z' : ZSet} {value : Str}
    (h : z'.valueToScore = z.valueToScore.erase value) : members z' = drop (members z) value := by
  have hdrop := lookup_erase_eq_drop z.valueToScore value
  rw [← h] at hdrop
  exact hdrop

@[simp] theorem members_new : members ZSet.new = fun _ => none := by
  funext v
  simp [members, ZSet.new]

theorem consistent_new : Consistent ZSet.new := by
  funext t
  ext w
  simp [mem_bucketOf, ZSet.new, members]

theorem members_zaddMemory (z : ZSet) (sv : ScoreValue) :
    members (z.zaddMemory sv) = put (members z) sv.value sv.score := by
  cases hv : members z sv.value with
  | none => exact members_insert (by rw [zaddMemory_new hv])
  | some score =>
    by_cases hs : score = sv.score
    · subst hs
      rw [zaddMemory_same hv, put_eq_self hv]
    · exact members_insert (by rw [zaddMemory_moved hv hs])

/-- One case for each branch of `zadd_memory`: new value, same score, moved score. -/
theorem consistent_zaddMemory {z : ZSet} (h : Consistent z) (sv : ScoreValue) :
    Consistent (z.zaddMemory sv) := by
  rw [Consistent, members_zaddMemory]
  cases hv : members z sv.value with
  | none => rw [zaddMemory_new hv, bucketOf_addToBucket, h.bucketOf_eq, level_put_new sv.score hv]
  | some score =>
    by_cases hs : score = sv.score
    · subst hs
      rw [zaddMemory_same hv, put_eq_self hv, h.bucketOf_eq]
    · have hold : ∀ t, members z sv.value = some t → t = score := by
        intro t ht
        exact Option.some.inj (ht.symm.trans hv)
      rw [zaddMemory_moved hv hs, bucketOf_addToBucket, bucketOf_removeFromBucket, h.bucketOf_eq,
        level_put_moved sv.score hold]

theorem members_zrmv (z : ZSet) (value : Str) (score : UInt32) :
    members (z.zrmv value score) = drop (members z) value := members_erase rfl

private theorem consistent_zrmv {z : ZSet} (h : Consistent z) {value : Str} {score : UInt32}
    (hv : z.valueToScore[value]? = some score) : Consistent (z.zrmv value score) := by
  have hold : ∀ t, members z value = some t → t = score := by
    intro t ht
    exact Option.some.inj (ht.symm.trans hv)
  rw [Consistent, members_zrmv, level_drop hold, ← h.bucketOf_eq]
  exact bucketOf_removeFromBucket z.scoreToValues score value

theorem mem_bucketScores {order : IterationOrder Str} {bucket : UInt32 × Finset Str}
    {sv : ScoreValue} :
    sv ∈ bucketScores order bucket ↔ sv.score = bucket.1 ∧ sv.value ∈ bucket.2 := by
  simp only [bucketScores, List.mem_map, IterationOrder.mem_list]
  constructor
  · rintro ⟨v, hv, rfl⟩
    exact ⟨rfl, hv⟩
  · rintro ⟨hs, hv⟩
    exact ⟨sv.value, hv, by rw [← hs]⟩

/-- An answer lists exactly the members in range, each value once, by ascending score. -/
structure RangeAnswer (m : Str → Option UInt32) (r : ScoreRange) (l : List ScoreValue) : Prop where
  mem_iff : ∀ sv, sv ∈ l ↔ m sv.value = some sv.score ∧ r.minScore ≤ sv.score ∧
    sv.score ≤ r.maxScore
  values_nodup : (l.map ScoreValue.value).Nodup
  sorted : l.Pairwise (fun a b => a.score ≤ b.score)

/-- A member in range is answered once. -/
theorem RangeAnswer.filter_value {m : Str → Option UInt32} {r : ScoreRange} {l : List ScoreValue}
    (h : RangeAnswer m r l) {value : Str} {score : UInt32} (hv : m value = some score)
    (hlo : r.minScore ≤ score) (hhi : score ≤ r.maxScore) :
    l.filter (fun sv => sv.value = value) = [⟨score, value⟩] := by
  have hall : ∀ sv ∈ l.filter (fun sv => sv.value = value), sv = ⟨score, value⟩ := by
    intro sv hsv
    obtain ⟨hin, hvalue⟩ := List.mem_filter.mp hsv
    obtain rfl : sv.value = value := of_decide_eq_true hvalue
    have hscore := ((h.mem_iff sv).mp hin).1
    rw [hv] at hscore
    rw [Option.some.inj hscore]
  have hmem : ⟨score, value⟩ ∈ l.filter (fun sv => sv.value = value) :=
    List.mem_filter.mpr ⟨(h.mem_iff ⟨score, value⟩).mpr ⟨hv, hlo, hhi⟩, by simp⟩
  have hnodup : (l.filter (fun sv => sv.value = value)).Nodup := h.values_nodup.of_map.filter _
  have hreplicate := List.eq_replicate_of_mem hall
  rw [hreplicate] at hnodup hmem ⊢
  have hle := List.nodup_replicate.mp hnodup
  have hpos : (l.filter (fun sv => sv.value = value)).length ≠ 0 := (List.mem_replicate.mp hmem).1
  obtain hone : (l.filter (fun sv => sv.value = value)).length = 1 := by omega
  rw [hone]
  rfl

private theorem mem_rangeScores {z : ZSet} {m : Str → Option UInt32}
    (h : bucketOf z.scoreToValues = level m) (order : IterationOrder Str) (r : ScoreRange)
    (sv : ScoreValue) :
    sv ∈ (rangeEntries z.scoreToValues r.minScore r.maxScore).flatMap (bucketScores order) ↔
      m sv.value = some sv.score ∧ r.minScore ≤ sv.score ∧ sv.score ≤ r.maxScore := by
  rw [List.mem_flatMap]
  calc (∃ e ∈ rangeEntries z.scoreToValues r.minScore r.maxScore, sv ∈ bucketScores order e)
      ↔ ∃ vs, (sv.score, vs) ∈ rangeEntries z.scoreToValues r.minScore r.maxScore ∧
      sv.value ∈ vs := by
        constructor
        · rintro ⟨⟨s, vs⟩, he, hsv⟩
          obtain ⟨rfl, hv⟩ := mem_bucketScores.mp hsv
          exact ⟨vs, he, hv⟩
        · rintro ⟨vs, he, hv⟩
          exact ⟨_, he, mem_bucketScores.mpr ⟨rfl, hv⟩⟩
    _ ↔ _ := by
        rw [mem_range_bucket, h]
        simp only [mem_level, isLE_compare]

private theorem rangeScores_sorted (z : ZSet) (order : IterationOrder Str) (lo hi : UInt32) :
    ((rangeEntries z.scoreToValues lo hi).flatMap (bucketScores order)).Pairwise
      (fun a b => a.score ≤ b.score) := by
  rw [List.pairwise_flatMap]
  constructor
  · intro e _
    rw [bucketScores, List.pairwise_map]
    exact List.pairwise_of_forall (fun _ _ => UInt32.le_refl _)
  · refine (ascending_rangeEntries z.scoreToValues lo hi).imp ?_
    intro e f hef a ha b hb
    rw [(mem_bucketScores.mp ha).1, (mem_bucketScores.mp hb).1]
    exact UInt32.le_of_lt (compare_eq_lt.mp hef)

private theorem rangeScores_nodup {z : ZSet} {m : Str → Option UInt32}
    (h : bucketOf z.scoreToValues = level m) (order : IterationOrder Str) (lo hi : UInt32) :
    (((rangeEntries z.scoreToValues lo hi).flatMap (bucketScores order)).map
      ScoreValue.value).Nodup := by
  rw [List.map_flatMap, List.nodup_flatMap]
  constructor
  · intro e _
    simpa [bucketScores, List.map_map, Function.comp_def] using order.nodup e.2
  · refine List.Pairwise.imp_of_mem ?_ (ascending_rangeEntries z.scoreToValues lo hi)
    intro e f he hf hef v hve hvf
    -- a value in two buckets would have two scores
    have hbucket : ∀ g ∈ rangeEntries z.scoreToValues lo hi,
        v ∈ (bucketScores order g).map ScoreValue.value → m v = some g.1 := by
      intro g hg hv
      obtain ⟨sv, hsv, rfl⟩ := List.mem_map.mp hv
      obtain ⟨hs, hin⟩ := mem_bucketScores.mp hsv
      have hbucket : sv.value ∈ bucketOf z.scoreToValues g.1 :=
        ⟨g.2, (mem_rangeEntries.mp hg).1, hin⟩
      rwa [h, mem_level] at hbucket
    have heq : e.1 = f.1 := Option.some.inj ((hbucket e he hve).symm.trans (hbucket f hf hvf))
    rw [heq] at hef
    simp at hef

/-- A range answers for the map whose levels the buckets are. -/
theorem zrange_of_level {z : ZSet} {m : Str → Option UInt32}
    (h : bucketOf z.scoreToValues = level m) (order : IterationOrder Str) {r : ScoreRange}
    (hr : r.minScore ≤ r.maxScore) :
    ∃ l, z.zrange order r = .ok l ∧ RangeAnswer m r l := by
  refine ⟨_, if_neg (UInt32.not_lt.mpr hr), ?_, ?_, ?_⟩
  · exact mem_rangeScores h order r
  · exact rangeScores_nodup h order r.minScore r.maxScore
  · exact rangeScores_sorted z order r.minScore r.maxScore

theorem zrange_spec {z : ZSet} (h : Consistent z) (order : IterationOrder Str) {r : ScoreRange}
    (hr : r.minScore ≤ r.maxScore) : ∃ l, z.zrange order r = .ok l ∧ RangeAnswer (members z) r l :=
  zrange_of_level h order hr

def AllConsistent (s : Storage) : Prop :=
  ∀ (key : Str) (z : ZSet), s.zsets[key]? = some z → Consistent z

def view (s : Storage) (key : Str) : Option (Str → Option UInt32) := s.zsets[key]?.map members

theorem AllConsistent.insert {s : Storage} (h : AllConsistent s) {key : Str} {z : ZSet}
    (hz : Consistent z) {s' : Storage} (hs : s'.zsets = s.zsets.insert key z) :
    AllConsistent s' := by
  intro k y hy
  rw [hs, lookup_insert] at hy
  split at hy
  · exact Option.some.inj hy ▸ hz
  · exact h k y hy

theorem AllConsistent.erase {s : Storage} (h : AllConsistent s) {key : Str}
    {s' : Storage} (hs : s'.zsets = s.zsets.erase key) : AllConsistent s' := by
  intro k y hy
  rw [hs, lookup_erase] at hy
  split at hy
  · simp at hy
  · exact h k y hy

theorem AllConsistent.getOrInsertZset {s : Storage} (h : AllConsistent s) (key : Str) :
    Consistent (s.getOrInsertZset key) := by
  unfold Storage.getOrInsertZset
  cases hz : s.zsets[key]? with
  | none => exact consistent_new
  | some z => exact h key z hz

theorem allConsistent_zaddMemory {s : Storage} (h : AllConsistent s) (key : Str) (sv : ScoreValue) :
    AllConsistent (s.zaddMemory key sv) :=
  h.insert (consistent_zaddMemory (h.getOrInsertZset key) sv) rfl

theorem allConsistent_apply {s : Storage} (h : AllConsistent s) (op : LocalOp) :
    AllConsistent (s.apply op) := by
  cases op with
  | insertKv key value => exact h.erase rfl
  | batchInsertKv kvs => exact h
  | del key => exact h.erase rfl
  | zadd key sv => exact h.insert (consistent_zaddMemory (h.getOrInsertZset key) sv) rfl
  | zrmv key value =>
    rcases zrmv_cases s key value with ⟨heq, -⟩ | ⟨z, score, hz, hv, heq⟩
    · simpa [Storage.apply, heq] using h
    · exact h.insert (consistent_zrmv (h key z hz) hv) (by rw [Storage.apply, heq])

private theorem view_insert {s s' : Storage} {key : Str} {z : ZSet}
    (hs : s'.zsets = s.zsets.insert key z) :
    view s' = Function.update (view s) key (some (members z)) := by
  funext k
  by_cases hk : k = key
  · simp [view, hs, hk]
  · simp [view, hs, lookup_insert, hk, Ne.symm hk]

private theorem view_erase {s s' : Storage} {key : Str} (hs : s'.zsets = s.zsets.erase key) :
    view s' = Function.update (view s) key none := by
  funext k
  by_cases hk : k = key
  · simp [view, hs, hk]
  · simp [view, hs, lookup_erase, hk, Ne.symm hk]

private theorem members_getOrInsertZset (s : Storage) (key : Str) :
    members (s.getOrInsertZset key) = (view s key).getD (fun _ => none) := by
  unfold Storage.getOrInsertZset view
  cases s.zsets[key]? with
  | none => simp
  | some z => rfl

/-- The operations on the sorted sets of a store seen as partial maps. -/
def viewApply (w : Str → Option (Str → Option UInt32)) :
    LocalOp → Str → Option (Str → Option UInt32)
  | .insertKv key _ => Function.update w key none
  | .batchInsertKv _ => w
  | .del key => Function.update w key none
  | .zadd key sv =>
    Function.update w key (some (put ((w key).getD fun _ => none) sv.value sv.score))
  | .zrmv key value => Function.update w key ((w key).map (fun m => drop m value))

theorem view_apply (s : Storage) (op : LocalOp) : view (s.apply op) = viewApply (view s) op := by
  cases op with
  | insertKv key value => exact view_erase rfl
  | batchInsertKv kvs => rfl
  | del key => exact view_erase rfl
  | zadd key sv =>
    rw [viewApply, ← members_getOrInsertZset, ← members_zaddMemory]
    exact view_insert rfl
  | zrmv key value =>
    rcases zrmv_cases s key value with ⟨heq, habs⟩ | ⟨z, score, hz, hv, heq⟩
    · have hsame : (view s key).map (fun m => drop m value) = view s key := by
        unfold view
        cases hz : s.zsets[key]? with
        | none => rfl
        | some z => exact congrArg some (drop_eq_self (habs z hz))
      rw [Storage.apply, heq, viewApply, hsame, Function.update_eq_self]
    · have hview : view s key = some (members z) := by simp [view, hz]
      rw [viewApply, hview, Option.map_some, ← members_zrmv z value score]
      exact view_insert (by rw [Storage.apply, heq])

/-- Read a history from its newest operation: `zadd` on `key`, and no `del` or `add` of it since. -/
def addedSince (key : Str) : List LocalOp → Bool
  | [] => false
  | .insertKv k _ :: h => if k = key then false else addedSince key h
  | .batchInsertKv _ :: h => addedSince key h
  | .del k :: h => if k = key then false else addedSince key h
  | .zadd k _ :: h => if k = key then true else addedSince key h
  | .zrmv _ _ :: h => addedSince key h

/-- The score of the newest `zadd` of `value`, unless it was removed since, newest operation
first. -/
def latestScore (key value : Str) : List LocalOp → Option UInt32
  | [] => none
  | .insertKv k _ :: h => if k = key then none else latestScore key value h
  | .batchInsertKv _ :: h => latestScore key value h
  | .del k :: h => if k = key then none else latestScore key value h
  | .zadd k sv :: h => if k = key ∧ sv.value = value then some sv.score else latestScore key value h
  | .zrmv k v :: h => if k = key ∧ v = value then none else latestScore key value h

private theorem latestScore_of_not_added {key value : Str} {h : List LocalOp}
    (ha : addedSince key h = false) : latestScore key value h = none := by
  induction h with
  | nil => rfl
  | cons op h ih =>
    cases op with
    | zadd k sv =>
      by_cases hk : k = key
      · simp [addedSince, hk] at ha
      · simp only [addedSince, hk, if_false] at ha
        simp [latestScore, hk, ih ha]
    | _ => grind [addedSince, latestScore]

/-- The partial map that a history leaves under a key, newest operation first. -/
def historyView (h : List LocalOp) (key : Str) : Option (Str → Option UInt32) :=
  if addedSince key h then some (fun value => latestScore key value h) else none

private theorem historyView_getD (h : List LocalOp) (key : Str) :
    (historyView h key).getD (fun _ => none) = fun value => latestScore key value h := by
  unfold historyView
  cases ha : addedSince key h with
  | false =>
    funext value
    simp [latestScore_of_not_added ha]
  | true => simp

private theorem historyView_cons (op : LocalOp) (h : List LocalOp) :
    historyView (op :: h) = viewApply (historyView h) op := by
  funext key
  cases op with
  | insertKv k v =>
    by_cases hk : key = k
    · simp [historyView, viewApply, addedSince, hk]
    · simp [historyView, viewApply, addedSince, latestScore, hk, Ne.symm hk]
  | batchInsertKv kvs => rfl
  | del k =>
    by_cases hk : key = k
    · simp [historyView, viewApply, addedSince, hk]
    · simp [historyView, viewApply, addedSince, latestScore, hk, Ne.symm hk]
  | zadd k sv =>
    by_cases hk : key = k
    · subst hk
      simp only [viewApply, Function.update_self, historyView_getD]
      simp only [historyView, addedSince, if_true, Option.some.injEq]
      funext value
      by_cases hv : value = sv.value
      · simp [latestScore, hv]
      · simp [latestScore, put_of_ne hv, Ne.symm hv]
    · simp [historyView, viewApply, addedSince, latestScore, hk, Ne.symm hk]
  | zrmv k v =>
    by_cases hk : key = k
    · subst hk
      have hdrop : (fun value => latestScore key value (.zrmv key v :: h)) =
          drop (fun value => latestScore key value h) v := by
        funext value
        by_cases hv : value = v
        · simp [latestScore, hv]
        · simp [latestScore, drop_of_ne hv, Ne.symm hv]
      rw [viewApply, Function.update_self, historyView, historyView, addedSince, hdrop]
      split <;> rfl
    · simp [historyView, viewApply, addedSince, latestScore, hk, Ne.symm hk]

private theorem view_run (ops : List LocalOp) :
    view (ops.foldl Storage.apply Storage.new) = historyView ops.reverse := by
  induction ops using List.reverseRecOn with
  | nil =>
    funext key
    simp [view, Storage.new, historyView, addedSince]
  | append_singleton ops op ih =>
    rw [List.foldl_append, List.foldl_cons, List.foldl_nil, view_apply, ih,
      List.reverse_append, List.reverse_singleton, List.singleton_append, historyView_cons]

theorem allConsistent_new : AllConsistent Storage.new := by
  intro key z hz
  simp [Storage.new] at hz

private theorem allConsistent_run (ops : List LocalOp) :
    AllConsistent (ops.foldl Storage.apply Storage.new) :=
  SequentialMachines.foldl_invariant AllConsistent (fun _ op h => allConsistent_apply h op)
    allConsistent_new ops

/-- After every run the two indexes of each sorted set agree, and a range query answers
from the history of its key: `None` without a live `zadd`, else the members in range. -/
theorem sortedSet_run_spec (ops : List LocalOp) :
    let s := ops.foldl Storage.apply Storage.new
    (∀ (key : Str) (z : ZSet), s.zsets[key]? = some z → ∀ value score,
      z.valueToScore[value]? = some score ↔ value ∈ bucketOf z.scoreToValues score) ∧
    ∀ (order : IterationOrder Str) (key : Str) (r : ScoreRange), r.minScore ≤ r.maxScore →
      ∃ answer, s.zrange order key r = .ok answer ∧
        (answer = none ↔ addedSince key ops.reverse = false) ∧
        ∀ l, answer = some l →
        RangeAnswer (fun value => latestScore key value ops.reverse) r l := by
  intro s
  have hcons : AllConsistent s := allConsistent_run ops
  refine ⟨fun key z hz value score => (hcons key z hz).mem_bucket.symm, ?_⟩
  intro order key r hr
  have hview : view s key = historyView ops.reverse key := congrFun (view_run ops) key
  cases hz : s.zsets[key]? with
  | none =>
    have hadded : addedSince key ops.reverse = false := by
      simpa [view, hz, historyView] using hview
    exact ⟨none, by simp [Storage.zrange, hz], by simp [hadded], by simp⟩
  | some z =>
    have hmem : addedSince key ops.reverse = true ∧
        members z = fun value => latestScore key value ops.reverse := by
      simp only [view, hz, Option.map_some, historyView] at hview
      split at hview
      · next hadded => exact ⟨hadded, Option.some.inj hview⟩
      · simp at hview
    obtain ⟨l, hl, hanswer⟩ := zrange_spec (hcons key z hz) order hr
    refine ⟨some l, by simp [Storage.zrange, hz, hl, Except.map], by simp [hmem.1], ?_⟩
    intro l' hl'
    rw [← Option.some.inj hl', ← hmem.2]
    exact hanswer

/-- Two members are added, one moves to a new score and the other is removed. -/
theorem sortedSet_run_spec_moved :
    let ops : List LocalOp := [.zadd [122] ⟨1, [97]⟩, .zadd [122] ⟨5, [98]⟩,
      .zadd [122] ⟨9, [97]⟩, .zrmv [122] [98]]
    ∃ answer, (ops.foldl Storage.apply Storage.new).zrange (.choice Str) [122] ⟨0, 10⟩ =
      .ok answer ∧
      (answer = none ↔ addedSince [122] ops.reverse = false) ∧
      ∀ l, answer = some l →
      RangeAnswer (fun value => latestScore [122] value ops.reverse) ⟨0, 10⟩ l :=
  (sortedSet_run_spec [.zadd [122] ⟨1, [97]⟩, .zadd [122] ⟨5, [98]⟩,
    .zadd [122] ⟨9, [97]⟩, .zrmv [122] [98]]).2 (.choice Str) [122] ⟨0, 10⟩ (by decide)

end HCache.RustSortedSets
