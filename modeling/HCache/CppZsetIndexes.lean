import HCache.CppStorage

/-!
# How far the two indexes of a C++ sorted set agree

A sorted set started empty and driven by `zadd` and `zrmv` alone, in both versions of the
code. The buckets always hold the live members. The first index keeps every value that was
ever added, so it describes the same relation exactly when every value that was removed has
been added again.
-/
namespace HCache.CppZsetIndexes
open Std OrderedMaps TwoIndexRelations SequentialMachines CppSingleThreadStorage

inductive ZsetOp where
  | zadd (value : Fbstring) (score : UInt32)
  | zrmv (value : Fbstring)
  deriving DecidableEq, Repr

/-- One call on a `single_thread_zset`. -/
def execSingle (z : Zset) : ZsetOp → Zset
  | .zadd value score => z.zadd value score
  | .zrmv value => z.zrmv value

/-- One call on a `zset`. -/
def execMutex (z : Zset) : ZsetOp → Zset
  | .zadd value score => CppStorage.zadd z value score
  | .zrmv value => CppStorage.zrmv z value

/-- The members and their scores, as the caller sees them. -/
def actOn (m : ExtTreeMap Fbstring UInt32) : ZsetOp → ExtTreeMap Fbstring UInt32
  | .zadd value score => m.insert value score
  | .zrmv value => m.erase value

def singleAfter (ops : List ZsetOp) : Zset := ops.foldl execSingle Zset.new

def mutexAfter (ops : List ZsetOp) : Zset := ops.foldl execMutex Zset.new

def membersAfter (ops : List ZsetOp) : ExtTreeMap Fbstring UInt32 := ops.foldl actOn ∅

private theorem execMutex_eq : execMutex = execSingle := by
  funext z op
  cases op with
  | zadd value score => exact CppStorage.zadd_eq z value score
  | zrmv value => exact CppStorage.zrmv_eq z value

theorem mutexAfter_eq (ops : List ZsetOp) : mutexAfter ops = singleAfter ops := by
  rw [mutexAfter, singleAfter, execMutex_eq]

/-- `value_to_score_` and `score_to_values_` describe one relation. -/
def IndexesAgree (z : Zset) : Prop :=
  ∀ (value : Fbstring) (score : UInt32),
    z.valueToScore[value]? = some score ↔ value ∈ bucketOf z.scoreToValues score

def Added (value : Fbstring) (ops : List ZsetOp) : Prop := ∃ score, ZsetOp.zadd value score ∈ ops

@[simp] theorem added_nil (value : Fbstring) : ¬Added value [] := by
  simp [Added]

theorem added_append {value : Fbstring} {ops ops' : List ZsetOp} :
    Added value (ops ++ ops') ↔ Added value ops ∨ Added value ops' := by
  simp [Added, exists_or]

@[simp] theorem added_zadd {value v : Fbstring} {score : UInt32} :
    Added value [.zadd v score] ↔ value = v := by
  simp [Added]

@[simp] theorem added_zrmv {value v : Fbstring} : ¬Added value [.zrmv v] := by
  simp [Added]

theorem zsetRel_singleAfter (ops : List ZsetOp) : ZsetRel (singleAfter ops) (membersAfter ops) := by
  have hrun : ∀ z m, ZsetRel z m → ZsetRel (ops.foldl execSingle z) (ops.foldl actOn m) := by
    induction ops with
    | nil => exact fun _ _ h => h
    | cons op ops ih =>
      intro z m h
      cases op with
      | zadd value score => exact ih _ _ (h.zadd value score)
      | zrmv value => exact ih _ _ (h.zrmv value)
  exact hrun _ _ zsetRel_new

private theorem zrmv_valueToScore (z : Zset) (value : Fbstring) :
    (z.zrmv value).valueToScore = z.valueToScore := by
  unfold Zset.zrmv
  split <;> rfl

private theorem isSome_valueToScore_iff (ops : List ZsetOp) (value : Fbstring) :
    ((singleAfter ops).valueToScore[value]?).isSome ↔ Added value ops := by
  induction ops using List.reverseRecOn with
  | nil => simp [singleAfter, Zset.new]
  | append_singleton ops op ih =>
    rw [added_append, ← ih]
    simp only [singleAfter, List.foldl_append, List.foldl_cons, List.foldl_nil]
    cases op with
    | zadd v score =>
      rw [execSingle, zadd_valueToScore, added_zadd]
      by_cases h : value = v <;> simp [h]
    | zrmv v =>
      rw [execSingle, zrmv_valueToScore]
      simp

/-- The indexes agree exactly when every entry of the first one belongs to a member. -/
theorem indexesAgree_iff {z : Zset} {m : ExtTreeMap Fbstring UInt32} (h : ZsetRel z m) :
    IndexesAgree z ↔ z.valueToScore = m := by
  have hbucket : ∀ (value : Fbstring) (score : UInt32),
      value ∈ bucketOf z.scoreToValues score ↔ m[value]? = some score := by
    intro value score
    rw [h.buckets]
    rfl
  constructor
  · intro hagree
    apply ExtTreeMap.ext_getElem?
    intro value
    apply Option.ext
    intro score
    exact (hagree value score).trans (hbucket value score)
  · intro hsame value score
    rw [hsame]
    exact (hbucket value score).symm

/-- The last call that names the value removes it, and an earlier one added it. -/
def Dead (value : Fbstring) (ops : List ZsetOp) : Prop :=
  ∃ pre post, ops = pre ++ .zrmv value :: post ∧ Added value pre ∧ ¬Added value post

private theorem dead_zadd {value v : Fbstring} {score : UInt32} {ops : List ZsetOp} :
    Dead value (ops ++ [.zadd v score]) ↔ value ≠ v ∧ Dead value ops := by
  constructor
  · rintro ⟨pre, post, heq, hpre, hpost⟩
    rcases List.eq_nil_or_concat post with rfl | ⟨rest, op, rfl⟩
    · simpa using (List.append_inj' heq rfl).2
    · rw [List.concat_eq_append] at heq hpost
      rw [← List.cons_append, ← List.append_assoc] at heq
      obtain ⟨rfl, hop⟩ := List.append_inj' heq rfl
      obtain rfl := List.singleton_inj.mp hop
      rw [added_append, added_zadd, not_or] at hpost
      exact ⟨hpost.2, pre, rest, rfl, hpre, hpost.1⟩
  · rintro ⟨hne, pre, post, rfl, hpre, hpost⟩
    refine ⟨pre, post ++ [.zadd v score], by simp, hpre, ?_⟩
    rw [added_append, added_zadd]
    exact not_or.mpr ⟨hpost, hne⟩

private theorem dead_zrmv {value v : Fbstring} {ops : List ZsetOp} :
    Dead value (ops ++ [.zrmv v]) ↔ (value = v ∧ Added value ops) ∨ Dead value ops := by
  constructor
  · rintro ⟨pre, post, heq, hpre, hpost⟩
    rcases List.eq_nil_or_concat post with rfl | ⟨rest, op, rfl⟩
    · obtain ⟨rfl, hop⟩ := List.append_inj' heq rfl
      exact .inl ⟨by simpa using hop.symm, hpre⟩
    · rw [List.concat_eq_append] at heq hpost
      rw [← List.cons_append, ← List.append_assoc] at heq
      obtain ⟨rfl, -⟩ := List.append_inj' heq rfl
      rw [added_append, not_or] at hpost
      exact .inr ⟨pre, rest, rfl, hpre, hpost.1⟩
  · rintro (⟨rfl, hadded⟩ | ⟨pre, post, rfl, hpre, hpost⟩)
    · exact ⟨ops, [], rfl, hadded, added_nil value⟩
    · refine ⟨pre, post ++ [.zrmv v], by simp, hpre, ?_⟩
      rw [added_append]
      exact not_or.mpr ⟨hpost, added_zrmv⟩

private theorem dead_iff (ops : List ZsetOp) (value : Fbstring) :
    Dead value ops ↔ Added value ops ∧ (membersAfter ops)[value]? = none := by
  induction ops using List.reverseRecOn with
  | nil => simp [Dead]
  | append_singleton ops op ih =>
    have hlast : membersAfter (ops ++ [op]) = actOn (membersAfter ops) op := by
      simp [membersAfter]
    rw [hlast, added_append]
    cases op with
    | zadd v score =>
      rw [dead_zadd, ih, added_zadd, actOn, lookup_insert]
      by_cases h : value = v
      · simp [h]
      · simp [h, Ne.symm h]
    | zrmv v =>
      rw [dead_zrmv, ih, actOn, lookup_erase]
      by_cases h : value = v
      · subst h
        simp
        tauto
      · simp [h, Ne.symm h]

/-- Every removal of a value that was added is followed by another addition of it. -/
def EveryRemovalUndone (ops : List ZsetOp) : Prop :=
  ∀ pre value post, ops = pre ++ .zrmv value :: post → Added value pre → Added value post

private theorem everyRemovalUndone_iff (ops : List ZsetOp) :
    EveryRemovalUndone ops ↔ (singleAfter ops).valueToScore = membersAfter ops := by
  have hrel := zsetRel_singleAfter ops
  constructor
  · intro hundone
    apply ExtTreeMap.ext_getElem?
    intro value
    cases hm : (membersAfter ops)[value]? with
    | some score => exact hrel.indexed value score hm
    | none =>
      rw [← Option.not_isSome_iff_eq_none, isSome_valueToScore_iff]
      intro hadded
      obtain ⟨pre, post, heq, hpre, hpost⟩ := (dead_iff ops value).mpr ⟨hadded, hm⟩
      exact hpost (hundone pre value post heq hpre)
  · intro hsame pre value post heq hpre
    by_contra hpost
    obtain ⟨hadded, hnone⟩ := (dead_iff ops value).mp ⟨pre, post, heq, hpre, hpost⟩
    rw [← isSome_valueToScore_iff, hsame, hnone] at hadded
    simp at hadded

/-- Each version of the sorted set keeps its two indexes in step, and its first index as small
as the live members, exactly in the runs that add every removed member again. -/
theorem indexes_agree_iff_removals_undone (ops : List ZsetOp) :
    (IndexesAgree (singleAfter ops) ↔ EveryRemovalUndone ops) ∧
    ((singleAfter ops).valueToScore.size = (membersAfter ops).size ↔ EveryRemovalUndone ops) ∧
    (IndexesAgree (mutexAfter ops) ↔ EveryRemovalUndone ops) ∧
    ((mutexAfter ops).valueToScore.size = (membersAfter ops).size ↔ EveryRemovalUndone ops) := by
  have hrel := zsetRel_singleAfter ops
  have hagree := indexesAgree_iff hrel
  have hsize := size_eq_iff_of_extends hrel.indexed
  rw [mutexAfter_eq, everyRemovalUndone_iff]
  exact ⟨hagree, hsize, hagree, hsize⟩

/-- The only member is removed; its entry stays in the first index. -/
theorem removed_member_stays_indexed :
    ¬IndexesAgree (singleAfter [.zadd [97] 1, .zrmv [97]]) ∧
    ¬IndexesAgree (mutexAfter [.zadd [97] 1, .zrmv [97]]) ∧
    (singleAfter [.zadd [97] 1, .zrmv [97]]).valueToScore.size = 1 ∧
    (mutexAfter [.zadd [97] 1, .zrmv [97]]).valueToScore.size = 1 ∧
    (membersAfter [.zadd [97] 1, .zrmv [97]]).size = 0 := by
  have hsize : (singleAfter [.zadd [97] 1, .zrmv [97]]).valueToScore.size = 1 := by decide
  have hagree : ¬IndexesAgree (singleAfter [.zadd [97] 1, .zrmv [97]]) := by
    rw [indexesAgree_iff (zsetRel_singleAfter _)]
    decide
  rw [mutexAfter_eq]
  exact ⟨hagree, hagree, hsize, hsize, by decide⟩

end HCache.CppZsetIndexes
