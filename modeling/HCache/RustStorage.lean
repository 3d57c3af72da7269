import HCache.OrderedMaps
import HCache.DelimitedLists

/-!
# The local operations of the Rust store

The data fields of `Storage` with the memory feature and the operations that one node
executes on them: plain keys in `kv` and `db`, sorted sets in `zsets` and `zset_db`.
A Rust `String` is represented by its bytes. Hash maps and RocksDB are ordered maps;
the iteration order of a `HashSet` is a parameter. RocksDB writes succeed.
-/
namespace HCache.RustStorage
open Std OrderedMaps DelimitedLists

abbrev Str := List UInt8

inductive Panic where
  | unwrapNone
  | sliceLengthMismatch
  | rangeStartAfterEnd
  | indexOutOfBounds
  deriving DecidableEq, Repr

structure InsrtRequest where
  key : Str
  value : Str
  deriving DecidableEq, Repr

structure ScoreValue where
  score : UInt32
  value : Str
  deriving DecidableEq, Repr

structure ScoreRange where
  minScore : UInt32
  maxScore : UInt32
  deriving DecidableEq, Repr

structure ZSet where
  valueToScore : ExtTreeMap Str UInt32
  scoreToValues : ExtTreeMap UInt32 (Finset Str)
  deriving DecidableEq

/-- The data fields of `Storage`. -/
structure Storage where
  kv : ExtTreeMap Str Str
  zsets : ExtTreeMap Str ZSet
  db : ExtTreeMap Str Str
  zsetDb : ExtTreeMap (List UInt8) (List UInt8)
  deriving DecidableEq

def ZSet.new : ZSet := ⟨∅, ∅⟩

def Storage.new : Storage := ⟨∅, ∅, ∅, ∅⟩

def getZsetKey (zkey value : Str) : List UInt8 := zkey ++ 0 :: value

/-- `splitn(2)` at the first NUL; without one the second `unwrap` panics. -/
def decodeZsetKey (key : List UInt8) : Except Panic (Str × Str) :=
  match splitn 2 (fun c => c == 0) key with
  | [zkey, value] => .ok (zkey, value)
  | _ => .error .unwrapNone

def toLeBytes (score : UInt32) : List UInt8 :=
  [UInt8.ofNat score.toNat, UInt8.ofNat (score.toNat / 2^8),
    UInt8.ofNat (score.toNat / 2^16), UInt8.ofNat (score.toNat / 2^24)]

/-- `copy_from_slice` into a buffer of four bytes, then `u32::from_le_bytes`. -/
def fromLeBytes (value : List UInt8) : Except Panic UInt32 :=
  match value with
  | [a, b, c, d] =>
    .ok (UInt32.ofNat (a.toNat + b.toNat * 2^8 + c.toNat * 2^16 + d.toNat * 2^24))
  | _ => .error .sliceLengthMismatch

theorem fromLeBytes_toLeBytes (score : UInt32) : fromLeBytes (toLeBytes score) = .ok score := by
  have h := score.toNat_lt
  simp only [toLeBytes, fromLeBytes, Except.ok.injEq]
  apply UInt32.toNat_inj.mp
  simp only [UInt8.toNat_ofNat', UInt32.toNat_ofNat']
  omega

theorem toLeBytes_inj {a b : UInt32} (h : toLeBytes a = toLeBytes b) : a = b := by
  have he := congrArg fromLeBytes h
  simpa [fromLeBytes_toLeBytes] using he

theorem decodeZsetKey_getZsetKey {zkey : Str} (h : 0 ∉ zkey) (value : Str) :
    decodeZsetKey (getZsetKey zkey value) = .ok (zkey, value) := by
  have hz : ∀ c ∈ zkey, (c == 0) = false := by
    intro c hc
    have hne : c ≠ 0 := fun he => h (he ▸ hc)
    simpa using hne
  simp only [decodeZsetKey, getZsetKey]
  rw [splitn_append_cons 0 hz (by rfl)]
  rfl

/-- Records of NUL-free keys are distinct for distinct members. -/
theorem getZsetKey_inj {k k' v v' : Str} (h : 0 ∉ k) (h' : 0 ∉ k')
    (he : getZsetKey k v = getZsetKey k' v') : k = k' ∧ v = v' := by
  have hd := congrArg decodeZsetKey he
  rw [decodeZsetKey_getZsetKey h, decodeZsetKey_getZsetKey h'] at hd
  simpa using hd

theorem getZsetKey_inj_value {k v v' : Str} (he : getZsetKey k v = getZsetKey k v') : v = v' := by
  simpa [getZsetKey] using he

def Storage.getKv (s : Storage) (key : Str) : Option Str := s.kv[key]?

def Storage.insertKvInMemory (s : Storage) (key value : Str) : Storage :=
  { s with kv := s.kv.insert key value }

/-- `self.zsets.remove(key)` -/
def Storage.zsetsRemove (s : Storage) (key : Str) : Storage :=
  { s with zsets := s.zsets.erase key }

def Storage.insertKv (s : Storage) (key value : Str) : Storage :=
  let s := s.zsetsRemove key
  let s := { s with db := s.db.insert key value }
  s.insertKvInMemory key value

def InsrtRequest.entry (kv : InsrtRequest) : Str × Str := (kv.key, kv.value)

/-- Memory is written pair by pair; the `WriteBatch` reaches the database at the end. -/
def Storage.batchInsertKv (s : Storage) (kvs : List InsrtRequest) : Storage :=
  let writeBatch := kvs.map InsrtRequest.entry
  { s with kv := insertAll s.kv writeBatch, db := insertAll s.db writeBatch }

def Storage.removeKey (s : Storage) (key : Str) : Storage :=
  { s with db := s.db.erase key, kv := s.kv.erase key }

/-- The body shared by `handle_del` and the `del` RPC. -/
def Storage.del (s : Storage) (key : Str) : Storage := (s.removeKey key).zsetsRemove key

/-- `score_to_values.entry(score).and_modify(|values| values.remove(value))` -/
def removeFromBucket (b : ExtTreeMap UInt32 (Finset Str)) (score : UInt32) (value : Str) :
    ExtTreeMap UInt32 (Finset Str) :=
  b.modify score (fun values : Finset Str => values.erase value)

/-- `score_to_values.entry(score).or_insert_with(Default::default).insert(value)` -/
def addToBucket (b : ExtTreeMap UInt32 (Finset Str)) (score : UInt32) (value : Str) :
    ExtTreeMap UInt32 (Finset Str) :=
  b.alter score (fun values : Option (Finset Str) => some (insert value (values.getD ∅)))

/-- The three branches of `zadd_memory` on one sorted set. -/
def ZSet.zaddMemory (z : ZSet) (sv : ScoreValue) : ZSet :=
  match z.valueToScore[sv.value]? with
  | some score =>
    if score ≠ sv.score then
      { scoreToValues :=
        addToBucket (removeFromBucket z.scoreToValues score sv.value) sv.score sv.value
        valueToScore := z.valueToScore.insert sv.value sv.score }
    else z
  | none =>
    { valueToScore := z.valueToScore.insert sv.value sv.score
      scoreToValues := addToBucket z.scoreToValues sv.score sv.value }

/-- `zsets.get_or_insert(key, ZSet { .. })` -/
def Storage.getOrInsertZset (s : Storage) (key : Str) : ZSet := s.zsets[key]?.getD ZSet.new

def Storage.zaddMemory (s : Storage) (key : Str) (sv : ScoreValue) : Storage :=
  { s with zsets := s.zsets.insert key ((s.getOrInsertZset key).zaddMemory sv) }

def Storage.zadd (s : Storage) (key : Str) (sv : ScoreValue) : Storage :=
  let fullKey := getZsetKey key sv.value
  let s := { s with zsetDb := s.zsetDb.insert fullKey (toLeBytes sv.score) }
  s.zaddMemory key sv

/-- The effect of `zrmv` on a sorted set that holds `value` with `score`. -/
def ZSet.zrmv (z : ZSet) (value : Str) (score : UInt32) : ZSet :=
  { valueToScore := z.valueToScore.erase value
    scoreToValues := removeFromBucket z.scoreToValues score value }

def Storage.zrmv (s : Storage) (key value : Str) : Storage :=
  match s.zsets[key]? with
  | none => s
  | some z => match z.valueToScore[value]? with
    | none => s
    | some score =>
      { s with
        zsetDb := s.zsetDb.erase (getZsetKey key value)
        zsets := s.zsets.insert key (z.zrmv value score) }

/-- The entries of one bucket, in the order in which its `HashSet` is iterated. -/
def bucketScores (order : IterationOrder Str) (bucket : UInt32 × Finset Str) : List ScoreValue :=
  (order.list bucket.2).map (fun value => ⟨bucket.1, value⟩)

/-- `BTreeMap::range` is documented to panic when the range starts after its end; a map that has
never had an entry does not. -/
def ZSet.zrange (order : IterationOrder Str) (z : ZSet) (r : ScoreRange) :
    Except Panic (List ScoreValue) :=
  if r.maxScore < r.minScore then .error .rangeStartAfterEnd
  else .ok ((rangeEntries z.scoreToValues r.minScore r.maxScore).flatMap (bucketScores order))

def Storage.zrange (order : IterationOrder Str) (s : Storage) (key : Str) (r : ScoreRange) :
    Except Panic (Option (List ScoreValue)) :=
  match s.zsets[key]? with
  | none => .ok none
  | some z => (z.zrange order r).map some

def Storage.loadKvRecord (s : Storage) (record : Str × Str) : Storage :=
  s.insertKvInMemory record.1 record.2

def Storage.loadZsetRecord (s : Storage) (record : List UInt8 × List UInt8) :
    Except Panic Storage := do
  let (zkey, zvalue) ← decodeZsetKey record.1
  let score ← fromLeBytes record.2
  pure (s.zaddMemory zkey ⟨score, zvalue⟩)

def Storage.loadFromDisk (s : Storage) : Except Panic Storage :=
  let s := s.db.toList.foldl Storage.loadKvRecord s
  s.zsetDb.toList.foldlM Storage.loadZsetRecord s

/-- `main` after a restart: empty memory over the flushed databases. -/
def Storage.reopen (s : Storage) : Storage := { s with kv := ∅, zsets := ∅ }

def Storage.restart (s : Storage) : Except Panic Storage := s.reopen.loadFromDisk

variable (s : Storage) (key value k : Str) (sv : ScoreValue) (kvs : List InsrtRequest)

@[simp] theorem insertKv_kv : (s.insertKv key value).kv = s.kv.insert key value := rfl
@[simp] theorem insertKv_db : (s.insertKv key value).db = s.db.insert key value := rfl
@[simp] theorem insertKv_zsets : (s.insertKv key value).zsets = s.zsets.erase key := rfl
@[simp] theorem insertKv_zsetDb : (s.insertKv key value).zsetDb = s.zsetDb := rfl

@[simp] theorem batchInsertKv_kv :
    (s.batchInsertKv kvs).kv = insertAll s.kv (kvs.map InsrtRequest.entry) := rfl
@[simp] theorem batchInsertKv_db :
    (s.batchInsertKv kvs).db = insertAll s.db (kvs.map InsrtRequest.entry) := rfl
@[simp] theorem batchInsertKv_zsets : (s.batchInsertKv kvs).zsets = s.zsets := rfl
@[simp] theorem batchInsertKv_zsetDb : (s.batchInsertKv kvs).zsetDb = s.zsetDb := rfl

@[simp] theorem del_kv : (s.del key).kv = s.kv.erase key := rfl
@[simp] theorem del_db : (s.del key).db = s.db.erase key := rfl
@[simp] theorem del_zsets : (s.del key).zsets = s.zsets.erase key := rfl
@[simp] theorem del_zsetDb : (s.del key).zsetDb = s.zsetDb := rfl

@[simp] theorem zaddMemory_kv : (s.zaddMemory key sv).kv = s.kv := rfl
@[simp] theorem zaddMemory_db : (s.zaddMemory key sv).db = s.db := rfl
@[simp] theorem zaddMemory_zsetDb : (s.zaddMemory key sv).zsetDb = s.zsetDb := rfl
@[simp] theorem zaddMemory_zsets : (s.zaddMemory key sv).zsets =
    s.zsets.insert key ((s.getOrInsertZset key).zaddMemory sv) := rfl

@[simp] theorem zadd_kv : (s.zadd key sv).kv = s.kv := rfl
@[simp] theorem zadd_db : (s.zadd key sv).db = s.db := rfl
@[simp] theorem zadd_zsetDb : (s.zadd key sv).zsetDb =
    s.zsetDb.insert (getZsetKey key sv.value) (toLeBytes sv.score) := rfl
@[simp] theorem zadd_zsets : (s.zadd key sv).zsets =
    s.zsets.insert key ((s.getOrInsertZset key).zaddMemory sv) := rfl

@[simp] theorem zrmv_kv : (s.zrmv key value).kv = s.kv := by
  unfold Storage.zrmv
  split
  · rfl
  · split <;> rfl

@[simp] theorem zrmv_db : (s.zrmv key value).db = s.db := by
  unfold Storage.zrmv
  split
  · rfl
  · split <;> rfl

/-- The three branches of `zadd_memory`, one equation each. -/
theorem zaddMemory_new {z : ZSet} {sv : ScoreValue} (h : z.valueToScore[sv.value]? = none) :
    z.zaddMemory sv = ⟨z.valueToScore.insert sv.value sv.score,
      addToBucket z.scoreToValues sv.score sv.value⟩ := by
  simp only [ZSet.zaddMemory, h]

theorem zaddMemory_same {z : ZSet} {sv : ScoreValue}
    (h : z.valueToScore[sv.value]? = some sv.score) :
    z.zaddMemory sv = z := by
  simp only [ZSet.zaddMemory, h, ne_eq, not_true_eq_false, if_false]

theorem zaddMemory_moved {z : ZSet} {sv : ScoreValue} {score : UInt32}
    (h : z.valueToScore[sv.value]? = some score) (hs : score ≠ sv.score) :
    z.zaddMemory sv = ⟨z.valueToScore.insert sv.value sv.score,
      addToBucket (removeFromBucket z.scoreToValues score sv.value) sv.score sv.value⟩ := by
  simp only [ZSet.zaddMemory, h, ne_eq, hs, not_false_eq_true, if_true]

/-- What `zrmv` does: nothing without the value, else it drops its record and its member. -/
theorem zrmv_cases (s : Storage) (key value : Str) :
    (s.zrmv key value = s ∧ ∀ z, s.zsets[key]? = some z → z.valueToScore[value]? = none) ∨
    ∃ z score, s.zsets[key]? = some z ∧ z.valueToScore[value]? = some score ∧
      s.zrmv key value = { s with
        zsetDb := s.zsetDb.erase (getZsetKey key value)
        zsets := s.zsets.insert key (z.zrmv value score) } := by
  cases hz : s.zsets[key]? with
  | none => exact .inl ⟨by simp [Storage.zrmv, hz], by simp⟩
  | some z =>
    cases hv : z.valueToScore[value]? with
    | none => exact .inl ⟨by simp [Storage.zrmv, hz, hv], by simpa using hv⟩
    | some score => exact .inr ⟨z, score, rfl, hv, by simp [Storage.zrmv, hz, hv]⟩

inductive LocalOp where
  | insertKv (key value : Str)
  | batchInsertKv (kvs : List InsrtRequest)
  | del (key : Str)
  | zadd (key : Str) (sv : ScoreValue)
  | zrmv (key value : Str)
  deriving DecidableEq, Repr

def Storage.apply (s : Storage) : LocalOp → Storage
  | .insertKv key value => s.insertKv key value
  | .batchInsertKv kvs => s.batchInsertKv kvs
  | .del key => s.del key
  | .zadd key sv => s.zadd key sv
  | .zrmv key value => s.zrmv key value

end HCache.RustStorage
