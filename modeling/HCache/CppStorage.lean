import HCache.CppSingleThreadStorage

/-!
# The C++ storage behind a mutex

`zset` and `storage` of `storage.cc`, one call at a time. The sorted set has the same two
indexes as the single-threaded one and fills them along other branches; `list_keys` gets its
keys as a hash set. Run one after another the operations answer as those of the
single-threaded storage do.
-/
namespace HCache.CppStorage
open Std OrderedMaps SequentialMachines CppSingleThreadStorage

/-- The first section of `zadd`, for a value that has an entry. -/
def leaveOld (b : ExtTreeMap UInt32 (Finset Fbstring)) (oldScore : Option UInt32)
    (value : Fbstring) :
    ExtTreeMap UInt32 (Finset Fbstring) :=
  match oldScore with
  | some score => eraseFromBucket b score value
  | none => b

def zadd (z : Zset) (value : Fbstring) (score : UInt32) : Zset :=
  { scoreToValues :=
    emplaceInBucket (leaveOld z.scoreToValues z.valueToScore[value]? value) score value
    valueToScore := (z.valueToScore.erase value).insertIfNew value score }

def zrmv (z : Zset) (value : Fbstring) : Zset :=
  match z.valueToScore[value]? with
  | none => z
  | some score => { z with scoreToValues := eraseFromBucket z.scoreToValues score value }

def zrange (z : Zset) (minScore maxScore : UInt32) : List ScoreValues :=
  (scanEntries z.scoreToValues minScore maxScore).map (fun e => ⟨e.1, e.2⟩)

structure Storage where
  zsets : ExtTreeMap Fbstring Zset
  kv : ExtTreeMap Fbstring Fbstring

namespace Storage

def new : Storage := ⟨∅, ∅⟩

def getValueByKey (s : Storage) (key : Fbstring) : Option Fbstring := s.kv[key]?

def addKeyValue (s : Storage) (key value : Fbstring) : Storage :=
  let s := { s with kv := s.kv.erase key }
  let s := { s with zsets := s.zsets.erase key }
  { s with kv := s.kv.insertIfNew key value }

def delKey (s : Storage) (key : Fbstring) : Storage :=
  { s with kv := s.kv.erase key, zsets := s.zsets.erase key }

/-- `keys` in the order in which the hash set is iterated. -/
def listKeys (s : Storage) (keys : List Fbstring) : List KeyValue :=
  keys.filterMap (fun key => s.kv[key]?.map (fun value => ⟨key, value⟩))

def zsetAdd (s : Storage) (key value : Fbstring) (score : UInt32) : Storage × Bool :=
  match s.kv[key]? with
  | some _ => (s, false)
  | none =>
    let zset := s.zsets[key]?.getD Zset.new
    ({ s with zsets := s.zsets.insert key (zadd zset value score) }, true)

def zsetRmv (s : Storage) (key value : Fbstring) : Storage :=
  match s.zsets[key]? with
  | none => s
  | some zset => { s with zsets := s.zsets.insert key (zrmv zset value) }

def zsetZrange (s : Storage) (key : Fbstring) (minScore maxScore : UInt32) :
    Option (List ScoreValues) :=
  s.zsets[key]?.map (fun zset => zrange zset minScore maxScore)

def execOn (s : Storage) (key : Fbstring) : KeyOp → Storage × Reply
  | .addKeyValue value => (s.addKeyValue key value, .unit)
  | .delKey => (s.delKey key, .unit)
  | .getValueByKey => (s, .value (s.getValueByKey key))
  | .zsetAdd value score => ((s.zsetAdd key value score).1, .flag (s.zsetAdd key value score).2)
  | .zsetRmv value => (s.zsetRmv key value, .unit)
  | .zsetZrange minScore maxScore => (s, .groups (s.zsetZrange key minScore maxScore))

def exec (s : Storage) : StorageOp → Storage × Reply
  | .on key op => s.execOn key op
  | .listKeys keys => (s, .keyValues (s.listKeys keys))

end Storage

/-- The same operation; the keys of a list form a set on the left and a vector on the right. -/
def SameArguments : StorageOp → StorageOp → Prop
  | .listKeys set, .listKeys keys => set.Nodup ∧ ∀ key, key ∈ set ↔ key ∈ keys
  | .on key op, .on key' op' => key = key' ∧ op = op'
  | _, _ => False

/-- The same answer, a list of pairs read as a set. The groups of a range hold sets of values. -/
def SameReply : Reply → Reply → Prop
  | .keyValues l, .keyValues l' => ∀ kv, kv ∈ l ↔ kv ∈ l'
  | r, r' => r = r'

theorem SameReply.refl (r : Reply) : SameReply r r := by
  cases r <;> simp [SameReply]

private theorem emplaceInBucket_emplaceInBucket (b : ExtTreeMap UInt32 (Finset Fbstring))
    (score : UInt32) (value : Fbstring) :
    emplaceInBucket (emplaceInBucket b score value) score value =
      emplaceInBucket b score value := by
  apply ExtTreeMap.ext_getElem?
  intro t
  simp only [emplaceInBucket, lookup_insert]
  split
  · next ht => simp
  · rfl

/-- The two bodies of `zadd` compute the same indexes. -/
theorem zadd_eq (z : Zset) (value : Fbstring) (score : UInt32) :
    zadd z value score = z.zadd value score := by
  unfold zadd Zset.zadd leaveOld
  cases z.valueToScore[value]? with
  | none => rfl
  | some oldScore => simp only [emplaceInBucket_emplaceInBucket]

theorem zrmv_eq (z : Zset) (value : Fbstring) : zrmv z value = z.zrmv value := rfl

theorem zrange_eq (z : Zset) (minScore maxScore : UInt32) :
    zrange z minScore maxScore = z.zrange minScore maxScore :=
  rfl

structure SameMaps (s : Storage) (t : SingleThreadStorage) : Prop where
  zsets : s.zsets = t.zsets
  kv : s.kv = t.kv

theorem SameMaps.execOn {s : Storage} {t : SingleThreadStorage} (h : SameMaps s t) (key : Fbstring)
    (op : KeyOp) :
    SameMaps (s.execOn key op).1 (t.execOn key op).1 ∧
    (s.execOn key op).2 = (t.execOn key op).2 := by
  obtain ⟨zsets, kv⟩ := s
  obtain ⟨rfl, rfl⟩ := h
  cases op with
  | addKeyValue value => exact ⟨⟨rfl, rfl⟩, rfl⟩
  | delKey => exact ⟨⟨rfl, rfl⟩, rfl⟩
  | getValueByKey => exact ⟨⟨rfl, rfl⟩, rfl⟩
  | zsetAdd value score =>
    simp only [Storage.execOn, Storage.zsetAdd, SingleThreadStorage.execOn,
      SingleThreadStorage.zsetAdd]
    cases t.kv[key]? with
    | some v => exact ⟨⟨rfl, rfl⟩, rfl⟩
    | none => exact ⟨⟨by simp only [zadd_eq], rfl⟩, rfl⟩
  | zsetRmv value =>
    simp only [Storage.execOn, Storage.zsetRmv, SingleThreadStorage.execOn,
      SingleThreadStorage.zsetRmv]
    cases t.zsets[key]? with
    | none => exact ⟨⟨rfl, rfl⟩, trivial⟩
    | some zset => exact ⟨⟨by simp only [zrmv_eq], rfl⟩, trivial⟩
  | zsetZrange minScore maxScore =>
    refine ⟨⟨rfl, rfl⟩, ?_⟩
    simp only [Storage.execOn, Storage.zsetZrange, SingleThreadStorage.execOn,
      SingleThreadStorage.zsetZrange, zrange_eq]

theorem SameMaps.exec {s : Storage} {t : SingleThreadStorage} (h : SameMaps s t)
    {op op' : StorageOp} (ho : SameArguments op op') :
    SameMaps (s.exec op).1 (t.exec op').1 ∧ SameReply (s.exec op).2 (t.exec op').2 := by
  cases op with
  | on key op =>
    cases op' with
    | on key' op' =>
      obtain ⟨rfl, rfl⟩ := ho
      obtain ⟨hmaps, hreply⟩ := h.execOn key op
      exact ⟨hmaps, hreply ▸ SameReply.refl _⟩
    | listKeys keys => exact ho.elim
  | listKeys set =>
    cases op' with
    | on key' op' => exact ho.elim
    | listKeys keys =>
      refine ⟨h, ?_⟩
      intro kv
      simp only [Storage.listKeys, SingleThreadStorage.listKeys, List.mem_filterMap, ho.2, h.kv]

theorem sameMaps_final (ops : List StorageOp) :
    SameMaps (final Storage.exec Storage.new ops)
      (final SingleThreadStorage.exec SingleThreadStorage.new ops) := by
  have hsim : Simulates Storage.exec SingleThreadStorage.exec (fun _ => True) SameMaps
      (fun _ _ => True) := by
    constructor
    · intro s t op h _
      cases op with
      | on key op => exact (h.execOn key op).1
      | listKeys keys => exact h
    · exact fun _ _ _ _ _ => trivial
  exact hsim.final ⟨rfl, rfl⟩ (fun op (_ : op ∈ ops) => trivial)

/-- The two storages, started empty, answer every sequence of operations alike. -/
theorem storages_agree {ops ops' : List StorageOp} (ho : List.Forall₂ SameArguments ops ops') :
    List.Forall₂ SameReply (responses Storage.exec Storage.new ops)
      (responses SingleThreadStorage.exec SingleThreadStorage.new ops') := by
  have hrun : ∀ s t, SameMaps s t →
      List.Forall₂ SameReply (responses Storage.exec s ops)
        (responses SingleThreadStorage.exec t ops') := by
    induction ho with
    | nil => exact fun _ _ _ => .nil
    | cons hop _ ih =>
      intro s t h
      obtain ⟨hmaps, hreply⟩ := h.exec hop
      exact .cons hreply (ih _ _ hmaps)
  exact hrun _ _ ⟨rfl, rfl⟩

/-- A removed member is added again, and two keys are listed, one of them twice. -/
theorem storages_agree_readded : List.Forall₂ SameReply
    (responses Storage.exec Storage.new [.on [122] (.zsetAdd [97] 5), .on [122] (.zsetRmv [97]),
      .on [122] (.zsetAdd [97] 7), .on [122] (.zsetZrange 0 9), .on [98] (.addKeyValue [99]),
        .listKeys [[98], [122]]])
    (responses SingleThreadStorage.exec SingleThreadStorage.new [.on [122] (.zsetAdd [97] 5),
      .on [122] (.zsetRmv [97]),
      .on [122] (.zsetAdd [97] 7), .on [122] (.zsetZrange 0 9), .on [98] (.addKeyValue [99]),
      .listKeys [[122], [98], [98]]]) := by
  have hkeys : SameArguments (.listKeys [[98], [122]]) (.listKeys [[122], [98], [98]]) := by
    refine ⟨by decide, ?_⟩
    intro key
    simp only [List.mem_cons, List.not_mem_nil, or_false]
    tauto
  refine storages_agree (.cons ?_ (.cons ?_ (.cons ?_ (.cons ?_ (.cons ?_ (.cons hkeys .nil))))))
  all_goals exact ⟨rfl, rfl⟩

end HCache.CppStorage
