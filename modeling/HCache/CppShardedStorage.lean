import HCache.CppSingleThreadStorage
import HCache.KeyPartitions

/-!
# The C++ sharded storage refines one single-threaded storage

`sharded_storage` over the cores of the machine. Each operation picks the core of its key
and runs there, directly when it is issued on that core and through `invoke_on` otherwise;
`list_keys` distributes its keys over all cores. Whatever the hash function, the core count
and the issuing cores are, the responses are those of one unsharded storage.
-/
namespace HCache.CppShardedStorage
open Std OrderedMaps SequentialMachines KeyPartitions CppSingleThreadStorage

/-- `seastar::smp`: at least one core runs. -/
structure Smp where
  count : Nat
  count_pos : 0 < count

/-- `peers_`, one storage for each core. -/
abbrev ShardedStorage (smp : Smp) := Fin smp.count → SingleThreadStorage

/-- A set of keys in the order in which it is iterated. -/
structure KeySet where
  keys : List Fbstring
  nodup : keys.Nodup

variable {smp : Smp}

/-- `invoke_on` runs a method once on the named core and returns its result. -/
def invokeOn {α : Type} (peers : ShardedStorage smp) (cpu : Fin smp.count)
    (method : SingleThreadStorage → SingleThreadStorage × α) : ShardedStorage smp × α :=
  (Function.update peers cpu (method (peers cpu)).1, (method (peers cpu)).2)

namespace ShardedStorage

def new (smp : Smp) : ShardedStorage smp := fun _ => SingleThreadStorage.new

/-- `hash` stands for `SpookyHashV2::Hash32` with its seed. -/
def getCpu (smp : Smp) (hash : Fbstring → UInt32) (key : Fbstring) : Fin smp.count :=
  ⟨(hash key).toNat % smp.count, Nat.mod_lt _ smp.count_pos⟩

variable (hash : Fbstring → UInt32) (peers : ShardedStorage smp) (thisShardId : Fin smp.count)

/-- `peers_.local()` on the core of the key, `invoke_on` on any other. -/
def onCpu {α : Type} (key : Fbstring) (method : SingleThreadStorage → SingleThreadStorage × α) :
    ShardedStorage smp × α :=
  let cpu := getCpu smp hash key
  if thisShardId = cpu then
    (Function.update peers thisShardId (method (peers thisShardId)).1,
      (method (peers thisShardId)).2)
  else invokeOn peers cpu method

def getValueByKey (key : Fbstring) : ShardedStorage smp × Option Fbstring :=
  onCpu hash peers thisShardId key (fun s => (s, s.getValueByKey key))

def addKeyValue (key value : Fbstring) : ShardedStorage smp × Unit :=
  onCpu hash peers thisShardId key (fun s => (s.addKeyValue key value, ()))

def delKey (key : Fbstring) : ShardedStorage smp × Unit :=
  onCpu hash peers thisShardId key (fun s => (s.delKey key, ()))

def listKeys (keys : KeySet) : List (List KeyValue) :=
  let keysPerCpu := bucketBy (getCpu smp hash) keys.keys
  (List.finRange smp.count).map (fun i =>
    if i = thisShardId then (peers thisShardId).listKeys (keysPerCpu i)
    else (invokeOn peers i (fun s => (s, s.listKeys (keysPerCpu i)))).2)

def zsetAdd (key value : Fbstring) (score : UInt32) : ShardedStorage smp × Bool :=
  onCpu hash peers thisShardId key (fun s => s.zsetAdd key value score)

def zsetRmv (key value : Fbstring) : ShardedStorage smp × Unit :=
  onCpu hash peers thisShardId key (fun s => (s.zsetRmv key value, ()))

def zsetZrange (key : Fbstring) (minScore maxScore : UInt32) :
    ShardedStorage smp × Option (List ScoreValues) :=
  onCpu hash peers thisShardId key (fun s => (s, s.zsetZrange key minScore maxScore))

end ShardedStorage

inductive ShardedOp (smp : Smp) where
  | on (core : Fin smp.count) (key : Fbstring) (op : KeyOp)
  | listKeys (core : Fin smp.count) (keys : KeySet)

inductive ShardedReply where
  | one (reply : Reply)
  | perCore (lists : List (List KeyValue))
  deriving DecidableEq

def ShardedStorage.execOn (hash : Fbstring → UInt32) (peers : ShardedStorage smp)
    (core : Fin smp.count) (key : Fbstring) : KeyOp → ShardedStorage smp × Reply
  | .addKeyValue value => (addKeyValue hash peers core key value).map id (fun _ => .unit)
  | .delKey => (delKey hash peers core key).map id (fun _ => .unit)
  | .getValueByKey => (getValueByKey hash peers core key).map id .value
  | .zsetAdd value score => (zsetAdd hash peers core key value score).map id .flag
  | .zsetRmv value => (zsetRmv hash peers core key value).map id (fun _ => .unit)
  | .zsetZrange minScore maxScore =>
    (zsetZrange hash peers core key minScore maxScore).map id .groups

def ShardedStorage.exec (hash : Fbstring → UInt32) (peers : ShardedStorage smp) :
    ShardedOp smp → ShardedStorage smp × ShardedReply
  | .on core key op => (execOn hash peers core key op).map id .one
  | .listKeys core keys => (peers, .perCore (listKeys hash peers core keys))

def ShardedOp.unsharded : ShardedOp smp → StorageOp
  | .on _ key op => .on key op
  | .listKeys _ keys => .listKeys keys.keys

/-- The lists of the cores together are the unsharded list, and no key is in them twice. -/
structure Unions (cores : Nat) (lists : List (List KeyValue)) (kvs : List KeyValue) : Prop where
  length : lists.length = cores
  mem : ∀ kv, kv ∈ lists.flatten ↔ kv ∈ kvs
  nodup : (lists.flatten.map KeyValue.key).Nodup

/-- A sharded reply against an unsharded one. -/
inductive Agrees (smp : Smp) : ShardedReply → Reply → Prop
  | one (r : Reply) : Agrees smp (.one r) r
  | perCore {lists : List (List KeyValue)} {kvs : List KeyValue} (h : Unions smp.count lists kvs) :
      Agrees smp (.perCore lists) (.keyValues kvs)

def stored (s : SingleThreadStorage) (key : Fbstring) : Option Fbstring × Option Zset :=
  (s.kv[key]?, s.zsets[key]?)

theorem keyLocal_execOn :
    KeyLocal stored Prod.fst (fun s (a : Fbstring × KeyOp) => s.execOn a.1 a.2) := by
  have hfst : ∀ {s t : SingleThreadStorage} {k : Fbstring}, stored s k = stored t k →
      s.kv[k]? = t.kv[k]? :=
    fun h => congrArg Prod.fst h
  have hsnd : ∀ {s t : SingleThreadStorage} {k : Fbstring}, stored s k = stored t k →
      s.zsets[k]? = t.zsets[k]? :=
    fun h => congrArg Prod.snd h
  constructor
  · rintro s ⟨key, op⟩ k hk
    obtain ⟨hkv, hz⟩ := execOn_other s op hk
    rw [stored, hkv, hz, stored]
  · rintro s t ⟨k, op⟩ h
    have hkv := hfst h
    have hz := hsnd h
    cases op with
    | addKeyValue value =>
      simp only [stored, SingleThreadStorage.execOn, SingleThreadStorage.addKeyValue,
        lookup_replace, lookup_erase, if_true]
    | delKey => simp [stored, SingleThreadStorage.execOn, SingleThreadStorage.delKey]
    | getValueByKey => exact h
    | zsetAdd value score =>
      simp only [SingleThreadStorage.execOn, SingleThreadStorage.zsetAdd, hkv, hz]
      cases ht : t.kv[k]? with
      | none => simp [stored, hkv]
      | some v => exact h
    | zsetRmv value =>
      simp only [SingleThreadStorage.execOn, SingleThreadStorage.zsetRmv, hz]
      cases ht : t.zsets[k]? with
      | none => exact h
      | some z => simp [stored, hkv]
    | zsetZrange minScore maxScore => exact h
  · rintro s t ⟨k, op⟩ h
    have hkv := hfst h
    have hz := hsnd h
    cases op with
    | addKeyValue value => rfl
    | delKey => rfl
    | getValueByKey => simp [SingleThreadStorage.execOn, SingleThreadStorage.getValueByKey, hkv]
    | zsetAdd value score =>
      simp only [SingleThreadStorage.execOn, SingleThreadStorage.zsetAdd, hkv]
      cases ht : t.kv[k]? with
      | none => rfl
      | some v => rfl
    | zsetRmv value => rfl
    | zsetZrange minScore maxScore =>
      simp [SingleThreadStorage.execOn, SingleThreadStorage.zsetZrange, hz]

/-- Both branches run the method on the core of the key. -/
theorem onCpu_eq_invokeOn {α : Type} (hash : Fbstring → UInt32) (peers : ShardedStorage smp)
    (core : Fin smp.count) (key : Fbstring)
    (method : SingleThreadStorage → SingleThreadStorage × α) :
    ShardedStorage.onCpu hash peers core key method =
      invokeOn peers (ShardedStorage.getCpu smp hash key) method := by
  simp only [ShardedStorage.onCpu]
  split
  · next h => rw [h, invokeOn]
  · rfl

theorem execOn_eq_invokeOn (hash : Fbstring → UInt32) (peers : ShardedStorage smp)
    (core : Fin smp.count) (key : Fbstring) (op : KeyOp) :
    ShardedStorage.execOn hash peers core key op =
      invokeOn peers (ShardedStorage.getCpu smp hash key) (fun s => s.execOn key op) := by
  cases op with
  | addKeyValue value =>
    rw [ShardedStorage.execOn, ShardedStorage.addKeyValue, onCpu_eq_invokeOn]; rfl
  | delKey => rw [ShardedStorage.execOn, ShardedStorage.delKey, onCpu_eq_invokeOn]; rfl
  | getValueByKey =>
    rw [ShardedStorage.execOn, ShardedStorage.getValueByKey, onCpu_eq_invokeOn]; rfl
  | zsetAdd value score =>
    rw [ShardedStorage.execOn, ShardedStorage.zsetAdd, onCpu_eq_invokeOn]; rfl
  | zsetRmv value => rw [ShardedStorage.execOn, ShardedStorage.zsetRmv, onCpu_eq_invokeOn]; rfl
  | zsetZrange minScore maxScore =>
    rw [ShardedStorage.execOn, ShardedStorage.zsetZrange, onCpu_eq_invokeOn]; rfl

private theorem mem_listKeys {s : SingleThreadStorage} {keys : List Fbstring} {kv : KeyValue} :
    kv ∈ s.listKeys keys ↔ kv.key ∈ keys ∧ s.kv[kv.key]? = some kv.value := by
  obtain ⟨key, value⟩ := kv
  simp only [SingleThreadStorage.listKeys, List.mem_filterMap, Option.map_eq_some_iff,
    KeyValue.mk.injEq]
  constructor
  · rintro ⟨k, hk, v, hv, rfl, rfl⟩
    exact ⟨hk, hv⟩
  · rintro ⟨hk, hv⟩
    exact ⟨key, hk, value, hv, rfl, rfl⟩

private theorem keys_listKeys_sublist (s : SingleThreadStorage) (keys : List Fbstring) :
    ((s.listKeys keys).map KeyValue.key).Sublist keys := by
  induction keys with
  | nil => exact List.Sublist.refl _
  | cons k keys ih =>
    cases hk : s.kv[k]? with
    | none => simpa [SingleThreadStorage.listKeys, hk] using ih.cons k
    | some v => simpa [SingleThreadStorage.listKeys, hk] using ih.cons_cons k

private theorem listKeys_eq_map (hash : Fbstring → UInt32) (peers : ShardedStorage smp)
    (core : Fin smp.count) (keys : KeySet) : ShardedStorage.listKeys hash peers core keys =
      (List.finRange smp.count).map
        (fun i => (peers i).listKeys (bucketBy (ShardedStorage.getCpu smp hash) keys.keys i)) := by
  apply List.map_congr_left
  intro i _
  split
  · next h => rw [h]
  · rfl

private theorem unions_listKeys {hash : Fbstring → UInt32} {peers : ShardedStorage smp}
    {whole : SingleThreadStorage} (hc : Covers stored (ShardedStorage.getCpu smp hash) peers whole)
    (core : Fin smp.count) (keys : KeySet) :
    Unions smp.count (ShardedStorage.listKeys hash peers core keys) (whole.listKeys keys.keys) := by
  have hkv : ∀ key, (peers (ShardedStorage.getCpu smp hash key)).kv[key]? = whole.kv[key]? :=
    fun key => congrArg Prod.fst (hc key)
  rw [listKeys_eq_map]
  refine ⟨by simp, ?_, ?_⟩
  · intro kv
    simp only [List.mem_flatten, List.mem_map, List.mem_finRange, true_and, exists_exists_eq_and,
      mem_listKeys, mem_bucketBy, ← hkv]
    constructor
    · rintro ⟨i, ⟨hmem, rfl⟩, hv⟩
      exact ⟨hmem, hv⟩
    · rintro ⟨hmem, hv⟩
      exact ⟨_, ⟨hmem, rfl⟩, hv⟩
  · rw [List.map_flatten, List.map_map, List.nodup_flatten]
    constructor
    · intro l hl
      obtain ⟨i, -, rfl⟩ := List.mem_map.mp hl
      exact (keys_listKeys_sublist _ _).nodup (nodup_bucketBy _ keys.nodup i)
    · refine List.pairwise_map.mpr ((List.nodup_finRange _).imp ?_)
      intro i j hij key hi hj
      exact disjoint_bucketBy (ShardedStorage.getCpu smp hash) keys.keys hij
        ((keys_listKeys_sublist _ _).subset hi) ((keys_listKeys_sublist _ _).subset hj)

structure Sharded (hash : Fbstring → UInt32) (peers : ShardedStorage smp)
    (whole : SingleThreadStorage) : Prop where
  placed : ∀ core, Placed stored (none, none) (ShardedStorage.getCpu smp hash) core (peers core)
  covers : Covers stored (ShardedStorage.getCpu smp hash) peers whole

theorem sharded_new (smp : Smp) (hash : Fbstring → UInt32) :
    Sharded hash (ShardedStorage.new smp) SingleThreadStorage.new := by
  constructor
  · intro i key _
    simp [stored, ShardedStorage.new, SingleThreadStorage.new]
  · intro key
    rfl

theorem simulates_single (smp : Smp) (hash : Fbstring → UInt32) :
    Simulates (fun (peers : ShardedStorage smp) op => peers.exec hash op)
      (fun s op => s.exec op.unsharded) (fun _ => True) (Sharded hash) (Agrees smp) := by
  constructor
  · intro peers whole op h _
    cases op with
    | on core key op =>
      have hexec := execOn_eq_invokeOn hash peers core key op
      simp only [ShardedStorage.exec, hexec, ShardedOp.unsharded, SingleThreadStorage.exec]
      refine ⟨?_, h.covers.run keyLocal_execOn (key, op)⟩
      intro core'
      simp only [invokeOn, Prod.map, id]
      rcases eq_or_ne core' (ShardedStorage.getCpu smp hash key) with rfl | hne
      · rw [Function.update_self]
        exact (h.placed _).run keyLocal_execOn (key, op)
      · rw [Function.update_of_ne hne]
        exact h.placed core'
    | listKeys core keys => exact h
  · intro peers whole op h _
    cases op with
    | on core key op =>
      have hexec := execOn_eq_invokeOn hash peers core key op
      have hreply := h.covers.response keyLocal_execOn (key, op)
      simp only [ShardedStorage.exec, hexec, ShardedOp.unsharded,
        SingleThreadStorage.exec, ← hreply]
      exact .one _
    | listKeys core keys => exact .perCore (unions_listKeys h.covers core keys)

/-- Every response of the sharded storage is that of one unsharded storage. What that one
stores under a key is stored on the core of the key, and on no other core. -/
theorem shardedStorage_refines_single (smp : Smp) (hash : Fbstring → UInt32)
    (ops : List (ShardedOp smp)) :
    List.Forall₂ (Agrees smp) (responses (ShardedStorage.exec hash) (ShardedStorage.new smp) ops)
      (responses SingleThreadStorage.exec SingleThreadStorage.new (ops.map ShardedOp.unsharded)) ∧
    ∀ p, p <+: ops → ∀ key core,
      stored (final (ShardedStorage.exec hash) (ShardedStorage.new smp) p core) key =
        if core = ShardedStorage.getCpu smp hash key then
          stored
            (final SingleThreadStorage.exec SingleThreadStorage.new (p.map ShardedOp.unsharded)) key
        else (none, none) := by
  constructor
  · rw [← responses_map]
    exact (simulates_single smp hash).responses (sharded_new smp hash)
      (fun op (_ : op ∈ ops) => trivial)
  · intro p _ key core
    have h :=
      (simulates_single smp hash).final (sharded_new smp hash) (fun op (_ : op ∈ p) => trivial)
    rw [← final_map]
    split
    · next hcore =>
      rw [hcore]
      exact h.covers key
    · next hcore => exact h.placed core key hcore

end HCache.CppShardedStorage
