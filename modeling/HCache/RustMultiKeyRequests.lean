import HCache.KeyPartitions
import HCache.RustClusterNodes

/-!
# Requests for many keys

`handle_batch` and `handle_list` group their keys by shard, spawn one RPC for each remote
shard, do their own part and await the tasks. A task may fail in its RPC or in its join, and
the peer may by then have served a part of it. The parts run in any order.
-/
namespace HCache.RustMultiKeyRequests
open Std OrderedMaps KeyPartitions RustStorage RustRouting RustClusterNodes

inductive MultiBody where
  | empty
  | kvs (value : List InsrtRequest)
  deriving DecidableEq, Repr

structure MultiResponse where
  status : Status
  body : MultiBody
  deriving DecidableEq, Repr

def MultiResponse.done : MultiResponse := ⟨.ok, .empty⟩
def MultiResponse.notFound : MultiResponse := ⟨.notFound, .empty⟩

def MultiResponse.answer (r : MultiResponse) : List InsrtRequest :=
  match r.body with
  | .empty => []
  | .kvs value => value

/-- The two layers at which a spawned RPC fails. -/
inductive TaskError where
  | join
  | rpc
  deriving DecidableEq, Repr

/-- What becomes of the RPC to a shard; a failed one may have been served in part. -/
inductive Fate where
  | served
  | failed (error : TaskError) (done : ℕ)
  deriving DecidableEq, Repr

def Fate.taken (fate : Fate) (kvs : List InsrtRequest) : List InsrtRequest :=
  match fate with
  | .served => kvs
  | .failed _ done => kvs.take done

def Fate.result {α : Type} (fate : Fate) (reply : α) : Except TaskError α :=
  match fate with
  | .served => .ok reply
  | .failed error _ => .error error

variable {Host : Type}

def shardBatch (n : Node Host) (kvs : List InsrtRequest) : ExtTreeMap UInt32 (List InsrtRequest) :=
  groupInto (fun kv => n.shardOf kv.key) (fun acc kv => acc ++ [kv]) [] kvs

def shardKeys (n : Node Host) (keys : List Str) : ExtTreeMap UInt32 (Finset Str) :=
  groupInto n.shardOf (fun acc key => insert key acc) ∅ keys

/-- `sharded.remove(&me)` -/
def ownPart {β : Type} (n : Node Host) (empty : β) (sharded : ExtTreeMap UInt32 β) : β :=
  sharded[n.me]?.getD empty

def spawned {β : Type} (order : EntryOrder UInt32 β) (n : Node Host)
    (sharded : ExtTreeMap UInt32 β) : List (UInt32 × β) :=
  (order.list (sharded.erase n.me)).filter (fun p => p.1 ≠ n.me)

/-- The body of the `batch` RPC. -/
def serveBatch (s : Storage) (kvs : List InsrtRequest) : Storage :=
  kvs.foldl (fun s kv => s.insertKv kv.key kv.value) s

/-- The parts of a batch that run beside each other. -/
inductive Part where
  | here (kvs : List InsrtRequest)
  | there (shard : UInt32) (kvs : List InsrtRequest)
  deriving DecidableEq, Repr

def batchParts (order : EntryOrder UInt32 (List InsrtRequest)) (n : Node Host)
    (kvs : List InsrtRequest) : List Part :=
  .here (ownPart n [] (shardBatch n kvs)) :: (spawned order n (shardBatch n kvs)).map
    (fun p => .there p.1 p.2)

section Nodes
variable [DecidableEq Host]

def Part.perform (fates : UInt32 → Fate) (arrival : Host) (nodes : Host → Node Host) :
    Part → Host → Node Host
  | .here kvs => Function.update nodes arrival
      { nodes arrival with storage := (nodes arrival).storage.batchInsertKv kvs }
  | .there shard kvs =>
    match getClient (nodes arrival) shard with
    | .error _ => nodes
    | .ok target => Function.update nodes target
        { nodes target with storage := serveBatch (nodes target).storage ((fates shard).taken kvs) }

/-- The results of the tasks of a batch; a panic in a task is the error of its join. -/
def batchResults (fates : UInt32 → Fate) (n : Node Host)
    (tasks : List (UInt32 × List InsrtRequest)) :
    List (Except TaskError Unit) :=
  tasks.map (fun p => match getClient n p.1 with
    | .error _ => .error .join
    | .ok _ => (fates p.1).result ())

/-- The loop `for f in futures { f.await; }`, and the answer after it. -/
def awaitBatch (results : List (Except TaskError Unit)) : MultiResponse :=
  results.foldl (fun response _ => response) .done

def handleBatch (fates : UInt32 → Fate) (order : EntryOrder UInt32 (List InsrtRequest))
    (nodes : Host → Node Host) (arrival : Host) (kvs : List InsrtRequest) (schedule : List Part) :
    (Host → Node Host) × MultiResponse :=
  let n := nodes arrival
  (schedule.foldl (Part.perform fates arrival) nodes,
    awaitBatch (batchResults fates n (spawned order n (shardBatch n kvs))))

end Nodes

/-- `list_keys_in_memory` and the body of the `list` RPC, on keys in the order of a set. -/
def listKeys (sets : IterationOrder Str) (s : Storage) (keys : Finset Str) : List InsrtRequest :=
  (sets.list keys).filterMap (fun key => (s.getKv key).map (fun value => ⟨key, value⟩))

def listTask (fates : UInt32 → Fate) (sets : IterationOrder Str) (nodes : Host → Node Host)
    (arrival : Host) (task : UInt32 × Finset Str) : Except TaskError (List InsrtRequest) :=
  match getClient (nodes arrival) task.1 with
  | .error _ => .error .join
  | .ok target => (fates task.1).result (listKeys sets (nodes target).storage task.2)

/-- The loop over the handles: what is not `Ok(Ok(keys))` is passed over. -/
def awaitList (result : List InsrtRequest) (results : List (Except TaskError (List InsrtRequest))) :
    List InsrtRequest :=
  results.foldl (fun result r => match r with
    | .ok keys => result ++ keys
    | .error _ => result) result

def handleList (fates : UInt32 → Fate) (order : EntryOrder UInt32 (Finset Str))
    (sets : IterationOrder Str) (nodes : Host → Node Host) (arrival : Host) (keys : List Str) :
    MultiResponse :=
  let n := nodes arrival
  let sharded := shardKeys n keys
  let result := awaitList (listKeys sets n.storage (ownPart n ∅ sharded))
    ((spawned order n sharded).map (listTask fates sets nodes arrival))
  if result = [] then .notFound else ⟨.ok, .kvs result⟩

def addAll [DecidableEq Host] (sets : IterationOrder Str) (nodes : Host → Node Host)
    (arrival : Host) (kvs : List InsrtRequest) : Except Panic (Host → Node Host) :=
  kvs.foldlM (fun nodes kv => (request sets nodes arrival (.add kv)).map Prod.fst) nodes

variable {n : Node Host}

theorem foldl_append_singleton (l acc : List InsrtRequest) :
    l.foldl (fun acc kv => acc ++ [kv]) acc = acc ++ l := by
  induction l generalizing acc with
  | nil => simp
  | cons kv l ih => simp [ih]

theorem mem_foldl_insert (l : List Str) (acc : Finset Str) (key : Str) :
    key ∈ l.foldl (fun acc key => insert key acc) acc ↔ key ∈ l ∨ key ∈ acc := by
  induction l generalizing acc with
  | nil => simp
  | cons k l ih =>
    rw [List.foldl_cons, ih, Finset.mem_insert, List.mem_cons]
    constructor
    · rintro (h | h | h)
      · exact .inl (.inr h)
      · exact .inl (.inl h)
      · exact .inr h
    · rintro ((h | h) | h)
      · exact .inr (.inl h)
      · exact .inl h
      · exact .inr (.inr h)

theorem ownPart_shardBatch (kvs : List InsrtRequest) :
    ownPart n [] (shardBatch n kvs) = kvs.filter (fun kv => n.shardOf kv.key = n.me) := by
  rw [ownPart, shardBatch, getD_groupInto, foldl_append_singleton, List.nil_append]

theorem mem_ownPart_shardKeys {keys : List Str} {key : Str} :
    key ∈ ownPart n ∅ (shardKeys n keys) ↔ key ∈ keys ∧ n.shardOf key = n.me := by
  rw [ownPart, shardKeys, getD_groupInto, mem_foldl_insert]
  simp

theorem mem_spawned {β : Type} {order : EntryOrder UInt32 β} {sharded : ExtTreeMap UInt32 β}
    {shard : UInt32} {b : β} :
    (shard, b) ∈ spawned order n sharded ↔ sharded[shard]? = some b ∧ shard ≠ n.me := by
  rw [spawned, List.mem_filter, order.mem_list, lookup_erase, decide_eq_true_eq]
  constructor
  · rintro ⟨h, hne⟩
    rw [if_neg (Ne.symm hne)] at h
    exact ⟨h, hne⟩
  · rintro ⟨h, hne⟩
    exact ⟨by rwa [if_neg (Ne.symm hne)], hne⟩

theorem nodup_spawned {β : Type} (order : EntryOrder UInt32 β) (sharded : ExtTreeMap UInt32 β) :
    ((spawned order n sharded).map Prod.fst).Nodup :=
  (List.filter_sublist.map Prod.fst).nodup (order.distinct_keys _)

/-- A task carries the pairs of its shard, and there are some. -/
theorem mem_spawned_batch {order : EntryOrder UInt32 (List InsrtRequest)}
    {kvs b : List InsrtRequest} {shard : UInt32} :
    (shard, b) ∈ spawned order n (shardBatch n kvs) ↔
      b = kvs.filter (fun kv => n.shardOf kv.key = shard) ∧ (∃ kv ∈ kvs, n.shardOf kv.key = shard) ∧
      shard ≠ n.me := by
  rw [mem_spawned, shardBatch, lookup_groupInto, foldl_append_singleton, List.nil_append]
  split
  · next hnil =>
    constructor
    · rintro ⟨h, -⟩
      simp at h
    · rintro ⟨-, ⟨kv, hkv, hshard⟩, -⟩
      have hin : kv ∈ kvs.filter (fun kv => n.shardOf kv.key = shard) :=
        List.mem_filter.mpr ⟨hkv, by simpa using hshard⟩
      simp [hnil] at hin
  · next hnil =>
    obtain ⟨kv, hkv⟩ := List.exists_mem_of_ne_nil _ hnil
    obtain ⟨hin, hshard⟩ := List.mem_filter.mp hkv
    constructor
    · rintro ⟨h, hne⟩
      exact ⟨(Option.some.inj h).symm, ⟨kv, hin, by simpa using hshard⟩, hne⟩
    · rintro ⟨rfl, -, hne⟩
      exact ⟨rfl, hne⟩

theorem mem_spawned_keys {order : EntryOrder UInt32 (Finset Str)} {keys : List Str} {b : Finset Str}
    {shard : UInt32} (h : (shard, b) ∈ spawned order n (shardKeys n keys)) :
    (∀ key, key ∈ b ↔ key ∈ keys ∧ n.shardOf key = shard) ∧ (∃ key ∈ keys, n.shardOf key = shard) ∧
    shard ≠ n.me := by
  rw [mem_spawned, shardKeys, lookup_groupInto] at h
  obtain ⟨hb, hne⟩ := h
  split at hb
  · simp at hb
  · next hnil =>
    obtain ⟨key, hkey⟩ := List.exists_mem_of_ne_nil _ hnil
    obtain ⟨hin, hshard⟩ := List.mem_filter.mp hkey
    obtain rfl := Option.some.inj hb
    refine ⟨?_, ⟨key, hin, by simpa using hshard⟩, hne⟩
    intro k
    rw [mem_foldl_insert]
    simp

/-- Every remote shard of a requested key has its task. -/
theorem exists_spawned_keys (order : EntryOrder UInt32 (Finset Str)) {keys : List Str} {key : Str}
    (hk : key ∈ keys) (hne : n.shardOf key ≠ n.me) :
    ∃ b, (n.shardOf key, b) ∈ spawned order n (shardKeys n keys) := by
  have hnil : keys.filter (fun k => n.shardOf k = n.shardOf key) ≠ [] := by
    intro hnil
    have hin : key ∈ keys.filter (fun k => n.shardOf k = n.shardOf key) :=
      List.mem_filter.mpr ⟨hk, by simp⟩
    simp [hnil] at hin
  have hlookup :=
    lookup_groupInto n.shardOf (fun acc key => insert key acc) (∅ : Finset Str) keys (n.shardOf key)
  rw [if_neg hnil] at hlookup
  exact ⟨_, mem_spawned.mpr ⟨hlookup, hne⟩⟩

variable [DecidableEq Host]

/-- The number that the nodes of a cluster use for a host. -/
def shardNo (c : HostList Host) (h : Host) : UInt32 := UInt32.ofNat (c.hosts.idxOf h)

theorem node_me_eq (c : HostList Host) (s : Storage) (h : Host) :
    (c.node s h).me = shardNo c h := by
  simp [HostList.node, Node.updatePeers, shardNo]

theorem shardNo_toNat (c : HostList Host) {h : Host} (hh : h ∈ c.hosts) :
    (shardNo c h).toNat = c.hosts.idxOf h := by
  rw [← node_me_eq c Storage.new h, c.node_me Storage.new hh]

theorem shardNo_inj (c : HostList Host) {h h' : Host} (hh : h ∈ c.hosts) (hh' : h' ∈ c.hosts)
    (he : shardNo c h = shardNo c h') : h = h' := by
  have hidx := congrArg UInt32.toNat he
  rw [shardNo_toNat c hh, shardNo_toNat c hh'] at hidx
  exact (List.idxOf_inj hh).mp hidx

theorem shardOf_eq (c : HostList Host) (s : Storage) (h : Host) (key : Str) :
    (c.node s h).shardOf key = shardNo c (c.owner (strStream key)) := by
  have ho := c.owner_mem (strStream key)
  rw [← node_me_eq c Storage.new]
  exact (c.shard_eq_me_iff Storage.new ho (strStream key)).mpr rfl

theorem shardOf_eq_iff (c : HostList Host) (s : Storage) (h : Host) {h' : Host} (hh : h' ∈ c.hosts)
    (key : Str) :
    (c.node s h).shardOf key = shardNo c h' ↔ c.owner (strStream key) = h' := by
  rw [shardOf_eq]
  constructor
  · exact shardNo_inj c (c.owner_mem _) hh
  · intro he
    rw [he]

theorem getClient_shardNo (c : HostList Host) (s : Storage) (h : Host) {h' : Host}
    (hh : h' ∈ c.hosts) :
    getClient (c.node s h) (shardNo c h') = .ok h' := by
  rw [getClient, c.node_pool, shardNo_toNat c hh, List.getElem?_idxOf hh]

/-- The host at which a part works, and what it does there. -/
def Part.place (c : HostList Host) (arrival : Host) : Part → Host
  | .here _ => arrival
  | .there shard _ => c.hosts[shard.toNat]?.getD arrival

def Part.apply (fates : UInt32 → Fate) : Part → Storage → Storage
  | .here kvs, s => s.batchInsertKv kvs
  | .there shard kvs, s => serveBatch s ((fates shard).taken kvs)

variable {c : HostList Host} {fates : UInt32 → Fate} {stores : Host → Storage} {arrival : Host}
  {order : EntryOrder UInt32 (List InsrtRequest)} {kvs : List InsrtRequest} {schedule : List Part}

private theorem perform_node {part : Part}
    (hp : ∀ shard b, part = .there shard b → ∃ h ∈ c.hosts, shard = shardNo c h) :
    part.perform fates arrival (fun h => c.node (stores h) h) =
      fun h => c.node (Function.update stores (part.place c arrival)
        (part.apply fates (stores (part.place c arrival))) h) h := by
  cases part with
  | here b => exact c.update_node stores arrival _
  | there shard b =>
    obtain ⟨h, hh, rfl⟩ := hp shard b rfl
    have hplace : Part.place c arrival (.there (shardNo c h) b) = h := by
      rw [Part.place, shardNo_toNat c hh, List.getElem?_idxOf hh]
      rfl
    simp only [Part.perform, getClient_shardNo c _ _ hh, hplace]
    exact c.update_node stores h _

private theorem foldl_perform
    (hs : ∀ part ∈ schedule, ∀ shard b, part = .there shard b →
    ∃ h ∈ c.hosts, shard = shardNo c h) :
    schedule.foldl (Part.perform fates arrival) (fun h => c.node (stores h) h) =
      fun h => c.node (workAll (Part.place c arrival) (Part.apply fates) stores schedule h) h := by
  induction schedule generalizing stores with
  | nil => rfl
  | cons part schedule ih =>
    rw [List.foldl_cons, perform_node (hs part (by simp)), ih (fun p hp => hs p (by simp [hp]))]
    rfl

/-- The part for a host: the pairs it owns, as long as there are any. -/
theorem there_mem_batchParts {s : Storage} {shard : UInt32} {b : List InsrtRequest} :
    .there shard b ∈ batchParts order (c.node s arrival) kvs ↔
      ∃ h ∈ c.hosts, shard = shardNo c h ∧
        b = kvs.filter (fun kv => c.owner (strStream kv.key) = h) ∧
        (∃ kv ∈ kvs, c.owner (strStream kv.key) = h) ∧ shard ≠ shardNo c arrival := by
  have hspawned : .there shard b ∈ batchParts order (c.node s arrival) kvs ↔
      (shard, b) ∈ spawned order (c.node s arrival) (shardBatch (c.node s arrival) kvs) := by
    simp [batchParts]
  rw [hspawned, mem_spawned_batch, node_me_eq]
  constructor
  · rintro ⟨rfl, ⟨kv, hkv, hshard⟩, hne⟩
    have ho := c.owner_mem (strStream kv.key)
    rw [shardOf_eq] at hshard
    subst hshard
    refine ⟨_, ho, rfl, ?_, ⟨kv, hkv, rfl⟩, hne⟩
    apply List.filter_congr
    intro kv' _
    simp only [shardOf_eq_iff c s arrival ho]
  · rintro ⟨h, hh, rfl, rfl, ⟨kv, hkv, hko⟩, hne⟩
    refine ⟨?_, ⟨kv, hkv, (shardOf_eq_iff c s arrival hh _).mpr hko⟩, hne⟩
    apply List.filter_congr
    intro kv' _
    simp only [shardOf_eq_iff c s arrival hh]

private theorem nodup_places (s : Storage) :
    ((batchParts order (c.node s arrival) kvs).map (Part.place c arrival)).Nodup := by
  have hplace : ∀ p ∈ spawned order (c.node s arrival) (shardBatch (c.node s arrival) kvs),
      ∃ h ∈ c.hosts, p.1 = shardNo c h ∧ Part.place c arrival (.there p.1 p.2) = h ∧
      h ≠ arrival := by
    rintro ⟨shard, b⟩ hp
    have hin : Part.there shard b ∈ batchParts order (c.node s arrival) kvs := by
      simp [batchParts, hp]
    obtain ⟨h, hh, rfl, -, -, hne⟩ := there_mem_batchParts.mp hin
    refine ⟨h, hh, rfl, ?_, fun he => hne (he ▸ rfl)⟩
    rw [Part.place, shardNo_toNat c hh, List.getElem?_idxOf hh]
    rfl
  rw [batchParts, List.map_cons, List.map_map, List.nodup_cons]
  constructor
  · intro hin
    obtain ⟨p, hp, he⟩ := List.mem_map.mp hin
    obtain ⟨h, -, -, hph, hne⟩ := hplace p hp
    exact hne (hph.symm.trans he)
  · have hnodup := nodup_spawned order (n := c.node s arrival) (shardBatch (c.node s arrival) kvs)
    rw [List.Nodup, List.pairwise_map] at hnodup ⊢
    refine hnodup.imp_of_mem ?_
    intro p q hp hq hpq he
    obtain ⟨h, hh, hpshard, hph, -⟩ := hplace p hp
    obtain ⟨h', hh', hqshard, hqh, -⟩ := hplace q hq
    simp only [Function.comp_apply] at he
    exact hpq (by rw [hpshard, hqshard, ← hph, ← hqh, he])

/-- What a batch leaves on each host, in whatever order its parts run. -/
def batchStores (c : HostList Host) (fates : UInt32 → Fate) (stores : Host → Storage)
    (arrival : Host) (kvs : List InsrtRequest) (h : Host) : Storage :=
  let own := kvs.filter (fun kv => c.owner (strStream kv.key) = h)
  if h = arrival then (stores h).batchInsertKv own
  else serveBatch (stores h) ((fates (shardNo c h)).taken own)

theorem Fate.taken_nil (fate : Fate) : fate.taken [] = [] := by
  cases fate <;> simp [Fate.taken]

private theorem workAll_schedule (ha : arrival ∈ c.hosts)
    (hs : schedule.Perm (batchParts order (c.node (stores arrival) arrival) kvs)) :
    workAll (Part.place c arrival) (Part.apply fates) stores schedule =
      batchStores c fates stores arrival kvs := by
  have hnodup : (schedule.map (Part.place c arrival)).Nodup :=
    (hs.map _).nodup_iff.mpr (nodup_places (stores arrival))
  funext h
  rcases eq_or_ne h arrival with rfl | hne
  · have hhere :
        Part.here (ownPart (c.node (stores h) h) [] (shardBatch (c.node (stores h) h) kvs)) ∈
          schedule :=
      hs.mem_iff.mpr (by simp [batchParts])
    have hwork := workAll_of_mem (f := Part.apply fates) hnodup hhere stores
    simp only [Part.place] at hwork
    simp only [hwork, Part.apply, ownPart_shardBatch, node_me_eq, batchStores, if_true,
      shardOf_eq_iff c (stores h) h ha]
  · rw [batchStores, if_neg hne]
    by_cases hin : ∃ kv ∈ kvs, c.owner (strStream kv.key) = h
    · have hh : h ∈ c.hosts := by
        obtain ⟨kv, -, rfl⟩ := hin
        exact c.owner_mem _
      have hthere :
          Part.there (shardNo c h) (kvs.filter (fun kv => c.owner (strStream kv.key) = h)) ∈
            schedule :=
        hs.mem_iff.mpr
          (there_mem_batchParts.mpr ⟨h, hh, rfl, rfl, hin, fun he => hne (shardNo_inj c hh ha he)⟩)
      have hwork := workAll_of_mem (f := Part.apply fates) hnodup hthere stores
      have hplace :
          Part.place c arrival
            (.there (shardNo c h) (kvs.filter (fun kv => c.owner (strStream kv.key) = h))) = h := by
        rw [Part.place, shardNo_toNat c hh, List.getElem?_idxOf hh]
        rfl
      rw [hplace] at hwork
      exact hwork
    · have hnil : kvs.filter (fun kv => c.owner (strStream kv.key) = h) = [] := by
        rw [List.filter_eq_nil_iff]
        intro kv hkv
        simpa using fun he => hin ⟨kv, hkv, he⟩
      rw [hnil, Fate.taken_nil, workAll_of_notMem]
      · rfl
      · intro part hp he
        have hpart := hs.mem_iff.mp hp
        cases part with
        | here b => exact hne he.symm
        | there shard b =>
          obtain ⟨h', hh', rfl, -, hkv, -⟩ := there_mem_batchParts.mp hpart
          rw [Part.place, shardNo_toNat c hh', List.getElem?_idxOf hh', Option.getD_some] at he
          exact hin (he ▸ hkv)

/-- After a batch. -/
theorem handleBatch_stores (ha : arrival ∈ c.hosts)
    (hs : schedule.Perm (batchParts order (c.node (stores arrival) arrival) kvs)) :
    (handleBatch fates order (fun h => c.node (stores h) h) arrival kvs schedule).1 =
      fun h => c.node (batchStores c fates stores arrival kvs h) h := by
  have hparts : ∀ part ∈ schedule, ∀ shard b, part = .there shard b →
      ∃ h ∈ c.hosts, shard = shardNo c h := by
    rintro part hp shard b rfl
    obtain ⟨h, hh, hshard, -⟩ := there_mem_batchParts.mp (hs.mem_iff.mp hp)
    exact ⟨h, hh, hshard⟩
  rw [handleBatch, foldl_perform hparts, workAll_schedule ha hs]

end HCache.RustMultiKeyRequests
