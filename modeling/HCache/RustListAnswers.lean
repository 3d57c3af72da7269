import HCache.RustMultiKeyOutcomes

/-!
# What a list is answered with

`handle_list` when every RPC is served. The tasks work on disjoint sets of keys, one for each
shard, so nothing is answered twice; every requested key is in the set of its shard, so
nothing stored is missing. On a node without peers there is only its own set.
-/
namespace HCache.RustListAnswers
open Std OrderedMaps RustStorage RustRouting RustClusterNodes RustMultiKeyRequests
  RustMultiKeyOutcomes

variable {Host : Type}

/-- A list request is answered from the owners of its keys: 404 when none of the keys is in
any storage, else each stored key once. -/
structure ListsStored (all : List Storage) (ownerOf : Str → Storage) (keys : List Str)
    (r : MultiResponse) : Prop where
  notFound : r.status = .notFound ↔ ∀ key ∈ keys, ∀ s ∈ all, key ∉ s.kv
  found : r.status ≠ .notFound → r = ⟨.ok, .kvs r.answer⟩
  entries : ∀ key value, ⟨key, value⟩ ∈ r.answer ↔ key ∈ keys ∧ (ownerOf key).kv[key]? = some value
  once : (r.answer.map InsrtRequest.key).Nodup

/-- The same answer, its entries read as a set. -/
def SameAnswer (r r' : MultiResponse) : Prop :=
  r.status = r'.status ∧ ∀ kv, kv ∈ r.answer ↔ kv ∈ r'.answer

theorem ListsStored.same {all : List Storage} {ownerOf : Str → Storage} {keys keys' : List Str}
    {r r' : MultiResponse} (h : ListsStored all ownerOf keys r)
    (h' : ListsStored all ownerOf keys' r') (hp : keys'.Perm keys) :
    SameAnswer r r' := by
  constructor
  · have hiff : r.status = .notFound ↔ r'.status = .notFound := by
      simp only [h.notFound, h'.notFound, hp.mem_iff]
    by_cases hr : r.status = .notFound
    · rw [hr, hiff.mp hr]
    · rw [h.found hr, h'.found (fun hr' => hr (hiff.mpr hr'))]
  · rintro ⟨key, value⟩
    rw [h.entries, h'.entries, hp.mem_iff]

/-- What the loop over the handles appends for one of them. -/
def delivered : Except TaskError (List InsrtRequest) → List InsrtRequest
  | .ok keys => keys
  | .error _ => []

private theorem awaitList_eq (result : List InsrtRequest)
    (results : List (Except TaskError (List InsrtRequest))) :
    awaitList result results = result ++ results.flatMap delivered := by
  induction results generalizing result with
  | nil => simp [awaitList]
  | cons r results ih =>
    rw [List.flatMap_cons]
    cases r with
    | ok keys =>
      rw [delivered, ← List.append_assoc]
      exact ih (result ++ keys)
    | error e => exact ih result

private theorem listKeys_keys (sets : IterationOrder Str) (s : Storage) (keys : Finset Str) :
    (listKeys sets s keys).map InsrtRequest.key =
      (sets.list keys).filter (fun key => (s.getKv key).isSome) := by
  rw [listKeys]
  induction sets.list keys with
  | nil => rfl
  | cons key l ih =>
    cases hv : s.getKv key with
    | none => simp [hv, ih]
    | some value => simp [hv, ih]

private theorem nodup_listKeys (sets : IterationOrder Str) (s : Storage) (keys : Finset Str) :
    ((listKeys sets s keys).map InsrtRequest.key).Nodup := by
  rw [listKeys_keys]
  exact (sets.nodup keys).filter _

private theorem key_mem_of_mem_listKeys {sets : IterationOrder Str} {s : Storage}
    {keys : Finset Str} {kv : InsrtRequest} (h : kv ∈ listKeys sets s keys) : kv.key ∈ keys :=
  (mem_listKeys.mp h).1

variable {order : EntryOrder UInt32 (Finset Str)} {sets : IterationOrder Str}
  {nodes : Host → Node Host}
  {arrival : Host} {ownerOf : Str → Storage} {keys : List Str}

/-- The node itself and its tasks find what the owners hold. -/
structure FindsOwned (order : EntryOrder UInt32 (Finset Str)) (sets : IterationOrder Str)
    (nodes : Host → Node Host) (arrival : Host) (ownerOf : Str → Storage) (keys : List Str) :
    Prop where
  here : ∀ key, (nodes arrival).shardOf key = (nodes arrival).me →
    (nodes arrival).storage.kv[key]? = (ownerOf key).kv[key]?
  there : ∀ task ∈ spawned order (nodes arrival) (shardKeys (nodes arrival) keys), ∃ s,
    listTask (fun _ => .served) sets nodes arrival task = .ok (listKeys sets s task.2) ∧
    ∀ key, (nodes arrival).shardOf key = task.1 → s.kv[key]? = (ownerOf key).kv[key]?

/-- The parts of the answer, the own one first. -/
theorem handleList_parts (order : EntryOrder UInt32 (Finset Str)) (sets : IterationOrder Str)
    (nodes : Host → Node Host) (arrival : Host) (keys : List Str) :
    (handleList (fun _ => .served) order sets nodes arrival keys).answer =
      listKeys sets (nodes arrival).storage
        (ownPart (nodes arrival) ∅ (shardKeys (nodes arrival) keys)) ++
        (spawned order (nodes arrival) (shardKeys (nodes arrival) keys)).flatMap
          (fun task => delivered (listTask (fun _ => .served) sets nodes arrival task)) := by
  rw [(handleList_answer order sets nodes keys).1, awaitList_eq, List.flatMap_map]

private theorem entries_handleList (h : FindsOwned order sets nodes arrival ownerOf keys)
    (key value : Str) :
    ⟨key, value⟩ ∈ (handleList (fun _ => .served) order sets nodes arrival keys).answer ↔
      key ∈ keys ∧ (ownerOf key).kv[key]? = some value := by
  rw [handleList_parts, List.mem_append, mem_listKeys, mem_ownPart_shardKeys, List.mem_flatMap]
  constructor
  · rintro (⟨⟨hk, hme⟩, hv⟩ | ⟨⟨shard, b⟩, htask, hin⟩)
    · exact ⟨hk, (h.here key hme) ▸ hv⟩
    · obtain ⟨s, hs, howned⟩ := h.there _ htask
      rw [hs, delivered, mem_listKeys] at hin
      obtain ⟨hk, hshard⟩ := ((mem_spawned_keys htask).1 key).mp hin.1
      exact ⟨hk, (howned key hshard) ▸ hin.2⟩
  · rintro ⟨hk, hv⟩
    by_cases hme : (nodes arrival).shardOf key = (nodes arrival).me
    · exact .inl ⟨⟨hk, hme⟩, (h.here key hme).trans hv⟩
    · obtain ⟨b, hb⟩ := exists_spawned_keys order hk hme
      obtain ⟨s, hs, howned⟩ := h.there _ hb
      refine .inr ⟨_, hb, ?_⟩
      rw [hs, delivered, mem_listKeys]
      exact ⟨((mem_spawned_keys hb).1 key).mpr ⟨hk, rfl⟩, (howned key rfl).trans hv⟩

private theorem once_handleList (h : FindsOwned order sets nodes arrival ownerOf keys) :
    ((handleList (fun _ => .served) order sets nodes arrival keys).answer.map
      InsrtRequest.key).Nodup := by
  have hshard : ∀ task ∈ spawned order (nodes arrival) (shardKeys (nodes arrival) keys),
      ∀ kv ∈ delivered (listTask (fun _ => .served) sets nodes arrival task),
      (nodes arrival).shardOf kv.key = task.1 := by
    intro task htask kv hkv
    obtain ⟨s, hs, -⟩ := h.there task htask
    rw [hs] at hkv
    exact (((mem_spawned_keys htask).1 kv.key).mp (key_mem_of_mem_listKeys hkv)).2
  rw [handleList_parts, List.map_append, List.map_flatMap, List.nodup_append]
  refine ⟨nodup_listKeys _ _ _, ?_, ?_⟩
  · rw [List.nodup_flatMap]
    constructor
    · intro task htask
      obtain ⟨s, hs, -⟩ := h.there task htask
      rw [hs]
      exact nodup_listKeys _ _ _
    · have hdistinct := nodup_spawned order (n := nodes arrival) (shardKeys (nodes arrival) keys)
      rw [List.Nodup, List.pairwise_map] at hdistinct
      refine hdistinct.imp_of_mem ?_
      intro task task' htask htask' hne key hkey hkey'
      obtain ⟨kv, hkv, rfl⟩ := List.mem_map.mp hkey
      obtain ⟨kv', hkv', he⟩ := List.mem_map.mp hkey'
      exact hne ((hshard task htask kv hkv).symm.trans (he ▸ hshard task' htask' kv' hkv'))
  · intro key hkey key' hkey' he
    subst he
    obtain ⟨kv, hkv, rfl⟩ := List.mem_map.mp hkey
    obtain ⟨task, htask, hin⟩ := List.mem_flatMap.mp hkey'
    obtain ⟨kv', hkv', he⟩ := List.mem_map.mp hin
    have hme := (mem_ownPart_shardKeys.mp (key_mem_of_mem_listKeys hkv)).2
    have htaskShard := hshard task htask kv' hkv'
    rw [he, hme] at htaskShard
    exact (mem_spawned_keys htask).2.2 htaskShard.symm

/-- Answered from the owners, when a key is in a storage only if its owner has it. -/
theorem listsStored_handleList (h : FindsOwned order sets nodes arrival ownerOf keys)
    {all : List Storage} (hall : ∀ key, (∀ s ∈ all, key ∉ s.kv) ↔ (ownerOf key).kv[key]? = none) :
    ListsStored all ownerOf keys (handleList (fun _ => .served) order sets nodes arrival keys) := by
  have hentries := entries_handleList h
  have hanswer := @handleList_answer Host (fun _ => .served) arrival order sets nodes keys
  have hnil : (handleList (fun _ => .served) order sets nodes arrival keys).answer = [] ↔
      ∀ key ∈ keys, ∀ s ∈ all, key ∉ s.kv := by
    rw [List.eq_nil_iff_forall_not_mem]
    constructor
    · intro hno key hkey
      rw [hall, Option.eq_none_iff_forall_ne_some]
      intro value hv
      exact hno ⟨key, value⟩ ((hentries key value).mpr ⟨hkey, hv⟩)
    · rintro hno ⟨key, value⟩ hin
      obtain ⟨hkey, hv⟩ := (hentries key value).mp hin
      simp [(hall key).mp (hno key hkey)] at hv
  refine ⟨?_, ?_, hentries, once_handleList h⟩
  · rw [← hnil, hanswer.1, handleList]
    split
    · next he => simp [he, MultiResponse.notFound]
    · next he => simp [he]
  · rw [hanswer.1, handleList]
    split
    · next he => simp [MultiResponse.notFound]
    · intro _
      rfl

section Cluster
variable [DecidableEq Host]

/-- A key is in the plain keys of its owner or of no host. -/
def OnOwners (c : HostList Host) (stores : Host → Storage) : Prop :=
  ∀ h ∈ c.hosts, ∀ key, key ∈ (stores h).kv → c.owner (strStream key) = h

private theorem findsOwned_cluster (c : HostList Host) (stores : Host → Storage) {arrival : Host}
    (ha : arrival ∈ c.hosts) (order : EntryOrder UInt32 (Finset Str)) (sets : IterationOrder Str)
    (keys : List Str) :
    FindsOwned order sets (fun h => c.node (stores h) h) arrival
      (fun key => stores (c.owner (strStream key))) keys := by
  constructor
  · intro key hme
    rw [node_me_eq, shardOf_eq_iff c _ _ ha] at hme
    rw [hme]
    rfl
  · rintro ⟨shard, b⟩ htask
    obtain ⟨-, ⟨key, -, hshard⟩, -⟩ := mem_spawned_keys htask
    have ho := c.owner_mem (strStream key)
    rw [shardOf_eq] at hshard
    subst hshard
    refine ⟨stores (c.owner (strStream key)), ?_, ?_⟩
    · rw [listTask, getClient_shardNo c _ _ ho]
      rfl
    · intro k hk
      rw [shardOf_eq_iff c _ _ ho] at hk
      simp only [hk]

theorem listsStored_cluster (c : HostList Host) {stores : Host → Storage}
    (hplaced : OnOwners c stores) {arrival : Host} (ha : arrival ∈ c.hosts)
    (order : EntryOrder UInt32 (Finset Str)) (sets : IterationOrder Str) (keys : List Str) :
    ListsStored (c.hosts.map stores) (fun key => stores (c.owner (strStream key))) keys
      (handleList (fun _ => .served) order sets (fun h => c.node (stores h) h) arrival keys) := by
  refine listsStored_handleList (findsOwned_cluster c stores ha order sets keys) ?_
  intro key
  constructor
  · intro hno
    exact ExtTreeMap.getElem?_eq_none (hno _ (List.mem_map.mpr ⟨_, c.owner_mem _, rfl⟩))
  · intro hnone s hs hkey
    obtain ⟨h, hh, rfl⟩ := List.mem_map.mp hs
    rw [hplaced h hh key hkey] at hnone
    rw [ExtTreeMap.mem_iff_isSome_getElem?, hnone] at hkey
    simp at hkey

omit [DecidableEq Host] in
theorem listsStored_single {nodes : Host → Node Host} {arrival : Host} {s : Storage}
    (hn : nodes arrival = Node.single s) (order : EntryOrder UInt32 (Finset Str))
    (sets : IterationOrder Str) (keys : List Str) :
    ListsStored [s]
      (fun _ => s) keys (handleList (fun _ => .served) order sets nodes arrival keys) := by
  refine listsStored_handleList ⟨?_, ?_⟩ ?_
  · intro key _
    rw [hn]
    rfl
  · intro task htask
    obtain ⟨-, ⟨key, -, hshard⟩, hne⟩ := mem_spawned_keys htask
    rw [hn] at hshard hne
    exact absurd hshard.symm hne
  · intro key
    simp

end Cluster

/-- With all RPCs served a list is answered with exactly the stored keys of the request, on
every node of a cluster that keeps its keys on their owners and on a node without peers, and
with the same entries whichever node gets it in whatever order. -/
theorem list_answers_stored_keys [DecidableEq Host] (c : HostList Host) (stores : Host → Storage)
    (hplaced : OnOwners c stores) (keys : List Str) :
    (∀ arrival ∈ c.hosts, ∀ order sets,
      ListsStored (c.hosts.map stores) (fun key => stores (c.owner (strStream key))) keys
        (handleList (fun _ => .served) order sets (fun h => c.node (stores h) h) arrival keys) ∧
      ∀ arrival' ∈ c.hosts, ∀ order' sets' keys', keys'.Perm keys →
        SameAnswer
          (handleList (fun _ => .served) order sets (fun h => c.node (stores h) h) arrival keys)
          (handleList (fun _ => .served) order' sets'
            (fun h => c.node (stores h) h) arrival' keys')) ∧
    ∀ (nodes : Host → Node Host) (arrival : Host) (s : Storage), nodes arrival = Node.single s →
    ∀ order sets,
      ListsStored [s]
        (fun _ => s) keys (handleList (fun _ => .served) order sets nodes arrival keys) ∧
      ∀ order' sets' keys', keys'.Perm keys →
        SameAnswer (handleList (fun _ => .served) order sets nodes arrival keys)
          (handleList (fun _ => .served) order' sets' nodes arrival keys') := by
  constructor
  · intro arrival ha order sets
    have hlists := listsStored_cluster c hplaced ha order sets keys
    refine ⟨hlists, ?_⟩
    intro arrival' ha' order' sets' keys' hp
    exact hlists.same (listsStored_cluster c hplaced ha' order' sets' keys') hp
  · intro nodes arrival s hn order sets
    have hlists := listsStored_single hn order sets keys
    refine ⟨hlists, ?_⟩
    intro order' sets' keys' hp
    exact hlists.same (listsStored_single hn order' sets' keys') hp

/-- The second node holds the key `a`. -/
def keyOnSecond : ℕ → Storage :=
  fun h => if h = 1 then Storage.new.insertKv [97] [98] else Storage.new

/-- A key that is stored and asked for twice, and one that is not stored. -/
theorem list_answers_stored_key_once : ListsStored (twoNodes.hosts.map keyOnSecond)
    (fun key => keyOnSecond (twoNodes.owner (strStream key))) [[97], [99], [97]]
    (handleList (fun _ => .served) (.ascending _ _) (IterationOrder.choice Str)
      (fun h => twoNodes.node (keyOnSecond h) h) 0 [[97], [99], [97]]) := by
  have hplaced : OnOwners twoNodes keyOnSecond := by
    intro h _ key hkey
    by_cases hh : h = 1
    · simp only [keyOnSecond, hh, if_true, insertKv_kv, ExtTreeMap.mem_insert] at hkey
      rcases hkey with hkey | hkey
      · rw [hh, ← compare_eq_iff_eq.mp hkey]
        exact owner_a
      · simp [Storage.new] at hkey
    · simp [keyOnSecond, hh, Storage.new] at hkey
  exact ((list_answers_stored_keys twoNodes keyOnSecond hplaced [[97], [99], [97]]).1 0 (by decide)
    (.ascending _ _) (IterationOrder.choice Str)).1

end HCache.RustListAnswers
