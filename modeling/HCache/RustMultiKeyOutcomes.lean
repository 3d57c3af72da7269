import HCache.RustMultiKeyRequests

/-!
# What requests for many keys come to

A batch against adds one by one: the two executors of a batch differ on a key that is a
sorted set, which only the remote one removes. And the answers of both requests when an RPC
fails: neither handler looks at the results of its tasks for an error.
-/
namespace HCache.RustMultiKeyOutcomes
open Std OrderedMaps RustStorage RustRouting RustClusterNodes RustMultiKeyRequests

variable {Host : Type} [DecidableEq Host]

theorem serveBatch_eq (s : Storage) (kvs : List InsrtRequest) :
    serveBatch s kvs =
      { s.batchInsertKv kvs with zsets := eraseAll s.zsets (kvs.map InsrtRequest.key) } := by
  induction kvs generalizing s with
  | nil => rfl
  | cons kv kvs ih => exact ih (s.insertKv kv.key kv.value)

/-- The executors agree exactly when none of the keys is a sorted set. -/
theorem serveBatch_eq_batchInsertKv_iff {s : Storage} {kvs : List InsrtRequest} :
    serveBatch s kvs = s.batchInsertKv kvs ↔ ∀ kv ∈ kvs, kv.key ∉ s.zsets := by
  have hkeys : (∀ key ∈ kvs.map InsrtRequest.key, key ∉ s.zsets) ↔
      ∀ kv ∈ kvs, kv.key ∉ s.zsets := by
    simp
  rw [← hkeys, ← eraseAll_eq_self_iff, serveBatch_eq]
  constructor
  · intro h
    exact congrArg Storage.zsets h
  · intro h
    rw [h]
    rfl

private theorem addAll_node (c : HostList Host) (sets : IterationOrder Str)
    (stores : Host → Storage) {arrival : Host} (ha : arrival ∈ c.hosts) (kvs : List InsrtRequest) :
    addAll sets (fun h => c.node (stores h) h) arrival kvs =
      .ok
        (fun h =>
          c.node (serveBatch (stores h) (kvs.filter (fun kv => c.owner (strStream kv.key) = h)))
            h) := by
  induction kvs generalizing stores with
  | nil => rfl
  | cons kv kvs ih =>
    have hreq := c.request_eq_execute sets stores ha (.add kv) rfl
    rw [addAll, List.foldlM_cons, hreq]
    refine (ih _).trans ?_
    congr 1
    funext h
    rcases eq_or_ne (c.owner (strStream kv.key)) h with rfl | hne
    · simp [Request.key, serveBatch]
    · simp [Request.key, hne, Function.update_of_ne (Ne.symm hne)]

private theorem node_storage_inj (c : HostList Host) {stores stores' : Host → Storage} :
    (fun h => c.node (stores h) h) = (fun h => c.node (stores' h) h) ↔
    ∀ h, stores h = stores' h := by
  constructor
  · intro he h
    have hnode := congrFun he h
    exact congrArg Node.storage hnode
  · intro he
    funext h
    rw [he h]

private theorem batch_eq_adds_in_cluster (c : HostList Host)
    (order : EntryOrder UInt32 (List InsrtRequest)) (sets : IterationOrder Str)
    (stores : Host → Storage) {arrival : Host} (ha : arrival ∈ c.hosts) (kvs : List InsrtRequest)
    {schedule : List Part}
    (hs : schedule.Perm (batchParts order (c.node (stores arrival) arrival) kvs)) :
    addAll sets (fun h => c.node (stores h) h) arrival kvs =
        .ok
          (handleBatch (fun _ => .served) order
            (fun h => c.node (stores h) h) arrival kvs schedule).1 ↔
      ∀ kv ∈ kvs, c.owner (strStream kv.key) = arrival → kv.key ∉ (stores arrival).zsets := by
  rw [addAll_node c sets stores ha, handleBatch_stores ha hs, Except.ok.injEq, node_storage_inj]
  constructor
  · intro h kv hkv ho
    have harrival := h arrival
    rw [batchStores, if_pos rfl, serveBatch_eq_batchInsertKv_iff] at harrival
    exact harrival kv (List.mem_filter.mpr ⟨hkv, by simpa using ho⟩)
  · intro h host
    rw [batchStores]
    split
    · next he =>
      subst he
      rw [serveBatch_eq_batchInsertKv_iff]
      intro kv hkv
      obtain ⟨hin, ho⟩ := List.mem_filter.mp hkv
      exact h kv hin (by simpa using ho)
    · rfl

variable {nodes : Host → Node Host} {arrival : Host} {s : Storage}

omit [DecidableEq Host] in
theorem batchParts_single (order : EntryOrder UInt32 (List InsrtRequest)) (s : Storage)
    (kvs : List InsrtRequest) :
    batchParts order (Node.single s : Node Host) kvs = [.here kvs] := by
  have hspawned :
      spawned order (Node.single s : Node Host) (shardBatch (Node.single s : Node Host) kvs) =
        [] := by
    rw [List.eq_nil_iff_forall_not_mem]
    rintro ⟨shard, b⟩ hp
    obtain ⟨-, ⟨kv, -, rfl⟩, hne⟩ := mem_spawned_batch.mp hp
    exact hne rfl
  have hown : ownPart (Node.single s : Node Host) [] (shardBatch (Node.single s : Node Host) kvs) =
      kvs := by
    rw [ownPart_shardBatch, List.filter_eq_self]
    intro kv _
    simp [Node.shardOf, Node.single]
  rw [batchParts, hspawned, hown, List.map_nil]

theorem addAll_single (sets : IterationOrder Str) (hn : nodes arrival = Node.single s)
    (kvs : List InsrtRequest) :
    addAll sets nodes arrival kvs =
      .ok (Function.update nodes arrival (Node.single (serveBatch s kvs))) := by
  induction kvs generalizing nodes s with
  | nil =>
    rw [serveBatch, List.foldl_nil, ← hn, Function.update_eq_self]
    rfl
  | cons kv kvs ih =>
    have hshard : (nodes arrival).shardOf kv.key = (nodes arrival).me := by
      rw [hn]
      rfl
    have hhere : handle sets (nodes arrival) (.add kv) =
        .answer ((nodes arrival).storage.insertKv kv.key kv.value) .done := handle_here hshard rfl
    have hreq : request sets nodes arrival (.add kv) =
        .ok (Function.update nodes arrival (Node.single (s.insertKv kv.key kv.value)), .done) := by
      rw [request, hhere, hn]
      rfl
    rw [addAll, List.foldlM_cons, hreq]
    refine (ih (Function.update_self _ _ _)).trans ?_
    rw [Function.update_idem]
    rfl

private theorem batch_eq_adds_single (order : EntryOrder UInt32 (List InsrtRequest))
    (sets : IterationOrder Str) (hn : nodes arrival = Node.single s) (kvs : List InsrtRequest)
    {schedule : List Part} (hs : schedule.Perm (batchParts order (nodes arrival) kvs)) :
    addAll sets nodes arrival kvs =
      .ok (handleBatch (fun _ => .served) order nodes arrival kvs schedule).1 ↔
      ∀ kv ∈ kvs, kv.key ∉ s.zsets := by
  rw [hn, batchParts_single, List.perm_singleton] at hs
  subst hs
  have hbatch : (handleBatch (fun _ => .served) order nodes arrival kvs [.here kvs]).1 =
      Function.update nodes arrival (Node.single (s.batchInsertKv kvs)) := by
    simp only [handleBatch, List.foldl_cons, List.foldl_nil, Part.perform, hn]
    rfl
  rw [addAll_single sets hn, hbatch, Except.ok.injEq, ← serveBatch_eq_batchInsertKv_iff]
  constructor
  · intro h
    have hnode := congrFun h arrival
    rw [Function.update_self, Function.update_self] at hnode
    exact congrArg Node.storage hnode
  · intro h
    rw [h]

/-- A batch leaves every node as the adds of its pairs one by one do exactly when no pair of
the arrival node itself has a key that is a sorted set there. -/
theorem batch_eq_adds_iff (order : EntryOrder UInt32 (List InsrtRequest))
    (sets : IterationOrder Str) (kvs : List InsrtRequest) :
    (∀ (c : HostList Host) (stores : Host → Storage), ∀ arrival ∈ c.hosts, ∀ schedule : List Part,
      schedule.Perm (batchParts order (c.node (stores arrival) arrival) kvs) →
      (addAll sets (fun h => c.node (stores h) h) arrival kvs =
          .ok
            (handleBatch (fun _ => .served) order
              (fun h => c.node (stores h) h) arrival kvs schedule).1 ↔
        ∀ kv ∈ kvs, c.owner (strStream kv.key) = arrival → kv.key ∉ (stores arrival).zsets)) ∧
    ∀ (nodes : Host → Node Host) (arrival : Host) (s : Storage), nodes arrival = Node.single s →
      ∀ schedule : List Part, schedule.Perm (batchParts order (nodes arrival) kvs) →
      (addAll sets nodes arrival kvs =
        .ok (handleBatch (fun _ => .served) order nodes arrival kvs schedule).1 ↔
        ∀ kv ∈ kvs, kv.key ∉ s.zsets) := by
  constructor
  · intro c stores arrival ha schedule hs
    exact batch_eq_adds_in_cluster c order sets stores ha kvs hs
  · intro nodes arrival s hn schedule hs
    exact batch_eq_adds_single order sets hn kvs hs

/-- Two pairs for a key of the other node, which has it as a sorted set, around one for the
arrival node; the parts run in the other order. -/
theorem batch_eq_adds_both : addAll (IterationOrder.choice Str)
      (fun h => twoNodes.node (Storage.new.zadd [97] ⟨1, [98]⟩) h) 0
      [⟨[97], [98]⟩, ⟨[98], [98]⟩, ⟨[97], [99]⟩] =
    .ok (handleBatch (fun _ => .served) (.ascending _ _)
      (fun h => twoNodes.node (Storage.new.zadd [97] ⟨1, [98]⟩) h) 0
      [⟨[97], [98]⟩, ⟨[98], [98]⟩, ⟨[97], [99]⟩]
      (batchParts (.ascending _ _) (twoNodes.node (Storage.new.zadd [97] ⟨1, [98]⟩) 0)
        [⟨[97], [98]⟩, ⟨[98], [98]⟩, ⟨[97], [99]⟩]).reverse).1 := by
  have habsent : ∀ kv ∈ [(⟨[97], [98]⟩ : InsrtRequest), ⟨[98], [98]⟩, ⟨[97], [99]⟩],
      twoNodes.owner (strStream kv.key) = 0 →
        kv.key ∉ (Storage.new.zadd [97] ⟨1, [98]⟩).zsets := by
    intro kv hkv howner
    have hkey : kv.key = [98] := by
      simp only [List.mem_cons, List.not_mem_nil, or_false] at hkv
      rcases hkv with rfl | rfl | rfl
      · simp [owner_a] at howner
      · rfl
      · simp [owner_a] at howner
    rw [hkey]
    decide
  exact ((batch_eq_adds_iff (.ascending _ _) (IterationOrder.choice Str) _).1 twoNodes
    (fun _ => Storage.new.zadd [97] ⟨1, [98]⟩) 0 (by decide) _ (List.reverse_perm _)).mpr habsent

/-- A node without peers that holds the sorted set `a`. -/
def sortedNode : Unit → Node Unit := fun _ => Node.single (Storage.new.zadd [97] ⟨1, [98]⟩)

/-- The batch writes the plain key `a` and keeps the sorted set `a`, which the add removes. -/
theorem batch_not_always_adds : ∃ nodes,
    addAll (IterationOrder.choice Str) sortedNode () [⟨[97], [99]⟩] = .ok nodes ∧
    nodes ≠ (handleBatch (fun _ => .served) (.ascending _ _) sortedNode () [⟨[97], [99]⟩]
      (batchParts (.ascending _ _) (sortedNode ()) [⟨[97], [99]⟩])).1 := by
  have hsorted : sortedNode () = Node.single (Storage.new.zadd [97] ⟨1, [98]⟩) := rfl
  refine ⟨_, addAll_single _ hsorted _, ?_⟩
  intro he
  have hzset :=
    congrArg (fun nodes : Unit → Node Unit => ((nodes ()).storage.zsets[([97] : Str)]?).isSome) he
  revert hzset
  decide

variable (c : HostList Host) (fates : UInt32 → Fate) (arrival : Host)

/-- The key lies on the arrival node, or the RPC to its shard succeeds. -/
def Reached (key : Str) : Prop :=
  c.owner (strStream key) = arrival ∨ fates (shardNo c (c.owner (strStream key))) = .served

/-- Every pair has been applied on its owner, in the order of the batch. -/
def AppliedOnOwners (stores : Host → Storage) (kvs : List InsrtRequest) (nodes : Host → Node Host) :
    Prop :=
  ∀ h ∈ c.hosts,
    (nodes h).storage.kv =
      insertAll (stores h).kv
        ((kvs.filter (fun kv => c.owner (strStream kv.key) = h)).map InsrtRequest.entry) ∧
    (nodes h).storage.db =
      insertAll (stores h).db
        ((kvs.filter (fun kv => c.owner (strStream kv.key) = h)).map InsrtRequest.entry)

/-- A batch is answered with 200 only if it has been applied, and with 500 if a pair is lost. -/
structure BatchPromise (stores : Host → Storage) (kvs : List InsrtRequest)
    (outcome : (Host → Node Host) × MultiResponse) : Prop where
  applied : outcome.2.status = .ok → AppliedOnOwners c stores kvs outcome.1
  failed : (∃ kv ∈ kvs, ¬ Reached c fates arrival kv.key) → outcome.2.status = .internalServerError

/-- Nothing that a query finds is missing from a list, unless it is answered with 500, as it is
if a key is lost. What lies on a node that is not its owner no query finds. -/
structure ListPromise (sets : IterationOrder Str) (stores : Host → Storage) (keys : List Str)
    (response : MultiResponse) : Prop where
  complete : response.status ≠ .internalServerError → ∀ key ∈ keys, ∀ value,
    (request sets (fun h => c.node (stores h) h) arrival (.query key)).map Prod.snd =
      .ok ⟨.ok, .text value⟩ →
      ⟨key, value⟩ ∈ response.answer
  failed : (∃ key ∈ keys, ¬ Reached c fates arrival key) → response.status = .internalServerError

variable {c : HostList Host} {fates : UInt32 → Fate} {stores : Host → Storage} {arrival : Host}

theorem awaitBatch_eq (results : List (Except TaskError Unit)) : awaitBatch results = .done := by
  induction results with
  | nil => rfl
  | cons r results ih => exact ih

private theorem batchStores_applied {kvs : List InsrtRequest}
    (hr : ∀ kv ∈ kvs, Reached c fates arrival kv.key) :
    AppliedOnOwners c stores kvs
      (fun h => c.node (batchStores c fates stores arrival kvs h) h) := by
  intro h _
  rw [c.node_storage, batchStores]
  split
  · exact ⟨rfl, rfl⟩
  · next hne =>
    have htaken :
        (fates (shardNo c h)).taken (kvs.filter (fun kv => c.owner (strStream kv.key) = h)) =
        kvs.filter (fun kv => c.owner (strStream kv.key) = h) := by
      rcases List.eq_nil_or_concat (kvs.filter (fun kv => c.owner (strStream kv.key) = h))
        with hnil | ⟨l, kv, hl⟩
      · rw [hnil, Fate.taken_nil]
      · have hkv : kv ∈ kvs.filter (fun kv => c.owner (strStream kv.key) = h) := by simp [hl]
        obtain ⟨hin, ho⟩ := List.mem_filter.mp hkv
        obtain rfl := of_decide_eq_true ho
        rcases hr kv hin with hhere | hserved
        · exact absurd hhere hne
        · rw [hserved, Fate.taken]
    rw [htaken, serveBatch_eq]
    exact ⟨rfl, rfl⟩

/-- A batch is always answered with success. -/
theorem batchPromise_iff (order : EntryOrder UInt32 (List InsrtRequest)) (ha : arrival ∈ c.hosts)
    (kvs : List InsrtRequest) {schedule : List Part}
    (hs : schedule.Perm (batchParts order (c.node (stores arrival) arrival) kvs)) :
    BatchPromise c fates arrival stores kvs
        (handleBatch fates order (fun h => c.node (stores h) h) arrival kvs schedule) ↔
      ∀ kv ∈ kvs, Reached c fates arrival kv.key := by
  have hstatus :
      (handleBatch fates order (fun h => c.node (stores h) h) arrival kvs schedule).2.status =
        .ok := by
    rw [handleBatch, awaitBatch_eq]
    rfl
  constructor
  · intro h kv hkv
    by_contra hreached
    have hfailed := h.failed ⟨kv, hkv, hreached⟩
    simp [hstatus] at hfailed
  · intro hr
    constructor
    · intro _
      rw [handleBatch_stores ha hs]
      exact batchStores_applied hr
    · rintro ⟨kv, hkv, hreached⟩
      exact absurd (hr kv hkv) hreached

private theorem mem_awaitList {result : List InsrtRequest}
    {results : List (Except TaskError (List InsrtRequest))} {kv : InsrtRequest} :
    kv ∈ awaitList result results ↔ kv ∈ result ∨ ∃ keys, .ok keys ∈ results ∧ kv ∈ keys := by
  induction results generalizing result with
  | nil => simp [awaitList]
  | cons r results ih =>
    cases r with
    | ok keys =>
      have hcons : awaitList result (.ok keys :: results) = awaitList (result ++ keys) results :=
        rfl
      rw [hcons, ih, List.mem_append]
      constructor
      · rintro ((h | h) | ⟨ks, hks, h⟩)
        · exact .inl h
        · exact .inr ⟨keys, by simp, h⟩
        · exact .inr ⟨ks, by simp [hks], h⟩
      · rintro (h | ⟨ks, hks, h⟩)
        · exact .inl (.inl h)
        · rcases List.mem_cons.mp hks with he | hks
          · obtain rfl := Except.ok.inj he
            exact .inl (.inr h)
          · exact .inr ⟨ks, hks, h⟩
    | error e =>
      have hcons : awaitList result (.error e :: results) = awaitList result results := rfl
      rw [hcons, ih]
      simp

theorem mem_listKeys {sets : IterationOrder Str} {s : Storage} {keys : Finset Str}
    {key value : Str} :
    ⟨key, value⟩ ∈ listKeys sets s keys ↔ key ∈ keys ∧ s.kv[key]? = some value := by
  simp only [listKeys, List.mem_filterMap, IterationOrder.mem_list, Option.map_eq_some_iff,
    InsrtRequest.mk.injEq, Storage.getKv]
  constructor
  · rintro ⟨k, hk, v, hv, rfl, rfl⟩
    exact ⟨hk, hv⟩
  · rintro ⟨hk, hv⟩
    exact ⟨key, hk, value, hv, rfl, rfl⟩

private theorem query_finds_iff (sets : IterationOrder Str) (ha : arrival ∈ c.hosts)
    (key value : Str) :
    (request sets (fun h => c.node (stores h) h) arrival (.query key)).map Prod.snd =
      .ok ⟨.ok, .text value⟩ ↔
      (stores (c.owner (strStream key))).kv[key]? = some value := by
  have hreq := c.request_eq_execute sets stores ha (.query key) rfl
  rw [hreq]
  simp only [Except.map, Request.key, Storage.getKv, Except.ok.injEq]
  cases (stores (c.owner (strStream key))).kv[key]? with
  | none => simp [queryResponse, Response.notFound]
  | some v => simp [queryResponse]

omit [DecidableEq Host] in
theorem handleList_answer (order : EntryOrder UInt32 (Finset Str)) (sets : IterationOrder Str)
    (nodes : Host → Node Host) (keys : List Str) :
    (handleList fates order sets nodes arrival keys).answer =
      awaitList
        (listKeys sets (nodes arrival).storage
          (ownPart (nodes arrival) ∅ (shardKeys (nodes arrival) keys)))
        ((spawned order (nodes arrival) (shardKeys (nodes arrival) keys)).map
          (listTask fates sets nodes arrival)) ∧
    (handleList fates order sets nodes arrival keys).status ≠ .internalServerError := by
  simp only [handleList]
  split
  · next hnil => simp [hnil, MultiResponse.notFound, MultiResponse.answer]
  · simp [MultiResponse.answer]

private theorem mem_handleList (order : EntryOrder UInt32 (Finset Str)) (sets : IterationOrder Str)
    (ha : arrival ∈ c.hosts) {keys : List Str} {key value : Str} (hk : key ∈ keys)
    (hr : Reached c fates arrival key)
    (hv : (stores (c.owner (strStream key))).kv[key]? = some value) :
    ⟨key, value⟩ ∈
      (handleList fates order sets (fun h => c.node (stores h) h) arrival keys).answer := by
  rw [(handleList_answer order sets _ keys).1, mem_awaitList]
  have hme := node_me_eq c (stores arrival) arrival
  by_cases ho : c.owner (strStream key) = arrival
  · left
    rw [mem_listKeys, mem_ownPart_shardKeys, hme, shardOf_eq_iff c _ _ ha]
    exact ⟨⟨hk, ho⟩, by rw [c.node_storage, ← ho, hv]⟩
  · right
    have hserved := hr.resolve_left ho
    have hshard := shardOf_eq c (stores arrival) arrival key
    have hne : (c.node (stores arrival) arrival).shardOf key ≠
        (c.node (stores arrival) arrival).me := by
      rw [hme]
      exact fun he => ho ((shardOf_eq_iff c _ _ ha key).mp he)
    obtain ⟨b, hb⟩ := exists_spawned_keys order hk hne
    have hkey : key ∈ b := ((mem_spawned_keys hb).1 key).mpr ⟨hk, rfl⟩
    have htask : listTask fates sets (fun h => c.node (stores h) h) arrival
        ((c.node (stores arrival) arrival).shardOf key, b) =
          .ok (listKeys sets (stores (c.owner (strStream key))) b) := by
      rw [listTask, hshard, getClient_shardNo c _ _ (c.owner_mem _)]
      simp only [hserved]
      rfl
    exact ⟨_, List.mem_map.mpr ⟨_, hb, htask⟩, mem_listKeys.mpr ⟨hkey, hv⟩⟩

/-- A list is never answered with an error. -/
theorem listPromise_iff (order : EntryOrder UInt32 (Finset Str)) (sets : IterationOrder Str)
    (ha : arrival ∈ c.hosts) (keys : List Str) :
    ListPromise c fates arrival sets stores keys
        (handleList fates order sets (fun h => c.node (stores h) h) arrival keys) ↔
      ∀ key ∈ keys, Reached c fates arrival key := by
  have hstatus : (handleList fates order sets (fun h => c.node (stores h) h) arrival keys).status ≠
      .internalServerError := (handleList_answer order sets _ keys).2
  constructor
  · intro h key hkey
    by_contra hreached
    exact hstatus (h.failed ⟨key, hkey, hreached⟩)
  · intro hr
    constructor
    · intro _ key hkey value hquery
      rw [query_finds_iff sets ha] at hquery
      exact mem_handleList order sets ha hkey (hr key hkey) hquery
    · rintro ⟨key, hkey, hreached⟩
      exact absurd (hr key hkey) hreached

/-- A request for many keys is answered as promised exactly when no RPC to a shard with keys
in the request fails. -/
theorem multiKey_promises_iff (c : HostList Host) (fates : UInt32 → Fate) (stores : Host → Storage)
    {arrival : Host} (ha : arrival ∈ c.hosts) :
    (∀ (order : EntryOrder UInt32 (List InsrtRequest)) (kvs : List InsrtRequest)
      (schedule : List Part),
      schedule.Perm (batchParts order (c.node (stores arrival) arrival) kvs) →
      (BatchPromise c fates arrival stores kvs
          (handleBatch fates order (fun h => c.node (stores h) h) arrival kvs schedule) ↔
        ∀ kv ∈ kvs, Reached c fates arrival kv.key)) ∧
    ∀ (order : EntryOrder UInt32 (Finset Str)) (sets : IterationOrder Str) (keys : List Str),
      (ListPromise c fates arrival sets stores keys
          (handleList fates order sets (fun h => c.node (stores h) h) arrival keys) ↔
        ∀ key ∈ keys, Reached c fates arrival key) := by
  constructor
  · intro order kvs schedule hs
    exact batchPromise_iff order ha kvs hs
  · intro order sets keys
    exact listPromise_iff order sets ha keys

def eachOne (h : ℕ) : Storage :=
  if h = 1 then Storage.new.insertKv [97] [98] else Storage.new.insertKv [98] [99]

/-- A list of the keys of both nodes, one of them by an RPC that is served. -/
theorem multiKey_promises_served : ListPromise twoNodes (fun _ => .served) 0
    (IterationOrder.choice Str) eachOne [[97], [98]]
    (handleList (fun _ => .served) (.ascending _ _) (IterationOrder.choice Str)
      (fun h => twoNodes.node (eachOne h) h) 0 [[97], [98]]) := by
  have hreached : ∀ key ∈ [([97] : Str), [98]], Reached twoNodes (fun _ => .served) 0 key :=
    fun key _ => .inr rfl
  exact ((multiKey_promises_iff twoNodes (fun _ => .served) eachOne (by decide)).2
    (.ascending _ _) (IterationOrder.choice Str) [[97], [98]]).mpr hreached

def unreachable : UInt32 → Fate := fun _ => .failed .rpc 0

/-- The pair and the key are lost with the RPC to the second node, and the answers are 200
and 404. -/
theorem multiKey_promises_broken :
    (handleBatch unreachable (.ascending _ _) (fun h => twoNodes.node Storage.new h) 0
      [⟨[97], [98]⟩]
      (batchParts (.ascending _ _) (twoNodes.node Storage.new 0) [⟨[97], [98]⟩])).2.status = .ok ∧
    ¬ BatchPromise twoNodes unreachable 0 (fun _ => Storage.new) [⟨[97], [98]⟩]
      (handleBatch unreachable (.ascending _ _) (fun h => twoNodes.node Storage.new h) 0
        [⟨[97], [98]⟩]
        (batchParts (.ascending _ _) (twoNodes.node Storage.new 0) [⟨[97], [98]⟩])) ∧
    ¬ ListPromise twoNodes unreachable 0 (IterationOrder.choice Str)
      (fun _ => Storage.new.insertKv [97] [98]) [[97]]
      (handleList unreachable (.ascending _ _) (IterationOrder.choice Str)
        (fun h => twoNodes.node (Storage.new.insertKv [97] [98]) h) 0 [[97]]) := by
  have hlost : ¬ Reached twoNodes unreachable 0 [97] := by
    rintro (hhere | hserved)
    · rw [owner_a] at hhere
      simp at hhere
    · simp [unreachable] at hserved
  refine ⟨?_, ?_, ?_⟩
  · rw [handleBatch, awaitBatch_eq]
    rfl
  · intro hpromise
    have hiff :=
      @batchPromise_iff ℕ _ twoNodes unreachable (fun _ => Storage.new) 0
        (.ascending _ _) (by decide)
      [⟨[97], [98]⟩] _ (List.Perm.refl _)
    exact hlost (hiff.mp hpromise ⟨[97], [98]⟩ (by simp))
  · intro hpromise
    have hiff :=
      @listPromise_iff ℕ _ twoNodes unreachable (fun _ => Storage.new.insertKv [97] [98]) 0
        (.ascending _ _)
      (IterationOrder.choice Str) (by decide) [[97]]
    exact hlost (hiff.mp hpromise [97] (by simp))

end HCache.RustMultiKeyOutcomes
