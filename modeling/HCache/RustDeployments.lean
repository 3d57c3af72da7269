import HCache.RustClusterStores
import HCache.RustHttpHandler
import HCache.RustMultiKeyOutcomes
import HCache.RustSortedSets

/-!
# Requests to a deployment

A configured cluster, or one server without a configuration. Every key has a home that
executes the requests on it wherever they arrive, and a batch writes each of its pairs there.
What is held under a key stays while requests on other keys are performed.
-/
namespace HCache.RustDeployments
open Std OrderedMaps SequentialMachines RustStorage RustSortedSets RustRouting RustClusterNodes
  RustClusterStores RustMultiKeyRequests RustMultiKeyOutcomes RustHttpHandler

inductive Deployment (Host : Type) where
  | cluster (c : HostList Host)
  | alone (host : Host)

variable {Host : Type}

def Deployment.hosts : Deployment Host → List Host
  | .cluster c => c.hosts
  | .alone host => [host]

def Deployment.home (d : Deployment Host) (key : Str) : Host :=
  match d with
  | .cluster c => c.owner (strStream key)
  | .alone host => host

section Nodes
variable [DecidableEq Host]

def Deployment.nodes (d : Deployment Host) (stores : Host → Storage) : Host → Node Host :=
  match d with
  | .cluster c => fun h => c.node (stores h) h
  | .alone _ => fun h => Node.single (stores h)

@[simp] theorem Deployment.nodes_storage (d : Deployment Host) (stores : Host → Storage)
    (h : Host) :
    (d.nodes stores h).storage = stores h := by
  cases d <;> rfl

theorem Deployment.update_nodes (d : Deployment Host) (stores : Host → Storage) (h : Host)
    (s : Storage) :
    Function.update (d.nodes stores) h { d.nodes stores h with storage := s } =
      d.nodes (Function.update stores h s) := by
  cases d with
  | cluster c => exact c.update_node stores h s
  | alone host =>
    funext h'
    rcases eq_or_ne h' h with rfl | hne
    · simp only [Function.update_self, Deployment.nodes]
      rfl
    · simp only [Function.update_of_ne hne, Deployment.nodes]

end Nodes

def stores (w : World Host) (h : Host) : Storage := (w.nodes h).storage

def held (d : Deployment Host) (w : World Host) (key : Str) : Option Str × Option ZSet :=
  inMemory (stores w (d.home key)) key

/-- The servers are those of the deployment, and both indexes of each sorted set agree. -/
structure Serving [DecidableEq Host] (d : Deployment Host) (w : World Host) : Prop where
  nodes_eq : w.nodes = d.nodes (stores w)
  consistent : ∀ h, AllConsistent (stores w h)

/-- The actions that write nothing under `key` and leave the configuration of the servers. -/
def Spares (key : Str) : Action → Prop
  | .keyed (.query _) | .keyed (.zrange _ _) => True
  | .keyed req => req.key ≠ key
  | .batch kvs => ∀ kv ∈ kvs, kv.key ≠ key
  | .init => False
  | .list _ | .updateCluster _ | .reply _ => True

variable [DecidableEq Host] {d : Deployment Host} {arrival : Host}

theorem Deployment.request_eq_execute (d : Deployment Host) (order : IterationOrder Str)
    (stores : Host → Storage) (ha : arrival ∈ d.hosts) (req : Request) {s : Storage}
    {response : Response} (he : execute order (stores (d.home req.key)) req = .ok (s, response)) :
    request order (d.nodes stores) arrival req =
      .ok (d.nodes (Function.update stores (d.home req.key) s), response) := by
  cases d with
  | cluster c => exact c.request_eq_execute order stores ha req he
  | alone host =>
    obtain rfl := List.mem_singleton.mp ha
    have hexecute : execute order ((Deployment.alone arrival).nodes stores arrival).storage req =
      .ok (s, response) := he
    rw [request_unconfigured rfl rfl, hexecute]
    exact congrArg (fun nodes => Except.ok (nodes, response))
      ((Deployment.alone arrival).update_nodes stores arrival s)

theorem Deployment.request_error {order : IterationOrder Str} {stores : Host → Storage}
    (ha : arrival ∈ d.hosts) {req : Request} {reason : Panic}
    (he : execute order (stores (d.home req.key)) req = .error reason) {nodes : Host → Node Host}
    {response : Response} (h : request order (d.nodes stores) arrival req = .ok (nodes, response)) :
    nodes = d.nodes stores := by
  cases d with
  | cluster c =>
    have hme := c.shard_eq_me_iff (stores arrival) ha (strStream req.key)
    rcases eq_or_ne (c.owner (strStream req.key)) arrival with ho | ho
    · simp only [Deployment.home, ho] at he
      have hpanic : handle order (c.node (stores arrival) arrival) req = .panic reason :=
        handle_here_panic (hme.mpr ho) he
      simp [request, Deployment.nodes, hpanic] at h
    · have hserve := serveRpc_resume order (stores (c.owner (strStream req.key))) req
      simp only [Deployment.home] at he
      rw [he] at hserve
      cases hr : serveRpc order (stores (c.owner (strStream req.key))) (rpcOf req) with
      | ok p => simp [hr, Except.map] at hserve
      | error reason' =>
        simp only [request, Deployment.nodes, handle_elsewhere (fun h => ho (hme.mp h)),
          Node.shardOf, c.getClient_shard, c.node_storage, bind, Except.bind, hr, Except.ok.injEq,
          Prod.mk.injEq] at h
        exact h.1.symm
  | alone host =>
    obtain rfl := List.mem_singleton.mp ha
    have hexecute : execute order ((Deployment.alone arrival).nodes stores arrival).storage req =
      .error reason := he
    rw [request_unconfigured rfl rfl, hexecute] at h
    simp [Except.map] at h

omit [DecidableEq Host] in
theorem execute_consistent {order : IterationOrder Str} {s s' : Storage} {req : Request}
    {response : Response} (hs : AllConsistent s) (h : execute order s req = .ok (s', response)) :
    AllConsistent s' := by
  cases req with
  | zrange key dto => exact execute_zrange_storage h ▸ hs
  | query key =>
    simp only [execute, Except.ok.injEq, Prod.mk.injEq] at h
    exact h.1 ▸ hs
  | del key =>
    simp only [execute, Except.ok.injEq, Prod.mk.injEq] at h
    exact h.1 ▸ allConsistent_apply hs (.del key)
  | add kv =>
    simp only [execute, Except.ok.injEq, Prod.mk.injEq] at h
    exact h.1 ▸ allConsistent_apply hs (.insertKv kv.key kv.value)
  | zadd key dto =>
    simp only [execute, Except.ok.injEq, Prod.mk.injEq] at h
    exact h.1 ▸ allConsistent_apply hs (.zadd key dto)
  | zrmv key value =>
    simp only [execute, Except.ok.injEq, Prod.mk.injEq] at h
    exact h.1 ▸ allConsistent_apply hs (.zrmv key value)

/-- What an executor leaves on a host for its part of a batch. -/
def WrittenBy (s : Storage) (own : List InsrtRequest) (s' : Storage) : Prop :=
  s' = s.batchInsertKv own ∨ s' = serveBatch s own

theorem Deployment.handleBatch_written (d : Deployment Host)
    (order : EntryOrder UInt32 (List InsrtRequest)) (stores : Host → Storage)
    (ha : arrival ∈ d.hosts) (kvs : List InsrtRequest) {parts : List Part}
    (hp : parts.Perm (batchParts order (d.nodes stores arrival) kvs)) :
    ∃ stores', (handleBatch (fun _ => .served) order (d.nodes stores) arrival kvs parts).1 =
      d.nodes stores' ∧
      ∀ h, WrittenBy (stores h) (kvs.filter (fun kv => d.home kv.key = h)) (stores' h) := by
  cases d with
  | cluster c =>
    refine ⟨batchStores c (fun _ => .served) stores arrival kvs, handleBatch_stores ha hp, ?_⟩
    intro h
    rw [batchStores]
    split
    · exact .inl rfl
    · exact .inr rfl
  | alone host =>
    obtain rfl := List.mem_singleton.mp ha
    rw [Deployment.nodes, batchParts_single, List.perm_singleton] at hp
    subst hp
    refine ⟨Function.update stores arrival ((stores arrival).batchInsertKv kvs),
      (Deployment.alone arrival).update_nodes stores arrival _, ?_⟩
    intro h
    rcases eq_or_ne h arrival with rfl | hne
    · simp [WrittenBy, Deployment.home]
    · have hnone : kvs.filter (fun kv => (Deployment.alone arrival).home kv.key = h) = [] := by
        simp [Deployment.home, Ne.symm hne]
      rw [Function.update_of_ne hne, hnone]
      exact .inl rfl

omit [DecidableEq Host]

theorem WrittenBy.consistent {s s' : Storage} {own : List InsrtRequest} (h : WrittenBy s own s')
    (hs : AllConsistent s) : AllConsistent s' := by
  rcases h with rfl | rfl
  · exact allConsistent_apply hs (.batchInsertKv own)
  · exact foldl_invariant AllConsistent
      (fun s kv hs => allConsistent_apply hs (.insertKv kv.key kv.value)) hs own

theorem WrittenBy.kv {s s' : Storage} {own : List InsrtRequest} (h : WrittenBy s own s') :
    s'.kv = insertAll s.kv (own.map InsrtRequest.entry) := by
  rcases h with rfl | rfl
  · rfl
  · rw [serveBatch_eq]
    rfl

theorem WrittenBy.inMemory {s s' : Storage} {own : List InsrtRequest} (h : WrittenBy s own s')
    {key : Str} (hk : ∀ kv ∈ own, kv.key ≠ key) : inMemory s' key = inMemory s key := by
  have hkv : s'.kv[key]? = s.kv[key]? := by
    rw [h.kv]
    apply getElem?_insertAll_of_notMem
    intro e he
    obtain ⟨kv, hin, rfl⟩ := List.mem_map.mp he
    exact hk kv hin
  have hz : s'.zsets[key]? = s.zsets[key]? := by
    rcases h with rfl | rfl
    · rfl
    · have hnot : key ∉ own.map InsrtRequest.key := by
        intro hin
        obtain ⟨kv, hkv, he⟩ := List.mem_map.mp hin
        exact hk kv hkv he
      rw [serveBatch_eq]
      simp only [lookup_eraseAll, if_neg hnot]
  rw [RustClusterStores.inMemory, RustClusterStores.inMemory, hkv, hz]

/-- The home of a key has the last value that the batch has for it. -/
theorem WrittenBy.getKv {s s' : Storage} {d : Deployment Host} {kvs : List InsrtRequest} {key : Str}
    [DecidableEq Host] (h : WrittenBy s (kvs.filter (fun kv => d.home kv.key = d.home key)) s') :
    s'.getKv key = (valuesOf (kvs.map InsrtRequest.entry) key).getLast?.or (s.getKv key) := by
  have hvalues :
      valuesOf ((kvs.filter (fun kv => d.home kv.key = d.home key)).map InsrtRequest.entry) key =
      valuesOf (kvs.map InsrtRequest.entry) key := by
    have hfilter := valuesOf_filter (p := fun e : Str × Str => d.home e.1 = d.home key) (k := key)
      (l := kvs.map InsrtRequest.entry) (fun e _ he => by simp [he])
    rwa [List.filter_map] at hfilter
  rw [Storage.getKv, h.kv, lookup_insertAll, hvalues, Storage.getKv]

variable [DecidableEq Host] {d : Deployment Host} {env : Env Host} {w w' : World Host}
  {arrival : Host}

theorem stores_of_nodes {storages : Host → Storage} (h : w.nodes = d.nodes storages) :
    stores w = storages := by
  funext host
  rw [stores, h, d.nodes_storage]

theorem serving_of_nodes {storages : Host → Storage} (h : w.nodes = d.nodes storages)
    (hc : ∀ host, AllConsistent (storages host)) : Serving d w := by
  have hstores := stores_of_nodes h
  exact ⟨by rw [hstores, h], by rwa [hstores]⟩

theorem Serving.of_nodes_eq (hs : Serving d w) (h : w'.nodes = w.nodes) : Serving d w' :=
  serving_of_nodes (h.trans hs.nodes_eq) hs.consistent

theorem held_of_nodes {storages : Host → Storage} (h : w.nodes = d.nodes storages) (key : Str) :
    held d w key = inMemory (storages (d.home key)) key := by
  rw [held, stores_of_nodes h]

theorem perform_keyed (env : Env Host) (hs : Serving d w) (ha : arrival ∈ d.hosts) {req : Request}
    {s : Storage} {response : Response}
    (he : execute env.sets (stores w (d.home req.key)) req = .ok (s, response)) :
    perform env w arrival (.keyed req) =
      .ok (⟨d.nodes (Function.update (stores w) (d.home req.key) s), w.processes⟩,
        .one response) := by
  have hrequest := d.request_eq_execute env.sets (stores w) ha req he
  rw [← hs.nodes_eq] at hrequest
  rw [perform, hrequest]

private theorem perform_keyed_cases (hs : Serving d w) (ha : arrival ∈ d.hosts) {req : Request}
    {answer : HttpResponse} (h : perform env w arrival (.keyed req) = .ok (w', answer)) :
    (w'.nodes = w.nodes) ∨ ∃ s response, execute env.sets (stores w (d.home req.key)) req =
      .ok (s, response) ∧
      w'.nodes = d.nodes (Function.update (stores w) (d.home req.key) s) := by
  cases he : execute env.sets (stores w (d.home req.key)) req with
  | ok p =>
    rw [perform_keyed env hs ha he] at h
    simp only [Except.ok.injEq, Prod.mk.injEq] at h
    exact .inr ⟨p.1, p.2, rfl, by rw [← h.1]⟩
  | error reason =>
    simp only [perform] at h
    cases hr : request env.sets w.nodes arrival req with
    | error reason' => simp [hr] at h
    | ok p =>
      simp only [hr, Except.ok.injEq, Prod.mk.injEq] at h
      have hnodes := hs.nodes_eq
      rw [hnodes] at hr
      have hsame := Deployment.request_error ha he hr
      exact .inl (by rw [← h.1, hnodes]; exact hsame)

/-- A batch is performed at the homes of its keys, and answered with success. -/
theorem perform_batch (env : Env Host) (hs : Serving d w) (ha : arrival ∈ d.hosts)
    (kvs : List InsrtRequest) :
    ∃ storages, perform env w arrival (.batch kvs) =
      .ok (⟨d.nodes storages, w.processes⟩, .many .done) ∧
      ∀ host, WrittenBy (stores w host) (kvs.filter (fun kv => d.home kv.key = host))
        (storages host) := by
  have hparts := env.schedule_perm (batchParts env.batches (d.nodes (stores w) arrival) kvs)
  obtain ⟨storages, hnodes, hwritten⟩ := d.handleBatch_written env.batches (stores w) ha kvs hparts
  refine ⟨storages, ?_, hwritten⟩
  have hbatch : handleBatch (fun _ => .served) env.batches (d.nodes (stores w)) arrival kvs
      (env.schedule (batchParts env.batches (d.nodes (stores w) arrival) kvs)) =
        (d.nodes storages, .done) :=
    Prod.ext hnodes (awaitBatch_eq _)
  rw [← hs.nodes_eq] at hbatch
  simp only [perform, hbatch]

private theorem execute_spares {order : IterationOrder Str} {s s' : Storage} {req : Request}
    {response : Response} (h : execute order s req = .ok (s', response)) {key : Str}
    (hk : Spares key (.keyed req)) :
    inMemory s' key = inMemory s key := by
  cases req with
  | query k =>
    simp only [execute, Except.ok.injEq, Prod.mk.injEq] at h
    rw [h.1]
  | zrange k dto => rw [execute_zrange_storage h]
  | _ => exact execute_other h (Ne.symm hk)

/-- The step: no action but a reload of the peers takes a server out of the deployment, and what
an action spares is held as before. -/
theorem serving_perform (hs : Serving d w) (ha : arrival ∈ d.hosts) {action : Action}
    (hi : action ≠ .init) {answer : HttpResponse}
    (h : perform env w arrival action = .ok (w', answer)) :
    Serving d w' ∧ ∀ key, Spares key action → held d w' key = held d w key := by
  have hsame : w'.nodes = w.nodes → Serving d w' ∧ ∀ key, Spares key action →
      held d w' key = held d w key := by
    intro hnodes
    refine ⟨hs.of_nodes_eq hnodes, ?_⟩
    intro key _
    rw [held_of_nodes (hnodes.trans hs.nodes_eq), held]
  cases action with
  | keyed req =>
    rcases perform_keyed_cases hs ha h with hnodes | ⟨s, response, he, hnodes⟩
    · exact hsame hnodes
    · refine ⟨serving_of_nodes hnodes ?_, ?_⟩
      · intro host
        rcases eq_or_ne host (d.home req.key) with rfl | hne
        · rw [Function.update_self]
          exact execute_consistent (hs.consistent _) he
        · rw [Function.update_of_ne hne]
          exact hs.consistent host
      · intro key hk
        rw [held_of_nodes hnodes, held]
        rcases eq_or_ne (d.home key) (d.home req.key) with ho | ho
        · rw [ho, Function.update_self]
          exact execute_spares he hk
        · rw [Function.update_of_ne ho]
  | batch kvs =>
    obtain ⟨storages, hperform, hwritten⟩ := perform_batch env hs ha kvs
    rw [hperform] at h
    simp only [Except.ok.injEq, Prod.mk.injEq] at h
    have hnodes : w'.nodes = d.nodes storages := by rw [← h.1]
    refine ⟨serving_of_nodes hnodes (fun host => (hwritten host).consistent (hs.consistent host)),
      ?_⟩
    intro key hk
    rw [held_of_nodes hnodes, held]
    exact (hwritten _).inMemory (fun kv hkv => hk kv (List.mem_filter.mp hkv).1)
  | list keys =>
    simp only [perform, Except.ok.injEq, Prod.mk.injEq] at h
    exact hsame (by rw [h.1])
  | init => exact absurd rfl hi
  | updateCluster data => exact hsame (perform_updateCluster h).1
  | reply response =>
    simp only [perform, Except.ok.injEq, Prod.mk.injEq] at h
    exact hsame (by rw [h.1])

/-- Requests that are answered one after another and spare a key. -/
inductive Meanwhile (env : Env Host) (d : Deployment Host) (key : Str) (w : World Host) :
    World Host → Prop
  | refl : Meanwhile env d key w w
  | step {w' w'' : World Host} {arrival : Host} {req : HttpRequest} {action : Action}
      {answer : HttpResponse} :
    Meanwhile env d key w w' → arrival ∈ d.hosts → readRequest env.serde req = .ok action →
    Spares key action →
    hyperHandler env w' arrival req = .ok (w'', answer) → Meanwhile env d key w w''

theorem hyperHandler_of_read {req : HttpRequest} {action : Action}
    (h : readRequest env.serde req = .ok action) :
    hyperHandler env w arrival req = perform env w arrival action := by
  rw [hyperHandler, h]
  rfl

/-- What is held under a key is held as long as it is spared. -/
theorem Meanwhile.held {key : Str} (h : Meanwhile env d key w w') (hs : Serving d w) :
    Serving d w' ∧ held d w' key = held d w key := by
  induction h with
  | refl => exact ⟨hs, rfl⟩
  | @step w₁ w₂ arrival req action answer hrun ha hread hk hh ih =>
    rw [hyperHandler_of_read hread] at hh
    have hi : action ≠ .init := by
      rintro rfl
      exact hk
    obtain ⟨hserving, hheld⟩ := serving_perform ih.1 ha hi hh
    exact ⟨hserving, (hheld key hk).trans ih.2⟩

end HCache.RustDeployments
