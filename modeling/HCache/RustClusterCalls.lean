import HCache.CompositeCalls
import HCache.RustClusterStores
import HCache.RustMultiKeyRequests
import Mathlib.Data.Finset.Dedup
import Mathlib.Data.Nat.Pairing

/-!
# All requests of a Rust cluster under way, with RPCs that fail

A handler splits its request into tasks: what it does itself and one RPC for each other shard
that is concerned. The executor of a task turns to one key after another, and the turns of all
tasks come in any order. The caller of an RPC may give up at any time, and its executor may
still do the rest then, or nothing. No request is sent twice. A turn is performed at once here;
`RustTurnSteps` has the steps that it takes.
-/
namespace HCache.RustClusterCalls
open OrderedMaps KeyPartitions SequentialMachines InterleavedSystems CompositeCalls
open RustStorage RustRouting RustClusterNodes RustClusterSteps RustClusterStores
  RustMultiKeyRequests

variable {Host : Type}

/-- One turn: a whole request for one key in its handler or in the body of its RPC, one pass of
the loop of `batch_insert_kv_in_memory` or of the `batch` RPC, one key of a list. -/
inductive Turn where
  | handle (order : IterationOrder Str) (req : Request)
  | serve (order : IterationOrder Str) (req : Request)
  | insertInMemory (kv : InsrtRequest)
  | insert (kv : InsrtRequest)
  | get (key : Str)

def Turn.key : Turn → Str
  | .handle _ req | .serve _ req => req.key
  | .insertInMemory kv | .insert kv => kv.key
  | .get key => key

inductive Reply where
  | response (response : Response)
  | unit
  | found (kv : Option InsrtRequest)
  deriving DecidableEq, Repr

/-- A batch in memory writes its databases after its last turn; no request reads them. -/
def Turn.perform (s : Storage) : Turn → Storage × Reply
  | .handle order req =>
    match execute order s req with
    | .ok (s, response) => (s, .response response)
    | .error _ => (s, .response .internalServerError)
  | .serve order req =>
    match serveRpc order s (rpcOf req) with
    | .ok (s, reply) => (s, .response (resumeOf req (some reply)))
    | .error _ => (s, .response (resumeOf req none))
  | .insertInMemory kv => (s.insertKvInMemory kv.key kv.value, .unit)
  | .insert kv => (s.insertKv kv.key kv.value, .unit)
  | .get key => (s, .found ((s.getKv key).map (fun value => ⟨key, value⟩)))

structure HostTurn (Host : Type) where
  host : Host
  turn : Turn

inductive ClusterRequest where
  | one (req : Request)
  | batch (kvs : List InsrtRequest)
  | list (keys : List Str)

inductive ClusterResponse where
  | one (response : Response)
  | many (response : MultiResponse)
  deriving DecidableEq, Repr

/-- A request at the node it has arrived on, and the orders in which hash sets and maps are
iterated for it. -/
structure Arrival (Host : Type) where
  host : Host
  req : ClusterRequest
  sets : IterationOrder Str
  batches : EntryOrder UInt32 (List InsrtRequest)
  lists : EntryOrder UInt32 (Finset Str)

/-- What the handler does itself, and what it asks of a shard. -/
structure Task where
  shard : Option UInt32
  turns : List Turn

def Task.place (n : Node Host) (arrival : Host) (t : Task) : Except Panic Host :=
  match t.shard with
  | none => .ok arrival
  | some shard => getClient n shard

def tasksOf (n : Node Host) (a : Arrival Host) : List Task :=
  match a.req with
  | .one req =>
    if n.shardOf req.key = n.me then [⟨none, [.handle a.sets req]⟩]
    else [⟨some (n.shardOf req.key), [.serve a.sets req]⟩]
  | .batch kvs =>
    let sharded := shardBatch n kvs
    ⟨none, (ownPart n [] sharded).map .insertInMemory⟩ ::
      (spawned a.batches n sharded).map (fun part => ⟨some part.1, part.2.map .insert⟩)
  | .list keys =>
    let sharded := shardKeys n keys
    ⟨none, (a.sets.list (ownPart n ∅ sharded)).map .get⟩ ::
      (spawned a.lists n sharded).map (fun part => ⟨some part.1, (a.sets.list part.2).map .get⟩)

/-- What the handler has got from a task: the replies to its turns, or an error. -/
abbrev Outcome := Except TaskError (List Reply)

def foundIn : Outcome → List InsrtRequest
  | .ok replies => replies.filterMap (fun reply => match reply with
    | .found kv => kv
    | _ => none)
  | .error _ => []

/-- What the handler makes of the outcomes. A batch looks at none of them, and a list passes
over errors. -/
def ClusterRequest.respond (outcomes : List Outcome) : ClusterRequest → ClusterResponse
  | .one _ =>
    match outcomes with
    | [.ok [.response response]] => .one response
    | _ => .one .internalServerError
  | .batch _ => .many .done
  | .list _ =>
    let result := outcomes.flatMap foundIn
    .many (if result = [] then .notFound else ⟨.ok, .kvs result⟩)

/-- The number under which the turns of a task are performed. -/
def taskId (id i : ℕ) : ℕ := Nat.pair id i

structure Net (Host : Type) where
  service : Service (Host → Node Host) (HostTurn Host) Reply
  requests : ℕ → Option (Arrival Host)
  outcomes : ℕ × ℕ → Option Outcome
  responses : ℕ → Option ClusterResponse

inductive Event (Host : Type) where
  | arrive (id : ℕ) (a : Arrival Host)
  | start (id i : ℕ)
  | perform (id i j : ℕ)
  | finish (id i : ℕ)
  | fail (id i : ℕ) (error : TaskError)
  | respond (id : ℕ)

def Event.Allowed (c : HostList Host) : Event Host → Prop
  | .arrive _ a => a.host ∈ c.hosts ∧ ∀ req, a.req = .one req → req.Valid
  | _ => True

section Steps
variable [DecidableEq Host]

def performAt (nodes : Host → Node Host) (t : HostTurn Host) : (Host → Node Host) × Reply :=
  let (s, reply) := t.turn.perform (nodes t.host).storage
  (Function.update nodes t.host { nodes t.host with storage := s }, reply)

/-- All nodes have finished `update_peers`; no request has arrived. -/
def Net.start (c : HostList Host) (stores : Host → Storage) : Net Host :=
  ⟨.start (fun h => c.node (stores h) h), fun _ => none, fun _ => none, fun _ => none⟩

/-- The tasks of a request, split by the node that it has arrived on. -/
def Net.tasks (net : Net Host) (a : Arrival Host) : List Task :=
  tasksOf (net.service.state a.host) a

def Net.arrive (net : Net Host) (id : ℕ) (a : Arrival Host) : Net Host :=
  { net with requests := Function.update net.requests id (some a) }

def Net.settle (net : Net Host) (id i : ℕ) (outcome : Outcome) : Net Host :=
  { net with outcomes := Function.update net.outcomes (id, i) (some outcome) }

def Net.respond (net : Net Host) (id : ℕ) (response : ClusterResponse) : Net Host :=
  { net with responses := Function.update net.responses id (some response) }

/-- The replies to the turns of a task, as far as there are any. -/
def Net.repliesOf (net : Net Host) (id i count : ℕ) : List Reply :=
  (List.range count).filterMap (fun j => net.service.replies (taskId id i, j))

def Net.outcomesOf (net : Net Host) (id count : ℕ) : List Outcome :=
  (List.range count).filterMap (fun i => net.outcomes (id, i))

/-- A task is started once and its turns are performed in their order, on the host of its
shard. It ends once for its caller: with all replies, or, where an RPC is waited for, with an
error. -/
def step (net : Net Host) : Event Host → Option (Net Host)
  | .arrive id a => if net.requests id = none then some (net.arrive id a) else none
  | .start id i =>
    match net.requests id with
    | none => none
    | some a =>
      match (net.tasks a)[i]? with
      | none => none
      | some task =>
        match task.place (net.service.state a.host) a.host with
        | .error _ => none
        | .ok host =>
          (CompositeCalls.step performAt (fun _ => ()) net.service
            (.call (taskId id i) (task.turns.map (fun turn => ⟨host, turn⟩)))).map
              (fun service => { net with service := service })
  | .perform id i j =>
    (CompositeCalls.step performAt (fun _ => ()) net.service (.perform (taskId id i) j)).map
      (fun service => { net with service := service })
  | .finish id i =>
    match net.service.calls (taskId id i) with
    | none => none
    | some turns =>
      if (net.outcomes (id, i)).isNone ∧
        ∀ j < turns.length, (net.service.replies (taskId id i, j)).isSome then
        some (net.settle id i (.ok (net.repliesOf id i turns.length)))
      else none
  | .fail id i error =>
    match net.requests id with
    | none => none
    | some a =>
      match (net.tasks a)[i]? with
      | none => none
      | some task =>
        if (net.outcomes (id, i)).isNone ∧ task.shard.isSome then
          some (net.settle id i (.error error)) else none
  | .respond id =>
    match net.requests id with
    | none => none
    | some a =>
      if (net.responses id).isNone ∧ ∀ i < (net.tasks a).length, (net.outcomes (id, i)).isSome then
        some (net.respond id (a.req.respond (net.outcomesOf id (net.tasks a).length)))
      else none

/-- What one event does. -/
theorem step_cases {net net' : Net Host} {event : Event Host} (h : step net event = some net') :
    (∃ id a, event = .arrive id a ∧ net.requests id = none ∧ net' = net.arrive id a) ∨
    (∃ e service, CompositeCalls.step performAt (fun _ => ()) net.service e = some service ∧
      net' = { net with service := service } ∧
      ((∃ id i j, event = .perform id i j ∧ e = .perform (taskId id i) j) ∨ ∃ id i a task host,
        event = .start id i ∧ net.requests id = some a ∧
        (net.tasks a)[i]? = some task ∧ task.place (net.service.state a.host) a.host = .ok host ∧
        e = .call (taskId id i) (task.turns.map (fun turn => ⟨host, turn⟩)))) ∨
    (∃ id i turns, event = .finish id i ∧ net.service.calls (taskId id i) = some turns ∧
      net.outcomes (id, i) = none ∧
      (∀ j < turns.length, (net.service.replies (taskId id i, j)).isSome) ∧
      net' = net.settle id i (.ok (net.repliesOf id i turns.length))) ∨
    (∃ id i error a task, event = .fail id i error ∧ net.requests id = some a ∧
      (net.tasks a)[i]? = some task ∧
      net.outcomes (id, i) = none ∧ task.shard.isSome ∧ net' = net.settle id i (.error error)) ∨
    ∃ id a, event = .respond id ∧ net.requests id = some a ∧ net.responses id = none ∧
      (∀ i < (net.tasks a).length, (net.outcomes (id, i)).isSome) ∧
      net' = net.respond id (a.req.respond (net.outcomesOf id (net.tasks a).length)) := by
  cases event with
  | arrive id a =>
    simp only [step] at h
    split at h
    · next hnew => exact .inl ⟨id, a, rfl, hnew, (Option.some.inj h).symm⟩
    · simp at h
  | start id i =>
    simp only [step] at h
    split at h
    · simp at h
    · next a ha =>
      split at h
      · simp at h
      · next task htask =>
        split at h
        · simp at h
        · next host hplace =>
          obtain ⟨service, hservice, rfl⟩ := Option.map_eq_some_iff.mp h
          exact .inr (.inl ⟨_, service, hservice, rfl,
            .inr ⟨id, i, a, task, host, rfl, ha, htask, hplace, rfl⟩⟩)
  | perform id i j =>
    obtain ⟨service, hservice, rfl⟩ := Option.map_eq_some_iff.mp h
    exact .inr (.inl ⟨_, service, hservice, rfl, .inl ⟨id, i, j, rfl, rfl⟩⟩)
  | finish id i =>
    simp only [step] at h
    split at h
    · simp at h
    · next turns hturns =>
      split at h
      · next hready =>
        exact .inr (.inr (.inl ⟨id, i, turns, rfl, hturns, Option.isNone_iff_eq_none.mp hready.1,
          hready.2, (Option.some.inj h).symm⟩))
      · simp at h
  | fail id i error =>
    simp only [step] at h
    split at h
    · simp at h
    · next a ha =>
      split at h
      · simp at h
      · next task htask =>
        split at h
        · next hready =>
          exact .inr (.inr (.inr (.inl ⟨id, i, error, a, task, rfl, ha, htask,
            Option.isNone_iff_eq_none.mp hready.1, hready.2, (Option.some.inj h).symm⟩)))
        · simp at h
  | respond id =>
    simp only [step] at h
    split at h
    · simp at h
    · next a ha =>
      split at h
      · next hready =>
        exact .inr (.inr (.inr (.inr ⟨id, a, rfl, ha, Option.isNone_iff_eq_none.mp hready.1,
          hready.2, (Option.some.inj h).symm⟩)))
      · simp at h

end Steps

/-- The body of an RPC does what the handler of its owner does. -/
theorem perform_serve (s : Storage) (order : IterationOrder Str) (req : Request) :
    Turn.perform s (.serve order req) = Turn.perform s (.handle order req) := by
  have hresume := serveRpc_resume order s req
  have hnone : resumeOf req none = .internalServerError := by cases req <;> rfl
  simp only [Turn.perform]
  cases hserve : serveRpc order s (rpcOf req) with
  | ok p =>
    rw [hserve] at hresume
    simp only [Except.map] at hresume
    rw [← hresume]
  | error reason =>
    rw [hserve] at hresume
    simp only [Except.map] at hresume
    rw [← hresume, hnone]

theorem perform_handle (s : Storage) (order : IterationOrder Str) (req : Request) :
    Turn.perform s (.handle order req) =
      ((serveAlone s (⟨0, (), req, order⟩ : Execution Unit)).1,
        .response (serveAlone s (⟨0, (), req, order⟩ : Execution Unit)).2) := by
  rw [serveAlone_eq, Turn.perform]
  cases execute order s req <;> rfl

def performAlone (s : Storage) (t : HostTurn Host) : Storage × Reply := t.turn.perform s

private theorem keyLocal_performAlone :
    KeyLocal inMemory (fun t : HostTurn Host => t.turn.key) (performAlone : Storage →
      HostTurn Host → Storage × Reply) := by
  have halone : KeyLocal inMemory (fun e : Execution Unit => e.req.key) serveAlone :=
    keyLocal_serveAlone
  constructor
  · rintro s ⟨host, turn⟩ key hk
    cases turn with
    | handle order req =>
      rw [performAlone, perform_handle]
      exact halone.other s _ key hk
    | serve order req =>
      rw [performAlone, perform_serve, perform_handle]
      exact halone.other s _ key hk
    | insertInMemory kv =>
      have hne : kv.key ≠ key := Ne.symm hk
      simp [performAlone, Turn.perform, inMemory, Storage.insertKvInMemory, lookup_insert, hne]
    | insert kv =>
      have hne : kv.key ≠ key := Ne.symm hk
      simp [performAlone, Turn.perform, inMemory, lookup_insert, lookup_erase, hne]
    | get k => rfl
  · rintro s t ⟨host, turn⟩ h
    cases turn with
    | handle order req =>
      simp only [performAlone, perform_handle]
      exact halone.self s t _ h
    | serve order req =>
      simp only [performAlone, perform_serve, perform_handle]
      exact halone.self s t _ h
    | insertInMemory kv =>
      obtain ⟨-, hz⟩ := Prod.mk.inj h
      simp only [Turn.key] at hz
      simp [performAlone, Turn.perform, Turn.key, inMemory, Storage.insertKvInMemory, hz]
    | insert kv => simp [performAlone, Turn.perform, Turn.key, inMemory]
    | get k => exact h
  · rintro s t ⟨host, turn⟩ h
    cases turn with
    | handle order req =>
      simp only [performAlone, perform_handle]
      exact congrArg Reply.response (halone.response s t _ h)
    | serve order req =>
      simp only [performAlone, perform_serve, perform_handle]
      exact congrArg Reply.response (halone.response s t _ h)
    | insertInMemory kv => rfl
    | insert kv => rfl
    | get k =>
      obtain ⟨hkv, -⟩ := Prod.mk.inj h
      simp only [Turn.key] at hkv
      simp [performAlone, Turn.perform, Storage.getKv, hkv]

variable [DecidableEq Host] {c : HostList Host}

def storagesOf (nodes : Host → Node Host) (h : Host) : Storage := (nodes h).storage

private theorem storagesOf_performAt (nodes : Host → Node Host) (t : HostTurn Host) :
    storagesOf (performAt nodes t).1 =
      Function.update (storagesOf nodes) t.host (t.turn.perform (nodes t.host).storage).1 := by
  funext h
  simp only [storagesOf, performAt, Function.update_apply]
  split <;> rfl

theorem configured_performAt {nodes : Host → Node Host} (h : Configured c nodes)
    (t : HostTurn Host) :
    Configured c (performAt nodes t).1 := by
  intro host hh
  simp only [performAt]
  rcases eq_or_ne host t.host with rfl | hne
  · rw [Function.update_self, h _ hh]
    rfl
  · rw [Function.update_of_ne hne]
    exact h host hh

def AtOwner (c : HostList Host) (t : HostTurn Host) : Prop := keyOwner c t.turn.key = t.host

/-- The nodes together hold in memory what one storage holds, every key at its owner. -/
structure HeldBy (c : HostList Host) (nodes : Host → Node Host) (whole : Storage) : Prop where
  placed : PlacedAtOwners c (storagesOf nodes)
  covers : Covers inMemory (keyOwner c) (storagesOf nodes) whole

theorem simulates_performAt (c : HostList Host) :
    Simulates (performAt : (Host → Node Host) → HostTurn Host →
      (Host → Node Host) × Reply) performAlone
      (AtOwner c) (HeldBy c) Eq := by
  constructor
  · rintro nodes whole ⟨host, turn⟩ h (rfl : keyOwner c turn.key = host)
    have hstorages := storagesOf_performAt nodes ⟨keyOwner c turn.key, turn⟩
    constructor
    · intro host hh
      rw [hstorages]
      rcases eq_or_ne host (keyOwner c turn.key) with rfl | hne
      · rw [Function.update_self]
        exact Placed.run keyLocal_performAlone (⟨keyOwner c turn.key, turn⟩ : HostTurn Host)
          (h.placed _ hh)
      · rw [Function.update_of_ne hne]
        exact h.placed host hh
    · rw [hstorages]
      exact h.covers.run keyLocal_performAlone (⟨keyOwner c turn.key, turn⟩ : HostTurn Host)
  · rintro nodes whole ⟨host, turn⟩ h (rfl : keyOwner c turn.key = host)
    exact h.covers.response keyLocal_performAlone (⟨keyOwner c turn.key, turn⟩ : HostTurn Host)

/-- The tasks of a request that has arrived on a node of the cluster. -/
def tasksIn (c : HostList Host) (a : Arrival Host) : List Task :=
  tasksOf (c.node Storage.new a.host) a

theorem tasks_eq {net : Net Host} (h : Configured c net.service.state) {a : Arrival Host}
    (ha : a.host ∈ c.hosts) :
    net.tasks a = tasksIn c a := by
  rw [Net.tasks, h a.host ha]
  rfl

/-- The turns that a request needs on a host, which has their keys. -/
def turnsFor (c : HostList Host) (a : Arrival Host) (h : Host) : List Turn :=
  match a.req with
  | .one req =>
    if keyOwner c req.key = h then [if h = a.host then .handle a.sets req else .serve a.sets req]
    else []
  | .batch kvs =>
    (kvs.filter (fun kv => keyOwner c kv.key = h)).map
      (fun kv => if h = a.host then .insertInMemory kv else .insert kv)
  | .list keys => (a.sets.list (keys.toFinset.filter (fun key => keyOwner c key = h))).map .get

def shardFor (c : HostList Host) (a : Arrival Host) (h : Host) : Option UInt32 :=
  if h = a.host then none else some (shardNo c h)

theorem keyOwner_of_mem_turnsFor {a : Arrival Host} {h : Host} {turn : Turn}
    (ht : turn ∈ turnsFor c a h) :
    keyOwner c turn.key = h := by
  obtain ⟨host, req, sets, batches, lists⟩ := a
  cases req with
  | one req =>
    simp only [turnsFor] at ht
    split at ht
    · next howner =>
      obtain rfl := List.mem_singleton.mp ht
      split <;> exact howner
    · simp at ht
  | batch kvs =>
    obtain ⟨kv, hkv, rfl⟩ := List.mem_map.mp ht
    have howner : keyOwner c kv.key = h := by simpa using (List.mem_filter.mp hkv).2
    split <;> exact howner
  | list keys =>
    obtain ⟨key, hkey, rfl⟩ := List.mem_map.mp ht
    exact (Finset.mem_filter.mp ((IterationOrder.mem_list _ _ _).mp hkey)).2

theorem shardOf_me_iff {host : Host} (hhost : host ∈ c.hosts) (key : Str) :
    (c.node Storage.new host).shardOf key = (c.node Storage.new host).me ↔
    keyOwner c key = host := by
  rw [node_me_eq, shardOf_eq_iff c _ _ hhost]
  rfl

private theorem shardOf_shardOf_iff (host : Host) (key key' : Str) :
    (c.node Storage.new host).shardOf key' = (c.node Storage.new host).shardOf key ↔
    keyOwner c key' = keyOwner c key := by
  rw [shardOf_eq c _ _ key, shardOf_eq_iff c _ _ (c.owner_mem _)]
  rfl

theorem shardFor_of_ne {a : Arrival Host} {key : Str} (hne : keyOwner c key ≠ a.host) :
    some ((c.node Storage.new a.host).shardOf key) = shardFor c a (keyOwner c key) := by
  rw [shardFor, if_neg hne, shardOf_eq]
  rfl

/-- A task is the part of its request that one host has to do. -/
theorem mem_tasksIn {a : Arrival Host} (ha : a.host ∈ c.hosts) {task : Task}
    (htask : task ∈ tasksIn c a) :
    ∃ h ∈ c.hosts, task.shard = shardFor c a h ∧ task.turns = turnsFor c a h := by
  have hremote : ∀ {key : Str}, (c.node Storage.new a.host).shardOf key ≠
      (c.node Storage.new a.host).me →
      keyOwner c key ≠ a.host := fun hme he => hme ((shardOf_me_iff ha _).mpr he)
  obtain ⟨host, req, sets, batches, lists⟩ := a
  cases req with
  | one req =>
    simp only [tasksIn, tasksOf] at htask
    split at htask
    · next hme =>
      obtain rfl := List.mem_singleton.mp htask
      exact ⟨host, ha, by simp [shardFor], by simp [turnsFor, (shardOf_me_iff ha _).mp hme]⟩
    · next hme =>
      obtain rfl := List.mem_singleton.mp htask
      have hshard := shardFor_of_ne (a := ⟨host, .one req, sets, batches, lists⟩) (hremote hme)
      exact ⟨keyOwner c req.key, c.owner_mem _, hshard, by simp [turnsFor, hremote hme]⟩
  | batch kvs =>
    simp only [tasksIn, tasksOf, List.mem_cons, List.mem_map] at htask
    rcases htask with rfl | ⟨⟨shard, b⟩, hpart, rfl⟩
    · refine ⟨host, ha, by simp [shardFor], ?_⟩
      simp only [turnsFor, ownPart_shardBatch, shardOf_me_iff ha, if_true]
    · obtain ⟨rfl, ⟨kv, -, rfl⟩, hme⟩ := mem_spawned_batch.mp hpart
      have hshard := shardFor_of_ne (a := ⟨host, .batch kvs, sets, batches, lists⟩) (hremote hme)
      refine ⟨keyOwner c kv.key, c.owner_mem _, hshard, ?_⟩
      simp only [turnsFor, if_neg (hremote hme), shardOf_shardOf_iff]
  | list keys =>
    simp only [tasksIn, tasksOf, List.mem_cons, List.mem_map] at htask
    rcases htask with rfl | ⟨⟨shard, b⟩, hpart, rfl⟩
    · refine ⟨host, ha, by simp [shardFor], ?_⟩
      simp only [turnsFor]
      congr 2
      ext key
      rw [mem_ownPart_shardKeys, shardOf_me_iff ha, Finset.mem_filter, List.mem_toFinset]
    · obtain ⟨hmem, ⟨key, -, rfl⟩, hme⟩ := mem_spawned_keys hpart
      have hshard := shardFor_of_ne (a := ⟨host, .list keys, sets, batches, lists⟩) (hremote hme)
      refine ⟨keyOwner c key, c.owner_mem _, hshard, ?_⟩
      simp only [turnsFor]
      congr 2
      ext key'
      rw [hmem, shardOf_shardOf_iff, Finset.mem_filter, List.mem_toFinset]

private theorem place_of_shard {a : Arrival Host} {task : Task} {h : Host} (hh : h ∈ c.hosts)
    (hshard : task.shard = shardFor c a h) (s : Storage) :
    task.place (c.node s a.host) a.host = .ok h := by
  rw [Task.place, hshard]
  by_cases hhost : h = a.host
  · simp [shardFor, hhost]
  · simp only [shardFor, if_neg hhost]
    exact getClient_shardNo c _ _ hh

/-- A task is placed on the owner of all its keys. -/
theorem place_owner {a : Arrival Host} (ha : a.host ∈ c.hosts) {task : Task}
    (htask : task ∈ tasksIn c a) (s : Storage) :
    ∃ host, task.place (c.node s a.host) a.host = .ok host ∧
      ∀ turn ∈ task.turns, keyOwner c turn.key = host := by
  obtain ⟨h, hh, hshard, hturns⟩ := mem_tasksIn ha htask
  exact ⟨h, place_of_shard hh hshard s, fun turn hturn => keyOwner_of_mem_turnsFor (hturns ▸ hturn)⟩

end HCache.RustClusterCalls
