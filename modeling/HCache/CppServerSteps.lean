import HCache.CompositeCalls
import HCache.CppHttpHandlers

/-!
# The steps of the sharded C++ server

`hcache.cc` with any number of requests under way on any number of cores. A handler issues
its operations one after another: on the core it runs on an operation is done at once, to
any other core a message is sent. The messages from one core to another arrive in their
order; the results come back in any order, and when all are back the handler responds.
-/
namespace HCache.CppServerSteps
open Std OrderedMaps KeyPartitions InterleavedSystems CppSingleThreadStorage CppShardedStorage
  CppHttpHandlers

variable {smp : Smp} {hash : Fbstring → UInt32}

def keysOf : StorageOp → List Fbstring
  | .on key _ => [key]
  | .listKeys keys => keys

/-- An operation and the core that it is run on, which is that of all its keys. -/
structure CoreOp (smp : Smp) (hash : Fbstring → UInt32) where
  core : Fin smp.count
  op : StorageOp
  home : ∀ key ∈ keysOf op, ShardedStorage.getCpu smp hash key = core

/-- What a handler issues, in this order, and what it makes of the results. -/
structure Handler (smp : Smp) (hash : Fbstring → UInt32) where
  calls : List (CoreOp smp hash)
  respond : List Reply → Response

section Calls
variable (smp) (hash)

def callOn (key : Fbstring) (op : KeyOp) : CoreOp smp hash where
  core := ShardedStorage.getCpu smp hash key
  op := .on key op
  home := by simp [keysOf]

def getValueByKey (key : Fbstring) : CoreOp smp hash := callOn smp hash key .getValueByKey

def addKeyValue (key value : Fbstring) : CoreOp smp hash := callOn smp hash key (.addKeyValue value)

def delKey (key : Fbstring) : CoreOp smp hash := callOn smp hash key .delKey

/-- `keys_per_cpu`, and a call to every core. -/
def listKeys (keys : KeySet) : List (CoreOp smp hash) :=
  (List.finRange smp.count).map (fun core => {
    core := core
    op := .listKeys (bucketBy (ShardedStorage.getCpu smp hash) keys.keys core)
    home := fun _ hkey => ((mem_bucketBy _).mp hkey).2 })

def zsetAdd (key value : Fbstring) (score : UInt32) : CoreOp smp hash :=
  callOn smp hash key (.zsetAdd value score)

def zsetRmv (key value : Fbstring) : CoreOp smp hash := callOn smp hash key (.zsetRmv value)

def zsetZrange (key : Fbstring) (minScore maxScore : UInt32) : CoreOp smp hash :=
  callOn smp hash key (.zsetZrange minScore maxScore)

end Calls

section Handlers
variable (smp) (hash) (order : IterationOrder Fbstring)

def initHandler : Handler smp hash := ⟨[], fun _ => .initialized⟩

def queryHandler (key : Fbstring) : Handler smp hash where
  calls := [getValueByKey smp hash key]
  respond replies :=
    match replies with
    | [.value (some value)] => ⟨.ok, .text value⟩
    | _ => .notFound

def addHandler (kv : KeyValue) : Handler smp hash :=
  ⟨[addKeyValue smp hash kv.key kv.value], fun _ => .done⟩

/-- `parallel_for_each` -/
def batchHandler (kvs : List KeyValue) : Handler smp hash :=
  ⟨kvs.map (fun kv => addKeyValue smp hash kv.key kv.value), fun _ => .done⟩

def delHandler (key : Fbstring) : Handler smp hash := ⟨[delKey smp hash key], fun _ => .done⟩

/-- The lists of the cores are joined in the order of the futures. A text of at most two bytes
is that of the empty array. -/
def listHandler (keys : KeySet) : Handler smp hash where
  calls := listKeys smp hash keys
  respond replies :=
    let kvList := replies.flatMap keyValuesOf
    if kvList ≠ [] then ⟨.ok, .keyValues kvList⟩ else .notFound

def zaddHandler (key value : Fbstring) (score : UInt64) : Handler smp hash where
  calls := [zsetAdd smp hash key value score.toUInt32]
  respond replies := if replies = [.flag true] then .done else .badRequest

def zrangeHandler (key : Fbstring) (minScore maxScore : UInt64) : Handler smp hash where
  calls := [zsetZrange smp hash key minScore.toUInt32 maxScore.toUInt32]
  respond replies :=
    match replies with
    | [.groups (some scoreValues)] =>
      if scoreValues = [] then ⟨.ok, .scoreValues []⟩ else .ofScoreValues order scoreValues
    | _ => .notFound

def zrmvHandler (key value : Fbstring) : Handler smp hash :=
  ⟨[zsetRmv smp hash key value], fun _ => .done⟩

def handler : Request → Handler smp hash
  | .init => initHandler smp hash
  | .query key => queryHandler smp hash key
  | .add kv => addHandler smp hash kv
  | .batch kvs => batchHandler smp hash kvs
  | .del key => delHandler smp hash key
  | .list keys => listHandler smp hash keys
  | .zadd key value score => zaddHandler smp hash key value score
  | .zrange key minScore maxScore => zrangeHandler smp hash order key minScore maxScore
  | .zrmv key value => zrmvHandler smp hash key value

end Handlers

variable {order : IterationOrder Fbstring}

theorem respond_eq (req : Request) (replies : List Reply) :
    (handler smp hash order req).respond replies = req.response order .badRequest replies := by
  cases req with
  | zrange key minScore maxScore =>
    match replies with
    | [] => rfl
    | _ :: _ :: _ => simp [handler, zrangeHandler, Request.response]
    | [.unit] | [.value _] | [.keyValues _] | [.flag _] | [.groups none] => rfl
    | [.groups (some [])] => rfl
    | [.groups (some (_ :: _))] => rfl
  | _ => rfl

/-- All requests but the lists issue the operations that they stand for. -/
theorem operations_calls {req : Request} (h : ∀ keys, req ≠ .list keys) :
    (handler smp hash order req).calls.map CoreOp.op = req.operations := by
  cases req with
  | batch kvs => simp [handler, batchHandler, addKeyValue, callOn, Request.operations]
  | list keys => exact absurd rfl (h keys)
  | _ => rfl

structure Message where
  id : ℕ
  index : ℕ
  op : StorageOp

/-- For each request: the core it has arrived on, how many operations its handler has issued
and the response. For each operation: the result on its way back, and the result that is
back. -/
structure Server (smp : Smp) where
  peers : ShardedStorage smp
  requests : ℕ → Option (Fin smp.count × Request)
  issued : ℕ → ℕ
  messages : Fin smp.count × Fin smp.count → List Message
  returning : ℕ × ℕ → Option Reply
  replies : ℕ × ℕ → Option Reply
  responses : ℕ → Option Response

inductive Event (smp : Smp) where
  | arrive (id : ℕ) (origin : Fin smp.count) (req : Request)
  | issue (id : ℕ)
  | run (src dst : Fin smp.count)
  | resolve (id index : ℕ)
  | respond (id : ℕ)

namespace Server

def start (peers : ShardedStorage smp) : Server smp :=
  ⟨peers, fun _ => none, fun _ => 0, fun _ => [], fun _ => none, fun _ => none, fun _ => none⟩

variable (s : Server smp)

def arrive (id : ℕ) (origin : Fin smp.count) (req : Request) : Server smp :=
  { s with requests := Function.update s.requests id (some (origin, req)) }

/-- A ready future: the result is there when the operation is issued. -/
def callHere (id : ℕ) (core : Fin smp.count) (op : StorageOp) : Server smp :=
  let (peers, reply) := invokeOn s.peers core (fun t => t.exec op)
  { s with
    peers := peers
    issued := Function.update s.issued id (s.issued id + 1)
    replies := Function.update s.replies (id, s.issued id) (some reply) }

def callThere (id : ℕ) (src dst : Fin smp.count) (op : StorageOp) : Server smp :=
  { s with
    issued := Function.update s.issued id (s.issued id + 1)
    messages :=
      Function.update s.messages (src, dst) (s.messages (src, dst) ++ [⟨id, s.issued id, op⟩]) }

def receive (src dst : Fin smp.count) (message : Message) (rest : List Message) : Server smp :=
  let (peers, reply) := invokeOn s.peers dst (fun t => t.exec message.op)
  { s with
    peers := peers
    messages := Function.update s.messages (src, dst) rest
    returning := Function.update s.returning (message.id, message.index) (some reply) }

def resolve (key : ℕ × ℕ) (reply : Reply) : Server smp :=
  { s with
    returning := Function.update s.returning key none
    replies := Function.update s.replies key (some reply) }

def respond (id : ℕ) (response : Response) : Server smp :=
  { s with responses := Function.update s.responses id (some response) }

end Server

variable (hash : Fbstring → UInt32) (order : IterationOrder Fbstring)

def callsOf (req : Request) : List (CoreOp smp hash) := (handler smp hash order req).calls

theorem callsOf_list (keys : KeySet) : callsOf hash order (.list keys) = listKeys smp hash keys :=
  rfl

/-- The results of the first operations of a request, as far as there are any. -/
def resultsOf (replies : ℕ × ℕ → Option Reply) (id count : ℕ) : List Reply :=
  (List.range count).filterMap (fun i => replies (id, i))

def step (s : Server smp) : Event smp → Option (Server smp)
  | .arrive id origin req =>
    match s.requests id with
    | some _ => none
    | none => some (s.arrive id origin req)
  | .issue id =>
    match s.requests id with
    | none => none
    | some (origin, req) =>
      match (callsOf hash order req : List (CoreOp smp hash))[s.issued id]? with
      | none => none
      | some call =>
        if call.core = origin then some (s.callHere id origin call.op)
        else some (s.callThere id origin call.core call.op)
  | .run src dst =>
    match s.messages (src, dst) with
    | [] => none
    | message :: rest => some (s.receive src dst message rest)
  | .resolve id index =>
    match s.returning (id, index) with
    | none => none
    | some reply => some (s.resolve (id, index) reply)
  | .respond id =>
    match s.requests id with
    | none => none
    | some (_, req) =>
      let count := (callsOf hash order req : List (CoreOp smp hash)).length
      if s.responses id = none ∧ ∀ i < count, (s.replies (id, i)).isSome then
        some (s.respond id ((handler smp hash order req).respond (resultsOf s.replies id count)))
      else none

/-- What one event does. -/
theorem step_cases {hash : Fbstring → UInt32} {order : IterationOrder Fbstring} {s s' : Server smp}
    {event : Event smp} (h : step hash order s event = some s') :
    (∃ id origin req, event = .arrive id origin req ∧ s.requests id = none ∧
      s' = s.arrive id origin req) ∨
    (∃ id origin req call, event = .issue id ∧ s.requests id = some (origin, req) ∧
      (callsOf hash order req : List (CoreOp smp hash))[s.issued id]? = some call ∧
      (call.core = origin ∧ s' = s.callHere id origin call.op ∨
        call.core ≠ origin ∧ s' = s.callThere id origin call.core call.op)) ∨
    (∃ src dst message rest, event = .run src dst ∧ s.messages (src, dst) = message :: rest ∧
      s' = s.receive src dst message rest) ∨
    (∃ id index reply, event = .resolve id index ∧ s.returning (id, index) = some reply ∧
      s' = s.resolve (id, index) reply) ∨
    ∃ id origin req, event = .respond id ∧ s.requests id = some (origin, req) ∧
      s.responses id = none ∧
      (∀ i < (callsOf hash order req : List (CoreOp smp hash)).length, (s.replies (id, i)).isSome) ∧
      s' = s.respond id ((handler smp hash order req).respond
        (resultsOf s.replies id (callsOf hash order req : List (CoreOp smp hash)).length)) := by
  cases event with
  | arrive id origin req =>
    simp only [step] at h
    split at h
    · simp at h
    · next hnew => exact .inl ⟨id, origin, req, rfl, hnew, (Option.some.inj h).symm⟩
  | issue id =>
    simp only [step] at h
    split at h
    · simp at h
    · next origin req hreq =>
      split at h
      · simp at h
      · next call hcall =>
        split at h
        · next hcore =>
          exact .inr (.inl ⟨id, origin, req, call, rfl, hreq, hcall,
            .inl ⟨hcore, (Option.some.inj h).symm⟩⟩)
        · next hcore =>
          exact .inr (.inl ⟨id, origin, req, call, rfl, hreq, hcall,
            .inr ⟨hcore, (Option.some.inj h).symm⟩⟩)
  | run src dst =>
    simp only [step] at h
    split at h
    · simp at h
    · next message rest hqueue =>
      exact .inr (.inr (.inl ⟨src, dst, message, rest, rfl, hqueue, (Option.some.inj h).symm⟩))
  | resolve id index =>
    simp only [step] at h
    split at h
    · simp at h
    · next reply hreply =>
      exact .inr (.inr (.inr (.inl ⟨id, index, reply, rfl, hreply, (Option.some.inj h).symm⟩)))
  | respond id =>
    simp only [step] at h
    split at h
    · simp at h
    · next origin req hreq =>
      split at h
      · next hready =>
        exact .inr (.inr (.inr (.inr ⟨id, origin, req, rfl, hreq, hready.1, hready.2,
          (Option.some.inj h).symm⟩)))
      · simp at h

/-- The request that has arrived under a number stays. -/
theorem requests_run {hash : Fbstring → UInt32} {order : IterationOrder Fbstring}
    {s s' : Server smp} {id : ℕ} {arrival : Fin smp.count × Request} {events : List (Event smp)}
    (h : s.requests id = some arrival) (hr : run (step hash order) s events = some s') :
    s'.requests id = some arrival := by
  refine run_invariant_of_step (fun s => s.requests id = some arrival) ?_ h hr
  intro s event s' h hs
  rcases step_cases hs with ⟨i, origin, req, -, hnew, rfl⟩ |
    ⟨i, origin, req, call, -, -, -, hwhere⟩ | ⟨src, dst, message, rest, -, -, rfl⟩ |
    ⟨i, index, reply, -, -, rfl⟩ | ⟨i, origin, req, -, -, -, -, rfl⟩
  · have hne : id ≠ i := by
      rintro rfl
      simp [hnew] at h
    simp only [Server.arrive, Function.update_of_ne hne, h]
  · rcases hwhere with ⟨-, rfl⟩ | ⟨-, rfl⟩
    · exact h
    · exact h
  · exact h
  · exact h
  · exact h

end HCache.CppServerSteps
