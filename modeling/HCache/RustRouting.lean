import HCache.RustStorage
import HCache.SipHash
import Mathlib.Logic.Function.Basic

/-!
# Request routing between the nodes of the Rust cluster

`get_shard` at the types it is used at, the single-key handlers of `hcache.rs` with their
local and remote branches, and the RPC bodies of `cluster.rs`. A handler either answers
from its own storage or sends one RPC and builds its answer from the reply.
-/
namespace HCache.RustRouting
open Std OrderedMaps RustStorage

/-- The bytes that `str` and `String` feed to a hasher. -/
def strStream (key : Str) : List UInt8 := key ++ [0xff]

/-- A `usize` as eight little-endian bytes. -/
def usizeStream (n : ℕ) : List UInt8 := (List.range 8).map (fun i => UInt8.ofNat (n / 256 ^ i))

/-- The bytes that `[u8]` feeds to a hasher: its length, then its elements. -/
def sliceStream (key : List UInt8) : List UInt8 := usizeStream key.length ++ key

/-- `DefaultHasher` is SipHash-1-3 with zero keys. -/
def hashKey (stream : List UInt8) : UInt64 := SipHash.sipHash13 0 0 stream

def getShard (stream : List UInt8) (count : UInt64) : UInt64 :=
  if count = 0 then 0 else hashKey stream % count

@[simp] theorem getShard_zero (stream : List UInt8) : getShard stream 0 = 0 := rfl

theorem getShard_toNat {stream : List UInt8} {count : UInt64} (h : count ≠ 0) :
    (getShard stream count).toNat = (hashKey stream).toNat % count.toNat := by
  simp [getShard, h]

/-- One server: its stores, the two atomics of the cluster configuration and the peers
its connection pool reaches, in the order of the host list. -/
structure Node (Host : Type) where
  storage : Storage
  me : UInt32
  count : UInt64
  pool : List Host

def Node.single {Host : Type} (s : Storage) : Node Host := ⟨s, 0, 0, []⟩

/-- The stores of `update_peers`, once its pool is connected. -/
def Node.updatePeers {Host : Type} (n : Node Host) (peers : List Host) (me : UInt32) : Node Host :=
  { n with me := me - 1, count := UInt64.ofNat peers.length, pool := peers }

inductive Request where
  | query (key : Str)
  | del (key : Str)
  | add (kv : InsrtRequest)
  | zadd (key : Str) (dto : ScoreValue)
  | zrange (key : Str) (dto : ScoreRange)
  | zrmv (key value : Str)
  deriving DecidableEq, Repr

def Request.key : Request → Str
  | .query key | .del key | .zadd key _ | .zrange key _ | .zrmv key _ => key
  | .add kv => kv.key

/-- Range requests with `min_score <= max_score`; every other request. -/
def Request.Valid : Request → Prop
  | .zrange _ dto => dto.minScore ≤ dto.maxScore
  | _ => True

inductive Status where
  | ok | notFound | internalServerError
  deriving DecidableEq, Repr

inductive Body where
  | empty
  | text (value : Str)
  | scoreValues (value : List ScoreValue)
  deriving DecidableEq, Repr

structure Response where
  status : Status
  body : Body
  deriving DecidableEq, Repr

def Response.done : Response := ⟨.ok, .empty⟩
def Response.notFound : Response := ⟨.notFound, .empty⟩
def Response.internalServerError : Response := ⟨.internalServerError, .empty⟩

inductive RpcCall where
  | query (key : Str)
  | add (key value : Str)
  | del (key : Str)
  | zadd (key : Str) (scoreValue : ScoreValue)
  | zrange (key : Str) (scoreRange : ScoreRange)
  | zrmv (key value : Str)
  deriving DecidableEq, Repr

inductive RpcReply where
  | unit
  | value (v : Option Str)
  | scoreValues (v : Option (List ScoreValue))
  deriving DecidableEq, Repr

/-- The RPC bodies of `CachePeerServer`. -/
def serveRpc (order : IterationOrder Str) (s : Storage) :
    RpcCall → Except Panic (Storage × RpcReply)
  | .query key => .ok (s, .value (s.getKv key))
  | .add key value => .ok (s.insertKv key value, .unit)
  | .del key => .ok ((s.removeKey key).zsetsRemove key, .unit)
  | .zadd key scoreValue => .ok (s.zadd key scoreValue, .unit)
  | .zrange key scoreRange => (s.zrange order key scoreRange).map (fun v => (s, .scoreValues v))
  | .zrmv key value => .ok (s.zrmv key value, .unit)

/-- What a handler does before it awaits: answer from its own storage, or call a peer and
build the answer from the reply (`none` when the RPC fails). -/
inductive Handled where
  | answer (storage : Storage) (response : Response)
  | call (shard : UInt32) (rpc : RpcCall) (resume : Option RpcReply → Response)
  | panic (reason : Panic)

/-- The frame of every single-key handler: `count` is loaded, then `me`. -/
def route {Host : Type} (n : Node Host) (key : Str) (here : Except Panic (Storage × Response))
    (rpc : RpcCall) (resume : Option RpcReply → Response) : Handled :=
  let shard := (getShard (strStream key) n.count).toUInt32
  if shard = n.me then
    match here with
    | .ok (s, response) => .answer s response
    | .error reason => .panic reason
  else .call shard rpc resume

def unitResponse : Option RpcReply → Response
  | some _ => .done
  | none => .internalServerError

def queryResponse : Option Str → Response
  | none => .notFound
  | some value => ⟨.ok, .text value⟩

def zrangeResponse : Option (List ScoreValue) → Response
  | none => .notFound
  | some value => ⟨.ok, .scoreValues value⟩

def queryResume : Option RpcReply → Response
  | some (.value v) => queryResponse v
  | _ => .internalServerError

def zrangeResume : Option RpcReply → Response
  | some (.scoreValues v) => zrangeResponse v
  | _ => .internalServerError

variable {Host : Type}

def handleQuery (n : Node Host) (key : Str) : Handled :=
  route n key (.ok (n.storage, queryResponse (n.storage.getKv key))) (.query key) queryResume

def handleDel (n : Node Host) (key : Str) : Handled :=
  route n key (.ok ((n.storage.removeKey key).zsetsRemove key, .done)) (.del key) unitResponse

def handleAdd (n : Node Host) (kv : InsrtRequest) : Handled :=
  route n kv.key (.ok (n.storage.insertKv kv.key kv.value, .done))
    (.add kv.key kv.value) unitResponse

def handleZadd (n : Node Host) (key : Str) (dto : ScoreValue) : Handled :=
  route n key (.ok (n.storage.zadd key dto, .done)) (.zadd key dto) unitResponse

def handleZrange (order : IterationOrder Str) (n : Node Host) (key : Str) (dto : ScoreRange) :
    Handled :=
  route n key ((n.storage.zrange order key dto).map (fun v => (n.storage, zrangeResponse v)))
    (.zrange key dto) zrangeResume

def handleZrmv (n : Node Host) (key value : Str) : Handled :=
  route n key (.ok (n.storage.zrmv key value, .done)) (.zrmv key value) unitResponse

def handle (order : IterationOrder Str) (n : Node Host) : Request → Handled
  | .query key => handleQuery n key
  | .del key => handleDel n key
  | .add kv => handleAdd n kv
  | .zadd key dto => handleZadd n key dto
  | .zrange key dto => handleZrange order n key dto
  | .zrmv key value => handleZrmv n key value

/-- What a request does to the storage that executes it, and its answer. -/
def execute (order : IterationOrder Str) (s : Storage) : Request → Except Panic (Storage × Response)
  | .query key => .ok (s, queryResponse (s.getKv key))
  | .del key => .ok (s.del key, .done)
  | .add kv => .ok (s.insertKv kv.key kv.value, .done)
  | .zadd key dto => .ok (s.zadd key dto, .done)
  | .zrange key dto => (s.zrange order key dto).map (fun v => (s, zrangeResponse v))
  | .zrmv key value => .ok (s.zrmv key value, .done)

def rpcOf : Request → RpcCall
  | .query key => .query key
  | .del key => .del key
  | .add kv => .add kv.key kv.value
  | .zadd key dto => .zadd key dto
  | .zrange key dto => .zrange key dto
  | .zrmv key value => .zrmv key value

/-- How the answer to a request is built from the reply of its RPC. -/
def resumeOf : Request → Option RpcReply → Response
  | .query _ => queryResume
  | .zrange _ _ => zrangeResume
  | _ => unitResponse

/-- Every handler is the same frame around the local execution and the RPC of its request. -/
theorem handle_eq_route (order : IterationOrder Str) (n : Node Host) (req : Request) :
    handle order n req =
      route n req.key (execute order n.storage req) (rpcOf req) (resumeOf req) := by
  cases req <;> rfl

/-- The RPC body followed by the caller's continuation is the local execution. -/
theorem serveRpc_resume (order : IterationOrder Str) (s : Storage) (req : Request) :
    (serveRpc order s (rpcOf req)).map (fun p => (p.1, resumeOf req (some p.2))) =
      execute order s req := by
  cases req with
  | zrange key dto =>
    simp only [rpcOf, serveRpc, execute]
    cases s.zrange order key dto <;> rfl
  | _ => rfl

/-- Where the local execution succeeds, so does the RPC body, and the reply gives the answer. -/
theorem serveRpc_of_execute {order : IterationOrder Str} {s s' : Storage} {req : Request}
    {response : Response} (h : execute order s req = .ok (s', response)) :
    ∃ reply, serveRpc order s (rpcOf req) = .ok (s', reply) ∧
      resumeOf req (some reply) = response := by
  have hserve := serveRpc_resume order s req
  rw [h] at hserve
  cases hr : serveRpc order s (rpcOf req) with
  | error reason => simp [hr, Except.map] at hserve
  | ok p =>
    obtain ⟨t, reply⟩ := p
    simp only [hr, Except.map, Except.ok.injEq, Prod.mk.injEq] at hserve
    obtain ⟨rfl, hresponse⟩ := hserve
    exact ⟨reply, rfl, hresponse⟩

/-- The shard a node computes for a key, as it is compared with `me`. -/
def Node.shardOf (n : Node Host) (key : Str) : UInt32 := (getShard (strStream key) n.count).toUInt32

theorem handle_here {order : IterationOrder Str} {n : Node Host} {req : Request} {s : Storage}
    {response : Response} (h : n.shardOf req.key = n.me)
    (he : execute order n.storage req = .ok (s, response)) :
    handle order n req = .answer s response := by
  rw [handle_eq_route, he]
  exact if_pos h

theorem handle_here_panic {order : IterationOrder Str} {n : Node Host} {req : Request}
    {reason : Panic} (h : n.shardOf req.key = n.me)
    (he : execute order n.storage req = .error reason) :
    handle order n req = .panic reason := by
  rw [handle_eq_route, he]
  exact if_pos h

theorem handle_elsewhere {order : IterationOrder Str} {n : Node Host} {req : Request}
    (h : n.shardOf req.key ≠ n.me) :
    handle order n req = .call (n.shardOf req.key) (rpcOf req) (resumeOf req) := by
  rw [handle_eq_route]
  exact if_neg h

private theorem execute_zrange {order : IterationOrder Str} {s : Storage} {key : Str}
    {dto : ScoreRange} (h : dto.minScore ≤ dto.maxScore) : ∃ response,
    execute order s (.zrange key dto) = .ok (s, response) := by
  have hr : ¬ dto.maxScore < dto.minScore := UInt32.not_lt.mpr h
  simp only [execute, Storage.zrange, ZSet.zrange, hr, if_false]
  cases s.zsets[key]? with
  | none => exact ⟨_, rfl⟩
  | some z => exact ⟨_, rfl⟩

/-- A range changes nothing. -/
theorem execute_zrange_storage {order : IterationOrder Str} {s s' : Storage} {key : Str}
    {dto : ScoreRange} {response : Response}
    (h : execute order s (.zrange key dto) = .ok (s', response)) : s' = s := by
  simp only [execute] at h
  cases hz : s.zrange order key dto with
  | error reason => simp [hz, Except.map] at h
  | ok v =>
    simp only [hz, Except.map, Except.ok.injEq, Prod.mk.injEq] at h
    exact h.1.symm

/-- A valid request never panics. -/
theorem execute_ok {req : Request} (h : req.Valid) (order : IterationOrder Str) (s : Storage) :
    ∃ s' response, execute order s req = .ok (s', response) := by
  cases req with
  | zrange key dto => exact ⟨s, execute_zrange h⟩
  | _ => exact ⟨_, _, rfl⟩

end HCache.RustRouting
