import HCache.CppShardedStorage
import HCache.CppStorage

/-!
# The HTTP handlers of the C++ servers

What the handlers of `hcache_shared.cc` and `drogon.cc` do on a `storage`, request after
request, with the status and the content of their responses. Both serve one abstract map from
keys to entries, whose scores have the 32 bits of the storage.
-/
namespace HCache.CppHttpHandlers
open Std OrderedMaps SequentialMachines CppSingleThreadStorage CppStorage CppShardedStorage

/-- A request, its JSON body and its path read. -/
inductive Request where
  | init
  | query (key : Fbstring)
  | add (kv : KeyValue)
  | batch (kvs : List KeyValue)
  | del (key : Fbstring)
  | list (keys : KeySet)
  | zadd (key value : Fbstring) (score : UInt64)
  | zrange (key : Fbstring) (minScore maxScore : UInt64)
  | zrmv (key value : Fbstring)

inductive StatusCode where
  | ok
  | badRequest
  | notFound
  deriving DecidableEq, Repr

inductive Content where
  | text (value : Fbstring)
  | keyValues (list : List KeyValue)
  | scoreValues (list : List (UInt32 × Fbstring))
  deriving DecidableEq, Repr

structure Response where
  status : StatusCode
  content : Content
  deriving DecidableEq, Repr

namespace Response

def done : Response := ⟨.ok, .text []⟩
def badRequest : Response := ⟨.badRequest, .text []⟩
def notFound : Response := ⟨.notFound, .text []⟩

/-- `ok` -/
def initialized : Response := ⟨.ok, .text [111, 107]⟩

/-- The values of a score are listed in the order of their hash set. -/
def ofScoreValues (order : IterationOrder Fbstring) (scoreValues : List ScoreValues) : Response :=
  ⟨.ok, .scoreValues
    (scoreValues.flatMap (fun sv => (order.list sv.values).map (fun value => (sv.score, value))))⟩

end Response

variable (order : IterationOrder Fbstring) (refused : Response) (hcache : Storage)

def initHandler : Storage × Response := (hcache, .initialized)

def queryHandler (key : Fbstring) : Storage × Response :=
  match hcache.getValueByKey key with
  | some value => (hcache, ⟨.ok, .text value⟩)
  | none => (hcache, .notFound)

def addHandler (kv : KeyValue) : Storage × Response := (hcache.addKeyValue kv.key kv.value, .done)

def batchHandler (kvs : List KeyValue) : Storage × Response :=
  (kvs.foldl (fun hcache kv => hcache.addKeyValue kv.key kv.value) hcache, .done)

def delHandler (key : Fbstring) : Storage × Response := (hcache.delKey key, .done)

def listHandler (keys : KeySet) : Storage × Response :=
  let result := hcache.listKeys keys.keys
  if result ≠ [] then (hcache, ⟨.ok, .keyValues result⟩) else (hcache, .notFound)

/-- The two servers differ in what they answer to a refused `zset_add`. -/
def zaddHandler (key value : Fbstring) (score : UInt64) : Storage × Response :=
  let (hcache, success) := hcache.zsetAdd key value score.toUInt32
  if ¬success then (hcache, refused) else (hcache, .done)

def zrangeHandler (key : Fbstring) (minScore maxScore : UInt64) : Storage × Response :=
  match hcache.zsetZrange key minScore.toUInt32 maxScore.toUInt32 with
  | some scoreValues =>
    if scoreValues = [] then (hcache, ⟨.ok, .scoreValues []⟩)
    else (hcache, .ofScoreValues order scoreValues)
  | none => (hcache, .notFound)

def zrmvHandler (key value : Fbstring) : Storage × Response := (hcache.zsetRmv key value, .done)

def handle : Request → Storage × Response
  | .init => initHandler hcache
  | .query key => queryHandler hcache key
  | .add kv => addHandler hcache kv
  | .batch kvs => batchHandler hcache kvs
  | .del key => delHandler hcache key
  | .list keys => listHandler hcache keys
  | .zadd key value score => zaddHandler refused hcache key value score
  | .zrange key minScore maxScore => zrangeHandler order hcache key minScore maxScore
  | .zrmv key value => zrmvHandler hcache key value

/-- The routes of `hcache_shared.cc`. -/
def HcacheShared.handle (order : IterationOrder Fbstring) :
    Storage → Request → Storage × Response :=
  CppHttpHandlers.handle order .badRequest

/-- The controllers of `drogon.cc`. -/
def Drogon.handle (order : IterationOrder Fbstring) : Storage → Request → Storage × Response :=
  CppHttpHandlers.handle order .notFound

/-- The operations that a request stands for. Scores and bounds are converted here, as the
handlers do it. -/
def Request.operations : Request → List StorageOp
  | .init => []
  | .query key => [.on key .getValueByKey]
  | .add kv => [.on kv.key (.addKeyValue kv.value)]
  | .batch kvs => kvs.map (fun kv => .on kv.key (.addKeyValue kv.value))
  | .del key => [.on key .delKey]
  | .list keys => [.listKeys keys.keys]
  | .zadd key value score => [.on key (.zsetAdd value score.toUInt32)]
  | .zrange key minScore maxScore => [.on key (.zsetZrange minScore.toUInt32 maxScore.toUInt32)]
  | .zrmv key value => [.on key (.zsetRmv value)]

def keyValuesOf : Reply → List KeyValue
  | .keyValues kvs => kvs
  | _ => []

/-- The response to a request whose operations have got these replies. A refused `zadd` is
answered with `refused`. -/
def Request.response (order : IterationOrder Fbstring) (refused : Response) (replies : List Reply) :
    Request → Response
  | .init => .initialized
  | .query _ =>
    match replies with
    | [.value (some value)] => ⟨.ok, .text value⟩
    | _ => .notFound
  | .add _ | .batch _ | .del _ | .zrmv _ _ => .done
  | .list _ =>
    if replies.flatMap keyValuesOf ≠ [] then ⟨.ok, .keyValues (replies.flatMap keyValuesOf)⟩
    else .notFound
  | .zadd _ _ _ => if replies = [.flag true] then .done else refused
  | .zrange _ _ _ =>
    match replies with
    | [.groups (some scoreValues)] => .ofScoreValues order scoreValues
    | _ => .notFound

/-- A request to the API of the storage. -/
def apiHandle (order : IterationOrder Fbstring) (refused : Response) (api : Fbstring → Entry)
    (req : Request) :
    (Fbstring → Entry) × Response :=
  (final apiExec api req.operations,
    req.response order refused (responses apiExec api req.operations))

/-- The storage holds under every key what the API has there. -/
def Shows (hcache : Storage) (api : Fbstring → Entry) : Prop :=
  StorageRel ⟨hcache.zsets, hcache.kv⟩ api

theorem shows_new : Shows Storage.new (fun _ => .absent) := storageRel_new

private theorem simulates_exec : Simulates Storage.exec apiExec (fun _ => True) Shows Eq := by
  have hsame : ∀ (hcache : Storage) (op : StorageOp),
      SameMaps (hcache.exec op).1 (SingleThreadStorage.exec ⟨hcache.zsets, hcache.kv⟩ op).1 ∧
        (hcache.exec op).2 = (SingleThreadStorage.exec ⟨hcache.zsets, hcache.kv⟩ op).2 := by
    intro hcache op
    cases op with
    | on key op => exact SameMaps.execOn ⟨rfl, rfl⟩ key op
    | listKeys keys => exact ⟨⟨rfl, rfl⟩, rfl⟩
  constructor
  · intro hcache api op h _
    have hmaps := (hsame hcache op).1
    rw [Shows, hmaps.zsets, hmaps.kv]
    exact simulates_api.state _ api op h trivial
  · intro hcache api op h _
    rw [(hsame hcache op).2]
    exact simulates_api.response _ api op h trivial

private theorem final_adds (kvs : List KeyValue) :
    final Storage.exec hcache (kvs.map (fun kv => .on kv.key (.addKeyValue kv.value))) =
      kvs.foldl (fun hcache kv => hcache.addKeyValue kv.key kv.value) hcache := by
  rw [final, List.foldl_map]
  rfl

/-- A handler performs the operations of its request and answers by their replies. -/
theorem handle_eq (req : Request) : handle order refused hcache req =
    (final Storage.exec hcache req.operations,
      req.response order refused (responses Storage.exec hcache req.operations)) := by
  cases req with
  | init => rfl
  | query key =>
    simp only [handle, queryHandler, Request.operations, responses, Request.response, Storage.exec,
      Storage.execOn]
    cases hcache.getValueByKey key <;> rfl
  | add kv => rfl
  | batch kvs =>
    simp only [handle, batchHandler, Request.operations, Request.response, final_adds]
  | del key => rfl
  | list keys =>
    simp only [handle, listHandler, Request.operations, responses, Request.response, Storage.exec,
      List.flatMap_cons, List.flatMap_nil, List.append_nil, keyValuesOf, final_cons, final_nil]
    split <;> rfl
  | zadd key value score =>
    simp only [handle, zaddHandler, Request.operations, responses, Request.response, Storage.exec,
      Storage.execOn, final_cons, final_nil]
    cases (hcache.zsetAdd key value score.toUInt32).2 <;> simp
  | zrange key minScore maxScore =>
    simp only [handle, zrangeHandler, Request.operations, responses, Request.response, Storage.exec,
      Storage.execOn, final_cons, final_nil]
    cases hcache.zsetZrange key minScore.toUInt32 maxScore.toUInt32 with
    | none => rfl
    | some scoreValues => cases scoreValues <;> rfl
  | zrmv key value => rfl

theorem simulates_handle (order : IterationOrder Fbstring) (refused : Response) :
    Simulates (handle order refused) (apiHandle order refused) (fun _ => True) Shows Eq := by
  constructor
  · intro hcache api req h _
    rw [handle_eq]
    exact simulates_exec.final h (fun _ _ => trivial)
  · intro hcache api req h _
    have hreplies :
      List.Forall₂ Eq (responses Storage.exec hcache req.operations)
        (responses apiExec api req.operations) :=
      simulates_exec.responses h (fun _ _ => trivial)
    rw [List.forall₂_eq_eq_eq] at hreplies
    rw [handle_eq, apiHandle, hreplies]

end HCache.CppHttpHandlers
