import HCache.RustLoaderRestarts
import HCache.RustMultiKeyRequests
import HCache.RustPeerInstalls
import HCache.SequentialMachines

/-!
# The HTTP handler of the Rust server

`hyper_handler` on a request: the path is split, up to four parts for GET and three for POST,
the route picks a handler, and the handler reads its body. What it then asks of the storage
is performed on the nodes of a deployment, one request at a time. The parsers of bodies and
addresses are parameters, and so are the file system and which peers can be reached.
-/
namespace HCache.RustHttpHandler
open Std OrderedMaps SequentialMachines DelimitedLists RustStorage RustRouting RustClusterNodes
  RustMultiKeyRequests RustPeerInstalls RustLoaderRestarts

def utf8 (s : String) : Str := s.toUTF8.data.toList

inductive Method where
  | get
  | post
  | other
  deriving DecidableEq, Repr

/-- `path` is `req.uri().path()`. -/
structure HttpRequest where
  method : Method
  path : Str
  body : List UInt8
  deriving DecidableEq, Repr

/-- What `serde_json::from_slice` and `from_str` find in a document of each type. -/
structure Serde where
  insrtRequest : List UInt8 → Option InsrtRequest
  insrtRequests : List UInt8 → Option (List InsrtRequest)
  keys : List UInt8 → Option (List Str)
  scoreValue : List UInt8 → Option ScoreValue
  scoreRange : List UInt8 → Option ScoreRange
  updateCluster : List UInt8 → Option UpdateCluster

inductive HandlerPanic where
  | pathIndex
  | unwrapErr
  | subtractOverflow
  | storage (reason : Panic)
  deriving DecidableEq, Repr

/-- A handler that panics, and one that waits for a peer without end. -/
inductive Stop where
  | panicked (reason : HandlerPanic)
  | waiting
  deriving DecidableEq, Repr

inductive HttpResponse where
  | one (response : Response)
  | many (response : MultiResponse)
  deriving DecidableEq, Repr

def HttpResponse.status : HttpResponse → Status
  | .one response => response.status
  | .many response => response.status

/-- What a handler does with the path and the body that it has read. -/
inductive Action where
  | keyed (req : Request)
  | batch (kvs : List InsrtRequest)
  | list (keys : List Str)
  | init
  | updateCluster (data : List UInt8)
  | reply (response : Response)
  deriving DecidableEq, Repr

inductive GetRoute where
  | query
  | del
  | zrmv
  | init
  | other
  deriving DecidableEq, Repr

def getRoute (component : Str) : GetRoute :=
  if component = utf8 "query" then .query
  else if component = utf8 "del" then .del
  else if component = utf8 "zrmv" then .zrmv
  else if component = utf8 "init" then .init
  else .other

inductive PostRoute where
  | add
  | batch
  | list
  | zadd
  | zrange
  | updateCluster
  | other
  deriving DecidableEq, Repr

def postRoute (component : Str) : PostRoute :=
  if component = utf8 "add" then .add
  else if component = utf8 "batch" then .batch
  else if component = utf8 "list" then .list
  else if component = utf8 "zadd" then .zadd
  else if component = utf8 "zrange" then .zrange
  else if component = utf8 "updateCluster" then .updateCluster
  else .other

/-- `path.splitn(n, "/")` -/
def splitPath (n : ℕ) (path : Str) : List Str := splitn n (fun c => c == '/'.toUInt8) path

/-- `path[i]` -/
def component (parts : List Str) (i : ℕ) : Except Stop Str :=
  match parts[i]? with
  | some part => .ok part
  | none => .error (.panicked .pathIndex)

/-- `from_slice(&data).unwrap()` -/
def unwrap {α : Type} : Option α → Except Stop α
  | some value => .ok value
  | none => .error (.panicked .unwrapErr)

/-- `hyper_handler` up to the point where its handler has read what it needs. -/
def readRequest (serde : Serde) (req : HttpRequest) : Except Stop Action :=
  match req.method with
  | .get => do
    let path := splitPath 4 req.path
    let route ← component path 1
    match getRoute route with
    | .query => return .keyed (.query (← component path 2))
    | .del => return .keyed (.del (← component path 2))
    | .zrmv => return .keyed (.zrmv (← component path 2) (← component path 3))
    | .init => return .init
    | .other => return .reply ⟨.ok, .text (utf8 "ok")⟩
  | .post => do
    let path := splitPath 3 req.path
    let route ← component path 1
    match postRoute route with
    | .add => return .keyed (.add (← unwrap (serde.insrtRequest req.body)))
    | .batch => return .batch (← unwrap (serde.insrtRequests req.body))
    | .list => return .list (← unwrap (serde.keys req.body))
    | .zadd => return .keyed (.zadd (← component path 2) (← unwrap (serde.scoreValue req.body)))
    | .zrange => return .keyed (.zrange (← component path 2) (← unwrap (serde.scoreRange req.body)))
    | .updateCluster => return .updateCluster req.body
    | .other => return .reply .notFound
  | .other => return .reply ⟨.notFound, .text (utf8 "404 not found")⟩

/-- What the code leaves open. `creates` and `writes` say whether `/data/cluster.json` can be
created and written; RPCs are served. -/
structure Env (Host : Type) where
  serde : Serde
  build : Build Host
  reachable : Host → Bool
  creates : Bool
  writes : Bool
  sets : IterationOrder Str
  batches : EntryOrder UInt32 (List InsrtRequest)
  lists : EntryOrder UInt32 (Finset Str)
  schedule : List Part → List Part
  schedule_perm : ∀ parts, (schedule parts).Perm parts

structure Process where
  peerUpdated : Bool
  loadState : LoadState
  clusterJson : Option (List UInt8)
  deriving DecidableEq, Repr

structure World (Host : Type) where
  nodes : Host → Node Host
  processes : Host → Process

variable {Host : Type} [DecidableEq Host] (env : Env Host) (w : World Host) (arrival : Host)

/-- `PeerClientPool::new`: the connections to a peer that cannot be reached are tried for ever. -/
def connectPeers (peers : List Str) : Except Stop (List Host) :=
  peers.mapM (fun peer => do
    match env.build.parse (peer ++ peerPort) with
    | none => throw (.panicked .unwrapErr)
    | some addr => if env.reachable addr then return addr else throw .waiting)

def updatePeers (cluster : UpdateCluster) : Except Stop (World Host) := do
  match env.build.subOne cluster.index with
  | none => throw (.panicked .subtractOverflow)
  | some me =>
    let pool ← connectPeers env cluster.hosts
    return { w with
      nodes := Function.update w.nodes arrival
        { w.nodes arrival with
          me := me
          count := UInt64.ofNat cluster.hosts.length
          pool := pool } }

def tryLoadPeers : Except Stop (World Host) :=
  let process := w.processes arrival
  match process.clusterJson.bind env.serde.updateCluster with
  | none => .ok w
  | some cluster =>
    if process.peerUpdated then .ok w
    else updatePeers env { w
      with processes := Function.update w.processes arrival { process with peerUpdated := true } }
      arrival cluster

def handleInit : Except Stop (World Host × Response) := do
  let w ← tryLoadPeers env w arrival
  let process := w.processes arrival
  match process.loadState with
  | .init =>
    return ({ w
      with processes :=
        Function.update w.processes arrival { process with loadState := .loading } },
      ⟨.ok, .text (utf8 "loading")⟩)
  | .loading => return (w, ⟨.ok, .text (utf8 "loading")⟩)
  | .loaded => return (w, ⟨.ok, .text (utf8 "ok")⟩)

def handleUpdatecluster (data : List UInt8) : Except Stop (World Host × Response) :=
  if env.creates then
    if env.writes then
      .ok
        ({ w with processes := Function.update w.processes arrival { w.processes arrival
          with clusterJson := some data } },
        ⟨.ok, .text (utf8 "ok")⟩)
    else .error (.panicked .unwrapErr)
  else .ok (w, ⟨.ok, .text (utf8 "fail")⟩)

def perform : Action → Except Stop (World Host × HttpResponse)
  | .keyed req =>
    match request env.sets w.nodes arrival req with
    | .ok (nodes, response) => .ok ({ w with nodes := nodes }, .one response)
    | .error reason => .error (.panicked (.storage reason))
  | .batch kvs =>
    let parts := env.schedule (batchParts env.batches (w.nodes arrival) kvs)
    let (nodes, response) := handleBatch (fun _ => .served) env.batches w.nodes arrival kvs parts
    .ok ({ w with nodes := nodes }, .many response)
  | .list keys =>
    .ok (w, .many (handleList (fun _ => .served) env.lists env.sets w.nodes arrival keys))
  | .init => (handleInit env w arrival).map (fun p => (p.1, .one p.2))
  | .updateCluster data => (handleUpdatecluster env w arrival data).map (fun p => (p.1, .one p.2))
  | .reply response => .ok (w, .one response)

/-- A request that arrives on a server, and its answer. -/
def hyperHandler (req : HttpRequest) : Except Stop (World Host × HttpResponse) := do
  let action ← readRequest env.serde req
  perform env w arrival action

@[simp] theorem component_eq_ok {parts : List Str} {i : ℕ} {part : Str} :
    component parts i = .ok part ↔ parts[i]? = some part := by
  unfold component
  cases parts[i]? <;> simp

@[simp] theorem unwrap_eq_ok {α : Type} {o : Option α} {a : α} : unwrap o = .ok a ↔ o = some a := by
  cases o <;> simp [unwrap]

/-- What a GET request asks for, by its route. -/
theorem read_get_iff {serde : Serde} {req : HttpRequest} (hm : req.method = .get)
    {P : Action → Prop} :
    (∃ action, readRequest serde req = .ok action ∧ P action) ↔
      ∃ route, (splitPath 4 req.path)[1]? = some route ∧
        match getRoute route with
        | .query => ∃ key, (splitPath 4 req.path)[2]? = some key ∧ P (.keyed (.query key))
        | .del => ∃ key, (splitPath 4 req.path)[2]? = some key ∧ P (.keyed (.del key))
        | .zrmv =>
          ∃ key value, (splitPath 4 req.path)[2]? = some key ∧ (splitPath 4 req.path)[3]? =
            some value ∧
            P (.keyed (.zrmv key value))
        | .init => P .init
        | .other => P (.reply ⟨.ok, .text (utf8 "ok")⟩) := by
  cases hr : (splitPath 4 req.path)[1]? with
  | none => simp [readRequest, hm, bind_eq_ok, hr]
  | some route =>
    cases hroute : getRoute route <;>
      simp [readRequest, hm, bind_eq_ok, hr, hroute, pure, Except.pure]

/-- What a POST request asks for, by its route. -/
theorem read_post_iff {serde : Serde} {req : HttpRequest} (hm : req.method = .post)
    {P : Action → Prop} :
    (∃ action, readRequest serde req = .ok action ∧ P action) ↔
      ∃ route, (splitPath 3 req.path)[1]? = some route ∧
        match postRoute route with
        | .add => ∃ kv, serde.insrtRequest req.body = some kv ∧ P (.keyed (.add kv))
        | .batch => ∃ kvs, serde.insrtRequests req.body = some kvs ∧ P (.batch kvs)
        | .list => ∃ keys, serde.keys req.body = some keys ∧ P (.list keys)
        | .zadd =>
          ∃ key dto, (splitPath 3 req.path)[2]? = some key ∧ serde.scoreValue req.body = some dto ∧
            P (.keyed (.zadd key dto))
        | .zrange =>
          ∃ key dto, (splitPath 3 req.path)[2]? = some key ∧ serde.scoreRange req.body = some dto ∧
            P (.keyed (.zrange key dto))
        | .updateCluster => P (.updateCluster req.body)
        | .other => P (.reply .notFound) := by
  cases hr : (splitPath 3 req.path)[1]? with
  | none => simp [readRequest, hm, bind_eq_ok, hr]
  | some route =>
    cases hroute : postRoute route <;>
      simp [readRequest, hm, bind_eq_ok, hr, hroute, pure, Except.pure]

/-- The servers stay as they are after `/updateCluster`, and its answers are no errors. -/
theorem perform_updateCluster {Host : Type} [DecidableEq Host] {env : Env Host} {w w' : World Host}
    {arrival : Host} {data : List UInt8} {answer : HttpResponse}
    (h : perform env w arrival (.updateCluster data) = .ok (w', answer)) :
    w'.nodes = w.nodes ∧ answer.status = .ok := by
  rw [perform, handleUpdatecluster] at h
  cases hc : env.creates <;> cases hw : env.writes <;> simp [hc, hw, Except.map] at h <;>
    simp [← h.1, ← h.2, HttpResponse.status]

variable {Host : Type} [DecidableEq Host] {arrival : Host}

/-- It executes every request itself. -/
theorem request_unconfigured {order : IterationOrder Str} {nodes : Host → Node Host}
    (hcount : (nodes arrival).count = 0) (hme : (nodes arrival).me = 0) (req : Request) :
    request order nodes arrival req = (execute order (nodes arrival).storage req).map
      (fun p => (Function.update nodes arrival { nodes arrival with storage := p.1 }, p.2)) := by
  have hshard : (nodes arrival).shardOf req.key = (nodes arrival).me := by
    rw [Node.shardOf, hcount, hme]
    rfl
  cases he : execute order (nodes arrival).storage req with
  | ok p => rw [request, handle_here hshard he, Except.map]
  | error reason =>
    rw [request, handle_here_panic hshard he, Except.map]

/-- A build with overflow checks whose files and peers are there; no body is a document. -/
noncomputable def quietEnv : Env ℕ where
  serde :=
    ⟨fun _ => none, fun _ => none, fun _ => none, fun _ => none, fun _ => none, fun _ => none⟩
  build := ⟨fun _ => none, true⟩
  reachable := fun _ => true
  creates := true
  writes := true
  sets := IterationOrder.choice Str
  batches := EntryOrder.ascending UInt32 (List InsrtRequest)
  lists := EntryOrder.ascending UInt32 (Finset Str)
  schedule := id
  schedule_perm := List.Perm.refl

end HCache.RustHttpHandler
