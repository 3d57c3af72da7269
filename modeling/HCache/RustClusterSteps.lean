import HCache.InterleavedSystems
import HCache.RustClusterNodes

/-!
# The steps of a cluster with requests in flight

Any number of requests are between arrival and response. A handler step either executes
its request locally and responds, or sends its RPC; the target serves the RPC in one step;
the delivery of the reply completes the handler. Executions are logged in their order. No
message is lost, and an RPC whose body panics is answered with a failure.
-/
namespace HCache.RustClusterSteps
open OrderedMaps RustStorage RustRouting RustClusterNodes

inductive Phase (Host : Type) where
  | arrived
  | called (target : Host) (rpc : RpcCall) (resume : Option RpcReply → Response)
  | replied (reply : Option RpcReply) (resume : Option RpcReply → Response)
  | responded (response : Response)
  | aborted (reason : Panic)

structure InFlight (Host : Type) where
  arrival : Host
  req : Request
  phase : Phase Host

/-- One storage operation: the request it serves, the host it ran on and the iteration
order of the hash sets there. -/
structure Execution (Host : Type) where
  id : ℕ
  host : Host
  req : Request
  order : IterationOrder Str

structure Net (Host : Type) where
  nodes : Host → Node Host
  requests : ℕ → Option (InFlight Host)
  log : List (Execution Host)

inductive Event (Host : Type) where
  | arrive (id : ℕ) (host : Host) (req : Request)
  | handle (id : ℕ) (order : IterationOrder Str)
  | serve (id : ℕ) (order : IterationOrder Str)
  | deliver (id : ℕ)

variable {Host : Type}

/-- Requests arrive at nodes of the cluster, and are valid. -/
def Event.Allowed (c : HostList Host) : Event Host → Prop
  | .arrive _ host req => host ∈ c.hosts ∧ req.Valid
  | _ => True

def Net.setRequest (net : Net Host) (id : ℕ) (p : InFlight Host) : Net Host :=
  { net with requests := Function.update net.requests id (some p) }

section Steps
variable [DecidableEq Host]

/-- All nodes have finished `update_peers`; no request has arrived. -/
def Net.start (c : HostList Host) (stores : Host → Storage) : Net Host :=
  ⟨fun h => c.node (stores h) h, fun _ => none, []⟩

/-- The storage operation of `e` has turned the storage of its host into `s`. -/
def Net.executed (net : Net Host) (e : Execution Host) (s : Storage) : Net Host :=
  { net with
    nodes := Function.update net.nodes e.host { net.nodes e.host with storage := s }
    log := net.log ++ [e] }

def step (net : Net Host) : Event Host → Option (Net Host)
  | .arrive id host req =>
    match net.requests id with
    | some _ => none
    | none => some (net.setRequest id ⟨host, req, .arrived⟩)
  | .handle id order =>
    match net.requests id with
    | some ⟨host, req, .arrived⟩ =>
      match handle order (net.nodes host) req with
      | .answer s response =>
        some ((net.executed ⟨id, host, req, order⟩ s).setRequest id ⟨host, req,
          .responded response⟩)
      | .panic reason => some (net.setRequest id ⟨host, req, .aborted reason⟩)
      | .call shard rpc resume =>
        match getClient (net.nodes host) shard with
        | .ok target => some (net.setRequest id ⟨host, req, .called target rpc resume⟩)
        | .error reason => some (net.setRequest id ⟨host, req, .aborted reason⟩)
    | _ => none
  | .serve id order =>
    match net.requests id with
    | some ⟨host, req, .called target rpc resume⟩ =>
      match serveRpc order (net.nodes target).storage rpc with
      | .ok (s, reply) =>
        some ((net.executed ⟨id, target, req, order⟩ s).setRequest id ⟨host, req,
          .replied (some reply) resume⟩)
      | .error _ => some (net.setRequest id ⟨host, req, .replied none resume⟩)
    | _ => none
  | .deliver id =>
    match net.requests id with
    | some ⟨host, req, .replied reply resume⟩ =>
      some (net.setRequest id ⟨host, req, .responded (resume reply)⟩)
    | _ => none

end Steps

/-- One request on a single node, where `count` and `me` are 0. -/
def serveAlone (s : Storage) (e : Execution Host) : Storage × Response :=
  match handle e.order (Node.single s : Node Host) e.req with
  | .answer s' response => (s', response)
  | .call _ _ _ => (s, .internalServerError)
  | .panic _ => (s, .internalServerError)

/-- A single node executes every request itself. -/
theorem serveAlone_eq (s : Storage) (e : Execution Host) :
    serveAlone s e = (execute e.order s e.req).toOption.getD (s, .internalServerError) := by
  cases he : execute e.order s e.req with
  | ok p =>
    have hhere : handle e.order (Node.single s : Node Host) e.req = .answer p.1 p.2 :=
      handle_here rfl he
    rw [serveAlone, hhere]
    rfl
  | error reason =>
    have hpanic : handle e.order (Node.single s : Node Host) e.req = .panic reason :=
      handle_here_panic rfl he
    rw [serveAlone, hpanic]
    rfl

theorem serveAlone_of_execute {s s' : Storage} {e : Execution Host} {response : Response}
    (h : execute e.order s e.req = .ok (s', response)) : serveAlone s e = (s', response) := by
  rw [serveAlone_eq, h]
  rfl

variable [DecidableEq Host] (c : HostList Host) {nodes : Host → Node Host}

def keyOwner (c : HostList Host) (key : Str) : Host := c.owner (strStream key)

/-- Nothing but the storages of the nodes has changed since `update_peers`. -/
def Configured (c : HostList Host) (nodes : Host → Node Host) : Prop :=
  ∀ h ∈ c.hosts, nodes h = c.node (nodes h).storage h

theorem configured_start (stores : Host → Storage) : Configured c (Net.start c stores).nodes :=
  fun _ _ => rfl

theorem Configured.executed {net : Net Host} (h : Configured c net.nodes) (e : Execution Host)
    (s : Storage) :
    Configured c (net.executed e s).nodes := by
  intro host hh
  simp only [Net.executed]
  rcases eq_or_ne host e.host with rfl | hne
  · rw [Function.update_self, h _ hh]
    rfl
  · rw [Function.update_of_ne hne]
    exact h host hh

/-- A handler on the owner executes its request; any other calls the owner. -/
theorem handle_cases (hc : Configured c nodes) {host : Host} (hh : host ∈ c.hosts) {req : Request}
    (hv : req.Valid) (order : IterationOrder Str) :
    (keyOwner c req.key = host ∧ ∃ s response,
      execute order (nodes host).storage req = .ok (s, response) ∧
      handle order (nodes host) req = .answer s response) ∨
    ∃ shard, handle order (nodes host) req = .call shard (rpcOf req) (resumeOf req) ∧
      getClient (nodes host) shard = .ok (keyOwner c req.key) := by
  have hnode := hc host hh
  have hme := c.shard_eq_me_iff (nodes host).storage hh (strStream req.key)
  have hclient := c.getClient_shard (nodes host).storage host (strStream req.key)
  rw [← hnode] at hme hclient
  rcases eq_or_ne (c.owner (strStream req.key)) host with ho | ho
  · obtain ⟨s, response, he⟩ := execute_ok hv order (nodes host).storage
    exact .inl ⟨ho, s, response, he, handle_here (hme.mpr ho) he⟩
  · exact .inr ⟨_, handle_elsewhere (fun h => ho (hme.mp h)), hclient⟩

end HCache.RustClusterSteps
