import HCache.RustRouting

/-!
# A configured cluster of Rust nodes

Nodes that have all installed one list of distinct hosts, node `i` with index `i + 1`. The
shard that any of them computes for a key names the same host, the owner, and is equal to
`me` on the owner only. A request with nothing else in flight is executed by the owner.
-/
namespace HCache.RustClusterNodes
open OrderedMaps RustStorage RustRouting

/-- The host list of a cluster; the nodes are numbered by a `u32` from one on. -/
structure HostList (Host : Type) where
  hosts : List Host
  nodup : hosts.Nodup
  nonempty : hosts ≠ []
  numbered : hosts.length < 2 ^ 32

def twoNodes : HostList ℕ := ⟨[0, 1], by decide, by decide, by decide⟩

variable {Host : Type}

theorem HostList.length_pos (c : HostList Host) : 0 < c.hosts.length :=
  List.length_pos_iff.mpr c.nonempty

/-- The host at the shard of a hashed key. -/
def HostList.owner (c : HostList Host) (stream : List UInt8) : Host :=
  c.hosts.get ⟨(hashKey stream).toNat % c.hosts.length, Nat.mod_lt _ c.length_pos⟩

theorem owner_a : twoNodes.owner (strStream [97]) = 1 := by decide +kernel

theorem HostList.owner_mem (c : HostList Host) (stream : List UInt8) : c.owner stream ∈ c.hosts :=
  List.get_mem _ _

/-- Two streams have the same owner when their hashes agree modulo the number of nodes. -/
theorem HostList.owner_eq_owner_iff (c : HostList Host) (a b : List UInt8) :
    c.owner a = c.owner b ↔
      (hashKey a).toNat % c.hosts.length = (hashKey b).toNat % c.hosts.length := by
  rw [HostList.owner, HostList.owner, c.nodup.get_inj_iff, Fin.mk.injEq]

/-- The shard that a node with `count` set to the number of hosts computes. -/
theorem HostList.shard_toNat (c : HostList Host) (stream : List UInt8) :
    (getShard stream (UInt64.ofNat c.hosts.length)).toUInt32.toNat =
      (hashKey stream).toNat % c.hosts.length := by
  have hpos := c.length_pos
  have hlt := c.numbered
  have hcount : (UInt64.ofNat c.hosts.length).toNat = c.hosts.length :=
    UInt64.toNat_ofNat_of_lt' (by simp only [UInt64.size]; omega)
  have hne : UInt64.ofNat c.hosts.length ≠ 0 := by
    intro h0
    rw [h0] at hcount
    simp only [UInt64.toNat_zero] at hcount
    omega
  have hmod := Nat.mod_lt (hashKey stream).toNat hpos
  rw [UInt64.toNat_toUInt32, getShard_toNat hne, hcount]
  exact Nat.mod_eq_of_lt (hmod.trans hlt)

/-- The shard is the position of the owner in the host list. -/
theorem HostList.getElem?_shard (c : HostList Host) (stream : List UInt8) :
    c.hosts[(getShard stream (UInt64.ofNat c.hosts.length)).toUInt32.toNat]? =
      some (c.owner stream) := by
  have hlt := Nat.mod_lt (hashKey stream).toNat c.length_pos
  rw [c.shard_toNat, List.getElem?_eq_getElem hlt]
  rfl

variable [DecidableEq Host]

/-- `update_peers` on node `i` with index `i + 1`. -/
def HostList.node (c : HostList Host) (s : Storage) (h : Host) : Node Host :=
  (Node.single s).updatePeers c.hosts (UInt32.ofNat (c.hosts.idxOf h + 1))

@[simp] theorem HostList.node_storage (c : HostList Host) (s : Storage) (h : Host) :
    (c.node s h).storage = s := rfl

@[simp] theorem HostList.node_count (c : HostList Host) (s : Storage) (h : Host) :
    (c.node s h).count = UInt64.ofNat c.hosts.length := rfl

@[simp] theorem HostList.node_pool (c : HostList Host) (s : Storage) (h : Host) :
    (c.node s h).pool = c.hosts := rfl

theorem HostList.node_me (c : HostList Host) (s : Storage) {h : Host} (hh : h ∈ c.hosts) :
    (c.node s h).me.toNat = c.hosts.idxOf h := by
  have hidx := List.idxOf_lt_length_of_mem hh
  have hlt := c.numbered
  have hme : (c.node s h).me = UInt32.ofNat (c.hosts.idxOf h) := by
    simp [HostList.node, Node.updatePeers]
  rw [hme]
  exact UInt32.toNat_ofNat_of_lt' (by simp only [UInt32.size]; omega)

/-- A node finds its own number exactly under the keys it owns. -/
theorem HostList.shard_eq_me_iff (c : HostList Host) (s : Storage) {h : Host} (hh : h ∈ c.hosts)
    (stream : List UInt8) :
    (getShard stream (c.node s h).count).toUInt32 = (c.node s h).me ↔ c.owner stream = h := by
  have hidx := List.idxOf_lt_length_of_mem hh
  have howner : c.owner stream = h ↔ (hashKey stream).toNat % c.hosts.length = c.hosts.idxOf h := by
    have hget : c.hosts.get ⟨c.hosts.idxOf h, hidx⟩ = h := List.idxOf_get hidx
    conv_lhs => rw [← hget, HostList.owner, c.nodup.get_inj_iff, Fin.mk.injEq]
  rw [howner, ← UInt32.toNat_inj, c.node_me s hh, c.node_count, c.shard_toNat]

/-- `pool.get_client(shard)` indexes the clients, one for each host. -/
def getClient (n : Node Host) (shard : UInt32) : Except Panic Host :=
  match n.pool[shard.toNat]? with
  | some host => .ok host
  | none => .error .indexOutOfBounds

theorem HostList.getClient_shard (c : HostList Host) (s : Storage) (h : Host)
    (stream : List UInt8) :
    getClient (c.node s h) (getShard stream (c.node s h).count).toUInt32 =
      .ok (c.owner stream) := by
  rw [getClient, c.node_pool, c.node_count, c.getElem?_shard]

/-- A request with nothing else in flight: its handler, and its RPC if it makes one. -/
def request (order : IterationOrder Str) (nodes : Host → Node Host) (arrival : Host)
    (req : Request) :
    Except Panic ((Host → Node Host) × Response) :=
  match handle order (nodes arrival) req with
  | .answer s response =>
    .ok (Function.update nodes arrival { nodes arrival with storage := s }, response)
  | .panic reason => .error reason
  | .call shard rpc resume => do
    let target ← getClient (nodes arrival) shard
    match serveRpc order (nodes target).storage rpc with
    | .ok (s, reply) =>
      .ok (Function.update nodes target { nodes target with storage := s }, resume (some reply))
    | .error _ => .ok (nodes, resume none)

/-- Only the storage of a node changes. -/
theorem HostList.update_node (c : HostList Host) (stores : Host → Storage) (h : Host)
    (s : Storage) :
    Function.update (fun h => c.node (stores h) h) h { c.node (stores h) h with storage := s } =
      fun h' => c.node (Function.update stores h s h') h' := by
  funext h'
  rcases eq_or_ne h' h with rfl | hne
  · simp only [Function.update_self]
    rfl
  · simp only [Function.update_of_ne hne]

/-- Wherever a request arrives, the owner of its key executes it. -/
theorem HostList.request_eq_execute (c : HostList Host) (order : IterationOrder Str)
    (stores : Host → Storage) {arrival : Host} (ha : arrival ∈ c.hosts) (req : Request)
    {s : Storage} {response : Response}
    (he : execute order (stores (c.owner (strStream req.key))) req = .ok (s, response)) :
    request order (fun h => c.node (stores h) h) arrival req =
      .ok (fun h => c.node (Function.update stores (c.owner (strStream req.key)) s h) h,
        response) := by
  have hme := c.shard_eq_me_iff (stores arrival) ha (strStream req.key)
  rcases eq_or_ne (c.owner (strStream req.key)) arrival with ho | ho
  · rw [ho] at he ⊢
    rw [request, handle_here (hme.mpr ho) he]
    simp only [c.update_node]
  · obtain ⟨reply, hserve, rfl⟩ := serveRpc_of_execute he
    rw [request, handle_elsewhere (fun h => ho (hme.mp h))]
    simp only [Node.shardOf, c.getClient_shard, c.node_storage, bind, Except.bind, hserve]
    exact congrArg (fun nodes => Except.ok (nodes, resumeOf req (some reply)))
      (c.update_node stores _ _)

end HCache.RustClusterNodes
