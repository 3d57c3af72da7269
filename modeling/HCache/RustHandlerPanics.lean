import HCache.RustHttpHandler
import HCache.SequentialMachines

/-!
# Requests that the handler answers

On a server without a cluster configuration `hyper_handler` returns a response exactly for the
requests of a table: the path has the components that its route indexes, the body parses, a
range over a present sorted set does not start after its end, and `/init` and `/updateCluster`
find their peers and their file. No other request gets an answer, an error status least of all.
-/
namespace HCache.RustHandlerPanics
open Std OrderedMaps SequentialMachines DelimitedLists RustStorage RustRouting RustClusterNodes
  RustMultiKeyRequests RustPeerInstalls RustHttpHandler

def getOperands : GetRoute → ℕ
  | .query | .del => 1
  | .zrmv => 2
  | .init | .other => 0

def postOperands : PostRoute → ℕ
  | .zadd | .zrange => 1
  | .add | .batch | .list | .updateCluster | .other => 0

def HasComponents (req : HttpRequest) : Prop :=
  match req.method with
  | .get => ∃ route, (splitPath 4 req.path)[1]? = some route ∧
      getOperands (getRoute route) + 1 < (splitPath 4 req.path).length
  | .post => ∃ route, (splitPath 3 req.path)[1]? = some route ∧
      postOperands (postRoute route) + 1 < (splitPath 3 req.path).length
  | .other => True

/-- The body is a document of the type that its route is sent. -/
def parses (serde : Serde) (data : List UInt8) : PostRoute → Bool
  | .add => (serde.insrtRequest data).isSome
  | .batch => (serde.insrtRequests data).isSome
  | .list => (serde.keys data).isSome
  | .zadd => (serde.scoreValue data).isSome
  | .zrange => (serde.scoreRange data).isSome
  | .updateCluster => (serde.updateCluster data).isSome
  | .other => true

def Deserializes (serde : Serde) (req : HttpRequest) : Prop :=
  req.method = .post → ∀ route, (splitPath 3 req.path)[1]? = some route →
    parses serde req.body (postRoute route) = true

variable {Host : Type} [DecidableEq Host] (env : Env Host) (w : World Host) (arrival : Host)
  (req : HttpRequest)

/-- There is a response; after a malformed request it is an error and the stores are as before. -/
def Promised : Prop :=
  ∃ w' answer, hyperHandler env w arrival req = .ok (w', answer) ∧
    (¬ (HasComponents req ∧ Deserializes env.serde req) →
      answer.status ≠ .ok ∧ (w'.nodes arrival).storage = (w.nodes arrival).storage)

/-- Every host of the configuration is an address that answers, and its index is a node's. -/
def PeersConnect (process : Process) : Prop :=
  process.peerUpdated = true ∨ ∀ cluster, process.clusterJson.bind env.serde.updateCluster =
    some cluster →
    (env.build.subOne cluster.index).isSome = true ∧
      ∀ host ∈ cluster.hosts, ∃ addr, env.build.parse (host ++ peerPort) = some addr ∧
      env.reachable addr = true

/-- The requests that are answered. -/
def Answerable (s : Storage) (process : Process) : Prop :=
  match req.method with
  | .get => ∃ route, (splitPath 4 req.path)[1]? = some route ∧
    match getRoute route with
    | .query | .del => ∃ key, (splitPath 4 req.path)[2]? = some key
    | .zrmv =>
      ∃ key value, (splitPath 4 req.path)[2]? = some key ∧ (splitPath 4 req.path)[3]? = some value
    | .init => PeersConnect env process
    | .other => True
  | .post => ∃ route, (splitPath 3 req.path)[1]? = some route ∧
    match postRoute route with
    | .add => ∃ kv, env.serde.insrtRequest req.body = some kv
    | .batch => ∃ kvs, env.serde.insrtRequests req.body = some kvs
    | .list => ∃ keys, env.serde.keys req.body = some keys
    | .zadd =>
      ∃ key dto, (splitPath 3 req.path)[2]? = some key ∧ env.serde.scoreValue req.body = some dto
    | .zrange =>
      ∃ key dto, (splitPath 3 req.path)[2]? = some key ∧ env.serde.scoreRange req.body = some dto ∧
        (s.zsets[key]? = none ∨ dto.minScore ≤ dto.maxScore)
    | .updateCluster => (∃ cluster, env.serde.updateCluster req.body = some cluster) ∧
        (env.creates = true → env.writes = true)
    | .other => True
  | .other => True

private theorem lt_length_of_getElem? {parts : List Str} {i : ℕ} {part : Str}
    (h : parts[i]? = some part) :
    i < parts.length :=
  (List.getElem?_eq_some_iff.mp h).1

private theorem hasComponents_of_read {serde : Serde} {req : HttpRequest} {action : Action}
    (h : readRequest serde req = .ok action) : HasComponents req := by
  rw [HasComponents]
  cases hm : req.method with
  | get =>
    obtain ⟨route, hr, hrest⟩ := (read_get_iff hm (P := fun _ => True)).mp ⟨action, h, trivial⟩
    refine ⟨route, hr, ?_⟩
    cases hroute : getRoute route with
    | query | del =>
      simp only [hroute] at hrest
      obtain ⟨key, hkey, -⟩ := hrest
      exact lt_length_of_getElem? hkey
    | zrmv =>
      simp only [hroute] at hrest
      obtain ⟨key, value, -, hvalue, -⟩ := hrest
      exact lt_length_of_getElem? hvalue
    | init | other => exact lt_length_of_getElem? hr
  | post =>
    obtain ⟨route, hr, hrest⟩ := (read_post_iff hm (P := fun _ => True)).mp ⟨action, h, trivial⟩
    refine ⟨route, hr, ?_⟩
    cases hroute : postRoute route with
    | zadd | zrange =>
      simp only [hroute] at hrest
      obtain ⟨key, dto, hkey, -⟩ := hrest
      exact lt_length_of_getElem? hkey
    | add | batch | list | updateCluster | other => exact lt_length_of_getElem? hr
  | other => trivial

/-- Only `/updateCluster` takes a body that it does not parse. -/
theorem updateCluster_of_read {serde : Serde} {req : HttpRequest} {action : Action}
    (h : readRequest serde req = .ok action) (hd : ¬ Deserializes serde req) :
    action = .updateCluster req.body := by
  simp only [Deserializes, not_forall] at hd
  obtain ⟨hm, route, hr, hparse⟩ := hd
  obtain ⟨route', hr', hrest⟩ := (read_post_iff hm (P := fun a => a = action)).mp ⟨action, h, rfl⟩
  obtain rfl := Option.some.inj (hr.symm.trans hr')
  cases hroute : postRoute route with
  | updateCluster =>
    simp only [hroute] at hrest
    exact hrest.symm
  | add | batch | list =>
    simp only [hroute, parses] at hrest hparse
    obtain ⟨_, he, -⟩ := hrest
    simp [he] at hparse
  | zadd | zrange =>
    simp only [hroute, parses] at hrest hparse
    obtain ⟨_, _, -, he, -⟩ := hrest
    simp [he] at hparse
  | other => simp [hroute, parses] at hparse

variable {Host : Type} [DecidableEq Host] {env : Env Host} {w : World Host} {arrival : Host}

def Performable (env : Env Host) (s : Storage) (process : Process) : Action → Prop
  | .keyed (.zrange key dto) => s.zsets[key]? = none ∨ dto.minScore ≤ dto.maxScore
  | .init => PeersConnect env process
  | .updateCluster _ => env.creates = true → env.writes = true
  | .keyed _ | .batch _ | .list _ | .reply _ => True

omit [DecidableEq Host] in
private theorem execute_ok_iff (order : IterationOrder Str) {s : Storage} {process : Process}
    {req : Request} :
    (∃ p, execute order s req = .ok p) ↔ Performable env s process (.keyed req) := by
  cases req with
  | zrange key dto =>
    rw [Performable, ← UInt32.not_lt]
    cases hz : s.zsets[key]? with
    | none => simp [execute, Storage.zrange, hz, Except.map]
    | some z =>
      by_cases hr : dto.maxScore < dto.minScore
      · simp [execute, Storage.zrange, hz, ZSet.zrange, hr, Except.map]
      · simp [execute, Storage.zrange, hz, ZSet.zrange, hr, Except.map]
  | _ => simp [execute, Performable]

omit [DecidableEq Host] in
private theorem connectPeers_ok_iff {peers : List Str} :
    (∃ pool, connectPeers env peers = .ok pool) ↔
      ∀ host ∈ peers, ∃ addr, env.build.parse (host ++ peerPort) = some addr ∧
        env.reachable addr = true := by
  rw [connectPeers, mapM_ok_iff]
  apply forall₂_congr
  intro host _
  cases env.build.parse (host ++ peerPort) with
  | none => simp [throw, throwThe, MonadExceptOf.throw]
  | some addr =>
    by_cases hreach : env.reachable addr = true
    · simp [hreach, pure, Except.pure]
    · simp [hreach, throw, throwThe, MonadExceptOf.throw]

private theorem updatePeers_ok_iff {cluster : UpdateCluster} :
    (∃ w', updatePeers env w arrival cluster = .ok w') ↔
    (env.build.subOne cluster.index).isSome = true ∧
      ∀ host ∈ cluster.hosts, ∃ addr, env.build.parse (host ++ peerPort) = some addr ∧
        env.reachable addr = true := by
  rw [← connectPeers_ok_iff, updatePeers]
  cases env.build.subOne cluster.index with
  | none => simp [throw, throwThe, MonadExceptOf.throw]
  | some me =>
    simp only [bind_eq_ok, pure, Except.pure, Except.ok.injEq, Option.isSome_some, true_and]
    constructor
    · rintro ⟨w', pool, hpool, -⟩
      exact ⟨pool, hpool⟩
    · rintro ⟨pool, hpool⟩
      exact ⟨_, pool, hpool, rfl⟩

private theorem tryLoadPeers_ok_iff :
    (∃ w', tryLoadPeers env w arrival = .ok w') ↔ PeersConnect env (w.processes arrival) := by
  rw [tryLoadPeers, PeersConnect]
  cases (w.processes arrival).clusterJson.bind env.serde.updateCluster with
  | none => simp
  | some cluster =>
    by_cases hupdated : (w.processes arrival).peerUpdated = true
    · simp [hupdated]
    · simp only [hupdated, if_false, updatePeers_ok_iff, false_or, Option.some.injEq, forall_eq',
        Bool.false_eq_true]

private theorem handleInit_ok_iff :
    (∃ p, handleInit env w arrival = .ok p) ↔ PeersConnect env (w.processes arrival) := by
  simp only [← tryLoadPeers_ok_iff, handleInit, bind_eq_ok]
  constructor
  · rintro ⟨-, w', hw, -⟩
    exact ⟨w', hw⟩
  · rintro ⟨w', hw⟩
    cases hstate : (w'.processes arrival).loadState with
    | init => exact ⟨_, w', hw, by rw [hstate]; rfl⟩
    | loading => exact ⟨_, w', hw, by rw [hstate]; rfl⟩
    | loaded => exact ⟨_, w', hw, by rw [hstate]; rfl⟩

private theorem handleUpdatecluster_ok_iff {data : List UInt8} :
    (∃ p, handleUpdatecluster env w arrival data = .ok p) ↔
    (env.creates = true → env.writes = true) := by
  unfold handleUpdatecluster
  cases env.creates <;> cases env.writes <;> simp

private theorem map_ok_iff {α β : Type} {x : Except Stop α} {f : α → β} :
    (∃ b, x.map f = .ok b) ↔ ∃ a, x = .ok a := by
  cases x <;> simp [Except.map]

private theorem perform_ok_iff (hcount : (w.nodes arrival).count = 0)
    (hme : (w.nodes arrival).me = 0) {action : Action} :
    (∃ p, perform env w arrival action = .ok p) ↔
      Performable env (w.nodes arrival).storage (w.processes arrival) action := by
  cases action with
  | keyed req =>
    rw [perform, request_unconfigured hcount hme, ← execute_ok_iff env.sets]
    cases execute env.sets (w.nodes arrival).storage req <;> simp [Except.map]
  | batch kvs => simp [perform, Performable]
  | list keys => simp [perform, Performable]
  | init => rw [perform, map_ok_iff, handleInit_ok_iff, Performable]
  | updateCluster data => rw [perform, map_ok_iff, handleUpdatecluster_ok_iff, Performable]
  | reply response => simp [perform, Performable]

private theorem answered_iff (hcount : (w.nodes arrival).count = 0) (hme : (w.nodes arrival).me = 0)
    {req : HttpRequest} :
    (∃ p, hyperHandler env w arrival req = .ok p) ↔
    ∃ action, readRequest env.serde req = .ok action ∧
      Performable env (w.nodes arrival).storage (w.processes arrival) action := by
  simp only [hyperHandler, bind_eq_ok, ← perform_ok_iff hcount hme]
  constructor
  · rintro ⟨p, action, hread, hp⟩
    exact ⟨action, hread, p, hp⟩
  · rintro ⟨action, hread, p, hp⟩
    exact ⟨p, action, hread, hp⟩

private theorem promised_iff {req : HttpRequest} :
    Promised env w arrival req ↔ Deserializes env.serde req ∧
    ∃ p, hyperHandler env w arrival req = .ok p := by
  constructor
  · rintro ⟨w', answer, h, herror⟩
    refine ⟨?_, _, h⟩
    by_contra hd
    obtain ⟨action, hread, hperform⟩ := bind_eq_ok.mp h
    obtain rfl := updateCluster_of_read hread hd
    exact (herror (fun hwell => hd hwell.2)).1 (perform_updateCluster hperform).2
  · rintro ⟨hd, ⟨w', answer⟩, h⟩
    obtain ⟨action, hread, -⟩ := bind_eq_ok.mp h
    exact ⟨w', answer, h, fun hbad => absurd ⟨hasComponents_of_read hread, hd⟩ hbad⟩

omit [DecidableEq Host] in
private theorem answerable_iff {s : Storage} {process : Process} {req : HttpRequest} :
    Answerable env req s process ↔ Deserializes env.serde req ∧
      ∃ action, readRequest env.serde req = .ok action ∧ Performable env s process action := by
  rw [Answerable, Deserializes]
  cases hm : req.method with
  | get =>
    simp only [read_get_iff hm, reduceCtorEq, false_imp_iff, true_and]
    apply exists_congr
    intro route
    apply and_congr_right
    intro _
    cases getRoute route <;> simp [Performable]
  | post =>
    simp only [read_post_iff hm, true_imp_iff]
    cases hr : (splitPath 3 req.path)[1]? with
    | none => simp
    | some route =>
      simp only [Option.some.injEq, exists_eq_left', forall_eq']
      cases postRoute route with
      | zadd =>
        simp only [parses, Performable, Option.isSome_iff_exists, and_true, iff_and_self]
        rintro ⟨key, dto, -, hdto⟩
        exact ⟨dto, hdto⟩
      | zrange =>
        simp only [parses, Performable, Option.isSome_iff_exists, iff_and_self]
        rintro ⟨key, dto, -, hdto, -⟩
        exact ⟨dto, hdto⟩
      | _ => simp only [parses, Performable, Option.isSome_iff_exists, and_true, and_self]
  | other => simp [readRequest, hm, Performable, pure, Except.pure]

/-- The promise is kept to the requests of the table and to no other. -/
theorem handler_promise_iff (env : Env Host) (w : World Host) (arrival : Host)
    (hcount : (w.nodes arrival).count = 0) (hme : (w.nodes arrival).me = 0) (req : HttpRequest) :
    Promised env w arrival req ↔
    Answerable env req (w.nodes arrival).storage (w.processes arrival) := by
  rw [promised_iff, answerable_iff, answered_iff hcount hme]

def freshWorld : World ℕ := ⟨fun _ => Node.single Storage.new, fun _ => ⟨false, .init, none⟩⟩

theorem handler_promise_to_query : Promised quietEnv freshWorld 0 ⟨.get, utf8 "/query/a", []⟩ := by
  have hquery : Answerable quietEnv ⟨.get, utf8 "/query/a", []⟩ Storage.new
      ⟨false, .init, none⟩ := by
    refine ⟨utf8 "query", by decide +kernel, ?_⟩
    have hroute : getRoute (utf8 "query") = .query := by decide +kernel
    rw [hroute]
    exact ⟨utf8 "a", by decide +kernel⟩
  exact (handler_promise_iff quietEnv freshWorld 0 rfl rfl ⟨.get, utf8 "/query/a", []⟩).mpr hquery

/-- `GET /query` names no key, and the handler indexes a component that is not there. -/
theorem query_without_key_panics :
    hyperHandler quietEnv freshWorld 0 ⟨.get, utf8 "/query", []⟩ = .error (.panicked .pathIndex) ∧
      ¬ Promised quietEnv freshWorld 0 ⟨.get, utf8 "/query", []⟩ := by
  have hread : readRequest quietEnv.serde ⟨.get, utf8 "/query", []⟩ =
      .error (.panicked .pathIndex) := by
    have hpath : splitPath 4 (utf8 "/query") = [[], utf8 "query"] := by decide +kernel
    have hroute : getRoute (utf8 "query") = .query := by decide +kernel
    simp [readRequest, hpath, component, hroute, bind, Except.bind]
  have hstop : hyperHandler quietEnv freshWorld 0 ⟨.get, utf8 "/query", []⟩ =
      .error (.panicked .pathIndex) := by
    rw [hyperHandler, hread]
    rfl
  refine ⟨hstop, ?_⟩
  rintro ⟨w', answer, hanswer, -⟩
  rw [hstop] at hanswer
  cases hanswer

end HCache.RustHandlerPanics
