import HCache.RustTurnHistories

/-!
# What the clients of a cluster get while RPCs fail

In every run a host has had the first of the turns that a request needs there, each once, and
all of them where no RPC has failed. A request for one key is answered from one moment, or with
an error; a list misses exactly the keys of its failed RPCs; a batch says nothing. Turns take
their steps one by one; those on one key overlap only where they read.
-/
namespace HCache.RustClusterAnswers
open OrderedMaps KeyPartitions SequentialMachines InterleavedSystems RustStorage RustRouting
  RustClusterNodes RustClusterStores RustMultiKeyRequests RustClusterCalls RustClusterCallHistories
open CompositeCalls (Entry History answers exists_of_mem_answers entriesOf mem_entriesOf)
open RustClusterSteps (keyOwner serveAlone Execution)

variable {Host : Type} [DecidableEq Host] {c : HostList Host} {stores : Host → Storage}
  {net : Net Host}

/-- The turns that a request has had on a host. -/
def turnsOn (net : Net Host) (id : ℕ) (h : Host) : List Turn :=
  (net.service.log.filter (fun e => e.call.unpair.1 = id ∧ e.op.host = h)).map (fun e => e.op.turn)

/-- The handler has got an error from its RPC to the host. -/
def Lost (c : HostList Host) (net : Net Host) (id : ℕ) (a : Arrival Host) (h : Host) : Prop :=
  ∃ (i : ℕ) (task : RustClusterCalls.Task) (error : TaskError), (tasksIn c a)[i]? = some task ∧
    task.shard = shardFor c a h ∧
    net.outcomes (id, i) = some (.error error)

theorem shardFor_inj {a : Arrival Host} {h h' : Host} (hh : h ∈ c.hosts) (hh' : h' ∈ c.hosts)
    (heq : shardFor c a h = shardFor c a h') : h = h' := by
  simp only [shardFor] at heq
  by_cases hhost : h = a.host
  · by_cases hhost' : h' = a.host
    · exact hhost.trans hhost'.symm
    · simp [hhost, hhost'] at heq
  · by_cases hhost' : h' = a.host
    · simp [hhost, hhost'] at heq
    · rw [if_neg hhost, if_neg hhost'] at heq
      exact shardNo_inj c hh hh' (Option.some.inj heq)

private theorem nodup_shards (c : HostList Host) (a : Arrival Host) :
    ((tasksIn c a).map Task.shard).Nodup := by
  have hparts : ∀ {β : Type} (order : EntryOrder UInt32 β) (sharded : Std.ExtTreeMap UInt32 β),
      ((spawned order (c.node Storage.new a.host) sharded).map
        (fun part => some part.1)).Nodup := by
    intro β order sharded
    have hmap :=
      (nodup_spawned (n := c.node Storage.new a.host) order sharded).map
        (Option.some_injective UInt32)
    rwa [List.map_map] at hmap
  obtain ⟨host, req, sets, batches, lists⟩ := a
  cases req with
  | one req =>
    simp only [tasksIn, tasksOf]
    split <;> simp
  | batch kvs =>
    simp only [tasksIn, tasksOf, List.map_cons, List.map_map, List.nodup_cons]
    exact ⟨by simp, hparts batches _⟩
  | list keys =>
    simp only [tasksIn, tasksOf, List.map_cons, List.map_map, List.nodup_cons]
    exact ⟨by simp, hparts lists _⟩

theorem task_index_inj {a : Arrival Host} {i i' : ℕ} {task task' : RustClusterCalls.Task}
    (htask : (tasksIn c a)[i]? = some task) (htask' : (tasksIn c a)[i']? = some task')
    (heq : task.shard = task'.shard) : i = i' := by
  refine (List.getElem?_inj ?_ (nodup_shards c a)).mp ?_
  · rw [List.length_map]
    exact (List.getElem?_eq_some_iff.mp htask).1
  · rw [List.getElem?_map, List.getElem?_map, htask, htask', Option.map_some, Option.map_some, heq]

private theorem key_of_mem_turnsFor_one {a : Arrival Host} {req : Request} (hreq : a.req = .one req)
    {h : Host} {turn : Turn} (hturn : turn ∈ turnsFor c a h) : turn.key = req.key := by
  simp only [turnsFor, hreq] at hturn
  by_cases howner : keyOwner c req.key = h
  · rw [if_pos howner] at hturn
    rw [List.mem_singleton.mp hturn]
    split <;> rfl
  · simp [howner] at hturn

/-- A host with turns has a task. -/
theorem exists_task {a : Arrival Host} (ha : a.host ∈ c.hosts) {h : Host} {turn : Turn}
    (hturn : turn ∈ turnsFor c a h) :
    ∃ task ∈ tasksIn c a, task.shard = shardFor c a h := by
  obtain rfl := keyOwner_of_mem_turnsFor hturn
  obtain ⟨host, req, sets, batches, lists⟩ := a
  simp only at ha
  by_cases howner : keyOwner c turn.key = host
  · rw [howner]
    cases req with
    | one req =>
      rw [key_of_mem_turnsFor_one rfl hturn, ← shardOf_me_iff ha] at howner
      simp only [tasksIn, tasksOf, if_pos howner]
      exact ⟨_, List.mem_singleton_self _, by simp [shardFor]⟩
    | batch kvs => exact ⟨_, List.mem_cons_self, by simp [shardFor]⟩
    | list keys => exact ⟨_, List.mem_cons_self, by simp [shardFor]⟩
  · have hremote : ∀ {key : Str}, keyOwner c key = keyOwner c turn.key →
        (c.node Storage.new host).shardOf key ≠ (c.node Storage.new host).me := by
      intro key hkey hme
      exact howner (hkey ▸ (shardOf_me_iff ha _).mp hme)
    cases req with
    | one req =>
      have hkey : keyOwner c req.key = keyOwner c turn.key := by
        rw [key_of_mem_turnsFor_one rfl hturn]
      simp only [tasksIn, tasksOf, if_neg (hremote hkey)]
      refine ⟨_, List.mem_singleton_self _, ?_⟩
      rw [← hkey]
      rw [← hkey] at howner
      exact shardFor_of_ne (a := ⟨host, .one req, sets, batches, lists⟩) howner
    | batch kvs =>
      obtain ⟨kv, hkv, -⟩ := List.mem_map.mp hturn
      obtain ⟨hin, hkey⟩ := List.mem_filter.mp hkv
      have hkey : keyOwner c kv.key = keyOwner c turn.key := by simpa using hkey
      refine ⟨_,
        List.mem_cons_of_mem _
          (List.mem_map_of_mem (mem_spawned_batch.mpr ⟨rfl, ⟨kv, hin, rfl⟩, hremote hkey⟩)), ?_⟩
      rw [← hkey]
      rw [← hkey] at howner
      exact shardFor_of_ne (a := ⟨host, .batch kvs, sets, batches, lists⟩) howner
    | list keys =>
      obtain ⟨key, hin, -⟩ := List.mem_map.mp hturn
      rw [IterationOrder.mem_list, Finset.mem_filter, List.mem_toFinset] at hin
      obtain ⟨b, hb⟩ := exists_spawned_keys lists hin.1 (hremote hin.2)
      refine ⟨_, List.mem_cons_of_mem _ (List.mem_map_of_mem hb), ?_⟩
      rw [← hin.2]
      rw [← hin.2] at howner
      exact shardFor_of_ne (a := ⟨host, .list keys, sets, batches, lists⟩) howner

/-- A turn in the log belongs to the task of its host. -/
theorem task_of_entry (h : Inv c stores net) {e : Entry (HostTurn Host)} (he : e ∈ net.service.log)
    {a : Arrival Host} (ha : net.requests e.call.unpair.1 = some a) :
    ∃ i task, e.call = taskId e.call.unpair.1 i ∧ (tasksIn c a)[i]? = some task ∧
      task.turns[e.index]? = some e.op.turn ∧ task.shard = shardFor c a e.op.host ∧
      e.op.host ∈ c.hosts := by
  obtain ⟨id, i, a', task, hcall, ha', htask, hturn, hhost⟩ := h.performed he
  have hid : e.call.unpair.1 = id := by rw [hcall, taskId, Nat.unpair_pair]
  rw [hid] at ha ⊢
  obtain rfl := Option.some.inj (ha.symm.trans ha')
  obtain ⟨host, hh, hshard, hturns⟩ := mem_tasksIn (h.hosts id a ha) (List.mem_of_getElem? htask)
  have howner := keyOwner_of_mem_turnsFor (hturns ▸ List.mem_of_getElem? hturn)
  rw [hhost, howner]
  exact ⟨i, task, hcall, htask, hturn, hshard, hh⟩

theorem turnsOn_eq (h : Inv c stores net) {id i : ℕ} {a : Arrival Host}
    (ha : net.requests id = some a) {task : RustClusterCalls.Task}
    (htask : (tasksIn c a)[i]? = some task) {host : Host} (hh : host ∈ c.hosts)
    (hshard : task.shard = shardFor c a host) :
    turnsOn net id host =
      ((entriesOf net.service.log (taskId id i)).map Entry.op).map HostTurn.turn := by
  rw [turnsOn, entriesOf, List.map_map]
  congr 1
  refine List.filter_congr (fun e he => decide_eq_decide.mpr ⟨?_, ?_⟩)
  · rintro ⟨rfl, rfl⟩
    obtain ⟨i', task', hcall, htask', -, hshard', -⟩ := task_of_entry h he ha
    rw [hcall, task_index_inj htask htask' (hshard.trans hshard'.symm)]
    simp [taskId]
  · intro hcall
    have hid : e.call.unpair.1 = id := by rw [hcall, taskId, Nat.unpair_pair]
    obtain ⟨i', task', hcall', htask', -, hshard', hhost⟩ := task_of_entry h he (hid.symm ▸ ha)
    obtain ⟨-, rfl⟩ := taskId_inj (hcall.symm.trans hcall')
    obtain rfl := Option.some.inj (htask.symm.trans htask')
    exact ⟨hid, shardFor_inj hhost hh (hshard'.symm.trans hshard)⟩

/-- A host has had the first of its turns. -/
theorem turnsOn_prefix (h : Inv c stores net) {id : ℕ} {a : Arrival Host}
    (ha : net.requests id = some a) {host : Host} (hh : host ∈ c.hosts) :
    turnsOn net id host <+: turnsFor c a host := by
  rcases hnil : turnsOn net id host with _ | ⟨turn, rest⟩
  · exact List.nil_prefix
  rw [← hnil]
  have hmem : turn ∈ turnsOn net id host := by simp [hnil]
  obtain ⟨e, he, rfl⟩ := List.mem_map.mp hmem
  obtain ⟨hlog, hwhich⟩ := List.mem_filter.mp he
  obtain ⟨rfl, rfl⟩ : e.call.unpair.1 = id ∧ e.op.host = host := by simpa using hwhich
  obtain ⟨i, task, hcall, htask, -, hshard, -⟩ := task_of_entry h hlog ha
  obtain ⟨host', hh', hshard', hturns⟩ := mem_tasksIn (h.hosts _ a ha) (List.mem_of_getElem? htask)
  obtain rfl := shardFor_inj hh' hh (hshard'.symm.trans hshard)
  obtain ⟨turns, hcalls, -⟩ := h.history.logged e hlog
  rw [hcall] at hcalls
  obtain ⟨a', task', host', ha', htask', rfl, -⟩ := h.started _ i turns hcalls
  obtain rfl := Option.some.inj (ha.symm.trans ha')
  obtain rfl := Option.some.inj (htask.symm.trans htask')
  rw [turnsOn_eq h ha htask hh hshard, ← hturns]
  have hbegins := (h.history.ops_prefix hcalls (fun _ _ _ _ => rfl)).map HostTurn.turn
  simpa [Function.comp_def] using hbegins

/-- Where no RPC has failed, a host has had all turns of a request that has been answered. -/
theorem turnsOn_complete (h : Inv c stores net) {id : ℕ} {a : Arrival Host}
    (ha : net.requests id = some a) {response : ClusterResponse}
    (hresponse : net.responses id = some response) {host : Host} (hh : host ∈ c.hosts)
    (hlost : ¬ Lost c net id a host) : turnsOn net id host = turnsFor c a host := by
  rcases hnil : turnsFor c a host with _ | ⟨turn, rest⟩
  · have hbegins := turnsOn_prefix h ha hh
    rw [hnil] at hbegins
    exact List.prefix_nil.mp hbegins
  rw [← hnil]
  have hhost := h.hosts id a ha
  have hturn : turn ∈ turnsFor c a host := by simp [hnil]
  obtain ⟨task, hin, hshard⟩ := exists_task hhost hturn
  obtain ⟨host', hh', hshard', hturns⟩ := mem_tasksIn hhost hin
  obtain rfl := shardFor_inj hh' hh (hshard'.symm.trans hshard)
  obtain ⟨i, htask⟩ := List.getElem?_of_mem hin
  obtain ⟨a', outcomes, ha', hlength, houtcomes, -⟩ := h.responded id response hresponse
  obtain rfl := Option.some.inj (ha.symm.trans ha')
  have hi : i < outcomes.length := hlength ▸ (List.getElem?_eq_some_iff.mp htask).1
  have houtcome := houtcomes i _ (List.getElem?_eq_getElem hi)
  cases hwhich : outcomes[i] with
  | error error => exact absurd ⟨i, task, error, htask, hshard, hwhich ▸ houtcome⟩ hlost
  | ok replies =>
    rw [hwhich] at houtcome
    obtain ⟨turns, hcalls, -⟩ := h.settled id i _ houtcome
    obtain ⟨a', task', host', ha', htask', rfl, -⟩ := h.started _ i turns hcalls
    obtain rfl := Option.some.inj (ha.symm.trans ha')
    obtain rfl := Option.some.inj (htask.symm.trans htask')
    have heq := h.history.ops_eq hcalls (fun _ _ _ _ => rfl) (fun j hj => by
      rw [List.length_map] at hj
      exact h.performed_of_ok houtcome ha htask hj)
    rw [turnsOn_eq h ha htask hh hshard, heq, ← hturns, List.map_map]
    exact List.map_id _

noncomputable def heldAt (c : HostList Host) (stores : Host → Storage)
    (moment : List (Entry (HostTurn Host))) : Storage :=
  final performAlone (merged c stores) (moment.map Entry.op)

/-- The moment of a log at which a request has its turn for a key. -/
def TurnAt (log : List (Entry (HostTurn Host))) (id : ℕ) (key : Str)
    (moment : List (Entry (HostTurn Host))) : Prop :=
  ∃ e later, log = moment ++ e :: later ∧ e.call.unpair.1 = id ∧ e.op.turn.key = key

/-- What has been done for an answered request and what its client has got. -/
structure Answered (c : HostList Host) (stores : Host → Storage) (net : Net Host) (id : ℕ)
    (a : Arrival Host) (response : ClusterResponse) : Prop where
  /-- A host has had all turns of the request where no RPC has failed, as the one that it has
  arrived on. -/
  applied : ∀ h ∈ c.hosts, ¬ Lost c net id a h → turnsOn net id h = turnsFor c a h
  here : ¬ Lost c net id a a.host
  /-- The client of a request for one key cannot know whether it has been performed if it gets an
  error. -/
  lost : ∀ req, a.req = .one req → Lost c net id a (keyOwner c req.key) →
    response = .one .internalServerError
  one : ∀ req, a.req = .one req → ¬ Lost c net id a (keyOwner c req.key) →
    ∃ moment, TurnAt net.service.log id req.key moment ∧
      response =
        .one (serveAlone (heldAt c stores moment) (⟨id, a.host, req, a.sets⟩ : Execution Host)).2
  batch : ∀ kvs, a.req = .batch kvs → response = .many .done
  /-- Each key of a list is read once, but for those whose owner is lost. -/
  list : ∀ keys, a.req = .list keys → ∃ result,
    response = .many (if result = [] then .notFound else ⟨.ok, .kvs result⟩) ∧
    (result.map InsrtRequest.key).Nodup ∧
    ∀ key value, ⟨key, value⟩ ∈ result ↔ key ∈ keys ∧ ¬ Lost c net id a (keyOwner c key) ∧
      ∃ moment, TurnAt net.service.log id key moment ∧
      (heldAt c stores moment).kv[key]? = some value

private theorem reply_at (h : Inv c stores net) {id i j : ℕ} {a : Arrival Host}
    (ha : net.requests id = some a) {task : RustClusterCalls.Task}
    (htask : (tasksIn c a)[i]? = some task) {r : Reply}
    (hr : ((taskId id i, j), r) ∈ answers performAlone (merged c stores) net.service.log) :
    ∃ moment turn, task.turns[j]? = some turn ∧ TurnAt net.service.log id turn.key moment ∧
      r = (turn.perform (heldAt c stores moment)).2 := by
  obtain ⟨moment, e, later, hlog, hkey, rfl⟩ := exists_of_mem_answers hr
  obtain ⟨hcall, rfl⟩ := Prod.mk.inj hkey
  have hid : e.call.unpair.1 = id := by rw [hcall, taskId, Nat.unpair_pair]
  have he : e ∈ net.service.log := by simp [hlog]
  obtain ⟨i', task', hcall', htask', hturn, -⟩ := task_of_entry h he (hid.symm ▸ ha)
  obtain ⟨-, rfl⟩ := taskId_inj (hcall.symm.trans hcall')
  obtain rfl := Option.some.inj (htask.symm.trans htask')
  exact ⟨moment, e.op.turn, hturn, ⟨e, later, hlog, hid, rfl⟩, rfl⟩

/-- The replies of a task belong to its turns. -/
theorem replies_at (h : Inv c stores net) {id i : ℕ} {a : Arrival Host}
    (ha : net.requests id = some a) {outcomes : List Outcome}
    (hfrom : AnsweredFrom c (answers performAlone (merged c stores) net.service.log) id a outcomes)
    {task : RustClusterCalls.Task} (htask : (tasksIn c a)[i]? = some task) {replies : List Reply}
    (hok : outcomes[i]? = some (.ok replies)) :
    List.Forall₂ (fun r turn => ∃ moment, TurnAt net.service.log id turn.key moment ∧
      r = (turn.perform (heldAt c stores moment)).2) replies task.turns := by
  obtain ⟨hlength, hreplies⟩ := hfrom.done i task replies htask hok
  refine List.forall₂_iff_get.mpr ⟨hlength, fun j hj hj' => ?_⟩
  obtain ⟨moment, turn, hturn, hat⟩ :=
    reply_at h ha htask (hreplies j _ (List.getElem?_eq_getElem hj))
  rw [List.getElem?_eq_getElem hj'] at hturn
  obtain rfl := Option.some.inj hturn
  exact ⟨moment, hat⟩

private theorem not_lost_here (h : Inv c stores net) {id : ℕ} {a : Arrival Host}
    (ha : net.requests id = some a) :
    ¬ Lost c net id a a.host := by
  rintro ⟨i, task, error, htask, hshard, houtcome⟩
  obtain ⟨a', task', ha', htask', hremote⟩ := h.settled id i _ houtcome
  obtain rfl := Option.some.inj (ha.symm.trans ha')
  obtain rfl := Option.some.inj (htask.symm.trans htask')
  simp [hshard, shardFor] at hremote

private theorem tasksIn_one {a : Arrival Host} (ha : a.host ∈ c.hosts) {req : Request}
    (hreq : a.req = .one req) :
    ∃ task turn, tasksIn c a = [task] ∧ task.shard = shardFor c a (keyOwner c req.key) ∧
      task.turns = [turn] ∧
      (turn = .handle a.sets req ∨ turn = .serve a.sets req) := by
  simp only [tasksIn, tasksOf, hreq]
  split
  · next hme =>
    rw [(shardOf_me_iff ha _).mp hme]
    exact ⟨_, _, rfl, by simp [shardFor], rfl, .inl rfl⟩
  · next hme =>
      exact ⟨_, _, rfl, shardFor_of_ne (fun he => hme ((shardOf_me_iff ha _).mpr he)),
        rfl, .inr rfl⟩

omit [DecidableEq Host] in
private theorem perform_one (s : Storage) (host : Host) (id : ℕ) {sets : IterationOrder Str}
    {req : Request} {turn : Turn} (hturn : turn = .handle sets req ∨ turn = .serve sets req) :
    (turn.perform s).2 = .response (serveAlone s (⟨id, host, req, sets⟩ : Execution Host)).2 := by
  rcases hturn with rfl | rfl
  · rw [perform_handle]
    rfl
  · rw [perform_serve, perform_handle]
    rfl

private theorem answered_one (h : Inv c stores net) {id : ℕ} {a : Arrival Host}
    (ha : net.requests id = some a) {outcomes : List Outcome}
    (hfrom : AnsweredFrom c (answers performAlone (merged c stores) net.service.log) id a outcomes)
    (houtcomes : ∀ i outcome, outcomes[i]? = some outcome → net.outcomes (id, i) = some outcome)
    {req : Request} (hreq : a.req = .one req) :
    (Lost c net id a (keyOwner c req.key) ∧ a.req.respond outcomes = .one .internalServerError) ∨
    (¬ Lost c net id a (keyOwner c req.key) ∧ ∃ moment, TurnAt net.service.log id req.key moment ∧
      a.req.respond outcomes =
        .one
          (serveAlone (heldAt c stores moment)
            (⟨id, a.host, req, a.sets⟩ : Execution Host)).2) := by
  obtain ⟨task, turn, htasks, hshard, hturns, hturn⟩ := tasksIn_one (h.hosts id a ha) hreq
  have htask : (tasksIn c a)[0]? = some task := by simp [htasks]
  have hlength := hfrom.all
  rw [htasks] at hlength
  obtain ⟨outcome, rfl⟩ := List.length_eq_one_iff.mp hlength
  have houtcome := houtcomes 0 outcome rfl
  cases outcome with
  | error error => exact .inl ⟨⟨0, task, error, htask, hshard, houtcome⟩, by rw [hreq]; rfl⟩
  | ok replies =>
    refine .inr ⟨?_, ?_⟩
    · rintro ⟨i, task', error, htask', hshard', houtcome'⟩
      obtain rfl := task_index_inj htask htask' (hshard.trans hshard'.symm)
      simp [houtcome] at houtcome'
    · have hreplies := replies_at h ha hfrom htask rfl
      rw [hturns] at hreplies
      obtain ⟨r, rest, ⟨moment, hat, rfl⟩, hnil, rfl⟩ := List.forall₂_cons_right_iff.mp hreplies
      obtain rfl := List.forall₂_nil_right_iff.mp hnil
      have hkey : turn.key = req.key := by rcases hturn with rfl | rfl <;> rfl
      refine ⟨moment, hkey ▸ hat, ?_⟩
      rw [hreq, perform_one _ a.host id hturn]
      rfl

omit [DecidableEq Host] in
private theorem mem_foundIn {outcome : Outcome} {kv : InsrtRequest} :
    kv ∈ foundIn outcome ↔ ∃ replies, outcome = .ok replies ∧ .found (some kv) ∈ replies := by
  cases outcome with
  | error error => simp [foundIn]
  | ok replies =>
    simp only [foundIn, List.mem_filterMap, Except.ok.injEq, exists_eq_left']
    constructor
    · rintro ⟨reply, hreply, hkv⟩
      cases reply with
      | found found => exact hkv ▸ hreply
      | response response => simp at hkv
      | unit => simp at hkv
    · exact fun hkv => ⟨_, hkv, rfl⟩

/-- Only a read finds something, and that is what is held under its key. -/
theorem key_of_found {s : Storage} {turn : Turn} {kv : InsrtRequest}
    (hfound : (turn.perform s).2 = .found (some kv)) :
    kv.key = turn.key ∧ s.kv[kv.key]? = some kv.value := by
  cases turn with
  | handle order req =>
    rw [perform_handle] at hfound
    simp at hfound
  | serve order req =>
    rw [perform_serve, perform_handle] at hfound
    simp at hfound
  | insertInMemory kv' => simp [Turn.perform] at hfound
  | insert kv' => simp [Turn.perform] at hfound
  | get key =>
    simp only [Turn.perform, Reply.found.injEq, Option.map_eq_some_iff, Storage.getKv] at hfound
    obtain ⟨value, hvalue, rfl⟩ := hfound
    exact ⟨rfl, hvalue⟩

private theorem found_sublist {replies : List Reply} {turns : List Turn}
    (h : List.Forall₂ (fun r turn => ∃ s : Storage, r = (Turn.perform s turn).2) replies turns) :
    ((foundIn (.ok replies)).map InsrtRequest.key).Sublist (turns.map Turn.key) := by
  induction h with
  | nil => exact List.nil_sublist _
  | @cons r turn replies turns hr _ ih =>
    obtain ⟨s, rfl⟩ := hr
    simp only [foundIn, List.filterMap_cons, List.map_cons] at ih ⊢
    split
    · exact ih.cons _
    · next kv hkv =>
      cases hreply : (turn.perform s).2 with
      | found found =>
        rw [hreply] at hkv
        simp only at hkv
        rw [List.map_cons, (key_of_found (hreply.trans (congrArg Reply.found hkv))).1]
        exact ih.cons_cons _
      | response response => simp [hreply] at hkv
      | unit => simp [hreply] at hkv

/-- A task of a list reads the keys of its host, each once. -/
theorem turns_list {a : Arrival Host} (ha : a.host ∈ c.hosts) {keys : List Str}
    (hreq : a.req = .list keys) {task : RustClusterCalls.Task} (htask : task ∈ tasksIn c a) :
    (task.turns.map Turn.key).Nodup ∧ ∀ turn ∈ task.turns, turn.key ∈ keys ∧ turn = .get turn.key ∧
      task.shard = shardFor c a (keyOwner c turn.key) := by
  obtain ⟨h, -, hshard, hturns⟩ := mem_tasksIn ha htask
  have howner : ∀ turn ∈ task.turns, keyOwner c turn.key = h :=
    fun turn hturn => keyOwner_of_mem_turnsFor (hturns ▸ hturn)
  simp only [turnsFor, hreq] at hturns
  refine ⟨?_, fun turn hturn => ?_⟩
  · rw [hturns, List.map_map]
    exact (List.map_id _).symm ▸ a.sets.nodup _
  · have hkey := howner turn hturn
    rw [hturns] at hturn
    obtain ⟨key, hin, rfl⟩ := List.mem_map.mp hturn
    rw [IterationOrder.mem_list, Finset.mem_filter, List.mem_toFinset] at hin
    exact ⟨hin.1, rfl, hkey.symm ▸ hshard⟩

private theorem entry_unique (h : Inv c stores net) {a : Arrival Host} {keys : List Str}
    (hreq : a.req = .list keys) {e e' : Entry (HostTurn Host)} (he : e ∈ net.service.log)
    (he' : e' ∈ net.service.log) (ha : net.requests e.call.unpair.1 = some a)
    (hid : e'.call.unpair.1 = e.call.unpair.1) (hkey : e'.op.turn.key = e.op.turn.key) :
    e' = e := by
  obtain ⟨i, task, hcall, htask, hturn, hshard, -⟩ := task_of_entry h he ha
  obtain ⟨i', task', hcall', htask', hturn', hshard', -⟩ := task_of_entry h he' (hid.symm ▸ ha)
  have hhost : e'.op.host = e.op.host := by rw [← h.atOwner he, ← h.atOwner he', hkey]
  obtain rfl := task_index_inj htask htask' (by rw [hshard, hshard', hhost])
  obtain rfl := Option.some.inj (htask.symm.trans htask')
  have hnodup := (turns_list (h.hosts _ a ha) hreq (List.mem_of_getElem? htask)).1
  have hindex : e'.index = e.index := by
    refine (List.getElem?_inj ?_ hnodup).mp ?_
    · rw [List.length_map]
      exact (List.getElem?_eq_some_iff.mp hturn').1
    · rw [List.getElem?_map, List.getElem?_map, hturn, hturn', Option.map_some,
        Option.map_some, hkey]
  refine List.inj_on_of_nodup_map h.history.once he' he ?_
  rw [Entry.key, Entry.key, hindex, hcall, hcall', hid]

private theorem moment_unique (h : Inv c stores net) {id : ℕ} {a : Arrival Host}
    (ha : net.requests id = some a) {keys : List Str} (hreq : a.req = .list keys) {key : Str}
    {moment moment' : List (Entry (HostTurn Host))} (hat : TurnAt net.service.log id key moment)
    (hat' : TurnAt net.service.log id key moment') : moment' = moment := by
  obtain ⟨e, later, hlog, rfl, rfl⟩ := hat
  obtain ⟨e', later', hlog', hid, hkey⟩ := hat'
  obtain rfl := entry_unique h hreq (by simp [hlog]) (by simp [hlog']) ha hid hkey
  have hnodup : net.service.log.Nodup := h.history.once.of_map _
  have hout : ∀ {before after}, net.service.log = before ++ e' :: after →
      e' ∉ before ∧ e' ∉ after := by
    intro before after hsplit
    rw [hsplit, List.nodup_append, List.nodup_cons] at hnodup
    exact ⟨fun hin => hnodup.2.2 e' hin e' (by simp) rfl, hnodup.2.1.1⟩
  exact ((List.append_cons_inj_of_notMem (hout hlog').1 (hout hlog').2).mp
    (hlog'.symm.trans hlog)).1

variable {id : ℕ} {a : Arrival Host} {outcomes : List Outcome} {keys : List Str}

private theorem nodup_result (h : Inv c stores net) (ha : net.requests id = some a)
    (hfrom : AnsweredFrom c (answers performAlone (merged c stores) net.service.log) id a outcomes)
    (hreq : a.req = .list keys) :
    ((outcomes.flatMap foundIn).map InsrtRequest.key).Nodup := by
  have hhost := h.hosts id a ha
  -- what an outcome holds has been read by its task
  have hsublist : ∀ (i : ℕ) outcome, outcomes[i]? = some outcome →
      ∃ task, (tasksIn c a)[i]? = some task ∧
      ((foundIn outcome).map InsrtRequest.key).Sublist (task.turns.map Turn.key) := by
    intro i outcome hi
    have hlt : i < (tasksIn c a).length := hfrom.all ▸ (List.getElem?_eq_some_iff.mp hi).1
    refine ⟨_, List.getElem?_eq_getElem hlt, ?_⟩
    cases outcome with
    | error error => exact List.nil_sublist _
    | ok replies =>
      refine found_sublist ((replies_at h ha hfrom (List.getElem?_eq_getElem hlt) hi).imp ?_)
      rintro r turn ⟨moment, -, rfl⟩
      exact ⟨_, rfl⟩
  rw [List.map_flatMap, List.nodup_flatMap]
  refine ⟨fun outcome houtcome => ?_, ?_⟩
  · obtain ⟨i, hi⟩ := List.getElem?_of_mem houtcome
    obtain ⟨task, htask, hsub⟩ := hsublist i outcome hi
    exact hsub.nodup (turns_list hhost hreq (List.mem_of_getElem? htask)).1
  · rw [List.pairwise_iff_getElem]
    intro i i' hi hi' hlt key hkey hkey'
    obtain ⟨task, htask, hsub⟩ := hsublist i _ (List.getElem?_eq_getElem hi)
    obtain ⟨task', htask', hsub'⟩ := hsublist i' _ (List.getElem?_eq_getElem hi')
    obtain ⟨turn, hturn, rfl⟩ := List.mem_map.mp (hsub.subset hkey)
    obtain ⟨turn', hturn', hsame⟩ := List.mem_map.mp (hsub'.subset hkey')
    have hshard := ((turns_list hhost hreq (List.mem_of_getElem? htask)).2 turn hturn).2.2
    have hshard' := ((turns_list hhost hreq (List.mem_of_getElem? htask')).2 turn' hturn').2.2
    rw [hsame] at hshard'
    exact Nat.ne_of_lt hlt (task_index_inj htask htask' (hshard.trans hshard'.symm))

/-- A list finds what is held at the moments of its reads, and misses what is lost. -/
theorem mem_result (h : Inv c stores net) (ha : net.requests id = some a)
    (hfrom : AnsweredFrom c (answers performAlone (merged c stores) net.service.log) id a outcomes)
    (houtcomes : ∀ i outcome, outcomes[i]? = some outcome → net.outcomes (id, i) = some outcome)
    (hreq : a.req = .list keys) {key value : Str} :
    ⟨key, value⟩ ∈ outcomes.flatMap foundIn ↔ key ∈ keys ∧ ¬ Lost c net id a (keyOwner c key) ∧
      ∃ moment, TurnAt net.service.log id key moment ∧ (heldAt c stores moment).kv[key]? =
        some value := by
  have hhost := h.hosts id a ha
  constructor
  · intro hmem
    obtain ⟨outcome, houtcome, hfound⟩ := List.mem_flatMap.mp hmem
    obtain ⟨replies, rfl, hreply⟩ := mem_foundIn.mp hfound
    obtain ⟨i, hi⟩ := List.getElem?_of_mem houtcome
    have hlt : i < (tasksIn c a).length := hfrom.all ▸ (List.getElem?_eq_some_iff.mp hi).1
    have htask := List.getElem?_eq_getElem hlt
    obtain ⟨j, hj, hget⟩ := List.mem_iff_getElem.mp hreply
    have hreplies := replies_at h ha hfrom htask hi
    have hj' := hreplies.length_eq ▸ hj
    obtain ⟨moment, hat, hperform⟩ := hreplies.get hj hj'
    rw [List.get_eq_getElem, List.get_eq_getElem, hget] at hperform
    obtain ⟨hkey, hvalue⟩ := key_of_found hperform.symm
    rw [List.get_eq_getElem, ← hkey] at hat
    obtain ⟨hin, -, hshard⟩ :=
      (turns_list hhost hreq (List.mem_of_getElem? htask)).2 _ (List.getElem_mem hj')
    rw [← hkey] at hin hshard
    refine ⟨hin, ?_, moment, hat, hvalue⟩
    rintro ⟨i', task', error, htask', hshard', houtcome'⟩
    obtain rfl := task_index_inj htask htask' (hshard.trans hshard'.symm)
    simp [houtcomes i _ hi] at houtcome'
  · rintro ⟨hin, hlost, moment, hat, hvalue⟩
    have hturn : Turn.get key ∈ turnsFor c a (keyOwner c key) := by
      simp [turnsFor, hreq, hin]
    obtain ⟨task, htask, hshard⟩ := exists_task hhost hturn
    obtain ⟨host, hh, hshard', hturns⟩ := mem_tasksIn hhost htask
    obtain rfl := shardFor_inj hh (c.owner_mem _) (hshard'.symm.trans hshard)
    obtain ⟨i, hi⟩ := List.getElem?_of_mem htask
    have hlt : i < outcomes.length := hfrom.all ▸ (List.getElem?_eq_some_iff.mp hi).1
    have houtcome := List.getElem?_eq_getElem hlt
    cases hwhich : outcomes[i] with
    | error error =>
      rw [hwhich] at houtcome
      exact absurd ⟨i, task, error, hi, hshard, houtcomes i _ houtcome⟩ hlost
    | ok replies =>
      rw [hwhich] at houtcome
      obtain ⟨j, hj, hget⟩ := List.mem_iff_getElem.mp (hturns ▸ hturn)
      have hreplies := replies_at h ha hfrom hi houtcome
      have hj' := hreplies.length_eq.symm ▸ hj
      obtain ⟨moment', hat', hperform⟩ := hreplies.get hj' hj
      simp only [List.get_eq_getElem, hget] at hat' hperform
      obtain rfl := moment_unique h ha hreq hat hat'
      refine List.mem_flatMap.mpr ⟨_, List.mem_of_getElem? houtcome,
        mem_foundIn.mpr ⟨replies, rfl, ?_⟩⟩
      have hfound : Reply.found (some ⟨key, value⟩) =
          ((Turn.get key).perform (heldAt c stores moment')).2 := by
        simp [Turn.perform, Storage.getKv, hvalue]
      rw [hfound, ← hperform]
      exact List.getElem_mem hj'

private theorem answered (h : Inv c stores net) (hplaced : PlacedAtOwners c stores) {id : ℕ}
    {a : Arrival Host} (ha : net.requests id = some a) {response : ClusterResponse}
    (hresponse : net.responses id = some response) :
    Answered c stores net id a response := by
  have happlied := fun host (hh : host ∈ c.hosts) hlost => turnsOn_complete h ha hresponse hh hlost
  obtain ⟨a', outcomes, ha', hlength, houtcomes, rfl⟩ := h.responded id response hresponse
  obtain rfl := Option.some.inj (ha.symm.trans ha')
  have hfrom := h.answeredFrom hplaced ha hlength houtcomes
  refine ⟨happlied, not_lost_here h ha, ?_, ?_, ?_, ?_⟩
  · intro req hreq hlost
    exact ((answered_one h ha hfrom houtcomes hreq).resolve_right (fun hnot => hnot.1 hlost)).2
  · intro req hreq hlost
    exact ((answered_one h ha hfrom houtcomes hreq).resolve_left (fun hnot => hlost hnot.1)).2
  · intro kvs hreq
    rw [hreq]
    rfl
  · intro keys hreq
    refine ⟨outcomes.flatMap foundIn, by rw [hreq]; rfl, nodup_result h ha hfrom hreq,
    fun key value => ?_⟩
    exact mem_result h ha hfrom houtcomes hreq

theorem Answered.congr {net' : Net Host} {id : ℕ} {a : Arrival Host} {response : ClusterResponse}
    (h : Answered c stores net id a response) (hlog : net'.service.log = net.service.log)
    (houtcomes : net'.outcomes = net.outcomes) : Answered c stores net' id a response := by
  have hlost : ∀ host, Lost c net' id a host ↔ Lost c net id a host := by
    intro host
    simp only [Lost, houtcomes]
  have hturns : ∀ host, turnsOn net' id host = turnsOn net id host := by
    intro host
    simp only [turnsOn, hlog]
  obtain ⟨happlied, hhere, hfailed, hone, hbatch, hlist⟩ := h
  constructor
  · simpa only [hlost, hturns] using happlied
  · simpa only [hlost] using hhere
  · simpa only [hlost] using hfailed
  · simpa only [hlost, hlog] using hone
  · exact hbatch
  · simpa only [hlost, hlog] using hlist

open RustTurnHistories AtomicSteps
variable {s : StepNet Host} {n : Net Host}

/-- A turn under way is the next one that its request needs on its host. -/
theorem turn_active (h : RustTurnHistories.Simulates c stores s n) {id i j : ℕ}
    {a : Arrival Host} (ha : s.net.requests id = some a) {t : HostTurn Host}
    {p : Program (Host → Node Host) Reply} (hactive : s.active (taskId id i, j) = some (t, p)) :
    turnsOn s.net id t.host ++ [t.turn] <+: turnsFor c a t.host := by
  obtain ⟨turns, hcalls, hop, hreply, hturn⟩ := h.steady.sound _ _ _ _ hactive
  have hrequests : n.requests = s.net.requests := by rw [h.same]
  have hlog : n.service.log = s.net.service.log := h.explains.log
  -- the other cluster can perform the whole turn
  have hs : RustClusterCalls.step n (.perform id i j) = some { n with
      service := n.service.perform performAt ⟨taskId id i, j, t⟩ } := by
    rw [RustClusterCalls.step, CompositeCalls.step_perform (h.explains.calls ▸ hcalls) hop
      (h.explains.replies ▸ hreply), Option.map_some]
    intro k hk hlane
    rw [h.explains.replies]
    exact hturn k hk hlane
  have hallowed : (RustClusterCalls.Event.perform id i j : RustClusterCalls.Event Host).Allowed c :=
    trivial
  have hinv := h.inv.step hallowed hs
  have hhost : t.host ∈ c.hosts := by
    rw [h.active_owner hactive]
    exact c.owner_mem _
  have hbegins := turnsOn_prefix hinv (hrequests ▸ ha : n.requests id = some a) hhost
  simpa [turnsOn, CompositeCalls.Service.perform, hlog, taskId] using hbegins

/-- In every run, with any RPCs failing at any time and all requests under way at once, a host has
had the first of the turns that a request needs there and nothing else of it, a turn under way is
the next one, and what clients get is as `Answered` says. -/
theorem cluster_answers_despite_failures (c : HostList Host) (stores : Host → Storage)
    (hplaced : PlacedAtOwners c stores) (events : List (StepEvent Host))
    (hallowed : ∀ event ∈ events, event.Allowed c)
    (hapart : Meets RustTurnHistories.step NoConflict (StepNet.start c stores) events)
    (s : StepNet Host) (hrun : run RustTurnHistories.step (StepNet.start c stores) events = some s)
    (id : ℕ) (a : Arrival Host) (ha : s.net.requests id = some a) :
    (∀ h ∈ c.hosts, turnsOn s.net id h <+: turnsFor c a h) ∧
    (∀ i j t p, s.active (taskId id i, j) = some (t, p) →
      turnsOn s.net id t.host ++ [t.turn] <+: turnsFor c a t.host) ∧
    ∀ response, s.net.responses id = some response → Answered c stores s.net id a response := by
  obtain ⟨n, h, -⟩ := (simulates_start c stores).run hallowed hapart hrun
  have hrequests : n.requests = s.net.requests := by rw [h.same]
  have hresponses : n.responses = s.net.responses := by rw [h.same]
  have houtcomes : s.net.outcomes = n.outcomes := by rw [h.same]
  have hlog : s.net.service.log = n.service.log := h.explains.log.symm
  have ha' : n.requests id = some a := hrequests ▸ ha
  refine ⟨fun host hh => ?_, fun i j t p => turn_active h ha, fun response hresponse => ?_⟩
  · rw [turnsOn, hlog]
    exact turnsOn_prefix h.inv ha' hh
  · rw [← hresponses] at hresponse
    exact (answered h.inv hplaced ha' hresponse).congr hlog houtcomes

open RustTurnHistories in
/-- The client of the first request gets an error, though its turn is under way. -/
noncomputable def failing : List (StepEvent ℕ) :=
  [.net (.arrive 0 (arrivalOf 0 (.add ⟨[100], [98]⟩))),
    .net (.arrive 1 (arrivalOf 1 (.query [97]))), .net (.start 0 0), .net (.start 1 0),
    .begin 0 0 0, .act 0 0 0, .net (.fail 0 0 .rpc), .net (.respond 0), .begin 1 0 0, .act 1 0 0,
    .act 1 0 0, .net (.finish 1 0), .net (.respond 1)]

open RustTurnHistories in
theorem cluster_answers_despite_failures_add : ∃ s : StepNet ℕ,
    (s.active (taskId 0 0, 0)).isSome ∧
    turnsOn s.net 0 1 <+: turnsFor twoNodes (arrivalOf 0 (.add ⟨[100], [98]⟩)) 1 ∧
    Answered twoNodes holding s.net 0 (arrivalOf 0 (.add ⟨[100], [98]⟩))
      (.one .internalServerError) ∧
    Answered twoNodes holding s.net 1 (arrivalOf 1 (.query [97]))
      (.one (queryResponse (some [98]))) := by
  obtain ⟨s, hrun⟩ : ∃ s, run RustTurnHistories.step (.start twoNodes holding) failing = some s :=
    ⟨_, rfl⟩
  have hallowed : ∀ event ∈ failing, event.Allowed twoNodes := by
    simp [failing, StepEvent.Allowed, Event.Allowed, arrivalOf, Request.Valid, twoNodes]
  have hapart : Meets RustTurnHistories.step NoConflict (.start twoNodes holding) failing := by
    refine ⟨trivial, fun s₁ h₁ => ⟨trivial, fun s₂ h₂ => ⟨trivial, fun s₃ h₃ => ⟨trivial,
      fun s₄ h₄ => ⟨?_, fun s₅ h₅ => ⟨trivial, fun s₆ h₆ => ⟨trivial, fun s₇ h₇ => ⟨trivial,
      fun s₈ h₈ => ⟨?_, fun _ _ => ⟨trivial, fun _ _ => ⟨trivial, fun _ _ => ⟨trivial,
      fun _ _ => ⟨trivial, fun _ _ => trivial⟩⟩⟩⟩⟩⟩⟩⟩⟩⟩⟩⟩⟩
    all_goals
      obtain rfl := Option.some.inj h₁
      obtain rfl := Option.some.inj h₂
      obtain rfl := Option.some.inj h₃
      obtain rfl := Option.some.inj h₄
    · intro _ _ _ _ place t p hactive
      cases hactive
    · obtain rfl := Option.some.inj h₅
      obtain rfl := Option.some.inj h₆
      obtain rfl := Option.some.inj h₇
      obtain rfl := Option.some.inj h₈
      refine noConflict_of_one (taskId 0 0, 0) rfl rfl (fun place hne => ?_) ?_
      · exact (Function.update_of_ne hne _ _).trans (Function.update_of_ne hne _ _)
      · simp [Turn.key, Request.key]
  have hfirst := cluster_answers_despite_failures twoNodes holding placed_holding failing hallowed
    hapart s hrun 0
  have hsecond := cluster_answers_despite_failures twoNodes holding placed_holding failing hallowed
    hapart s hrun 1
  obtain rfl := Option.some.inj hrun
  obtain ⟨hbegins, -, hanswered⟩ := hfirst _ rfl
  exact ⟨_, rfl, hbegins 1 (by simp [twoNodes]), hanswered _ rfl, (hsecond _ rfl).2.2 _ rfl⟩

end HCache.RustClusterAnswers
