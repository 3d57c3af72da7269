import HCache.RustClusterStores
import HCache.SequentialMachines

/-!
# The Rust cluster behaves as one store

In every interleaving of arrivals, executions and messages the log of executions is a
sequential history. Run on one storage in that order it gives every response of the cluster;
a request is in it at most once and on the owner of its key; and a request that has been
answered is in it before every request that has not yet arrived.
-/
namespace HCache.RustClusterHistories
open OrderedMaps KeyPartitions SequentialMachines InterleavedSystems
open RustStorage RustRouting RustClusterNodes RustClusterSteps RustClusterStores

variable {Host : Type}

def Phase.answer? : Phase Host → Option Response
  | .replied reply resume => some (resume reply)
  | .responded response => some response
  | _ => none

def answer? (net : Net Host) (id : ℕ) : Option Response :=
  (net.requests id).bind (fun p => Phase.answer? p.phase)

/-- The answers of one storage to the executions of a log, in their order. -/
def answers (whole : Storage) (log : List (Execution Host)) : List (ℕ × Response) :=
  (log.map Execution.id).zip (responses serveAlone whole log)

private theorem answers_append (whole : Storage) (log : List (Execution Host))
    (e : Execution Host) :
    answers whole (log ++ [e]) =
      answers whole log ++ [(e.id, (serveAlone (final serveAlone whole log) e).2)] := by
  rw [answers, responses_append, List.map_append, List.zip_append (by simp)]
  rfl

/-- A request in flight is a valid one; its RPC goes to the owner of its key. -/
structure InFlightOk (c : HostList Host) (p : InFlight Host) : Prop where
  arrival : p.arrival ∈ c.hosts
  valid : p.req.Valid
  called : ∀ target rpc resume, p.phase = .called target rpc resume →
    target = keyOwner c p.req.key ∧ rpc = rpcOf p.req ∧ resume = resumeOf p.req
  not_aborted : ∀ reason, p.phase ≠ .aborted reason

/-- What holds of a cluster that started from `stores`, in every state. -/
structure History [DecidableEq Host] (c : HostList Host) (stores : Host → Storage)
    (net : Net Host) : Prop where
  configured : Configured c net.nodes
  inFlight : ∀ id p, net.requests id = some p → InFlightOk c p
  answered : ∀ id response, answer? net id = some response →
    (id, response) ∈ answers (merged c stores) net.log
  pending : ∀ id, answer? net id = none → id ∉ net.log.map Execution.id
  once : (net.log.map Execution.id).Nodup
  logged : ∀ e ∈ net.log, e.host = keyOwner c e.req.key ∧ ∃ p, net.requests e.id = some p ∧
    p.req = e.req
  covers : Covers inMemory (keyOwner c) (fun h => (net.nodes h).storage)
    (final serveAlone (merged c stores) net.log)
  placed : PlacedAtOwners c (fun h => (net.nodes h).storage)
  effects : ∀ h, (net.nodes h).storage =
    final serveAlone (stores h) (net.log.filter (fun e => e.host = h))

section Steps
variable [DecidableEq Host] {c : HostList Host} {stores : Host → Storage} {net net' : Net Host}

private theorem history_start (h : PlacedAtOwners c stores) :
    History c stores (Net.start c stores) where
  configured := configured_start c stores
  inFlight := by simp [Net.start]
  answered := by simp [Net.start, answer?]
  pending := by simp [Net.start]
  once := by simp [Net.start]
  logged := by simp [Net.start]
  covers := covers_merged h
  placed := h
  effects := fun _ => rfl

omit [DecidableEq Host] in
theorem answer?_setRequest (id i : ℕ) (p : InFlight Host) :
    answer? (net.setRequest id p) i = if i = id then Phase.answer? p.phase else answer? net i := by
  rcases eq_or_ne i id with rfl | hne
  · simp [answer?, Net.setRequest]
  · simp [answer?, Net.setRequest, hne]

theorem History.quiet (h : History c stores net) {id : ℕ} {p : InFlight Host} (hp : InFlightOk c p)
    (hanswer : answer? net id = Phase.answer? p.phase)
    (hreq : ∀ q, net.requests id = some q → p.req = q.req) :
    History c stores (net.setRequest id p) := by
  have hsame : ∀ i, answer? (net.setRequest id p) i = answer? net i := by
    intro i
    rw [answer?_setRequest]
    split
    · next hi => rw [hi, hanswer]
    · rfl
  refine { h with inFlight := ?_, answered := ?_, pending := ?_, logged := ?_ }
  · exact forall_update_some h.inFlight hp
  · intro i response hi
    exact h.answered i response (hsame i ▸ hi)
  · intro i hi
    exact h.pending i (hsame i ▸ hi)
  · intro e he
    obtain ⟨howner, q, hq, hqreq⟩ := h.logged e he
    refine ⟨howner, ?_⟩
    rcases eq_or_ne e.id id with hid | hne
    · exact ⟨p, by simp [Net.setRequest, hid], (hreq q (hid ▸ hq)).trans hqreq⟩
    · exact ⟨q, by simp [Net.setRequest, hne, hq], hqreq⟩

theorem storage_executed (e : Execution Host) (s : Storage) :
    (fun h => ((net.executed e s).nodes h).storage) =
      Function.update (fun h => (net.nodes h).storage) e.host s := by
  funext h
  simp only [Net.executed]
  rcases eq_or_ne h e.host with rfl | hne
  · rw [Function.update_self, Function.update_self]
  · rw [Function.update_of_ne hne, Function.update_of_ne hne]

variable {e : Execution Host} {s : Storage} {response : Response}

private theorem covers_executed {whole : Storage}
    (h : Covers inMemory (keyOwner c) (fun h => (net.nodes h).storage) whole)
    (hhost : e.host = keyOwner c e.req.key)
    (hserve : serveAlone (net.nodes e.host).storage e = (s, response)) :
    Covers inMemory (keyOwner c) (fun h => ((net.executed e s).nodes h).storage)
      (serveAlone whole e).1 := by
  have hrun := h.run keyLocal_serveAlone e
  rw [← hhost, hserve] at hrun
  rw [storage_executed]
  exact hrun

private theorem placed_executed (h : PlacedAtOwners c (fun h => (net.nodes h).storage))
    (hhost : e.host = keyOwner c e.req.key)
    (hserve : serveAlone (net.nodes e.host).storage e = (s, response)) :
    PlacedAtOwners c (fun h => ((net.executed e s).nodes h).storage) := by
  rw [storage_executed]
  rw [hhost] at hserve ⊢
  intro host hh
  rcases eq_or_ne host (keyOwner c e.req.key) with rfl | hne
  · have hrun := (h _ hh).run keyLocal_serveAlone e
    rw [hserve] at hrun
    rw [Function.update_self]
    exact hrun
  · rw [Function.update_of_ne hne]
    exact h host hh

/-- The execution is the last one that its host has seen, and nothing to the others. -/
theorem effects_executed
    (h : ∀ h, (net.nodes h).storage =
    final serveAlone (stores h) (net.log.filter (fun e => e.host = h)))
    (hserve : serveAlone (net.nodes e.host).storage e = (s, response)) (host : Host) :
    ((net.executed e s).nodes host).storage =
      final serveAlone (stores host) ((net.log ++ [e]).filter (fun e => e.host = host)) := by
  have hstorage : ((net.executed e s).nodes host).storage =
      Function.update (fun h => (net.nodes h).storage) e.host s host :=
        congrFun (storage_executed e s) host
  rw [hstorage, List.filter_append, final_append, ← h host]
  rcases eq_or_ne host e.host with rfl | hne
  · have hone : [e].filter (fun e' => e'.host = e.host) = [e] := by simp
    rw [Function.update_self, hone]
    exact (congrArg Prod.fst hserve).symm
  · have hnone : [e].filter (fun e' => e'.host = host) = [] := by simp [Ne.symm hne]
    rw [Function.update_of_ne hne, hnone]
    rfl

/-- The owner of a key executes a request that has not been executed before. -/
theorem History.execution (h : History c stores net) {id : ℕ} {q : InFlight Host} {arrival : Host}
    {req : Request} {phase : Phase Host} {order : IterationOrder Str} {s : Storage}
    {response : Response} (hq : net.requests id = some q) (hpending : Phase.answer? q.phase = none)
    (hp : InFlightOk c ⟨arrival, req, phase⟩)
    (he : execute order (net.nodes (keyOwner c req.key)).storage req = .ok (s, response))
    (hanswer : Phase.answer? phase = some response) :
    History c stores
      ((net.executed ⟨id, keyOwner c req.key, req, order⟩ s).setRequest id
        ⟨arrival, req, phase⟩) := by
  let e : Execution Host := ⟨id, keyOwner c req.key, req, order⟩
  have hserve : serveAlone (net.nodes (keyOwner c e.req.key)).storage e = (s, response) :=
    serveAlone_of_execute he
  have hnew : id ∉ net.log.map Execution.id := h.pending id (by simp [answer?, hq, hpending])
  have hwhole : (serveAlone (final serveAlone (merged c stores) net.log) e).2 = response := by
    have hr := h.covers.response keyLocal_serveAlone e
    rw [← hr, hserve]
  constructor
  · exact h.configured.executed c e s
  · exact forall_update_some h.inFlight hp
  · intro i r hr
    have hlog : answers (merged c stores) (net.log ++ [e]) =
        answers (merged c stores) net.log ++ [(id, response)] := by rw [answers_append, hwhole]
    rw [answer?_setRequest] at hr
    show (i, r) ∈ answers (merged c stores) (net.log ++ [e])
    rw [hlog, List.mem_append]
    split at hr
    · next hi =>
      rw [hanswer] at hr
      exact .inr (by simp [hi, Option.some.inj hr])
    · exact .inl (h.answered i r hr)
  · intro i hi
    rw [answer?_setRequest] at hi
    split at hi
    · simp [hanswer] at hi
    · next hne =>
      have hold := h.pending i hi
      simp only [Net.setRequest, Net.executed, List.map_append, List.mem_append, not_or]
      exact ⟨hold, by simpa using hne⟩
  · simp only [Net.setRequest, Net.executed, List.map_append]
    exact h.once.append (by simp) (by simpa using hnew)
  · intro e' he'
    simp only [Net.setRequest, Net.executed, List.mem_append, List.mem_singleton] at he'
    rcases he' with he' | rfl
    · obtain ⟨howner, r, hr, hrreq⟩ := h.logged e' he'
      have hne : e'.id ≠ id := fun hid => hnew (hid ▸ List.mem_map_of_mem he')
      exact ⟨howner, r, by simp [Net.setRequest, Net.executed, hne, hr], hrreq⟩
    · exact ⟨rfl, ⟨arrival, req, phase⟩, by simp [Net.setRequest], rfl⟩
  · show Covers inMemory (keyOwner c) (fun h => ((net.executed e s).nodes h).storage)
      (final serveAlone (merged c stores) (net.log ++ [e]))
    rw [final_append]
    exact covers_executed h.covers rfl hserve
  · exact placed_executed h.placed rfl hserve
  · exact effects_executed h.effects hserve

/-- A step keeps the history and adds executions only at the end of the log. -/
theorem History.step (h : History c stores net) {event : Event Host} (ha : event.Allowed c)
    (hs : RustClusterSteps.step net event = some net') :
    History c stores net' ∧ net.log <+: net'.log := by
  cases event with
  | arrive id host req =>
    simp only [RustClusterSteps.step] at hs
    split at hs
    · simp at hs
    · next hnone =>
      obtain rfl := Option.some.inj hs
      have hp : InFlightOk c ⟨host, req, .arrived⟩ := ⟨ha.1, ha.2, by simp, by simp⟩
      exact ⟨h.quiet hp (by simp [answer?, hnone, Phase.answer?]) (by simp [hnone]),
        List.prefix_rfl⟩
  | handle id order =>
    simp only [RustClusterSteps.step] at hs
    split at hs
    · next host req hq =>
      have hok := h.inFlight id _ hq
      have hhost : host ∈ c.hosts := hok.arrival
      have hvalid : req.Valid := hok.valid
      rcases handle_cases c h.configured hhost hvalid order with
        ⟨rfl, s, response, he, hhandle⟩ | ⟨shard, hhandle, hclient⟩
      · simp only [hhandle] at hs
        obtain rfl := Option.some.inj hs
        have hp : InFlightOk c ⟨keyOwner c req.key, req, .responded response⟩ :=
          ⟨hhost, hvalid, by simp, by simp⟩
        exact ⟨h.execution hq rfl hp he rfl, List.prefix_append _ _⟩
      · simp only [hhandle, hclient] at hs
        obtain rfl := Option.some.inj hs
        have hp :
            InFlightOk c ⟨host, req, .called (keyOwner c req.key) (rpcOf req) (resumeOf req)⟩ := by
          refine ⟨hhost, hvalid, ?_, by simp⟩
          intro target rpc resume hcalled
          simp only [Phase.called.injEq] at hcalled
          obtain ⟨rfl, rfl, rfl⟩ := hcalled
          exact ⟨rfl, rfl, rfl⟩
        exact ⟨h.quiet hp (by simp [answer?, hq, Phase.answer?]) (by simp [hq]), List.prefix_rfl⟩
    · simp at hs
  | serve id order =>
    simp only [RustClusterSteps.step] at hs
    split at hs
    · next host req target rpc resume hq =>
      have hok := h.inFlight id _ hq
      have hcalled := hok.called target rpc resume rfl
      simp only at hcalled
      obtain ⟨rfl, rfl, rfl⟩ := hcalled
      obtain ⟨s, response, he⟩ :=
        execute_ok hok.valid order (net.nodes (keyOwner c req.key)).storage
      obtain ⟨reply, hserve, hresume⟩ := serveRpc_of_execute he
      simp only [hserve] at hs
      obtain rfl := Option.some.inj hs
      have hp : InFlightOk c ⟨host, req, .replied (some reply) (resumeOf req)⟩ :=
        ⟨hok.arrival, hok.valid, by simp, by simp⟩
      exact ⟨h.execution hq rfl hp he (congrArg some hresume), List.prefix_append _ _⟩
    · simp at hs
  | deliver id =>
    simp only [RustClusterSteps.step] at hs
    split at hs
    · next host req reply resume hq =>
      obtain rfl := Option.some.inj hs
      have hok := h.inFlight id _ hq
      have hp : InFlightOk c ⟨host, req, .responded (resume reply)⟩ :=
        ⟨hok.arrival, hok.valid, by simp, by simp⟩
      exact ⟨h.quiet hp (by simp [answer?, hq, Phase.answer?]) (by simp [hq]), List.prefix_rfl⟩
    · simp at hs

theorem History.run (h : History c stores net) {events : List (Event Host)}
    (ha : ∀ event ∈ events, event.Allowed c)
    (hr : run RustClusterSteps.step net events = some net') :
    History c stores net' ∧ net.log <+: net'.log := by
  have hstep : ∀ (n : Net Host) event n', (History c stores n ∧ net.log <+: n.log) →
      event.Allowed c →
      RustClusterSteps.step n event = some n' → History c stores n' ∧ net.log <+: n'.log := by
    rintro n event n' ⟨hn, hlog⟩ hevent hs
    obtain ⟨hn', hlog'⟩ := hn.step hevent hs
    exact ⟨hn', hlog.trans hlog'⟩
  exact run_invariant (fun n => History c stores n ∧ net.log <+: n.log) hstep ⟨h, List.prefix_rfl⟩
    (meets_const ha) hr

/-- From here on, some events lead to a response to a request. -/
def Completes (c : HostList Host) (net : Net Host) (id : ℕ) (arrival : Host) (req : Request) :
    Prop :=
  ∃ events net' response, (∀ event ∈ events, Event.Allowed c event) ∧
    InterleavedSystems.run RustClusterSteps.step net events = some net' ∧
    net'.requests id = some ⟨arrival, req, .responded response⟩

theorem completes_responded {id : ℕ} {arrival : Host} {req : Request} {response : Response}
    (h : net.requests id = some ⟨arrival, req, .responded response⟩) :
    Completes c net id arrival req :=
  ⟨[], net, response, by simp, rfl, h⟩

theorem Completes.of_step {id : ℕ} {arrival : Host} {req : Request} {event : Event Host}
    (hs : RustClusterSteps.step net event = some net') (ha : event.Allowed c)
    (h : Completes c net' id arrival req) : Completes c net id arrival req := by
  obtain ⟨events, last, response, hallowed, hrun, hresponded⟩ := h
  refine ⟨event :: events, last, response, ?_, run_cons_eq_some.mpr ⟨net', hs, hrun⟩, hresponded⟩
  intro e he
  rcases List.mem_cons.mp he with rfl | he
  · exact ha
  · exact hallowed e he

omit [DecidableEq Host] in
@[simp] theorem setRequest_self (net : Net Host) (id : ℕ) (p : InFlight Host) :
    (net.setRequest id p).requests id = some p := by
  simp [Net.setRequest]

theorem completes_replied {id : ℕ} {arrival : Host} {req : Request} {reply : Option RpcReply}
    {resume : Option RpcReply → Response}
    (h : net.requests id = some ⟨arrival, req, .replied reply resume⟩) :
    Completes c net id arrival req := by
  have hs : RustClusterSteps.step net (.deliver id) =
      some (net.setRequest id ⟨arrival, req, .responded (resume reply)⟩) := by
    simp only [RustClusterSteps.step, h]
  exact .of_step hs trivial (completes_responded (setRequest_self _ _ _))

theorem History.completes_called (h : History c stores net) (order : IterationOrder Str) {id : ℕ}
    {arrival target : Host} {req : Request} {rpc : RpcCall} {resume : Option RpcReply → Response}
    (hq : net.requests id = some ⟨arrival, req, .called target rpc resume⟩) :
    Completes c net id arrival req := by
  have hok := h.inFlight id _ hq
  have hcalled := hok.called target rpc resume rfl
  simp only at hcalled
  obtain ⟨rfl, rfl, rfl⟩ := hcalled
  obtain ⟨s, response, he⟩ := execute_ok hok.valid order (net.nodes (keyOwner c req.key)).storage
  obtain ⟨reply, hserve, -⟩ := serveRpc_of_execute he
  have hs : RustClusterSteps.step net (.serve id order) =
      some ((net.executed ⟨id, keyOwner c req.key, req, order⟩ s).setRequest id
        ⟨arrival, req, .replied (some reply) (resumeOf req)⟩) := by
    simp only [RustClusterSteps.step, hq, hserve]
  exact .of_step hs trivial (completes_replied (setRequest_self _ _ _))

theorem History.completes (h : History c stores net) (order : IterationOrder Str) {id : ℕ}
    {p : InFlight Host} (hp : net.requests id = some p) : Completes c net id p.arrival p.req := by
  obtain ⟨arrival, req, phase⟩ := p
  have hok := h.inFlight id _ hp
  cases phase with
  | arrived =>
    have harrival : arrival ∈ c.hosts := hok.arrival
    have hvalid : req.Valid := hok.valid
    rcases handle_cases c h.configured harrival hvalid order with
      ⟨-, s, response, -, hhandle⟩ | ⟨shard, hhandle, hclient⟩
    · have hs : RustClusterSteps.step net (.handle id order) =
          some ((net.executed ⟨id, arrival, req, order⟩ s).setRequest id ⟨arrival, req,
          .responded response⟩) := by
        simp only [RustClusterSteps.step, hp, hhandle]
      exact .of_step hs trivial (completes_responded (setRequest_self _ _ _))
    · have hs : RustClusterSteps.step net (.handle id order) =
          some
            (net.setRequest id ⟨arrival, req,
            .called (keyOwner c req.key) (rpcOf req) (resumeOf req)⟩) := by
        simp only [RustClusterSteps.step, hp, hhandle, hclient]
      have hallowed : (Event.handle id order : Event Host).Allowed c := trivial
      exact .of_step hs hallowed
        ((h.step hallowed hs).1.completes_called order (setRequest_self _ _ _))
  | called target rpc resume => exact h.completes_called order hp
  | replied reply resume => exact completes_replied hp
  | responded response => exact completes_responded hp
  | aborted reason => exact absurd rfl (hok.not_aborted reason)

end Steps

/-- The executions of a cluster as a sequential history of one storage. -/
structure Linearizes [DecidableEq Host] (c : HostList Host) (stores : Host → Storage)
    (net : Net Host) : Prop where
  /-- Every response is that of one storage that runs the log. -/
  responses : ∀ id arrival req response, net.requests id =
    some ⟨arrival, req, .responded response⟩ →
    (id, response) ∈ answers (merged c stores) net.log
  /-- No request is executed twice. -/
  once : (net.log.map Execution.id).Nodup
  /-- Each execution is of a request that has arrived, and on the owner of its key. -/
  owners : ∀ e ∈ net.log, e.host = keyOwner c e.req.key ∧ ∃ p, net.requests e.id = some p ∧
    p.req = e.req
  /-- A storage has seen the executions of its host and nothing else. -/
  effects : ∀ h, (net.nodes h).storage =
    final serveAlone (stores h) (net.log.filter (fun e => e.host = h))
  /-- Every key lives at most on its owner, which has what the one storage has. -/
  placed : PlacedAtOwners c (fun h => (net.nodes h).storage)
  covers : Covers inMemory (keyOwner c) (fun h => (net.nodes h).storage)
    (final serveAlone (merged c stores) net.log)

/-- One request is executed before another if the other is executed at all. -/
def Precedes (log : List (Execution Host)) (a b : ℕ) : Prop :=
  ∃ earlier later, log = earlier ++ later ∧ a ∈ earlier.map Execution.id ∧
    b ∉ earlier.map Execution.id

/-- In every state of every run the log linearizes the cluster, requests that have been
answered come before requests that have not arrived yet, and no request is stuck. -/
theorem cluster_linearizes [DecidableEq Host] (c : HostList Host) (stores : Host → Storage)
    (hplaced : PlacedAtOwners c stores) (before after : List (Event Host))
    (hallowed : ∀ event ∈ before ++ after, event.Allowed c) (net net' : Net Host)
    (hbefore : run RustClusterSteps.step (Net.start c stores) before = some net)
    (hafter : run RustClusterSteps.step net after = some net') :
    Linearizes c stores net' ∧
    (∀ a b arrival req response, net.requests a = some ⟨arrival, req, .responded response⟩ →
      net.requests b = none → Precedes net'.log a b) ∧
    ∀ id p, net'.requests id = some p → Completes c net' id p.arrival p.req := by
  have h := ((history_start hplaced).run (fun e he => hallowed e (by simp [he])) hbefore).1
  obtain ⟨h', later, hlog⟩ := h.run (fun e he => hallowed e (by simp [he])) hafter
  refine ⟨⟨?_, h'.once, h'.logged, h'.effects, h'.placed, h'.covers⟩, ?_, ?_⟩
  · intro id arrival req response hr
    exact h'.answered id response (by simp [answer?, hr, Phase.answer?])
  · intro a b arrival req response ha hb
    have hin := h.answered a response (by simp [answer?, ha, Phase.answer?])
    exact ⟨net.log, later, hlog.symm, (List.of_mem_zip hin).1, h.pending b (by simp [answer?, hb])⟩
  · intro id p hp
    exact h'.completes (IterationOrder.choice Str) hp

/-- A query is under way to the second node, where a key is added. -/
noncomputable def addEvents : List (Event ℕ) :=
  [.arrive 0 0 (.query [97]), .arrive 1 1 (.add ⟨[97], [99]⟩), .handle 0 (.choice Str),
    .handle 1 (.choice Str)]

/-- Then another request arrives, and the query comes to its end. -/
noncomputable def queryEvents : List (Event ℕ) :=
  [.arrive 2 0 (.del [97]), .serve 0 (.choice Str), .deliver 0]

/-- The query finds what has been added meanwhile. -/
theorem cluster_linearizes_query : ∃ net' : Net ℕ, Linearizes twoNodes holding net' ∧
    net'.log.map Execution.id = [1, 0] ∧
    net'.requests 0 = some ⟨0, .query [97], .responded ⟨.ok, .text [99]⟩⟩ ∧
    Precedes net'.log 1 2 ∧ Completes twoNodes net' 2 0 (.del [97]) := by
  obtain ⟨net, hbefore⟩ : ∃ net, run RustClusterSteps.step (Net.start twoNodes holding) addEvents =
    some net := ⟨_, rfl⟩
  obtain ⟨net', hafter⟩ : ∃ net', run RustClusterSteps.step net queryEvents = some net' := by
    obtain rfl := Option.some.inj hbefore
    exact ⟨_, rfl⟩
  have hallowed : ∀ event ∈ addEvents ++ queryEvents, event.Allowed twoNodes := by
    simp [addEvents, queryEvents, Event.Allowed, Request.Valid, twoNodes]
  obtain ⟨hlinear, hprecedes, hcompletes⟩ :=
    cluster_linearizes twoNodes holding placed_holding addEvents queryEvents hallowed net net'
      hbefore hafter
  obtain rfl := Option.some.inj hbefore
  obtain rfl := Option.some.inj hafter
  exact ⟨_, hlinear, rfl, rfl, hprecedes 1 2 1 _ _ rfl rfl, hcompletes 2 _ rfl⟩

end HCache.RustClusterHistories
