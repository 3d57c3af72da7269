import HCache.RustClusterCalls

/-!
# Requests of a cluster as turns on one storage

In every run the turns that the nodes have performed are a sequential history of one storage.
A turn is performed at most once and on the owner of its key, whatever the caller of its RPC
has made of it; what a request is answered with comes from the turns of the tasks that have
not failed.
-/
namespace HCache.RustClusterCallHistories
open OrderedMaps KeyPartitions SequentialMachines InterleavedSystems RustStorage RustRouting
  RustClusterNodes RustClusterStores RustMultiKeyRequests RustClusterCalls
open CompositeCalls
  (Service Entry History history_start answers exists_of_mem_answers mem_keys_of_answers)
open RustClusterSteps (keyOwner Configured)

variable {Host : Type}

theorem taskId_inj {id i id' i' : ℕ} (h : taskId id i = taskId id' i') : id = id' ∧ i = i' :=
  Nat.pair_eq_pair.mp h

theorem exists_taskId (k : ℕ) : ∃ id i, taskId id i = k :=
  ⟨k.unpair.1, k.unpair.2, Nat.pair_unpair k⟩

structure Grows (net net' : Net Host) : Prop where
  requests : ∀ id a, net.requests id = some a → net'.requests id = some a
  calls : ∀ k turns, net.service.calls k = some turns → net'.service.calls k = some turns
  replies : ∀ key r, net.service.replies key = some r → net'.service.replies key = some r
  outcomes : ∀ key outcome, net.outcomes key = some outcome → net'.outcomes key = some outcome
  responses : ∀ id response, net.responses id = some response → net'.responses id = some response
  log : net.service.log <+: net'.service.log

theorem Grows.refl (net : Net Host) : Grows net net :=
  ⟨fun _ _ h => h, fun _ _ h => h, fun _ _ h => h, fun _ _ h => h, fun _ _ h => h, List.prefix_rfl⟩

theorem Grows.trans {net net' net'' : Net Host} (h : Grows net net') (h' : Grows net' net'') :
    Grows net net'' where
  requests id a ha := h'.requests id a (h.requests id a ha)
  calls k turns hk := h'.calls k turns (h.calls k turns hk)
  replies key r hr := h'.replies key r (h.replies key r hr)
  outcomes key o ho := h'.outcomes key o (h.outcomes key o ho)
  responses id r hr := h'.responses id r (h.responses id r hr)
  log := h.log.trans h'.log

theorem update_of_none {κ β : Type} [DecidableEq κ] {f : κ → Option β} {k k' : κ} {b b' : β}
    (hnew : f k = none) (h : f k' = some b) : Function.update f k (some b') k' = some b := by
  have hne : k' ≠ k := by
    rintro rfl
    simp [hnew] at h
  rw [Function.update_of_ne hne, h]

private theorem service_grows {σ α ρ : Type} {m : σ → α → σ × ρ} {s s' : Service σ α ρ}
    {e : CompositeCalls.Event α} (h : CompositeCalls.step m (fun _ => ()) s e = some s') :
    (∀ k ops, s.calls k = some ops → s'.calls k = some ops) ∧
    (∀ key r, s.replies key = some r → s'.replies key = some r) ∧
      s.log <+: s'.log := by
  cases e with
  | call id ops =>
    simp only [CompositeCalls.step] at h
    split at h
    · next hnew =>
      obtain rfl := Option.some.inj h
      exact ⟨fun k ops' hk => update_of_none (Option.isNone_iff_eq_none.mp hnew) hk,
        fun _ _ hr => hr, List.prefix_rfl⟩
    · simp at h
  | perform id index =>
    simp only [CompositeCalls.step] at h
    split at h
    · simp at h
    · next ops hops =>
      split at h
      · simp at h
      · next op hop =>
        split at h
        · next hready =>
          obtain rfl := Option.some.inj h
          refine ⟨fun _ _ hk => hk, fun key r hr => ?_, List.prefix_append _ _⟩
          exact update_of_none (Option.isNone_iff_eq_none.mp hready.1) hr
        · simp at h

section Steps
variable [DecidableEq Host] {c : HostList Host} {stores : Host → Storage} {net net' : Net Host}

theorem grows_step {event : Event Host} (h : RustClusterCalls.step net event = some net') :
    Grows net net' := by
  rcases step_cases h with ⟨id, a, -, hnew, rfl⟩ | ⟨e, service, hs, rfl, -⟩ |
    ⟨id, i, turns, -, -, hnew, -, rfl⟩ | ⟨id, i, error, a, task, -, -, -, hnew, -, rfl⟩ |
    ⟨id, a, -, -, hnew, -, rfl⟩
  · exact { Grows.refl net with requests := fun _ _ ha => update_of_none hnew ha }
  · obtain ⟨hcalls, hreplies, hlog⟩ := service_grows hs
    exact { Grows.refl net with calls := hcalls, replies := hreplies, log := hlog }
  · exact { Grows.refl net with outcomes := fun _ _ ho => update_of_none hnew ho }
  · exact { Grows.refl net with outcomes := fun _ _ ho => update_of_none hnew ho }
  · exact { Grows.refl net with responses := fun _ _ hr => update_of_none hnew hr }

def initial (c : HostList Host) (stores : Host → Storage) : Host → Node Host :=
  fun h => c.node (stores h) h

/-- The turns of a task that has been started, on the owner of their keys. -/
def Started (c : HostList Host) (net : Net Host) (id i : ℕ) (turns : List (HostTurn Host)) : Prop :=
  ∃ a task host, net.requests id = some a ∧ (tasksIn c a)[i]? = some task ∧
    turns = task.turns.map (fun turn => ⟨host, turn⟩) ∧
    ∀ turn ∈ task.turns, keyOwner c turn.key = host

def Settled (c : HostList Host) (net : Net Host) (id i : ℕ) : Outcome → Prop
  | .ok replies =>
    ∃ turns, net.service.calls (taskId id i) = some turns ∧ replies.length = turns.length ∧
      ∀ j r, replies[j]? = some r → net.service.replies (taskId id i, j) = some r
  | .error _ =>
    ∃ a task, net.requests id = some a ∧ (tasksIn c a)[i]? = some task ∧ task.shard.isSome

def Responded (c : HostList Host) (net : Net Host) (id : ℕ) (response : ClusterResponse) : Prop :=
  ∃ a outcomes, net.requests id = some a ∧ outcomes.length = (tasksIn c a).length ∧
    (∀ i outcome, outcomes[i]? = some outcome → net.outcomes (id, i) = some outcome) ∧
    response = a.req.respond outcomes

theorem Started.grows {id i : ℕ} {turns : List (HostTurn Host)} (h : Started c net id i turns)
    (hg : Grows net net') :
    Started c net' id i turns := by
  obtain ⟨a, task, host, ha, hrest⟩ := h
  exact ⟨a, task, host, hg.requests id a ha, hrest⟩

theorem Settled.grows {id i : ℕ} {outcome : Outcome} (h : Settled c net id i outcome)
    (hg : Grows net net') :
    Settled c net' id i outcome := by
  cases outcome with
  | ok replies =>
    obtain ⟨turns, hcalls, hlength, hreplies⟩ := h
    exact ⟨turns, hg.calls _ _ hcalls, hlength, fun j r hr => hg.replies _ _ (hreplies j r hr)⟩
  | error e =>
    obtain ⟨a, task, ha, hrest⟩ := h
    exact ⟨a, task, hg.requests id a ha, hrest⟩

theorem Responded.grows {id : ℕ} {response : ClusterResponse} (h : Responded c net id response)
    (hg : Grows net net') :
    Responded c net' id response := by
  obtain ⟨a, outcomes, ha, hlength, houtcomes, hresponse⟩ := h
  exact ⟨a, outcomes, hg.requests id a ha, hlength,
    fun i o ho => hg.outcomes _ _ (houtcomes i o ho), hresponse⟩

structure Inv (c : HostList Host) (stores : Host → Storage) (net : Net Host) : Prop where
  history : History performAt (fun _ => ()) (initial c stores) net.service
  hosts : ∀ id a, net.requests id = some a → a.host ∈ c.hosts
  started : ∀ id i turns, net.service.calls (taskId id i) = some turns → Started c net id i turns
  settled : ∀ id i outcome, net.outcomes (id, i) = some outcome → Settled c net id i outcome
  responded : ∀ id response, net.responses id = some response → Responded c net id response

theorem inv_start : Inv c stores (Net.start c stores) where
  history := history_start _ _ _
  hosts := by simp [Net.start]
  started := by simp [Net.start, Service.start]
  settled := by simp [Net.start]
  responded := by simp [Net.start]

/-- Only the storages of the nodes change. -/
theorem Inv.configured (h : Inv c stores net) : Configured c net.service.state := by
  rw [h.history.state, final]
  exact foldl_invariant (Configured c) (fun nodes t hc => configured_performAt hc t)
    (fun _ _ => rfl) _

theorem Inv.tasks_eq (h : Inv c stores net) {id : ℕ} {a : Arrival Host}
    (ha : net.requests id = some a) :
    net.tasks a = tasksIn c a := RustClusterCalls.tasks_eq h.configured (h.hosts id a ha)

private theorem getElem?_firsts {β : Type} {f : ℕ → Option β} {count : ℕ}
    (h : ∀ i < count, (f i).isSome) :
    ((List.range count).filterMap f).length = count ∧
      ∀ i b, ((List.range count).filterMap f)[i]? = some b → f i = some b := by
  induction count with
  | zero => simp
  | succ count ih =>
    obtain ⟨hlength, hget⟩ := ih (fun i hi => h i (Nat.lt_succ_of_lt hi))
    obtain ⟨b, hb⟩ := Option.isSome_iff_exists.mp (h count (Nat.lt_succ_self _))
    have hlast : (List.range (count + 1)).filterMap f = (List.range count).filterMap f ++ [b] := by
      simp [List.range_succ, hb]
    rw [hlast]
    refine ⟨by simp [hlength], ?_⟩
    intro i b' hi
    rcases Nat.lt_or_ge i count with hlt | hge
    · rw [List.getElem?_append_left (by omega)] at hi
      exact hget i b' hi
    · obtain ⟨hi', rfl⟩ : i = count ∧ b = b' := by
        rw [List.getElem?_append_right (by omega), hlength, List.getElem?_singleton] at hi
        split at hi
        · next hzero => exact ⟨by omega, Option.some.inj hi⟩
        · simp at hi
      rw [hi', hb]

theorem Inv.step (h : Inv c stores net) {event : Event Host} (hallowed : event.Allowed c)
    (hs : RustClusterCalls.step net event = some net') : Inv c stores net' := by
  have hg := grows_step hs
  rcases step_cases hs with ⟨id, a, rfl, hnew, rfl⟩ | ⟨e, service, hservice, rfl, hwhich⟩ |
    ⟨id, i, turns, -, hcalls, hnew, hall, rfl⟩ |
    ⟨id, i, error, a, task, -, ha, htask, hnew, hremote, rfl⟩ |
    ⟨id, a, -, ha, hnew, hall, rfl⟩
  · refine ⟨h.history, ?_, fun k i turns hk => (h.started k i turns hk).grows hg,
      fun k i o ho => (h.settled k i o ho).grows hg, fun k r hr => (h.responded k r hr).grows hg⟩
    intro k a' ha'
    simp only [Net.arrive, Function.update_apply] at ha'
    split at ha'
    · exact Option.some.inj ha' ▸ hallowed.1
    · exact h.hosts k a' ha'
  · refine ⟨(h.history.step hservice).1, h.hosts, ?_, fun k i o ho => (h.settled k i o ho).grows hg,
      fun k r hr => (h.responded k r hr).grows hg⟩
    intro k i turns hk
    rcases hwhich with ⟨id, i', j, -, rfl⟩ | ⟨id, i', a, task, host, -, ha, htask, hplace, rfl⟩
    · refine (h.started k i turns ?_).grows hg
      simp only [CompositeCalls.step] at hservice
      split at hservice
      · simp at hservice
      · split at hservice
        · simp at hservice
        · split at hservice
          · obtain rfl := Option.some.inj hservice
            exact hk
          · simp at hservice
    · simp only [CompositeCalls.step] at hservice
      split at hservice
      · obtain rfl := Option.some.inj hservice
        simp only [Service.issue, Function.update_apply] at hk
        split at hk
        · next hkey =>
          obtain ⟨rfl, rfl⟩ := taskId_inj hkey
          rw [h.tasks_eq ha] at htask
          obtain ⟨host', hplace', howner⟩ :=
            place_owner (h.hosts k a ha) (List.mem_of_getElem? htask)
              (net.service.state a.host).storage
          rw [← h.configured a.host (h.hosts k a ha), hplace] at hplace'
          obtain rfl := Except.ok.inj hplace'
          exact ⟨a, task, host, ha, htask, (Option.some.inj hk).symm, howner⟩
        · exact (h.started k i turns hk).grows hg
      · simp at hservice
  · refine ⟨h.history, h.hosts, fun k i turns hk => (h.started k i turns hk).grows hg, ?_,
      fun k r hr => (h.responded k r hr).grows hg⟩
    intro k i' o ho
    simp only [Net.settle, Function.update_apply] at ho
    split at ho
    · next hkey =>
      obtain ⟨rfl, rfl⟩ := Prod.mk.inj hkey
      obtain rfl := Option.some.inj ho
      obtain ⟨hlength, hget⟩ := getElem?_firsts hall
      exact ⟨turns, hcalls, hlength, hget⟩
    · exact (h.settled k i' o ho).grows hg
  · refine ⟨h.history, h.hosts, fun k i turns hk => (h.started k i turns hk).grows hg, ?_,
      fun k r hr => (h.responded k r hr).grows hg⟩
    intro k i' o ho
    simp only [Net.settle, Function.update_apply] at ho
    split at ho
    · next hkey =>
      obtain ⟨rfl, rfl⟩ := Prod.mk.inj hkey
      obtain rfl := Option.some.inj ho
      exact ⟨a, task, ha, h.tasks_eq ha ▸ htask, hremote⟩
    · exact (h.settled k i' o ho).grows hg
  · refine ⟨h.history, h.hosts, fun k i turns hk => (h.started k i turns hk).grows hg,
      fun k i o ho => (h.settled k i o ho).grows hg, ?_⟩
    intro k r hr
    simp only [Net.respond, Function.update_apply] at hr
    split at hr
    · next hkey =>
      subst hkey
      obtain rfl := Option.some.inj hr
      rw [h.tasks_eq ha] at hall ⊢
      obtain ⟨hlength, hget⟩ := getElem?_firsts hall
      exact ⟨a, _, ha, hlength, hget, rfl⟩
    · exact (h.responded k r hr).grows hg

omit [DecidableEq Host] in
theorem mem_of_getElem?_map {host : Host} {turns : List Turn} {j : ℕ} {t : HostTurn Host}
    (h : (turns.map (fun turn => (⟨host, turn⟩ : HostTurn Host)))[j]? = some t) :
    turns[j]? = some t.turn ∧ t.host = host := by
  rw [List.getElem?_map, Option.map_eq_some_iff] at h
  obtain ⟨turn, hturn, rfl⟩ := h
  exact ⟨hturn, rfl⟩

end Steps

/-- A turn of the log: its request has arrived, it is of the task's turns, and it has been
performed on the owner of its key. -/
def Performed [DecidableEq Host] (c : HostList Host) (net : Net Host) (e : Entry (HostTurn Host)) :
    Prop :=
  ∃ id i a task, e.call = taskId id i ∧ net.requests id = some a ∧ (tasksIn c a)[i]? = some task ∧
    task.turns[e.index]? = some e.op.turn ∧ e.op.host = keyOwner c e.op.turn.key

/-- What a request has been answered with comes from the history: all replies of each task that
has not failed, and only an RPC can have failed. -/
structure AnsweredFrom [DecidableEq Host] (c : HostList Host) (history : List ((ℕ × ℕ) × Reply))
    (id : ℕ) (a : Arrival Host) (outcomes : List Outcome) : Prop where
  all : outcomes.length = (tasksIn c a).length
  done : ∀ i task replies, (tasksIn c a)[i]? = some task → outcomes[i]? = some (.ok replies) →
    replies.length = task.turns.length ∧ ∀ j r, replies[j]? = some r →
    ((taskId id i, j), r) ∈ history
  failed : ∀ (i : ℕ) task error, (tasksIn c a)[i]? = some task →
    outcomes[i]? = some (.error error) → task.shard.isSome

/-- The turns performed in a cluster as a sequential history of one storage. -/
structure Linearizes [DecidableEq Host] (c : HostList Host) (stores : Host → Storage)
    (net : Net Host) : Prop where
  /-- No turn is performed twice. -/
  once : (net.service.log.map Entry.key).Nodup
  performed : ∀ e ∈ net.service.log, Performed c net e
  /-- The turns of one task keep their order. -/
  ordered : net.service.log.Pairwise (fun e f => e.call = f.call → e.index < f.index)
  answered : ∀ id response, net.responses id = some response →
    ∃ a outcomes, net.requests id = some a ∧
    response = a.req.respond outcomes ∧
    AnsweredFrom c (answers performAlone (merged c stores) net.service.log) id a outcomes

variable [DecidableEq Host] {c : HostList Host}

theorem Inv.performed (h : Inv c stores net) {e : Entry (HostTurn Host)}
    (he : e ∈ net.service.log) : Performed c net e := by
  obtain ⟨turns, hcalls, hop⟩ := h.history.logged e he
  obtain ⟨id, i, hcall⟩ := exists_taskId e.call
  rw [← hcall] at hcalls
  obtain ⟨a, task, host, ha, htask, rfl, howner⟩ := h.started id i turns hcalls
  obtain ⟨hturn, hhost⟩ := mem_of_getElem?_map hop
  exact ⟨id, i, a, task, hcall.symm, ha, htask, hturn,
    by rw [hhost, howner _ (List.mem_of_getElem? hturn)]⟩

theorem Inv.atOwner (h : Inv c stores net) {e : Entry (HostTurn Host)} (he : e ∈ net.service.log) :
    AtOwner c e.op := by
  obtain ⟨-, -, -, -, -, -, -, -, hhost⟩ := h.performed he
  exact hhost.symm

theorem heldBy_initial (hplaced : PlacedAtOwners c stores) :
    HeldBy c (initial c stores) (merged c stores) :=
  ⟨hplaced, covers_merged hplaced⟩

theorem Inv.answers_eq (h : Inv c stores net) (hplaced : PlacedAtOwners c stores) :
    answers performAt (initial c stores) net.service.log =
      answers performAlone (merged c stores) net.service.log :=
  CompositeCalls.answers_of_simulates (simulates_performAt c) (heldBy_initial hplaced)
    (fun _ he => h.atOwner he)

theorem Inv.answeredFrom (h : Inv c stores net) (hplaced : PlacedAtOwners c stores) {id : ℕ}
    {a : Arrival Host} (ha : net.requests id = some a) {outcomes : List Outcome}
    (hlength : outcomes.length = (tasksIn c a).length)
    (houtcomes : ∀ i outcome, outcomes[i]? = some outcome → net.outcomes (id, i) = some outcome) :
    AnsweredFrom c (answers performAlone (merged c stores) net.service.log) id a outcomes := by
  refine ⟨hlength, ?_, ?_⟩
  · intro i task replies htask hi
    obtain ⟨turns, hcalls, hlength, hreplies⟩ := h.settled id i _ (houtcomes i _ hi)
    obtain ⟨a', task', host, ha', htask', rfl, -⟩ := h.started id i turns hcalls
    obtain rfl := Option.some.inj (ha.symm.trans ha')
    obtain rfl := Option.some.inj (htask.symm.trans htask')
    rw [List.length_map] at hlength
    refine ⟨hlength, fun j r hr => ?_⟩
    rw [← h.answers_eq hplaced]
    exact h.history.replied _ _ (hreplies j r hr)
  · intro i task error htask hi
    obtain ⟨a', task', ha', htask', hremote⟩ := h.settled id i _ (houtcomes i _ hi)
    obtain rfl := Option.some.inj (ha.symm.trans ha')
    obtain rfl := Option.some.inj (htask.symm.trans htask')
    exact hremote

theorem Inv.linearizes (h : Inv c stores net) (hplaced : PlacedAtOwners c stores) :
    Linearizes c stores net := by
  refine ⟨h.history.once, fun e he => h.performed he, ?_, ?_⟩
  · exact h.history.ordered.imp (fun hlt hcall => hlt hcall rfl)
  · intro id response hresponse
    obtain ⟨a, outcomes, ha, hlength, houtcomes, rfl⟩ := h.responded id response hresponse
    exact ⟨a, outcomes, ha, rfl, h.answeredFrom hplaced ha hlength houtcomes⟩

/-- The nodes hold what the one storage holds. -/
theorem Inv.held (h : Inv c stores net) (hplaced : PlacedAtOwners c stores) :
    HeldBy c net.service.state
      (final performAlone (merged c stores) (net.service.log.map Entry.op)) := by
  rw [h.history.state]
  refine (simulates_performAt c).final (heldBy_initial hplaced) ?_
  intro t ht
  obtain ⟨e, he, rfl⟩ := List.mem_map.mp ht
  exact h.atOwner he

/-- All turns of a task that its caller has got the replies of have been performed. -/
theorem Inv.performed_of_ok (h : Inv c stores net) {id i j : ℕ} {a : Arrival Host} {task : Task}
    {replies : List Reply} (hok : net.outcomes (id, i) = some (.ok replies))
    (ha : net.requests id = some a) (htask : (tasksIn c a)[i]? = some task)
    (hj : j < task.turns.length) : (taskId id i, j) ∈ net.service.log.map Entry.key := by
  obtain ⟨turns, hcalls, hlength, hreplies⟩ := h.settled id i _ hok
  obtain ⟨a', task', host, ha', htask', rfl, -⟩ := h.started id i turns hcalls
  obtain rfl := Option.some.inj (ha.symm.trans ha')
  obtain rfl := Option.some.inj (htask.symm.trans htask')
  rw [List.length_map] at hlength
  refine h.history.mem_of_replied ?_
  rw [hreplies j _ (List.getElem?_eq_getElem (hlength ▸ hj))]
  rfl

/-- After a request has been answered, only turns of its failed tasks are performed. -/
theorem Inv.late_turn (h : Inv c stores net) (h' : Inv c stores net') (hg : Grows net net')
    {id i : ℕ} {response : ClusterResponse} (hresponse : net.responses id = some response)
    {later : List (Entry (HostTurn Host))} (hlater : net'.service.log = net.service.log ++ later)
    {e : Entry (HostTurn Host)} (he : e ∈ later) (hcall : e.call = taskId id i) :
    ∃ error, net.outcomes (id, i) = some (.error error) := by
  obtain ⟨id', i', a, task, hcall', ha, htask, hturn, -⟩ :=
    h'.performed (e := e) (by simp [hlater, he])
  obtain ⟨rfl, rfl⟩ := taskId_inj (hcall.symm.trans hcall')
  obtain ⟨a', outcomes, ha', hlength, houtcomes, -⟩ := h.responded id response hresponse
  obtain rfl := Option.some.inj (ha.symm.trans (hg.requests id a' ha'))
  have hi : i < outcomes.length := hlength ▸ (List.getElem?_eq_some_iff.mp htask).1
  have houtcome := houtcomes i _ (List.getElem?_eq_getElem hi)
  cases hwhich : outcomes[i] with
  | error error => exact ⟨error, hwhich ▸ houtcome⟩
  | ok replies =>
    rw [hwhich] at houtcome
    have hmem := h.performed_of_ok houtcome ha' htask (List.getElem?_eq_some_iff.mp hturn).1
    have hnodup := h'.history.once
    rw [hlater, List.map_append, List.nodup_append] at hnodup
    exact absurd (by simp [Entry.key, hcall]) (hnodup.2.2 _ hmem e.key (List.mem_map_of_mem he))

end HCache.RustClusterCallHistories
