import HCache.RustTurnSteps

/-!
# Requests of a cluster whose turns take their steps one by one

The steps of the turns on a host come in any order, between them whatever else happens. As long
as turns on one key overlap only where they read, the turns are a sequential history of one
storage in the order in which they return, and a key on which no turn is writing is in memory
as that storage has it. Every request can be answered by steps of its own.
-/
namespace HCache.RustTurnHistories
open OrderedMaps KeyPartitions SequentialMachines InterleavedSystems AtomicSteps
open RustStorage RustRouting RustClusterNodes RustClusterStores RustMultiKeyRequests
open RustClusterCalls RustClusterCallHistories RustTurnSteps
open CompositeCalls (Service Entry answers)
open RustClusterSteps (keyOwner Configured)

variable {Host : Type}

/-- The cluster and the turns under way, each with the steps that it has still to take. -/
structure StepNet (Host : Type) where
  net : Net Host
  active : ℕ × ℕ → Option (HostTurn Host × Program (Host → Node Host) Reply)

inductive StepEvent (Host : Type) where
  | net (event : RustClusterCalls.Event Host)
  | begin (id i j : ℕ)
  | act (id i j : ℕ)

def StepNet.turns (s : StepNet Host) : Stepwise (Host → Node Host) (HostTurn Host) Reply :=
  ⟨s.net.service, s.active⟩

def StepNet.withTurns (s : StepNet Host)
    (t : Stepwise (Host → Node Host) (HostTurn Host) Reply) : StepNet Host :=
  ⟨{ s.net with service := t.service }, t.active⟩

def StepEvent.Allowed (c : HostList Host) : StepEvent Host → Prop
  | .net event => event.Allowed c
  | _ => True

variable [DecidableEq Host]

def StepNet.start (c : HostList Host) (stores : Host → Storage) : StepNet Host :=
  ⟨.start c stores, fun _ => none⟩

/-- No turn is performed at once. -/
def step (s : StepNet Host) : StepEvent Host → Option (StepNet Host)
  | .net (.perform _ _ _) => none
  | .net event => (RustClusterCalls.step s.net event).map (fun net => { s with net := net })
  | .begin id i j =>
    (AtomicSteps.step turnOps (fun _ => ()) s.turns (.begin (taskId id i) j)).map s.withTurns
  | .act id i j =>
    (AtomicSteps.step turnOps (fun _ => ()) s.turns (.act (taskId id i) j)).map s.withTurns

/-- A turn begins only while the turns under way on its host and key read, as it does itself, or
while there are none. -/
def NoConflict (s : StepNet Host) : StepEvent Host → Prop
  | .begin id i j => AtomicSteps.NoConflict turnOps s.turns (.begin (taskId id i) j)
  | _ => True

theorem step_cases {s s' : StepNet Host} {event : StepEvent Host} (h : step s event = some s') :
    (∃ e net', event = .net e ∧ (∀ id i j, e ≠ .perform id i j) ∧
      RustClusterCalls.step s.net e = some net' ∧ s' = { s with net := net' }) ∨
    ∃ e t, AtomicSteps.step turnOps (fun _ => ()) s.turns e = some t ∧ s' = s.withTurns t ∧
      ((∃ id i j, event = .begin id i j ∧ e = .begin (taskId id i) j) ∨
        ∃ id i j, event = .act id i j ∧ e = .act (taskId id i) j) := by
  cases event with
  | net e =>
    cases e with
    | perform id i j => simp [step] at h
    | _ =>
      obtain ⟨net', hnet, rfl⟩ := Option.map_eq_some_iff.mp h
      exact .inl ⟨_, net', rfl, by simp, hnet, rfl⟩
  | begin id i j =>
    obtain ⟨t, ht, rfl⟩ := Option.map_eq_some_iff.mp h
    exact .inr ⟨_, t, ht, rfl, .inl ⟨id, i, j, rfl, rfl⟩⟩
  | act id i j =>
    obtain ⟨t, ht, rfl⟩ := Option.map_eq_some_iff.mp h
    exact .inr ⟨_, t, ht, rfl, .inr ⟨id, i, j, rfl, rfl⟩⟩

variable {c : HostList Host} {stores : Host → Storage} {s s' : StepNet Host} {n : Net Host}

structure Steady (c : HostList Host) (s : StepNet Host) : Prop where
  configured : Configured c s.net.service.state
  hosts : ∀ id a, s.net.requests id = some a → a.host ∈ c.hosts
  sound : Sound (fun _ => ()) s.turns
  keeps : ∀ place t p, s.active place = some (t, p) → p.Keeps (Configured c)

private theorem steady_start (c : HostList Host) (stores : Host → Storage) :
    Steady c (.start c stores) where
  configured _ _ := rfl
  hosts := by simp [StepNet.start, Net.start]
  sound := by simp [Sound, StepNet.start, StepNet.turns]
  keeps := by simp [StepNet.start]

theorem Steady.tasks_eq (h : Steady c s) {id : ℕ} {a : Arrival Host}
    (ha : s.net.requests id = some a) : s.net.tasks a = tasksIn c a :=
  RustClusterCalls.tasks_eq h.configured (h.hosts id a ha)

private theorem configured_store {nodes : Host → Node Host} (h : Host) (store : Storage)
    (hc : Configured c nodes) :
    Configured c (Function.update nodes h { nodes h with storage := store }) := by
  intro h' hh'
  rcases eq_or_ne h' h with rfl | hne
  · rw [Function.update_self, hc h' hh']
    rfl
  · rw [Function.update_of_ne hne]
    exact hc h' hh'

/-- What it takes to make the turns of a task ready. -/
theorem call_eq_some {σ α ρ ι : Type} [DecidableEq ι] {m : σ → α → σ × ρ} {lane : α → ι}
    {x x' : Service σ α ρ} {id : ℕ} {ops : List α}
    (h : CompositeCalls.step m lane x (.call id ops) = some x') :
    x.calls id = none ∧ x' = x.issue id ops := by
  simp only [CompositeCalls.step] at h
  split at h
  · next hnew => exact ⟨Option.isNone_iff_eq_none.mp hnew, (Option.some.inj h).symm⟩
  · simp at h

/-- An event that is not about a turn leaves the turns alone, or makes those of a task ready. -/
theorem whole_cases {net net' : Net Host} {e : RustClusterCalls.Event Host}
    (hwhole : ∀ id i j, e ≠ .perform id i j) (h : RustClusterCalls.step net e = some net') :
    (net'.service = net.service ∨ ∃ k turns, net.service.calls k = none ∧
      net'.service = net.service.issue k turns) ∧
    ∀ id a, net'.requests id = some a → net.requests id = some a ∨ e = .arrive id a := by
  rcases RustClusterCalls.step_cases h with ⟨id, a, rfl, -, rfl⟩ | ⟨e', service, hs, rfl, hwhich⟩ |
    ⟨id, i, turns, -, -, -, -, rfl⟩ | ⟨id, i, error, a, task, -, -, -, -, -, rfl⟩ |
    ⟨id, a, -, -, -, -, rfl⟩
  · refine ⟨.inl rfl, fun id' a' ha' => ?_⟩
    rcases update_eq_some_cases ha' with ⟨rfl, rfl⟩ | ⟨-, hold⟩
    · exact .inr rfl
    · exact .inl hold
  · refine ⟨?_, fun _ _ ha => .inl ha⟩
    rcases hwhich with ⟨id, i, j, rfl, -⟩ | ⟨id, i, a, task, host, -, -, -, -, rfl⟩
    · exact absurd rfl (hwhole id i j)
    · obtain ⟨hnew, rfl⟩ := call_eq_some hs
      exact .inr ⟨_, _, hnew, rfl⟩
  · exact ⟨.inl rfl, fun _ _ ha => .inl ha⟩
  · exact ⟨.inl rfl, fun _ _ ha => .inl ha⟩
  · exact ⟨.inl rfl, fun _ _ ha => .inl ha⟩

theorem Steady.step (h : Steady c s) {event : StepEvent Host} (hallowed : event.Allowed c)
    (hs : RustTurnHistories.step s event = some s') : Steady c s' ∧ Grows s.net s'.net := by
  rcases step_cases hs with ⟨e, net', rfl, hwhole, hnet, rfl⟩ | ⟨e, t, ht, rfl, hwhich⟩
  · obtain ⟨hservice, hrequests⟩ := whole_cases hwhole hnet
    refine ⟨⟨?_, ?_, ?_, h.keeps⟩, grows_step hnet⟩
    · rcases hservice with hservice | ⟨k, turns, -, hservice⟩
      · rw [hservice]
        exact h.configured
      · rw [hservice]
        exact h.configured
    · intro id a ha
      rcases hrequests id a ha with hold | rfl
      · exact h.hosts id a hold
      · exact hallowed.1
    · rcases hservice with hservice | ⟨k, turns, hnew, hservice⟩
      · simp only [StepNet.turns, hservice]
        exact h.sound
      · simp only [StepNet.turns, hservice]
        have hcall : AtomicSteps.step turnOps (fun _ => ()) s.turns (.call k turns) =
            some (s.turns.issue k turns) := by
          simp only [AtomicSteps.step, StepNet.turns, hnew]
          rfl
        exact h.sound.step hcall
  · have hsound := h.sound.step ht
    rcases AtomicSteps.step_cases ht with ⟨k, turns, rfl, -, -⟩ |
      ⟨k, j, turns, turn, rfl, -, -, -, -, -, rfl⟩ | ⟨k, j, turn, reply, rfl, hactive, rfl⟩ |
      ⟨k, j, turn, effect, next, rfl, hactive, rfl⟩
    · rcases hwhich with ⟨id, i, j, -, hcall⟩ | ⟨id, i, j, -, hcall⟩ <;> simp at hcall
    · refine ⟨⟨h.configured, h.hosts, hsound, ?_⟩, .refl _⟩
      intro place t p hactive
      rcases update_eq_some_cases hactive with ⟨-, hwhat⟩ | ⟨-, hold⟩
      · obtain ⟨rfl, rfl⟩ := Prod.mk.inj hwhat
        exact keeps_onHost (fun _ _ _ => configured_store _ _) _ _
      · exact h.keeps place t p hold
    · obtain ⟨turns, -, -, hnone, -⟩ := h.sound k j turn _ hactive
      refine ⟨⟨h.configured, h.hosts, hsound, ?_⟩, { Grows.refl s.net with
        replies := fun _ _ hr => update_of_none hnone hr, log := List.prefix_append _ _ }⟩
      intro place t p hactive'
      have hne : place ≠ (k, j) := by
        rintro rfl
        simp [StepNet.withTurns, Stepwise.leave, Entry.key] at hactive'
      exact h.keeps place t p ((Function.update_of_ne hne _ _).symm.trans hactive')
    · obtain ⟨heffect, hnext⟩ := h.keeps _ _ _ hactive
      refine ⟨⟨heffect _ h.configured, h.hosts, hsound, ?_⟩, { Grows.refl s.net with }⟩
      intro place t p hactive'
      rcases update_eq_some_cases hactive' with ⟨-, hwhat⟩ | ⟨-, hold⟩
      · obtain ⟨rfl, rfl⟩ := Prod.mk.inj hwhat
        exact hnext _
      · exact h.keeps place t p hold

/-- The cluster in which the turns are performed at once, when they return. -/
structure Simulates (c : HostList Host) (stores : Host → Storage) (s : StepNet Host)
    (n : Net Host) : Prop where
  inv : Inv c stores n
  steady : Steady c s
  same : n = { s.net with service := n.service }
  explains : Explains turnOps nodesMemory s.turns n.service

theorem simulates_start (c : HostList Host) (stores : Host → Storage) :
    Simulates c stores (.start c stores) (.start c stores) :=
  ⟨inv_start, steady_start c stores, rfl, explains_start _⟩

/-- An event that is not about a turn is the same event of the other cluster. -/
theorem Simulates.whole (h : Simulates c stores s n) {e : RustClusterCalls.Event Host}
    (hwhole : ∀ id i j, e ≠ .perform id i j) {net' : Net Host}
    (hs : RustClusterCalls.step s.net e = some net') :
    ∃ n', RustClusterCalls.step n e = some n' ∧ n' = { net' with service := n'.service } ∧
      Explains turnOps nodesMemory ⟨net'.service, s.active⟩ n'.service := by
  obtain ⟨hinv, hsteady, hsame, hexplains⟩ := h
  have hrequests : n.requests = s.net.requests := by rw [hsame]
  have houtcomes : n.outcomes = s.net.outcomes := by rw [hsame]
  have hresponses : n.responses = s.net.responses := by rw [hsame]
  have htasks : ∀ {id a}, s.net.requests id = some a → n.tasks a = s.net.tasks a := by
    intro id a ha
    rw [hsteady.tasks_eq ha, hinv.tasks_eq (hrequests ▸ ha)]
  rcases RustClusterCalls.step_cases hs with ⟨id, a, rfl, hnew, rfl⟩ |
    ⟨e', service, hservice, rfl, hwhich⟩ | ⟨id, i, turns, rfl, hcalls, hnone, hall, rfl⟩ |
    ⟨id, i, error, a, task, rfl, ha, htask, hnone, hshard, rfl⟩ | ⟨id, a, rfl, ha, hnone, hall, rfl⟩
  · refine ⟨n.arrive id a, ?_, ?_, hexplains⟩
    · simp only [RustClusterCalls.step, hrequests, hnew, if_true]
    · rw [Net.arrive, Net.arrive, hsame]
  · rcases hwhich with ⟨id, i, j, rfl, -⟩ | ⟨id, i, a, task, host, rfl, ha, htask, hplace, rfl⟩
    · exact absurd rfl (hwhole id i j)
    · have hhost := hsteady.hosts id a ha
      rw [hsteady.configured a.host hhost] at hplace
      have hplace' : task.place (n.service.state a.host) a.host = .ok host := by
        rw [hinv.configured a.host hhost, ← hplace]
        rfl
      obtain ⟨hnew, rfl⟩ := call_eq_some hservice
      have hnew' : n.service.calls (taskId id i) = none := by rw [hexplains.calls]; exact hnew
      refine ⟨{ n with service := n.service.issue (taskId id i) _ }, ?_, ?_,
        hexplains.issue (taskId id i) (task.turns.map (fun turn => ⟨host, turn⟩))⟩
      · simp only [RustClusterCalls.step, hrequests, ha, htasks ha, htask, hplace',
          CompositeCalls.step_call hnew', Option.map_some]
      · rw [hsame]
  · have hcalls' : n.service.calls (taskId id i) = some turns := by
      rw [hexplains.calls]
      exact hcalls
    have hreplies : n.service.replies = s.net.service.replies := hexplains.replies
    have hrepliesOf : n.repliesOf id i turns.length = s.net.repliesOf id i turns.length := by
      rw [Net.repliesOf, hreplies, Net.repliesOf]
    refine ⟨n.settle id i (.ok (n.repliesOf id i turns.length)), ?_, ?_, hexplains⟩
    · simp only [RustClusterCalls.step, hcalls', houtcomes, hnone, hreplies, Option.isNone_none,
        true_and, if_pos hall]
    · rw [hrepliesOf, Net.settle, Net.settle, hsame]
  · refine ⟨n.settle id i (.error error), ?_, ?_, hexplains⟩
    · simp only [RustClusterCalls.step, hrequests, ha, htasks ha, htask, houtcomes, hnone, hshard,
        Option.isNone_none, and_self, if_true]
    · rw [Net.settle, Net.settle, hsame]
  · have houtcomesOf : ∀ count, n.outcomesOf id count = s.net.outcomesOf id count := by
      intro count
      rw [Net.outcomesOf, houtcomes, Net.outcomesOf]
    refine ⟨n.respond id (a.req.respond (n.outcomesOf id (n.tasks a).length)), ?_, ?_, hexplains⟩
    · simp only [RustClusterCalls.step, hrequests, ha, htasks ha, houtcomes, hresponses, hnone,
        Option.isNone_none, true_and, if_pos hall]
    · rw [houtcomesOf, htasks ha, Net.respond, Net.respond, hsame]

/-- Every step of the turns is explained by the cluster in which they are performed at once. -/
theorem Simulates.step (h : Simulates c stores s n) {event : StepEvent Host}
    (hallowed : event.Allowed c) (hn : NoConflict s event)
    (hs : RustTurnHistories.step s event = some s') :
    ∃ n', Simulates c stores s' n' ∧ Grows n n' := by
  obtain ⟨hsteady, -⟩ := h.steady.step hallowed hs
  rcases step_cases hs with ⟨e, net', rfl, hwhole, hnet, rfl⟩ | ⟨e, t, ht, rfl, hwhich⟩
  · obtain ⟨n', hn', hsame, hexplains⟩ := h.whole hwhole hnet
    exact ⟨n', ⟨h.inv.step hallowed hn', hsteady, hsame, hexplains⟩, grows_step hn'⟩
  · have hconflict : AtomicSteps.NoConflict turnOps s.turns e := by
      rcases hwhich with ⟨id, i, j, rfl, rfl⟩ | ⟨id, i, j, rfl, rfl⟩
      · exact hn
      · trivial
    rcases h.explains.step wellKept_turnOps h.steady.sound hconflict ht with
      hexplains | ⟨service, hservice, hexplains⟩
    · exact ⟨n, ⟨h.inv, hsteady, h.same, hexplains⟩, .refl n⟩
    · have hevent : ∃ id i j, e.whole = .perform (taskId id i) j := by
        rcases hwhich with ⟨id, i, j, -, rfl⟩ | ⟨id, i, j, -, rfl⟩ <;> exact ⟨id, i, j, rfl⟩
      obtain ⟨id, i, j, hwhole⟩ := hevent
      rw [hwhole, perform_turnOps] at hservice
      have hn' : RustClusterCalls.step n (.perform id i j) =
          some { n with service := service } := by
        rw [RustClusterCalls.step, hservice, Option.map_some]
      have hallowed' :
          (RustClusterCalls.Event.perform id i j : RustClusterCalls.Event Host).Allowed c :=
        trivial
      refine ⟨_, ⟨h.inv.step hallowed' hn', hsteady, ?_, hexplains⟩, grows_step hn'⟩
      rw [h.same]
      rfl

theorem Simulates.run (h : Simulates c stores s n) {events : List (StepEvent Host)}
    (hallowed : ∀ event ∈ events, event.Allowed c)
    (hm : Meets RustTurnHistories.step NoConflict s events)
    (hr : InterleavedSystems.run RustTurnHistories.step s events = some s') :
    ∃ n', Simulates c stores s' n' ∧ Grows n n' := by
  induction events generalizing s n with
  | nil =>
    obtain rfl := Option.some.inj hr
    exact ⟨n, h, .refl n⟩
  | cons event events ih =>
    obtain ⟨s₁, hs, hr⟩ := run_cons_eq_some.mp hr
    obtain ⟨n₁, h₁, hg₁⟩ := h.step (hallowed event (by simp)) hm.1 hs
    obtain ⟨n', h', hg'⟩ := ih h₁ (fun e he => hallowed e (by simp [he])) (hm.2 s₁ hs) hr
    exact ⟨n', h', hg₁.trans hg'⟩

/-- Every key lives at most on its owner, which has what the one storage has unless a turn is
writing there. -/
structure Held (c : HostList Host) (stores : Host → Storage) (s : StepNet Host) : Prop where
  placed : PlacedAtOwners c (storagesOf s.net.service.state)
  owner : ∀ key, AtomicSteps.Idle turnOps s.turns (keyOwner c key, key) →
    inMemory (storagesOf s.net.service.state (keyOwner c key)) key =
      inMemory (final performAlone (merged c stores) (s.net.service.log.map Entry.op)) key

theorem Simulates.linearizes (h : Simulates c stores s n) (hplaced : PlacedAtOwners c stores) :
    Linearizes c stores s.net := by
  have hlinear := h.inv.linearizes hplaced
  have hlog : n.service.log = s.net.service.log := h.explains.log
  have hrequests : n.requests = s.net.requests := by rw [h.same]
  have hresponses : n.responses = s.net.responses := by rw [h.same]
  refine ⟨hlog ▸ hlinear.once, ?_, hlog ▸ hlinear.ordered, ?_⟩
  · intro e he
    obtain ⟨id, i, a, task, hcall, ha, hrest⟩ := hlinear.performed e (hlog ▸ he)
    exact ⟨id, i, a, task, hcall, hrequests ▸ ha, hrest⟩
  · intro id response hresponse
    obtain ⟨a, outcomes, ha, hrest⟩ := hlinear.answered id response (hresponses ▸ hresponse)
    exact ⟨a, outcomes, hrequests ▸ ha, hlog ▸ hrest⟩

/-- A turn under way is on the owner of its key. -/
theorem Simulates.active_owner (h : Simulates c stores s n) {place : ℕ × ℕ} {t : HostTurn Host}
    {p : Program (Host → Node Host) Reply} (hactive : s.active place = some (t, p)) :
    t.host = keyOwner c t.turn.key := by
  obtain ⟨turns, hcalls, hop, -⟩ := h.steady.sound place.1 place.2 t p hactive
  obtain ⟨id, i, hid⟩ := exists_taskId place.1
  rw [← hid, ← h.explains.calls] at hcalls
  obtain ⟨a, task, host, -, -, rfl, howner⟩ := h.inv.started id i turns hcalls
  obtain ⟨hturn, hhost⟩ := mem_of_getElem?_map hop
  rw [hhost, howner _ (List.mem_of_getElem? hturn)]

theorem Simulates.held (h : Simulates c stores s n) (hplaced : PlacedAtOwners c stores) :
    Held c stores s := by
  obtain ⟨hplaces, hcovers⟩ := h.inv.held hplaced
  constructor
  · intro host hh key hne
    refine (h.explains.idle (host, key) ?_).trans (hplaces host hh key hne)
    intro place t p hactive hkey
    obtain ⟨rfl, rfl⟩ := Prod.mk.inj hkey
    exact absurd (h.active_owner hactive) hne
  · intro key hidle
    have hlog : n.service.log = s.net.service.log := h.explains.log
    rw [← hlog]
    exact (h.explains.idle _ hidle).trans (hcovers key)

/-- The events of one request and its turns; none of them is a failure. -/
def Own (id : ℕ) : StepEvent Host → Prop
  | .net (.start id' _) | .net (.finish id' _) | .net (.respond id') => id' = id
  | .begin id' _ _ | .act id' _ _ => id' = id
  | _ => False

/-- Some events of a request lead from one state to the other. -/
def Reaches (id : ℕ) (s s' : StepNet Host) : Prop :=
  ∃ events : List (StepEvent Host), (∀ event ∈ events, Own id event) ∧
    run RustTurnHistories.step s events = some s'

variable {id : ℕ} {s'' : StepNet Host}

theorem Reaches.refl (id : ℕ) (s : StepNet Host) : Reaches id s s := ⟨[], by simp, rfl⟩

theorem Reaches.trans (h : Reaches id s s') (h' : Reaches id s' s'') : Reaches id s s'' := by
  obtain ⟨events, hown, hr⟩ := h
  obtain ⟨events', hown', hr'⟩ := h'
  refine ⟨events ++ events', ?_, run_append_eq_some.mpr ⟨s', hr, hr'⟩⟩
  intro event he
  exact (List.mem_append.mp he).elim (hown event) (hown' event)

theorem Reaches.one {event : StepEvent Host} (hs : RustTurnHistories.step s event = some s')
    (hown : Own id event) : Reaches id s s' := by
  refine ⟨[event], ?_, run_singleton.mpr hs⟩
  intro e he
  obtain rfl := List.mem_singleton.mp he
  exact hown

omit [DecidableEq Host] in
private theorem allowed_of_own {event : StepEvent Host} (h : Own id event) : event.Allowed c := by
  cases event with
  | net e =>
    cases e with
    | arrive id' a => exact h.elim
    | _ => trivial
  | _ => trivial

theorem Steady.run (h : Steady c s) {events : List (StepEvent Host)}
    (hallowed : ∀ event ∈ events, event.Allowed c)
    (hr : InterleavedSystems.run RustTurnHistories.step s events = some s') :
    Steady c s' ∧ Grows s.net s'.net := by
  have hstep : ∀ t event t', (Steady c t ∧ Grows s.net t.net) → event.Allowed c →
      RustTurnHistories.step t event = some t' → Steady c t' ∧ Grows s.net t'.net := by
    rintro t event t' ⟨ht, hg⟩ hevent hs
    obtain ⟨ht', hg'⟩ := ht.step hevent hs
    exact ⟨ht', hg.trans hg'⟩
  exact run_invariant (fun t => Steady c t ∧ Grows s.net t.net) hstep ⟨h, .refl s.net⟩
    (meets_const hallowed) hr

theorem Reaches.steady (hr : Reaches id s s') (h : Steady c s) :
    Steady c s' ∧ Grows s.net s'.net := by
  obtain ⟨events, hown, hr⟩ := hr
  exact h.run (fun event he => allowed_of_own (hown event he)) hr

private theorem returns {i j : ℕ} {t : HostTurn Host} {p : Program (Host → Node Host) Reply}
    (hactive : s.active (taskId id i, j) = some (t, p)) :
    ∃ s', Reaches id s s' ∧ (s'.net.service.replies (taskId id i, j)).isSome := by
  induction p generalizing s with
  | done reply =>
    have hs : RustTurnHistories.step s (.act id i j) =
        some (s.withTurns (s.turns.leave ⟨taskId id i, j, t⟩ reply)) := by
      simp only [RustTurnHistories.step, AtomicSteps.step, StepNet.turns, hactive, Option.map_some]
    refine ⟨_, .one hs rfl, ?_⟩
    simp [StepNet.withTurns, Stepwise.leave, Entry.key]
  | act effect next ih =>
    have hs : RustTurnHistories.step s (.act id i j) = some (s.withTurns
        ((s.turns.change effect).enter (taskId id i, j) t (next s.net.service.state))) := by
      simp only [RustTurnHistories.step, AtomicSteps.step, StepNet.turns, hactive, Option.map_some]
    obtain ⟨s', hr, hreply⟩ := ih s.net.service.state (s := s.withTurns
      ((s.turns.change effect).enter (taskId id i, j) t (next s.net.service.state)))
      (Function.update_self _ _ _)
    exact ⟨s', (Reaches.one hs rfl).trans hr, hreply⟩

/-- A turn whose task is ready for it is performed, if it has not been already. -/
theorem performs {i j : ℕ} {turns : List (HostTurn Host)}
    (hcalls : s.net.service.calls (taskId id i) = some turns) (hj : j < turns.length)
    (hall : ∀ k < j, (s.net.service.replies (taskId id i, k)).isSome) :
    ∃ s', Reaches id s s' ∧ (s'.net.service.replies (taskId id i, j)).isSome := by
  cases hreply : s.net.service.replies (taskId id i, j) with
  | some reply => exact ⟨s, .refl id s, by simp [hreply]⟩
  | none =>
    cases hactive : s.active (taskId id i, j) with
    | some what => exact returns hactive
    | none =>
      have hop := List.getElem?_eq_getElem hj
      have hturn : s.net.service.InTurn (fun _ => ()) turns ⟨taskId id i, j, turns[j]⟩ :=
        fun k hk _ => hall k hk
      have hs : RustTurnHistories.step s (.begin id i j) = some (s.withTurns
          (s.turns.enter (taskId id i, j) turns[j] (turnOps.program turns[j]))) := by
        simp only [RustTurnHistories.step, AtomicSteps.step, StepNet.turns, hcalls, hop, hreply,
          hactive, Option.isNone_none, true_and, if_pos hturn, Option.map_some]
      obtain ⟨s', hr, hdone⟩ := returns (s := s.withTurns
        (s.turns.enter (taskId id i, j) turns[j] (turnOps.program turns[j])))
        (Function.update_self _ _ _)
      exact ⟨s', (Reaches.one hs rfl).trans hr, hdone⟩

/-- The turns of a task that has been started are performed one after another. -/
theorem Steady.performs_all (h : Steady c s) {i : ℕ} {turns : List (HostTurn Host)}
    (hcalls : s.net.service.calls (taskId id i) = some turns) {count : ℕ}
    (hcount : count ≤ turns.length) :
    ∃ s', Reaches id s s' ∧ ∀ j < count, (s'.net.service.replies (taskId id i, j)).isSome := by
  induction count with
  | zero => exact ⟨s, .refl id s, by simp⟩
  | succ count ih =>
    obtain ⟨s₁, hr₁, hall⟩ := ih (by omega)
    obtain ⟨h₁, hg₁⟩ := hr₁.steady h
    obtain ⟨s₂, hr₂, hreply⟩ := performs (hg₁.calls _ _ hcalls) hcount hall
    refine ⟨s₂, hr₁.trans hr₂, fun j hj => ?_⟩
    rcases Nat.lt_succ_iff_lt_or_eq.mp hj with hlt | rfl
    · obtain ⟨reply, hold⟩ := Option.isSome_iff_exists.mp (hall j hlt)
      rw [(hr₂.steady h₁).2.replies _ _ hold]
      rfl
    · exact hreply

theorem Steady.starts (h : Steady c s) {i : ℕ} {a : Arrival Host}
    (ha : s.net.requests id = some a) {task : Task} (htask : (tasksIn c a)[i]? = some task) :
    ∃ s' turns, Reaches id s s' ∧ s'.net.service.calls (taskId id i) = some turns := by
  cases hcalls : s.net.service.calls (taskId id i) with
  | some turns => exact ⟨s, turns, .refl id s, hcalls⟩
  | none =>
    have hhost := h.hosts id a ha
    obtain ⟨host, hplace, -⟩ := place_owner hhost (List.mem_of_getElem? htask)
      (s.net.service.state a.host).storage
    rw [← h.configured a.host hhost] at hplace
    have hs : RustTurnHistories.step s (.net (.start id i)) = some { s with net := { s.net with
        service := s.net.service.issue (taskId id i)
          (task.turns.map (fun turn => ⟨host, turn⟩)) } } := by
      simp only [RustTurnHistories.step, RustClusterCalls.step, ha, h.tasks_eq ha, htask, hplace,
        CompositeCalls.step_call hcalls, Option.map_some]
    exact ⟨_, _, .one hs rfl, Function.update_self _ _ _⟩

theorem Steady.settles (h : Steady c s) {i : ℕ} {a : Arrival Host}
    (ha : s.net.requests id = some a) {task : Task} (htask : (tasksIn c a)[i]? = some task) :
    ∃ s', Reaches id s s' ∧ (s'.net.outcomes (id, i)).isSome := by
  obtain ⟨s₁, turns, hr₁, hcalls⟩ := h.starts ha htask
  obtain ⟨s₂, hr₂, hall⟩ := (hr₁.steady h).1.performs_all hcalls le_rfl
  have hcalls₂ := (hr₂.steady (hr₁.steady h).1).2.calls _ _ hcalls
  cases houtcome : s₂.net.outcomes (id, i) with
  | some outcome => exact ⟨s₂, hr₁.trans hr₂, by simp [houtcome]⟩
  | none =>
    have hs : RustTurnHistories.step s₂ (.net (.finish id i)) = some { s₂ with
        net := s₂.net.settle id i (.ok (s₂.net.repliesOf id i turns.length)) } := by
      simp only [RustTurnHistories.step, RustClusterCalls.step, hcalls₂, houtcome,
        Option.isNone_none, true_and, if_pos hall, Option.map_some]
    exact ⟨_, (hr₁.trans hr₂).trans (.one hs rfl), by simp [Net.settle]⟩

theorem Steady.settles_all (h : Steady c s) {a : Arrival Host} (ha : s.net.requests id = some a)
    {count : ℕ} (hcount : count ≤ (tasksIn c a).length) :
    ∃ s', Reaches id s s' ∧ ∀ i < count, (s'.net.outcomes (id, i)).isSome := by
  induction count with
  | zero => exact ⟨s, .refl id s, by simp⟩
  | succ count ih =>
    obtain ⟨s₁, hr₁, hall⟩ := ih (by omega)
    obtain ⟨h₁, hg₁⟩ := hr₁.steady h
    obtain ⟨s₂, hr₂, hlast⟩ :=
      h₁.settles (hg₁.requests id a ha) (List.getElem?_eq_getElem hcount)
    refine ⟨s₂, hr₁.trans hr₂, fun i hi => ?_⟩
    rcases Nat.lt_succ_iff_lt_or_eq.mp hi with hlt | rfl
    · obtain ⟨outcome, houtcome⟩ := Option.isSome_iff_exists.mp (hall i hlt)
      rw [(hr₂.steady h₁).2.outcomes _ _ houtcome]
      rfl
    · exact hlast

theorem Steady.completes (h : Steady c s) (harrived : s.net.requests id ≠ none) :
    ∃ s' response, Reaches id s s' ∧ s'.net.responses id = some response := by
  obtain ⟨a, ha⟩ := Option.ne_none_iff_exists'.mp harrived
  obtain ⟨s₁, hr₁, hall⟩ := h.settles_all ha le_rfl
  obtain ⟨h₁, hg₁⟩ := hr₁.steady h
  have ha₁ := hg₁.requests id a ha
  cases hresponse : s₁.net.responses id with
  | some response => exact ⟨s₁, response, hr₁, hresponse⟩
  | none =>
    have hs : RustTurnHistories.step s₁ (.net (.respond id)) = some { s₁ with
        net := s₁.net.respond id
          (a.req.respond (s₁.net.outcomesOf id (tasksIn c a).length)) } := by
      simp only [RustTurnHistories.step, RustClusterCalls.step, ha₁, h₁.tasks_eq ha₁, hresponse,
        Option.isNone_none, true_and, if_pos hall, Option.map_some]
    exact ⟨_, _, hr₁.trans (.one hs rfl), Function.update_self _ _ _⟩

theorem Simulates.performed (h : Simulates c stores s n) {e : Entry (HostTurn Host)}
    (he : e ∈ s.net.service.log) : Performed c s.net e := by
  obtain ⟨id, i, a, task, hcall, ha, hrest⟩ :=
    h.inv.performed (e := e) (by rw [h.explains.log]; exact he)
  have hrequests : n.requests = s.net.requests := by rw [h.same]
  exact ⟨id, i, a, task, hcall, hrequests ▸ ha, hrest⟩

/-- Whatever RPCs fail at whatever time, as long as turns on one key overlap only where they read,
the turns that have returned are a sequential history of one storage, which only grows, and the
nodes hold what it leaves under every key on which no turn is writing. Once a request has been
answered, only turns of its failed RPCs may still return; one that has not arrived has no turns;
and one that has arrived can be answered by steps of its own, whatever other requests do. -/
theorem cluster_calls_linearize (c : HostList Host) (stores : Host → Storage)
    (hplaced : PlacedAtOwners c stores) (before after : List (StepEvent Host))
    (hallowed : ∀ event ∈ before ++ after, event.Allowed c) (s s' : StepNet Host)
    (hbefore : run RustTurnHistories.step (.start c stores) before = some s)
    (hafter : run RustTurnHistories.step s after = some s')
    (hapart : Meets RustTurnHistories.step NoConflict (.start c stores) before)
    (hapart' : Meets RustTurnHistories.step NoConflict s after) :
    (Linearizes c stores s.net ∧ Held c stores s) ∧
    (Linearizes c stores s'.net ∧ Held c stores s') ∧
    (∃ later, s'.net.service.log = s.net.service.log ++ later ∧
      (∀ id response, s.net.responses id = some response → ∀ e ∈ later, ∀ i,
        e.call = taskId id i → ∃ error, s.net.outcomes (id, i) = some (.error error)) ∧
      ∀ id, s.net.requests id = none → ∀ e ∈ s.net.service.log, ∀ i, e.call ≠ taskId id i) ∧
    ∀ id, s'.net.requests id ≠ none →
      ∃ last response, Reaches id s' last ∧ last.net.responses id = some response := by
  obtain ⟨n, h, -⟩ := (simulates_start c stores).run (fun event he => hallowed event (by simp [he]))
    hapart hbefore
  obtain ⟨n', h', hgrows⟩ := h.run (fun event he => hallowed event (by simp [he])) hapart' hafter
  obtain ⟨later, hlater⟩ := hgrows.log
  have hlog : n.service.log = s.net.service.log := h.explains.log
  have hlog' : n'.service.log = s'.net.service.log := h'.explains.log
  refine ⟨⟨h.linearizes hplaced, h.held hplaced⟩, ⟨h'.linearizes hplaced, h'.held hplaced⟩,
    ⟨later, by rw [← hlog, ← hlog', hlater], ?_, ?_⟩, fun id => h'.steady.completes⟩
  · intro id response hresponse e he i hcall
    have hresponses : n.responses = s.net.responses := by rw [h.same]
    have houtcomes : n.outcomes = s.net.outcomes := by rw [h.same]
    rw [← hresponses] at hresponse
    rw [← houtcomes]
    exact h.inv.late_turn h'.inv hgrows hresponse hlater.symm he hcall
  · intro id hnew e he i hcall
    obtain ⟨id', i', a, -, hcall', ha, -⟩ := h.performed he
    obtain ⟨rfl, -⟩ := taskId_inj (hcall.symm.trans hcall')
    simp [hnew] at ha

/-- A turn does not conflict with the only one under way if that has another key. -/
theorem noConflict_of_one (place : ℕ × ℕ) {id i j : ℕ} {t : HostTurn Host}
    {p : Program (Host → Node Host) Reply} {turns : List (HostTurn Host)}
    (hcalls : s.net.service.calls (taskId id i) = some turns) (hone : s.active place = some (t, p))
    (hrest : ∀ place', place' ≠ place → s.active place' = none)
    (hkeys : ∀ t' ∈ turns, t.turn.key ≠ t'.turn.key) : NoConflict s (.begin id i j) := by
  intro turns' t' hcalls' hop place' t'' p' hactive hkey
  obtain rfl := Option.some.inj (hcalls.symm.trans hcalls')
  rcases eq_or_ne place' place with rfl | hne
  · obtain ⟨rfl, -⟩ := Prod.mk.inj (Option.some.inj (hone.symm.trans hactive))
    exact absurd (congrArg Prod.snd hkey) (hkeys t' (List.mem_of_getElem? hop))
  · exact absurd ((hrest place' hne).symm.trans hactive) (by simp)

noncomputable def arrivalOf (h : ℕ) (req : Request) : Arrival ℕ :=
  ⟨h, .one req, .choice Str, .ascending UInt32 (List InsrtRequest),
    .ascending UInt32 (Finset Str)⟩

/-- The second node is to add a key and is asked for another one. -/
noncomputable def arriving : List (StepEvent ℕ) :=
  [.net (.arrive 0 (arrivalOf 0 (.query [97]))),
    .net (.arrive 1 (arrivalOf 1 (.add ⟨[100], [98]⟩))), .net (.start 0 0), .net (.start 1 0)]

def overlapping : List (StepEvent ℕ) :=
  [.begin 1 0 0, .act 1 0 0, .act 1 0 0, .begin 0 0 0, .act 0 0 0, .act 1 0 0, .act 0 0 0,
    .act 1 0 0, .net (.finish 0 0), .net (.respond 0)]

theorem cluster_calls_linearize_add : ∃ s s' : StepNet ℕ, Linearizes twoNodes holding s.net ∧
    Held twoNodes holding s' ∧ s.net.service.log = [] ∧
    s'.net.service.log.map Entry.key = [(taskId 0 0, 0), (taskId 1 0, 0)] ∧
    s'.net.responses 0 = some (.one (queryResponse (some [98]))) := by
  obtain ⟨s, hbefore⟩ :
      ∃ s, run RustTurnHistories.step (.start twoNodes holding) arriving = some s := ⟨_, rfl⟩
  obtain ⟨s', hafter⟩ : ∃ s', run RustTurnHistories.step s overlapping = some s' := by
    obtain rfl := Option.some.inj hbefore
    exact ⟨_, rfl⟩
  have hallowed : ∀ event ∈ arriving ++ overlapping, event.Allowed twoNodes := by
    simp [arriving, overlapping, StepEvent.Allowed, Event.Allowed, arrivalOf, Request.Valid,
      twoNodes]
  have hapart : Meets RustTurnHistories.step NoConflict (.start twoNodes holding) arriving :=
    ⟨trivial, fun _ _ => ⟨trivial, fun _ _ => ⟨trivial, fun _ _ => ⟨trivial, fun _ _ => trivial⟩⟩⟩⟩
  have hidle : s.active = fun _ => none := by
    obtain rfl := Option.some.inj hbefore
    rfl
  have hapart' : Meets RustTurnHistories.step NoConflict s overlapping := by
    refine ⟨?_, fun s₁ h₁ => ⟨trivial, fun s₂ h₂ => ⟨trivial, fun s₃ h₃ => ⟨?_, fun _ _ => ?_⟩⟩⟩⟩
    · intro _ _ _ _ place _ _ hactive
      simp [StepNet.turns, hidle] at hactive
    · obtain rfl := Option.some.inj hbefore
      obtain rfl := Option.some.inj h₁
      obtain rfl := Option.some.inj h₂
      obtain rfl := Option.some.inj h₃
      refine noConflict_of_one (taskId 1 0, 0) rfl rfl (fun place hne => ?_) ?_
      · exact (Function.update_of_ne hne _ _).trans ((Function.update_of_ne hne _ _).trans
          (Function.update_of_ne hne _ _))
      · simp [Turn.key, Request.key]
    · exact ⟨trivial, fun _ _ => ⟨trivial, fun _ _ => ⟨trivial, fun _ _ => ⟨trivial, fun _ _ =>
        ⟨trivial, fun _ _ => ⟨trivial, fun _ _ => trivial⟩⟩⟩⟩⟩⟩
  have h := cluster_calls_linearize twoNodes holding placed_holding arriving overlapping hallowed
    s s' hbefore hafter hapart hapart'
  obtain rfl := Option.some.inj hbefore
  obtain rfl := Option.some.inj hafter
  exact ⟨_, _, h.1.1, h.2.1.2, rfl, rfl, rfl⟩

end HCache.RustTurnHistories
