import HCache.InterleavedSystems
import HCache.RustRouting
import Mathlib.Data.FinEnum

/-!
# Installing a cluster configuration that may fail

`try_load_peers` and `update_peers` one suspension at a time. The three atomics are stored
before the first connection is opened, the `compare_exchange` lets one attempt through for
the life of the process, and the attempt may panic at a host or be dropped at an await. The
handlers load `count` and `me` and ask the pool for a client at any time.
-/
namespace HCache.RustPeerInstalls
open RustStorage RustRouting InterleavedSystems

/-- The content of `cluster.json`; the length of a vector is a `usize`. -/
structure UpdateCluster where
  hosts : List Str
  index : UInt32
  length_lt : hosts.length < UInt64.size

/-- How the node was built: the parser of socket addresses, and whether an arithmetic
overflow panics or wraps. -/
structure Build (Addr : Type) where
  parse : Str → Option Addr
  overflowChecks : Bool

structure PeerClientQueue (Addr : Type) where
  addr : Addr
  clients : ℕ
  capacity : ℕ
  deriving DecidableEq, Repr

/-- Where the attempt is that has won the `compare_exchange`. -/
inductive Phase (Addr : Type) where
  | lockCluster
  | storePeerUpdated
  | storeMe
  | storeCount
  | openQueue (opened : List (PeerClientQueue Addr)) (peers : List Str)
  | connect (opened : List (PeerClientQueue Addr)) (queue : PeerClientQueue Addr) (peers : List Str)
  | completed
  | panicked
  | dropped
  deriving DecidableEq, Repr

/-- A handler that routes one key. -/
inductive Caller where
  | counted (key : Str) (count : UInt64)
  | calling (idx : ℕ)
  | atHome
  | called (idx clients : ℕ)
  deriving DecidableEq, Repr

structure Server (Addr : Type) where
  peerUpdated : Bool
  me : UInt32
  count : UInt64
  pool : List (PeerClientQueue Addr)
  locked : Bool
  attempt : Option (Phase Addr)
  callers : ℕ → Option Caller

inductive Event where
  | tryLoadPeers
  | advance
  | connectFailed
  | drop
  | loadCount (id : ℕ) (key : Str)
  | loadMe (id : ℕ)
  | getClient (id : ℕ)
  deriving DecidableEq, Repr

variable {Addr : Type}

def Server.start : Server Addr := ⟨false, 0, 0, [], false, none, fun _ => none⟩

/-- `":58080"`. -/
def peerPort : Str := [58, 53, 56, 48, 56, 48]

def queueCapacity : ℕ := 16

/-- `me - 1`. -/
def Build.subOne (build : Build Addr) (index : UInt32) : Option UInt32 :=
  if build.overflowChecks ∧ index = 0 then none else some (index - 1)

def Server.finish (s : Server Addr) (ph : Phase Addr) : Server Addr :=
  { s with attempt := some ph, locked := false }

def Phase.perform (build : Build Addr) (cfg : UpdateCluster) (s : Server Addr) :
    Phase Addr → Option (Server Addr)
  | .lockCluster => some { s with locked := true, attempt := some .storePeerUpdated }
  | .storePeerUpdated => some { s with peerUpdated := true, attempt := some .storeMe }
  | .storeMe =>
    match build.subOne cfg.index with
    | none => some (s.finish .panicked)
    | some me => some { s with me := me, attempt := some .storeCount }
  | .storeCount =>
    some { s with
      count := UInt64.ofNat cfg.hosts.length
      attempt := some (.openQueue [] cfg.hosts) }
  | .openQueue opened [] => some ({ s with pool := opened }.finish .completed)
  | .openQueue opened (peer :: peers) =>
    match build.parse (peer ++ peerPort) with
    | none => some (s.finish .panicked)
    | some addr => some { s with attempt := some (.connect opened ⟨addr, 0, queueCapacity⟩ peers) }
  | .connect opened queue peers =>
    let queue := { queue with clients := queue.clients + 1 }
    if queue.clients < queue.capacity then
      some { s with attempt := some (.connect opened queue peers) }
    else some { s with attempt := some (.openQueue (opened ++ [queue]) peers) }
  | .completed | .panicked | .dropped => none

/-- The awaits at which the future can be left: the lock, a connection, the sleep after a
failed one. -/
def Phase.suspended : Phase Addr → Bool
  | .lockCluster | .connect _ _ _ => true
  | _ => false

def Server.setCaller (s : Server Addr) (id : ℕ) (c : Caller) : Server Addr :=
  { s with callers := Function.update s.callers id (some c) }

def step (build : Build Addr) (cfg : UpdateCluster) (s : Server Addr) : Event → Option (Server Addr)
  | .tryLoadPeers =>
    if s.peerUpdated then some s
    else some { s with peerUpdated := true, attempt := some .lockCluster }
  | .advance => s.attempt.bind (Phase.perform build cfg s)
  | .connectFailed =>
    match s.attempt with
    | some (.connect _ _ _) => some s
    | _ => none
  | .drop =>
    match s.attempt with
    | some ph => if ph.suspended then some (s.finish .dropped) else none
    | none => none
  | .loadCount id key =>
    match s.callers id with
    | none => some (s.setCaller id (.counted key s.count))
    | some _ => none
  | .loadMe id =>
    match s.callers id with
    | some (.counted key count) =>
      let shard := (getShard (strStream key) count).toUInt32
      some (s.setCaller id (if shard = s.me then .atHome else .calling shard.toNat))
    | _ => none
  | .getClient id =>
    match s.callers id with
    | some (.calling idx) =>
      if s.locked then none else some (s.setCaller id (.called idx s.pool.length))
    | _ => none

structure Unconfigured (s : Server Addr) : Prop where
  peerUpdated : s.peerUpdated = false
  me : s.me = 0
  count : s.count = 0
  pool : s.pool = []

structure Configured (cfg : UpdateCluster) (s : Server Addr) : Prop where
  peerUpdated : s.peerUpdated = true
  me_lt : s.me.toNat < s.count.toNat
  count : s.count.toNat = cfg.hosts.length
  pool : s.pool.length = s.count.toNat

def AllOrNothing (cfg : UpdateCluster) (s : Server Addr) : Prop := Configured cfg s ∨ Unconfigured s

/-- Every call of `get_client` has found its queue. -/
def InRange (s : Server Addr) : Prop :=
  ∀ id idx clients, s.callers id = some (.called idx clients) → idx < clients

/-- No attempt is under way. -/
def Ended (s : Server Addr) : Prop :=
  s.attempt = none ∨ s.attempt = some .completed ∨ s.attempt = some .panicked ∨
    s.attempt = some .dropped

/-- The index names one of the hosts and every host is a socket address. -/
def Installable (build : Build Addr) (cfg : UpdateCluster) : Prop :=
  (∃ me, build.subOne cfg.index = some me ∧ me.toNat < cfg.hosts.length) ∧
  ∀ host ∈ cfg.hosts, build.parse (host ++ peerPort) ≠ none

variable {build : Build Addr} {cfg : UpdateCluster} {s s' : Server Addr} {ph : Phase Addr}

/-- The hosts whose queues are open, those to come, and the stores that are done. -/
structure Opening (build : Build Addr) (cfg : UpdateCluster) (s : Server Addr) (opened : ℕ)
    (peers : List Str) : Prop where
  me : build.subOne cfg.index = some s.me
  count : s.count = UInt64.ofNat cfg.hosts.length
  hosts : ∃ done, cfg.hosts = done ++ peers ∧ done.length = opened ∧
    ∀ host ∈ done, build.parse (host ++ peerPort) ≠ none

/-- The shared memory as the attempt in a phase has left it. -/
def Stored (build : Build Addr) (cfg : UpdateCluster) (s : Server Addr) : Phase Addr → Prop
  | .lockCluster => s.me = 0 ∧ s.count = 0 ∧ s.pool = [] ∧ s.locked = false
  | .storePeerUpdated | .storeMe => s.me = 0 ∧ s.count = 0 ∧ s.pool = [] ∧ s.locked = true
  | .storeCount => build.subOne cfg.index = some s.me ∧ s.count = 0 ∧ s.pool = [] ∧ s.locked = true
  | .openQueue opened peers =>
    Opening build cfg s opened.length peers ∧ s.pool = [] ∧ s.locked = true
  | .connect opened _ peers =>
    Opening build cfg s (opened.length + 1) peers ∧ s.pool = [] ∧ s.locked = true
  | .completed => Opening build cfg s s.pool.length [] ∧ s.locked = false
  | .panicked =>
    (build.subOne cfg.index = none ∨ ∃ host ∈ cfg.hosts, build.parse (host ++ peerPort) = none) ∧
      s.pool = [] ∧ s.locked = false
  | .dropped => s.pool = [] ∧ s.locked = false

structure Shape (build : Build Addr) (cfg : UpdateCluster) (s : Server Addr) : Prop where
  idle : s.attempt = none → Unconfigured s ∧ s.locked = false
  attempted : ∀ ph, s.attempt = some ph → s.peerUpdated = true ∧ Stored build cfg s ph

theorem shape_start : Shape build cfg Server.start := by
  constructor
  · intro _
    exact ⟨⟨rfl, rfl, rfl, rfl⟩, rfl⟩
  · intro ph hph
    simp [Server.start] at hph

theorem count_toNat (cfg : UpdateCluster) :
    (UInt64.ofNat cfg.hosts.length).toNat = cfg.hosts.length :=
  UInt64.toNat_ofNat_of_lt' cfg.length_lt

/-- What one event does. -/
theorem step_cases {event : Event} (h : step build cfg s event = some s') :
    ((event = .tryLoadPeers ∧ s.peerUpdated = true ∨ event = .connectFailed) ∧ s' = s) ∨
    (event = .tryLoadPeers ∧ s.peerUpdated = false ∧
      s' = { s with peerUpdated := true, attempt := some .lockCluster }) ∨
    (∃ ph, event = .advance ∧ s.attempt = some ph ∧ ph.perform build cfg s = some s') ∨
    (∃ ph, event = .drop ∧ s.attempt = some ph ∧ ph.suspended = true ∧ s' = s.finish .dropped) ∨
    (∃ id key, event = .loadCount id key ∧ s.callers id = none ∧
      s' = s.setCaller id (.counted key s.count)) ∨
    (∃ id key count, event = .loadMe id ∧ s.callers id = some (.counted key count) ∧
      s' = s.setCaller id (if (getShard (strStream key) count).toUInt32 = s.me then .atHome
        else .calling (getShard (strStream key) count).toUInt32.toNat)) ∨
    ∃ id idx, event = .getClient id ∧ s.callers id = some (.calling idx) ∧ s.locked = false ∧
      s' = s.setCaller id (.called idx s.pool.length) := by
  cases event with
  | tryLoadPeers =>
    simp only [step] at h
    split at h
    · next hupdated => exact .inl ⟨.inl ⟨rfl, hupdated⟩, (Option.some.inj h).symm⟩
    · next hupdated => exact .inr (.inl ⟨rfl, by simpa using hupdated, (Option.some.inj h).symm⟩)
  | advance =>
    obtain ⟨ph, hph, hp⟩ := Option.bind_eq_some_iff.mp h
    exact .inr (.inr (.inl ⟨ph, rfl, hph, hp⟩))
  | connectFailed =>
    simp only [step] at h
    split at h
    · exact .inl ⟨.inr rfl, (Option.some.inj h).symm⟩
    · simp at h
  | drop =>
    simp only [step] at h
    split at h
    · next ph hph =>
      split at h
      · next hsuspended =>
          exact .inr (.inr (.inr (.inl ⟨ph, rfl, hph, hsuspended, (Option.some.inj h).symm⟩)))
      · simp at h
    · simp at h
  | loadCount id key =>
    simp only [step] at h
    split at h
    · next hnone =>
        exact .inr (.inr (.inr (.inr (.inl ⟨id, key, rfl, hnone, (Option.some.inj h).symm⟩))))
    · simp at h
  | loadMe id =>
    simp only [step] at h
    split at h
    · next key count hq =>
      exact .inr (.inr (.inr (.inr (.inr (.inl ⟨id, key, count, rfl, hq,
        (Option.some.inj h).symm⟩)))))
    · simp at h
  | getClient id =>
    simp only [step] at h
    split at h
    · next idx hq =>
      split at h
      · simp at h
      · next hfree =>
        exact .inr (.inr (.inr (.inr (.inr (.inr ⟨id, idx, rfl, hq, by simpa using hfree,
          (Option.some.inj h).symm⟩)))))
    · simp at h

theorem Opening.push {opened : ℕ} {peer : Str} {peers : List Str}
    (h : Opening build cfg s opened (peer :: peers)) (hp : build.parse (peer ++ peerPort) ≠ none)
    (ph : Phase Addr) :
    Opening build cfg { s with attempt := some ph } (opened + 1) peers := by
  obtain ⟨done, hhosts, hlength, hparsed⟩ := h.hosts
  refine ⟨h.me, h.count, done ++ [peer], by simp [hhosts], by simp [hlength], ?_⟩
  intro host hhost
  rcases List.mem_append.mp hhost with hdone | hnew
  · exact hparsed host hdone
  · obtain rfl := List.mem_singleton.mp hnew
    exact hp

theorem Shape.perform (h : Shape build cfg s) (ha : s.attempt = some ph)
    (hp : ph.perform build cfg s = some s') :
    Shape build cfg s' := by
  obtain ⟨hupdated, hstored⟩ := h.attempted ph ha
  have hnext : ∃ ph', s'.attempt = some ph' ∧ s'.peerUpdated = true ∧ Stored build cfg s' ph' := by
    cases ph with
    | lockCluster =>
      obtain ⟨hme, hcount, hpool, -⟩ := hstored
      obtain rfl := Option.some.inj hp
      exact ⟨_, rfl, hupdated, hme, hcount, hpool, rfl⟩
    | storePeerUpdated =>
      obtain rfl := Option.some.inj hp
      exact ⟨_, rfl, rfl, hstored⟩
    | storeMe =>
      obtain ⟨-, hcount, hpool, hlocked⟩ := hstored
      simp only [Phase.perform] at hp
      split at hp
      · next hsub =>
        obtain rfl := Option.some.inj hp
        exact ⟨_, rfl, hupdated, .inl hsub, hpool, rfl⟩
      · next me hsub =>
        obtain rfl := Option.some.inj hp
        exact ⟨_, rfl, hupdated, hsub, hcount, hpool, hlocked⟩
    | storeCount =>
      obtain ⟨hme, -, hpool, hlocked⟩ := hstored
      obtain rfl := Option.some.inj hp
      exact ⟨_, rfl, hupdated, ⟨hme, rfl, [], rfl, rfl, by simp⟩, hpool, hlocked⟩
    | openQueue opened peers =>
      obtain ⟨hopening, hpool, hlocked⟩ := hstored
      cases peers with
      | nil =>
        obtain rfl := Option.some.inj hp
        exact ⟨_, rfl, hupdated, ⟨hopening.me, hopening.count, hopening.hosts⟩, rfl⟩
      | cons peer peers =>
        simp only [Phase.perform] at hp
        split at hp
        · next hparse =>
          obtain rfl := Option.some.inj hp
          obtain ⟨done, hhosts, -, -⟩ := hopening.hosts
          exact ⟨_, rfl, hupdated, .inr ⟨peer, by simp [hhosts], hparse⟩, hpool, rfl⟩
        · next addr hparse =>
          obtain rfl := Option.some.inj hp
          exact ⟨_, rfl, hupdated, hopening.push (by simp [hparse]) _, hpool, hlocked⟩
    | connect opened queue peers =>
      obtain ⟨hopening, hpool, hlocked⟩ := hstored
      have hkept : ∀ ph,
          Opening build cfg { s with attempt := some ph } (opened.length + 1) peers :=
        fun _ => ⟨hopening.me, hopening.count, hopening.hosts⟩
      simp only [Phase.perform] at hp
      split at hp
      · obtain rfl := Option.some.inj hp
        exact ⟨_, rfl, hupdated, hkept _, hpool, hlocked⟩
      · obtain rfl := Option.some.inj hp
        refine ⟨_, rfl, hupdated, ?_, hpool, hlocked⟩
        rw [List.length_append, List.length_singleton]
        exact hkept _
    | completed | panicked | dropped => simp [Phase.perform] at hp
  obtain ⟨ph', ha', hupdated', hstored'⟩ := hnext
  constructor
  · intro hnone
    simp [ha'] at hnone
  · intro q hq
    obtain rfl := Option.some.inj (ha'.symm.trans hq)
    exact ⟨hupdated', hstored'⟩

theorem Shape.setCaller (h : Shape build cfg s) (id : ℕ) (c : Caller) :
    Shape build cfg (s.setCaller id c) := by
  constructor
  · intro hnone
    obtain ⟨hu, hlocked⟩ := h.idle hnone
    exact ⟨⟨hu.peerUpdated, hu.me, hu.count, hu.pool⟩, hlocked⟩
  · intro ph hph
    obtain ⟨hupdated, hstored⟩ := h.attempted ph hph
    refine ⟨hupdated, ?_⟩
    cases ph with
    | openQueue | connect | completed =>
      exact ⟨⟨hstored.1.me, hstored.1.count, hstored.1.hosts⟩, hstored.2⟩
    | _ => exact hstored

theorem Shape.drop (h : Shape build cfg s) (ha : s.attempt = some ph) (hs : ph.suspended = true) :
    Shape build cfg (s.finish .dropped) := by
  obtain ⟨hupdated, hstored⟩ := h.attempted ph ha
  have hpool : s.pool = [] := by
    cases ph with
    | lockCluster => exact hstored.2.2.1
    | connect => exact hstored.2.1
    | _ => simp [Phase.suspended] at hs
  constructor
  · intro hnone
    simp [Server.finish] at hnone
  · intro q hq
    obtain rfl := Option.some.inj hq
    exact ⟨hupdated, hpool, rfl⟩

theorem Shape.step (h : Shape build cfg s) {event : Event}
    (hs : RustPeerInstalls.step build cfg s event = some s') :
    Shape build cfg s' := by
  rcases step_cases hs with ⟨-, rfl⟩ | ⟨-, hupdated, rfl⟩ | ⟨ph, -, ha, hp⟩ |
    ⟨ph, -, ha, hsuspended, rfl⟩ | ⟨id, key, -, -, rfl⟩ | ⟨id, key, count, -, -, rfl⟩ |
    ⟨id, idx, -, -, -, rfl⟩
  · exact h
  · have hnone : s.attempt = none := by
      cases ha : s.attempt with
      | none => rfl
      | some ph =>
        have hset := (h.attempted ph ha).1
        simp [hupdated] at hset
    obtain ⟨hu, hlocked⟩ := h.idle hnone
    constructor
    · intro ha
      simp at ha
    · intro ph hph
      obtain rfl := Option.some.inj hph
      exact ⟨rfl, hu.me, hu.count, hu.pool, hlocked⟩
  · exact h.perform ha hp
  · exact h.drop ha hsuspended
  · exact h.setCaller id _
  · exact h.setCaller id _
  · exact h.setCaller id _

private theorem shape_of_run {events : List Event}
    (hr : run (RustPeerInstalls.step build cfg) Server.start events = some s) :
    Shape build cfg s :=
  run_invariant_of_step (Shape build cfg) (fun _ _ _ h hs => h.step hs) shape_start hr

theorem Phase.perform_attempt (hp : ph.perform build cfg s = some s') :
    s'.attempt ≠ none ∧ s'.attempt ≠ some .dropped ∧ s'.callers = s.callers := by
  cases ph with
  | lockCluster | storePeerUpdated | storeCount =>
    obtain rfl := Option.some.inj hp
    simp
  | storeMe | connect =>
    simp only [Phase.perform] at hp
    split at hp <;> obtain rfl := Option.some.inj hp <;> simp [Server.finish]
  | openQueue opened peers =>
    cases peers with
    | nil =>
      obtain rfl := Option.some.inj hp
      simp [Server.finish]
    | cons peer peers =>
      simp only [Phase.perform] at hp
      split at hp <;> obtain rfl := Option.some.inj hp <;> simp [Server.finish]
  | completed | panicked | dropped => simp [Phase.perform] at hp

/-- Only being dropped leads to a dropped attempt. -/
theorem dropped_step {event : Event} (h : Shape build cfg s)
    (hs : RustPeerInstalls.step build cfg s event = some s') :
    s'.attempt ≠ some .dropped ↔ s.attempt ≠ some .dropped ∧ event ≠ .drop := by
  rcases step_cases hs with ⟨hevent, rfl⟩ | ⟨rfl, hupdated, rfl⟩ | ⟨ph, rfl, ha, hp⟩ |
    ⟨ph, rfl, ha, hsuspended, rfl⟩ | ⟨id, key, rfl, -, rfl⟩ | ⟨id, key, count, rfl, -, rfl⟩ |
    ⟨id, idx, rfl, -, -, rfl⟩
  · rcases hevent with ⟨rfl, -⟩ | rfl <;> simp
  · have hne : s.attempt ≠ some .dropped := by
      intro ha
      have hset := (h.attempted _ ha).1
      simp [hupdated] at hset
    simp [hne]
  · have hlive : ph ≠ .dropped := by
      rintro rfl
      simp [Phase.perform] at hp
    simp [ha, hlive, (Phase.perform_attempt hp).2.1]
  · simp [Server.finish]
  · simp [Server.setCaller]
  · simp [Server.setCaller]
  · simp [Server.setCaller]

/-- An attempt has begun once an event of it has been taken. -/
theorem attempt_step {event : Event} (h : Shape build cfg s)
    (hs : RustPeerInstalls.step build cfg s event = some s') :
    s'.attempt = none ↔ s.attempt = none ∧ event ≠ .tryLoadPeers := by
  rcases step_cases hs with ⟨hevent, rfl⟩ | ⟨rfl, hupdated, rfl⟩ | ⟨ph, rfl, ha, hp⟩ |
    ⟨ph, rfl, ha, hsuspended, rfl⟩ | ⟨id, key, rfl, -, rfl⟩ | ⟨id, key, count, rfl, -, rfl⟩ |
    ⟨id, idx, rfl, -, -, rfl⟩
  · rcases hevent with ⟨rfl, hupdated⟩ | rfl
    · have hbegun : s'.attempt ≠ none := by
        intro hnone
        have hu := (h.idle hnone).1.peerUpdated
        simp [hupdated] at hu
      simp [hbegun]
    · simp
  · simp
  · simp [ha, (Phase.perform_attempt hp).1]
  · simp [ha, Server.finish]
  · simp [Server.setCaller]
  · simp [Server.setCaller]
  · simp [Server.setCaller]

/-- Whether there was an attempt and whether it was dropped can be read off the events. -/
theorem attempt_of_run {events : List Event}
    (hr : run (RustPeerInstalls.step build cfg) Server.start events = some s) :
    (s.attempt = none ↔ .tryLoadPeers ∉ events) ∧ (s.attempt = some .dropped ↔ .drop ∈ events) := by
  constructor
  · rw [not_mem_iff_meets hr,
      run_exact (Shape build cfg) (fun s => s.attempt = none) (fun _ e => e ≠ .tryLoadPeers)
      (fun _ _ _ h hs => h.step hs) (fun _ _ _ h hs => attempt_step h hs) shape_start hr]
    simp [Server.start]
  · rw [← not_iff_not, not_mem_iff_meets hr, ← ne_eq,
      run_exact (Shape build cfg) (fun s => s.attempt ≠ some .dropped)
      (fun _ e => e ≠ .drop) (fun _ _ _ h hs => h.step hs)
        (fun _ _ _ h hs => dropped_step h hs) shape_start hr]
    simp [Server.start]

/-- The attempt has stored its `me`. -/
def MeStored (s : Server Addr) : Prop :=
  ∃ ph, s.attempt = some ph ∧ ph ≠ .lockCluster ∧ ph ≠ .storePeerUpdated ∧ ph ≠ .storeMe

/-- What a handler has loaded, when the configuration can be installed. -/
def CallerOk (cfg : UpdateCluster) (s : Server Addr) : Caller → Prop
  | .counted _ count => count = 0 ∨ (count = UInt64.ofNat cfg.hosts.length ∧ MeStored s)
  | .calling idx => idx < cfg.hosts.length ∧ MeStored s
  | .atHome => True
  | .called idx clients => idx < clients

/-- Nothing fails, and every handler asks for a queue that there will be. -/
structure Undisturbed (build : Build Addr) (cfg : UpdateCluster) (s : Server Addr) : Prop where
  shape : Shape build cfg s
  installable : s.attempt ≠ none → Installable build cfg
  notDropped : s.attempt ≠ some .dropped
  callers : ∀ id c, s.callers id = some c → CallerOk cfg s c

theorem CallerOk.mono {c : Caller} (h : CallerOk cfg s c) (hm : MeStored s → MeStored s') :
    CallerOk cfg s' c := by
  cases c with
  | counted key count => exact h.imp_right (fun hc => ⟨hc.1, hm hc.2⟩)
  | calling idx => exact ⟨h.1, hm h.2⟩
  | atHome => trivial
  | called idx clients => exact h

theorem Undisturbed.setCaller (h : Undisturbed build cfg s) (id : ℕ) {c : Caller}
    (hc : CallerOk cfg s c) :
    Undisturbed build cfg (s.setCaller id c) := by
  refine ⟨h.shape.setCaller id c, h.installable, h.notDropped, ?_⟩
  intro i q hq
  have hok : CallerOk cfg s q :=
    forall_update_some (P := fun _ q => CallerOk cfg s q) h.callers hc i q hq
  exact hok.mono (fun hm => hm)

private theorem meStored_perform {ph : Phase Addr} (ha : s.attempt = some ph)
    (hp : ph.perform build cfg s = some s') (hm : MeStored s) : MeStored s' := by
  obtain ⟨q, hq, hlock, hupdated, hme⟩ := hm
  obtain rfl := Option.some.inj (ha.symm.trans hq)
  cases ph with
  | lockCluster => exact absurd rfl hlock
  | storePeerUpdated => exact absurd rfl hupdated
  | storeMe => exact absurd rfl hme
  | storeCount =>
    obtain rfl := Option.some.inj hp
    exact ⟨_, rfl, by simp, by simp, by simp⟩
  | openQueue opened peers =>
    cases peers with
    | nil =>
      obtain rfl := Option.some.inj hp
      exact ⟨_, rfl, by simp, by simp, by simp⟩
    | cons peer peers =>
      simp only [Phase.perform] at hp
      split at hp <;> obtain rfl := Option.some.inj hp <;> exact ⟨_, rfl, by simp, by simp, by simp⟩
  | connect opened queue peers =>
    simp only [Phase.perform] at hp
    split at hp <;> obtain rfl := Option.some.inj hp <;> exact ⟨_, rfl, by simp, by simp, by simp⟩
  | completed | panicked | dropped => simp [Phase.perform] at hp

/-- A `count` or a `me` that is not zero has been stored by the attempt. -/
theorem Shape.count_or (h : Shape build cfg s) :
    s.count = 0 ∨ (s.count = UInt64.ofNat cfg.hosts.length ∧ MeStored s) ∨
    s.attempt = some .dropped ∨
      s.attempt = some .panicked := by
  cases ha : s.attempt with
  | none => exact .inl (h.idle ha).1.count
  | some ph =>
    obtain ⟨-, hstored⟩ := h.attempted ph ha
    cases ph with
    | lockCluster | storePeerUpdated | storeMe | storeCount => exact .inl hstored.2.1
    | openQueue | connect | completed =>
      exact .inr (.inl ⟨hstored.1.count, _, ha, by simp, by simp, by simp⟩)
    | panicked => exact .inr (.inr (.inr rfl))
    | dropped => exact .inr (.inr (.inl rfl))

theorem Shape.me_or (h : Shape build cfg s) :
    s.me = 0 ∨ (build.subOne cfg.index = some s.me ∧ MeStored s) ∨ s.attempt = some .dropped ∨
      s.attempt = some .panicked := by
  cases ha : s.attempt with
  | none => exact .inl (h.idle ha).1.me
  | some ph =>
    obtain ⟨-, hstored⟩ := h.attempted ph ha
    cases ph with
    | lockCluster | storePeerUpdated | storeMe => exact .inl hstored.1
    | storeCount => exact .inr (.inl ⟨hstored.1, _, ha, by simp, by simp, by simp⟩)
    | openQueue | connect | completed =>
      exact .inr (.inl ⟨hstored.1.me, _, ha, by simp, by simp, by simp⟩)
    | panicked => exact .inr (.inr (.inr rfl))
    | dropped => exact .inr (.inr (.inl rfl))

theorem MeStored.attempted (hm : MeStored s) : s.attempt ≠ none := by
  obtain ⟨ph, ha, -⟩ := hm
  simp [ha]

theorem Undisturbed.notPanicked (h : Undisturbed build cfg s) : s.attempt ≠ some .panicked := by
  intro ha
  obtain ⟨⟨me, hsub, -⟩, hparse⟩ := h.installable (by simp [ha])
  rcases (h.shape.attempted _ ha).2.1 with hnone | ⟨host, hhost, hnone⟩
  · simp [hsub] at hnone
  · exact hparse host hhost hnone

/-- A handler that leaves its node has loaded a `count` or a `me` of the configuration. -/
theorem Undisturbed.calling (h : Undisturbed build cfg s) {key : Str} {count : UInt64}
    (hc : CallerOk cfg s (.counted key count))
    (hne : (getShard (strStream key) count).toUInt32 ≠ s.me) :
    CallerOk cfg s (.calling (getShard (strStream key) count).toUInt32.toNat) := by
  have hle : (getShard (strStream key) count).toUInt32.toNat ≤
      (getShard (strStream key) count).toNat := by
    rw [UInt64.toNat_toUInt32]
    exact Nat.mod_le _ _
  by_cases hzero : count = 0
  · subst hzero
    rw [getShard_zero] at hne hle
    rcases h.shape.me_or with hme | ⟨hsub, hm⟩ | hdropped | hpanicked
    · exact absurd hme.symm hne
    · obtain ⟨⟨me, hsub', hlt⟩, -⟩ := h.installable hm.attempted
      refine ⟨?_, hm⟩
      simp only [UInt64.toNat_zero] at hle
      rw [getShard_zero]
      omega
    · exact absurd hdropped h.notDropped
    · exact absurd hpanicked h.notPanicked
  · rcases hc with hc | ⟨rfl, hm⟩
    · exact absurd hc hzero
    · refine ⟨?_, hm⟩
      have hpos : 0 < (UInt64.ofNat cfg.hosts.length).toNat := by
        rw [Nat.pos_iff_ne_zero]
        intro h0
        exact hzero (UInt64.toNat_inj.mp h0)
      have hshard := Nat.mod_lt (hashKey (strStream key)).toNat hpos
      rw [← getShard_toNat hzero, count_toNat] at hshard
      omega

theorem Undisturbed.pool_length (h : Undisturbed build cfg s) (hm : MeStored s)
    (hfree : s.locked = false) : s.pool.length = cfg.hosts.length := by
  obtain ⟨ph, ha, hlock, hupdated, hme⟩ := hm
  have hstored := (h.shape.attempted ph ha).2
  cases ph with
  | lockCluster => exact absurd rfl hlock
  | storePeerUpdated => exact absurd rfl hupdated
  | storeMe => exact absurd rfl hme
  | storeCount => simp [Stored, hfree] at hstored
  | openQueue | connect => simp [Stored, hfree] at hstored
  | completed =>
    obtain ⟨done, hhosts, hlength, -⟩ := hstored.1.hosts
    rw [hhosts, List.append_nil, hlength]
  | panicked => exact absurd ha h.notPanicked
  | dropped => exact absurd ha h.notDropped

theorem Undisturbed.step (h : Undisturbed build cfg s) {event : Event} (hne : event ≠ .drop)
    (hi : event = .tryLoadPeers → Installable build cfg)
    (hs : RustPeerInstalls.step build cfg s event = some s') : Undisturbed build cfg s' := by
  have hshape := h.shape.step hs
  have hinstallable : s'.attempt ≠ none → Installable build cfg := by
    intro ha
    by_cases hbegun : s.attempt = none
    · exact hi (by_contra fun hother => ha ((attempt_step h.shape hs).mpr ⟨hbegun, hother⟩))
    · exact h.installable hbegun
  have hdropped := (dropped_step h.shape hs).mpr ⟨h.notDropped, hne⟩
  rcases step_cases hs with ⟨-, rfl⟩ | ⟨-, hupdated, rfl⟩ | ⟨ph, -, ha, hp⟩ | ⟨ph, rfl, -⟩ |
    ⟨id, key, -, -, rfl⟩ | ⟨id, key, count, -, hq, rfl⟩ | ⟨id, idx, -, hq, hfree, rfl⟩
  · exact h
  · refine ⟨hshape, hinstallable, hdropped, ?_⟩
    intro id c hc
    refine (h.callers id c hc).mono ?_
    rintro ⟨ph, ha, -⟩
    have hset := (h.shape.attempted ph ha).1
    simp [hupdated] at hset
  · refine ⟨hshape, hinstallable, hdropped, ?_⟩
    intro id c hc
    rw [(Phase.perform_attempt hp).2.2] at hc
    exact (h.callers id c hc).mono (meStored_perform ha hp)
  · exact absurd rfl hne
  · refine h.setCaller id ?_
    rcases h.shape.count_or with hzero | hstored | hd | hpanicked
    · exact .inl hzero
    · exact .inr hstored
    · exact absurd hd h.notDropped
    · exact absurd hpanicked h.notPanicked
  · refine h.setCaller id ?_
    split
    · trivial
    · next hshard => exact h.calling (h.callers id _ hq) hshard
  · obtain ⟨hlt, hm⟩ := h.callers id _ hq
    refine h.setCaller id ?_
    rw [CallerOk, h.pool_length hm hfree]
    exact hlt

private theorem undisturbed_start : Undisturbed build cfg Server.start := by
  refine ⟨shape_start, by simp [Server.start], by simp [Server.start], ?_⟩
  intro id c hc
  simp [Server.start] at hc

/-- Handlers find their queues unless an attempt is made that cannot succeed or is dropped. -/
theorem inRange_of_run {events : List Event}
    (hc : .tryLoadPeers ∈ events → Installable build cfg ∧ .drop ∉ events)
    (hr : run (RustPeerInstalls.step build cfg) Server.start events = some s) : InRange s := by
  obtain ⟨hnone, hdropped⟩ := attempt_of_run hr
  have hd : .drop ∉ events := by
    intro hin
    by_cases ht : .tryLoadPeers ∈ events
    · exact (hc ht).2 hin
    · simp [hnone.mpr ht] at hdropped
      exact hdropped hin
  have hgood : ∀ e ∈ events, e ≠ .drop ∧ (e = .tryLoadPeers → Installable build cfg) := by
    intro e he
    refine ⟨fun hdrop => hd (hdrop ▸ he), ?_⟩
    intro ht
    exact (hc (ht ▸ he)).1
  have h : Undisturbed build cfg s := run_invariant (Undisturbed build cfg)
    (fun _ _ _ h hg hs => h.step hg.1 hg.2 hs) undisturbed_start (meets_const hgood) hr
  intro id idx clients hq
  exact h.callers id _ hq

variable {s : Server Addr}

/-- An attempt that has ended has configured the node exactly when it has succeeded. -/
theorem configured_iff (h : Shape build cfg s) (he : Ended s) (hd : s.attempt ≠ some .dropped)
    (ha : s.attempt ≠ none) :
    Configured cfg s ↔ Installable build cfg := by
  rcases he with hnone | hcompleted | hpanicked | hdropped
  · exact absurd hnone ha
  · obtain ⟨hupdated, hopening, -⟩ := h.attempted _ hcompleted
    obtain ⟨done, hhosts, hlength, hparsed⟩ := hopening.hosts
    rw [List.append_nil] at hhosts
    subst hhosts
    have hcount : s.count.toNat = cfg.hosts.length := by rw [hopening.count, count_toNat]
    constructor
    · intro hc
      exact ⟨⟨s.me, hopening.me, hcount ▸ hc.me_lt⟩, hparsed⟩
    · rintro ⟨⟨me, hsub, hlt⟩, -⟩
      obtain rfl := Option.some.inj (hopening.me.symm.trans hsub)
      exact ⟨hupdated, by rwa [hcount], hcount, by rw [hcount, hlength]⟩
  · obtain ⟨-, hfailed, hpool, -⟩ := h.attempted _ hpanicked
    constructor
    · intro hc
      have hlt := hc.me_lt
      rw [← hc.pool, hpool, List.length_nil] at hlt
      omega
    · rintro ⟨⟨me, hsub, -⟩, hparse⟩
      rcases hfailed with hnone | ⟨host, hhost, hnone⟩
      · simp [hsub] at hnone
      · exact absurd hnone (hparse host hhost)
  · exact absurd hdropped hd

private theorem not_configured_of_dropped (h : Shape build cfg s) (hd : s.attempt = some .dropped) :
    ¬ Configured cfg s := by
  intro hc
  have hlt := hc.me_lt
  rw [← hc.pool, (h.attempted _ hd).2.1, List.length_nil] at hlt
  omega

/-- The node ends configured or unconfigured, with every queue asked for in the pool, exactly
when each attempt has an index that names one of its hosts, hosts that are socket addresses,
and is not dropped. -/
theorem installs_allOrNothing_iff (build : Build Addr) (cfg : UpdateCluster) {events : List Event}
    {s : Server Addr} (hr : run (step build cfg) Server.start events = some s) (he : Ended s) :
    (AllOrNothing cfg s ∧ InRange s) ↔
    (.tryLoadPeers ∈ events → Installable build cfg ∧ .drop ∉ events) := by
  have h := shape_of_run hr
  obtain ⟨hnone, hdropped⟩ := attempt_of_run hr
  constructor
  · rintro ⟨hall, -⟩ ht
    have ha : s.attempt ≠ none := fun ha => hnone.mp ha ht
    have hc : Configured cfg s := by
      rcases hall with hc | hu
      · exact hc
      · obtain ⟨ph, hph⟩ := Option.ne_none_iff_exists'.mp ha
        have hset := (h.attempted ph hph).1
        simp [hu.peerUpdated] at hset
    have hd : s.attempt ≠ some .dropped := fun hd => not_configured_of_dropped h hd hc
    exact ⟨(configured_iff h he hd ha).mp hc, fun hin => hd (hdropped.mpr hin)⟩
  · intro hgood
    refine ⟨?_, inRange_of_run hgood hr⟩
    by_cases ht : .tryLoadPeers ∈ events
    · obtain ⟨hi, hd⟩ := hgood ht
      have ha : s.attempt ≠ none := fun ha => hnone.mp ha ht
      exact .inl ((configured_iff h he (fun hdrop => hd (hdropped.mp hdrop)) ha).mpr hi)
    · exact .inr (h.idle (hnone.mpr ht)).1

def decimal (digits : Str) : Option ℕ :=
  if digits ≠ [] ∧ ∀ d ∈ digits, 48 ≤ d ∧ d ≤ 57 then
    some (digits.foldl (fun n d => 10 * n + (d.toNat - 48)) 0)
  else none

/-- One of the four numbers of an address: at most three digits, without leading zeros. -/
def octet (digits : Str) : Option ℕ :=
  (decimal digits).filter (fun n => n ≤ 255 ∧ digits.length ≤ 3 ∧
    (digits.length = 1 ∨ digits.head? ≠ some 48))

/-- The textual form of a `SocketAddrV4`. -/
def parseSocketAddrV4 (s : Str) : Option (List ℕ × ℕ) :=
  match s.splitOn 58 with
  | [ip, port] => do
    let ip ← (ip.splitOn 46).mapM octet
    let port ← decimal port
    if ip.length = 4 ∧ port ≤ 65535 then some (ip, port) else none
  | _ => none

def releaseBuild : Build (List ℕ × ℕ) := ⟨parseSocketAddrV4, false⟩

/-- `10.0.0.1` and `10.0.0.2`, as the second of them reads it. -/
def pair : UpdateCluster :=
  ⟨[[49, 48, 46, 48, 46, 48, 46, 49], [49, 48, 46, 48, 46, 48, 46, 50]], 2, by decide⟩

def connectedRun : List Event :=
  .tryLoadPeers :: List.replicate 4 .advance ++ List.replicate 17 .advance ++
    List.replicate 17 .advance ++
    [.advance, .loadCount 0 [98], .loadMe 0, .getClient 0]

/-- The second host is not reached, and the connection that drives the attempt closes. -/
def abandonedRun : List Event :=
  .tryLoadPeers :: List.replicate 4 .advance ++ List.replicate 17 .advance ++
    [.advance, .connectFailed, .drop, .loadCount 0 [98], .loadMe 0, .getClient 0]

theorem connectedRun_installs :
    ∃ s, run (step releaseBuild pair) Server.start connectedRun = some s ∧
    s.callers 0 = some (.called 0 2) ∧ AllOrNothing pair s ∧ InRange s := by
  have hattempt : (run (step releaseBuild pair) Server.start connectedRun).map
      (fun s => (s.attempt, s.callers 0)) =
      some (some .completed, some (.called 0 2)) := by decide +kernel
  obtain ⟨s, hr, hs⟩ := Option.map_eq_some_iff.mp hattempt
  obtain ⟨ha, hcaller⟩ := Prod.mk.inj hs
  have hinstallable : Installable releaseBuild pair :=
    ⟨⟨1, by decide, by decide⟩, by decide +kernel⟩
  have hnotDropped : Event.drop ∉ connectedRun := by decide
  have hended : Ended s := .inr (.inl ha)
  have hinstalls :=
    (installs_allOrNothing_iff releaseBuild pair hr hended).mpr
      (fun _ => ⟨hinstallable, hnotDropped⟩)
  exact ⟨s, hr, hcaller, hinstalls⟩

/-- The node keeps its place in a cluster of two and an empty pool, no later attempt is let
through, and the first key of the other node asks the empty pool for a client. -/
theorem installs_not_allOrNothing :
    ∃ s, run (step releaseBuild pair) Server.start abandonedRun = some s ∧ Ended s ∧
    (s.me, s.count) = (1, 2) ∧ s.callers 0 = some (.called 0 0) ∧ ¬ AllOrNothing pair s ∧
    ¬ InRange s := by
  have hattempt : (run (step releaseBuild pair) Server.start abandonedRun).map
      (fun s => (s.attempt, s.callers 0)) =
      some (some .dropped, some (.called 0 0)) := by decide +kernel
  have hnumbers : (run (step releaseBuild pair) Server.start abandonedRun).map
      (fun s => (s.me, s.count)) =
      some (1, 2) := by decide +kernel
  have hstored : (run (step releaseBuild pair) Server.start abandonedRun).map
      (fun s => (s.peerUpdated, s.pool)) =
      some (true, []) := by decide +kernel
  obtain ⟨s, hr, hs⟩ := Option.map_eq_some_iff.mp hattempt
  obtain ⟨ha, hcaller⟩ := Prod.mk.inj hs
  rw [hr, Option.map_some] at hnumbers hstored
  obtain ⟨hupdated, hpool⟩ := Prod.mk.inj (Option.some.inj hstored)
  refine ⟨s, hr, .inr (.inr (.inr ha)), Option.some.inj hnumbers, hcaller, ?_, ?_⟩
  · rintro (hc | hu)
    · have hlt := hc.me_lt
      rw [← hc.pool, hpool, List.length_nil] at hlt
      omega
    · simp [hu.peerUpdated] at hupdated
  · intro hin
    have hlt := hin 0 0 0 hcaller
    omega

end HCache.RustPeerInstalls
