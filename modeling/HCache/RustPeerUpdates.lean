import HCache.InterleavedSystems
import HCache.RustClusterNodes

/-!
# Installing the peers while requests are routed

One thread runs `try_load_peers`, which stores `me`, `count` and then the pool under the
cluster lock. Handlers and loader threads load `count` and then `me` at any time in between.
A reader whose two loads lie on the two sides of the stores decides with a mixed pair.
-/
namespace HCache.RustPeerUpdates
open RustStorage RustRouting RustClusterNodes InterleavedSystems

/-- A valid cluster configuration of one node: the hosts and its index, from one on. -/
structure Config (Host : Type) extends HostList Host where
  index : UInt32
  index_pos : 1 ≤ index.toNat
  index_le : index.toNat ≤ hosts.length

/-- The atomic actions of `try_load_peers` and `update_peers`. -/
inductive UpdateStep where
  | compareExchange
  | lockCluster
  | storePeerUpdated
  | storeMe
  | storeCount
  | storePool
  | unlockCluster
  deriving DecidableEq, Repr

def tryLoadPeers : List UpdateStep :=
  [.compareExchange, .lockCluster, .storePeerUpdated, .storeMe, .storeCount, .storePool,
    .unlockCluster]

/-- Who loads the two atomics: a handler for one key, a handler for many keys, which loads
`me` again for every remote shard, or a loader thread. -/
inductive Kind where
  | request (key : Str)
  | batch
  | loader
  deriving DecidableEq, Repr

inductive Place (Host : Type) where
  | here
  | calling (shard : UInt32)
  | peer (host : Host)
  | panicked (reason : Panic)
  deriving DecidableEq, Repr

/-- A reader, with the `count` it has loaded and the pairs it has decided with. -/
structure Reader (Host : Type) where
  kind : Kind
  count : Option UInt64
  pairs : List (UInt64 × UInt32)
  place : Option (Place Host)
  deriving DecidableEq, Repr

structure Server (Host : Type) where
  peerUpdated : Bool
  me : UInt32
  count : UInt64
  pool : List Host
  locked : Bool
  todo : List UpdateStep
  readers : ℕ → Option (Reader Host)

inductive Event where
  | update
  | start (id : ℕ) (kind : Kind)
  | loadCount (id : ℕ)
  | loadMe (id : ℕ)
  | getClient (id : ℕ)
  deriving DecidableEq, Repr

variable {Host : Type}

def Server.start : Server Host := ⟨false, 0, 0, [], false, tryLoadPeers, fun _ => none⟩

def Server.setReader (s : Server Host) (id : ℕ) (r : Reader Host) : Server Host :=
  { s with readers := Function.update s.readers id (some r) }

/-- The next action of the thread; a lost `compare_exchange` ends it. -/
def UpdateStep.perform (cfg : Config Host) (s : Server Host) : UpdateStep → Server Host
  | .compareExchange =>
    if s.peerUpdated then { s with todo := [] } else { s with peerUpdated := true }
  | .lockCluster => { s with locked := true }
  | .storePeerUpdated => { s with peerUpdated := true }
  | .storeMe => { s with me := cfg.index - 1 }
  | .storeCount => { s with count := UInt64.ofNat cfg.hosts.length }
  | .storePool => { s with pool := cfg.hosts }
  | .unlockCluster => { s with locked := false }

/-- Local execution or the call of a shard, as a handler for one key decides it. -/
def decidePlace (kind : Kind) (count : UInt64) (me : UInt32) : Option (Place Host) :=
  match kind with
  | .request key =>
    let shard := (getShard (strStream key) count).toUInt32
    some (if shard = me then .here else .calling shard)
  | .batch | .loader => none

def lookupClient (pool : List Host) (shard : UInt32) : Place Host :=
  match pool[shard.toNat]? with
  | some host => .peer host
  | none => .panicked .indexOutOfBounds

def step (cfg : Config Host) (s : Server Host) : Event → Option (Server Host)
  | .update =>
    match s.todo with
    | [] => none
    | u :: todo => some (u.perform cfg { s with todo := todo })
  | .start id kind =>
    match s.readers id with
    | some _ => none
    | none => some (s.setReader id ⟨kind, none, [], none⟩)
  | .loadCount id =>
    match s.readers id with
    | some ⟨kind, none, pairs, place⟩ => some (s.setReader id ⟨kind, some s.count, pairs, place⟩)
    | _ => none
  | .loadMe id =>
    match s.readers id with
    | some ⟨kind, some count, pairs, _⟩ =>
      if pairs = [] ∨ kind = .batch then
        some (s.setReader id ⟨kind, some count, pairs ++ [(count, s.me)],
          decidePlace kind count s.me⟩)
      else none
    | _ => none
  | .getClient id =>
    match s.readers id with
    | some ⟨kind, count, pairs, some (.calling shard)⟩ =>
      if s.locked then none
      else some (s.setReader id ⟨kind, count, pairs, some (lookupClient s.pool shard)⟩)
    | _ => none

variable (cfg : Config Host)

def Config.count : UInt64 := UInt64.ofNat cfg.hosts.length

def Config.me : UInt32 := cfg.index - 1

def Config.host : Host :=
  cfg.hosts.get ⟨cfg.index.toNat - 1, by have := cfg.index_pos; have := cfg.index_le; omega⟩

/-- The pair before the installation or the pair after it. -/
def Unmixed (pair : UInt64 × UInt32) : Prop := pair = (0, 0) ∨ pair = (cfg.count, cfg.me)

/-- A request for one key runs here, as on a single node or as its owner, or goes to its owner.
The parts of a batch or a list, and a loader, are placed by the pairs alone: they have no place
of their own here. -/
def WellPlaced (key : Str) (pairs : List (UInt64 × UInt32)) : Place Host → Prop
  | .here => pairs = [(0, 0)] ∨ cfg.owner (strStream key) = cfg.host
  | .calling shard => cfg.hosts[shard.toNat]? = some (cfg.owner (strStream key))
  | .peer host => host = cfg.owner (strStream key)
  | .panicked _ => False

structure ReaderOk (r : Reader Host) : Prop where
  unmixed : ∀ pair ∈ r.pairs, Unmixed cfg pair
  placed : ∀ key place, r.kind = .request key → r.place = some place →
    WellPlaced cfg key r.pairs place

def NeverMixed (s : Server Host) : Prop := ∀ id r, s.readers id = some r → ReaderOk cfg r

/-- A reader that has loaded the initial `count` does not load `me` after its store; on the
first node the store changes nothing. -/
def NotStraddling (s : Server Host) : Event → Prop
  | .loadMe id => ∀ r, s.readers id = some r → r.count = some 0 → .storeMe ∈ s.todo ∨ cfg.index = 1
  | _ => True

theorem shard_zero (key : Str) : (getShard (strStream key) 0).toUInt32 = 0 := rfl

variable {cfg : Config Host} {s s' : Server Host}

theorem Config.count_ne_zero (cfg : Config Host) : cfg.count ≠ 0 := by
  intro h
  have hpos := cfg.length_pos
  have hlt := cfg.numbered
  have hn := congrArg UInt64.toNat h
  rw [Config.count, UInt64.toNat_ofNat_of_lt' (by simp only [UInt64.size]; omega)] at hn
  simp only [UInt64.toNat_zero] at hn
  omega

theorem Config.me_toNat (cfg : Config Host) : cfg.me.toNat = cfg.index.toNat - 1 := by
  have hle : (1 : UInt32) ≤ cfg.index := UInt32.le_iff_toNat_le.mpr cfg.index_pos
  rw [Config.me, UInt32.toNat_sub_of_le _ _ hle]
  rfl

theorem Config.me_eq_zero_iff (cfg : Config Host) : cfg.me = 0 ↔ cfg.index = 1 := by
  have hme := cfg.me_toNat
  have hpos := cfg.index_pos
  rw [← UInt32.toNat_inj, ← UInt32.toNat_inj, hme]
  simp only [UInt32.toNat_zero, UInt32.toNat_one]
  omega

structure Shape (cfg : Config Host) (s : Server Host) : Prop where
  todo : s.todo <:+ tryLoadPeers
  peerUpdated : .compareExchange ∈ s.todo → s.peerUpdated = false
  me : s.me = if .storeMe ∈ s.todo then 0 else cfg.me
  count : s.count = if .storeCount ∈ s.todo then 0 else cfg.count
  pool : .storePool ∉ s.todo → s.pool = cfg.hosts
  locked : s.locked = true ↔ .lockCluster ∉ s.todo ∧ .unlockCluster ∈ s.todo

private theorem shape_start : Shape cfg Server.start := by
  constructor <;> simp [Server.start, tryLoadPeers]

theorem Shape.perform {u : UpdateStep} {todo : List UpdateStep} (h : Shape cfg s)
    (ht : s.todo = u :: todo) :
    Shape cfg (u.perform cfg { s with todo := todo }) := by
  have hsuffix := h.todo
  have hupdated := h.peerUpdated
  have hme := h.me
  have hcount := h.count
  have hpool := h.pool
  have hlocked := h.locked
  rw [ht] at hsuffix hupdated hme hcount hpool hlocked
  simp only [tryLoadPeers, List.suffix_cons_iff, List.cons.injEq, List.suffix_nil, reduceCtorEq,
    or_false] at hsuffix
  rcases hsuffix with ⟨rfl, rfl⟩ | ⟨rfl, rfl⟩ | ⟨rfl, rfl⟩ | ⟨rfl, rfl⟩ | ⟨rfl, rfl⟩ |
    ⟨rfl, rfl⟩ | ⟨rfl, rfl⟩
  all_goals
    constructor <;>
      simp_all [UpdateStep.perform, tryLoadPeers, Config.me, Config.count, List.suffix_cons_iff]

/-- What comes later in the program is still to come when something before it is. -/
theorem todo_order {todo : List UpdateStep} (h : todo <:+ tryLoadPeers) :
    (.lockCluster ∈ todo → .storeMe ∈ todo) ∧ (.storeMe ∈ todo → .storeCount ∈ todo) ∧
    (.storePool ∈ todo → .unlockCluster ∈ todo) := by
  simp only [tryLoadPeers, List.suffix_cons_iff, List.suffix_nil] at h
  rcases h with rfl | rfl | rfl | rfl | rfl | rfl | rfl | rfl <;> simp

/-- What one event does. -/
theorem step_cases {event : Event} (h : step cfg s event = some s') :
    (∃ u todo, event = .update ∧ s.todo = u :: todo ∧ s' = u.perform cfg { s with todo := todo }) ∨
    (∃ id kind, event = .start id kind ∧ s.readers id = none ∧
      s' = s.setReader id ⟨kind, none, [], none⟩) ∨
    (∃ id kind pairs place, event = .loadCount id ∧ s.readers id = some ⟨kind, none, pairs, place⟩ ∧
      s' = s.setReader id ⟨kind, some s.count, pairs, place⟩) ∨
    (∃ id kind count pairs place, event = .loadMe id ∧
      s.readers id = some ⟨kind, some count, pairs, place⟩ ∧
      (pairs = [] ∨ kind = .batch) ∧
      s' = s.setReader id ⟨kind, some count, pairs ++ [(count, s.me)],
        decidePlace kind count s.me⟩) ∨
    ∃ id kind count pairs shard, event = .getClient id ∧
      s.readers id = some ⟨kind, count, pairs, some (.calling shard)⟩ ∧ s.locked = false ∧
      s' = s.setReader id ⟨kind, count, pairs, some (lookupClient s.pool shard)⟩ := by
  cases event with
  | update =>
    simp only [step] at h
    split at h
    · simp at h
    · next u todo ht => exact .inl ⟨u, todo, rfl, ht, (Option.some.inj h).symm⟩
  | start id kind =>
    simp only [step] at h
    split at h
    · simp at h
    · next hnone => exact .inr (.inl ⟨id, kind, rfl, hnone, (Option.some.inj h).symm⟩)
  | loadCount id =>
    simp only [step] at h
    split at h
    · next kind pairs place hq =>
      exact .inr (.inr (.inl ⟨id, kind, pairs, place, rfl, hq, (Option.some.inj h).symm⟩))
    · simp at h
  | loadMe id =>
    simp only [step] at h
    split at h
    · next kind count pairs place hq =>
      split at h
      · next hfirst =>
        exact .inr (.inr (.inr (.inl ⟨id, kind, count, pairs, place, rfl, hq, hfirst,
          (Option.some.inj h).symm⟩)))
      · simp at h
    · simp at h
  | getClient id =>
    simp only [step] at h
    split at h
    · next kind count pairs shard hq =>
      split at h
      · simp at h
      · next hfree =>
        have hunlocked : s.locked = false := Bool.eq_false_of_not_eq_true hfree
        exact .inr (.inr (.inr (.inr ⟨id, kind, count, pairs, shard, rfl, hq, hunlocked,
          (Option.some.inj h).symm⟩)))
    · simp at h

private theorem perform_todo (u : UpdateStep) (s : Server Host) :
    (u.perform cfg s).todo ⊆ s.todo := by
  cases u with
  | compareExchange =>
    simp only [UpdateStep.perform]
    split
    · exact List.nil_subset _
    · exact List.Subset.refl _
  | _ => exact List.Subset.refl _

theorem perform_readers (u : UpdateStep) (s : Server Host) :
    (u.perform cfg s).readers = s.readers := by
  cases u with
  | compareExchange =>
    simp only [UpdateStep.perform]
    split <;> rfl
  | _ => rfl

theorem Shape.setReader (h : Shape cfg s) (id : ℕ) (r : Reader Host) :
    Shape cfg (s.setReader id r) :=
  ⟨h.todo, h.peerUpdated, h.me, h.count, h.pool, h.locked⟩

/-- A reader between the stores that are still to come and those that are done. -/
structure ReaderShape (cfg : Config Host) (todo : List UpdateStep) (r : Reader Host) : Prop where
  count : ∀ c, r.count = some c → c = 0 ∨ (c = cfg.count ∧ .storeCount ∉ todo)
  request : ∀ key, r.kind = .request key → (r.pairs = [] ∧ r.place = none) ∨
    ∃ c m, r.pairs = [(c, m)] ∧ (.storeMe ∈ todo → c = 0 ∧ m = 0) ∧
      (r.place = decidePlace r.kind c m ∨ ((getShard (strStream key) c).toUInt32 ≠ m ∧
        r.place = some (lookupClient cfg.hosts (getShard (strStream key) c).toUInt32)))

theorem ReaderShape.mono {cfg : Config Host} {todo todo' : List UpdateStep} {r : Reader Host}
    (h : ReaderShape cfg todo r) (ht : todo' ⊆ todo) : ReaderShape cfg todo' r := by
  constructor
  · intro c hc
    rcases h.count c hc with hzero | ⟨hcount, hstored⟩
    · exact .inl hzero
    · exact .inr ⟨hcount, fun hin => hstored (ht hin)⟩
  · intro key hkey
    rcases h.request key hkey with hnone | ⟨c, m, hpairs, hold, hplace⟩
    · exact .inl hnone
    · exact .inr ⟨c, m, hpairs, fun hin => hold (ht hin), hplace⟩

theorem ReaderShape.calling {cfg : Config Host} {todo : List UpdateStep} {r : Reader Host}
    (h : ReaderShape cfg todo r) {key : Str} {shard : UInt32} (hkey : r.kind = .request key)
    (hplace : r.place = some (.calling shard)) : ∃ c m, r.pairs = [(c, m)] ∧
      (.storeMe ∈ todo → c = 0 ∧ m = 0) ∧
      (getShard (strStream key) c).toUInt32 ≠ m ∧
      shard = (getShard (strStream key) c).toUInt32 := by
  rcases h.request key hkey with ⟨-, hnone⟩ | ⟨c, m, hpairs, hstored, hdecided | ⟨-, hpeer⟩⟩
  · simp [hnone] at hplace
  · refine ⟨c, m, hpairs, hstored, ?_⟩
    rw [hplace, hkey] at hdecided
    simp only [decidePlace, Option.some.injEq] at hdecided
    split at hdecided
    · simp at hdecided
    · next hne => exact ⟨hne, Place.calling.inj hdecided⟩
  · rw [hplace, lookupClient] at hpeer
    split at hpeer <;> simp at hpeer

private theorem lookup_host (cfg : Config Host) : cfg.hosts[cfg.me.toNat]? = some cfg.host := by
  have hlt : cfg.index.toNat - 1 < cfg.hosts.length := by
    have hpos := cfg.index_pos
    have hle := cfg.index_le
    omega
  rw [cfg.me_toNat, List.getElem?_eq_getElem hlt]
  rfl

private theorem wellPlaced_final (cfg : Config Host) (key : Str) {place : Place Host}
    (h : decidePlace (.request key) cfg.count cfg.me = some place) :
    WellPlaced cfg key [(cfg.count, cfg.me)] place := by
  have hshard := cfg.getElem?_shard (strStream key)
  simp only [decidePlace] at h
  split at h
  · next he =>
    obtain rfl := Option.some.inj h
    have hhost := lookup_host cfg
    rw [← he] at hhost
    exact .inr (Option.some.inj (hshard.symm.trans hhost))
  · obtain rfl := Option.some.inj h
    exact hshard

theorem ReaderShape.readerOk_iff {cfg : Config Host} {todo : List UpdateStep} {r : Reader Host}
    (h : ReaderShape cfg todo r) : ReaderOk cfg r ↔ ∀ pair ∈ r.pairs, Unmixed cfg pair := by
  constructor
  · intro hr
    exact hr.unmixed
  · intro hpairs
    refine ⟨hpairs, ?_⟩
    intro key place hkey hplace
    rcases h.request key hkey with ⟨-, hnone⟩ | ⟨c, m, hr, -, hdecided⟩
    · simp [hnone] at hplace
    · have hpair := hpairs (c, m) (by simp [hr])
      rw [hr]
      rcases hpair with hpair | hpair
      · obtain ⟨rfl, rfl⟩ := Prod.mk.inj hpair
        rcases hdecided with hdecided | ⟨hne, -⟩
        · rw [hplace, hkey] at hdecided
          simp only [decidePlace, shard_zero, if_true, Option.some.injEq] at hdecided
          rw [hdecided]
          exact .inl rfl
        · exact absurd (shard_zero key) hne
      · obtain ⟨rfl, rfl⟩ := Prod.mk.inj hpair
        rcases hdecided with hdecided | ⟨-, hpeer⟩
        · rw [hplace, hkey] at hdecided
          exact wellPlaced_final cfg key hdecided.symm
        · rw [hplace] at hpeer
          obtain rfl := Option.some.inj hpeer
          rw [lookupClient, Config.count, cfg.getElem?_shard]
          exact rfl

structure RunShape (cfg : Config Host) (s : Server Host) : Prop where
  thread : Shape cfg s
  readers : ∀ id r, s.readers id = some r → ReaderShape cfg s.todo r

private theorem runShape_start (cfg : Config Host) : RunShape cfg Server.start :=
  ⟨shape_start, by simp [Server.start]⟩

theorem RunShape.setReader (h : RunShape cfg s) {id : ℕ} {r : Reader Host}
    (hr : ReaderShape cfg s.todo r) :
    RunShape cfg (s.setReader id r) := by
  exact ⟨h.thread.setReader id r, forall_update_some h.readers hr⟩

theorem RunShape.perform (h : RunShape cfg s) {u : UpdateStep} {todo : List UpdateStep}
    (ht : s.todo = u :: todo) :
    RunShape cfg (u.perform cfg { s with todo := todo }) := by
  refine ⟨h.thread.perform ht, ?_⟩
  intro id r hr
  rw [perform_readers] at hr
  have htodo : (u.perform cfg { s with todo := todo }).todo ⊆ s.todo := by
    rw [ht]
    exact List.Subset.trans (perform_todo _ _) (List.subset_cons_self _ _)
  exact (h.readers id r hr).mono htodo

/-- A reader that calls a shard while nobody holds the lock finds the final pool. -/
theorem RunShape.pool_of_calling (h : RunShape cfg s) (hfree : s.locked = false) {key : Str}
    {c : UInt64} {m : UInt32} (hstored : .storeMe ∈ s.todo → c = 0 ∧ m = 0)
    (hne : (getShard (strStream key) c).toUInt32 ≠ m) :
    s.pool = cfg.hosts := by
  apply h.thread.pool
  intro hin
  have horder := todo_order h.thread.todo
  have hlock := h.thread.locked
  simp only [hfree, Bool.false_eq_true, false_iff, not_and] at hlock
  have hlocking : .lockCluster ∈ s.todo := by
    by_contra hlocked
    exact hlock hlocked (horder.2.2 hin)
  obtain ⟨rfl, rfl⟩ := hstored (horder.1 hlocking)
  exact hne (shard_zero key)

theorem RunShape.step (h : RunShape cfg s) {event : Event}
    (hs : RustPeerUpdates.step cfg s event = some s') :
    RunShape cfg s' := by
  rcases step_cases hs with ⟨u, todo, -, ht, rfl⟩ | ⟨id, kind, -, -, rfl⟩ |
    ⟨id, kind, pairs, place, -, hq, rfl⟩ | ⟨id, kind, c, pairs, place, -, hq, hfirst, rfl⟩ |
    ⟨id, kind, count, pairs, shard, -, hq, hfree, rfl⟩
  · exact h.perform ht
  · exact h.setReader ⟨by simp, fun _ _ => .inl ⟨rfl, rfl⟩⟩
  · have hold := h.readers id _ hq
    refine h.setReader ⟨?_, hold.request⟩
    intro c hc
    obtain rfl := Option.some.inj hc
    rw [h.thread.count]
    split
    · exact .inl rfl
    · next hstored => exact .inr ⟨rfl, hstored⟩
  · have hold := h.readers id _ hq
    refine h.setReader ⟨hold.count, ?_⟩
    intro key hkey
    have hpairs : pairs = [] := by
      rcases hfirst with hnil | hbatch
      · exact hnil
      · simp only at hkey
        simp [hkey] at hbatch
    refine .inr ⟨c, s.me, by simp [hpairs], ?_, .inl rfl⟩
    intro hin
    rcases hold.count c rfl with hzero | ⟨-, hstored⟩
    · exact ⟨hzero, by rw [h.thread.me, if_pos hin]⟩
    · exact absurd ((todo_order h.thread.todo).2.1 hin) hstored
  · have hold := h.readers id _ hq
    refine h.setReader ⟨hold.count, ?_⟩
    intro key hkey
    obtain ⟨c, m, hpairs, hstored, hne, hshard⟩ := hold.calling hkey rfl
    have hpool := h.pool_of_calling hfree hstored hne
    exact .inr ⟨c, m, hpairs, hstored, .inr ⟨hne, by rw [hpool, hshard]⟩⟩

def pairsOf (s : Server Host) (id : ℕ) : List (UInt64 × UInt32) :=
  ((s.readers id).map Reader.pairs).getD []

def AllUnmixed (cfg : Config Host) (s : Server Host) : Prop :=
  ∀ id, ∀ pair ∈ pairsOf s id, Unmixed cfg pair

private theorem allUnmixed_start : AllUnmixed cfg (Server.start : Server Host) := by
  intro id pair hpair
  simp [pairsOf, Server.start] at hpair

theorem RunShape.neverMixed_iff (h : RunShape cfg s) : NeverMixed cfg s ↔ AllUnmixed cfg s := by
  constructor
  · intro hn id pair hpair
    cases hr : s.readers id with
    | none => simp [pairsOf, hr] at hpair
    | some r =>
      simp only [pairsOf, hr, Option.map_some, Option.getD_some] at hpair
      exact (hn id r hr).unmixed pair hpair
  · intro ha id r hr
    rw [(h.readers id r hr).readerOk_iff]
    intro pair hpair
    exact ha id pair (by simpa [pairsOf, hr] using hpair)

private theorem allUnmixed_setReader {id : ℕ} {r : Reader Host} (extra : List (UInt64 × UInt32))
    (h : r.pairs = pairsOf s id ++ extra) :
    AllUnmixed cfg (s.setReader id r) ↔ AllUnmixed cfg s ∧ ∀ pair ∈ extra, Unmixed cfg pair := by
  have hself : pairsOf (s.setReader id r) id = pairsOf s id ++ extra := by
    rw [← h]
    simp [pairsOf, Server.setReader]
  have hother : ∀ i, i ≠ id → pairsOf (s.setReader id r) i = pairsOf s i := by
    intro i hi
    simp [pairsOf, Server.setReader, hi]
  constructor
  · intro ha
    constructor
    · intro i pair hpair
      rcases eq_or_ne i id with rfl | hne
      · exact ha i pair (by rw [hself]; exact List.mem_append_left _ hpair)
      · exact ha i pair (by rwa [hother i hne])
    · intro pair hpair
      exact ha id pair (by rw [hself]; exact List.mem_append_right _ hpair)
  · rintro ⟨ha, hextra⟩ i pair hpair
    rcases eq_or_ne i id with rfl | hne
    · rw [hself] at hpair
      rcases List.mem_append.mp hpair with hpair | hpair
      · exact ha i pair hpair
      · exact hextra pair hpair
    · rw [hother i hne] at hpair
      exact ha i pair hpair

/-- Loading `me` after `count` completes an unmixed pair unless the store of `me` lies between. -/
theorem unmixed_load_iff (h : Shape cfg s) {c : UInt64}
    (hc : c = 0 ∨ (c = cfg.count ∧ .storeCount ∉ s.todo)) :
    Unmixed cfg (c, s.me) ↔ (c = 0 → .storeMe ∈ s.todo ∨ cfg.index = 1) := by
  have hcount := cfg.count_ne_zero
  rcases hc with rfl | ⟨rfl, hstored⟩
  · have hne : ¬ (0 : UInt64) = cfg.count := fun he => hcount he.symm
    simp only [Unmixed, Prod.mk.injEq, true_and, hne, false_and, or_false, forall_const]
    rw [h.me]
    split
    · next hin => simp [hin]
    · next hin => simp [hin, cfg.me_eq_zero_iff]
  · have hme : .storeMe ∉ s.todo := fun hin => hstored ((todo_order h.todo).2.1 hin)
    rw [h.me, if_neg hme]
    simp [Unmixed, hcount]

/-- One event keeps the pairs unmixed exactly when it does not straddle the stores. -/
theorem RunShape.exact (h : RunShape cfg s) {event : Event}
    (hs : RustPeerUpdates.step cfg s event = some s') :
    AllUnmixed cfg s' ↔ AllUnmixed cfg s ∧ NotStraddling cfg s event := by
  rcases step_cases hs with ⟨u, todo, rfl, ht, rfl⟩ | ⟨id, kind, rfl, hnone, rfl⟩ |
    ⟨id, kind, pairs, place, rfl, hq, rfl⟩ | ⟨id, kind, c, pairs, place, rfl, hq, -, rfl⟩ |
    ⟨id, kind, count, pairs, shard, rfl, hq, -, rfl⟩
  · have hsame : pairsOf (u.perform cfg { s with todo := todo }) = pairsOf s := by
      funext id
      rw [pairsOf, pairsOf, perform_readers]
    simp only [AllUnmixed, hsame, NotStraddling, and_true]
  · rw [allUnmixed_setReader [] (by simp [pairsOf, hnone])]
    simp [NotStraddling]
  · rw [allUnmixed_setReader [] (by simp [pairsOf, hq])]
    simp [NotStraddling]
  · rw [allUnmixed_setReader [(c, s.me)] (by simp [pairsOf, hq])]
    simp only [List.mem_singleton, forall_eq]
    rw [unmixed_load_iff h.thread ((h.readers id _ hq).count c rfl)]
    simp only [NotStraddling, hq, Option.some.injEq, forall_eq']
  · rw [allUnmixed_setReader [] (by simp [pairsOf, hq])]
    simp [NotStraddling]

/-- A run mixes no pair exactly when no load of `me` straddles the stores. -/
theorem neverMixed_iff_meets (cfg : Config Host) {events : List Event}
    (hr : run (RustPeerUpdates.step cfg) Server.start events = some s) :
    NeverMixed cfg s ↔
    Meets (RustPeerUpdates.step cfg) (NotStraddling cfg) Server.start events := by
  have hshape : RunShape cfg s :=
    run_invariant_of_step (RunShape cfg) (fun _ _ _ h hs => h.step hs) (runShape_start cfg) hr
  have hexact := run_exact (RunShape cfg) (AllUnmixed cfg) (NotStraddling cfg)
    (fun _ _ _ h hs => h.step hs) (fun _ _ _ h hs => h.exact hs) (runShape_start cfg) hr
  rw [hshape.neverMixed_iff, hexact]
  simp [allUnmixed_start]

/-- A loader thread that loads `count` first and `me` after its store. -/
def straddlingRun (kind : Kind) : List Event :=
  [.start 0 kind, .loadCount 0, .update, .update, .update, .update, .loadMe 0]

private theorem reader_straddlingRun (cfg : Config Host) (kind : Kind) : ∃ s,
    run (step cfg) Server.start (straddlingRun kind) = some s ∧
    s.readers 0 = some ⟨kind, some 0, [(0, cfg.me)], decidePlace kind 0 cfg.me⟩ := by
  exact ⟨_, rfl, rfl⟩

/-- Routing never mixes two configurations, in any interleaving, exactly on the first node
of a cluster; on any other node it does in exactly those runs in which a reader loads `count`
before the installation and `me` after its store. -/
theorem routing_never_mixes_iff (cfg : Config Host) :
    ((∀ events s, run (step cfg) Server.start events = some s → NeverMixed cfg s) ↔ cfg.index = 1) ∧
    ∀ events s, run (step cfg) Server.start events = some s →
      (NeverMixed cfg s ↔ Meets (step cfg) (NotStraddling cfg) Server.start events) := by
  refine ⟨?_, fun events s hr => neverMixed_iff_meets cfg hr⟩
  constructor
  · intro hall
    obtain ⟨s, hr, hreader⟩ := reader_straddlingRun cfg .loader
    have hpair := (hall _ s hr 0 _ hreader).unmixed (0, cfg.me) (by simp)
    rcases hpair with hpair | hpair
    · exact cfg.me_eq_zero_iff.mp (Prod.mk.inj hpair).2
    · exact absurd (Prod.mk.inj hpair).1.symm cfg.count_ne_zero
  · intro hfirst events s hr
    rw [neverMixed_iff_meets cfg hr]
    apply meets_of_forall
    intro s event
    cases event with
    | loadMe id => exact fun _ _ _ => .inr hfirst
    | _ => trivial

def secondNode : Config ℕ := ⟨twoNodes, 2, by decide, by decide⟩

/-- The second node owns key `a`, and sends a request for it to the first node. -/
theorem routing_can_mix : ∃ s,
    run (step secondNode) Server.start
      (straddlingRun (.request [97]) ++ [.update, .update, .update, .getClient 0]) = some s ∧
    s.readers 0 = some ⟨.request [97], some 0, [(0, 1)], some (.peer 0)⟩ ∧
    secondNode.owner (strStream [97]) = 1 ∧ ¬ NeverMixed secondNode s := by
  have hreader : ∃ s, run (step secondNode) Server.start
      (straddlingRun (.request [97]) ++ [.update, .update, .update, .getClient 0]) = some s ∧
      s.readers 0 = some ⟨.request [97], some 0, [(0, 1)], some (.peer 0)⟩ := ⟨_, rfl, rfl⟩
  obtain ⟨s, hr, hs⟩ := hreader
  refine ⟨s, hr, hs, by decide +kernel, ?_⟩
  intro hmixed
  have hpair := (hmixed 0 _ hs).unmixed (0, 1) (by simp)
  simp [Unmixed, secondNode, twoNodes, Config.count] at hpair

end HCache.RustPeerUpdates
