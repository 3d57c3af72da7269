import HCache.CppShardedStorage
import HCache.InterleavedSystems

/-!
# Batches on the C++ sharded storage

`batch_handler` starts its elements in the order of the array. An element of the origin core
is stored at once; any other is sent to its core, and messages from one core to another
arrive in the order in which they were sent. Other requests run on every core in between.
All elements of one key go the same way, so the last one is stored last.
-/
namespace HCache.CppShardedBatches
open Std OrderedMaps KeyPartitions InterleavedSystems CppSingleThreadStorage CppShardedStorage

variable {smp : Smp}

/-- A batch under way. For each core: the messages to it, the replies from it, and the
futures that `parallel_for_each` still waits for. -/
structure Batch (smp : Smp) where
  peers : ShardedStorage smp
  pending : List KeyValue
  messages : Fin smp.count → List KeyValue
  replies : Fin smp.count → ℕ
  unresolved : Fin smp.count → ℕ
  responded : Bool

inductive Event (smp : Smp) where
  | start
  | deliver (core : Fin smp.count)
  | reply (core : Fin smp.count)
  | respond
  | other (core : Fin smp.count) (key : Fbstring) (op : KeyOp)

def Batch.start (peers : ShardedStorage smp) (kvs : List KeyValue) : Batch smp :=
  ⟨peers, kvs, fun _ => [], fun _ => 0, fun _ => 0, false⟩

/-- `add_key_value` of the next element. -/
def Batch.add (hash : Fbstring → UInt32) (origin : Fin smp.count) (b : Batch smp) (kv : KeyValue)
    (pending : List KeyValue) : Batch smp :=
  let cpu := ShardedStorage.getCpu smp hash kv.key
  if origin = cpu then
    { b with
      peers := (ShardedStorage.addKeyValue hash b.peers origin kv.key kv.value).1
      pending := pending }
  else
    { b with
      pending := pending
      messages := Function.update b.messages cpu (b.messages cpu ++ [kv])
      unresolved := Function.update b.unresolved cpu (b.unresolved cpu + 1) }

def step (hash : Fbstring → UInt32) (origin : Fin smp.count) (b : Batch smp) :
    Event smp → Option (Batch smp)
  | .start =>
    match b.pending with
    | [] => none
    | kv :: pending => some (b.add hash origin kv pending)
  | .deliver core =>
    match b.messages core with
    | [] => none
    | kv :: messages => some { b with
        peers := (invokeOn b.peers core (fun s => (s.addKeyValue kv.key kv.value, ()))).1
        messages := Function.update b.messages core messages
        replies := Function.update b.replies core (b.replies core + 1) }
  | .reply core =>
    if b.replies core = 0 then none
    else some { b with
      replies := Function.update b.replies core (b.replies core - 1)
      unresolved := Function.update b.unresolved core (b.unresolved core - 1) }
  | .respond =>
    if b.pending = [] ∧ ∀ core, b.unresolved core = 0 then some { b with responded := true }
    else none
  | .other core key op =>
    some { b with peers := (invokeOn b.peers core (fun s => s.execOn key op)).1 }

def otherStep (peers : ShardedStorage smp) : Event smp → ShardedStorage smp
  | .other core key op => (invokeOn peers core (fun s => s.execOn key op)).1
  | _ => peers

def othersAlone (peers : ShardedStorage smp) (events : List (Event smp)) : ShardedStorage smp :=
  events.foldl otherStep peers

def lastValue (kvs : List KeyValue) (key : Fbstring) : Option Fbstring :=
  (kvs.reverse.find? (fun kv => kv.key = key)).map KeyValue.value

theorem lastValue_concat (kvs : List KeyValue) (kv : KeyValue) (key : Fbstring) :
    lastValue (kvs ++ [kv]) key = if kv.key = key then some kv.value else lastValue kvs key := by
  rw [lastValue, List.reverse_append, List.reverse_singleton, List.singleton_append,
    List.find?_cons]
  by_cases hk : kv.key = key
  · simp [hk]
  · simp [hk, lastValue]

theorem lastValue_eq_none_iff {kvs : List KeyValue} {key : Fbstring} :
    lastValue kvs key = none ↔ ∀ kv ∈ kvs, kv.key ≠ key := by
  simp [lastValue]

private theorem lastValue_filter {ι : Type*} [DecidableEq ι] (cpu : Fbstring → ι)
    (kvs : List KeyValue) (key : Fbstring) :
    lastValue (kvs.filter (fun kv => cpu kv.key = cpu key)) key = lastValue kvs key := by
  induction kvs using List.reverseRecOn with
  | nil => rfl
  | append_singleton kvs kv ih =>
    rw [List.filter_append, lastValue_concat]
    by_cases hk : kv.key = key
    · simp [hk, lastValue_concat]
    · by_cases hcpu : cpu kv.key = cpu key
      · simp [hk, hcpu, lastValue_concat, ih]
      · simp [hk, hcpu, ih]

/-- What a key holds once the pairs of a list have been added over it. -/
def overwritten (kvs : List KeyValue) (key : Fbstring) (before : Option Fbstring × Option Zset) :
    Option Fbstring × Option Zset :=
  match lastValue kvs key with
  | some value => (some value, none)
  | none => before

private theorem stored_addKeyValue (s : SingleThreadStorage) (kv : KeyValue) (key : Fbstring) :
    stored (s.addKeyValue kv.key kv.value) key = if kv.key = key then (some kv.value, none)
      else stored s key := by
  simp only [stored, SingleThreadStorage.addKeyValue, lookup_replace, lookup_erase]
  split <;> rfl

private theorem overwritten_concat (kvs : List KeyValue) (kv : KeyValue) (key : Fbstring)
    (before : Option Fbstring × Option Zset) :
    overwritten (kvs ++ [kv]) key before =
      if kv.key = key then (some kv.value, none) else overwritten kvs key before := by
  rw [overwritten, lastValue_concat]
  by_cases hk : kv.key = key
  · simp [hk]
  · simp [hk, overwritten]

variable {hash : Fbstring → UInt32} {origin : Fin smp.count} {kvs : List KeyValue}
  {b b' : Batch smp}
  {alone : ShardedStorage smp}

private theorem step_cases {event : Event smp} (h : step hash origin b event = some b') :
    (∃ kv pending, event = .start ∧ b.pending = kv :: pending ∧ b' = b.add hash origin kv pending) ∨
    (∃ core kv messages, event = .deliver core ∧ b.messages core = kv :: messages ∧ b' = { b with
      peers := (invokeOn b.peers core (fun s => (s.addKeyValue kv.key kv.value, ()))).1
      messages := Function.update b.messages core messages
      replies := Function.update b.replies core (b.replies core + 1) }) ∨
    (∃ core, event = .reply core ∧ b.replies core ≠ 0 ∧ b' = { b with
      replies := Function.update b.replies core (b.replies core - 1)
      unresolved := Function.update b.unresolved core (b.unresolved core - 1) }) ∨
    (event = .respond ∧ b.pending = [] ∧ (∀ core, b.unresolved core = 0) ∧
      b' = { b with responded := true }) ∨
    ∃ core key op, event = .other core key op ∧
      b' = { b with peers := (invokeOn b.peers core (fun s => s.execOn key op)).1 } := by
  cases event with
  | start =>
    simp only [step] at h
    split at h
    · simp at h
    · next kv pending hp => exact .inl ⟨kv, pending, rfl, hp, (Option.some.inj h).symm⟩
  | deliver core =>
    simp only [step] at h
    split at h
    · simp at h
    · next kv messages hm =>
        exact .inr (.inl ⟨core, kv, messages, rfl, hm, (Option.some.inj h).symm⟩)
  | reply core =>
    simp only [step] at h
    split at h
    · simp at h
    · next hne => exact .inr (.inr (.inl ⟨core, rfl, hne, (Option.some.inj h).symm⟩))
  | respond =>
    simp only [step] at h
    split at h
    · next hr => exact .inr (.inr (.inr (.inl ⟨rfl, hr.1, hr.2, (Option.some.inj h).symm⟩)))
    · simp at h
  | other core key op =>
    exact .inr (.inr (.inr (.inr ⟨core, key, op, rfl, (Option.some.inj h).symm⟩)))

/-- The started elements, those of them that have been stored on each core, and what the
cores hold beside what the other requests alone leave. -/
structure Progress (hash : Fbstring → UInt32) (origin : Fin smp.count) (kvs : List KeyValue)
    (b : Batch smp) (alone : ShardedStorage smp) (started : List KeyValue)
    (done : Fin smp.count → List KeyValue) : Prop where
  order : kvs = started ++ b.pending
  sent : ∀ core, done core ++ b.messages core =
    started.filter (fun kv => ShardedStorage.getCpu smp hash kv.key = core)
  atHome : b.messages origin = []
  stored : ∀ core key, stored (b.peers core) key =
    overwritten (done core) key (stored (alone core) key)
  waiting : ∀ core, b.unresolved core = (b.messages core).length + b.replies core
  finished : b.responded = true → b.pending = [] ∧ ∀ core, b.messages core = []

private theorem progress_start (peers : ShardedStorage smp) (kvs : List KeyValue) :
    Progress hash origin kvs (Batch.start peers kvs) peers [] (fun _ => []) := by
  constructor
  · rfl
  · intro core
    rfl
  · rfl
  · intro core key
    rfl
  · intro core
    rfl
  · intro h
    simp [Batch.start] at h

/-- Storing one more pair on a core. -/
theorem stored_update {peers alone : ShardedStorage smp} {done : Fin smp.count → List KeyValue}
    (h : ∀ core key, CppShardedStorage.stored (peers core) key =
    overwritten (done core) key (CppShardedStorage.stored (alone core) key))
    (cpu : Fin smp.count) (kv : KeyValue) (core : Fin smp.count) (key : Fbstring) :
    CppShardedStorage.stored
      ((invokeOn peers cpu (fun s => (s.addKeyValue kv.key kv.value, ()))).1 core) key =
      overwritten (Function.update done cpu (done cpu ++ [kv]) core) key
        (CppShardedStorage.stored (alone core) key) := by
  rcases eq_or_ne core cpu with rfl | hne
  · simp only [invokeOn, Function.update_self, stored_addKeyValue, overwritten_concat, h core key]
  · simp only [invokeOn, Function.update_of_ne hne, h core key]

theorem Progress.add {started : List KeyValue} {done : Fin smp.count → List KeyValue}
    (h : Progress hash origin kvs b alone started done) {kv : KeyValue} {pending : List KeyValue}
    (hp : b.pending = kv :: pending) :
    ∃ done',
      Progress hash origin kvs (b.add hash origin kv pending) alone (started ++ [kv]) done' := by
  have horder : kvs = (started ++ [kv]) ++ pending := by
    rw [h.order, hp, List.append_assoc, List.singleton_append]
  have hnotResponded : b.responded = true → False := by
    intro hr
    have hnil := (h.finished hr).1
    simp [hp] at hnil
  by_cases hcpu : origin = ShardedStorage.getCpu smp hash kv.key
  · have hadd : b.add hash origin kv pending = { b with
        peers := (invokeOn b.peers origin (fun s => (s.addKeyValue kv.key kv.value, ()))).1
        pending := pending } := by
      rw [Batch.add, if_pos hcpu, ShardedStorage.addKeyValue, onCpu_eq_invokeOn, ← hcpu]
    rw [hadd]
    refine ⟨Function.update done origin (done origin ++ [kv]), horder, ?_, h.atHome, ?_,
      h.waiting, ?_⟩
    · intro core
      rw [List.filter_append]
      rcases eq_or_ne core origin with rfl | hne
      · have hsent := h.sent core
        rw [h.atHome, List.append_nil] at hsent
        simp [← hcpu, h.atHome, hsent]
      · have hother : ShardedStorage.getCpu smp hash kv.key ≠ core := hcpu ▸ hne.symm
        simp [Function.update_of_ne hne, h.sent core, hother]
    · exact stored_update h.stored origin kv
    · exact fun hr => (hnotResponded hr).elim
  · rw [Batch.add, if_neg hcpu]
    refine ⟨done, horder, ?_, ?_, h.stored, ?_, fun hr => (hnotResponded hr).elim⟩
    · intro core
      rw [List.filter_append]
      rcases eq_or_ne core (ShardedStorage.getCpu smp hash kv.key) with rfl | hne
      · simp [← h.sent, List.append_assoc]
      · simp [Function.update_of_ne hne, h.sent core, Ne.symm hne]
    · simp only [Function.update_of_ne hcpu]
      exact h.atHome
    · intro core
      have hwaiting := h.waiting core
      rcases eq_or_ne core (ShardedStorage.getCpu smp hash kv.key) with rfl | hne
      · simp only [Function.update_self, List.length_append, List.length_singleton]
        omega
      · simp only [Function.update_of_ne hne]
        exact hwaiting

theorem Progress.deliver {started : List KeyValue} {done : Fin smp.count → List KeyValue}
    (h : Progress hash origin kvs b alone started done) {core : Fin smp.count} {kv : KeyValue}
    {messages : List KeyValue} (hm : b.messages core = kv :: messages) :
    Progress hash origin kvs { b with
      peers := (invokeOn b.peers core (fun s => (s.addKeyValue kv.key kv.value, ()))).1
      messages := Function.update b.messages core messages
      replies := Function.update b.replies core (b.replies core + 1) } alone started
      (Function.update done core (done core ++ [kv])) := by
  have haway : origin ≠ core := by
    rintro rfl
    simp [h.atHome] at hm
  refine ⟨h.order, ?_, ?_, stored_update h.stored core kv, ?_, ?_⟩
  · intro c
    rcases eq_or_ne c core with rfl | hne
    · simp [← h.sent, hm]
    · simp [Function.update_of_ne hne, h.sent c]
  · simp only [Function.update_of_ne haway]
    exact h.atHome
  · intro c
    have hwaiting := h.waiting c
    rcases eq_or_ne c core with rfl | hne
    · simp only [Function.update_self, hm, List.length_cons] at hwaiting ⊢
      omega
    · simp only [Function.update_of_ne hne]
      exact hwaiting
  · intro hr
    have hnil := (h.finished hr).2 core
    simp [hm] at hnil

theorem Progress.reply {started : List KeyValue} {done : Fin smp.count → List KeyValue}
    (h : Progress hash origin kvs b alone started done) {core : Fin smp.count}
    (hr : b.replies core ≠ 0) :
    Progress hash origin kvs { b with
      replies := Function.update b.replies core (b.replies core - 1)
      unresolved :=
        Function.update b.unresolved core (b.unresolved core - 1) } alone started done := by
  refine ⟨h.order, h.sent, h.atHome, h.stored, ?_, h.finished⟩
  intro c
  have hwaiting := h.waiting c
  rcases eq_or_ne c core with rfl | hne
  · simp only [Function.update_self]
    omega
  · simp only [Function.update_of_ne hne]
    exact hwaiting

theorem Progress.other {started : List KeyValue} {done : Fin smp.count → List KeyValue}
    (h : Progress hash origin kvs b alone started done) (core : Fin smp.count) {key : Fbstring}
    (op : KeyOp) (hkey : ∀ kv ∈ kvs, kv.key ≠ key) :
    Progress hash origin kvs { b
      with peers := (invokeOn b.peers core (fun s => s.execOn key op)).1 }
      (invokeOn alone core (fun s => s.execOn key op)).1 started done := by
  refine ⟨h.order, h.sent, h.atHome, ?_, h.waiting, h.finished⟩
  intro c k
  rcases eq_or_ne c core with rfl | hne
  · simp only [invokeOn, Function.update_self]
    rcases eq_or_ne k key with rfl | hk
    · have hmiss : lastValue (done c) k = none := by
        rw [lastValue_eq_none_iff]
        intro kv hkv
        have hin : kv ∈ started.filter (fun kv => ShardedStorage.getCpu smp hash kv.key = c) := by
          rw [← h.sent c]
          exact List.mem_append_left _ hkv
        apply hkey
        rw [h.order]
        exact List.mem_append_left _ (List.mem_of_mem_filter hin)
      have hsame := h.stored c k
      simp only [overwritten, hmiss] at hsame ⊢
      exact keyLocal_execOn.self _ _ (k, op) hsame
    · rw [keyLocal_execOn.other _ (key, op) k hk, keyLocal_execOn.other _ (key, op) k hk]
      exact h.stored c k
  · simp only [invokeOn, Function.update_of_ne hne]
    exact h.stored c k

private theorem progress_step {event : Event smp}
    (h : ∃ started done, Progress hash origin kvs b alone started done)
    (hother : ∀ core key op, event = .other core key op → ∀ kv ∈ kvs, kv.key ≠ key)
    (hs : step hash origin b event = some b') :
    ∃ started done, Progress hash origin kvs b' (otherStep alone event) started done := by
  obtain ⟨started, done, h⟩ := h
  rcases step_cases hs with ⟨kv, pending, rfl, hp, rfl⟩ | ⟨core, kv, messages, rfl, hm, rfl⟩ |
    ⟨core, rfl, hr, rfl⟩ | ⟨rfl, hp, hwait, rfl⟩ | ⟨core, key, op, rfl, rfl⟩
  · obtain ⟨done', h'⟩ := h.add hp
    exact ⟨_, done', h'⟩
  · exact ⟨_, _, h.deliver hm⟩
  · exact ⟨_, _, h.reply hr⟩
  · refine ⟨started, done, h.order, h.sent, h.atHome, h.stored, h.waiting, fun _ => ⟨hp, ?_⟩⟩
    intro core
    have hwaiting := h.waiting core
    have hlength : (b.messages core).length = 0 := by
      have hzero := hwait core
      omega
    exact List.length_eq_zero_iff.mp hlength
  · exact ⟨_, _, h.other core op (hother core key op rfl)⟩

/-- When a batch answers beside requests for other keys, each of its keys holds the value of
its last occurrence on its core and is no sorted set, and everything else is as the other
requests alone leave it. -/
theorem batch_stores_last (smp : Smp) (hash : Fbstring → UInt32) (origin : Fin smp.count)
    (kvs : List KeyValue) (peers : ShardedStorage smp) {events : List (Event smp)} {b : Batch smp}
    (hr : run (step hash origin) (Batch.start peers kvs) events = some b)
    (hresponded : b.responded = true)
    (hother : ∀ core key op, .other core key op ∈ events → ∀ kv ∈ kvs, kv.key ≠ key) :
    (∀ pre key value post, kvs = pre ++ ⟨key, value⟩ :: post → (∀ kv ∈ post, kv.key ≠ key) →
      stored (b.peers (ShardedStorage.getCpu smp hash key)) key = (some value, none)) ∧
    ∀ core key, (∀ kv ∈ kvs, kv.key = key → core ≠ ShardedStorage.getCpu smp hash key) →
      stored (b.peers core) key = stored (othersAlone peers events core) key := by
  obtain ⟨started, done, h⟩ : ∃ started done,
      Progress hash origin kvs b (othersAlone peers events) started done := by
    refine run_related (fun b alone => ∃ started done,
      Progress hash origin kvs b alone started done)
      (P := fun e => ∀ core key op, e = .other core key op → ∀ kv ∈ kvs, kv.key ≠ key) ?_
      ⟨[], fun _ => [], progress_start peers kvs⟩ ?_ hr
    · intro b alone event b' h hp hs
      exact progress_step h hp hs
    · rintro event he core key op rfl
      exact hother core key op he
  obtain ⟨hpending, hmessages⟩ := h.finished hresponded
  have horder := h.order
  rw [hpending, List.append_nil] at horder
  subst horder
  have hdone : ∀ core, done core =
      kvs.filter (fun kv => ShardedStorage.getCpu smp hash kv.key = core) := by
    intro core
    rw [← h.sent core, hmessages, List.append_nil]
  constructor
  · intro pre key value post hsplit hlast
    have hvalue : lastValue kvs key = some value := by
      have hnone : post.reverse.find? (fun kv => kv.key = key) = none := by simpa using hlast
      rw [hsplit, lastValue]
      simp [List.find?_append, hnone]
    rw [h.stored, hdone, overwritten, lastValue_filter, hvalue]
  · intro core key haway
    have hnone : lastValue (done core) key = none := by
      rw [hdone, lastValue_eq_none_iff]
      intro kv hkv hk
      obtain ⟨hin, hcpu⟩ := List.mem_filter.mp hkv
      have hcore := of_decide_eq_true hcpu
      rw [hk] at hcore
      exact haway kv hin hk hcore.symm
    rw [h.stored, overwritten, hnone]

/-- On two cores, a key given twice to the core away from the batch. -/
theorem batch_stores_last_away : ∃ b : Batch ⟨2, Nat.two_pos⟩,
    run (step (fun key => if key = [1] then 1 else 0) 0)
      (Batch.start (ShardedStorage.new _) [⟨[1], [10]⟩, ⟨[0], [11]⟩, ⟨[1], [12]⟩])
      [.start, .start, .start, .deliver 1, .other 1 [2] .delKey, .deliver 1, .reply 1, .reply 1,
        .respond] = some b ∧
      b.responded = true ∧ stored (b.peers 1) [1] = (some [12], none) := by
  obtain ⟨b, hr, hresponded⟩ : ∃ b : Batch ⟨2, Nat.two_pos⟩,
      run (step (fun key => if key = [1] then 1 else 0) 0)
        (Batch.start (ShardedStorage.new _) [⟨[1], [10]⟩, ⟨[0], [11]⟩, ⟨[1], [12]⟩])
        [.start, .start, .start, .deliver 1, .other 1 [2] .delKey, .deliver 1, .reply 1, .reply 1,
          .respond] = some b ∧
        b.responded = true := ⟨_, rfl, rfl⟩
  have hlast := (batch_stores_last ⟨2, Nat.two_pos⟩ _ 0 _ _ hr hresponded (by simp)).1
  exact ⟨b, hr, hresponded, hlast [⟨[1], [10]⟩, ⟨[0], [11]⟩] [1] [12] [] rfl (by simp)⟩

end HCache.CppShardedBatches
