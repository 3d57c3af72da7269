import HCache.InterleavedSystems
import HCache.PendingWrites
import HCache.RustDiskRecovery

/-!
# Concurrent writes of plain keys

`insert_kv`, `batch_insert_kv` and `remove_key`, each taken apart into its calls of the maps
in memory and of RocksDB. A batch writes memory first and the database at its end, the
others the database first, and no lock spans a call. Calls that leave different things under
one key may leave it different in memory and on disk; other calls never do.
-/
namespace HCache.RustKvRaces
open Std OrderedMaps SequentialMachines InterleavedSystems PendingWrites RustStorage
  RustDiskRecovery

inductive Call where
  | insertKv (key value : Str)
  | batchInsertKv (kvs : List InsrtRequest)
  | removeKey (key : Str)
  deriving DecidableEq, Repr

inductive Write where
  | zsetsRemove (key : Str)
  | dbPut (key value : Str)
  | kvInsert (key value : Str)
  | dbWrite (writeBatch : List (Str × Str))
  | dbDelete (key : Str)
  | kvRemove (key : Str)
  deriving DecidableEq, Repr

def Call.program : Call → List Write
  | .insertKv key value => [.zsetsRemove key, .dbPut key value, .kvInsert key value]
  | .batchInsertKv kvs =>
    kvs.map (fun kv => .kvInsert kv.key kv.value) ++ [.dbWrite (kvs.map InsrtRequest.entry)]
  | .removeKey key => [.dbDelete key, .kvRemove key]

def Write.apply (s : Storage) : Write → Storage
  | .zsetsRemove key => s.zsetsRemove key
  | .dbPut key value => { s with db := s.db.insert key value }
  | .kvInsert key value => s.insertKvInMemory key value
  | .dbWrite writeBatch => { s with db := insertAll s.db writeBatch }
  | .dbDelete key => { s with db := s.db.erase key }
  | .kvRemove key => { s with kv := s.kv.erase key }

/-- The store, and the writes that each started call still has to make. -/
structure State where
  store : Storage
  remaining : ℕ → Option (List Write)

inductive Event where
  | start (i : ℕ)
  | advance (i : ℕ)
  deriving DecidableEq, Repr

def State.start (store : Storage) : State := ⟨store, fun _ => none⟩

/-- Each of `calls` starts at most once, and makes its writes at any time after that. -/
def step (calls : List Call) (s : State) : Event → Option State
  | .start i =>
    match calls[i]?, s.remaining i with
    | some call, none =>
      some { s with remaining := Function.update s.remaining i (some call.program) }
    | _, _ => none
  | .advance i =>
    match s.remaining i with
    | some (w :: ws) => some ⟨w.apply s.store, Function.update s.remaining i (some ws)⟩
    | _ => none

def Quiescent (s : State) : Prop := ∀ i ws, s.remaining i = some ws → ws = []

/-- Memory and disk hold the same pairs, and a restart loads what queries returned. -/
def InStep (store : Storage) : Prop :=
  store.kv = store.db ∧ ∀ loaded, store.restart = .ok loaded →
    ∀ key, loaded.getKv key = store.getKv key

def Call.effect (key : Str) : Call → Option (Option Str)
  | .insertKv k value => if k = key then some (some value) else none
  | .batchInsertKv kvs => (valuesOf (kvs.map InsrtRequest.entry) key).getLast?.map some
  | .removeKey k => if k = key then some none else none

/-- Calls that may overlap: they leave the same under every key that both write. -/
def Call.Compatible (a b : Call) : Prop :=
  ∀ key e e', a.effect key = some e → b.effect key = some e' → e = e'

/-- A call starts only when no conflicting call is in progress. -/
def NoConflict (calls : List Call) (s : State) : Event → Prop
  | .start i =>
    ∀ j call call' ws, calls[i]? = some call → calls[j]? = some call' → s.remaining j = some ws →
      ws ≠ [] → call.Compatible call'
  | .advance _ => True

/-- The operation that a call is when nothing runs beside it. -/
def Call.apply (store : Storage) : Call → Storage
  | .insertKv key value => store.insertKv key value
  | .batchInsertKv kvs => store.batchInsertKv kvs
  | .removeKey key => store.removeKey key

private theorem kvInserts_apply (store : Storage) (kvs : List InsrtRequest) :
    (kvs.map (fun kv => Write.kvInsert kv.key kv.value)).foldl Write.apply store =
      { store with kv := insertAll store.kv (kvs.map InsrtRequest.entry) } := by
  induction kvs generalizing store with
  | nil => rfl
  | cons kv kvs ih => exact ih (store.insertKvInMemory kv.key kv.value)

private theorem program_apply (store : Storage) (call : Call) :
    call.program.foldl Write.apply store = call.apply store := by
  cases call with
  | insertKv key value => rfl
  | batchInsertKv kvs =>
    rw [Call.program, List.foldl_append, kvInserts_apply]
    rfl
  | removeKey key => rfl

variable {calls : List Call} {s s' : State} {i : ℕ}

/-- A call makes some of its writes in a row. -/
theorem run_writes (calls : List Call) {ws rest : List Write}
    (h : s.remaining i = some (ws ++ rest)) :
    run (step calls) s (List.replicate ws.length (.advance i)) =
      some ⟨ws.foldl Write.apply s.store, Function.update s.remaining i (some rest)⟩ := by
  induction ws generalizing s with
  | nil =>
    rw [List.length_nil, List.replicate_zero, run_nil, List.foldl_nil, ← List.nil_append rest, ← h,
      Function.update_eq_self]
  | cons w ws ih =>
    rw [List.length_cons, List.replicate_succ, run_cons_eq_some]
    refine ⟨⟨w.apply s.store, Function.update s.remaining i (some (ws ++ rest))⟩, ?_, ?_⟩
    · simp only [step, h, List.cons_append]
    · rw [ih (Function.update_self _ _ _), Function.update_idem]
      rfl

/-- A call that no other call interrupts does what the sequential operation does. -/
theorem run_alone {call : Call} (hi : calls[i]? = some call) (hnone : s.remaining i = none) :
    run (step calls) s (.start i :: List.replicate call.program.length (.advance i)) =
      some ⟨call.apply s.store, Function.update s.remaining i (some [])⟩ := by
  rw [run_cons_eq_some]
  refine ⟨{ s with remaining := Function.update s.remaining i (some call.program) }, ?_, ?_⟩
  · simp [step, hi, hnone]
  · have hstarted : Function.update s.remaining i (some call.program) i =
      some (call.program ++ []) := by simp
    rw [run_writes calls hstarted, program_apply, Function.update_idem]

/-- What a write leaves under a key in memory, if it writes there. -/
def Write.onKv (key : Str) : Write → Option (Option Str)
  | .kvInsert k value => if k = key then some (some value) else none
  | .kvRemove k => if k = key then some none else none
  | _ => none

/-- What a write leaves under a key on disk, if it writes there. -/
def Write.onDb (key : Str) : Write → Option (Option Str)
  | .dbPut k value => if k = key then some (some value) else none
  | .dbWrite writeBatch => (valuesOf writeBatch key).getLast?.map some
  | .dbDelete k => if k = key then some none else none
  | _ => none

theorem apply_kv (store : Storage) (w : Write) (key : Str) :
    (w.apply store).kv[key]? = (w.onKv key).getD store.kv[key]? := by
  cases w with
  | kvInsert k value =>
    rw [Write.apply, Storage.insertKvInMemory, lookup_insert, Write.onKv]
    split <;> rfl
  | kvRemove k =>
    rw [Write.apply, lookup_erase, Write.onKv]
    split <;> rfl
  | _ => rfl

theorem apply_db (store : Storage) (w : Write) (key : Str) :
    (w.apply store).db[key]? = (w.onDb key).getD store.db[key]? := by
  cases w with
  | dbPut k value =>
    rw [Write.apply, lookup_insert, Write.onDb]
    split <;> rfl
  | dbWrite writeBatch =>
    rw [Write.apply, lookup_insertAll, Write.onDb]
    cases (valuesOf writeBatch key).getLast? with
    | none => rfl
    | some value => rfl
  | dbDelete k =>
    rw [Write.apply, lookup_erase, Write.onDb]
    split <;> rfl
  | _ => rfl

private theorem kvInserts_onKv (kvs : List InsrtRequest) (key : Str) :
    (kvs.map (fun kv => Write.kvInsert kv.key kv.value)).filterMap (Write.onKv key) =
      (valuesOf (kvs.map InsrtRequest.entry) key).map some := by
  induction kvs with
  | nil => rfl
  | cons kv kvs ih =>
    by_cases hk : kv.key = key
    · simpa [valuesOf, Write.onKv, InsrtRequest.entry, hk] using ih
    · simpa [valuesOf, Write.onKv, InsrtRequest.entry, hk] using ih

private theorem kvInserts_onDb (kvs : List InsrtRequest) (key : Str) :
    (kvs.map (fun kv => Write.kvInsert kv.key kv.value)).filterMap (Write.onDb key) = [] := by
  simp [List.filterMap_eq_nil_iff, Write.onDb]

private theorem program_onKv (call : Call) (key : Str) :
    (call.program.filterMap (Write.onKv key)).getLast? = call.effect key := by
  cases call with
  | insertKv k value => by_cases hk : k = key <;> simp [Call.program, Write.onKv, Call.effect, hk]
  | batchInsertKv kvs =>
    rw [Call.program, List.filterMap_append, kvInserts_onKv]
    simp [Write.onKv, Call.effect]
  | removeKey k => by_cases hk : k = key <;> simp [Call.program, Write.onKv, Call.effect, hk]

private theorem program_onDb (call : Call) (key : Str) :
    call.program.filterMap (Write.onDb key) = (call.effect key).toList := by
  cases call with
  | insertKv k value =>
    by_cases hk : k = key <;> simp [Call.program, Write.onDb, Call.effect, hk, List.filterMap_cons]
  | batchInsertKv kvs =>
    rw [Call.program, List.filterMap_append, kvInserts_onDb]
    cases hv : (valuesOf (kvs.map InsrtRequest.entry) key).getLast? with
    | none => simp [Write.onDb, Call.effect, hv]
    | some value => simp [Write.onDb, Call.effect, hv]
  | removeKey k => by_cases hk : k = key <;> simp [Call.program, Write.onDb, Call.effect, hk]

/-- What one event does. -/
theorem step_cases {event : Event} (h : step calls s event = some s') :
    (∃ i call, event = .start i ∧ calls[i]? = some call ∧ s.remaining i = none ∧
      s' = { s with remaining := Function.update s.remaining i (some call.program) }) ∨
    ∃ i w ws, event = .advance i ∧ s.remaining i = some (w :: ws) ∧
      s' = ⟨w.apply s.store, Function.update s.remaining i (some ws)⟩ := by
  cases event with
  | start i =>
    simp only [step] at h
    split at h
    · next call hi hnone => exact .inl ⟨i, call, rfl, hi, hnone, (Option.some.inj h).symm⟩
    · simp at h
  | advance i =>
    simp only [step] at h
    split at h
    · next w ws hi => exact .inr ⟨i, w, ws, rfl, hi, (Option.some.inj h).symm⟩
    · simp at h

/-- The writes to one register that a call still has to make. -/
def pending (register : Write → Option (Option Str)) (remaining : ℕ → Option (List Write)) (i : ℕ) :
    List (Option Str) :=
  ((remaining i).getD []).filterMap register

private theorem pending_update (register : Write → Option (Option Str))
    (remaining : ℕ → Option (List Write)) (i : ℕ) (ws : List Write) :
    pending register (Function.update remaining i (some ws)) =
      Function.update (pending register remaining) i (ws.filterMap register) := by
  funext j
  rcases eq_or_ne j i with rfl | hne
  · simp [pending]
  · simp [pending, Function.update_of_ne hne]

private theorem pending_cons (register : Write → Option (Option Str)) {w : Write} {ws : List Write}
    (h : s.remaining i = some (w :: ws)) :
    pending register s.remaining i = (register w).toList ++ ws.filterMap register := by
  simp only [pending, h, Option.getD_some, List.filterMap_cons]
  cases register w with
  | none => rfl
  | some v => rfl

theorem pending_of_quiescent (hq : Quiescent s) (register : Write → Option (Option Str)) (i : ℕ) :
    pending register s.remaining i = [] := by
  cases hi : s.remaining i with
  | none => simp [pending, hi]
  | some ws => simp [pending, hi, hq i ws hi]

private theorem remaining_of_pending {register : Write → Option (Option Str)}
    (h : pending register s.remaining i ≠ []) :
    ∃ ws, s.remaining i = some ws ∧ ws ≠ [] := by
  cases hi : s.remaining i with
  | none => simp [pending, hi] at h
  | some ws =>
    refine ⟨ws, rfl, ?_⟩
    rintro rfl
    simp [pending, hi] at h

def goal (calls : List Call) (key : Str) (i : ℕ) : Option (Option Str) :=
  calls[i]?.bind (Call.effect key)

/-- Under every key, the calls that still write it want the same. -/
def Inv (calls : List Call) (s : State) : Prop :=
  ∀ key,
    Era (goal calls key) (pending (Write.onKv key) s.remaining)
      (pending (Write.onDb key) s.remaining)
    s.store.kv[key]? s.store.db[key]?

theorem inv_of_eq (hq : Quiescent s) (h : s.store.kv = s.store.db) : Inv calls s := fun key =>
  era_of_eq (pending_of_quiescent hq _) (pending_of_quiescent hq _) (by rw [h])

theorem eq_of_inv (hq : Quiescent s) (h : Inv calls s) : s.store.kv = s.store.db := by
  apply ExtTreeMap.ext_getElem?
  intro key
  exact (h key).settled (pending_of_quiescent hq _) (pending_of_quiescent hq _)

theorem inv_step (h : Inv calls s) {event : Event} (hc : NoConflict calls s event)
    (hs : step calls s event = some s') :
    Inv calls s' := by
  intro key
  rcases step_cases hs with ⟨i, call, rfl, hi, hnone, rfl⟩ | ⟨i, w, ws, rfl, hi, rfl⟩
  · have hidle : ∀ register, pending register s.remaining i = [] :=
      fun register => by simp [pending, hnone]
    rw [pending_update, pending_update]
    cases he : call.effect key with
    | none =>
      have hkv : call.program.filterMap (Write.onKv key) = [] := by
        rw [← List.getLast?_eq_none_iff, program_onKv, he]
      have hsame : ∀ register, Function.update (pending register s.remaining) i [] =
          pending register s.remaining := by
        intro register
        rw [Function.update_eq_self_iff, hidle]
      rw [hkv, program_onDb, he, Option.toList_none, hsame, hsame]
      exact h key
    | some e =>
      refine (h key).start (hidle _) (hidle _) (e := e) ?_ ?_ ?_ ?_
      · rw [goal, hi, Option.bind_some, he]
      · rw [program_onKv, he]
      · rw [program_onDb, he, Option.toList_some, List.getLast?_singleton]
      · intro j e' hbusy hj
        obtain ⟨call', hcall', he'⟩ := Option.bind_eq_some_iff.mp hj
        obtain ⟨ws, hws, hne⟩ := hbusy.elim remaining_of_pending remaining_of_pending
        exact (hc j call call' ws hi hcall' hws hne key e e' he he').symm
  · rw [pending_update, pending_update, apply_kv, apply_db]
    exact (h key).advance (pending_cons _ hi) (pending_cons _ hi)

/-- The last write of a call reaches one of the two sides only, and leaves there what the call
leaves. -/
theorem program_last (call : Call) : ∃ ws w, call.program = ws ++ [w] ∧ ∀ key,
    (w.onKv key = call.effect key ∧ w.onDb key = none) ∨
    (w.onKv key = none ∧ w.onDb key = call.effect key) := by
  cases call with
  | insertKv key value =>
    exact ⟨[.zsetsRemove key, .dbPut key value], _, rfl, fun k => .inl ⟨rfl, rfl⟩⟩
  | batchInsertKv kvs =>
    exact ⟨_, .dbWrite (kvs.map InsrtRequest.entry), rfl, fun k => .inr ⟨rfl, rfl⟩⟩
  | removeKey key => exact ⟨[.dbDelete key], _, rfl, fun k => .inl ⟨rfl, rfl⟩⟩

private theorem apply_effect {call : Call} {key : Str} {e : Option Str}
    (h : call.effect key = some e) (store : Storage) :
    (call.apply store).kv[key]? = e ∧ (call.apply store).db[key]? = e := by
  cases call with
  | insertKv k value =>
    obtain ⟨rfl, rfl⟩ : k = key ∧ some value = e := by simpa [Call.effect] using h
    simp [Call.apply]
  | batchInsertKv kvs =>
    obtain ⟨value, hv, rfl⟩ := Option.map_eq_some_iff.mp h
    simp [Call.apply, lookup_insertAll, hv]
  | removeKey k =>
    obtain ⟨rfl, rfl⟩ : k = key ∧ none = e := by simpa [Call.effect] using h
    simp [Call.apply, Storage.removeKey]

/-- Two conflicting calls have a run that leaves memory and disk different. -/
theorem torn_of_conflict {i j : ℕ} {a b : Call} (store : Storage) (hi : calls[i]? = some a)
    (hj : calls[j]? = some b) (hne : i ≠ j) (h : ¬ a.Compatible b) :
    ∃ events s, run (step calls) (State.start store) events = some s ∧ Quiescent s ∧
      s.store.kv ≠ s.store.db := by
  obtain ⟨key, e, e', ha, hb, hdiffer⟩ : ∃ key e e', a.effect key = some e ∧
      b.effect key = some e' ∧ e ≠ e' := by
    simpa [Call.Compatible] using h
  obtain ⟨ws, w, hprogram, hlast⟩ := program_last a
  let started : State := ⟨store, Function.update (fun _ => none) i (some (ws ++ [w]))⟩
  let paused : State := ⟨ws.foldl Write.apply store, Function.update started.remaining i (some [w])⟩
  have hstart : step calls (State.start store) (.start i) = some started := by
    simp [step, hi, State.start, started, hprogram]
  have hpause : run (step calls) started (List.replicate ws.length (.advance i)) = some paused :=
    run_writes calls (Function.update_self i (some (ws ++ [w])) (fun _ => none))
  have hidle : paused.remaining j = none := by
    simp [paused, started, Function.update_of_ne hne.symm]
  have hmiddle := run_alone hj hidle
  -- the outer call makes its last write after the inner one has returned
  let ended : State :=
    ⟨w.apply (b.apply paused.store),
      Function.update (Function.update paused.remaining j (some [])) i (some [])⟩
  have hend : step calls ⟨b.apply paused.store, Function.update paused.remaining j (some [])⟩
      (.advance i) =
      some ended := by
    simp [step, Function.update_of_ne hne, paused, ended]
  refine ⟨[.start i] ++ (List.replicate ws.length (.advance i) ++
    ((.start j :: List.replicate b.program.length (.advance j)) ++ [.advance i])),
    ended, ?_, ?_, ?_⟩
  · refine run_append_eq_some.mpr ⟨started, by rw [run_cons_eq_some]; exact ⟨_, hstart, rfl⟩, ?_⟩
    refine run_append_eq_some.mpr ⟨paused, hpause, ?_⟩
    refine run_append_eq_some.mpr ⟨_, hmiddle, ?_⟩
    rw [run_cons_eq_some]
    exact ⟨_, hend, rfl⟩
  · intro k rest hk
    rcases eq_or_ne k i with rfl | hki
    · simpa [ended, eq_comm] using hk
    · rcases eq_or_ne k j with rfl | hkj
      · simpa [ended, Function.update_of_ne hki, eq_comm] using hk
      · simp [ended, paused, started, Function.update_of_ne hki, Function.update_of_ne hkj] at hk
  · intro heq
    obtain ⟨hkv, hdb⟩ := apply_effect hb paused.store
    have hkey : (w.apply (b.apply paused.store)).kv[key]? =
      (w.apply (b.apply paused.store)).db[key]? := by rw [heq]
    rw [apply_kv, apply_db, hkv, hdb] at hkey
    rcases hlast key with ⟨hw, hnone⟩ | ⟨hnone, hw⟩
    · rw [hw, hnone, ha] at hkey
      exact hdiffer hkey
    · rw [hw, hnone, ha] at hkey
      exact hdiffer hkey.symm

theorem Call.compatible_symm {a b : Call} (h : a.Compatible b) : b.Compatible a :=
  fun key e e' he he' => (h key e' e he' he).symm

/-- Where no two calls conflict, no call starts beside a conflicting one. -/
theorem noConflict_of_pairwise {calls : List Call} (h : calls.Pairwise Call.Compatible)
    {s s' : State} {event : Event} (hs : step calls s event = some s') :
    NoConflict calls s event := by
  rcases step_cases hs with ⟨i, _, rfl, -, hnone, -⟩ | ⟨i, _, _, rfl, -⟩
  · intro j call call' ws hi hj hws _
    have hne : i ≠ j := by
      rintro rfl
      simp [hnone] at hws
    exact (pairwise_iff_of_ne (fun _ _ => Call.compatible_symm)).mp h i j call call' hi hj hne
  · trivial

private theorem quiescent_start (store : Storage) : Quiescent (State.start store) := by
  intro i ws hi
  simp [State.start] at hi

/-- A restart reads the plain keys from the database. -/
theorem restart_kv {store loaded : Storage} (h : store.restart = .ok loaded) :
    loaded.kv = store.db := by
  simp only [Storage.restart, Storage.loadFromDisk, load_kv] at h
  refine foldlM_invariant (fun s => s.kv = store.db) ?_ (insertAll_toList store.db) h
  intro s record s' hs hload
  obtain ⟨keys, -, hscore⟩ := bind_eq_ok.mp hload
  obtain ⟨score, -, hadd⟩ := bind_eq_ok.mp hscore
  obtain rfl := Except.ok.inj hadd
  exact hs

theorem inStep_iff (store : Storage) : InStep store ↔ store.kv = store.db := by
  constructor
  · exact fun h => h.1
  · intro h
    refine ⟨h, ?_⟩
    intro loaded hload key
    rw [Storage.getKv, restart_kv hload, Storage.getKv, h]

private theorem inStep_of_noConflict {calls : List Call} {events : List Event} {s₀ s : State}
    (h : InStep s₀.store) (hq₀ : Quiescent s₀) (hr : run (step calls) s₀ events = some s)
    (hm : Meets (step calls) (NoConflict calls) s₀ events) (hq : Quiescent s) : InStep s.store := by
  have hinv : Inv calls s :=
    run_invariant (Inv calls) (fun _ _ _ hi hc hs => inv_step hi hc hs) (inv_of_eq hq₀ h.1) hm hr
  exact (inStep_iff s.store).mpr (eq_of_inv hq hinv)

private theorem inStep_of_pairwise {calls : List Call} (h : calls.Pairwise Call.Compatible)
    {events : List Event} {s₀ s : State} (h₀ : InStep s₀.store) (hq₀ : Quiescent s₀)
    (hr : run (step calls) s₀ events = some s) (hq : Quiescent s) :
    InStep s.store := by
  have hinv : Inv calls s :=
    run_invariant_of_step (Inv calls)
      (fun _ _ _ hi hs => inv_step hi (noConflict_of_pairwise h hs) hs)
      (inv_of_eq hq₀ h₀.1) hr
  exact (inStep_iff s.store).mpr (eq_of_inv hq hinv)

/-- A run in which no call starts beside a conflicting one leaves memory and disk in step.
Every interleaving of the calls does so exactly when no two of them conflict. -/
theorem quiescent_plainKeys_inStep_iff (calls : List Call) :
    (∀ events s₀ s, InStep s₀.store → Quiescent s₀ → run (step calls) s₀ events = some s →
      Meets (step calls) (NoConflict calls) s₀ events → Quiescent s → InStep s.store) ∧
    ∀ store, InStep store →
      ((∀ events s, run (step calls) (State.start store) events = some s → Quiescent s →
        InStep s.store) ↔
        calls.Pairwise Call.Compatible) := by
  refine ⟨fun events s₀ s h hq₀ hr hm hq => inStep_of_noConflict h hq₀ hr hm hq, ?_⟩
  intro store hstore
  constructor
  · intro hall
    rw [pairwise_iff_of_ne (fun _ _ => Call.compatible_symm)]
    intro i j a b hi hj hne
    by_contra hconflict
    obtain ⟨events, s, hr, hq, hs⟩ := torn_of_conflict store hi hj hne hconflict
    exact hs (hall events s hr hq).1
  · intro hp events s hr hq
    exact inStep_of_pairwise hp hstore (quiescent_start store) hr hq

/-- An `insert_kv` that pauses before its last write, and a `remove_key` in between. -/
def crossedRun : Option State :=
  run (step [.insertKv [107] [118], .removeKey [107]]) (State.start Storage.new)
    [.start 0, .advance 0, .advance 0, .start 1, .advance 1, .advance 1, .advance 0]

/-- Queries find the key that both have written, and a restart loses it. -/
theorem quiescent_plainKeys_not_always_inStep : ∃ s, crossedRun = some s ∧ Quiescent s ∧
    s.store.getKv [107] = some [118] ∧
    s.store.restart.map (fun loaded => loaded.getKv [107]) = .ok none ∧
    ¬ InStep s.store := by
  refine ⟨_, rfl, ?_, by decide, by rfl, ?_⟩
  · intro i ws hi
    obtain rfl | rfl | hother : i = 0 ∨ i = 1 ∨ 2 ≤ i := by omega
    · exact (Option.some.inj hi).symm
    · exact (Option.some.inj hi).symm
    · have hfirst : i ≠ 0 := by omega
      have hsecond : i ≠ 1 := by omega
      simp [Function.update_of_ne hfirst, Function.update_of_ne hsecond, State.start] at hi
  · intro h
    have hkey := congrArg (fun m : ExtTreeMap Str Str => m[([107] : Str)]?) h.1
    revert hkey
    decide

end HCache.RustKvRaces
