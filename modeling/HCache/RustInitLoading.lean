import HCache.RustLoaderRestarts

/-!
# The `/init` calls of one process

Any number of `handle_init` calls around one flag. The call whose `compare_exchange` succeeds
spawns a loader thread; that opens the databases of `INIT_DIRS`, spawns a worker for each one
that opens, joins the workers and sets the flag. A database that does not open has no worker,
and nothing waits for its records.
-/
namespace HCache.RustInitLoading
open Std OrderedMaps InterleavedSystems RustStorage RustRouting RustBulkLoad
open RustLoaderRestarts (LoadState)

/-- What a directory of `INIT_DIRS` holds, and whether opening it succeeds. -/
structure InitDir where
  records : ExtTreeMap Str Str
  opens : Bool

inductive Answer where
  | ok
  | loading
  deriving DecidableEq, Repr

/-- A `handle_init` call: before its `compare_exchange`, between that and its `load`, and after. -/
inductive Caller where
  | entered
  | compared
  | answered (answer : Answer)
  deriving DecidableEq, Repr

/-- A loader thread: the directories that it has not yet tried, and what is left to each
worker that it has spawned and not yet joined. -/
structure Loader where
  initPaths : List InitDir
  ssts : List (List (Str × Str))
  finished : Bool

/-- `inserted` are the records that have been put into `db` and `kv`, in their order. -/
structure State where
  loadState : LoadState
  loaders : List Loader
  callers : ℕ → Option Caller
  storage : Storage
  inserted : List (Str × Str)

inductive Event where
  | call (i : ℕ)
  | compareExchange (i : ℕ)
  | load (i : ℕ)
  | openNext (k : ℕ)
  | turn (k i : ℕ)
  | join (k : ℕ)
  | store (k : ℕ)
  deriving DecidableEq, Repr

def State.start (storage : Storage) : State := ⟨.init, [], fun _ => none, storage, []⟩

/-- The databases that `INIT_DIRS` names, when it is set. -/
def named (initDirs : Option (List InitDir)) : List InitDir := initDirs.getD []

def Loader.spawn (initDirs : Option (List InitDir)) : Loader := ⟨named initDirs, [], false⟩

/-- The worker of a database that opens; `filter_map` drops the others. -/
def InitDir.sst (dir : InitDir) : List (List (Str × Str)) :=
  if dir.opens then [dir.records.toList] else []

def Owned (count : UInt64) (me : UInt32) (key : Str) : Prop :=
  (getShard (sliceStream key) count).toUInt32 = me

instance (count : UInt64) (me : UInt32) (key : Str) : Decidable (Owned count me key) :=
  inferInstanceAs (Decidable (_ = _))

def State.answer (s : State) : Answer := if s.loadState = .loaded then .ok else .loading

/-- The calls and the loader threads in any order; `count` and `me` are those in force. A turn
puts one record into `db` and `kv`. -/
def step (count : UInt64) (me : UInt32) (initDirs : Option (List InitDir)) (s : State) :
    Event → Option State
  | .call i =>
    match s.callers i with
    | none => some { s with callers := Function.update s.callers i (some .entered) }
    | _ => none
  | .compareExchange i =>
    match s.callers i with
    | some .entered =>
      if s.loadState = .init then some { s with
        loadState := .loading
        loaders := s.loaders ++ [Loader.spawn initDirs]
        callers := Function.update s.callers i (some .compared) }
      else some { s with callers := Function.update s.callers i (some .compared) }
    | _ => none
  | .load i =>
    match s.callers i with
    | some .compared =>
      some { s with callers := Function.update s.callers i (some (.answered s.answer)) }
    | _ => none
  | .openNext k =>
    match s.loaders[k]? with
    | some ⟨dir :: dirs, ssts, finished⟩ =>
      some { s with loaders := s.loaders.set k ⟨dirs, ssts ++ dir.sst, finished⟩ }
    | _ => none
  | .turn k i =>
    match s.loaders[k]? with
    | some l =>
      match l.ssts[i]? with
      | some (r :: records) => some { s with
          loaders := s.loaders.set k { l with ssts := l.ssts.set i records }
          storage := loadRecord count me s.storage r
          inserted := if Owned count me r.1 then s.inserted ++ [r] else s.inserted }
      | _ => none
    | none => none
  | .join k =>
    match s.loaders[k]? with
    | some ⟨[], [] :: ssts, finished⟩ =>
      some { s with loaders := s.loaders.set k ⟨[], ssts, finished⟩ }
    | _ => none
  | .store k =>
    match s.loaders[k]? with
    | some ⟨[], [], false⟩ =>
      some { s with loadState := .loaded, loaders := s.loaders.set k ⟨[], [], true⟩ }
    | _ => none

def Moves (a b : LoadState) : Prop :=
  b = a ∨ (a = .init ∧ b = .loading) ∨ (a = .loading ∧ b = .loaded)

/-- Once a call has answered `ok`, the owned records of every named database are in. -/
def OkOnlyWhenLoaded (count : UInt64) (me : UInt32) (initDirs : Option (List InitDir)) (s : State) :
    Prop :=
  ∀ i, s.callers i = some (.answered .ok) → ∀ dir ∈ named initDirs, ∀ key value, dir.records[key]? =
    some value →
    Owned count me key → (key, value) ∈ s.inserted

variable {count : UInt64} {me : UInt32} {initDirs : Option (List InitDir)} {s s' : State}

inductive CallStep (initDirs : Option (List InitDir)) (s : State) : State → Prop
  | call {i : ℕ} (h : s.callers i = none) :
      CallStep initDirs s { s with callers := Function.update s.callers i (some .entered) }
  | spawn {i : ℕ} (h : s.loadState = .init) : CallStep initDirs s { s with
      loadState := .loading
      loaders := s.loaders ++ [Loader.spawn initDirs]
      callers := Function.update s.callers i (some .compared) }
  | compare {i : ℕ} (h : s.loadState ≠ .init) :
      CallStep initDirs s { s with callers := Function.update s.callers i (some .compared) }
  | load
      {i : ℕ} : CallStep initDirs s { s
        with callers := Function.update s.callers i (some (.answered s.answer)) }

/-- The events of loader `k`. -/
inductive LoaderStep (count : UInt64) (me : UInt32) (s : State) (k : ℕ) : State → Prop
  | openNext {dir : InitDir} {dirs : List InitDir} {ssts : List (List (Str × Str))}
      {finished : Bool}
      (h : s.loaders[k]? = some ⟨dir :: dirs, ssts, finished⟩) :
      LoaderStep count me s k { s
        with loaders := s.loaders.set k ⟨dirs, ssts ++ dir.sst, finished⟩ }
  | turn {l : Loader} {i : ℕ} {r : Str × Str} {records : List (Str × Str)}
      (h : s.loaders[k]? = some l)
      (hi : l.ssts[i]? = some (r :: records)) : LoaderStep count me s k { s with
        loaders := s.loaders.set k { l with ssts := l.ssts.set i records }
        storage := loadRecord count me s.storage r
        inserted := if Owned count me r.1 then s.inserted ++ [r] else s.inserted }
  | join {ssts : List (List (Str × Str))} {finished : Bool}
      (h : s.loaders[k]? = some ⟨[], [] :: ssts, finished⟩) :
      LoaderStep count me s k { s with loaders := s.loaders.set k ⟨[], ssts, finished⟩ }
  | store (h : s.loaders[k]? = some ⟨[], [], false⟩) :
      LoaderStep count me s k
        { s with loadState := .loaded, loaders := s.loaders.set k ⟨[], [], true⟩ }

theorem step_cases {event : Event} (h : step count me initDirs s event = some s') :
    CallStep initDirs s s' ∨ ∃ k, LoaderStep count me s k s' := by
  cases event with
  | call i =>
    simp only [step] at h
    split at h
    · next hi =>
      obtain rfl := Option.some.inj h
      exact .inl (.call hi)
    · simp at h
  | compareExchange i =>
    simp only [step] at h
    split at h
    · split at h
      · next hinit =>
        obtain rfl := Option.some.inj h
        exact .inl (.spawn hinit)
      · next hinit =>
        obtain rfl := Option.some.inj h
        exact .inl (.compare hinit)
    · simp at h
  | load i =>
    simp only [step] at h
    split at h
    · obtain rfl := Option.some.inj h
      exact .inl .load
    · simp at h
  | openNext k =>
    simp only [step] at h
    split at h
    · next hk =>
      obtain rfl := Option.some.inj h
      exact .inr ⟨k, .openNext hk⟩
    · simp at h
  | turn k i =>
    simp only [step] at h
    split at h
    · next hk =>
      split at h
      · next hi =>
        obtain rfl := Option.some.inj h
        exact .inr ⟨k, .turn hk hi⟩
      · simp at h
    · simp at h
  | join k =>
    simp only [step] at h
    split at h
    · next hk =>
      obtain rfl := Option.some.inj h
      exact .inr ⟨k, .join hk⟩
    · simp at h
  | store k =>
    simp only [step] at h
    split at h
    · next hk =>
      obtain rfl := Option.some.inj h
      exact .inr ⟨k, .store hk⟩
    · simp at h

/-- The records that a loader thread and its workers still have before them. -/
def Loader.waiting (l : Loader) : List (Str × Str) :=
  (l.ssts ++ l.initPaths.flatMap InitDir.sst).flatten

def ownedOf (count : UInt64) (me : UInt32) (records : List (Str × Str)) : List (Str × Str) :=
  records.filter (fun r => Owned count me r.1)

/-- Before the first `compare_exchange`, and after it: one loader thread, whose owned records
are in or still before it, and none before it once it has set the flag. -/
inductive Phase (count : UInt64) (me : UInt32) (initDirs : Option (List InitDir)) : State → Prop
  | before {s : State} (hstate : s.loadState = .init) (hloaders : s.loaders = [])
      (hinserted : s.inserted = []) :
      Phase count me initDirs s
  | during {s : State} {l : Loader} (hstate : s.loadState = .loading) (hloaders : s.loaders = [l])
      (hfinished : l.finished = false) (hperm : (s.inserted ++ ownedOf count me l.waiting).Perm
        (ownedOf count me (Loader.spawn initDirs).waiting)) : Phase count me initDirs s
  | after {s : State} (hstate : s.loadState = .loaded) (hloaders : s.loaders = [⟨[], [], true⟩])
      (hperm : s.inserted.Perm (ownedOf count me (Loader.spawn initDirs).waiting)) : Phase count
        me initDirs s

structure Inv (count : UInt64) (me : UInt32) (initDirs : Option (List InitDir)) (storage : Storage)
    (s : State) : Prop where
  phase : Phase count me initDirs s
  answered : ∀ i, s.callers i = some (.answered .ok) → s.loadState = .loaded
  stored : s.storage =
    { storage with kv := insertAll storage.kv s.inserted, db := insertAll storage.db s.inserted }

private theorem inv_start (storage : Storage) :
    Inv count me initDirs storage (State.start storage) := by
  refine ⟨.before rfl rfl rfl, ?_, rfl⟩
  intro i hi
  simp [State.start] at hi

private theorem flatten_set_perm {ws : List (List (Str × Str))} {i : ℕ} {r : Str × Str}
    {records : List (Str × Str)} (h : ws[i]? = some (r :: records)) :
    ws.flatten.Perm (r :: (ws.set i records).flatten) := by
  induction ws generalizing i with
  | nil => simp at h
  | cons w ws ih =>
    cases i with
    | zero =>
      obtain rfl : w = r :: records := by simpa using h
      simp
    | succ i =>
      have htail := (ih (by simpa using h)).append_left w
      simp only [List.set_cons_succ, List.flatten_cons]
      exact htail.trans List.perm_middle

private theorem waiting_turn {l : Loader} {i : ℕ} {r : Str × Str} {records : List (Str × Str)}
    (h : l.ssts[i]? = some (r :: records)) :
    l.waiting.Perm (r :: Loader.waiting { l with ssts := l.ssts.set i records }) := by
  simp only [Loader.waiting, List.flatten_append]
  exact (flatten_set_perm h).append_right _

private theorem inserted_turn {inserted : List (Str × Str)} {l : Loader} {i : ℕ} {r : Str × Str}
    {records : List (Str × Str)} (h : l.ssts[i]? = some (r :: records)) :
    ((if Owned count me r.1 then inserted ++ [r] else inserted) ++
      ownedOf count me (Loader.waiting { l with ssts := l.ssts.set i records })).Perm
        (inserted ++ ownedOf count me l.waiting) := by
  have hfilter := (waiting_turn h).filter (fun r => Owned count me r.1)
  by_cases ho : Owned count me r.1
  · rw [List.filter_cons_of_pos (by simpa using ho)] at hfilter
    rw [if_pos ho, List.append_assoc]
    exact (hfilter.append_left inserted).symm
  · rw [List.filter_cons_of_neg (by simpa using ho)] at hfilter
    rw [if_neg ho]
    exact (hfilter.append_left inserted).symm

private theorem stored_turn {storage : Storage} {inserted : List (Str × Str)} (r : Str × Str) :
    loadRecord count me
      { storage with kv := insertAll storage.kv inserted, db := insertAll storage.db inserted } r =
      { storage with
        kv := insertAll storage.kv (if Owned count me r.1 then inserted ++ [r] else inserted)
        db :=
          insertAll storage.db (if Owned count me r.1 then inserted ++ [r] else inserted) } := by
  by_cases ho : Owned count me r.1
  · have hr : (getShard (sliceStream r.1) count).toUInt32 = me := ho
    simp [loadRecord, hr, if_pos ho, insertAll]
  · have hr : ¬ (getShard (sliceStream r.1) count).toUInt32 = me := ho
    simp [loadRecord, hr, if_neg ho]

theorem Phase.callStep (h : Phase count me initDirs s) (hs : CallStep initDirs s s') :
    Phase count me initDirs s' := by
  cases hs with
  | spawn hinit =>
    cases h with
    | before hstate hloaders hinserted =>
      exact .during rfl (by rw [hloaders]; rfl) rfl (by rw [hinserted]; exact List.Perm.refl _)
    | during hstate _ _ _ => simp [hstate] at hinit
    | after hstate _ _ => simp [hstate] at hinit
  | _ =>
    cases h with
    | before hstate hloaders hinserted => exact .before hstate hloaders hinserted
    | during hstate hloaders hfinished hperm => exact .during hstate hloaders hfinished hperm
    | after hstate hloaders hperm => exact .after hstate hloaders hperm

theorem loader_eq {l l' : Loader} {k : ℕ} (h : s.loaders = [l]) (hk : s.loaders[k]? = some l') :
    k = 0 ∧ l = l' := by
  rw [h, List.getElem?_singleton] at hk
  split at hk
  · next hzero => exact ⟨hzero, Option.some.inj hk⟩
  · simp at hk

private theorem set_loader {l : Loader} (h : s.loaders = [l]) (l' : Loader) :
    s.loaders.set 0 l' = [l'] := by
  rw [h]
  rfl

theorem Phase.loaderStep (h : Phase count me initDirs s) {k : ℕ} (hs : LoaderStep count me s k s') :
    Phase count me initDirs s' := by
  cases h with
  | before hstate hloaders hinserted => cases hs <;> simp_all
  | during hstate hloaders hfinished hperm =>
    cases hs with
    | openNext hk =>
      obtain ⟨rfl, rfl⟩ := loader_eq hloaders hk
      refine .during hstate (set_loader hloaders _) hfinished ?_
      simpa [Loader.waiting] using hperm
    | turn hk hi =>
      obtain ⟨rfl, rfl⟩ := loader_eq hloaders hk
      exact .during hstate (set_loader hloaders _) hfinished ((inserted_turn hi).trans hperm)
    | join hk =>
      obtain ⟨rfl, rfl⟩ := loader_eq hloaders hk
      refine .during hstate (set_loader hloaders _) hfinished ?_
      simpa [Loader.waiting] using hperm
    | store hk =>
      obtain ⟨rfl, rfl⟩ := loader_eq hloaders hk
      refine .after rfl (set_loader hloaders _) ?_
      simpa [Loader.waiting, ownedOf] using hperm
  | after hstate hloaders hperm =>
    cases hs with
    | openNext hk => simpa using (loader_eq hloaders hk).2
    | turn hk hi =>
      obtain ⟨-, rfl⟩ := loader_eq hloaders hk
      simp at hi
    | join hk => simpa using (loader_eq hloaders hk).2
    | store hk => simpa using (loader_eq hloaders hk).2

private theorem answered_update {callers : ℕ → Option Caller} {i j : ℕ} {c : Caller}
    (h : Function.update callers j (some c) i = some (.answered .ok)) :
    c = .answered .ok ∨ callers i = some (.answered .ok) := by
  rcases update_eq_some_cases h with ⟨-, hc⟩ | ⟨-, hold⟩
  · exact .inl hc.symm
  · exact .inr hold

private theorem inv_step {storage : Storage} (h : Inv count me initDirs storage s) {event : Event}
    (hs : step count me initDirs s event = some s') : Inv count me initDirs storage s' := by
  rcases step_cases hs with hcall | ⟨k, hloader⟩
  · refine ⟨h.phase.callStep hcall, ?_, ?_⟩
    · intro i hi
      cases hcall with
      | call =>
        rcases answered_update hi with hc | hi
        · simp at hc
        · exact h.answered i hi
      | spawn hinit =>
        rcases answered_update hi with hc | hi
        · simp at hc
        · simp [h.answered i hi] at hinit
      | compare =>
        rcases answered_update hi with hc | hi
        · simp at hc
        · exact h.answered i hi
      | load =>
        rcases answered_update hi with hc | hi
        · simpa [State.answer] using hc
        · exact h.answered i hi
    · cases hcall <;> exact h.stored
  · refine ⟨h.phase.loaderStep hloader, ?_, ?_⟩
    · intro i hi
      cases hloader with
      | store => rfl
      | _ => exact h.answered i hi
    · cases hloader with
      | turn hk hi =>
        simp only [h.stored]
        exact stored_turn _
      | _ => exact h.stored

theorem Phase.moves (h : Phase count me initDirs s) {event : Event}
    (hs : step count me initDirs s event = some s') :
    Moves s.loadState s'.loadState := by
  rcases step_cases hs with hcall | ⟨k, hloader⟩
  · cases hcall with
    | spawn hinit => exact .inr (.inl ⟨hinit, rfl⟩)
    | _ => exact .inl rfl
  · cases hloader with
    | store hk =>
      cases h with
      | before _ hloaders _ => simp [hloaders] at hk
      | during hstate _ _ _ => exact .inr (.inr ⟨hstate, rfl⟩)
      | after _ hloaders _ => simpa using (loader_eq hloaders hk).2
    | _ => exact .inl rfl

theorem Phase.length_loaders (h : Phase count me initDirs s) : s.loaders.length ≤ 1 := by
  cases h with
  | before _ hloaders _ => simp [hloaders]
  | during _ hloaders _ _ => simp [hloaders]
  | after _ hloaders _ => simp [hloaders]

private theorem mem_waiting_spawn {r : Str × Str} :
    r ∈ (Loader.spawn initDirs).waiting ↔ ∃ dir ∈ named initDirs, dir.opens = true ∧
      r ∈ dir.records.toList := by
  simp only [Loader.waiting, Loader.spawn, List.nil_append, List.mem_flatten, List.mem_flatMap,
    InitDir.sst]
  constructor
  · rintro ⟨records, ⟨dir, hdir, hrecords⟩, hr⟩
    split at hrecords
    · next hopens =>
      obtain rfl := List.mem_singleton.mp hrecords
      exact ⟨dir, hdir, hopens, hr⟩
    · simp at hrecords
  · rintro ⟨dir, hdir, hopens, hr⟩
    exact ⟨dir.records.toList, ⟨dir, hdir, by simp [hopens]⟩, hr⟩

/-- Once the flag is set, the owned records of the databases that opened are in, and no others. -/
theorem Phase.mem_inserted (h : Phase count me initDirs s) (hs : s.loadState = .loaded)
    (key value : Str) :
    (key, value) ∈ s.inserted ↔ Owned count me key ∧
      ∃ dir ∈ named initDirs, dir.opens = true ∧ dir.records[key]? = some value := by
  cases h with
  | before hstate _ _ => simp [hstate] at hs
  | during hstate _ _ _ => simp [hstate] at hs
  | after _ _ hperm =>
    rw [hperm.mem_iff, ownedOf, List.mem_filter, mem_waiting_spawn]
    simp only [ExtTreeMap.mem_toList_iff_getElem?_eq_some, decide_eq_true_eq]
    exact and_comm

variable (count me initDirs)

/-- A loader thread on its way can go on until it has tried every directory. -/
theorem run_opens {dirs : List InitDir} {ssts : List (List (Str × Str))}
    (h : s.loaders = [⟨dirs, ssts, false⟩]) :
    ∃ events t, run (step count me initDirs) s events = some t ∧ t.callers = s.callers ∧
      ∃ ssts', t.loaders = [⟨[], ssts', false⟩] := by
  induction dirs generalizing s ssts with
  | nil => exact ⟨[], s, rfl, rfl, ssts, h⟩
  | cons dir dirs ih =>
    let opened : State := { s with loaders := [⟨dirs, ssts ++ dir.sst, false⟩] }
    have hopened : step count me initDirs s (.openNext 0) = some opened := by simp [step, h, opened]
    obtain ⟨events, t, hr, hcallers, hloaders⟩ := ih (s := opened) rfl
    exact ⟨.openNext 0 :: events, t, run_cons_eq_some.mpr ⟨opened, hopened, hr⟩, hcallers, hloaders⟩

private theorem run_turns {records : List (Str × Str)} {ssts : List (List (Str × Str))}
    (h : s.loaders = [⟨[], records :: ssts, false⟩]) :
    ∃ events t, run (step count me initDirs) s events = some t ∧ t.callers = s.callers ∧
      t.loaders = [⟨[], ssts, false⟩] := by
  induction records generalizing s with
  | nil =>
    let joined : State := { s with loaders := [⟨[], ssts, false⟩] }
    have hjoined : step count me initDirs s (.join 0) = some joined := by simp [step, h, joined]
    exact ⟨[.join 0], joined, run_cons_eq_some.mpr ⟨joined, hjoined, rfl⟩, rfl, rfl⟩
  | cons r records ih =>
    let turned : State := { s with
      loaders := [⟨[], records :: ssts, false⟩]
      storage := loadRecord count me s.storage r
      inserted := if Owned count me r.1 then s.inserted ++ [r] else s.inserted }
    have hturned : step count me initDirs s (.turn 0 0) = some turned := by simp [step, h, turned]
    obtain ⟨events, t, hr, hcallers, hloaders⟩ := ih (s := turned) rfl
    exact ⟨.turn 0 0 :: events, t, run_cons_eq_some.mpr ⟨turned, hturned, hr⟩, hcallers, hloaders⟩

private theorem run_joins {ssts : List (List (Str × Str))} (h : s.loaders = [⟨[], ssts, false⟩]) :
    ∃ events t, run (step count me initDirs) s events = some t ∧ t.callers = s.callers ∧
      t.loaders = [⟨[], [], false⟩] := by
  induction ssts generalizing s with
  | nil => exact ⟨[], s, rfl, rfl, h⟩
  | cons records ssts ih =>
    obtain ⟨events, t, hr, hcallers, hloaders⟩ := run_turns count me initDirs h
    obtain ⟨events', t', hr', hcallers', hloaders'⟩ := ih hloaders
    exact ⟨events ++ events', t', run_append_eq_some.mpr ⟨t, hr, hr'⟩,
      hcallers'.trans hcallers, hloaders'⟩

/-- Whatever opens, some run ends in an answer `ok`. -/
theorem exists_ok (count : UInt64) (me : UInt32) (initDirs : Option (List InitDir))
    (storage : Storage) :
    ∃ events s, run (step count me initDirs) (State.start storage) events = some s ∧
      s.callers 0 = some (.answered .ok) := by
  let spawned : State := { State.start storage with
    loadState := .loading
    loaders := [Loader.spawn initDirs]
    callers := Function.update (fun _ => none) 0 (some .compared) }
  have hspawned : run (step count me initDirs) (State.start storage) [.call 0, .compareExchange 0] =
      some spawned := by
    simp [run, step, State.start, spawned]
  obtain ⟨opens, t, hopens, hcallers, ssts, hloaders⟩ :=
    run_opens count me initDirs (s := spawned) rfl
  obtain ⟨joins, u, hjoins, hcallers', hloaders'⟩ := run_joins count me initDirs hloaders
  have hcompared : u.callers 0 = some .compared := by
    rw [hcallers', hcallers]
    rfl
  let answered : State := { u with
    loadState := .loaded
    loaders := [⟨[], [], true⟩]
    callers := Function.update u.callers 0 (some (.answered .ok)) }
  have hanswered : run (step count me initDirs) u [.store 0, .load 0] = some answered := by
    simp [run, step, hloaders', hcompared, State.answer, answered]
  refine ⟨[.call 0, .compareExchange 0] ++ (opens ++ (joins ++ [.store 0, .load 0])),
    answered, ?_, ?_⟩
  · refine run_append_eq_some.mpr ⟨spawned, hspawned, run_append_eq_some.mpr ⟨t, hopens, ?_⟩⟩
    exact run_append_eq_some.mpr ⟨u, hjoins, hanswered⟩
  · exact Function.update_self 0 _ u.callers

/-- At most one loader thread is spawned, the flag only moves on, and the store holds what the
loader has put over what was there. The answer `ok` comes only after the owned records of
every named database exactly when a database that opens has each owned record of those that
do not. -/
theorem ok_onlyWhenLoaded_iff (count : UInt64) (me : UInt32) (initDirs : Option (List InitDir))
    (storage : Storage) :
    (∀ events s, run (step count me initDirs) (State.start storage) events = some s →
      s.loaders.length ≤ 1 ∧
      (∀ event s', step count me initDirs s event = some s' → Moves s.loadState s'.loadState) ∧
      s.storage = { storage with
        kv := insertAll storage.kv s.inserted, db := insertAll storage.db s.inserted }) ∧
    ((∀ events s, run (step count me initDirs) (State.start storage) events = some s →
      OkOnlyWhenLoaded count me initDirs s) ↔
      ∀ dir ∈ named initDirs, dir.opens = false → ∀ key value, dir.records[key]? = some value →
      Owned count me key →
        ∃ dir' ∈ named initDirs, dir'.opens = true ∧ dir'.records[key]? = some value) := by
  have hinv : ∀ events s, run (step count me initDirs) (State.start storage) events = some s →
      Inv count me initDirs storage s := fun events s hr =>
    run_invariant_of_step (Inv count me initDirs storage) (fun _ _ _ h hs => inv_step h hs)
      (inv_start storage) hr
  refine ⟨?_, ?_, ?_⟩
  · intro events s hr
    have h := hinv events s hr
    exact ⟨h.phase.length_loaders, fun event s' hs => h.phase.moves hs, h.stored⟩
  · intro hall dir hdir _ key value hrecord howned
    obtain ⟨events, s, hr, hok⟩ := exists_ok count me initDirs storage
    have h := hinv events s hr
    have hin := hall events s hr 0 hok dir hdir key value hrecord howned
    exact ((h.phase.mem_inserted (h.answered 0 hok) key value).mp hin).2
  · intro hcond events s hr i hok dir hdir key value hrecord howned
    have h := hinv events s hr
    rw [h.phase.mem_inserted (h.answered i hok)]
    refine ⟨howned, ?_⟩
    cases hopens : dir.opens with
    | true => exact ⟨dir, hdir, hopens, hrecord⟩
    | false => exact hcond dir hdir hopens key value hrecord howned

/-- On a node without peers, one database with one record, and it does not open. -/
theorem ok_not_onlyWhenLoaded :
    ∃ s, run (step 0 0 (some [⟨(∅ : ExtTreeMap Str Str).insert [107] [118], false⟩]))
      (State.start Storage.new)
      [.call 0, .compareExchange 0, .openNext 0, .store 0, .load 0] = some s ∧
      s.callers 0 = some (.answered .ok) ∧ s.storage = Storage.new ∧
      ¬ OkOnlyWhenLoaded 0 0 (some [⟨(∅ : ExtTreeMap Str Str).insert [107] [118], false⟩]) s := by
  refine ⟨_, rfl, rfl, rfl, ?_⟩
  intro h
  have hin := h 0 rfl _ (List.mem_singleton.mpr rfl) [107] [118] (by simp) rfl
  simp [State.start] at hin

end HCache.RustInitLoading
