import HCache.InterleavedSystems
import HCache.LastWrites
import HCache.RustBulkLoad
import HCache.RustDiskRecovery

/-!
# Bulk loading against acknowledged client writes

One node with its loader threads, its client writes and its restarts. A loader thread puts
every record it owns without looking at what is stored, and every process loads anew, so a
loader turn is safe for a key that clients have written only if it repeats the last write.
-/
namespace HCache.RustLoaderRestarts
open Std OrderedMaps LastWrites InterleavedSystems RustStorage RustRouting RustBulkLoad

inductive LoadState where
  | init
  | loading
  | loaded
  deriving DecidableEq, Repr

/-- A loader thread: the pair it has loaded at its start, and the records to come. -/
structure Loader where
  config : Option (UInt64 × UInt32)
  records : List (Str × Str)
  deriving DecidableEq, Repr

inductive ClientOp where
  | add (key value : Str)
  | batch (kvs : List InsrtRequest)
  | del (key : Str)
  deriving DecidableEq, Repr

/-- One process over its databases; `last` records what the last acknowledged client
operation on a key has left, since the first process. -/
structure Process where
  storage : Storage
  loadState : LoadState
  loaders : List Loader
  last : Str → Option (Option Str)

inductive Event where
  | init
  | startLoader (i : ℕ) (count : UInt64) (me : UInt32)
  | turn (i : ℕ)
  | finishLoad
  | client (op : ClientOp)
  | restart
  deriving DecidableEq, Repr

def Process.start : Process := ⟨Storage.new, .init, [], fun _ => none⟩

def ClientOp.perform (s : Storage) : ClientOp → Storage
  | .add key value => s.insertKv key value
  | .batch kvs => s.batchInsertKv kvs
  | .del key => s.del key

def ClientOp.acknowledge (last : Str → Option (Option Str)) : ClientOp → Str → Option (Option Str)
  | .add key value => record last key (some value)
  | .batch kvs => recordAll last (kvs.map InsrtRequest.entry)
  | .del key => record last key none

/-- `dirs` are the databases of `INIT_DIRS`. Only the first `/init` of a process loads. A
thread loads `count` and `me`, whatever they are then, and takes its records in key order. -/
def step (dirs : List (ExtTreeMap Str Str)) (p : Process) : Event → Option Process
  | .init =>
    match p.loadState with
    | .init =>
      some { p with loadState := .loading, loaders := dirs.map (fun db => ⟨none, db.toList⟩) }
    | .loading | .loaded => some p
  | .startLoader i count me =>
    match p.loaders[i]? with
    | some ⟨none, records⟩ => some { p with loaders := p.loaders.set i ⟨some (count, me), records⟩ }
    | _ => none
  | .turn i =>
    match p.loaders[i]? with
    | some ⟨some (count, me), r :: records⟩ => some { p with
        storage := loadRecord count me p.storage r
        loaders := p.loaders.set i ⟨some (count, me), records⟩ }
    | _ => none
  | .finishLoad =>
    if p.loadState = .loading ∧ ∀ loader ∈ p.loaders, loader.records = [] then
      some { p with loadState := .loaded, loaders := [] }
    else none
  | .client op => some { p with storage := op.perform p.storage, last := op.acknowledge p.last }
  | .restart =>
    match p.storage.restart with
    | .ok s => some { p with storage := s, loadState := .init, loaders := [] }
    | .error _ => none

/-- Memory and database hold what the last acknowledged client operation has left. -/
def Intact (p : Process) : Prop := Agrees p.last p.storage.kv ∧ Agrees p.last p.storage.db

/-- The next record of a loader thread, if the thread owns it. -/
def nextWrite (p : Process) (i : ℕ) : Option (Str × Str) :=
  match p.loaders[i]? with
  | some ⟨some (count, me), r :: _⟩ =>
    if (getShard (sliceStream r.1) count).toUInt32 = me then some r else none
  | _ => none

/-- A loader turn does not write a key that clients have written, unless it repeats their
last write. -/
def UndoesNothing (p : Process) : Event → Prop
  | .turn i => ∀ key value, nextWrite p i = some (key, value) →
      ∀ entry, p.last key = some entry → entry = some value
  | _ => True

/-- What one event does. -/
theorem step_cases {dirs : List (ExtTreeMap Str Str)} {p p' : Process} {event : Event}
    (h : step dirs p event = some p') :
    (event = .init ∧ p' = p) ∨
    (event = .init ∧
      p' = { p with loadState := .loading, loaders := dirs.map (fun db => ⟨none, db.toList⟩) }) ∨
    (∃ i count me records, event = .startLoader i count me ∧ p.loaders[i]? = some ⟨none, records⟩ ∧
      p' = { p with loaders := p.loaders.set i ⟨some (count, me), records⟩ }) ∨
    (∃ i count me r records, event = .turn i ∧
      p.loaders[i]? = some ⟨some (count, me), r :: records⟩ ∧
      p' = { p with
        storage := loadRecord count me p.storage r
        loaders := p.loaders.set i ⟨some (count, me), records⟩ }) ∨
    (event = .finishLoad ∧ p' = { p with loadState := .loaded, loaders := [] }) ∨
    (∃ op, event = .client op ∧
      p' = { p with storage := op.perform p.storage, last := op.acknowledge p.last }) ∨
    ∃ s, event = .restart ∧ p.storage.restart = .ok s ∧
      p' = { p with storage := s, loadState := .init, loaders := [] } := by
  cases event with
  | init =>
    simp only [step] at h
    split at h
    · exact .inr (.inl ⟨rfl, (Option.some.inj h).symm⟩)
    · exact .inl ⟨rfl, (Option.some.inj h).symm⟩
    · exact .inl ⟨rfl, (Option.some.inj h).symm⟩
  | startLoader i count me =>
    simp only [step] at h
    split at h
    · next records hloader =>
      exact .inr (.inr (.inl ⟨i, count, me, records, rfl, hloader, (Option.some.inj h).symm⟩))
    · simp at h
  | turn i =>
    simp only [step] at h
    split at h
    · next count me r records hloader =>
      exact .inr (.inr (.inr (.inl ⟨i, count, me, r, records, rfl, hloader,
        (Option.some.inj h).symm⟩)))
    · simp at h
  | finishLoad =>
    simp only [step] at h
    split at h
    · exact .inr (.inr (.inr (.inr (.inl ⟨rfl, (Option.some.inj h).symm⟩))))
    · simp at h
  | client op =>
    exact .inr (.inr (.inr (.inr (.inr (.inl ⟨op, rfl, (Option.some.inj h).symm⟩)))))
  | restart =>
    simp only [step] at h
    split at h
    · next s hs =>
        exact .inr (.inr (.inr (.inr (.inr (.inr ⟨s, rfl, hs, (Option.some.inj h).symm⟩)))))
    · simp at h

/-- Without sorted-set records a restart loads the database of plain keys. -/
theorem restart_plain {s : Storage} (h : s.zsetDb = ∅) :
    s.restart = .ok { s with kv := s.db, zsets := ∅ } := by
  have hrecords : s.zsetDb.toList = [] := by simp [h]
  simp only [Storage.restart, Storage.loadFromDisk, RustDiskRecovery.load_kv, Storage.reopen,
    hrecords, insertAll_toList]
  rfl

private theorem loadRecord_zsetDb (count : UInt64) (me : UInt32) (s : Storage) (r : Str × Str) :
    (loadRecord count me s r).zsetDb = s.zsetDb := by
  rw [loadRecord]
  split <;> rfl

private theorem perform_zsetDb (s : Storage) (op : ClientOp) :
    (op.perform s).zsetDb = s.zsetDb := by
  cases op <;> rfl

theorem zsetDb_step {dirs : List (ExtTreeMap Str Str)} {p p' : Process} {event : Event}
    (h : p.storage.zsetDb = ∅) (hs : step dirs p event = some p') : p'.storage.zsetDb = ∅ := by
  rcases step_cases hs with ⟨-, rfl⟩ | ⟨-, rfl⟩ | ⟨i, count, me, records, -, -, rfl⟩ |
    ⟨i, count, me, r, records, -, -, rfl⟩ | ⟨-, rfl⟩ | ⟨op, -, rfl⟩ | ⟨s, -, hrestart, rfl⟩
  · exact h
  · exact h
  · exact h
  · exact (loadRecord_zsetDb count me p.storage r).trans h
  · exact h
  · exact (perform_zsetDb p.storage op).trans h
  · rw [restart_plain h] at hrestart
    obtain rfl := Except.ok.inj hrestart
    exact h

theorem Intact.client {p : Process} (h : Intact p) (op : ClientOp) :
    Intact { p with storage := op.perform p.storage, last := op.acknowledge p.last } := by
  obtain ⟨hkv, hdb⟩ := h
  cases op with
  | add key value => exact ⟨hkv.insert key value, hdb.insert key value⟩
  | batch kvs => exact ⟨hkv.insertAll _, hdb.insertAll _⟩
  | del key => exact ⟨hkv.erase key, hdb.erase key⟩

theorem Intact.loadRecord_iff {p : Process} (h : Intact p) {count : UInt64} {me : UInt32}
    {r : Str × Str} (ho : (getShard (sliceStream r.1) count).toUInt32 = me) :
    Agrees p.last (loadRecord count me p.storage r).kv ∧
    Agrees p.last (loadRecord count me p.storage r).db ↔
      ∀ entry, p.last r.1 = some entry → entry = some r.2 := by
  have hkv := h.1.insert_iff r.1 r.2
  have hdb := h.2.insert_iff r.1 r.2
  simp only [loadRecord, ho, if_true]
  rw [hkv, hdb, and_self]

/-- A loader turn keeps client writes intact exactly when it undoes none. -/
theorem Intact.turn_iff {p : Process} (h : Intact p) {i : ℕ} {count : UInt64} {me : UInt32}
    {r : Str × Str} {records : List (Str × Str)}
    (hloader : p.loaders[i]? = some ⟨some (count, me), r :: records⟩) :
    Agrees p.last (loadRecord count me p.storage r).kv ∧
    Agrees p.last (loadRecord count me p.storage r).db ↔
      UndoesNothing p (.turn i) := by
  rcases eq_or_ne (getShard (sliceStream r.1) count).toUInt32 me with ho | ho
  · have hnext : nextWrite p i = some r := by simp only [nextWrite, hloader, ho, if_true]
    rw [h.loadRecord_iff ho]
    simp only [UndoesNothing, hnext, Option.some.injEq]
    constructor
    · rintro hrepeat key value rfl
      exact hrepeat
    · intro hrepeat
      exact hrepeat r.1 r.2 rfl
  · have hnext : nextWrite p i = none := by simp only [nextWrite, hloader, ho, if_false]
    have hsame : loadRecord count me p.storage r = p.storage := if_neg ho
    rw [hsame]
    exact iff_of_true h (by simp [UndoesNothing, hnext])

/-- An event keeps client writes intact exactly when it is no loader turn that undoes one. -/
theorem Intact.step_iff {dirs : List (ExtTreeMap Str Str)} {p p' : Process} {event : Event}
    (hi : Intact p) (h : p.storage.zsetDb = ∅) (hs : step dirs p event = some p') :
    Intact p' ↔ UndoesNothing p event := by
  rcases step_cases hs with ⟨rfl, rfl⟩ | ⟨rfl, rfl⟩ | ⟨i, count, me, records, rfl, -, rfl⟩ |
    ⟨i, count, me, r, records, rfl, hloader, rfl⟩ | ⟨rfl, rfl⟩ | ⟨op, rfl, rfl⟩ |
    ⟨s, rfl, hrestart, rfl⟩
  · exact iff_of_true hi trivial
  · exact iff_of_true hi trivial
  · exact iff_of_true hi trivial
  · exact hi.turn_iff hloader
  · exact iff_of_true hi trivial
  · exact iff_of_true (hi.client op) trivial
  · rw [restart_plain h] at hrestart
    obtain rfl := Except.ok.inj hrestart
    exact iff_of_true ⟨hi.2, hi.2⟩ trivial

theorem intact_start : Intact Process.start := by
  constructor <;> simp [Agrees, Process.start]

private theorem intact_always_iff (dirs : List (ExtTreeMap Str Str)) {events : List Event}
    {p : Process} (hr : run (step dirs) Process.start events = some p) :
    (∀ events' p', events' <+: events → run (step dirs) Process.start events' = some p' →
      Intact p') ↔
      Meets (step dirs) UndoesNothing Process.start events := by
  apply always_iff_meets (fun p => p.storage.zsetDb = ∅) Intact UndoesNothing
    (fun _ _ _ h hs => zsetDb_step h hs) (fun _ _ _ h hi hs => hi.step_iff h hs) rfl intact_start hr

/-- A delete before the load is undone by the first record of any directory. -/
theorem exists_undone {dirs : List (ExtTreeMap Str Str)} {i : ℕ} {db : ExtTreeMap Str Str}
    {r : Str × Str} {records : List (Str × Str)} (hi : dirs[i]? = some db)
    (hdb : db.toList = r :: records) :
    ∃ p, run (step dirs) Process.start [.client (.del r.1), .init, .startLoader i 0 0, .turn i] =
      some p ∧
      ¬ Intact p := by
  have hlt : i < dirs.length := (List.getElem?_eq_some_iff.mp hi).1
  let deleted : Process := ⟨Storage.new.del r.1, .init, [], record (fun _ => none) r.1 none⟩
  let waiting : List Loader := dirs.map (fun db => ⟨none, db.toList⟩)
  have hwaiting : waiting[i]? = some ⟨none, r :: records⟩ := by simp [waiting, hi, hdb]
  let started : List Loader := waiting.set i ⟨some (0, 0), r :: records⟩
  have hstarted : started[i]? = some ⟨some (0, 0), r :: records⟩ := by simp [started, waiting, hlt]
  have hdel : step dirs Process.start (.client (.del r.1)) = some deleted := rfl
  have hinit : step dirs deleted .init =
    some { deleted with loadState := .loading, loaders := waiting } := rfl
  have hstart :
      step dirs { deleted with loadState := .loading, loaders := waiting } (.startLoader i 0 0) =
      some { deleted with loadState := .loading, loaders := started } := by
    simp only [step, hwaiting, started]
  refine ⟨{ deleted with
    storage := loadRecord 0 0 deleted.storage r
    loadState := .loading
    loaders := started.set i ⟨some (0, 0), records⟩ }, ?_, ?_⟩
  · refine run_cons_eq_some.mpr
      ⟨_, hdel, run_cons_eq_some.mpr ⟨_, hinit, run_cons_eq_some.mpr ⟨_, hstart, ?_⟩⟩⟩
    simp only [run, step, hstarted, Option.bind_some]
  · intro h
    have hkv := h.1 r.1 none (by simp [deleted, record])
    simp [loadRecord] at hkv

private theorem noRecords_step {dirs : List (ExtTreeMap Str Str)} (hdirs : ∀ db ∈ dirs, db = ∅)
    {p p' : Process} {event : Event} (h : ∀ loader ∈ p.loaders, loader.records = [])
    (hs : step dirs p event = some p') :
    (∀ loader ∈ p'.loaders, loader.records = []) ∧ UndoesNothing p event := by
  rcases step_cases hs with ⟨rfl, rfl⟩ | ⟨rfl, rfl⟩ | ⟨i, count, me, records, rfl, hloader, rfl⟩ |
    ⟨i, count, me, r, records, rfl, hloader, rfl⟩ | ⟨rfl, rfl⟩ | ⟨op, rfl, rfl⟩ | ⟨s, rfl, -, rfl⟩
  · exact ⟨h, trivial⟩
  · refine ⟨?_, trivial⟩
    intro loader hloader
    obtain ⟨db, hdb, rfl⟩ := List.mem_map.mp hloader
    simp [hdirs db hdb]
  · have hrecords : records = [] := h _ (List.mem_of_getElem? hloader)
    refine ⟨?_, trivial⟩
    intro loader hmem
    rcases List.mem_or_eq_of_mem_set hmem with hold | rfl
    · exact h loader hold
    · exact hrecords
  · have hrecords := h _ (List.mem_of_getElem? hloader)
    simp at hrecords
  · exact ⟨by simp, trivial⟩
  · exact ⟨h, trivial⟩
  · exact ⟨by simp, trivial⟩

private theorem intact_of_noRecords {dirs : List (ExtTreeMap Str Str)} (hdirs : ∀ db ∈ dirs, db = ∅)
    {events : List Event} {p : Process} (hr : run (step dirs) Process.start events = some p) :
    Intact p := by
  have hstep : ∀ (q : Process) event q', (q.storage.zsetDb = ∅ ∧ Intact q ∧ ∀ loader ∈ q.loaders,
      loader.records = []) →
      step dirs q event = some q' → q'.storage.zsetDb = ∅ ∧ Intact q' ∧
      ∀ loader ∈ q'.loaders, loader.records = [] := by
    rintro q event q' ⟨hz, hi, hloaders⟩ hs
    obtain ⟨hloaders', hnothing⟩ := noRecords_step hdirs hloaders hs
    exact ⟨zsetDb_step hz hs, (hi.step_iff hz hs).mpr hnothing, hloaders'⟩
  exact (run_invariant_of_step _ hstep ⟨rfl, intact_start, by simp [Process.start]⟩ hr).2.1

/-- Client writes stay intact in all runs exactly when there is nothing to load. They stay
intact along a run exactly when no loader turn writes a key that clients have written, unless
it repeats their last write. -/
theorem clientWrites_intact_iff (dirs : List (ExtTreeMap Str Str)) :
    ((∀ events p, run (step dirs) Process.start events = some p → Intact p) ↔ ∀ db ∈ dirs, db = ∅) ∧
    ∀ events p, run (step dirs) Process.start events = some p →
      ((∀ events' p', events' <+: events → run (step dirs) Process.start events' = some p' →
        Intact p') ↔
        Meets (step dirs) UndoesNothing Process.start events) := by
  refine ⟨⟨?_, ?_⟩, fun events p hr => intact_always_iff dirs hr⟩
  · intro hall db hdb
    obtain ⟨i, hi⟩ := List.mem_iff_getElem?.mp hdb
    cases hrecords : db.toList with
    | nil =>
      apply ExtTreeMap.ext_getElem?
      intro k
      have habs : ∀ v, db[k]? ≠ some v := by
        intro v hv
        have hin := ExtTreeMap.mem_toList_iff_getElem?_eq_some.mpr hv
        simp [hrecords] at hin
      rw [Option.eq_none_iff_forall_ne_some.mpr habs]
      simp
    | cons r records =>
      obtain ⟨p, hr, hbroken⟩ := exists_undone hi hrecords
      exact absurd (hall _ p hr) hbroken
  · intro hdirs events p hr
    exact intact_of_noRecords hdirs hr

/-- A record that was loaded and then deleted by a client is back after a restart. -/
theorem clientWrites_not_always_intact : ∃ p,
    run (step [(∅ : ExtTreeMap Str Str).insert [97] [105]]) Process.start
      [.init, .startLoader 0 0 0, .turn 0, .finishLoad, .client (.del [97]), .restart,
        .init, .startLoader 0 0 0, .turn 0] = some p ∧
    p.last [97] = some none ∧ p.storage.kv[([97] : Str)]? = some [105] ∧ ¬ Intact p := by
  have hrun : (run (step [(∅ : ExtTreeMap Str Str).insert [97] [105]]) Process.start
      [.init, .startLoader 0 0 0, .turn 0, .finishLoad, .client (.del [97]), .restart,
        .init, .startLoader 0 0 0, .turn 0]).map (fun p =>
          (p.last [97], p.storage.kv[([97] : Str)]?)) =
      some (some none, some [105]) := by decide
  obtain ⟨p, hr, hp⟩ := Option.map_eq_some_iff.mp hrun
  obtain ⟨hlast, hkv⟩ := Prod.mk.inj hp
  refine ⟨p, hr, hlast, hkv, ?_⟩
  intro hi
  have hnone := hi.1 [97] none hlast
  simp [hkv] at hnone

end HCache.RustLoaderRestarts
