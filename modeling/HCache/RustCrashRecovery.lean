import HCache.InterleavedSystems
import HCache.RustKvRaces
import HCache.UnsyncedWrites

/-!
# Crashes of a Rust server

`main` writes both databases without a write-ahead log, and a thread flushes them in turn. A
crash leaves of each what has reached the disk until then, not of both at the same moment, and
the next process loads that. Plain keys are then what the surviving operations have left;
sorted sets are what they would be had the process restarted after theirs.
-/
namespace HCache.RustCrashRecovery
open Std OrderedMaps SequentialMachines InterleavedSystems UnsyncedWrites RustStorage
open RustDiskRecovery (load_kv)
open RustKvRaces (restart_kv)

/-- One process; `storage` has the databases as they are read. -/
structure Process where
  storage : Storage
  db : Versions (ExtTreeMap Str Str)
  zsetDb : Versions (ExtTreeMap (List UInt8) (List UInt8))

inductive Event where
  | op (op : LocalOp)
  | flush
  | flushZset
  | sync (n : ℕ)
  | syncZset (n : ℕ)
  | crash
  deriving DecidableEq, Repr

def Process.start : Process := ⟨Storage.new, .start ∅, .start ∅⟩

/-- A `WriteBatch` is one write. A database that the operation does not write stays as it is. -/
def Process.perform (p : Process) (op : LocalOp) : Process :=
  let s := p.storage.apply op
  ⟨s, p.db.write s.db, p.zsetDb.write s.zsetDb⟩

def Process.onDisk (p : Process) : Storage :=
  { p.storage with db := p.db.disk, zsetDb := p.zsetDb.disk }

/-- The flush thread flushes `db`, then `zset_db`; writes also reach the disk when RocksDB
flushes a full memtable. -/
def step (p : Process) : Event → Option Process
  | .op op => some (p.perform op)
  | .flush => some { p with db := p.db.flush }
  | .flushZset => some { p with zsetDb := p.zsetDb.flush }
  | .sync n => some { p with db := p.db.sync n }
  | .syncZset n => some { p with zsetDb := p.zsetDb.sync n }
  | .crash =>
    match p.onDisk.restart with
    | .ok s => some ⟨s, p.db.lose, p.zsetDb.lose⟩
    | .error _ => none

def replay (ops : List LocalOp) : Storage := ops.foldl Storage.apply Storage.new

inductive CleanStep where
  | op (op : LocalOp)
  | restart
  deriving DecidableEq, Repr

def cleanStep (s : Storage) : CleanStep → Except Panic Storage
  | .op op => .ok (s.apply op)
  | .restart => s.restart

def cleanRun (steps : List CleanStep) : Except Panic Storage := steps.foldlM cleanStep Storage.new

/-- The operations whose writes to `db` have survived. -/
def plainStep (l : Log LocalOp) : Event → Log LocalOp
  | .op op => l.write op
  | .flush => l.flush
  | .sync n => l.sync n
  | .crash => l.lose
  | .flushZset | .syncZset _ => l

/-- Those whose writes to `zset_db` have survived, and the crashes as restarts after them. -/
def setStep (l : Log CleanStep) : Event → Log CleanStep
  | .op op => l.write (.op op)
  | .flushZset => l.flush
  | .syncZset n => l.sync n
  | .crash => ⟨l.disk ++ [.restart], []⟩
  | .flush | .sync _ => l

def plainLog (events : List Event) : Log LocalOp := events.foldl plainStep .start

def setLog (events : List Event) : Log CleanStep := events.foldl setStep .start

def Event.performed : Event → Option LocalOp
  | .op o => some o
  | _ => none

def CleanStep.performed : CleanStep → Option LocalOp
  | .op o => some o
  | .restart => none

private theorem plainStep_sublist (l : Log LocalOp) (event : Event) :
    (plainStep l event).all.Sublist (l.all ++ event.performed.toList) := by
  cases event with
  | crash => simpa [plainStep, Event.performed] using l.disk_prefix.sublist
  | _ => simp [plainStep, Event.performed]

private theorem setStep_sublist (l : Log CleanStep) (event : Event) :
    ((setStep l event).all.filterMap CleanStep.performed).Sublist
      (l.all.filterMap CleanStep.performed ++ event.performed.toList) := by
  cases event with
  | op op => simp [setStep, Event.performed, CleanStep.performed]
  | crash => simp [setStep, Log.all, Event.performed, CleanStep.performed]
  | _ => simp [setStep, Event.performed]

theorem filterMap_performed_cons (event : Event) (events : List Event) :
    (event :: events).filterMap Event.performed =
      event.performed.toList ++ events.filterMap Event.performed := by
  cases h : event.performed <;> simp [h]

private theorem plainLog_sublist (l : Log LocalOp) (events : List Event) :
    (events.foldl plainStep l).all.Sublist (l.all ++ events.filterMap Event.performed) := by
  induction events generalizing l with
  | nil => simp
  | cons event events ih =>
    rw [filterMap_performed_cons, ← List.append_assoc]
    exact (ih (plainStep l event)).trans ((plainStep_sublist l event).append_right _)

private theorem setLog_sublist (l : Log CleanStep) (events : List Event) :
    ((events.foldl setStep l).all.filterMap CleanStep.performed).Sublist
      (l.all.filterMap CleanStep.performed ++ events.filterMap Event.performed) := by
  induction events generalizing l with
  | nil => simp
  | cons event events ih =>
    rw [filterMap_performed_cons, ← List.append_assoc]
    exact (ih (setStep l event)).trans ((setStep_sublist l event).append_right _)

private theorem plainStep_disk (l : Log LocalOp) (event : Event) :
    l.disk <+: (plainStep l event).disk := by
  cases event with
  | sync n => exact l.disk_sync_prefix n
  | flush => exact l.disk_sync_prefix _
  | _ => exact List.prefix_rfl

private theorem setStep_disk (l : Log CleanStep) (event : Event) :
    l.disk <+: (setStep l event).disk := by
  cases event with
  | syncZset n => exact l.disk_sync_prefix n
  | flushZset => exact l.disk_sync_prefix _
  | crash => exact List.prefix_append _ _
  | _ => exact List.prefix_rfl

private theorem plainLog_disk (l : Log LocalOp) (events : List Event) :
    l.disk <+: (events.foldl plainStep l).disk := by
  induction events generalizing l with
  | nil => exact List.prefix_rfl
  | cons event events ih => exact (plainStep_disk l event).trans (ih _)

private theorem setLog_disk (l : Log CleanStep) (events : List Event) :
    l.disk <+: (events.foldl setStep l).disk := by
  induction events generalizing l with
  | nil => exact List.prefix_rfl
  | cons event events ih => exact (setStep_disk l event).trans (ih _)

private theorem plainLog_flush (before after : List Event) :
    (plainLog before).all <+: (plainLog (before ++ .flush :: after)).all := by
  have hgrows := plainLog_disk (plainLog before).flush after
  rw [Log.disk_flush] at hgrows
  rw [plainLog, plainLog, List.foldl_append]
  exact hgrows.trans (Log.disk_prefix _)

private theorem setLog_flush (before after : List Event) :
    (setLog before).all <+: (setLog (before ++ .flushZset :: after)).all := by
  have hgrows := setLog_disk (setLog before).flush after
  rw [Log.disk_flush] at hgrows
  rw [setLog, setLog, List.foldl_append]
  exact hgrows.trans (Log.disk_prefix _)

structure SamePlain (s t : Storage) : Prop where
  kv : s.kv = t.kv
  db : s.db = t.db

structure SameSets (s t : Storage) : Prop where
  zsets : s.zsets = t.zsets
  zsetDb : s.zsetDb = t.zsetDb

variable {s s' t : Storage}

theorem SamePlain.apply (h : SamePlain s t) (op : LocalOp) :
    SamePlain (s.apply op) (t.apply op) := by
  obtain ⟨hkv, hdb⟩ := h
  cases op <;> constructor <;> simp [Storage.apply, hkv, hdb]

private theorem replay_kv_eq_db (ops : List LocalOp) : (replay ops).kv = (replay ops).db := by
  refine foldl_invariant (fun s : Storage => s.kv = s.db) ?_ rfl ops
  intro s op h
  cases op <;> simp [Storage.apply, h]

theorem SameSets.apply (h : SameSets s t) (op : LocalOp) : SameSets (s.apply op) (t.apply op) := by
  obtain ⟨hz, hd⟩ := h
  cases op with
  | zrmv key value =>
    simp only [Storage.apply, Storage.zrmv, hz]
    cases t.zsets[key]? with
    | none => exact ⟨hz, hd⟩
    | some z =>
      cases hscore : z.valueToScore[value]? with
      | none =>
        simp only [hscore]
        exact ⟨hz, hd⟩
      | some score =>
        simp only [hscore]
        exact ⟨rfl, by rw [hd]⟩
  | zadd key sv => constructor <;> simp [Storage.apply, Storage.getOrInsertZset, hz, hd]
  | insertKv key value => constructor <;> simp [Storage.apply, hz, hd]
  | batchInsertKv kvs => constructor <;> simp [Storage.apply, hz, hd]
  | del key => constructor <;> simp [Storage.apply, hz, hd]

/-- Every record has a key that can be split, and four bytes. -/
def Readable (s : Storage) : Prop :=
  ∀ (r b : List UInt8), s.zsetDb[r]? = some b → 0 ∈ r ∧ b.length = 4

/-- What `load_from_disk` does for the records that it finds. -/
def addRecords (s : Storage) (added : List (Str × ScoreValue)) : Storage :=
  added.foldl (fun s m => s.zaddMemory m.1 m.2) s

private theorem loadZsetRecord_ok {record : List UInt8 × List UInt8} (hkey : 0 ∈ record.1)
    (hscore : record.2.length = 4) :
    ∃ zkey sv, ∀ s : Storage, s.loadZsetRecord record = .ok (s.zaddMemory zkey sv) := by
  obtain ⟨r, b⟩ := record
  obtain ⟨zkey, value, rfl, hnul⟩ := List.eq_append_cons_of_mem hkey
  have hdecode : decodeZsetKey (zkey ++ 0 :: value) = .ok (zkey, value) :=
    decodeZsetKey_getZsetKey hnul value
  obtain ⟨score, hload⟩ : ∃ score, fromLeBytes b = .ok score := by
    match b, hscore with
    | [_, _, _, _], _ => exact ⟨_, rfl⟩
  refine ⟨zkey, ⟨score, value⟩, fun s => ?_⟩
  simp only [Storage.loadZsetRecord, hdecode, hload]
  rfl

/-- Readable records are loaded, in the same way whatever plain keys there are. -/
theorem loadZsetRecords_ok (l : List (List UInt8 × List UInt8))
    (h : ∀ record ∈ l, 0 ∈ record.1 ∧ record.2.length = 4) :
    ∃ added, ∀ s : Storage, l.foldlM Storage.loadZsetRecord s = .ok (addRecords s added) := by
  induction l with
  | nil => exact ⟨[], fun _ => rfl⟩
  | cons record l ih =>
    obtain ⟨zkey, sv, hfirst⟩ := loadZsetRecord_ok (h record (by simp)).1 (h record (by simp)).2
    obtain ⟨added, hrest⟩ := ih (fun r hr => h r (by simp [hr]))
    refine ⟨(zkey, sv) :: added, fun s => ?_⟩
    rw [List.foldlM_cons, hfirst]
    exact hrest _

private theorem addRecords_fields (added : List (Str × ScoreValue)) :
    (addRecords s added).kv = s.kv ∧ (addRecords s added).db = s.db ∧ (addRecords s added).zsetDb =
      s.zsetDb := by
  refine foldl_invariant (fun s' : Storage => s'.kv = s.kv ∧ s'.db = s.db ∧ s'.zsetDb = s.zsetDb) ?_
    ⟨rfl, rfl, rfl⟩ added
  intro s' m h
  exact h

private theorem addRecords_zsets (h : s.zsets = t.zsets) (added : List (Str × ScoreValue)) :
    (addRecords s added).zsets = (addRecords t added).zsets := by
  induction added generalizing s t with
  | nil => exact h
  | cons m added ih => exact ih (by simp [Storage.getOrInsertZset, h])

def withPlainKeys (s : Storage) : Storage := { s.reopen with kv := insertAll ∅ s.db.toList }

/-- A process over readable records always comes up, with the plain keys of its database and the
sorted sets that any process over these records has. -/
theorem restart_ok (h : Readable s) :
    ∃ s', s.restart = .ok s' ∧ s'.kv = s.db ∧ s'.db = s.db ∧ s'.zsetDb = s.zsetDb ∧
    ∀ t t' : Storage, t.zsetDb = s.zsetDb → t.restart = .ok t' → SameSets s' t' := by
  obtain ⟨added, hload⟩ := loadZsetRecords_ok s.zsetDb.toList (fun record hrecord =>
    h record.1 record.2 (ExtTreeMap.mem_toList_iff_getElem?_eq_some.mp hrecord))
  have hrestart : ∀ t : Storage, t.zsetDb = s.zsetDb →
      t.restart = .ok (addRecords (withPlainKeys t) added) := by
    intro t ht
    simp only [Storage.restart, Storage.loadFromDisk, load_kv]
    rw [← hload]
    simp only [withPlainKeys, Storage.reopen, ht]
  have hs := hrestart s rfl
  obtain ⟨-, hdb, hzset⟩ := addRecords_fields (s := withPlainKeys s) added
  refine ⟨_, hs, restart_kv hs, hdb, hzset, fun t t' ht ht' => ?_⟩
  obtain rfl := Except.ok.inj ((hrestart t ht).symm.trans ht')
  obtain ⟨-, -, hzset'⟩ := addRecords_fields (s := withPlainKeys t) added
  have hempty : (withPlainKeys s).zsets = (withPlainKeys t).zsets := rfl
  exact ⟨addRecords_zsets hempty added, hzset.trans (ht.symm.trans hzset'.symm)⟩

private theorem readable_new : Readable Storage.new := by
  intro r b hb
  simp [Storage.new] at hb

theorem Readable.apply (h : Readable s) (op : LocalOp) : Readable (s.apply op) := by
  cases op with
  | zadd key sv =>
    intro r b hb
    rw [Storage.apply, zadd_zsetDb, lookup_insert] at hb
    split at hb
    · next hr =>
      obtain rfl := Option.some.inj hb
      exact ⟨hr ▸ by simp [getZsetKey], rfl⟩
    · exact h r b hb
  | zrmv key value =>
    rcases zrmv_cases s key value with ⟨heq, -⟩ | ⟨z, score, -, -, heq⟩
    · rwa [Storage.apply, heq]
    · intro r b hb
      rw [Storage.apply, heq, lookup_erase] at hb
      split at hb
      · simp at hb
      · exact h r b hb
  | insertKv key value => exact h
  | batchInsertKv kvs => exact h
  | del key => exact h

theorem cleanRun_concat {steps : List CleanStep} {s : Storage} (h : cleanRun steps = .ok s)
    (last : CleanStep) :
    cleanRun (steps ++ [last]) = cleanStep s last := by
  rw [cleanRun, List.foldlM_append, show steps.foldlM cleanStep Storage.new = .ok s from h]
  exact bind_pure (cleanStep s last)

private theorem cleanRun_ok (steps : List CleanStep) :
    ∃ s, cleanRun steps = .ok s ∧ Readable s := by
  induction steps using List.reverseRecOn with
  | nil => exact ⟨Storage.new, rfl, readable_new⟩
  | append_singleton steps last ih =>
    obtain ⟨s, hs, hreadable⟩ := ih
    have hlast := cleanRun_concat hs last
    cases last with
    | op op => exact ⟨s.apply op, hlast, hreadable.apply op⟩
    | restart =>
      obtain ⟨s', hs', -, -, hzset, -⟩ := restart_ok hreadable
      exact ⟨s', hlast.trans hs', by rwa [Readable, hzset]⟩

def recordsAfter (steps : List CleanStep) : ExtTreeMap (List UInt8) (List UInt8) :=
  match cleanRun steps with
  | .ok s => s.zsetDb
  | .error _ => ∅

theorem recordsAfter_eq {steps : List CleanStep} {s : Storage} (h : cleanRun steps = .ok s) :
    recordsAfter steps = s.zsetDb := by
  rw [recordsAfter, h]

/-- Memory holds what has survived and what has come since; the databases hold that, too, and on
disk what has survived. -/
structure Inv (p : Process) (plain : Log LocalOp) (sets : Log CleanStep) : Prop where
  samePlain : SamePlain p.storage (replay plain.all)
  db : Tracks (fun ops => (replay ops).db) p.db plain
  sameSets : ∃ z, cleanRun sets.all = .ok z ∧ SameSets p.storage z
  zsetDb : Tracks recordsAfter p.zsetDb sets

variable {p : Process} {plain : Log LocalOp} {sets : Log CleanStep}

private theorem inv_start : Inv .start .start .start where
  samePlain := ⟨rfl, rfl⟩
  db := tracks_start _
  sameSets := ⟨Storage.new, rfl, rfl, rfl⟩
  zsetDb := tracks_start _

theorem Inv.perform (h : Inv p plain sets) (op : LocalOp) :
    Inv (p.perform op) (plain.write op) (sets.write (.op op)) := by
  obtain ⟨z, hz, hsame⟩ := h.sameSets
  have hreplay : replay (plain.all ++ [op]) = (replay plain.all).apply op := by simp [replay]
  have hclean : cleanRun (sets.all ++ [.op op]) = .ok (z.apply op) := cleanRun_concat hz (.op op)
  have hplain := h.samePlain.apply op
  have hsets := hsame.apply op
  constructor
  · rw [Log.all_write, hreplay]
    exact hplain
  · refine h.db.write ?_
    rw [hreplay]
    exact hplain.db
  · rw [Log.all_write]
    exact ⟨_, hclean, hsets⟩
  · refine h.zsetDb.write ?_
    rw [recordsAfter_eq hclean]
    exact hsets.zsetDb

theorem Inv.crash (h : Inv p plain sets) : ∃ p', step p .crash = some p' ∧
    Inv p' plain.lose ⟨sets.disk ++ [.restart], []⟩ := by
  obtain ⟨z, hz, hreadable⟩ := cleanRun_ok sets.disk
  have hrecords : p.onDisk.zsetDb = z.zsetDb := h.zsetDb.disk.trans (recordsAfter_eq hz)
  have hdb : p.onDisk.db = (replay plain.disk).db := h.db.disk
  obtain ⟨s, hs, hkv, hsdb, hszset, -⟩ := restart_ok (s := p.onDisk) (by rwa [Readable, hrecords])
  obtain ⟨z', hz', -, -, hzset', hsame⟩ := restart_ok hreadable
  have hclean : cleanRun (sets.disk ++ [.restart]) = .ok z' :=
    (cleanRun_concat hz .restart).trans hz'
  have hsets := hsame p.onDisk s hrecords hs
  refine ⟨⟨s, p.db.lose, p.zsetDb.lose⟩, by simp only [step, hs], ?_⟩
  constructor
  · rw [Log.all_lose]
    exact ⟨hkv.trans (hdb.trans (replay_kv_eq_db plain.disk).symm), hsdb.trans hdb⟩
  · exact h.db.lose
  · exact ⟨z', by simpa [Log.all] using hclean, hsets.zsets.symm, hsets.zsetDb.symm⟩
  · refine h.zsetDb.lose_write ?_
    rw [recordsAfter_eq hclean, recordsAfter_eq hz, hzset']

theorem Inv.step (h : Inv p plain sets) (event : Event) :
    ∃ p', RustCrashRecovery.step p event = some p' ∧
    Inv p' (plainStep plain event) (setStep sets event) := by
  cases event with
  | op op => exact ⟨_, rfl, h.perform op⟩
  | flush =>
    exact ⟨_, rfl, { h with samePlain := by simpa [plainStep] using h.samePlain, db := h.db.flush }⟩
  | flushZset =>
    exact ⟨_, rfl,
      { h with sameSets := by simpa [setStep] using h.sameSets, zsetDb := h.zsetDb.flush }⟩
  | sync n =>
    exact ⟨_, rfl,
      { h with samePlain := by simpa [plainStep] using h.samePlain, db := h.db.sync n }⟩
  | syncZset n =>
    exact ⟨_, rfl,
      { h with sameSets := by simpa [setStep] using h.sameSets, zsetDb := h.zsetDb.sync n }⟩
  | crash => exact h.crash

theorem Inv.run (h : Inv p plain sets) (events : List Event) :
    ∃ p', run RustCrashRecovery.step p events = some p' ∧
    Inv p' (events.foldl plainStep plain) (events.foldl setStep sets) := by
  induction events generalizing p plain sets with
  | nil => exact ⟨p, rfl, h⟩
  | cons event events ih =>
    obtain ⟨p₁, hp₁, h₁⟩ := h.step event
    obtain ⟨p', hp', h'⟩ := ih h₁
    exact ⟨p', run_cons_eq_some.mpr ⟨p₁, hp₁, hp'⟩, h'⟩

/-- A server comes up after every crash. However often it crashes, its plain keys are what some of
its operations have left, and its sorted sets are what some of them have left on a server that
restarts where this one crashes; and what has been performed before a flush survives. -/
theorem crashes_lose_only_unflushed (events : List Event) :
    (∃ p z, run step .start events = some p ∧ p.storage.kv = (replay (plainLog events).all).kv ∧
      cleanRun (setLog events).all = .ok z ∧ p.storage.zsets = z.zsets) ∧
    (plainLog events).all.Sublist (events.filterMap Event.performed) ∧
    ((setLog events).all.filterMap CleanStep.performed).Sublist (events.filterMap Event.performed) ∧
    (∀ before after, events = before ++ .flush :: after →
      (plainLog before).all <+: (plainLog events).all) ∧
    ∀ before after, events = before ++ .flushZset :: after →
    (setLog before).all <+: (setLog events).all := by
  obtain ⟨p, hp, h⟩ := inv_start.run events
  obtain ⟨z, hz, hsame⟩ := h.sameSets
  refine ⟨⟨p, z, hp, h.samePlain.kv, hz, hsame.zsets⟩, plainLog_sublist .start events,
    setLog_sublist .start events, ?_, ?_⟩
  · rintro before after rfl
    exact plainLog_flush before after
  · rintro before after rfl
    exact setLog_flush before after

/-- A sorted set that has been emptied and made a plain key is both after a crash between the
flushes. -/
example :
    (run step .start [.op (.zadd [122] ⟨1, [97]⟩), .flush, .flushZset, .op (.zrmv [122] [97]),
      .op (.insertKv [122] [98]),
    .flush, .crash]).map (fun p => (p.storage.getKv [122], p.storage.zsets.isEmpty)) =
      some (some [98], false) := by
  decide

end HCache.RustCrashRecovery
