import HCache.RustSortedSets

/-!
# Sorted sets across a restart

`zset_db` holds one record for each member, memory one entry for each sorted set. Loading
rebuilds the members from the records, whatever their order. `zadd` and `zrmv` edit both
sides; `del` and `add` drop a whole sorted set from memory and no record from disk.
-/
namespace HCache.RustDiskRecovery
open Std OrderedMaps SequentialMachines TwoIndexRelations RustStorage RustSortedSets

def scoreIn (s : Storage) (key value : Str) : Option UInt32 :=
  s.zsets[key]?.bind (fun z => z.valueToScore[value]?)

private theorem scoreIn_eq_members (s : Storage) (key value : Str) :
    scoreIn s key value = members (s.getOrInsertZset key) value := by
  unfold scoreIn Storage.getOrInsertZset
  cases s.zsets[key]? with
  | none => simp
  | some z => rfl

theorem scoreIn_insert {s s' : Storage} {key : Str} {z : ZSet}
    (h : s'.zsets = s.zsets.insert key z) (k v : Str) :
    scoreIn s' k v = if k = key then members z v else scoreIn s k v := by
  unfold scoreIn
  by_cases hk : k = key
  · simp [h, hk, members]
  · simp [h, lookup_insert, hk, Ne.symm hk]

private theorem scoreIn_erase {s s' : Storage} {key : Str} (h : s'.zsets = s.zsets.erase key)
    (k v : Str) :
    scoreIn s' k v = if k = key then none else scoreIn s k v := by
  unfold scoreIn
  by_cases hk : k = key
  · simp [h, hk]
  · simp [h, lookup_erase, hk, Ne.symm hk]

/-- Adding a member changes the score of that member only. -/
theorem scoreIn_zaddMemory {s s' : Storage} {key : Str} {sv : ScoreValue}
    (h : s'.zsets = (s.zaddMemory key sv).zsets) (k v : Str) :
    scoreIn s' k v = if k = key ∧ v = sv.value then some sv.score else scoreIn s k v := by
  rw [scoreIn_insert (h.trans (zaddMemory_zsets s key sv)), members_zaddMemory]
  by_cases hk : k = key
  · subst hk
    by_cases hv : v = sv.value
    · simp [hv]
    · simp [hv, put_of_ne hv, scoreIn_eq_members]
  · simp [hk]

structure Member where
  zkey : Str
  value : Str
  score : UInt32
  deriving DecidableEq, Repr

/-- The record that `zadd` writes for a member. -/
def Member.record (m : Member) : List UInt8 × List UInt8 :=
  (getZsetKey m.zkey m.value, toLeBytes m.score)

def addMember (s : Storage) (m : Member) : Storage := s.zaddMemory m.zkey ⟨m.score, m.value⟩

private theorem loadZsetRecord_record (s : Storage) {m : Member} (h : 0 ∉ m.zkey) :
    s.loadZsetRecord m.record = .ok (addMember s m) := by
  simp only [Storage.loadZsetRecord, Member.record, decodeZsetKey_getZsetKey h,
    fromLeBytes_toLeBytes]
  rfl

/-- Records of NUL-free sorted sets load without a panic, one `zadd_memory` each. -/
theorem load_records (s : Storage) {ms : List Member} (h : ∀ m ∈ ms, 0 ∉ m.zkey) :
    (ms.map Member.record).foldlM Storage.loadZsetRecord s = .ok (ms.foldl addMember s) := by
  induction ms generalizing s with
  | nil => rfl
  | cons m ms ih =>
    rw [List.map_cons, List.foldlM_cons, loadZsetRecord_record s (h m (by simp))]
    exact ih (addMember s m) (fun n hn => h n (by simp [hn]))

private theorem addMembers_fields (s : Storage) (ms : List Member) :
    (ms.foldl addMember s).kv = s.kv ∧ (ms.foldl addMember s).db = s.db ∧
      (ms.foldl addMember s).zsetDb = s.zsetDb := by
  induction ms generalizing s with
  | nil => exact ⟨rfl, rfl, rfl⟩
  | cons m ms ih => exact ih (addMember s m)

theorem allConsistent_addMembers {s : Storage} (h : AllConsistent s) (ms : List Member) :
    AllConsistent (ms.foldl addMember s) :=
  foldl_invariant AllConsistent (fun _ m hs => allConsistent_zaddMemory hs m.zkey _) h ms

theorem scoreIn_addMembers_of_notMem {s : Storage} {ms : List Member} {key value : Str}
    (h : ∀ m ∈ ms, ¬(m.zkey = key ∧ m.value = value)) :
    scoreIn (ms.foldl addMember s) key value = scoreIn s key value := by
  induction ms generalizing s with
  | nil => rfl
  | cons m ms ih =>
    have hm : ¬(key = m.zkey ∧ value = m.value) := fun he => h m (by simp) ⟨he.1.symm, he.2.symm⟩
    rw [List.foldl_cons, ih (fun n hn => h n (by simp [hn])), addMember,
      scoreIn_zaddMemory rfl, if_neg hm]

/-- Distinct members are all found afterwards, in whatever order they were added. -/
theorem scoreIn_addMembers_of_mem {s : Storage} {ms : List Member} {m : Member}
    (hd : ms.Pairwise (fun a b => ¬(a.zkey = b.zkey ∧ a.value = b.value))) (h : m ∈ ms) :
    scoreIn (ms.foldl addMember s) m.zkey m.value = some m.score := by
  induction ms generalizing s with
  | nil => simp at h
  | cons n ms ih =>
    rw [List.pairwise_cons] at hd
    rcases List.mem_cons.mp h with rfl | h
    · rw [List.foldl_cons, scoreIn_addMembers_of_notMem
        (fun a ha he => hd.1 a ha ⟨he.1.symm, he.2.symm⟩), addMember, scoreIn_zaddMemory rfl]
      simp
    · exact ih hd.2 h

theorem load_kv (s : Storage) (l : List (Str × Str)) :
    l.foldl Storage.loadKvRecord s = { s with kv := insertAll s.kv l } := by
  induction l generalizing s with
  | nil => rfl
  | cons e l ih => exact ih (s.loadKvRecord e)

/-- Every record was written for some member of a NUL-free sorted set, and only such
sorted sets are in memory. -/
structure DiskInvariant (s : Storage) : Prop where
  records : ∀ (r b : List UInt8), s.zsetDb[r]? = some b → ∃ m : Member, 0 ∉ m.zkey ∧
    (r, b) = m.record
  keys : ∀ key : Str, 0 ∈ key → s.zsets[key]? = none

def Mirrored (s : Storage) : Prop :=
  ∀ key value : Str, 0 ∉ key → s.zsetDb[getZsetKey key value]? = (scoreIn s key value).map toLeBytes

private theorem exists_members (l : List (List UInt8 × List UInt8))
    (h : ∀ e ∈ l, ∃ m : Member, 0 ∉ m.zkey ∧ e = m.record) :
    ∃ ms : List Member, (∀ m ∈ ms, 0 ∉ m.zkey) ∧ l = ms.map Member.record := by
  induction l with
  | nil => exact ⟨[], by simp, rfl⟩
  | cons e l ih =>
    obtain ⟨m, hm, rfl⟩ := h e (by simp)
    obtain ⟨ms, hms, rfl⟩ := ih (fun e he => h e (by simp [he]))
    refine ⟨m :: ms, ?_, rfl⟩
    simpa [hm] using hms

theorem DiskInvariant.exists_distinct {s : Storage} (h : DiskInvariant s) : ∃ ms : List Member,
    (∀ m ∈ ms, 0 ∉ m.zkey) ∧ s.zsetDb.toList = ms.map Member.record ∧
    ms.Pairwise (fun a b => ¬(a.zkey = b.zkey ∧ a.value = b.value)) := by
  obtain ⟨ms, hnul, hms⟩ := exists_members s.zsetDb.toList (fun e he =>
    h.records e.1 e.2 (ExtTreeMap.mem_toList_iff_getElem?_eq_some.mp he))
  refine ⟨ms, hnul, hms, ?_⟩
  have hkeys := distinct_keys_toList s.zsetDb
  rw [hms, List.pairwise_map] at hkeys
  refine hkeys.imp ?_
  rintro a b hab ⟨hk, hv⟩
  exact hab (by simp [Member.record, hk, hv])

private theorem lookup_record {db : ExtTreeMap (List UInt8) (List UInt8)} {ms : List Member}
    (hnul : ∀ m ∈ ms, 0 ∉ m.zkey) (hms : db.toList = ms.map Member.record) {key value : Str}
    (hkey : 0 ∉ key) {b : List UInt8} : db[getZsetKey key value]? = some b ↔
      ∃ m ∈ ms, (m.zkey = key ∧ m.value = value) ∧ toLeBytes m.score = b := by
  rw [← ExtTreeMap.mem_toList_iff_getElem?_eq_some, hms, List.mem_map]
  constructor
  · rintro ⟨m, hm, hrec⟩
    obtain ⟨hk, hb⟩ := Prod.mk.inj hrec
    exact ⟨m, hm, getZsetKey_inj (hnul m hm) hkey hk, hb⟩
  · rintro ⟨m, hm, ⟨rfl, rfl⟩, rfl⟩
    exact ⟨m, hm, rfl⟩

/-- Loading the records of distinct members gives exactly these members. -/
theorem scoreIn_loaded {s : Storage} {db : ExtTreeMap (List UInt8) (List UInt8)} {ms : List Member}
    (hnul : ∀ m ∈ ms, 0 ∉ m.zkey) (hms : db.toList = ms.map Member.record)
    (hdistinct : ms.Pairwise (fun a b => ¬(a.zkey = b.zkey ∧ a.value = b.value)))
    (hempty : ∀ key value, scoreIn s key value = none) {key : Str} (hkey : 0 ∉ key) (value : Str) :
    (scoreIn (ms.foldl addMember s) key value).map toLeBytes = db[getZsetKey key value]? := by
  cases hr : db[getZsetKey key value]? with
  | some b =>
    obtain ⟨m, hm, ⟨rfl, rfl⟩, rfl⟩ := (lookup_record hnul hms hkey).mp hr
    rw [scoreIn_addMembers_of_mem hdistinct hm]
    rfl
  | none =>
    have habs : ∀ m ∈ ms, ¬(m.zkey = key ∧ m.value = value) := by
      intro m hm he
      have hsome := (lookup_record hnul hms hkey).mpr ⟨m, hm, he, rfl⟩
      simp [hr] at hsome
    rw [scoreIn_addMembers_of_notMem habs, hempty]
    rfl

/-- A restart succeeds and finds exactly the members whose records are on disk. -/
theorem restart_spec {s : Storage} (h : DiskInvariant s) : ∃ s', s.restart = .ok s' ∧
    s'.kv = s.db ∧ AllConsistent s' ∧
    (∀ key value : Str, 0 ∉ key →
      (scoreIn s' key value).map toLeBytes = s.zsetDb[getZsetKey key value]?) ∧
    ∀ key value : Str, 0 ∈ key → scoreIn s' key value = none := by
  obtain ⟨ms, hnul, hms, hdistinct⟩ := h.exists_distinct
  let loaded : Storage := { s.reopen with kv := insertAll ∅ s.db.toList }
  have hempty : ∀ key value, scoreIn loaded key value = none := by
    intro key value
    simp [scoreIn, loaded, Storage.reopen]
  refine ⟨ms.foldl addMember loaded, ?_, ?_, ?_, ?_, ?_⟩
  · simp only [Storage.restart, Storage.loadFromDisk, load_kv]
    rw [← load_records loaded hnul, ← hms]
    rfl
  · rw [(addMembers_fields loaded ms).1]
    exact insertAll_toList s.db
  · refine allConsistent_addMembers ?_ ms
    intro key z hz
    simp [loaded, Storage.reopen] at hz
  · intro key value hkey
    exact scoreIn_loaded hnul hms hdistinct hempty hkey value
  · intro key value hkey
    rw [scoreIn_addMembers_of_notMem, hempty]
    rintro m hm ⟨rfl, -⟩
    exact hnul m hm hkey

/-- A restart succeeds and every sorted set has exactly the members it had in memory. -/
def SurvivesRestart (s : Storage) : Prop :=
  ∃ s', s.restart = .ok s' ∧ AllConsistent s' ∧
    ∀ key value : Str, scoreIn s' key value = scoreIn s key value

def NulFree : LocalOp → Prop
  | .zadd key _ => 0 ∉ key
  | _ => True

/-- No `del` or `add` on a key whose sorted set has a member. -/
def KeepsRecords (s : Storage) : LocalOp → Prop
  | .insertKv key _ | .del key => ∀ value : Str, scoreIn s key value = none
  | .batchInsertKv _ | .zadd _ _ | .zrmv _ _ => True

theorem toLeBytes_map_inj {a b : Option UInt32} (h : a.map toLeBytes = b.map toLeBytes) : a = b :=
  Option.map_injective (fun _ _ he => toLeBytes_inj he) h

private theorem survives_iff_mirrored {s : Storage} (h : DiskInvariant s) :
    SurvivesRestart s ↔ Mirrored s := by
  obtain ⟨s', hs', -, hcons, hrec, hnul⟩ := restart_spec h
  constructor
  · rintro ⟨t, ht, -, hsame⟩ key value hkey
    have heq : s' = t := Except.ok.inj (hs'.symm.trans ht)
    rw [← hrec key value hkey, heq, hsame]
  · intro hm
    refine ⟨s', hs', hcons, fun key value => ?_⟩
    by_cases hkey : 0 ∈ key
    · rw [hnul key value hkey, scoreIn, h.keys key hkey]
      rfl
    · exact toLeBytes_map_inj ((hrec key value hkey).trans (hm key value hkey))

private theorem diskInvariant_new : DiskInvariant Storage.new := by
  constructor
  · intro r b hb
    simp [Storage.new] at hb
  · intro key _
    simp [Storage.new]

private theorem mirrored_new : Mirrored Storage.new := by
  intro key value _
  simp [Storage.new, scoreIn]

theorem DiskInvariant.erase {s s' : Storage} (h : DiskInvariant s) {key : Str}
    (hz : s'.zsets = s.zsets.erase key) (hd : s'.zsetDb = s.zsetDb) : DiskInvariant s' := by
  refine ⟨fun r b hb => h.records r b (hd ▸ hb), fun k hk => ?_⟩
  rw [hz, lookup_erase]
  split
  · rfl
  · exact h.keys k hk

private theorem diskInvariant_apply {s : Storage} (h : DiskInvariant s) {op : LocalOp}
    (hop : NulFree op) :
    DiskInvariant (s.apply op) := by
  cases op with
  | insertKv key value => exact h.erase rfl rfl
  | batchInsertKv kvs => exact ⟨h.records, h.keys⟩
  | del key => exact h.erase rfl rfl
  | zadd key sv =>
    constructor
    · intro r b hb
      rw [Storage.apply, zadd_zsetDb, lookup_insert] at hb
      split at hb
      · next hr =>
        refine ⟨⟨key, sv.value, sv.score⟩, hop, ?_⟩
        rw [← hr, ← Option.some.inj hb]
        rfl
      · exact h.records r b hb
    · intro k hk
      have hne : key ≠ k := fun he => hop (he ▸ hk)
      simpa [Storage.apply, lookup_insert, hne] using h.keys k hk
  | zrmv key value =>
    rcases zrmv_cases s key value with ⟨heq, -⟩ | ⟨z, score, hz, -, heq⟩
    · rwa [Storage.apply, heq]
    · rw [Storage.apply, heq]
      constructor
      · intro r b hb
        rw [lookup_erase] at hb
        split at hb
        · simp at hb
        · exact h.records r b hb
      · intro k hk
        have hne : key ≠ k := by
          rintro rfl
          simp [h.keys key hk] at hz
        simpa [lookup_insert, hne] using h.keys k hk

/-- Dropping a whole sorted set from memory alone keeps the mirror exactly when it has no member. -/
theorem mirrored_erase_iff {s s' : Storage} (hd : DiskInvariant s) (hm : Mirrored s) {key : Str}
    (hz : s'.zsets = s.zsets.erase key) (hdb : s'.zsetDb = s.zsetDb) :
    Mirrored s' ↔ ∀ value : Str, scoreIn s key value = none := by
  constructor
  · intro h value
    by_cases hkey : 0 ∈ key
    · simp [scoreIn, hd.keys key hkey]
    · have hrec := h key value hkey
      rw [scoreIn_erase hz, if_pos rfl, hdb, hm key value hkey] at hrec
      exact toLeBytes_map_inj hrec
  · intro h k v hk
    rw [hdb, hm k v hk, scoreIn_erase hz]
    split
    · next he => rw [he, h v]
    · rfl

private theorem mirrored_zadd {s : Storage} (hm : Mirrored s) {key : Str} (hkey : 0 ∉ key)
    (sv : ScoreValue) :
    Mirrored (s.zadd key sv) := by
  intro k v hk
  rw [zadd_zsetDb, scoreIn_zaddMemory (zadd_zsets s key sv), lookup_insert]
  by_cases hkv : k = key ∧ v = sv.value
  · simp [hkv.1, hkv.2]
  · have hne : getZsetKey key sv.value ≠ getZsetKey k v := by
      intro he
      obtain ⟨h1, h2⟩ := getZsetKey_inj hkey hk he
      exact hkv ⟨h1.symm, h2.symm⟩
    simpa [hne, hkv] using hm k v hk

private theorem mirrored_zrmv {s : Storage} (hd : DiskInvariant s) (hm : Mirrored s)
    (key value : Str) :
    Mirrored (s.zrmv key value) := by
  rcases zrmv_cases s key value with ⟨heq, -⟩ | ⟨z, score, hz, -, heq⟩
  · rwa [heq]
  · have hkey : 0 ∉ key := fun hk => by simp [hd.keys key hk] at hz
    intro k v hk
    have hscore : scoreIn (s.zrmv key value) k v =
        if k = key then members (z.zrmv value score) v else scoreIn s k v :=
      scoreIn_insert (by rw [heq]) k v
    rw [hscore, heq, lookup_erase, members_zrmv]
    by_cases hkv : k = key ∧ v = value
    · simp [hkv.1, hkv.2]
    · have hne : getZsetKey key value ≠ getZsetKey k v := by
        intro he
        obtain ⟨h1, h2⟩ := getZsetKey_inj hkey hk he
        exact hkv ⟨h1.symm, h2.symm⟩
      rw [if_neg hne, hm k v hk]
      split
      · next he =>
        subst he
        have hv : v ≠ value := fun he => hkv ⟨rfl, he⟩
        simp [drop_of_ne hv, scoreIn, hz, members]
      · rfl

private theorem mirrored_apply_iff {s : Storage} (hd : DiskInvariant s) (hm : Mirrored s)
    {op : LocalOp} (hop : NulFree op) : Mirrored (s.apply op) ↔ KeepsRecords s op := by
  cases op with
  | insertKv key value => exact mirrored_erase_iff hd hm rfl rfl
  | batchInsertKv kvs => exact ⟨fun _ => trivial, fun _ => hm⟩
  | del key => exact mirrored_erase_iff hd hm rfl rfl
  | zadd key sv => exact ⟨fun _ => trivial, fun _ => mirrored_zadd hm hop sv⟩
  | zrmv key value => exact ⟨fun _ => trivial, fun _ => mirrored_zrmv hd hm key value⟩

/-- Along a run over NUL-free sorted sets, every state survives a restart exactly when no
`del` or `add` of the run hit a sorted set with members. -/
theorem sortedSets_survive_iff (ops : List LocalOp) (hnul : ∀ op ∈ ops, NulFree op) :
    AllStates Storage.apply SurvivesRestart Storage.new ops ↔
      AllSteps Storage.apply KeepsRecords Storage.new ops := by
  refine allStates_iff_allSteps DiskInvariant SurvivesRestart (fun _ op => NulFree op) KeepsRecords
    (fun _ _ h hop => diskInvariant_apply h hop) ?_ diskInvariant_new
    ((survives_iff_mirrored diskInvariant_new).mpr mirrored_new) (allSteps_const.mpr hnul)
  intro s op hd hs hop
  rw [survives_iff_mirrored (diskInvariant_apply hd hop)]
  exact mirrored_apply_iff hd ((survives_iff_mirrored hd).mp hs) hop

/-- A run that adds, moves and removes a member and then deletes the empty sorted set. -/
theorem sortedSets_survive_iff_emptied :
    let ops : List LocalOp :=
  [.zadd [122] ⟨1, [97]⟩, .zadd [122] ⟨2, [97]⟩, .zrmv [122] [97], .del [122]]
    AllStates Storage.apply SurvivesRestart Storage.new ops ↔
      AllSteps Storage.apply KeepsRecords Storage.new ops :=
  sortedSets_survive_iff [.zadd [122] ⟨1, [97]⟩, .zadd [122] ⟨2, [97]⟩,
    .zrmv [122] [97], .del [122]]
    (by simp [NulFree])

/-- A deleted sorted set comes back. -/
theorem sortedSets_not_always_survive : ¬ ∀ ops : List LocalOp, (∀ op ∈ ops, NulFree op) →
    AllStates Storage.apply SurvivesRestart Storage.new ops := by
  intro h
  have hrun := (h [.zadd [122] ⟨1, [97]⟩, .del [122]] (by simp [NulFree])).last
  obtain ⟨s', hs', -, hsame⟩ := hrun
  have hmem := hsame [122] [97]
  have hback :
      (([LocalOp.zadd [122] ⟨1, [97]⟩, .del [122]].foldl Storage.apply Storage.new).restart).map
      (fun s => scoreIn s [122] [97]) = .ok (some 1) := by decide
  rw [hs', Except.map, hmem] at hback
  revert hback
  decide

end HCache.RustDiskRecovery
