import HCache.RustDiskRecovery
import Mathlib.Data.List.Perm.Basic

/-!
# The records of sorted sets lose nothing

A collection of members with NUL-free sorted-set keys and pairwise distinct pairs of key and
value, written to `zset_db` and read back. The records have distinct keys and decode to
their members; loading them in any order builds exactly the collection.
-/
namespace HCache.RustZSetRecords
open Std OrderedMaps RustStorage RustSortedSets RustDiskRecovery

/-- No two members have the same sorted set and value. -/
def Distinct (ms : List Member) : Prop :=
  ms.Pairwise (fun a b => ¬(a.zkey = b.zkey ∧ a.value = b.value))

def NulFreeKeys (ms : List Member) : Prop := ∀ m ∈ ms, 0 ∉ m.zkey

/-- Memory holds these members and no others, in both indexes of every sorted set, and no
sorted set without a member. -/
structure HoldsExactly (s : Storage) (ms : List Member) : Prop where
  scores : ∀ (key value : Str) (score : UInt32), scoreIn s key value = some score ↔
    ⟨key, value, score⟩ ∈ ms
  buckets : ∀ (key : Str) (z : ZSet), s.zsets[key]? = some z →
    ∀ (value : Str) (score : UInt32), value ∈ TwoIndexRelations.bucketOf z.scoreToValues score ↔
    ⟨key, value, score⟩ ∈ ms
  zsets : ∀ key : Str, key ∈ s.zsets ↔ ∃ m ∈ ms, m.zkey = key

theorem Member.record_inj {a b : Member} (ha : 0 ∉ a.zkey) (hb : 0 ∉ b.zkey)
    (h : a.record.1 = b.record.1) :
    a.zkey = b.zkey ∧ a.value = b.value :=
  getZsetKey_inj ha hb h

private theorem distinct_records {ms : List Member} (hnul : NulFreeKeys ms) (hd : Distinct ms) :
    (ms.map Member.record).Pairwise (fun a b => a.1 ≠ b.1) := by
  rw [List.pairwise_map]
  refine List.Pairwise.imp_of_mem ?_ hd
  intro a b ha hb hab he
  exact hab (Member.record_inj (hnul a ha) (hnul b hb) he)

private theorem exists_perm_of_records {records : List (List UInt8 × List UInt8)} {ms : List Member}
    (h : records.Perm (ms.map Member.record)) :
    ∃ ns : List Member, records = ns.map Member.record ∧ ns.Perm ms := by
  have hcomp := congrFun (congrFun (List.eq_map_comp_perm Member.record) records) ms
  exact hcomp.mpr h

theorem Distinct.perm {ms ns : List Member} (h : Distinct ms) (hp : ns.Perm ms) : Distinct ns :=
  hp.symm.pairwise h (fun hab he => hab ⟨he.1.symm, he.2.symm⟩)

private theorem mem_zsets_addMembers {s : Storage} {ms : List Member} {key : Str} :
    key ∈ (ms.foldl addMember s).zsets ↔ (∃ m ∈ ms, m.zkey = key) ∨ key ∈ s.zsets := by
  induction ms generalizing s with
  | nil => simp
  | cons m ms ih =>
    rw [List.foldl_cons, ih, addMember, zaddMemory_zsets, ExtTreeMap.mem_insert]
    simp [or_assoc, or_left_comm]

/-- Distinct members added to memory without sorted sets are exactly what it holds. -/
theorem holdsExactly_addMembers {s : Storage} (hs : s.zsets = ∅) {ms : List Member}
    (hd : Distinct ms) :
    HoldsExactly (ms.foldl addMember s) ms := by
  have hempty : ∀ key value, scoreIn s key value = none := by
    intro key value
    simp [scoreIn, hs]
  have hscores : ∀ (key value : Str) (score : UInt32),
      scoreIn (ms.foldl addMember s) key value = some score ↔ ⟨key, value, score⟩ ∈ ms := by
    intro key value score
    constructor
    · intro h
      by_cases hm : ∃ m ∈ ms, m.zkey = key ∧ m.value = value
      · obtain ⟨m, hm, rfl, rfl⟩ := hm
        rw [scoreIn_addMembers_of_mem hd hm] at h
        rwa [← Option.some.inj h]
      · rw [scoreIn_addMembers_of_notMem (fun m hmem he => hm ⟨m, hmem, he⟩), hempty] at h
        simp at h
    · intro h
      exact scoreIn_addMembers_of_mem (m := ⟨key, value, score⟩) hd h
  have hconsistent : AllConsistent (ms.foldl addMember s) := by
    refine allConsistent_addMembers ?_ ms
    intro key z hz
    simp [hs] at hz
  refine ⟨hscores, ?_, ?_⟩
  · intro key z hz value score
    rw [← hscores, (hconsistent key z hz).mem_bucket, scoreIn, hz]
    rfl
  · intro key
    rw [mem_zsets_addMembers, hs]
    simp

private theorem load_perm {ms : List Member} (hnul : NulFreeKeys ms) (hd : Distinct ms)
    {records : List (List UInt8 × List UInt8)} (hp : records.Perm (ms.map Member.record))
    {s : Storage} (hs : s.zsets = ∅) :
    ∃ t, records.foldlM Storage.loadZsetRecord s = .ok t ∧ HoldsExactly t ms := by
  obtain ⟨ns, rfl, hns⟩ := exists_perm_of_records hp
  refine ⟨ns.foldl addMember s, load_records s (fun m hm => hnul m (hns.mem_iff.mp hm)), ?_⟩
  have h := holdsExactly_addMembers hs (hd.perm hns)
  refine ⟨?_, ?_, ?_⟩
  · intro key value score
    rw [h.scores, hns.mem_iff]
  · intro key z hz value score
    rw [h.buckets key z hz, hns.mem_iff]
  · intro key
    simp only [h.zsets, hns.mem_iff]

def zaddMembers (s : Storage) (ms : List Member) : Storage :=
  ms.foldl (fun s m => s.zadd m.zkey ⟨m.score, m.value⟩) s

private theorem zaddMembers_zsetDb (s : Storage) (ms : List Member) :
    (zaddMembers s ms).zsetDb = insertAll s.zsetDb (ms.map Member.record) := by
  induction ms generalizing s with
  | nil => rfl
  | cons m ms ih => exact ih (s.zadd m.zkey ⟨m.score, m.value⟩)

private theorem load_kv_zsets (s : Storage) (l : List (Str × Str)) :
    (l.foldl Storage.loadKvRecord s).zsets = s.zsets ∧ (l.foldl Storage.loadKvRecord s).zsetDb =
      s.zsetDb := by
  rw [load_kv]
  exact ⟨rfl, rfl⟩

/-- The encoding of NUL-free, distinct members loses nothing: the records differ, decode to
their members and load, in every order, to exactly these members; so does what `zadd` writes
to an empty store when `load_from_disk` reads it. -/
theorem zset_records_lose_nothing (ms : List Member) (hnul : NulFreeKeys ms) (hd : Distinct ms) :
    (ms.map Member.record).Pairwise (fun a b => a.1 ≠ b.1) ∧
    (∀ m ∈ ms, decodeZsetKey m.record.1 = .ok (m.zkey, m.value) ∧
      fromLeBytes m.record.2 = .ok m.score) ∧
    (∀ records : List (List UInt8 × List UInt8), records.Perm (ms.map Member.record) →
      ∀ s : Storage, s.zsets = ∅ →
      ∃ t, records.foldlM Storage.loadZsetRecord s = .ok t ∧ HoldsExactly t ms) ∧
    ∃ t, (zaddMembers Storage.new ms).restart = .ok t ∧ HoldsExactly t ms := by
  refine ⟨distinct_records hnul hd, ?_, ?_, ?_⟩
  · intro m hm
    exact ⟨decodeZsetKey_getZsetKey (hnul m hm) m.value, fromLeBytes_toLeBytes m.score⟩
  · intro records hp s hs
    exact load_perm hnul hd hp hs
  · have hdb : (zaddMembers Storage.new ms).zsetDb.toList.Perm (ms.map Member.record) := by
      rw [zaddMembers_zsetDb]
      exact toList_insertAll_perm (distinct_records hnul hd)
    have hload :=
      load_kv_zsets (zaddMembers Storage.new ms).reopen
        (zaddMembers Storage.new ms).reopen.db.toList
    obtain ⟨t, ht, hexact⟩ := load_perm hnul hd hdb hload.1
    refine ⟨t, ?_, hexact⟩
    simp only [Storage.restart, Storage.loadFromDisk, hload.2]
    exact ht

/-- Two members of one sorted set, one of them with a NUL in its value, and one of another. -/
theorem zset_records_lose_nothing_with_nul :
    ∃ t,
      (zaddMembers Storage.new [⟨[122], [97, 0, 98], 5⟩, ⟨[122], [97], 256⟩,
        ⟨[121], [97], 5⟩]).restart = .ok t ∧
      HoldsExactly t [⟨[122], [97, 0, 98], 5⟩, ⟨[122], [97], 256⟩, ⟨[121], [97], 5⟩] :=
  (zset_records_lose_nothing _ (by simp [NulFreeKeys]) (by simp [Distinct])).2.2.2

end HCache.RustZSetRecords
