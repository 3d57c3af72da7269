import HCache.RustClusterNodes

/-!
# Bulk-load placement against request routing

The loader threads of `handle_init` compute the owner of a record from its key as a slice
of bytes, the handlers from the key as a string. The two feed different streams to the same
hash, so on several nodes a loaded key may be looked for where nobody stored it.
-/
namespace HCache.RustBulkLoad
open Std OrderedMaps RustStorage RustRouting RustClusterNodes

def IsUtf8 (bytes : List UInt8) : Prop := ∃ s : String, s.toUTF8.data.toList = bytes

/-- What the init directories hold together. -/
structure InitDb where
  records : ExtTreeMap Str Str
  utf8 : ∀ key value, records[key]? = some value → IsUtf8 key ∧ IsUtf8 value

/-- One turn of the loader loop, with `count` and `me` as loaded before it. -/
def loadRecord (count : UInt64) (me : UInt32) (s : Storage) (record : Str × Str) : Storage :=
  if (getShard (sliceStream record.1) count).toUInt32 = me then
    { s with db := s.db.insert record.1 record.2, kv := s.kv.insert record.1 record.2 }
  else s

variable {Host : Type}

/-- The loader threads of one node together take their turns in some order. -/
def handleInit (n : Node Host) (turns : List (Str × Str)) : Node Host :=
  { n with storage := turns.foldl (loadRecord n.count n.me) n.storage }

/-- After every node has loaded, each record is found from each node. -/
def LoadedKeysFound [DecidableEq Host] (c : HostList Host) (db : InitDb) : Prop :=
  ∀ turns : Host → List (Str × Str), (∀ h, (turns h).Perm db.records.toList) →
    ∀ order, ∀ arrival ∈ c.hosts, ∀ key value, db.records[key]? = some value →
      (request order (fun h => handleInit (c.node Storage.new h) (turns h)) arrival
        (.query key)).map Prod.snd =
        .ok ⟨.ok, .text value⟩

private theorem kv_foldl_loadRecord (count : UInt64) (me : UInt32) (s : Storage)
    (turns : List (Str × Str)) :
    (turns.foldl (loadRecord count me) s).kv =
      insertAll s.kv
        (turns.filter (fun r => (getShard (sliceStream r.1) count).toUInt32 = me)) := by
  induction turns generalizing s with
  | nil => rfl
  | cons r turns ih =>
    rw [List.foldl_cons, ih]
    rcases eq_or_ne (getShard (sliceStream r.1) count).toUInt32 me with ho | ho
    · simp [loadRecord, ho]
    · simp [loadRecord, ho]

/-- A node has the records it owns, whatever the order of the turns was. -/
theorem lookup_loaded {db : InitDb} {turns : List (Str × Str)} (h : turns.Perm db.records.toList)
    (count : UInt64) (me : UInt32) (key : Str) :
    (turns.foldl (loadRecord count me) Storage.new).kv[key]? =
      if (getShard (sliceStream key) count).toUInt32 = me then db.records[key]? else none := by
  have hmem : ∀ k v, (k, v) ∈ turns ↔ db.records[k]? = some v := by
    intro k v
    rw [h.mem_iff, ExtTreeMap.mem_toList_iff_getElem?_eq_some]
  have hdistinct : turns.Pairwise (fun a b => a.1 ≠ b.1) :=
    (h.pairwise_iff (fun hab => hab.symm)).mpr (distinct_keys_toList db.records)
  rw [kv_foldl_loadRecord]
  split
  · next ho =>
    cases hk : db.records[key]? with
    | some value =>
      have hin :
          (key, value) ∈
            turns.filter (fun r => (getShard (sliceStream r.1) count).toUInt32 = me) := by
        rw [List.mem_filter]
        exact ⟨(hmem key value).mpr hk, by simpa using ho⟩
      exact getElem?_insertAll_of_mem (hdistinct.filter _) hin
    | none =>
      rw [getElem?_insertAll_of_notMem]
      · simp [Storage.new]
      · rintro ⟨k, v⟩ he rfl
        have hk' := (hmem k v).mp (List.mem_of_mem_filter he)
        simp [hk] at hk'
  · next ho =>
    rw [getElem?_insertAll_of_notMem]
    · simp [Storage.new]
    · rintro ⟨k, v⟩ he rfl
      have hk := (List.mem_filter.mp he).2
      simp only [decide_eq_true_eq] at hk
      exact ho hk

def loaded [DecidableEq Host] (c : HostList Host) (turns : Host → List (Str × Str)) (h : Host) :
    Storage :=
  (handleInit (c.node Storage.new h) (turns h)).storage

/-- A query on the loaded cluster finds what the handlers' owner has loaded. -/
theorem query_loaded [DecidableEq Host] (c : HostList Host) {db : InitDb}
    {turns : Host → List (Str × Str)} (h : ∀ h, (turns h).Perm db.records.toList)
    (order : IterationOrder Str) {arrival : Host} (ha : arrival ∈ c.hosts) (key : Str) :
    (request order (fun h => handleInit (c.node Storage.new h) (turns h)) arrival (.query key)).map
      Prod.snd =
      .ok (queryResponse
        (if c.owner (sliceStream key) = c.owner (strStream key) then db.records[key]?
        else none)) := by
  have hnodes : (fun h => handleInit (c.node Storage.new h) (turns h)) =
      fun h => c.node (loaded c turns h) h := rfl
  have hexec : execute order (loaded c turns (c.owner (strStream key))) (.query key) =
      .ok (loaded c turns (c.owner (strStream key)),
        queryResponse ((loaded c turns (c.owner (strStream key))).getKv key)) := rfl
  have hkv : (loaded c turns (c.owner (strStream key))).kv[key]? = _ :=
    lookup_loaded (h (c.owner (strStream key))) _ _ key
  have hiff := c.shard_eq_me_iff Storage.new (c.owner_mem (strStream key)) (sliceStream key)
  rw [hnodes, c.request_eq_execute order (loaded c turns) ha (.query key) hexec]
  simp only [Except.map, Storage.getKv, hkv]
  rcases eq_or_ne (c.owner (sliceStream key)) (c.owner (strStream key)) with ho | ho
  · rw [if_pos ho, if_pos (hiff.mpr ho)]
  · rw [if_neg ho, if_neg (fun hs => ho (hiff.mp hs))]

theorem loadedKeysFound_iff_owner [DecidableEq Host] (c : HostList Host) (db : InitDb) :
    LoadedKeysFound c db ↔
      ∀ key value, db.records[key]? = some value →
      c.owner (sliceStream key) = c.owner (strStream key) := by
  constructor
  · intro hfound key value hkey
    have ha := c.owner_mem (strStream key)
    have hperm : ∀ _ : Host, db.records.toList.Perm db.records.toList := fun _ => List.Perm.refl _
    have hq :=
      hfound (fun _ => db.records.toList) hperm (IterationOrder.choice Str) _ ha key value hkey
    rw [query_loaded c hperm _ ha] at hq
    by_contra ho
    simp [ho, queryResponse, Response.notFound] at hq
  · intro howners turns hperm order arrival ha key value hkey
    rw [query_loaded c hperm order ha, if_pos (howners key value hkey), hkey]
    rfl

def InitDb.single (key value : Str) (hk : IsUtf8 key) (hv : IsUtf8 value) : InitDb where
  records := (∅ : ExtTreeMap Str Str).insert key value
  utf8 := by
    intro k v h
    rw [lookup_insert] at h
    split at h
    · next he => exact ⟨he ▸ hk, Option.some.inj h ▸ hv⟩
    · simp at h

theorem found_single_iff [DecidableEq Host] (c : HostList Host) {key value : Str} (hk : IsUtf8 key)
    (hv : IsUtf8 value) : LoadedKeysFound c (.single key value hk hv) ↔
      (hashKey (sliceStream key)).toNat % c.hosts.length =
        (hashKey (strStream key)).toNat % c.hosts.length := by
  rw [loadedKeysFound_iff_owner, ← c.owner_eq_owner_iff]
  constructor
  · intro h
    exact h key value (by simp [InitDb.single])
  · intro h k v hkv
    simp only [InitDb.single, lookup_insert] at hkv
    split at hkv
    · next he => exact he ▸ h
    · simp at hkv

/-- The keys `a` and `b`. -/
theorem isUtf8_a : IsUtf8 [97] := ⟨"a", by decide⟩
private theorem isUtf8_b : IsUtf8 [98] := ⟨"b", by decide⟩

theorem hash_str_a : hashKey (strStream [97]) = 8186225505942432243 := by decide +kernel
theorem hash_slice_a : hashKey (sliceStream [97]) = 13743199064115861684 := by decide +kernel
private theorem hash_str_b : hashKey (strStream [98]) = 16993177596579750922 := by decide +kernel
private theorem hash_slice_b : hashKey (sliceStream [98]) = 1092363072421750034 := by decide +kernel

/-- The two owners of `a` and the two owners of `b` agree modulo one only. -/
theorem eq_one_of_a_b {n : ℕ}
    (ha : (hashKey (sliceStream [97])).toNat % n = (hashKey (strStream [97])).toNat % n)
    (hb : (hashKey (sliceStream [98])).toNat % n = (hashKey (strStream [98])).toNat % n) :
    n = 1 := by
  rw [hash_slice_a, hash_str_a] at ha
  rw [hash_slice_b, hash_str_b] at hb
  have hda := Nat.dvd_of_mod_eq_zero (Nat.sub_mod_eq_zero_of_mod_eq ha)
  have hdb := Nat.dvd_of_mod_eq_zero (Nat.sub_mod_eq_zero_of_mod_eq hb.symm)
  have hgcd := Nat.dvd_gcd hda hdb
  have hone : Nat.gcd (UInt64.toNat 13743199064115861684 - UInt64.toNat 8186225505942432243)
      (UInt64.toNat 16993177596579750922 - UInt64.toNat 1092363072421750034) = 1 := by
        decide +kernel
  rw [hone] at hgcd
  exact Nat.dvd_one.mp hgcd

/-- Every loaded key is found exactly when no key of the database separates the two streams
modulo the number of nodes; all databases are found on a single node only. -/
theorem loadedKeys_found_iff [DecidableEq Host] (c : HostList Host) :
    ((∀ db, LoadedKeysFound c db) ↔ c.hosts.length = 1) ∧
    ∀ db, LoadedKeysFound c db ↔ ∀ key ∈ db.records,
      (hashKey (sliceStream key)).toNat % c.hosts.length =
        (hashKey (strStream key)).toNat % c.hosts.length := by
  have hdb : ∀ db, LoadedKeysFound c db ↔ ∀ key ∈ db.records,
      (hashKey (sliceStream key)).toNat % c.hosts.length =
        (hashKey (strStream key)).toNat % c.hosts.length := by
    intro db
    rw [loadedKeysFound_iff_owner]
    constructor
    · intro h key hkey
      rw [← c.owner_eq_owner_iff]
      exact h key _ (ExtTreeMap.getElem?_eq_some_getElem hkey)
    · intro h key value hkey
      rw [c.owner_eq_owner_iff]
      exact h key (ExtTreeMap.mem_iff_isSome_getElem?.mpr (by simp [hkey]))
  refine ⟨?_, hdb⟩
  constructor
  · intro hall
    have ha := (found_single_iff c isUtf8_a isUtf8_a).mp (hall _)
    have hb := (found_single_iff c isUtf8_b isUtf8_b).mp (hall _)
    exact eq_one_of_a_b ha hb
  · intro hone db
    rw [hdb, hone]
    intro key _
    rw [Nat.mod_one, Nat.mod_one]

/-- With two nodes the loader keeps `a` on the first and the handlers look on the second. -/
theorem loadedKeys_not_always_found :
    ¬ LoadedKeysFound twoNodes (.single [97] [97] isUtf8_a isUtf8_a) := by
  rw [found_single_iff, hash_slice_a, hash_str_a]
  decide

end HCache.RustBulkLoad
