import HCache.CppFstackRequests
import Mathlib.Data.List.TakeWhile

/-!
# Keys and values in the paths of the C++ servers

The three places that cut a path at its first slash: the `zrmv` handlers of `hcache.cc` and
`hcache_shared.cc`, which move a pointer past the slash, and the GET branch of `fstack.cc`,
which counts an index. Lengths are differences that become a `size_t`; without a slash, or
with a path that is too short, they leave the string or cut it in the wrong place.
-/
namespace HCache.CppPathSplits
open Std OrderedMaps TwoIndexRelations CppSingleThreadStorage CppStorage CppShardedStorage
  CppFstackLoop

structure CppString where
  bytes : Fbstring
  small : bytes.length < 2 ^ 63

/-- A difference as a `size_t`. -/
def sizeT (n : ℤ) : ℕ := (n % 2 ^ 64).toNat

theorem sizeT_of_nonneg {n : ℤ} (h : 0 ≤ n) (hs : n < 2 ^ 64) : (sizeT n : ℤ) = n := by
  rw [sizeT, Int.emod_eq_of_lt h hs, Int.toNat_of_nonneg h]

private theorem sizeT_of_neg {n : ℤ} (h : n < 0) (hs : -2 ^ 63 ≤ n) : 2 ^ 63 ≤ sizeT n := by
  have hmod : n % 2 ^ 64 = n + 2 ^ 64 := by omega
  rw [sizeT, hmod]
  omega

/-- A computed length stays in the string exactly when the difference is not negative. -/
theorem sizeT_le_iff {n : ℤ} {len : ℕ} (hlen : len < 2 ^ 63) (hlow : -2 ^ 63 ≤ n)
    (hhigh : n ≤ len) :
    sizeT n ≤ len ↔ 0 ≤ n := by
  constructor
  · intro h
    by_contra hneg
    have hlong := sizeT_of_neg (by omega) hlow
    omega
  · intro h
    have heq := sizeT_of_nonneg h (by omega)
    omega

/-- `slash_ptr - key_value.data()` after the loop. -/
def slashPtr : Fbstring → ℕ
  | [] => 0
  | b :: rest => if b = '/'.toUInt8 then 1 else slashPtr rest + 1

def keyLen (keyValue : Fbstring) : ℕ := sizeT (slashPtr keyValue - 1)

def valueLen (keyValue : Fbstring) : ℕ := sizeT (keyValue.length - slashPtr keyValue)

/-- `folly::fbstring(data + start, len)`, which throws for the length -1. -/
def fbstringAt (s : Fbstring) (start len : ℕ) : Except Abort Fbstring :=
  if s.length < start + len then .error .lengthError else .ok ((s.drop start).take len)

theorem fbstringAt_of_le {s : Fbstring} {start len : ℕ} (h : start + len ≤ s.length) :
    fbstringAt s start len = .ok ((s.drop start).take len) :=
  if_neg (by omega)

def splitKeyValue (keyValue : Fbstring) : Except Abort (Fbstring × Fbstring) := do
  let key ← fbstringAt keyValue 0 (keyLen keyValue)
  let value ← fbstringAt keyValue (slashPtr keyValue) (valueLen keyValue)
  return (key, value)

/-- `zrmv_handler` of `hcache.cc`. -/
def zrmvHandler {smp : Smp} (hash : Fbstring → UInt32) (hcache : ShardedStorage smp)
    (core : Fin smp.count) (keyValue : Fbstring) : Except Abort (ShardedStorage smp) := do
  let (key, value) ← splitKeyValue keyValue
  return (ShardedStorage.zsetRmv hash hcache core key value).1

/-- `zrmv_handler` of `hcache_shared.cc`. -/
def zrmvHandlerShared (hcache : Storage) (keyValue : Fbstring) : Except Abort Storage := do
  let (key, value) ← splitKeyValue keyValue
  return hcache.zsetRmv key value

variable {key value keyValue : Fbstring}

private theorem slashPtr_append (h : '/'.toUInt8 ∉ key) :
    slashPtr (key ++ '/'.toUInt8 :: value) = key.length + 1 := by
  induction key with
  | nil => simp [slashPtr]
  | cons b key ih =>
    have hb : b ≠ '/'.toUInt8 := fun he => h (by simp [he])
    rw [List.cons_append, slashPtr, if_neg hb, ih (fun hk => h (by simp [hk])), List.length_cons]

private theorem slashPtr_of_notMem (h : '/'.toUInt8 ∉ keyValue) :
    slashPtr keyValue = keyValue.length := by
  induction keyValue with
  | nil => rfl
  | cons b rest ih =>
    have hb : b ≠ '/'.toUInt8 := fun he => h (by simp [he])
    rw [slashPtr, if_neg hb, ih (fun hr => h (by simp [hr])), List.length_cons]

theorem slashPtr_le (keyValue : Fbstring) : slashPtr keyValue ≤ keyValue.length := by
  induction keyValue with
  | nil => exact le_rfl
  | cons b rest ih =>
    rw [slashPtr, List.length_cons]
    split <;> omega

theorem valueLen_eq (hs : keyValue.length < 2 ^ 63) :
    valueLen keyValue = keyValue.length - slashPtr keyValue := by
  have hle := slashPtr_le keyValue
  have heq := sizeT_of_nonneg (n := keyValue.length - slashPtr keyValue) (by omega) (by omega)
  rw [valueLen]
  omega

theorem keyLen_eq (hs : keyValue.length < 2 ^ 63) (hne : keyValue ≠ []) :
    keyLen keyValue = slashPtr keyValue - 1 := by
  have hle := slashPtr_le keyValue
  have hpos : 0 < slashPtr keyValue := by
    cases keyValue with
    | nil => exact absurd rfl hne
    | cons b rest =>
      rw [slashPtr]
      split <;> omega
  have heq := sizeT_of_nonneg (n := slashPtr keyValue - 1) (by omega) (by omega)
  rw [keyLen]
  omega

private theorem keyLen_nil : keyLen [] = 18446744073709551615 := by decide

private theorem splitKeyValue_append (h : '/'.toUInt8 ∉ key)
    (hs : (key ++ '/'.toUInt8 :: value).length < 2 ^ 63) :
    splitKeyValue (key ++ '/'.toUInt8 :: value) = .ok (key, value) := by
  have hlength : (key ++ '/'.toUInt8 :: value).length = key.length + 1 + value.length := by
    simp only [List.length_append, List.length_cons]
    omega
  have hkey : fbstringAt (key ++ '/'.toUInt8 :: value) 0 key.length = .ok key := by
    rw [fbstringAt_of_le (by omega)]
    simp
  have hvalue : fbstringAt (key ++ '/'.toUInt8 :: value) (key.length + 1) value.length =
      .ok value := by
    rw [fbstringAt_of_le (by omega)]
    simp
  rw [splitKeyValue, keyLen_eq hs (by simp), valueLen_eq hs, slashPtr_append h, hlength,
    Nat.add_sub_cancel, Nat.add_sub_cancel_left, hkey, hvalue]
  rfl

private theorem splitKeyValue_of_notMem (h : '/'.toUInt8 ∉ keyValue) (hne : keyValue ≠ [])
    (hs : keyValue.length < 2 ^ 63) :
    splitKeyValue keyValue = .ok (keyValue.dropLast, []) := by
  have hkey : fbstringAt keyValue 0 (keyValue.length - 1) = .ok keyValue.dropLast := by
    rw [fbstringAt_of_le (by omega), List.drop_zero, List.dropLast_eq_take]
  have hvalue : fbstringAt keyValue keyValue.length 0 = .ok [] := by
    rw [fbstringAt_of_le (by omega), List.take_zero]
  rw [splitKeyValue, keyLen_eq hs hne, valueLen_eq hs, slashPtr_of_notMem h, Nat.sub_self,
    hkey, hvalue]
  rfl

def IsMember (z : Zset) (value : Fbstring) : Prop :=
  ∃ score, z.valueToScore[value]? = some score ∧ value ∈ bucketOf z.scoreToValues score

def HasMember (zsets : ExtTreeMap Fbstring Zset) (key value : Fbstring) : Prop :=
  ∃ z, zsets[key]? = some z ∧ IsMember z value

def KeepsMembers (before after : ExtTreeMap Fbstring Zset) : Prop :=
  ∀ key value, HasMember before key value → HasMember after key value

private theorem isMember_iff {z : Zset} {m : ExtTreeMap Fbstring UInt32} (h : ZsetRel z m)
    (value : Fbstring) :
    IsMember z value ↔ value ∈ m := by
  have hbucket : ∀ score, value ∈ bucketOf z.scoreToValues score ↔ m[value]? = some score := by
    intro score
    rw [h.buckets]
    rfl
  rw [ExtTreeMap.mem_iff_isSome_getElem?, Option.isSome_iff_exists]
  constructor
  · rintro ⟨score, -, hb⟩
    exact ⟨score, (hbucket score).mp hb⟩
  · rintro ⟨score, hm⟩
    exact ⟨score, h.indexed value score hm, (hbucket score).mpr hm⟩

/-- `zrmv` takes its own value out and no other one. -/
theorem isMember_zrmv {z : Zset} {v w : Fbstring} :
    IsMember (z.zrmv v) w ↔ IsMember z w ∧ w ≠ v := by
  unfold Zset.zrmv
  cases hv : z.valueToScore[v]? with
  | none =>
    constructor
    · intro hw
      refine ⟨hw, ?_⟩
      rintro rfl
      obtain ⟨score, hscore, -⟩ := hw
      simp [hv] at hscore
    · exact fun hw => hw.1
  | some score =>
    simp only [IsMember, bucketOf_eraseFromBucket, mem_leave]
    constructor
    · rintro ⟨t, ht, hb, hnot⟩
      refine ⟨⟨t, ht, hb⟩, ?_⟩
      rintro rfl
      exact hnot ⟨rfl, Option.some.inj (ht.symm.trans hv)⟩
    · rintro ⟨⟨t, ht, hb⟩, hne⟩
      exact ⟨t, ht, hb, fun he => hne he.1⟩

/-- What the `zset_rmv` of a storage does to its sorted sets. -/
def removeMember (zsets : ExtTreeMap Fbstring Zset) (key value : Fbstring) :
    ExtTreeMap Fbstring Zset :=
  match zsets[key]? with
  | none => zsets
  | some z => zsets.insert key (z.zrmv value)

private theorem zsetRmv_zsets (s : SingleThreadStorage) (key value : Fbstring) :
    (s.zsetRmv key value).zsets = removeMember s.zsets key value := by
  unfold SingleThreadStorage.zsetRmv removeMember
  cases s.zsets[key]? <;> rfl

theorem zsetRmv_zsets_shared (s : Storage) (key value : Fbstring) :
    (s.zsetRmv key value).zsets = removeMember s.zsets key value := by
  unfold Storage.zsetRmv removeMember
  cases s.zsets[key]? <;> rfl

theorem keepsMembers_removeMember_iff {zsets : ExtTreeMap Fbstring Zset} {key value : Fbstring} :
    KeepsMembers zsets (removeMember zsets key value) ↔ ¬HasMember zsets key value := by
  unfold removeMember
  cases hz : zsets[key]? with
  | none =>
    constructor
    · rintro - ⟨z, hkey, -⟩
      simp [hz] at hkey
    · exact fun _ _ _ h => h
  | some z =>
    constructor
    · intro hkeeps hmember
      obtain ⟨z', hz', hin⟩ := hkeeps key value hmember
      rw [lookup_insert, if_pos rfl] at hz'
      rw [← Option.some.inj hz'] at hin
      exact (isMember_zrmv.mp hin).2 rfl
    · rintro hnot k w ⟨z', hz', hin⟩
      rcases eq_or_ne key k with rfl | hne
      · have hzz : z' = z := Option.some.inj (hz'.symm.trans hz)
        subst hzz
        refine ⟨z'.zrmv value, by simp, isMember_zrmv.mpr ⟨hin, ?_⟩⟩
        rintro rfl
        exact hnot ⟨z', hz', hin⟩
      · exact ⟨z', by rwa [lookup_insert, if_neg hne], hin⟩

/-- The lengths stay in the string; a slash separates key and value; without one `kept` holds
of what the handler leaves. `removed` is the outcome and `remove` the call of `zset_rmv`. -/
structure HandlerPromise {α : Type} (keyValue : Fbstring) (removed : Except Abort α)
    (remove : Fbstring → Fbstring → α) (kept : α → Prop) : Prop where
  inRange : keyLen keyValue ≤ keyValue.length ∧ valueLen keyValue ≤ keyValue.length
  separated : ∀ key value, '/'.toUInt8 ∉ key → keyValue = key ++ '/'.toUInt8 :: value →
    removed = .ok (remove key value)
  unseparated : '/'.toUInt8 ∉ keyValue → ∀ t, removed = .ok t → kept t

theorem handlerPromise_iff {α : Type} (keyValue : CppString) {removed : Except Abort α}
    {remove : Fbstring → Fbstring → α} {kept : α → Prop}
    (hremoved : removed = (splitKeyValue keyValue.bytes).map (fun p => remove p.1 p.2)) :
    HandlerPromise keyValue.bytes removed remove kept ↔
      '/'.toUInt8 ∈ keyValue.bytes ∨
      (keyValue.bytes ≠ [] ∧ kept (remove keyValue.bytes.dropLast [])) := by
  obtain ⟨keyValue, hs⟩ := keyValue
  simp only at hremoved ⊢
  have hrange : keyValue ≠ [] → keyLen keyValue ≤ keyValue.length ∧
      valueLen keyValue ≤ keyValue.length := by
    intro hne
    have hle := slashPtr_le keyValue
    rw [keyLen_eq hs hne, valueLen_eq hs]
    omega
  constructor
  · intro h
    by_cases hslash : '/'.toUInt8 ∈ keyValue
    · exact .inl hslash
    · right
      have hne : keyValue ≠ [] := by
        rintro rfl
        have hlong := h.inRange.1
        rw [keyLen_nil] at hlong
        simp at hlong
      rw [splitKeyValue_of_notMem hslash hne hs] at hremoved
      exact ⟨hne, h.unseparated hslash _ hremoved⟩
  · intro h
    have hne : keyValue ≠ [] := by
      rintro rfl
      simp at h
    refine ⟨hrange hne, ?_, ?_⟩
    · rintro key value hkey rfl
      rw [hremoved, splitKeyValue_append hkey hs]
      rfl
    · intro hslash t ht
      rw [hremoved, splitKeyValue_of_notMem hslash hne hs] at ht
      obtain rfl := Except.ok.inj ht
      exact (h.resolve_left hslash).2

private theorem zrmvHandler_eq {smp : Smp} (hash : Fbstring → UInt32) (hcache : ShardedStorage smp)
    (core : Fin smp.count) (keyValue : Fbstring) : zrmvHandler hash hcache core keyValue =
      (splitKeyValue keyValue).map
        (fun p => (ShardedStorage.zsetRmv hash hcache core p.1 p.2).1) := by
  unfold zrmvHandler
  cases splitKeyValue keyValue <;> rfl

theorem zrmvHandlerShared_eq (hcache : Storage) (keyValue : Fbstring) :
    zrmvHandlerShared hcache keyValue =
      (splitKeyValue keyValue).map (fun p => hcache.zsetRmv p.1 p.2) := by
  unfold zrmvHandlerShared
  cases splitKeyValue keyValue <;> rfl

/-- A removal on the core of its key keeps the members of all cores when that core does not
have the member. -/
theorem keepsMembers_sharded_iff {smp : Smp} (hash : Fbstring → UInt32)
    (hcache : ShardedStorage smp) (core : Fin smp.count) (key value : Fbstring) :
    (∀ c, KeepsMembers (hcache c).zsets
        ((ShardedStorage.zsetRmv hash hcache core key value).1 c).zsets) ↔
      ¬HasMember (hcache (ShardedStorage.getCpu smp hash key)).zsets key value := by
  rw [ShardedStorage.zsetRmv, onCpu_eq_invokeOn, ← keepsMembers_removeMember_iff, ← zsetRmv_zsets]
  simp only [invokeOn]
  constructor
  · intro h
    have hcpu := h (ShardedStorage.getCpu smp hash key)
    rwa [Function.update_self] at hcpu
  · intro h c
    rcases eq_or_ne c (ShardedStorage.getCpu smp hash key) with rfl | hne
    · rwa [Function.update_self]
    · rw [Function.update_of_ne hne]
      exact fun _ _ hm => hm

/-- The lengths that are computed for a path, `none` when the `int` index overflows. -/
def getLengths (path : Fbstring) : Option (List ℕ) :=
  match charAt path 1 with
  | some 'q' => some [sizeT (path.length - 7)]
  | some 'd' => some [sizeT (path.length - 5)]
  | some 'z' =>
    if slashIdx path < 2 ^ 31 then some [slashIdx path - 6, sizeT (path.length - slashIdx path - 1)]
    else none
  | _ => some []

/-- The lengths stay in the path; a slash behind `/zrmv/` separates key and value; without one
nothing is removed. -/
structure GetPromise (path : Fbstring) (s : Server) : Prop where
  inRange : ∃ lens, getLengths path = some lens ∧ ∀ len ∈ lens, len ≤ path.length
  separated : charAt path 1 = some 'z' → ∀ key value, '/'.toUInt8 ∉ key →
    path.drop 6 = key ++ '/'.toUInt8 :: value →
    dispatchGet path s = .ok ((s.perform (.on key (.zsetRmv value))).2.send .zrmv .empty)
  unseparated : charAt path 1 = some 'z' → '/'.toUInt8 ∉ path.drop 6 →
    ∀ t, dispatchGet path s = .ok t →
    KeepsMembers s.hcache.zsets t.hcache.zsets

/-- Long enough for the prefix that is cut off, and for `z` with a slash behind the prefix, at
an index that is an `int`. -/
def GetFits (path : Fbstring) : Prop :=
  match charAt path 1 with
  | some 'q' => 7 ≤ path.length
  | some 'd' => 5 ≤ path.length
  | some 'z' => '/'.toUInt8 ∈ path.drop 6 ∧ slashIdx path < 2 ^ 31
  | _ => True

variable {path key value : Fbstring} {s : Server}

theorem slashIdx_append (h : '/'.toUInt8 ∉ key) (hp : path.drop 6 = key ++ '/'.toUInt8 :: value) :
    slashIdx path = 6 + key.length := by
  have hkey : ∀ b ∈ key, decide (b ≠ '/'.toUInt8) = true := by
    intro b hb
    exact decide_eq_true (fun he => h (he ▸ hb))
  rw [slashIdx, hp, List.takeWhile_append_of_pos hkey, List.takeWhile_cons_of_neg (by simp),
    List.append_nil]

theorem slashIdx_of_notMem (h : '/'.toUInt8 ∉ path.drop 6) :
    slashIdx path = 6 + (path.length - 6) := by
  have hall : (path.drop 6).takeWhile (fun b => decide (b ≠ '/'.toUInt8)) = path.drop 6 := by
    rw [List.takeWhile_eq_self_iff]
    intro b hb
    exact decide_eq_true (fun he => h (he ▸ hb))
  rw [slashIdx, hall, List.length_drop]

/-- With a slash behind the prefix the handler removes what stands around it. -/
theorem dispatchGet_separated (hz : charAt path 1 = some 'z') (h : '/'.toUInt8 ∉ key)
    (hp : path.drop 6 = key ++ '/'.toUInt8 :: value) :
    dispatchGet path s = .ok ((s.perform (.on key (.zsetRmv value))).2.send .zrmv .empty) := by
  have hlen := congrArg List.length hp
  simp only [List.length_drop, List.length_append, List.length_cons] at hlen
  have hvalue : suffixFrom path (6 + key.length + 1) = .ok value := by
    have hdrop : path.drop (6 + key.length + 1) = value := by
      rw [Nat.add_assoc, ← List.drop_drop, hp]
      simp
    rw [suffixFrom, if_neg (by omega), hdrop]
  have hkey : (path.drop 6).take key.length = key := by
    rw [hp, List.take_left]
  simp only [dispatchGet, hz, slashIdx_append h hp, hvalue, Nat.add_sub_cancel_left, hkey]
  rfl

private theorem dispatchGet_unseparated (hz : charAt path 1 = some 'z')
    (h : '/'.toUInt8 ∉ path.drop 6) :
    dispatchGet path s = .error .lengthError := by
  have hvalue : suffixFrom path (slashIdx path + 1) = .error .lengthError := by
    rw [slashIdx_of_notMem h, suffixFrom, if_pos (by omega)]
  simp only [dispatchGet, hz, hvalue]
  rfl

private theorem slashIdx_lt_iff : slashIdx path < path.length ↔ '/'.toUInt8 ∈ path.drop 6 := by
  constructor
  · intro hlt
    by_contra h
    rw [slashIdx_of_notMem h] at hlt
    omega
  · intro h
    obtain ⟨key, value, hp, hkey⟩ := List.eq_append_cons_of_mem h
    have hlen := congrArg List.length hp
    simp only [List.length_drop, List.length_append, List.length_cons] at hlen
    rw [slashIdx_append hkey hp]
    omega

private theorem slashIdx_le (path : Fbstring) : slashIdx path ≤ 6 + (path.length - 6) := by
  have hle :=
    (List.takeWhile_sublist (l := path.drop 6) (fun b => decide (b ≠ '/'.toUInt8))).length_le
  rw [List.length_drop] at hle
  rw [slashIdx]
  omega

private theorem inRange_iff (path : CppString) :
    (∃ lens, getLengths path.bytes = some lens ∧ ∀ len ∈ lens, len ≤ path.bytes.length) ↔
    GetFits path.bytes := by
  obtain ⟨path, hs⟩ := path
  have hbegins : ∀ n : ℕ, n < 2 ^ 32 →
      (sizeT (path.length - n) ≤ path.length ↔ n ≤ path.length) := by
    intro n hn
    rw [sizeT_le_iff hs (by omega) (by omega)]
    omega
  simp only [getLengths, GetFits]
  split
  · simpa using hbegins 7 (by omega)
  · simpa using hbegins 5 (by omega)
  · have hle := slashIdx_le path
    rw [← slashIdx_lt_iff]
    by_cases hint : slashIdx path < 2 ^ 31
    · have hvalue : sizeT (path.length - slashIdx path - 1) ≤ path.length ↔
          slashIdx path < path.length := by
        rw [sizeT_le_iff hs (by omega) (by omega)]
        omega
      simp only [hint, if_true, Option.some.injEq, exists_eq_left', List.mem_cons, List.not_mem_nil,
        or_false, forall_eq_or_imp, forall_eq, hvalue, and_true]
      constructor
      · exact fun h => h.2
      · exact fun h => ⟨by omega, h⟩
    · simp only [hint, if_false, reduceCtorEq, false_and, exists_false, and_false]
  · simp

private theorem getPromise_iff (path : CppString) (s : Server) :
    GetPromise path.bytes s ↔ GetFits path.bytes := by
  rw [← inRange_iff]
  constructor
  · exact fun h => h.inRange
  · intro h
    refine ⟨h, ?_, ?_⟩
    · intro hz key value hkey hp
      exact dispatchGet_separated hz hkey hp
    · intro hz hslash t ht
      rw [dispatchGet_unseparated hz hslash] at ht
      simp at ht

/-- The three copies split every path as promised exactly in these cases: a handler when its
string has a slash, or is not empty and names no sorted set with an empty member once its last
byte is gone; the GET branch when the path is as long as the prefix it cuts off and, for a
removal, has a slash behind it. -/
theorem path_splits_iff (smp : Smp) (hash : Fbstring → UInt32) (hcache : ShardedStorage smp)
    (core : Fin smp.count) (shared : Storage) (s : Server) (keyValue path : CppString) :
    (HandlerPromise keyValue.bytes (zrmvHandler hash hcache core keyValue.bytes)
        (fun key value => (ShardedStorage.zsetRmv hash hcache core key value).1)
        (fun t => ∀ c, KeepsMembers (hcache c).zsets (t c).zsets) ↔
      '/'.toUInt8 ∈ keyValue.bytes ∨ (keyValue.bytes ≠ [] ∧
        ¬HasMember (hcache (ShardedStorage.getCpu smp hash keyValue.bytes.dropLast)).zsets
          keyValue.bytes.dropLast [])) ∧
    (HandlerPromise keyValue.bytes (zrmvHandlerShared shared keyValue.bytes) shared.zsetRmv
        (fun t => KeepsMembers shared.zsets t.zsets) ↔
      '/'.toUInt8 ∈ keyValue.bytes ∨
      (keyValue.bytes ≠ [] ∧ ¬HasMember shared.zsets keyValue.bytes.dropLast [])) ∧
    (GetPromise path.bytes s ↔ GetFits path.bytes) := by
  refine ⟨?_, ?_, getPromise_iff path s⟩
  · rw [handlerPromise_iff keyValue (zrmvHandler_eq hash hcache core keyValue.bytes),
      keepsMembers_sharded_iff]
  · rw [handlerPromise_iff keyValue (zrmvHandlerShared_eq shared keyValue.bytes),
      zsetRmv_zsets_shared, keepsMembers_removeMember_iff]

/-- The sorted set `z` with the empty member. -/
def emptyMember : Storage := (Storage.new.zsetAdd [122] [] 1).1

private theorem hasMember_emptyMember : HasMember emptyMember.zsets [122] [] := by
  have hz : emptyMember.zsets[([122] : Fbstring)]? = some (Zset.new.zadd [] 1) := by decide
  refine ⟨_, hz, (isMember_iff (zsetRel_new.zadd [] 1) []).mpr ?_⟩
  simp

/-- The remainder `zx` removes the empty member of `z`, the empty remainder asks for a key of
2^64 - 1 bytes, and the path `/q` for one of 2^64 - 5. -/
theorem path_splits_wrong :
    ¬HandlerPromise [122, 120] (zrmvHandlerShared emptyMember [122, 120]) emptyMember.zsetRmv
      (fun t => KeepsMembers emptyMember.zsets t.zsets) ∧
    keyLen [] = 2 ^ 64 - 1 ∧ zrmvHandlerShared emptyMember [] = .error .lengthError ∧
    getLengths (ascii "/q") = some [2 ^ 64 - 5] ∧
    ¬GetPromise (ascii "/q") (Server.start emptyMember) := by
  have hempty : zrmvHandlerShared emptyMember [] = .error .lengthError := by
    have hsplit : splitKeyValue [] = .error .lengthError := by decide
    rw [zrmvHandlerShared_eq, hsplit]
    rfl
  refine ⟨?_, by decide, hempty, by decide, ?_⟩
  · intro h
    have hsplit := (handlerPromise_iff ⟨[122, 120], by decide⟩
      (zrmvHandlerShared_eq emptyMember [122, 120])).mp h
    rcases hsplit with hslash | ⟨-, hkept⟩
    · revert hslash
      decide
    · rw [zsetRmv_zsets_shared, keepsMembers_removeMember_iff] at hkept
      exact hkept hasMember_emptyMember
  · intro h
    obtain ⟨lens, hlens, hle⟩ := h.inRange
    have hlong : lens = [2 ^ 64 - 5] := Option.some.inj (hlens.symm.trans (by decide))
    have hlast := hle (2 ^ 64 - 5) (by simp [hlong])
    revert hlast
    decide

end HCache.CppPathSplits
