import HCache.RustRouting
import HCache.SequentialMachines

/-!
# Plain keys and sorted sets under one name

The API gives every key one kind: `add` and `batch` replace a sorted set, `zadd` on a
plain key is refused. The local batch path does not touch `zsets` and `zadd` does not
consult `kv`, so the kinds stay apart exactly along the runs that never use these two
paths on a key of the other kind.
-/
namespace HCache.RustKeyKinds
open Std OrderedMaps SequentialMachines RustStorage RustRouting

/-- No key is present in both `kv` and `zsets`. -/
def KindsDisjoint (s : Storage) : Prop := ∀ key : Str, s.kv[key]? = none ∨ s.zsets[key]? = none

/-- What the API promises for an operation on a key of the other kind: `add` and `batch`
replace a sorted set, `zadd` on a plain key is answered with an error and changes nothing. -/
def HonoursKinds (s : Storage) : LocalOp → Prop
  | .insertKv key value => s.zsets[key]? ≠ none →
      ∀ order r, (s.insertKv key value).zrange order key r = .ok none
  | .batchInsertKv kvs => ∀ kv ∈ kvs, s.zsets[kv.key]? ≠ none →
      ∀ order r, (s.batchInsertKv kvs).zrange order kv.key r = .ok none
  | .zadd key sv => s.kv[key]? ≠ none →
      ∃ s' response, handleZadd (Node.single s : Node Unit) key sv = .answer s' response ∧
        response.status ≠ .ok ∧ s'.kv = s.kv ∧ s'.zsets = s.zsets ∧ s'.zsetDb = s.zsetDb
  | .del _ | .zrmv _ _ => True

/-- No `zadd` on a key of `kv`, and no batch pair on a key of `zsets`. -/
def KeepsKinds (s : Storage) : LocalOp → Prop
  | .zadd key _ => s.kv[key]? = none
  | .batchInsertKv kvs => ∀ kv ∈ kvs, s.zsets[kv.key]? = none
  | .insertKv _ _ | .del _ | .zrmv _ _ => True

private theorem kindsDisjoint_new : KindsDisjoint Storage.new := by
  intro key
  simp [Storage.new]

private theorem zrmv_zsets_isSome (s : Storage) (key value k : Str) :
    (s.zrmv key value).zsets[k]? = none ↔ s.zsets[k]? = none := by
  rcases zrmv_cases s key value with ⟨heq, -⟩ | ⟨z, score, hz, -, heq⟩
  · rw [heq]
  · rw [heq]
    by_cases hk : key = k
    · simp [← hk, hz]
    · simp [lookup_insert, hk]

private theorem batch_kv_isSome (s : Storage) (kvs : List InsrtRequest) (key : Str) :
    (s.batchInsertKv kvs).kv[key]? = none ↔ (∀ kv ∈ kvs, kv.key ≠ key) ∧ s.kv[key]? = none := by
  have h := isSome_insertAll (m := s.kv) (l := kvs.map InsrtRequest.entry) (k := key)
  rw [← Option.not_isSome_iff_eq_none, batchInsertKv_kv, h]
  simp [InsrtRequest.entry]

/-- From disjoint kinds, an operation keeps them disjoint exactly when it is one of those
that the two paths handle. -/
theorem kindsDisjoint_apply_iff {s : Storage} (h : KindsDisjoint s) (op : LocalOp) :
    KindsDisjoint (s.apply op) ↔ KeepsKinds s op := by
  cases op with
  | insertKv key value =>
    refine ⟨fun _ => trivial, fun _ k => ?_⟩
    by_cases hk : key = k
    · exact .inr (by simp [Storage.apply, hk])
    · simpa [Storage.apply, lookup_insert, lookup_erase, hk] using h k
  | batchInsertKv kvs =>
    constructor
    · intro hd kv hkv
      rcases hd kv.key with hkey | hkey
      · exact absurd rfl (((batch_kv_isSome s kvs kv.key).mp hkey).1 kv hkv)
      · exact hkey
    · intro hkeep k
      by_cases hk : ∃ kv ∈ kvs, kv.key = k
      · obtain ⟨kv, hkv, rfl⟩ := hk
        exact .inr (hkeep kv hkv)
      · refine (h k).imp (fun hkey => ?_) id
        exact (batch_kv_isSome s kvs k).mpr ⟨fun kv hkv he => hk ⟨kv, hkv, he⟩, hkey⟩
  | del key =>
    refine ⟨fun _ => trivial, fun _ k => ?_⟩
    by_cases hk : key = k
    · exact .inl (by simp [Storage.apply, hk])
    · simpa [Storage.apply, lookup_erase, hk] using h k
  | zadd key sv =>
    constructor
    · intro hd
      rcases hd key with hkey | hkey
      · exact hkey
      · simp [Storage.apply] at hkey
    · intro hkeep k
      by_cases hk : key = k
      · exact .inl (hk ▸ hkeep)
      · simpa [Storage.apply, lookup_insert, hk] using h k
  | zrmv key value =>
    refine ⟨fun _ => trivial, fun _ k => ?_⟩
    exact (h k).imp (fun hkey => by simpa [Storage.apply] using hkey)
      (fun hkey => (zrmv_zsets_isSome s key value k).mpr hkey)

/-- Where the kinds are kept, the promises hold: those for batch and `zadd` are not called upon. -/
theorem honoursKinds_of_keeps {s : Storage} {op : LocalOp} (h : KeepsKinds s op) :
    HonoursKinds s op := by
  cases op with
  | insertKv key value =>
    intro _ order r
    simp [Storage.zrange]
  | batchInsertKv kvs =>
    intro kv hkv hz
    exact absurd (h kv hkv) hz
  | zadd key sv =>
    intro hkv
    exact absurd h hkv
  | del key => trivial
  | zrmv key value => trivial

/-- Along a run from the empty store every state keeps the kinds apart, and every operation
honours them, exactly when no `zadd` met a plain key and no batch pair a sorted set. -/
theorem kinds_kept_iff (ops : List LocalOp) :
    (AllStates Storage.apply KindsDisjoint Storage.new ops ∧
      AllSteps Storage.apply HonoursKinds Storage.new ops) ↔
    AllSteps Storage.apply KeepsKinds Storage.new ops := by
  have hexact : AllStates Storage.apply KindsDisjoint Storage.new ops ↔
      AllSteps Storage.apply KeepsKinds Storage.new ops :=
    allStates_iff_allSteps (fun _ => True) KindsDisjoint (fun _ _ => True) KeepsKinds
      (fun _ _ _ _ => trivial) (fun _ op _ h _ => kindsDisjoint_apply_iff h op)
      trivial kindsDisjoint_new (allSteps_const.mpr (fun _ _ => trivial))
  constructor
  · intro h
    exact hexact.mp h.1
  · intro h
    have hstates := hexact.mpr h
    exact ⟨hstates, h.imp hstates (fun _ _ _ hkeep => honoursKinds_of_keeps hkeep)⟩

/-- A batch over a sorted set leaves the key with both kinds. -/
theorem kinds_not_always_kept : ¬ ∀ ops : List LocalOp,
    AllStates Storage.apply KindsDisjoint Storage.new ops ∧
      AllSteps Storage.apply HonoursKinds Storage.new ops := by
  intro h
  have hlast := (h [.zadd [122] ⟨1, [97]⟩, .batchInsertKv [⟨[122], [98]⟩]]).1.last [122]
  revert hlast
  decide

end HCache.RustKeyKinds
