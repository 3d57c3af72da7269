import HCache.KeyPartitions
import HCache.RustClusterSteps

/-!
# The storages of a cluster as one storage

In memory a request reads and changes only what is stored under its own key. A cluster
whose keys are stored at most on their owners is therefore one storage split by key, the
union of the storages of its nodes.
-/
namespace HCache.RustClusterStores
open Std OrderedMaps KeyPartitions RustStorage RustRouting RustClusterNodes RustClusterSteps

variable {Host : Type}

def inMemory (s : Storage) (key : Str) : Option Str × Option ZSet := (s.kv[key]?, s.zsets[key]?)

/-- A request changes what is stored under its own key only. -/
theorem execute_other {order : IterationOrder Str} {s s' : Storage} {req : Request}
    {response : Response} (h : execute order s req = .ok (s', response)) {key : Str}
    (hk : key ≠ req.key) :
    inMemory s' key = inMemory s key := by
  have hne : req.key ≠ key := Ne.symm hk
  cases req with
  | zrange k dto => rw [execute_zrange_storage h]
  | zrmv k value =>
    simp only [execute, Except.ok.injEq, Prod.mk.injEq] at h
    simp only [Request.key] at hne
    rcases zrmv_cases s k value with ⟨hsame, -⟩ | ⟨z, score, -, -, hdrop⟩
    · rw [← h.1, hsame]
    · simp only [← h.1, hdrop, inMemory, lookup_insert, if_neg hne]
  | _ =>
    simp only [execute, Except.ok.injEq, Prod.mk.injEq] at h
    simp only [Request.key] at hne
    simp [← h.1, inMemory, lookup_insert, lookup_erase, hne]

/-- What a request leaves under its key and its answer depend on what was there. -/
theorem serveAlone_congr {s t : Storage} {e : Execution Host}
    (h : inMemory s e.req.key = inMemory t e.req.key) :
    inMemory (serveAlone s e).1 e.req.key = inMemory (serveAlone t e).1 e.req.key ∧
    (serveAlone s e).2 = (serveAlone t e).2 := by
  obtain ⟨id, host, req, order⟩ := e
  obtain ⟨hkv, hz⟩ := Prod.mk.inj h
  simp only [serveAlone_eq]
  cases req with
  | query key => exact ⟨h, congrArg queryResponse hkv⟩
  | del key => exact ⟨by simp [execute, Except.toOption, inMemory, Request.key], rfl⟩
  | add kv => exact ⟨by simp [execute, Except.toOption, inMemory, Request.key], rfl⟩
  | zadd key dto =>
    simp only [Request.key] at hkv hz
    refine ⟨?_, rfl⟩
    simp [execute, Except.toOption, inMemory, Request.key, Storage.getOrInsertZset, hkv, hz]
  | zrange key dto =>
    simp only [Request.key] at hkv hz
    simp only [execute, Storage.zrange, hz]
    cases t.zsets[key]? with
    | none => exact ⟨h, rfl⟩
    | some z =>
      cases hr : z.zrange order dto with
      | error reason => simpa [hr, Except.map, Except.toOption] using h
      | ok v => simpa [hr, Except.map, Except.toOption] using h
  | zrmv key value =>
    simp only [Request.key] at hkv hz
    refine ⟨?_, rfl⟩
    simp only [execute, Except.toOption, Option.getD_some, Request.key]
    cases ht : t.zsets[key]? with
    | none => simpa [Storage.zrmv, hz, ht, Request.key] using h
    | some z =>
      cases hv : z.valueToScore[value]? with
      | none => simpa [Storage.zrmv, hz, ht, hv, Request.key] using h
      | some score => simp [Storage.zrmv, inMemory, hz, ht, hv, hkv]

theorem keyLocal_serveAlone :
    KeyLocal inMemory (fun e => e.req.key) (serveAlone : Storage → Execution Host →
      Storage × Response) := by
  constructor
  · intro s e key hk
    cases he : execute e.order s e.req with
    | ok p =>
      rw [serveAlone_of_execute he]
      exact execute_other he hk
    | error reason => rw [serveAlone_eq, he]; rfl
  · intro s t e h
    exact (serveAlone_congr h).1
  · intro s t e h
    exact (serveAlone_congr h).2

def merged (c : HostList Host) (stores : Host → Storage) : Storage where
  kv := unionAll (c.hosts.map (fun h => (stores h).kv))
  zsets := unionAll (c.hosts.map (fun h => (stores h).zsets))
  db := unionAll (c.hosts.map (fun h => (stores h).db))
  zsetDb := unionAll (c.hosts.map (fun h => (stores h).zsetDb))

/-- Every key is stored at most on its owner. -/
def PlacedAtOwners (c : HostList Host) (stores : Host → Storage) : Prop :=
  ∀ h ∈ c.hosts, Placed inMemory (none, none) (keyOwner c) h (stores h)

theorem covers_merged {c : HostList Host} {stores : Host → Storage} (h : PlacedAtOwners c stores) :
    Covers inMemory (keyOwner c) stores (merged c stores) := by
  classical
  intro key
  have hother : ∀ host ∈ c.hosts, inMemory (stores host) key = (none, none) ∨
      host = keyOwner c key := by
    intro host hh
    rcases eq_or_ne host (keyOwner c key) with ho | ho
    · exact .inr ho
    · exact .inl (h host hh key ho)
  have hmem : keyOwner c key ∈ c.hosts := c.owner_mem _
  refine Prod.ext (Eq.symm ?_) (Eq.symm ?_)
  · apply lookup_unionAll
    · intro m hm
      obtain ⟨host, hh, rfl⟩ := List.mem_map.mp hm
      rcases hother host hh with hn | rfl
      · exact .inl (congrArg Prod.fst hn)
      · exact .inr rfl
    · exact ⟨_, List.mem_map.mpr ⟨_, hmem, rfl⟩, rfl⟩
  · apply lookup_unionAll
    · intro m hm
      obtain ⟨host, hh, rfl⟩ := List.mem_map.mp hm
      rcases hother host hh with hn | rfl
      · exact .inl (congrArg Prod.snd hn)
      · exact .inr rfl
    · exact ⟨_, List.mem_map.mpr ⟨_, hmem, rfl⟩, rfl⟩

def holding (h : ℕ) : Storage := if h = 1 then Storage.new.insertKv [97] [98] else Storage.new

theorem placed_holding : PlacedAtOwners twoNodes holding := by
  intro h _ key hne
  rw [holding]
  split
  · next h1 =>
    have hkey : ([97] : Str) ≠ key := by
      rintro rfl
      exact hne (h1.trans owner_a.symm)
    simp [inMemory, Storage.new, Storage.insertKv, Storage.insertKvInMemory, Storage.zsetsRemove,
      hkey]
  · simp [inMemory, Storage.new]

end HCache.RustClusterStores
