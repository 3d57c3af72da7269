import Mathlib.Data.Fintype.Basic
import Mathlib.Data.List.FinRange
import Mathlib.Logic.Function.Basic

/-!
# Stores split by key

A store is looked at key by key. Its operations name one key, and read and change only
what the store shows there. Such a store may be split over shards that each own some of
the keys: running every operation on the owner's shard keeps the split and gives the
responses of the whole store.
-/
namespace HCache.KeyPartitions

variable {σ κ ε α ρ ι : Type*}

/-- Operations see and change what the store shows under their own key, and nothing else. -/
structure KeyLocal (view : σ → κ → ε) (key : α → κ) (exec : σ → α → σ × ρ) : Prop where
  other : ∀ s a k, k ≠ key a → view (exec s a).1 k = view s k
  self : ∀ s t a, view s (key a) = view t (key a) →
    view (exec s a).1 (key a) = view (exec t a).1 (key a)
  response : ∀ s t a, view s (key a) = view t (key a) → (exec s a).2 = (exec t a).2

/-- The store of shard `i` shows nothing under a key that `i` does not own. -/
def Placed (view : σ → κ → ε) (nothing : ε) (owner : κ → ι) (i : ι) (s : σ) : Prop :=
  ∀ k, i ≠ owner k → view s k = nothing

/-- Under each key the owner's shard shows what the whole store shows. -/
def Covers (view : σ → κ → ε) (owner : κ → ι) (shards : ι → σ) (whole : σ) : Prop :=
  ∀ k, view (shards (owner k)) k = view whole k

section Operations
variable {view : σ → κ → ε} {key : α → κ} {exec : σ → α → σ × ρ}
  {nothing : ε} {owner : κ → ι} {shards : ι → σ} {whole : σ}

theorem Placed.run (h : KeyLocal view key exec) (a : α) {s : σ}
    (hp : Placed view nothing owner (owner (key a)) s) :
    Placed view nothing owner (owner (key a)) (exec s a).1 := by
  intro k hi
  have hk : k ≠ key a := fun he => hi (congrArg owner he.symm)
  rw [h.other _ _ _ hk]
  exact hp k hi

theorem Covers.response (h : KeyLocal view key exec) (hc : Covers view owner shards whole) (a : α) :
    (exec (shards (owner (key a))) a).2 = (exec whole a).2 :=
  h.response _ _ _ (hc _)

variable [DecidableEq ι]

theorem Covers.run (h : KeyLocal view key exec) (hc : Covers view owner shards whole) (a : α) :
    Covers view owner (Function.update shards (owner (key a)) (exec (shards (owner (key a))) a).1)
      (exec whole a).1 := by
  classical
  intro k
  rcases eq_or_ne k (key a) with rfl | hk
  · rw [Function.update_self]
    exact h.self _ _ _ (hc _)
  · rw [h.other whole a k hk, ← hc k]
    rcases eq_or_ne (owner k) (owner (key a)) with ho | ho
    · rw [ho, Function.update_self]
      exact h.other _ _ _ hk
    · rw [Function.update_of_ne ho]

end Operations

section Places
variable {τ : Type*} [DecidableEq ι] {place : τ → ι} {f : τ → σ → σ}

/-- Let each piece of work change its own place, one after another. -/
def workAll (place : τ → ι) (f : τ → σ → σ) (shards : ι → σ) (work : List τ) : ι → σ :=
  work.foldl (fun shards t => Function.update shards (place t) (f t (shards (place t)))) shards

theorem workAll_cons (t : τ) (work : List τ) (shards : ι → σ) :
    workAll place f shards (t :: work) =
      workAll place f (Function.update shards (place t) (f t (shards (place t)))) work := rfl

theorem workAll_of_notMem {work : List τ} {i : ι} (h : ∀ t ∈ work, place t ≠ i) (shards : ι → σ) :
    workAll place f shards work i = shards i := by
  induction work generalizing shards with
  | nil => rfl
  | cons t work ih =>
    have hne : i ≠ place t := (h t (by simp)).symm
    rw [workAll_cons, ih (fun u hu => h u (by simp [hu])), Function.update_of_ne hne]

/-- Where all pieces have different places, each finds its place untouched. -/
theorem workAll_of_mem {work : List τ} (hd : (work.map place).Nodup) {t : τ} (ht : t ∈ work)
    (shards : ι → σ) :
    workAll place f shards work (place t) = f t (shards (place t)) := by
  induction work generalizing shards with
  | nil => simp at ht
  | cons u work ih =>
    rw [List.map_cons, List.nodup_cons] at hd
    rcases List.mem_cons.mp ht with rfl | ht'
    · have hrest : ∀ v ∈ work, place v ≠ place t := by
        intro v hv he
        exact hd.1 (he ▸ List.mem_map_of_mem hv)
      rw [workAll_cons, workAll_of_notMem hrest, Function.update_self]
    · have hne : place t ≠ place u := by
        intro he
        exact hd.1 (he ▸ List.mem_map_of_mem ht')
      rw [workAll_cons, ih hd.2 ht', Function.update_of_ne hne]

end Places

variable [DecidableEq ι] (owner : κ → ι)

/-- Append each key to the bucket of its owner, in the order of the list. -/
def bucketBy (keys : List κ) : ι → List κ :=
  keys.foldl (fun b k => Function.update b (owner k) (b (owner k) ++ [k])) (fun _ => [])

theorem bucketBy_eq_filter (keys : List κ) (i : ι) :
    bucketBy owner keys i = keys.filter (fun k => owner k = i) := by
  have hrun : ∀ (l : List κ) (b : ι → List κ),
      l.foldl (fun b k => Function.update b (owner k) (b (owner k) ++ [k])) b i =
        b i ++ l.filter (fun k => owner k = i) := by
    intro l
    induction l with
    | nil => simp
    | cons k l ih =>
      intro b
      rw [List.foldl_cons, ih]
      rcases eq_or_ne (owner k) i with rfl | hne
      · simp
      · simp [hne, Ne.symm hne]
  exact (hrun keys _).trans (List.nil_append _)

/-- The buckets together hold the keys of the list. -/
theorem mem_bucketBy {keys : List κ} {i : ι} {k : κ} :
    k ∈ bucketBy owner keys i ↔ k ∈ keys ∧ owner k = i := by
  simp [bucketBy_eq_filter]

theorem nodup_bucketBy {keys : List κ} (h : keys.Nodup) (i : ι) :
    (bucketBy owner keys i).Nodup := by
  rw [bucketBy_eq_filter]
  exact h.filter _

theorem disjoint_bucketBy (keys : List κ) {i j : ι} (h : i ≠ j) :
    List.Disjoint (bucketBy owner keys i) (bucketBy owner keys j) := by
  intro k hi hj
  exact h (((mem_bucketBy owner).mp hi).2.symm.trans ((mem_bucketBy owner).mp hj).2)

variable {β : Type*} {places : List ι} {keys : List κ} {lookup : ι → κ → Option β}

theorem mem_flatMap_bucketBy (hplaces : ∀ k, owner k ∈ places) {b : β} :
    b ∈ places.flatMap (fun i => (bucketBy owner keys i).filterMap (lookup i)) ↔
      ∃ k ∈ keys, lookup (owner k) k = some b := by
  simp only [List.mem_flatMap, List.mem_filterMap, mem_bucketBy]
  constructor
  · rintro ⟨i, -, k, ⟨hk, rfl⟩, hb⟩
    exact ⟨k, hk, hb⟩
  · rintro ⟨k, hk, hb⟩
    exact ⟨owner k, hplaces k, k, ⟨hk, rfl⟩, hb⟩

/-- Where a found item tells its key, the items found have different keys. -/
theorem nodup_flatMap_bucketBy (hplaces : places.Nodup) (hkeys : keys.Nodup) {keyOf : β → κ}
    (hlookup : ∀ i k b, lookup i k = some b → keyOf b = k) :
    ((places.flatMap (fun i => (bucketBy owner keys i).filterMap (lookup i))).map keyOf).Nodup := by
  have hmem : ∀ i, ∀ b ∈ (bucketBy owner keys i).filterMap (lookup i),
      keyOf b ∈ bucketBy owner keys i := by
    intro i b hb
    obtain ⟨k, hk, hb⟩ := List.mem_filterMap.mp hb
    rwa [hlookup i k b hb]
  rw [List.map_flatMap, List.nodup_flatMap]
  constructor
  · intro i _
    rw [List.map_filterMap]
    refine (nodup_bucketBy owner hkeys i).filterMap ?_
    intro k k' b hk hk'
    obtain ⟨x, hx, rfl⟩ := Option.map_eq_some_iff.mp hk
    obtain ⟨x', hx', he⟩ := Option.map_eq_some_iff.mp hk'
    rw [← hlookup i k x hx, ← hlookup i k' x' hx', he]
  · refine hplaces.imp ?_
    intro i j hij k hi hj
    obtain ⟨b, hb, rfl⟩ := List.mem_map.mp hi
    obtain ⟨b', hb', he⟩ := List.mem_map.mp hj
    exact disjoint_bucketBy owner keys hij (hmem i b hb) (he ▸ hmem j b' hb')

end HCache.KeyPartitions
