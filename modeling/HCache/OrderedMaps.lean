import Mathlib.Algebra.Group.Nat.Defs
import Mathlib.Data.Finset.Dedup
import Mathlib.Data.Finset.Erase
import Mathlib.Data.Finset.Insert
import Mathlib.Data.List.Pairwise
import Mathlib.Data.List.Perm.Subperm

/-!
# Ordered maps, range scans and enumerated sets

Range scans over an ordered map as lists of entries, characterised by membership and
strict ascent of the keys; these two facts determine the list. Bulk insertion folds
entries into a map. An iteration order is one way of listing each finite set.
-/
namespace HCache.OrderedMaps
open Std

universe u v
variable {κ : Type u} {β : Type v} [Ord κ] [TransOrd κ]

theorem lookup_insert [LawfulEqOrd κ] [DecidableEq κ] (m : ExtTreeMap κ β) (k : κ) (v : β) (a : κ) :
    (m.insert k v)[a]? = if k = a then some v else m[a]? := by
  simp [ExtTreeMap.getElem?_insert]

theorem lookup_erase [LawfulEqOrd κ] [DecidableEq κ] (m : ExtTreeMap κ β) (k a : κ) :
    (m.erase k)[a]? = if k = a then none else m[a]? := by
  simp [ExtTreeMap.getElem?_erase]

/-- Inserting where the key has just been erased is inserting. -/
theorem lookup_replace [LawfulEqOrd κ] [DecidableEq κ] (m : ExtTreeMap κ β) (k : κ) (v : β)
    (a : κ) :
    ((m.erase k).insertIfNew k v)[a]? = if k = a then some v else m[a]? := by
  rw [ExtTreeMap.getElem?_insertIfNew]
  by_cases h : k = a
  · subst h
    simp
  · rw [if_neg (by simp [h]), if_neg h, lookup_erase, if_neg h]

def Ascending (l : List (κ × β)) : Prop := l.Pairwise (fun a b => compare a.1 b.1 = .lt)

theorem Ascending.nodup {l : List (κ × β)} (h : Ascending l) : l.Nodup := by
  refine List.Pairwise.imp ?_ h
  rintro a b hab rfl
  simp [ReflOrd.compare_self] at hab

/-- An ascending list of entries is determined by its elements. -/
theorem Ascending.eq_of_mem_iff {l l' : List (κ × β)} (h : Ascending l) (h' : Ascending l')
    (hmem : ∀ e, e ∈ l ↔ e ∈ l') : l = l' := by
  have hp : l.Perm l' := (List.perm_ext_iff_of_nodup h.nodup h'.nodup).mpr hmem
  refine hp.eq_of_pairwise ?_ h h'
  intro a b _ _ hab hba
  have hflip := OrientedCmp.gt_of_lt hab
  simp [hflip] at hba

theorem ascending_toList (m : ExtTreeMap κ β) : Ascending m.toList :=
  ExtTreeMap.ordered_keys_toList

/-- A map that extends another one has the same size only as the same map. -/
theorem size_eq_iff_of_extends [LawfulEqOrd κ] {m n : ExtTreeMap κ β}
    (h : ∀ (k : κ) (v : β), m[k]? = some v → n[k]? = some v) : n.size = m.size ↔ n = m := by
  constructor
  · intro hsize
    have hsub : m.toList ⊆ n.toList := by
      intro e he
      exact ExtTreeMap.mem_toList_iff_getElem?_eq_some.mpr
        (h e.1 e.2 (ExtTreeMap.mem_toList_iff_getElem?_eq_some.mp he))
    have hlen : n.toList.length ≤ m.toList.length := by
      rw [ExtTreeMap.length_toList, ExtTreeMap.length_toList, hsize]
    have hperm := (List.subperm_of_subset (ascending_toList m).nodup hsub).perm_of_length_le hlen
    apply ExtTreeMap.ext_getElem?
    intro k
    apply Option.ext
    intro v
    rw [← ExtTreeMap.mem_toList_iff_getElem?_eq_some, ← ExtTreeMap.mem_toList_iff_getElem?_eq_some,
      hperm.mem_iff]
  · intro he
    rw [he]

theorem distinct_keys_toList (m : ExtTreeMap κ β) : m.toList.Pairwise (fun a b => a.1 ≠ b.1) := by
  refine List.Pairwise.imp ?_ (ascending_toList m)
  intro a b hab he
  simp [he, ReflOrd.compare_self] at hab

def rangeEntries (m : ExtTreeMap κ β) (lo hi : κ) : List (κ × β) :=
  m.toList.filter (fun e => (compare lo e.1).isLE && (compare e.1 hi).isLE)

theorem mem_rangeEntries [LawfulEqOrd κ] {m : ExtTreeMap κ β} {lo hi k : κ} {v : β} :
    (k, v) ∈ rangeEntries m lo hi ↔
      m[k]? = some v ∧ (compare lo k).isLE ∧ (compare k hi).isLE := by
  simp [rangeEntries, ExtTreeMap.mem_toList_iff_getElem?_eq_some]

theorem ascending_rangeEntries (m : ExtTreeMap κ β) (lo hi : κ) :
    Ascending (rangeEntries m lo hi) :=
  (ascending_toList m).filter _

section Scans
variable {α : Type*} {p : α → Bool} {l : List α}

/-- Where a test can only turn from true to false, the prefix that passes it is all that passes. -/
theorem takeWhile_eq_filter (h : l.Pairwise (fun a b => p b = true → p a = true)) :
    l.takeWhile p = l.filter p := by
  induction l with
  | nil => rfl
  | cons a l ih =>
    rw [List.pairwise_cons] at h
    cases ha : p a with
    | true => rw [List.takeWhile_cons_of_pos ha, List.filter_cons_of_pos ha, ih h.2]
    | false =>
      have hrest : ∀ b ∈ l, ¬ p b = true := by
        intro b hb hpb
        simp [h.1 b hb hpb] at ha
      rw [List.takeWhile_cons_of_neg (by simp [ha]), List.filter_cons_of_neg (by simp [ha]),
        List.filter_eq_nil_iff.mpr hrest]

private theorem dropWhile_eq_filter (h : l.Pairwise (fun a b => p b = true → p a = true)) :
    l.dropWhile p = l.filter (fun a => !p a) := by
  induction l with
  | nil => rfl
  | cons a l ih =>
    rw [List.pairwise_cons] at h
    cases ha : p a with
    | true =>
      rw [List.dropWhile_cons_of_pos ha, List.filter_cons_of_neg (by simp [ha]), ih h.2]
    | false =>
      have hrest : ∀ b ∈ l, (!p b) = true := by
        intro b hb
        cases hpb : p b with
        | true => simp [h.1 b hb hpb] at ha
        | false => rfl
      rw [List.dropWhile_cons_of_neg (by simp [ha]), List.filter_cons_of_pos (by simp [ha]),
        List.filter_eq_self.mpr hrest]

end Scans

/-- The entries from the first key not below `lo` to the last one before a key above `hi`. -/
def scanEntries (m : ExtTreeMap κ β) (lo hi : κ) : List (κ × β) :=
  (m.toList.dropWhile (fun e => compare e.1 lo == .lt)).takeWhile (fun e => (compare e.1 hi).isLE)

theorem scanEntries_eq_rangeEntries (m : ExtTreeMap κ β) (lo hi : κ) :
    scanEntries m lo hi = rangeEntries m lo hi := by
  have hlt : m.toList.Pairwise (fun a b => (compare b.1 lo == .lt) = true →
      (compare a.1 lo == .lt) = true) := by
    refine (ascending_toList m).imp ?_
    intro a b hab hb
    simp only [beq_iff_eq] at hb ⊢
    exact TransCmp.lt_trans hab hb
  have hle : m.toList.Pairwise (fun a b => (compare b.1 hi).isLE = true →
      (compare a.1 hi).isLE = true) := by
    refine (ascending_toList m).imp ?_
    intro a b hab hb
    exact TransCmp.isLE_trans (by simp [hab]) hb
  rw [scanEntries, dropWhile_eq_filter hlt, takeWhile_eq_filter (hle.filter _), List.filter_filter,
    rangeEntries]
  apply List.filter_congr
  intro e _
  have hswap : compare e.1 lo = (compare lo e.1).swap := OrientedCmp.eq_swap
  rw [hswap]
  cases compare lo e.1 <;> simp [Bool.and_comm]

def insertAll (m : ExtTreeMap κ β) (l : List (κ × β)) : ExtTreeMap κ β :=
  l.foldl (fun m e => m.insert e.1 e.2) m

@[simp] theorem insertAll_nil (m : ExtTreeMap κ β) : insertAll m [] = m := rfl

@[simp] theorem insertAll_cons (m : ExtTreeMap κ β) (e : κ × β) (l : List (κ × β)) :
    insertAll m (e :: l) = insertAll (m.insert e.1 e.2) l := rfl

variable [LawfulEqOrd κ]

theorem getElem?_insertAll_of_notMem {m : ExtTreeMap κ β} {l : List (κ × β)} {k : κ}
    (h : ∀ e ∈ l, e.1 ≠ k) : (insertAll m l)[k]? = m[k]? := by
  induction l generalizing m with
  | nil => rfl
  | cons e l ih =>
    have he : e.1 ≠ k := h e (by simp)
    rw [insertAll_cons, ih (fun b hb => h b (by simp [hb]))]
    simp [ExtTreeMap.getElem?_insert, he]

/-- With pairwise distinct keys every entry of the list is found afterwards. -/
theorem getElem?_insertAll_of_mem {m : ExtTreeMap κ β} {l : List (κ × β)} {k : κ} {v : β}
    (hd : l.Pairwise (fun a b => a.1 ≠ b.1)) (h : (k, v) ∈ l) :
    (insertAll m l)[k]? = some v := by
  induction l generalizing m with
  | nil => simp at h
  | cons e l ih =>
    rw [List.pairwise_cons] at hd
    rcases List.mem_cons.mp h with rfl | h
    · rw [insertAll_cons, getElem?_insertAll_of_notMem (fun b hb => (hd.1 b hb).symm)]
      simp
    · exact ih hd.2 h

/-- Entries with distinct keys are the entries of the map they fill. -/
theorem toList_insertAll_perm {l : List (κ × β)} (hd : l.Pairwise (fun a b => a.1 ≠ b.1)) :
    (insertAll ∅ l).toList.Perm l := by
  have hnodup : l.Nodup := hd.imp (fun hab he => hab (congrArg Prod.fst he))
  refine (List.perm_ext_iff_of_nodup (ascending_toList _).nodup hnodup).mpr ?_
  intro e
  rw [ExtTreeMap.mem_toList_iff_getElem?_eq_some]
  constructor
  · intro he
    by_contra hmem
    by_cases hkey : ∃ b ∈ l, b.1 = e.1
    · obtain ⟨b, hb, hbe⟩ := hkey
      have hget := getElem?_insertAll_of_mem (m := ∅) hd hb
      rw [hbe, he] at hget
      exact hmem (by rwa [show e = b from Prod.ext hbe.symm (Option.some.inj hget)])
    · rw [getElem?_insertAll_of_notMem (fun b hb hbe => hkey ⟨b, hb, hbe⟩)] at he
      simp at he
  · intro he
    exact getElem?_insertAll_of_mem hd he

def valuesOf [DecidableEq κ] (l : List (κ × β)) (k : κ) : List β :=
  l.filterMap (fun e => if e.1 = k then some e.2 else none)

omit [Ord κ] [TransOrd κ] [LawfulEqOrd κ] in
/-- Leaving out entries of other keys does not change the values of a key. -/
theorem valuesOf_filter [DecidableEq κ] {p : κ × β → Bool} {l : List (κ × β)} {k : κ}
    (hp : ∀ e ∈ l, e.1 = k → p e = true) : valuesOf (l.filter p) k = valuesOf l k := by
  rw [valuesOf, valuesOf, List.filterMap_filter]
  apply List.filterMap_congr
  intro e he
  by_cases hk : e.1 = k
  · simp [hp e he hk]
  · simp [hk]

/-- The last entry of a key is the one that stays. -/
theorem lookup_insertAll [DecidableEq κ] (m : ExtTreeMap κ β) (l : List (κ × β)) (k : κ) :
    (insertAll m l)[k]? = (valuesOf l k).getLast?.or m[k]? := by
  induction l generalizing m with
  | nil => simp [valuesOf]
  | cons e l ih =>
    rw [insertAll_cons, ih, lookup_insert]
    by_cases hk : e.1 = k
    · have hcons : valuesOf (e :: l) k = e.2 :: valuesOf l k := by simp [valuesOf, hk]
      rw [hcons, if_pos hk, List.getLast?_cons]
      cases (valuesOf l k).getLast? with
      | none => rfl
      | some v => rfl
    · have hcons : valuesOf (e :: l) k = valuesOf l k := by simp [valuesOf, hk]
      rw [hcons, if_neg hk]

theorem isSome_insertAll {m : ExtTreeMap κ β} {l : List (κ × β)} {k : κ} :
    (insertAll m l)[k]?.isSome ↔ (∃ e ∈ l, e.1 = k) ∨ m[k]?.isSome := by
  induction l generalizing m with
  | nil => simp
  | cons e l ih =>
    rw [insertAll_cons, ih]
    by_cases he : e.1 = k
    · simp [he]
    · simp [ExtTreeMap.getElem?_insert, he]

/-- Inserting all entries of a map into the empty map gives the map back. -/
theorem insertAll_toList (m : ExtTreeMap κ β) : insertAll ∅ m.toList = m := by
  apply ExtTreeMap.ext_getElem?
  intro k
  cases hk : m[k]? with
  | none =>
    have habs : ∀ e ∈ m.toList, e.1 ≠ k := by
      rintro ⟨k', v⟩ he rfl
      simp [ExtTreeMap.mem_toList_iff_getElem?_eq_some, hk] at he
    simp [getElem?_insertAll_of_notMem habs]
  | some v =>
    exact getElem?_insertAll_of_mem (distinct_keys_toList m)
      (ExtTreeMap.mem_toList_iff_getElem?_eq_some.mpr hk)

def eraseAll (m : ExtTreeMap κ β) (l : List κ) : ExtTreeMap κ β := l.foldl (fun m k => m.erase k) m

theorem lookup_eraseAll [DecidableEq κ] (m : ExtTreeMap κ β) (l : List κ) (k : κ) :
    (eraseAll m l)[k]? = if k ∈ l then none else m[k]? := by
  induction l generalizing m with
  | nil => simp [eraseAll]
  | cons a l ih =>
    have hcons : eraseAll m (a :: l) = eraseAll (m.erase a) l := rfl
    rw [hcons, ih, lookup_erase]
    by_cases hk : k ∈ l
    · simp [hk]
    · by_cases ha : a = k
      · simp [ha]
      · simp [hk, ha, Ne.symm ha]

/-- Erasing keys that are not there changes nothing. -/
theorem eraseAll_eq_self_iff {m : ExtTreeMap κ β} {l : List κ} :
    eraseAll m l = m ↔ ∀ k ∈ l, k ∉ m := by
  classical
  constructor
  · intro h k hk
    have hlookup := lookup_eraseAll m l k
    rw [h, if_pos hk] at hlookup
    rw [ExtTreeMap.mem_iff_isSome_getElem?, hlookup]
    simp
  · intro h
    apply ExtTreeMap.ext_getElem?
    intro k
    rw [lookup_eraseAll]
    split
    · next hk => exact (ExtTreeMap.getElem?_eq_none (h k hk)).symm
    · rfl

/-- Collect the elements of a list under their keys, each into what its key has so far. -/
def groupInto (key : α → κ) (add : β → α → β) (empty : β) (l : List α) : ExtTreeMap κ β :=
  l.foldl (fun m a => m.alter (key a) (fun b : Option β => some (add (b.getD empty) a))) ∅

private theorem lookup_foldl_alter [DecidableEq κ] (key : α → κ) (add : β → α → β) (empty : β)
    (l : List α) (m : ExtTreeMap κ β) (k : κ) :
    (l.foldl (fun m a => m.alter (key a) (fun b : Option β => some (add (b.getD empty) a))) m)[k]? =
      if l.filter (fun a => key a = k) = [] then m[k]?
      else some ((l.filter (fun a => key a = k)).foldl add (m[k]?.getD empty)) := by
  induction l generalizing m with
  | nil => simp
  | cons a l ih =>
    rw [List.foldl_cons, ih]
    by_cases hk : key a = k
    · subst hk
      by_cases hl : l.filter (fun b => key b = key a) = []
      · simp [hl]
      · simp [hl]
    · simp [hk, ExtTreeMap.getElem?_alter]

theorem lookup_groupInto [DecidableEq κ] (key : α → κ) (add : β → α → β) (empty : β) (l : List α)
    (k : κ) :
    (groupInto key add empty l)[k]? =
      if l.filter (fun a => key a = k) = [] then none
      else some ((l.filter (fun a => key a = k)).foldl add empty) := by
  rw [groupInto, lookup_foldl_alter]
  simp

/-- What a key is given, if it is given anything. -/
theorem getD_groupInto [DecidableEq κ] (key : α → κ) (add : β → α → β) (empty : β) (l : List α)
    (k : κ) :
    (groupInto key add empty l)[k]?.getD empty =
      (l.filter (fun a => key a = k)).foldl add empty := by
  rw [lookup_groupInto]
  split
  · next hnil => rw [hnil]; rfl
  · rfl

section Unions
omit [LawfulEqOrd κ]
variable {ms : List (ExtTreeMap κ β)} {k : κ} {o : Option β}

def unionAll (ms : List (ExtTreeMap κ β)) : ExtTreeMap κ β := ms.foldr (fun m u => m ∪ u) ∅

theorem lookup_unionAll_cons (m : ExtTreeMap κ β) :
    (unionAll (m :: ms))[k]? = (unionAll ms)[k]?.or m[k]? :=
  ExtTreeMap.getElem?_union

private theorem lookup_unionAll_cases (h : ∀ m ∈ ms, m[k]? = none ∨ m[k]? = o) :
    (unionAll ms)[k]? = none ∨ (unionAll ms)[k]? = o := by
  induction ms with
  | nil => exact .inl (by simp [unionAll])
  | cons m ms ih =>
    have hm := h m (by simp)
    rw [lookup_unionAll_cons]
    rcases ih (fun m' hm' => h m' (by simp [hm'])) with hu | hu
    · rwa [hu, Option.none_or]
    · rcases hm with hm | hm
      · exact .inr (by rw [hm, hu, Option.or_none])
      · exact .inr (by rw [hm, hu, Option.or_self])

/-- Where some map gives a lookup result and no map gives another one, so does the union. -/
theorem lookup_unionAll (h : ∀ m ∈ ms, m[k]? = none ∨ m[k]? = o) (ho : ∃ m ∈ ms, m[k]? = o) :
    (unionAll ms)[k]? = o := by
  induction ms with
  | nil => simp at ho
  | cons m ms ih =>
    have htail : ∀ m' ∈ ms, m'[k]? = none ∨ m'[k]? = o := fun m' hm' => h m' (by simp [hm'])
    obtain ⟨m', hm', hmo⟩ := ho
    rw [lookup_unionAll_cons]
    rcases List.mem_cons.mp hm' with rfl | hin
    · rcases lookup_unionAll_cases htail with hu | hu
      · rw [hu, hmo, Option.none_or]
      · rw [hu, hmo, Option.or_self]
    · have hu := ih htail ⟨m', hin, hmo⟩
      rcases h m (by simp) with hm | hm
      · rw [hm, hu, Option.or_none]
      · rw [hm, hu, Option.or_self]

end Unions

/-- One way of listing the elements of every finite set, each element once. -/
structure IterationOrder (β : Type v) where
  list : Finset β → List β
  nodup : ∀ s, (list s).Nodup
  mem_list : ∀ s b, b ∈ list s ↔ b ∈ s

attribute [simp] IterationOrder.mem_list

/-- Some iteration order exists for every type. -/
noncomputable def IterationOrder.choice (β : Type v) : IterationOrder β where
  list := Finset.toList
  nodup := Finset.nodup_toList
  mem_list := by simp

/-- One way of listing the entries of every map. -/
structure EntryOrder (κ : Type u) [Ord κ] [TransOrd κ] (β : Type v) where
  list : ExtTreeMap κ β → List (κ × β)
  perm : ∀ m, (list m).Perm m.toList

def EntryOrder.ascending (κ : Type u) [Ord κ] [TransOrd κ] (β : Type v) : EntryOrder κ β :=
  ⟨ExtTreeMap.toList, fun m => List.Perm.refl m.toList⟩

theorem EntryOrder.mem_list (order : EntryOrder κ β) {m : ExtTreeMap κ β} {k : κ} {v : β} :
    (k, v) ∈ order.list m ↔ m[k]? = some v := by
  rw [(order.perm m).mem_iff, ExtTreeMap.mem_toList_iff_getElem?_eq_some]

omit [LawfulEqOrd κ] in
theorem EntryOrder.distinct_keys (order : EntryOrder κ β) (m : ExtTreeMap κ β) :
    ((order.list m).map Prod.fst).Nodup := by
  rw [List.Nodup, List.pairwise_map, (order.perm m).pairwise_iff (fun hab => hab.symm)]
  exact distinct_keys_toList m

end HCache.OrderedMaps
