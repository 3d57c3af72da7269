import HCache.CppHttpHandlers
import HCache.RustDeployments
import HCache.RustListAnswers

/-!
# Rust and C++ servers for the same clients

A deployment of Rust servers and a C++ server answer the same requests, which both have read
alike: with the same key and the same score. Both serve one API where clients use a key as one
kind only: no plain key is added to as a sorted set, no batch overwrites a sorted set and no range
of a sorted set is reversed.
-/
namespace HCache.RustCppAgreement
open Std OrderedMaps SequentialMachines TwoIndexRelations KeyPartitions RustStorage RustSortedSets
  RustRouting RustClusterNodes RustClusterStores RustMultiKeyRequests RustListAnswers
  RustHttpHandler RustDeployments
open RustMultiKeyOutcomes (serveBatch_eq)
open CppSingleThreadStorage (Entry KeyOp groupsOf apiExec)
open CppHttpHandlers (apiHandle)

def keyValue (kv : InsrtRequest) : CppSingleThreadStorage.KeyValue := ⟨kv.key, kv.value⟩

/-- A request for one key as the C++ handlers read it, the scores as 64 bits. -/
def cppRequest : Request → CppHttpHandlers.Request
  | .query key => .query key
  | .del key => .del key
  | .add kv => .add (keyValue kv)
  | .zadd key dto => .zadd key dto.value dto.score.toUInt64
  | .zrange key dto => .zrange key dto.minScore.toUInt64 dto.maxScore.toUInt64
  | .zrmv key value => .zrmv key value

/-- What the handlers of both servers read of one request: a C++ list has its keys in a set. -/
inductive SameRequest : Action → CppHttpHandlers.Request → Prop
  | keyed (req : Request) : SameRequest (.keyed req) (cppRequest req)
  | batch (kvs : List InsrtRequest) : SameRequest (.batch kvs) (.batch (kvs.map keyValue))
  | list (keys : List Str) (set : CppShardedStorage.KeySet)
      (h : ∀ key, key ∈ set.keys ↔ key ∈ keys) :
    SameRequest (.list keys) (.list set)

/-- Equal status and content. The order of a list, and of the values of one score, is that of a
hash set on either side. -/
inductive SameResponse : HttpResponse → CppHttpHandlers.Response → Prop
  | done : SameResponse (.one .done) .done
  | batched : SameResponse (.many .done) .done
  | notFound : SameResponse (.one .notFound) .notFound
  | noneFound : SameResponse (.many .notFound) .notFound
  | text (value : Str) : SameResponse (.one ⟨.ok, .text value⟩) ⟨.ok, .text value⟩
  | scoreValues {l : List ScoreValue} {l' : List (UInt32 × Str)}
      (scores : l.map ScoreValue.score = l'.map Prod.fst)
    (perm : (l.map (fun sv => (sv.score, sv.value))).Perm l') :
    SameResponse (.one ⟨.ok, .scoreValues l⟩) ⟨.ok, .scoreValues l'⟩
  | keyValues {kvs : List InsrtRequest} {kvs' : List CppSingleThreadStorage.KeyValue}
      (perm : (kvs.map keyValue).Perm kvs') :
    SameResponse (.many ⟨.ok, .kvs kvs⟩) ⟨.ok, .keyValues kvs'⟩

def memberMap : Entry → Option (Str → Option UInt32)
  | .zset m => some (fun value => m[value]?)
  | .absent | .kv _ => none

structure HasEntry (s : Storage) (key : Str) (entry : Entry) : Prop where
  plain : s.getKv key = entry.value?
  sorted : view s key = memberMap entry

/-- A deployment holds every key at its home only, and there what the API has. -/
structure Shows {Host : Type} [DecidableEq Host] (d : Deployment Host) (w : World Host)
    (api : Str → Entry) : Prop where
  serving : Serving d w
  placed : ∀ h ∈ d.hosts, Placed inMemory (none, none) d.home h (stores w h)
  entries : ∀ key, HasEntry (stores w (d.home key)) key (api key)

/-- A request uses its keys as what they are, and does not reverse a range. -/
def KeepsKinds (api : Str → Entry) : CppHttpHandlers.Request → Prop
  | .zadd key _ _ => (api key).value? = none
  | .batch kvs => ∀ kv ∈ kvs, memberMap (api kv.key) = none
  | .zrange key minScore maxScore => memberMap (api key) ≠ none → minScore ≤ maxScore
  | _ => True

/-- What a range answers is determined up to the order of the values of a score. -/
theorem rangeAnswer_same {m : Str → Option UInt32} {r : ScoreRange} {l l' : List ScoreValue}
    (h : RangeAnswer m r l) (h' : RangeAnswer m r l') :
    l.Perm l' ∧ l.map ScoreValue.score = l'.map ScoreValue.score := by
  have hperm : l.Perm l' := by
    rw [List.perm_ext_iff_of_nodup h.values_nodup.of_map h'.values_nodup.of_map]
    intro sv
    rw [h.mem_iff, h'.mem_iff]
  refine ⟨hperm, ?_⟩
  apply (hperm.map ScoreValue.score).eq_of_pairwise
  · intro a b _ _ hab hba
    exact UInt32.le_antisymm hab hba
  · exact List.pairwise_map.mpr h.sorted
  · exact List.pairwise_map.mpr h'.sorted

def scoreValuesOf (order : IterationOrder Str) (groups : List CppSingleThreadStorage.ScoreValues) :
    List ScoreValue :=
  groups.flatMap (fun g => (order.list g.values).map (fun value => ⟨g.score, value⟩))

private theorem mem_scoreValuesOf {order : IterationOrder Str}
    {groups : List CppSingleThreadStorage.ScoreValues} {sv : ScoreValue} :
    sv ∈ scoreValuesOf order groups ↔ ∃ g ∈ groups, g.score = sv.score ∧ sv.value ∈ g.values := by
  simp only [scoreValuesOf, List.mem_flatMap, List.mem_map, IterationOrder.mem_list]
  constructor
  · rintro ⟨g, hg, value, hvalue, rfl⟩
    exact ⟨g, hg, rfl, hvalue⟩
  · rintro ⟨g, hg, hscore, hvalue⟩
    exact ⟨g, hg, sv.value, hvalue, by rw [hscore]⟩

private theorem rangeAnswer_groupsOf (order : IterationOrder Str) (m : ExtTreeMap Str UInt32)
    (r : ScoreRange) :
    RangeAnswer (fun value => m[value]?) r
      (scoreValuesOf order (groupsOf m r.minScore r.maxScore)) := by
  have hspec := CppSingleThreadStorage.groupsOf_spec m r.minScore r.maxScore
  refine ⟨?_, ?_, ?_⟩
  · intro sv
    rw [mem_scoreValuesOf]
    constructor
    · rintro ⟨g, hg, hscore, hvalue⟩
      rw [← hscore]
      exact ⟨(hspec.values g hg _).mp hvalue, hspec.in_range g hg⟩
    · rintro ⟨hm, hmin, hmax⟩
      obtain ⟨g, hg, hscore⟩ := hspec.complete _ _ hm hmin hmax
      exact ⟨g, hg, hscore, (hspec.values g hg _).mpr (hscore ▸ hm)⟩
  · rw [scoreValuesOf, List.map_flatMap, List.nodup_flatMap]
    constructor
    · intro g _
      simpa [List.map_map, Function.comp_def] using order.nodup g.values
    · refine List.Pairwise.imp_of_mem ?_ hspec.ascending
      intro g g' hg hg' hlt value hvalue hvalue'
      -- the score of a value is that of its group
      have hmember : ∀ g ∈ groupsOf m r.minScore r.maxScore,
          value ∈
            ((order.list g.values).map (fun value => (⟨g.score, value⟩ : ScoreValue))).map
              ScoreValue.value →
            m[value]? = some g.score := by
        intro g hg hin
        simp only [List.map_map, List.mem_map, IterationOrder.mem_list, Function.comp_apply,
          exists_eq_right] at hin
        exact (hspec.values g hg value).mp hin
      have heq := (hmember g hg hvalue).symm.trans (hmember g' hg' hvalue')
      rw [Option.some.inj heq] at hlt
      exact UInt32.lt_irrefl _ hlt
  · rw [scoreValuesOf, List.pairwise_flatMap]
    constructor
    · intro g _
      rw [List.pairwise_map]
      exact List.pairwise_of_forall (fun _ _ => UInt32.le_refl _)
    · refine hspec.ascending.imp ?_
      intro g g' hlt a ha b hb
      obtain ⟨_, -, rfl⟩ := List.mem_map.mp ha
      obtain ⟨_, -, rfl⟩ := List.mem_map.mp hb
      exact UInt32.le_of_lt hlt

def opOf : Request → KeyOp
  | .query _ => .getValueByKey
  | .del _ => .delKey
  | .add kv => .addKeyValue kv.value
  | .zadd _ dto => .zsetAdd dto.value dto.score
  | .zrange _ dto => .zsetZrange dto.minScore dto.maxScore
  | .zrmv _ value => .zsetRmv value

private theorem operations_cppRequest (req : Request) :
    (cppRequest req).operations = [.on req.key (opOf req)] := by
  cases req <;> simp [cppRequest, CppHttpHandlers.Request.operations, opOf, Request.key, keyValue]

theorem HasEntry.congr {s s' : Storage} {key : Str} {entry : Entry} (h : HasEntry s key entry)
    (hsame : inMemory s' key = inMemory s key) : HasEntry s' key entry := by
  obtain ⟨hkv, hz⟩ := Prod.mk.inj hsame
  exact ⟨hkv.trans h.plain, (congrArg (Option.map members) hz).trans h.sorted⟩

private theorem memberMap_ne_none_iff {entry : Entry} :
    memberMap entry ≠ none ↔ ∃ m, entry = .zset m := by
  cases entry <;> simp [memberMap]

variable {order sets : IterationOrder Str} {refused : CppHttpHandlers.Response} {s : Storage}
  {api : Str → Entry}

private theorem sameResponse_query (entry : Entry) (key : Str) :
    SameResponse (.one (queryResponse entry.value?))
    ((cppRequest (.query key)).response order refused [.value entry.value?]) := by
  cases entry with
  | kv value => exact .text value
  | absent => exact .notFound
  | zset m => exact .notFound

private theorem sameResponse_zrange {m : ExtTreeMap Str UInt32} {key : Str} {dto : ScoreRange}
    {l : List ScoreValue} (h : RangeAnswer (fun value => m[value]?) dto l) :
    SameResponse (.one ⟨.ok, .scoreValues l⟩)
      ((cppRequest (.zrange key dto)).response order refused
        [.groups (some (groupsOf m dto.minScore dto.maxScore))]) := by
  obtain ⟨hperm, hscores⟩ := rangeAnswer_same h (rangeAnswer_groupsOf order m dto)
  have hpairs : (scoreValuesOf order (groupsOf m dto.minScore dto.maxScore)).map
      (fun sv => (sv.score, sv.value)) =
      (groupsOf m dto.minScore dto.maxScore).flatMap
        (fun sv => (order.list sv.values).map (fun value => (sv.score, value))) := by
    simp [scoreValuesOf, List.map_flatMap, Function.comp_def]
  refine .scoreValues ?_ ?_
  · rw [hscores, ← hpairs, List.map_map]
    rfl
  · rw [← hpairs]
    exact hperm.map _

private theorem hasEntry_del (s : Storage) (key : Str) (entry : Entry) :
    HasEntry (s.del key) key (entry.act .delKey).1 := by
  have hview := congrFun (view_apply s (.del key)) key
  rw [viewApply, Function.update_self] at hview
  cases entry <;> exact ⟨by simp [Storage.getKv, Entry.act, Entry.value?], hview⟩

private theorem hasEntry_insertKv (s : Storage) (key value : Str) (entry : Entry) :
    HasEntry (s.insertKv key value) key (entry.act (.addKeyValue value)).1 := by
  have hview := congrFun (view_apply s (.insertKv key value)) key
  rw [viewApply, Function.update_self] at hview
  cases entry <;> exact ⟨by simp [Storage.getKv, Entry.act, Entry.value?], hview⟩

theorem HasEntry.zadd {key : Str} {entry : Entry} (h : HasEntry s key entry)
    (hkind : entry.value? = none) (dto : ScoreValue) :
    HasEntry (s.zadd key dto) key (entry.act (.zsetAdd dto.value dto.score)).1 ∧
      (entry.act (.zsetAdd dto.value dto.score)).2 = .flag true := by
  have hview := congrFun (view_apply s (.zadd key dto)) key
  rw [viewApply, Function.update_self, h.sorted] at hview
  have hplain : (s.zadd key dto).getKv key = entry.value? := h.plain
  cases entry with
  | kv value => simp [Entry.value?] at hkind
  | absent =>
    refine ⟨⟨hplain, hview.trans (congrArg some ?_)⟩, rfl⟩
    rw [lookup_insert_eq_put]
    congr 1
  | zset m =>
    exact ⟨⟨hplain, hview.trans (congrArg some (lookup_insert_eq_put m dto.value dto.score).symm)⟩,
      rfl⟩

theorem HasEntry.zrmv {key : Str} {entry : Entry} (h : HasEntry s key entry) (value : Str) :
    HasEntry (s.zrmv key value) key (entry.act (.zsetRmv value)).1 := by
  have hview := congrFun (view_apply s (.zrmv key value)) key
  rw [viewApply, Function.update_self, h.sorted] at hview
  have hplain : (s.zrmv key value).getKv key = entry.value? := by
    rw [Storage.getKv, zrmv_kv]
    exact h.plain
  cases entry with
  | absent => exact ⟨hplain, hview⟩
  | kv value' => exact ⟨hplain, hview⟩
  | zset m => exact ⟨hplain, hview.trans (congrArg some (lookup_erase_eq_drop m value).symm)⟩

theorem HasEntry.zrange {key : Str} {entry : Entry} (h : HasEntry s key entry)
    (hs : AllConsistent s) {dto : ScoreRange}
    (hrange : memberMap entry ≠ none → dto.minScore ≤ dto.maxScore) :
    (entry.act (.zsetZrange dto.minScore dto.maxScore)).1 = entry ∧
      ∃ v, s.zrange sets key dto = .ok v ∧ SameResponse (.one (zrangeResponse v))
        ((cppRequest (.zrange key dto)).response order refused
          [(entry.act (.zsetZrange dto.minScore dto.maxScore)).2]) := by
  have hsorted := h.sorted
  rw [view] at hsorted
  cases hz : s.zsets[key]? with
  | none =>
    rw [hz] at hsorted
    have hnone : s.zrange sets key dto = .ok none := by simp [Storage.zrange, hz]
    cases entry with
    | absent => exact ⟨rfl, none, hnone, .notFound⟩
    | kv value => exact ⟨rfl, none, hnone, .notFound⟩
    | zset m => simp [memberMap] at hsorted
  | some z =>
    rw [hz] at hsorted
    have hmap : memberMap entry ≠ none := by
      rw [← hsorted]
      simp
    obtain ⟨m, rfl⟩ := memberMap_ne_none_iff.mp hmap
    have hmembers : members z = fun value => m[value]? := Option.some.inj hsorted
    obtain ⟨l, hl, hanswer⟩ := zrange_spec (hs key z hz) sets (hrange hmap)
    have hsome : s.zrange sets key dto = .ok (some l) := by
      simp [Storage.zrange, hz, hl, Except.map]
    exact ⟨rfl, some l, hsome, sameResponse_zrange (hmembers ▸ hanswer)⟩

/-- Where a key is what the API has there, a request leaves what the API leaves and is answered
as the API answers it. -/
theorem execute_hasEntry (order sets : IterationOrder Str) (refused : CppHttpHandlers.Response)
    {req : Request} (hs : AllConsistent s) (h : HasEntry s req.key (api req.key))
    (hkinds : KeepsKinds api (cppRequest req)) :
    ∃ s' response, execute sets s req = .ok (s', response) ∧
      HasEntry s' req.key ((api req.key).act (opOf req)).1 ∧
      SameResponse (.one response)
        ((cppRequest req).response order refused [((api req.key).act (opOf req)).2]) := by
  cases req with
  | query key =>
    refine ⟨s, _, rfl, ?_, ?_⟩
    · cases he : api key <;> exact he ▸ h
    · have hreply : ((api key).act .getValueByKey).2 = .value (api key).value? := by
        cases api key <;> rfl
      have hplain : s.getKv key = (api key).value? := h.plain
      rw [hplain]
      exact hreply ▸ sameResponse_query (api key) key
  | del key => exact ⟨s.del key, .done, rfl, hasEntry_del s key _, .done⟩
  | add kv =>
    exact ⟨s.insertKv kv.key kv.value, .done, rfl, hasEntry_insertKv s kv.key kv.value _, .done⟩
  | zadd key dto =>
    obtain ⟨hentry, hreply⟩ := h.zadd hkinds dto
    refine ⟨s.zadd key dto, .done, rfl, hentry, ?_⟩
    rw [opOf, hreply]
    exact .done
  | zrmv key value => exact ⟨s.zrmv key value, .done, rfl, h.zrmv value, .done⟩
  | zrange key dto =>
    have hrange : memberMap (api key) ≠ none → dto.minScore ≤ dto.maxScore := by
      simpa [KeepsKinds, cppRequest] using hkinds
    have hkey : HasEntry s key (api key) := h
    obtain ⟨hentry, v, hv, hsame⟩ := hkey.zrange hs hrange
    refine ⟨s, zrangeResponse v, ?_, ?_, hsame⟩
    · rw [execute, hv]
      rfl
    · have hsame : HasEntry s key ((api key).act (.zsetZrange dto.minScore dto.maxScore)).1 :=
        hentry.symm ▸ hkey
      exact hsame

private theorem final_adds (api : Str → Entry) (kvs : List InsrtRequest) (key : Str) :
    final apiExec api ((kvs.map keyValue).map (fun kv => .on kv.key (.addKeyValue kv.value))) key =
      ((valuesOf (kvs.map InsrtRequest.entry) key).getLast?.map Entry.kv).getD (api key) := by
  induction kvs generalizing api with
  | nil => rfl
  | cons kv kvs ih =>
    have hact : ((api kv.key).act (.addKeyValue kv.value)).1 = .kv kv.value := by
      cases api kv.key <;> rfl
    simp only [List.map_cons, final_cons]
    rw [ih]
    simp only [apiExec, keyValue, hact]
    by_cases hk : kv.key = key
    · subst hk
      rw [Function.update_self]
      have hvalues : valuesOf (kv.entry :: kvs.map InsrtRequest.entry) kv.key =
          kv.value :: valuesOf (kvs.map InsrtRequest.entry) kv.key := by
            simp [valuesOf, InsrtRequest.entry]
      rw [hvalues, List.getLast?_cons]
      cases (valuesOf (kvs.map InsrtRequest.entry) kv.key).getLast? <;> rfl
    · have hvalues : valuesOf (kv.entry :: kvs.map InsrtRequest.entry) key =
          valuesOf (kvs.map InsrtRequest.entry) key := by
        simp [valuesOf, InsrtRequest.entry, hk]
      rw [hvalues, Function.update_of_ne (Ne.symm hk)]

private theorem valuesOf_getLast?_eq_none_iff {kvs : List InsrtRequest} {key : Str} :
    (valuesOf (kvs.map InsrtRequest.entry) key).getLast? = none ↔ ∀ kv ∈ kvs, kv.key ≠ key := by
  rw [List.getLast?_eq_none_iff, valuesOf, List.filterMap_eq_nil_iff]
  simp [InsrtRequest.entry]

private theorem zsets_none_of_writtenBy {s s' : Storage} {own : List InsrtRequest}
    (h : WrittenBy s own s') {key : Str} (hz : s.zsets[key]? = none) : s'.zsets[key]? = none := by
  rcases h with rfl | rfl
  · exact hz
  · rw [serveBatch_eq]
    simp only [lookup_eraseAll, hz, ite_self]

def listed (api : Str → Entry) (set : CppShardedStorage.KeySet) :
    List CppSingleThreadStorage.KeyValue :=
  set.keys.filterMap (fun key => (api key).value?.map (fun value => ⟨key, value⟩))

private theorem mem_listed {api : Str → Entry} {set : CppShardedStorage.KeySet} {key value : Str} :
    ⟨key, value⟩ ∈ listed api set ↔ key ∈ set.keys ∧ (api key).value? = some value := by
  simp only [listed, List.mem_filterMap, Option.map_eq_some_iff,
    CppSingleThreadStorage.KeyValue.mk.injEq]
  constructor
  · rintro ⟨k, hk, v, hv, rfl, rfl⟩
    exact ⟨hk, hv⟩
  · rintro ⟨hk, hv⟩
    exact ⟨key, hk, value, hv, rfl, rfl⟩

private theorem nodup_listed (api : Str → Entry) (set : CppShardedStorage.KeySet) :
    (listed api set).Nodup := by
  refine set.nodup.filterMap ?_
  intro key key' kv hkv hkv'
  obtain ⟨_, -, rfl⟩ := Option.map_eq_some_iff.mp hkv
  obtain ⟨_, -, he⟩ := Option.map_eq_some_iff.mp hkv'
  exact (congrArg CppSingleThreadStorage.KeyValue.key he).symm

variable {Host : Type} [DecidableEq Host] {env : Env Host} {d : Deployment Host} {w : World Host}
  {arrival : Host}
  {api : Str → Entry} {order : IterationOrder Str} {refused : CppHttpHandlers.Response}

theorem Shows.keyed (h : Shows d w api) (env : Env Host) (order : IterationOrder Str)
    (refused : CppHttpHandlers.Response) (ha : arrival ∈ d.hosts) {req : Request}
    (hkinds : KeepsKinds api (cppRequest req)) :
    ∃ w' answer, perform env w arrival (.keyed req) = .ok (w', answer) ∧
      Shows d w' (apiHandle order refused api (cppRequest req)).1 ∧
      SameResponse answer (apiHandle order refused api (cppRequest req)).2 := by
  obtain ⟨s, response, hexecute, hentry, hsame⟩ :=
    execute_hasEntry order env.sets refused (h.serving.consistent (d.home req.key))
      (h.entries req.key) hkinds
  refine ⟨_, _, perform_keyed env h.serving ha hexecute, ?_, ?_⟩
  · have hstores : stores ⟨d.nodes (Function.update (stores w) (d.home req.key) s), w.processes⟩ =
        Function.update (stores w) (d.home req.key) s := stores_of_nodes rfl
    have hother : ∀ key, key ≠ req.key → ∀ host,
        inMemory (Function.update (stores w) (d.home req.key) s host) key =
          inMemory (stores w host) key := by
      intro key hk host
      rcases eq_or_ne host (d.home req.key) with rfl | hne
      · rw [Function.update_self]
        exact execute_other hexecute hk
      · rw [Function.update_of_ne hne]
    refine ⟨serving_of_nodes rfl ?_, ?_, ?_⟩
    · intro host
      rcases eq_or_ne host (d.home req.key) with rfl | hne
      · rw [Function.update_self]
        exact execute_consistent (h.serving.consistent _) hexecute
      · rw [Function.update_of_ne hne]
        exact h.serving.consistent host
    · intro host hhost key hne
      rw [hstores]
      rcases eq_or_ne key req.key with rfl | hk
      · rw [Function.update_of_ne hne]
        exact h.placed host hhost _ hne
      · rw [hother key hk]
        exact h.placed host hhost key hne
    · intro key
      simp only [apiHandle, operations_cppRequest, final_cons, final_nil, apiExec]
      rw [hstores]
      rcases eq_or_ne key req.key with rfl | hk
      · rw [Function.update_self, Function.update_self]
        exact hentry
      · rw [Function.update_of_ne hk]
        exact (h.entries key).congr (hother key hk _)
  · simp only [apiHandle, operations_cppRequest, responses, apiExec]
    exact hsame

theorem Shows.batch (h : Shows d w api) (env : Env Host) (order : IterationOrder Str)
    (refused : CppHttpHandlers.Response) (ha : arrival ∈ d.hosts) {kvs : List InsrtRequest}
    (hkinds : ∀ kv ∈ kvs, memberMap (api kv.key) = none) :
    ∃ w' answer, perform env w arrival (.batch kvs) = .ok (w', answer) ∧
      Shows d w' (apiHandle order refused api (.batch (kvs.map keyValue))).1 ∧
      SameResponse answer (apiHandle order refused api (.batch (kvs.map keyValue))).2 := by
  obtain ⟨storages, hperform, hwritten⟩ := perform_batch env h.serving ha kvs
  have hstores : stores ⟨d.nodes storages, w.processes⟩ = storages := stores_of_nodes rfl
  refine ⟨_, _, hperform, ⟨serving_of_nodes rfl ?_, ?_, ?_⟩, .batched⟩
  · intro host
    exact (hwritten host).consistent (h.serving.consistent host)
  · intro host hhost key hne
    rw [hstores, (hwritten host).inMemory]
    · exact h.placed host hhost key hne
    · rintro kv hkv rfl
      exact hne (of_decide_eq_true (List.mem_filter.mp hkv).2).symm
  · intro key
    simp only [apiHandle, CppHttpHandlers.Request.operations, final_adds]
    rw [hstores]
    cases hlast : (valuesOf (kvs.map InsrtRequest.entry) key).getLast? with
    | none =>
      refine (h.entries key).congr ((hwritten _).inMemory ?_)
      intro kv hkv
      exact valuesOf_getLast?_eq_none_iff.mp hlast kv (List.mem_filter.mp hkv).1
    | some value =>
      obtain ⟨kv, hkv, rfl⟩ : ∃ kv ∈ kvs, kv.key = key := by
        by_contra hno
        push Not at hno
        rw [valuesOf_getLast?_eq_none_iff.mpr hno] at hlast
        simp at hlast
      refine ⟨?_, ?_⟩
      · rw [(hwritten _).getKv, hlast]
        rfl
      · have hz : (stores w (d.home kv.key)).zsets[kv.key]? = none := by
          have hsorted := (h.entries kv.key).sorted
          rw [hkinds kv hkv, view, Option.map_eq_none_iff] at hsorted
          exact hsorted
        rw [view, zsets_none_of_writtenBy (hwritten _) hz]
        rfl

omit [DecidableEq Host] in
private theorem handleList_cases (fates : UInt32 → Fate) (lists : EntryOrder UInt32 (Finset Str))
    (sets : IterationOrder Str) (nodes : Host → Node Host) (arrival : Host) (keys : List Str) :
    (∃ kvs, kvs ≠ [] ∧ handleList fates lists sets nodes arrival keys = ⟨.ok, .kvs kvs⟩) ∨
      handleList fates lists sets nodes arrival keys = .notFound := by
  simp only [handleList]
  split
  · exact .inr rfl
  · next hne => exact .inl ⟨_, hne, rfl⟩

theorem Shows.listsStored (h : Shows d w api) (env : Env Host) (ha : arrival ∈ d.hosts)
    (keys : List Str) :
    ∃ all, ListsStored all (fun key => stores w (d.home key)) keys
      (handleList (fun _ => .served) env.lists env.sets w.nodes arrival keys) := by
  rw [h.serving.nodes_eq]
  cases d with
  | cluster c =>
    refine ⟨_, listsStored_cluster c ?_ ha env.lists env.sets keys⟩
    intro host hhost key hkey
    by_contra hne
    have hnone : (stores w host).kv[key]? = none :=
      congrArg Prod.fst (h.placed host hhost key (Ne.symm hne))
    rw [ExtTreeMap.mem_iff_isSome_getElem?, hnone] at hkey
    simp at hkey
  | alone host =>
    obtain rfl := List.mem_singleton.mp ha
    have hsingle : (Deployment.alone arrival).nodes (stores w) arrival =
      Node.single (stores w arrival) := rfl
    exact ⟨_, listsStored_single hsingle env.lists env.sets keys⟩

private theorem keyValue_injective : Function.Injective keyValue := by
  rintro ⟨k, v⟩ ⟨k', v'⟩ he
  simpa [keyValue] using he

theorem Shows.list (h : Shows d w api) (env : Env Host) (order : IterationOrder Str)
    (refused : CppHttpHandlers.Response) (ha : arrival ∈ d.hosts) {keys : List Str}
    {set : CppShardedStorage.KeySet} (hset : ∀ key, key ∈ set.keys ↔ key ∈ keys) :
    SameResponse (.many (handleList (fun _ => .served) env.lists env.sets w.nodes arrival keys))
      (apiHandle order refused api (.list set)).2 := by
  obtain ⟨all, hlists⟩ := h.listsStored env ha keys
  have hresponse : (apiHandle order refused api (.list set)).2 =
      if listed api set ≠ [] then ⟨.ok, .keyValues (listed api set)⟩ else .notFound := by
    simp [apiHandle, CppHttpHandlers.Request.operations, CppHttpHandlers.Request.response,
      responses, apiExec, CppHttpHandlers.keyValuesOf, listed]
  have hperm :
      ((handleList (fun _ => .served) env.lists env.sets w.nodes arrival keys).answer.map
        keyValue).Perm
      (listed api set) := by
    rw [List.perm_ext_iff_of_nodup (hlists.once.of_map.map keyValue_injective)
      (nodup_listed api set)]
    rintro ⟨key, value⟩
    rw [mem_listed, hset, ← (h.entries key).plain]
    constructor
    · intro hin
      obtain ⟨kv, hkv, he⟩ := List.mem_map.mp hin
      obtain ⟨rfl, rfl⟩ := CppSingleThreadStorage.KeyValue.mk.inj he
      exact (hlists.entries _ _).mp hkv
    · intro hstored
      exact List.mem_map.mpr ⟨⟨key, value⟩, (hlists.entries _ _).mpr hstored, rfl⟩
  rw [hresponse]
  rcases handleList_cases (fun _ => .served) env.lists env.sets w.nodes arrival keys
    with ⟨kvs, hne, hanswer⟩ | hanswer
  · rw [hanswer] at hperm ⊢
    rw [if_pos]
    · exact .keyValues hperm
    · intro hnil
      rw [hnil, List.perm_nil, List.map_eq_nil_iff] at hperm
      exact hne hperm
  · rw [hanswer] at hperm ⊢
    rw [List.nil_perm.mp hperm]
    exact .noneFound

theorem Shows.perform (h : Shows d w api) (env : Env Host) (order : IterationOrder Str)
    (refused : CppHttpHandlers.Response) (ha : arrival ∈ d.hosts) {action : Action}
    {req : CppHttpHandlers.Request} (hsame : SameRequest action req) (hkinds : KeepsKinds api req) :
    ∃ w' answer, RustHttpHandler.perform env w arrival action = .ok (w', answer) ∧
      Shows d w' (apiHandle order refused api req).1 ∧
      SameResponse answer (apiHandle order refused api req).2 := by
  cases hsame with
  | keyed req => exact h.keyed env order refused ha hkinds
  | batch kvs =>
    refine h.batch env order refused ha ?_
    intro kv hkv
    exact hkinds (keyValue kv) (List.mem_map_of_mem hkv)
  | list keys set hset => exact ⟨w, _, rfl, h, h.list env order refused ha hset⟩

private theorem shows_new (d : Deployment Host) (processes : Host → Process) :
    Shows d ⟨d.nodes (fun _ => Storage.new), processes⟩ (fun _ => .absent) := by
  have hstores : stores ⟨d.nodes (fun _ => Storage.new), processes⟩ = fun _ => Storage.new :=
    stores_of_nodes rfl
  refine ⟨serving_of_nodes rfl (fun _ => allConsistent_new), ?_, ?_⟩
  · intro host _ key _
    rw [hstores]
    simp [inMemory, Storage.new]
  · intro key
    rw [hstores]
    exact ⟨by simp [Storage.new, Storage.getKv, Entry.value?],
      by simp [Storage.new, view, memberMap]⟩

end HCache.RustCppAgreement
