import HCache.CppHttpHandlers
import HCache.CppScoreWidths

/-!
# The HTTP API of the C++ servers

The API as it is documented, with the scores that clients send. `hcache_shared.cc` answers as it
says along exactly the runs in which every range selects by the residues of the scores what it
selects by the scores; `drogon.cc` too, with another status for a refused `zadd`.
-/
namespace HCache.CppHttpApi
open Std OrderedMaps SequentialMachines TwoIndexRelations
open CppSingleThreadStorage CppStorage CppShardedStorage CppHttpHandlers

/-- What clients have put under a key. -/
inductive Item where
  | absent
  | value (value : Fbstring)
  | members (score : Fbstring → Option UInt64)

def Item.scores : Item → Fbstring → Option UInt64
  | .members score => score
  | .absent | .value _ => fun _ => none

abbrev Api := Fbstring → Item

def Api.add (api : Api) (kv : KeyValue) : Api := Function.update api kv.key (.value kv.value)

def Api.after (api : Api) : Request → Api
  | .add kv => api.add kv
  | .batch kvs => kvs.foldl Api.add api
  | .del key => Function.update api key .absent
  | .zadd key value score =>
    match api key with
    | .value _ => api
    | item => Function.update api key (.members (put item.scores value score))
  | .zrmv key value =>
    match api key with
    | .members score => Function.update api key (.members (drop score value))
    | _ => api
  | .init | .query _ | .list _ | .zrange _ _ _ => api

/-- The members with scores in range, ascending by score, values of one score in any order. -/
structure InRange (score : Fbstring → Option UInt64) (minScore maxScore : UInt64)
    (pairs : List (UInt32 × Fbstring)) : Prop where
  ascending : pairs.Pairwise (fun a b => a.1 ≤ b.1)
  once : (pairs.map Prod.snd).Nodup
  sound : ∀ t value, (t, value) ∈ pairs →
    ∃ s, score value = some s ∧ (minScore ≤ s ∧ s ≤ maxScore) ∧ t.toNat = s.toNat
  complete : ∀ value s, score value = some s → minScore ≤ s → s ≤ maxScore →
    ∃ t : UInt32, (t, value) ∈ pairs ∧ t.toNat = s.toNat

/-- What a request is answered with. -/
def Documented (refused : Response) (api : Api) (response : Response) : Request → Prop
  | .init => response = .initialized
  | .query key =>
    match api key with
    | .value value => response = ⟨.ok, .text value⟩
    | _ => response = .notFound
  | .add _ | .batch _ | .del _ | .zrmv _ _ => response = .done
  | .list keys => ∃ kvs, response = (if kvs ≠ [] then ⟨.ok, .keyValues kvs⟩ else .notFound) ∧
      (kvs.map KeyValue.key).Nodup ∧
      ∀ kv, kv ∈ kvs ↔ kv.key ∈ keys.keys ∧ api kv.key = .value kv.value
  | .zadd key _ _ =>
    match api key with
    | .value _ => response = refused
    | _ => response = .done
  | .zrange key minScore maxScore =>
    match api key with
    | .members score => ∃ pairs, response = ⟨.ok, .scoreValues pairs⟩ ∧
        InRange score minScore maxScore pairs
    | _ => response = .notFound

/-- A storage, and beside it what the API says that is there. -/
structure World where
  hcache : Storage
  api : Api

def World.new : World := ⟨Storage.new, fun _ => .absent⟩

def World.step (server : Storage → Request → Storage × Response) (w : World) (req : Request) :
    World := ⟨(server w.hcache req).1, w.api.after req⟩

def AsDocumented (server : Storage → Request → Storage × Response) (refused : Response)
    (w : World) (req : Request) : Prop :=
  Documented refused w.api (server w.hcache req).2 req

/-- The residues of a range's bounds modulo 2^32 select, among the residues of the scores, the
members that the bounds select, and their scores fit. -/
def Fits (w : World) : Request → Prop
  | .zrange key minScore maxScore => ∀ value s, (w.api key).scores value = some s →
      (minScore.toNat % 2 ^ 32 ≤ s.toNat % 2 ^ 32 ∧ s.toNat % 2 ^ 32 ≤ maxScore.toNat % 2 ^ 32 ↔
        minScore ≤ s ∧ s ≤ maxScore) ∧ (minScore ≤ s → s ≤ maxScore → s.toNat < 2 ^ 32)
  | _ => True

/-- An entry of the storage holds the residues of the scores. -/
inductive ItemRel : Entry → Item → Prop where
  | absent : ItemRel .absent .absent
  | value (value : Fbstring) : ItemRel (.kv value) (.value value)
  | members {m : ExtTreeMap Fbstring UInt32} {score : Fbstring → Option UInt64}
      (h : ∀ value : Fbstring, m[value]? = (score value).map UInt64.toUInt32) :
      ItemRel (.zset m) (.members score)

private theorem members_insert {m : ExtTreeMap Fbstring UInt32} {score : Fbstring → Option UInt64}
    (h : ∀ value : Fbstring, m[value]? = (score value).map UInt64.toUInt32) (value : Fbstring)
    (s : UInt64) : ItemRel (.zset (m.insert value s.toUInt32)) (.members (put score value s)) := by
  refine .members (fun v => ?_)
  rw [lookup_insert]
  by_cases hv : value = v
  · simp [hv]
  · rw [if_neg hv, put_of_ne (Ne.symm hv), h]

private theorem members_erase {m : ExtTreeMap Fbstring UInt32} {score : Fbstring → Option UInt64}
    (h : ∀ value : Fbstring, m[value]? = (score value).map UInt64.toUInt32) (value : Fbstring) :
    ItemRel (.zset (m.erase value)) (.members (drop score value)) := by
  refine .members (fun v => ?_)
  rw [lookup_erase]
  by_cases hv : value = v
  · simp [hv]
  · rw [if_neg hv, drop_of_ne (Ne.symm hv), h]

def ApiRel (entries : Fbstring → Entry) (api : Api) : Prop :=
  ∀ key, ItemRel (entries key) (api key)

variable {entries : Fbstring → Entry} {api : Api}

theorem ApiRel.update (h : ApiRel entries api) (key : Fbstring) {e : Entry} {item : Item}
    (hitem : ItemRel e item) :
    ApiRel (Function.update entries key e) (Function.update api key item) := by
  intro k
  rcases eq_or_ne k key with rfl | hne
  · simpa using hitem
  · simpa [Function.update_of_ne hne] using h k

/-- Where the entry of a key only is replaced by one for which the item stands too. -/
theorem ApiRel.update_left (h : ApiRel entries api) (key : Fbstring) {e : Entry}
    (hitem : ItemRel e (api key)) : ApiRel (Function.update entries key e) api := by
  have hboth := h.update key hitem
  rwa [Function.update_eq_self] at hboth

theorem ApiRel.adds (h : ApiRel entries api) (kvs : List KeyValue) :
    ApiRel (final apiExec entries (kvs.map (fun kv => .on kv.key (.addKeyValue kv.value))))
      (kvs.foldl Api.add api) := by
  induction kvs generalizing entries api with
  | nil => exact h
  | cons kv kvs ih => exact ih (h.update kv.key (.value kv.value))

theorem ApiRel.after (h : ApiRel entries api) (order : IterationOrder Fbstring)
    (refused : Response) (req : Request) :
    ApiRel (apiHandle order refused entries req).1 (api.after req) := by
  cases req with
  | init => exact h
  | query key => exact h.update_left key (h key)
  | add kv => exact h.update kv.key (.value kv.value)
  | batch kvs => exact h.adds kvs
  | del key => exact h.update key .absent
  | list keys => exact h
  | zadd key value score =>
    have hkey := h key
    simp only [apiHandle, Request.operations, final_cons, final_nil, apiExec, Api.after]
    generalize hitem : api key = item at hkey
    generalize entries key = e at hkey ⊢
    cases hkey with
    | absent => exact h.update key (members_insert (by simp [Item.scores]) value score)
    | value v => exact h.update_left key (hitem ▸ .value v)
    | members hm => exact h.update key (members_insert hm value score)
  | zrange key minScore maxScore =>
    have hkey := h key
    refine h.update_left key ?_
    cases hentry : entries key <;> rwa [hentry] at hkey
  | zrmv key value =>
    have hkey := h key
    simp only [apiHandle, Request.operations, final_cons, final_nil, apiExec, Api.after]
    generalize hitem : api key = item at hkey
    generalize entries key = e at hkey ⊢
    cases hkey with
    | absent => exact h.update_left key (hitem ▸ .absent)
    | value v => exact h.update_left key (hitem ▸ .value v)
    | members hm => exact h.update key (members_erase hm value)

variable {order : IterationOrder Fbstring} {refused : Response}

private theorem documented_list (h : ApiRel entries api) (keys : KeySet) :
    Documented refused api (apiHandle order refused entries (.list keys)).2 (.list keys) := by
  have hvalue : ∀ key value, (entries key).value? = some value ↔ api key = .value value := by
    intro key value
    have hkey := h key
    generalize entries key = e, api key = item at hkey
    cases hkey <;> simp [Entry.value?]
  refine ⟨keys.keys.filterMap (fun key => (entries key).value?.map (fun value => ⟨key, value⟩)),
    ?_, ?_, fun kv => ?_⟩
  · simp only [apiHandle, Request.operations, responses, Request.response, apiExec,
      List.flatMap_cons, List.flatMap_nil, List.append_nil, keyValuesOf]
  · rw [List.map_filterMap]
    refine keys.nodup.filterMap (fun a b key ha hb => ?_)
    simp only [Option.map_map, Option.mem_def, Option.map_eq_some_iff] at ha hb
    obtain ⟨value, -, ha⟩ := ha
    obtain ⟨value', -, hb⟩ := hb
    exact ha.trans hb.symm
  · rw [List.mem_filterMap]
    constructor
    · rintro ⟨key, hkey, hkv⟩
      obtain ⟨value, hv, rfl⟩ := Option.map_eq_some_iff.mp hkv
      exact ⟨hkey, (hvalue key value).mp hv⟩
    · rintro ⟨hkey, hv⟩
      exact ⟨kv.key, hkey, by rw [(hvalue kv.key kv.value).mpr hv, Option.map_some]⟩

private theorem pairs_groupsOf (order : IterationOrder Fbstring) (m : ExtTreeMap Fbstring UInt32)
    (minScore maxScore : UInt32) : ∃ pairs : List (UInt32 × Fbstring),
      .ofScoreValues order (groupsOf m minScore maxScore) = (⟨.ok, .scoreValues pairs⟩ : Response) ∧
      pairs.Pairwise (fun a b => a.1 ≤ b.1) ∧ (pairs.map Prod.snd).Nodup ∧
      ∀ t value, (t, value) ∈ pairs ↔ m[value]? = some t ∧ minScore ≤ t ∧ t ≤ maxScore := by
  have hspec := groupsOf_spec m minScore maxScore
  refine ⟨_, rfl, ?_, ?_, fun t value => CppScoreWidths.mem_groupsOf_pairs⟩
  · rw [List.pairwise_flatMap]
    refine ⟨fun g _ => ?_, hspec.ascending.imp (fun hlt => ?_)⟩
    · rw [List.pairwise_map]
      exact List.pairwise_of_forall (fun _ _ => UInt32.le_refl _)
    · simp only [List.mem_map]
      rintro _ ⟨value, -, rfl⟩ _ ⟨value', -, rfl⟩
      exact UInt32.le_of_lt hlt
  · simp only [List.map_flatMap, List.map_map, Function.comp_def, List.map_id']
    rw [List.nodup_flatMap]
    refine ⟨fun g _ => order.nodup g.values, hspec.ascending.imp_of_mem (fun hg hg' hlt => ?_)⟩
    intro value hvalue hvalue'
    have hscore := (hspec.values _ hg value).mp ((order.mem_list _ _).mp hvalue)
    have hscore' := (hspec.values _ hg' value).mp ((order.mem_list _ _).mp hvalue')
    exact UInt32.lt_irrefl _ (Option.some.inj (hscore.symm.trans hscore') ▸ hlt)

private theorem inRange_iff {m : ExtTreeMap Fbstring UInt32}
    {score : Fbstring → Option UInt64}
    (h : ∀ value : Fbstring, m[value]? = (score value).map UInt64.toUInt32)
    {minScore maxScore : UInt64} {pairs : List (UInt32 × Fbstring)}
    (hascending : pairs.Pairwise (fun a b => a.1 ≤ b.1)) (honce : (pairs.map Prod.snd).Nodup)
    (hpairs : ∀ t value, (t, value) ∈ pairs ↔
      m[value]? = some t ∧ minScore.toUInt32 ≤ t ∧ t ≤ maxScore.toUInt32) :
    InRange score minScore maxScore pairs ↔ ∀ value s, score value = some s →
      (minScore.toNat % 2 ^ 32 ≤ s.toNat % 2 ^ 32 ∧ s.toNat % 2 ^ 32 ≤ maxScore.toNat % 2 ^ 32 ↔
        minScore ≤ s ∧ s ≤ maxScore) ∧ (minScore ≤ s → s ≤ maxScore → s.toNat < 2 ^ 32) := by
  have hmem : ∀ value s, score value = some s → ∀ t, (t, value) ∈ pairs ↔ t = s.toUInt32 ∧
      (minScore.toNat % 2 ^ 32 ≤ s.toNat % 2 ^ 32 ∧
        s.toNat % 2 ^ 32 ≤ maxScore.toNat % 2 ^ 32) := by
    intro value s hs t
    rw [hpairs, h, hs, Option.map_some, Option.some.injEq]
    simp only [UInt32.le_iff_toNat_le, UInt64.toNat_toUInt32]
    constructor
    · rintro ⟨rfl, hrange⟩
      simpa [UInt64.toNat_toUInt32] using hrange
    · rintro ⟨rfl, hrange⟩
      simpa [UInt64.toNat_toUInt32] using hrange
  constructor
  · intro hrange value s hs
    have hwide : minScore ≤ s → s ≤ maxScore → s.toNat < 2 ^ 32 := by
      intro hmin hmax
      obtain ⟨t, -, ht⟩ := hrange.complete value s hs hmin hmax
      exact ht ▸ t.toNat_lt
    refine ⟨⟨fun hres => ?_, fun hin => ?_⟩, hwide⟩
    · obtain ⟨s', hs', hin, -⟩ := hrange.sound _ value ((hmem value s hs _).mpr ⟨rfl, hres⟩)
      obtain rfl := Option.some.inj (hs.symm.trans hs')
      exact hin
    · obtain ⟨t, ht, -⟩ := hrange.complete value s hs hin.1 hin.2
      exact ((hmem value s hs t).mp ht).2
  · intro hfits
    refine ⟨hascending, honce, fun t value ht => ?_, fun value s hs hmin hmax => ?_⟩
    · obtain ⟨s, hs, hst⟩ :=
        Option.map_eq_some_iff.mp ((h value).symm.trans ((hpairs t value).mp ht).1)
      have hin := ((hfits value s hs).1).mp ((hmem value s hs t).mp ht).2
      refine ⟨s, hs, hin, ?_⟩
      rw [← hst, UInt64.toNat_toUInt32, Nat.mod_eq_of_lt ((hfits value s hs).2 hin.1 hin.2)]
    · refine ⟨s.toUInt32, (hmem value s hs _).mpr ⟨rfl, (hfits value s hs).1.mpr ⟨hmin, hmax⟩⟩, ?_⟩
      rw [UInt64.toNat_toUInt32, Nat.mod_eq_of_lt ((hfits value s hs).2 hmin hmax)]

/-- The storage holds what the API has, up to the residues of the scores. -/
def Tracks (w : World) : Prop := ∃ entries, Shows w.hcache entries ∧ ApiRel entries w.api

variable {w : World} {order : IterationOrder Fbstring} {refused : Response}

theorem Tracks.step (h : Tracks w) (req : Request) :
    Tracks (w.step (handle order refused) req) := by
  obtain ⟨entries, hshows, hrel⟩ := h
  exact ⟨_, (simulates_handle order refused).state w.hcache entries req hshows trivial,
    hrel.after order refused req⟩

private theorem asDocumented_iff_fits (h : Tracks w) (req : Request) :
    AsDocumented (handle order refused) refused w req ↔ Fits w req := by
  obtain ⟨entries, hshows, hrel⟩ := h
  have hresponse := (simulates_handle order refused).response w.hcache entries req hshows trivial
  rw [AsDocumented, hresponse]
  cases req with
  | init => exact iff_true_intro rfl
  | add kv => exact iff_true_intro rfl
  | batch kvs => exact iff_true_intro rfl
  | del key => exact iff_true_intro rfl
  | zrmv key value => exact iff_true_intro rfl
  | list keys => exact iff_true_intro (documented_list hrel keys)
  | query key =>
    have hkey := hrel key
    simp only [Documented, Fits, iff_true, apiHandle, Request.operations, responses, apiExec,
      Request.response]
    generalize entries key = e, w.api key = item at hkey
    cases hkey <;> rfl
  | zadd key value score =>
    have hkey := hrel key
    simp only [Documented, Fits, iff_true, apiHandle, Request.operations, responses, apiExec,
      Request.response]
    generalize entries key = e, w.api key = item at hkey
    cases hkey <;> rfl
  | zrange key minScore maxScore =>
    have hkey := hrel key
    simp only [Documented, Fits, apiHandle, Request.operations, responses, apiExec,
      Request.response]
    generalize entries key = e, w.api key = item at hkey
    cases hkey with
    | absent => simp [Item.scores, Entry.act]
    | value v => simp [Item.scores, Entry.act]
    | members hm =>
      obtain ⟨pairs, hpairs, hascending, honce, hmem⟩ :=
        pairs_groupsOf order _ minScore.toUInt32 maxScore.toUInt32
      refine Iff.trans ?_ (inRange_iff hm hascending honce hmem)
      simp only [Entry.act, hpairs]
      constructor
      · rintro ⟨pairs', hsame, hrange⟩
        cases hsame
        exact hrange
      · exact fun hrange => ⟨pairs, rfl, hrange⟩

/-- Along every run of requests a server answers as documented exactly as long as every range
selects by the residues of the scores what it selects by the scores. `hcache_shared.cc` refuses
a `zadd` as documented, `drogon.cc` with a 404. -/
theorem servers_implement_api (order : IterationOrder Fbstring) (reqs : List Request) :
    (AllSteps (World.step (HcacheShared.handle order))
        (AsDocumented (HcacheShared.handle order) .badRequest) World.new reqs ↔
      AllSteps (World.step (HcacheShared.handle order)) Fits World.new reqs) ∧
    (AllSteps (World.step (Drogon.handle order))
        (AsDocumented (Drogon.handle order) .notFound) World.new reqs ↔
      AllSteps (World.step (Drogon.handle order)) Fits World.new reqs) := by
  have hserver : ∀ refused, AllSteps (World.step (handle order refused))
      (AsDocumented (handle order refused) refused) World.new reqs ↔
        AllSteps (World.step (handle order refused)) Fits World.new reqs := by
    intro refused
    refine allSteps_iff_allSteps Tracks ?_ ?_ ?_
    · exact fun w req h => asDocumented_iff_fits h req
    · exact fun w req h _ => h.step req
    · exact ⟨_, shows_new, fun _ => .absent⟩
  exact ⟨hserver .badRequest, hserver .notFound⟩

end HCache.CppHttpApi
