import HCache.CppShardedStorage

/-!
# Scores of 64 bits in a storage of 32

The handlers of `hcache.cc` read scores and bounds as 64-bit integers and hand them to a
storage that takes 32-bit ones; the conversion keeps the residue. What was sent is recorded
beside the storage, and the answers are compared with the record along every run of requests
on any number of cores.
-/
namespace HCache.CppScoreWidths
open Std OrderedMaps SequentialMachines TwoIndexRelations CppSingleThreadStorage CppShardedStorage

/-- A request, its JSON body and its path read. -/
inductive HttpRequest where
  | query (key : Fbstring)
  | add (key value : Fbstring)
  | del (key : Fbstring)
  | zadd (key value : Fbstring) (score : UInt64)
  | zrange (key : Fbstring) (minScore maxScore : UInt64)
  | zrmv (key value : Fbstring)
  deriving DecidableEq, Repr

inductive HttpReply where
  | done
  | badRequest
  | notFound
  | text (value : Fbstring)
  | scoreValues (list : List (UInt32 × Fbstring))
  deriving DecidableEq, Repr

def HttpReply.pairs : HttpReply → List (UInt32 × Fbstring)
  | .scoreValues list => list
  | _ => []

variable {smp : Smp}

variable (hash : Fbstring → UInt32) (peers : ShardedStorage smp) (core : Fin smp.count)

def queryHandler (key : Fbstring) : ShardedStorage smp × HttpReply :=
  (ShardedStorage.getValueByKey hash peers core key).map id (fun value =>
    match value with
    | some value => .text value
    | none => .notFound)

def addHandler (key value : Fbstring) : ShardedStorage smp × HttpReply :=
  (ShardedStorage.addKeyValue hash peers core key value).map id (fun _ => .done)

def delHandler (key : Fbstring) : ShardedStorage smp × HttpReply :=
  (ShardedStorage.delKey hash peers core key).map id (fun _ => .done)

/-- `score` is converted where it is passed to `zset_add`. -/
def zaddHandler (key value : Fbstring) (score : UInt64) : ShardedStorage smp × HttpReply :=
  (ShardedStorage.zsetAdd hash peers core key value score.toUInt32).map id (fun success =>
    if success then .done else .badRequest)

/-- The bounds are converted where they are passed to `zset_zrange`. The values of a score are
listed in the order of their hash set. -/
def zrangeHandler (order : IterationOrder Fbstring) (key : Fbstring) (minScore maxScore : UInt64) :
    ShardedStorage smp × HttpReply :=
  (ShardedStorage.zsetZrange hash peers core key minScore.toUInt32 maxScore.toUInt32).map id
    (fun maybeScoreValues =>
      match maybeScoreValues with
      | some scoreValues =>
        .scoreValues (scoreValues.flatMap
          (fun sv => (order.list sv.values).map (fun value => (sv.score, value))))
      | none => .notFound)

/-- `key` and `value` as the path was split. -/
def zrmvHandler (key value : Fbstring) : ShardedStorage smp × HttpReply :=
  (ShardedStorage.zsetRmv hash peers core key value).map id (fun _ => .done)

def handle (order : IterationOrder Fbstring) : HttpRequest → ShardedStorage smp × HttpReply
  | .query key => queryHandler hash peers core key
  | .add key value => addHandler hash peers core key value
  | .del key => delHandler hash peers core key
  | .zadd key value score => zaddHandler hash peers core key value score
  | .zrange key minScore maxScore => zrangeHandler hash peers core order key minScore maxScore
  | .zrmv key value => zrmvHandler hash peers core key value

/-- The score that each member was last added with, as it was sent. -/
abbrev Sent := Fbstring → Fbstring → Option UInt64

/-- Only an accepted `zadd` is recorded. -/
def record (sent : Sent) : HttpRequest → HttpReply → Sent
  | .zadd key value score, .done => Function.update sent key (put (sent key) value score)
  | .zrmv key value, _ => Function.update sent key (drop (sent key) value)
  | .add key _, _ | .del key, _ => Function.update sent key (fun _ => none)
  | _, _ => sent

structure World (smp : Smp) where
  peers : ShardedStorage smp
  sent : Sent

def World.new (smp : Smp) : World smp := ⟨ShardedStorage.new smp, fun _ _ => none⟩

variable (order : IterationOrder Fbstring)

def World.reply (w : World smp) (op : Fin smp.count × HttpRequest) : HttpReply :=
  (handle hash w.peers op.1 order op.2).2

def World.step (w : World smp) (op : Fin smp.count × HttpRequest) : World smp :=
  ⟨(handle hash w.peers op.1 order op.2).1, record w.sent op.2 (w.reply hash order op)⟩

/-- A score that does not fit is refused; a range has the members with scores in range, as
both were sent, under these scores. -/
def Honoured (w : World smp) (op : Fin smp.count × HttpRequest) : Prop :=
  match op.2 with
  | .zadd _ _ score => 2 ^ 32 ≤ score.toNat → w.reply hash order op = .badRequest
  | .zrange key minScore maxScore => ∀ (value : Fbstring) (t : UInt32),
      (t, value) ∈ (w.reply hash order op).pairs ↔
        ∃ score, w.sent key value = some score ∧ (minScore ≤ score ∧ score ≤ maxScore) ∧
        t.toNat = score.toNat
  | _ => True

/-- The score fits, unless the key is a plain one; the bounds select the same members before
and after their conversion. -/
def Fits (w : World smp) (op : Fin smp.count × HttpRequest) : Prop :=
  match op.2 with
  | .zadd key _ score =>
    score.toNat < 2 ^ 32 ∨ key ∈ (w.peers (ShardedStorage.getCpu smp hash key)).kv
  | .zrange key minScore maxScore =>
    ∀ (value : Fbstring) (score : UInt64), w.sent key value = some score →
      (minScore.toNat % 2 ^ 32 ≤ score.toNat ∧ score.toNat ≤ maxScore.toNat % 2 ^ 32 ↔
        minScore ≤ score ∧ score ≤ maxScore)
  | _ => True

/-- The cores together hold what the API has. -/
def Holds (hash : Fbstring → UInt32) (peers : ShardedStorage smp) (api : Fbstring → Entry) : Prop :=
  ∃ whole, Sharded hash peers whole ∧ StorageRel whole api

variable {hash : Fbstring → UInt32} {peers : ShardedStorage smp} {api : Fbstring → Entry}

theorem holds_new (smp : Smp) (hash : Fbstring → UInt32) :
    Holds hash (ShardedStorage.new smp) (fun _ => .absent) :=
  ⟨SingleThreadStorage.new, sharded_new smp hash, storageRel_new⟩

private theorem agrees_one {r r' : Reply} (h : Agrees smp (.one r) r') : r' = r := by
  cases h
  rfl

/-- One operation on the core of its key does to the storage what it does to the API, and has
its reply. -/
theorem Holds.execOn (h : Holds hash peers api) (core : Fin smp.count) (key : Fbstring)
    (op : KeyOp) :
    Holds hash (ShardedStorage.execOn hash peers core key op).1
      (Function.update api key ((api key).act op).1) ∧
      (ShardedStorage.execOn hash peers core key op).2 = ((api key).act op).2 := by
  obtain ⟨whole, hsharded, hrel⟩ := h
  have hstate := (simulates_single smp hash).state peers whole (.on core key op) hsharded trivial
  have hreply :=
    agrees_one ((simulates_single smp hash).response peers whole (.on core key op) hsharded trivial)
  have happi := simulates_api.response whole api (.on key op) hrel trivial
  exact ⟨⟨_, hstate, simulates_api.state whole api (.on key op) hrel trivial⟩,
    hreply.symm.trans happi⟩

theorem Holds.mem_kv_iff (h : Holds hash peers api) (key : Fbstring) :
    key ∈ (peers (ShardedStorage.getCpu smp hash key)).kv ↔ ∃ value, api key = .kv value := by
  obtain ⟨whole, hsharded, hrel⟩ := h
  have hkv : (peers (ShardedStorage.getCpu smp hash key)).kv[key]? = (api key).value? :=
    (congrArg Prod.fst (hsharded.covers key)).trans (hrel key).value
  rw [ExtTreeMap.mem_iff_isSome_getElem?, hkv]
  cases api key with
  | absent => simp [Entry.value?]
  | kv value => simp [Entry.value?]
  | zset m => simp [Entry.value?]

/-- The stored scores are the residues of the recorded ones. -/
def EntrySent : Entry → (Fbstring → Option UInt64) → Prop
  | .zset m, f => ∀ value : Fbstring, m[value]? = (f value).map UInt64.toUInt32
  | .absent, f | .kv _, f => ∀ value, f value = none

theorem EntrySent.put {e : Entry} {f : Fbstring → Option UInt64} (h : EntrySent e f)
    (value : Fbstring) (score : UInt64) (hne : ∀ v, e ≠ .kv v) :
    EntrySent (e.act (.zsetAdd value score.toUInt32)).1 (put f value score) := by
  have hput : ∀ m : ExtTreeMap Fbstring UInt32,
      (∀ v : Fbstring, m[v]? = (f v).map UInt64.toUInt32) →
      ∀ v : Fbstring, (m.insert value score.toUInt32)[v]? =
        (TwoIndexRelations.put f value score v).map UInt64.toUInt32 := by
    intro m hm v
    rw [lookup_insert]
    by_cases hv : value = v
    · simp [hv]
    · rw [if_neg hv, put_of_ne (Ne.symm hv), hm]
  cases e with
  | absent =>
    refine hput ∅ ?_
    intro v
    rw [h v]
    simp
  | kv v => exact absurd rfl (hne v)
  | zset m => exact hput m h

theorem EntrySent.drop {e : Entry} {f : Fbstring → Option UInt64} (h : EntrySent e f)
    (value : Fbstring) :
    EntrySent (e.act (.zsetRmv value)).1 (drop f value) := by
  have hnone : (∀ v, f v = none) → ∀ v, TwoIndexRelations.drop f value v = none := by
    intro hf v
    by_cases hv : v = value
    · simp [hv]
    · rw [drop_of_ne hv, hf]
  cases e with
  | absent => exact hnone h
  | kv v => exact hnone h
  | zset m =>
    intro v
    rw [lookup_erase]
    by_cases hv : value = v
    · simp [hv]
    · rw [if_neg hv, drop_of_ne (Ne.symm hv), h v]

def Tracks (hash : Fbstring → UInt32) (w : World smp) : Prop :=
  ∃ api, Holds hash w.peers api ∧ ∀ key, EntrySent (api key) (w.sent key)

def Narrow (w : World smp) : Prop :=
  ∀ (key value : Fbstring) (score : UInt64), w.sent key value = some score → score.toNat < 2 ^ 32

variable {order : IterationOrder Fbstring} {w : World smp}

/-- An operation that changes the record of its own key as it changes the entry. -/
theorem tracks_execOn {peers : ShardedStorage smp} {sent : Sent} {api : Fbstring → Entry}
    (h : Holds hash peers api) (hs : ∀ key, EntrySent (api key) (sent key)) (core : Fin smp.count)
    (key : Fbstring) (op : KeyOp) {f : Fbstring → Option UInt64}
    (hf : EntrySent ((api key).act op).1 f) :
    Tracks hash ⟨(ShardedStorage.execOn hash peers core key op).1, Function.update sent key f⟩ := by
  refine ⟨_, (h.execOn core key op).1, ?_⟩
  intro k
  rcases eq_or_ne k key with rfl | hne
  · simpa using hf
  · simpa [Function.update_of_ne hne] using hs k

/-- An operation that leaves an entry to which the record of its key applies. -/
theorem tracks_execOn_same {peers : ShardedStorage smp} {sent : Sent} {api : Fbstring → Entry}
    (h : Holds hash peers api) (hs : ∀ key, EntrySent (api key) (sent key)) (core : Fin smp.count)
    (key : Fbstring) (op : KeyOp) (hf : EntrySent ((api key).act op).1 (sent key)) :
    Tracks hash ⟨(ShardedStorage.execOn hash peers core key op).1, sent⟩ := by
  have hnext := tracks_execOn h hs core key op hf
  rwa [Function.update_eq_self] at hnext

/-- A `zadd` is refused on a plain key only. -/
theorem reply_zadd (order : IterationOrder Fbstring) {api : Fbstring → Entry}
    (h : Holds hash w.peers api) (core : Fin smp.count) (key value : Fbstring) (score : UInt64) :
    (w.reply hash order (core, .zadd key value score) = .badRequest ∧ ∃ v, api key = .kv v) ∨
    (w.reply hash order (core, .zadd key value score) = .done ∧ ∀ v, api key ≠ .kv v) := by
  have hflag : Reply.flag (ShardedStorage.zsetAdd hash w.peers core key value score.toUInt32).2 =
      ((api key).act (.zsetAdd value score.toUInt32)).2 :=
        (h.execOn core key (.zsetAdd value score.toUInt32)).2
  have hreply : w.reply hash order (core, .zadd key value score) =
      if (ShardedStorage.zsetAdd hash w.peers core key value score.toUInt32).2 then .done
      else .badRequest := rfl
  rw [hreply]
  cases hk : api key with
  | absent =>
    rw [hk] at hflag
    rw [Reply.flag.inj hflag]
    exact .inr ⟨rfl, by simp⟩
  | kv v =>
    rw [hk] at hflag
    rw [Reply.flag.inj hflag]
    exact .inl ⟨rfl, v, rfl⟩
  | zset m =>
    rw [hk] at hflag
    rw [Reply.flag.inj hflag]
    exact .inr ⟨rfl, by simp⟩

theorem mem_groupsOf_pairs {m : ExtTreeMap Fbstring UInt32} {minScore maxScore t : UInt32}
    {value : Fbstring} :
    (t, value) ∈ (groupsOf m minScore maxScore).flatMap
        (fun sv => (order.list sv.values).map (fun value => (sv.score, value))) ↔
      m[value]? = some t ∧ minScore ≤ t ∧ t ≤ maxScore := by
  have hspec := groupsOf_spec m minScore maxScore
  simp only [List.mem_flatMap, List.mem_map, IterationOrder.mem_list, Prod.mk.injEq]
  constructor
  · rintro ⟨g, hg, v, hv, rfl, rfl⟩
    exact ⟨(hspec.values g hg v).mp hv, hspec.in_range g hg⟩
  · rintro ⟨hv, hmin, hmax⟩
    obtain ⟨g, hg, rfl⟩ := hspec.complete value t hv hmin hmax
    exact ⟨g, hg, value, (hspec.values g hg value).mpr hv, rfl, rfl⟩

private theorem reply_zrange {api : Fbstring → Entry} (h : Holds hash w.peers api)
    (core : Fin smp.count) (key : Fbstring) (minScore maxScore : UInt64) (value : Fbstring)
    (t : UInt32) :
    (t, value) ∈ (w.reply hash order (core, .zrange key minScore maxScore)).pairs ↔
      ∃ m, api key = .zset m ∧ m[value]? = some t ∧ minScore.toUInt32 ≤ t ∧
        t ≤ maxScore.toUInt32 := by
  have hgroups :
      Reply.groups
        (ShardedStorage.zsetZrange hash w.peers core key minScore.toUInt32 maxScore.toUInt32).2 =
      ((api key).act (.zsetZrange minScore.toUInt32 maxScore.toUInt32)).2 :=
    (h.execOn core key (.zsetZrange minScore.toUInt32 maxScore.toUInt32)).2
  have hreply : w.reply hash order (core, .zrange key minScore maxScore) =
      (match (ShardedStorage.zsetZrange hash w.peers core key minScore.toUInt32 maxScore.toUInt32).2
        with
      | some scoreValues =>
        .scoreValues
          (scoreValues.flatMap
            (fun sv => (order.list sv.values).map (fun value => (sv.score, value))))
      | none => .notFound) := rfl
  rw [hreply]
  cases hk : api key with
  | absent =>
    rw [hk] at hgroups
    rw [Reply.groups.inj hgroups]
    simp [HttpReply.pairs]
  | kv v =>
    rw [hk] at hgroups
    rw [Reply.groups.inj hgroups]
    simp [HttpReply.pairs]
  | zset m =>
    rw [hk] at hgroups
    rw [Reply.groups.inj hgroups]
    simp only [HttpReply.pairs, mem_groupsOf_pairs, Entry.zset.injEq, exists_eq_left']

private theorem tracks_step (h : Tracks hash w) (op : Fin smp.count × HttpRequest) :
    Tracks hash (w.step hash order op) := by
  obtain ⟨api, hholds, hsent⟩ := h
  obtain ⟨core, req⟩ := op
  cases req with
  | query key => exact tracks_execOn_same hholds hsent core key .getValueByKey (hsent key)
  | add key value => exact tracks_execOn hholds hsent core key (.addKeyValue value) (fun _ => rfl)
  | del key => exact tracks_execOn hholds hsent core key .delKey (fun _ => rfl)
  | zadd key value score =>
    have hkey := hsent key
    rw [World.step]
    rcases reply_zadd order hholds core key value score with ⟨hreply, v, hk⟩ | ⟨hreply, hne⟩
    · rw [hreply]
      refine tracks_execOn_same hholds hsent core key (.zsetAdd value score.toUInt32) ?_
      rw [hk] at hkey ⊢
      exact hkey
    · rw [hreply]
      exact tracks_execOn hholds hsent core key (.zsetAdd value score.toUInt32)
        (hkey.put value score hne)
  | zrange key minScore maxScore =>
    have hkey := hsent key
    refine tracks_execOn_same hholds hsent core key
      (.zsetZrange minScore.toUInt32 maxScore.toUInt32) ?_
    cases hk : api key with
    | absent => rwa [hk] at hkey
    | kv v => rwa [hk] at hkey
    | zset m => rwa [hk] at hkey
  | zrmv key value =>
    exact tracks_execOn hholds hsent core key (.zsetRmv value) ((hsent key).drop value)

private theorem tracks_new (smp : Smp) (hash : Fbstring → UInt32) : Tracks hash (World.new smp) :=
  ⟨_, holds_new smp hash, fun _ _ => rfl⟩

/-- As long as the recorded scores fit, a range has the members between the residues of the
bounds, under the scores that were sent. -/
theorem pairs_zrange (h : Tracks hash w) (hn : Narrow w) (core : Fin smp.count) (key : Fbstring)
    (minScore maxScore : UInt64) (value : Fbstring) (t : UInt32) :
    (t, value) ∈ (w.reply hash order (core, .zrange key minScore maxScore)).pairs ↔
      ∃ score, w.sent key value = some score ∧
        (minScore.toNat % 2 ^ 32 ≤ score.toNat ∧ score.toNat ≤ maxScore.toNat % 2 ^ 32) ∧
        t.toNat = score.toNat := by
  obtain ⟨api, hholds, hsent⟩ := h
  have hkey := hsent key
  rw [reply_zrange hholds]
  cases hk : api key with
  | absent =>
    rw [hk] at hkey
    simp [hkey value]
  | kv v =>
    rw [hk] at hkey
    simp [hkey value]
  | zset m =>
    rw [hk] at hkey
    simp only [Entry.zset.injEq, exists_eq_left', UInt32.le_iff_toNat_le, UInt64.toNat_toUInt32]
    rw [hkey value, Option.map_eq_some_iff]
    constructor
    · rintro ⟨⟨score, hscore, rfl⟩, hrange⟩
      have hfit := hn key value score hscore
      rw [UInt64.toNat_toUInt32, Nat.mod_eq_of_lt hfit] at hrange
      exact ⟨score, hscore, hrange, by rw [UInt64.toNat_toUInt32, Nat.mod_eq_of_lt hfit]⟩
    · rintro ⟨score, hscore, hrange, ht⟩
      have hfit := hn key value score hscore
      refine ⟨⟨score, hscore, ?_⟩, ht ▸ hrange⟩
      rw [← UInt32.toNat_inj, UInt64.toNat_toUInt32, Nat.mod_eq_of_lt hfit, ht]

theorem honoured_iff_fits (order : IterationOrder Fbstring) (h : Tracks hash w) (hn : Narrow w)
    (op : Fin smp.count × HttpRequest) :
    Honoured hash order w op ↔ Fits hash w op := by
  obtain ⟨core, req⟩ := op
  cases req with
  | query key => exact Iff.rfl
  | add key value => exact Iff.rfl
  | del key => exact Iff.rfl
  | zrmv key value => exact Iff.rfl
  | zadd key value score =>
    obtain ⟨api, hholds, -⟩ := h
    simp only [Honoured, Fits, hholds.mem_kv_iff key]
    rcases reply_zadd order hholds core key value score with ⟨hreply, hkv⟩ | ⟨hreply, hne⟩
    · simp [hreply, hkv]
    · simp [hreply, hne]
  | zrange key minScore maxScore =>
    simp only [Honoured, Fits, pairs_zrange h hn]
    constructor
    · intro hhonoured value score hscore
      have hfit := hn key value score hscore
      have ht : score.toUInt32.toNat = score.toNat := by
        rw [UInt64.toNat_toUInt32, Nat.mod_eq_of_lt hfit]
      have hiff := hhonoured value score.toUInt32
      simpa [hscore, ht] using hiff
    · intro hfits value t
      constructor
      · rintro ⟨score, hscore, hrange, ht⟩
        exact ⟨score, hscore, (hfits value score hscore).mp hrange, ht⟩
      · rintro ⟨score, hscore, hrange, ht⟩
        exact ⟨score, hscore, (hfits value score hscore).mpr hrange, ht⟩

/-- What is recorded after a request was recorded before or has been accepted now. -/
theorem record_some {sent : Sent} {req : HttpRequest} {reply : HttpReply} {key value : Fbstring}
    {score : UInt64} (h : record sent req reply key value = some score) :
    sent key value = some score ∨ (req = .zadd key value score ∧ reply = .done) := by
  have hcleared : ∀ k, Function.update sent k (fun _ => none) key value = some score →
      sent key value = some score := by
    intro k hk
    rcases eq_or_ne key k with rfl | hne
    · simp at hk
    · rwa [Function.update_of_ne hne] at hk
  cases req with
  | query k => exact .inl h
  | add k v => exact .inl (hcleared k h)
  | del k => exact .inl (hcleared k h)
  | zrange k minScore maxScore => exact .inl h
  | zadd k v s =>
    cases reply with
    | done =>
      rcases eq_or_ne key k with rfl | hne
      · rw [record, Function.update_self] at h
        rcases eq_or_ne value v with rfl | hv
        · rw [put_self] at h
          exact .inr ⟨by rw [Option.some.inj h], rfl⟩
        · rw [put_of_ne hv] at h
          exact .inl h
      · rw [record, Function.update_of_ne hne] at h
        exact .inl h
    | badRequest => exact .inl h
    | notFound => exact .inl h
    | text t => exact .inl h
    | scoreValues list => exact .inl h
  | zrmv k v =>
    rcases eq_or_ne key k with rfl | hne
    · rw [record, Function.update_self] at h
      rcases eq_or_ne value v with rfl | hv
      · simp at h
      · rw [drop_of_ne hv] at h
        exact .inl h
    · rw [record, Function.update_of_ne hne] at h
      exact .inl h

private theorem narrow_step (h : Tracks hash w) (hn : Narrow w) {op : Fin smp.count × HttpRequest}
    (hf : Fits hash w op) :
    Narrow (w.step hash order op) := by
  intro key value score hscore
  rcases record_some hscore with hold | ⟨hreq, hdone⟩
  · exact hn key value score hold
  · have hhonoured := (honoured_iff_fits order h hn op).mpr hf
    rw [Honoured, hreq] at hhonoured
    by_contra hwide
    have hrefused := hhonoured (by omega)
    simp [hdone] at hrefused

/-- Along every run the scores that are accepted are honoured exactly as long as every score
is below 2^32 or sent to a plain key, and every range has bounds whose residues modulo 2^32
select the members that the bounds select. -/
theorem scores_honoured_iff_fit (smp : Smp) (hash : Fbstring → UInt32)
    (order : IterationOrder Fbstring) (ops : List (Fin smp.count × HttpRequest)) :
    AllSteps (World.step hash order) (Honoured hash order) (World.new smp) ops ↔
      AllSteps (World.step hash order) (Fits hash) (World.new smp) ops := by
  refine allSteps_iff_allSteps (fun w => Tracks hash w ∧ Narrow w) ?_ ?_ ⟨tracks_new smp hash, ?_⟩
  · intro w op h
    exact honoured_iff_fits order h.1 h.2 op
  · intro w op h hf
    exact ⟨tracks_step h.1 op, narrow_step h.1 h.2 hf⟩
  · intro key value score h
    simp [World.new] at h

def oneCore : Smp := ⟨1, by decide⟩

/-- A `zadd` with the score 2^32 + 5 on that core. -/
def wideZadd : Fin oneCore.count × HttpRequest := (⟨0, by decide⟩, .zadd [122] [97] 4294967301)

/-- The score is accepted, and stored as 5. -/
theorem wide_score_stored_as_another :
    ¬AllSteps (World.step (fun _ => 0) (IterationOrder.choice Fbstring))
      (Honoured (fun _ => 0) (IterationOrder.choice Fbstring)) (World.new oneCore) [wideZadd] ∧
    (((handle (fun _ => 0) (World.new oneCore).peers wideZadd.1
      (IterationOrder.choice Fbstring) wideZadd.2).1
      wideZadd.1).zsets[([122] : Fbstring)]?.bind (fun z => z.valueToScore[([97] : Fbstring)]?)) =
        some 5 := by
  constructor
  · intro hrun
    have hdone : (World.new oneCore).reply (fun _ => 0) (IterationOrder.choice Fbstring) wideZadd =
      .done := by decide
    have hrefused := hrun.1 (by decide)
    rw [hdone] at hrefused
    simp at hrefused
  · decide

end HCache.CppScoreWidths
