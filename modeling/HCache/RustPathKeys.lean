import HCache.RustDeployments

/-!
# Keys in paths and keys in bodies

The client puts a key behind `/query/`, `/del/`, `/zadd/` or `/zrange/`, and in a body for `add`
and `batch`. The handlers of POST requests get all of it back; those of GET requests get what
comes before the next slash, since their paths are split once more for `/zrmv/{key}/{value}`.
-/
namespace HCache.RustPathKeys
open Std OrderedMaps DelimitedLists RustStorage RustSortedSets RustRouting RustClusterNodes
  RustClusterStores RustMultiKeyRequests RustMultiKeyOutcomes RustHttpHandler RustDeployments

def slash : UInt8 := '/'.toUInt8

/-- `format!("{}/query/{}", *HOST, key)` behind the host, for each route. It is the path of the
URI when no `?` and no `#` ends it early. -/
def clientPath (route key : Str) : Str := slash :: (route ++ slash :: key)

/-- `/zrmv/{key}/{value}`. -/
def clientZrmvPath (key value : Str) : Str := clientPath (utf8 "zrmv") (key ++ slash :: value)

def queryRequest (key : Str) : HttpRequest := ⟨.get, clientPath (utf8 "query") key, []⟩
def delRequest (key : Str) : HttpRequest := ⟨.get, clientPath (utf8 "del") key, []⟩
def zrmvRequest (key value : Str) : HttpRequest := ⟨.get, clientZrmvPath key value, []⟩
def addRequest (body : List UInt8) : HttpRequest := ⟨.post, utf8 "/add", body⟩
def batchRequest (body : List UInt8) : HttpRequest := ⟨.post, utf8 "/batch", body⟩
def zaddRequest (key : Str) (body : List UInt8) : HttpRequest :=
  ⟨.post, clientPath (utf8 "zadd") key, body⟩
def zrangeRequest (key : Str) (body : List UInt8) : HttpRequest :=
  ⟨.post, clientPath (utf8 "zrange") key, body⟩

/-- Every route reads the key that the client has put into its path. -/
structure Routed (serde : Serde) (key : Str) : Prop where
  query : readRequest serde (queryRequest key) = .ok (.keyed (.query key))
  del : readRequest serde (delRequest key) = .ok (.keyed (.del key))
  zadd : ∀ body dto, serde.scoreValue body = some dto →
    readRequest serde (zaddRequest key body) = .ok (.keyed (.zadd key dto))
  zrange : ∀ body dto, serde.scoreRange body = some dto →
    readRequest serde (zrangeRequest key body) = .ok (.keyed (.zrange key dto))
  zrmv : slash ∉ key → ∀ value, readRequest serde (zrmvRequest key value) =
    .ok (.keyed (.zrmv key value))

variable {Host : Type} [DecidableEq Host]

/-- As long as a key is spared, every server answers a request in the same way. -/
def Answers (env : Env Host) (d : Deployment Host) (key : Str) (w : World Host) (req : HttpRequest)
    (Expected : HttpResponse → Prop) : Prop :=
  ∀ w', Meanwhile env d key w w' → ∀ arrival ∈ d.hosts, ∃ w'' answer,
    hyperHandler env w' arrival req = .ok (w'', answer) ∧ Expected answer

/-- Paths and bodies name the same key. -/
structure PathKeys (env : Env Host) (d : Deployment Host) (key : Str) : Prop where
  routed : Routed env.serde key
  query_after_add : ∀ w w' arrival body value answer, Serving d w → arrival ∈ d.hosts →
    env.serde.insrtRequest body = some ⟨key, value⟩ →
    hyperHandler env w arrival (addRequest body) = .ok (w', answer) → answer.status = .ok →
    Answers env d key w' (queryRequest key) (fun a => a = .one ⟨.ok, .text value⟩)
  query_after_batch : ∀ w w' arrival body kvs value answer, Serving d w → arrival ∈ d.hosts →
    env.serde.insrtRequests body = some kvs → (valuesOf (kvs.map InsrtRequest.entry) key).getLast? =
      some value →
    hyperHandler env w arrival (batchRequest body) = .ok (w', answer) → answer.status = .ok →
    Answers env d key w' (queryRequest key) (fun a => a = .one ⟨.ok, .text value⟩)
  zrange_after_zadd : ∀ w w' arrival body dto answer, Serving d w → arrival ∈ d.hosts →
    env.serde.scoreValue body = some dto →
    hyperHandler env w arrival (zaddRequest key body) = .ok (w', answer) → answer.status = .ok →
    ∀ range rangeBody, env.serde.scoreRange rangeBody = some range →
      range.minScore ≤ dto.score → dto.score ≤ range.maxScore →
      Answers env d key w' (zrangeRequest key rangeBody)
        (fun a => ∃ scores, a = .one ⟨.ok, .scoreValues scores⟩ ∧ dto ∈ scores)
  del_removes : ∀ w arrival, Serving d w → arrival ∈ d.hosts → ∃ w',
    hyperHandler env w arrival (delRequest key) = .ok (w', .one .done) ∧
    Answers env d key w' (queryRequest key) (fun a => a = .one .notFound) ∧
    held d w' key = (none, none) ∧ (stores w' (d.home key)).db[key]? = none
  del_spares : ∀ w w' arrival answer, Serving d w → arrival ∈ d.hosts →
    hyperHandler env w arrival (delRequest key) = .ok (w', answer) → ∀ host k, k ≠ key →
    inMemory (stores w' host) k = inMemory (stores w host) k ∧
    (stores w' host).db[k]? = (stores w host).db[k]? ∧
    (stores w' host).zsetDb = (stores w host).zsetDb

theorem beq_slash {part : Str} (h : slash ∉ part) : ∀ a ∈ part, (a == '/'.toUInt8) = false := by
  intro a ha
  have hne : a ≠ slash := fun he => h (he ▸ ha)
  simpa [slash] using hne

theorem splitPath_clientPath (n : ℕ) {route : Str} (hr : slash ∉ route) (key : Str) :
    splitPath (n + 3) (clientPath route key) = [] :: route :: splitPath (n + 1) key := by
  have hhead : splitn (n + 3) (fun c => c == '/'.toUInt8) ([] ++ slash :: (route ++ slash :: key)) =
      [] :: splitn (n + 2) (fun c => c == '/'.toUInt8) (route ++ slash :: key) :=
    splitn_append_cons (n + 1) (by simp) (by rfl)
  rw [List.nil_append, splitn_append_cons n (beq_slash hr) (by rfl)] at hhead
  exact hhead

theorem splitPath_two {key : Str} (hk : slash ∉ key) : splitPath 2 key = [key] :=
  splitn_of_forall 1 (beq_slash hk)

theorem splitPath_two_slash {part : Str} (hp : slash ∉ part) (rest : Str) :
    splitPath 2 (part ++ slash :: rest) = [part, rest] :=
  splitn_append_cons 0 (beq_slash hp) (by rfl)

variable {serde : Serde} {key part : Str} {rest : List Str}

/-- A GET route reads the first component behind it. -/
theorem read_query (h : splitPath 2 key = part :: rest) :
    readRequest serde (queryRequest key) = .ok (.keyed (.query part)) := by
  have hpath := splitPath_clientPath 1 (by decide +kernel : slash ∉ utf8 "query") key
  have hroute : getRoute (utf8 "query") = .query := by decide +kernel
  simp [readRequest, queryRequest, hpath, h, component, hroute, bind, Except.bind, pure,
    Except.pure]

theorem read_del (h : splitPath 2 key = part :: rest) :
    readRequest serde (delRequest key) = .ok (.keyed (.del part)) := by
  have hpath := splitPath_clientPath 1 (by decide +kernel : slash ∉ utf8 "del") key
  have hroute : getRoute (utf8 "del") = .del := by decide +kernel
  simp [readRequest, delRequest, hpath, h, component, hroute, bind, Except.bind, pure, Except.pure]

private theorem read_zrmv (hk : slash ∉ key) (value : Str) :
    readRequest serde (zrmvRequest key value) = .ok (.keyed (.zrmv key value)) := by
  have hpath :=
    splitPath_clientPath 1 (by decide +kernel : slash ∉ utf8 "zrmv") (key ++ slash :: value)
  have hroute : getRoute (utf8 "zrmv") = .zrmv := by decide +kernel
  simp [readRequest, zrmvRequest, clientZrmvPath, hpath, splitPath_two_slash hk, component, hroute,
    bind, Except.bind, pure, Except.pure]

/-- A POST route reads all that is behind it. -/
theorem read_zadd {body : List UInt8} {dto : ScoreValue} (h : serde.scoreValue body = some dto) :
    readRequest serde (zaddRequest key body) = .ok (.keyed (.zadd key dto)) := by
  have hpath : splitPath 3 (clientPath (utf8 "zadd") key) = [[], utf8 "zadd", key] :=
    splitPath_clientPath 0 (by decide +kernel) key
  have hroute : postRoute (utf8 "zadd") = .zadd := by decide +kernel
  simp [readRequest, zaddRequest, hpath, h, unwrap, component, hroute, bind, Except.bind, pure,
    Except.pure]

theorem read_zrange {body : List UInt8} {dto : ScoreRange} (h : serde.scoreRange body = some dto) :
    readRequest serde (zrangeRequest key body) = .ok (.keyed (.zrange key dto)) := by
  have hpath : splitPath 3 (clientPath (utf8 "zrange") key) = [[], utf8 "zrange", key] :=
    splitPath_clientPath 0 (by decide +kernel) key
  have hroute : postRoute (utf8 "zrange") = .zrange := by decide +kernel
  simp [readRequest, zrangeRequest, hpath, h, unwrap, component, hroute, bind, Except.bind, pure,
    Except.pure]

private theorem read_add {body : List UInt8} {kv : InsrtRequest}
    (h : serde.insrtRequest body = some kv) :
    readRequest serde (addRequest body) = .ok (.keyed (.add kv)) := by
  have hpath : splitPath 3 (utf8 "/add") = [[], utf8 "add"] := by decide +kernel
  have hroute : postRoute (utf8 "add") = .add := by decide +kernel
  simp [readRequest, addRequest, hpath, h, unwrap, component, hroute, bind, Except.bind, pure,
    Except.pure]

private theorem read_batch {body : List UInt8} {kvs : List InsrtRequest}
    (h : serde.insrtRequests body = some kvs) :
    readRequest serde (batchRequest body) = .ok (.batch kvs) := by
  have hpath : splitPath 3 (utf8 "/batch") = [[], utf8 "batch"] := by decide +kernel
  have hroute : postRoute (utf8 "batch") = .batch := by decide +kernel
  simp [readRequest, batchRequest, hpath, h, unwrap, component, hroute, bind, Except.bind, pure,
    Except.pure]

theorem routed_iff {serde : Serde} {key : Str} : Routed serde key ↔ slash ∉ key := by
  constructor
  · intro h hk
    obtain ⟨part, rest, rfl, hp⟩ := List.eq_append_cons_of_mem hk
    have hread : readRequest serde (queryRequest (part ++ slash :: rest)) =
        .ok (.keyed (.query part)) :=
      read_query (splitPath_two_slash hp rest)
    rw [h.query] at hread
    have hlength :=
      congrArg List.length (Request.query.inj (Action.keyed.inj (Except.ok.inj hread)))
    simp only [List.length_append, List.length_cons] at hlength
    omega
  · intro hk
    exact ⟨read_query (splitPath_two hk), read_del (splitPath_two hk), fun _ _ => read_zadd,
    fun _ _ => read_zrange, fun _ => read_zrmv hk⟩

variable {Host : Type} [DecidableEq Host] {env : Env Host} {d : Deployment Host} {w w' : World Host}
  {arrival : Host}
  {key : Str}

/-- What a request for one key has done when it was acknowledged. -/
theorem keyed_done (env : Env Host) (hs : Serving d w) (ha : arrival ∈ d.hosts)
    {httpReq : HttpRequest} {req : Request}
    (hread : readRequest env.serde httpReq = .ok (.keyed req)) {s : Storage} {response : Response}
    (he : execute env.sets (stores w (d.home req.key)) req = .ok (s, response)) :
    ∃ w', hyperHandler env w arrival httpReq = .ok (w', .one response) ∧ Serving d w' ∧
      stores w' = Function.update (stores w) (d.home req.key) s := by
  have hperform := perform_keyed env hs ha he
  refine ⟨_, (hyperHandler_of_read hread).trans hperform,
    (serving_perform hs ha (by simp) hperform).1, ?_⟩
  exact stores_of_nodes (d := d) rfl

theorem held_of_stores {s : Storage} (h : stores w' = Function.update (stores w) (d.home key) s) :
    held d w' key = inMemory s key := by
  rw [held, h, Function.update_self]

/-- A query answers what the home of its key holds. -/
theorem answers_query (hs : Serving d w) (hk : slash ∉ key) {value : Option Str}
    (hv : (held d w key).1 = value) :
    Answers env d key w (queryRequest key) (fun a => a = .one (queryResponse value)) := by
  intro w' hrun arrival ha
  obtain ⟨hs', hheld⟩ := hrun.held hs
  obtain ⟨w'', hquery, -⟩ := keyed_done env hs' ha (read_query (splitPath_two hk)) rfl
  refine ⟨w'', _, hquery, ?_⟩
  rw [← hv, ← hheld]
  rfl

private theorem answers_zrange (hs : Serving d w) {z : ZSet} (hz : (held d w key).2 = some z)
    {range : ScoreRange} {body : List UInt8} (hbody : env.serde.scoreRange body = some range)
    (hr : range.minScore ≤ range.maxScore) :
    Answers env d key w (zrangeRequest key body)
      (fun a => ∃ scores, a = .one ⟨.ok, .scoreValues scores⟩ ∧
        RangeAnswer (members z) range scores) := by
  intro w' hrun arrival ha
  obtain ⟨hs', hheld⟩ := hrun.held hs
  rw [← hheld] at hz
  have hzset : (stores w' (d.home key)).zsets[key]? = some z := hz
  obtain ⟨scores, hscores, hanswer⟩ := zrange_spec (hs'.consistent _ key z hzset) env.sets hr
  have he : execute env.sets (stores w' (d.home key)) (.zrange key range) =
      .ok (stores w' (d.home key), ⟨.ok, .scoreValues scores⟩) := by
    simp only [execute, Storage.zrange, hzset, hscores, Except.map, zrangeResponse]
  obtain ⟨w'', hzrange, -⟩ := keyed_done env hs' ha (read_zrange hbody) he
  exact ⟨w'', _, hzrange, scores, rfl, hanswer⟩

private theorem query_after_add (hs : Serving d w) (ha : arrival ∈ d.hosts) (hk : slash ∉ key)
    {body : List UInt8} {value : Str} (hbody : env.serde.insrtRequest body = some ⟨key, value⟩)
    {answer : HttpResponse} (h : hyperHandler env w arrival (addRequest body) = .ok (w', answer)) :
    Answers env d key w' (queryRequest key) (fun a => a = .one ⟨.ok, .text value⟩) := by
  obtain ⟨w₁, hadd, hs₁, hstores⟩ := keyed_done env hs ha (read_add hbody) rfl
  obtain ⟨rfl, -⟩ := Prod.mk.inj (Except.ok.inj (h.symm.trans hadd))
  have hheld : held d w' key = inMemory ((stores w (d.home key)).insertKv key value) key :=
    held_of_stores hstores
  have hvalue : (held d w' key).1 = some value := by
    rw [hheld]
    simp [inMemory]
  exact answers_query hs₁ hk hvalue

private theorem query_after_batch (hs : Serving d w) (ha : arrival ∈ d.hosts) (hk : slash ∉ key)
    {body : List UInt8} {kvs : List InsrtRequest} (hbody : env.serde.insrtRequests body = some kvs)
    {value : Str} (hvalue : (valuesOf (kvs.map InsrtRequest.entry) key).getLast? = some value)
    {answer : HttpResponse}
    (h : hyperHandler env w arrival (batchRequest body) = .ok (w', answer)) :
    Answers env d key w' (queryRequest key) (fun a => a = .one ⟨.ok, .text value⟩) := by
  rw [hyperHandler_of_read (read_batch hbody)] at h
  obtain ⟨storages, hbatch, hwritten⟩ := perform_batch env hs ha kvs
  obtain ⟨hs', -⟩ := serving_perform hs ha (by simp) h
  obtain ⟨rfl, -⟩ := Prod.mk.inj (Except.ok.inj (h.symm.trans hbatch))
  have hget := (hwritten (d.home key)).getKv
  rw [hvalue] at hget
  have hheld : (held d ⟨d.nodes storages, w.processes⟩ key).1 = some value := by
    rw [held_of_nodes rfl]
    exact hget
  exact answers_query hs' hk hheld

private theorem zrange_after_zadd (hs : Serving d w) (ha : arrival ∈ d.hosts) {body : List UInt8}
    {dto : ScoreValue} (hbody : env.serde.scoreValue body = some dto) {answer : HttpResponse}
    (h : hyperHandler env w arrival (zaddRequest key body) = .ok (w', answer)) {range : ScoreRange}
    {rangeBody : List UInt8} (hrange : env.serde.scoreRange rangeBody = some range)
    (hlo : range.minScore ≤ dto.score) (hhi : dto.score ≤ range.maxScore) :
    Answers env d key w' (zrangeRequest key rangeBody)
      (fun a => ∃ scores, a = .one ⟨.ok, .scoreValues scores⟩ ∧ dto ∈ scores) := by
  obtain ⟨w₁, hzadd, hs₁, hstores⟩ := keyed_done env hs ha (read_zadd hbody) rfl
  obtain ⟨rfl, -⟩ := Prod.mk.inj (Except.ok.inj (h.symm.trans hzadd))
  have hheld : held d w' key = inMemory ((stores w (d.home key)).zadd key dto) key :=
    held_of_stores hstores
  have hz : (held d w' key).2 =
      some (((stores w (d.home key)).getOrInsertZset key).zaddMemory dto) := by
    rw [hheld]
    simp [inMemory]
  intro w₂ hrun b hb
  obtain ⟨w₃, a, hanswer, scores, rfl, hscores⟩ :=
    answers_zrange hs₁ hz hrange (UInt32.le_trans hlo hhi) w₂ hrun b hb
  refine ⟨w₃, _, hanswer, scores, rfl, (hscores.mem_iff dto).mpr ⟨?_, hlo, hhi⟩⟩
  rw [members_zaddMemory, TwoIndexRelations.put_self]

theorem del_done (env : Env Host) (hs : Serving d w) (ha : arrival ∈ d.hosts) (hk : slash ∉ key) :
    ∃ w',
    hyperHandler env w arrival (delRequest key) = .ok (w', .one .done) ∧ Serving d w' ∧
      stores w' = Function.update (stores w) (d.home key) ((stores w (d.home key)).del key) :=
  keyed_done env hs ha (read_del (splitPath_two hk)) rfl

private theorem del_removes (hs : Serving d w) (ha : arrival ∈ d.hosts) (hk : slash ∉ key) : ∃ w',
    hyperHandler env w arrival (delRequest key) = .ok (w', .one .done) ∧
    Answers env d key w' (queryRequest key) (fun a => a = .one .notFound) ∧
    held d w' key = (none, none) ∧ (stores w' (d.home key)).db[key]? = none := by
  obtain ⟨w', hdel, hs', hstores⟩ := del_done env hs ha hk
  have hheld : held d w' key = (none, none) := by
    rw [held_of_stores hstores]
    simp [inMemory]
  refine ⟨w', hdel, answers_query hs' hk (congrArg Prod.fst hheld), hheld, ?_⟩
  rw [hstores, Function.update_self]
  simp

private theorem del_spares (hs : Serving d w) (ha : arrival ∈ d.hosts) (hk : slash ∉ key)
    {answer : HttpResponse} (h : hyperHandler env w arrival (delRequest key) = .ok (w', answer))
    (host : Host) {k : Str} (hne : k ≠ key) :
    inMemory (stores w' host) k = inMemory (stores w host) k ∧
    (stores w' host).db[k]? = (stores w host).db[k]? ∧
    (stores w' host).zsetDb = (stores w host).zsetDb := by
  obtain ⟨w₁, hdel, -, hstores⟩ := del_done env hs ha hk
  obtain ⟨rfl, -⟩ := Prod.mk.inj (Except.ok.inj (h.symm.trans hdel))
  rw [hstores]
  rcases eq_or_ne host (d.home key) with rfl | ho
  · simp [inMemory, lookup_erase, Ne.symm hne]
  · simp [Function.update_of_ne ho]

/-- Paths and bodies name the same key exactly when it has no slash. -/
theorem path_keys_iff {Host : Type} [DecidableEq Host] (env : Env Host) (d : Deployment Host)
    (key : Str) :
    PathKeys env d key ↔ slash ∉ key := by
  constructor
  · intro h
    exact routed_iff.mp h.routed
  · intro hk
    constructor
    · exact routed_iff.mpr hk
    · intro w w' arrival body value answer hs ha hbody h _
      exact query_after_add hs ha hk hbody h
    · intro w w' arrival body kvs value answer hs ha hbody hvalue h _
      exact query_after_batch hs ha hk hbody hvalue h
    · intro w w' arrival body dto answer hs ha hbody h _ range rangeBody hrange hlo hhi
      exact zrange_after_zadd hs ha hbody h hrange hlo hhi
    · intro w arrival hs ha
      exact del_removes hs ha hk
    · intro w w' arrival answer hs ha h host k hne
      exact del_spares hs ha hk h host hne

/-- A server that holds a plain value under `a` and another under `a/b`. -/
def twoKeys : World ℕ :=
  ⟨fun _ => Node.single ((Storage.new.insertKv (utf8 "a") [0]).insertKv (utf8 "a/b") [1]),
    fun _ => ⟨true, .loaded, none⟩⟩

/-- `GET /del/a/b` is acknowledged; it has removed `a` and left `a/b`. -/
theorem del_removes_another_key :
    (∃ w', hyperHandler quietEnv twoKeys 0 (delRequest (utf8 "a/b")) = .ok (w', .one .done) ∧
      (stores w' 0).getKv (utf8 "a") = none ∧ (stores w' 0).getKv (utf8 "a/b") = some [1]) ∧
    ¬ PathKeys quietEnv (.alone 0) (utf8 "a/b") := by
  constructor
  · have hs : Serving (.alone 0) twoKeys := by
      refine ⟨rfl, fun _ => ?_⟩
      exact allConsistent_apply (allConsistent_apply allConsistent_new (.insertKv (utf8 "a") [0]))
        (.insertKv (utf8 "a/b") [1])
    have hpath : splitPath 2 (utf8 "a/b") = [utf8 "a", utf8 "b"] := by decide +kernel
    have hne : utf8 "a" ≠ utf8 "a/b" := by decide +kernel
    obtain ⟨w', hdel, -, hstores⟩ :=
      keyed_done quietEnv hs (List.mem_singleton_self 0) (read_del hpath) rfl
    have hstore : stores w' 0 = (stores twoKeys 0).del (utf8 "a") := by
      rw [hstores]
      exact Function.update_self _ _ _
    refine ⟨w', hdel, ?_, ?_⟩
    · rw [hstore]
      simp [Storage.getKv]
    · rw [hstore]
      simp [Storage.getKv, hne, stores, twoKeys, Node.single]
  · intro h
    have hslash : slash ∈ utf8 "a/b" := by decide +kernel
    exact routed_iff.mp h.routed hslash

end HCache.RustPathKeys
