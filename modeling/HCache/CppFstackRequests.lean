import HCache.CppFstackHeads
import HCache.SequentialMachines

/-!
# Requests on one keep-alive connection

The requests of the API as they arrive on a connection: in order, and cut into chunks. The
handler takes no GET head out of its buffer, so the first GET that it serves is served again
for every later chunk, and it resets the method before it dispatches a body, so no body has
an effect or an answer. Only one and the same GET, repeated, can be served as often as it
was sent.
-/
namespace HCache.CppFstackRequests
open OrderedMaps SequentialMachines CppSingleThreadStorage CppShardedStorage CppFstackLoop
open CppFstackHeads CppPicoTokens CppPicoRequests CppPicoGrammar CppPicoVerdicts

inductive Request where
  | query (key : Fbstring)
  | del (key : Fbstring)
  | zrmv (key value : Fbstring)
  | init
  | add (kv : KeyValue)
  | batch (kvs : List KeyValue)
  | list (keys : KeySet)
  | zadd (key value : Fbstring) (score : UInt32)
  | zrange (key : Fbstring) (minScore maxScore : UInt32)

namespace Request

def func : Request → CacheMethod
  | query _ => .query
  | del _ => .del
  | zrmv _ _ => .zrmv
  | init => .init
  | add _ => .add
  | batch _ => .batch
  | list _ => .list
  | zadd _ _ _ => .zadd
  | zrange _ _ _ => .zrange

def method (request : Request) : Fbstring :=
  if request.func.hasBody then ascii "POST" else ascii "GET"

def path : Request → Fbstring
  | query key => ascii "/query/" ++ key
  | del key => ascii "/del/" ++ key
  | zrmv key value => ascii "/zrmv/" ++ key ++ ascii "/" ++ value
  | init => ascii "/init"
  | add _ => ascii "/add"
  | batch _ => ascii "/batch"
  | list _ => ascii "/list"
  | zadd key _ _ => ascii "/zadd/" ++ key
  | zrange key _ _ => ascii "/zrange/" ++ key

def operations : Request → List StorageOp
  | query key => [.on key .getValueByKey]
  | del key => [.on key .delKey]
  | zrmv key value => [.on key (.zsetRmv value)]
  | init => []
  | add kv => [.on kv.key (.addKeyValue kv.value)]
  | batch kvs => kvs.map (fun kv => .on kv.key (.addKeyValue kv.value))
  | list keys => [.listKeys keys.keys]
  | zadd key value score => [.on key (.zsetAdd value score)]
  | zrange key minScore maxScore => [.on key (.zsetZrange minScore maxScore)]

def answer (hcache : CppStorage.Storage) : Request → Response
  | query key =>
    match hcache.getValueByKey key with
    | some value => .found value
    | none => .notFound
  | init => .initResponse
  | _ => .empty

/-- The key of a `zrmv` ends at the next slash. -/
def Valid : Request → Prop
  | zrmv key _ => '/'.toUInt8 ∉ key
  | _ => True

def CarriesPair (doc : Json) (kv : KeyValue) : Prop :=
  Json.field "key" (some doc) = .ok (.string kv.key) ∧ Json.field "value" (some doc) =
    .ok (.string kv.value)

def Carries (doc : Json) : Request → Prop
  | add kv => CarriesPair doc kv
  | batch kvs => ∃ items, doc = .array items ∧ List.Forall₂ CarriesPair items kvs
  | list keys =>
    ∃ names : List Fbstring, doc = .array (names.map .string) ∧ ∀ key, key ∈ keys.keys ↔ key ∈ names
  | zadd _ value score => Json.field "score" (some doc) = .ok (.uint64 score.toUInt64) ∧
      Json.field "value" (some doc) = .ok (.string value)
  | zrange _ minScore maxScore =>
    Json.field "min_score" (some doc) = .ok (.uint64 minScore.toUInt64) ∧
      Json.field "max_score" (some doc) = .ok (.uint64 maxScore.toUInt64)
  | _ => True

end Request

/-- A request as its bytes: a head that the parser reads as soon as it is there, whatever
follows, and a body of the announced length. -/
structure Message (p : Parsers) where
  request : Request
  head : Fbstring
  headers : List Header
  body : Fbstring
  valid : request.Valid
  complete : ∀ rest, p.phrParseRequest (head ++ rest) =
    .head head.length ⟨request.method, request.path, headers⟩
  incomplete : ∀ part, part <+: head → part ≠ head → p.phrParseRequest part = .incomplete
  noBody : request.func.hasBody = false → body = []
  contentLength : request.func.hasBody = true →
    ∃ header ∈ headers, header.name.map toLower = ascii "content-length" ∧
    stoi header.value = .ok (body.length : ℤ)
  document : request.func.hasBody = true → ∃ doc, p.parse body = some doc ∧ request.Carries doc

variable {p : Parsers}

def Message.bytes (m : Message p) : Fbstring := m.head ++ m.body

/-- The bytes of the messages, cut into chunks as `ff_recv` returns them. -/
structure Division (messages : List (Message p)) (chunks : List Fbstring) : Prop where
  sizes : ∀ chunk ∈ chunks, 1 ≤ chunk.length ∧ chunk.length ≤ 512
  bytes : chunks.flatten = messages.flatMap Message.bytes

/-- The handler performs the operations of the requests in order, each once, and sends one
response for each request in order. -/
def ServedOnce (hcache : CppStorage.Storage) (messages : List (Message p))
    (chunks : List Fbstring) : Prop :=
  ∃ s, chunks.foldlM (onRecv p) (Server.start hcache) = .ok s ∧
    s.operations = messages.flatMap (fun m => m.request.operations) ∧
    s.sent.map Prod.fst = messages.map (fun m => m.request.func)

/-- How many chunks there are from the one with the byte at `len` on. -/
def recvsFrom : ℕ → List Fbstring → ℕ
  | _, [] => 0
  | len, chunk :: chunks =>
    if len ≤ chunk.length then chunks.length + 1 else recvsFrom (len - chunk.length) chunks

/-- Nothing is sent, or one GET as often as chunks come from the end of its first head on. -/
def OneGetRepeated : List (Message p) → List Fbstring → Prop
  | [], _ => True
  | m :: messages, chunks =>
    m.request.func.hasBody = false ∧ (∀ m' ∈ messages, m'.request = m.request) ∧
      recvsFrom m.head.length chunks = messages.length + 1

theorem handleBody_eq (p : Parsers) (s : Server) (conn : Connection) :
    ∃ conn', handleBody p s conn = .ok { s with conn := some conn' } := by
  unfold handleBody
  split
  · exact ⟨_, rfl⟩
  · exact ⟨_, rfl⟩

private theorem handleBody_unknown (p : Parsers) (s : Server) {conn : Connection}
    (h : conn.func = .unknown) :
    handleBody p s conn = .ok { s with conn := some conn } := by
  have hbody : ¬ (conn.func.hasBody = true ∧ conn.bodyLen ≤ conn.recvBuf.length) := by
    simp [h, CacheMethod.hasBody]
  rw [handleBody, if_neg hbody]

private theorem dispatchGet_cases {path : Fbstring} {s s' : Server}
    (h : dispatchGet path s = .ok s') :
    ∃ func response, func.hasBody = false ∧ s'.sent = s.sent ++ [(func, response)] := by
  unfold dispatchGet at h
  split at h
  · obtain ⟨key, -, hsent⟩ := bind_eq_ok.mp h
    simp only [Server.perform] at hsent
    split at hsent
    · obtain rfl := Except.ok.inj hsent
      exact ⟨.query, _, rfl, rfl⟩
    · obtain rfl := Except.ok.inj hsent
      exact ⟨.query, _, rfl, rfl⟩
  · obtain ⟨key, -, hsent⟩ := bind_eq_ok.mp h
    obtain rfl := Except.ok.inj hsent
    exact ⟨.del, _, rfl, rfl⟩
  · obtain ⟨value, -, hsent⟩ := bind_eq_ok.mp h
    obtain rfl := Except.ok.inj hsent
    exact ⟨.zrmv, _, rfl, rfl⟩
  · obtain rfl := Except.ok.inj h
    exact ⟨.init, _, rfl, rfl⟩

private theorem suffixFrom_append (pre rest : Fbstring) :
    suffixFrom (pre ++ rest) pre.length = .ok rest := by
  simp [suffixFrom]

private theorem slashIdx_zrmv {key : Fbstring} (value : Fbstring) (h : '/'.toUInt8 ∉ key) :
    slashIdx (ascii "/zrmv/" ++ key ++ ascii "/" ++ value) = 6 + key.length := by
  have hdrop : (ascii "/zrmv/" ++ key ++ ascii "/" ++ value).drop 6 =
      key ++ ('/'.toUInt8 :: value) := by
    simp only [List.append_assoc]
    rfl
  have hkey : ∀ b ∈ key, decide (b ≠ '/'.toUInt8) = true := by
    intro b hb
    exact decide_eq_true (fun he => h (he ▸ hb))
  rw [slashIdx, hdrop, List.takeWhile_append_of_pos hkey, List.takeWhile_cons_of_neg (by simp),
    List.append_nil]

def Server.serve (s : Server) (request : Request) : Server :=
  { s with
    hcache := final CppStorage.Storage.exec s.hcache request.operations
    operations := s.operations ++ request.operations
    sent := s.sent ++ [(request.func, request.answer s.hcache)] }

/-- A GET request is dispatched with the key and the value that it carries. -/
theorem dispatchGet_request {request : Request} (hvalid : request.Valid)
    (hget : request.func.hasBody = false) (s : Server) :
    dispatchGet request.path s = .ok (Server.serve s request) := by
  cases request with
  | query key =>
    have hchar : charAt (ascii "/query/" ++ key) 1 = some 'q' := rfl
    have hkey : suffixFrom (ascii "/query/" ++ key) 7 = .ok key :=
      suffixFrom_append (ascii "/query/") key
    simp only [dispatchGet, Request.path, hchar, hkey, bind, Except.bind, Server.perform,
      CppStorage.Storage.exec, CppStorage.Storage.execOn, Server.serve, Request.operations,
      Request.answer]
    cases s.hcache.getValueByKey key <;> rfl
  | del key =>
    have hchar : charAt (ascii "/del/" ++ key) 1 = some 'd' := rfl
    have hkey : suffixFrom (ascii "/del/" ++ key) 5 = .ok key :=
      suffixFrom_append (ascii "/del/") key
    simp only [dispatchGet, Request.path, hchar, hkey, bind, Except.bind]
    rfl
  | zrmv key value =>
    have hchar : charAt (ascii "/zrmv/" ++ key ++ ascii "/" ++ value) 1 = some 'z' := rfl
    have hvalue : suffixFrom (ascii "/zrmv/" ++ key ++ ascii "/" ++ value) (6 + key.length + 1) =
        .ok value := by
      have hlength : (ascii "/zrmv/" ++ key ++ ascii "/").length = 6 + key.length + 1 := by
        simp only [List.length_append]
        rfl
      rw [← hlength]
      exact suffixFrom_append _ value
    have hkey : ((ascii "/zrmv/" ++ key ++ ascii "/" ++ value).drop 6).take key.length = key := by
      simp only [List.append_assoc]
      exact List.take_left
    simp only [dispatchGet, Request.path, hchar, slashIdx_zrmv value hvalid, hvalue, bind,
      Except.bind, Nat.add_sub_cancel_left, hkey]
    rfl
  | init =>
    have hinit : dispatchGet (ascii "/init") s = .ok (s.send .init .initResponse) := rfl
    simp [Request.path, hinit, Server.serve, Server.send, Request.operations, Request.func,
      Request.answer]
  | _ => simp [Request.func, CacheMethod.hasBody] at hget

def OnlyGets (s : Server) : Prop := ∀ t ∈ s.sent, t.1.hasBody = false

theorem onlyGets_handleBody {s s' : Server} {conn : Connection} (h : OnlyGets s)
    (hs : handleBody p s conn = .ok s') : OnlyGets s' := by
  obtain ⟨conn', hbody⟩ := handleBody_eq p s conn
  obtain rfl := Except.ok.inj (hbody.symm.trans hs)
  exact h

private theorem onlyGets_handleHead {s s' : Server} {conn : Connection} {len : ℕ} {head : Head}
    (h : OnlyGets s) (hs : handleHead p s conn len head = .ok s') : OnlyGets s' := by
  unfold handleHead at hs
  split at hs
  · obtain ⟨t, hget, hbody⟩ := bind_eq_ok.mp hs
    obtain ⟨func, response, hfunc, hsent⟩ := dispatchGet_cases hget
    refine onlyGets_handleBody ?_ hbody
    intro r hr
    rw [hsent] at hr
    rcases List.mem_append.mp hr with hr | hr
    · exact h r hr
    · rw [List.mem_singleton.mp hr]
      exact hfunc
  · obtain ⟨bodyLen, -, hrest⟩ := bind_eq_ok.mp hs
    obtain ⟨conn', -, hbody⟩ := bind_eq_ok.mp hrest
    exact onlyGets_handleBody h hbody

private theorem onlyGets_onRecv {s s' : Server} {chunk : Fbstring} (h : OnlyGets s)
    (hs : onRecv p s chunk = .ok s') :
    OnlyGets s' := by
  unfold onRecv handleBuffer at hs
  split at hs
  · obtain rfl := Except.ok.inj hs
    exact h
  · split at hs
    · obtain rfl := Except.ok.inj hs
      exact h
    · split at hs
      · split at hs
        · obtain rfl := Except.ok.inj hs
          exact h
        · obtain rfl := Except.ok.inj hs
          exact h
        · exact onlyGets_handleHead h hs
      · exact onlyGets_handleBody h hs

variable {m : Message p} {s : Server} {conn : Connection} {chunk : Fbstring}

/-- A chunk that leaves the first head incomplete is kept. -/
theorem onRecv_part (hconn : s.conn = some conn) (hfunc : conn.func = .unknown)
    (hchunk : chunk ≠ []) (hpart : conn.recvBuf ++ chunk <+: m.head)
    (hne : conn.recvBuf ++ chunk ≠ m.head) :
    onRecv p s chunk =
      .ok { s with conn := some { conn with recvBuf := conn.recvBuf ++ chunk } } := by
  simp only [onRecv, hconn, if_neg hchunk, handleBuffer, hfunc, if_true, m.incomplete _ hpart hne]

/-- With the head of a GET at the front of the buffer every chunk serves it, and leaves it there. -/
theorem onRecv_get (hget : m.request.func.hasBody = false) (hconn : s.conn = some conn)
    (hfunc : conn.func = .unknown) (hchunk : chunk ≠ [])
    (hhead : m.head <+: conn.recvBuf ++ chunk) :
    onRecv p s chunk = .ok { Server.serve s m.request with
      conn := some { conn with recvBuf := conn.recvBuf ++ chunk } } := by
  obtain ⟨rest, hrest⟩ := hhead
  have hmethod : charAt m.request.method 0 = some 'G' := by
    rw [Request.method, hget]
    rfl
  have hparsed : p.phrParseRequest (conn.recvBuf ++ chunk) =
      .head m.head.length ⟨m.request.method, m.request.path, m.headers⟩ := by
    rw [← hrest]
    exact m.complete rest
  simp only [onRecv, hconn, if_neg hchunk, handleBuffer, hfunc, if_true, hparsed, handleHead,
    if_pos hmethod, dispatchGet_request m.valid hget s, bind, Except.bind]
  exact handleBody_unknown p _ rfl

theorem onlyGets_run {hcache : CppStorage.Storage} {chunks : List Fbstring} {s : Server}
    (hs : chunks.foldlM (onRecv p) (Server.start hcache) = .ok s) : OnlyGets s :=
  foldlM_invariant OnlyGets (fun _ _ _ h hs => onlyGets_onRecv h hs)
    (by simp [OnlyGets, Server.start]) hs

theorem recvsFrom_zero (chunks : List Fbstring) : recvsFrom 0 chunks = chunks.length := by
  cases chunks with
  | nil => rfl
  | cons chunk chunks => simp [recvsFrom]

/-- A head of `len` bytes is there with the next chunk. -/
theorem recvsFrom_of_le {len : ℕ} {buf chunk : Fbstring} (h : len ≤ (buf ++ chunk).length)
    (chunks : List Fbstring) :
    recvsFrom (len - buf.length) (chunk :: chunks) = chunks.length + 1 := by
  rw [List.length_append] at h
  rw [recvsFrom, if_pos (by omega)]

theorem recvsFrom_of_lt {len : ℕ} {buf chunk : Fbstring} (h : (buf ++ chunk).length < len)
    (chunks : List Fbstring) : recvsFrom (len - buf.length) (chunk :: chunks) =
      recvsFrom (len - (buf ++ chunk).length) chunks := by
  rw [List.length_append] at h ⊢
  rw [recvsFrom, if_neg (by omega), Nat.sub_add_eq]

/-- The first GET is served once for every chunk from the end of its head on. -/
theorem run_get {m : Message p} (hget : m.request.func.hasBody = false) {chunks : List Fbstring}
    (hchunks : ∀ chunk ∈ chunks, chunk ≠ []) {s : Server} {conn : Connection}
    (hconn : s.conn = some conn) (hfunc : conn.func = .unknown)
    (hstream : m.head <+: conn.recvBuf ++ chunks.flatten) :
    ∃ s', chunks.foldlM (onRecv p) s = .ok s' ∧
      s'.operations = s.operations ++ (List.replicate
        (recvsFrom (m.head.length - conn.recvBuf.length) chunks) m.request.operations).flatten ∧
      s'.sent.map Prod.fst = s.sent.map Prod.fst ++ List.replicate
        (recvsFrom (m.head.length - conn.recvBuf.length) chunks) m.request.func := by
  induction chunks generalizing s conn with
  | nil => exact ⟨s, rfl, by simp [recvsFrom], by simp [recvsFrom]⟩
  | cons chunk chunks ih =>
    have hchunk : chunk ≠ [] := hchunks chunk (by simp)
    have hrest : ∀ chunk ∈ chunks, chunk ≠ [] := fun c hc => hchunks c (by simp [hc])
    have hstream' : m.head <+: (conn.recvBuf ++ chunk) ++ chunks.flatten := by
      rwa [List.append_assoc, ← List.flatten_cons]
    rw [List.foldlM_cons]
    rcases Nat.lt_or_ge (conn.recvBuf ++ chunk).length m.head.length with hlen | hlen
    · have hpart : conn.recvBuf ++ chunk <+: m.head :=
        List.prefix_of_prefix_length_le (List.prefix_append _ _) hstream' hlen.le
      have hne : conn.recvBuf ++ chunk ≠ m.head := fun he => absurd (he ▸ hlen) (Nat.lt_irrefl _)
      obtain ⟨s', hs', hoperations, hsent⟩ := ih hrest (s := { s with
        conn := some { conn with recvBuf := conn.recvBuf ++ chunk } }) rfl hfunc hstream'
      rw [onRecv_part hconn hfunc hchunk hpart hne, recvsFrom_of_lt hlen]
      exact ⟨s', hs', hoperations, hsent⟩
    · have hhead : m.head <+: conn.recvBuf ++ chunk :=
        List.prefix_of_prefix_length_le hstream' (List.prefix_append _ _) hlen
      obtain ⟨s', hs', hoperations, hsent⟩ := ih hrest (s := { Server.serve s m.request with
        conn := some { conn with recvBuf := conn.recvBuf ++ chunk } }) rfl hfunc hstream'
      simp only [Nat.sub_eq_zero_of_le hlen, recvsFrom_zero] at hoperations hsent
      rw [onRecv_get hget hconn hfunc hchunk hhead, recvsFrom_of_le hlen]
      refine ⟨s', hs', ?_, ?_⟩
      · rw [hoperations, List.replicate_succ, List.flatten_cons, ← List.append_assoc]
        rfl
      · rw [hsent, List.replicate_succ, Server.serve, List.map_append, List.append_assoc]
        rfl

private theorem request_eq {a b : Request} (ha : a.func.hasBody = false) (hfunc : b.func = a.func)
    (hoperations : b.operations = a.operations) : b = a := by
  cases a <;> cases b <;> simp_all [Request.func, Request.operations, CacheMethod.hasBody]

private theorem length_operations {a b : Request} (ha : a.func.hasBody = false)
    (hfunc : b.func = a.func) :
    b.operations.length = a.operations.length := by
  cases a <;> cases b <;> simp_all [Request.func, Request.operations, CacheMethod.hasBody]

/-- Lists of one length whose concatenation repeats one list are that list. -/
theorem forall_eq_of_flatMap {α β : Type} (f : α → List β) (l : List β) {as : List α}
    (hlength : ∀ a ∈ as, (f a).length = l.length)
    (h : as.flatMap f = (List.replicate as.length l).flatten) :
    ∀ a ∈ as, f a = l := by
  induction as with
  | nil => simp
  | cons a as ih =>
    rw [List.flatMap_cons, List.length_cons, List.replicate_succ, List.flatten_cons] at h
    obtain ⟨hhead, htail⟩ := List.append_inj h (hlength a (by simp))
    intro b hb
    rcases List.mem_cons.mp hb with rfl | hb
    · exact hhead
    · exact ih (fun c hc => hlength c (by simp [hc])) htail b hb

/-- Requests that all have the function of the first are served by repeating it only if they
are the first. -/
theorem all_eq_of_repeated {m : Message p} {messages : List (Message p)}
    (hget : m.request.func.hasBody = false) {n : ℕ}
    (hfuncs : (m :: messages).map (fun m => m.request.func) = List.replicate n m.request.func)
    (hoperations : (m :: messages).flatMap (fun m => m.request.operations) =
    (List.replicate n m.request.operations).flatten) :
    n = messages.length + 1 ∧ ∀ m' ∈ messages, m'.request = m.request := by
  have hn : n = messages.length + 1 := by simpa using (congrArg List.length hfuncs).symm
  have hfunc : ∀ m' ∈ m :: messages, m'.request.func = m.request.func := by
    intro m' hm'
    have hin : m'.request.func ∈ List.replicate n m.request.func := hfuncs ▸ List.mem_map_of_mem hm'
    exact (List.mem_replicate.mp hin).2
  refine ⟨hn, ?_⟩
  have hall := forall_eq_of_flatMap (fun m : Message p => m.request.operations) m.request.operations
    (fun m' hm' => length_operations hget (hfunc m' hm')) (by rw [hoperations, hn]; rfl)
  intro m' hm'
  exact request_eq hget (hfunc m' (by simp [hm'])) (hall m' (by simp [hm']))

private theorem flatMap_replicated {m : Message p} {messages : List (Message p)}
    (hall : ∀ m' ∈ messages, m'.request = m.request) :
    (m :: messages).flatMap (fun m => m.request.operations) =
        (List.replicate (messages.length + 1) m.request.operations).flatten ∧
      (m :: messages).map (fun m => m.request.func) =
        List.replicate (messages.length + 1) m.request.func := by
  have hrequests : (m :: messages).map Message.request =
      List.replicate (messages.length + 1) m.request := by
    rw [List.map_cons, List.replicate_succ, List.map_eq_replicate_iff.mpr hall]
  constructor
  · rw [List.flatMap_def, ← Function.comp_def Request.operations Message.request, ← List.map_map,
      hrequests, List.map_replicate]
  · rw [← Function.comp_def Request.func Message.request, ← List.map_map, hrequests,
      List.map_replicate]

/-- The handler serves each request once exactly when nothing is sent, or one and the same GET
as often as chunks come from the end of its first head on. -/
theorem servedOnce_iff (p : Parsers) (hcache : CppStorage.Storage) (messages : List (Message p))
    (chunks : List Fbstring) (h : Division messages chunks) :
    ServedOnce hcache messages chunks ↔ OneGetRepeated messages chunks := by
  have hchunks : ∀ chunk ∈ chunks, chunk ≠ [] := by
    rintro chunk hchunk rfl
    have hsize := (h.sizes [] hchunk).1
    simp at hsize
  cases messages with
  | nil =>
    have hnil : chunks = [] := by
      rw [List.eq_nil_iff_forall_not_mem]
      intro chunk hchunk
      exact hchunks chunk hchunk (List.flatten_eq_nil_iff.mp h.bytes chunk hchunk)
    subst hnil
    exact iff_of_true ⟨_, rfl, rfl, rfl⟩ trivial
  | cons m messages =>
    have hstream : m.head <+: Connection.new.recvBuf ++ chunks.flatten := by
      rw [h.bytes, List.flatMap_cons, Message.bytes, List.append_assoc]
      exact List.prefix_append _ _
    have hconn : (Server.start hcache).conn = some Connection.new := rfl
    have hrun := fun hget : m.request.func.hasBody = false => run_get hget hchunks hconn rfl hstream
    constructor
    · rintro ⟨s, hs, hoperations, hsent⟩
      have hget : m.request.func.hasBody = false := by
        have hin : m.request.func ∈ s.sent.map Prod.fst := by
          rw [hsent]
          simp
        obtain ⟨t, ht, hfunc⟩ := List.mem_map.mp hin
        rw [← hfunc]
        exact onlyGets_run hs t ht
      obtain ⟨s', hs', hoperations', hsent'⟩ := hrun hget
      obtain rfl := Except.ok.inj (hs.symm.trans hs')
      obtain ⟨hn, hall⟩ :=
        all_eq_of_repeated hget (hsent.symm.trans hsent') (hoperations.symm.trans hoperations')
      exact ⟨hget, hall, hn⟩
    · rintro ⟨hget, hall, hn⟩
      obtain ⟨s', hs', hoperations', hsent'⟩ := hrun hget
      obtain ⟨hoperations, hfuncs⟩ := flatMap_replicated hall
      refine ⟨s', hs', ?_, ?_⟩
      · rw [hoperations, ← hn]
        exact hoperations'
      · rw [hfuncs, ← hn]
        exact hsent'

def initHead : Fbstring := ascii "GET /init HTTP/1.1\r\n\r\n"

private theorem initHead_done : parseRequest .portable 16 initHead =
    .done ⟨ascii "GET", ascii "/init", 1, []⟩ [] := by decide

noncomputable def initParsers : Parsers := parsers .portable 16 (fun _ => none) (.choice Fbstring)

noncomputable def initMessage : Message initParsers where
  request := .init
  head := initHead
  headers := []
  body := []
  valid := trivial
  complete rest := by
    obtain ⟨htext, hroom⟩ := requestText_of_done initHead_done
    have hread : readHead .portable 16 (initHead ++ rest) = _ := readHead_append htext hroom rest
    exact hread
  incomplete _ hpart hne := by
    obtain ⟨htext, hroom⟩ := requestText_of_done initHead_done
    exact readHead_part htext hroom hpart hne
  noBody _ := rfl
  contentLength h := absurd h (by decide)
  document h := absurd h (by decide)

theorem servedOnce_init :
    ServedOnce CppStorage.Storage.new [initMessage, initMessage] [initHead, initHead] :=
  (servedOnce_iff initParsers _ [initMessage, initMessage] [initHead, initHead]
    ⟨by simp only [List.mem_cons, List.not_mem_nil, or_false, or_self, forall_eq]; decide, rfl⟩).2
    ⟨rfl, by simp, by decide⟩

def addHead : Fbstring := ascii "POST /add HTTP/1.1\r\nContent-Length: 23\r\n\r\n"

private theorem addHead_done : parseRequest .portable 16 addHead =
    .done ⟨ascii "POST", ascii "/add", 1, [⟨some (ascii "Content-Length"), ascii "23"⟩]⟩ [] := by
  decide

def addBody : Fbstring := ascii "\x7b\"key\":\"a\",\"value\":\"b\"\x7d"

def addDocument : Json :=
  .object [(ascii "key", .string (ascii "a")), (ascii "value", .string (ascii "b"))]

noncomputable def addParsers : Parsers :=
  parsers .portable 16 (fun body => if body = addBody then some addDocument else none)
    (.choice Fbstring)

noncomputable def addMessage : Message addParsers where
  request := .add ⟨ascii "a", ascii "b"⟩
  head := addHead
  headers := [⟨ascii "Content-Length", ascii "23"⟩]
  body := addBody
  valid := trivial
  complete rest := by
    obtain ⟨htext, hroom⟩ := requestText_of_done addHead_done
    exact readHead_append htext hroom rest
  incomplete _ hpart hne := by
    obtain ⟨htext, hroom⟩ := requestText_of_done addHead_done
    exact readHead_part htext hroom hpart hne
  noBody h := absurd h (by decide)
  contentLength _ := ⟨_, List.mem_singleton_self _, rfl, rfl⟩
  document _ := ⟨addDocument, by simp [addParsers, parsers], rfl, rfl⟩

/-- A POST whose bytes come in one chunk has no effect and no answer. -/
theorem not_servedOnce_add : ¬ ∀ (p : Parsers) (hcache : CppStorage.Storage)
    (messages : List (Message p)) (chunks : List Fbstring),
    Division messages chunks → ServedOnce hcache messages chunks := by
  intro h
  obtain ⟨s, hs, -, hsent⟩ := h addParsers CppStorage.Storage.new [addMessage] [addMessage.bytes]
    ⟨by simp only [List.mem_singleton, forall_eq]; decide, by simp⟩
  have hin : CacheMethod.add ∈ s.sent.map Prod.fst := by
    rw [hsent]
    exact List.mem_singleton_self _
  obtain ⟨t, ht, hfunc⟩ := List.mem_map.mp hin
  have hget : t.1.hasBody = false := onlyGets_run hs t ht
  rw [hfunc] at hget
  exact absurd hget (by decide)

end HCache.CppFstackRequests
