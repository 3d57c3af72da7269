import HCache.CppShardedStorage
import HCache.CppStorage
import Mathlib.Algebra.Group.Int.Defs

/-!
# The F-Stack connection handler

What `loop` of `fstack.cc` does with the bytes of one connection: each `ff_recv` appends a
chunk to the receive buffer, parses a head when no method is pending and then a body when
enough of it is there. The parsers of heads and of JSON documents are parameters, and
`num_headers` leaves room for the headers. The handler keeps a record of the storage
operations that it has performed and of the responses that it has sent.
-/
namespace HCache.CppFstackLoop
open Std OrderedMaps CppSingleThreadStorage CppStorage

def ascii (s : String) : Fbstring := s.toUTF8.data.toList

/-- Exceptions that nothing catches, and a read past the end of a buffer. -/
inductive Abort where
  | lengthError
  | invalidArgument
  | outOfRange
  | simdjsonError
  | readPastEnd
  deriving DecidableEq, Repr

inductive CacheMethod where
  | unknown
  | init
  | query
  | del
  | zrmv
  | add
  | batch
  | list
  | zadd
  | zrange
  deriving DecidableEq, Repr

/-- `func > CacheMethod::Zrmv` -/
def CacheMethod.hasBody : CacheMethod → Bool
  | .add | .batch | .list | .zadd | .zrange => true
  | _ => false

structure Connection where
  recvBuf : Fbstring
  func : CacheMethod
  bodyLen : ℕ
  zkey : Fbstring
  deriving DecidableEq, Repr

/-- The constructor leaves `func` and `body_len` uninitialised; `func` is taken to be `Unknown`. -/
def Connection.new : Connection := ⟨[], .unknown, 0, []⟩

structure Header where
  name : Fbstring
  value : Fbstring
  deriving DecidableEq, Repr

structure Head where
  method : Fbstring
  path : Fbstring
  headers : List Header
  deriving DecidableEq, Repr

/-- The results -1 and -2 of `phr_parse_request`, and a length with what it has found. -/
inductive Parsed where
  | malformed
  | incomplete
  | head (len : ℕ) (head : Head)
  deriving DecidableEq, Repr

inductive Json where
  | string (s : Fbstring)
  | uint64 (n : UInt64)
  | array (items : List Json)
  | object (members : List (Fbstring × Json))
  | other

/-- The parsers, and the order in which hash sets are iterated. -/
structure Parsers where
  phrParseRequest : Fbstring → Parsed
  parse : Fbstring → Option Json
  order : IterationOrder Fbstring

inductive Response where
  | initResponse
  | found (value : Fbstring)
  | notFound
  | empty
  | keyValues (kvs : List KeyValue)
  | scoreValues (svs : List (UInt32 × Fbstring))
  deriving DecidableEq, Repr

/-- The storage and one connection, unless that is closed. A response is recorded with the
method whose branch has sent it. -/
structure Server where
  conn : Option Connection
  hcache : Storage
  operations : List StorageOp
  sent : List (CacheMethod × Response)

def Server.start (hcache : Storage) : Server := ⟨some Connection.new, hcache, [], []⟩

def Server.perform (s : Server) (op : StorageOp) : Reply × Server :=
  ((s.hcache.exec op).2,
    { s with hcache := (s.hcache.exec op).1, operations := s.operations ++ [op] })

def Server.send (s : Server) (func : CacheMethod) (response : Response) : Server :=
  { s with sent := s.sent ++ [(func, response)] }

def charAt (path : Fbstring) (i : ℕ) : Option Char := path[i]?.map (fun b => Char.ofNat b.toNat)

/-- `folly::fbstring(path + start, path_len - start)` -/
def suffixFrom (path : Fbstring) (start : ℕ) : Except Abort Fbstring :=
  if path.length < start then .error .lengthError else .ok (path.drop start)

/-- `slash_idx` after its loop. -/
def slashIdx (path : Fbstring) : ℕ :=
  6 + ((path.drop 6).takeWhile (fun b => b ≠ '/'.toUInt8)).length

def dispatchGet (path : Fbstring) (s : Server) : Except Abort Server :=
  match charAt path 1 with
  | some 'q' => do
    let key ← suffixFrom path 7
    let (value, s) := s.perform (.on key .getValueByKey)
    match value with
    | .value (some value) => return s.send .query (.found value)
    | _ => return s.send .query .notFound
  | some 'd' => do
    let key ← suffixFrom path 5
    return (s.perform (.on key .delKey)).2.send .del .empty
  | some 'z' => do
    let value ← suffixFrom path (slashIdx path + 1)
    return (s.perform (.on ((path.drop 6).take (slashIdx path - 6)) (.zsetRmv value))).2.send
      .zrmv .empty
  | _ => return s.send .init .initResponse

def toLower (b : UInt8) : UInt8 := if 65 ≤ b ∧ b ≤ 90 then b + 32 else b

/-- `strncasecmp(name, "Content-Length", name_len) == 0` -/
def isContentLength (name : Fbstring) : Bool :=
  (name.map toLower).isPrefixOf (ascii "content-length")

def isSpace (b : UInt8) : Bool := b = 32 ∨ (9 ≤ b ∧ b ≤ 13)

def isDigit (b : UInt8) : Bool := 48 ≤ b ∧ b ≤ 57

def stoi (value : Fbstring) : Except Abort ℤ :=
  let value := value.dropWhile isSpace
  let (negative, digits) : Bool × Fbstring :=
    match value with
    | 45 :: digits => (true, digits)
    | 43 :: digits => (false, digits)
    | digits => (false, digits)
  let digits := digits.takeWhile isDigit
  let n : ℤ := digits.foldl (fun n d => 10 * n + (d.toNat - 48)) 0
  let n := if negative then -n else n
  if digits = [] then .error .invalidArgument
  else if n < -2^31 ∨ 2^31 ≤ n then .error .outOfRange
  else .ok n

/-- The first matching header, as a `size_t`. -/
def bodyLen (headers : List Header) : Except Abort ℕ :=
  match headers.find? (fun header => isContentLength header.name) with
  | some header => do
    let n ← stoi header.value
    return (n % 2^64).toNat
  | none => return 0

/-- The method that waits for its body, and the key of a sorted set. -/
def startBody (path : Fbstring) (conn : Connection) : Except Abort Connection :=
  match charAt path 1 with
  | some 'a' => return { conn with func := .add }
  | some 'b' => return { conn with func := .batch }
  | some 'l' => return { conn with func := .list }
  | some 'z' => do
    let zkey ← suffixFrom path 6
    match charAt path 2 with
    | some 'a' => return { conn with zkey := zkey, func := .zadd }
    | some 'r' => return { conn with zkey := zkey, func := .zrange }
    | _ => return { conn with zkey := zkey }
  | _ => return conn

namespace Json

def field (name : String) : Option Json → Except Abort Json
  | some (.object members) =>
    match members.find? (fun m => m.1 = ascii name) with
    | some m => .ok m.2
    | none => .error .simdjsonError
  | _ => .error .simdjsonError

def getString : Json → Except Abort Fbstring
  | .string s => .ok s
  | _ => .error .simdjsonError

def getUint64 : Json → Except Abort UInt64
  | .uint64 n => .ok n
  | _ => .error .simdjsonError

def items : Option Json → Except Abort (List Json)
  | some (.array items) => .ok items
  | _ => .error .simdjsonError

end Json

/-- `folly::fbstring(s.data(), size)` -/
def readBytes (s : Fbstring) (size : ℕ) : Except Abort Fbstring :=
  if s.length < size then .error .readPastEnd else .ok (s.take size)

def addPair (s : Server) (doc : Option Json) : Except Abort Server := do
  let key ← (← Json.field "key" doc).getString
  let value ← (← Json.field "value" doc).getString
  return (s.perform (.on key (.addKeyValue (← readBytes value key.length)))).2

/-- `switch (conn.func)` over the bodies. -/
def dispatchBody (p : Parsers) (doc : Option Json) (s : Server) (conn : Connection) :
    Except Abort Server :=
  match conn.func with
  | .add => addPair { s with conn := some conn } doc
  | .zadd => do
    let score ← (← Json.field "score" doc).getUint64
    let value ← (← Json.field "value" doc).getString
    return ({ s with conn := some { conn with zkey := [] } }.perform
      (.on conn.zkey (.zsetAdd value score.toUInt32))).2
  | .batch => do
    let items ← Json.items doc
    items.foldlM (fun s item => addPair s (some item)) { s with conn := some conn }
  | .list => do
    let items ← Json.items doc
    let keys ← items.mapM (fun item => do (← Json.field "key" (some item)).getString)
    let (result, s) := { s with conn := some conn }.perform (.listKeys (p.order.list keys.toFinset))
    match result with
    | .keyValues (kv :: kvs) => return s.send .list (.keyValues (kv :: kvs))
    | _ => return s.send .list .notFound
  | .zrange => do
    let minScore ← (← Json.field "min_score" doc).getUint64
    let maxScore ← (← Json.field "max_score" doc).getUint64
    let (result, s) := { s with conn := some { conn with zkey := [] } }.perform
      (.on conn.zkey (.zsetZrange minScore.toUInt32 maxScore.toUInt32))
    match result with
    | .groups (some groups) =>
      return s.send .zrange (.scoreValues (groups.flatMap (fun svs =>
        (p.order.list svs.values).map (fun v => (svs.score, v)))))
    | _ => return s.send .zrange .notFound
  | _ => return { s with conn := some conn }

/-- A pending body: the buffer is trimmed and the method reset, then what the buffer still
holds is parsed and dispatched on. -/
def handleBody (p : Parsers) (s : Server) (conn : Connection) : Except Abort Server :=
  if conn.func.hasBody ∧ conn.bodyLen ≤ conn.recvBuf.length then
    let conn := { conn with recvBuf := conn.recvBuf.drop conn.bodyLen }
    let conn := { conn with bodyLen := 0, func := .unknown }
    dispatchBody p (p.parse conn.recvBuf) s conn
  else .ok { s with conn := some conn }

/-- A head of `len` bytes. A GET stays in the buffer; any other head is trimmed. -/
def handleHead (p : Parsers) (s : Server) (conn : Connection) (len : ℕ) (head : Head) :
    Except Abort Server :=
  if charAt head.method 0 = some 'G' then do
    let s ← dispatchGet head.path s
    handleBody p s conn
  else do
    let bodyLen ← bodyLen head.headers
    let conn ← startBody head.path
      { conn with bodyLen := bodyLen, recvBuf := conn.recvBuf.drop len }
    handleBody p s conn

def handleBuffer (p : Parsers) (s : Server) (conn : Connection) : Except Abort Server :=
  if conn.func = .unknown then
    match p.phrParseRequest conn.recvBuf with
    | .malformed => .ok { s with conn := none }
    | .incomplete => .ok { s with conn := some conn }
    | .head len head => handleHead p s conn len head
  else handleBody p s conn

/-- One read event; an empty chunk is the end of the stream. -/
def onRecv (p : Parsers) (s : Server) (chunk : Fbstring) : Except Abort Server :=
  match s.conn with
  | none => .ok s
  | some conn =>
    if chunk = [] then .ok { s with conn := none }
    else handleBuffer p s { conn with recvBuf := conn.recvBuf ++ chunk }

end HCache.CppFstackLoop
