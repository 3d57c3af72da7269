import HCache.CppPicoTokens
import Mathlib.Data.List.DropRight

/-!
# Request heads in picohttpparser

`phr_parse_request` of `picohttpparser.c` with the functions that it calls. The two builds
compute the same function, and every function on the way is a stable parser. The length of a
head fits an `int`.
-/
namespace HCache.CppPicoRequests
open IncrementalParsers IncrementalParsers.Reader CppSingleThreadStorage CppPicoTokens

/-- `phr_header`; the name of a continuing line is `NULL`. -/
structure PhrHeader where
  name : Option Fbstring
  value : Fbstring
  deriving DecidableEq, Repr

/-- What the out-parameters of `phr_parse_request` hold on success. -/
structure PhrRequest where
  method : Fbstring
  path : Fbstring
  minorVersion : ℕ
  headers : List PhrHeader
  deriving DecidableEq, Repr

/-- An empty line that some clients add after the content of a POST. -/
def skipEmptyLine : Reader UInt8 Unit := do
  checkEof
  let c ← current
  if c = cr then
    advance
    expectChar lf
  else if c = lf then
    advance
  else pure ()

/-- `do { ++buf; CHECK_EOF(); } while (*buf == ' ')` -/
def skipSpaces : Reader UInt8 Unit := do
  advance
  let _ ← scan (fun c => if c = sp then .go else .stop)
  pure ()

def isDigit (c : UInt8) : Bool := 0x30 ≤ c ∧ c ≤ 0x39

/-- `PARSE_INT(valp_, 1)` -/
def parseInt : Reader UInt8 ℕ := do
  let c ← current
  advance
  if isDigit c then pure (c.toNat - 0x30) else fail

def parseHttpVersion : Reader UInt8 ℕ := needs 9 (do
  expectCharNoCheck 0x48
  expectCharNoCheck 0x54
  expectCharNoCheck 0x54
  expectCharNoCheck 0x50
  expectCharNoCheck 0x2f
  expectCharNoCheck 0x31
  expectCharNoCheck 0x2e
  parseInt)

def isBlank (c : UInt8) : Bool := c = sp ∨ c = ht

/-- The name of a header, its colon and the blanks behind that. -/
def parseHeaderName (build : Build) : Reader UInt8 (Option Fbstring) := do
  let name ← parseToken build colon
  if name = [] then fail
  else
    advance
    let _ ← scan (fun c => if isBlank c then .go else .stop)
    pure (some name)

/-- A line that starts with a blank continues the line before it. -/
def parseNameUnlessBlank (build : Build) (first : Bool) : Reader UInt8 (Option Fbstring) := do
  let c ← current
  if first ∨ ¬isBlank c then parseHeaderName build else pure none

def parseHeader (build : Build) (first : Bool) : Reader UInt8 PhrHeader := do
  let name ← parseNameUnlessBlank build first
  let value ← getTokenToEol build
  pure ⟨name, value.rdropWhile isBlank⟩

/-- The top of the loop over the headers: the empty line behind them, or another round. -/
def emptyLineOr (headers : List PhrHeader) (round : Reader UInt8 (List PhrHeader)) :
    Reader UInt8 (List PhrHeader) :=
  do
  checkEof
  let c ← current
  if c = cr then
    advance
    expectChar lf
    pure headers
  else if c = lf then
    advance
    pure headers
  else round

/-- `room` is `max_headers - *num_headers`. -/
def parseHeaders (build : Build) : ℕ → List PhrHeader → Reader UInt8 (List PhrHeader)
  | 0, headers => emptyLineOr headers fail
  | room + 1, headers => emptyLineOr headers (do
    let header ← parseHeader build headers.isEmpty
    parseHeaders build room (headers ++ [header]))

def parseRequest (build : Build) (maxHeaders : ℕ) : Reader UInt8 PhrRequest := do
  skipEmptyLine
  let method ← parseToken build sp
  skipSpaces
  let path ← advanceToken build
  skipSpaces
  if method = [] ∨ path = [] then fail
  else
    let minorVersion ← parseHttpVersion
    expectEol
    let headers ← parseHeaders build maxHeaders []
    pure ⟨method, path, minorVersion, headers⟩

/-- The loop of `is_complete`. -/
def isCompleteLoop : ℕ → Reader UInt8 Unit
  | _, [] => .incomplete
  | retCnt, c :: rest =>
    if c = cr then
      match rest with
      | [] => .incomplete
      | d :: rest =>
        if d ≠ lf then .failed
        else if retCnt + 1 = 2 then .done () rest
        else isCompleteLoop (retCnt + 1) rest
    else if c = lf then
      if retCnt + 1 = 2 then .done () rest else isCompleteLoop (retCnt + 1) rest
    else isCompleteLoop 0 rest

/-- From `buf + last_len - 3` behind `buf_end` no comparison with `buf_end` stops the loop. -/
def isComplete (lastLen : ℕ) : Reader UInt8 Unit := fun buf =>
  if buf.length + 3 < lastLen then .overread
  else isCompleteLoop 0 (if lastLen < 3 then buf else buf.drop (lastLen - 3))

def phrParseRequest (build : Build) (maxHeaders lastLen : ℕ) : Reader UInt8 PhrRequest := fun buf =>
  if lastLen = 0 then parseRequest build maxHeaders buf
  else
    match isComplete lastLen buf with
    | .done _ _ => parseRequest build maxHeaders buf
    | .failed => .failed
    | .incomplete => .incomplete
    | .overread => .overread

theorem parseHeaderName_eq (build : Build) : parseHeaderName build = (do
    let name ← scan (tokenVerdict colon)
    if name = [] then fail
    else
      advance
      let _ ← scan (fun c => if isBlank c then .go else .stop)
      pure (some name)) := by
  rw [parseHeaderName, parseToken_eq_scan build (.inr rfl)]

private theorem parseHeader_eq_portable (build : Build) (first : Bool) :
    parseHeader build first = parseHeader .portable first := by
  simp only [parseHeader, parseNameUnlessBlank, parseHeaderName_eq, getTokenToEol_eq_scan]

private theorem parseHeaders_eq_portable (build : Build) (room : ℕ) (headers : List PhrHeader) :
    parseHeaders build room headers = parseHeaders .portable room headers := by
  induction room generalizing headers with
  | zero => rfl
  | succ room ih => simp only [parseHeaders, parseHeader_eq_portable build, ih]

theorem parseRequest_eq_portable (build : Build) (maxHeaders : ℕ) :
    parseRequest build maxHeaders = parseRequest .portable maxHeaders := by
  simp only [parseRequest, parseToken_eq_scan _ (.inl rfl), advanceToken_eq_scan,
    parseHeaders_eq_portable build]

theorem stable_expectCharNoCheck (ch : UInt8) : Stable (expectCharNoCheck ch) :=
  .bind .current fun _ => .bind .advance fun _ => .ite (.pure _) .fail

theorem stable_expectChar (ch : UInt8) : Stable (expectChar ch) :=
  .bind .checkEof fun _ => stable_expectCharNoCheck ch

theorem stable_expectEol : Stable expectEol :=
  .bind .current fun _ => .ite (.bind .advance fun _ => stable_expectChar lf) (.ite .advance .fail)

private theorem stable_skipEmptyLine : Stable skipEmptyLine :=
  .bind .checkEof fun _ => .bind .current fun _ =>
    .ite (.bind .advance fun _ => stable_expectChar lf) (.ite .advance (.pure _))

private theorem stable_skipSpaces : Stable skipSpaces :=
  .bind .advance fun _ => .bind (.scan _) fun _ => .pure _

private theorem stable_parseInt : Stable parseInt :=
  .bind .current fun _ => .bind .advance fun _ => .ite (.pure _) .fail

private theorem stable_parseHttpVersion : Stable parseHttpVersion := by
  refine .needs 9 ?_
  repeat refine .bind (stable_expectCharNoCheck _) fun _ => ?_
  exact stable_parseInt

private theorem stable_getTokenToEol (build : Build) : Stable (getTokenToEol build) := by
  rw [getTokenToEol_eq_scan]
  exact .bind (.scan _) fun _ => .bind stable_expectEol fun _ => .pure _

private theorem stable_parseHeader (build : Build) (first : Bool) :
    Stable (parseHeader build first) := by
  have hname : Stable (parseHeaderName build) := by
    rw [parseHeaderName_eq]
    exact .bind (.scan _) fun _ =>
      .ite .fail (.bind .advance fun _ => .bind (.scan _) fun _ => .pure _)
  exact .bind (.bind .current fun _ => .ite hname (.pure _)) fun _ =>
    .bind (stable_getTokenToEol build) fun _ => .pure _

private theorem stable_emptyLineOr (headers : List PhrHeader)
    {round : Reader UInt8 (List PhrHeader)} (h : Stable round) :
    Stable (emptyLineOr headers round) :=
  .bind .checkEof fun _ => .bind .current fun _ =>
    .ite (.bind .advance fun _ => .bind (stable_expectChar lf) fun _ => .pure _)
      (.ite (.bind .advance fun _ => .pure _) h)

private theorem stable_parseHeaders (build : Build) (room : ℕ) (headers : List PhrHeader) :
    Stable (parseHeaders build room headers) := by
  induction room generalizing headers with
  | zero => exact stable_emptyLineOr headers .fail
  | succ room ih =>
    exact stable_emptyLineOr headers (.bind (stable_parseHeader build _) fun _ => ih _)

theorem stable_parseRequest (build : Build) (maxHeaders : ℕ) :
    Stable (parseRequest build maxHeaders) := by
  have hmethod : Stable (parseToken build sp) := by
    rw [parseToken_eq_scan build (.inl rfl)]
    exact .scan _
  have hpath : Stable (advanceToken build) := by
    rw [advanceToken_eq_scan]
    exact .scan _
  refine .bind stable_skipEmptyLine fun _ => .bind hmethod fun _ => .bind stable_skipSpaces fun _ =>
    .bind hpath fun _ => .bind stable_skipSpaces fun _ => .ite .fail ?_
  exact .bind stable_parseHttpVersion fun _ => .bind stable_expectEol fun _ =>
    .bind (stable_parseHeaders build maxHeaders []) fun _ => .pure _

end HCache.CppPicoRequests
