import HCache.CppFstackLoop
import HCache.CppPicoVerdicts

/-!
# The heads that the F-Stack server reads

`phr_parse_request` as `loop` of `fstack.cc` calls it on a receive buffer. A head is read as soon
as it is there, whatever follows, and not before.
-/
namespace HCache.CppFstackHeads
open OrderedMaps CppSingleThreadStorage CppFstackLoop
open IncrementalParsers CppPicoTokens CppPicoRequests CppPicoGrammar CppPicoVerdicts

/-- The name of a continuing line is `NULL` with the length 0. -/
def headerOf (header : PhrHeader) : Header := ⟨header.name.getD [], header.value⟩

/-- `room` is `num_headers`. -/
def readHead (build : Build) (room : ℕ) (buf : Fbstring) : Parsed :=
  match phrParseRequest build room 0 buf with
  | .done request rest => .head (buf.length - rest.length)
      ⟨request.method, request.path, request.headers.map headerOf⟩
  | .incomplete => .incomplete
  | .failed | .overread => .malformed

def parsers (build : Build) (room : ℕ) (parse : Fbstring → Option Json)
    (order : IterationOrder Fbstring) : Parsers :=
  ⟨readHead build room, parse, order⟩

variable {build : Build} {room : ℕ} {request : PhrRequest} {text : Fbstring}

private theorem phrParseRequest_zero (buf : Fbstring) :
    phrParseRequest build room 0 buf = parseRequest build room buf := rfl

/-- A head is found as soon as it is there, whatever follows. -/
theorem readHead_append (htext : RequestText text request) (hroom : request.headers.length ≤ room)
    (rest : Fbstring) : readHead build room (text ++ rest) =
      .head text.length ⟨request.method, request.path, request.headers.map headerOf⟩ := by
  have hdone : parseRequest build room (text ++ rest) = .done request rest :=
    parseRequest_eq_done.mpr ⟨text, rfl, htext, hroom⟩
  simp [readHead, phrParseRequest_zero, hdone]

theorem readHead_part (htext : RequestText text request) (hroom : request.headers.length ≤ room)
    {part : Fbstring} (hpart : part <+: text) (hne : part ≠ text) :
    readHead build room part = .incomplete := by
  have hdone : parseRequest build room (text ++ []) = .done request [] :=
    parseRequest_eq_done.mpr ⟨text, rfl, htext, hroom⟩
  obtain ⟨hnotDone, hnotFailed⟩ := (stable_parseRequest build room).not_settled hdone hpart hne
  rw [readHead, phrParseRequest_zero]
  cases hv : parseRequest build room part with
  | done r rest => exact absurd hv (hnotDone r rest)
  | incomplete => rfl
  | failed => exact absurd hv hnotFailed
  | overread => exact absurd hv (parseRequest_ne_overread room part)

/-- What the parser accepts as a whole is a head. -/
theorem requestText_of_done (hdone : parseRequest build room text = .done request []) :
    RequestText text request ∧ request.headers.length ≤ room := by
  obtain ⟨text', he, htext, hroom⟩ := parseRequest_eq_done.mp hdone
  rw [List.append_nil] at he
  exact ⟨he ▸ htext, hroom⟩

end HCache.CppFstackHeads
