import HCache.RustStorage
import HCache.SequentialMachines

/-!
# The hand-written HTTP parser

The loop of `ParserContext::feed` over a buffer, with a record of the positions it inspects
and of the replies it writes; the writes succeed. Eleven of the fifteen states share one arm,
which replies and stays where it is, so the loop leaves none of them with bytes ahead. The
guard compares with the length of the buffer, not with the number of bytes received.
-/
namespace HCache.RustHttpParser
open RustStorage SequentialMachines

inductive HttpMethod where
  | unknown
  | get
  | post
  deriving DecidableEq, Repr

inductive HttpRequestParserState where
  | parseMethod
  | skipBeforePath (skipCount : ℕ)
  | parsePath
  | queryGetKey (skipCount : ℕ)
  | delGetKey (skipCount : ℕ)
  | zrmvGetKeyValue (skipCount : ℕ)
  | replyInit
  | addGetBody (skipCount : ℕ)
  | listGetBody (skipCount : ℕ)
  | batchGetBody (skipCount : ℕ)
  | addOrRange
  | zaddGetKeyAndBody (skipCount : ℕ)
  | zrangeGetBody (skipCount : ℕ)
  | skipHeaderNoBody (skipCount : ℕ)
  | parseBody
  deriving DecidableEq, Repr

/-- The fields that `feed` reads and writes. -/
structure ParserContext where
  state : HttpRequestParserState
  method : HttpMethod
  deriving DecidableEq, Repr

def ParserContext.new : ParserContext := ⟨.parseMethod, .unknown⟩

structure Reply where
  head : String
  body : String
  deriving DecidableEq, Repr

def okReply : Reply := ⟨"HTTP/1.1 200 OK\r\n\r\n", "ok"⟩

/-- The variables of the loop, the positions inspected so far and the replies written. -/
structure Loop where
  ctx : ParserContext
  bufPos : ℕ
  inspected : List ℕ
  replies : List Reply
  deriving DecidableEq, Repr

def Loop.start (ctx : ParserContext) : Loop := ⟨ctx, 0, [], []⟩

/-- `buf[buf_pos]`, inside the loop. -/
def current (buf : List UInt8) (c : Loop) : UInt8 := buf.getD c.bufPos 0

/-- An arm that inspects the current byte, changes the context and moves on. -/
def Loop.consume (c : Loop) (ctx : ParserContext) : Loop :=
  { c with ctx := ctx, bufPos := c.bufPos + 1, inspected := c.inspected ++ [c.bufPos] }

def iteration (buf : List UInt8) (c : Loop) : Loop :=
  match c.ctx.state with
  | .parseMethod =>
    if current buf c = 'P'.toUInt8 then c.consume ⟨.skipBeforePath 5, .post⟩
    else c.consume ⟨.skipBeforePath 4, .get⟩
  | .skipBeforePath skipCount =>
    let bufRemain := buf.length - c.bufPos
    if skipCount ≤ bufRemain then
      { c with ctx := { c.ctx with state := .parsePath }, bufPos := c.bufPos + skipCount }
    else
      { c with
        ctx := { c.ctx with state := .skipBeforePath (skipCount - bufRemain) }
        bufPos := buf.length }
  | .parsePath =>
    match c.ctx.method with
    | .post =>
      if current buf c = 'l'.toUInt8 then c.consume { c.ctx with state := .listGetBody 0 }
      else if current buf c = 'b'.toUInt8 then c.consume { c.ctx with state := .batchGetBody 0 }
      else if current buf c = 'a'.toUInt8 then c.consume { c.ctx with state := .addGetBody 0 }
      else c.consume { c.ctx with state := .addOrRange }
    | _ =>
      if current buf c = 'd'.toUInt8 then c.consume { c.ctx with state := .delGetKey 3 }
      else if current buf c = 'z'.toUInt8 then c.consume { c.ctx with state := .zrmvGetKeyValue 4 }
      else c.consume { c.ctx with state := .replyInit }
  | .addOrRange =>
    if current buf c = 'a'.toUInt8 then c.consume { c.ctx with state := .addGetBody 0 }
    else c.consume { c.ctx with state := .zaddGetKeyAndBody 4 }
  | _ =>
    { c with ctx := { c.ctx with state := .skipHeaderNoBody 0 }, replies := c.replies ++ [okReply] }

/-- `feed` from the start of an iteration to its return. -/
def Feeds (buf : List UInt8) : Loop → Loop → Prop :=
  Exits (fun c => c.bufPos < buf.length) (iteration buf)

def CatchAll : HttpRequestParserState → Prop
  | .parseMethod | .skipBeforePath _ | .parsePath | .addOrRange => False
  | _ => True

/-- `feed` returns, has inspected received bytes only and has written at most one reply; it
handles at most one request. -/
def Consumes (buf : List UInt8) (n : ℕ) (c : Loop) : Prop :=
  ∃ d, Feeds buf c d ∧ (∀ i ∈ d.inspected, i < n) ∧ d.replies.length ≤ 1

variable (buf : List UInt8) (n : ℕ)

/-- At `pos` the buffer ends, or does so behind a received byte. -/
def EndsBy (pos : ℕ) : Prop := buf.length ≤ pos ∨ (pos < n ∧ buf.length = pos + 1)

/-- From the first byte of the path on. A POST path that starts with another letter than `l`,
`b` and `a` is inspected at its second byte too. -/
def PathFits (method : HttpMethod) (pos : ℕ) : Prop :=
  EndsBy buf n pos ∨ (method = .post ∧ pos < n ∧ pos + 1 < n ∧ buf.length = pos + 2 ∧
    buf.getD pos 0 ∉ ['l'.toUInt8, 'b'.toUInt8, 'a'.toUInt8])

/-- The bytes to skip reach past the buffer, or what follows them fits. -/
def SkipFits (method : HttpMethod) (skipCount pos : ℕ) : Prop :=
  buf.length < pos + skipCount ∨ PathFits buf n method (pos + skipCount)

/-- The buffer is empty, or it ends before or with the bytes that decide the route, and those
that are inspected were received. -/
def Fits (ctx : ParserContext) : Prop :=
  match ctx.state with
  | .parseMethod => buf = [] ∨ (0 < n ∧
      if buf.getD 0 0 = 'P'.toUInt8 then SkipFits buf n .post 5 1 else SkipFits buf n .get 4 1)
  | .skipBeforePath skipCount => SkipFits buf n ctx.method skipCount 0
  | .parsePath => PathFits buf n ctx.method 0
  | .addOrRange => EndsBy buf n 0
  | _ => buf = []

variable {buf : List UInt8} {n : ℕ} {c : Loop}

/-- What has been inspected and written so far is as promised. -/
def SoFar (n : ℕ) (c : Loop) : Prop := (∀ i ∈ c.inspected, i < n) ∧ c.replies = []

theorem SoFar.consume (h : SoFar n c) (ctx : ParserContext) (hpos : c.bufPos < n) :
    SoFar n (c.consume ctx) := by
  refine ⟨?_, h.2⟩
  intro i hi
  rcases List.mem_append.mp hi with hi | hi
  · exact h.1 i hi
  · rwa [List.mem_singleton.mp hi]

/-- An iteration inspects its byte and moves behind it, moves without inspecting, or replies
where it is. -/
theorem iteration_cases (buf : List UInt8) (c : Loop) :
    (∃ ctx, iteration buf c = c.consume ctx) ∨
    (∃ ctx pos, iteration buf c = { c with ctx := ctx, bufPos := pos }) ∨
    ∃ ctx, iteration buf c = { c with ctx := ctx, replies := c.replies ++ [okReply] } := by
  obtain ⟨⟨state, method⟩, bufPos, inspected, replies⟩ := c
  cases state with
  | parseMethod =>
    left
    simp only [iteration]
    split <;> exact ⟨_, rfl⟩
  | skipBeforePath skipCount =>
    right; left
    simp only [iteration]
    split <;> exact ⟨_, _, rfl⟩
  | parsePath =>
    left
    cases method <;> simp only [iteration] <;> repeat' split
    all_goals exact ⟨_, rfl⟩
  | addOrRange =>
    left
    simp only [iteration]
    split <;> exact ⟨_, rfl⟩
  | _ => exact .inr (.inr ⟨_, rfl⟩)

/-- The first byte of the path leads to the last arm; of a POST path that starts with another
letter than `l`, `b` and `a`, the second one is next. -/
theorem iteration_parsePath_cases (buf : List UInt8) (hstate : c.ctx.state = .parsePath) :
    (∃ ctx : ParserContext, CatchAll ctx.state ∧ iteration buf c = c.consume ctx ∧
      ¬(c.ctx.method = .post ∧ current buf c ∉ ['l'.toUInt8, 'b'.toUInt8, 'a'.toUInt8])) ∨
    ∃ ctx : ParserContext, ctx.state = .addOrRange ∧ iteration buf c = c.consume ctx ∧
      c.ctx.method = .post ∧ current buf c ∉ ['l'.toUInt8, 'b'.toUInt8, 'a'.toUInt8] := by
  obtain ⟨⟨state, method⟩, bufPos, inspected, replies⟩ := c
  obtain rfl : state = .parsePath := hstate
  cases method with
  | post =>
    simp only [iteration]
    generalize current buf ⟨⟨.parsePath, .post⟩, bufPos, inspected, replies⟩ = byte
    by_cases hl : byte = 'l'.toUInt8
    · exact .inl ⟨⟨.listGetBody 0, .post⟩, trivial, by rw [if_pos hl], by simp [hl]⟩
    · by_cases hb : byte = 'b'.toUInt8
      · exact .inl ⟨⟨.batchGetBody 0, .post⟩, trivial, by rw [if_neg hl, if_pos hb], by simp [hb]⟩
      · by_cases ha : byte = 'a'.toUInt8
        · exact .inl ⟨⟨.addGetBody 0, .post⟩, trivial, by rw [if_neg hl, if_neg hb, if_pos ha],
        by simp [ha]⟩
        · refine .inr ⟨⟨.addOrRange, .post⟩, rfl, by rw [if_neg hl, if_neg hb, if_neg ha],
            trivial, ?_⟩
          simp only [List.mem_cons, hl, hb, ha, List.not_mem_nil, or_self, not_false_eq_true]
  | unknown | get =>
    left
    simp only [iteration]
    repeat' split
    all_goals
      refine ⟨_, ?_, rfl, by simp⟩
      trivial

private theorem subset_iteration (buf : List UInt8) (c : Loop) :
    c.inspected ⊆ (iteration buf c).inspected := by
  rcases iteration_cases buf c with ⟨ctx, h⟩ | ⟨ctx, pos, h⟩ | ⟨ctx, h⟩
  · rw [h]
    exact List.subset_append_left _ _
  · rw [h]
    exact List.Subset.refl _
  · rw [h]
    exact List.Subset.refl _

theorem Consumes.inspected (h : Consumes buf n c) : ∀ i ∈ c.inspected, i < n := by
  obtain ⟨d, hfeeds, hinspected, -⟩ := h
  intro i hi
  have hsub : c.inspected ⊆ d.inspected :=
    Exits.invariant (fun e => c.inspected ⊆ e.inspected)
      (fun e he => List.Subset.trans he (subset_iteration buf e))
      hfeeds (List.Subset.refl _)
  exact hinspected i (hsub hi)

/-- At the end of the buffer the loop has returned. -/
theorem consumes_of_end (h : SoFar n c) (hend : buf.length ≤ c.bufPos) : Consumes buf n c := by
  refine ⟨c, .stop (by omega), h.1, ?_⟩
  simp [h.2]

theorem consumes_iff_iteration (hpos : c.bufPos < buf.length) :
    Consumes buf n c ↔ Consumes buf n (iteration buf c) := by
  unfold Consumes Feeds
  exact exists_congr (fun d => and_congr (exits_iff_of_guard hpos) Iff.rfl)

/-- An arm that moves on needs its byte to be received, and then what its next state needs. -/
theorem consumes_consume_iff (h : SoFar n c) {ctx : ParserContext} {P : Prop}
    (hnext : SoFar n (c.consume ctx) → (Consumes buf n (c.consume ctx) ↔ P)) :
    Consumes buf n (c.consume ctx) ↔ c.bufPos < n ∧ P := by
  constructor
  · intro hc
    have hpos := hc.inspected c.bufPos (by simp [Loop.consume])
    exact ⟨hpos, (hnext (h.consume ctx hpos)).mp hc⟩
  · rintro ⟨hpos, hp⟩
    exact (hnext (h.consume ctx hpos)).mpr hp

/-- In a state of the last arm the loop stays where it is and writes one reply after another. -/
theorem not_feeds_of_catchAll (hstate : CatchAll c.ctx.state) (hpos : c.bufPos < buf.length)
    (d : Loop) :
    ¬Feeds buf c d := by
  refine not_exits_of_trap (fun c : Loop => CatchAll c.ctx.state ∧ c.bufPos < buf.length) ?_
    ⟨hstate, hpos⟩
  rintro ⟨⟨state, method⟩, bufPos, inspected, replies⟩ ⟨hs, hp⟩
  refine ⟨hp, ?_⟩
  cases state <;> first | exact hs.elim | exact ⟨trivial, hp⟩

theorem consumes_catchAll_iff (h : SoFar n c) (hstate : CatchAll c.ctx.state) :
    Consumes buf n c ↔ buf.length ≤ c.bufPos := by
  constructor
  · rintro ⟨d, hfeeds, -⟩
    by_contra hpos
    exact not_feeds_of_catchAll hstate (by omega) d hfeeds
  · exact consumes_of_end h

/-- One inspected byte, and then a state of the last arm. -/
theorem consumes_last_iff (h : SoFar n c) {ctx : ParserContext} (hctx : CatchAll ctx.state) :
    Consumes buf n (c.consume ctx) ↔ c.bufPos < n ∧ buf.length ≤ c.bufPos + 1 :=
  consumes_consume_iff h (fun hnext => consumes_catchAll_iff hnext hctx)

theorem consumes_addOrRange_iff (h : SoFar n c) (hstate : c.ctx.state = .addOrRange) :
    Consumes buf n c ↔ EndsBy buf n c.bufPos := by
  by_cases hpos : c.bufPos < buf.length
  · have hlast : Consumes buf n (iteration buf c) ↔ c.bufPos < n ∧ buf.length ≤ c.bufPos + 1 := by
      simp only [iteration, hstate]
      split <;> exact consumes_last_iff h trivial
    rw [consumes_iff_iteration hpos, hlast, EndsBy]
    omega
  · have hend := consumes_of_end h (not_lt.mp hpos)
    simp only [hend, true_iff, EndsBy]
    omega

theorem consumes_parsePath_iff (h : SoFar n c) (hstate : c.ctx.state = .parsePath) :
    Consumes buf n c ↔ PathFits buf n c.ctx.method c.bufPos := by
  by_cases hpos : c.bufPos < buf.length
  · have hend : EndsBy buf n c.bufPos ↔ c.bufPos < n ∧ buf.length ≤ c.bufPos + 1 := by
      rw [EndsBy]
      omega
    have hcurrent : buf.getD c.bufPos 0 = current buf c := rfl
    rw [consumes_iff_iteration hpos, PathFits, hend, hcurrent]
    rcases iteration_parsePath_cases buf hstate with ⟨ctx, hctx, hiter, hlast⟩ |
      ⟨ctx, hctx, hiter, hpost, hmore⟩
    · rw [hiter, consumes_last_iff h hctx]
      tauto
    · have hnext : Consumes buf n (c.consume ctx) ↔ c.bufPos < n ∧ EndsBy buf n (c.bufPos + 1) :=
        consumes_consume_iff h (fun hsofar => consumes_addOrRange_iff hsofar hctx)
      rw [hiter, hnext, EndsBy]
      simp only [hpost, hmore, not_false_eq_true, and_true, true_and]
      omega
  · have hend := consumes_of_end h (not_lt.mp hpos)
    simp only [hend, true_iff, PathFits, EndsBy]
    omega

theorem consumes_skipBeforePath_iff (h : SoFar n c) {skipCount : ℕ}
    (hstate : c.ctx.state = .skipBeforePath skipCount) (hle : c.bufPos ≤ buf.length) :
    Consumes buf n c ↔ SkipFits buf n c.ctx.method skipCount c.bufPos := by
  by_cases hpos : c.bufPos < buf.length
  · rw [consumes_iff_iteration hpos]
    simp only [iteration, hstate]
    split
    · next hskip =>
      have hpath : Consumes buf n ⟨⟨.parsePath, c.ctx.method⟩, c.bufPos + skipCount, c.inspected,
          c.replies⟩ ↔
          PathFits buf n c.ctx.method (c.bufPos + skipCount) := consumes_parsePath_iff h rfl
      rw [hpath, SkipFits]
      constructor
      · exact .inr
      · intro hfits
        exact hfits.resolve_left (by omega)
    · next hskip =>
      have hend : buf.length < c.bufPos + skipCount := by omega
      simp only [SkipFits, hend, true_or, iff_true]
      exact consumes_of_end h le_rfl
  · have hend := consumes_of_end h (not_lt.mp hpos)
    simp only [hend, true_iff, SkipFits, PathFits, EndsBy]
    omega

private theorem consumes_parseMethod_iff (h : SoFar n c) (hstate : c.ctx.state = .parseMethod)
    (hpos : c.bufPos < buf.length) :
    Consumes buf n c ↔ c.bufPos < n ∧
      if buf.getD c.bufPos 0 = 'P'.toUInt8 then SkipFits buf n .post 5 (c.bufPos + 1)
      else SkipFits buf n .get 4 (c.bufPos + 1) := by
  have hcurrent : buf.getD c.bufPos 0 = current buf c := rfl
  rw [consumes_iff_iteration hpos, hcurrent]
  simp only [iteration, hstate]
  by_cases hp : current buf c = 'P'.toUInt8
  · rw [if_pos hp, if_pos hp]
    refine consumes_consume_iff h ?_
    intro hnext
    exact consumes_skipBeforePath_iff hnext rfl hpos
  · rw [if_neg hp, if_neg hp]
    refine consumes_consume_iff h ?_
    intro hnext
    exact consumes_skipBeforePath_iff hnext rfl hpos

/-- `feed` returns without inspecting a byte that was not received and with one reply at most
exactly when the buffer is empty, or ends before or with the bytes that decide the route and
the inspected ones of these were received. -/
theorem feed_consumes_iff_fits (buf : List UInt8) (n : ℕ) (ctx : ParserContext) :
    Consumes buf n (Loop.start ctx) ↔ Fits buf n ctx := by
  have h : SoFar n (Loop.start ctx) := ⟨by simp [Loop.start], rfl⟩
  have hlength : buf.length ≤ 0 ↔ buf = [] := by simp
  cases hstate : ctx.state with
  | parseMethod =>
    simp only [Fits, hstate]
    by_cases hnil : buf = []
    · exact iff_of_true (consumes_of_end h (hlength.mpr hnil)) (.inl hnil)
    · have hpos : 0 < buf.length := List.length_pos_iff.mpr hnil
      rw [consumes_parseMethod_iff h hstate hpos]
      simp only [hnil, false_or]
      rfl
  | skipBeforePath skipCount =>
    rw [consumes_skipBeforePath_iff h hstate (by simp [Loop.start]), Fits, hstate]
    rfl
  | parsePath =>
    rw [consumes_parsePath_iff h hstate, Fits, hstate]
    rfl
  | addOrRange =>
    rw [consumes_addOrRange_iff h hstate, Fits, hstate]
    rfl
  | _ =>
    rw [consumes_catchAll_iff h (by simp [Loop.start, hstate, CatchAll]), Fits, hstate]
    exact hlength

variable {c d : Loop}

theorem feeds_iff_iteration (hpos : c.bufPos < buf.length) :
    Feeds buf c d ↔ Feeds buf (iteration buf c) d :=
  exits_iff_of_guard hpos

theorem not_feeds_last {ctx : ParserContext} (hpos : c.bufPos + 1 < buf.length)
    (hctx : CatchAll ctx.state) :
    ¬Feeds buf (c.consume ctx) d :=
  not_feeds_of_catchAll hctx hpos d

private theorem not_feeds_addOrRange (hstate : c.ctx.state = .addOrRange)
    (hpos : c.bufPos + 1 < buf.length) : ¬Feeds buf c d := by
  rw [feeds_iff_iteration (by omega)]
  simp only [iteration, hstate]
  split <;> exact not_feeds_last hpos trivial

private theorem not_feeds_parsePath (hstate : c.ctx.state = .parsePath)
    (hpos : c.bufPos + 2 < buf.length) :
    ¬Feeds buf c d := by
  rw [feeds_iff_iteration (by omega)]
  rcases iteration_parsePath_cases buf hstate with ⟨ctx, hctx, hiter, -⟩ | ⟨ctx, hctx, hiter, -⟩
  · rw [hiter]
    exact not_feeds_last (by omega) hctx
  · rw [hiter]
    exact not_feeds_addOrRange hctx hpos

private theorem not_feeds_skipBeforePath {skipCount : ℕ}
    (hstate : c.ctx.state = .skipBeforePath skipCount)
    (hpos : c.bufPos + skipCount + 2 < buf.length) : ¬Feeds buf c d := by
  rw [feeds_iff_iteration (by omega)]
  simp only [iteration, hstate]
  rw [if_pos (by omega)]
  exact not_feeds_parsePath rfl hpos

private theorem not_feeds_parseMethod (hstate : c.ctx.state = .parseMethod)
    (hpos : c.bufPos + 8 < buf.length) :
    ¬Feeds buf c d := by
  rw [feeds_iff_iteration (by omega)]
  simp only [iteration, hstate]
  split
  · exact not_feeds_skipBeforePath rfl (by simp only [Loop.consume]; omega)
  · exact not_feeds_skipBeforePath rfl (by simp only [Loop.consume]; omega)

/-- With the buffer of `conn_dispatcher` the first `feed` of a connection does not return, so
nothing is read a second time. -/
theorem conn_dispatcher_stuck (hbuf : buf.length = 4096) (d : Loop) :
    ¬Feeds buf (Loop.start ParserContext.new) d :=
  not_feeds_parseMethod rfl (by simp only [Loop.start]; omega)

def initRequest : List UInt8 := "GET /init HTTP/1.1\r\n\r\n".toUTF8.data.toList

/-- It is received into the buffer, and `feed` does not return. -/
theorem init_request_not_consumed :
    ¬Consumes (initRequest ++ List.replicate (4096 - initRequest.length) 0) initRequest.length
      (Loop.start ParserContext.new) := by
  rintro ⟨d, hfeeds, -⟩
  have hlength : initRequest.length = 22 := by decide
  refine conn_dispatcher_stuck ?_ d hfeeds
  rw [List.length_append, List.length_replicate, hlength]

end HCache.RustHttpParser
