import HCache.CppSingleThreadStorage
import HCache.IncrementalParsers
import Mathlib.Data.List.TakeWhile

/-!
# The scanners of picohttpparser

`findchar_fast`, `parse_token`, `ADVANCE_TOKEN` and `get_token_to_eol` of `picohttpparser.c`,
in the build with SSE4.2 and in the portable one. Both first pass over bytes that need no
attention, sixteen or eight at a time, and both then scan byte by byte; they agree on every
buffer.
-/
namespace HCache.CppPicoTokens
open IncrementalParsers IncrementalParsers.Reader CppSingleThreadStorage

/-- Whether `__SSE4_2__` is defined. -/
inductive Build where
  | sse42
  | portable
  deriving DecidableEq, Repr

abbrev ht : UInt8 := 0o11
abbrev lf : UInt8 := 0o12
abbrev cr : UInt8 := 0o15
abbrev sp : UInt8 := 0o40
abbrev colon : UInt8 := 0x3a

/-- `IS_PRINTABLE_ASCII`, in unsigned arithmetic. -/
def isPrintableAscii (c : UInt8) : Bool := c.toUInt32 - 0o40 < 0o137

def tokenCharMap : List UInt8 :=
  List.replicate 32 0 ++
  [0, 1, 0, 1, 1, 1, 1, 1, 0, 0, 1, 1, 0, 1, 1, 0, 1, 1, 1, 1, 1, 1, 1, 1, 1, 1, 0, 0,
    0, 0, 0, 0] ++
  [0, 1, 1, 1, 1, 1, 1, 1, 1, 1, 1, 1, 1, 1, 1, 1, 1, 1, 1, 1, 1, 1, 1, 1, 1, 1, 1, 0,
    0, 0, 1, 1] ++
  [1, 1, 1, 1, 1, 1, 1, 1, 1, 1, 1, 1, 1, 1, 1, 1, 1, 1, 1, 1, 1, 1, 1, 1, 1, 1, 1, 0,
    1, 0, 1, 0] ++
  List.replicate 128 0

def isTokenChar (c : UInt8) : Bool := tokenCharMap.getD c.toNat 0 ≠ 0

abbrev Ranges := List (UInt8 × UInt8)

def inRanges (ranges : Ranges) (c : UInt8) : Bool := ranges.any (fun r => r.1 ≤ c ∧ c ≤ r.2)

/-- `_mm_cmpestri` on a block of sixteen: the first index in a range, or 16. -/
def cmpestri (ranges : Ranges) (block : Fbstring) : ℕ :=
  (block.takeWhile (fun c => !inRanges ranges c)).length

/-- The loop of `findchar_fast` over whole blocks: how far it comes, and whether it has found
a byte in a range there. -/
def findBlocks (ranges : Ranges) : ℕ → Fbstring → ℕ × Bool
  | 0, _ => (0, false)
  | blocks + 1, buf =>
    let r := cmpestri ranges (buf.take 16)
    if r ≠ 16 then (r, true)
    else
      let (n, found) := findBlocks ranges blocks (buf.drop 16)
      (16 + n, found)

def findcharFast (build : Build) (ranges : Ranges) (buf : Fbstring) : ℕ × Bool :=
  match build with
  | .sse42 => findBlocks ranges (buf.length / 16) buf
  | .portable => (0, false)

/-- Control characters and up to SP, and the other bytes that end a fast pass. -/
def tokenRanges : Ranges :=
  [(0x00, 0x20), (0x22, 0x22), (0x28, 0x29), (0x2c, 0x2c), (0x2f, 0x2f), (0x3a, 0x40), (0x5b, 0x5d),
    (0x7b, 0xff)]

def pathRanges : Ranges := [(0o0, 0o40), (0o177, 0o177)]

def checkEofUnless (found : Bool) : Reader UInt8 Unit := if found then pure () else checkEof

/-- The loop shared by `parse_token` and `ADVANCE_TOKEN`. -/
def scanToken (build : Build) (ranges : Ranges) (classify : UInt8 → Verdict) :
    Reader UInt8 Fbstring := fun buf =>
  let (n, found) := findcharFast build ranges buf
  let loop : Reader UInt8 Fbstring := do
    checkEofUnless found
    let _ ← current
    let token ← scan classify
    pure (buf.take n ++ token)
  loop (buf.drop n)

def tokenVerdict (nextChar c : UInt8) : Verdict :=
  if c = nextChar then .stop else if isTokenChar c then .go else .bad

def parseToken (build : Build) (nextChar : UInt8) : Reader UInt8 Fbstring :=
  scanToken build tokenRanges (tokenVerdict nextChar)

def pathVerdict (c : UInt8) : Verdict :=
  if c = sp then .stop
  else if ¬isPrintableAscii c ∧ (c < 0o40 ∨ c = 0o177) then .bad
  else .go

/-- `ADVANCE_TOKEN` -/
def advanceToken (build : Build) : Reader UInt8 Fbstring := scanToken build pathRanges pathVerdict

/-- Everything but HT, SP up to DEL, and bytes with the highest bit set. -/
def eolRanges : Ranges := [(0o0, 0o10), (0o12, 0o37), (0o177, 0o177)]

def isCtl (c : UInt8) : Bool := (c < 0o40 ∧ c ≠ ht) ∨ c = 0o177

def eolVerdict (c : UInt8) : Verdict := if ¬isPrintableAscii c ∧ isCtl c then .stop else .go

/-- `while (buf_end - buf >= 8)` with its eight `DOIT`s; every round passes a byte or ends at
a control character. -/
def skipPrintable : ℕ → Fbstring → ℕ × Bool
  | 0, _ => (0, false)
  | rounds + 1, buf =>
    if buf.length < 8 then (0, false)
    else
      let i := ((buf.take 8).takeWhile isPrintableAscii).length
      if i = 8 then
        let (n, found) := skipPrintable rounds (buf.drop 8)
        (8 + n, found)
      else if isCtl (buf.getD i 0) then (i, true)
      else
        let (n, found) := skipPrintable rounds (buf.drop (i + 1))
        (i + 1 + n, found)

def expectCharNoCheck (ch : UInt8) : Reader UInt8 Unit := do
  let c ← current
  advance
  if c = ch then pure () else fail

def expectChar (ch : UInt8) : Reader UInt8 Unit := do
  checkEof
  expectCharNoCheck ch

def expectEol : Reader UInt8 Unit := do
  let c ← current
  if c = cr then
    advance
    expectChar lf
  else if c = lf then
    advance
  else fail

/-- `FOUND_CTL` -/
def foundCtl (token : Fbstring) : Reader UInt8 Fbstring := do
  expectEol
  pure token

/-- The bytes that `get_token_to_eol` passes before its byte loop. -/
def passLine (build : Build) (buf : Fbstring) : ℕ × Bool :=
  match build with
  | .sse42 => findcharFast .sse42 eolRanges buf
  | .portable => skipPrintable buf.length buf

/-- The byte loop, unless the fast pass has gone to `FOUND_CTL`. -/
def scanUnless (found : Bool) : Reader UInt8 Fbstring := if found then pure [] else scan eolVerdict

def getTokenToEol (build : Build) : Reader UInt8 Fbstring := fun buf =>
  let (n, found) := passLine build buf
  let loop : Reader UInt8 Fbstring := do
    let token ← scanUnless found
    foundCtl (buf.take n ++ token)
  loop (buf.drop n)

/-- The pass has come `n` bytes far over bytes that a scan passes too; when it has found a
byte, the scan stops or rejects there. -/
structure Passes (go : UInt8 → Prop) (buf : Fbstring) (n : ℕ) (found : Bool) : Prop where
  passed : ∀ c ∈ buf.take n, go c
  found : found = true → ∃ c rest, buf.drop n = c :: rest ∧ ¬go c

theorem Passes.zero (go : UInt8 → Prop) (buf : Fbstring) : Passes go buf 0 false :=
  ⟨by simp, by simp⟩

/-- A pass behind `k` bytes that are passed. -/
theorem Passes.add {go : UInt8 → Prop} {buf : Fbstring} {k n : ℕ} {found : Bool}
    (hk : ∀ c ∈ buf.take k, go c) (h : Passes go (buf.drop k) n found) :
    Passes go buf (k + n) found := by
  constructor
  · intro c hc
    rw [List.take_add, List.mem_append] at hc
    rcases hc with hc | hc
    · exact hk c hc
    · exact h.passed c hc
  · intro hf
    rw [← List.drop_drop]
    exact h.found hf

/-- The first byte of a block that is not passed. -/
theorem passes_block (go : UInt8 → Bool) {buf : Fbstring} {k : ℕ} (hk : k ≤ buf.length) :
    (∀ c ∈ buf.take ((buf.take k).takeWhile go).length, go c = true) ∧
      (((buf.take k).takeWhile go).length ≠ k →
        ∃ c rest, buf.drop ((buf.take k).takeWhile go).length = c :: rest ∧ go c = false) := by
  have hblock := List.takeWhile_append_dropWhile (p := go) (l := buf.take k)
  have hlength : (buf.take k).length = k := by
    rw [List.length_take]
    omega
  have hsplit : buf = (buf.take k).takeWhile go ++ ((buf.take k).dropWhile go ++ buf.drop k) := by
    rw [← List.append_assoc, hblock, List.take_append_drop]
  generalize htw : (buf.take k).takeWhile go = passed at hsplit hblock ⊢
  constructor
  · intro c hc
    rw [hsplit, List.take_left] at hc
    exact List.mem_takeWhile_imp (htw ▸ hc)
  · intro hne
    have hhead := List.head?_dropWhile_not go (buf.take k)
    cases hd : (buf.take k).dropWhile go with
    | nil =>
      rw [hd, List.append_nil] at hblock
      rw [hblock] at hne
      exact absurd hlength hne
    | cons c rest =>
      rw [hd] at hhead
      refine ⟨c, rest ++ buf.drop k, ?_, by simpa using hhead⟩
      conv_lhs => rw [hsplit, hd]
      rw [List.drop_left]
      rfl

private theorem passes_findBlocks (ranges : Ranges) {blocks : ℕ} {buf : Fbstring}
    (h : 16 * blocks ≤ buf.length) :
    Passes (fun c => inRanges ranges c = false) buf (findBlocks ranges blocks buf).1
      (findBlocks ranges blocks buf).2 := by
  induction blocks generalizing buf with
  | zero => exact .zero _ buf
  | succ blocks ih =>
    have hk : 16 ≤ buf.length := by omega
    obtain ⟨hpassed, hstop⟩ := passes_block (fun c => !inRanges ranges c) hk
    simp only [findBlocks]
    by_cases hr : cmpestri ranges (buf.take 16) = 16
    · rw [if_neg (not_not.mpr hr)]
      refine Passes.add ?_ (ih ?_)
      · intro c hc
        rw [← hr] at hc
        simpa using hpassed c hc
      · rw [List.length_drop]
        omega
    · rw [if_pos hr]
      constructor
      · intro c hc
        simpa using hpassed c hc
      · intro _
        obtain ⟨c, rest, hrest, hc⟩ := hstop hr
        exact ⟨c, rest, hrest, by simpa using hc⟩

theorem passes_findcharFast (build : Build) (ranges : Ranges) (buf : Fbstring) :
    Passes (fun c => inRanges ranges c = false) buf (findcharFast build ranges buf).1
      (findcharFast build ranges buf).2 := by
  cases build with
  | sse42 => exact passes_findBlocks ranges (Nat.mul_div_le _ _)
  | portable => exact .zero _ buf

/-- A scan that passes at least what a fast pass does is the scan alone. -/
theorem scanToken_eq_scan (build : Build) {ranges : Ranges} {classify : UInt8 → Verdict}
    (h : ∀ c, inRanges ranges c = false → classify c = .go) :
    scanToken build ranges classify = scan classify := by
  funext buf
  have hpass := passes_findcharFast build ranges buf
  simp only [scanToken]
  generalize findcharFast build ranges buf = r at hpass ⊢
  obtain ⟨n, found⟩ := r
  have hscan := scan_append (fun c hc => h c (hpass.passed c hc)) (buf.drop n)
  rw [List.take_append_drop] at hscan
  rw [hscan]
  cases hrest : buf.drop n with
  | nil =>
    cases found with
    | true =>
      obtain ⟨c, rest, hc, -⟩ := hpass.found rfl
      rw [hrest] at hc
      cases hc
    | false => rfl
  | cons c rest =>
    have hstart : checkEofUnless found (c :: rest) = .done () (c :: rest) := by
      cases found <;> rfl
    have hcurrent : current (c :: rest) = .done c (c :: rest) := rfl
    rw [bind_of_done hstart, bind_of_done hcurrent]
    exact bind_pure_apply (scan classify) _ (c :: rest)

theorem forall_byte {P : UInt8 → Prop} (h : ∀ n : Fin 256, P (UInt8.ofFin n)) (c : UInt8) :
    P c := by
  simpa using h c.toFin

/-- What the ranges of `parse_token` leave out are token characters, and no delimiters. -/
theorem isTokenChar_of_not_inRanges : ∀ c : UInt8, inRanges tokenRanges c = false →
    isTokenChar c = true ∧ c ≠ sp ∧ c ≠ colon :=
  forall_byte (by decide +kernel)

private theorem pathVerdict_of_not_inRanges :
    ∀ c : UInt8, inRanges pathRanges c = false → pathVerdict c = .go :=
  forall_byte (by decide +kernel)

theorem eolVerdict_iff : ∀ c : UInt8, (eolVerdict c = .go ↔ inRanges eolRanges c = false) ∧
    (eolVerdict c = .stop ↔ inRanges eolRanges c = true) :=
  forall_byte (by decide +kernel)

private theorem eolVerdict_of_printable :
    ∀ c : UInt8, (isPrintableAscii c = true ∨ isCtl c = false → eolVerdict c = .go) ∧
    (isPrintableAscii c = false → isCtl c = true → eolVerdict c = .stop) :=
  forall_byte (by decide +kernel)

theorem parseToken_eq_scan (build : Build) {nextChar : UInt8}
    (h : nextChar = sp ∨ nextChar = colon) :
    parseToken build nextChar = scan (tokenVerdict nextChar) := by
  apply scanToken_eq_scan
  intro c hc
  obtain ⟨htoken, hsp, hcolon⟩ := isTokenChar_of_not_inRanges c hc
  have hne : c ≠ nextChar := by
    rcases h with rfl | rfl
    · exact hsp
    · exact hcolon
  simp only [tokenVerdict, if_neg hne, htoken, if_true]

theorem advanceToken_eq_scan (build : Build) : advanceToken build = scan pathVerdict :=
  scanToken_eq_scan build pathVerdict_of_not_inRanges

private theorem passes_skipPrintable (rounds : ℕ) (buf : Fbstring) :
    Passes (fun c => eolVerdict c = .go) buf (skipPrintable rounds buf).1
      (skipPrintable rounds buf).2 := by
  induction rounds generalizing buf with
  | zero => exact .zero _ buf
  | succ rounds ih =>
    simp only [skipPrintable]
    split
    · exact .zero _ buf
    · next hlength =>
      obtain ⟨hpassed, hstop⟩ := passes_block isPrintableAscii (Nat.le_of_not_lt hlength)
      generalize ((buf.take 8).takeWhile isPrintableAscii).length = i at hpassed hstop ⊢
      have hgo : ∀ c ∈ buf.take i, eolVerdict c = .go :=
        fun c hc => (eolVerdict_of_printable c).1 (.inl (hpassed c hc))
      split
      · next hi =>
        subst hi
        exact Passes.add hgo (ih _)
      · next hi =>
        obtain ⟨c, rest, hrest, hc⟩ := hstop hi
        have hget : buf.getD i 0 = c := by
          rw [List.getD_eq_getElem?_getD, ← List.head?_drop, hrest]
          rfl
        rw [hget]
        split
        · next hctl =>
          refine ⟨hgo, fun _ => ⟨c, rest, hrest, ?_⟩⟩
          rw [(eolVerdict_of_printable c).2 hc hctl]
          simp
        · next hctl =>
          refine Passes.add ?_ (ih _)
          intro d hd
          rw [List.take_add_one, List.mem_append] at hd
          rcases hd with hd | hd
          · exact hgo d hd
          · have hdc : d = c := by
              rw [← List.head?_drop, hrest] at hd
              simpa using hd
            exact (eolVerdict_of_printable d).1 (.inr (by simpa [hdc] using hctl))

private theorem passes_passLine (build : Build) (buf : Fbstring) :
    Passes (fun c => eolVerdict c = .go) buf (passLine build buf).1 (passLine build buf).2 := by
  cases build with
  | sse42 =>
    have h := passes_findcharFast .sse42 eolRanges buf
    constructor
    · intro c hc
      exact (eolVerdict_iff c).1.mpr (h.passed c hc)
    · intro hf
      obtain ⟨c, rest, hrest, hc⟩ := h.found hf
      exact ⟨c, rest, hrest, fun hgo => hc ((eolVerdict_iff c).1.mp hgo)⟩
  | portable => exact passes_skipPrintable buf.length buf

/-- In both builds the line is scanned for its first control character. -/
theorem getTokenToEol_eq_scan (build : Build) :
    getTokenToEol build = scan eolVerdict >>= foundCtl := by
  funext buf
  have hpass := passes_passLine build buf
  simp only [getTokenToEol]
  generalize passLine build buf = r at hpass ⊢
  obtain ⟨n, found⟩ := r
  have hscan : scan eolVerdict buf = (scan eolVerdict (buf.drop n)).map (buf.take n ++ ·) := by
    rw [← scan_append hpass.passed, List.take_append_drop]
  have hunless : scanUnless found (buf.drop n) = scan eolVerdict (buf.drop n) := by
    cases found with
    | false => rfl
    | true =>
      obtain ⟨c, rest, hrest, hc⟩ := hpass.found rfl
      have hstop : eolVerdict c = .stop := by
        cases hin : inRanges eolRanges c with
        | true => exact (eolVerdict_iff c).2.mpr hin
        | false => exact absurd ((eolVerdict_iff c).1.mpr hin) hc
      rw [hrest, scan, hstop]
      rfl
  rw [bind_apply, bind_apply, hunless, hscan]
  cases scan eolVerdict (buf.drop n) <;> rfl

end HCache.CppPicoTokens
