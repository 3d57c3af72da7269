import HCache.CppPicoGrammar

/-!
# The verdicts of picohttpparser

`phr_parse_request` never reads past the end of the buffer and stays with an answer and a
rejection whatever else arrives. Its check against slow clients, which looks for two line
ends in a row from where the previous call has ended, rejects no request.
-/
namespace HCache.CppPicoVerdicts
open IncrementalParsers IncrementalParsers.Reader CppSingleThreadStorage CppPicoTokens
  CppPicoRequests CppPicoGrammar

variable {build : Build} {xs : Fbstring}

theorem current_ne_overread (h : xs ≠ []) : current xs ≠ .overread := by
  cases xs with
  | nil => exact absurd rfl h
  | cons c xs => simp [current]

theorem advance_ne_overread (h : xs ≠ []) : advance xs ≠ .overread := by
  cases xs with
  | nil => exact absurd rfl h
  | cons c xs => simp [advance]

theorem checkEof_ne_overread (xs : Fbstring) : checkEof xs ≠ .overread := by
  cases xs <;> simp [checkEof]

theorem expectCharNoCheck_ne_overread {ch : UInt8} (h : xs ≠ []) :
    expectCharNoCheck ch xs ≠ .overread := by
  refine bind_ne_overread (current_ne_overread h) fun c mid hc => ?_
  obtain ⟨rfl, -⟩ := current_eq_done.mp hc
  refine bind_ne_overread (advance_ne_overread h) fun _ rest _ => ?_
  split <;> simp [fail]

theorem expectChar_ne_overread (ch : UInt8) (xs : Fbstring) : expectChar ch xs ≠ .overread := by
  refine bind_ne_overread (checkEof_ne_overread xs) fun _ mid hc => ?_
  obtain ⟨rfl, hne⟩ := checkEof_eq_done.mp hc
  exact expectCharNoCheck_ne_overread hne

theorem expectEol_ne_overread (h : xs ≠ []) : expectEol xs ≠ .overread := by
  refine bind_ne_overread (current_ne_overread h) fun c mid hc => ?_
  obtain ⟨rfl, -⟩ := current_eq_done.mp hc
  split
  · exact bind_ne_overread (advance_ne_overread h) fun _ rest _ => expectChar_ne_overread lf rest
  · split
    · exact advance_ne_overread h
    · simp [fail]

private theorem skipEmptyLine_ne_overread (xs : Fbstring) : skipEmptyLine xs ≠ .overread := by
  refine bind_ne_overread (checkEof_ne_overread xs) fun _ mid hc => ?_
  obtain ⟨rfl, hne⟩ := checkEof_eq_done.mp hc
  refine bind_ne_overread (current_ne_overread hne) fun c mid hc => ?_
  obtain ⟨rfl, -⟩ := current_eq_done.mp hc
  split
  · exact bind_ne_overread (advance_ne_overread hne) fun _ rest _ => expectChar_ne_overread lf rest
  · split
    · exact advance_ne_overread hne
    · simp

private theorem skipSpaces_ne_overread (h : xs ≠ []) : skipSpaces xs ≠ .overread :=
  bind_ne_overread (advance_ne_overread h) fun _ mid _ =>
    bind_ne_overread (scan_ne_overread _ mid) fun _ _ _ => by simp

private theorem parseInt_ne_overread (h : xs ≠ []) : parseInt xs ≠ .overread := by
  refine bind_ne_overread (current_ne_overread h) fun c mid hc => ?_
  obtain ⟨rfl, -⟩ := current_eq_done.mp hc
  refine bind_ne_overread (advance_ne_overread h) fun _ rest _ => ?_
  split <;> simp [fail]

private theorem parseHttpVersion_ne_overread (xs : Fbstring) : parseHttpVersion xs ≠ .overread := by
  have hnext : ∀ {k : ℕ} {ch : UInt8} {f : Unit → Reader UInt8 ℕ} {xs : Fbstring}, k < xs.length →
      (∀ rest, k ≤ rest.length → f () rest ≠ .overread) →
      (expectCharNoCheck ch >>= f) xs ≠ .overread := by
    intro k ch f xs hk hf
    refine bind_ne_overread (expectCharNoCheck_ne_overread (List.length_pos_iff.mp (by omega)))
      fun _ rest hrest => ?_
    rw [expectCharNoCheck_eq_done.mp hrest, List.length_cons] at hk
    exact hf rest (by omega)
  unfold parseHttpVersion needs
  split
  · simp
  · next h =>
    refine hnext (k := 8) (by omega) fun xs h => hnext (k := 7) h fun xs h =>
      hnext (k := 6) h fun xs h => hnext (k := 5) h fun xs h =>
      hnext (k := 4) h fun xs h => hnext (k := 3) h fun xs h =>
      hnext (k := 2) h fun xs h => parseInt_ne_overread (List.length_pos_iff.mp (by omega))

private theorem getTokenToEol_ne_overread (xs : Fbstring) : getTokenToEol build xs ≠ .overread := by
  rw [getTokenToEol_eq_scan]
  refine bind_ne_overread (scan_ne_overread _ xs) fun token mid hscan => ?_
  obtain ⟨-, -, c, tail, rfl, -⟩ := scan_eq_done.mp hscan
  exact bind_ne_overread (expectEol_ne_overread (by simp)) fun _ _ _ => by simp

private theorem parseHeaderName_ne_overread (xs : Fbstring) :
    parseHeaderName build xs ≠ .overread := by
  rw [parseHeaderName_eq]
  refine bind_ne_overread (scan_ne_overread _ xs) fun token mid hscan => ?_
  obtain ⟨-, -, c, tail, rfl, -⟩ := scan_eq_done.mp hscan
  split
  · simp [fail]
  · exact bind_ne_overread (advance_ne_overread (by simp)) fun _ rest _ =>
      bind_ne_overread (scan_ne_overread _ rest) fun _ _ _ => by simp

private theorem parseHeader_ne_overread {first : Bool} (h : xs ≠ []) :
    parseHeader build first xs ≠ .overread := by
  refine bind_ne_overread ?_ fun _ mid _ =>
    bind_ne_overread (getTokenToEol_ne_overread mid) fun _ _ _ => by simp
  refine bind_ne_overread (current_ne_overread h) fun c mid _ => ?_
  split
  · exact parseHeaderName_ne_overread mid
  · simp

private theorem emptyLineOr_ne_overread {headers : List PhrHeader}
    {round : Reader UInt8 (List PhrHeader)} (h : xs ≠ [] → round xs ≠ .overread) :
    emptyLineOr headers round xs ≠ .overread := by
  refine bind_ne_overread (checkEof_ne_overread xs) fun _ mid hc => ?_
  obtain ⟨rfl, hne⟩ := checkEof_eq_done.mp hc
  refine bind_ne_overread (current_ne_overread hne) fun c mid hc => ?_
  obtain ⟨rfl, -⟩ := current_eq_done.mp hc
  split
  · exact bind_ne_overread (advance_ne_overread hne) fun _ rest _ =>
      bind_ne_overread (expectChar_ne_overread lf rest) fun _ _ _ => by simp
  · split
    · exact bind_ne_overread (advance_ne_overread hne) fun _ _ _ => by simp
    · exact h hne

private theorem parseHeaders_ne_overread (room : ℕ) (headers : List PhrHeader) (xs : Fbstring) :
    parseHeaders build room headers xs ≠ .overread := by
  induction room generalizing headers xs with
  | zero => exact emptyLineOr_ne_overread fun _ => by simp [fail]
  | succ room ih =>
    exact emptyLineOr_ne_overread fun hne =>
      bind_ne_overread (parseHeader_ne_overread hne) fun _ mid _ => ih _ mid

theorem parseRequest_ne_overread (maxHeaders : ℕ) (xs : Fbstring) :
    parseRequest build maxHeaders xs ≠ .overread := by
  refine bind_ne_overread (skipEmptyLine_ne_overread xs) fun _ s₁ _ => ?_
  rw [parseToken_eq_scan build (.inl rfl), advanceToken_eq_scan]
  refine bind_ne_overread (scan_ne_overread _ s₁) fun method s₂ hmethod => ?_
  obtain ⟨-, -, c, tail, rfl, -⟩ := scan_eq_done.mp hmethod
  refine bind_ne_overread (skipSpaces_ne_overread (by simp)) fun _ s₃ _ => ?_
  refine bind_ne_overread (scan_ne_overread _ s₃) fun path s₄ hpath => ?_
  obtain ⟨-, -, d, tail', rfl, -⟩ := scan_eq_done.mp hpath
  refine bind_ne_overread (skipSpaces_ne_overread (by simp)) fun _ s₅ _ => ?_
  split
  · simp [fail]
  · refine bind_ne_overread (parseHttpVersion_ne_overread s₅) fun minor s₆ hversion => ?_
    obtain ⟨-, -, -, hne, -⟩ := parseHttpVersion_eq_done.mp hversion
    refine bind_ne_overread (expectEol_ne_overread hne) fun _ s₇ _ => ?_
    exact bind_ne_overread (parseHeaders_ne_overread maxHeaders [] s₇) fun _ _ _ => by simp

inductive Clean : Fbstring → Prop where
  | nil : Clean []
  | crlf {text} (h : Clean text) : Clean (cr :: lf :: text)
  | byte {c text} (hc : c ≠ cr) (h : Clean text) : Clean (c :: text)

theorem clean_of_not_mem {text : Fbstring} (h : cr ∉ text) : Clean text := by
  induction text with
  | nil => exact .nil
  | cons c text ih =>
    simp only [List.mem_cons, not_or] at h
    exact .byte (Ne.symm h.1) (ih h.2)

theorem Clean.append {a b : Fbstring} (ha : Clean a) (hb : Clean b) : Clean (a ++ b) := by
  induction ha with
  | nil => exact hb
  | crlf _ ih => exact .crlf ih
  | byte hc _ ih => exact .byte hc ih

theorem Clean.drop {text : Fbstring} (h : Clean text) (n : ℕ) : Clean (text.drop n) := by
  induction h generalizing n with
  | nil => simpa using Clean.nil
  | @crlf text h ih =>
    match n with
    | 0 => exact .crlf h
    | 1 => exact .byte (by decide) h
    | n + 2 => exact ih n
  | byte hc h ih =>
    match n with
    | 0 => exact .byte hc h
    | n + 1 => exact ih n

theorem clean_eol {eol : Fbstring} (h : IsEol eol) : Clean eol := by
  rcases h with rfl | rfl
  · exact .crlf .nil
  · exact .byte (by decide) .nil

theorem isCompleteLoop_crlf (retCnt : ℕ) (rest : Fbstring) :
    isCompleteLoop retCnt (cr :: lf :: rest) =
    if retCnt + 1 = 2 then .done () rest else isCompleteLoop (retCnt + 1) rest := rfl

theorem isCompleteLoop_byte (retCnt : ℕ) {c : UInt8} (hc : c ≠ cr) (rest : Fbstring) :
    isCompleteLoop retCnt (c :: rest) = if c = lf then
      if retCnt + 1 = 2 then .done () rest else isCompleteLoop (retCnt + 1) rest
    else isCompleteLoop 0 rest := by
  rw [isCompleteLoop.eq_def]
  simp only [if_neg hc]

private theorem isCompleteLoop_eol {eol : Fbstring} (h : IsEol eol) (retCnt : ℕ) (rest : Fbstring) :
    isCompleteLoop retCnt (eol ++ rest) =
      if retCnt + 1 = 2 then .done () rest else isCompleteLoop (retCnt + 1) rest := by
  rcases h with rfl | rfl
  · rfl
  · exact isCompleteLoop_byte retCnt (by decide) rest

private theorem isCompleteLoop_eq_done {front eol eol' : Fbstring} (h : Clean front)
    (heol : IsEol eol) (heol' : IsEol eol') (rest : Fbstring) {retCnt : ℕ} (hcnt : retCnt ≤ 1) :
    ∃ rest', isCompleteLoop retCnt (front ++ (eol ++ (eol' ++ rest))) = .done () rest' := by
  induction h generalizing retCnt with
  | nil =>
    rw [List.nil_append, isCompleteLoop_eol heol, isCompleteLoop_eol heol']
    obtain rfl | rfl : retCnt = 0 ∨ retCnt = 1 := by omega
    · exact ⟨_, rfl⟩
    · exact ⟨_, rfl⟩
  | @crlf text _ ih =>
    rw [List.cons_append, List.cons_append, isCompleteLoop_crlf]
    split
    · exact ⟨_, rfl⟩
    · exact ih (by omega)
  | @byte c text hc _ ih =>
    rw [List.cons_append, isCompleteLoop_byte retCnt hc]
    split
    · split
      · exact ⟨_, rfl⟩
      · exact ih (by omega)
    · exact ih (Nat.zero_le 1)

private theorem clean_headerLine {first : Bool} {text : Fbstring} {header : PhrHeader}
    (h : HeaderLine first text header) :
    ∃ line eol, text = line ++ eol ∧ Clean line ∧ IsEol eol := by
  have hcr : ∀ {c : UInt8}, (sp ≤ c ∨ c = ht) ∧ c ≠ 0o177 → c ≠ cr := by
    rintro c ⟨hc, -⟩ rfl
    exact absurd hc (by decide)
  cases h with
  | @named _ name blanks value eol hname hblanks hvalue _ heol =>
    refine ⟨name ++ colon :: (blanks ++ value), eol, by simp, clean_of_not_mem ?_, heol⟩
    simp only [List.mem_append, List.mem_cons, not_or]
    refine ⟨?_, by decide, ?_, ?_⟩
    · intro hmem
      exact absurd (isTokenChar_visible cr (hname.2 cr hmem)).1 (by decide)
    · intro hmem
      exact absurd (hblanks cr hmem) (by decide)
    · intro hmem
      exact hcr (hvalue cr hmem) rfl
  | @continued c value eol hblank hvalue heol =>
    refine ⟨c :: value, eol, by simp, clean_of_not_mem ?_, heol⟩
    simp only [List.mem_cons, not_or]
    refine ⟨?_, fun hmem => hcr (hvalue cr hmem) rfl⟩
    rintro rfl
    exact absurd hblank (by decide)

private theorem clean_headerBlock {first : Bool} {text : Fbstring} {headers : List PhrHeader}
    (h : HeaderBlock first text headers) :
    ∀ {eol : Fbstring}, IsEol eol → ∃ front eol₁ eol₂, eol ++ text = front ++ (eol₁ ++ eol₂) ∧
      Clean front ∧
      IsEol eol₁ ∧ IsEol eol₂ := by
  induction h with
  | @emptyLine _ eol' heol' =>
    intro eol heol
    exact ⟨[], eol, eol', rfl, .nil, heol, heol'⟩
  | @line _ _ header text' _ hline _ ih =>
    intro eol heol
    obtain ⟨line, eol', rfl, hclean, heol'⟩ := clean_headerLine hline
    obtain ⟨front, eol₁, eol₂, htext, hfront, h₁, h₂⟩ := ih heol'
    refine ⟨eol ++ (line ++ front), eol₁, eol₂, ?_, (clean_eol heol).append (hclean.append hfront),
      h₁, h₂⟩
    rw [List.append_assoc, htext]
    simp

private theorem clean_requestText {text : Fbstring} {request : PhrRequest}
    (h : RequestText text request) :
    ∃ front eol₁ eol₂, text = front ++ (eol₁ ++ eol₂) ∧ Clean front ∧ IsEol eol₁ ∧ IsEol eol₂ := by
  obtain ⟨hstart, hmethod, hgap, hpath, hgap', hdigit, heol, hblock⟩ := h
  rename_i start method gap path gap' digit eol block headers
  obtain ⟨front, eol₁, eol₂, htext, hfront, h₁, h₂⟩ := clean_headerBlock hblock heol
  have hline : Clean (method ++ (gap ++ (path ++ (gap' ++ (httpVersion ++ [digit]))))) := by
    refine clean_of_not_mem ?_
    simp only [List.mem_append, not_or, List.mem_singleton]
    refine ⟨fun hmem => ?_, fun hmem => ?_, fun hmem => ?_, fun hmem => ?_, by decide, ?_⟩
    · exact absurd (isTokenChar_visible cr (hmethod.2 cr hmem)).1 (by decide)
    · exact absurd (hgap.2 cr hmem) (by decide)
    · exact absurd (hpath.2 cr hmem).1 (by decide)
    · exact absurd (hgap'.2 cr hmem) (by decide)
    · rintro rfl
      exact absurd hdigit (by decide)
  have hstart' : Clean start := by
    rcases hstart with rfl | hstart
    · exact .nil
    · exact clean_eol hstart
  refine ⟨start ++ ((method ++ (gap ++ (path ++ (gap' ++ (httpVersion ++ [digit]))))) ++ front),
    eol₁, eol₂, ?_, hstart'.append (hline.append hfront), h₁, h₂⟩
  simp only [List.append_assoc, ← htext]
  simp

/-- On an accepted text of which less was there before, the check comes to the end. -/
theorem isComplete_of_text {text rest : Fbstring} {request : PhrRequest}
    (h : RequestText text request) {lastLen : ℕ} (hlast : lastLen < text.length) :
    ∃ rest', isComplete lastLen (text ++ rest) = .done () rest' := by
  obtain ⟨front, eol₁, eol₂, rfl, hfront, h₁, h₂⟩ := clean_requestText h
  have hlength : ∀ {eol : Fbstring}, IsEol eol → eol.length ≤ 2 := by
    rintro eol (rfl | rfl)
    · exact le_rfl
    · exact Nat.le_succ 1
  have hk : lastLen - 3 ≤ front.length := by
    have hl₁ := hlength h₁
    have hl₂ := hlength h₂
    simp only [List.length_append] at hlast
    omega
  have hdrop :
      (if lastLen < 3 then (front ++ (eol₁ ++ eol₂)) ++
        rest else ((front ++ (eol₁ ++ eol₂)) ++ rest).drop (lastLen - 3)) =
      front.drop (lastLen - 3) ++ (eol₁ ++ (eol₂ ++ rest)) := by
    split
    · next hshort =>
      have hzero : lastLen - 3 = 0 := by omega
      simp [hzero]
    · rw [List.append_assoc, List.append_assoc, List.drop_append_of_le_length hk]
  have hstart : ¬ ((front ++ (eol₁ ++ eol₂)) ++ rest).length + 3 < lastLen := by
    rw [List.length_append]
    omega
  rw [isComplete, if_neg hstart, hdrop]
  exact isCompleteLoop_eq_done (hfront.drop _) h₁ h₂ rest (Nat.zero_le 1)

theorem stable_isCompleteLoop (retCnt : ℕ) : Stable (isCompleteLoop retCnt) := by
  constructor
  · intro xs ys v rest h
    fun_induction isCompleteLoop retCnt xs with
    | case1 | case2 | case3 => cases h
    | case4 retCnt d tail hlf hcnt =>
      obtain rfl := not_not.mp hlf
      obtain ⟨rfl, rfl⟩ := Outcome.done.inj h
      rw [List.cons_append, List.cons_append, isCompleteLoop_crlf, if_pos hcnt]
    | case5 retCnt d tail hlf hcnt ih =>
      obtain rfl := not_not.mp hlf
      rw [List.cons_append, List.cons_append, isCompleteLoop_crlf, if_neg hcnt]
      exact ih h
    | case6 retCnt tail hcnt hcr =>
      obtain ⟨rfl, rfl⟩ := Outcome.done.inj h
      rw [List.cons_append, isCompleteLoop_byte retCnt hcr, if_pos rfl, if_pos hcnt]
    | case7 retCnt tail hcnt hcr ih =>
      rw [List.cons_append, isCompleteLoop_byte retCnt hcr, if_pos rfl, if_neg hcnt]
      exact ih h
    | case8 retCnt c tail hcr hlf ih =>
      rw [List.cons_append, isCompleteLoop_byte retCnt hcr, if_neg hlf]
      exact ih h
  · intro xs ys h
    fun_induction isCompleteLoop retCnt xs with
    | case1 | case2 | case4 | case6 => cases h
    | case3 retCnt d tail hlf =>
      rw [List.cons_append, List.cons_append, isCompleteLoop]
      simp only [if_true, if_pos hlf]
    | case5 retCnt d tail hlf hcnt ih =>
      obtain rfl := not_not.mp hlf
      rw [List.cons_append, List.cons_append, isCompleteLoop_crlf, if_neg hcnt]
      exact ih h
    | case7 retCnt tail hcnt hcr ih =>
      rw [List.cons_append, isCompleteLoop_byte retCnt hcr, if_pos rfl, if_neg hcnt]
      exact ih h
    | case8 retCnt c tail hcr hlf ih =>
      rw [List.cons_append, isCompleteLoop_byte retCnt hcr, if_neg hlf]
      exact ih h

private theorem isCompleteLoop_ne_overread (retCnt : ℕ) (xs : Fbstring) :
    isCompleteLoop retCnt xs ≠ .overread := by
  fun_induction isCompleteLoop retCnt xs <;> simp_all

/-- What was not checked before stays where it is when more arrives. -/
theorem isComplete_append {lastLen : ℕ} {buf : Fbstring} (h : lastLen ≤ buf.length)
    (more : Fbstring) :
    isComplete lastLen (buf ++ more) =
      isCompleteLoop 0 ((if lastLen < 3 then buf else buf.drop (lastLen - 3)) ++ more) := by
  have hstart : ¬ (buf ++ more).length + 3 < lastLen := by
    rw [List.length_append]
    omega
  rw [isComplete, if_neg hstart]
  split
  · rfl
  · rw [List.drop_append_of_le_length (by omega)]

variable {maxHeaders lastLen : ℕ} {buf rest : Fbstring} {request : PhrRequest}

/-- The check has not been asked for, or comes to its end. -/
def Checked (lastLen : ℕ) (buf : Fbstring) : Prop :=
  lastLen = 0 ∨ ∃ rest, isComplete lastLen buf = .done () rest

theorem phrParseRequest_of_checked (h : Checked lastLen buf) :
    phrParseRequest build maxHeaders lastLen buf = parseRequest build maxHeaders buf := by
  unfold phrParseRequest
  split
  · rfl
  · next hne =>
    obtain ⟨rest, hrest⟩ := h.resolve_left hne
    rw [hrest]

theorem phrParseRequest_eq_done :
    phrParseRequest build maxHeaders lastLen buf = .done request rest ↔
    Checked lastLen buf ∧ parseRequest build maxHeaders buf = .done request rest := by
  constructor
  · intro h
    have hchecked : Checked lastLen buf := by
      by_contra hnot
      obtain ⟨hne, hcomplete⟩ := not_or.mp hnot
      unfold phrParseRequest at h
      rw [if_neg hne] at h
      cases hc : isComplete lastLen buf with
      | done u rest => exact hcomplete ⟨rest, hc⟩
      | failed | incomplete | overread => rw [hc] at h; cases h
    rw [phrParseRequest_of_checked hchecked] at h
    exact ⟨hchecked, h⟩
  · rintro ⟨hchecked, h⟩
    rw [phrParseRequest_of_checked hchecked]
    exact h

private theorem phrParseRequest_eq_failed : phrParseRequest build maxHeaders lastLen buf = .failed ↔
    (lastLen ≠ 0 ∧ isComplete lastLen buf = .failed) ∨
      (Checked lastLen buf ∧ parseRequest build maxHeaders buf = .failed) := by
  by_cases hchecked : Checked lastLen buf
  · rw [phrParseRequest_of_checked hchecked]
    constructor
    · intro h
      exact .inr ⟨hchecked, h⟩
    · rintro (⟨hne, hfailed⟩ | ⟨-, h⟩)
      · obtain ⟨rest, hrest⟩ := hchecked.resolve_left hne
        rw [hrest] at hfailed
        cases hfailed
      · exact h
  · obtain ⟨hne, hcomplete⟩ := not_or.mp hchecked
    rw [phrParseRequest, if_neg hne]
    cases hc : isComplete lastLen buf with
    | done u rest => exact absurd ⟨rest, hc⟩ hcomplete
    | failed | incomplete | overread => simp [hchecked, hne]

private theorem phrParseRequest_ne_overread (hlast : lastLen ≤ buf.length) :
    phrParseRequest build maxHeaders lastLen buf ≠ .overread := by
  unfold phrParseRequest
  split
  · exact parseRequest_ne_overread maxHeaders buf
  · have hcomplete : isComplete lastLen buf ≠ .overread := by
      rw [isComplete, if_neg (by omega)]
      exact isCompleteLoop_ne_overread 0 _
    cases hc : isComplete lastLen buf with
    | done u rest => exact parseRequest_ne_overread maxHeaders buf
    | overread => exact absurd hc hcomplete
    | failed | incomplete => simp

theorem Checked.append (h : Checked lastLen buf) (hlast : lastLen ≤ buf.length) (more : Fbstring) :
    Checked lastLen (buf ++ more) := by
  rcases h with h | ⟨rest, hrest⟩
  · exact .inl h
  · refine .inr ⟨rest ++ more, ?_⟩
    rw [isComplete, if_neg (by omega)] at hrest
    rw [isComplete_append hlast]
    exact (stable_isCompleteLoop 0).done _ more () rest hrest

/-- The build with SSE4.2 and the portable one give the same verdict on every buffer. -/
theorem phrParseRequest_builds (maxHeaders lastLen : ℕ) (buf : Fbstring) :
    phrParseRequest .sse42 maxHeaders lastLen buf =
      phrParseRequest .portable maxHeaders lastLen buf := by
  simp only [phrParseRequest, parseRequest_eq_portable .sse42]

/-- A head is accepted exactly when the grammar derives it and it has no more headers than
there is room for. -/
theorem phrParseRequest_accepts_iff (build : Build) (maxHeaders : ℕ) (buf rest : Fbstring)
    (request : PhrRequest) :
    phrParseRequest build maxHeaders 0 buf = .done request rest ↔
      ∃ text, buf = text ++ rest ∧ RequestText text request ∧ request.headers.length ≤ maxHeaders :=
  parseRequest_eq_done

/-- No call reads past the end. A verdict stands when more arrives, and there is none before
the last byte of what is accepted. -/
theorem phrParseRequest_verdict_stands (build : Build) (maxHeaders lastLen : ℕ)
    (buf more : Fbstring) (hlast : lastLen ≤ buf.length) :
    phrParseRequest build maxHeaders lastLen buf ≠ .overread ∧
    (phrParseRequest build maxHeaders lastLen buf = .failed →
      phrParseRequest build maxHeaders lastLen (buf ++ more) = .failed) ∧
    ∀ request rest, phrParseRequest build maxHeaders lastLen buf = .done request rest →
      phrParseRequest build maxHeaders lastLen (buf ++ more) = .done request (rest ++ more) ∧
      ∀ n, n + rest.length < buf.length → phrParseRequest build maxHeaders 0 (buf.take n) =
        .incomplete := by
  have hstable := stable_parseRequest build maxHeaders
  refine ⟨phrParseRequest_ne_overread hlast, ?_, ?_⟩
  · intro h
    rcases phrParseRequest_eq_failed.mp h with ⟨hne, hfailed⟩ | ⟨hchecked, hfailed⟩
    · refine phrParseRequest_eq_failed.mpr (.inl ⟨hne, ?_⟩)
      rw [isComplete, if_neg (by omega)] at hfailed
      rw [isComplete_append hlast]
      exact (stable_isCompleteLoop 0).failed _ more hfailed
    · exact phrParseRequest_eq_failed.mpr
        (.inr ⟨hchecked.append hlast more, hstable.failed buf more hfailed⟩)
  · intro request rest h
    obtain ⟨hchecked, hdone⟩ := phrParseRequest_eq_done.mp h
    refine ⟨phrParseRequest_eq_done.mpr ⟨hchecked.append hlast more,
      hstable.done buf more request rest hdone⟩, ?_⟩
    intro n hn
    obtain ⟨text, rfl, -, -⟩ := parseRequest_eq_done.mp hdone
    rw [List.length_append] at hn
    have hpart : (text ++ rest).take n = text.take n := List.take_append_of_le_length (by omega)
    have hne : text.take n ≠ text := by
      intro he
      have hlength := congrArg List.length he
      rw [List.length_take] at hlength
      omega
    obtain ⟨hnotDone, hnotFailed⟩ := hstable.not_settled hdone (List.take_prefix n text) hne
    rw [hpart]
    cases hv : phrParseRequest build maxHeaders 0 (text.take n) with
    | done r s => exact absurd hv (hnotDone r s)
    | failed => exact absurd hv hnotFailed
    | overread => exact absurd hv (phrParseRequest_ne_overread (Nat.zero_le _))
    | incomplete => rfl

/-- `GET / HTTP/1.1` and the empty line. -/
def getRoot : Fbstring :=
  [0x47, 0x45, 0x54, 0x20, 0x2f, 0x20, 0x48, 0x54, 0x54, 0x50, 0x2f, 0x31, 0x2e, 0x31, 0x0d,
    0x0a, 0x0d, 0x0a]

theorem phrParseRequest_getRoot :
    phrParseRequest .portable 0 0 getRoot = .done ⟨[0x47, 0x45, 0x54], [0x2f], 1, []⟩ [] := by
  decide

theorem phrParseRequest_verdict_stands_getRoot :
    phrParseRequest .portable 0 0 (getRoot ++ [0x47]) =
      .done ⟨[0x47, 0x45, 0x54], [0x2f], 1, []⟩ [0x47] ∧
      phrParseRequest .portable 0 0 (getRoot.take 17) = .incomplete := by
  obtain ⟨-, -, hstands⟩ :=
    phrParseRequest_verdict_stands .portable 0 0 getRoot [0x47] (Nat.zero_le _)
  obtain ⟨hmore, hbefore⟩ := hstands _ _ phrParseRequest_getRoot
  exact ⟨hmore, hbefore 17 (by decide)⟩

/-- The check from a length at which the head was not yet accepted accepts what the call
without it does. -/
theorem phrParseRequest_lastLen_iff (build : Build) (maxHeaders lastLen : ℕ) (buf rest : Fbstring)
    (request : PhrRequest)
    (hlast : ∀ request rest, phrParseRequest build maxHeaders 0 (buf.take lastLen) ≠
    .done request rest) :
    phrParseRequest build maxHeaders lastLen buf = .done request rest ↔
      phrParseRequest build maxHeaders 0 buf = .done request rest := by
  rw [phrParseRequest_eq_done]
  constructor
  · exact And.right
  · intro h
    refine ⟨?_, h⟩
    obtain ⟨text, rfl, htext, hroom⟩ := parseRequest_eq_done.mp h
    have hlt : lastLen < text.length := by
      by_contra hle
      have htake : (text ++ rest).take lastLen = text ++ rest.take (lastLen - text.length) := by
        rw [List.take_append, List.take_of_length_le (not_lt.mp hle)]
      rw [htake] at hlast
      exact hlast request _ (parseRequest_eq_done.mpr ⟨text, rfl, htext, hroom⟩)
    exact .inr (isComplete_of_text htext hlt)

theorem phrParseRequest_lastLen_iff_getRoot :
    phrParseRequest .portable 0 17 getRoot = .done ⟨[0x47, 0x45, 0x54], [0x2f], 1, []⟩ [] := by
  have hbefore : phrParseRequest .portable 0 0 (getRoot.take 17) = .incomplete := by decide
  exact (phrParseRequest_lastLen_iff .portable 0 17 getRoot [] _ (by simp [hbefore])).mpr
    phrParseRequest_getRoot

end HCache.CppPicoVerdicts
