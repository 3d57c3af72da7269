import HCache.CppPicoRequests

/-!
# The request heads that picohttpparser accepts

The heads as a grammar: an optional empty line, the request line, header lines of which the
later ones may continue the one before, and an empty line. `parse_request` accepts exactly
what the grammar derives, up to the limit on the number of headers.
-/
namespace HCache.CppPicoGrammar
open IncrementalParsers IncrementalParsers.Reader CppSingleThreadStorage CppPicoTokens
  CppPicoRequests

def tokenSymbols : Fbstring :=
  [0x21, 0x23, 0x24, 0x25, 0x26, 0x27, 0x2a, 0x2b, 0x2d, 0x2e, 0x5e, 0x5f, 0x60, 0x7c, 0x7e]

/-- A digit, a letter, or one of fifteen other characters. -/
def IsTokenChar (c : UInt8) : Prop :=
  (0x30 ≤ c ∧ c ≤ 0x39) ∨ (0x41 ≤ c ∧ c ≤ 0x5a) ∨ (0x61 ≤ c ∧ c ≤ 0x7a) ∨ c ∈ tokenSymbols

instance (c : UInt8) : Decidable (IsTokenChar c) := by
  unfold IsTokenChar
  infer_instance

def IsToken (text : Fbstring) : Prop := text ≠ [] ∧ ∀ c ∈ text, IsTokenChar c

def IsEol (text : Fbstring) : Prop := text = [cr, lf] ∨ text = [lf]

def IsGap (text : Fbstring) : Prop := text ≠ [] ∧ ∀ c ∈ text, c = sp

def IsPath (text : Fbstring) : Prop := text ≠ [] ∧ ∀ c ∈ text, sp < c ∧ c ≠ 0o177

def IsLine (text : Fbstring) : Prop := ∀ c ∈ text, (sp ≤ c ∨ c = ht) ∧ c ≠ 0o177

def Blanks (text : Fbstring) : Prop := ∀ c ∈ text, isBlank c = true

/-- A header in one line. Only a line with a name may be the first; the value of a continuing
line begins with the blanks in front of it. -/
inductive HeaderLine : Bool → Fbstring → PhrHeader → Prop where
  | named {first name blanks value eol} (hname : IsToken name) (hblanks : Blanks blanks)
      (hvalue : IsLine value)
      (hhead : ∀ c ∈ value.head?, isBlank c = false) (heol : IsEol eol) :
      HeaderLine first (name ++ colon :: (blanks ++ (value ++ eol))) ⟨some name,
      value.rdropWhile isBlank⟩
  | continued {c value eol} (hblank : isBlank c = true) (hvalue : IsLine value) (heol : IsEol eol) :
      HeaderLine false (c :: (value ++ eol)) ⟨none, (c :: value).rdropWhile isBlank⟩

inductive HeaderBlock : Bool → Fbstring → List PhrHeader → Prop where
  | emptyLine {first eol} (heol : IsEol eol) : HeaderBlock first eol []
  | line {first text header text' headers} (hline : HeaderLine first text header)
      (hrest : HeaderBlock false text' headers) : HeaderBlock first
        (text ++ text') (header :: headers)

def httpVersion : Fbstring := [0x48, 0x54, 0x54, 0x50, 0x2f, 0x31, 0x2e]

inductive RequestText : Fbstring → PhrRequest → Prop where
  | intro {start method gap path gap' digit eol block headers} (hstart : start = [] ∨ IsEol start)
      (hmethod : IsToken method) (hgap : IsGap gap) (hpath : IsPath path) (hgap' : IsGap gap')
      (hdigit : isDigit digit = true) (heol : IsEol eol) (hblock : HeaderBlock true block headers) :
      RequestText
        (start ++ (method ++ (gap ++ (path ++ (gap' ++ (httpVersion ++ digit :: (eol ++ block)))))))
        ⟨method, path, digit.toNat - 0x30, headers⟩

private theorem isTokenChar_iff : ∀ c : UInt8, isTokenChar c = true ↔ IsTokenChar c :=
  forall_byte (by decide +kernel)

theorem isTokenChar_visible : ∀ c : UInt8, IsTokenChar c → sp < c ∧ c ≠ colon ∧ c ≠ 0o177 :=
  forall_byte (by decide +kernel)

private theorem pathVerdict_go_iff : ∀ c : UInt8, pathVerdict c = .go ↔ sp < c ∧ c ≠ 0o177 :=
  forall_byte (by decide +kernel)

private theorem pathVerdict_stop_iff : ∀ c : UInt8, pathVerdict c = .stop ↔ c = sp :=
  forall_byte (by decide +kernel)

private theorem eolVerdict_go_iff :
    ∀ c : UInt8, eolVerdict c = .go ↔ (sp ≤ c ∨ c = ht) ∧ c ≠ 0o177 :=
  forall_byte (by decide +kernel)

private theorem isBlank_line :
    ∀ c : UInt8, isBlank c = true → ((sp ≤ c ∨ c = ht) ∧ c ≠ 0o177) ∧ ¬IsTokenChar c :=
  forall_byte (by decide +kernel)

theorem tokenVerdict_go_iff {nextChar c : UInt8} (h : nextChar = sp ∨ nextChar = colon) :
    tokenVerdict nextChar c = .go ↔ IsTokenChar c := by
  have hvisible := isTokenChar_visible c
  rw [← isTokenChar_iff] at hvisible ⊢
  unfold tokenVerdict
  split
  · next heq =>
    simp only [reduceCtorEq, false_iff]
    intro htoken
    obtain ⟨hsp, hcolon, -⟩ := hvisible htoken
    rcases h with rfl | rfl
    · rw [heq] at hsp
      exact absurd hsp (by decide)
    · exact hcolon heq
  · next hne => cases isTokenChar c <;> simp

theorem tokenVerdict_stop_iff {nextChar c : UInt8} :
    tokenVerdict nextChar c = .stop ↔ c = nextChar := by
  unfold tokenVerdict
  split
  · next heq => simp [heq]
  · next hne => cases isTokenChar c <;> simp [hne]

variable {build : Build} {xs rest : Fbstring} {u : Unit}

theorem expectCharNoCheck_eq_done {ch : UInt8} :
    expectCharNoCheck ch xs = .done u rest ↔ xs = ch :: rest := by
  cases xs with
  | nil => simp [expectCharNoCheck, bind_apply, current]
  | cons c xs =>
    simp only [expectCharNoCheck, bind_apply, current, advance, List.cons.injEq]
    split
    · next heq => simp [heq]
    · next hne => simp [fail, hne]

theorem expectChar_eq_done {ch : UInt8} : expectChar ch xs = .done u rest ↔ xs = ch :: rest := by
  cases xs with
  | nil => simp [expectChar, bind_apply, checkEof]
  | cons c xs =>
    rw [expectChar, bind_of_done (rfl : checkEof (c :: xs) = .done () (c :: xs))]
    exact expectCharNoCheck_eq_done

theorem isEol_head {eol : Fbstring} (h : IsEol eol) :
    ∃ c tail, eol = c :: tail ∧ (c = cr ∨ c = lf) := by
  rcases h with rfl | rfl
  · exact ⟨cr, [lf], rfl, .inl rfl⟩
  · exact ⟨lf, [], rfl, .inr rfl⟩

theorem expectEol_eq_done : expectEol xs = .done u rest ↔ ∃ eol, IsEol eol ∧ xs = eol ++ rest := by
  constructor
  · intro h
    obtain ⟨c, mid, hcurrent, hc⟩ := bind_eq_done.mp h
    obtain ⟨rfl, tail, rfl⟩ := current_eq_done.mp hcurrent
    split at hc
    · next hcr =>
      obtain ⟨_, mid, hadvance, hlf⟩ := bind_eq_done.mp hc
      obtain ⟨x, hx⟩ := advance_eq_done.mp hadvance
      obtain ⟨rfl, rfl⟩ := List.cons.inj hx
      exact ⟨[cr, lf], .inl rfl, by rw [hcr, expectChar_eq_done.mp hlf]; rfl⟩
    · split at hc
      · next hlf =>
        obtain ⟨x, hx⟩ := advance_eq_done.mp hc
        obtain ⟨rfl, rfl⟩ := List.cons.inj hx
        exact ⟨[lf], .inr rfl, by rw [hlf]; rfl⟩
      · cases hc
  · rintro ⟨eol, rfl | rfl, rfl⟩
    · rfl
    · rfl

private theorem skipEmptyLine_eq_done : skipEmptyLine xs = .done u rest ↔
    (∃ start, IsEol start ∧ xs = start ++ rest) ∨
    (xs = rest ∧ ∃ c tail, rest = c :: tail ∧ c ≠ cr ∧ c ≠ lf) := by
  constructor
  · intro h
    obtain ⟨_, mid, heof, hnext⟩ := bind_eq_done.mp h
    obtain ⟨rfl, -⟩ := checkEof_eq_done.mp heof
    obtain ⟨c, mid, hcurrent, hc⟩ := bind_eq_done.mp hnext
    obtain ⟨rfl, tail, rfl⟩ := current_eq_done.mp hcurrent
    by_cases hend : c = cr ∨ c = lf
    · left
      refine (expectEol_eq_done (u := u)).mp ?_
      rcases hend with rfl | rfl
      · exact hc
      · exact hc
    · obtain ⟨hcr, hlf⟩ := not_or.mp hend
      rw [if_neg hcr, if_neg hlf] at hc
      obtain ⟨-, rfl⟩ := Outcome.done.inj hc
      exact .inr ⟨rfl, c, tail, rfl, hcr, hlf⟩
  · rintro (⟨start, rfl | rfl, rfl⟩ | ⟨rfl, c, tail, rfl, hcr, hlf⟩)
    · rfl
    · rfl
    · simp only [skipEmptyLine, bind_apply, checkEof, current, if_neg hcr, if_neg hlf, pure_apply]

private theorem skipSpaces_eq_done : skipSpaces xs = .done u rest ↔
    ∃ c gap, xs = c :: (gap ++ rest) ∧ (∀ x ∈ gap, x = sp) ∧ ∃ d tail, rest = d :: tail ∧
      d ≠ sp := by
  have hgo : ∀ x : UInt8, (if x = sp then Verdict.go else .stop) = .go ↔ x = sp :=
    fun x => by split <;> simp_all
  have hstop : ∀ x : UInt8, (if x = sp then Verdict.go else .stop) = .stop ↔ x ≠ sp :=
    fun x => by split <;> simp_all
  constructor
  · intro h
    obtain ⟨_, mid, hadvance, hnext⟩ := bind_eq_done.mp h
    obtain ⟨c, rfl⟩ := advance_eq_done.mp hadvance
    obtain ⟨gap, mid', hscan, hend⟩ := bind_eq_done.mp hnext
    obtain ⟨-, rfl⟩ := Outcome.done.inj hend
    obtain ⟨rfl, hgap, d, tail, rfl, hd⟩ := scan_eq_done.mp hscan
    exact ⟨c, gap, rfl, fun x hx => (hgo x).mp (hgap x hx), d, tail, rfl, (hstop d).mp hd⟩
  · rintro ⟨c, gap, rfl, hgap, d, tail, rfl, hd⟩
    refine bind_eq_done.mpr ⟨⟨⟩, gap ++ d :: tail, rfl, bind_eq_done.mpr ⟨gap, d :: tail, ?_, rfl⟩⟩
    exact scan_eq_done.mpr ⟨rfl, fun x hx => (hgo x).mpr (hgap x hx), d, tail, rfl,
      (hstop d).mpr hd⟩

private theorem parseInt_eq_done {n : ℕ} : parseInt xs = .done n rest ↔
    ∃ digit, xs = digit :: rest ∧ isDigit digit = true ∧ n = digit.toNat - 0x30 := by
  cases xs with
  | nil => simp [parseInt, bind_apply, current]
  | cons c xs =>
    simp only [parseInt, bind_apply, current, advance, List.cons.injEq]
    split
    · next hdigit =>
      simp only [pure_apply, Outcome.done.injEq]
      constructor
      · rintro ⟨rfl, rfl⟩
        exact ⟨c, ⟨rfl, rfl⟩, hdigit, rfl⟩
      · rintro ⟨d, ⟨rfl, rfl⟩, -, rfl⟩
        exact ⟨rfl, rfl⟩
    · next hdigit =>
      simp only [fail, reduceCtorEq, false_iff]
      rintro ⟨d, ⟨rfl, -⟩, hd, -⟩
      exact hdigit hd

theorem parseHttpVersion_eq_done {n : ℕ} : parseHttpVersion xs = .done n rest ↔
    ∃ digit, xs = httpVersion ++ digit :: rest ∧ isDigit digit = true ∧ rest ≠ [] ∧
      n = digit.toNat - 0x30 := by
  have hchars : ∀ xs : Fbstring, (do
      expectCharNoCheck 0x48
      expectCharNoCheck 0x54
      expectCharNoCheck 0x54
      expectCharNoCheck 0x50
      expectCharNoCheck 0x2f
      expectCharNoCheck 0x31
      expectCharNoCheck 0x2e
      parseInt : Reader UInt8 ℕ) xs = .done n rest ↔
        ∃ digit, xs = httpVersion ++ digit :: rest ∧ isDigit digit = true ∧
        n = digit.toNat - 0x30 := by
    intro xs
    simp only [bind_eq_done, expectCharNoCheck_eq_done, parseInt_eq_done]
    constructor
    · rintro ⟨-, -, rfl, -, -, rfl, -, -, rfl, -, -, rfl, -, -, rfl, -, -, rfl, -, -, rfl, digit,
        rfl, hdigit, rfl⟩
      exact ⟨digit, rfl, hdigit, rfl⟩
    · rintro ⟨digit, rfl, hdigit, rfl⟩
      exact ⟨(), _, rfl, (), _, rfl, (), _, rfl, (), _, rfl, (), _, rfl, (), _, rfl, (), _, rfl,
      digit, rfl, hdigit, rfl⟩
  unfold parseHttpVersion needs
  constructor
  · intro h
    split at h
    · cases h
    · next hlength =>
      obtain ⟨digit, rfl, hdigit, rfl⟩ := (hchars xs).mp h
      refine ⟨digit, rfl, hdigit, ?_, rfl⟩
      rintro rfl
      exact hlength (by simp [httpVersion])
  · rintro ⟨digit, rfl, hdigit, hrest, rfl⟩
    have hpos := List.length_pos_iff.mpr hrest
    rw [if_neg (by simp only [httpVersion, List.length_append, List.length_cons,
      List.length_nil]; omega)]
    exact (hchars _).mpr ⟨digit, rfl, hdigit, rfl⟩

private theorem getTokenToEol_eq_done {token : Fbstring} :
    getTokenToEol build xs = .done token rest ↔
    ∃ eol, IsEol eol ∧ xs = token ++ (eol ++ rest) ∧ IsLine token := by
  rw [getTokenToEol_eq_scan]
  constructor
  · intro h
    obtain ⟨line, mid, hscan, hctl⟩ := bind_eq_done.mp h
    obtain ⟨_, mid', heol, hend⟩ := bind_eq_done.mp hctl
    obtain ⟨rfl, rfl⟩ := Outcome.done.inj hend
    obtain ⟨eol, hisEol, rfl⟩ := expectEol_eq_done.mp heol
    obtain ⟨rfl, hgo, -⟩ := scan_eq_done.mp hscan
    exact ⟨eol, hisEol, rfl, fun c hc => (eolVerdict_go_iff c).mp (hgo c hc)⟩
  · rintro ⟨eol, heol, rfl, hline⟩
    obtain ⟨c, tail, rfl, hc⟩ := isEol_head heol
    have hstop : eolVerdict c = .stop := by rcases hc with rfl | rfl <;> decide
    refine bind_eq_done.mpr ⟨token, (c :: tail) ++ rest,
      scan_eq_done.mpr ⟨rfl, ?_, c, tail ++ rest, rfl, hstop⟩, ?_⟩
    · intro d hd
      exact (eolVerdict_go_iff d).mpr (hline d hd)
    · exact bind_eq_done.mpr ⟨(), rest, expectEol_eq_done.mpr ⟨_, heol, rfl⟩, rfl⟩

private theorem parseHeaderName_eq_done {name : Option Fbstring} :
    parseHeaderName build xs = .done name rest ↔
    ∃ token blanks, name = some token ∧ IsToken token ∧ xs = token ++ colon :: (blanks ++ rest) ∧
      Blanks blanks ∧
      ∃ d tail, rest = d :: tail ∧ isBlank d = false := by
  have hgo : ∀ x : UInt8, (if isBlank x then Verdict.go else .stop) = .go ↔ isBlank x = true := by
    intro x
    split <;> simp_all
  have hstop : ∀ x : UInt8, (if isBlank x then Verdict.go else .stop) = .stop ↔
      isBlank x = false := by
    intro x
    split <;> simp_all
  rw [parseHeaderName_eq]
  constructor
  · intro h
    obtain ⟨token, mid, htoken, hname⟩ := bind_eq_done.mp h
    obtain ⟨rfl, hchars, c, tail, rfl, hc⟩ := scan_eq_done.mp htoken
    obtain rfl := tokenVerdict_stop_iff.mp hc
    split at hname
    · cases hname
    · next hne =>
      obtain ⟨_, mid, hadvance, hblanks⟩ := bind_eq_done.mp hname
      obtain ⟨x, hx⟩ := advance_eq_done.mp hadvance
      obtain ⟨rfl, rfl⟩ := List.cons.inj hx
      obtain ⟨blanks, mid', hscan, hend⟩ := bind_eq_done.mp hblanks
      obtain ⟨rfl, rfl⟩ := Outcome.done.inj hend
      obtain ⟨rfl, hall, d, tail, rfl, hd⟩ := scan_eq_done.mp hscan
      have htoken' : IsToken token :=
        ⟨hne, fun c hc => (tokenVerdict_go_iff (.inr rfl)).mp (hchars c hc)⟩
      exact ⟨token, blanks, rfl, htoken', rfl, fun x hx => (hgo x).mp (hall x hx), d, tail, rfl,
        (hstop d).mp hd⟩
  · rintro ⟨token, blanks, rfl, ⟨hne, hchars⟩, rfl, hblanks, d, tail, rfl, hd⟩
    refine bind_eq_done.mpr ⟨token, colon :: (blanks ++ d :: tail),
    scan_eq_done.mpr ⟨rfl, ?_, colon, _, rfl, ?_⟩, ?_⟩
    · intro c hc
      exact (tokenVerdict_go_iff (.inr rfl)).mpr (hchars c hc)
    · exact tokenVerdict_stop_iff.mpr rfl
    · rw [if_neg hne]
      refine bind_eq_done.mpr ⟨⟨⟩, blanks ++ d :: tail, rfl,
      bind_eq_done.mpr ⟨blanks, d :: tail, ?_, rfl⟩⟩
      exact scan_eq_done.mpr ⟨rfl, fun x hx => (hgo x).mpr (hblanks x hx), d, tail, rfl,
        (hstop d).mpr hd⟩

private theorem parseHeader_eq_done {first : Bool} {header : PhrHeader} :
    parseHeader build first xs = .done header rest ↔
    ∃ text, xs = text ++ rest ∧ HeaderLine first text header := by
  constructor
  · intro h
    obtain ⟨name, mid, hname, hvalue⟩ := bind_eq_done.mp h
    obtain ⟨value, mid', hline, hend⟩ := bind_eq_done.mp hvalue
    obtain ⟨rfl, rfl⟩ := Outcome.done.inj hend
    obtain ⟨eol, heol, rfl, hisLine⟩ := getTokenToEol_eq_done.mp hline
    obtain ⟨c, mid, hcurrent, hif⟩ := bind_eq_done.mp hname
    obtain ⟨rfl, tail, rfl⟩ := current_eq_done.mp hcurrent
    split at hif
    · obtain ⟨token, blanks, rfl, htoken, hxs, hblanks, d, tail', hd, hdblank⟩ :=
        parseHeaderName_eq_done.mp hif
      refine ⟨token ++ colon :: (blanks ++ (value ++ eol)), by simp [hxs],
      .named htoken hblanks hisLine ?_ heol⟩
      intro x hx
      cases value with
      | nil => cases hx
      | cons y value =>
        obtain rfl := Option.mem_some_iff.mp hx
        rw [(List.cons.inj hd).1]
        exact hdblank
    · next hblank =>
      obtain ⟨rfl, hmid⟩ := Outcome.done.inj hif
      obtain ⟨hfirst, hblank⟩ := not_or.mp hblank
      have hc : isBlank c = true := not_not.mp hblank
      cases value with
      | nil =>
        obtain ⟨e, etail, rfl, he⟩ := isEol_head heol
        obtain rfl := (List.cons.inj hmid).1
        rcases he with rfl | rfl <;> exact absurd hc (by decide)
      | cons y value =>
        obtain ⟨rfl, rfl⟩ := List.cons.inj hmid
        obtain rfl : first = false := by simpa using hfirst
        exact ⟨c :: (value ++ eol), by simp,
          .continued hc (fun d hd => hisLine d (by simp [hd])) heol⟩
  · rintro ⟨text, rfl, hline⟩
    cases hline with
    | @named _ name blanks value eol hname hblanks hvalue hhead heol =>
      have hd : ∃ d tail, value ++ (eol ++ rest) = d :: tail ∧ isBlank d = false := by
        cases value with
        | nil =>
          obtain ⟨e, etail, rfl, he⟩ := isEol_head heol
          exact ⟨e, etail ++ rest, rfl, by rcases he with rfl | rfl <;> decide⟩
        | cons y value => exact ⟨y, value ++ (eol ++ rest), rfl, hhead y rfl⟩
      have hparse : parseHeaderName build (name ++ colon :: (blanks ++ (value ++ (eol ++ rest)))) =
          .done (some name) (value ++ (eol ++ rest)) :=
        parseHeaderName_eq_done.mpr ⟨name, blanks, rfl, hname, rfl, hblanks, hd⟩
      obtain ⟨c, ctail, rfl⟩ := List.exists_cons_of_ne_nil hname.1
      have hc : isBlank c = false := by
        cases hb : isBlank c with
        | false => rfl
        | true => exact absurd (hname.2 c (by simp)) (isBlank_line c hb).2
      refine bind_eq_done.mpr ⟨some (c :: ctail), value ++ (eol ++ rest), ?_, ?_⟩
      · refine bind_eq_done.mpr ⟨c, _, current_eq_done.mpr ⟨rfl, _, rfl⟩, ?_⟩
        rw [if_pos (.inr (by simp [hc]))]
        simpa using hparse
      · exact bind_eq_done.mpr ⟨value, rest, getTokenToEol_eq_done.mpr ⟨eol, heol, rfl, hvalue⟩,
          rfl⟩
    | @continued c value eol hblank hvalue heol =>
      refine bind_eq_done.mpr ⟨none, c :: (value ++ (eol ++ rest)), ?_, ?_⟩
      · refine bind_eq_done.mpr ⟨c, _, current_eq_done.mpr ⟨rfl, _, rfl⟩, ?_⟩
        rw [if_neg (by simp [hblank])]
        simp
      · refine bind_eq_done.mpr ⟨c :: value, rest, getTokenToEol_eq_done.mpr ⟨eol, heol, rfl, ?_⟩,
          rfl⟩
        intro d hd
        rcases List.mem_cons.mp hd with rfl | hd
        · exact (isBlank_line d hblank).1
        · exact hvalue d hd

theorem HeaderLine.head {first : Bool} {text : Fbstring} {header : PhrHeader}
    (h : HeaderLine first text header) :
    ∃ c tail, text = c :: tail ∧ c ≠ cr ∧ c ≠ lf := by
  cases h with
  | @named _ name _ _ _ hname =>
    obtain ⟨c, ctail, rfl⟩ := List.exists_cons_of_ne_nil hname.1
    have hsp := (isTokenChar_visible c (hname.2 c (by simp))).1
    refine ⟨c, _, rfl, ?_, ?_⟩
    · rintro rfl
      exact absurd hsp (by decide)
    · rintro rfl
      exact absurd hsp (by decide)
  | @continued c _ _ hblank =>
    refine ⟨c, _, rfl, ?_, ?_⟩
    · rintro rfl
      exact absurd hblank (by decide)
    · rintro rfl
      exact absurd hblank (by decide)

private theorem emptyLineOr_eq_done {headers out : List PhrHeader}
    {round : Reader UInt8 (List PhrHeader)} :
    emptyLineOr headers round xs = .done out rest ↔
      (∃ eol, IsEol eol ∧ xs = eol ++ rest ∧ out = headers) ∨
      ((∃ c tail, xs = c :: tail ∧ c ≠ cr ∧ c ≠ lf) ∧ round xs = .done out rest) := by
  constructor
  · intro h
    obtain ⟨_, mid, heof, hnext⟩ := bind_eq_done.mp h
    obtain ⟨rfl, -⟩ := checkEof_eq_done.mp heof
    obtain ⟨c, mid, hcurrent, hc⟩ := bind_eq_done.mp hnext
    obtain ⟨rfl, tail, rfl⟩ := current_eq_done.mp hcurrent
    split at hc
    · next hcr =>
      obtain ⟨_, mid, hadvance, hlf⟩ := bind_eq_done.mp hc
      obtain ⟨x, hx⟩ := advance_eq_done.mp hadvance
      obtain ⟨rfl, rfl⟩ := List.cons.inj hx
      obtain ⟨_, mid', hexpect, hend⟩ := bind_eq_done.mp hlf
      obtain ⟨rfl, rfl⟩ := Outcome.done.inj hend
      exact .inl ⟨[cr, lf], .inl rfl, by rw [hcr, expectChar_eq_done.mp hexpect]; rfl, rfl⟩
    · next hcr =>
      split at hc
      · next hlf =>
        obtain ⟨_, mid, hadvance, hend⟩ := bind_eq_done.mp hc
        obtain ⟨x, hx⟩ := advance_eq_done.mp hadvance
        obtain ⟨rfl, rfl⟩ := List.cons.inj hx
        obtain ⟨rfl, rfl⟩ := Outcome.done.inj hend
        exact .inl ⟨[lf], .inr rfl, by rw [hlf]; rfl, rfl⟩
      · next hlf => exact .inr ⟨⟨c, tail, rfl, hcr, hlf⟩, hc⟩
  · rintro (⟨eol, rfl | rfl, rfl, rfl⟩ | ⟨⟨c, tail, rfl, hcr, hlf⟩, hround⟩)
    · rfl
    · rfl
    · simpa only [emptyLineOr, bind_apply, checkEof, current, if_neg hcr, if_neg hlf] using hround

private theorem parseHeaders_eq_done {room : ℕ} {headers out : List PhrHeader} :
    parseHeaders build room headers xs = .done out rest ↔
      ∃ text more, xs = text ++ rest ∧ out = headers ++ more ∧
        HeaderBlock headers.isEmpty text more ∧ more.length ≤ room := by
  have hlater : ∀ (headers : List PhrHeader) header, (headers ++ [header]).isEmpty = false := by
    intro headers header
    cases headers <;> rfl
  induction room generalizing headers xs with
  | zero =>
    rw [parseHeaders, emptyLineOr_eq_done]
    constructor
    · rintro (⟨eol, heol, rfl, rfl⟩ | ⟨-, hfail⟩)
      · exact ⟨eol, [], rfl, by simp, .emptyLine heol, le_rfl⟩
      · cases hfail
    · rintro ⟨text, more, rfl, rfl, hblock, hlength⟩
      obtain rfl := List.length_eq_zero_iff.mp (Nat.le_zero.mp hlength)
      cases hblock with
      | emptyLine heol => exact .inl ⟨text, heol, rfl, by simp⟩
  | succ room ih =>
    rw [parseHeaders, emptyLineOr_eq_done]
    constructor
    · rintro (⟨eol, heol, rfl, rfl⟩ | ⟨-, hround⟩)
      · exact ⟨eol, [], rfl, by simp, .emptyLine heol, by simp⟩
      · obtain ⟨header, mid, hheader, hrest⟩ := bind_eq_done.mp hround
        obtain ⟨text, rfl, hline⟩ := parseHeader_eq_done.mp hheader
        obtain ⟨text', more, rfl, rfl, hblock, hlength⟩ := ih.mp hrest
        refine ⟨text ++ text', header :: more, by simp, by simp, .line hline ?_,
          by simpa using hlength⟩
        rwa [hlater headers header] at hblock
    · rintro ⟨text, more, rfl, rfl, hblock, hlength⟩
      cases hblock with
      | emptyLine heol => exact .inl ⟨text, heol, rfl, by simp⟩
      | @line _ text header text' more hline hrest =>
        obtain ⟨c, tail, rfl, hcr, hlf⟩ := hline.head
        refine .inr ⟨⟨c, tail ++ text' ++ rest, by simp, hcr, hlf⟩, ?_⟩
        refine bind_eq_done.mpr ⟨header, text' ++ rest,
          parseHeader_eq_done.mpr ⟨c :: tail, by simp, hline⟩, ?_⟩
        exact ih.mpr ⟨text', more, rfl, by simp, by rwa [hlater headers header],
          by simpa using hlength⟩

private theorem isGap_cons {gap : Fbstring} (h : ∀ c ∈ gap, c = sp) : IsGap (sp :: gap) :=
  ⟨by simp, by simpa using h⟩

theorem IsGap.exists_cons {gap : Fbstring} (h : IsGap gap) :
    ∃ tail, gap = sp :: tail ∧ ∀ c ∈ tail, c = sp := by
  obtain ⟨c, tail, rfl⟩ := List.exists_cons_of_ne_nil h.1
  obtain rfl := h.2 c (by simp)
  exact ⟨tail, rfl, fun d hd => h.2 d (by simp [hd])⟩

/-- `parse_request` accepts what the grammar derives, up to the limit on headers. -/
theorem parseRequest_eq_done {maxHeaders : ℕ} {request : PhrRequest} :
    parseRequest build maxHeaders xs = .done request rest ↔
      ∃ text, xs = text ++ rest ∧ RequestText text request ∧
        request.headers.length ≤ maxHeaders := by
  constructor
  · intro h
    obtain ⟨_, s₁, hstart, h₁⟩ := bind_eq_done.mp h
    obtain ⟨method, s₂, hmethod, h₂⟩ := bind_eq_done.mp h₁
    obtain ⟨_, s₃, hgap, h₃⟩ := bind_eq_done.mp h₂
    obtain ⟨path, s₄, hpath, h₄⟩ := bind_eq_done.mp h₃
    obtain ⟨_, s₅, hgap', h₅⟩ := bind_eq_done.mp h₄
    split at h₅
    · cases h₅
    · next hne =>
      obtain ⟨hmethodNe, hpathNe⟩ := not_or.mp hne
      obtain ⟨minor, s₆, hversion, h₆⟩ := bind_eq_done.mp h₅
      obtain ⟨_, s₇, heol, h₇⟩ := bind_eq_done.mp h₆
      obtain ⟨headers, s₈, hheaders, h₈⟩ := bind_eq_done.mp h₇
      obtain ⟨rfl, rfl⟩ := Outcome.done.inj h₈
      obtain ⟨block, headers, rfl, rfl, hblock, hlength⟩ := parseHeaders_eq_done.mp hheaders
      obtain ⟨eol, hisEol, rfl⟩ := expectEol_eq_done.mp heol
      obtain ⟨digit, rfl, hdigit, -, rfl⟩ := parseHttpVersion_eq_done.mp hversion
      rw [parseToken_eq_scan build (.inl rfl)] at hmethod
      rw [advanceToken_eq_scan] at hpath
      obtain ⟨rfl, hmethodChars, c, tail, rfl, hc⟩ := scan_eq_done.mp hmethod
      obtain rfl := tokenVerdict_stop_iff.mp hc
      obtain ⟨c', gap, hs₂, hgapSp, -⟩ := skipSpaces_eq_done.mp hgap
      obtain ⟨rfl, rfl⟩ := List.cons.inj hs₂
      obtain ⟨rfl, hpathChars, d, tail', rfl, hd⟩ := scan_eq_done.mp hpath
      obtain rfl := (pathVerdict_stop_iff d).mp hd
      obtain ⟨d', gap', hs₄, hgapSp', -⟩ := skipSpaces_eq_done.mp hgap'
      obtain ⟨rfl, rfl⟩ := List.cons.inj hs₄
      have htext : ∀ start, start = [] ∨ IsEol start →
          RequestText (start ++ (method ++ ((sp :: gap) ++ (path ++ ((sp :: gap') ++
            (httpVersion ++ digit :: (eol ++ block)))))))
            ⟨method, path, digit.toNat - 0x30, headers⟩ := by
        intro start hstart
        refine .intro hstart ⟨hmethodNe, ?_⟩ (isGap_cons hgapSp)
          ⟨hpathNe, ?_⟩ (isGap_cons hgapSp') hdigit hisEol hblock
        · intro c hc
          exact (tokenVerdict_go_iff (.inl rfl)).mp (hmethodChars c hc)
        · intro c hc
          exact (pathVerdict_go_iff c).mp (hpathChars c hc)
      rcases skipEmptyLine_eq_done.mp hstart with ⟨start, hisStart, rfl⟩ | ⟨rfl, -⟩
      · exact ⟨_, by simp, htext start (.inr hisStart), hlength⟩
      · exact ⟨_, by simp, htext [] (.inl rfl), hlength⟩
  · rintro ⟨text, rfl, ⟨hstart, hmethod, hgap, hpath, hgap', hdigit, heol, hblock⟩, hlength⟩
    rename_i start method gap path gap' digit eol block headers
    obtain ⟨m, mtail, rfl⟩ := List.exists_cons_of_ne_nil hmethod.1
    obtain ⟨c, ctail, rfl⟩ := List.exists_cons_of_ne_nil hpath.1
    obtain ⟨gap, rfl, hgapSp⟩ := hgap.exists_cons
    obtain ⟨gap', rfl, hgapSp'⟩ := hgap'.exists_cons
    let s₅ := httpVersion ++ digit :: (eol ++ (block ++ rest))
    let s₄ := sp :: (gap' ++ s₅)
    let s₃ := (c :: ctail) ++ s₄
    let s₂ := sp :: (gap ++ s₃)
    let s₁ := (m :: mtail) ++ s₂
    have hm := isTokenChar_visible m (hmethod.2 m (by simp))
    have h₁ : skipEmptyLine (start ++ s₁) = .done () s₁ := by
      refine skipEmptyLine_eq_done.mpr ?_
      rcases hstart with rfl | hstart
      · refine .inr ⟨rfl, m, mtail ++ s₂, rfl, ?_, ?_⟩
        · rintro rfl
          exact absurd hm.1 (by decide)
        · rintro rfl
          exact absurd hm.1 (by decide)
      · exact .inl ⟨start, hstart, rfl⟩
    have h₂ : parseToken build sp s₁ = .done (m :: mtail) s₂ := by
      rw [parseToken_eq_scan build (.inl rfl)]
      refine scan_eq_done.mpr ⟨rfl, ?_, sp, _, rfl, tokenVerdict_stop_iff.mpr rfl⟩
      intro d hd
      exact (tokenVerdict_go_iff (.inl rfl)).mpr (hmethod.2 d hd)
    have h₃ : skipSpaces s₂ = .done () s₃ := by
      refine skipSpaces_eq_done.mpr ⟨sp, gap, rfl, hgapSp, c, _, rfl, ?_⟩
      rintro rfl
      exact absurd (hpath.2 sp (by simp)).1 (by decide)
    have h₄ : advanceToken build s₃ = .done (c :: ctail) s₄ := by
      rw [advanceToken_eq_scan]
      refine scan_eq_done.mpr ⟨rfl, ?_, sp, _, rfl, (pathVerdict_stop_iff sp).mpr rfl⟩
      intro d hd
      exact (pathVerdict_go_iff d).mpr (hpath.2 d hd)
    have h₅ : skipSpaces s₄ = .done () s₅ :=
      skipSpaces_eq_done.mpr ⟨sp, gap', rfl, hgapSp', 0x48, _, rfl, by decide⟩
    have h₆ : parseHttpVersion s₅ = .done (digit.toNat - 0x30) (eol ++ (block ++ rest)) := by
      refine parseHttpVersion_eq_done.mpr ⟨digit, rfl, hdigit, ?_, rfl⟩
      obtain ⟨e, etail, rfl, -⟩ := isEol_head heol
      simp
    have h₇ : expectEol (eol ++ (block ++ rest)) = .done () (block ++ rest) :=
      expectEol_eq_done.mpr ⟨eol, heol, rfl⟩
    have h₈ : parseHeaders build maxHeaders [] (block ++ rest) = .done headers rest :=
      parseHeaders_eq_done.mpr ⟨block, headers, rfl, rfl, hblock, hlength⟩
    have htext : start ++ ((m :: mtail) ++ ((sp :: gap) ++ ((c :: ctail) ++ ((sp :: gap') ++
        (httpVersion ++ digit :: (eol ++ block)))))) ++ rest = start ++ s₁ := by
      simp only [s₁, s₂, s₃, s₄, s₅, List.append_assoc, List.cons_append]
    rw [htext, parseRequest, bind_of_done h₁, bind_of_done h₂, bind_of_done h₃, bind_of_done h₄,
      bind_of_done h₅, if_neg (by simp), bind_of_done h₆, bind_of_done h₇, bind_of_done h₈]
    rfl

end HCache.CppPicoGrammar
