import GraphQL.Proofs.Source.Position
import GraphQL.Proofs.Token.Recognition

/-! Where the lexer says its tokens are. No token ends between a carriage return and its line feed,
so the positions counted while lexing are those that the lines of the text give. -/
namespace GraphQL

namespace Lexer

open Text

theorem isNumberTail_of_isDigit {c : Char} (h : c.isDigit = true) : isNumberTail c = true := by
  simp [isNumberTail, Char.isAlphanum, h]

/-- All characters of a number may stand in one behind the first. -/
theorem IsNumber.tail {cs : List Char} (h : IsNumber cs) : ∀ c ∈ cs, isNumberTail c = true := by
  obtain ⟨sign, whole, fraction, exponent, hSign, hWhole, hFraction, hExponent, rfl⟩ := h
  have hDigits {digits : List Char} (hDigits : IsDigits digits) :
      ∀ c ∈ digits, isNumberTail c = true :=
    fun c hc => isNumberTail_of_isDigit (hDigits.2 c hc)
  have hSignTail : ∀ c ∈ sign, isNumberTail c = true := by
    rcases hSign with rfl | rfl
    · simp
    · exact List.forall_mem_singleton.2 rfl
  have hFractionTail : ∀ c ∈ fraction, isNumberTail c = true := by
    rcases hFraction with rfl | ⟨digits, hFraction, rfl⟩
    · simp
    · exact List.forall_mem_cons.2 ⟨by decide, hDigits hFraction⟩
  have hExponentTail : ∀ c ∈ exponent, isNumberTail c = true := by
    rcases hExponent with rfl | ⟨mark, sign, digits, hMark, hSign, hExponent, rfl⟩
    · simp
    · refine List.forall_mem_cons.2 ⟨?_, List.forall_mem_append.2 ⟨?_, hDigits hExponent⟩⟩
      · rcases hMark with rfl | rfl <;> decide
      · rcases hSign with rfl | rfl | rfl
        · simp
        · exact List.forall_mem_singleton.2 rfl
        · exact List.forall_mem_singleton.2 rfl
  exact List.forall_mem_append.2 ⟨hSignTail, List.forall_mem_append.2
    ⟨List.forall_mem_append.2 ⟨hDigits hWhole.1, hFractionTail⟩, hExponentTail⟩⟩

/-- The inside of a string ends with the mark that closes it. -/
theorem IsStringInside.getLast? {inside : List Char} (h : IsStringInside inside) :
    inside.getLast? = some '"' := by
  induction h with
  | close => rfl
  | escape hLine rest ih => simp [List.getLast?_cons, ih]
  | char hQuote hBackslash hLine rest ih => simp [List.getLast?_cons, ih]

/-- The inside of a block string ends with the marks that close it. -/
theorem IsBlockInside.getLast? {inside : List Char} (h : IsBlockInside inside) :
    inside.getLast? = some '"' := by
  induction h with
  | close => rfl
  | escape rest ih => simp [List.getLast?_cons, ih]
  | char hClose hEscape rest ih => simp [List.getLast?_cons, ih]

/-- Characters of a class without the carriage return do not end in one. -/
theorem getLast?_ne_return {p : Char → Bool} (hReturn : p '\r' = false) {cs : List Char}
    (h : ∀ c ∈ cs, p c = true) : cs.getLast? ≠ some '\r' := by
  intro hLast
  have hp := h '\r' (List.mem_of_getLast? hLast)
  rw [hReturn] at hp
  cases hp

/-- No lexeme ends inside a pair of carriage return and line feed. -/
theorem Lexeme.getLast?_ne_return {kind : TokenKind} {lexeme : List Char}
    (h : Lexeme kind lexeme) : lexeme.getLast? ≠ some '\r' := by
  cases h with
  | punctuator hText => cases kind <;> cases hText <;> decide
  | @name c cs hStart hContinue =>
      have hFirst : isNameContinue c = true := by
        simp only [isNameStart, Bool.or_eq_true] at hStart
        rcases hStart with h | h <;> simp [isNameContinue, Char.isAlphanum, h]
      exact Lexer.getLast?_ne_return (p := isNameContinue) rfl
        (List.forall_mem_cons.2 ⟨hFirst, hContinue⟩)
  | number hNumber => exact Lexer.getLast?_ne_return (p := isNumberTail) rfl hNumber.tail
  | string hInside => simp [List.getLast?_cons, hInside.getLast?]
  | blockString hInside => simp [List.getLast?_cons, hInside.getLast?]

/-- A dot that stands apart is the last of what was read to it. -/
theorem spanDot?_getLast? {cs dot rest : List Char} (h : spanDot? cs = some (dot, rest)) :
    dot.getLast? = some '.' := by
  unfold spanDot? at h
  split at h
  · cases h
    simp
  · cases h

/-- What is scanned as dots ends with one, also when it is a fault. -/
theorem scanDots_getLast? (cs : List Char) : (scanDots cs).lexeme.getLast? = some '.' := by
  fun_cases scanDots cs with
  | case1 | case2 => rfl
  | case3 cs hDots second rest hSecond third after hThird =>
      simp [List.getLast?_cons, spanDot?_getLast? hThird]
  | case4 cs hDots second rest hSecond hThird =>
      simp [List.getLast?_cons, spanDot?_getLast? hSecond]

/-- No line ends inside a string. -/
theorem spanString_content (cs : List Char) :
    ∀ c ∈ (spanString cs).2.1, isLineEnd c = false := by
  fun_induction spanString cs with
  | case1 => simp
  | case2 | case3 => exact List.forall_mem_singleton.2 (by decide)
  | case4 c cs hLine ending inside rest hSpan ih =>
      rw [hSpan] at ih
      exact List.forall_mem_cons.2
        ⟨by decide, List.forall_mem_cons.2 ⟨Bool.eq_false_iff.2 hLine, ih⟩⟩
  | case5 => simp
  | case6 c cs hQuote hEscape hLine ending inside rest hSpan ih =>
      rw [hSpan] at ih
      exact List.forall_mem_cons.2 ⟨Bool.eq_false_iff.2 hLine, ih⟩

/-- A block string that is not closed takes the rest of the text. -/
theorem spanBlockString_open {cs : List Char} (h : (spanBlockString cs).1 = false) :
    (spanBlockString cs).2.2 = [] := by
  fun_induction spanBlockString cs with
  | case1 => rfl
  | case2 cs closed inside rest hSpan ih =>
      rw [hSpan] at ih
      exact ih h
  | case3 => cases h
  | case4 c cs hEscape hClose closed inside rest hSpan ih =>
      rw [hSpan] at ih
      exact ih h

/-- A string that breaks off does so before a pair of carriage return and line feed, not in it. -/
theorem keepsPairs_scanString (start : Position) (cs : List Char) :
    KeepsPairs (scanString start cs).lexeme (scanString start cs).rest := by
  fun_cases scanString start cs with
  | case1 cs closed inside rest hSpan =>
      cases closed with
      | true =>
          intro hLast
          have hInside := isBlockInside_of_spanBlockString hSpan
          simp [List.getLast?_cons, hInside.getLast?] at hLast
      | false =>
          have hRest : (spanBlockString cs).2.2 = [] := spanBlockString_open (by rw [hSpan])
          rw [hSpan] at hRest
          intro _
          rw [show rest = [] from hRest]
          simp
  | case2 cs hNotBlock ending inside rest hSpan kind =>
      intro hLast
      have hContent := spanString_content cs
      rw [hSpan] at hContent
      have hAll : ∀ c ∈ '"' :: inside, isLineEnd c = false :=
        List.forall_mem_cons.2 ⟨by decide, hContent⟩
      exact absurd (hAll '\r' (List.mem_of_getLast? hLast)) (by decide)

/-- A malformed number takes along nothing but characters that numbers may have. -/
theorem numberTail_scanNumber {sign cs : List Char} (hSign : ∀ c ∈ sign, isNumberTail c = true)
    (hError : ¬(scanNumber sign cs).kind.isError = false) :
    ∀ c ∈ (scanNumber sign cs).lexeme, isNumberTail c = true := by
  unfold scanNumber at hError ⊢
  split
  · next digits rest hSpan =>
      rw [hSpan] at hError
      exact absurd rfl hError
  · exact List.forall_mem_append.2 ⟨hSign, fun c => List.mem_takeWhile_imp⟩

/-- A token that starts with no carriage return does not end between one and its line feed. -/
theorem keepsPairs_scan (start : Position) {c : Char} (cs : List Char) (hc : c ≠ '\r') :
    KeepsPairs (scan start c cs).lexeme (scan start c cs).rest := by
  by_cases hError : (scan start c cs).kind.isError = false
  · exact fun hLast => absurd hLast (lexeme_scan hError).1.getLast?_ne_return
  · revert hError
    fun_cases scan start c cs with
    | case1 kind hPunctuator =>
        intro _ hLast
        exact absurd (Option.some.inj hLast) hc
    | case2 =>
        intro _ hLast
        rw [scanDots_getLast?] at hLast
        cases hLast
    | case3 => exact fun _ => keepsPairs_scanString start cs
    | case4 => exact fun hError => absurd rfl hError
    | case5 =>
        intro hError hLast
        have hTail := numberTail_scanNumber (List.forall_mem_singleton.2 rfl) hError
        exact absurd hLast (getLast?_ne_return (p := isNumberTail) rfl hTail)
    | case7 =>
        intro hError hLast
        have hTail := numberTail_scanNumber (by simp) hError
        exact absurd hLast (getLast?_ne_return (p := isNumberTail) rfl hTail)
    | case6 => exact fun _ hLast => absurd (Option.some.inj hLast) (by decide)
    | case8 => exact fun _ hLast => absurd (Option.some.inj hLast) hc

/-- Whether the notes of a fault point to no other place than `start`. -/
def PointsTo (start : Position) (fault : LexicalFault) : Prop :=
  ∀ note ∈ fault.notes, ∀ span ∈ note.span, span = .emptyAt start

/-- A fault in dots points nowhere but to its start. -/
theorem pointsTo_scanDots {start : Position} {cs : List Char} {fault : LexicalFault}
    (h : (scanDots cs).kind = .error fault) : PointsTo start fault := by
  revert h
  fun_cases scanDots cs with
  | case1 =>
      intro h
      cases h
  | case2 | case3 =>
      intro h
      cases h
      simp [PointsTo, LexicalFault.notes, Note.help]
  | case4 cs hDots second rest hSecond hThird =>
      intro h
      have hFault : (if second == ['.'] then LexicalFault.doubleDot else .spacedDots) = fault :=
        TokenKind.error.inj h
      rw [← hFault]
      split <;> simp [PointsTo, LexicalFault.notes, Note.help]

/-- A fault in a number points nowhere but to its start. -/
theorem pointsTo_scanNumber {start : Position} {sign cs : List Char} {fault : LexicalFault}
    (h : (scanNumber sign cs).kind = .error fault) : PointsTo start fault := by
  unfold scanNumber at h
  split at h
  · cases h
  · cases h
    simp [PointsTo, LexicalFault.notes, Note.spec]

/-- A string that is not closed points to where it was opened. -/
theorem pointsTo_scanString {start : Position} {cs : List Char} {fault : LexicalFault}
    (h : (scanString start cs).kind = .error fault) : PointsTo start fault := by
  revert h
  fun_cases scanString start cs with
  | case1 cs closed inside rest hSpan =>
      cases closed with
      | true =>
          intro h
          cases h
      | false =>
          intro h
          cases h
          simp [PointsTo, LexicalFault.notes, Note.generalAt, Note.help]
  | case2 cs hNotBlock ending inside rest hSpan kind =>
      cases ending with
      | closed =>
          intro h
          cases h
      | lineEnd =>
          intro h
          cases h
          simp [PointsTo, LexicalFault.notes, Note.general, Note.help]
      | textEnd =>
          intro h
          cases h
          simp [PointsTo, LexicalFault.notes, Note.generalAt, Note.help]

/-- The only place that a fault of the lexer points to is its start. -/
theorem pointsTo_scan {start : Position} {c : Char} {cs : List Char} {fault : LexicalFault}
    (h : (scan start c cs).kind = .error fault) : PointsTo start fault := by
  revert h
  fun_cases scan start c cs with
  | case1 kind hPunctuator =>
      intro (h : kind = .error fault)
      rw [h] at hPunctuator
      cases punctuator?_of_punctuatorOf? hPunctuator
  | case2 => exact pointsTo_scanDots
  | case3 => exact pointsTo_scanString
  | case4 =>
      intro h
      cases h
  | case5 | case7 => exact pointsTo_scanNumber
  | case6 | case8 =>
      intro h
      cases h
      simp [PointsTo, LexicalFault.notes]

/-- What stops a gap is no line end. -/
theorem not_lineEnd_of_isGap {c : Char} {cs : List Char} (h : IsGap [] (c :: cs)) :
    isLineEnd c = false := by
  rw [IsGap, List.nil_append, spanIgnored_cons] at h
  refine Bool.eq_false_iff.2 fun hLine => ?_
  have hIgnored : ignored? false c = some false := by
    simp [ignored?, isIgnored, hLine]
  rw [hIgnored] at h
  cases h

end Lexer

open Lexer Text

/-- The places that a token tells of: its own, and those in its notes if it is a fault. -/
def Token.spans (token : Token) : List Span :=
  token.span :: match token.kind with
    | .error fault => fault.notes.filterMap Note.span
    | _ => []

/-- Where a token of a text stands: the cursor passed over the text before it, at whose end nothing
ignored is left, and then over its lexeme. -/
theorem Token.exists_walk_of_mem_lex {text : String} {token : Token} (h : token ∈ Token.lex text) :
    ∃ passed left, text.toList = passed ++ left ∧ IsGap [] left ∧
      token.start = (Cursor.walk {} passed).position ∧
      (left = [] ∧ token = .eofAt token.start ∨ ∃ c cs, left = c :: cs ∧
        token.kind = (scan token.start c cs).kind ∧
        token.stop =
          (Cursor.walk {} (passed ++ (scan token.start c cs).lexeme)).position) := by
  obtain ⟨before, after, hLex⟩ := List.append_of_mem h
  obtain ⟨passed, cs, hText, hTokens⟩ := tokensFrom_tail hLex (by simp)
  have hGap := isGap_nil_spanIgnored false cs
  have hAll := spanIgnored_append false cs
  refine ⟨passed ++ (spanIgnored false cs).1, (spanIgnored false cs).2,
    by rw [hText, List.append_assoc, hAll], hGap, ?_⟩
  cases hLeft : (spanIgnored false cs).2 with
  | nil =>
      rw [tokensFrom_nil hLeft] at hTokens
      obtain ⟨rfl, -⟩ := List.cons.inj hTokens
      rw [Cursor.walk_append]
      exact ⟨rfl, .inl ⟨rfl, rfl⟩⟩
  | cons c rest =>
      rw [tokensFrom_cons hLeft] at hTokens
      obtain ⟨rfl, -⟩ := List.cons.inj hTokens
      refine ⟨by rw [Cursor.walk_append]; rfl, .inr ⟨c, rest, rfl, rfl, ?_⟩⟩
      rw [Cursor.walk_append, Cursor.walk_append]
      rfl

/-- Counting lines and columns while lexing agrees with finding them from the lines of the text.
Both ends of every token, the end of input and faults included, and of every place that the notes
of a fault point to are the positions of their offsets. -/
theorem Token.lex_positions {source : Source} {token : Token} (h : token ∈ Token.lex source.text) :
    ∀ span ∈ token.spans, span.start = source.positionAt span.start.offset ∧
      span.stop = source.positionAt span.stop.offset := by
  obtain ⟨passed, left, hText, hGap, hStart, hToken⟩ := Token.exists_walk_of_mem_lex h
  have hFirst : KeepsPairs passed left := by
    intro _ hNext
    obtain ⟨rest, rfl⟩ := List.head?_eq_some_iff.1 hNext
    exact absurd (not_lineEnd_of_isGap hGap) (by decide)
  have hStartAt : token.start = source.positionAt token.start.offset := by
    rw [hStart]
    exact (Source.positionAt_walk hText hFirst).symm
  rcases hToken with ⟨rfl, hEnd⟩ | ⟨c, cs, rfl, hKind, hStop⟩
  · have hSpans : token.spans = [.emptyAt token.start] := by
      rw [hEnd]
      rfl
    rw [hSpans]
    exact List.forall_mem_singleton.2 ⟨hStartAt, hStartAt⟩
  · have hRest := scan_lexeme_append_rest token.start c cs
    have hLast : KeepsPairs (passed ++ (scan token.start c cs).lexeme)
        (scan token.start c cs).rest := by
      have hReturn : c ≠ '\r' := by
        rintro rfl
        exact absurd (not_lineEnd_of_isGap hGap) (by decide)
      have hLexeme := List.getLast?_eq_some_getLast (scan_lexeme_ne_nil token.start c cs)
      intro hPassed
      rw [List.getLast?_append, hLexeme, Option.some_or, ← hLexeme] at hPassed
      exact keepsPairs_scan token.start cs hReturn hPassed
    have hWhole : source.text.toList =
        passed ++ (scan token.start c cs).lexeme ++ (scan token.start c cs).rest := by
      rw [hText, List.append_assoc, hRest]
    have hStopAt : token.stop = source.positionAt token.stop.offset := by
      rw [hStop]
      exact (Source.positionAt_walk hWhole hLast).symm
    refine List.forall_mem_cons.2 ⟨⟨hStartAt, hStopAt⟩, ?_⟩
    split
    · next fault hFault =>
        intro span hSpan
        obtain ⟨note, hNote, hPlace⟩ := List.mem_filterMap.1 hSpan
        rw [pointsTo_scan (hKind.symm.trans hFault) note hNote span hPlace]
        exact ⟨hStartAt, hStartAt⟩
    · simp

/-- A block string that is left open over a line, after a pair of carriage return and line feed. -/
theorem Token.lex_positions_block :
    let source : Source := { text := "a\r\n\"\"\"😀\r\n" }
    let start : Position := ⟨1, 0, 0, 3⟩
    ⟨.error (.openBlockString start), ⟨start, ⟨2, 0, 0, 12⟩⟩, "\"\"\"😀\r\n"⟩ ∈
        Token.lex source.text ∧
      source.positionAt 3 = start ∧ source.positionAt 12 = ⟨2, 0, 0, 12⟩ := by
  have hMem : (⟨.error (.openBlockString ⟨1, 0, 0, 3⟩), ⟨⟨1, 0, 0, 3⟩, ⟨2, 0, 0, 12⟩⟩,
      "\"\"\"😀\r\n"⟩ : Token) ∈
      Token.lex (Source.text { text := "a\r\n\"\"\"😀\r\n" }) := by
    with_unfolding_all decide
  obtain ⟨hStart, hStop⟩ := Token.lex_positions hMem _ List.mem_cons_self
  exact ⟨hMem, hStart.symm, hStop.symm⟩

end GraphQL
