import GraphQL.Proofs.Token.Run

/-! What the lexer recognises where a token starts. Each kind of token has a rule that says which
characters at the start of a text are its lexeme; the lexer finds the one lexeme that the rules
allow, and a fault exactly where they allow none. -/
namespace GraphQL

namespace Lexer

open Text

/-- A letter or underscore with letters, digits and underscores after it. -/
def IsName (cs : List Char) : Prop :=
  ∃ c tail, cs = c :: tail ∧ isNameStart c = true ∧ ∀ d ∈ tail, isNameContinue d = true

/-- The rules of the lexical grammar: at the start of a text, a token of the given kind takes
`lexeme` and leaves `rest`. -/
inductive Takes : TokenKind → (lexeme rest : List Char) → Prop where
  | punctuator {kind : TokenKind} {text : String} {rest : List Char}
      (hText : kind.punctuator? = some text) : Takes kind text.toList rest
  | name {lexeme rest : List Char} (hName : IsName lexeme)
      (hLongest : ∀ other, IsName other → other <+: lexeme ++ rest →
        other.length ≤ lexeme.length) : Takes .name lexeme rest
  | number {lexeme rest : List Char} (hNumber : IsNumber lexeme)
      (hRest : ∀ c ∈ rest.head?, c.isDigit = false ∧ c ≠ '.' ∧ isNameStart c = false) :
      Takes .number lexeme rest
  | string {inside rest : List Char} (hInside : IsStringInside inside)
      (hNotBlock : ¬ ['"', '"', '"'] <+: '"' :: (inside ++ rest)) :
      Takes .string ('"' :: inside) rest
  | blockString {inside rest : List Char} (hInside : IsBlockInside inside) :
      Takes .string ('"' :: '"' :: '"' :: inside) rest

/-- A text starts with a lexeme of the given kind. -/
def StartsWith (text : List Char) (kind : TokenKind) (lexeme : List Char) : Prop :=
  ∃ rest, text = lexeme ++ rest ∧ Takes kind lexeme rest

/-- A name is the longest one exactly if the next character could not continue it. -/
theorem longest_name_iff {lexeme rest : List Char} (hName : IsName lexeme) :
    (∀ other, IsName other → other <+: lexeme ++ rest → other.length ≤ lexeme.length) ↔
      ∀ c ∈ rest.head?, isNameContinue c = false := by
  obtain ⟨first, tail, rfl, hStart, hTail⟩ := hName
  constructor
  · intro hLongest c hHead
    obtain ⟨after, rfl⟩ := List.head?_eq_some_iff.1 hHead
    refine Bool.eq_false_iff.2 fun hContinue => ?_
    have hLonger : IsName (first :: (tail ++ [c])) := by
      refine ⟨first, tail ++ [c], rfl, hStart, fun d hd => ?_⟩
      rcases List.mem_append.1 hd with hd | hd
      · exact hTail d hd
      · rw [List.mem_singleton.1 hd]
        exact hContinue
    have hLength := hLongest _ hLonger ⟨after, by simp⟩
    simp only [List.length_cons, List.length_append, List.length_nil] at hLength
    omega
  · rintro hRest other ⟨start, more, rfl, -, hMore⟩ ⟨after, hAll⟩
    have hTails : more ++ after = tail ++ rest := (List.cons.inj hAll).2
    -- both tails are read by the same span, which stops where the rest begins
    have hSpan : (tail ++ rest).takeWhile isNameContinue = tail :=
      takeWhile_append_stop hTail hRest
    rw [← hTails, List.takeWhile_append_of_pos hMore] at hSpan
    have hLength := congrArg List.length hSpan
    rw [List.length_append] at hLength
    simp only [List.length_cons]
    omega

/-- A string is no block string exactly if it is not the empty one before a further quote. -/
theorem not_block_iff {inside rest : List Char} (hInside : IsStringInside inside) :
    ¬ ['"', '"', '"'] <+: '"' :: (inside ++ rest) ↔
      ∀ c ∈ rest.head?, '"' :: inside = ['"', '"'] → c ≠ '"' := by
  cases hInside with
  | close =>
      cases rest with
      | nil => simp
      | cons c rest => simp [eq_comm]
  | escape hLine hTail => simp
  | char hQuote hBackslash hLine hTail => simp [hQuote, Ne.symm hQuote]

/-- The rules allow the lexemes that the text after them does not lengthen. -/
theorem takes_iff {kind : TokenKind} {lexeme rest : List Char} :
    Takes kind lexeme rest ↔ Lexeme kind lexeme ∧ Delimits kind lexeme rest := by
  constructor
  · intro h
    cases h with
    | punctuator hText => exact ⟨.punctuator hText, delimits_punctuator hText _ _⟩
    | name hName hLongest =>
        have hRest := (longest_name_iff hName).1 hLongest
        obtain ⟨first, tail, rfl, hStart, hTail⟩ := hName
        exact ⟨.name hStart hTail, hRest⟩
    | number hNumber hRest =>
        refine ⟨.number hNumber, fun c hc => ?_⟩
        obtain ⟨hDigit, hDot, hStart⟩ := hRest c hc
        exact ⟨isNameContinue_eq_false.2 ⟨hStart, hDigit⟩, hDot⟩
    | string hInside hNotBlock => exact ⟨.string hInside, (not_block_iff hInside).1 hNotBlock⟩
    | @blockString inside _ hInside =>
        exact ⟨.blockString hInside, fun c _ hEmpty => by simp at hEmpty⟩
  · rintro ⟨hLexeme, hRest⟩
    cases hLexeme with
    | punctuator hText => exact .punctuator hText
    | name hStart hTail =>
        have hName : IsName _ := ⟨_, _, rfl, hStart, hTail⟩
        exact .name hName ((longest_name_iff hName).2 hRest)
    | number hNumber =>
        refine .number hNumber fun c hc => ?_
        obtain ⟨hContinue, hDot⟩ := hRest c hc
        obtain ⟨hStart, hDigit⟩ := isNameContinue_eq_false.1 hContinue
        exact ⟨hDigit, hDot, hStart⟩
    | string hInside => exact .string hInside ((not_block_iff hInside).2 hRest)
    | blockString hInside => exact .blockString hInside

/-- A scan finds what the rules allow. -/
theorem startsWith_iff_scan (start : Position) {c : Char} {cs lexeme : List Char}
    {kind : TokenKind} :
    StartsWith (c :: cs) kind lexeme ↔
      kind.isError = false ∧ (scan start c cs).kind = kind ∧
        (scan start c cs).lexeme = lexeme := by
  constructor
  · rintro ⟨rest, hText, hTakes⟩
    obtain ⟨hLexeme, hRest⟩ := takes_iff.1 hTakes
    obtain ⟨d, ds, rfl, hScan⟩ := scan_lexeme hLexeme hRest start
    obtain ⟨rfl, hTail⟩ : c = d ∧ cs = ds ++ rest := List.cons.inj hText
    rw [hTail, hScan]
    exact ⟨hLexeme.isError, rfl, rfl⟩
  · rintro ⟨hError, rfl, rfl⟩
    exact ⟨(scan start c cs).rest, (scan_lexeme_append_rest start c cs).symm,
      takes_iff.2 (lexeme_scan hError)⟩

theorem not_startsWith_nil {kind : TokenKind} {lexeme : List Char} :
    ¬ StartsWith [] kind lexeme := by
  rintro ⟨rest, hText, hTakes⟩
  obtain ⟨hLexeme, hRest⟩ := takes_iff.1 hTakes
  obtain ⟨c, cs, rfl, -⟩ := scan_lexeme hLexeme hRest {}
  cases hText

/-- A text starts with at most one lexeme. -/
theorem StartsWith.unique {text lexeme lexeme' : List Char} {kind kind' : TokenKind}
    (h : StartsWith text kind lexeme) (h' : StartsWith text kind' lexeme') :
    kind = kind' ∧ lexeme = lexeme' := by
  cases text with
  | nil => exact absurd h not_startsWith_nil
  | cons c cs =>
      obtain ⟨-, hKind, hLexeme⟩ := (startsWith_iff_scan {}).1 h
      obtain ⟨-, hKind', hLexeme'⟩ := (startsWith_iff_scan {}).1 h'
      exact ⟨hKind.symm.trans hKind', hLexeme.symm.trans hLexeme'⟩

/-- A scan finds a fault exactly where the rules allow nothing. -/
theorem isError_scan_iff (start : Position) (c : Char) (cs : List Char) :
    (scan start c cs).kind.isError = true ↔
      ¬ ∃ kind lexeme, StartsWith (c :: cs) kind lexeme := by
  constructor
  · rintro hError ⟨kind, lexeme, h⟩
    obtain ⟨hLegal, rfl, -⟩ := (startsWith_iff_scan start).1 h
    rw [hError] at hLegal
    cases hLegal
  · intro hNone
    by_contra hLegal
    exact hNone ⟨_, _, (startsWith_iff_scan start).2 ⟨Bool.eq_false_iff.2 hLegal, rfl, rfl⟩⟩

/-- The end of input is not made of characters. -/
theorem kind_scan_ne_eof (start : Position) (c : Char) (cs : List Char) :
    (scan start c cs).kind ≠ .eof := by
  intro hEnd
  have hLegal : (scan start c cs).kind.isError = false := by
    rw [hEnd]
    rfl
  exact not_lexeme_eof (hEnd ▸ (lexeme_scan hLegal).1)

/-- Nothing ignored is left after a gap. -/
theorem isGap_nil_spanIgnored (inComment : Bool) (cs : List Char) :
    IsGap [] (spanIgnored inComment cs).2 := by
  induction cs generalizing inComment with
  | nil => rfl
  | cons c cs ih =>
      rw [spanIgnored_cons]
      cases hIgnored : ignored? inComment c with
      | some goesOn => exact ih goesOn
      | none =>
          have hOutside : ignored? false c = none := by
            unfold ignored? at hIgnored ⊢
            grind
          rw [IsGap, List.nil_append, spanIgnored_cons, hOutside]

end Lexer

open Lexer Text

/-- Where a token of a text starts: what is left of the text there, with nothing ignored at its
start, and the scan that gave the token if anything is left. -/
theorem Token.exists_scan_of_mem_lex {text : String} {token : Token}
    (h : token ∈ Token.lex text) :
    ∃ left, afterBytes? token.start.offset text.toList = some left ∧ IsGap [] left ∧
      (left = [] ∧ token.kind = .eof ∨
        ∃ c cs, left = c :: cs ∧ token.kind = (scan token.start c cs).kind ∧
          token.text = String.ofList (scan token.start c cs).lexeme) := by
  obtain ⟨before, after, hLex⟩ := List.append_of_mem h
  obtain ⟨passed, cs, hText, hTokens⟩ := tokensFrom_tail hLex (by simp)
  have hGap := spanIgnored_append false cs
  have hStart (hOffset : token.start.offset = byteSize (passed ++ (spanIgnored false cs).1)) :
      afterBytes? token.start.offset text.toList = some (spanIgnored false cs).2 := by
    rw [hOffset, hText, ← afterBytes?_append (passed ++ (spanIgnored false cs).1)
      (spanIgnored false cs).2, List.append_assoc, hGap]
  refine ⟨(spanIgnored false cs).2, hStart ?_, isGap_nil_spanIgnored false cs, ?_⟩
  · cases hLeft : (spanIgnored false cs).2 with
    | nil =>
        rw [tokensFrom_nil hLeft] at hTokens
        obtain ⟨rfl, -⟩ := List.cons.inj hTokens
        simp [Token.eofAt, Token.start, Span.emptyAt, Cursor.offset_walk]
    | cons c rest =>
        rw [tokensFrom_cons hLeft] at hTokens
        obtain ⟨rfl, -⟩ := List.cons.inj hTokens
        simp [Token.start, Cursor.offset_walk]
  · cases hLeft : (spanIgnored false cs).2 with
    | nil =>
        rw [tokensFrom_nil hLeft] at hTokens
        obtain ⟨rfl, -⟩ := List.cons.inj hTokens
        exact .inl ⟨rfl, rfl⟩
    | cons c rest =>
        rw [tokensFrom_cons hLeft] at hTokens
        obtain ⟨rfl, -⟩ := List.cons.inj hTokens
        exact .inr ⟨c, rest, rfl, rfl, rfl⟩

/-- The lexer recognises exactly the lexical grammar. Where a token starts, the lexer gives a kind
and a lexeme exactly if the text left there starts with the lexeme by the rule of the kind. The
rules allow at most one lexeme, and the token is a fault exactly if characters are left and none is
allowed. -/
theorem Token.lex_recognizes {text : String} {token : Token} (h : token ∈ Token.lex text) :
    ∃ left, afterBytes? token.start.offset text.toList = some left ∧ IsGap [] left ∧
      (token.kind = .eof ↔ left = []) ∧
      (∀ kind lexeme, token.Sound ∧ token.kind = kind ∧ token.text.toList = lexeme ↔
        StartsWith left kind lexeme) ∧
      (∀ kind lexeme kind' lexeme', StartsWith left kind lexeme → StartsWith left kind' lexeme' →
        kind = kind' ∧ lexeme = lexeme') ∧
      (token.kind.isError = true ↔
        left ≠ [] ∧ ¬ ∃ kind lexeme, StartsWith left kind lexeme) := by
  obtain ⟨left, hLeft, hGap, hScan⟩ := Token.exists_scan_of_mem_lex h
  refine ⟨left, hLeft, hGap, ?_, fun kind lexeme => ?_, fun _ _ _ _ => StartsWith.unique, ?_⟩
  · rcases hScan with ⟨rfl, hEnd⟩ | ⟨c, cs, rfl, hKind, -⟩
    · simp [hEnd]
    · simp [hKind, kind_scan_ne_eof]
  · rcases hScan with ⟨rfl, hEnd⟩ | ⟨c, cs, rfl, hKind, hText⟩
    · exact iff_of_false (fun hToken => hToken.1.2 hEnd) not_startsWith_nil
    · rw [startsWith_iff_scan token.start, Token.Sound, hKind, hText, String.toList_ofList]
      constructor
      · rintro ⟨⟨hLegal, -⟩, rfl, rfl⟩
        exact ⟨hLegal, rfl, rfl⟩
      · rintro ⟨hLegal, rfl, rfl⟩
        exact ⟨⟨hLegal, kind_scan_ne_eof _ _ _⟩, rfl, rfl⟩
  · rcases hScan with ⟨rfl, hEnd⟩ | ⟨c, cs, rfl, hKind, -⟩
    · simp [hEnd, TokenKind.isError]
    · rw [hKind, isError_scan_iff]
      simp

/-- A signed number with a blank after it is what the text starts with at its sign. -/
theorem Token.lex_recognizes_number :
    ⟨.number, ⟨⟨0, 1, 1, 1⟩, ⟨0, 8, 8, 8⟩⟩, "-1.50e3"⟩ ∈ Token.lex "[-1.50e3 ...]" ∧
      ∃ left, afterBytes? 1 "[-1.50e3 ...]".toList = some left ∧
        StartsWith left .number "-1.50e3".toList := by
  have hMem : (⟨.number, ⟨⟨0, 1, 1, 1⟩, ⟨0, 8, 8, 8⟩⟩, "-1.50e3"⟩ : Token) ∈
      Token.lex "[-1.50e3 ...]" := by
    with_unfolding_all decide
  obtain ⟨left, hLeft, -, -, hStarts, -⟩ := Token.lex_recognizes hMem
  exact ⟨hMem, left, hLeft, (hStarts _ _).1 ⟨⟨rfl, by decide⟩, rfl, rfl⟩⟩

end GraphQL
