import GraphQL.Proofs.Token.Lexing
import GraphQL.Proofs.Text.Slice
import GraphQL.Source.Basic

/-! Runs of the tokens of a text. A run without faults, cut out of the text from its first byte to
its last, consists of the same words; so do its words with single spaces between them. -/
namespace GraphQL

/-- The bytes from the first of some tokens to the last. -/
def Token.cover (tokens : List Token) : ByteRange :=
  ⟨((tokens.head?.map Token.start).getD {}).offset,
    ((tokens.getLast?.map Token.stop).getD {}).offset⟩

/-- A token that has characters which are no fault. -/
def Token.Sound (token : Token) : Prop := token.kind.isError = false ∧ token.kind ≠ .eof

namespace Lexer

open Text

/-- Whatever tokens come before, the tokens after them are those of what is left of the text. -/
theorem tokensFrom_tail {before tokens : List Token} {cursor : Cursor} {cs : List Char}
    (h : tokensFrom cursor cs = before ++ tokens) (hTokens : tokens ≠ []) :
    ∃ passed rest, cs = passed ++ rest ∧ tokens = tokensFrom (cursor.walk passed) rest := by
  induction before generalizing cursor cs with
  | nil => exact ⟨[], cs, rfl, h.symm⟩
  | cons token before ih =>
      cases hRest : (spanIgnored false cs).2 with
      | nil =>
          rw [tokensFrom_nil hRest] at h
          simp at h
          exact absurd h.2.2 hTokens
      | cons c rest =>
          rw [tokensFrom_cons hRest] at h
          simp only [List.cons_append, List.cons.injEq] at h
          obtain ⟨passed, left, hSplit, hLeft⟩ := ih h.2
          refine ⟨(spanIgnored false cs).1 ++
            (scan (cursor.walk (spanIgnored false cs).1).position c rest).lexeme ++ passed, left,
            ?_, ?_⟩
          · rw [List.append_assoc, List.append_assoc, ← hSplit, scan_lexeme_append_rest, ← hRest,
              spanIgnored_append]
          · rw [hLeft, Cursor.walk_append, Cursor.walk_append]

theorem not_lexeme_eof {lexeme : List Char} : ¬ Lexeme .eof lexeme := by
  generalize hKind : TokenKind.eof = kind
  intro h
  cases h with
  | punctuator h => subst hKind; cases h
  | name | number | string | blockString => cases hKind

/-- The lexer gives the end of input last, and only there. -/
theorem tokensFrom_closed (cursor : Cursor) (cs : List Char) : Closed (tokensFrom cursor cs) := by
  fun_induction tokensFrom cursor cs with
  | case1 cursor cs => exact ⟨[], _, rfl, rfl, fun _ h => nomatch h⟩
  | case2 cursor cs gap start c rest hRest found stop ih =>
      obtain ⟨before, last, hTokens, hLast, hBefore⟩ := ih
      refine ⟨_ :: before, last, by rw [hTokens, List.cons_append], hLast, ?_⟩
      intro t ht
      rcases List.mem_cons.1 ht with rfl | ht
      · intro (hEnd : found.kind = .eof)
        have hLexeme := (lexeme_scan (show found.kind.isError = false by rw [hEnd]; rfl)).1
        exact not_lexeme_eof (hEnd ▸ hLexeme)
      · exact hBefore t ht

theorem Lexeme.isError {kind : TokenKind} {lexeme : List Char} (h : Lexeme kind lexeme) :
    kind.isError = false := by
  cases h with
  | @punctuator _ text h => cases kind <;> first | rfl | cases h
  | name | number | string | blockString => rfl

/-- A punctuator is spelled in one way. -/
theorem Lexeme.eq_punctuator {kind : TokenKind} {lexeme : List Char} {text : String}
    (h : Lexeme kind lexeme) (hKind : kind.punctuator? = some text) : lexeme = text.toList := by
  cases h with
  | punctuator hText => rw [Option.some.inj (hText.symm.trans hKind)]
  | name | number | string | blockString => cases hKind

/-- No lexeme starts with what is ignored. -/
theorem Lexeme.isGap {kind : TokenKind} {lexeme rest : List Char} (h : Lexeme kind lexeme)
    (hRest : Delimits kind lexeme rest) : IsGap [] (lexeme ++ rest) := by
  obtain ⟨c, cs, rfl, hScan⟩ := scan_lexeme h hRest {}
  have hLegal : (scan {} c (cs ++ rest)).kind.isError = false := by
    rw [hScan]
    exact h.isError
  exact isGap_nil_of_scan _ hLegal

/-- An ignored character lengthens no lexeme. -/
theorem delimits_mark {mark : Char} (hMark : isIgnored mark = true) (kind : TokenKind)
    (lexeme rest : List Char) : Delimits kind lexeme (mark :: rest) := by
  have hEnds : isNameContinue mark = false ∧ mark ≠ '.' ∧ mark ≠ '"' := by
    simp only [isIgnored, isSpace, isLineEnd, Bool.or_eq_true, beq_iff_eq] at hMark
    rcases hMark with ((hMark | hMark) | rfl) | rfl
    · rcases hMark with rfl | rfl <;> decide
    · rcases hMark with rfl | rfl <;> decide
    all_goals decide
  rintro c ⟨⟩
  cases kind <;> simp [hEnds]

/-- Lexemes with an ignored mark between any two are read back one by one. -/
theorem splits_intercalate {mark : Char} (hMark : isIgnored mark = true) {words : List Word}
    (h : ∀ w ∈ words, Lexeme w.1 w.2.toList) :
    Splits ([mark].intercalate (words.map fun w => w.2.toList)) words ∧
      (words ≠ [] → Splits (mark :: [mark].intercalate (words.map fun w => w.2.toList)) words) := by
  induction words with
  | nil => exact ⟨.done rfl, fun h => absurd rfl h⟩
  | cons word words ih =>
      have hLexeme := h word List.mem_cons_self
      obtain ⟨kind, text⟩ := word
      have ihMore := ih fun w hw => h w (List.mem_cons_of_mem _ hw)
      -- the characters after the first lexeme: none, or a mark and the lexemes after it
      obtain ⟨rest, hAll, hRest, hSplits⟩ : ∃ rest,
          [mark].intercalate (((kind, text) :: words).map fun w => w.2.toList) =
            text.toList ++ rest ∧ Delimits kind text.toList rest ∧ Splits rest words := by
        cases words with
        | nil => exact ⟨[], by simp, (fun _ h => nomatch h), Splits.done rfl⟩
        | cons next words =>
            exact ⟨_, by simp [List.intercalate_cons_cons], delimits_mark hMark _ _ _,
              ihMore.2 (by simp)⟩
      have hGap := hLexeme.isGap hRest
      have hFirst := Splits.word hGap hLexeme hRest hSplits
      have hLater := Splits.word (isGap_mark hMark hGap) hLexeme hRest hSplits
      rw [String.ofList_toList] at hFirst hLater
      rw [hAll]
      exact ⟨hFirst, fun _ => hLater⟩

/-- A run of sound tokens comes of characters that split into its words, after a gap. -/
theorem splits_of_tokensFrom {tokens after : List Token} {cursor : Cursor} {cs : List Char}
    (h : tokensFrom cursor cs = tokens ++ after) (hTokens : tokens ≠ [])
    (hSound : ∀ t ∈ tokens, t.Sound) :
    ∃ gap c body rest, cs = gap ++ c :: (body ++ rest) ∧
      Splits (gap ++ c :: body) (tokens.map Token.word) ∧
      Splits (c :: body) (tokens.map Token.word) ∧
      Token.cover tokens = ⟨cursor.position.offset + byteSize gap,
        cursor.position.offset + byteSize (gap ++ c :: body)⟩ := by
  induction tokens generalizing cursor cs with
  | nil => exact absurd rfl hTokens
  | cons token tokens ih =>
      obtain ⟨hError, hEnd⟩ := hSound token List.mem_cons_self
      obtain ⟨gap, lexeme, rest, rfl, hGap, hFirst, hNonempty, hLexeme, hRest, hWord, hStart, hStop,
        hTail⟩ := exists_word_of_tokensFrom h hEnd hError
      obtain ⟨c, lexeme, rfl⟩ := List.exists_cons_of_ne_nil hNonempty
      cases tokens with
      | nil =>
          have hSplits (lead : List Char) (hLead : IsGap lead (c :: (lexeme ++ []))) :=
            Splits.word hLead hLexeme (fun _ h => nomatch h) (.done rfl)
          refine ⟨gap, c, lexeme, rest, by simp, ?_, ?_, ?_⟩
          · simpa [hWord] using hSplits gap hGap.replace
          · simpa [hWord] using hSplits [] hFirst.replace
          · simp [Token.cover, hStart, hStop]
      | cons next tokens =>
          obtain ⟨inner, d, body, left, rfl, hSplits, -, hCover⟩ := ih hTail.symm
            (by simp) (fun t ht => hSound t (List.mem_cons_of_mem _ ht))
          -- the rest of the run is cut off, and only its first character can matter here
          have hDelimits : Delimits token.kind (c :: lexeme) (inner ++ d :: body) := by
            cases inner <;> exact hRest
          have hMore (lead : List Char)
              (hLead : IsGap lead (c :: (lexeme ++ (inner ++ d :: body)))) :=
            Splits.word hLead hLexeme hDelimits hSplits
          refine ⟨gap, c, lexeme ++ (inner ++ d :: body), left, by simp, ?_, ?_, ?_⟩
          · simpa [hWord] using hMore gap hGap.replace
          · simpa [hWord] using hMore [] hFirst.replace
          · simp only [Token.cover, List.head?_cons, List.getLast?_cons_cons, ByteRange.mk.injEq,
              Option.map_some, Option.getD_some, Cursor.offset_walk, byteSize_append,
              byteSize_cons] at hCover ⊢
            refine ⟨hStart, ?_⟩
            rw [hCover.2]
            omega

/-- What tokens cover is cut out of the text, with what is ignored between them. -/
theorem slice_cover {source : Source} {passed gap body rest : List Char} {tokens : List Token}
    (hText : source.text.toList = passed ++ (gap ++ (body ++ rest)))
    (hCover : Token.cover tokens = ⟨byteSize (passed ++ gap), byteSize (passed ++ gap ++ body)⟩) :
    source.slice (Token.cover tokens) = String.ofList body := by
  rw [hCover, Source.slice, Source.chars, hText]
  have hSlice := slice_append (passed ++ gap) body rest
  simp only [List.append_assoc] at hSlice ⊢
  rw [hSlice]

end Lexer

open Lexer Text

/-- The tokens of a text are closed by its end. -/
theorem Token.lex_closed (text : String) : Closed (Token.lex text) := tokensFrom_closed _ _

/-- The bytes of a token are its characters. -/
theorem slice_of_mem_lex {source : Source} {token : Token} (h : token ∈ Token.lex source.text) :
    source.slice token.bytes = token.text := by
  obtain ⟨before, after, h⟩ := List.append_of_mem h
  obtain ⟨passed, cs, hText, hTokensFrom⟩ := tokensFrom_tail h (by simp)
  have hGap := spanIgnored_append false cs
  have hCover : Token.cover [token] = token.bytes := rfl
  rw [← hCover]
  cases hRest : (spanIgnored false cs).2 with
  | nil =>
      rw [tokensFrom_nil hRest] at hTokensFrom
      obtain ⟨rfl, -⟩ := List.cons.inj hTokensFrom
      rw [← hGap, hRest] at hText
      refine (slice_cover hText ?_ : _ = String.ofList [])
      simp [Token.cover, Token.eofAt, Token.start, Token.stop, Span.emptyAt, Cursor.offset_walk]
  | cons c rest =>
      rw [tokensFrom_cons hRest] at hTokensFrom
      obtain ⟨rfl, -⟩ := List.cons.inj hTokensFrom
      rw [← hGap, hRest, ← scan_lexeme_append_rest
        ((Cursor.walk {} passed).walk (spanIgnored false cs).1).position] at hText
      refine slice_cover hText ?_
      simp [Token.cover, Token.start, Token.stop, Cursor.offset_walk, Nat.add_assoc]

/-- The characters of a sound token are a lexeme of its kind. -/
theorem lexeme_of_mem_lex {text : String} {token : Token} (h : token ∈ Token.lex text)
    (hSound : token.Sound) : Lexeme token.kind token.text.toList := by
  obtain ⟨before, after, h⟩ := List.append_of_mem h
  obtain ⟨passed, cs, -, hTokensFrom⟩ := tokensFrom_tail h (by simp)
  obtain ⟨gap, lexeme, rest, -, -, -, -, hLexeme, -, hWord, -⟩ :=
    exists_word_of_tokensFrom hTokensFrom.symm hSound.2 hSound.1
  have hText : token.text = String.ofList lexeme := congrArg Prod.snd hWord
  rwa [hText, String.toList_ofList]

/-- The tokens of a text before its end. -/
def Token.beforeEnd (text : String) : List Token :=
  (Token.lex text).takeWhile fun token => token.kind ≠ .eof

theorem Token.beforeEnd_infix (text : String) : Token.beforeEnd text <:+: Token.lex text :=
  (List.takeWhile_prefix _).isInfix

/-- Closed tokens are those before the end of input, and the end of input. -/
theorem Closed.takeWhile {tokens : List Token} (h : Closed tokens) :
    ∃ last, last.kind = .eof ∧
      tokens = (tokens.takeWhile fun token => token.kind ≠ .eof) ++ [last] := by
  obtain ⟨before, last, rfl, hLast, hBefore⟩ := h
  refine ⟨last, hLast, ?_⟩
  rw [List.takeWhile_append_of_pos (by simpa using hBefore)]
  simp [hLast]

theorem Token.lex_eq (text : String) :
    ∃ last, last.kind = .eof ∧ Token.lex text = Token.beforeEnd text ++ [last] :=
  (Token.lex_closed text).takeWhile

/-- What a run of tokens covers in its text: characters that split into its words. -/
theorem exists_splits_of_run {source : Source} {tokens : List Token}
    (h : tokens <:+: Token.lex source.text) (hTokens : tokens ≠ [])
    (hSound : ∀ t ∈ tokens, t.Sound) :
    ∃ body, source.slice (Token.cover tokens) = String.ofList body ∧
      Splits body (tokens.map Token.word) := by
  obtain ⟨before, after, h⟩ := h
  rw [List.append_assoc] at h
  obtain ⟨passed, cs, hText, hTokensFrom⟩ := tokensFrom_tail h.symm (by simp [hTokens])
  obtain ⟨gap, c, body, rest, rfl, -, hSplits, hCover⟩ :=
    splits_of_tokensFrom hTokensFrom.symm hTokens hSound
  refine ⟨c :: body, slice_cover hText ?_, hSplits⟩
  rw [hCover]
  simp [Cursor.offset_walk]

/-- A run of sound tokens, cut out of its text, consists of the same words. -/
theorem words_lex_slice {source : Source} {tokens : List Token}
    (h : tokens <:+: Token.lex source.text) (hTokens : tokens ≠ [])
    (hSound : ∀ t ∈ tokens, t.Sound) :
    (Token.lex (source.slice (Token.cover tokens))).map Token.word =
      tokens.map Token.word ++ [Word.eof] := by
  obtain ⟨body, hSlice, hSplits⟩ := exists_splits_of_run h hTokens hSound
  rw [hSlice, Token.lex, String.toList_ofList]
  exact words_tokensFrom hSplits {}

/-- The same words stand before the end of the text that was cut out. -/
theorem words_beforeEnd_slice {source : Source} {tokens : List Token}
    (h : tokens <:+: Token.lex source.text) (hTokens : tokens ≠ [])
    (hSound : ∀ t ∈ tokens, t.Sound) :
    (Token.beforeEnd (source.slice (Token.cover tokens))).map Token.word =
      tokens.map Token.word := by
  have hWords := words_lex_slice h hTokens hSound
  obtain ⟨last, -, hLex⟩ := Token.lex_eq (source.slice (Token.cover tokens))
  rw [hLex, List.map_append] at hWords
  exact (List.append_inj' hWords rfl).1

/-- A token that is a punctuator has the characters of that punctuator. -/
theorem text_of_mem_lex {text word : String} {token : Token} (h : token ∈ Token.lex text)
    (hKind : token.kind.punctuator? = some word) : token.text = word := by
  have hSound : token.Sound := by
    constructor
    · cases hToken : token.kind <;> first | rfl | (rw [hToken] at hKind; cases hKind)
    · intro hToken
      rw [hToken] at hKind
      cases hKind
  exact String.toList_inj.1 ((lexeme_of_mem_lex h hSound).eq_punctuator hKind)

/-- Words with one ignored character between any two are read back as they are. -/
theorem words_lex_joined {mark : Char} (hMark : isIgnored mark = true) {words : List Word}
    (h : ∀ w ∈ words, Lexeme w.1 w.2.toList) :
    (Token.lex ((String.singleton mark).intercalate (words.map Prod.snd))).map Token.word =
      words ++ [Word.eof] := by
  refine words_tokensFrom ?_ {}
  rw [String.toList_intercalate, String.toList_singleton, List.map_map]
  exact (splits_intercalate hMark h).1

/-- Words with single spaces between them are read back as they are. -/
theorem words_lex_intercalate {words : List Word}
    (h : ∀ w ∈ words, Lexeme w.1 w.2.toList) :
    (Token.lex (" ".intercalate (words.map Prod.snd))).map Token.word = words ++ [Word.eof] := by
  have hSpace : " " = String.singleton ' ' := rfl
  rw [hSpace]
  exact words_lex_joined rfl h

/-- A text is a lexeme exactly if it is read as one token, which is no fault. -/
theorem lexeme_iff {kind : TokenKind} {text : String} :
    Lexeme kind text.toList ↔ kind.isError = false ∧
      (Token.lex text).map Token.word = [(kind, text), Word.eof] := by
  constructor
  · intro h
    have hLex : (Token.lex (" ".intercalate ([(kind, text)].map Prod.snd))).map Token.word =
        [(kind, text)] ++ [Word.eof] := words_lex_intercalate (by simpa using h)
    refine ⟨h.isError, ?_⟩
    simpa using hLex
  · rintro ⟨hError, hLex⟩
    obtain ⟨token, rest, hTokens, hToken, hRest⟩ := List.map_eq_cons_iff.1 hLex
    have hKind : token.kind = kind := congrArg Prod.fst hToken
    have hText : token.text = text := congrArg Prod.snd hToken
    have hClosed := Token.lex_closed text
    rw [hTokens] at hClosed
    have hEnd : token.kind ≠ .eof := by
      cases rest with
      | nil => cases hRest
      | cons next rest => exact hClosed.kind_ne_eof
    rw [← hKind, ← hText]
    exact lexeme_of_mem_lex (by rw [hTokens]; exact List.mem_cons_self) ⟨hKind ▸ hError, hEnd⟩

/-- A text that is a lexeme is one token from its first character to its last. -/
theorem lex_of_lexeme {kind : TokenKind} {text : String} (h : Lexeme kind text.toList) :
    Token.lex text =
      [⟨kind, ⟨{}, (Cursor.walk {} text.toList).position⟩, text⟩,
        .eofAt (Cursor.walk {} text.toList).position] := by
  have hRest : Delimits kind text.toList [] := fun _ h => nomatch h
  have hWord := tokensFrom_word (h.isGap hRest) h hRest {}
  have hEnd (cursor : Cursor) : tokensFrom cursor [] = [.eofAt cursor.position] :=
    tokensFrom_nil rfl
  rw [List.append_nil, List.nil_append, hEnd, String.ofList_toList] at hWord
  exact hWord

instance (kind : TokenKind) (text : String) : Decidable (Lexeme kind text.toList) :=
  decidable_of_iff _ lexeme_iff.symm

end GraphQL
