import GraphQL.Proofs.Text.Slice
import GraphQL.Proofs.Token.Lexeme
import GraphQL.Source.Basic

/-! Whole texts against the lexical grammar. The words of a text do not depend on where it stands:
any run of its tokens, cut out of the text, gives the same words again. -/
namespace GraphQL

/-- What a token is, apart from its place. -/
abbrev Word := TokenKind × String

def Token.word (token : Token) : Word := (token.kind, token.text)

/-- The end of input as a word. -/
def Word.eof : Word := (.eof, "")

/-- Tokens in a form in which they can be read: the end of input comes last and only there. -/
def Closed (tokens : List Token) : Prop :=
  ∃ before last, tokens = before ++ [last] ∧ last.kind = .eof ∧ ∀ t ∈ before, t.kind ≠ .eof

theorem Closed.ne_nil {tokens : List Token} (h : Closed tokens) : tokens ≠ [] := by
  obtain ⟨before, last, rfl, -⟩ := h
  simp

theorem Closed.tail {token : Token} {tokens : List Token} (h : Closed (token :: tokens))
    (hEnd : token.kind ≠ .eof) : Closed tokens := by
  obtain ⟨before, last, hTokens, hLast, hBefore⟩ := h
  cases before with
  | nil =>
      obtain ⟨rfl, -⟩ := List.cons.inj hTokens
      exact absurd hLast hEnd
  | cons first before =>
      obtain ⟨-, rfl⟩ := List.cons.inj hTokens
      exact ⟨before, last, rfl, hLast, fun t ht => hBefore t (List.mem_cons_of_mem _ ht)⟩

/-- The end of input has nothing after it. -/
theorem Closed.kind_ne_eof {token next : Token} {tokens : List Token}
    (h : Closed (token :: next :: tokens)) : token.kind ≠ .eof := by
  obtain ⟨before, last, hTokens, -, hBefore⟩ := h
  cases before with
  | nil => simp at hTokens
  | cons first before =>
      obtain ⟨rfl, -⟩ := List.cons.inj hTokens
      exact hBefore _ List.mem_cons_self

theorem Closed.eq_nil {token : Token} {tokens : List Token} (h : Closed (token :: tokens))
    (hEnd : token.kind = .eof) : tokens = [] := by
  cases tokens with
  | nil => rfl
  | cons next tokens => exact absurd hEnd h.kind_ne_eof

/-- What is left of a closed run is closed as long as anything is left. -/
theorem Closed.of_append {before tokens : List Token} (h : Closed (before ++ tokens))
    (hTokens : tokens ≠ []) : Closed tokens := by
  induction before with
  | nil => exact h
  | cons token before ih =>
      refine ih (Closed.tail h ?_)
      obtain ⟨next, rest, hRest⟩ := List.exists_cons_of_ne_nil
        (show before ++ tokens ≠ [] by simp [hTokens])
      rw [List.cons_append, hRest] at h
      exact h.kind_ne_eof

namespace Lexer

open Text

/-- `gap` is all that is ignored before `rest`. -/
def IsGap (gap rest : List Char) : Prop := spanIgnored false (gap ++ rest) = (gap, rest)

/-- What is ignored up to the next lexeme is a gap, and goes as far as it can. -/
theorem isGap_spanIgnored (cs : List Char) :
    IsGap (spanIgnored false cs).1 (spanIgnored false cs).2 := by
  rw [IsGap, spanIgnored_append]

/-- Whether `c` is ignored, and if so whether a comment goes on after it. -/
def ignored? (inComment : Bool) (c : Char) : Option Bool :=
  if inComment && !isLineEnd c then some true
  else if isIgnored c then some false
  else if c == '#' then some true
  else none

/-- The next character is ignored or not by what it is and by whether a comment is open. -/
theorem spanIgnored_cons (inComment : Bool) (c : Char) (cs : List Char) :
    spanIgnored inComment (c :: cs) = match ignored? inComment c with
      | some goesOn => (c :: (spanIgnored goesOn cs).1, (spanIgnored goesOn cs).2)
      | none => ([], c :: cs) := by
  unfold ignored?
  rw [spanIgnored]
  split
  · rfl
  · split
    · rfl
    · split <;> rfl

/-- Only the first character after ignored ones decides where they end. -/
theorem spanIgnored_replace {inComment : Bool} {gap rest more : List Char} {c : Char}
    (h : spanIgnored inComment (gap ++ c :: rest) = (gap, c :: rest)) :
    spanIgnored inComment (gap ++ c :: more) = (gap, c :: more) := by
  induction gap generalizing inComment with
  | nil =>
      rw [List.nil_append, spanIgnored_cons] at h ⊢
      cases hIgnored : ignored? inComment c with
      | none => rfl
      | some goesOn => simp [hIgnored] at h
  | cons d gap ih =>
      rw [List.cons_append, spanIgnored_cons] at h ⊢
      cases hIgnored : ignored? inComment d with
      | none => simp [hIgnored] at h
      | some goesOn =>
          have hTail : spanIgnored goesOn (gap ++ c :: rest) = (gap, c :: rest) := by
            simpa [hIgnored, Prod.ext_iff] using h
          simp [ih hTail]

/-- Of what follows a gap only the first character matters. -/
theorem IsGap.replace {gap rest more : List Char} {c : Char} (h : IsGap gap (c :: rest)) :
    IsGap gap (c :: more) := spanIgnored_replace h

/-- No lexeme starts with an ignored character. -/
theorem isGap_nil_of_scan {start : Position} {c : Char} {cs : List Char} (rest : List Char)
    (h : (scan start c cs).kind.isError = false) : IsGap [] (c :: rest) := by
  have hIgnored : ignored? false c = none := by
    cases hCase : ignored? false c with
    | none => rfl
    | some goesOn =>
        have hMember : c ∈ [' ', '\t', '\n', '\r', ',', '\uFEFF', '#'] := by
          simp only [ignored?, isIgnored, isSpace, isLineEnd] at hCase
          simp only [List.mem_cons, List.not_mem_nil, or_false]
          grind
        simp only [List.mem_cons, List.not_mem_nil, or_false] at hMember
        rcases hMember with rfl | rfl | rfl | rfl | rfl | rfl | rfl <;> cases h
  rw [IsGap, List.nil_append, spanIgnored_cons, hIgnored]

/-- One ignored character before nothing ignored is a gap. -/
theorem isGap_mark {mark : Char} {rest : List Char} (hMark : isIgnored mark = true)
    (h : IsGap [] rest) : IsGap [mark] rest := by
  have hIgnored : ignored? false mark = some false := by simp [ignored?, hMark]
  rw [IsGap, List.cons_append, spanIgnored_cons, hIgnored]
  rw [IsGap, List.nil_append] at h
  simp [h]

/-- The words that some characters consist of, with what is ignored before and after each. -/
inductive Splits : List Char → List Word → Prop where
  | done {gap : List Char} (hGap : IsGap gap []) : Splits gap []
  | word {gap lexeme rest : List Char} {kind : TokenKind} {words : List Word}
      (hGap : IsGap gap (lexeme ++ rest)) (hLexeme : Lexeme kind lexeme)
      (hRest : Delimits kind lexeme rest) (more : Splits rest words) :
      Splits (gap ++ (lexeme ++ rest)) ((kind, String.ofList lexeme) :: words)

/-- Where all that is left is ignored there is the end of input alone. -/
theorem tokensFrom_nil {cursor : Cursor} {cs : List Char} (h : (spanIgnored false cs).2 = []) :
    tokensFrom cursor cs = [.eofAt (cursor.walk (spanIgnored false cs).1).position] := by
  rw [tokensFrom]
  split
  · rfl
  · next c rest hRest => simp [h] at hRest

/-- Where something is left that is not ignored, it is scanned and the rest goes on behind it. -/
theorem tokensFrom_cons {cursor : Cursor} {cs rest : List Char} {c : Char}
    (h : (spanIgnored false cs).2 = c :: rest) :
    tokensFrom cursor cs =
      let start := cursor.walk (spanIgnored false cs).1
      let found := scan start.position c rest
      let stop := start.walk found.lexeme
      ⟨found.kind, ⟨start.position, stop.position⟩, String.ofList found.lexeme⟩ ::
        tokensFrom stop found.rest := by
  rw [tokensFrom]
  split
  · next hRest => simp [h] at hRest
  · next d more hRest =>
      rw [h] at hRest
      cases hRest
      rfl

/-- A lexeme that comes next becomes the next token, and lexing goes on after it. -/
theorem tokensFrom_word {gap lexeme rest : List Char} {kind : TokenKind}
    (hGap : IsGap gap (lexeme ++ rest)) (hLexeme : Lexeme kind lexeme)
    (hRest : Delimits kind lexeme rest) (cursor : Cursor) :
    tokensFrom cursor (gap ++ (lexeme ++ rest)) =
      ⟨kind, ⟨(cursor.walk gap).position, (cursor.walk (gap ++ lexeme)).position⟩,
        String.ofList lexeme⟩ :: tokensFrom (cursor.walk (gap ++ lexeme)) rest := by
  obtain ⟨c, cs, rfl, hScan⟩ := scan_lexeme hLexeme hRest (cursor.walk gap).position
  have hFirst : (spanIgnored false (gap ++ (c :: cs ++ rest))).1 = gap := by rw [hGap]
  rw [tokensFrom_cons (show (spanIgnored false _).2 = c :: (cs ++ rest) by rw [hGap]; rfl),
    hFirst, Cursor.walk_append]
  simp only [hScan]

/-- The tokens of a text that splits into words are those words and the end of input. -/
theorem words_tokensFrom {cs : List Char} {words : List Word} (h : Splits cs words)
    (cursor : Cursor) : (tokensFrom cursor cs).map Token.word = words ++ [Word.eof] := by
  induction h generalizing cursor with
  | done hGap =>
      rw [IsGap, List.append_nil] at hGap
      rw [tokensFrom_nil (by rw [hGap])]
      rfl
  | word hGap hLexeme hRest more ih =>
      rw [tokensFrom_word hGap hLexeme hRest, List.map_cons, ih]
      rfl

/-- A first token without a fault comes of a lexeme after a gap. -/
theorem exists_word_of_tokensFrom {cursor : Cursor} {cs : List Char} {token : Token}
    {tokens : List Token} (h : tokensFrom cursor cs = token :: tokens)
    (hEnd : token.kind ≠ .eof) (hError : token.kind.isError = false) :
    ∃ gap lexeme rest, cs = gap ++ (lexeme ++ rest) ∧ IsGap gap (lexeme ++ rest) ∧
      IsGap [] (lexeme ++ rest) ∧ lexeme ≠ [] ∧ Lexeme token.kind lexeme ∧
      Delimits token.kind lexeme rest ∧ token.word = (token.kind, String.ofList lexeme) ∧
      token.start.offset = cursor.position.offset + byteSize gap ∧
      token.stop.offset = cursor.position.offset + byteSize (gap ++ lexeme) ∧
      tokens = tokensFrom (cursor.walk (gap ++ lexeme)) rest := by
  cases hRest : (spanIgnored false cs).2 with
  | nil =>
      rw [tokensFrom_nil hRest] at h
      cases h
      exact absurd rfl hEnd
  | cons c rest =>
      rw [tokensFrom_cons hRest] at h
      simp only [List.cons.injEq] at h
      obtain ⟨rfl, rfl⟩ := h
      have hGap := isGap_spanIgnored cs
      have hAll := spanIgnored_append false cs
      have hAppend := scan_lexeme_append_rest
        (cursor.walk (spanIgnored false cs).1).position c rest
      obtain ⟨hLexeme, hDelimits⟩ := lexeme_scan hError
      rw [hRest] at hGap hAll
      rw [← hAppend] at hGap hAll
      refine ⟨_, _, _, hAll.symm, hGap, ?_, scan_lexeme_ne_nil _ _ _, hLexeme, hDelimits, rfl,
        Cursor.offset_walk _ _, ?_, ?_⟩
      · rw [hAppend]
        exact isGap_nil_of_scan rest hError
      · rw [← Cursor.offset_walk, Cursor.walk_append]
        rfl
      · rw [Cursor.walk_append]

end Lexer

end GraphQL
