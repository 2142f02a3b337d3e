import GraphQL.Proofs.TypeExpr
import GraphQL.Proofs.Token.Recognition

/-! Types as they are displayed. What is read as a type has its words, and the display of a type is
cut into the same words, so the two are inverse to each other up to what is ignored between the
words. -/
namespace GraphQL

namespace Lexer

/-- The lexemes of names are the names. -/
theorem lexeme_name_iff {cs : List Char} : Lexeme .name cs ↔ IsName cs := by
  constructor
  · generalize hKind : TokenKind.name = kind
    rintro (hText | ⟨hStart, hContinue⟩ | _ | _ | _)
    · subst hKind
      cases hText
    · exact ⟨_, _, rfl, hStart, hContinue⟩
    all_goals cases hKind
  · rintro ⟨first, tail, rfl, hStart, hContinue⟩
    exact .name hStart hContinue

/-- A lexeme before characters that split into words, with nothing ignored between them. -/
theorem Splits.lexeme {text rest : List Char} {kind : TokenKind} {words : List Word}
    (h : Lexeme kind text) (hRest : Delimits kind text rest) (more : Splits rest words) :
    Splits (text ++ rest) ((kind, String.ofList text) :: words) :=
  .word (h.isGap hRest) h hRest more

/-- A punctuator may stand before anything. -/
theorem Splits.sign {text : String} {rest : List Char} {kind : TokenKind} {words : List Word}
    (h : kind.punctuator? = some text) (more : Splits rest words) :
    Splits (text.toList ++ rest) ((kind, text) :: words) := by
  have hSplits := more.lexeme (.punctuator h) (delimits_punctuator h _ _)
  rwa [String.ofList_toList] at hSplits

end Lexer

namespace TypeExpr

open Lexer

/-- The mark that completes a type is the one that its nullability asks for. -/
theorem words_of_marked {build : Bool → TypeExpr} {tokens rest : List Token} {type : TypeExpr}
    (hText : ∀ t ∈ tokens, ∀ word, t.kind.punctuator? = some word → t.text = word)
    (h : marked build tokens = (type, rest)) :
    ∃ nullable mark, type = build nullable ∧ tokens = mark ++ rest ∧
      mark.map Token.word = markWords nullable := by
  cases tokens with
  | nil =>
      cases h
      exact ⟨true, [], rfl, rfl, rfl⟩
  | cons token tokens =>
      rw [marked] at h
      split at h
      · next hBang =>
          cases h
          have hMark : token.text = "!" := hText token List.mem_cons_self _ (by rw [hBang]; rfl)
          exact ⟨false, [token], rfl, rfl, by simp [Token.word, markWords, hBang, hMark]⟩
      · cases h
        exact ⟨true, [], rfl, rfl, rfl⟩

/-- The tokens that are read as a type have its words. -/
theorem words_of_readTokens {tokens rest : List Token} {type : TypeExpr}
    (hText : ∀ t ∈ tokens, ∀ word, t.kind.punctuator? = some word → t.text = word)
    (h : readTokens tokens = .ok (type, rest)) :
    ∃ taken, tokens = taken ++ rest ∧ taken.map Token.word = type.words := by
  induction tokens generalizing type rest with
  | nil => cases h
  | cons token tokens ih =>
      obtain ⟨hFirst, hTail⟩ := List.forall_mem_cons.1 hText
      rw [readTokens] at h
      split at h
      · next hName =>
          obtain ⟨nullable, mark, rfl, rfl, hMark⟩ := words_of_marked hTail (Except.ok.inj h)
          exact ⟨token :: mark, rfl, by simp [words, Token.word, hName, hMark]⟩
      · next hOpen =>
          obtain ⟨⟨item, after⟩, hItem, hEnd⟩ := except_bind_eq_ok.1 h
          obtain ⟨inside, rfl, hInside⟩ := ih hTail hItem
          have hOpening : token.text = "[" := hFirst _ (by rw [hOpen]; rfl)
          cases after with
          | nil => cases hEnd
          | cons closer after =>
              obtain ⟨hCloser, hLast⟩ := List.forall_mem_cons.1 (List.forall_mem_append.1 hTail).2
              simp only at hEnd
              split at hEnd
              · next hClose =>
                  have hClosing : closer.text = "]" := hCloser _ (by rw [hClose]; rfl)
                  obtain ⟨nullable, mark, rfl, rfl, hMark⟩ :=
                    words_of_marked hLast (Except.ok.inj hEnd)
                  refine ⟨token :: (inside ++ closer :: mark), by simp, ?_⟩
                  simp [words, Token.word, hOpen, hOpening, hInside, hClose, hClosing, hMark]
              · cases hEnd
      · cases h

/-- A text that is read as a type has the words of the type before its end. -/
theorem words_of_read {text : String} {type : TypeExpr} (h : read text = .ok type) :
    (Token.beforeEnd text).map Token.word = type.words := by
  have hText : ∀ t ∈ Token.beforeEnd text, ∀ word, t.kind.punctuator? = some word →
      t.text = word := fun t ht _ => text_of_mem_lex ((Token.beforeEnd_infix text).subset ht)
  obtain ⟨⟨found, rest⟩, hRead, hEnd⟩ := except_bind_eq_ok.1 h
  obtain ⟨taken, hTokens, hWords⟩ := words_of_readTokens hText hRead
  cases rest with
  | nil =>
      cases hEnd
      rwa [← List.append_nil taken, ← hTokens] at hWords
  | cons token rest => cases hEnd

/-- The innermost name is written out in every type. -/
theorem name_mem_words (type : TypeExpr) : (TokenKind.name, type.innermostName) ∈ type.words := by
  induction type with
  | named name nullable => exact List.mem_cons_self
  | list item nullable ih => exact List.mem_cons_of_mem _ (List.mem_append_left _ ih)

/-- No word of a type is at fault. -/
theorem legal_words (type : TypeExpr) : ∀ word ∈ type.words, word.1.isError = false := by
  have hMark (nullable : Bool) : ∀ word ∈ markWords nullable, word.1.isError = false := by
    cases nullable with
    | false => exact List.forall_mem_singleton.2 rfl
    | true => exact nofun
  induction type with
  | named name nullable => exact List.forall_mem_cons.2 ⟨rfl, hMark nullable⟩
  | list item nullable ih =>
      exact List.forall_mem_cons.2
        ⟨rfl, List.forall_mem_append.2 ⟨ih, List.forall_mem_cons.2 ⟨rfl, hMark nullable⟩⟩⟩

/-- The name inside a type that was read is one of the names of the text. -/
theorem isName_of_read {text : String} {type : TypeExpr} (h : read text = .ok type) :
    IsName type.innermostName.toList := by
  have hName := name_mem_words type
  rw [← words_of_read h] at hName
  obtain ⟨token, hToken, hWord⟩ := List.mem_map.1 hName
  have hKind : token.kind = .name := congrArg Prod.fst hWord
  have hText : token.text = type.innermostName := congrArg Prod.snd hWord
  have hLexeme := lexeme_of_mem_lex ((Token.beforeEnd_infix text).subset hToken)
    (show token.Sound by simp [Token.Sound, hKind, TokenKind.isError])
  exact lexeme_name_iff.1 (hText ▸ hKind ▸ hLexeme)

/-- No fault is read as part of a type. -/
theorem legal_of_read {text : String} {type : TypeExpr} (h : read text = .ok type) :
    ∀ token ∈ Token.lex text, token.kind.isError = false := by
  intro token hToken
  obtain ⟨last, hLast, hLex⟩ := Token.lex_eq text
  rw [hLex] at hToken
  rcases List.mem_append.1 hToken with hBefore | hEnd
  · have hWord : token.word ∈ type.words := words_of_read h ▸ List.mem_map_of_mem hBefore
    exact type.legal_words _ hWord
  · rw [List.mem_singleton.1 hEnd, hLast]
    rfl

/-- A mark is a word of its own, whatever follows. -/
theorem splits_mark (nullable : Bool) {rest : List Char} {words : List Word}
    (h : Splits rest words) :
    Splits ((mark nullable).toList ++ rest) (markWords nullable ++ words) := by
  cases nullable with
  | false => exact h.sign rfl
  | true => exact h

/-- A mark does not run into the name before it. -/
theorem mark_head (nullable : Bool) {rest : List Char}
    (h : ∀ c ∈ rest.head?, isNameContinue c = false) :
    ∀ c ∈ ((mark nullable).toList ++ rest).head?, isNameContinue c = false := by
  cases nullable with
  | false =>
      rintro c ⟨⟩
      rfl
  | true => exact h

/-- The display of a type is cut into its words, if no character after it lengthens its name. -/
theorem splits_display {type : TypeExpr} (hName : IsName type.innermostName.toList)
    {rest : List Char} {more : List Word} (hRest : ∀ c ∈ rest.head?, isNameContinue c = false)
    (h : Splits rest more) : Splits (type.display.toList ++ rest) (type.words ++ more) := by
  induction type generalizing rest more with
  | named name nullable =>
      have hSplits := (splits_mark nullable h).lexeme (lexeme_name_iff.2 hName)
        (mark_head nullable hRest)
      simpa [display, words, innermostName, String.ofList_toList] using hSplits
  | list item nullable ih =>
      have hClose : Splits ("]".toList ++ ((mark nullable).toList ++ rest))
          ((.squareClose, "]") :: (markWords nullable ++ more)) := (splits_mark nullable h).sign rfl
      have hItem := ih hName (by rintro c ⟨⟩; rfl) hClose
      have hOpen : Splits ("[".toList ++ _) ((.squareOpen, "[") :: _) := hItem.sign rfl
      simpa [display, words] using hOpen

/-- The display of a type has the words of the type. -/
theorem words_display {type : TypeExpr} (hName : IsName type.innermostName.toList) :
    (Token.beforeEnd type.display).map Token.word = type.words := by
  have hSplits : Splits (type.display.toList ++ []) (type.words ++ []) :=
    splits_display hName nofun (.done rfl)
  rw [List.append_nil, List.append_nil] at hSplits
  have hWords := words_tokensFrom hSplits {}
  obtain ⟨last, -, hLex⟩ := Token.lex_eq type.display
  rw [← Token.lex, hLex, List.map_append] at hWords
  exact (List.append_inj' hWords rfl).1

/-- A text is read as a type exactly if it has the tokens of the display of the type, with anything
ignored between them, and the name in the type is one. So the display of a type with such a name is
read as the type, and a text with other tokens, such as faults, is read as no type. -/
theorem read_inverts_display (text : String) :
    (∀ type, read text = .ok type ↔
      (Token.beforeEnd text).map Token.word = (Token.beforeEnd type.display).map Token.word ∧
        IsName type.innermostName.toList) ∧
    (∀ type : TypeExpr, IsName type.innermostName.toList → read type.display = .ok type) ∧
    ((∀ type : TypeExpr, IsName type.innermostName.toList →
        (Token.beforeEnd text).map Token.word ≠ (Token.beforeEnd type.display).map Token.word) →
      ∃ fault, read text = .error fault) ∧
    ((∃ token ∈ Token.lex text, token.kind.isError = true) →
      ∃ fault, read text = .error fault) := by
  have hRead (type : TypeExpr) : read text = .ok type ↔
      (Token.beforeEnd text).map Token.word = (Token.beforeEnd type.display).map Token.word ∧
        IsName type.innermostName.toList := by
    constructor
    · intro h
      have hName := isName_of_read h
      exact ⟨(words_of_read h).trans (words_display hName).symm, hName⟩
    · rintro ⟨hWords, hName⟩
      exact read_words (hWords.trans (words_display hName))
  refine ⟨hRead, fun type hName => read_words (words_display hName), fun hOther => ?_, ?_⟩
  · cases hResult : read text with
    | error fault => exact ⟨fault, rfl⟩
    | ok type =>
        obtain ⟨hWords, hName⟩ := (hRead type).1 hResult
        exact absurd hWords (hOther type hName)
  · rintro ⟨token, hToken, hFault⟩
    cases hResult : read text with
    | error fault => exact ⟨fault, rfl⟩
    | ok type =>
        have hLegal := legal_of_read hResult token hToken
        rw [hFault] at hLegal
        cases hLegal

/-- A type with blanks and commas in it, and one with a fault after it. -/
theorem read_inverts_display_spaced :
    let type : TypeExpr := .list (.list (.named "ID" false) true) false
    type.display = "[[ID!]]!" ∧ read "[ [ID ! ,] #\n ] !" = .ok type ∧
      ∃ fault, read "[[ID!]]!?" = .error fault := by
  intro type
  have hWords : (Token.beforeEnd "[ [ID ! ,] #\n ] !").map Token.word =
      (Token.beforeEnd type.display).map Token.word := by decide +kernel
  have hFault : ∃ token ∈ Token.lex "[[ID!]]!?", token.kind.isError = true := by decide +kernel
  have hName : IsName type.innermostName.toList :=
    ⟨'I', ['D'], by decide, rfl, List.forall_mem_singleton.2 rfl⟩
  obtain ⟨hRead, -⟩ := read_inverts_display "[ [ID ! ,] #\n ] !"
  obtain ⟨-, -, -, hRejects⟩ := read_inverts_display "[[ID!]]!?"
  exact ⟨rfl, (hRead type).2 ⟨hWords, hName⟩, hRejects hFault⟩

end TypeExpr

end GraphQL
