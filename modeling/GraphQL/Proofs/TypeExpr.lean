import GraphQL.TypeExpr
import GraphQL.Proofs.Syntax.Lexemes

/-! Type expressions as words. A type is read back from any tokens with its words, wherever they
stand, so the reader of types agrees with the grammar on what a type is. -/
namespace GraphQL

namespace TypeExpr

def markWords (nullable : Bool) : List Word := if nullable then [] else [(.bang, "!")]

/-- The words that a type is written in. -/
def words : TypeExpr → List Word
  | .named name nullable => (.name, name) :: markWords nullable
  | .list item nullable =>
    (.squareOpen, "[") :: (item.words ++ (.squareClose, "]") :: markWords nullable)

/-- No `!` comes next, so that a type without one ends here. -/
def Ends (rest : List Token) : Prop := ∀ t ∈ rest.head?, t.kind ≠ .bang

/-- A mark is read if there is one, and what follows it is left. -/
theorem marked_words {build : Bool → TypeExpr} {nullable : Bool} {mark rest : List Token}
    (hMark : mark.map Token.word = markWords nullable) (hRest : Ends rest) :
    marked build (mark ++ rest) = (build nullable, rest) := by
  cases nullable with
  | false =>
      obtain ⟨bang, rfl, hBang⟩ := List.map_eq_singleton_iff.1 hMark
      have hKind : bang.kind = .bang := congrArg Prod.fst hBang
      simp [marked, hKind]
  | true =>
      obtain rfl := List.map_eq_nil_iff.1 hMark
      cases rest with
      | nil => rfl
      | cons token rest =>
          have hKind : token.kind ≠ .bang := hRest token rfl
          simp [marked, hKind]

/-- A type is read from tokens with its words, and the tokens after it are left. -/
theorem readTokens_words {type : TypeExpr} {tokens rest : List Token}
    (hWords : tokens.map Token.word = type.words) (hRest : Ends rest) :
    readTokens (tokens ++ rest) = .ok (type, rest) := by
  induction type generalizing tokens rest with
  | named name nullable =>
      obtain ⟨token, mark, rfl, hToken, hMark⟩ := List.map_eq_cons_iff.1 hWords
      have hKind : token.kind = .name := congrArg Prod.fst hToken
      have hText : token.text = name := congrArg Prod.snd hToken
      rw [List.cons_append, readTokens, hKind]
      simp only [hText, marked_words hMark hRest]
  | list item nullable ih =>
      obtain ⟨opening, inside, rfl, hOpening, hInside⟩ := List.map_eq_cons_iff.1 hWords
      obtain ⟨itemTokens, after, rfl, hItem, hAfter⟩ := List.map_eq_append_iff.1 hInside
      obtain ⟨closing, mark, rfl, hClosing, hMark⟩ := List.map_eq_cons_iff.1 hAfter
      have hOpen : opening.kind = .squareOpen := congrArg Prod.fst hOpening
      have hClose : closing.kind = .squareClose := congrArg Prod.fst hClosing
      have hEnds : Ends (closing :: (mark ++ rest)) := by simp [Ends, hClose]
      have hRead := ih hItem hEnds
      rw [List.cons_append, readTokens, hOpen]
      simp only [List.append_assoc, List.cons_append, hRead]
      simp [bind, Except.bind, hClose, marked_words hMark hRest, pure, Except.pure]

/-- A type is read from any text with its words. -/
theorem read_words {type : TypeExpr} {text : String}
    (h : (Token.beforeEnd text).map Token.word = type.words) : read text = .ok type := by
  have hRead : readTokens (Token.beforeEnd text) = .ok (type, []) := by
    have hAll : readTokens (Token.beforeEnd text ++ []) = .ok (type, []) :=
      readTokens_words h (by simp [Ends])
    rwa [List.append_nil] at hAll
  show (readTokens (Token.beforeEnd text) >>= _) = _
  rw [hRead]
  rfl

end TypeExpr

variable {tokens : List Token}

/-- The tokens of a mark are its words. -/
theorem IsMark.exists_words (h : IsMark tokens)
    (hText : ∀ t ∈ tokens, ∀ word, t.kind.punctuator? = some word → t.text = word) :
    ∃ nullable, tokens.map Token.word = TypeExpr.markWords nullable := by
  rcases h with rfl | ⟨bang, hBang, rfl⟩
  · exact ⟨true, rfl⟩
  · have hBangText := hText bang (by simp) "!" (by rw [hBang]; rfl)
    exact ⟨false, by simp [Token.word, TypeExpr.markWords, hBang, hBangText]⟩

/-- Tokens that are the words of a mark are a mark. -/
theorem isMark_of_words {nullable : Bool}
    (h : tokens.map Token.word = TypeExpr.markWords nullable) : IsMark tokens := by
  cases nullable with
  | false =>
      obtain ⟨bang, rfl, hBang⟩ := List.map_eq_singleton_iff.1 h
      exact .inr ⟨bang, congrArg Prod.fst hBang, rfl⟩
  | true => exact .inl (List.map_eq_nil_iff.1 h)

/-- The tokens of a type are the words of one. -/
theorem IsType.exists_words (h : IsType tokens)
    (hText : ∀ t ∈ tokens, ∀ word, t.kind.punctuator? = some word → t.text = word) :
    ∃ type : TypeExpr, tokens.map Token.word = type.words := by
  induction h with
  | @named name mark hName hMark =>
      obtain ⟨nullable, hWords⟩ := hMark.exists_words (List.forall_mem_cons.1 hText).2
      exact ⟨.named name.text nullable, by simp [TypeExpr.words, hWords, Token.word, hName]⟩
  | @list opening closing item mark hOpen hItem hClose hMark ih =>
      simp only [List.forall_mem_cons, List.forall_mem_append, hOpen, hClose,
        TokenKind.punctuator?] at hText
      obtain ⟨hOpenText, hItemText, hCloseText, hMarkText⟩ := hText
      obtain ⟨type, hType⟩ := ih hItemText
      obtain ⟨nullable, hWords⟩ := hMark.exists_words hMarkText
      refine ⟨.list type nullable, ?_⟩
      simp [TypeExpr.words, hType, hWords, Token.word, hOpen, hClose, hOpenText _ rfl,
        hCloseText _ rfl]

/-- Tokens that are the words of a type are a type. -/
theorem isType_of_words {type : TypeExpr} (h : tokens.map Token.word = type.words) :
    IsType tokens := by
  induction type generalizing tokens with
  | named name nullable =>
      obtain ⟨token, mark, rfl, hToken, hMark⟩ := List.map_eq_cons_iff.1 h
      exact .named (congrArg Prod.fst hToken) (isMark_of_words hMark)
  | list item nullable ih =>
      obtain ⟨opening, inside, rfl, hOpening, hInside⟩ := List.map_eq_cons_iff.1 h
      obtain ⟨itemTokens, after, rfl, hItem, hAfter⟩ := List.map_eq_append_iff.1 hInside
      obtain ⟨closing, mark, rfl, hClosing, hMark⟩ := List.map_eq_cons_iff.1 hAfter
      exact .list (congrArg Prod.fst hOpening) (ih hItem) (congrArg Prod.fst hClosing)
        (isMark_of_words hMark)

/-- A type is read from the slice of the text that its tokens cover. -/
theorem Source.Has.read_cover {source : Source} {type : TypeExpr} (hSource : source.Has tokens)
    (h : tokens.map Token.word = type.words) :
    TypeExpr.read (source.slice (Token.cover tokens)) = .ok type := by
  have hType := isType_of_words h
  exact TypeExpr.read_words
    ((words_beforeEnd_slice hSource hType.ne_nil hType.sound).trans h)

end GraphQL
