import GraphQL.Proofs.Token.Lexing

/-! Tokens with their positions replaced by others. Recognition says nothing about places, so a scan
at another place gives the same token there. -/
namespace GraphQL

variable (move : Position → Position)

def Span.relocate (span : Span) : Span := ⟨move span.start, move span.stop⟩

def Note.relocate (note : Note) : Note := { note with span := note.span.map (Span.relocate move) }

def LexicalFault.relocate : LexicalFault → LexicalFault
  | .openString start => .openString (move start)
  | .openBlockString start => .openBlockString (move start)
  | .reported message notes => .reported message (notes.map (Note.relocate move))
  | fault => fault

def TokenKind.relocate : TokenKind → TokenKind
  | .error fault => .error (fault.relocate move)
  | kind => kind

def Token.relocate (token : Token) : Token :=
  ⟨token.kind.relocate move, token.span.relocate move, token.text⟩

namespace Lexer

variable {move}

/-- Faults in dots hold no place that could move. -/
theorem relocate_scanDots (cs : List Char) :
    (scanDots cs).kind.relocate move = (scanDots cs).kind := by
  fun_cases scanDots cs with
  | case4 cs hDots second rest hSecond hThird =>
      simp only [TokenKind.relocate]
      split <;> rfl
  | _ => rfl

/-- Faults in numbers hold no place that could move. -/
theorem relocate_scanNumber (sign cs : List Char) :
    (scanNumber sign cs).kind.relocate move = (scanNumber sign cs).kind := by
  rw [scanNumber]
  split <;> rfl

variable (move) in
/-- A string that is not closed says where it was opened, which moves along. -/
theorem scanString_relocate (start : Position) (cs : List Char) : scanString (move start) cs =
    { scanString start cs with kind := (scanString start cs).kind.relocate move } := by
  fun_cases scanString start cs with
  | case1 cs closed inside rest hSpan =>
      rw [scanString, hSpan]
      cases closed <;> rfl
  | case2 cs hBlock ending inside rest hSpan kind =>
      rw [scanString.eq_2 _ _ hBlock, hSpan]
      cases ending <;> rfl

variable (move) in
/-- A scan at another place gives the same token there. -/
theorem scan_relocate (start : Position) (c : Char) (cs : List Char) : scan (move start) c cs =
    { scan start c cs with kind := (scan start c cs).kind.relocate move } := by
  fun_cases scan start c cs with
  | case1 kind hPunctuator =>
      have hKind : kind.relocate move = kind := by
        have hText := punctuator?_of_punctuatorOf? hPunctuator
        cases kind <;> first | rfl | cases hText
      simp [scan, hPunctuator, hKind]
  | case2 hPunctuator hDot => simp [scan, hPunctuator, hDot, relocate_scanDots]
  | case3 hPunctuator hDot hQuote => simp [scan, hPunctuator, hDot, hQuote, scanString_relocate]
  | case4 hPunctuator hDot hQuote hName =>
      simp [scan, hPunctuator, hDot, hQuote, hName, TokenKind.relocate]
  | case5 hPunctuator hDot hQuote hName hMinus hDigit =>
      simp [scan, hPunctuator, hDot, hQuote, hName, hMinus, hDigit, relocate_scanNumber]
  | case6 hPunctuator hDot hQuote hName hMinus hDigit =>
      simp [scan, hPunctuator, hDot, hQuote, hName, hMinus, hDigit, TokenKind.relocate,
        LexicalFault.relocate]
  | case7 hPunctuator hDot hQuote hName hMinus hDigit =>
      simp [scan, hPunctuator, hDot, hQuote, hName, hMinus, hDigit, relocate_scanNumber]
  | case8 hPunctuator hDot hQuote hName hMinus hDigit =>
      simp [scan, hPunctuator, hDot, hQuote, hName, hMinus, hDigit, TokenKind.relocate,
        LexicalFault.relocate]

end Lexer

/-- Where to each offset in a text is moved. -/
abbrev Relocation := Nat → Position

namespace Relocation

variable (move : Relocation)

def position (place : Position) : Position := move place.offset

def range (bytes : ByteRange) : ByteRange := ⟨(move bytes.start).offset, (move bytes.stop).offset⟩

end Relocation

variable (move : Relocation)

def SyntaxError.relocate (error : SyntaxError) : SyntaxError :=
  { error with
    span := error.span.relocate move.position
    notes := error.notes.map (Note.relocate move.position) }

section Tokens

variable (kind other : TokenKind) (token : Token)

@[simp] theorem TokenKind.same_relocate :
    (kind.relocate move.position).same other = kind.same other := by
  cases kind <;> cases other <;> rfl

/-- A kind without fault is the same wherever the token lies. -/
theorem Token.kind_relocate_eq_iff (h : other.isError = false) :
    (token.relocate move.position).kind = other ↔ token.kind = other := by
  obtain ⟨kind, span, text⟩ := token
  cases kind with
  | error fault =>
      constructor
      all_goals
        rintro rfl
        cases h
  | _ => exact Iff.rfl

/-- Only a fault holds a place. -/
theorem TokenKind.relocate_of_legal (h : kind.isError = false) :
    kind.relocate move.position = kind := by
  cases kind with
  | error fault => cases h
  | _ => rfl

/-- A token is at fault wherever it lies. -/
theorem Token.isError_relocate :
    (token.relocate move.position).kind.isError = token.kind.isError := by
  obtain ⟨kind, span, text⟩ := token
  cases kind <;> rfl

@[simp] theorem TokenKind.describe_relocate :
    (kind.relocate move.position).describe = kind.describe := by
  cases kind <;> rfl

@[simp] theorem Token.describe_relocate :
    (token.relocate move.position).describe = token.describe := by
  obtain ⟨kind, span, text⟩ := token
  cases kind <;> rfl

@[simp] theorem Token.isWord_relocate (word : String) :
    (token.relocate move.position).isWord word = token.isWord word := by
  obtain ⟨kind, span, text⟩ := token
  cases kind <;> rfl

@[simp] theorem Token.kind_relocate :
    (token.relocate move.position).kind = token.kind.relocate move.position := rfl

@[simp] theorem Token.text_relocate : (token.relocate move.position).text = token.text := rfl

@[simp] theorem Token.bytes_relocate :
    (token.relocate move.position).bytes = move.range token.bytes := rfl

/-- A fault that was moved stands for the same error, where it was moved to. -/
theorem Token.error?_relocate :
    (token.relocate move.position).error? = token.error?.map (SyntaxError.relocate move) := by
  obtain ⟨kind, span, text⟩ := token
  cases kind with
  | error fault => cases fault <;> rfl
  | _ => rfl

end Tokens

/-- Tokens with the given words, no two ends of which lie at one offset. -/
def Token.pattern (words : List Word) : List Token :=
  words.mapIdx fun i word => ⟨word.1, ⟨⟨0, 0, 0, 2 * i + 1⟩, ⟨0, 0, 0, 2 * i + 2⟩⟩, word.2⟩

/-- Where the offsets of a pattern are in a text with the given tokens. -/
def Relocation.onto (tokens : List Token) : Relocation
  | 0 => {}
  | n + 1 =>
    match tokens[n / 2]? with
    | some token => if n % 2 = 0 then token.start else token.stop
    | none => {}

/-- Every list of tokens without faults is its pattern, moved. -/
theorem Token.relocate_pattern {tokens : List Token} (h : ∀ t ∈ tokens, t.kind.isError = false) :
    (Token.pattern (tokens.map Token.word)).map (Token.relocate (Relocation.onto tokens).position) =
      tokens := by
  apply List.ext_getElem?
  intro i
  rw [List.getElem?_map, Token.pattern, List.getElem?_mapIdx, List.getElem?_map]
  cases hToken : tokens[i]? with
  | none => rfl
  | some token =>
      have hLegal := h token (List.mem_of_getElem? hToken)
      have hStart : Relocation.onto tokens (2 * i + 1) = token.start := by
        have hHalf : 2 * i / 2 = i := by omega
        rw [Relocation.onto, hHalf, hToken]
        exact if_pos (by omega)
      have hStop : Relocation.onto tokens (2 * i + 1 + 1) = token.stop := by
        have hHalf : (2 * i + 1) / 2 = i := by omega
        rw [Relocation.onto, hHalf, hToken]
        exact if_neg (by omega)
      have hKind := TokenKind.relocate_of_legal (Relocation.onto tokens) token.kind hLegal
      simp only [Option.map_some, Token.relocate, Token.word, Span.relocate, Relocation.position,
        hStart, hStop, hKind]
      rfl

end GraphQL
