import GraphQL.Diagnostic.SyntaxError

/-!
Tokens of query text. `true`, `false`, `null` and the keywords are names here, and one kind of
number serves for integers and floats: what a lexeme means depends on where it stands.
-/
namespace GraphQL

/-- What is wrong with a number. -/
inductive NumberFault where
  | leadingZero
  | noFractionDigit
  | noExponentDigit
  | badFollower
deriving DecidableEq, Repr, Inhabited

/-- Why some characters form no token. -/
inductive LexicalFault where
  | strayDot
  | doubleDot
  | spacedDots
  | strayMinus
  | badNumber (fault : NumberFault) (text : String)
  /-- The text ends inside a string. -/
  | openString (start : Position)
  /-- A line ends inside a string. -/
  | brokenString
  /-- The text ends inside a block string. -/
  | openBlockString (start : Position)
  | badCharacter (c : Char)
  /-- A fault told in the words of whoever supplied the tokens. -/
  | reported (message : String) (notes : List Note)
deriving DecidableEq, Repr, Inhabited

namespace NumberFault

def message : NumberFault → String
  | .leadingZero => "Invalid number: leading zeros are not allowed"
  | .noFractionDigit => "Invalid number: expected digit after `.`"
  | .noExponentDigit => "Invalid number: exponent must have at least one digit"
  | .badFollower => "Invalid number: unexpected character after number"

/-- The section of the specification that the fault goes against. -/
def address : NumberFault → String
  | .leadingZero | .badFollower => "https://spec.graphql.org/September2025/#sec-Int-Value"
  | .noFractionDigit | .noExponentDigit =>
    "https://spec.graphql.org/September2025/#sec-Float-Value"

end NumberFault

namespace LexicalFault

def message : LexicalFault → String
  | .strayDot => "Unexpected `.`"
  | .doubleDot => "Unexpected `..` (use `...` for spread operator)"
  | .spacedDots => "Unexpected spaced dots (use `...` for spread operator)"
  | .strayMinus => "Unexpected `-`"
  | .badNumber fault text => fault.message ++ ": `" ++ text ++ "`"
  | .openString _ | .brokenString => "Unterminated string literal"
  | .openBlockString _ => "Unterminated block string"
  | .badCharacter c => "Unexpected character " ++ Text.describe c
  | .reported message _ => message

def notes : LexicalFault → List Note
  | .strayDot | .strayMinus | .badCharacter _ => []
  | .doubleDot => [.help "Add one more `.` to form the spread operator `...`"]
  | .spacedDots =>
    [.help ("These dots may have been intended to form a `...` spread operator. Try " ++
      "removing the spacing between the dots.")]
  | .badNumber fault _ => [.spec fault.address]
  | .openString start =>
    [.generalAt "String started here" (.emptyAt start), .help "Add closing `\"`"]
  | .brokenString =>
    [.general "Single-line strings cannot contain unescaped newlines",
     .help ("Use a block string (triple quotes) for multi-line strings, " ++
       "or escape the newline with `\\n`")]
  | .openBlockString start =>
    [.generalAt "Block string started here" (.emptyAt start), .help "Add closing `\"\"\"`"]
  | .reported _ notes => notes

end LexicalFault

inductive TokenKind where
  | atSign | bang | colon | curlyClose | curlyOpen | dollar | ellipsis | equals
  | parenClose | parenOpen | squareClose | squareOpen
  | name | number | string
  /-- The end of the text, after every other token. -/
  | eof
  /-- Characters that form no token. -/
  | error (fault : LexicalFault)
deriving DecidableEq, Repr, Inhabited

namespace TokenKind

/-- The text of a punctuator. -/
def punctuator? : TokenKind → Option String
  | .atSign => some "@"
  | .bang => some "!"
  | .colon => some ":"
  | .curlyClose => some "\x7d"
  | .curlyOpen => some "\x7b"
  | .dollar => some "$"
  | .ellipsis => some "..."
  | .equals => some "="
  | .parenClose => some ")"
  | .parenOpen => some "("
  | .squareClose => some "]"
  | .squareOpen => some "["
  | .name | .number | .string | .eof | .error _ => none

def isPunctuator (kind : TokenKind) : Bool := kind.punctuator?.isSome

def isError : TokenKind → Bool
  | .error _ => true
  | _ => false

/-- Equal kinds, where errors of all causes count as one kind. -/
def same : TokenKind → TokenKind → Bool
  | .error _, .error _ => true
  | k, l => k == l

/-- What a message calls a token of this kind. -/
def describe (kind : TokenKind) : String :=
  match kind with
  | .name => "name"
  | .number => "number"
  | .string => "string"
  | .eof => "end of input"
  | .error _ => "invalid token"
  | kind => kind.punctuator?.getD "?"

end TokenKind

/-- A token with its place in the text and its characters. -/
structure Token where
  kind : TokenKind
  span : Span
  text : String
deriving DecidableEq, Repr, Inhabited

namespace Token

/-- The end of input at `p`. -/
def eofAt (p : Position) : Token := ⟨.eof, .emptyAt p, ""⟩

def bytes (token : Token) : ByteRange := token.span.bytes

def start (token : Token) : Position := token.span.start

def stop (token : Token) : Position := token.span.stop

/-- Whether the token is the name `word`. -/
def isWord (token : Token) (word : String) : Bool := token.kind == .name && token.text == word

/-- The syntax error that an error token stands for, and none for any other token. -/
def error? (token : Token) : Option SyntaxError :=
  match token.kind with
  | .error fault => some { message := fault.message, span := token.span, kind := .lexical,
                           notes := fault.notes }
  | _ => none

/-- A token found in a message: names and numbers as written, anything else by its kind. -/
def describe (token : Token) : String :=
  match token.kind with
  | .name | .number => token.text
  | kind => kind.describe

end Token

end GraphQL
