import GraphQL.Token.Stream
import GraphQL.Syntax.Node

/-!
What the productions of the grammar have in common: steps over a token stream, the wording of what
was expected, and phrases between delimiters. A step that fails leaves the stream where it got to.
-/
namespace GraphQL

/-- Why a production failed, and what it had built of its phrase by then. -/
structure Failure where
  error : SyntaxError
  built : Option Outline := none
deriving Repr, Inhabited

/-- A step over a token stream. -/
abbrev Parser := EStateM Failure TokenStream

/-- The error at the current token where one of `expected` is required. At the end of input it is
placed after the last token. -/
def TokenStream.unexpected (stream : TokenStream) (expected : List String) (context : String) :
    SyntaxError :=
  let choices := " or ".intercalate (expected.map fun e => "`" ++ e ++ "`")
  if stream.atEnd then
    { message := "expected " ++ choices ++ " " ++ context ++ ", found end of input"
      span := .emptyAt stream.previousEnd
      kind := .unexpectedEnd expected }
  else
    let found := stream.current.describe
    { message := "expected " ++ choices ++ " " ++ context ++ ", found `" ++ found ++ "`"
      span := stream.current.span
      kind := .unexpectedToken expected found }

/-- The kinds of collection between delimiters. -/
inductive Enclosure where
  | selectionSet
  | arguments
  | variableDefinitions
  | listType
  | listValue
  | objectValue
deriving DecidableEq, Repr, Inhabited

namespace Enclosure

def describe : Enclosure → String
  | .selectionSet => "selection set"
  | .arguments => "arguments"
  | .variableDefinitions => "variable definitions"
  | .listType => "list type annotation"
  | .listValue => "list value"
  | .objectValue => "object value"

def opener : Enclosure → TokenKind
  | .selectionSet | .objectValue => .curlyOpen
  | .arguments | .variableDefinitions => .parenOpen
  | .listType | .listValue => .squareOpen

def closer : Enclosure → TokenKind
  | .selectionSet | .objectValue => .curlyClose
  | .arguments | .variableDefinitions => .parenClose
  | .listType | .listValue => .squareClose

/-- The note that points back at the opening delimiter. -/
def openedNote (enclosure : Enclosure) (opening : Token) : Note :=
  .generalAt ("`" ++ enclosure.opener.describe ++ "` opened here") opening.span

/-- The error where the text ends inside the enclosure, after the token that ends at `last`. -/
def unclosed (enclosure : Enclosure) (opening : Token) (last : Position) : SyntaxError :=
  { message := "unclosed `" ++ enclosure.opener.describe ++ "` in " ++ enclosure.describe
    span := .emptyAt last
    kind := .unclosedDelimiter enclosure.opener.describe
    notes := [enclosure.openedNote opening,
      .help ("add a closing `" ++ enclosure.closer.describe ++ "`")] }

/-- The error where the enclosure is closed by the closer of another. -/
def mismatched (enclosure : Enclosure) (opening found : Token) : SyntaxError :=
  { message := "mismatched delimiter: expected `" ++ enclosure.closer.describe ++ "` to close " ++
      enclosure.describe ++ ", found `" ++ found.kind.describe ++ "`"
    span := found.span
    kind := .mismatchedDelimiter enclosure.closer.describe found.kind.describe
    notes := [enclosure.openedNote opening] }

end Enclosure

/-- Whether a token closes some enclosure. -/
def TokenKind.isCloser : TokenKind → Bool
  | .curlyClose | .parenClose | .squareClose => true
  | _ => false

namespace Parser

/-- The token under the cursor. -/
def current : Parser Token := do return (← get).current

def isAt (kind : TokenKind) : Parser Bool := do return (← get).isAt kind

def isAtWord (word : String) : Parser Bool := do return (← get).isAtWord word

/-- Leave the current token. -/
def advance : Parser Token := fun stream =>
  match stream.advance with
  | (.ok token, stream) => .ok token stream
  | (.error error, stream) => .error { error } stream

/-- Fail with nothing built. -/
def fail {α : Type} (error : SyntaxError) : Parser α := throw { error }

/-- Fail at the current token, where one of `expected` is required. -/
def failExpecting {α : Type} (expected : List String) (context : String)
    (notes : List Note := []) : Parser α := do
  fail (((← get).unexpected expected context).addNotes notes)

/-- Leave the current token, which must be of the given kind. -/
def expect (kind : TokenKind) (context : String) : Parser Token := do
  if ← isAt kind then advance else failExpecting [kind.describe] context

def expectName (context : String) : Parser Token := expect .name context

/-- Leave the current token, which must be the name `word`. -/
def expectWord (word context : String) : Parser Token := do
  if ← isAtWord word then advance else failExpecting [word] context

/-- A step of the production whose phrase is `node` so far: if it fails, that much was built. -/
def keeping {α : Type} (node : Outline) (step : Parser α) : Parser α := fun stream =>
  match step stream with
  | .ok a stream => .ok a stream
  | .error failure stream => .error { failure with built := some node } stream

/-- Read a phrase into `node`. -/
def grow (node : Outline) (child : Parser Outline) : Parser Outline := do
  return (← keeping node child).addChild node

/-- Read a phrase into `node` if the current token is of the given kind. -/
def growAt (kind : TokenKind) (node : Outline) (child : Parser Outline) : Parser Outline := do
  if ← isAt kind then grow node child else return node

/-- A bound on what can still be read: more than the tokens ahead. -/
def bound : Parser Nat := do return (← get).ahead.length + 1

/-- What a bounded repetition or nesting does beyond its bound, which is never reached because each
round and each level leaves a token. -/
def beyondBound {α : Type} : Parser α := failExpecting [] "within the text"

/-- Read phrases into `node` as long as the current token is of the given kind. -/
def growWhileAt (kind : TokenKind) (child : Parser Outline) : Nat → Outline → Parser Outline
  | 0, node => keeping node beyondBound
  | rounds + 1, node => do
    if ← isAt kind then growWhileAt kind child rounds (← grow node child) else return node

/-- Leave the opening delimiter of an enclosure. -/
def openEnclosure (enclosure : Enclosure) : Parser Token :=
  expect enclosure.opener ("to open " ++ enclosure.describe)

/-- Whether the enclosure ends here; if so, its closing delimiter is left. The end of input and the
closer of another enclosure are errors. -/
def closes (enclosure : Enclosure) (opening : Token) : Parser Bool := do
  if ← isAt enclosure.closer then
    let _ ← advance
    return true
  let stream ← get
  if stream.atEnd then fail (enclosure.unclosed opening stream.previousEnd)
  else if stream.current.kind.isCloser then fail (enclosure.mismatched opening stream.current)
  else return false

/-- Read phrases into `node` up to the closing delimiter. -/
def growUntilClosed (enclosure : Enclosure) (opening : Token) (item : Parser Outline) :
    Nat → Outline → Parser Outline
  | 0, node => keeping node beyondBound
  | rounds + 1, node => do
    if ← keeping node (closes enclosure opening) then return node
    else growUntilClosed enclosure opening item rounds (← grow node item)

/-- A collection of phrases between delimiters. -/
def collection (type : NodeType) (enclosure : Enclosure) (item : Parser Outline) :
    Parser Outline := do
  let opening ← openEnclosure enclosure
  growUntilClosed enclosure opening item (← bound) (.leaf type opening.start)

end Parser

end GraphQL
