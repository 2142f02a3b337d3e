import GraphQL.Diagnostic.Note
import GraphQL.Source.Basic

/-!
Syntax errors and how they are shown: on one line, or with the line of source that they are about
and a row of markers under it.
-/
namespace GraphQL

/-- What is wrong, with the data that a program needs to act on it. -/
inductive SyntaxErrorKind where
  /-- One of `expected` was required, but another token stands there. -/
  | unexpectedToken (expected : List String) (found : String)
  /-- The text ends where one of `expected` was required. -/
  | unexpectedEnd (expected : List String)
  /-- The characters form no token. -/
  | lexical
  /-- The text ends inside a delimiter pair. -/
  | unclosedDelimiter (delimiter : String)
  /-- A delimiter pair is closed by the closer of another. -/
  | mismatchedDelimiter (expected found : String)
  /-- A name stands where the grammar reserves it. -/
  | reservedName (name : String)
  /-- Tokens that form a phrase which is not allowed at its place. -/
  | invalidSyntax
deriving DecidableEq, Repr, Inhabited

def SyntaxErrorKind.describe : SyntaxErrorKind → String
  | .unexpectedToken _ found => "unexpected token: `" ++ found ++ "`"
  | .unexpectedEnd _ => "unexpected end of input"
  | .lexical => "lexer error"
  | .unclosedDelimiter delimiter => "unclosed delimiter: `" ++ delimiter ++ "`"
  | .mismatchedDelimiter _ _ => "mismatched delimiter"
  | .reservedName name => "reserved name: `" ++ name ++ "`"
  | .invalidSyntax => "invalid syntax"

structure SyntaxError where
  message : String
  /-- The offending token, or the end of the last token if the text ends too early. -/
  span : Span
  kind : SyntaxErrorKind
  notes : List Note := []
  /-- The path of the text, if it has one. -/
  path : Option String := none
deriving DecidableEq, Repr, Inhabited

/-- `text` filled up with blanks on the left to `width` characters. -/
def padLeft (width : Nat) (text : String) : String :=
  String.ofList (text.toList.leftpad width ' ')

/-- The line that a span starts on, with its number in a gutter, between a blank gutter line and a
line of markers. A span within the line has a marker under each character, any other span one
marker at its start. There is no snippet if the source lacks the line. -/
def snippet? (source : Source) (span : Span) (marker : Char) : Option String :=
  source.splitLines[span.start.line]?.map fun text =>
    let number := toString (span.start.line + 1)
    let width := max 2 number.length
    let gutter := padLeft width ""
    let count :=
      if span.stop.line = span.start.line then max 1 (span.stop.column - span.start.column) else 1
    let markers := padLeft span.start.column "" ++ String.ofList (List.replicate count marker)
    gutter ++ " |\n" ++ padLeft width number ++ " | " ++ text ++ "\n" ++
      gutter ++ " | " ++ markers ++ "\n"

namespace SyntaxError

/-- The error with further notes after its own. -/
def addNotes (error : SyntaxError) (notes : List Note) : SyntaxError :=
  { error with notes := error.notes ++ notes }

/-- The error as one in the text read from `path`. -/
def atPath (error : SyntaxError) (path : Option String) : SyntaxError := { error with path }

/-- The place of the error: the path, or a stand-in for a text that has none, and the position. -/
def place (error : SyntaxError) : String :=
  error.path.getD "<input>" ++ ":" ++ error.span.start.display

/-- The error on one line. -/
def oneline (error : SyntaxError) : String := error.place ++ ": error: " ++ error.message

/-- One note, with the snippet of its place if the source is at hand. -/
def renderNote (source : Option Source) (note : Note) : String :=
  "   = " ++ note.kind.label ++ ": " ++ note.message ++ "\n" ++
    ((note.span.bind fun span => source.bind fun s => snippet? s span '-').getD "")

/-- The error over several lines. Without a source there are no snippets. -/
def detailed (error : SyntaxError) (source : Option Source) : String :=
  "error: " ++ error.message ++ "\n" ++
    "  --> " ++ error.place ++ "\n" ++
    ((source.bind fun s => snippet? s error.span '^').getD "") ++
    String.join (error.notes.map (renderNote source))

end SyntaxError

end GraphQL
