import GraphQL.Source.Position

/-!
Source texts: slices by byte range, and positions found from the lines of the text rather than by
moving over it.
-/
namespace GraphQL

/-- The text of a query document and the path it was read from, if any. -/
structure Source where
  text : String
  path : Option String := none
deriving DecidableEq, Repr, Inhabited

namespace Source

def chars (source : Source) : List Char := source.text.toList

def byteSize (source : Source) : Nat := source.text.utf8ByteSize

def isEmpty (source : Source) : Bool := source.text.isEmpty

/-- The lines of the text, each with its terminator. -/
def lines (source : Source) : List (List Char) := Text.lines source.chars

def lineCount (source : Source) : Nat := source.lines.length

/-- The text of line `n` without its terminator. -/
def lineText? (source : Source) (n : Nat) : Option String :=
  source.lines[n]?.map fun line => String.ofList (Text.lineContent line)

/-- The texts of all lines without their terminators. -/
def splitLines (source : Source) : List String := (Text.splitLines source.chars).map String.ofList

/-- Line `n` of the split text is what the text has as its line `n`. -/
theorem getElem?_splitLines (source : Source) (n : Nat) :
    source.splitLines[n]? = source.lineText? n := by
  rw [splitLines, Text.splitLines, List.getElem?_map, List.getElem?_map, Option.map_map]
  rfl

/-- The text at a byte range, empty where the range does not cut out whole characters. -/
def slice (source : Source) (range : ByteRange) : String :=
  String.ofList (Text.slice range.start range.stop source.chars)

/-- The position `n` bytes into the given lines, the first of which has number `line` and starts at
`offset`. It never leaves the last line and never splits a character. -/
def positionAmong (line offset n : Nat) : List (List Char) → Position
  | [] => ⟨line, 0, 0, offset⟩
  | cs :: rest =>
    if rest.isEmpty || n < Text.byteSize cs then
      let before := Text.takeBytes n cs
      ⟨line, before.length, Text.size16 before, offset + Text.byteSize before⟩
    else positionAmong (line + 1) (offset + Text.byteSize cs) (n - Text.byteSize cs) rest

/-- The position of the last character boundary at or before byte offset `n`. -/
def positionAt (source : Source) (n : Nat) : Position := positionAmong 0 0 n source.lines

def spanAt (source : Source) (range : ByteRange) : Span :=
  ⟨source.positionAt range.start, source.positionAt range.stop⟩

end Source

end GraphQL
