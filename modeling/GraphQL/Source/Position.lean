import GraphQL.Text.Character

/-!
Places in a source text. Lines, columns and offsets all count from 0; what a person reads counts
lines and columns from 1.
-/
namespace GraphQL

/-- A place in a source text: its line, its column in characters and in UTF-16 code units, and its
offset in UTF-8 bytes from the start of the text. -/
structure Position where
  line : Nat := 0
  column : Nat := 0
  column16 : Nat := 0
  offset : Nat := 0
deriving DecidableEq, Repr, Inhabited

/-- The pair `line:column` that editors show. -/
def Position.display (p : Position) : String :=
  toString (p.line + 1) ++ ":" ++ toString (p.column + 1)

/-- The half-open stretch of text from `start` to `stop`. -/
structure Span where
  start : Position
  stop : Position
deriving DecidableEq, Repr, Inhabited

/-- The stretch of no length at `p`. -/
def Span.emptyAt (p : Position) : Span := ⟨p, p⟩

/-- Byte offsets from `start` up to `stop`. An offset stands for a word of 32 bits and is a plain
number, which is the same below 4 GiB: Proofs.Document.Sizes shows that words hold all offsets of a
text that is smaller. -/
structure ByteRange where
  start : Nat
  stop : Nat
deriving DecidableEq, Repr, Inhabited

namespace ByteRange

def size (r : ByteRange) : Nat := r.stop - r.start

def isEmpty (r : ByteRange) : Bool := r.start == r.stop

/-- The least range that holds both. -/
def cover (r s : ByteRange) : ByteRange := ⟨min r.start s.start, max r.stop s.stop⟩

end ByteRange

/-- The offsets of a span, without its lines and columns. -/
def Span.bytes (s : Span) : ByteRange := ⟨s.start.offset, s.stop.offset⟩

/-- A position that moves over a text one character at a time. It remembers a carriage return just
passed, since a line feed after it ends no further line. -/
structure Cursor where
  position : Position := {}
  afterReturn : Bool := false
deriving DecidableEq, Repr, Inhabited

namespace Cursor

/-- Move over one character. -/
def step (cursor : Cursor) (c : Char) : Cursor :=
  let p := cursor.position
  let offset := p.offset + c.utf8Size
  if Text.isLineEnd c then
    if c == '\n' && cursor.afterReturn then ⟨{ p with offset }, false⟩
    else ⟨⟨p.line + 1, 0, 0, offset⟩, c == '\r'⟩
  else ⟨⟨p.line, p.column + 1, p.column16 + Text.units16 c, offset⟩, false⟩

/-- Move over a run of characters. -/
def walk (cursor : Cursor) (cs : List Char) : Cursor := cs.foldl step cursor

end Cursor

end GraphQL
