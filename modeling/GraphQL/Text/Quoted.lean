import GraphQL.Text.DefaultIgnorable
import GraphQL.Text.GraphemeExtend
import GraphQL.Text.Unprintable

/-!
Texts in double quotes, spelled so that each character of them can be seen: one without a glyph, or
one that would be drawn onto its neighbour, is given by its code point.
-/
namespace GraphQL.Text

/-- The characters that are escaped by a backslash and a letter or sign. -/
def escapeLetter? : Char → Option Char
  | '\x00' => some '0'
  | '\t' => some 't'
  | '\n' => some 'n'
  | '\r' => some 'r'
  | '"' => some '"'
  | '\\' => some '\\'
  | _ => none

/-- The sound marks of halfwidth Katakana, which are the only letters with the property
Grapheme_Extend: they take a place of their own beside the letter that they modify. -/
def isHalfwidthSoundMark (c : Char) : Bool := c == '\uFF9E' || c == '\uFF9F'

/-- A mark that is drawn onto the character before it. -/
def isOverlaid (c : Char) : Bool := isGraphemeExtend c && !isHalfwidthSoundMark c

/-- A character that cannot be seen, or not as one of its own. -/
def isHidden (c : Char) : Bool := isOverlaid c || isUnprintable c || isDefaultIgnorable c

/-- A character as it is spelled between quotes. -/
def spell (c : Char) : String :=
  match escapeLetter? c with
  | some letter => String.ofList ['\\', letter]
  | none => if isHidden c then codePointEscape c else c.toString

/-- A text in quotes. -/
def quoted (text : String) : String := "\"" ++ String.join (text.toList.map spell) ++ "\""

end GraphQL.Text
