/-!
Character classes of query text and the spelling of code points. The classes cover all of Unicode:
blank characters are those with the property White_Space.
-/
namespace GraphQL.Text

/-- The characters that end a line, alone or as the pair carriage return, line feed. -/
def isLineEnd (c : Char) : Bool := c == '\n' || c == '\r'

/-- The characters that may stand between tokens on one line. -/
def isSpace (c : Char) : Bool := c == ' ' || c == '\t'

/-- The code points with the property White_Space, as closed intervals in increasing order. -/
def blankRanges : List (Nat × Nat) :=
  [(0x09, 0x0D), (0x20, 0x20), (0x85, 0x85), (0xA0, 0xA0), (0x1680, 0x1680), (0x2000, 0x200A),
   (0x2028, 0x2029), (0x202F, 0x202F), (0x205F, 0x205F), (0x3000, 0x3000)]

/-- Control characters, as closed intervals of code points. -/
def controlRanges : List (Nat × Nat) := [(0x00, 0x1F), (0x7F, 0x9F)]

/-- Soft hyphen, zero-width characters and direction marks, which show as nothing. -/
def invisibleRanges : List (Nat × Nat) :=
  [(0xAD, 0xAD), (0x200B, 0x200F), (0x202A, 0x202E), (0x2060, 0x2064), (0x2066, 0x206F)]

/-- Whether the code point of `c` lies in one of the closed intervals. -/
def inRanges (ranges : List (Nat × Nat)) (c : Char) : Bool :=
  ranges.any fun r => r.1 ≤ c.toNat && c.toNat ≤ r.2

def isBlank (c : Char) : Bool := inRanges blankRanges c

/-- A character that a reader of a message would not see. -/
def isUnseen (c : Char) : Bool :=
  inRanges controlRanges c || isBlank c || inRanges invisibleRanges c

def isHexDigit (c : Char) : Bool :=
  c.isDigit || ('a' ≤ c && c ≤ 'f') || ('A' ≤ c && c ≤ 'F')

/-- The value of a hexadecimal digit of either case, and 0 for any other character. -/
def hexDigitValue (c : Char) : Nat :=
  if c.isDigit then c.toNat - '0'.toNat
  else if 'a' ≤ c && c ≤ 'f' then c.toNat - 'a'.toNat + 10
  else if 'A' ≤ c && c ≤ 'F' then c.toNat - 'A'.toNat + 10
  else 0

/-- The number that a run of hexadecimal digits denotes. -/
def hexValue (digits : List Char) : Nat :=
  digits.foldl (fun n c => 16 * n + hexDigitValue c) 0

/-- Lower-case hexadecimal digits, without leading zeros. -/
def lowerHex (n : Nat) : String := String.ofList (Nat.toDigits 16 n)

/-- Upper-case hexadecimal digits, at least four. -/
def upperHex4 (n : Nat) : String :=
  String.ofList (((Nat.toDigits 16 n).map Char.toUpper).leftpad 4 '0')

/-- A character as an escape that gives its code point. -/
def codePointEscape (c : Char) : String := "\\u\x7b" ++ lowerHex c.toNat ++ "\x7d"

/-- A character in a message. One that cannot be seen is given by its code point. -/
def describe (c : Char) : String :=
  if isUnseen c then "`" ++ codePointEscape c ++ "` (U+" ++ upperHex4 c.toNat ++ ")"
  else "`" ++ c.toString ++ "`"

/-- UTF-16 code units of a character. -/
def units16 (c : Char) : Nat := if c.toNat < 0x10000 then 1 else 2

/-- UTF-8 bytes of a run of characters. -/
def byteSize (cs : List Char) : Nat := cs.foldr (fun c n => c.utf8Size + n) 0

/-- UTF-16 code units of a run of characters. -/
def size16 (cs : List Char) : Nat := cs.foldr (fun c n => units16 c + n) 0

/-- The longest run at the start of `cs` that takes at most `n` bytes. -/
def takeBytes : Nat → List Char → List Char
  | _, [] => []
  | n, c :: cs => if c.utf8Size ≤ n then c :: takeBytes (n - c.utf8Size) cs else []

/-- What follows the first `n` bytes, unless they end outside `cs` or inside a character. -/
def afterBytes? : Nat → List Char → Option (List Char)
  | 0, cs => some cs
  | _ + 1, [] => none
  | n + 1, c :: cs => if c.utf8Size ≤ n + 1 then afterBytes? (n + 1 - c.utf8Size) cs else none

/-- The first `n` bytes, unless they end outside `cs` or inside a character. -/
def firstBytes? : Nat → List Char → Option (List Char)
  | 0, _ => some []
  | _ + 1, [] => none
  | n + 1, c :: cs =>
    if c.utf8Size ≤ n + 1 then (firstBytes? (n + 1 - c.utf8Size) cs).map (c :: ·) else none

/-- The characters at byte offsets `start` to `stop`; none where the range leaves the text, is
reversed or splits a character. -/
def slice (start stop : Nat) (cs : List Char) : List Char :=
  if start ≤ stop then ((afterBytes? start cs).bind (firstBytes? (stop - start))).getD [] else []

/-- The lines of a text, each with its terminator: a line feed, a carriage return, or both in that
order as one. The last line has none, and is empty if the text ends with one. -/
def lines : List Char → List (List Char)
  | [] => [[]]
  | '\r' :: '\n' :: rest => ['\r', '\n'] :: lines rest
  | c :: rest =>
    if isLineEnd c then [c] :: lines rest
    else match lines rest with
      | [] => [[c]]
      | line :: more => (c :: line) :: more

/-- A line without its terminator. -/
def lineContent (line : List Char) : List Char := line.takeWhile fun c => !isLineEnd c

/-- The lines of a text without their terminators. -/
def splitLines (cs : List Char) : List (List Char) := (lines cs).map lineContent

end GraphQL.Text
