import GraphQL.Text.Character

/-!
The values of string literals. A literal on one line has escapes; a block string has its common
indentation and its blank first and last lines taken off.
-/
namespace GraphQL.StringLiteral

open Text

/-- Why a literal has no value. -/
inductive Fault where
  | unterminated
  /-- The escape as far as it was read. -/
  | badEscape (text : String)
  /-- The escape of a code point as far as it was read. -/
  | badUnicode (text : String)
deriving DecidableEq, Repr, Inhabited

def Fault.message : Fault → String
  | .unterminated => "Unterminated string: missing closing quote"
  | .badEscape text => "Invalid escape sequence: `" ++ text ++ "`"
  | .badUnicode text => "Invalid unicode escape: `" ++ text ++ "`"

/-- The start of an escape that cannot be read, as text of a message. -/
def badUnicode (afterBackslash : List Char) : Fault :=
  .badUnicode (String.ofList ('\\' :: afterBackslash))

/-- The character with code point `n`, unless `n` is a surrogate or too large. -/
def charOf? (n : Nat) : Option Char := if n.isValidChar then some (Char.ofNat n) else none

/-- Four hexadecimal digits: their value and what follows. -/
def readHex4 (cs : List Char) : Except Fault (Nat × List Char) :=
  let digits := cs.take 4
  let good := digits.takeWhile isHexDigit
  if good.length = 4 then .ok (hexValue digits, cs.drop 4)
  else .error (badUnicode ('u' :: cs.take (good.length + 1)))

/-- The digits up to a closing brace: their value and what follows. -/
def readBraced (cs : List Char) : Except Fault (Char × List Char) :=
  let digits := cs.takeWhile isHexDigit
  let shown := 'u' :: '\x7b' :: digits
  match cs.dropWhile isHexDigit with
  | [] => .error (badUnicode shown)
  | c :: rest =>
    if c = '\x7d' && !digits.isEmpty then
      match charOf? (hexValue digits) with
      | some value => .ok (value, rest)
      | none => .error (badUnicode (shown ++ [c]))
    else .error (badUnicode (shown ++ [c]))

def isLeadingSurrogate (n : Nat) : Bool := 0xD800 ≤ n && n ≤ 0xDBFF

def isTrailingSurrogate (n : Nat) : Bool := 0xDC00 ≤ n && n ≤ 0xDFFF

/-- The code point that a pair of surrogates stands for. -/
def joinSurrogates (leading trailing : Nat) : Nat :=
  0x10000 + 0x400 * (leading - 0xD800) + (trailing - 0xDC00)

/-- A code unit as the text of its own escape. -/
def loneUnit (n : Nat) : Fault := badUnicode ('u' :: (upperHex4 n).toList)

/-- The escape of one code unit, or of two that form a surrogate pair. -/
def readUnits (cs : List Char) : Except Fault (Char × List Char) := do
  let (unit, rest) ← readHex4 cs
  if isLeadingSurrogate unit then
    match rest with
    | '\\' :: 'u' :: more =>
      let (trailing, rest) ← readHex4 more
      if isTrailingSurrogate trailing then
        return (Char.ofNat (joinSurrogates unit trailing), rest)
      else throw (loneUnit unit)
    | _ => throw (loneUnit unit)
  else match charOf? unit with
    | some c => return (c, rest)
    | none => throw (loneUnit unit)

/-- The escape of a code point, after its `\u`. -/
def readUnicode : List Char → Except Fault (Char × List Char)
  | '\x7b' :: cs => readBraced cs
  | cs => readUnits cs

/-- The escapes of one letter. -/
def simpleEscape? : Char → Option Char
  | 'n' => some '\n'
  | 'r' => some '\r'
  | 't' => some '\t'
  | '\\' => some '\\'
  | '"' => some '"'
  | '/' => some '/'
  | 'b' => some '\x08'
  | 'f' => some '\x0c'
  | _ => none

/-- The first character that the inside of a literal denotes, and the rest of the inside. -/
def readChar (c : Char) (cs : List Char) : Except Fault (Char × List Char) :=
  if c ≠ '\\' then .ok (c, cs)
  else match cs with
    | [] => .error (.badEscape "\\")
    | 'u' :: rest => readUnicode rest
    | e :: rest =>
      match simpleEscape? e with
      | some value => .ok (value, rest)
      | none => .error (.badEscape (String.ofList ['\\', e]))

/-- The characters that the inside of a literal denotes. Each one takes at least one character, so
`bound` is large enough if it is the length of the inside. -/
def readWithin : Nat → List Char → Except Fault (List Char)
  | 0, _ | _ + 1, [] => .ok []
  | bound + 1, c :: cs => do
    let (value, rest) ← readChar c cs
    return value :: (← readWithin bound rest)

/-- Whether a literal is a block string. -/
def isBlock (raw : String) : Bool := ['"', '"', '"'].isPrefixOf raw.toList

/-- The inside of a text in quotes that are `quotes` long, if it is in such quotes. -/
def inside? (quotes : Nat) (cs : List Char) : Option (List Char) :=
  let mark := List.replicate quotes '"'
  if 2 * quotes ≤ cs.length && mark.isPrefixOf cs && mark.isSuffixOf cs then
    some ((cs.drop quotes).take (cs.length - 2 * quotes))
  else none

/-- A block string with each escaped run of three quotes replaced by the run. -/
def unescapeQuotes : List Char → List Char
  | [] => []
  | '\\' :: '"' :: '"' :: '"' :: cs => '"' :: '"' :: '"' :: unescapeQuotes cs
  | c :: cs => c :: unescapeQuotes cs

def isBlankLine (line : List Char) : Bool := line.all isBlank

/-- The spaces and tabs that a line starts with. -/
def indent (line : List Char) : Nat := (line.takeWhile isSpace).length

/-- The least indentation of the lines that are not blank, and 0 if all are. -/
def commonIndent (lines : List (List Char)) : Nat :=
  ((lines.filter fun line => !isBlankLine line).map indent).min?.getD 0

/-- A line without its first `n` bytes. A line that they do not cut cleanly stays whole. -/
def outdent (n : Nat) (line : List Char) : List Char := (afterBytes? n line).getD line

/-- The lines without the blank ones at either end. -/
def trimBlankLines (lines : List (List Char)) : List (List Char) :=
  ((lines.dropWhile isBlankLine).reverse.dropWhile isBlankLine).reverse

/-- The value of the inside of a block string. The first line stands after the opening quotes and
is not indented. -/
def blockValue (inside : List Char) : List Char :=
  let contents := splitLines (unescapeQuotes inside)
  let outdented := match contents with
    | [] => []
    | first :: rest => first :: rest.map (outdent (commonIndent rest))
  ['\n'].intercalate (trimBlankLines outdented)

/-- The value of a literal with its quotes. -/
def value (raw : String) : Except Fault String := do
  let cs := raw.toList
  if isBlock raw then
    match inside? 3 cs with
    | some inside => return String.ofList (blockValue inside)
    | none => throw .unterminated
  else match inside? 1 cs with
    | some inside => return String.ofList (← readWithin inside.length inside)
    | none => throw .unterminated

end GraphQL.StringLiteral
