import GraphQL.Token.Basic

/-!
The lexer. Recognition works on lists of characters and says nothing about places: a scan splits off
one lexeme, and the position moves over what was split off. Main statements: a scan loses no
character (`scan_lexeme_append_rest`) and its lexeme is never empty (`scan_lexeme_ne_nil`), which is
why lexing ends.
-/
namespace GraphQL

namespace Lexer

open Text

def isNameStart (c : Char) : Bool := c == '_' || c.isAlpha

def isNameContinue (c : Char) : Bool := c == '_' || c.isAlphanum

/-- The characters that are ignored between tokens, comments apart. -/
def isIgnored (c : Char) : Bool := isSpace c || isLineEnd c || c == ',' || c == '\uFEFF'

/-- The longest run of ignored characters and comments, and what follows it. A comment goes from
`#` to the end of its line; `inComment` says that one has begun. -/
def spanIgnored (inComment : Bool) : List Char → List Char × List Char
  | [] => ([], [])
  | c :: cs =>
    if inComment && !isLineEnd c then
      let (gap, rest) := spanIgnored true cs
      (c :: gap, rest)
    else if isIgnored c then
      let (gap, rest) := spanIgnored false cs
      (c :: gap, rest)
    else if c == '#' then
      let (gap, rest) := spanIgnored true cs
      (c :: gap, rest)
    else ([], c :: cs)

/-- A token split off the front of a text: its kind, its characters and what follows them. -/
structure Scan where
  kind : TokenKind
  lexeme : List Char
  rest : List Char
deriving Repr, Inhabited

/-- The punctuators of one character. -/
def punctuatorOf? : Char → Option TokenKind
  | '!' => some .bang
  | '$' => some .dollar
  | '(' => some .parenOpen
  | ')' => some .parenClose
  | ':' => some .colon
  | '=' => some .equals
  | '@' => some .atSign
  | '[' => some .squareOpen
  | ']' => some .squareClose
  | '{' => some .curlyOpen
  | '}' => some .curlyClose
  | _ => none

/-- A dot that follows on the same line, with the blanks before it. -/
def spanDot? (cs : List Char) : Option (List Char × List Char) :=
  match cs.dropWhile isSpace with
  | '.' :: rest => some (cs.takeWhile isSpace ++ ['.'], rest)
  | _ => none

/-- The token after a first dot: an ellipsis, or a fault that covers up to three dots. -/
def scanDots : List Char → Scan
  | '.' :: '.' :: rest => ⟨.ellipsis, ['.', '.', '.'], rest⟩
  | cs =>
    match spanDot? cs with
    | none => ⟨.error .strayDot, ['.'], cs⟩
    | some (second, rest) =>
      match spanDot? rest with
      | some (third, rest) => ⟨.error .spacedDots, '.' :: (second ++ third), rest⟩
      | none =>
        ⟨.error (if second == ['.'] then .doubleDot else .spacedDots), '.' :: second, rest⟩

/-- A part of a number and what follows it. -/
abbrev NumberPart := Except NumberFault (List Char × List Char)

/-- Whether `cs` starts with a digit. -/
def startsWithDigit : List Char → Bool
  | c :: _ => c.isDigit
  | [] => false

/-- A run of digits, where at least one is required. -/
def spanDigits (fault : NumberFault) (cs : List Char) : NumberPart :=
  if startsWithDigit cs then .ok (cs.takeWhile Char.isDigit, cs.dropWhile Char.isDigit)
  else .error fault

/-- The digits before the point of a text that starts with a digit: a lone `0`, or a run of digits
that starts with another. -/
def spanWhole : List Char → NumberPart
  | '0' :: cs => if startsWithDigit cs then .error .leadingZero else .ok (['0'], cs)
  | cs => .ok (cs.takeWhile Char.isDigit, cs.dropWhile Char.isDigit)

/-- The fraction, if there is one. Two dots begin none. -/
def spanFraction : List Char → NumberPart
  | '.' :: '.' :: cs => .ok ([], '.' :: '.' :: cs)
  | '.' :: cs => do
    let (digits, rest) ← spanDigits .noFractionDigit cs
    return ('.' :: digits, rest)
  | cs => .ok ([], cs)

/-- The sign of an exponent, if there is one. -/
def spanSign : List Char → List Char × List Char
  | '+' :: cs => (['+'], cs)
  | '-' :: cs => (['-'], cs)
  | cs => ([], cs)

/-- The exponent, if there is one. -/
def spanExponent : List Char → NumberPart
  | [] => .ok ([], [])
  | c :: cs =>
    if c == 'e' || c == 'E' then do
      let (sign, afterSign) := spanSign cs
      let (digits, rest) ← spanDigits .noExponentDigit afterSign
      return (c :: (sign ++ digits), rest)
    else .ok ([], c :: cs)

/-- Whether a number may end before `cs`: neither a dot nor a name may follow it directly. -/
def mayFollowNumber : List Char → Bool
  | c :: _ => !(c == '.' || isNameStart c)
  | [] => true

/-- An unsigned number at the start of a text that starts with a digit. -/
def spanNumber (cs : List Char) : NumberPart := do
  let (whole, rest) ← spanWhole cs
  let (fraction, rest) ← spanFraction rest
  let (exponent, rest) ← spanExponent rest
  if mayFollowNumber rest then return (whole ++ fraction ++ exponent, rest)
  else throw .badFollower

/-- The characters that a malformed number takes with it. -/
def isNumberTail (c : Char) : Bool :=
  c.isAlphanum || c == '.' || c == '+' || c == '-' || c == '_'

/-- The number that starts with the given sign and goes on with `cs`. -/
def scanNumber (sign cs : List Char) : Scan :=
  match spanNumber cs with
  | .ok (digits, rest) => ⟨.number, sign ++ digits, rest⟩
  | .error fault =>
    let text := sign ++ cs.takeWhile isNumberTail
    ⟨.error (.badNumber fault (String.ofList text)), text, cs.dropWhile isNumberTail⟩

/-- How the inside of a string ends. -/
inductive StringEnd where
  | closed
  | lineEnd
  | textEnd
deriving DecidableEq, Repr, Inhabited

/-- The inside of a string, up to its closing quote if it has one. A backslash takes the character
after it along, except a line terminator. -/
def spanString : List Char → StringEnd × List Char × List Char
  | [] => (.textEnd, [], [])
  | '"' :: cs => (.closed, ['"'], cs)
  | '\\' :: c :: cs =>
    if isLineEnd c then (.lineEnd, ['\\'], c :: cs)
    else
      let (ending, inside, rest) := spanString cs
      (ending, '\\' :: c :: inside, rest)
  | c :: cs =>
    if isLineEnd c then (.lineEnd, [], c :: cs)
    else
      let (ending, inside, rest) := spanString cs
      (ending, c :: inside, rest)

/-- The inside of a block string, up to its closing quotes, and whether it has them. Quotes after a
backslash do not close it. -/
def spanBlockString : List Char → Bool × List Char × List Char
  | [] => (false, [], [])
  | '\\' :: '"' :: '"' :: '"' :: cs =>
    let (closed, inside, rest) := spanBlockString cs
    (closed, '\\' :: '"' :: '"' :: '"' :: inside, rest)
  | '"' :: '"' :: '"' :: cs => (true, ['"', '"', '"'], cs)
  | c :: cs =>
    let (closed, inside, rest) := spanBlockString cs
    (closed, c :: inside, rest)

/-- The string or block string after a first quote that stands at `start`. -/
def scanString (start : Position) : List Char → Scan
  | '"' :: '"' :: cs =>
    let (closed, inside, rest) := spanBlockString cs
    ⟨if closed then .string else .error (.openBlockString start),
      '"' :: '"' :: '"' :: inside, rest⟩
  | cs =>
    let (ending, inside, rest) := spanString cs
    let kind := match ending with
      | .closed => .string
      | .lineEnd => .error .brokenString
      | .textEnd => .error (.openString start)
    ⟨kind, '"' :: inside, rest⟩

/-- The token that starts with `c`, at `start`, and goes on in `cs`. -/
def scan (start : Position) (c : Char) (cs : List Char) : Scan :=
  match punctuatorOf? c with
  | some kind => ⟨kind, [c], cs⟩
  | none =>
    if c == '.' then scanDots cs
    else if c == '"' then scanString start cs
    else if isNameStart c then
      ⟨.name, c :: cs.takeWhile isNameContinue, cs.dropWhile isNameContinue⟩
    else if c == '-' then
      if startsWithDigit cs then scanNumber ['-'] cs else ⟨.error .strayMinus, ['-'], cs⟩
    else if c.isDigit then scanNumber [] (c :: cs)
    else ⟨.error (.badCharacter c), [c], cs⟩

/-- What is ignored and what is left are all there was. -/
theorem spanIgnored_append (inComment : Bool) (cs : List Char) :
    (spanIgnored inComment cs).1 ++ (spanIgnored inComment cs).2 = cs := by
  induction cs generalizing inComment with
  | nil => rfl
  | cons c cs ih => grind [spanIgnored]

/-- A dot and the blanks before it are cut off the front. -/
theorem spanDot?_append {cs dot rest : List Char} (h : spanDot? cs = some (dot, rest)) :
    dot ++ rest = cs := by
  have hSplit := List.takeWhile_append_dropWhile (p := isSpace) (l := cs)
  grind [spanDot?]

/-- Dots are cut off the front, faulty or not. -/
theorem scanDots_append (cs : List Char) :
    (scanDots cs).lexeme ++ (scanDots cs).rest = '.' :: cs := by
  fun_cases scanDots cs
  all_goals grind [→ spanDot?_append]

theorem spanDigits_append {fault : NumberFault} {cs digits rest : List Char}
    (h : spanDigits fault cs = .ok (digits, rest)) : digits ++ rest = cs := by
  grind [spanDigits, List.takeWhile_append_dropWhile]

theorem spanWhole_append {cs digits rest : List Char} (h : spanWhole cs = .ok (digits, rest)) :
    digits ++ rest = cs := by
  fun_cases spanWhole cs <;> simp_all [spanWhole]
  all_goals grind [List.takeWhile_append_dropWhile]

theorem spanFraction_append {cs part rest : List Char} (h : spanFraction cs = .ok (part, rest)) :
    part ++ rest = cs := by
  fun_cases spanFraction cs with
  | case1 | case3 => simp_all [spanFraction]
  | case2 cs hDots =>
    simp only [spanFraction] at h
    match hDigits : spanDigits .noFractionDigit cs with
    | .error _ => rw [hDigits] at h; cases h
    | .ok (digits, after) =>
      rw [hDigits] at h
      cases h
      simp [spanDigits_append hDigits]

theorem spanSign_append (cs : List Char) : (spanSign cs).1 ++ (spanSign cs).2 = cs := by
  fun_cases spanSign cs <;> rfl

theorem spanExponent_append {cs part rest : List Char} (h : spanExponent cs = .ok (part, rest)) :
    part ++ rest = cs := by
  fun_cases spanExponent cs with
  | case1 | case3 => simp_all [spanExponent]
  | case2 c cs hMark =>
    simp only [spanExponent, hMark, if_true] at h
    match hDigits : spanDigits .noExponentDigit (spanSign cs).2 with
    | .error _ => rw [hDigits] at h; cases h
    | .ok (digits, after) =>
      rw [hDigits] at h
      cases h
      simp [List.append_assoc, spanDigits_append hDigits, spanSign_append]

/-- The three parts of a number are cut off the front, one after another. -/
theorem spanNumber_append {cs digits rest : List Char} (h : spanNumber cs = .ok (digits, rest)) :
    digits ++ rest = cs := by
  unfold spanNumber at h
  match hWhole : spanWhole cs with
  | .error _ => rw [hWhole] at h; cases h
  | .ok (whole, afterWhole) =>
    rw [hWhole] at h
    match hFraction : spanFraction afterWhole with
    | .error _ => simp [bind, Except.bind, hFraction] at h
    | .ok (fraction, afterFraction) =>
      match hExponent : spanExponent afterFraction with
      | .error _ => simp [bind, Except.bind, hFraction, hExponent] at h
      | .ok (exponent, afterExponent) =>
        simp only [bind, Except.bind, hFraction, hExponent] at h
        split at h
        · cases h
          simp [List.append_assoc, spanExponent_append hExponent, spanFraction_append hFraction,
            spanWhole_append hWhole]
        · cases h

/-- A number or what is faulty in its place is cut off the front, behind the sign. -/
theorem scanNumber_append (sign cs : List Char) :
    (scanNumber sign cs).lexeme ++ (scanNumber sign cs).rest = sign ++ cs := by
  unfold scanNumber
  split
  · next h => simp [spanNumber_append h]
  · simp [List.takeWhile_append_dropWhile]

theorem spanString_append (cs : List Char) :
    (spanString cs).2.1 ++ (spanString cs).2.2 = cs := by
  fun_induction spanString cs <;> simp_all

theorem spanBlockString_append (cs : List Char) :
    (spanBlockString cs).2.1 ++ (spanBlockString cs).2.2 = cs := by
  fun_induction spanBlockString cs <;> simp_all

theorem scanString_append (start : Position) (cs : List Char) :
    (scanString start cs).lexeme ++ (scanString start cs).rest = '"' :: cs := by
  fun_cases scanString start cs <;>
    grind [spanString_append, spanBlockString_append]

/-- Scanning cuts a lexeme off the front and loses nothing. -/
theorem scan_lexeme_append_rest (start : Position) (c : Char) (cs : List Char) :
    (scan start c cs).lexeme ++ (scan start c cs).rest = c :: cs := by
  fun_cases scan start c cs <;>
    simp_all [scanDots_append, scanString_append, scanNumber_append]

/-- Dots are scanned from one on. -/
theorem scanDots_lexeme_ne_nil (cs : List Char) : (scanDots cs).lexeme ≠ [] := by
  fun_cases scanDots cs <;> simp

/-- A string is scanned from its quotation mark on. -/
theorem scanString_lexeme_ne_nil (start : Position) (cs : List Char) :
    (scanString start cs).lexeme ≠ [] := by
  fun_cases scanString start cs <;> simp

theorem spanWhole_ne_nil {cs digits rest : List Char} (hDigit : startsWithDigit cs)
    (h : spanWhole cs = .ok (digits, rest)) : digits ≠ [] := by
  fun_cases spanWhole cs with
  | case1 => simp_all [spanWhole]
  | case2 rest hRest => simp [spanWhole, hRest] at h; simp [← h.1]
  | case3 cs =>
    cases cs with
    | nil => simp [startsWithDigit] at hDigit
    | cons c cs => simp_all [spanWhole, startsWithDigit]; grind

theorem spanNumber_ne_nil {cs digits rest : List Char} (hDigit : startsWithDigit cs)
    (h : spanNumber cs = .ok (digits, rest)) : digits ≠ [] := by
  unfold spanNumber at h
  match hWhole : spanWhole cs with
  | .error _ => rw [hWhole] at h; cases h
  | .ok (whole, afterWhole) =>
    have hNonempty := spanWhole_ne_nil hDigit hWhole
    rw [hWhole] at h
    simp only [bind, Except.bind] at h
    split at h
    · cases h
    · split at h
      · cases h
      · split at h <;> cases h
        simp [hNonempty]

/-- A text that starts with a digit gives a number or a fault with at least that digit. -/
theorem scanNumber_lexeme_ne_nil (sign cs : List Char) (h : startsWithDigit cs) :
    (scanNumber sign cs).lexeme ≠ [] := by
  unfold scanNumber
  split
  · next hNumber => simp [spanNumber_ne_nil h hNumber]
  · cases cs with
    | nil => simp [startsWithDigit] at h
    | cons c cs =>
      have hTail : isNumberTail c = true := by
        simp only [startsWithDigit] at h
        simp [isNumberTail, Char.isAlphanum, h]
      simp [hTail]

/-- A scan takes a character at least, so the lexer comes to an end. -/
theorem scan_lexeme_ne_nil (start : Position) (c : Char) (cs : List Char) :
    (scan start c cs).lexeme ≠ [] := by
  fun_cases scan start c cs <;>
    simp_all [scanDots_lexeme_ne_nil, scanString_lexeme_ne_nil, scanNumber_lexeme_ne_nil,
      startsWithDigit]

/-- What follows a token is shorter than what it was split from. -/
theorem length_scan_rest_le (start : Position) (c : Char) (cs : List Char) :
    (scan start c cs).rest.length ≤ cs.length := by
  have hAppend := congrArg List.length (scan_lexeme_append_rest start c cs)
  have hNonempty := List.length_pos_iff.2 (scan_lexeme_ne_nil start c cs)
  simp only [List.length_append, List.length_cons] at hAppend
  omega

/-- To ignore characters leaves no more than there were. -/
theorem length_spanIgnored_le (inComment : Bool) (cs : List Char) :
    (spanIgnored inComment cs).2.length ≤ cs.length := by
  have hAppend := congrArg List.length (spanIgnored_append inComment cs)
  simp only [List.length_append] at hAppend
  omega

/-- The tokens of `cs`, which starts where the cursor stands. -/
def tokensFrom (cursor : Cursor) (cs : List Char) : List Token :=
  let gap := (spanIgnored false cs).1
  let start := cursor.walk gap
  match _hRest : (spanIgnored false cs).2 with
  | [] => [.eofAt start.position]
  | c :: rest =>
    let found := scan start.position c rest
    let stop := start.walk found.lexeme
    ⟨found.kind, ⟨start.position, stop.position⟩, String.ofList found.lexeme⟩ ::
      tokensFrom stop found.rest
termination_by cs.length
decreasing_by
  have hScan := length_scan_rest_le (cursor.walk (spanIgnored false cs).1).position c rest
  have hIgnored := length_spanIgnored_le false cs
  rw [_hRest, List.length_cons] at hIgnored
  omega

end Lexer

/-- The tokens of a text. The last is always the end of input, at the end of the text. -/
def Token.lex (text : String) : List Token := Lexer.tokensFrom {} text.toList

end GraphQL
