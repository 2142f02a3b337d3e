import GraphQL.Token.Lexer

/-!
A stream of tokens with one token under the cursor. A stream holds its tokens up to the first end
of input, so the cursor has a place to rest. It also counts how many of the tokens ahead have been
looked at; the count affects nothing else.
-/
namespace GraphQL

/-- What becomes of a sum that does not fit a machine word of 64 bits. A build that checks its
arithmetic stops there, and any other drops what does not fit. -/
inductive Overflow where
  | stops
  | wraps
deriving DecidableEq, Repr, Inhabited

namespace Overflow

/-- The greatest machine word. -/
def greatest : UInt64 := 0xFFFFFFFFFFFFFFFF

/-- The machine word after `n`, unless the build stops there. -/
def next? (overflow : Overflow) (n : UInt64) : Option UInt64 :=
  match overflow with
  | .stops => if n = greatest then none else some (n + 1)
  | .wraps => some (n + 1)

end Overflow

structure TokenStream where
  /-- All tokens, with the end of input as the last. -/
  tokens : List Token
  current : Token
  /-- The tokens after the cursor. -/
  ahead : List Token
  /-- How many of the tokens ahead have been fetched. -/
  buffered : Nat := 0
  /-- The end of the token before the cursor, or the start of the text. -/
  previousEnd : Position := {}
  primed : Bool := false
deriving DecidableEq, Repr, Inhabited

namespace TokenStream

/-- The tokens up to the first end of input. If there is none, one is put where the last token
ends, which is at `last` if there are no tokens. -/
def closeAt (last : Position) : List Token → List Token
  | [] => [.eofAt last]
  | token :: rest => if token.kind = .eof then [token] else token :: closeAt token.stop rest

/-- A stream over `tokens` that is not primed: its cursor is at an end of input before them. -/
def ofTokens (tokens : List Token) : TokenStream :=
  let tokens := closeAt {} tokens
  { tokens, current := .eofAt {}, ahead := tokens }

/-- A stream over the tokens of a text. -/
def ofText (text : String) : TokenStream := ofTokens (Token.lex text)

def atEnd (stream : TokenStream) : Bool := stream.current.kind == .eof

/-- Whether the current token is of the given kind, whatever the cause if it is an error. -/
def isAt (stream : TokenStream) (kind : TokenKind) : Bool := stream.current.kind.same kind

/-- Whether the current token is the name `word`. -/
def isAtWord (stream : TokenStream) (word : String) : Bool := stream.current.isWord word

/-- A token moved to is raised as an error if it is one. -/
def raised (stream : TokenStream) (token : Token) : Except SyntaxError Token × TokenStream :=
  match stream.current.error? with
  | some error => (.error error, stream)
  | none => (.ok token, stream)

/-- Go to the first token. -/
def prime (stream : TokenStream) : Except SyntaxError Token × TokenStream :=
  let current := stream.tokens.headD (.eofAt {})
  let moved := { stream with
    current, ahead := stream.tokens.tail, buffered := 0, previousEnd := {}, primed := true }
  moved.raised current

/-- Leave the current token for the next one, and answer with the token left. The end of input is
never left. The cursor moves even if the token that it moves to is raised. -/
def advance (stream : TokenStream) : Except SyntaxError Token × TokenStream :=
  if stream.atEnd then (.ok stream.current, stream)
  else
    let left := stream.current
    let moved := { stream with
      current := stream.ahead.headD (.eofAt left.stop)
      ahead := stream.ahead.tail
      buffered := stream.buffered - 1
      previousEnd := left.stop }
    moved.raised left

/-- The token after the cursor, or the current one if it is the last. -/
def peek (stream : TokenStream) : Token := stream.ahead.headD stream.current

/-- The stream once the first `count` tokens ahead have been looked at. -/
def fetch (stream : TokenStream) (count : Nat) : TokenStream :=
  { stream with buffered := max stream.buffered (min count stream.ahead.length) }

/-- Look at the first `count` tokens ahead, and answer with the one `n` places after the next. If so
many have not been looked at, the answer is the last of those that have. -/
def lookAhead (stream : TokenStream) (n count : Nat) : Token × TokenStream :=
  let fetched := stream.fetch count
  let seen := fetched.ahead.take fetched.buffered
  (seen.getD n (seen.getLastD stream.current), fetched)

/-- The token `n` places after the next one, or the last where there are not so many. There is no
answer if the build stops at the sum of `n` and 1, and then nothing is looked at. -/
def peekNth (overflow : Overflow) (stream : TokenStream) (n : UInt64) :
    Option Token × TokenStream :=
  match overflow.next? n with
  | none => (none, stream)
  | some count =>
    let (token, fetched) := stream.lookAhead n.toNat count.toNat
    (some token, fetched)

end TokenStream

/-- The token of the given kind that has the characters of `source` at `span`. -/
def Token.ofSpan (source : Source) (kind : TokenKind) (span : Span) : Token :=
  ⟨kind, span, source.slice span.bytes⟩

end GraphQL
