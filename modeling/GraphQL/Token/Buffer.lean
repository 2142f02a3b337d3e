import GraphQL.Token.Stream

/-!
A stream that pulls its tokens out of a source as they are asked for. What was pulled and lies
ahead waits in a buffer. `TokenStream` gives the same answers from the whole list of tokens.
-/
namespace GraphQL

structure BufferedStream where
  /-- The source as it was before any token was pulled. -/
  source : List Token
  /-- The tokens of the source that are not pulled yet. -/
  unread : List Token
  current : Token
  /-- The tokens after the cursor that were pulled. -/
  buffer : List Token := []
  /-- The end of the token before the cursor, or the start of the text. -/
  previousEnd : Position := {}
  primed : Bool := false
deriving DecidableEq, Repr, Inhabited

namespace BufferedStream

/-- A stream over a source that is not primed: its cursor is at an end of input that was not pulled
from the source. -/
def ofTokens (source : List Token) : BufferedStream :=
  { source, unread := source, current := .eofAt {} }

def atEnd (stream : BufferedStream) : Bool := stream.current.kind == .eof

def isAt (stream : BufferedStream) (kind : TokenKind) : Bool := stream.current.kind.same kind

def isAtWord (stream : BufferedStream) (word : String) : Bool := stream.current.isWord word

/-- The token that was pulled last, or that under the cursor if none waits. -/
def last (stream : BufferedStream) : Token := stream.buffer.getLast?.getD stream.current

/-- The token that the source gives next. A source that runs dry gives an end of input where the
last token ended. -/
def pulled (stream : BufferedStream) : Token := stream.unread.headD (.eofAt stream.last.stop)

/-- Whether the end of input was pulled. That under the cursor before the stream is primed was
not. -/
def exhausted (stream : BufferedStream) : Bool :=
  match stream.buffer.getLast? with
  | some last => last.kind == .eof
  | none => stream.primed && stream.atEnd

/-- Put the next token of the source in the buffer. -/
def pull (stream : BufferedStream) : BufferedStream :=
  { stream with unread := stream.unread.tail, buffer := stream.buffer ++ [stream.pulled] }

/-- Pull until `count` tokens wait in the buffer, or the end of input does. -/
def fill (stream : BufferedStream) (count : Nat) : BufferedStream :=
  if stream.buffer.length < count then
    if stream.exhausted then stream else stream.pull.fill count
  else stream
termination_by count - stream.buffer.length
decreasing_by simp only [pull, List.length_append, List.length_singleton]; omega

/-- A token moved to is raised as an error if it is one. -/
def raised (stream : BufferedStream) (token : Token) :
    Except SyntaxError Token × BufferedStream :=
  match stream.current.error? with
  | some error => (.error error, stream)
  | none => (.ok token, stream)

/-- Begin again with the source, and go to its first token. -/
def prime (stream : BufferedStream) : Except SyntaxError Token × BufferedStream :=
  let rewound := { stream with unread := stream.source, buffer := [], previousEnd := {} }
  let moved := { rewound with
    current := rewound.pulled, unread := rewound.unread.tail, primed := true }
  moved.raised moved.current

/-- Leave the current token for the next one, and answer with the token left. The end of input is
never left. The cursor moves even if the token that it moves to is raised. -/
def advance (stream : BufferedStream) : Except SyntaxError Token × BufferedStream :=
  if stream.atEnd then (.ok stream.current, stream)
  else
    let left := stream.current
    let filled := stream.fill 1
    let moved := { filled with
      current := filled.buffer.headD (.eofAt left.stop)
      buffer := filled.buffer.tail
      previousEnd := left.stop }
    moved.raised left

/-- Pull until `count` tokens wait, and answer with the one `n` places after the next. If so many do
not wait, the answer is the token that was pulled last. -/
def lookAhead (stream : BufferedStream) (n count : Nat) : Token × BufferedStream :=
  let filled := stream.fill count
  (filled.buffer.getD n filled.last, filled)

/-- The token after the cursor, or the current one if it is the last. -/
def peek (stream : BufferedStream) : Token × BufferedStream := stream.lookAhead 0 1

/-- The token `n` places after the next one, or the last where there are not so many. There is no
answer if the build stops at the sum of `n` and 1, and then nothing is pulled. -/
def peekNth (overflow : Overflow) (stream : BufferedStream) (n : UInt64) :
    Option Token × BufferedStream :=
  match overflow.next? n with
  | none => (none, stream)
  | some count =>
    let (token, filled) := stream.lookAhead n.toNat count.toNat
    (some token, filled)

end BufferedStream

end GraphQL
