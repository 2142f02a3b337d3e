import GraphQL.Proofs.Token.Indexed
import GraphQL.Token.Buffer

/-! Streams that pull their tokens when they are asked for. Tokens move from those that are coming
into the buffer, and from there under the cursor; what lies ahead is the same throughout, so such a
stream answers all calls as one does that holds all tokens. A look ahead to the greatest place is
the only call that shows how many tokens were pulled, since it pulls none itself. -/
namespace GraphQL

namespace BufferedStream

open TokenStream

/-- The answer of a stream to a call, and the stream after it. -/
def answer (overflow : Overflow) (call : StreamCall) (stream : BufferedStream) :
    StreamAnswer × BufferedStream :=
  match call with
  | .prime => (.primed (stream.prime.1.map fun _ => ()), stream.prime.2)
  | .advance => (.left stream.advance.1, stream.advance.2)
  | .current => (.token stream.current, stream)
  | .peek => (.token stream.peek.1, stream.peek.2)
  | .peekNth n => (.ofPeek (stream.peekNth overflow n).1, (stream.peekNth overflow n).2)
  | .isAt kind => (.truth (stream.isAt kind), stream)
  | .isAtWord word => (.truth (stream.isAtWord word), stream)
  | .isBeforeWord word => (.truth (stream.peek.1.isWord word), stream.peek.2)
  | .previousEnd => (.place stream.previousEnd, stream)

/-- The tokens that will be pulled after those that wait in the buffer. -/
def coming (stream : BufferedStream) : List Token :=
  if stream.exhausted then [] else closeAt stream.last.stop stream.unread

/-- The token pulled is the last one from then on. -/
theorem last_pull (stream : BufferedStream) : stream.pull.last = stream.pulled := by
  simp [last, pull]

/-- Nothing more is pulled once the end of input was. -/
theorem exhausted_pull (stream : BufferedStream) :
    stream.pull.exhausted = (stream.pulled.kind == .eof) := by
  simp [exhausted, pull]

/-- The token pulled next is the first of those that are coming. -/
theorem coming_pull {stream : BufferedStream} (h : stream.exhausted = false) :
    stream.coming = stream.pulled :: stream.pull.coming := by
  rw [coming, coming, h, exhausted_pull, last_pull, if_neg Bool.false_ne_true]
  cases hUnread : stream.unread with
  | nil => simp [pulled, hUnread, closeAt, Token.eofAt]
  | cons token rest =>
      by_cases hEnd : token.kind = .eof <;> simp [pulled, pull, hUnread, closeAt, hEnd]

/-- Filling the buffer moves tokens that are coming into it. -/
theorem fill_keeps (stream : BufferedStream) (count : Nat) :
    (stream.fill count).buffer ++ (stream.fill count).coming = stream.buffer ++ stream.coming ∧
      (stream.fill count).buffer.length =
        max stream.buffer.length (min count (stream.buffer ++ stream.coming).length) ∧
      stream.fill count = { stream with
        unread := (stream.fill count).unread, buffer := (stream.fill count).buffer } := by
  fun_induction fill stream count with
  | case1 stream hLess hExhausted =>
      have hComing : stream.coming = [] := by rw [coming, if_pos hExhausted]
      refine ⟨rfl, ?_, rfl⟩
      rw [hComing, List.append_nil]
      omega
  | case2 stream hLess hExhausted ih =>
      obtain ⟨hTokens, hLength, hRest⟩ := ih
      have hComing := coming_pull (by simpa using hExhausted)
      have hSame : stream.pull.buffer ++ stream.pull.coming = stream.buffer ++ stream.coming := by
        rw [hComing, pull, List.append_assoc, List.singleton_append]
      refine ⟨hTokens.trans hSame, ?_, hRest⟩
      have hMore : stream.buffer.length < (stream.buffer ++ stream.coming).length := by
        rw [hComing, List.length_append, List.length_cons]
        omega
      rw [hLength, hSame, pull, List.length_append, List.length_singleton]
      omega
  | case3 stream hEnough => exact ⟨rfl, by omega, rfl⟩

/-- Where the cursor is not at the end of input, a token is pulled to move to. -/
theorem exists_next {stream : BufferedStream} (hEnd : stream.atEnd = false) :
    ∃ next rest, (stream.fill 1).buffer = next :: rest := by
  obtain ⟨-, hLength, -⟩ := stream.fill_keeps 1
  have hSome : 0 < (stream.buffer ++ stream.coming).length := by
    cases hBuffer : stream.buffer with
    | cons next rest => simp
    | nil =>
        have hMore : stream.exhausted = false := by simp [exhausted, hBuffer, hEnd]
        simp [coming_pull hMore]
  apply List.exists_cons_of_length_pos
  omega

/-- A stream with the cursor moved to the next of the tokens that wait. -/
def moved (stream : BufferedStream) (next : Token) (rest : List Token) : BufferedStream :=
  { stream with current := next, buffer := rest, previousEnd := stream.current.stop }

/-- Moving to a token that waits leaves those that are coming. -/
theorem coming_moved {stream : BufferedStream} {next : Token} {rest : List Token}
    (hBuffer : stream.buffer = next :: rest) (hPrimed : stream.primed = true) :
    (stream.moved next rest).coming = stream.coming := by
  have hLast : (stream.moved next rest).last = stream.last := by
    simp [last, moved, hBuffer, List.getLast?_cons]
  have hExhausted : (stream.moved next rest).exhausted = stream.exhausted := by
    simp only [exhausted, moved, hBuffer, List.getLast?_cons, hPrimed]
    cases rest.getLast? <;> simp [BufferedStream.atEnd]
  rw [coming, coming, hLast, hExhausted]
  rfl

/-- Whether a stream that pulls its tokens is where one is that holds them all. -/
structure Pulls (stream : BufferedStream) (whole : TokenStream) : Prop where
  tokens : whole.tokens = closeAt {} stream.source
  current : stream.current = whole.current
  ahead : whole.ahead = stream.buffer ++ stream.coming
  buffered : whole.buffered = stream.buffer.length
  previousEnd : stream.previousEnd = whole.previousEnd
  primed : stream.primed = whole.primed
  /-- The cursor rests on an end of input of the stream's own before the first prime, and at the
  start of the text for good if the source has no tokens. -/
  resting : stream.primed = false ∨ stream.source = [] → stream.current = .eofAt {}

/-- Before anything is pulled a buffered stream and a whole one have the same ahead. -/
theorem pulls_ofTokens (source : List Token) :
    Pulls (.ofTokens source) (.ofTokens source) where
  tokens := rfl
  current := rfl
  ahead := rfl
  buffered := rfl
  previousEnd := rfl
  primed := rfl
  resting _ := rfl

theorem raised_snd (stream : BufferedStream) (token : Token) :
    (stream.raised token).2 = stream := by
  unfold raised
  split <;> rfl

/-- A fault is told of alike where the current tokens are the same. -/
theorem raised_fst {stream : BufferedStream} {whole : TokenStream}
    (h : stream.current = whole.current) (token : Token) :
    (stream.raised token).1 = (whole.raised token).1 := by
  unfold raised TokenStream.raised
  rw [h]
  cases whole.current.error? <;> rfl

namespace Pulls

variable {stream : BufferedStream} {whole : TokenStream}

/-- Filling the buffer pulls what the whole stream fetches. -/
theorem fill (h : Pulls stream whole) (count : Nat) :
    Pulls (stream.fill count) (whole.fetch count) := by
  obtain ⟨hTokens, hLength, hRest⟩ := stream.fill_keeps count
  rw [hRest]
  refine ⟨h.tokens, h.current, ?_, ?_, h.previousEnd, h.primed, h.resting⟩
  · rw [← hRest, hTokens]
    exact h.ahead
  · rw [TokenStream.fetch, h.buffered, h.ahead]
    exact hLength.symm

theorem atEnd (h : Pulls stream whole) : stream.atEnd = whole.atEnd := by
  rw [BufferedStream.atEnd, TokenStream.atEnd, h.current]

/-- The tokens that wait are those that were looked at. -/
theorem lookAhead (h : Pulls stream whole) (n count : Nat) :
    (stream.lookAhead n count).1 = (whole.lookAhead n count).1 ∧
      Pulls (stream.lookAhead n count).2 (whole.lookAhead n count).2 := by
  have hFilled := h.fill count
  refine ⟨?_, hFilled⟩
  have hSeen : (whole.fetch count).ahead.take (whole.fetch count).buffered =
      (stream.fill count).buffer := by
    rw [hFilled.ahead, hFilled.buffered, List.take_left]
  have hCurrent : (stream.fill count).current = whole.current := hFilled.current
  simp only [BufferedStream.lookAhead, TokenStream.lookAhead, hSeen, last, hCurrent,
    List.getLastD_eq_getLast?]

/-- Both streams look at the same next token. -/
theorem peek (h : Pulls stream whole) :
    stream.peek.1 = whole.peek ∧ Pulls stream.peek.2 (whole.fetch 1) := by
  rw [peek_eq_lookAhead]
  exact h.lookAhead 0 1

/-- Both streams look at the same token, also where the count runs over. -/
theorem peekNth (overflow : Overflow) (h : Pulls stream whole) (n : UInt64) :
    (stream.peekNth overflow n).1 = (whole.peekNth overflow n).1 ∧
      Pulls (stream.peekNth overflow n).2 (whole.peekNth overflow n).2 := by
  unfold BufferedStream.peekNth TokenStream.peekNth
  cases overflow.next? n with
  | none => exact ⟨rfl, h⟩
  | some count =>
      obtain ⟨hToken, hNext⟩ := h.lookAhead n.toNat count.toNat
      exact ⟨congrArg some hToken, hNext⟩

theorem prime (h : Pulls stream whole) :
    stream.prime.1 = whole.prime.1 ∧ Pulls stream.prime.2 whole.prime.2 := by
  have hTokens := h.tokens
  have hHead : whole.tokens.headD (.eofAt {}) =
      stream.source.headD (.eofAt stream.current.stop) := by
    rw [hTokens]
    cases hSource : stream.source with
    | nil =>
        rw [h.resting (.inr hSource)]
        rfl
    | cons token rest => by_cases hEnd : token.kind = .eof <;> simp [closeAt, hEnd]
  have hTail : whole.tokens.tail =
      if (stream.source.headD (.eofAt stream.current.stop)).kind == .eof then []
      else closeAt (stream.source.headD (.eofAt stream.current.stop)).stop stream.source.tail := by
    rw [hTokens]
    cases stream.source with
    | nil => rfl
    | cons token rest => by_cases hEnd : token.kind = .eof <;> simp [closeAt, hEnd]
  rw [BufferedStream.prime, TokenStream.prime, hHead]
  refine ⟨raised_fst rfl _, ?_⟩
  rw [raised_snd, TokenStream.raised_snd]
  refine ⟨hTokens, rfl, hTail, rfl, rfl, rfl, ?_⟩
  rintro (hPrimed | hSource)
  · cases hPrimed
  · show stream.source.headD (.eofAt stream.current.stop) = _
    have hSource : stream.source = [] := hSource
    rw [hSource, h.resting (.inr hSource)]
    rfl

theorem advance (h : Pulls stream whole) :
    stream.advance.1 = whole.advance.1 ∧ Pulls stream.advance.2 whole.advance.2 := by
  rw [BufferedStream.advance, TokenStream.advance, h.atEnd]
  cases hEnd : whole.atEnd with
  | true => exact ⟨congrArg Except.ok h.current, h⟩
  | false =>
      have hStart : stream.atEnd = false := h.atEnd.trans hEnd
      have hPrimed : stream.primed = true := by
        by_contra hNot
        rw [BufferedStream.atEnd, h.resting (.inl (by simpa using hNot))] at hStart
        cases hStart
      have hFilled := h.fill 1
      obtain ⟨next, rest, hBuffer⟩ := exists_next hStart
      obtain ⟨-, -, hRest⟩ := stream.fill_keeps 1
      have hMoved : { stream.fill 1 with
          current := (stream.fill 1).buffer.headD (.eofAt stream.current.stop)
          buffer := (stream.fill 1).buffer.tail
          previousEnd := stream.current.stop } = (stream.fill 1).moved next rest := by
        rw [hRest, hBuffer]
        rfl
      have hAhead : whole.ahead = next :: (rest ++ (stream.fill 1).coming) := by
        rw [← List.cons_append, ← hBuffer]
        exact hFilled.ahead
      simp only [Bool.false_eq_true, if_false]
      rw [hMoved, hAhead, ← h.current]
      refine ⟨raised_fst rfl _, ?_⟩
      rw [raised_snd, TokenStream.raised_snd]
      have hFilledPrimed : (stream.fill 1).primed = true :=
        hFilled.primed.trans (h.primed ▸ hPrimed)
      refine ⟨hFilled.tokens, rfl, ?_, ?_, ?_, hFilled.primed, ?_⟩
      · rw [coming_moved hBuffer hFilledPrimed]
        rfl
      · have hBuffered : max whole.buffered (min 1 whole.ahead.length) = rest.length + 1 := by
          rw [← List.length_cons, ← hBuffer]
          exact hFilled.buffered
        have hSome : 0 < whole.ahead.length := by simp [hAhead]
        show whole.buffered - 1 = rest.length
        omega
      · show (stream.fill 1).current.stop = stream.current.stop
        rw [hFilled.current, h.current]
        rfl
      · rintro (hUnprimed | hSource)
        · rw [show (stream.fill 1).primed = false from hUnprimed] at hFilledPrimed
          cases hFilledPrimed
        · have hSource : stream.source = [] := by
            rw [← show (stream.fill 1).source = stream.source by rw [hRest]]
            exact hSource
          rw [BufferedStream.atEnd, h.resting (.inr hSource)] at hStart
          cases hStart

/-- A stream that pulls its tokens answers each call as one does that holds them all. -/
theorem answer (overflow : Overflow) (call : StreamCall) (h : Pulls stream whole) :
    (stream.answer overflow call).1 = (whole.answer overflow call).1 ∧
      Pulls (stream.answer overflow call).2 (whole.answer overflow call).2 := by
  cases call with
  | prime =>
      obtain ⟨hOutcome, hNext⟩ := h.prime
      exact ⟨congrArg (fun outcome : Except SyntaxError Token =>
        StreamAnswer.primed (outcome.map fun _ => ())) hOutcome, hNext⟩
  | advance =>
      obtain ⟨hOutcome, hNext⟩ := h.advance
      exact ⟨congrArg StreamAnswer.left hOutcome, hNext⟩
  | current => exact ⟨congrArg StreamAnswer.token h.current, h⟩
  | peek =>
      obtain ⟨hToken, hNext⟩ := h.peek
      exact ⟨congrArg StreamAnswer.token hToken, hNext⟩
  | peekNth n =>
      obtain ⟨hToken, hNext⟩ := h.peekNth overflow n
      exact ⟨congrArg StreamAnswer.ofPeek hToken, hNext⟩
  | isAt kind =>
      exact ⟨congrArg (fun token : Token => StreamAnswer.truth (token.kind.same kind)) h.current, h⟩
  | isAtWord word =>
      exact ⟨congrArg (fun token : Token => StreamAnswer.truth (token.isWord word)) h.current, h⟩
  | isBeforeWord word =>
      obtain ⟨hToken, hNext⟩ := h.peek
      exact ⟨congrArg (fun token : Token => StreamAnswer.truth (token.isWord word)) hToken, hNext⟩
  | previousEnd => exact ⟨congrArg StreamAnswer.place h.previousEnd, h⟩

end Pulls

/-- What a look ahead to the greatest place gives. A build that stops at the sum gives nothing, and
any other looks no further than what waits, so that the token pulled last is taken for one there. -/
def beyond (stream : BufferedStream) : Overflow → StreamAnswer
  | .stops => .overflow
  | .wraps => .token (stream.buffer.getD Overflow.greatest.toNat stream.last)

/-- A look ahead to the greatest place pulls nothing. -/
theorem answer_greatest (overflow : Overflow) (stream : BufferedStream) :
    stream.answer overflow (.peekNth Overflow.greatest) = (stream.beyond overflow, stream) := by
  have hFill : stream.fill 0 = stream := by
    rw [fill, if_neg (Nat.not_lt_zero _)]
  cases overflow with
  | stops => rfl
  | wraps =>
      have hPeek : stream.answer .wraps (.peekNth Overflow.greatest) =
          (.token ((stream.fill 0).buffer.getD Overflow.greatest.toNat (stream.fill 0).last),
            stream.fill 0) := rfl
      rw [hPeek, hFill]
      rfl

/-- Whether a stream that pulls its tokens is where an index points. -/
def IsAtIndex (tokens : List Token) (stream : BufferedStream) (indexed : IndexedStream) : Prop :=
  ∃ whole, stream.Pulls whole ∧ whole.IsAtIndex tokens indexed

/-- A new buffered stream is at the first index of its tokens. -/
theorem isAtIndex_ofTokens (source : List Token) :
    IsAtIndex (wholeOf source) (.ofTokens source) {} :=
  ⟨.ofTokens source, pulls_ofTokens source, TokenStream.isAtIndex_ofTokens source⟩

/-- One call keeps a stream where the index points, and is answered as the index says unless it
looks ahead to the greatest place. -/
theorem IsAtIndex.answer (overflow : Overflow) {tokens : List Token} (hTokens : Closed tokens)
    (call : StreamCall) {stream : BufferedStream} {indexed : IndexedStream}
    (h : IsAtIndex tokens stream indexed) :
    (call ≠ .peekNth Overflow.greatest →
      (stream.answer overflow call).1 = (indexed.answer tokens call).1) ∧
    IsAtIndex tokens (stream.answer overflow call).2 (indexed.answer tokens call).2 := by
  obtain ⟨whole, hPulls, hIndex⟩ := h
  obtain ⟨hPulled, hNext⟩ := hPulls.answer overflow call
  obtain ⟨hIndexed, hNextIndex⟩ := hIndex.answer overflow hTokens call
  exact ⟨fun hCall => hPulled.trans (hIndexed hCall), _, hNext, hNextIndex⟩

open StreamCall (after)

/-- After any calls to a stream over any source, the next is answered as the list of the source's
tokens answers it at an index, whether the stream pulls its tokens or holds them all, and the calls
before it that only inspect could be left out. The one exception is a look ahead to the greatest
place, which leaves the stream as it is but gets no answer, or the token that was pulled last. -/
theorem answer_eq_indexed (overflow : Overflow) (source : List Token) (calls : List StreamCall)
    (call : StreamCall) :
    let indexed := after (IndexedStream.answer (wholeOf source)) calls {}
    let whole := after (TokenStream.answer overflow) calls (.ofTokens source)
    let stream := after (answer overflow) calls (.ofTokens source)
    let moved := after (answer overflow) (calls.filter fun call => !call.inspects)
      (.ofTokens source)
    (whole.answer overflow call).1 = (stream.answer overflow call).1 ∧
    (call ≠ .peekNth Overflow.greatest →
      (stream.answer overflow call).1 = (indexed.answer (wholeOf source) call).1 ∧
      (moved.answer overflow call).1 = (stream.answer overflow call).1) ∧
    (call = .peekNth Overflow.greatest →
      stream.answer overflow call = (stream.beyond overflow, stream)) := by
  intro indexed whole stream moved
  have hClosed := TokenStream.closed_wholeOf source
  have hAt (calls : List StreamCall) :
      IsAtIndex (wholeOf source) (after (answer overflow) calls (.ofTokens source))
        (after (IndexedStream.answer (wholeOf source)) calls {}) :=
    StreamCall.related_after (fun call _ _ h => (h.answer overflow hClosed call).2) calls
      (isAtIndex_ofTokens source)
  have hPulls : Pulls stream whole :=
    StreamCall.related_after (fun call _ _ h => (h.answer overflow call).2) calls
      (pulls_ofTokens source)
  refine ⟨((hPulls.answer overflow call).1).symm, fun hCall => ?_, ?_⟩
  · have hStream := ((hAt calls).answer overflow hClosed call).1 hCall
    have hMoved := (hAt (calls.filter fun call => !call.inspects)).answer overflow hClosed call
    rw [IndexedStream.after_filter] at hMoved
    exact ⟨hStream, (hMoved.1 hCall).trans hStream.symm⟩
  · rintro rfl
    exact answer_greatest overflow stream

/-- From the first of two names, a look far ahead gives the end of input. One to the greatest place
gives the name after it, since that was pulled by a look before. -/
theorem answer_eq_indexed_names :
    let source := Token.lex "a b"
    let indexed := after (IndexedStream.answer (wholeOf source)) [.prime, .peek] {}
    let stream := after (answer .wraps) [.prime, .peek] (.ofTokens source)
    (stream.answer .wraps (.peekNth 7)).1 = (indexed.answer (wholeOf source) (.peekNth 7)).1 ∧
      stream.answer .wraps (.peekNth Overflow.greatest) = (stream.beyond .wraps, stream) ∧
      (stream.beyond .wraps) = .token ⟨.name, ⟨⟨0, 2, 2, 2⟩, ⟨0, 3, 3, 3⟩⟩, "b"⟩ := by
  have hFar := answer_eq_indexed .wraps (Token.lex "a b") [.prime, .peek] (.peekNth 7)
  have hGreatest :=
    answer_eq_indexed .wraps (Token.lex "a b") [.prime, .peek] (.peekNth Overflow.greatest)
  exact ⟨(hFar.2.1 (by decide)).1, hGreatest.2.2 rfl, by decide +kernel⟩

/-- The index answers with the end of input also at the greatest place, where a stream stops or
answers with the name under its cursor. -/
theorem greatest_is_not_end :
    let source := Token.lex "a b"
    let indexed := after (IndexedStream.answer (wholeOf source)) [.prime] {}
    let stream (overflow : Overflow) := after (answer overflow) [.prime] (.ofTokens source)
    (indexed.answer (wholeOf source) (.peekNth Overflow.greatest)).1 =
        .token (.eofAt ⟨0, 3, 3, 3⟩) ∧
      ((stream .stops).answer .stops (.peekNth Overflow.greatest)).1 = .overflow ∧
      ((stream .wraps).answer .wraps (.peekNth Overflow.greatest)).1 =
        .token ⟨.name, ⟨⟨0, 0, 0, 0⟩, ⟨0, 1, 1, 1⟩⟩, "a"⟩ := by
  decide +kernel

/-- A source that runs dry behind a fault: the fault is peeked at without harm, raised when the
cursor comes to it, and left for an end of input where it ends. -/
example :
    let fault : Token := ⟨.error .strayDot, ⟨{}, { column := 1, column16 := 1, offset := 1 }⟩, "."⟩
    let stream := after (answer .stops) [.peekNth 0, .prime, .advance] (.ofTokens [fault])
    (answer .stops (.peekNth 0) (.ofTokens [fault])).1 = .token fault ∧
      (answer .stops .prime (.ofTokens [fault])).1 =
        .primed (.error ⟨"Unexpected `.`", fault.span, .lexical, [], none⟩) ∧
      stream.current = .eofAt fault.stop ∧ stream.previousEnd = fault.stop := by
  decide +kernel

end BufferedStream

end GraphQL
