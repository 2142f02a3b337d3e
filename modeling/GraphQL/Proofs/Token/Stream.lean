import GraphQL.Proofs.Token.Run
import GraphQL.Token.Stream

/-! Streams as what is left of their tokens. Going over some tokens is one relation, from which
everything is said that productions do to a stream. -/
namespace GraphQL

namespace TokenStream

/-- The tokens from the cursor on. -/
def remaining (stream : TokenStream) : List Token := stream.current :: stream.ahead

theorem current_of_remaining {stream : TokenStream} {token : Token} {rest : List Token}
    (h : stream.remaining = token :: rest) : stream.current = token := (List.cons.inj h).1

/-- To be at a kind means that the token under the cursor has it; for a fault, `isAt` looks less
closely. -/
theorem isAt_iff {stream : TokenStream} {kind : TokenKind} (h : kind.isError = false) :
    stream.isAt kind = true ↔ stream.current.kind = kind := by
  unfold isAt TokenKind.same
  split
  · cases h
  · simp

theorem atEnd_iff {stream : TokenStream} : stream.atEnd = true ↔ stream.current.kind = .eof := by
  simp [atEnd]

/-- The cursor of `stream` goes over `tokens` and comes to that of `next`. On the way it meets no
fault. -/
structure Moves (stream : TokenStream) (tokens : List Token) (next : TokenStream) : Prop where
  remaining : stream.remaining = tokens ++ next.remaining
  closed : Closed next.remaining
  stop : next.previousEnd = (tokens.getLast?.map Token.stop).getD stream.previousEnd
  legal : stream.current.kind.isError = false →
    (∀ t ∈ tokens, t.kind.isError = false) ∧ next.current.kind.isError = false

namespace Moves

variable {stream middle next : TokenStream} {tokens more : List Token}

theorem refl (h : Closed stream.remaining) : Moves stream [] stream :=
  ⟨rfl, h, rfl, fun hLegal => ⟨nofun, hLegal⟩⟩

/-- What is passed in two moves is what is passed in the first and then in the second. -/
theorem trans (first : Moves stream tokens middle) (second : Moves middle more next) :
    Moves stream (tokens ++ more) next where
  remaining := by rw [first.remaining, second.remaining, List.append_assoc]
  closed := second.closed
  stop := by
    rw [second.stop, first.stop, List.getLast?_append]
    cases more.getLast? <;> simp
  legal := by
    intro hLegal
    obtain ⟨hTokens, hMiddle⟩ := first.legal hLegal
    obtain ⟨hMore, hNext⟩ := second.legal hMiddle
    refine ⟨fun t ht => ?_, hNext⟩
    rcases List.mem_append.1 ht with ht | ht
    · exact hTokens t ht
    · exact hMore t ht

/-- To look ahead passes nothing. -/
theorem fetch (count : Nat) (h : Closed stream.remaining) :
    Moves stream [] (stream.fetch count) :=
  ⟨rfl, h, rfl, fun hLegal => ⟨nofun, hLegal⟩⟩

/-- The tokens gone over leave the rest of what was left. -/
theorem remaining_next {rest : List Token} (h : Moves stream tokens next)
    (hRest : stream.remaining = tokens ++ rest) : next.remaining = rest :=
  List.append_cancel_left (h.remaining.symm.trans hRest)

end Moves

theorem raised_snd (stream : TokenStream) (token : Token) : (stream.raised token).2 = stream := by
  unfold raised
  split <;> rfl

/-- A token is given if that under the cursor is without fault. -/
theorem raised_eq_ok {stream next : TokenStream} {token left : Token} :
    stream.raised token = (.ok left, next) ↔
      stream.current.kind.isError = false ∧ left = token ∧ next = stream := by
  unfold raised Token.error?
  cases hKind : stream.current.kind <;> simp [TokenKind.isError, eq_comm]

/-- The fault told of is that of the token under the cursor. -/
theorem raised_eq_error {stream next : TokenStream} {token : Token} {error : SyntaxError} :
    stream.raised token = (.error error, next) ↔
      stream.current.error? = some error ∧ next = stream := by
  unfold raised
  cases stream.current.error? <;> simp [eq_comm]

/-- At the end of input the stream stays where it is. -/
theorem advance_of_atEnd {stream : TokenStream} (h : stream.current.kind = .eof) :
    stream.advance = (.ok stream.current, stream) := by
  simp [advance, atEnd, h]

/-- Where the cursor is after a step, even if the token that it comes to is raised. -/
theorem remaining_advance {stream : TokenStream} (hClosed : Closed stream.remaining)
    (hEnd : stream.current.kind ≠ .eof) :
    stream.remaining = stream.current :: stream.advance.2.remaining ∧
      stream.advance.2.previousEnd = stream.current.stop := by
  have hAtEnd : stream.atEnd = false := by simpa [atEnd] using hEnd
  obtain ⟨first, rest, hAhead⟩ := List.exists_cons_of_ne_nil (hClosed.tail hEnd).ne_nil
  simp [advance, hAtEnd, raised_snd, remaining, hAhead]

/-- Before the end of input one token is left, the one under the cursor. -/
theorem moves_advance {stream next : TokenStream} {token : Token}
    (hClosed : Closed stream.remaining) (hEnd : stream.current.kind ≠ .eof)
    (h : stream.advance = (.ok token, next)) :
    token = stream.current ∧ Moves stream [stream.current] next := by
  have hAtEnd : stream.atEnd = false := by simpa [atEnd] using hEnd
  rw [advance, hAtEnd] at h
  simp only [Bool.false_eq_true, if_false] at h
  obtain ⟨hLegal, rfl, rfl⟩ := raised_eq_ok.1 h
  obtain ⟨first, rest, hAhead⟩ := List.exists_cons_of_ne_nil (hClosed.tail hEnd).ne_nil
  refine ⟨rfl, ?_, ?_, rfl, ?_⟩
  · simp [remaining, hAhead]
  · simpa [remaining, hAhead] using hClosed.tail hEnd
  · exact fun hCurrent => ⟨by simpa using hCurrent, hLegal⟩

/-- A token with a sound one after it can be left. -/
theorem exists_advance {stream : TokenStream} {token next : Token} {rest : List Token}
    (hClosed : Closed stream.remaining) (h : stream.remaining = token :: next :: rest)
    (hNext : next.kind.isError = false) :
    ∃ after, stream.advance = (.ok token, after) ∧ Moves stream [token] after := by
  obtain ⟨rfl, hAhead⟩ := List.cons.inj h
  have hEnd : stream.current.kind ≠ .eof := (h ▸ hClosed).kind_ne_eof
  have hAtEnd : stream.atEnd = false := by simpa [atEnd] using hEnd
  obtain ⟨after, hAfter⟩ : ∃ after, stream.advance = (.ok stream.current, after) := by
    rw [advance, hAtEnd]
    exact ⟨_, raised_eq_ok.2 ⟨by simpa [hAhead] using hNext, rfl, rfl⟩⟩
  exact ⟨after, hAfter, (moves_advance hClosed hEnd hAfter).2⟩

/-- Tokens that have an end of input need no other. -/
theorem closeAt_eq {tokens : List Token} (h : Closed tokens) (last : Position) :
    closeAt last tokens = tokens := by
  induction tokens generalizing last with
  | nil => exact absurd rfl h.ne_nil
  | cons token tokens ih =>
      rw [closeAt]
      split
      · next hEnd => rw [h.eq_nil hEnd]
      · next hEnd => rw [ih (h.tail hEnd)]

theorem tokens_ofText (text : String) : (ofText text).tokens = Token.lex text :=
  closeAt_eq (Token.lex_closed text) {}

/-- The states of a stream over a text. -/
inductive Reached (text : String) : TokenStream → Prop where
  | opened : Reached text (ofText text)
  | primed {stream : TokenStream} (h : Reached text stream) : Reached text stream.prime.2
  | advanced {stream : TokenStream} (h : Reached text stream) : Reached text stream.advance.2
  | fetched {stream : TokenStream} (h : Reached text stream) (count : Nat) :
      Reached text (stream.fetch count)

/-- Once primed, a stream has all its tokens ahead. -/
theorem remaining_prime {stream : TokenStream} (h : stream.tokens ≠ []) :
    stream.prime.2.remaining = stream.tokens := by
  obtain ⟨first, rest, hTokens⟩ := List.exists_cons_of_ne_nil h
  simp [prime, raised_snd, remaining, hTokens]

/-- A stream keeps its tokens, and once primed it is left with an end of them. -/
theorem Reached.remaining {text : String} {stream : TokenStream} (h : Reached text stream) :
    stream.tokens = Token.lex text ∧
      (stream.primed = true → stream.remaining <:+ Token.lex text) := by
  induction h with
  | opened => exact ⟨tokens_ofText text, fun h => nomatch h⟩
  | @primed stream h ih =>
      have hTokens : stream.prime.2.tokens = stream.tokens := by simp [prime, raised_snd]
      refine ⟨hTokens.trans ih.1, fun _ => ?_⟩
      have hAll := remaining_prime (ih.1 ▸ (Token.lex_closed text).ne_nil)
      exact (hAll.trans ih.1) ▸ List.suffix_refl _
  | @advanced stream h ih =>
      unfold advance
      split
      · exact ih
      · next hAtEnd =>
          simp only [raised_snd]
          refine ⟨ih.1, fun hPrimed => ?_⟩
          obtain ⟨before, hBefore⟩ := ih.2 hPrimed
          have hClosed : Closed stream.remaining :=
            (hBefore ▸ Token.lex_closed text).of_append (by simp [TokenStream.remaining])
          have hEnd : stream.current.kind ≠ .eof := by simpa [atEnd] using hAtEnd
          obtain ⟨first, rest, hAhead⟩ := List.exists_cons_of_ne_nil (hClosed.tail hEnd).ne_nil
          refine ⟨before ++ [stream.current], ?_⟩
          rw [← hBefore]
          simp [TokenStream.remaining, hAhead]
  | fetched h count ih => exact ih

/-- Wherever a primed stream of a text got to, the end of input is ahead. -/
theorem Reached.closed {text : String} {stream : TokenStream} (h : Reached text stream)
    (hPrimed : stream.primed = true) : Closed stream.remaining := by
  obtain ⟨before, hBefore⟩ := h.remaining.2 hPrimed
  exact (hBefore ▸ Token.lex_closed text).of_append (by simp [TokenStream.remaining])

/-- Once primed, the stream of a text has all tokens of the text ahead. -/
theorem remaining_prime_ofText (text : String) :
    (ofText text).prime.2.remaining = Token.lex text := by
  rw [remaining_prime, tokens_ofText]
  rw [tokens_ofText]
  exact (Token.lex_closed text).ne_nil

/-- A stream that is primed without a fault stands at a token without one. -/
theorem remaining_of_prime {text : String} {token : Token} {stream : TokenStream}
    (h : (ofText text).prime = (.ok token, stream)) :
    stream.remaining = Token.lex text ∧ stream.current.kind.isError = false := by
  have hRemaining := remaining_prime_ofText text
  rw [h] at hRemaining
  rw [prime] at h
  obtain ⟨hLegal, -, rfl⟩ := raised_eq_ok.1 h
  exact ⟨hRemaining, hLegal⟩

/-- Priming fails because of the first token alone, and the stream is primed all the same. -/
theorem fault_of_prime {text : String} {error : SyntaxError} {stream : TokenStream}
    (h : (ofText text).prime = (.error error, stream)) :
    stream.remaining = Token.lex text ∧ stream.current.error? = some error := by
  have hRemaining := remaining_prime_ofText text
  rw [h] at hRemaining
  rw [prime] at h
  obtain ⟨hError, rfl⟩ := raised_eq_error.1 h
  exact ⟨hRemaining, hError⟩

/-- A text whose tokens are without fault can be primed. -/
theorem exists_prime {text : String} (h : ∀ t ∈ Token.lex text, t.kind.isError = false) :
    ∃ token stream, (ofText text).prime = (.ok token, stream) ∧
      stream.remaining = Token.lex text := by
  have hRemaining := remaining_prime_ofText text
  have hLegal := h (ofText text).prime.2.current (hRemaining ▸ List.mem_cons_self)
  obtain ⟨token, hPrime⟩ : ∃ token, (ofText text).prime = (.ok token, (ofText text).prime.2) := by
    rw [prime, raised_snd] at hLegal ⊢
    exact ⟨_, raised_eq_ok.2 ⟨hLegal, rfl, rfl⟩⟩
  exact ⟨token, _, hPrime, hRemaining⟩

end TokenStream

end GraphQL
