import Mathlib.Data.List.Induction
import GraphQL.Proofs.Grammar.Contract
import GraphQL.Proofs.Grammar.Prediction

/-! Errors about delimiters. A stack that knows of nothing but delimiters agrees with all of them:
where such an error is raised, the delimiter that it points back at is on top of the stack. -/
namespace GraphQL

namespace Token

/-- The open delimiters after one more token, the innermost first. There are none if the token
closes another than the innermost. -/
def pushOrPop (token : Token) (stack : List Token) : Option (List Token) :=
  if token.kind.closer?.isSome then some (token :: stack)
  else if token.kind.isCloser then
    match stack with
    | opening :: outer => if opening.kind.closer? = some token.kind then some outer else none
    | [] => none
  else some stack

/-- The delimiters that some tokens leave open, if each closer among them matches its opener. -/
def leftOpen? (tokens : List Token) : Option (List Token) :=
  tokens.foldlM (fun stack token => token.pushOrPop stack) []

variable {token opening : Token} {tokens stack : List Token}

theorem leftOpen?_concat (tokens : List Token) (token : Token) :
    leftOpen? (tokens ++ [token]) = (leftOpen? tokens).bind token.pushOrPop := by
  simp [leftOpen?, List.foldlM_append]

theorem pushOrPop_other (h : token.kind.NoDelimiter) : token.pushOrPop stack = some stack := by
  simp [pushOrPop, h.1, h.2]

theorem pushOrPop_opener {enclosure : Enclosure} (h : token.kind = enclosure.opener) :
    token.pushOrPop stack = some (token :: stack) := by
  simp [pushOrPop, h, enclosure.closer?_opener]

theorem pushOrPop_closer {enclosure : Enclosure} (hOpening : opening.kind = enclosure.opener)
    (h : token.kind = enclosure.closer) : token.pushOrPop (opening :: stack) = some stack := by
  have hCloser : enclosure.closer.closer? = none ∧ enclosure.closer.isCloser = true := by
    cases enclosure <;> exact ⟨rfl, rfl⟩
  simp [pushOrPop, h, hOpening, enclosure.closer?_opener, hCloser]

/-- Only tokens that were met are on the stack. -/
theorem mem_of_pushOrPop {next : List Token} (h : token.pushOrPop stack = some next) :
    ∀ opening ∈ next, opening = token ∨ opening ∈ stack := by
  unfold pushOrPop at h
  intro opening hOpening
  split at h
  · cases h
    simpa using hOpening
  · split at h
    · split at h
      · split at h
        · cases h
          exact .inr (List.mem_cons_of_mem _ hOpening)
        · cases h
      · cases h
    · cases h
      exact .inr hOpening

/-- What is left open was opened by one of the tokens. -/
theorem mem_of_leftOpen? (h : leftOpen? tokens = some stack) :
    ∀ opening ∈ stack, opening ∈ tokens := by
  induction tokens using List.reverseRecOn generalizing stack with
  | nil =>
      cases h
      exact nofun
  | append_singleton tokens token ih =>
      rw [leftOpen?_concat] at h
      obtain ⟨before, hBefore, hStep⟩ := Option.bind_eq_some_iff.1 h
      intro opening hOpening
      rcases mem_of_pushOrPop hStep opening hOpening with rfl | hMet
      · exact List.mem_append_right _ List.mem_cons_self
      · exact List.mem_append_left _ (ih hBefore opening hMet)

example : (leftOpen? (Token.lex "\x7ba(b: [1] c: \x7bd: [")).map (·.map Token.text) =
    some ["[", "\x7b", "(", "\x7b"] := by decide +kernel

end Token

/-- Whether a delimiter is the only place that the notes of an error point to, as the one opened
there. -/
def SyntaxError.PointsBack (error : SyntaxError) (opening : Token) : Prop :=
  error.notes.filter (·.span.isSome) =
    [.generalAt ("`" ++ opening.text ++ "` opened here") opening.span]

/-- What an error about delimiters says of a text: all delimiters before it are matched or open, and
the innermost open one is that which the error points back at. It is not closed up to the end of the
text, or the error stands at a closer of another kind. -/
def SyntaxError.AgreesWithStack (text : String) (error : SyntaxError) : Prop :=
  match error.kind with
  | .unclosedDelimiter delimiter => ∃ before last opening outer,
      Token.lex text = before ++ [last] ∧ last.kind = .eof ∧
      Token.leftOpen? before = some (opening :: outer) ∧ error.PointsBack opening ∧
      delimiter = opening.text ∧
      error.span = .emptyAt ((before.getLast?.map Token.stop).getD {})
  | .mismatchedDelimiter expected found => ∃ before token after opening outer closer,
      Token.lex text = before ++ token :: after ∧
      Token.leftOpen? before = some (opening :: outer) ∧ error.PointsBack opening ∧
      opening.kind.closer? = some closer ∧ closer.punctuator? = some expected ∧
      token.kind.isCloser = true ∧ token.kind ≠ closer ∧ found = token.text ∧
      error.span = token.span
  | _ => True

/-- Whether a stream came to its cursor over tokens of a text that leave some delimiters open. -/
def TokenStream.CameOver (text : String) (stack : List Token) (s : TokenStream) : Prop :=
  ∃ before, Token.lex text = before ++ s.remaining ∧ Token.leftOpen? before = some stack ∧
    s.previousEnd = (before.getLast?.map Token.stop).getD {}

namespace TokenStream.CameOver

variable {text : String} {stack next : List Token} {s : TokenStream}

/-- At the start nothing is open. -/
theorem start (text : String) : CameOver text [] (ofText text).prime.2 := by
  refine ⟨[], (remaining_prime_ofText text).symm, rfl, ?_⟩
  rw [prime, raised_snd]
  rfl

theorem closed (h : CameOver text stack s) : Closed s.remaining := by
  obtain ⟨before, hAll, -⟩ := h
  exact (hAll ▸ Token.lex_closed text).of_append (List.cons_ne_nil _ _)

/-- Leaving a token puts it on the stack, or takes its opener off. -/
theorem advance (h : CameOver text stack s) (hEnd : s.current.kind ≠ .eof)
    (hNext : s.current.pushOrPop stack = some next) : CameOver text next s.advance.2 := by
  obtain ⟨hRemaining, hPrevious⟩ := remaining_advance h.closed hEnd
  obtain ⟨before, hAll, hOpen, hStop⟩ := h
  refine ⟨before ++ [s.current], ?_, ?_, ?_⟩
  · rw [hAll, hRemaining, List.append_assoc]
    rfl
  · rw [Token.leftOpen?_concat, hOpen]
    exact hNext
  · simp [hPrevious]

/-- What is open on the way was opened by tokens of the text. -/
theorem openers_mem (h : CameOver text stack s) :
    ∀ opening ∈ stack, opening ∈ Token.lex text := by
  obtain ⟨before, hAll, hOpen, -⟩ := h
  intro opening hOpening
  exact hAll ▸ List.mem_append_left _ (Token.mem_of_leftOpen? hOpen opening hOpening)

theorem current_mem (h : CameOver text stack s) : s.current ∈ Token.lex text := by
  obtain ⟨before, hAll, -⟩ := h
  exact hAll ▸ List.mem_append_right _ List.mem_cons_self

end TokenStream.CameOver

theorem TokenKind.punctuator?_of_isCloser {kind : TokenKind} (h : kind.isCloser = true) :
    kind.punctuator? = some kind.describe := by
  cases kind <;> first | rfl | cases h

namespace Enclosure

variable {text : String} {outer : List Token} {opening : Token} {s : TokenStream}
variable (enclosure : Enclosure) (h : s.CameOver text (opening :: outer))
  (hOpening : opening.kind = enclosure.opener)
include h hOpening

/-- An opener is spelled as it is called. -/
theorem text_opening : opening.text = enclosure.opener.describe := by
  have hWord : opening.kind.punctuator? = some enclosure.opener.describe := by
    rw [hOpening]
    cases enclosure <;> rfl
  exact text_of_mem_lex (h.openers_mem opening List.mem_cons_self) hWord

/-- An enclosure that is not closed is the last one on the stack. -/
theorem agrees_unclosed (hEnd : s.current.kind = .eof) :
    (enclosure.unclosed opening s.previousEnd).AgreesWithStack text := by
  have hText := enclosure.text_opening h hOpening
  have hLast : s.remaining = [s.current] := by
    rw [TokenStream.remaining, h.closed.eq_nil hEnd]
  obtain ⟨before, hAll, hOpen, hStop⟩ := h
  refine ⟨before, s.current, opening, outer, hLast ▸ hAll, hEnd, hOpen, ?_, hText.symm, ?_⟩
  · rw [SyntaxError.PointsBack, hText]
    rfl
  · exact congrArg Span.emptyAt hStop

/-- A closer that does not match is told with the last opener on the stack. -/
theorem agrees_mismatched (hFound : s.current.kind.isCloser = true)
    (hOther : s.current.kind ≠ enclosure.closer) :
    (enclosure.mismatched opening s.current).AgreesWithStack text := by
  have hText := enclosure.text_opening h hOpening
  have hFoundText : s.current.text = s.current.kind.describe :=
    text_of_mem_lex h.current_mem (TokenKind.punctuator?_of_isCloser hFound)
  have hCloser : enclosure.closer.punctuator? = some enclosure.closer.describe := by
    cases enclosure <;> rfl
  obtain ⟨before, hAll, hOpen, -⟩ := h
  refine ⟨before, s.current, s.ahead, opening, outer, enclosure.closer, hAll, hOpen, ?_,
    hOpening ▸ enclosure.closer?_opener, hCloser, hFound, hOther, hFoundText.symm, rfl⟩
  rw [SyntaxError.PointsBack, hText]
  rfl

end Enclosure

/-- Productions follow the stack: they begin and end with the same delimiters open. -/
def brackets (text : String) : Contract where
  Inside := TokenStream.CameOver text
  Fails error := error.AgreesWithStack text
  fetched _ h := h
  left {stack s} h hNone := by
    by_cases hEnd : s.current.kind = .eof
    · rw [TokenStream.advance_of_atEnd hEnd]
      exact h
    · exact h.advance hEnd (Token.pushOrPop_other hNone)
  opened enclosure h hOpener :=
    h.advance (hOpener ▸ (Grammar.opener_plain enclosure).2) (Token.pushOrPop_opener hOpener)
  closed {_ _ enclosure _} h hOpening hCloser :=
    h.advance (hCloser ▸ (Grammar.closer_plain enclosure).2)
      (Token.pushOrPop_closer hOpening hCloser)
  raised _ hError := by
    rw [SyntaxError.AgreesWithStack, (Token.error?_eq_some hError).2.2]
    trivial
  unexpected _ expected context hNotes := by
    unfold TokenStream.unexpected
    split <;> trivial
  unclosed h hOpening hEnd := Enclosure.agrees_unclosed _ h hOpening hEnd
  mismatched h hOpening hFound hOther := Enclosure.agrees_mismatched _ h hOpening hFound hOther
  reserved _ := trivial
  inDefault _ _ := trivial

/-- Every error about a delimiter of a text agrees with a stack of the delimiters before it: the one
that it points back at is the innermost that is open there, and what it says to be expected or
found is what the stack expects and the text has. -/
theorem Source.parse_error_agrees_with_stack {source : Source} {error : SyntaxError}
    (h : source.parse = .error error) : error.AgreesWithStack source.text := by
  obtain ⟨found, hFound, rfl⟩ :=
    (brackets source.text).fails_of_outline (.start source.text) (Source.parse_eq_error.1 h)
  exact hFound

/-- An object in a list of an argument, which the closer of the list comes into. -/
theorem Source.parse_error_agrees_with_stack_nested :
    let source : Source := { text := "\x7bf(a: [1, \x7bb: 2])\x7d" }
    ∃ error, source.parse = .error error ∧ error.kind = .mismatchedDelimiter "\x7d" "]" ∧
      error.AgreesWithStack source.text := by
  intro source
  have hKind : (match source.parse with
      | .error error => some error.kind
      | .ok _ => none) = some (.mismatchedDelimiter "\x7d" "]") := by decide +kernel
  cases hError : source.parse with
  | error error =>
      rw [hError] at hKind
      exact ⟨error, rfl, Option.some.inj hKind, parse_error_agrees_with_stack hError⟩
  | ok tree =>
      rw [hError] at hKind
      cases hKind

end GraphQL
