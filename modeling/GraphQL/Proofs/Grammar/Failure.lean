import GraphQL.Proofs.Grammar.Explanation

/-! Where the errors of a text are. A text that is no document is refused at the first of its tokens
that no document goes on with. -/
namespace GraphQL

open TokenStream

/-- Some document begins with the tokens, if defaults are such values as `Default` allows. -/
def Viable (Default : List Token → Prop) (tokens : List Token) : Prop :=
  ∃ more, Derives Default .document (tokens ++ more)

/-- Where an error of some kind stands in a text: what comes before it is the beginning of a
document that may have variables in its defaults, and with it no longer is one. A variable in a
default is the first of its text if up to its default there is a document of the strict grammar. -/
def SyntaxErrorKind.Located (text : String) (span : Span) : SyntaxErrorKind → Prop
  | .lexical => ∃ before fault after, Token.lex text = before ++ fault :: after ∧
      (∀ t ∈ before, t.kind.isError = false) ∧ fault.kind.isError = true ∧ span = fault.span ∧
      Viable (fun _ => True) before
  | .unexpectedToken _ _ | .mismatchedDelimiter _ _ | .reservedName _ =>
    ∃ before token after, Token.lex text = before ++ token :: after ∧
      token.kind.isError = false ∧ token.kind ≠ .eof ∧ span = token.span ∧
      Viable (fun _ => True) before ∧ ¬ Viable (fun _ => True) (before ++ [token])
  | .unexpectedEnd _ | .unclosedDelimiter _ =>
    (∀ t ∈ Token.lex text, t.kind.isError = false) ∧
      (∃ more, more ≠ [] ∧ Derives (fun _ => True) .document (Token.beforeEnd text ++ more)) ∧
      ¬ Derives (fun _ => True) .document (Token.beforeEnd text) ∧
      span = .emptyAt (((Token.beforeEnd text).getLast?.map Token.stop).getD {})
  | .invalidSyntax => ∃ start equals clear dollar name rest after,
      Token.lex text = start ++ equals :: (clear ++ dollar :: name :: rest) ++ after ∧
      equals.kind = .equals ∧ Derives (fun _ => True) .value (clear ++ dollar :: name :: rest) ∧
      Constant clear ∧ dollar.kind = .dollar ∧ name.kind = .name ∧
      span = ⟨dollar.start, name.stop⟩ ∧ Viable Constant (start ++ [equals]) ∧
      Viable (fun _ => True) (start ++ equals :: (clear ++ dollar :: name :: rest))

/-- A text that does not begin with a fault comes to a stream that is ready. -/
theorem TokenStream.ready_of_prime {text : String} {token : Token} {s : TokenStream}
    (h : (ofText text).prime = (.ok token, s)) :
    s.remaining = Token.lex text ∧ s.previousEnd = {} ∧ s.Ready s.remaining.length := by
  obtain ⟨hRemaining, hLegal⟩ := remaining_of_prime h
  refine ⟨hRemaining, ?_, hRemaining ▸ Token.lex_closed text, hLegal, Nat.le_refl _⟩
  rw [prime] at h
  obtain ⟨-, -, rfl⟩ := raised_eq_ok.1 h
  rfl

/-- What is not excluded where the text ends is viable. -/
theorem Language.Excludes.not_viable {read : List Token} {token : Token}
    (h : (Language.of .document).Excludes (·.kind = .eof) read token) :
    ¬ Viable (fun _ => True) (read ++ [token]) := by
  rintro ⟨more, hMore⟩
  refine h _ [.sample .eof] hMore rfl ⟨more ++ [.sample .eof], ?_⟩
  simp

/-- Tokens that cannot go on to the end of the text are no document. -/
theorem Language.Excludes.not_derives {read : List Token} {last : Token} (hLast : last.kind = .eof)
    (h : (Language.of .document).Excludes (·.kind = .eof) read last) :
    ¬ Derives (fun _ => True) .document read := fun hRead =>
  h read [last] hRead hLast (List.prefix_refl _)

/-- How the reading of a document fails on the stream of a text. -/
theorem located_of_explains {text : String} {s s' : TokenStream} {failure : Failure}
    (hRemaining : s.remaining = Token.lex text) (hStart : s.previousEnd = {})
    (h : Explains True s (.of .document) (·.kind = .eof)
      (.error failure s' : EStateM.Result Failure TokenStream Outline)) :
    failure.error.kind.Located text failure.error.span := by
  obtain ⟨read, hPasses, hRead, hWhy⟩ := h
  have hAll : Token.lex text = read ++ s'.current :: s'.ahead :=
    hRemaining.symm.trans hPasses.remaining
  cases hKind : failure.error.kind with
  | lexical =>
      rw [hKind] at hWhy
      exact ⟨read, s'.current, s'.ahead, hAll, hPasses.legal, hWhy.1, hWhy.2, hRead⟩
  | unexpectedToken | mismatchedDelimiter | reservedName =>
      rw [hKind] at hWhy
      obtain ⟨hLegal, hEnd, hSpan, hExcludes⟩ := hWhy
      exact ⟨read, s'.current, s'.ahead, hAll, hLegal, hEnd, hSpan, hRead, hExcludes.not_viable⟩
  | unexpectedEnd | unclosedDelimiter =>
      rw [hKind] at hWhy
      obtain ⟨hEnd, hSpan, hExcludes⟩ := hWhy
      have hText : Token.beforeEnd text = read := by
        rw [Token.beforeEnd, hAll]
        exact (hAll ▸ Token.lex_closed text).beforeEnd_of_append hEnd
      obtain ⟨last, hLast, hLex⟩ := Token.lex_eq text
      have hNot := hExcludes.not_derives hEnd
      obtain ⟨more, hMore⟩ := hRead
      have hSome : more ≠ [] := by
        rintro rfl
        exact hNot (by rwa [List.append_nil] at hMore)
      rw [hPasses.stop, hStart] at hSpan
      refine ⟨?_, ⟨more, hSome, hText ▸ hMore⟩, hText ▸ hNot, hText ▸ hSpan⟩
      rw [hLex, hText]
      exact List.forall_mem_append.2 ⟨hPasses.legal, by simp [hLast, TokenKind.isError]⟩
  | invalidSyntax =>
      rw [hKind] at hWhy
      obtain ⟨-, hRefuses⟩ := hWhy
      generalize failure.error.span = span at hRefuses
      cases hRefuses with
      | @default start clear rest equals dollar name hBefore hEquals hClear hDollar hName hValue =>
          exact ⟨start, equals, clear, dollar, name, rest, s'.current :: s'.ahead, hAll, hEquals,
            hValue, hClear, hDollar, hName, rfl, hBefore, hRead⟩

/-- Every error of a text is at the first token that is out of place. What stands before it is the
beginning of a document, and with it no longer is one. -/
theorem Source.parse_error_located {source : Source} {error : SyntaxError}
    (h : source.parse = .error error) : error.kind.Located source.text error.span := by
  have hOutline : source.outline = .error error := by
    rw [source.parse_eq] at h
    cases hOutline : source.outline with
    | error found => simpa [hOutline, Except.map] using h
    | ok phrase => simp [hOutline, Except.map] at h
  unfold Source.outline at hOutline
  split at hOutline
  · next found s hPrime =>
      cases hOutline
      obtain ⟨hRemaining, hError⟩ := fault_of_prime hPrime
      obtain ⟨hFault, hSpan, hKind⟩ := Token.error?_eq_some hError
      have hAll : Token.lex source.text = [] ++ s.current :: s.ahead := hRemaining.symm
      rw [show (found.atPath source.path).kind = .lexical from hKind]
      exact ⟨[], s.current, s.ahead, hAll, by simp, hFault, hSpan,
        (Language.of .document).allows_nil false⟩
  · next first s hPrime =>
      obtain ⟨hRemaining, hStart, hReady⟩ := ready_of_prime hPrime
      have hExplains := Grammar.explained_document s hReady
      split at hOutline
      · cases hOutline
      · next failure s' hDocument =>
          cases hOutline
          exact located_of_explains hRemaining hStart (hDocument ▸ hExplains)

/-- A variable in a default, which a document of the loose grammar could have there. -/
theorem Source.parse_error_located_default :
    ∃ error, Source.parse { text := "query($a:Int=$b){c}" } = .error error ∧
      error.kind = .invalidSyntax ∧
      error.kind.Located "query($a:Int=$b){c}" error.span := by
  have hKind : (match Source.parse { text := "query($a:Int=$b){c}" } with
      | .error error => some error.kind
      | .ok _ => none) = some .invalidSyntax := by decide +kernel
  cases hError : Source.parse { text := "query($a:Int=$b){c}" } with
  | error error =>
      rw [hError] at hKind
      exact ⟨error, rfl, Option.some.inj hKind, Source.parse_error_located hError⟩
  | ok tree =>
      rw [hError] at hKind
      cases hKind

end GraphQL
