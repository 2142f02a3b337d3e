import GraphQL.Proofs.Grammar.Contract
import GraphQL.Proofs.Grammar.Failure
import GraphQL.Proofs.Token.Sites

/-! Where errors point. A production that fails tells of nothing but places of the text: tokens that
it met, the end of the token before the cursor, or the two tokens of a variable. -/
namespace GraphQL

/-- All places that an error tells of, its own first and then those of its notes. -/
def SyntaxError.spans (error : SyntaxError) : List Span :=
  error.span :: error.notes.filterMap Note.span

/-- Whether an error tells of no other places than those of a text. -/
def SyntaxError.Sited (text : String) (error : SyntaxError) : Prop :=
  ∀ span ∈ error.spans, Site text span

section

variable {text : String} {error : SyntaxError}

/-- An error tells of places of the text if its own and those of its notes are. -/
theorem SyntaxError.sited_of_span (hSpan : Site text error.span)
    (hNotes : ∀ note ∈ error.notes, ∀ span ∈ note.span, Site text span) : error.Sited text := by
  refine List.forall_mem_cons.2 ⟨hSpan, fun span hNote => ?_⟩
  obtain ⟨note, hNote, hPlace⟩ := List.mem_filterMap.1 hNote
  exact hNotes note hNote span hPlace

/-- An error whose notes have no places tells of its own alone. -/
theorem SyntaxError.sited_of_notes (hSpan : Site text error.span)
    (hNotes : ∀ note ∈ error.notes, note.span = none) : error.Sited text := by
  refine sited_of_span hSpan fun note hNote span hPlace => ?_
  rw [hNotes note hNote] at hPlace
  cases hPlace

/-- Notes without a place change nothing. -/
theorem SyntaxError.Sited.addNotes (h : error.Sited text) {notes : List Note}
    (hNotes : ∀ note ∈ notes, note.span = none) : (error.addNotes notes).Sited text := by
  have hNone : notes.filterMap Note.span = [] := List.filterMap_eq_nil_iff.2 hNotes
  have hSpans : (error.addNotes notes).spans = error.spans := by
    simp only [spans, SyntaxError.addNotes, List.filterMap_append, hNone, List.append_nil]
  rwa [Sited, hSpans]

/-- The error of a fault tells of what the fault tells of. -/
theorem Token.sited_error? {token : Token} (hToken : token ∈ Token.lex text)
    (h : token.error? = some error) : error.Sited text := by
  have hSpans : error.spans = token.spans := by
    unfold Token.error? at h
    split at h
    · next fault hKind =>
        cases h
        rw [Token.spans, hKind]
        rfl
    · cases h
  intro span hSpan
  exact .token hToken (hSpans ▸ hSpan)

theorem Site.span {token : Token} (h : token ∈ Token.lex text) : Site text token.span :=
  .token h List.mem_cons_self

end

namespace TokenStream

/-- Whether a stream was primed and moved over a text since then. -/
structure Over (text : String) (s : TokenStream) : Prop where
  reached : Reached text s
  primed : s.primed = true
  previousEnd : s.previousEnd = {} ∨ ∃ token ∈ Token.lex text, s.previousEnd = token.stop

variable {text : String} {s : TokenStream}

/-- A stream that was just primed is over its text. -/
theorem over_prime (text : String) : (ofText text).prime.2.Over text where
  reached := .primed .opened
  primed := by rw [prime, raised_snd]
  previousEnd := .inl (by rw [prime, raised_snd])

namespace Over

variable (h : s.Over text)
include h

theorem remaining : s.remaining <:+ Token.lex text := h.reached.remaining.2 h.primed

theorem current_mem : s.current ∈ Token.lex text := h.remaining.subset List.mem_cons_self

/-- The end of the token before the cursor is a place of the text, or its start is. -/
theorem site : Site text (.emptyAt s.previousEnd) := by
  rcases h.previousEnd with hStart | ⟨token, hToken, hStop⟩
  · exact hStart ▸ .start
  · exact hStop ▸ .after hToken

/-- A stream over a text stays so when it goes on, also where it meets a fault. -/
theorem advance : s.advance.2.Over text := by
  refine ⟨.advanced h.reached, ?_, ?_⟩
  · unfold TokenStream.advance
    split
    · exact h.primed
    · rw [raised_snd]
      exact h.primed
  · unfold TokenStream.advance
    split
    · exact h.previousEnd
    · rw [raised_snd]
      exact .inr ⟨s.current, h.current_mem, rfl⟩

theorem fetch (count : Nat) : (s.fetch count).Over text :=
  ⟨.fetched h.reached count, h.primed, h.previousEnd⟩

/-- What is required at the cursor is missed there, or at the end of the token before. -/
theorem sited_unexpected (expected : List String) (context : String) :
    (s.unexpected expected context).Sited text := by
  unfold unexpected
  split
  · exact SyntaxError.sited_of_notes h.site nofun
  · exact SyntaxError.sited_of_notes (.span h.current_mem) nofun

/-- The first variable among the tokens that a stream went over is two tokens of the text. -/
theorem sited_variableInDefault {after : TokenStream} {dollar name : Token}
    (hFirst : Grammar.firstVariable? (Grammar.tokensBetween s after) = some (dollar, name)) :
    (Grammar.variableInDefault dollar name).Sited text := by
  obtain ⟨clear, rest, hBetween, -, -⟩ := Grammar.firstVariable?_eq_some hFirst
  have hTaken : Grammar.tokensBetween s after <:+: s.remaining := (List.take_prefix _ _).isInfix
  have hPair : [dollar, name] <:+: Grammar.tokensBetween s after :=
    ⟨clear, rest, by rw [hBetween, List.append_assoc]; rfl⟩
  exact SyntaxError.sited_of_notes (.pair (hPair.trans (hTaken.trans h.remaining.isInfix)))
    (List.forall_mem_singleton.2 rfl)

end Over

end TokenStream

namespace Enclosure

variable {text : String} {opening : Token}

/-- The note of an enclosure points to its opener. -/
theorem sited_openedNote (enclosure : Enclosure) (hOpening : opening ∈ Token.lex text) :
    ∀ span ∈ (enclosure.openedNote opening).span, Site text span := by
  rintro span ⟨⟩
  exact .span hOpening

/-- An enclosure that is not closed is told of where the text ends and where it was opened. -/
theorem sited_unclosed (enclosure : Enclosure) (hOpening : opening ∈ Token.lex text)
    {last : Position} (hLast : Site text (.emptyAt last)) :
    (enclosure.unclosed opening last).Sited text := by
  have hHelp (message : String) : ∀ span ∈ (Note.help message).span, Site text span := nofun
  exact SyntaxError.sited_of_span hLast (List.forall_mem_cons.2
    ⟨enclosure.sited_openedNote hOpening, List.forall_mem_singleton.2 (hHelp _)⟩)

/-- A closer that does not match is told of where it is and where its enclosure was opened. -/
theorem sited_mismatched (enclosure : Enclosure) {found : Token}
    (hOpening : opening ∈ Token.lex text) (hFound : found ∈ Token.lex text) :
    (enclosure.mismatched opening found).Sited text := by
  have hSpan : Site text found.span := .span hFound
  exact SyntaxError.sited_of_span hSpan
    (List.forall_mem_singleton.2 (enclosure.sited_openedNote hOpening))

end Enclosure

/-- A stream over a text, and the open delimiters among its tokens. -/
def sites (text : String) : Contract where
  Inside stack s := s.Over text ∧ ∀ opening ∈ stack, opening ∈ Token.lex text
  Fails error := error.Sited text
  fetched count h := ⟨h.1.fetch count, h.2⟩
  left h _ := ⟨h.1.advance, h.2⟩
  opened _ h _ := ⟨h.1.advance, List.forall_mem_cons.2 ⟨h.1.current_mem, h.2⟩⟩
  closed h _ _ := ⟨h.1.advance, (List.forall_mem_cons.1 h.2).2⟩
  raised h hError := Token.sited_error? h.1.current_mem hError
  unexpected h expected context hNotes := (h.1.sited_unexpected expected context).addNotes hNotes
  unclosed h _ _ := Enclosure.sited_unclosed _ (List.forall_mem_cons.1 h.2).1 h.1.site
  mismatched h _ _ _ := Enclosure.sited_mismatched _ (List.forall_mem_cons.1 h.2).1 h.1.current_mem
  reserved h := SyntaxError.sited_of_notes (.span h.1.current_mem) (List.forall_mem_singleton.2 rfl)
  inDefault h hFirst := h.1.sited_variableInDefault hFirst

namespace Source

variable {source : Source} {error : SyntaxError}

/-- Whatever a text is refused for, it tells of places of the text. -/
theorem outline_sited (h : source.outline = .error error) : error.Sited source.text := by
  have hStart : (sites source.text).Inside [] (TokenStream.ofText source.text).prime.2 :=
    ⟨TokenStream.over_prime source.text, nofun⟩
  obtain ⟨found, hFound, rfl⟩ := Contract.fails_of_outline hStart h
  exact hFound

/-- Every place that an error of a text tells of, its own and those of its notes, lies in the text,
between characters, at the lines and columns that the text has there. -/
theorem parse_error_real (h : source.parse = .error error) : ∀ span ∈ error.spans,
    source.Real span := by
  have hOutline : source.outline = .error error := by
    rw [source.parse_eq] at h
    cases hOutline : source.outline with
    | error found => simpa [hOutline, Except.map] using h
    | ok phrase => simp [hOutline, Except.map] at h
  exact fun span hSpan => (outline_sited hOutline span hSpan).real

/-- Arguments that are not closed. The text ends after a character of four bytes and two UTF-16 code
units. -/
theorem parse_error_real_unclosed :
    let source : Source := { text := "\x7b\r\n  f(a: \"😀\"" }
    ∃ error, source.parse = .error error ∧ error.kind = .unclosedDelimiter "(" ∧ error.spans =
      [.emptyAt ⟨1, 10, 11, 16⟩, ⟨⟨1, 3, 3, 6⟩, ⟨1, 4, 4, 7⟩⟩] ∧
        ∀ span ∈ error.spans, source.Real span := by
  intro source
  have hSays : (match source.parse with
      | .error error => some (error.kind, error.spans)
      | .ok _ => none) = some (.unclosedDelimiter "(",
        [.emptyAt ⟨1, 10, 11, 16⟩, ⟨⟨1, 3, 3, 6⟩, ⟨1, 4, 4, 7⟩⟩]) := by decide +kernel
  cases hError : source.parse with
  | error error =>
      rw [hError] at hSays
      obtain ⟨hKind, hSpans⟩ := Prod.mk.inj (Option.some.inj hSays)
      exact ⟨error, rfl, hKind, hSpans, parse_error_real hError⟩
  | ok tree =>
      rw [hError] at hSays
      cases hSays

end Source

end GraphQL
