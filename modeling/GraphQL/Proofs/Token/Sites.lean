import GraphQL.Proofs.Token.LineEnds
import GraphQL.Proofs.Token.Partition

/-! The places of a text that an error may tell of. All of them are made of the ends of tokens, and
a token ends only where a position can be found from the lines of the text. -/
namespace GraphQL

open Lexer Text

/-- A place of a text: it comes from the tokens of the text, or is the start of it. -/
inductive Site (text : String) : Span → Prop where
  /-- A token, or what the notes of a fault point to. -/
  | token {token : Token} {span : Span} (hToken : token ∈ Token.lex text)
      (hSpan : span ∈ token.spans) : Site text span
  | start : Site text (.emptyAt {})
  | after {token : Token} (hToken : token ∈ Token.lex text) : Site text (.emptyAt token.stop)
  | pair {first second : Token} (hPair : [first, second] <:+: Token.lex text) :
      Site text ⟨first.start, second.stop⟩

namespace Source

/-- Whether a cursor that moves over the text comes to a position, and not inside of a pair of
carriage return and line feed. -/
def IsPlace (source : Source) (position : Position) : Prop :=
  ∃ passed left, source.text.toList = passed ++ left ∧ KeepsPairs passed left ∧
    position = (Cursor.walk {} passed).position

/-- Whether a span can be shown in a text as it is. -/
structure Real (source : Source) (span : Span) : Prop where
  ordered : span.start.offset ≤ span.stop.offset
  within : span.stop.offset ≤ source.byteSize
  boundaries : source.IsBoundary span.start.offset ∧ source.IsBoundary span.stop.offset
  /-- Lines and columns are those that the lines of the text give. -/
  positions : source.positionAt span.start.offset = span.start ∧
    source.positionAt span.stop.offset = span.stop

variable {source : Source} {position start stop : Position}

/-- The start of a text is a place of it, also of an empty one. -/
theorem isPlace_start (source : Source) : source.IsPlace {} :=
  ⟨[], source.text.toList, rfl, nofun, rfl⟩

namespace IsPlace

variable (h : source.IsPlace position)
include h

/-- A place of a text does not split a character. -/
theorem cuts : Cuts 0 source.text.toList position.offset := by
  obtain ⟨passed, left, hText, -, rfl⟩ := h
  exact ⟨passed, left, hText, Cursor.offset_walk {} passed⟩

/-- No place lies behind the text. -/
theorem offset_le : position.offset ≤ source.byteSize := by
  obtain ⟨passed, left, hText, hOffset⟩ := h.cuts
  have hSize : source.byteSize = Text.byteSize (passed ++ left) := by
    rw [← hText, ← utf8ByteSize_ofList, String.ofList_toList]
    rfl
  rw [hSize, hOffset, byteSize_append]
  omega

/-- The lines of a text give a place the position that the cursor had there. -/
theorem positionAt_offset : source.positionAt position.offset = position := by
  obtain ⟨passed, left, hText, hPairs, rfl⟩ := h
  exact positionAt_walk hText hPairs

end IsPlace

/-- Two places in order are the ends of a real span. -/
theorem real_of_isPlace (hStart : source.IsPlace start) (hStop : source.IsPlace stop)
    (h : start.offset ≤ stop.offset) : source.Real ⟨start, stop⟩ where
  ordered := h
  within := hStop.offset_le
  boundaries := ⟨Tiles.isBoundary hStart.cuts, Tiles.isBoundary hStop.cuts⟩
  positions := ⟨hStart.positionAt_offset, hStop.positionAt_offset⟩

end Source

namespace Token

variable {source : Source} {token : Token} {span : Span}

/-- Both ends of a token are places of the text, and they are in order. -/
theorem isPlace_of_mem_lex (h : token ∈ Token.lex source.text) :
    source.IsPlace token.start ∧ source.IsPlace token.stop ∧
      token.start.offset ≤ token.stop.offset := by
  obtain ⟨passed, left, hText, hGap, hStart, ⟨rfl, hEnd⟩ | ⟨c, cs, rfl, -, hStop⟩⟩ :=
    exists_walk_of_mem_lex h
  · have hPlace : source.IsPlace token.start := ⟨passed, [], hText, nofun, hStart⟩
    have hSame : token.stop = token.start := by rw [hEnd]; rfl
    exact ⟨hPlace, hSame ▸ hPlace, Nat.le_of_eq (congrArg Position.offset hSame.symm)⟩
  · have hLine := not_lineEnd_of_isGap hGap
    have hRest := scan_lexeme_append_rest token.start c cs
    have hFirst : KeepsPairs passed (c :: cs) := by
      rintro - ⟨⟩
      cases hLine
    have hLast := (keepsPairs_around token.start passed hLine cs).2
    refine ⟨⟨passed, c :: cs, hText, hFirst, hStart⟩, ⟨_, _, ?_, hLast, hStop⟩, ?_⟩
    · rw [hText, List.append_assoc, hRest]
    · rw [hStart, hStop, Cursor.offset_walk, Cursor.offset_walk, byteSize_append]
      omega

/-- A token tells of itself and of its start. -/
theorem mem_spans (h : token ∈ Token.lex source.text) (hSpan : span ∈ token.spans) :
    span = token.span ∨ span = .emptyAt token.start := by
  rcases List.mem_cons.1 hSpan with rfl | hNotes
  · exact .inl rfl
  · split at hNotes
    · next fault hFault =>
        obtain ⟨note, hNote, hPlace⟩ := List.mem_filterMap.1 hNotes
        obtain ⟨passed, left, -, -, -, ⟨-, hEnd⟩ | ⟨c, cs, -, hKind, -⟩⟩ := exists_walk_of_mem_lex h
        · rw [hEnd] at hFault
          cases hFault
        · exact .inr (pointsTo_scan (hKind.symm.trans hFault) note hNote span hPlace)
    · cases hNotes

end Token

/-- Both ends of a place are such as a cursor comes to, and they are in order. -/
theorem Site.places {source : Source} {span : Span} (h : Site source.text span) :
    source.IsPlace span.start ∧ source.IsPlace span.stop ∧
      span.start.offset ≤ span.stop.offset := by
  cases h with
  | token hToken hSpan =>
      obtain ⟨hStart, hStop, hOrder⟩ := Token.isPlace_of_mem_lex hToken
      rcases Token.mem_spans hToken hSpan with rfl | rfl
      · exact ⟨hStart, hStop, hOrder⟩
      · exact ⟨hStart, hStart, Nat.le_refl _⟩
  | start => exact ⟨source.isPlace_start, source.isPlace_start, Nat.le_refl _⟩
  | after hToken =>
      have hStop := (Token.isPlace_of_mem_lex hToken).2.1
      exact ⟨hStop, hStop, Nat.le_refl _⟩
  | @pair first second hPair =>
      have hTiles : Tiles 0 source.text.toList (Token.lex source.text) :=
        tiles_tokensFrom {} source.text.toList
      have hOrdered := hTiles.ordered.sublist hPair.sublist
      have hApart : first.stop.offset ≤ second.start.offset := by simpa using hOrdered
      obtain ⟨hStart, -, hFirst⟩ :=
        Token.isPlace_of_mem_lex (hPair.subset (List.mem_cons_self : first ∈ [first, second]))
      obtain ⟨-, hStop, hSecond⟩ :=
        Token.isPlace_of_mem_lex (hPair.subset (by simp : second ∈ [first, second]))
      exact ⟨hStart, hStop, by simp only; omega⟩

/-- Every place that the tokens of a text give is one that the lines of the text give, too. -/
theorem Site.real {source : Source} {span : Span} (h : Site source.text span) :
    source.Real span := by
  obtain ⟨hStart, hStop, hOrder⟩ := h.places
  exact Source.real_of_isPlace hStart hStop hOrder

end GraphQL
