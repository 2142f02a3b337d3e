import GraphQL.Proofs.Grammar.Sites
import GraphQL.Proofs.Source.Lines

/-! Errors as they are shown. The places that the errors of a text tell of are places where a cursor
can stand, so every snippet has the line of its place in it and marks the characters it is about. -/
namespace GraphQL

namespace Source

/-- A line of text with marks under it. The number of the line, counted from 1, stands in a gutter
of two characters, or of as many as the number has. -/
def framed (line : Nat) (text marks : String) : String :=
  let number := toString (line + 1)
  let width := max 2 number.length
  padLeft width "" ++ " |\n" ++ padLeft width number ++ " | " ++ text ++ "\n" ++
    padLeft width "" ++ " | " ++ marks ++ "\n"

/-- Whether the marks under a line are those of a span: the line is the one that the span starts on,
and the marks are blanks with markers under the characters of the span, or with one marker where it
starts if it has no characters or goes on beyond the line. -/
structure Marks (source : Source) (span : Span) (marker : Char) (text marks : String) : Prop where
  line : source.lineText? span.start.line = some text
  blank : ∀ c ∈ marks.toList, c = ' ' ∨ c = marker
  last : marks.toList.getLast? = some marker
  covered : span.start.offset < span.stop.offset → span.start.line = span.stop.line →
    ∀ column, marks.toList[column]? = some marker ↔ source.HasColumn span column
  single : ¬ (span.start.offset < span.stop.offset ∧ span.start.line = span.stop.line) →
    ∀ column, marks.toList[column]? = some marker ↔ column = span.start.column
  /-- No marker stands beyond the last character of the line, but for one alone right behind it. -/
  within : ∀ column, marks.toList[column]? = some marker → column < text.length ∨
    column = text.length ∧ ∀ other, marks.toList[other]? = some marker → other = column

/-- Whether a snippet shows a span of the text. -/
def Pictures (source : Source) (span : Span) (marker : Char) (snippet : String) : Prop :=
  ∃ text marks, snippet = framed span.start.line text marks ∧ source.Marks span marker text marks

/-- How many markers a span has. -/
def markCount (span : Span) : Nat :=
  if span.stop.line = span.start.line then max 1 (span.stop.column - span.start.column) else 1

/-- The row of marks of a span. -/
def marksOf (span : Span) (marker : Char) : String :=
  padLeft span.start.column "" ++ String.ofList (List.replicate (markCount span) marker)

variable {source : Source} {span : Span} {marker : Char} {text : String}

/-- The picture of a span whose line is there. -/
theorem snippet?_eq (h : source.lineText? span.start.line = some text) :
    snippet? source span marker = some (framed span.start.line text (marksOf span marker)) := by
  rw [snippet?, getElem?_splitLines, h]
  rfl

/-- The row of marks: blanks up to the column, then the marks. -/
theorem toList_marksOf (span : Span) (marker : Char) : (marksOf span marker).toList =
    List.replicate span.start.column ' ' ++ List.replicate (markCount span) marker := by
  simp [marksOf, padLeft, List.leftpad]

/-- Also an empty span has a mark. -/
theorem markCount_pos (span : Span) : 0 < markCount span := by
  unfold markCount
  split <;> omega

/-- The markers of a row are in columns next to each other. -/
theorem getElem?_marksOf (hMarker : marker ≠ ' ') (column : Nat) :
    (marksOf span marker).toList[column]? = some marker ↔
      span.start.column ≤ column ∧ column < span.start.column + markCount span := by
  rw [toList_marksOf, List.getElem?_append, List.length_replicate]
  split
  · next hBlank =>
      rw [List.getElem?_replicate, if_pos hBlank]
      constructor
      · exact fun hSame => absurd (Option.some.inj hSame).symm hMarker
      · omega
  · next hMarked =>
      rw [List.getElem?_replicate]
      split
      · exact iff_of_true rfl (by omega)
      · exact iff_of_false nofun (by omega)

section Places

variable (hStart : source.IsPlace span.start) (hStop : source.IsPlace span.stop)
include hStart hStop

/-- A span with characters that stays on its line has a marker for each of its columns. -/
theorem markCount_covered (hSome : span.start.offset < span.stop.offset)
    (hLine : span.start.line = span.stop.line) :
    span.start.column + markCount span = span.stop.column := by
  have hLess := (column_lt_iff hStart hStop hLine).2 hSome
  rw [markCount, if_pos hLine.symm]
  omega

/-- Any other span has a single marker. -/
theorem markCount_single
    (h : ¬ (span.start.offset < span.stop.offset ∧ span.start.line = span.stop.line)) :
    markCount span = 1 := by
  unfold markCount
  split
  · next hLine =>
      have hSame : ¬ span.start.offset < span.stop.offset := fun hSome => h ⟨hSome, hLine.symm⟩
      have hNone := mt (column_lt_iff hStart hStop hLine.symm).1 hSame
      omega
  · rfl

/-- The marks of a span between two places of a text. -/
theorem marks_of_places (hMarker : marker ≠ ' ') :
    ∃ text, source.Marks span marker text (marksOf span marker) := by
  obtain ⟨text, hText, hColumn⟩ := hStart.exists_text
  refine ⟨text, hText, ?_, ?_, ?_, ?_, ?_⟩
  · rw [toList_marksOf]
    exact List.forall_mem_append.2 ⟨fun c hc => .inl (List.eq_of_mem_replicate hc),
      fun c hc => .inr (List.eq_of_mem_replicate hc)⟩
  · have hPos := markCount_pos span
    rw [toList_marksOf, List.getLast?_append, List.getLast?_replicate, if_neg (by omega),
      Option.some_or]
  · intro hSome hLine column
    rw [getElem?_marksOf hMarker, markCount_covered hStart hStop hSome hLine,
      hasColumn_iff hStart hStop hLine]
  · intro hOther column
    rw [getElem?_marksOf hMarker, markCount_single hStart hStop hOther]
    omega
  · intro column hMark
    rw [getElem?_marksOf hMarker] at hMark
    by_cases hCovered : span.start.offset < span.stop.offset ∧ span.start.line = span.stop.line
    · obtain ⟨hSome, hLine⟩ := hCovered
      obtain ⟨other, hOther, hStopColumn⟩ := hStop.exists_text
      rw [← hLine, hText] at hOther
      obtain rfl := Option.some.inj hOther
      rw [markCount_covered hStart hStop hSome hLine] at hMark
      exact .inl (by omega)
    · have hSingle := markCount_single hStart hStop hCovered
      have hOnly {other : Nat} (h : span.start.column ≤ other ∧ other < span.start.column +
          markCount span) : other = span.start.column := by omega
      rw [hOnly hMark]
      rcases Nat.lt_or_eq_of_le hColumn with hInside | hBehind
      · exact .inl hInside
      · exact .inr ⟨hBehind, fun other hOther => hOnly ((getElem?_marksOf hMarker other).1 hOther)⟩

end Places

/-- A place that the tokens of a text give is shown as it is. -/
theorem pictures_of_site (hMarker : marker ≠ ' ') (h : Site source.text span) :
    source.Pictures span marker ((snippet? source span marker).getD "") := by
  obtain ⟨hStart, hStop, -⟩ := h.places
  obtain ⟨text, hMarks⟩ := marks_of_places hStart hStop hMarker
  refine ⟨text, _, ?_, hMarks⟩
  rw [snippet?_eq hMarks.line]
  rfl

/-- The error of a text that is no document is shown with the place of the error and, after each
note that has a place, with that of the note. Each of these is shown by the line that it starts on,
with the number of the line, and by marks that are those of the place. -/
theorem detailed_pictures {error : SyntaxError} (h : source.parse = .error error) :
    ∃ shown : Span → Char → String,
      error.detailed (some source) = "error: " ++ error.message ++ "\n" ++
        "  --> " ++ error.place ++ "\n" ++ shown error.span '^' ++
        String.join (error.notes.map fun note =>
          "   = " ++ note.kind.label ++ ": " ++ note.message ++ "\n" ++
            (note.span.map (shown · '-')).getD "") ∧
      source.Pictures error.span '^' (shown error.span '^') ∧
      ∀ note ∈ error.notes, ∀ span ∈ note.span, source.Pictures span '-' (shown span '-') := by
  have hSited : error.Sited source.text := outline_sited (parse_eq_error.1 h)
  refine ⟨fun span marker => (snippet? source span marker).getD "", ?_, ?_, ?_⟩
  · have hNotes : (fun note => SyntaxError.renderNote (some source) note) = fun note =>
        "   = " ++ note.kind.label ++ ": " ++ note.message ++ "\n" ++
          (note.span.map fun span => (snippet? source span '-').getD "").getD "" := by
      funext note
      rw [SyntaxError.renderNote]
      cases note.span <;> rfl
    rw [SyntaxError.detailed, ← hNotes]
    rfl
  · exact pictures_of_site (by decide) (hSited _ List.mem_cons_self)
  · intro note hNote span hSpan
    exact pictures_of_site (by decide)
      (hSited _ (List.mem_cons_of_mem _ (List.mem_filterMap.2 ⟨note, hNote, hSpan⟩)))

/-- Arguments that are not closed, on the second line of a text. The text ends after a character of
four bytes, behind which the first marker stands. -/
theorem detailed_pictures_unclosed :
    let source : Source := { text := "\x7b\r\n  f(a: \"😀\"" }
    let rendered := "error: unclosed `(` in arguments\n" ++
      "  --> <input>:2:11\n" ++
      "   |\n" ++
      " 2 |   f(a: \"😀\"\n" ++
      "   |           ^\n" ++
      "   = note: `(` opened here\n" ++
      "   |\n" ++
      " 2 |   f(a: \"😀\"\n" ++
      "   |    -\n" ++
      "   = help: add a closing `)`\n"
    ∃ (error : SyntaxError) (shown : Span → Char → String), source.parse = .error error ∧
      error.detailed (some source) = rendered ∧
      source.Pictures error.span '^' (shown error.span '^') ∧
      ∀ note ∈ error.notes, ∀ span ∈ note.span, source.Pictures span '-' (shown span '-') := by
  intro source rendered
  have hSays : (match source.parse with
      | .error error => some (error.detailed (some source))
      | .ok _ => none) = some rendered := by decide +kernel
  cases hError : source.parse with
  | error error =>
      rw [hError] at hSays
      obtain ⟨shown, -, hOwn, hNotes⟩ := detailed_pictures hError
      exact ⟨error, shown, rfl, Option.some.inj hSays, hOwn, hNotes⟩
  | ok tree =>
      rw [hError] at hSays
      cases hSays

end Source

end GraphQL
