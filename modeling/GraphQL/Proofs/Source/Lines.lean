import GraphQL.Proofs.Text.LineEnds
import GraphQL.Proofs.Token.Sites

/-! Places by lines. Where a cursor can stand, the characters before it are some lines and the
beginning of one more, and its column is the number of the characters in that beginning. So the
characters of a stretch on one line stand at the columns from its start up to its end. -/
namespace GraphQL

namespace Text

/-- Of two beginnings of a text the shorter one has fewer bytes. -/
theorem byteSize_lt_iff {cs before other : List Char} (h : before <+: cs) (hOther : other <+: cs) :
    byteSize before < byteSize other ↔ before.length < other.length := by
  have hMono {first second : List Char} (hFirst : first <+: cs) (hSecond : second <+: cs)
      (hLength : first.length ≤ second.length) :
      byteSize first ≤ byteSize second ∧
        (first.length < second.length → byteSize first < byteSize second) := by
    obtain ⟨more, rfl⟩ := List.prefix_of_prefix_length_le hFirst hSecond hLength
    rw [byteSize_append, List.length_append]
    refine ⟨Nat.le_add_right _ _, fun hMore => ?_⟩
    have hSome : more ≠ [] := by
      rintro rfl
      exact Nat.lt_irrefl _ hMore
    have hPos := Lexer.Tiles.byteSize_pos hSome
    omega
  constructor
  · intro hLess
    by_contra hNot
    have hMore := (hMono hOther h (Nat.le_of_not_lt hNot)).1
    omega
  · exact fun hLess => (hMono h hOther (Nat.le_of_lt hLess)).2 hLess

/-- No character is lost when a text is cut into lines. -/
theorem flatten_lines (cs : List Char) : (lines cs).flatten = cs := by
  induction cs using lines.induct with
  | case1 => rfl
  | case2 cs ih => rw [lines_pair, List.flatten_cons, ih]; rfl
  | case3 c cs hPair hLine ih => rw [lines.eq_3 _ _ hPair, if_pos hLine, List.flatten_cons, ih]; rfl
  | case4 c cs hPair hLine hNone ih =>
      obtain ⟨first, more, hLines⟩ := exists_lines cs
      rw [hLines] at hNone
      cases hNone
  | case5 c cs hPair hLine first more hLines ih =>
      rw [lines_content (Bool.eq_false_iff.2 hLine), hLines, ← ih, hLines]
      rfl

/-- A text that is passed up to some character: the lines passed, what was passed of the line after
them, which does not include its terminator, and what is left. -/
structure Divides (passed left : List Char) (before : List (List Char)) (lead tail : List Char)
    (after : List (List Char)) : Prop where
  lines : lines (passed ++ left) = before ++ (lead ++ tail) :: after
  passed : passed = before.flatten ++ lead
  content : ∀ c ∈ lead, isLineEnd c = false
  ended : after ≠ [] → tail ≠ []

/-- A character that ends no line lengthens the first line, whether it was passed or not. -/
theorem Divides.cons_content {passed left lead tail : List Char} {before after : List (List Char)}
    {c : Char} (hLine : isLineEnd c = false) (h : Divides passed left before lead tail after) :
    ∃ before lead, Divides (c :: passed) left before lead tail after := by
  cases before with
  | nil =>
      refine ⟨[], c :: lead, ?_, ?_, List.forall_mem_cons.2 ⟨hLine, h.content⟩, h.ended⟩
      · rw [List.cons_append, lines_content hLine, h.lines]
        rfl
      · rw [h.passed]
        rfl
  | cons first before =>
      refine ⟨(c :: first) :: before, lead, ?_, ?_, h.content, h.ended⟩
      · rw [List.cons_append, lines_content hLine, h.lines]
        rfl
      · rw [h.passed]
        rfl

/-- A line that was passed comes before those that were passed after it. -/
theorem Divides.cons_line {passed left lead tail : List Char} {before after : List (List Char)}
    (line : List Char)
    (hLine : Text.lines (line ++ (passed ++ left)) = line :: Text.lines (passed ++ left))
    (h : Divides passed left before lead tail after) :
    Divides (line ++ passed) left (line :: before) lead tail after where
  lines := by rw [List.append_assoc, hLine, h.lines]; rfl
  passed := by rw [h.passed, List.flatten_cons, List.append_assoc]
  content := h.content
  ended := h.ended

/-- Every way to pass a text that divides no pair of carriage return and line feed divides one of
its lines. -/
theorem exists_divides {passed left : List Char} (h : KeepsPairs passed left) :
    ∃ before lead tail after, Divides passed left before lead tail after := by
  induction passed using lines.induct with
  | case1 =>
      obtain ⟨line, more, hLines⟩ := exists_lines left
      exact ⟨[], [], line, more, hLines, rfl, by simp, line_ne_nil hLines⟩
  | case2 passed ih =>
      obtain ⟨before, lead, tail, after, hDivides⟩ := ih h.tail.tail
      exact ⟨_, _, _, _, hDivides.cons_line ['\r', '\n'] (lines_pair _)⟩
  | case3 c passed hPair hLine ih =>
      obtain ⟨before, lead, tail, after, hDivides⟩ := ih h.tail
      have hNext : c = '\r' → (passed ++ left).head? ≠ some '\n' := by
        rintro rfl hFeed
        cases passed with
        | nil => exact h rfl hFeed
        | cons d passed =>
            obtain rfl : d = '\n' := Option.some.inj hFeed
            exact hPair passed rfl rfl
      exact ⟨_, _, _, _, hDivides.cons_line [c] (lines_terminator hLine hNext)⟩
  | case4 c passed _ hLine _ ih | case5 c passed _ hLine _ _ _ ih =>
      obtain ⟨before, lead, tail, after, hDivides⟩ := ih h.tail
      obtain ⟨before, lead, hMore⟩ := hDivides.cons_content (Bool.eq_false_iff.2 hLine)
      exact ⟨_, _, _, _, hMore⟩

/-- What is before the cursor in its line belongs to the content of the line. -/
theorem Divides.lineContent {passed left lead tail : List Char} {before after : List (List Char)}
    (h : Divides passed left before lead tail after) : lead <+: lineContent (lead ++ tail) := by
  rw [Text.lineContent, List.takeWhile_append_of_pos (by simpa using h.content)]
  exact List.prefix_append _ _

end Text

open Text

namespace Source

variable {source : Source}

/-- The position behind some lines and the beginning of the line after them. -/
theorem positionAmong_divided {before after : List (List Char)} {lead tail : List Char}
    (hEnded : after ≠ [] → tail ≠ []) (line offset : Nat) :
    positionAmong line offset (Text.byteSize (before.flatten ++ lead))
        (before ++ (lead ++ tail) :: after) =
      ⟨line + before.length, lead.length, size16 lead,
        offset + Text.byteSize (before.flatten ++ lead)⟩ := by
  induction before generalizing line offset with
  | nil =>
      have hWithin : after = [] ∨ Text.byteSize lead < Text.byteSize (lead ++ tail) := by
        by_cases hAfter : after = []
        · exact .inl hAfter
        · have hPos := Lexer.Tiles.byteSize_pos (hEnded hAfter)
          rw [byteSize_append]
          exact .inr (by omega)
      exact (positionAmong_within hWithin).trans (by rw [takeBytes_append]; rfl)
  | cons first before ih =>
      have hSize : Text.byteSize ((first :: before).flatten ++ lead) =
          Text.byteSize first + Text.byteSize (before.flatten ++ lead) := by simp
      rw [List.cons_append, hSize, positionAmong_beyond (by simp) (Nat.le_add_right _ _),
        Nat.add_sub_cancel_left, ih, List.length_cons]
      simp only [Position.mk.injEq, true_and]
      omega

/-- The position of a place in a line, from the lines before it and what is before it in its line.
-/
theorem positionAt_divided {before after : List (List Char)} {lead tail : List Char}
    (hLines : source.lines = before ++ (lead ++ tail) :: after) (hEnded : after ≠ [] → tail ≠ []) :
    source.positionAt (Text.byteSize (before.flatten ++ lead)) =
      ⟨before.length, lead.length, size16 lead, Text.byteSize (before.flatten ++ lead)⟩ := by
  rw [positionAt, hLines, positionAmong_divided hEnded, Nat.zero_add, Nat.zero_add]

/-- The lines of a text around a position: those before it, its own, what of that is before it, and
those after it. -/
structure Around (source : Source) (position : Position) (before : List (List Char))
    (line lead : List Char) (after : List (List Char)) : Prop where
  lines : source.lines = before ++ line :: after
  within : lead <+: lineContent line
  place : position = ⟨before.length, lead.length, size16 lead,
    Text.byteSize (before.flatten ++ lead)⟩

/-- A place has characters of a line before it, but nothing of the terminator of the line. -/
theorem IsPlace.exists_around {position : Position} (h : source.IsPlace position) :
    ∃ before line lead after, source.Around position before line lead after := by
  obtain ⟨passed, left, hText, hPairs, rfl⟩ := h
  obtain ⟨before, lead, tail, after, hDivides⟩ := exists_divides hPairs
  have hLines : source.lines = before ++ (lead ++ tail) :: after := by
    rw [Source.lines, Source.chars, hText, hDivides.lines]
  refine ⟨before, lead ++ tail, lead, after, hLines, hDivides.lineContent, ?_⟩
  have hOffset : (Cursor.walk {} passed).position.offset = Text.byteSize passed := by
    rw [Cursor.offset_walk, Nat.zero_add]
  rw [← positionAt_walk hText hPairs, hOffset, hDivides.passed,
    positionAt_divided hLines hDivides.ended]

namespace Around

variable {position other : Position} {before before' after after' : List (List Char)}
  {line line' lead lead' : List Char}

/-- What is before the position in its line starts the line. -/
theorem prefix_line (h : source.Around position before line lead after) : lead <+: line :=
  h.within.trans (List.takeWhile_prefix _)

/-- The text of the line that a position is on. -/
theorem lineText? (h : source.Around position before line lead after) :
    source.lineText? position.line = some (String.ofList (lineContent line)) := by
  rw [Source.lineText?, h.lines, h.place]
  simp

/-- Positions of one line have the same line around them. -/
theorem same_line (h : source.Around position before line lead after)
    (hOther : source.Around other before' line' lead' after') (hLine : position.line = other.line) :
    before = before' ∧ line = line' ∧ after = after' := by
  have hLength : before.length = before'.length := by
    rw [h.place, hOther.place] at hLine
    exact hLine
  obtain ⟨rfl, hRest⟩ := List.append_inj (h.lines.symm.trans hOther.lines) hLength
  obtain ⟨rfl, rfl⟩ := List.cons.inj hRest
  exact ⟨rfl, rfl, rfl⟩

/-- The lines before, the line and the lines after it are the text. -/
theorem chars (h : source.Around position before line lead after) :
    source.chars = before.flatten ++ (line ++ after.flatten) := by
  have hFlat := flatten_lines source.chars
  rw [← Source.lines, h.lines] at hFlat
  simpa using hFlat.symm

/-- What comes before a character of the line is the lines before and a part of the line. -/
theorem exists_part (h : source.Around position before line lead after)
    {upTo passed rest : List Char} {c : Char} (hUpTo : upTo <+: line)
    (hChars : source.chars = passed ++ c :: rest)
    (hLow : Text.byteSize before.flatten ≤ Text.byteSize passed)
    (hHigh : Text.byteSize passed < Text.byteSize before.flatten + Text.byteSize upTo) :
    ∃ part tail, passed = before.flatten ++ part ∧ line = part ++ tail ∧ tail ≠ [] ∧
      part.length < upTo.length := by
  rw [h.chars] at hChars
  have hBefore : before.flatten <+: before.flatten ++ (line ++ after.flatten) :=
    List.prefix_append _ _
  have hPassed : passed <+: before.flatten ++ (line ++ after.flatten) := ⟨_, hChars.symm⟩
  obtain ⟨part, rfl⟩ : before.flatten <+: passed :=
    List.prefix_of_prefix_length_le hBefore hPassed (Nat.le_of_not_lt fun hShort =>
      Nat.not_lt_of_le hLow ((byteSize_lt_iff hPassed hBefore).2 hShort))
  rw [List.append_assoc, List.append_cancel_left_eq] at hChars
  rw [byteSize_append] at hHigh
  have hAll : upTo <+: line ++ after.flatten := hUpTo.trans (List.prefix_append _ _)
  have hPart : part <+: line ++ after.flatten := ⟨_, hChars.symm⟩
  have hLength : part.length < upTo.length := (byteSize_lt_iff hPart hAll).1 (by omega)
  obtain ⟨tail, rfl⟩ : part <+: line :=
    (List.prefix_of_prefix_length_le hPart hAll (Nat.le_of_lt hLength)).trans hUpTo
  refine ⟨part, tail, rfl, rfl, ?_, hLength⟩
  rintro rfl
  have hLine := hUpTo.length_le
  rw [List.append_nil] at hLine
  omega

/-- A character of the line stands at the column of as many characters as come before it. -/
theorem chars_at (h : source.Around position before line lead after) {part tail : List Char}
    {c : Char} (hPart : line = part ++ c :: tail) :
    source.chars = before.flatten ++ part ++ c :: (tail ++ after.flatten) ∧
      source.positionAt (Text.byteSize (before.flatten ++ part)) =
        ⟨before.length, part.length, size16 part, Text.byteSize (before.flatten ++ part)⟩ := by
  have hLines : source.lines = before ++ (part ++ c :: tail) :: after := by rw [← hPart, h.lines]
  constructor
  · rw [h.chars, hPart]
    simp
  · rw [positionAt_divided hLines fun _ => List.cons_ne_nil _ _]

end Around

/-- A place is on a line of the text, at the end of its content at most. -/
theorem IsPlace.exists_text {position : Position} (h : source.IsPlace position) :
    ∃ text, source.lineText? position.line = some text ∧ position.column ≤ text.length := by
  obtain ⟨before, line, lead, after, hAround⟩ := h.exists_around
  refine ⟨_, hAround.lineText?, ?_⟩
  rw [hAround.place, String.length_ofList]
  exact hAround.within.length_le

/-- On one line, places with more bytes before them have more characters before them. -/
theorem column_lt_iff {start stop : Position} (hStart : source.IsPlace start)
    (hStop : source.IsPlace stop) (hLine : start.line = stop.line) :
    start.column < stop.column ↔ start.offset < stop.offset := by
  obtain ⟨before, line, lead, after, hAround⟩ := hStart.exists_around
  obtain ⟨_, _, upTo, _, hOther⟩ := hStop.exists_around
  obtain ⟨rfl, rfl, rfl⟩ := hAround.same_line hOther hLine
  have hParts := byteSize_lt_iff hAround.prefix_line hOther.prefix_line
  rw [hAround.place, hOther.place]
  simp only [byteSize_append]
  omega

/-- Whether a character of the text that lies in a span stands at a column of its line. -/
def HasColumn (source : Source) (span : Span) (column : Nat) : Prop :=
  ∃ before c after, source.chars = before ++ c :: after ∧
    span.start.offset ≤ Text.byteSize before ∧ Text.byteSize before < span.stop.offset ∧
    (source.positionAt (Text.byteSize before)).column = column

/-- The characters of a span that begins and ends on one line stand at the columns from its start
up to its end. -/
theorem hasColumn_iff {span : Span} (hStart : source.IsPlace span.start)
    (hStop : source.IsPlace span.stop) (hLine : span.start.line = span.stop.line) (column : Nat) :
    source.HasColumn span column ↔ span.start.column ≤ column ∧ column < span.stop.column := by
  obtain ⟨before, line, lead, after, hAround⟩ := hStart.exists_around
  obtain ⟨_, _, upTo, _, hOther⟩ := hStop.exists_around
  obtain ⟨rfl, rfl, rfl⟩ := hAround.same_line hOther hLine
  rw [HasColumn, hAround.place, hOther.place]
  simp only [byteSize_append]
  constructor
  · rintro ⟨passed, c, rest, hChars, hLow, hHigh, rfl⟩
    obtain ⟨part, tail, rfl, rfl, hTail, hBefore⟩ := hAround.exists_part hOther.prefix_line hChars
      (Nat.le_trans (Nat.le_add_right _ _) hLow) hHigh
    rw [positionAt_divided hAround.lines fun _ => hTail]
    rw [byteSize_append, Nat.add_le_add_iff_left] at hLow
    have hParts := byteSize_lt_iff (List.prefix_append part tail) hAround.prefix_line
    exact ⟨Nat.le_of_not_lt fun hShort => Nat.not_lt_of_le hLow (hParts.2 hShort), hBefore⟩
  · rintro ⟨hLow, hHigh⟩
    have hColumn : column < line.length := Nat.lt_of_lt_of_le hHigh hOther.prefix_line.length_le
    obtain ⟨c, tail, hDrop⟩ :=
      List.exists_cons_of_ne_nil (mt List.drop_eq_nil_iff.1 (Nat.not_le_of_lt hColumn))
    obtain ⟨hChars, hPosition⟩ := hAround.chars_at
      (show line = line.take column ++ c :: tail by rw [← hDrop, List.take_append_drop])
    have hTake := List.take_prefix column line
    have hLength : (line.take column).length = column :=
      List.length_take_of_le (Nat.le_of_lt hColumn)
    refine ⟨_, _, _, hChars, ?_, ?_, by rw [hPosition, hLength]⟩
    · rw [byteSize_append]
      refine Nat.add_le_add_left (Nat.le_of_not_lt fun hLess => ?_) _
      have hShort := (byteSize_lt_iff hTake hAround.prefix_line).1 hLess
      omega
    · rw [byteSize_append]
      exact Nat.add_lt_add_left ((byteSize_lt_iff hTake hOther.prefix_line).2 (by omega)) _

end Source

end GraphQL
