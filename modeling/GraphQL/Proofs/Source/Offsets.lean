import Mathlib.Data.Prod.Lex
import Mathlib.Order.Bounds.Basic
import GraphQL.Proofs.Source.Lines

/-! Positions against offsets. The boundaries between characters and the positions found from the
lines of a text correspond one to one: a position is that of the last boundary at or before its
offset, later boundaries have later positions, and a boundary is found again from the start of its
line. Nothing here keeps away from the pairs of carriage return and line feed. -/
namespace GraphQL

namespace Text

theorem takeBytes_isPrefix (n : Nat) (cs : List Char) : takeBytes n cs <+: cs := by
  induction cs generalizing n with
  | nil => exact List.prefix_refl _
  | cons c cs ih =>
      rw [takeBytes]
      split
      · exact (List.prefix_cons_inj c).2 (ih _)
      · exact List.nil_prefix

theorem byteSize_takeBytes_le (n : Nat) (cs : List Char) : byteSize (takeBytes n cs) ≤ n := by
  induction cs generalizing n with
  | nil => exact Nat.zero_le _
  | cons c cs ih =>
      rw [takeBytes]
      split
      · next hSize =>
          have hRest := ih (n - c.utf8Size)
          rw [byteSize_cons]
          omega
      · exact Nat.zero_le _

/-- Whatever starts a text and takes no more than `n` bytes is in the longest such start. -/
theorem isPrefix_takeBytes {before cs : List Char} {n : Nat} (h : before <+: cs)
    (hSize : byteSize before ≤ n) : before <+: takeBytes n cs := by
  induction before generalizing cs n with
  | nil => exact List.nil_prefix
  | cons c before ih =>
      obtain ⟨rest, rfl⟩ := h
      rw [byteSize_cons] at hSize
      rw [List.cons_append, takeBytes, if_pos (by omega)]
      exact (List.prefix_cons_inj c).2 (ih (List.prefix_append _ _) (by omega))

/-- A start of the text fits in its own size, and nothing after it does. -/
theorem takeBytes_of_isPrefix {before cs : List Char} (h : before <+: cs) :
    takeBytes (byteSize before) cs = before := by
  obtain ⟨rest, rfl⟩ := h
  exact takeBytes_append before rest

theorem byteSize_le_of_isPrefix {before cs : List Char} (h : before <+: cs) :
    byteSize before ≤ byteSize cs := by
  obtain ⟨rest, rfl⟩ := h
  rw [byteSize_append]
  exact Nat.le_add_right _ _

/-- Within the first part of a text the second does not matter. -/
theorem takeBytes_append_of_lt {n : Nat} {cs : List Char} (h : n < byteSize cs)
    (rest : List Char) : takeBytes n (cs ++ rest) = takeBytes n cs := by
  induction cs generalizing n with
  | nil => exact absurd h (Nat.not_lt_zero n)
  | cons c cs ih =>
      rw [byteSize_cons] at h
      rw [List.cons_append, takeBytes, takeBytes]
      split
      · rw [ih (by omega)]
      · rfl

/-- Once the first part fits, the rest of the bytes are taken from the second. -/
theorem takeBytes_append_of_le {n : Nat} {cs : List Char} (h : byteSize cs ≤ n)
    (rest : List Char) : takeBytes n (cs ++ rest) = cs ++ takeBytes (n - byteSize cs) rest := by
  induction cs generalizing n with
  | nil => rfl
  | cons c cs ih =>
      rw [byteSize_cons] at h
      rw [List.cons_append, takeBytes, if_pos (by omega), ih (by omega), byteSize_cons,
        Nat.sub_add_eq]
      rfl

/-- Characters before others have fewer UTF-16 units. -/
theorem size16_lt_of_length_lt {before other cs : List Char} (h : before <+: cs)
    (hOther : other <+: cs) (hLength : before.length < other.length) :
    size16 before < size16 other := by
  obtain ⟨more, rfl⟩ := List.prefix_of_prefix_length_le h hOther (Nat.le_of_lt hLength)
  obtain ⟨c, more, rfl⟩ : ∃ c rest, more = c :: rest := by
    apply List.exists_cons_of_ne_nil
    rintro rfl
    rw [List.append_nil] at hLength
    exact Nat.lt_irrefl _ hLength
  have hUnits : 0 < units16 c := by
    unfold units16
    split <;> decide
  rw [size16_append, size16_cons]
  omega

/-- Every beginning of some lines is a number of them and the beginning of one more. It ends behind
that line only if that is the last. -/
theorem exists_cut {lines : List (List Char)} (hLines : lines ≠ []) {passed : List Char}
    (h : passed <+: lines.flatten) :
    ∃ before lead tail after, lines = before ++ (lead ++ tail) :: after ∧
      passed = before.flatten ++ lead ∧ (after ≠ [] → tail ≠ []) := by
  induction lines generalizing passed with
  | nil => exact absurd rfl hLines
  | cons line rest ih =>
      rw [List.flatten_cons] at h
      have hLine : line <+: line ++ rest.flatten := List.prefix_append _ _
      by_cases hInside : passed.length < line.length
      · obtain ⟨tail, rfl⟩ := List.prefix_of_prefix_length_le h hLine (Nat.le_of_lt hInside)
        refine ⟨[], passed, tail, rest, rfl, rfl, ?_⟩
        rintro - rfl
        rw [List.append_nil] at hInside
        exact Nat.lt_irrefl _ hInside
      · obtain ⟨more, rfl⟩ := List.prefix_of_prefix_length_le hLine h (Nat.le_of_not_lt hInside)
        rw [List.prefix_append_right_inj] at h
        by_cases hRest : rest = []
        · subst hRest
          rw [List.prefix_nil.1 h]
          exact ⟨[], line, [], [], by simp, by simp, fun hAfter => absurd rfl hAfter⟩
        · obtain ⟨before, lead, tail, after, rfl, rfl, hTail⟩ := ih hRest h
          exact ⟨line :: before, lead, tail, after, rfl, by simp, hTail⟩

/-- Whether a line starts between two parts of a text: at its start, after a line feed, and after a
carriage return that no line feed follows. -/
def StartsLine (before after : List Char) : Prop :=
  before = [] ∨ before.getLast? = some '\n' ∨
    before.getLast? = some '\r' ∧ after.head? ≠ some '\n'

/-- Whether a line starts depends on the last character before it. -/
theorem startsLine_cons {c : Char} {before after : List Char} (hBefore : before ≠ []) :
    StartsLine (c :: before) after ↔ StartsLine before after := by
  obtain ⟨last, hLast⟩ := Option.ne_none_iff_exists'.1 (mt List.getLast?_eq_none_iff.1 hBefore)
  simp [StartsLine, hBefore, List.getLast?_cons, hLast]

/-- Whether the first part of a text is a number of its lines, and not all of them. -/
def IsLines (before after : List Char) : Prop :=
  ∃ count < (lines (before ++ after)).length,
    ((lines (before ++ after)).take count).flatten = before

/-- The start of a text is the start of its first line. -/
theorem isLines_nil (after : List Char) : IsLines [] after := by
  obtain ⟨first, more, hLines⟩ := exists_lines after
  exact ⟨0, by rw [List.nil_append, hLines]; exact Nat.succ_pos _, rfl⟩

/-- Line starts after a first line are those of the rest of the text. -/
theorem isLines_line {line before after : List Char} (hSome : line ≠ [])
    (hLine : lines (line ++ (before ++ after)) = line :: lines (before ++ after)) :
    IsLines (line ++ before) after ↔ IsLines before after := by
  rw [IsLines, List.append_assoc, hLine]
  constructor
  · rintro ⟨count, hCount, hTake⟩
    cases count with
    | zero => exact absurd (List.append_eq_nil_iff.1 hTake.symm).1 hSome
    | succ count => exact ⟨count, Nat.lt_of_succ_lt_succ hCount, List.append_cancel_left hTake⟩
  · rintro ⟨count, hCount, hTake⟩
    refine ⟨count + 1, Nat.succ_lt_succ hCount, ?_⟩
    rw [List.take_succ_cons, List.flatten_cons, hTake]

/-- A character that ends no line is part of the line that goes on after it. -/
theorem isLines_content {c : Char} {before after : List Char} (hLine : isLineEnd c = false) :
    IsLines (c :: before) after ↔ before ≠ [] ∧ IsLines before after := by
  obtain ⟨first, more, hLines⟩ := exists_lines (before ++ after)
  rw [IsLines, IsLines, List.cons_append, lines_content hLine, hLines]
  constructor
  · rintro ⟨count, hCount, hTake⟩
    cases count with
    | zero => cases hTake
    | succ count =>
        have hRest : first ++ (more.take count).flatten = before := (List.cons.inj hTake).2
        refine ⟨?_, count + 1, hCount, hRest⟩
        rintro rfl
        have hMore : more ≠ [] := List.ne_nil_of_length_pos (by simp at hCount; omega)
        exact line_ne_nil hLines hMore (List.append_eq_nil_iff.1 hRest).1
  · rintro ⟨hSome, count, hCount, hTake⟩
    cases count with
    | zero => exact absurd hTake.symm hSome
    | succ count => exact ⟨count + 1, hCount, congrArg (c :: ·) hTake⟩

/-- A line starts after a line feed, or after a carriage return that no line feed follows. -/
theorem startsLine_singleton {c : Char} {after : List Char} :
    StartsLine [c] after ↔ c = '\n' ∨ c = '\r' ∧ after.head? ≠ some '\n' := by
  simp [StartsLine]

/-- A carriage return alone is no line if a line feed follows. -/
theorem not_isLines_return (after : List Char) : ¬ IsLines ['\r'] ('\n' :: after) := by
  rw [IsLines, List.singleton_append, lines_pair]
  rintro ⟨count, -, hTake⟩
  cases count with
  | zero => cases hTake
  | succ count => cases (List.cons.inj hTake).2

/-- Lines start where the text before is made of whole lines. -/
theorem isLines_iff {before after : List Char} :
    IsLines before after ↔ StartsLine before after := by
  induction before using lines.induct with
  | case1 => exact iff_of_true (isLines_nil after) (.inl rfl)
  | case2 before ih =>
      have hLine : IsLines (['\r', '\n'] ++ before) after ↔ IsLines before after :=
        isLines_line (List.cons_ne_nil _ _) (lines_pair (before ++ after))
      refine hLine.trans ?_
      by_cases hBefore : before = []
      · subst hBefore
        exact iff_of_true (isLines_nil after) (.inr (.inl rfl))
      · rw [ih, startsLine_cons (List.cons_ne_nil _ _), startsLine_cons hBefore]
  | case3 c before hPair hLine ih =>
      by_cases hBefore : before = []
      · subst hBefore
        rw [startsLine_singleton]
        by_cases hReturn : c = '\r' ∧ after.head? = some '\n'
        · obtain ⟨rfl, hNext⟩ := hReturn
          obtain ⟨rest, rfl⟩ := List.head?_eq_some_iff.1 hNext
          exact iff_of_false (not_isLines_return rest) (by simp)
        · have hNext : c = '\r' → after.head? ≠ some '\n' := fun hc h => hReturn ⟨hc, h⟩
          have hFirst : IsLines ([c] ++ []) after ↔ IsLines [] after :=
            isLines_line (List.cons_ne_nil _ _) (lines_terminator hLine hNext)
          refine iff_of_true (hFirst.2 (isLines_nil after)) ?_
          exact (Lexer.isLineEnd_iff.1 hLine).imp_right fun hc => ⟨hc, hNext hc⟩
      · have hNext : c = '\r' → (before ++ after).head? ≠ some '\n' := by
          intro hc hFeed
          obtain ⟨d, rest, rfl⟩ := List.exists_cons_of_ne_nil hBefore
          obtain rfl : d = '\n' := Option.some.inj hFeed
          exact hPair rest hc rfl
        rw [startsLine_cons hBefore, ← ih]
        have hFirst : IsLines ([c] ++ before) after ↔ IsLines before after :=
          isLines_line (List.cons_ne_nil _ _) (lines_terminator hLine hNext)
        exact hFirst
  | case4 c before _ hLine _ ih | case5 c before _ hLine _ _ _ ih =>
      have hContent := Bool.eq_false_iff.2 hLine
      rw [isLines_content hContent, ih]
      by_cases hBefore : before = []
      · subst hBefore
        refine iff_of_false (fun h => h.1 rfl) fun h => hLine (Lexer.isLineEnd_iff.2 ?_)
        exact (startsLine_singleton.1 h).imp_right And.left
      · rw [startsLine_cons hBefore]
        exact and_iff_right hBefore

end Text

open Text

/-- Lines and columns, by which positions are ordered. Lines outweigh columns. -/
def Position.byColumn (position : Position) : ℕ ×ₗ ℕ := toLex (position.line, position.column)

/-- Lines and columns in UTF-16 units. -/
def Position.byColumn16 (position : Position) : ℕ ×ₗ ℕ := toLex (position.line, position.column16)

namespace Source

variable {source : Source} {m n : Nat}

/-- A position depends on the whole characters before it alone. -/
theorem positionAmong_takeBytes (line offset n : Nat) (lines : List (List Char)) :
    positionAmong line offset n lines =
      positionAmong line offset (Text.byteSize (takeBytes n lines.flatten)) lines := by
  induction lines generalizing line offset n with
  | nil => rfl
  | cons first rest ih =>
      rw [List.flatten_cons]
      by_cases hInside : n < Text.byteSize first
      · have hLess := Nat.lt_of_le_of_lt (byteSize_takeBytes_le n first) hInside
        rw [takeBytes_append_of_lt hInside, positionAmong_within (.inr hInside),
          positionAmong_within (.inr hLess), takeBytes_of_isPrefix (takeBytes_isPrefix n first)]
      · have hBeyond := Nat.le_of_not_lt hInside
        rw [takeBytes_append_of_le hBeyond, byteSize_append]
        by_cases hRest : rest = []
        · subst hRest
          have hAll := takeBytes_append_of_le hBeyond []
          rw [List.append_nil, takeBytes, List.append_nil] at hAll
          rw [List.flatten_nil, takeBytes, byteSize_nil, Nat.add_zero,
            positionAmong_within (.inl rfl), positionAmong_within (.inl rfl), hAll,
            takeBytes_of_isPrefix (List.prefix_refl first)]
        · rw [positionAmong_beyond hRest hBeyond,
            positionAmong_beyond hRest (Nat.le_add_right _ _), Nat.add_sub_cancel_left, ih]

/-- An offset inside a character has the position of the start of the character. -/
theorem positionAt_takeBytes (source : Source) (n : Nat) :
    source.positionAt n = source.positionAt (Text.byteSize (takeBytes n source.chars)) := by
  have hFlat : source.lines.flatten = source.chars := flatten_lines source.chars
  rw [← hFlat]
  exact positionAmong_takeBytes 0 0 n source.lines

/-- The lines of a text around an offset: those before it, what of its own is before it and what is
not, and those after it. -/
structure Cut (source : Source) (n : Nat) (before : List (List Char)) (lead tail : List Char)
    (after : List (List Char)) : Prop where
  lines : source.lines = before ++ (lead ++ tail) :: after
  offset : Text.byteSize (before.flatten ++ lead) = n
  position : source.positionAt n = ⟨before.length, lead.length, size16 lead, n⟩
  ended : after ≠ [] → tail ≠ []

/-- Every start of a text is some whole lines and the start of the next one. -/
theorem exists_cut_of_isPrefix {passed : List Char} (h : passed <+: source.chars) :
    ∃ before lead tail after, source.Cut (Text.byteSize passed) before lead tail after := by
  have hFlat : source.lines.flatten = source.chars := flatten_lines source.chars
  obtain ⟨first, more, hLines⟩ := exists_lines source.chars
  have hNone : source.lines ≠ [] := by
    rw [Source.lines, hLines]
    exact List.cons_ne_nil _ _
  rw [← hFlat] at h
  obtain ⟨before, lead, tail, after, hCut, rfl, hTail⟩ := exists_cut hNone h
  exact ⟨before, lead, tail, after, hCut, rfl, positionAt_divided hCut hTail, hTail⟩

/-- An offset does not split a character exactly if it is the size of a start of the text. -/
theorem isBoundary_iff : source.IsBoundary n ↔
    ∃ passed, passed <+: source.chars ∧ Text.byteSize passed = n := by
  constructor
  · intro h
    obtain ⟨before, after, hText, hOffset⟩ := String.Pos.Raw.isValid_iff_exists_append.1 h
    refine ⟨before.toList, ⟨after.toList, ?_⟩, ?_⟩
    · rw [Source.chars, hText, String.toList_append]
    · rw [← utf8ByteSize_ofList, String.ofList_toList]
      exact (congrArg String.Pos.Raw.byteIdx hOffset).symm
  · rintro ⟨passed, ⟨left, hText⟩, rfl⟩
    exact Lexer.Tiles.isBoundary ⟨passed, left, hText.symm, (Nat.zero_add _).symm⟩

/-- The position of an offset is that of the last boundary at or before it. -/
theorem offset_positionAt (source : Source) (n : Nat) :
    (source.positionAt n).offset = Text.byteSize (takeBytes n source.chars) := by
  obtain ⟨before, lead, tail, after, hCut⟩ :=
    exists_cut_of_isPrefix (takeBytes_isPrefix n source.chars)
  rw [positionAt_takeBytes, hCut.position]

/-- The position of an offset is at the last boundary that is not after it. -/
theorem isGreatest_offset (source : Source) (n : Nat) :
    IsGreatest {m | source.IsBoundary m ∧ m ≤ min n source.byteSize}
      (source.positionAt n).offset := by
  have hSize : source.byteSize = Text.byteSize source.chars := by
    rw [Source.chars, ← utf8ByteSize_ofList, String.ofList_toList]
    rfl
  have hPrefix := takeBytes_isPrefix n source.chars
  rw [offset_positionAt, hSize]
  constructor
  · exact ⟨isBoundary_iff.2 ⟨_, hPrefix, rfl⟩,
      Nat.le_min.2 ⟨byteSize_takeBytes_le n _, byteSize_le_of_isPrefix hPrefix⟩⟩
  · rintro m ⟨hBoundary, hLe⟩
    obtain ⟨passed, hPassed, rfl⟩ := isBoundary_iff.1 hBoundary
    exact byteSize_le_of_isPrefix (isPrefix_takeBytes hPassed (Nat.le_min.1 hLe).1)

/-- The line of a position is one of the lines of the text. -/
theorem Cut.line_lt {before after : List (List Char)} {lead tail : List Char}
    (h : source.Cut n before lead tail after) : (source.positionAt n).line < source.lineCount := by
  rw [h.position, lineCount, h.lines]
  simp

/-- Of two cuts of one text the one that has fewer bytes before it is on an earlier line, or has
less of the same line before it. -/
theorem Cut.before {before before' after after' : List (List Char)}
    {lead lead' tail tail' : List Char} (h : source.Cut m before lead tail after)
    (hOther : source.Cut n before' lead' tail' after') (hLess : m < n) :
    before.length < before'.length ∨ before.length = before'.length ∧
      lead.length < lead'.length ∧ size16 lead < size16 lead' := by
  have hLines := h.lines.symm.trans hOther.lines
  have hFirst := h.offset
  have hSecond := hOther.offset
  rw [byteSize_append] at hFirst hSecond
  rcases Nat.lt_trichotomy before.length before'.length with hLine | hLine | hLine
  · exact .inl hLine
  · obtain ⟨rfl, hRest⟩ := List.append_inj hLines hLine
    have hText := (List.cons.inj hRest).1
    have hLead : lead <+: lead' ++ tail' := ⟨tail, hText⟩
    have hLead' : lead' <+: lead' ++ tail' := List.prefix_append _ _
    have hLength := (byteSize_lt_iff hLead hLead').1 (by omega)
    exact .inr ⟨rfl, hLength, size16_lt_of_length_lt hLead hLead' hLength⟩
  · -- The later cut would lie in a line that the earlier one has passed.
    exfalso
    have hPassed : before' ++ [lead' ++ tail'] <+: before := by
      have hEarlier : before <+: source.lines := by
        rw [h.lines]
        exact List.prefix_append _ _
      have hLater : before' ++ [lead' ++ tail'] <+: source.lines :=
        ⟨after', by rw [hOther.lines, List.append_assoc, List.singleton_append]⟩
      refine List.prefix_of_prefix_length_le hLater hEarlier ?_
      rw [List.length_append]
      exact hLine
    obtain ⟨more, rfl⟩ := hPassed
    simp only [List.flatten_append, List.flatten_cons, List.flatten_nil, byteSize_append] at hFirst
    omega

/-- The offset at which a line starts. -/
def lineStart (source : Source) (line : Nat) : Nat :=
  Text.byteSize (source.lines.take line).flatten

/-- Whether a line starts at an offset: it is the start of the text, or it lies behind a line feed
or behind a carriage return that no line feed follows. -/
def IsLineStart (source : Source) (offset : Nat) : Prop :=
  ∃ before after, source.chars = before ++ after ∧ Text.byteSize before = offset ∧
    StartsLine before after

/-- The line starts of a text are those that its lines have. -/
theorem isLineStart_iff {offset : Nat} :
    source.IsLineStart offset ↔ ∃ line < source.lineCount, source.lineStart line = offset := by
  have hFlat : source.lines.flatten = source.chars := flatten_lines source.chars
  constructor
  · rintro ⟨before, after, hText, rfl, hStarts⟩
    obtain ⟨line, hLine, hBefore⟩ := isLines_iff.2 hStarts
    rw [← hText] at hLine hBefore
    exact ⟨line, hLine, congrArg Text.byteSize hBefore⟩
  · rintro ⟨line, hLine, rfl⟩
    have hText : source.chars =
        (source.lines.take line).flatten ++ (source.lines.drop line).flatten := by
      rw [← List.flatten_append, List.take_append_drop, hFlat]
    refine ⟨_, _, hText, rfl, isLines_iff.1 ⟨line, ?_, ?_⟩⟩
    · rw [← hText]
      exact hLine
    · rw [← hText]
      rfl

/-- Later lines do not start earlier. -/
theorem lineStart_mono (source : Source) {first second : Nat} (h : first ≤ second) :
    source.lineStart first ≤ source.lineStart second := by
  obtain ⟨more, hMore⟩ := List.take_prefix_take_left (l := source.lines) h
  rw [lineStart, lineStart, ← hMore, List.flatten_append, byteSize_append]
  exact Nat.le_add_right _ _

/-- A line starts after the bytes of all the lines before it. -/
theorem Cut.lineStart_eq {before after : List (List Char)} {lead tail : List Char}
    (h : source.Cut n before lead tail after) :
    source.lineStart before.length = Text.byteSize before.flatten := by
  rw [lineStart, h.lines, List.take_left]

/-- The line of a position starts at the last start of a line that is not after it. -/
theorem Cut.isGreatest_lineStart {before after : List (List Char)} {lead tail : List Char}
    (h : source.Cut n before lead tail after) :
    IsGreatest {m | source.IsLineStart m ∧ m ≤ n} (source.lineStart before.length) := by
  have hOffset := h.offset
  rw [byteSize_append] at hOffset
  constructor
  · refine ⟨isLineStart_iff.2 ⟨before.length, ?_, rfl⟩, ?_⟩
    · rw [lineCount, h.lines]
      simp
    · rw [h.lineStart_eq]
      omega
  · rintro m ⟨hStart, hLe⟩
    obtain ⟨line, hLine, rfl⟩ := isLineStart_iff.1 hStart
    by_contra hLater
    -- A later line starts behind the rest of this one, which is not empty then.
    have hBeyond : before.length < line := Nat.lt_of_not_le fun hEarlier =>
      hLater (source.lineStart_mono hEarlier)
    have hAfter : after ≠ [] := by
      rintro rfl
      rw [lineCount, h.lines, List.length_append, List.length_singleton] at hLine
      omega
    have hTail := Lexer.Tiles.byteSize_pos (h.ended hAfter)
    have hNext : source.lineStart (before.length + 1) =
        Text.byteSize before.flatten + (Text.byteSize lead + Text.byteSize tail) := by
      rw [lineStart, h.lines, List.take_length_add_append]
      simp
    have hMore : source.lineStart (before.length + 1) ≤ source.lineStart line :=
      source.lineStart_mono hBeyond
    omega

/-- Boundaries and positions correspond one to one. The position of an offset is that of the last
boundary at or before it, on a line of the text. Later boundaries have later positions, whichever
way columns are counted. A boundary lies as many bytes behind the start of its line as the
characters before its column have, and no other line starts in between. -/
theorem positions_correspond (source : Source) :
    (∀ n, IsGreatest {m | source.IsBoundary m ∧ m ≤ min n source.byteSize}
        (source.positionAt n).offset ∧
      (source.positionAt n).line < source.lineCount) ∧
    (∀ m n, source.IsBoundary m → source.IsBoundary n → m < n →
      (source.positionAt m).byColumn < (source.positionAt n).byColumn ∧
      (source.positionAt m).byColumn16 < (source.positionAt n).byColumn16) ∧
    ∀ n, source.IsBoundary n → ∃ line, source.lines[(source.positionAt n).line]? = some line ∧
      (source.positionAt n).column ≤ line.length ∧
      IsGreatest {m | source.IsLineStart m ∧ m ≤ n}
        (source.lineStart (source.positionAt n).line) ∧
      source.lineStart (source.positionAt n).line +
        Text.byteSize (line.take (source.positionAt n).column) = n := by
  refine ⟨fun n => ⟨source.isGreatest_offset n, ?_⟩, fun m n hFirst hSecond hLess => ?_,
    fun n hBoundary => ?_⟩
  · obtain ⟨before, lead, tail, after, hCut⟩ :=
      exists_cut_of_isPrefix (takeBytes_isPrefix n source.chars)
    rw [positionAt_takeBytes]
    exact hCut.line_lt
  · obtain ⟨passed, hPassed, rfl⟩ := isBoundary_iff.1 hFirst
    obtain ⟨other, hOther, rfl⟩ := isBoundary_iff.1 hSecond
    obtain ⟨before, lead, tail, after, hCut⟩ := exists_cut_of_isPrefix hPassed
    obtain ⟨before', lead', tail', after', hCut'⟩ := exists_cut_of_isPrefix hOther
    have hBefore := hCut.before hCut' hLess
    rw [hCut.position, hCut'.position]
    simp only [Position.byColumn, Position.byColumn16, Prod.Lex.toLex_lt_toLex]
    omega
  · obtain ⟨passed, hPassed, rfl⟩ := isBoundary_iff.1 hBoundary
    obtain ⟨before, lead, tail, after, hCut⟩ := exists_cut_of_isPrefix hPassed
    rw [hCut.position]
    refine ⟨lead ++ tail, ?_, ?_, hCut.isGreatest_lineStart, ?_⟩
    · rw [hCut.lines]
      simp
    · rw [List.length_append]
      exact Nat.le_add_right _ _
    · rw [hCut.lineStart_eq, List.take_left, ← byteSize_append, hCut.offset]

/-- Between a carriage return and its line feed, and behind a character of four bytes and two UTF-16
units. -/
theorem positions_correspond_pair :
    let source : Source := { text := "a\r\n😀" }
    source.positionAt 2 = ⟨0, 2, 2, 2⟩ ∧ source.positionAt 7 = ⟨1, 1, 2, 7⟩ ∧
      source.IsBoundary 2 ∧ source.IsBoundary 7 ∧
      (source.positionAt 2).byColumn < (source.positionAt 7).byColumn ∧
      (source.positionAt 2).byColumn16 < (source.positionAt 7).byColumn16 ∧
      ∃ line, source.lines[0]? = some line ∧ 2 ≤ line.length ∧
        IsGreatest {m | source.IsLineStart m ∧ m ≤ 2} (source.lineStart 0) ∧
        source.lineStart 0 + Text.byteSize (line.take 2) = 2 := by
  intro source
  have hPair : source.positionAt 2 = ⟨0, 2, 2, 2⟩ := by decide
  have hEnd : source.positionAt 7 = ⟨1, 1, 2, 7⟩ := by decide
  have hFirst : source.IsBoundary 2 := isBoundary_iff.2 ⟨['a', '\r'], by decide, by decide⟩
  have hSecond : source.IsBoundary 7 :=
    isBoundary_iff.2 ⟨['a', '\r', '\n', '😀'], by decide, by decide⟩
  obtain ⟨-, hOrder, hBack⟩ := source.positions_correspond
  obtain ⟨hColumns, hUnits⟩ := hOrder 2 7 hFirst hSecond (by decide)
  have hFound := hBack 2 hFirst
  rw [hPair] at hFound
  exact ⟨hPair, hEnd, hFirst, hSecond, hColumns, hUnits, hFound⟩

end Source

end GraphQL
