import Mathlib.Data.List.TakeWhile
import GraphQL.Proofs.Source.Position

/-! Texts in which every line ends in a line feed. The lines of a text say the same however they are
ended, and a cursor passes through the same lines and columns. -/
namespace GraphQL

namespace Text

/-- A text with a line feed for each pair of carriage return and line feed. -/
def joinPairs : List Char → List Char
  | [] => []
  | '\r' :: '\n' :: rest => '\n' :: joinPairs rest
  | c :: rest => c :: joinPairs rest

/-- A line feed for a carriage return, and any other character itself. -/
def feed (c : Char) : Char := if c = '\r' then '\n' else c

/-- A text with a line feed for each pair of carriage return and line feed, and then for each
carriage return that is left. -/
def withFeeds (cs : List Char) : List Char := (joinPairs cs).map feed

theorem feed_of_content {c : Char} (h : isLineEnd c = false) : feed c = c := by
  have hReturn : c ≠ '\r' := by
    rintro rfl
    cases h
  rw [feed, if_neg hReturn]

theorem feed_of_lineEnd {c : Char} (h : isLineEnd c = true) : feed c = '\n' := by
  rw [feed]
  by_cases hReturn : c = '\r'
  · rw [if_pos hReturn]
  · rw [if_neg hReturn]
    simpa [isLineEnd, hReturn] using h

@[simp] theorem withFeeds_nil : withFeeds [] = [] := rfl

theorem withFeeds_pair (cs : List Char) :
    withFeeds ('\r' :: '\n' :: cs) = '\n' :: withFeeds cs := by
  rw [withFeeds, joinPairs, List.map_cons, withFeeds]
  rfl

/-- Any other character is replaced for itself. -/
theorem withFeeds_cons {c : Char} {cs : List Char} (h : c = '\r' → cs.head? ≠ some '\n') :
    withFeeds (c :: cs) = feed c :: withFeeds cs := by
  rw [withFeeds, joinPairs.eq_3, List.map_cons, withFeeds]
  rintro rest rfl rfl
  exact h rfl rfl

@[simp] theorem withFeeds_newline (cs : List Char) :
    withFeeds ('\n' :: cs) = '\n' :: withFeeds cs :=
  withFeeds_cons fun h => absurd h (by decide)

/-- A character that ends no line stays. -/
theorem withFeeds_content {c : Char} (h : isLineEnd c = false) (cs : List Char) :
    withFeeds (c :: cs) = c :: withFeeds cs := by
  rw [withFeeds_cons, feed_of_content h]
  rintro rfl
  cases h

/-- A carriage return before a line feed is dropped. -/
theorem withFeeds_return {cs : List Char} (h : cs.head? = some '\n') :
    withFeeds ('\r' :: cs) = withFeeds cs := by
  obtain ⟨rest, rfl⟩ := List.head?_eq_some_iff.1 h
  rw [withFeeds_pair, withFeeds_newline]

/-- What a text with line feeds starts with, by what the text starts with. -/
theorem withFeeds_cases (cs : List Char) :
    cs = [] ∨ (∃ c rest, cs = c :: rest ∧ isLineEnd c = false ∧
      withFeeds cs = c :: withFeeds rest) ∨
    ∃ c rest more, cs = c :: rest ∧ isLineEnd c = true ∧ withFeeds cs = '\n' :: more := by
  cases cs with
  | nil => exact .inl rfl
  | cons c rest =>
      right
      cases hLine : isLineEnd c with
      | false => exact .inl ⟨c, rest, rfl, hLine, withFeeds_content hLine rest⟩
      | true =>
          right
          by_cases hPair : c = '\r' ∧ rest.head? = some '\n'
          · obtain ⟨rfl, hNext⟩ := hPair
            obtain ⟨more, rfl⟩ := List.head?_eq_some_iff.1 hNext
            exact ⟨_, _, _, rfl, hLine, withFeeds_pair more⟩
          · have hSplit : c = '\r' → rest.head? ≠ some '\n' := fun hc hNext => hPair ⟨hc, hNext⟩
            refine ⟨c, rest, withFeeds rest, rfl, hLine, ?_⟩
            rw [withFeeds_cons hSplit, feed_of_lineEnd hLine]

/-- A text with line feeds starts with another character only if the text does. -/
theorem not_withFeeds_cons {c : Char} {cs : List Char} (hLine : isLineEnd c = false)
    (hOther : ∀ rest, cs = c :: rest → False) (rest : List Char) :
    withFeeds cs = c :: rest → False := by
  intro h
  rcases withFeeds_cases cs with rfl | ⟨d, more, rfl, -, hFeeds⟩ | ⟨d, more, others, rfl, -, hFeeds⟩
  · cases h
  · rw [hFeeds] at h
    cases h
    exact hOther more rfl
  · rw [hFeeds] at h
    cases h
    cases hLine

/-- What starts with a line end starts with a line feed afterwards. -/
theorem exists_withFeeds_lineEnd {c : Char} (h : isLineEnd c = true) (cs : List Char) :
    ∃ more, withFeeds (c :: cs) = '\n' :: more := by
  rcases withFeeds_cases (c :: cs) with hNil | ⟨d, rest, hCons, hLine, -⟩ |
    ⟨d, rest, more, -, -, hFeeds⟩
  · cases hNil
  · cases hCons
    rw [h] at hLine
    cases hLine
  · exact ⟨more, hFeeds⟩

/-- Texts are changed part by part, unless they are cut inside a pair. -/
theorem withFeeds_append {before after : List Char} (h : KeepsPairs before after) :
    withFeeds (before ++ after) = withFeeds before ++ withFeeds after := by
  induction before with
  | nil => rfl
  | cons c before ih =>
      rw [List.cons_append]
      by_cases hPair : c = '\r' ∧ before.head? = some '\n'
      · obtain ⟨rfl, hNext⟩ := hPair
        have hBoth : (before ++ after).head? = some '\n' := by
          rw [List.head?_append, hNext, Option.some_or]
        rw [withFeeds_return hBoth, withFeeds_return hNext, ih h.tail]
      · have hFirst : c = '\r' → before.head? ≠ some '\n' := fun hc hNext => hPair ⟨hc, hNext⟩
        have hBoth : c = '\r' → (before ++ after).head? ≠ some '\n' := by
          intro hc
          cases before with
          | nil =>
              rw [hc] at h
              exact h rfl
          | cons d before => exact hFirst hc
        rw [withFeeds_cons hBoth, withFeeds_cons hFirst, ih h.tail, List.cons_append]

/-- A text on one line stays. -/
theorem withFeeds_of_content {cs : List Char} (h : ∀ c ∈ cs, isLineEnd c = false) :
    withFeeds cs = cs := by
  induction cs with
  | nil => rfl
  | cons c cs ih =>
      obtain ⟨hFirst, hRest⟩ := List.forall_mem_cons.1 h
      rw [withFeeds_content hFirst, ih hRest]

/-- Parts on one line may be cut off in any case. -/
theorem withFeeds_lead {lead : List Char} (h : ∀ c ∈ lead, isLineEnd c = false)
    (cs : List Char) : withFeeds (lead ++ cs) = lead ++ withFeeds cs := by
  induction lead with
  | nil => rfl
  | cons c lead ih =>
      obtain ⟨hFirst, hRest⟩ := List.forall_mem_cons.1 h
      rw [List.cons_append, withFeeds_content hFirst, ih hRest, List.cons_append]

theorem quotes_content : ∀ c ∈ ['"', '"', '"'], isLineEnd c = false := by simp [isLineEnd]

theorem escapedQuotes_content : ∀ c ∈ ['\\', '"', '"', '"'], isLineEnd c = false := by
  simp [isLineEnd]

/-- A text with line feeds starts with the same characters on the first line. -/
theorem prefix_withFeeds {lead : List Char} (h : ∀ c ∈ lead, isLineEnd c = false)
    (cs : List Char) : lead <+: withFeeds cs ↔ lead <+: cs := by
  induction lead generalizing cs with
  | nil => simp
  | cons c lead ih =>
      obtain ⟨hFirst, hRest⟩ := List.forall_mem_cons.1 h
      rcases withFeeds_cases cs with rfl | ⟨d, rest, rfl, hLine, hFeeds⟩ |
        ⟨d, rest, more, rfl, hLine, hFeeds⟩
      · rw [withFeeds_nil]
      · rw [hFeeds, List.cons_prefix_cons, List.cons_prefix_cons, ih hRest]
      · have hFeed : c ≠ '\n' := by
          rintro rfl
          cases hFirst
        have hOther : c ≠ d := by
          rintro rfl
          rw [hLine] at hFirst
          cases hFirst
        rw [hFeeds, List.cons_prefix_cons, List.cons_prefix_cons]
        simp only [hFeed, hOther, false_and]

@[simp] theorem lineContent_terminator {c : Char} (h : isLineEnd c = true) (cs : List Char) :
    lineContent (c :: cs) = [] := by
  rw [lineContent, List.takeWhile_cons_of_neg (by simp [h])]

theorem lineContent_content {c : Char} (h : isLineEnd c = false) (cs : List Char) :
    lineContent (c :: cs) = c :: lineContent cs := by
  rw [lineContent, List.takeWhile_cons_of_pos (by simp [h])]
  rfl

/-- A line that is empty up to a single line end. -/
theorem splitLines_terminator {c : Char} {cs : List Char} (hLine : isLineEnd c = true)
    (hPair : c = '\r' → cs.head? ≠ some '\n') : splitLines (c :: cs) = [] :: splitLines cs := by
  rw [splitLines, lines_terminator hLine hPair, List.map_cons, lineContent_terminator hLine]
  rfl

/-- The lines of a text have the same contents when each ends in a line feed. -/
theorem splitLines_withFeeds (cs : List Char) : splitLines (withFeeds cs) = splitLines cs := by
  have hFeed : isLineEnd '\n' = true := rfl
  have hNotReturn : '\n' ≠ '\r' := by decide
  have hNewline (cs : List Char) : splitLines ('\n' :: cs) = [] :: splitLines cs :=
    splitLines_terminator hFeed fun h => absurd h hNotReturn
  induction cs using lines.induct with
  | case1 => rfl
  | case2 rest ih =>
      rw [withFeeds_pair, hNewline, ih, splitLines, splitLines, lines_pair, List.map_cons]
      rfl
  | case3 c rest hPair hLine ih =>
      have hSplit : c = '\r' → rest.head? ≠ some '\n' := by
        intro hc hNext
        obtain ⟨more, hMore⟩ := List.head?_eq_some_iff.1 hNext
        exact hPair more hc hMore
      rw [withFeeds_cons hSplit, feed_of_lineEnd hLine, hNewline, ih,
        splitLines_terminator hLine hSplit]
  | case4 c rest hPair hLine hNone ih =>
      obtain ⟨first, more, hLines⟩ := exists_lines rest
      rw [hLines] at hNone
      cases hNone
  | case5 c rest hPair hLine first more hLines ih =>
      have hContent : isLineEnd c = false := Bool.eq_false_iff.2 hLine
      obtain ⟨other, others, hOther⟩ := exists_lines (withFeeds rest)
      have hSame : lineContent other :: others.map lineContent =
          lineContent first :: more.map lineContent := by
        rw [splitLines, splitLines, hOther, hLines] at ih
        exact ih
      obtain ⟨hFirst, hMore⟩ := List.cons.inj hSame
      rw [withFeeds_content hContent, splitLines, splitLines, lines_content hContent,
        lines_content hContent, hOther, hLines]
      simp only [List.map_cons, lineContent_content hContent, hFirst, hMore]

/-- No carriage return is left. -/
theorem not_mem_withFeeds (cs : List Char) : '\r' ∉ withFeeds cs := by
  intro hReturn
  obtain ⟨c, -, hFeed⟩ := List.mem_map.1 hReturn
  unfold feed at hFeed
  split at hFeed
  · cases hFeed
  · next hOther => exact hOther hFeed

/-- Without carriage returns the lines are what line feeds separate. -/
theorem splitLines_eq_splitOn {cs : List Char} (h : '\r' ∉ cs) :
    splitLines cs = cs.splitOn '\n' := by
  induction cs with
  | nil => rfl
  | cons c cs ih =>
      obtain ⟨hFirst, hRest⟩ := not_or.1 (mt List.mem_cons.2 h)
      have hTail := ih hRest
      simp only [List.splitOn, List.splitOnP_cons_eq_if_modifyHead] at hTail ⊢
      cases hLine : isLineEnd c with
      | true =>
          have hFeed : c = '\n' := by simpa [isLineEnd, Ne.symm hFirst] using hLine
          rw [splitLines_terminator hLine fun hc => absurd hc.symm hFirst, if_pos (by simp [hFeed]),
            hTail]
      | false =>
          have hOther : ¬ (c == '\n') = true := by
            rw [beq_iff_eq]
            rintro rfl
            cases hLine
          obtain ⟨first, more, hLines⟩ := exists_lines cs
          rw [if_neg hOther, ← hTail, splitLines, splitLines, lines_content hLine, hLines]
          simp only [List.map_cons, lineContent_content hLine, List.modifyHead_cons]

/-- The lines of a text are what stands between line feeds once each line ends in one. -/
theorem splitLines_eq_splitOn_withFeeds (cs : List Char) :
    splitLines cs = (withFeeds cs).splitOn '\n' := by
  rw [← splitLines_withFeeds, splitLines_eq_splitOn (not_mem_withFeeds cs)]

/-- A line does not hold the line feed that ends it. -/
theorem not_mem_splitLines {cs line : List Char} (h : line ∈ splitLines cs) : '\n' ∉ line := by
  obtain ⟨whole, -, rfl⟩ := List.mem_map.1 h
  intro hFeed
  cases List.mem_takeWhile_imp hFeed

end Text

open Text

/-- The text with a line feed at the end of each line. -/
def Source.withFeeds (source : Source) : Source :=
  { source with text := String.ofList (Text.withFeeds source.chars) }

theorem Source.chars_withFeeds (source : Source) :
    source.withFeeds.chars = Text.withFeeds source.chars := String.toList_ofList

theorem Source.lineCount_withFeeds (source : Source) :
    source.withFeeds.lineCount = source.lineCount := by
  have hContents := congrArg List.length (splitLines_withFeeds source.chars)
  rw [Text.splitLines, Text.splitLines, List.length_map, List.length_map] at hContents
  rw [lineCount, lineCount, lines, chars_withFeeds, hContents]
  rfl

/-- The line ends of a text do not matter for what its lines hold. -/
theorem Source.lineText?_withFeeds (source : Source) (n : Nat) :
    source.withFeeds.lineText? n = source.lineText? n := by
  rw [← getElem?_splitLines, ← getElem?_splitLines, splitLines, splitLines, chars_withFeeds,
    splitLines_withFeeds]

/-- The line and the columns of a position, as the position that has no offset. -/
def Position.place (position : Position) : Position := { position with offset := 0 }

namespace Cursor

/-- A line feed leads to the same place as a carriage return or as the pair of them. -/
theorem place_walk (line offset other : Nat) (lead cs : List Char) :
    ((inLine line offset lead).walk cs).position.place =
      ((inLine line other lead).walk (withFeeds cs)).position.place := by
  have hFeed : isLineEnd '\n' = true := rfl
  have hNewline (line offset : Nat) (lead : List Char) : (inLine line offset lead).step '\n' =
      inLine (line + 1) (offset + byteSize (lead ++ ['\n'])) [] :=
    step_terminator line offset lead hFeed
  induction cs using lines.induct generalizing lead line offset other with
  | case1 => rfl
  | case2 rest ih =>
      rw [withFeeds_pair, walk_pair, walk_cons, hNewline]
      exact ih _ _ _ _
  | case3 c rest hPair hLine ih =>
      have hSplit : c = '\r' → rest.head? ≠ some '\n' := by
        intro hc hNext
        obtain ⟨more, hMore⟩ := List.head?_eq_some_iff.1 hNext
        exact hPair more hc hMore
      have hFlag : ((⟨(inLine (line + 1) (offset + byteSize (lead ++ [c])) []).position,
          c == '\r'⟩ : Cursor).walk rest).position =
          ((inLine (line + 1) (offset + byteSize (lead ++ [c])) []).walk rest).position := by
        by_cases hc : c = '\r'
        · exact position_walk_afterReturn (hSplit hc) _ _
        · rw [beq_false_of_ne hc]
          rfl
      rw [withFeeds_cons hSplit, feed_of_lineEnd hLine, walk_cons, walk_cons, hNewline,
        step_terminator line offset lead hLine, hFlag]
      exact ih _ _ _ _
  | case4 c rest hPair hLine hNone ih =>
      obtain ⟨first, more, hLines⟩ := exists_lines rest
      rw [hLines] at hNone
      cases hNone
  | case5 c rest hPair hLine first more hLines ih =>
      have hContent : isLineEnd c = false := Bool.eq_false_iff.2 hLine
      rw [withFeeds_content hContent, walk_cons, walk_cons, step_content _ _ _ hContent,
        step_content _ _ _ hContent]
      exact ih _ _ _ _

end Cursor

end GraphQL
