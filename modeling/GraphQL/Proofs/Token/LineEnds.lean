import Mathlib.Data.List.Forall2
import GraphQL.Proofs.StringLiteral
import GraphQL.Proofs.Token.Position
import GraphQL.Proofs.Token.Relocation

/-! How lines are ended does not matter to the lexer. A scan of a text whose lines end in line feeds
splits off the same token, but for the line ends in it, and positions differ in offsets alone. -/
namespace GraphQL

namespace Lexer

open Text

section Runs

variable {p : Char → Bool} (hReturn : p '\r' = false) (hFeed : p '\n' = false)
include hReturn hFeed

theorem not_of_lineEnd {c : Char} (h : isLineEnd c = true) : p c = false := by
  rcases isLineEnd_iff.1 h with rfl | rfl
  · exact hFeed
  · exact hReturn

/-- Characters of a class without line ends end no line. -/
theorem content_of_class {cs : List Char} (h : ∀ c ∈ cs, p c = true) :
    ∀ c ∈ cs, isLineEnd c = false := by
  intro c hc
  rw [Bool.eq_false_iff]
  intro hLine
  have hp := h c hc
  rw [not_of_lineEnd hReturn hFeed hLine] at hp
  cases hp

/-- A run without line ends is the same, whichever of them ends it. -/
theorem takeWhile_withFeeds (cs : List Char) :
    (withFeeds cs).takeWhile p = cs.takeWhile p := by
  induction cs with
  | nil => rfl
  | cons c cs ih =>
      cases hLine : isLineEnd c with
      | false => rw [withFeeds_content hLine, List.takeWhile_cons, List.takeWhile_cons, ih]
      | true =>
          have hNone : p c = false := not_of_lineEnd hReturn hFeed hLine
          obtain ⟨more, hFeeds⟩ := exists_withFeeds_lineEnd hLine cs
          rw [hFeeds, List.takeWhile_cons_of_neg (by simp [hFeed]),
            List.takeWhile_cons_of_neg (by simp [hNone])]

/-- What is left behind such a run only has its own line ends replaced. -/
theorem dropWhile_withFeeds (cs : List Char) :
    (withFeeds cs).dropWhile p = withFeeds (cs.dropWhile p) := by
  have hRun := content_of_class hReturn hFeed fun c hc => List.mem_takeWhile_imp (l := cs) hc
  have hSplit := withFeeds_lead hRun (cs.dropWhile p)
  rw [List.takeWhile_append_dropWhile] at hSplit
  have hOther := List.takeWhile_append_dropWhile (p := p) (l := withFeeds cs)
  rw [takeWhile_withFeeds hReturn hFeed, hSplit] at hOther
  rw [hSplit]
  exact List.append_cancel_left hOther

end Runs

theorem startsWithDigit_withFeeds (cs : List Char) :
    startsWithDigit (withFeeds cs) = startsWithDigit cs := by
  rcases withFeeds_cases cs with rfl | ⟨c, rest, rfl, hLine, hFeeds⟩ |
    ⟨c, rest, more, rfl, hLine, hFeeds⟩
  · rfl
  · rw [hFeeds, startsWithDigit, startsWithDigit]
  · have hDigit : c.isDigit = false := not_of_lineEnd (p := Char.isDigit) rfl rfl hLine
    rw [hFeeds, startsWithDigit, startsWithDigit, hDigit]
    rfl

/-- A line end is ignored and closes a comment. -/
theorem ignored?_lineEnd {c : Char} (h : isLineEnd c = true) (inComment : Bool) :
    ignored? inComment c = some false := by
  simp [ignored?, isIgnored, h]

/-- A carriage return is ignored as a line feed is, in a comment and outside. -/
theorem ignored?_feed (inComment : Bool) (c : Char) :
    ignored? inComment (feed c) = ignored? inComment c := by
  cases hLine : isLineEnd c with
  | false => rw [feed_of_content hLine]
  | true =>
      have hFeed : isLineEnd '\n' = true := rfl
      rw [feed_of_lineEnd hLine, ignored?_lineEnd hLine, ignored?_lineEnd hFeed]

/-- A gap begins as the text does, if there is one. -/
theorem head?_spanIgnored {inComment : Bool} {c : Char} {cs : List Char}
    (h : (spanIgnored inComment cs).1.head? = some c) : cs.head? = some c := by
  rw [← spanIgnored_append inComment cs, List.head?_append, h, Option.some_or]

/-- The same is ignored, with the line ends replaced in it. -/
theorem spanIgnored_withFeeds (inComment : Bool) (cs : List Char) :
    spanIgnored inComment (withFeeds cs) =
      (withFeeds (spanIgnored inComment cs).1, withFeeds (spanIgnored inComment cs).2) := by
  have hFeed : isLineEnd '\n' = true := rfl
  induction cs generalizing inComment with
  | nil => rfl
  | cons c cs ih =>
      by_cases hPair : c = '\r' ∧ cs.head? = some '\n'
      · obtain ⟨rfl, hNext⟩ := hPair
        -- Both texts go on behind the line feed, and no comment does.
        obtain ⟨rest, rfl⟩ := List.head?_eq_some_iff.1 hNext
        have hGap : (spanIgnored false ('\n' :: rest)).1.head? = some '\n' := by
          rw [spanIgnored_cons, ignored?_lineEnd hFeed]
          rfl
        have hReturn : isLineEnd '\r' = true := rfl
        have hSame : spanIgnored inComment (withFeeds ('\n' :: rest)) =
            spanIgnored false (withFeeds ('\n' :: rest)) := by
          rw [withFeeds_newline, spanIgnored_cons, spanIgnored_cons, ignored?_lineEnd hFeed,
            ignored?_lineEnd hFeed]
        rw [withFeeds_return hNext, hSame, ih, spanIgnored_cons inComment '\r',
          ignored?_lineEnd hReturn]
        simp only [withFeeds_return hGap]
      · have hSplit : c = '\r' → cs.head? ≠ some '\n' := fun hc hNext => hPair ⟨hc, hNext⟩
        rw [withFeeds_cons hSplit, spanIgnored_cons, spanIgnored_cons, ignored?_feed]
        cases ignored? inComment c with
        | none => simp only [withFeeds_nil, withFeeds_cons hSplit]
        | some goesOn =>
            have hGap : c = '\r' → (spanIgnored goesOn cs).1.head? ≠ some '\n' :=
              fun hc hNext => hSplit hc (head?_spanIgnored hNext)
            simp only [ih, withFeeds_cons hGap]

/-- A dot that may stand apart from others is found as before. -/
theorem spanDot?_withFeeds (cs : List Char) : spanDot? (withFeeds cs) =
    (spanDot? cs).map fun split => (split.1, withFeeds split.2) := by
  rw [spanDot?, spanDot?, dropWhile_withFeeds rfl rfl, takeWhile_withFeeds rfl rfl]
  rcases withFeeds_cases (cs.dropWhile isSpace) with h | ⟨c, rest, h, hLine, hFeeds⟩ |
    ⟨c, rest, more, h, hLine, hFeeds⟩
  · rw [h]
    rfl
  · rw [hFeeds, h]
    by_cases hDot : c = '.'
    · rw [hDot]
      rfl
    · simp [hDot]
  · have hDot : c ≠ '.' := by
      rintro rfl
      cases hLine
    rw [hFeeds, h]
    simp [hDot]

/-- A dot and the blanks before it stand in one line. -/
theorem spanDot?_content {cs dot rest : List Char} (h : spanDot? cs = some (dot, rest)) :
    ∀ c ∈ dot, isLineEnd c = false := by
  unfold spanDot? at h
  split at h
  · cases h
    intro c hc
    rcases List.mem_append.1 hc with hSpace | hDot
    · have hIsSpace := List.mem_takeWhile_imp hSpace
      rw [isSpace, Bool.or_eq_true, beq_iff_eq, beq_iff_eq] at hIsSpace
      rcases hIsSpace with rfl | rfl <;> rfl
    · rw [List.mem_singleton.1 hDot]
      rfl
  · cases h

/-- What a scan splits off a text whose lines end in line feeds. -/
def Scan.withFeeds (found : Scan) : Scan :=
  ⟨found.kind, Text.withFeeds found.lexeme, Text.withFeeds found.rest⟩

/-- Dots are scanned alike, faulty or not. -/
theorem scanDots_withFeeds (cs : List Char) :
    scanDots (withFeeds cs) = (scanDots cs).withFeeds := by
  have hTwo : ∀ c ∈ ['.', '.'], isLineEnd c = false := by simp [isLineEnd]
  have hOne : ∀ c ∈ ['.'], isLineEnd c = false := by simp [isLineEnd]
  have hOther (h : ∀ rest, cs = '.' :: '.' :: rest → False) (rest : List Char) :
      withFeeds cs = '.' :: '.' :: rest → False := by
    intro hFeeds
    obtain ⟨more, hMore⟩ := (prefix_withFeeds hTwo cs).1 (by rw [hFeeds]; exact ⟨rest, rfl⟩)
    exact h more hMore.symm
  fun_cases scanDots cs with
  | case1 rest =>
      rw [withFeeds_content rfl, withFeeds_content rfl, scanDots]
      rfl
  | case2 cs hDots hSecond =>
      rw [scanDots.eq_2 _ (hOther hDots), spanDot?_withFeeds, hSecond, Scan.withFeeds,
        withFeeds_of_content hOne]
      rfl
  | case3 cs hDots second rest hSecond third after hThird =>
      have hContent : ∀ c ∈ '.' :: (second ++ third), isLineEnd c = false :=
        List.forall_mem_cons.2 ⟨rfl, List.forall_mem_append.2
          ⟨spanDot?_content hSecond, spanDot?_content hThird⟩⟩
      rw [scanDots.eq_2 _ (hOther hDots), spanDot?_withFeeds, hSecond, Scan.withFeeds,
        withFeeds_of_content hContent]
      simp only [Option.map_some, spanDot?_withFeeds, hThird]
  | case4 cs hDots second rest hSecond hThird =>
      have hContent : ∀ c ∈ '.' :: second, isLineEnd c = false :=
        List.forall_mem_cons.2 ⟨rfl, spanDot?_content hSecond⟩
      rw [scanDots.eq_2 _ (hOther hDots), spanDot?_withFeeds, hSecond, Scan.withFeeds,
        withFeeds_of_content hContent]
      simp only [Option.map_some, spanDot?_withFeeds, hThird, Option.map_none]

/-- A part of a number, and what follows it with line feeds. -/
def NumberPart.withFeeds (found : NumberPart) : NumberPart :=
  found.map fun split => (split.1, Text.withFeeds split.2)

theorem spanDigits_withFeeds (fault : NumberFault) (cs : List Char) :
    spanDigits fault (withFeeds cs) = (spanDigits fault cs).withFeeds := by
  rw [spanDigits, spanDigits, startsWithDigit_withFeeds, takeWhile_withFeeds rfl rfl,
    dropWhile_withFeeds rfl rfl]
  split <;> rfl

theorem spanWhole_withFeeds (cs : List Char) :
    spanWhole (withFeeds cs) = (spanWhole cs).withFeeds := by
  fun_cases spanWhole cs with
  | case1 cs hDigit =>
      rw [withFeeds_content rfl, spanWhole, startsWithDigit_withFeeds, if_pos hDigit]
      rfl
  | case2 cs hDigit =>
      rw [withFeeds_content rfl, spanWhole, startsWithDigit_withFeeds, if_neg hDigit]
      rfl
  | case3 cs hZero =>
      rw [spanWhole.eq_2 _ (not_withFeeds_cons rfl hZero), takeWhile_withFeeds rfl rfl,
        dropWhile_withFeeds rfl rfl]
      rfl

theorem spanFraction_withFeeds (cs : List Char) :
    spanFraction (withFeeds cs) = (spanFraction cs).withFeeds := by
  fun_cases spanFraction cs with
  | case1 cs =>
      rw [withFeeds_content rfl, withFeeds_content rfl]
      rfl
  | case2 cs hDot =>
      rw [withFeeds_content rfl, spanFraction.eq_2 _ (not_withFeeds_cons rfl hDot),
        spanDigits_withFeeds]
      cases spanDigits .noFractionDigit cs <;> rfl
  | case3 cs hDots hDot =>
      have hFeeds := not_withFeeds_cons rfl hDot
      rw [spanFraction.eq_3 _ (fun rest => hFeeds ('.' :: rest)) hFeeds]
      rfl

theorem spanSign_withFeeds (cs : List Char) :
    spanSign (withFeeds cs) = ((spanSign cs).1, withFeeds (spanSign cs).2) := by
  fun_cases spanSign cs with
  | case1 cs | case2 cs =>
      rw [withFeeds_content rfl]
      rfl
  | case3 cs hPlus hMinus =>
      rw [spanSign.eq_3 _ (not_withFeeds_cons rfl hPlus) (not_withFeeds_cons rfl hMinus)]

/-- The exponent of a number has no line end in it. -/
theorem spanExponent_withFeeds (cs : List Char) :
    spanExponent (withFeeds cs) = (spanExponent cs).withFeeds := by
  rcases withFeeds_cases cs with rfl | ⟨c, rest, rfl, hLine, hFeeds⟩ |
    ⟨c, rest, more, rfl, hLine, hFeeds⟩
  · rfl
  · rw [hFeeds, spanExponent, spanExponent]
    by_cases hMark : (c == 'e' || c == 'E') = true
    · simp only [if_pos hMark, spanSign_withFeeds, spanDigits_withFeeds]
      cases spanDigits .noExponentDigit (spanSign rest).2 <;> rfl
    · rw [if_neg hMark, if_neg hMark, ← hFeeds]
      rfl
  · have hMark : (c == 'e' || c == 'E') = false :=
      not_of_lineEnd (p := fun c => c == 'e' || c == 'E') rfl rfl hLine
    rw [hFeeds, spanExponent, spanExponent, hMark, ← hFeeds]
    rfl

theorem mayFollowNumber_withFeeds (cs : List Char) :
    mayFollowNumber (withFeeds cs) = mayFollowNumber cs := by
  rcases withFeeds_cases cs with rfl | ⟨c, rest, rfl, hLine, hFeeds⟩ |
    ⟨c, rest, more, rfl, hLine, hFeeds⟩
  · rfl
  · rw [hFeeds, mayFollowNumber, mayFollowNumber]
  · have hFollower : (c == '.' || isNameStart c) = false :=
      not_of_lineEnd (p := fun c => c == '.' || isNameStart c) rfl rfl hLine
    rw [hFeeds, mayFollowNumber, mayFollowNumber, hFollower]
    rfl

/-- A number ends at a line end of either kind, and a fault of one is the same. -/
theorem spanNumber_withFeeds (cs : List Char) :
    spanNumber (withFeeds cs) = (spanNumber cs).withFeeds := by
  rw [spanNumber, spanNumber, spanWhole_withFeeds]
  cases spanWhole cs with
  | error fault => rfl
  | ok whole =>
      simp only [NumberPart.withFeeds, Except.map, bind, Except.bind, spanFraction_withFeeds]
      cases spanFraction whole.2 with
      | error fault => rfl
      | ok fraction =>
          simp only [NumberPart.withFeeds, Except.map, spanExponent_withFeeds]
          cases spanExponent fraction.2 with
          | error fault => rfl
          | ok exponent =>
              simp only [mayFollowNumber_withFeeds]
              split <;> rfl

/-- A number or the fault in place of one is scanned alike. -/
theorem scanNumber_withFeeds {sign : List Char} (hSign : sign = [] ∨ sign = ['-'])
    {cs : List Char} (hDigit : startsWithDigit cs = true) :
    scanNumber sign (withFeeds cs) = (scanNumber sign cs).withFeeds := by
  rw [scanNumber, scanNumber, spanNumber_withFeeds]
  cases hSpan : spanNumber cs with
  | error fault =>
      have hTail : ∀ c ∈ sign ++ cs.takeWhile isNumberTail, isNumberTail c = true := by
        intro c hc
        rcases List.mem_append.1 hc with hMark | hRun
        · rcases hSign with rfl | rfl
          · cases hMark
          · rw [List.mem_singleton.1 hMark]
            rfl
        · exact List.mem_takeWhile_imp hRun
      simp only [NumberPart.withFeeds, Except.map, Scan.withFeeds, takeWhile_withFeeds
        (p := isNumberTail) rfl rfl, dropWhile_withFeeds (p := isNumberTail) rfl rfl,
        withFeeds_of_content (content_of_class rfl rfl hTail)]
  | ok split =>
      obtain ⟨digits, rest⟩ := split
      obtain ⟨⟨whole, fraction, exponent, hWhole, hFraction, hExponent, rfl⟩, -⟩ :=
        isNumber_of_spanNumber hDigit hSpan
      have hNumber : IsNumber (sign ++ (whole ++ fraction ++ exponent)) :=
        ⟨sign, whole, fraction, exponent, hSign, hWhole, hFraction, hExponent, rfl⟩
      simp only [NumberPart.withFeeds, Except.map, Scan.withFeeds,
        withFeeds_of_content (content_of_class rfl rfl hNumber.tail)]

/-- A character that is no end and no escape is passed over in a string. -/
theorem spanString_char {c : Char} {cs : List Char} (hQuote : c ≠ '"')
    (hEscape : c = '\\' → cs = []) (hLine : isLineEnd c = false) :
    spanString (c :: cs) =
      ((spanString cs).1, c :: (spanString cs).2.1, (spanString cs).2.2) := by
  rw [spanString.eq_4 c cs hQuote, if_neg (by rw [hLine]; decide)]
  rintro d rest hc rfl
  cases hEscape hc

/-- A quoted string is closed or ends with its line, at a line end of either kind. -/
theorem spanString_withFeeds (cs : List Char) : spanString (withFeeds cs) =
    ((spanString cs).1, (spanString cs).2.1, withFeeds (spanString cs).2.2) := by
  fun_induction spanString cs with
  | case1 => rfl
  | case2 cs => rw [withFeeds_content rfl, spanString]
  | case3 c cs hLine =>
      obtain ⟨more, hFeeds⟩ := exists_withFeeds_lineEnd hLine cs
      rw [withFeeds_content rfl, hFeeds, spanString]
      rfl
  | case4 c cs hLine ending inside rest hSpan ih =>
      have hContent : isLineEnd c = false := Bool.eq_false_iff.2 hLine
      rw [hSpan] at ih
      rw [withFeeds_content rfl, withFeeds_content hContent, spanString, if_neg hLine, ih]
  | case5 c cs hQuote hEscape hLine =>
      obtain ⟨more, hFeeds⟩ := exists_withFeeds_lineEnd hLine cs
      rw [hFeeds]
      rfl
  | case6 c cs hQuote hEscape hLine ending inside rest hSpan ih =>
      have hContent : isLineEnd c = false := Bool.eq_false_iff.2 hLine
      have hLone : c = '\\' → withFeeds cs = [] := by
        intro hc
        cases cs with
        | nil => rfl
        | cons d cs => exact (hEscape d cs hc rfl).elim
      rw [hSpan] at ih
      rw [withFeeds_content hContent, spanString_char hQuote hLone hContent, ih]

/-- A block string is closed at the same place and keeps its lines, with the line ends replaced. -/
theorem spanBlockString_withFeeds (cs : List Char) : spanBlockString (withFeeds cs) =
    ((spanBlockString cs).1, withFeeds (spanBlockString cs).2.1,
      withFeeds (spanBlockString cs).2.2) := by
  fun_induction spanBlockString cs with
  | case1 => rfl
  | case2 cs closed inside rest hSpan ih =>
      have hFirst := withFeeds_lead escapedQuotes_content cs
      have hInside := withFeeds_lead escapedQuotes_content inside
      simp only [List.cons_append, List.nil_append] at hFirst hInside
      rw [hSpan] at ih
      rw [hFirst, hInside, spanBlockString, ih]
  | case3 cs =>
      have hFirst := withFeeds_lead quotes_content cs
      simp only [List.cons_append, List.nil_append] at hFirst
      rw [hFirst, withFeeds_of_content quotes_content, spanBlockString]
  | case4 c cs hEscape hClose closed inside rest hSpan ih =>
      have hHead {d : Char} (h : inside.head? = some d) : cs.head? = some d := by
        have hAppend := spanBlockString_append cs
        rw [hSpan] at hAppend
        rw [← hAppend, List.head?_append, h, Option.some_or]
      rw [hSpan] at ih
      by_cases hPair : c = '\r' ∧ cs.head? = some '\n'
      · obtain ⟨rfl, hNext⟩ := hPair
        have hInside : inside.head? = some '\n' := by
          obtain ⟨more, rfl⟩ := List.head?_eq_some_iff.1 hNext
          rw [spanBlockString_char (by simp) (by simp)] at hSpan
          cases hSpan
          rfl
        rw [withFeeds_return hNext, withFeeds_return hInside, ih]
      · have hSplit : c = '\r' → cs.head? ≠ some '\n' := fun hc hNext => hPair ⟨hc, hNext⟩
        have hRest : c = '\r' → inside.head? ≠ some '\n' :=
          fun hc hNext => hSplit hc (hHead hNext)
        have hNotClose : ¬ ['"', '"', '"'] <+: c :: cs := by
          rintro ⟨more, hMore⟩
          obtain ⟨hc, hcs⟩ := List.cons.inj hMore
          exact hClose more hc.symm hcs.symm
        have hNotEscape : ¬ ['\\', '"', '"', '"'] <+: c :: cs := by
          rintro ⟨more, hMore⟩
          obtain ⟨hc, hcs⟩ := List.cons.inj hMore
          exact hEscape more hc.symm hcs.symm
        have hFeeds := withFeeds_cons hSplit
        rw [← prefix_withFeeds quotes_content, hFeeds] at hNotClose
        rw [← prefix_withFeeds escapedQuotes_content, hFeeds] at hNotEscape
        rw [hFeeds, spanBlockString_char hNotClose hNotEscape, ih, withFeeds_cons hRest]

/-- A string of either form or its fault is scanned alike. -/
theorem scanString_withFeeds (start : Position) (cs : List Char) :
    scanString start (withFeeds cs) = (scanString start cs).withFeeds := by
  have hTwo : ∀ c ∈ ['"', '"'], isLineEnd c = false := by simp [isLineEnd]
  fun_cases scanString start cs with
  | case1 cs closed inside rest hSpan =>
      have hInside := withFeeds_lead quotes_content inside
      simp only [List.cons_append, List.nil_append] at hInside
      rw [withFeeds_content rfl, withFeeds_content rfl, scanString, spanBlockString_withFeeds,
        hSpan, Scan.withFeeds, hInside]
  | case2 cs hBlock ending inside rest hSpan kind =>
      have hFeeds (rest : List Char) : withFeeds cs = '"' :: '"' :: rest → False := by
        intro h
        obtain ⟨more, hMore⟩ := (prefix_withFeeds hTwo cs).1 (by rw [h]; exact ⟨rest, rfl⟩)
        exact hBlock more hMore.symm
      have hContent : ∀ c ∈ '"' :: inside, isLineEnd c = false := by
        have hInside := spanString_content cs
        rw [hSpan] at hInside
        exact List.forall_mem_cons.2 ⟨rfl, hInside⟩
      rw [scanString.eq_2 _ _ hFeeds, spanString_withFeeds, hSpan, Scan.withFeeds,
        withFeeds_of_content hContent]

/-- The scan of a text whose lines end in line feeds splits off the same token. -/
theorem scan_withFeeds (start : Position) {c : Char} (hLine : isLineEnd c = false)
    (cs : List Char) : scan start c (withFeeds cs) = (scan start c cs).withFeeds := by
  have hOne : ∀ d ∈ [c], isLineEnd d = false := List.forall_mem_singleton.2 hLine
  fun_cases scan start c cs with
  | case1 kind hPunctuator =>
      rw [scan, hPunctuator, Scan.withFeeds, withFeeds_of_content hOne]
  | case2 hPunctuator hDot => simp [scan, hPunctuator, hDot, scanDots_withFeeds]
  | case3 hPunctuator hDot hQuote => simp [scan, hPunctuator, hDot, hQuote, scanString_withFeeds]
  | case4 hPunctuator hDot hQuote hName =>
      have hContent : ∀ d ∈ c :: cs.takeWhile isNameContinue, isLineEnd d = false :=
        List.forall_mem_cons.2 ⟨hLine,
          content_of_class (p := isNameContinue) rfl rfl fun _ => List.mem_takeWhile_imp⟩
      simp [scan, hPunctuator, hDot, hQuote, hName, Scan.withFeeds, withFeeds_of_content hContent,
        takeWhile_withFeeds (p := isNameContinue) rfl rfl,
        dropWhile_withFeeds (p := isNameContinue) rfl rfl]
  | case5 hPunctuator hDot hQuote hName hMinus hDigit =>
      have hNumber := scanNumber_withFeeds (.inr rfl) hDigit
      simp [scan, hPunctuator, hDot, hQuote, hName, hMinus, startsWithDigit_withFeeds, hDigit,
        hNumber]
  | case6 hPunctuator hDot hQuote hName hMinus hDigit =>
      have hSign : ∀ d ∈ ['-'], isLineEnd d = false := by simp [isLineEnd]
      simp [scan, hPunctuator, hDot, hQuote, hName, hMinus, startsWithDigit_withFeeds, hDigit,
        Scan.withFeeds, withFeeds_of_content hSign]
  | case7 hPunctuator hDot hQuote hName hMinus hDigit =>
      have hNumber := scanNumber_withFeeds (.inl rfl) (show startsWithDigit (c :: cs) from hDigit)
      rw [withFeeds_content hLine] at hNumber
      simp [scan, hPunctuator, hDot, hQuote, hName, hMinus, hDigit, hNumber]
  | case8 hPunctuator hDot hQuote hName hMinus hDigit =>
      simp [scan, hPunctuator, hDot, hQuote, hName, hMinus, hDigit, Scan.withFeeds,
        withFeeds_of_content hOne]

/-- Whether two tokens are the same up to the offsets in them and the ends of the lines in them:
their kinds, their lines and columns, and what they say if they are strings. -/
structure SameButLineEnds (token other : Token) : Prop where
  kind : token.kind.relocate Position.place = other.kind.relocate Position.place
  start : token.start.place = other.start.place
  stop : token.stop.place = other.stop.place
  value : token.kind = .string → StringLiteral.value token.text = StringLiteral.value other.text

/-- Lines and columns are the same; a single carriage return counts as a line end. -/
theorem place_walk_withFeeds (cs : List Char) :
    (Cursor.walk {} cs).position.place = (Cursor.walk {} (withFeeds cs)).position.place :=
  Cursor.place_walk 0 0 0 [] cs

/-- Scans at one place give tokens of one kind, up to offsets. -/
theorem kind_scan_place {start other : Position} (h : start.place = other.place) (c : Char)
    (cs : List Char) : (scan start c cs).kind.relocate Position.place =
      (scan other c cs).kind.relocate Position.place := by
  have hStart := scan_relocate Position.place start c cs
  rw [h, scan_relocate Position.place other c cs] at hStart
  injection hStart with hKind
  exact hKind.symm

/-- What a scan splits off does not depend on where it starts. -/
theorem scan_place (start other : Position) (c : Char) (cs : List Char) :
    (scan start c cs).lexeme = (scan other c cs).lexeme ∧
      (scan start c cs).rest = (scan other c cs).rest := by
  rw [show scan start c cs = _ from scan_relocate (fun _ => start) other c cs]
  exact ⟨rfl, rfl⟩

/-- Whether a text may be cut depends on what stands next to the cut alone. -/
theorem keepsPairs_append {before lexeme rest : List Char} (h : KeepsPairs lexeme rest)
    (hLexeme : lexeme ≠ []) : KeepsPairs (before ++ lexeme) rest := by
  intro hLast
  rw [List.getLast?_append, List.getLast?_eq_some_getLast hLexeme, Option.some_or,
    ← List.getLast?_eq_some_getLast hLexeme] at hLast
  exact h hLast

/-- What is ignored does not part a carriage return from its line feed. -/
theorem keepsPairs_gap {before : List Char} {cs : List Char} (h : KeepsPairs before cs) :
    KeepsPairs before (spanIgnored false cs).1 := by
  intro hLast hNext
  exact h hLast (head?_spanIgnored hNext)

/-- The text of a token may be cut out of what it stands in. -/
theorem keepsPairs_around (start : Position) (before : List Char) {c : Char}
    (hLine : isLineEnd c = false) (rest : List Char) :
    KeepsPairs before (scan start c rest).lexeme ∧
      KeepsPairs (before ++ (scan start c rest).lexeme) (scan start c rest).rest := by
  have hReturn : c ≠ '\r' := by
    rintro rfl
    cases hLine
  refine ⟨fun _ hNext => ?_, keepsPairs_append (keepsPairs_scan start rest hReturn)
    (scan_lexeme_ne_nil start c rest)⟩
  obtain ⟨more, hMore⟩ := List.head?_eq_some_iff.1 hNext
  have hAll := scan_lexeme_append_rest start c rest
  rw [hMore] at hAll
  obtain ⟨rfl, -⟩ := List.cons.inj hAll
  cases hLine

/-- Scans at places that differ in offsets give the same token when lines end in line feeds. -/
theorem sameButLineEnds_scan (passed : List Char) {c : Char} (cs : List Char)
    (hLine : isLineEnd c = false) :
    let start := (Cursor.walk {} passed).position
    let found := scan start c cs
    let other := (Cursor.walk {} (withFeeds passed)).position
    let same := scan other c (withFeeds cs)
    same.lexeme = withFeeds found.lexeme ∧ same.rest = withFeeds found.rest ∧
      SameButLineEnds
        ⟨found.kind, ⟨start, (Cursor.walk {} (passed ++ found.lexeme)).position⟩,
          String.ofList found.lexeme⟩
        ⟨same.kind, ⟨other, (Cursor.walk {} (withFeeds (passed ++ found.lexeme))).position⟩,
          String.ofList same.lexeme⟩ := by
  intro start found other same
  have hPlace : start.place = other.place := place_walk_withFeeds passed
  have hSame : same = (scan other c cs).withFeeds := scan_withFeeds other hLine cs
  obtain ⟨hSplit, hLeft⟩ := scan_place other start c cs
  have hLexeme : same.lexeme = withFeeds found.lexeme := by
    rw [hSame, Scan.withFeeds, hSplit]
  have hRest : same.rest = withFeeds found.rest := by
    rw [hSame, Scan.withFeeds, hLeft]
  refine ⟨hLexeme, hRest, ?_⟩
  constructor
  case kind =>
    have hKind : same.kind = (scan other c cs).kind := by
      rw [hSame]
      rfl
    show found.kind.relocate _ = same.kind.relocate _
    rw [hKind]
    exact kind_scan_place hPlace c cs
  case start => exact hPlace
  case stop => exact place_walk_withFeeds (passed ++ found.lexeme)
  case value =>
    intro (hString : found.kind = .string)
    have hError : found.kind.isError = false := by
      rw [hString]
      rfl
    obtain ⟨hFound, -⟩ := lexeme_scan hError
    show StringLiteral.value (String.ofList found.lexeme) =
      StringLiteral.value (String.ofList same.lexeme)
    rw [hString] at hFound
    rw [hLexeme]
    exact hFound.value_withFeeds.symm

/-- Lexing on from where `passed` ends gives the same tokens when lines end in line feeds. -/
theorem sameButLineEnds_tokensFrom (passed cs : List Char) (hPairs : KeepsPairs passed cs) :
    List.Forall₂ SameButLineEnds (tokensFrom (Cursor.walk {} passed) cs)
      (tokensFrom (Cursor.walk {} (withFeeds passed)) (withFeeds cs)) := by
  induction hLength : cs.length using Nat.strong_induction_on generalizing passed cs with
  | _ length ih =>
      subst hLength
      obtain ⟨before, hBefore⟩ : ∃ before, passed ++ (spanIgnored false cs).1 = before := ⟨_, rfl⟩
      have hIgnored := spanIgnored_withFeeds false cs
      have hGap : (Cursor.walk {} (withFeeds passed)).walk (withFeeds (spanIgnored false cs).1) =
          Cursor.walk {} (withFeeds before) := by
        rw [← hBefore, withFeeds_append (keepsPairs_gap hPairs), Cursor.walk_append]
      cases hLeft : (spanIgnored false cs).2 with
      | nil =>
          have hFeeds : (spanIgnored false (withFeeds cs)).2 = [] := by
            rw [hIgnored, hLeft, withFeeds_nil]
          have hPlace := place_walk_withFeeds before
          rw [tokensFrom_nil hLeft, tokensFrom_nil hFeeds, hIgnored, hGap, ← Cursor.walk_append,
            hBefore]
          exact .cons ⟨rfl, hPlace, hPlace, fun hString => nomatch hString⟩ .nil
      | cons c rest =>
          have hLine : isLineEnd c = false := by
            have hNone := isGap_nil_spanIgnored false cs
            rw [hLeft] at hNone
            exact not_lineEnd_of_isGap hNone
          have hFeeds : (spanIgnored false (withFeeds cs)).2 = c :: withFeeds rest := by
            rw [hIgnored, hLeft, withFeeds_content hLine]
          obtain ⟨hFirst, hLast⟩ :=
            keepsPairs_around (Cursor.walk {} before).position before hLine rest
          have hScan := length_scan_rest_le (Cursor.walk {} before).position c rest
          obtain ⟨hLexeme, hRest, hSame⟩ := sameButLineEnds_scan before rest hLine
          rw [tokensFrom_cons hLeft, tokensFrom_cons hFeeds, hIgnored, hGap, ← Cursor.walk_append,
            hBefore]
          dsimp only
          generalize scan (Cursor.walk {} before).position c rest = found at *
          generalize scan (Cursor.walk {} (withFeeds before)).position c (withFeeds rest) = same
            at *
          have hStop : Cursor.walk {} (withFeeds (before ++ found.lexeme)) =
              (Cursor.walk {} (withFeeds before)).walk same.lexeme := by
            rw [withFeeds_append hFirst, Cursor.walk_append, hLexeme]
          have hShorter : found.rest.length < cs.length := by
            have hSpan := length_spanIgnored_le false cs
            rw [hLeft, List.length_cons] at hSpan
            omega
          have hMore := ih _ hShorter _ _ hLast rfl
          rw [Cursor.walk_append, hStop, ← hRest] at hMore
          rw [Cursor.walk_append, hStop] at hSame
          exact .cons hSame hMore

end Lexer

/-- How the lines of a text are ended does not matter. With a line feed for every pair of carriage
return and line feed and for every other carriage return, the text has the same lines, and its
tokens are the same up to the offsets in them: the same kinds of tokens, at the same lines and
columns, and strings that say the same. -/
theorem Source.withFeeds_alike (source : Source) :
    List.Forall₂ Lexer.SameButLineEnds (Token.lex source.text)
        (Token.lex source.withFeeds.text) ∧
      source.withFeeds.lineCount = source.lineCount ∧
      ∀ line, source.withFeeds.lineText? line = source.lineText? line := by
  have hChars : source.withFeeds.text.toList = Text.withFeeds source.text.toList :=
    source.chars_withFeeds
  have hPairs : Text.KeepsPairs [] source.text.toList := by
    intro h
    cases h
  have hTokens : List.Forall₂ Lexer.SameButLineEnds (Token.lex source.text)
      (Token.lex source.withFeeds.text) := by
    rw [Token.lex, Token.lex, hChars]
    exact Lexer.sameButLineEnds_tokensFrom [] source.text.toList hPairs
  exact ⟨hTokens, source.lineCount_withFeeds, source.lineText?_withFeeds⟩

example : (Token.lex "#\r\r\n\n\ra").map (fun token => token.start.place) =
    (Token.lex "#\n\n\n\na").map fun token => token.start.place := by
  decide +kernel

end GraphQL
