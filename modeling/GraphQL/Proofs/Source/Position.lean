import GraphQL.Proofs.Text.Slice
import GraphQL.Source.Basic

/-! Positions found in two ways. A cursor that moved over some characters stands at the position
that the lines of the text give to its offset, unless it stands inside a pair of carriage return and
line feed: there the cursor has begun the next line, and the lines of the text have not. -/
namespace GraphQL

namespace Text

@[simp] theorem size16_nil : size16 [] = 0 := rfl

@[simp] theorem size16_cons (c : Char) (cs : List Char) :
    size16 (c :: cs) = units16 c + size16 cs := rfl

@[simp] theorem size16_append (cs ds : List Char) : size16 (cs ++ ds) = size16 cs + size16 ds := by
  induction cs with
  | nil => simp
  | cons c cs ih =>
      simp only [List.cons_append, size16_cons, ih]
      omega

theorem takeBytes_append (cs ds : List Char) : takeBytes (byteSize cs) (cs ++ ds) = cs := by
  induction cs with
  | nil =>
      cases ds with
      | nil => rfl
      | cons d ds =>
          have hPos := Char.utf8Size_pos d
          rw [List.nil_append, takeBytes, if_neg (by rw [byteSize_nil]; omega)]
  | cons c cs ih => simp [takeBytes, ih]

/-- Whether the two parts of a text do not divide a pair of carriage return and line feed. -/
def KeepsPairs (before after : List Char) : Prop :=
  before.getLast? = some '\r' → after.head? ≠ some '\n'

theorem KeepsPairs.tail {c : Char} {before after : List Char} (h : KeepsPairs (c :: before) after) :
    KeepsPairs before after := by
  intro hLast
  apply h
  rw [List.getLast?_cons, hLast]
  rfl

theorem lines_pair (cs : List Char) : lines ('\r' :: '\n' :: cs) = ['\r', '\n'] :: lines cs := by
  rw [lines]

/-- A single line end is a line of its own if nothing is before it. -/
theorem lines_terminator {c : Char} {cs : List Char} (hLine : isLineEnd c = true)
    (hPair : c = '\r' → cs.head? ≠ some '\n') : lines (c :: cs) = [c] :: lines cs := by
  rw [lines.eq_3]
  · rw [if_pos hLine]
  · rintro rest rfl rfl
    exact hPair rfl rfl

/-- Any other character belongs to the first of the lines after it. -/
theorem lines_content {c : Char} {cs : List Char} (hLine : isLineEnd c = false) :
    lines (c :: cs) = match lines cs with
      | [] => [[c]]
      | line :: more => (c :: line) :: more := by
  rw [lines.eq_3]
  · exact if_neg (by rw [hLine]; decide)
  · rintro rest rfl -
    exact absurd hLine (by decide)

/-- The first line starts with the first character. -/
theorem exists_lines_cons (c : Char) (cs : List Char) :
    ∃ line more, lines (c :: cs) = (c :: line) :: more := by
  by_cases hLine : isLineEnd c = true
  · by_cases hPair : c = '\r' ∧ cs.head? = some '\n'
    · obtain ⟨rfl, hNext⟩ := hPair
      obtain ⟨rest, rfl⟩ := List.head?_eq_some_iff.1 hNext
      exact ⟨_, _, lines_pair rest⟩
    · exact ⟨_, _, lines_terminator hLine fun hc hNext => hPair ⟨hc, hNext⟩⟩
  · rw [lines_content (Bool.eq_false_iff.2 hLine)]
    split <;> exact ⟨_, _, rfl⟩

theorem exists_lines (cs : List Char) : ∃ line more, lines cs = line :: more := by
  cases cs with
  | nil => exact ⟨[], [], rfl⟩
  | cons c cs =>
      obtain ⟨line, more, h⟩ := exists_lines_cons c cs
      exact ⟨c :: line, more, h⟩

/-- A first line that others follow is not empty. -/
theorem line_ne_nil {cs line : List Char} {more : List (List Char)} (h : lines cs = line :: more)
    (hMore : more ≠ []) : line ≠ [] := by
  cases cs with
  | nil =>
      obtain ⟨-, rfl⟩ := List.cons.inj (h.symm.trans (rfl : lines [] = [[]]))
      exact absurd rfl hMore
  | cons c cs =>
      obtain ⟨first, others, hFirst⟩ := exists_lines_cons c cs
      obtain ⟨rfl, -⟩ := List.cons.inj (h.symm.trans hFirst)
      simp

/-- Characters that end no line lengthen the first one. -/
theorem lines_append {lead cs line : List Char} {more : List (List Char)}
    (hLead : ∀ c ∈ lead, isLineEnd c = false) (h : lines cs = line :: more) :
    lines (lead ++ cs) = (lead ++ line) :: more := by
  induction lead with
  | nil => exact h
  | cons c lead ih =>
      obtain ⟨hFirst, hRest⟩ := List.forall_mem_cons.1 hLead
      rw [List.cons_append, lines_content hFirst, ih hRest]
      rfl

end Text

open Text

namespace Source

/-- The position is looked for in the first line if it is there, or if that is the last. -/
theorem positionAmong_within {line offset n : Nat} {first : List Char} {more : List (List Char)}
    (h : more = [] ∨ n < Text.byteSize first) :
    positionAmong line offset n (first :: more) = ⟨line, (takeBytes n first).length,
      size16 (takeBytes n first), offset + Text.byteSize (takeBytes n first)⟩ := by
  rw [positionAmong, if_pos (by simpa using h)]

/-- Beyond the first line the position is one among the rest. -/
theorem positionAmong_beyond {line offset n : Nat} {first : List Char} {more : List (List Char)}
    (hMore : more ≠ []) (h : Text.byteSize first ≤ n) :
    positionAmong line offset n (first :: more) =
      positionAmong (line + 1) (offset + Text.byteSize first) (n - Text.byteSize first) more := by
  rw [positionAmong, if_neg (by simp [hMore, h])]

/-- The position behind the first characters of a line. -/
theorem positionAmong_lead {lead rest : List Char} (line offset : Nat)
    (hLead : ∀ c ∈ lead, isLineEnd c = false) :
    positionAmong line offset (Text.byteSize lead) (Text.lines (lead ++ rest)) =
      ⟨line, lead.length, size16 lead, offset + Text.byteSize lead⟩ := by
  obtain ⟨first, more, hLines⟩ := exists_lines rest
  have hWithin : more = [] ∨ Text.byteSize lead < Text.byteSize (lead ++ first) := by
    by_cases hMore : more = []
    · exact .inl hMore
    · obtain ⟨c, first, rfl⟩ := List.exists_cons_of_ne_nil (line_ne_nil hLines hMore)
      have hPos := Char.utf8Size_pos c
      right
      rw [byteSize_append, byteSize_cons]
      omega
  rw [lines_append hLead hLines, positionAmong_within hWithin, takeBytes_append]

/-- The positions behind a line are those among the lines after it. -/
theorem positionAmong_line {lead ending rest : List Char} (line offset n : Nat)
    (hLead : ∀ c ∈ lead, isLineEnd c = false)
    (hEnding : Text.lines (ending ++ rest) = ending :: Text.lines rest) :
    positionAmong line offset (Text.byteSize (lead ++ ending) + n)
        (Text.lines (lead ++ (ending ++ rest))) =
      positionAmong (line + 1) (offset + Text.byteSize (lead ++ ending)) n (Text.lines rest) := by
  obtain ⟨first, more, hLines⟩ := exists_lines rest
  rw [lines_append hLead hEnding,
    positionAmong_beyond (by rw [hLines]; simp) (Nat.le_add_right _ _), Nat.add_sub_cancel_left]

end Source

namespace Cursor

/-- The cursor behind the first characters of a line that starts at `offset`. -/
def inLine (line offset : Nat) (lead : List Char) : Cursor :=
  ⟨⟨line, lead.length, size16 lead, offset + byteSize lead⟩, false⟩

/-- A character that ends no line moves the column. -/
theorem step_content (line offset : Nat) (lead : List Char) {c : Char}
    (hLine : isLineEnd c = false) :
    (inLine line offset lead).step c = inLine line offset (lead ++ [c]) := by
  simp [step, inLine, hLine, Nat.add_assoc]

/-- A line end starts the next line, and a carriage return is remembered. -/
theorem step_terminator (line offset : Nat) (lead : List Char) {c : Char}
    (hLine : isLineEnd c = true) : (inLine line offset lead).step c =
      ⟨(inLine (line + 1) (offset + byteSize (lead ++ [c])) []).position, c == '\r'⟩ := by
  simp [step, inLine, hLine, Nat.add_assoc]

/-- A carriage return just passed matters to a line feed only. -/
theorem position_walk_afterReturn {cs : List Char} (h : cs.head? ≠ some '\n') (position : Position)
    (afterReturn : Bool) : (walk ⟨position, afterReturn⟩ cs).position =
      (walk ⟨position, false⟩ cs).position := by
  cases cs with
  | nil => rfl
  | cons c cs =>
      have hc : c ≠ '\n' := fun hc => h (by rw [hc]; rfl)
      have hStep : step ⟨position, afterReturn⟩ c = step ⟨position, false⟩ c := by
        simp [step, hc]
      rw [walk_cons, walk_cons, hStep]

/-- Over a pair of carriage return and line feed the cursor starts one line, not two. -/
theorem walk_pair (line offset : Nat) (lead cs : List Char) :
    (inLine line offset lead).walk ('\r' :: '\n' :: cs) =
      (inLine (line + 1) (offset + byteSize (lead ++ ['\r', '\n'])) []).walk cs := by
  have hReturn : isLineEnd '\r' = true := rfl
  have hFeed : isLineEnd '\n' = true := rfl
  rw [walk_cons, step_terminator line offset lead hReturn, walk_cons]
  congr 1
  simp [step, inLine, hFeed, Nat.add_assoc]

/-- The cursor that moved over some characters of a text stands where the lines of the text say. The
characters `lead` of the first line are behind it already. -/
theorem position_walk {lead passed rest : List Char} (line offset : Nat)
    (hLead : ∀ c ∈ lead, isLineEnd c = false) (hPairs : KeepsPairs passed rest) :
    ((inLine line offset lead).walk passed).position =
      Source.positionAmong line offset (byteSize (lead ++ passed))
        (lines (lead ++ (passed ++ rest))) := by
  induction passed using lines.induct generalizing lead line offset with
  | case1 =>
      rw [List.append_nil, List.nil_append, Source.positionAmong_lead line offset hLead]
      rfl
  | case2 passed ih =>
      have hEnding : lines (['\r', '\n'] ++ (passed ++ rest)) =
          ['\r', '\n'] :: lines (passed ++ rest) := lines_pair (passed ++ rest)
      have hBelow := Source.positionAmong_line line offset (byteSize passed) hLead hEnding
      have hSize : byteSize (lead ++ '\r' :: '\n' :: passed) =
          byteSize (lead ++ ['\r', '\n']) + byteSize passed := by simp [Nat.add_assoc]
      rw [walk_pair, hSize]
      exact (ih _ _ (by simp) hPairs.tail.tail).trans hBelow.symm
  | case3 c passed hPair hLine ih =>
      have hTail : c = '\r' → passed.head? ≠ some '\n' := by
        intro hc hNext
        obtain ⟨more, hMore⟩ := List.head?_eq_some_iff.1 hNext
        exact hPair more hc hMore
      have hNext : c = '\r' → (passed ++ rest).head? ≠ some '\n' := by
        intro hc
        cases passed with
        | nil =>
            rw [hc] at hPairs
            exact hPairs rfl
        | cons d passed => exact hTail hc
      have hEnding : lines ([c] ++ (passed ++ rest)) = [c] :: lines (passed ++ rest) :=
        lines_terminator hLine hNext
      have hBelow := Source.positionAmong_line line offset (byteSize passed) hLead hEnding
      have hSize : byteSize (lead ++ c :: passed) = byteSize (lead ++ [c]) + byteSize passed := by
        simp [Nat.add_assoc]
      have hFlag : ((⟨(inLine (line + 1) (offset + byteSize (lead ++ [c])) []).position,
          c == '\r'⟩ : Cursor).walk passed).position =
          ((inLine (line + 1) (offset + byteSize (lead ++ [c])) []).walk passed).position := by
        by_cases hc : c = '\r'
        · exact position_walk_afterReturn (hTail hc) _ _
        · rw [beq_false_of_ne hc]
          rfl
      rw [walk_cons, step_terminator line offset lead hLine, hSize, hFlag]
      exact (ih _ _ (by simp) hPairs.tail).trans hBelow.symm
  | case4 c passed hPair hLine hNone ih =>
      obtain ⟨first, more, hLines⟩ := exists_lines passed
      rw [hLines] at hNone
      cases hNone
  | case5 c passed hPair hLine first more hLines ih =>
      have hContent : isLineEnd c = false := Bool.eq_false_iff.2 hLine
      have hMore : ∀ d ∈ lead ++ [c], isLineEnd d = false :=
        List.forall_mem_append.2 ⟨hLead, List.forall_mem_singleton.2 hContent⟩
      have hRest := ih line offset hMore hPairs.tail
      rw [walk_cons, step_content line offset lead hContent, hRest]
      simp

end Cursor

/-- A cursor that moved over the start of a text stands at the position of its offset. -/
theorem Source.positionAt_walk {source : Source} {passed rest : List Char}
    (hText : source.text.toList = passed ++ rest) (hPairs : KeepsPairs passed rest) :
    source.positionAt (Cursor.walk {} passed).position.offset =
      (Cursor.walk {} passed).position := by
  have hLead : ∀ c ∈ ([] : List Char), isLineEnd c = false := by simp
  have hWalk := Cursor.position_walk 0 0 hLead hPairs
  have hOffset : (Cursor.walk {} passed).position.offset = Text.byteSize passed := by
    rw [Cursor.offset_walk, Nat.zero_add]
  rw [hOffset, Source.positionAt, Source.lines, Source.chars, hText]
  exact hWalk.symm

end GraphQL
