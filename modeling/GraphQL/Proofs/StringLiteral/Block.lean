import Mathlib.Data.List.TakeWhile
import GraphQL.Proofs.StringLiteral
import GraphQL.Proofs.Token.Run

/-! The values of block strings against the algorithm that the specification gives. The algorithm
that is used departs from it in two ways. It takes a line for blank if it has nothing but white
space of any kind, where the specification counts spaces and tabs alone; and it leaves a blank line
whole that is shorter than the common indentation, where the specification leaves nothing of it. -/
namespace GraphQL.StringLiteral

open Text Lexer

section Trim

variable {α β : Type}

/-- A list without the items at either end that `drops` accepts. -/
def trim (drops : α → Bool) (items : List α) : List α :=
  ((items.dropWhile drops).reverse.dropWhile drops).reverse

/-- To trim what was changed is to change what was trimmed by the condition after the change. -/
theorem trim_map (drops : β → Bool) (f : α → β) (items : List α) :
    trim drops (items.map f) = (trim (drops ∘ f) items).map f := by
  simp only [trim, List.dropWhile_map, ← List.map_reverse]

theorem dropWhile_congr {p q : α → Bool} {items : List α} (h : ∀ item ∈ items, p item = q item) :
    items.dropWhile p = items.dropWhile q := by
  induction items with
  | nil => rfl
  | cons item items ih =>
      obtain ⟨hFirst, hRest⟩ := List.forall_mem_cons.1 h
      rw [List.dropWhile_cons, List.dropWhile_cons, hFirst, ih hRest]

theorem trim_congr {p q : α → Bool} {items : List α} (h : ∀ item ∈ items, p item = q item) :
    trim p items = trim q items := by
  rw [trim, trim, dropWhile_congr h, dropWhile_congr]
  intro item hItem
  exact h item ((List.dropWhile_suffix q).subset (List.mem_reverse.1 hItem))

/-- An item that is not dropped keeps what comes after it. -/
theorem exists_dropWhile {p : α → Bool} {before : List α} {item : α}
    (h : ∃ other ∈ before ++ [item], p other = false) (after : List α) :
    ∃ kept, (before ++ item :: after).dropWhile p = kept ++ item :: after := by
  induction before with
  | nil =>
      obtain ⟨other, hOther, hStays⟩ := h
      obtain rfl := List.mem_singleton.1 hOther
      exact ⟨[], by simp [hStays]⟩
  | cons first before ih =>
      cases hFirst : p first with
      | false => exact ⟨first :: before, by simp [hFirst]⟩
      | true =>
          obtain ⟨other, hOther, hStays⟩ := h
          have hRest : other ∈ before ++ [item] := by
            rcases List.mem_cons.1 hOther with rfl | hRest
            · rw [hFirst] at hStays
              cases hStays
            · exact hRest
          obtain ⟨kept, hKept⟩ := ih ⟨other, hRest, hStays⟩
          exact ⟨kept, by rw [List.cons_append, List.dropWhile_cons_of_pos hFirst, hKept]⟩

/-- If an item is left, one up to it does not meet the condition. -/
theorem exists_stays {p : α → Bool} {items before after : List α} {item : α}
    (h : items.dropWhile p = before ++ item :: after) :
    ∃ other ∈ before ++ [item], p other = false := by
  have hFirst := List.head?_dropWhile_not p items
  rw [h] at hFirst
  cases before with
  | nil => exact ⟨item, by simp, hFirst⟩
  | cons first before => exact ⟨first, by simp, hFirst⟩

/-- The items that stay are those with one that is not dropped at or before them, and another at or
after them. -/
theorem mem_trim {drops : α → Bool} {items : List α} {item : α} :
    item ∈ trim drops items ↔ ∃ before after, items = before ++ item :: after ∧
      (∃ other ∈ before ++ [item], drops other = false) ∧
      ∃ other ∈ item :: after, drops other = false := by
  constructor
  · intro h
    obtain ⟨behind, ahead, hBack⟩ := List.append_of_mem (List.mem_reverse.1 h)
    have hItems := List.takeWhile_append_dropWhile (p := drops) (l := items)
    have hFront := congrArg List.reverse (List.takeWhile_append_dropWhile (p := drops)
      (l := (items.dropWhile drops).reverse))
    rw [hBack, List.reverse_reverse] at hFront
    simp only [List.reverse_append, List.reverse_cons, List.append_assoc, List.singleton_append]
      at hFront
    obtain ⟨other, hOther, hStays⟩ := exists_stays hFront.symm
    obtain ⟨last, hLast, hStaysLast⟩ := exists_stays hBack
    rw [← hFront, ← List.append_assoc] at hItems
    refine ⟨_, _, hItems.symm, ⟨other, ?_, hStays⟩, last, ?_, hStaysLast⟩
    · rw [List.append_assoc]
      exact List.mem_append_right _ hOther
    · rcases List.mem_append.1 hLast with hBehind | hItem
      · exact List.mem_cons_of_mem _ (List.mem_append_left _ (List.mem_reverse.2 hBehind))
      · rw [List.mem_singleton.1 hItem]
        exact List.mem_cons_self
  · rintro ⟨before, after, rfl, hBefore, hAfter⟩
    obtain ⟨kept, hKept⟩ := exists_dropWhile hBefore after
    have hBack : ∃ other ∈ after.reverse ++ [item], drops other = false := by
      simpa [or_comm] using hAfter
    obtain ⟨left, hLeft⟩ := exists_dropWhile hBack kept.reverse
    rw [trim, hKept, List.reverse_append, List.reverse_cons, List.append_assoc,
      List.singleton_append, hLeft]
    simp

end Trim

/-- The lines between the quotes of a block string, in which each escaped run of three quotes has
been replaced by the run. -/
def blockLines (inside : List Char) : List (List Char) :=
  (withFeeds (unescapeQuotes inside)).splitOn '\n'

/-- Whether a line has nothing but spaces and tabs. -/
def isSpaceLine (line : List Char) : Bool := line.all isSpace

/-- What an algorithm for block strings takes for a blank line, and what it leaves of a line whose
first characters are to be removed. -/
structure BlockRules where
  blank : List Char → Bool
  cut : Nat → List Char → List Char

namespace BlockRules

/-- The rules of the specification. -/
def standard : BlockRules := ⟨isSpaceLine, List.drop⟩

/-- The rules that the value of a block string follows. -/
def actual : BlockRules := ⟨isBlankLine, outdent⟩

variable (rules : BlockRules)

/-- The least indentation of the lines that are not blank, and 0 if all are. -/
def commonIndent (lines : List (List Char)) : Nat :=
  ((lines.filter fun line => !rules.blank line).map indent).min?.getD 0

/-- The lines without their common indentation. The first line has none. -/
def outdented : List (List Char) → List (List Char)
  | [] => []
  | first :: rest => first :: rest.map (rules.cut (rules.commonIndent rest))

/-- The value of a block string. -/
def value (inside : List Char) : List Char :=
  ['\n'].intercalate (trim rules.blank (rules.outdented (blockLines inside)))

end BlockRules

/-- The lines of a block string are those of its text once the marks are unescaped. -/
theorem blockLines_eq (inside : List Char) :
    blockLines inside = splitLines (unescapeQuotes inside) :=
  (splitLines_eq_splitOn_withFeeds _).symm

/-- The value of a block string is that of the rules that are in use. -/
theorem blockValue_eq (inside : List Char) :
    blockValue inside = BlockRules.actual.value inside := by
  rw [BlockRules.value, blockLines_eq, blockValue]
  cases splitLines (unescapeQuotes inside) <;> rfl

/-- A space or a tab is blank under either rule. -/
theorem isBlank_of_isSpace {c : Char} (h : isSpace c = true) : isBlank c = true := by
  simp only [isSpace, Bool.or_eq_true, beq_iff_eq] at h
  rcases h with rfl | rfl <;> decide

/-- A line of spaces and tabs is blank under either rule. -/
theorem isBlankLine_of_isSpaceLine {line : List Char} (h : isSpaceLine line = true) :
    isBlankLine line = true :=
  List.all_eq_true.2 fun c hc => isBlank_of_isSpace (List.all_eq_true.1 h c hc)

/-- A line is as much of one class as what is left of it when characters of the class are cut
off. -/
theorem all_drop {p : Char → Bool} {n : Nat} {line : List Char}
    (h : (line.take n).all p = true) : (line.drop n).all p = line.all p := by
  rw [← Bool.true_and ((line.drop n).all p), ← h, ← List.all_append, List.take_append_drop]

/-- What is cut off a line as its indentation are spaces and tabs. -/
theorem isSpaceLine_take_indent (line : List Char) :
    ∀ n ≤ indent line, isSpaceLine (line.take n) = true := by
  intro n hn
  rw [isSpaceLine, List.all_eq_true]
  intro c hc
  have hRun : line.take n <+: line.takeWhile isSpace :=
    List.prefix_of_prefix_length_le (List.take_prefix n line) (List.takeWhile_prefix _)
      (Nat.le_trans (List.length_take_le n line) hn)
  exact List.mem_takeWhile_imp (hRun.subset hc)

theorem indent_le_length (line : List Char) : indent line ≤ line.length :=
  (List.takeWhile_prefix _).length_le

/-- A line of spaces and tabs is all indentation. -/
theorem indent_of_isSpaceLine {line : List Char} (h : isSpaceLine line = true) :
    indent line = line.length := by
  rw [indent, List.takeWhile_eq_self_iff.2 (List.all_eq_true.1 h)]

/-- Indentation has one byte for each character, so bytes and characters count alike in it. -/
theorem utf8Size_of_isSpace {c : Char} (h : isSpace c = true) : c.utf8Size = 1 := by
  simp only [isSpace, Bool.or_eq_true, beq_iff_eq] at h
  rcases h with rfl | rfl <;> decide

/-- A line of spaces and tabs has as many bytes as characters. -/
theorem byteSize_of_isSpaceLine {line : List Char} (h : isSpaceLine line = true) :
    byteSize line = line.length :=
  byteSize_eq_length fun c hc => utf8Size_of_isSpace (List.all_eq_true.1 h c hc)

/-- As many bytes as there are spaces and tabs are cut off cleanly. -/
theorem outdent_of_le {n : Nat} {line : List Char} (h : n ≤ indent line) :
    outdent n line = line.drop n := by
  have hSize := byteSize_of_isSpaceLine (isSpaceLine_take_indent line n h)
  rw [List.length_take_of_le (Nat.le_trans h (indent_le_length line))] at hSize
  have hAfter := afterBytes?_append (line.take n) (line.drop n)
  rw [hSize, List.take_append_drop] at hAfter
  rw [outdent, hAfter, Option.getD_some]

/-- Spaces and tabs stay if there are fewer of them. -/
theorem outdent_of_lt {n : Nat} {line : List Char} (hSpace : isSpaceLine line = true)
    (h : line.length < n) : outdent n line = line := by
  rw [outdent, afterBytes?_of_lt (by rwa [byteSize_of_isSpaceLine hSpace]), Option.getD_none]

/-- A line loses the common indentation, unless it is blank and shorter than that: then it stays. -/
theorem outdent_cases {n : Nat} {line : List Char}
    (h : isSpaceLine line = false → n ≤ indent line) :
    outdent n line = line.drop n ∨
      isSpaceLine line = true ∧ line.length < n ∧ outdent n line = line := by
  by_cases hIndent : n ≤ indent line
  · exact .inl (outdent_of_le hIndent)
  · have hSpace : isSpaceLine line = true :=
      Bool.of_not_eq_false fun hNone => hIndent (h hNone)
    rw [indent_of_isSpaceLine hSpace, Nat.not_le] at hIndent
    exact .inr ⟨hSpace, hIndent, outdent_of_lt hSpace hIndent⟩

/-- No line that counts has less than the common indentation. -/
theorem BlockRules.commonIndent_le (rules : BlockRules) {lines : List (List Char)}
    {line : List Char} (hLine : line ∈ lines) (hBlank : rules.blank line = false) :
    rules.commonIndent lines ≤ indent line :=
  List.min?_getD_le_of_mem (List.mem_map_of_mem (List.mem_filter.2 ⟨hLine, by simp [hBlank]⟩))

/-- Whether a line that stands between two lines which are not blank has spaces or tabs, but fewer
than the common indentation. -/
def HasRaggedBlank (lines : List (List Char)) : Prop :=
  ∃ before line after, lines = before ++ line :: after ∧
    (∃ other ∈ before, isSpaceLine other = false) ∧
    (∃ other ∈ after, isSpaceLine other = false) ∧
    line ≠ [] ∧ line.length < BlockRules.standard.commonIndent lines.tail

/-- A line with what is left of it under either set of rules. -/
structure CutLine where
  whole : List Char
  actual : List Char
  standard : List Char

namespace CutLine

def uncut (line : List Char) : CutLine := ⟨line, line, line⟩

def cutAt (n : Nat) (line : List Char) : CutLine := ⟨line, outdent n line, line.drop n⟩

/-- The lines of a block string with what is left of each. -/
def ofLines : List (List Char) → List CutLine
  | [] => []
  | first :: rest =>
    uncut first :: rest.map (cutAt (BlockRules.standard.commonIndent rest))

/-- The lines from the first to the last that is not blank. -/
def kept (lines : List (List Char)) : List CutLine :=
  trim (fun line => isSpaceLine line.whole) (ofLines lines)

/-- A cut leaves a line blank or not, as it was. -/
structure Sound (line : CutLine) : Prop where
  actual_blank : isBlankLine line.actual = isSpaceLine line.whole
  standard_blank : isSpaceLine line.standard = isSpaceLine line.whole
  actual_subset : line.actual ⊆ line.whole
  standard_subset : line.standard ⊆ line.whole

/-- Where the two rules call the same lines blank, a line is cut alike but for short blank ones. -/
theorem sound_cutAt {n : Nat} {line : List Char} (hBlank : isBlankLine line = isSpaceLine line)
    (hIndent : isSpaceLine line = false → n ≤ indent line) : (cutAt n line).Sound := by
  have hTake : isSpaceLine (line.take n) = true := by
    cases hSpace : isSpaceLine line with
    | true =>
        exact List.all_eq_true.2 fun c hc =>
          List.all_eq_true.1 hSpace c (List.take_subset n line hc)
    | false => exact isSpaceLine_take_indent line n (hIndent hSpace)
  have hStandard : isSpaceLine (line.drop n) = isSpaceLine line := all_drop hTake
  have hDrop : isBlankLine (line.drop n) = isSpaceLine line :=
    (all_drop (isBlankLine_of_isSpaceLine hTake)).trans hBlank
  have hSubset : line.drop n ⊆ line := List.drop_subset n line
  rcases outdent_cases hIndent with hCut | ⟨hSpace, hShort, hWhole⟩
  · exact ⟨by rw [cutAt, hCut, hDrop], hStandard, by rw [cutAt, hCut]; exact hSubset, hSubset⟩
  · exact ⟨by rw [cutAt, hWhole, hBlank], hStandard,
      by rw [cutAt, hWhole]; exact List.Subset.refl _, hSubset⟩

theorem map_whole (lines : List (List Char)) : (ofLines lines).map whole = lines := by
  cases lines with
  | nil => rfl
  | cons first rest => simp [ofLines, uncut, cutAt, Function.comp_def]

/-- Lines are dropped at the ends and none are added. -/
theorem mem_of_mem_kept {lines : List (List Char)} {line : CutLine} (h : line ∈ kept lines) :
    line ∈ ofLines lines := by
  obtain ⟨before, after, hAll, -⟩ := mem_trim.1 h
  rw [hAll]
  exact List.mem_append_right _ List.mem_cons_self

theorem whole_mem {lines : List (List Char)} {line : CutLine} (h : line ∈ kept lines) :
    line.whole ∈ lines := by
  rw [← map_whole lines]
  exact List.mem_map_of_mem (mem_of_mem_kept h)

/-- Cut as the specification says, the lines are those of its rules. -/
theorem map_standard (lines : List (List Char)) :
    (ofLines lines).map standard = BlockRules.standard.outdented lines := by
  cases lines with
  | nil => rfl
  | cons first rest =>
      simp [ofLines, uncut, cutAt, Function.comp_def, BlockRules.outdented, BlockRules.standard]

/-- The two sets of rules leave the same of a line unless it is blank and short. -/
theorem short_of_ne {lines : List (List Char)} {line : CutLine} (hLine : line ∈ ofLines lines)
    (hDiffer : line.actual ≠ line.standard) :
    isSpaceLine line.whole = true ∧
      line.whole.length < BlockRules.standard.commonIndent lines.tail ∧ line.whole ≠ [] := by
  cases lines with
  | nil => cases hLine
  | cons first rest =>
      rcases List.mem_cons.1 hLine with rfl | hRest
      · exact absurd rfl hDiffer
      · obtain ⟨whole, hWhole, rfl⟩ := List.mem_map.1 hRest
        have hIndent := fun hNot : isSpaceLine whole = false =>
          BlockRules.standard.commonIndent_le hWhole hNot
        rcases outdent_cases hIndent with hCut | ⟨hBlank, hShort, -⟩
        · exact absurd hCut hDiffer
        · refine ⟨hBlank, hShort, ?_⟩
          rintro (rfl : whole = [])
          exact hDiffer (by simp [cutAt, outdent_of_lt hBlank hShort])

/-- The lines that stay and of which the two sets of rules leave different things are the blank ones
inside the text that are shorter than the common indentation. -/
theorem hasRaggedBlank_iff {lines : List (List Char)} :
    HasRaggedBlank lines ↔ ∃ line ∈ kept lines, line.actual ≠ line.standard := by
  constructor
  · rintro ⟨before, line, after, rfl, hBefore, hAfter, hNonempty, hShort⟩
    obtain ⟨first, before, rfl⟩ := List.exists_cons_of_ne_nil (show before ≠ [] by
      rintro rfl
      simp at hBefore)
    generalize hIndent :
      BlockRules.standard.commonIndent (first :: before ++ line :: after).tail = n at hShort
    have hBlank : isSpaceLine line = true := by
      refine Bool.of_not_eq_false fun hNot => ?_
      have hLeast : n ≤ indent line := by
        rw [← hIndent]
        exact BlockRules.standard.commonIndent_le (by simp) hNot
      have hLength := indent_le_length line
      omega
    have hAll : ofLines (first :: before ++ line :: after) =
        uncut first :: before.map (cutAt n) ++ cutAt n line :: after.map (cutAt n) := by
      rw [← hIndent]
      simp [ofLines]
    refine ⟨cutAt n line, mem_trim.2 ⟨_, _, hAll, ?_, ?_⟩, ?_⟩
    · obtain ⟨other, hOther, hStays⟩ := hBefore
      rcases List.mem_cons.1 hOther with rfl | hOther
      · exact ⟨uncut other, by simp, hStays⟩
      · exact ⟨cutAt n other, by simp [List.mem_map_of_mem hOther], hStays⟩
    · obtain ⟨other, hOther, hStays⟩ := hAfter
      exact ⟨cutAt n other, List.mem_cons_of_mem _ (List.mem_map_of_mem hOther), hStays⟩
    · show outdent n line ≠ line.drop n
      rwa [outdent_of_lt hBlank hShort, List.drop_of_length_le (Nat.le_of_lt hShort)]
  · rintro ⟨line, hKept, hDiffer⟩
    obtain ⟨before, after, hAll, ⟨other, hOther, hStays⟩, last, hLast, hLastStays⟩ :=
      mem_trim.1 hKept
    have hLines := map_whole lines
    rw [hAll, List.map_append, List.map_cons] at hLines
    obtain ⟨hBlank, hShort, hWhole⟩ := short_of_ne (mem_of_mem_kept hKept) hDiffer
    have hLeft : ∀ stays : CutLine, isSpaceLine stays.whole = false → stays ≠ line := by
      rintro stays hNot rfl
      rw [hBlank] at hNot
      cases hNot
    refine ⟨_, _, _, hLines.symm, ⟨other.whole, List.mem_map_of_mem ?_, hStays⟩,
      ⟨last.whole, List.mem_map_of_mem ?_, hLastStays⟩, hWhole, hShort⟩
    · simpa [hLeft other hStays] using hOther
    · simpa [hLeft last hLastStays] using hLast

section Plain

variable {lines : List (List Char)}
  (hPlain : ∀ line ∈ lines, isBlankLine line = true → isSpaceLine line = true)

include hPlain

theorem blank_eq {line : List Char} (h : line ∈ lines) : isBlankLine line = isSpaceLine line := by
  cases hSpace : isSpaceLine line with
  | true => exact isBlankLine_of_isSpaceLine hSpace
  | false =>
      rw [Bool.eq_false_iff]
      intro hBlank
      rw [hPlain line h hBlank] at hSpace
      cases hSpace

/-- Cut as the code does, the lines are those of its rules. -/
theorem map_actual : (ofLines lines).map actual = BlockRules.actual.outdented lines := by
  cases lines with
  | nil => rfl
  | cons first rest =>
      have hIndent :
          BlockRules.standard.commonIndent rest = BlockRules.actual.commonIndent rest := by
        rw [BlockRules.commonIndent, BlockRules.commonIndent]
        congr 3
        refine List.filter_congr fun line hLine => ?_
        show (!isSpaceLine line) = !isBlankLine line
        rw [blank_eq hPlain (List.mem_cons_of_mem _ hLine)]
      rw [ofLines, hIndent]
      simp [uncut, cutAt, Function.comp_def, BlockRules.outdented, BlockRules.actual]

theorem sound {line : CutLine} (h : line ∈ ofLines lines) : line.Sound := by
  cases lines with
  | nil => cases h
  | cons first rest =>
      rcases List.mem_cons.1 h with rfl | hRest
      · exact ⟨blank_eq hPlain List.mem_cons_self, rfl, List.Subset.refl _, List.Subset.refl _⟩
      · obtain ⟨whole, hWhole, rfl⟩ := List.mem_map.1 hRest
        exact sound_cutAt (blank_eq hPlain (List.mem_cons_of_mem _ hWhole)) fun hBlank =>
          BlockRules.standard.commonIndent_le hWhole hBlank

/-- The lines that the code keeps, cut as it cuts them. -/
theorem trim_actual :
    trim isBlankLine (BlockRules.actual.outdented lines) = (kept lines).map actual := by
  rw [← map_actual hPlain, trim_map, kept]
  congr 1
  exact trim_congr fun line hLine => (sound hPlain hLine).actual_blank

/-- The lines that the specification keeps, cut as it cuts them. -/
theorem trim_standard :
    trim isSpaceLine (BlockRules.standard.outdented lines) = (kept lines).map standard := by
  rw [← map_standard, trim_map, kept]
  congr 1
  exact trim_congr fun line hLine => (sound hPlain hLine).standard_blank

end Plain

end CutLine

/-- Lines can be told apart once they are joined. -/
theorem intercalate_inj {lines others : List (List Char)} (hLength : lines.length = others.length)
    (hLines : ∀ line ∈ lines, '\n' ∉ line) (hOthers : ∀ line ∈ others, '\n' ∉ line) :
    ['\n'].intercalate lines = ['\n'].intercalate others ↔ lines = others := by
  refine ⟨fun h => ?_, congrArg _⟩
  cases lines with
  | nil => exact (List.length_eq_zero_iff.1 hLength.symm).symm
  | cons line more =>
      have hNonempty : others ≠ [] := by
        rintro rfl
        cases hLength
      have hSplit := congrArg (List.splitOn '\n') h
      rwa [List.splitOn_intercalate _ hLines (List.cons_ne_nil _ _),
        List.splitOn_intercalate _ hOthers hNonempty] at hSplit

/-- Where white space is spaces and tabs, the value is that of the specification unless a blank
line inside the text is shorter than the common indentation. -/
theorem value_eq_standard_iff {inside : List Char}
    (hPlain : ∀ line ∈ blockLines inside, isBlankLine line = true → isSpaceLine line = true) :
    BlockRules.actual.value inside = BlockRules.standard.value inside ↔
      ¬ HasRaggedBlank (blockLines inside) := by
  have hFeeds (line : CutLine) (hLine : line ∈ CutLine.kept (blockLines inside)) :
      '\n' ∉ line.actual ∧ '\n' ∉ line.standard := by
    have hSound := CutLine.sound hPlain (CutLine.mem_of_mem_kept hLine)
    have hWhole := CutLine.whole_mem hLine
    rw [blockLines, ← splitLines_eq_splitOn_withFeeds] at hWhole
    exact ⟨fun hFeed => not_mem_splitLines hWhole (hSound.actual_subset hFeed),
      fun hFeed => not_mem_splitLines hWhole (hSound.standard_subset hFeed)⟩
  have hActual : BlockRules.actual.value inside =
      ['\n'].intercalate ((CutLine.kept (blockLines inside)).map CutLine.actual) :=
    congrArg _ (CutLine.trim_actual hPlain)
  have hStandard : BlockRules.standard.value inside =
      ['\n'].intercalate ((CutLine.kept (blockLines inside)).map CutLine.standard) :=
    congrArg _ (CutLine.trim_standard hPlain)
  rw [hActual, hStandard, intercalate_inj (by simp), List.map_inj_left,
    CutLine.hasRaggedBlank_iff]
  · simp only [not_exists, not_and, not_not, ne_eq]
  · exact List.forall_mem_map.2 fun line hLine => (hFeeds line hLine).1
  · exact List.forall_mem_map.2 fun line hLine => (hFeeds line hLine).2

/-- The block string with the given characters between its quotes. -/
def blockQuoted (inside : List Char) : String :=
  String.ofList (['"', '"', '"'] ++ (inside ++ ['"', '"', '"']))

/-- Two block strings are spelled alike only if they have the same inside. -/
theorem blockQuoted_inj {inside other : List Char} :
    blockQuoted inside = blockQuoted other ↔ inside = other := by
  refine ⟨fun h => ?_, congrArg _⟩
  exact List.append_cancel_right (List.append_cancel_left (String.ofList_injective h))

/-- A block string has the value that the rules in use give its inside. -/
theorem value_blockQuoted (inside : List Char) :
    value (blockQuoted inside) = .ok (String.ofList (BlockRules.actual.value inside)) := by
  rw [blockQuoted, value_block, blockValue_eq]

/-- A string token that starts with three quotes ends with three others. -/
theorem exists_block_of_lexeme {raw : String} (h : Lexeme .string raw.toList)
    (hBlock : isBlock raw = true) : ∃ inside, raw = blockQuoted inside := by
  generalize hText : raw.toList = lexeme at h
  obtain rfl : raw = String.ofList lexeme := by rw [← hText, String.ofList_toList]
  cases h with
  | punctuator hPunctuator => cases hPunctuator
  | string hInside =>
      rw [isBlock, String.toList_ofList] at hBlock
      cases hInside with
      | close => cases hBlock
      | escape hLine rest => cases hBlock
      | char hQuote hBackslash hLine rest =>
          obtain ⟨rest, hRest⟩ := List.isPrefixOf_iff_prefix.1 hBlock
          exact absurd (List.cons.inj (List.cons.inj hRest).2).1.symm hQuote
  | blockString hInside =>
      obtain ⟨body, rfl⟩ := hInside.exists_quotes
      exact ⟨body, rfl⟩

/-- Every block string of a text has a value, which is what the rules that are used make of its
lines. Where all white space is spaces and tabs, this is the value that the specification gives
exactly if no blank line inside the text is shorter than the common indentation. -/
theorem value_of_block {text : String} {token : Token} (hToken : token ∈ Token.lex text)
    (hKind : token.kind = .string) (hBlock : isBlock token.text = true) :
    ∃ inside, token.text = blockQuoted inside ∧
      value token.text = .ok (String.ofList (BlockRules.actual.value inside)) ∧
      ((∀ line ∈ blockLines inside, isBlankLine line = true → isSpaceLine line = true) →
        (value token.text = .ok (String.ofList (BlockRules.standard.value inside)) ↔
          ¬ HasRaggedBlank (blockLines inside))) := by
  have hLexeme := lexeme_of_mem_lex hToken ⟨by rw [hKind]; rfl, by rw [hKind]; nofun⟩
  rw [hKind] at hLexeme
  obtain ⟨inside, hText⟩ := exists_block_of_lexeme hLexeme hBlock
  have hValue : value token.text = .ok (String.ofList (BlockRules.actual.value inside)) := by
    rw [hText, value_blockQuoted]
  refine ⟨inside, hText, hValue, fun hPlain => ?_⟩
  rw [hValue, Except.ok.injEq, String.ofList_inj, value_eq_standard_iff hPlain]

/-- A block string that closes at its last marks is one token of its own. -/
theorem exists_block_token {inside : List Char}
    (h : spanBlockString (inside ++ ['"', '"', '"']) = (true, inside ++ ['"', '"', '"'], [])) :
    ∃ token ∈ Token.lex (blockQuoted inside), token.kind = .string ∧
      isBlock token.text = true ∧ token.text = blockQuoted inside := by
  have hLexeme : Lexeme .string (blockQuoted inside).toList := by
    rw [blockQuoted, String.toList_ofList]
    exact .blockString (isBlockInside_of_spanBlockString h)
  rw [lex_of_lexeme hLexeme]
  refine ⟨_, List.mem_cons_self, rfl, ?_, rfl⟩
  rw [isBlock, blockQuoted, String.toList_ofList]
  exact List.isPrefixOf_iff_prefix.2 (List.prefix_append _ _)

/-- The last line here is blank and shorter than the common indentation, but nothing follows it. -/
theorem value_of_block_trailing :
    ∃ token ∈ Token.lex (blockQuoted "\n    hello\n      world\n  ".toList),
      token.kind = .string ∧ isBlock token.text = true ∧
      value token.text = .ok "hello\n  world" ∧
      ¬ HasRaggedBlank (blockLines "\n    hello\n      world\n  ".toList) := by
  obtain ⟨token, hToken, hKind, hBlock, hText⟩ := exists_block_token
    (show spanBlockString ("\n    hello\n      world\n  ".toList ++ _) = _ by decide)
  obtain ⟨inside, hInside, hValue, hStandard⟩ := value_of_block hToken hKind hBlock
  rw [hText, blockQuoted_inj] at hInside
  subst hInside
  have hValue : value token.text = .ok "hello\n  world" := by
    rw [hText]
    decide
  refine ⟨token, hToken, hKind, hBlock, hValue, (hStandard (by decide)).1 ?_⟩
  rw [hValue]
  decide

/-- A blank line of two spaces inside the text keeps them, and a line of one no-break space is taken
for blank, so that it is removed and does not count for the common indentation. -/
theorem value_not_standard :
    (∃ token ∈ Token.lex (blockQuoted "\n    a\n  \n    b\n".toList),
      token.kind = .string ∧ isBlock token.text = true ∧ value token.text = .ok "a\n  \nb" ∧
      String.ofList (BlockRules.standard.value "\n    a\n  \n    b\n".toList) = "a\n\nb") ∧
    ∃ token ∈ Token.lex (blockQuoted "\n    a\n\u00a0\n".toList),
      token.kind = .string ∧ isBlock token.text = true ∧ value token.text = .ok "a" ∧
      String.ofList (BlockRules.standard.value "\n    a\n\u00a0\n".toList) = "    a\n\u00a0" := by
  constructor
  · obtain ⟨token, hToken, hKind, hBlock, hText⟩ := exists_block_token
      (show spanBlockString ("\n    a\n  \n    b\n".toList ++ _) = _ by decide)
    refine ⟨token, hToken, hKind, hBlock, ?_, by decide⟩
    rw [hText]
    decide
  · obtain ⟨token, hToken, hKind, hBlock, hText⟩ := exists_block_token
      (show spanBlockString ("\n    a\n\u00a0\n".toList ++ _) = _ by decide)
    refine ⟨token, hToken, hKind, hBlock, ?_, by decide⟩
    rw [hText]
    decide

end GraphQL.StringLiteral
