import GraphQL.Proofs.Token.Recognition

/-! How the tokens of a text divide it up. Every character is in one token or in the gap before one,
and gaps hold nothing but what the lexical grammar ignores. -/
namespace GraphQL

namespace Text

theorem utf8ByteSize_ofList (cs : List Char) : (String.ofList cs).utf8ByteSize = byteSize cs := by
  induction cs with
  | nil => rfl
  | cons c cs ih =>
      rw [String.ofList_cons, String.utf8ByteSize_append, String.utf8ByteSize_singleton, ih,
        byteSize_cons]

end Text

namespace Lexer

open Text

/-- What may stand before `rest` without being part of a token: spaces, tabs, line terminators,
commas, byte-order marks and whole comments. A comment goes on to a line terminator or to the end of
the text. -/
inductive Ignorable (rest : List Char) : List Char → Prop where
  | nothing : Ignorable rest []
  | mark {c : Char} {gap : List Char} (hMark : c ∈ [' ', '\t', '\n', '\r', ',', '\uFEFF'])
      (more : Ignorable rest gap) : Ignorable rest (c :: gap)
  | comment {inside gap : List Char} (hInside : ∀ c ∈ inside, c ≠ '\n' ∧ c ≠ '\r')
      (hEnd : ∀ c ∈ (gap ++ rest).head?, c = '\n' ∨ c = '\r') (more : Ignorable rest gap) :
      Ignorable rest ('#' :: (inside ++ gap))

/-- What is left of a comment, and what is ignored after it. -/
def IgnorableInComment (rest cs : List Char) : Prop :=
  ∃ inside gap, cs = inside ++ gap ∧ (∀ c ∈ inside, c ≠ '\n' ∧ c ≠ '\r') ∧
    (∀ c ∈ (gap ++ rest).head?, c = '\n' ∨ c = '\r') ∧ Ignorable rest gap

theorem isIgnored_iff {c : Char} :
    isIgnored c = true ↔ c ∈ [' ', '\t', '\n', '\r', ',', '\uFEFF'] := by
  simp [isIgnored, isSpace, isLineEnd, or_assoc]

/-- The gap that is passed over is one that the grammar ignores. -/
theorem ignorable_spanIgnored (cs : List Char) :
    Ignorable (spanIgnored false cs).2 (spanIgnored false cs).1 ∧
      IgnorableInComment (spanIgnored true cs).2 (spanIgnored true cs).1 := by
  induction cs with
  | nil => exact ⟨.nothing, [], [], rfl, by simp, by simp [spanIgnored], .nothing⟩
  | cons c cs ih =>
      obtain ⟨ihOutside, ihInside⟩ := ih
      have hOutside : Ignorable (spanIgnored false (c :: cs)).2
          (spanIgnored false (c :: cs)).1 := by
        by_cases hIgnored : isIgnored c = true
        · simp only [spanIgnored, hIgnored, Bool.false_and, Bool.false_eq_true, if_false, if_true]
          exact .mark (isIgnored_iff.1 hIgnored) ihOutside
        · by_cases hComment : c = '#'
          · subst hComment
            obtain ⟨inside, gap, hSplit, hInside, hEnd, hGap⟩ := ihInside
            simp only [spanIgnored, hIgnored, Bool.false_and, Bool.false_eq_true, if_false,
              beq_self_eq_true, if_true]
            rw [hSplit]
            exact .comment hInside hEnd hGap
          · simp only [spanIgnored, hIgnored, hComment, Bool.false_and, Bool.false_eq_true,
              if_false, beq_iff_eq]
            exact .nothing
      refine ⟨hOutside, ?_⟩
      by_cases hLine : isLineEnd c = true
      · -- the comment ends here, and the line terminator is the first character after it
        have hSame : spanIgnored true (c :: cs) = spanIgnored false (c :: cs) := by
          simp [spanIgnored, hLine]
        have hIgnored : isIgnored c = true := by simp [isIgnored, hLine]
        have hFirst : (spanIgnored false (c :: cs)).1 = c :: (spanIgnored false cs).1 := by
          simp [spanIgnored, hIgnored]
        rw [hSame]
        refine ⟨[], (spanIgnored false (c :: cs)).1, rfl, by simp, ?_, hOutside⟩
        intro d hd
        simp only [hFirst, List.cons_append, List.head?_cons, Option.mem_some_iff] at hd
        rw [← hd]
        exact isLineEnd_iff.1 hLine
      · obtain ⟨inside, gap, hSplit, hInside, hEnd, hGap⟩ := ihInside
        have hMore : spanIgnored true (c :: cs) =
            (c :: (spanIgnored true cs).1, (spanIgnored true cs).2) := by
          simp [spanIgnored, hLine]
        rw [hMore]
        refine ⟨c :: inside, gap, by simp [hSplit], ?_, hEnd, hGap⟩
        have hc : c ≠ '\n' ∧ c ≠ '\r' := by
          rwa [isLineEnd_iff, not_or] at hLine
        exact List.forall_mem_cons.2 ⟨hc, hInside⟩

/-- Whether tokens, each with a gap before it, make up some characters that stand at the offset
`start`. The end of input takes no characters, and each other token at least one. -/
inductive Tiles : Nat → List Char → List Token → Prop where
  | last {start : Nat} {gap : List Char} {token : Token} (hGap : Ignorable [] gap)
      (hKind : token.kind = .eof)
      (hBytes : token.bytes = ⟨start + byteSize gap, start + byteSize gap⟩) :
      Tiles start gap [token]
  | next {start : Nat} {gap lexeme rest : List Char} {token : Token} {tokens : List Token}
      (hGap : Ignorable (lexeme ++ rest) gap) (hLexeme : lexeme ≠ []) (hKind : token.kind ≠ .eof)
      (hBytes : token.bytes = ⟨start + byteSize gap, start + byteSize (gap ++ lexeme)⟩)
      (more : Tiles (start + byteSize (gap ++ lexeme)) rest tokens) :
      Tiles start (gap ++ (lexeme ++ rest)) (token :: tokens)

/-- One step of the lexer splits off a gap and a token, so a run of it tiles the text. -/
theorem tiles_tokensFrom (cursor : Cursor) (cs : List Char) :
    Tiles cursor.position.offset cs (tokensFrom cursor cs) := by
  fun_induction tokensFrom cursor cs with
  | case1 cursor cs gap start hRest =>
      have hGap := (ignorable_spanIgnored cs).1
      have hAll := spanIgnored_append false cs
      rw [hRest] at hGap hAll
      rw [List.append_nil] at hAll
      have hOffset : start.position.offset = cursor.position.offset + byteSize gap :=
        Cursor.offset_walk cursor gap
      have hTiles : Tiles cursor.position.offset gap [.eofAt start.position] :=
        .last hGap rfl (by rw [← hOffset]; rfl)
      rwa [show gap = cs from hAll] at hTiles
  | case2 cursor cs gap start c rest hRest found stop ih =>
      have hGap := (ignorable_spanIgnored cs).1
      have hAll := spanIgnored_append false cs
      have hAppend : found.lexeme ++ found.rest = c :: rest :=
        scan_lexeme_append_rest start.position c rest
      rw [hRest, ← hAppend] at hGap hAll
      have hStop : stop.position.offset =
          cursor.position.offset + byteSize (gap ++ found.lexeme) := by
        rw [← Cursor.offset_walk, Cursor.walk_append]
      rw [hStop] at ih
      have hTiles : Tiles cursor.position.offset (gap ++ (found.lexeme ++ found.rest))
          (⟨found.kind, ⟨start.position, stop.position⟩, String.ofList found.lexeme⟩ ::
            tokensFrom stop found.rest) := by
        apply Tiles.next hGap (scan_lexeme_ne_nil _ _ _) (kind_scan_ne_eof _ _ _) _ ih
        rw [← hStop, ← Cursor.offset_walk]
        rfl
      rwa [hAll] at hTiles

/-- Whether an offset lies between two of some characters that stand at `start`, or at an end. -/
def Cuts (start : Nat) (cs : List Char) (offset : Nat) : Prop :=
  ∃ before after, cs = before ++ after ∧ offset = start + byteSize before

/-- A place that cuts the rest of a text cuts the whole of it. -/
theorem Cuts.after {start offset : Nat} {passed cs : List Char}
    (h : Cuts (start + byteSize passed) cs offset) : Cuts start (passed ++ cs) offset := by
  obtain ⟨before, rest, rfl, rfl⟩ := h
  exact ⟨passed ++ before, rest, by simp, by rw [byteSize_append, Nat.add_assoc]⟩

namespace Tiles

variable {start : Nat} {cs : List Char} {tokens : List Token}

theorem byteSize_pos {cs : List Char} (h : cs ≠ []) : 0 < byteSize cs := by
  obtain ⟨c, rest, rfl⟩ := List.exists_cons_of_ne_nil h
  have hPos := Char.utf8Size_pos c
  rw [byteSize_cons]
  omega

/-- The last token, and no other, is the end of input, and it is empty at the end of the text. -/
theorem ending (h : Tiles start cs tokens) :
    ∃ before last, tokens = before ++ [last] ∧ (∀ t ∈ before, t.kind ≠ .eof) ∧
      last.kind = .eof ∧ last.bytes = ⟨start + byteSize cs, start + byteSize cs⟩ := by
  induction h with
  | last hGap hKind hBytes => exact ⟨[], _, rfl, by simp, hKind, hBytes⟩
  | next hGap hLexeme hKind hBytes more ih =>
      obtain ⟨before, last, rfl, hBefore, hLast, hPlace⟩ := ih
      refine ⟨_ :: before, last, rfl, List.forall_mem_cons.2 ⟨hKind, hBefore⟩, hLast, ?_⟩
      rw [hPlace]
      simp only [byteSize_append, Nat.add_assoc]

theorem nonempty (h : Tiles start cs tokens) :
    ∀ t ∈ tokens, t.kind ≠ .eof → t.start.offset < t.stop.offset := by
  induction h with
  | last hGap hKind hBytes =>
      intro t ht hEnd
      rw [List.mem_singleton.1 ht] at hEnd
      exact absurd hKind hEnd
  | @next start gap lexeme rest token tokens hGap hLexeme hKind hBytes more ih =>
      have hSize := byteSize_pos hLexeme
      have hStart : token.start.offset = start + byteSize gap := congrArg ByteRange.start hBytes
      have hStop : token.stop.offset = start + byteSize (gap ++ lexeme) :=
        congrArg ByteRange.stop hBytes
      rw [byteSize_append] at hStop
      refine List.forall_mem_cons.2 ⟨fun _ => ?_, ih⟩
      omega

/-- Both ends of each token lie between two characters. -/
theorem boundaries (h : Tiles start cs tokens) :
    ∀ t ∈ tokens, Cuts start cs t.start.offset ∧ Cuts start cs t.stop.offset := by
  induction h with
  | @last start gap token hGap hKind hBytes =>
      intro t ht
      obtain rfl := List.mem_singleton.1 ht
      exact ⟨⟨gap, [], by simp, congrArg ByteRange.start hBytes⟩,
        ⟨gap, [], by simp, congrArg ByteRange.stop hBytes⟩⟩
  | @next start gap lexeme rest token tokens hGap hLexeme hKind hBytes more ih =>
      refine List.forall_mem_cons.2 ⟨?_, fun t ht => ?_⟩
      · exact ⟨⟨gap, lexeme ++ rest, rfl, congrArg ByteRange.start hBytes⟩,
          ⟨gap ++ lexeme, rest, by simp, congrArg ByteRange.stop hBytes⟩⟩
      · obtain ⟨hStart, hStop⟩ := ih t ht
        rw [← List.append_assoc]
        exact ⟨hStart.after, hStop.after⟩

theorem le_start (h : Tiles start cs tokens) : ∀ t ∈ tokens, start ≤ t.start.offset := by
  intro t ht
  obtain ⟨before, -, -, hStart⟩ := (h.boundaries t ht).1
  omega

/-- Each token ends before the next one starts. -/
theorem ordered (h : Tiles start cs tokens) :
    tokens.Pairwise fun earlier later => earlier.stop.offset ≤ later.start.offset := by
  induction h with
  | last => exact List.pairwise_singleton _ _
  | @next start gap lexeme rest token tokens hGap hLexeme hKind hBytes more ih =>
      have hStop : token.stop.offset = start + byteSize (gap ++ lexeme) :=
        congrArg ByteRange.stop hBytes
      apply List.pairwise_cons.2
      refine ⟨fun later hLater => ?_, ih⟩
      rw [hStop]
      exact more.le_start later hLater

end Tiles

end Lexer

/-- The ranges before each token and after the one before it, the first from `start` on. -/
def Token.gapsFrom (start : Nat) : List Token → List ByteRange
  | [] => []
  | token :: rest => ⟨start, token.start.offset⟩ :: gapsFrom token.stop.offset rest

/-- Whether an offset into a text lies between two characters or at an end. -/
def Source.IsBoundary (source : Source) (offset : Nat) : Prop :=
  String.Pos.Raw.IsValid source.text ⟨offset⟩

/-- Whether tokens divide up a text. -/
structure Partition (source : Source) (tokens : List Token) : Prop where
  /-- There is one end of input, which comes last and lies at the end of the text. -/
  ending : ∃ before last, tokens = before ++ [last] ∧ (∀ t ∈ before, t.kind ≠ .eof) ∧
    last.kind = .eof ∧ last.bytes = ⟨source.byteSize, source.byteSize⟩
  nonempty : ∀ t ∈ tokens, t.kind ≠ .eof → t.start.offset < t.stop.offset
  boundaries : ∀ t ∈ tokens,
    source.IsBoundary t.start.offset ∧ source.IsBoundary t.stop.offset
  ordered : tokens.Pairwise fun earlier later => earlier.stop.offset ≤ later.start.offset
  /-- The characters that a token has are those between its ends. -/
  lexemes : ∀ t ∈ tokens, source.slice t.bytes = t.text
  /-- What stands before a token is ignored by the grammar, given all that comes after it. -/
  gaps : ∀ gap ∈ Token.gapsFrom 0 tokens,
    Lexer.Ignorable (source.slice ⟨gap.stop, source.byteSize⟩).toList (source.slice gap).toList
  /-- The gaps and the tokens, in order, are the whole text. -/
  whole : String.join (List.zipWith (fun gap token => source.slice gap ++ source.slice token.bytes)
    (Token.gapsFrom 0 tokens) tokens) = source.text

namespace Lexer

open Text

namespace Tiles

variable {source : Source} {passed cs : List Char} {tokens : List Token}

theorem byteSize_after {start : Nat} (hStart : byteSize passed = start) (more : List Char) :
    byteSize (passed ++ more) = start + byteSize more := by
  rw [byteSize_append, hStart]

/-- The slice of a run of characters that stands at an offset. -/
theorem slice_at {before inside after : List Char} {start : Nat} (hStart : byteSize before = start)
    (hText : source.text.toList = before ++ (inside ++ after)) :
    source.slice ⟨start, start + byteSize inside⟩ = String.ofList inside := by
  rw [← hStart, Source.slice, Source.chars, hText, ← byteSize_append, ← List.append_assoc,
    slice_append]

/-- The slice from the end of a run of characters to the end of the text. -/
theorem slice_rest {before after : List Char} {start : Nat} (hStart : byteSize before = start)
    (hText : source.text.toList = before ++ after) :
    source.slice ⟨start, source.byteSize⟩ = String.ofList after := by
  have hSize : source.byteSize = start + byteSize after := by
    rw [← hStart, ← byteSize_append, ← hText, ← utf8ByteSize_ofList, String.ofList_toList]
    rfl
  have hAll : source.text.toList = before ++ (after ++ []) := by rw [hText, List.append_nil]
  rw [hSize]
  exact slice_at hStart hAll

/-- A place that cuts the characters of a text does not split one. -/
theorem isBoundary {offset : Nat} (h : Cuts 0 source.text.toList offset) :
    source.IsBoundary offset := by
  obtain ⟨before, after, hText, rfl⟩ := h
  apply String.Pos.Raw.isValid_iff_exists_append.2
  refine ⟨String.ofList before, String.ofList after, ?_, ?_⟩
  · rw [← String.ofList_append, ← hText, String.ofList_toList]
  · rw [String.Pos.Raw.ext_iff, ← utf8ByteSize_ofList, Nat.zero_add]
    rfl

/-- What is between two tokens is ignored, and no part of the token after it. -/
theorem gaps (h : Tiles (byteSize passed) cs tokens)
    (hText : source.text.toList = passed ++ cs) :
    ∀ gap ∈ Token.gapsFrom (byteSize passed) tokens, Ignorable
      (source.slice ⟨gap.stop, source.byteSize⟩).toList (source.slice gap).toList := by
  generalize hStart : byteSize passed = start at h
  induction h generalizing passed with
  | @last start gap token hGap hKind hBytes =>
      have hFrom : token.start.offset = start + byteSize gap := congrArg ByteRange.start hBytes
      have hAll : source.text.toList = passed ++ (gap ++ []) := by rw [hText, List.append_nil]
      have hBefore := byteSize_after hStart gap
      have hAfter := slice_rest hBefore (hAll.trans (List.append_assoc ..).symm)
      rw [Token.gapsFrom, Token.gapsFrom, hFrom]
      refine List.forall_mem_singleton.2 ?_
      rw [hAfter, slice_at hStart hAll, String.toList_ofList, String.toList_ofList]
      exact hGap
  | @next start gap lexeme rest token tokens hGap hLexeme hKind hBytes more ih =>
      have hFrom : token.start.offset = start + byteSize gap := congrArg ByteRange.start hBytes
      have hStop : token.stop.offset = start + byteSize (gap ++ lexeme) :=
        congrArg ByteRange.stop hBytes
      have hBefore := byteSize_after hStart gap
      have hPassed := byteSize_after hStart (gap ++ lexeme)
      have hAfter := slice_rest hBefore (hText.trans (List.append_assoc ..).symm)
      rw [Token.gapsFrom, hFrom, hStop]
      refine List.forall_mem_cons.2 ⟨?_, ?_⟩
      · rw [hAfter, slice_at hStart hText, String.toList_ofList, String.toList_ofList]
        exact hGap
      · exact ih (by simp [hText]) hPassed

/-- The gaps and the tokens, one after another, are the text. -/
theorem whole (h : Tiles (byteSize passed) cs tokens)
    (hText : source.text.toList = passed ++ cs) :
    String.join (List.zipWith (fun gap token => source.slice gap ++ source.slice token.bytes)
      (Token.gapsFrom (byteSize passed) tokens) tokens) = String.ofList cs := by
  generalize hStart : byteSize passed = start at h
  induction h generalizing passed with
  | @last start gap token hGap hKind hBytes =>
      have hFrom : token.start.offset = start + byteSize gap := congrArg ByteRange.start hBytes
      have hAll : source.text.toList = passed ++ (gap ++ []) := by rw [hText, List.append_nil]
      have hBefore := byteSize_after hStart gap
      have hNothing : source.text.toList = (passed ++ gap) ++ ([] ++ []) := by simp [hText]
      have hEmpty := slice_at hBefore hNothing
      rw [byteSize_nil, Nat.add_zero] at hEmpty
      simp [Token.gapsFrom, hFrom, hBytes, slice_at hStart hAll, hEmpty]
  | @next start gap lexeme rest token tokens hGap hLexeme hKind hBytes more ih =>
      have hFrom : token.start.offset = start + byteSize gap := congrArg ByteRange.start hBytes
      have hStop : token.stop.offset = start + byteSize (gap ++ lexeme) :=
        congrArg ByteRange.stop hBytes
      have hBefore := byteSize_after hStart gap
      have hPassed := byteSize_after hStart (gap ++ lexeme)
      have hHere : source.text.toList = (passed ++ gap) ++ (lexeme ++ rest) := by simp [hText]
      have hToken := slice_at hBefore hHere
      have hRest := ih (by simp [hText]) hPassed
      rw [Nat.add_assoc, ← byteSize_append] at hToken
      rw [Token.gapsFrom, hFrom, hStop, List.zipWith_cons_cons, String.join_cons, hBytes, hRest,
        slice_at hStart hText, hToken, String.append_assoc, ← String.ofList_append,
        ← String.ofList_append]

end Tiles

end Lexer

open Lexer Text

/-- Lexing partitions a text. The lexer ends for every text, with the one end of input at the end of
the text; every other token, faults included, takes at least one character and lies between
characters, after those before it; and what stands between tokens is ignored by the grammar. -/
theorem Token.lex_partition (source : Source) : Partition source (Token.lex source.text) := by
  have h : Tiles (byteSize []) source.text.toList (Token.lex source.text) :=
    tiles_tokensFrom {} source.text.toList
  have hSize : byteSize source.text.toList = source.byteSize := by
    rw [← utf8ByteSize_ofList, String.ofList_toList]
    rfl
  refine ⟨?_, h.nonempty, fun t ht => ?_, h.ordered, fun t => slice_of_mem_lex, h.gaps rfl, ?_⟩
  · obtain ⟨before, last, hTokens, hBefore, hLast, hPlace⟩ := h.ending
    rw [byteSize_nil, Nat.zero_add, hSize] at hPlace
    exact ⟨before, last, hTokens, hBefore, hLast, hPlace⟩
  · obtain ⟨hStart, hStop⟩ := h.boundaries t ht
    exact ⟨Tiles.isBoundary hStart, Tiles.isBoundary hStop⟩
  · exact (h.whole rfl).trans String.ofList_toList

end GraphQL
