import GraphQL.Proofs.Text.LineEnds
import GraphQL.Proofs.Token.Recognition
import GraphQL.StringLiteral

/-! The values of string literals do not depend on how lines are ended. In a block string each line
end stands for a line feed, and a literal on one line has none. -/
namespace GraphQL

namespace StringLiteral

open Text Lexer

/-- What stands between quotes is found there. -/
theorem inside?_quoted (quotes : Nat) (inside : List Char) :
    inside? quotes (List.replicate quotes '"' ++ (inside ++ List.replicate quotes '"')) =
      some inside := by
  have hLength : (List.replicate quotes '"' ++ (inside ++ List.replicate quotes '"')).length -
      2 * quotes = inside.length := by
    simp only [List.length_append, List.length_replicate]
    omega
  have hEnough : 2 * quotes ≤
      (List.replicate quotes '"' ++ (inside ++ List.replicate quotes '"')).length := by
    simp only [List.length_append, List.length_replicate]
    omega
  have hPrefix : (List.replicate quotes '"').isPrefixOf
      (List.replicate quotes '"' ++ (inside ++ List.replicate quotes '"')) = true :=
    List.isPrefixOf_iff_prefix.2 (List.prefix_append _ _)
  have hSuffix : (List.replicate quotes '"').isSuffixOf
      (List.replicate quotes '"' ++ (inside ++ List.replicate quotes '"')) = true := by
    rw [List.isSuffixOf_iff_suffix, ← List.append_assoc]
    exact List.suffix_append _ _
  simp only [inside?, hEnough, hPrefix, hSuffix, decide_true, Bool.and_self, if_true, hLength]
  rw [List.drop_left' (by simp), List.take_left' rfl]

/-- The escaped marks of a block string stand for no line end. -/
theorem head?_unescapeQuotes (cs : List Char) :
    (unescapeQuotes cs).head? = some '\n' ↔ cs.head? = some '\n' := by
  fun_cases unescapeQuotes cs with
  | case1 => rfl
  | case2 rest => simp
  | case3 c rest => simp

/-- Only quotes are read differently after a backslash. -/
theorem unescapeQuotes_cons {c : Char} {cs : List Char} (h : ¬ ['\\', '"', '"', '"'] <+: c :: cs) :
    unescapeQuotes (c :: cs) = c :: unescapeQuotes cs := by
  rw [unescapeQuotes.eq_3]
  rintro rest rfl rfl
  exact h ⟨rest, rfl⟩

/-- The escaped marks of a block string are the same with other line ends around them. -/
theorem unescapeQuotes_withFeeds (cs : List Char) :
    unescapeQuotes (withFeeds cs) = withFeeds (unescapeQuotes cs) := by
  fun_induction unescapeQuotes cs with
  | case1 => rfl
  | case2 cs ih =>
      have hFirst := withFeeds_lead escapedQuotes_content cs
      have hRest := withFeeds_lead quotes_content (unescapeQuotes cs)
      simp only [List.cons_append, List.nil_append] at hFirst hRest
      rw [hFirst, hRest, unescapeQuotes, ih]
  | case3 c cs hOther ih =>
      have hNone : ¬ ['\\', '"', '"', '"'] <+: c :: cs := by
        rintro ⟨rest, hRest⟩
        obtain ⟨hc, hcs⟩ := List.cons.inj hRest
        exact hOther rest hc.symm hcs.symm
      by_cases hPair : c = '\r' ∧ cs.head? = some '\n'
      · obtain ⟨rfl, hNext⟩ := hPair
        rw [withFeeds_return hNext, withFeeds_return ((head?_unescapeQuotes cs).2 hNext), ih]
      · have hSplit : c = '\r' → cs.head? ≠ some '\n' := fun hc hNext => hPair ⟨hc, hNext⟩
        have hAfter : c = '\r' → (unescapeQuotes cs).head? ≠ some '\n' := by
          intro hc hNext
          exact hSplit hc ((head?_unescapeQuotes cs).1 hNext)
        have hFeeds := withFeeds_cons hSplit
        rw [← prefix_withFeeds escapedQuotes_content, hFeeds] at hNone
        rw [hFeeds, unescapeQuotes_cons hNone, withFeeds_cons hAfter, ih]

/-- The value of a block string is made of the contents of its lines. -/
theorem blockValue_withFeeds (inside : List Char) :
    blockValue (withFeeds inside) = blockValue inside := by
  have hContents := splitLines_withFeeds (unescapeQuotes inside)
  rw [← unescapeQuotes_withFeeds] at hContents
  rw [blockValue, blockValue, hContents]

/-- Between three marks a text is read as a block string. -/
theorem value_block (inside : List Char) :
    value (String.ofList (['"', '"', '"'] ++ (inside ++ ['"', '"', '"']))) =
      .ok (String.ofList (blockValue inside)) := by
  have hInside := inside?_quoted 3 inside
  have hBlock :
      isBlock (String.ofList (['"', '"', '"'] ++ (inside ++ ['"', '"', '"']))) = true := by
    rw [isBlock, String.toList_ofList]
    exact List.isPrefixOf_iff_prefix.2 (List.prefix_append _ _)
  rw [value, if_pos hBlock, String.toList_ofList]
  simp only [List.replicate] at hInside
  rw [hInside]
  rfl

end StringLiteral

namespace Lexer

open Text

/-- The marks that close a block string are cut off its inside. -/
theorem IsBlockInside.exists_quotes {inside : List Char} (h : IsBlockInside inside) :
    ∃ body, inside = body ++ ['"', '"', '"'] := by
  induction h with
  | close => exact ⟨[], rfl⟩
  | escape rest ih =>
      obtain ⟨body, rfl⟩ := ih
      exact ⟨'\\' :: '"' :: '"' :: '"' :: body, rfl⟩
  | @char c cs hClose hEscape rest ih =>
      obtain ⟨body, rfl⟩ := ih
      exact ⟨c :: body, rfl⟩

/-- The mark that closes a string is cut off its inside. -/
theorem IsStringInside.exists_quote {inside : List Char} (h : IsStringInside inside) :
    ∃ body, inside = body ++ ['"'] := by
  induction h with
  | close => exact ⟨[], rfl⟩
  | @escape c cs hLine rest ih =>
      obtain ⟨body, rfl⟩ := ih
      exact ⟨'\\' :: c :: body, rfl⟩
  | @char c cs hQuote hBackslash hLine rest ih =>
      obtain ⟨body, rfl⟩ := ih
      exact ⟨c :: body, rfl⟩

/-- A quoted string does not go on over a line end. -/
theorem IsStringInside.content {inside : List Char} (h : IsStringInside inside) :
    ∀ c ∈ inside, isLineEnd c = false := by
  induction h with
  | close => exact List.forall_mem_singleton.2 rfl
  | escape hLine rest ih => exact List.forall_mem_cons.2 ⟨rfl, List.forall_mem_cons.2 ⟨hLine, ih⟩⟩
  | char hQuote hBackslash hLine rest ih => exact List.forall_mem_cons.2 ⟨hLine, ih⟩

/-- A literal has the same value when its lines end in line feeds. -/
theorem Lexeme.value_withFeeds {lexeme : List Char} (h : Lexeme .string lexeme) :
    StringLiteral.value (String.ofList (withFeeds lexeme)) =
      StringLiteral.value (String.ofList lexeme) := by
  cases h with
  | punctuator hText => cases hText
  | string hInside =>
      have hContent : ∀ c ∈ '"' :: _, isLineEnd c = false :=
        List.forall_mem_cons.2 ⟨rfl, hInside.content⟩
      rw [withFeeds_of_content hContent]
  | blockString hInside =>
      obtain ⟨body, rfl⟩ := hInside.exists_quotes
      have hPairs : KeepsPairs body ['"', '"', '"'] := by
        intro _
        simp
      have hFeeds : withFeeds (['"', '"', '"'] ++ (body ++ ['"', '"', '"'])) =
          ['"', '"', '"'] ++ (withFeeds body ++ ['"', '"', '"']) := by
        rw [withFeeds_lead quotes_content, withFeeds_append hPairs,
          withFeeds_of_content quotes_content]
      have hFirst := StringLiteral.value_block (withFeeds body)
      rw [← hFeeds, StringLiteral.blockValue_withFeeds, ← StringLiteral.value_block] at hFirst
      exact hFirst

end Lexer

end GraphQL
