import GraphQL.Proofs.Grammar.Derivation

/-! Whole texts. The tokens of a text before its end form at most one document, and reading the text
gives that document; it fails exactly if there is none or a token is a fault. -/
namespace GraphQL

open TokenStream

/-- Before the end, a closed list of tokens has no other end. -/
theorem Closed.beforeEnd_of_append {before after : List Token} {last : Token}
    (h : Closed (before ++ last :: after)) (hLast : last.kind = .eof) :
    ((before ++ last :: after).takeWhile fun token => token.kind ≠ .eof) = before := by
  have hBefore : ∀ t ∈ before, t.kind ≠ .eof := by
    intro t ht
    obtain ⟨first, rest, rfl⟩ := List.append_of_mem ht
    rw [List.append_assoc] at h
    have hTail := h.of_append (by simp)
    cases rest <;> exact hTail.kind_ne_eof
  rw [List.takeWhile_append_of_pos (by simpa using hBefore)]
  simp [hLast]

/-- A text is read as a phrase exactly if its tokens before the end form it and none is a fault. -/
theorem Source.outline_eq_ok {source : Source} {phrase : Outline} :
    source.outline = .ok phrase ↔
      (∀ t ∈ Token.lex source.text, t.kind.isError = false) ∧
        Forms .document (Token.beforeEnd source.text) phrase := by
  constructor
  · intro h
    unfold Source.outline at h
    split at h
    · cases h
    · next first stream hPrime =>
        obtain ⟨hRemaining, hLegal⟩ := remaining_of_prime hPrime
        have hClosed : Closed stream.remaining := hRemaining ▸ Token.lex_closed source.text
        split at h
        · next found last hDocument =>
            cases h
            obtain ⟨tokens, hMoves, hEnd, hForms⟩ := Grammar.document_reads hClosed hDocument
            have hLast := atEnd_iff.1 hEnd
            have hAll := hMoves.remaining
            rw [hRemaining] at hAll
            have hTokens : Token.beforeEnd source.text = tokens := by
              rw [Token.beforeEnd, hAll]
              exact (hAll ▸ Token.lex_closed source.text).beforeEnd_of_append hLast
            refine ⟨fun t ht => ?_, hTokens ▸ hForms⟩
            obtain ⟨end', hEof, hLex⟩ := Token.lex_eq source.text
            rw [hLex, hTokens] at ht
            rcases List.mem_append.1 ht with ht | ht
            · exact (hMoves.legal hLegal).1 t ht
            · rw [List.mem_singleton.1 ht, hEof]
              rfl
        · cases h
  · rintro ⟨hLegal, hForms⟩
    obtain ⟨first, stream, hPrime, hRemaining⟩ := exists_prime hLegal
    obtain ⟨last, hLast, hLex⟩ := Token.lex_eq source.text
    have hClean : stream.Clean :=
      ⟨hRemaining ▸ Token.lex_closed source.text, hRemaining ▸ hLegal⟩
    obtain ⟨after, hDocument, -⟩ := Grammar.production_accepts hForms (Grammar.enough_none _) hClean
      (hRemaining.trans hLex) hLast
    have hRead : Grammar.document stream = .ok phrase after := hDocument
    simp [Source.outline, hPrime, hRead]

/-- To parse a text is to read its phrase and graft it on a new tree. -/
theorem Source.parse_eq (source : Source) :
    source.parse = source.outline.map (SyntaxTree.graft {} 0) := by
  have hEmpty : ({} : SyntaxTree).isEmpty = true := rfl
  unfold Source.parse Source.parseInto
  rw [hEmpty, if_pos rfl]
  cases source.outline <;> rfl

theorem Source.parse_eq_ok {source : Source} {tree : SyntaxTree} :
    source.parse = .ok tree ↔
      ∃ phrase, source.outline = .ok phrase ∧ SyntaxTree.graft {} 0 phrase = tree := by
  rw [source.parse_eq, except_map_eq_ok]

theorem Source.parse_eq_error {source : Source} {error : SyntaxError} :
    source.parse = .error error ↔ source.outline = .error error := by
  rw [source.parse_eq, except_map_eq_error]

/-- The parser accepts exactly its grammar: the texts without faults whose tokens are derived as a
document, where no variable stands in a default. -/
theorem Source.exists_parse_iff (source : Source) :
    (∃ tree, source.parse = .ok tree) ↔
      (∀ t ∈ Token.lex source.text, t.kind.isError = false) ∧
        Derives Constant .document (Token.beforeEnd source.text) := by
  have hOutline : (∃ tree, source.parse = .ok tree) ↔ ∃ phrase, source.outline = .ok phrase := by
    rw [source.parse_eq]
    cases source.outline <;> simp [Except.map]
  rw [hOutline]
  constructor
  · rintro ⟨phrase, h⟩
    obtain ⟨hLegal, hForms⟩ := Source.outline_eq_ok.1 h
    exact ⟨hLegal, hForms.derives⟩
  · rintro ⟨hLegal, hDerives⟩
    obtain ⟨phrase, hForms⟩ := hDerives.exists_phrase
    exact ⟨phrase, Source.outline_eq_ok.2 ⟨hLegal, hForms⟩⟩

end GraphQL
