import GraphQL.Proofs.Grammar.Acceptance

/-! Completeness of the grammar as a whole. Types, definitions and documents are read like the
phrases inside them, and by induction on a derivation its phrase is what the productions give. -/
namespace GraphQL.Grammar

open GraphQL.Parser TokenStream

variable {s : TokenStream} {rest : List Token}

/-- The bytes of a type are told once the mark after it, if there is one, was read. -/
theorem typeEnd_accepts {start : TokenStream} {core mark : List Token} (hMark : IsMark mark)
    (hCore : core ≠ []) (hStart : Moves start core s) (hClean : s.Clean)
    (hTokens : s.remaining = mark ++ rest) (hRest : Begins (·.kind ≠ .bang) rest) :
    ∃ s', typeEnd start.current.start s = .ok (Token.cover (core ++ mark)) s' ∧
      Moves start (core ++ mark) s' := by
  rcases hMark with rfl | ⟨bang, hBang, rfl⟩
  · rw [typeEnd_of_not_at (not_isAt_of_begins hTokens hRest rfl), List.append_nil,
      cover_of_moves hStart hCore]
    exact ⟨s, rfl, hStart⟩
  · obtain ⟨s', hAdvance, hMoves, -⟩ := hClean.leave hTokens hRest.ne_nil
    have hAll := hStart.trans hMoves
    refine ⟨s', (typeEnd_of_at (isAt_of_remaining hTokens hBang rfl)).2 ⟨bang, hAdvance, ?_⟩, hAll⟩
    exact cover_of_moves hAll (by simp)

/-- A type is accepted at as many levels as it has tokens. -/
theorem typeWithin_accepts {tokens : List Token} (h : IsType tokens) {levels : Nat}
    (hLevels : tokens.length ≤ levels) (hClean : s.Clean) (hTokens : s.remaining = tokens ++ rest)
    (hRest : Begins (·.kind ≠ .bang) rest) :
    ∃ s', typeWithin levels s = .ok (Token.cover tokens) s' ∧ Moves s tokens s' := by
  induction h generalizing s rest levels with
  | @named name mark hName hMark =>
      obtain ⟨levels, rfl⟩ := Nat.exists_eq_add_one.2 (Nat.zero_lt_of_lt hLevels)
      obtain ⟨first, hAdvance, hFirst, hAfter, hClean'⟩ :=
        hClean.leave hTokens (by simp [hRest.ne_nil])
      obtain ⟨s', hEnd, hMoves⟩ := typeEnd_accepts hMark (by simp) hFirst hClean' hAfter hRest
      have hNotList : s.isAt .squareOpen = false :=
        not_isAt_of_begins hTokens (show name.kind ≠ .squareOpen by simp [hName]) rfl
      refine ⟨s', (typeWithin_of_not_list hNotList).2 ?_, hMoves⟩
      exact ⟨isAt_of_remaining hTokens hName rfl, name, first, hAdvance, hEnd⟩
  | @list opening closing item mark hOpen hItem hClose hMark ih =>
      obtain ⟨levels, rfl⟩ := Nat.exists_eq_add_one.2 (Nat.zero_lt_of_lt hLevels)
      simp only [List.cons_append, List.append_assoc] at hTokens
      obtain ⟨first, hAdvance, hFirst, hAfter, hClean'⟩ := hClean.leave hTokens (by simp)
      have hLength : item.length ≤ levels := by
        simp only [List.length_cons, List.length_append] at hLevels
        omega
      obtain ⟨second, hInner, hSecond⟩ := ih hLength hClean' hAfter
        (show closing.kind ≠ .bang by simp [hClose])
      have hAfterItem := hSecond.remaining_next hAfter
      obtain ⟨third, hAdvance', hThird, hAfterClose, hClean''⟩ :=
        (hSecond.clean hClean').leave hAfterItem (by simp [hRest.ne_nil])
      obtain ⟨s', hEnd, hMoves⟩ := typeEnd_accepts hMark (by simp)
        ((hFirst.trans hSecond).trans hThird) hClean'' hAfterClose hRest
      refine ⟨s', (typeWithin_of_list (isAt_of_remaining hTokens hOpen rfl)).2 ?_, ?_⟩
      · refine ⟨opening, first, hAdvance, _, second, hInner, third, ?_, by simpa using hEnd⟩
        exact closes_eq_ok.2
          (.inl ⟨rfl, isAt_of_remaining hAfterItem hClose rfl, closing, hAdvance'⟩)
      · simpa using hMoves

/-- A type is accepted: the tokens ahead are levels enough. -/
theorem typeRange_accepts {tokens : List Token} (h : IsType tokens) (hClean : s.Clean)
    (hTokens : s.remaining = tokens ++ rest) (hRest : Begins (·.kind ≠ .bang) rest) :
    ∃ s', typeRange s = .ok (Token.cover tokens) s' ∧ Moves s tokens s' := by
  have hLevels : tokens.length ≤ s.remaining.length := by simp [hTokens]
  rw [typeRange, bound_bind]
  exact typeWithin_accepts h hLevels hClean hTokens hRest

theorem growDefault_accepts {equals last : Token} {piece : Piece} (label : Label)
    (before : List Outline) (hEquals : equals.kind = .equals) (hConstant : Constant piece.1)
    (hValue : Accepts value (fun _ => True) piece.1 piece.2)
    (hStarts : Begins Symbol.value.Starts piece.1) (hLast : piece.1.getLast? = some last)
    (hDollar : last.kind ≠ .dollar) (hClean : s.Clean)
    (hTokens : s.remaining = equals :: piece.1 ++ rest) (hRest : rest ≠ []) :
    s.isAt .equals = true ∧ ∃ s', growDefault (.node label before) s =
        .ok (.node label (before ++ [piece.2])) s' ∧ Moves s (equals :: piece.1) s' := by
  obtain ⟨first, hAdvance, hFirst, hAfter, hClean'⟩ := hClean.leave hTokens (by simp [hRest])
  obtain ⟨next, others, rfl⟩ := List.exists_cons_of_ne_nil hRest
  obtain ⟨s', hGrow, hMoves⟩ := grow_accepts label before hValue hClean' hAfter trivial
  refine ⟨isAt_of_remaining hTokens hEquals rfl, s', ?_, hFirst.trans hMoves⟩
  obtain ⟨start, more, hCons⟩ := List.exists_cons_of_ne_nil hStarts.ne_nil
  have hCurrent : first.current = start :=
    current_of_remaining (by rw [hAfter, hCons]; rfl)
  rw [hCons] at hStarts
  obtain ⟨form, hForm⟩ := Option.isSome_iff_exists.1 hStarts
  simp only [growDefault, estate_bind_eq_ok, keeping_eq_ok, advance_eq_ok, current_bind]
  refine ⟨equals, first, hAdvance, ?_⟩
  simp only [hCurrent, hForm, get_bind, estate_bind_eq_ok]
  refine ⟨_, s', hGrow, ?_⟩
  rw [tokensBetween_of_moves hMoves, (firstVariable?_eq_none hLast hDollar).2 hConstant]
  rfl

theorem variableInside_accepts {label : Label} (default : Option (Token × Piece))
    {directives : List Piece} (hEquals : ∀ d ∈ default, d.1.kind = .equals)
    (hConstant : ∀ d ∈ default, Constant d.2.1)
    (hForms : ∀ d ∈ default, Forms .value d.2.1 d.2.2)
    (hDefault : ∀ d ∈ default, Accepts value (fun _ => True) d.2.1 d.2.2)
    (hDirectives : ∀ p ∈ directives, Accepts directive Symbol.directive.Next p.1 p.2)
    (hDirectiveStarts : ∀ p ∈ directives, Begins Symbol.directive.Starts p.1) (hClean : s.Clean)
    (hTokens : s.remaining = defaultTokens default ++ tokensOf directives ++ rest)
    (hRest : Begins Symbol.variableDefinition.Next rest) :
    ∃ s', variableInside (.node label []) s =
        .ok (.node label (defaultPhrases default ++ phrasesOf directives)) s' ∧
      Moves s (defaultTokens default ++ tokensOf directives) s' := by
  rw [List.append_assoc] at hTokens
  have hAfter : Begins AfterDirectives rest := hRest.mono fun t ht => ht.2.2
  cases default with
  | none =>
      have hNotEquals : s.isAt .equals = false := by
        refine not_isAt_of_begins hTokens (Begins.tokensOf_append
          (fun p hp => (hDirectiveStarts p hp).mono fun t ht => ?_)
          (hRest.mono fun t ht => ht.2.1)) rfl
        simp [show t.kind = .atSign from ht]
      rw [variableInside_of_not_at hNotEquals]
      exact growDirectives_accepts label [] hDirectives hDirectiveStarts hClean hTokens hAfter
  | some d =>
      have hTokens' : s.remaining = d.1 :: d.2.1 ++ (tokensOf directives ++ rest) := by
        simpa [defaultTokens] using hTokens
      obtain ⟨last, hLast, hDollar⟩ := (hForms d rfl).last_value
      obtain ⟨hAt, first, hGrow, hFirst⟩ := growDefault_accepts label [] (hEquals d rfl)
        (hConstant d rfl) (hDefault d rfl) (hForms d rfl).begins hLast hDollar hClean hTokens'
        (by simp [hRest.ne_nil])
      obtain ⟨s', hGrowDirectives, hSecond⟩ := growDirectives_accepts label [d.2.2] hDirectives
        hDirectiveStarts (hFirst.clean hClean) (hFirst.remaining_next hTokens') hAfter
      refine ⟨s', ?_, by simpa [defaultTokens] using hFirst.trans hSecond⟩
      rw [variableInside_of_at hAt, estate_bind_eq_ok]
      exact ⟨_, first, hGrow, by simpa [defaultPhrases] using hGrowDirectives⟩

/-- A variable is accepted with a constant default or none. -/
theorem variableDefinition_accepts {head : List Token} {label : Label}
    (default : Option (Token × Piece)) {directives : List Piece} (hHead : Head .variable head label)
    (hEquals : ∀ d ∈ default, d.1.kind = .equals) (hConstant : ∀ d ∈ default, Constant d.2.1)
    (hForms : ∀ d ∈ default, Forms .value d.2.1 d.2.2)
    (hDefault : ∀ d ∈ default, Accepts value (fun _ => True) d.2.1 d.2.2)
    (hDirectives : ∀ p ∈ directives, Accepts directive Symbol.directive.Next p.1 p.2)
    (hDirectiveStarts : ∀ p ∈ directives, Begins Symbol.directive.Starts p.1) :
    Accepts variableDefinition Symbol.variableDefinition.Next
      (head ++ (defaultTokens default ++ tokensOf directives))
      (.node label (defaultPhrases default ++ phrasesOf directives)) := by
  intro s rest hClean hTokens hRest
  rw [List.append_assoc] at hTokens
  cases hHead with
  | @declaration dollar name colon type hDollar hName hColon hType =>
      obtain ⟨first, hAdvance, hFirst, hAfterDollar, hClean₁⟩ := hClean.leave hTokens (by simp)
      obtain ⟨second, hAdvance', hSecond, hAfterName, hClean₂⟩ :=
        hClean₁.leave hAfterDollar (by simp)
      obtain ⟨third, hAdvance'', hThird, hAfterColon, hClean₃⟩ :=
        hClean₂.leave hAfterName (by simp [hRest.ne_nil])
      have hAfterType : Begins (·.kind ≠ .bang)
          (defaultTokens default ++ tokensOf directives ++ rest) := by
        rw [List.append_assoc]
        cases default with
        | none =>
            refine Begins.tokensOf_append
              (fun p hp => (hDirectiveStarts p hp).mono fun t ht => ?_)
              (hRest.mono fun t ht => ht.1)
            simp [show t.kind = .atSign from ht]
        | some d => exact (by simp [hEquals d rfl] : d.1.kind ≠ .bang)
      obtain ⟨fourth, hRange, hFourth⟩ := typeRange_accepts hType hClean₃ hAfterColon hAfterType
      obtain ⟨s', hInside, hMoves⟩ := variableInside_accepts default hEquals hConstant hForms
        hDefault hDirectives hDirectiveStarts (hFourth.clean hClean₃)
        (hFourth.remaining_next hAfterColon) hRest
      refine ⟨s', variableDefinition_eq_ok.2 ?_,
        (((hFirst.trans hSecond).trans hThird).trans hFourth).trans hMoves⟩
      exact ⟨dollar, first, ⟨isAt_of_remaining hTokens hDollar rfl, hAdvance⟩, name, second,
        ⟨isAt_of_remaining hAfterDollar hName rfl, hAdvance'⟩,
        isAt_of_remaining hAfterName hColon rfl, colon, third, hAdvance'', _, fourth, hRange,
        hInside⟩

theorem operationHead_accepts {head : List Token} {label : Label}
    (hHead : Head .operation head label) (hClean : s.Clean) (hTokens : s.remaining = head ++ rest)
    (hRest : Begins (·.kind ≠ .name) rest) :
    operationWords.any s.current.isWord = true ∧ s.isAt .curlyOpen = false ∧
      ∃ keyword s', operationHead (.node { type := .operation, location := s.current.start } []) s =
        .ok (keyword, .node label []) s' ∧ Moves s head s' := by
  cases hHead with
  | @operation keyword hKeyword hWord =>
      obtain ⟨s', hAdvance, hMoves, hAfter, -⟩ := hClean.leave hTokens hRest.ne_nil
      have hCurrent := current_of_remaining hTokens
      refine ⟨any_isWord.2 (hCurrent ▸ ⟨hKeyword, hWord⟩),
        not_isAt_of_begins hTokens (show keyword.kind ≠ .curlyOpen by simp [hKeyword]) rfl,
        keyword, s', ?_, hMoves⟩
      simp only [operationHead, estate_bind_eq_ok, keeping_eq_ok, advance_eq_ok, isAt_bind]
      refine ⟨keyword, s', hAdvance, ?_⟩
      rw [not_isAt_of_begins hAfter hRest rfl, hCurrent]
      rfl
  | @namedOperation keyword name hKeyword hWord hName =>
      obtain ⟨first, hAdvance, hFirst, hAfter, hClean'⟩ := hClean.leave hTokens (by simp)
      obtain ⟨s', hAdvance', hSecond, -⟩ := hClean'.leave hAfter hRest.ne_nil
      have hCurrent := current_of_remaining hTokens
      refine ⟨any_isWord.2 (hCurrent ▸ ⟨hKeyword, hWord⟩),
        not_isAt_of_begins hTokens (show keyword.kind ≠ .curlyOpen by simp [hKeyword]) rfl,
        keyword, s', ?_, hFirst.trans hSecond⟩
      simp only [operationHead, estate_bind_eq_ok, keeping_eq_ok, advance_eq_ok, isAt_bind]
      refine ⟨keyword, first, hAdvance, ?_⟩
      rw [isAt_of_remaining hAfter hName rfl, if_pos rfl]
      simp only [estate_bind_eq_ok, keeping_eq_ok, advance_eq_ok, estate_pure_eq_ok, hCurrent]
      exact ⟨name, s', hAdvance', rfl, rfl⟩

section Definitions

variable {head : List Token} {label : Label} {directives : List Piece} {set : Piece}
  (hDirectives : ∀ p ∈ directives, Accepts directive Symbol.directive.Next p.1 p.2)
  (hDirectiveStarts : ∀ p ∈ directives, Begins Symbol.directive.Starts p.1)
  (hSet : Accepts selectionSet (fun _ => True) set.1 set.2)
  (hSetStarts : Begins Symbol.selectionSet.Starts set.1)
include hDirectives hDirectiveStarts hSet hSetStarts

/-- An operation with a keyword is accepted if its parts are. -/
theorem operation_accepts {declared : Option Piece} (hHead : Head .operation head label)
    (hVariables : ∀ p ∈ declared, Accepts variableDefinitions (fun _ => True) p.1 p.2)
    (hVariableStarts : ∀ p ∈ declared, Begins Symbol.variableDefinitions.Starts p.1) :
    Accepts definition (fun _ => True)
      (head ++ tokensOf (declared.toList ++ directives ++ [set]))
      (.node label (phrasesOf (declared.toList ++ directives ++ [set]))) := by
  intro s rest hClean hTokens hRest
  simp only [tokensOf_append, tokensOf_cons, tokensOf_nil, List.append_nil, List.append_assoc]
    at hTokens
  obtain ⟨next, others, rfl⟩ := List.exists_cons_of_ne_nil hRest.ne_nil
  have hAfterDirectives : Begins (·.kind = .curlyOpen) (set.1 ++ next :: others) :=
    hSetStarts.append
  have hAfterVariables : Begins (fun t => t.kind ≠ .parenOpen ∧ t.kind ≠ .name)
      (tokensOf directives ++ (set.1 ++ next :: others)) :=
    Begins.tokensOf_append
      (fun p hp => (hDirectiveStarts p hp).mono fun t ht => by
        simp [show t.kind = .atSign from ht])
      (hAfterDirectives.mono fun t ht => by simp [ht])
  have hAfterHead : Begins (·.kind ≠ .name)
      (tokensOf declared.toList ++ (tokensOf directives ++ (set.1 ++ next :: others))) :=
    Begins.tokensOf_append
      (fun p hp => (hVariableStarts p (by simpa using hp)).mono fun t ht => by
        simp [show t.kind = .parenOpen from ht])
      (hAfterVariables.mono fun t ht => ht.2)
  obtain ⟨hWord, hNotOpen, keyword, first, hRead, hFirst⟩ :=
    operationHead_accepts hHead hClean hTokens hAfterHead
  obtain ⟨second, hGrowVariables, hSecond⟩ := growAt_accepts label [] hVariables hVariableStarts
    (hFirst.clean hClean) (hFirst.remaining_next hTokens)
    (hAfterVariables.mono fun t ht => ht.1) rfl
  have hMiddle := hSecond.remaining_next (hFirst.remaining_next hTokens)
  obtain ⟨third, hGrowDirectives, hThird⟩ := growDirectives_accepts label
    (phrasesOf declared.toList) hDirectives hDirectiveStarts ((hFirst.trans hSecond).clean hClean)
    hMiddle (hAfterDirectives.mono fun t ht => by simp [AfterDirectives, ht])
  have hLast := hThird.remaining_next hMiddle
  obtain ⟨s', hGrowSet, hFourth⟩ := grow_accepts label
    (phrasesOf declared.toList ++ phrasesOf directives) hSet
    (((hFirst.trans hSecond).trans hThird).clean hClean) hLast trivial
  refine ⟨s', ?_, by simpa using ((hFirst.trans hSecond).trans hThird).trans hFourth⟩
  have hOpen : third.isAt .curlyOpen = true := by
    refine (isAt_iff rfl).2 ?_
    rw [← hLast] at hAfterDirectives
    exact hAfterDirectives
  rw [definition, isAt_bind, isAtOneOf_bind, hWord, Bool.or_true, if_pos rfl]
  simp only [operation, current_bind, isAt_bind, hNotOpen, Bool.false_eq_true, if_false,
    isAtOneOf_bind, hWord, Bool.not_true, estate_bind_eq_ok]
  refine ⟨_, first, hRead, _, second, hGrowVariables, _, third, hGrowDirectives, ?_⟩
  rw [hOpen, if_pos rfl]
  simpa using hGrowSet

theorem namedFragment_accepts (hHead : Head .namedFragment head label) :
    Accepts definition (fun _ => True) (head ++ tokensOf (directives ++ [set]))
      (.node label (phrasesOf (directives ++ [set]))) := by
  intro s rest hClean hTokens hRest
  rw [List.append_assoc] at hTokens
  cases hHead with
  | @fragment keyword name on type hKeyword hName hNotOn hOn hType =>
      obtain ⟨first, hAdvance₁, hFirst, hAfterKeyword, hClean₁⟩ := hClean.leave hTokens (by simp)
      obtain ⟨second, hAdvance₂, hSecond, hAfterName, hClean₂⟩ :=
        hClean₁.leave hAfterKeyword (by simp)
      obtain ⟨third, hAdvance₃, hThird, hAfterOn, hClean₃⟩ := hClean₂.leave hAfterName (by simp)
      obtain ⟨fourth, hAdvance₄, hFourth, hAfter, hClean₄⟩ :=
        hClean₃.leave hAfterOn (by simp [hRest.ne_nil])
      obtain ⟨s', hMoves, hInside⟩ := inlineInside_accepts hDirectives hDirectiveStarts
        { type := .namedFragment, primary := some name.bytes, secondary := some type.bytes
          location := keyword.start }
        hSet hSetStarts hClean₄ hAfter hRest.ne_nil
      refine ⟨s', ?_, (((hFirst.trans hSecond).trans hThird).trans hFourth).trans hMoves⟩
      have hCurrent := current_of_remaining hTokens
      obtain ⟨hKeywordName, hKeywordText⟩ := isWord_iff.1 hKeyword
      have hNotOpen : s.isAt .curlyOpen = false :=
        not_isAt_of_begins hTokens (show keyword.kind ≠ .curlyOpen by simp [hKeywordName]) rfl
      have hNotWord : operationWords.any s.current.isWord = false := by
        refine Bool.eq_false_iff.2 fun hAny => ?_
        have hMember := (any_isWord.1 hAny).2
        rw [hCurrent, hKeywordText] at hMember
        exact absurd hMember (by decide)
      have hNameOn : first.isAtWord "on" = false := by
        rw [TokenStream.isAtWord, current_of_remaining hAfterKeyword]
        simp [Token.isWord, hNotOn]
      have hWord := isAtWord_of_remaining hTokens hKeyword
      simp only [definition, isAt_bind, isAtOneOf_bind, hNotOpen, hNotWord, Bool.or_false,
        Bool.false_eq_true, if_false, isAtWord_bind, hWord, if_true]
      simp only [namedFragment, estate_bind_eq_ok, expectWord_eq_ok, fragmentName_eq_ok,
        expectName_eq_ok]
      exact ⟨keyword, first, ⟨hWord, hAdvance₁⟩, name, second,
        ⟨hNameOn, isAt_of_remaining hAfterKeyword hName rfl, hAdvance₂⟩, on, third,
        ⟨isAtWord_of_remaining hAfterName hOn, hAdvance₃⟩, type, fourth,
        ⟨isAt_of_remaining hAfterOn hType rfl, hAdvance₄⟩, hInside⟩

end Definitions

theorem shorthand_accepts {first : Token} {others : List Token} {phrase : Outline}
    (hSet : Accepts selectionSet (fun _ => True) (first :: others) phrase)
    (hOpen : first.kind = .curlyOpen) :
    Accepts definition (fun _ => True) (first :: others)
      (.node { type := .operation, location := first.start } [phrase]) := by
  intro s rest hClean hTokens hRest
  obtain ⟨s', hGrow, hMoves⟩ := grow_accepts { type := .operation, location := first.start } [] hSet
    hClean hTokens hRest
  refine ⟨s', ?_, hMoves⟩
  have hCurrent := current_of_remaining hTokens
  have hAt := isAt_of_remaining hTokens hOpen rfl
  simp only [definition, isAt_bind, isAtOneOf_bind, hAt, Bool.true_or, if_true, operation,
    current_bind, hCurrent]
  exact hGrow

/-- Definitions are accepted up to the end of the text, by induction on them. -/
theorem growDefinitions_accepts {rounds : Nat} {pieces : List Piece} (label : Label)
    (before : List Outline) (hRounds : pieces.length < rounds)
    (hPieces : ∀ p ∈ pieces, Accepts definition (fun _ => True) p.1 p.2)
    (hStarts : ∀ p ∈ pieces, Begins Symbol.definition.Starts p.1) (hClean : s.Clean)
    (hTokens : s.remaining = tokensOf pieces ++ rest) (hRest : Begins (·.kind = .eof) rest) :
    ∃ s', growDefinitions rounds (.node label before) s =
        .ok (.node label (before ++ phrasesOf pieces)) s' ∧ Moves s (tokensOf pieces) s' := by
  induction pieces generalizing s before rounds with
  | nil =>
      obtain ⟨rounds, rfl⟩ := Nat.exists_eq_add_one.2 hRounds
      rw [tokensOf_nil, List.nil_append] at hTokens
      have hEnd : s.atEnd = true := by
        rw [← hTokens] at hRest
        exact atEnd_iff.2 hRest
      refine ⟨s, ?_, .refl hClean.closed⟩
      rw [growDefinitions, get_bind, if_pos hEnd]
      simp
  | cons piece pieces ih =>
      obtain ⟨rounds, rfl⟩ := Nat.exists_eq_add_one.2 (Nat.zero_lt_of_lt hRounds)
      obtain ⟨hPiece, hMorePieces⟩ := List.forall_mem_cons.1 hPieces
      obtain ⟨hStart, hMoreStarts⟩ := List.forall_mem_cons.1 hStarts
      rw [tokensOf_cons, List.append_assoc] at hTokens
      obtain ⟨next, others, hNext⟩ := List.exists_cons_of_ne_nil
        (show tokensOf pieces ++ rest ≠ [] by simp [hRest.ne_nil])
      obtain ⟨middle, hGrow, hMoves⟩ := grow_accepts label before hPiece hClean hTokens
        (hNext ▸ trivial)
      obtain ⟨s', hMore, hLast⟩ := ih (before ++ [piece.2]) (Nat.lt_of_succ_lt_succ hRounds)
        hMorePieces hMoreStarts (hMoves.clean hClean) (hMoves.remaining_next hTokens)
      have hNotEnd : s.atEnd = false := by
        have hBegins : Begins Symbol.definition.Starts s.remaining := hTokens ▸ hStart.append
        refine Bool.eq_false_iff.2 fun hEnd => ?_
        rcases hBegins with hOpen | ⟨hName, -⟩
        · exact absurd ((atEnd_iff.1 hEnd).symm.trans hOpen) (by decide)
        · exact absurd ((atEnd_iff.1 hEnd).symm.trans hName) (by decide)
      refine ⟨s', ?_, hMoves.trans hLast⟩
      rw [growDefinitions, get_bind, hNotEnd, if_neg Bool.false_ne_true, estate_bind_eq_ok]
      exact ⟨_, middle, hGrow, by simpa using hMore⟩

/-- A document is accepted if its definitions are: the tokens ahead are rounds enough. -/
theorem document_accepts {first : Token} {others : List Token} {pieces : List Piece}
    (hFirst : tokensOf pieces = first :: others)
    (hPieces : ∀ p ∈ pieces, Accepts definition (fun _ => True) p.1 p.2)
    (hStarts : ∀ p ∈ pieces, Begins Symbol.definition.Starts p.1) :
    Accepts document Symbol.document.Next (first :: others)
      (.node { type := .document, location := first.start } (phrasesOf pieces)) := by
  intro s rest hClean hTokens hRest
  rw [← hFirst] at hTokens
  have hRounds : pieces.length < s.remaining.length :=
    hTokens ▸ length_lt_append hStarts hRest.ne_nil
  obtain ⟨s', hGrow, hMoves⟩ := growDefinitions_accepts
    { type := .document, location := first.start } [] hRounds hPieces hStarts hClean hTokens hRest
  refine ⟨s', ?_, hFirst ▸ hMoves⟩
  rw [hFirst] at hTokens
  have hCurrent := current_of_remaining hTokens
  have hNotEnd : s.atEnd = false := by
    refine Bool.eq_false_iff.2 fun hEnd => ?_
    have hKind := atEnd_iff.1 hEnd
    rw [hCurrent] at hKind
    obtain ⟨next, more, rfl⟩ := List.exists_cons_of_ne_nil hRest.ne_nil
    cases others <;> exact (hTokens ▸ hClean.closed).kind_ne_eof hKind
  rw [document, current_bind, get_bind, hNotEnd, if_neg Bool.false_ne_true, bound_bind, hCurrent]
  exact hGrow

/-- A production nested at most so many levels deep, or else within the tokens ahead. -/
def upTo (within : Nat → Parser Outline) : Option Nat → Parser Outline
  | some levels => within levels
  | none => do within (← bound)

/-- The production of a kind of phrase. The bound is that of values and selection sets. -/
def production (levels : Option Nat) : Symbol → Parser Outline
  | .document => document
  | .definition => definition
  | .variableDefinitions => variableDefinitions
  | .variableDefinition => variableDefinition
  | .directive => directive
  | .arguments => arguments
  | .argument => inputItem (upTo valueWithin levels)
  | .selectionSet => upTo selectionSetWithin levels
  | .selection => selection (upTo selectionSetWithin levels)
  | .value => upTo valueWithin levels

/-- A bound that some tokens do not exceed. -/
def Enough (levels : Option Nat) (tokens : List Token) : Prop :=
  ∀ n ∈ levels, tokens.length ≤ n

theorem enough_none (tokens : List Token) : Enough none tokens := fun _ h => nomatch h

theorem Enough.of_le {levels : Option Nat} {tokens more : List Token} (h : Enough levels more)
    (hLength : tokens.length ≤ more.length) : Enough levels tokens :=
  fun n hn => Nat.le_trans hLength (h n hn)

/-- What is accepted at every level that is deep enough is accepted as deep as allowed. -/
theorem upTo_accepts {within : Nat → Parser Outline} {levels : Option Nat} {tokens : List Token}
    {phrase : Outline} {Next : Token → Prop} (hTokens : tokens ≠ [])
    (hEnough : Enough levels tokens)
    (h : ∀ n, tokens.length ≤ n + 1 → Accepts (within (n + 1)) Next tokens phrase) :
    Accepts (upTo within levels) Next tokens phrase := by
  have hBounded (n : Nat) (hLength : tokens.length ≤ n) :
      Accepts (within n) Next tokens phrase := by
    obtain ⟨n, rfl⟩ := Nat.exists_eq_add_one.2
      (Nat.lt_of_lt_of_le (List.length_pos_iff.2 hTokens) hLength)
    exact h n hLength
  cases levels with
  | some n => exact hBounded n (hEnough n rfl)
  | none =>
      intro s rest hClean hRemaining hRest
      have hLength : tokens.length ≤ s.remaining.length := by simp [hRemaining]
      exact hBounded _ hLength hClean hRemaining hRest

/-- Any collection is accepted if its items are. -/
theorem enclosed_accepts {x item : Symbol} {type : NodeType} {enclosure : Enclosure}
    (hRule : Encloses x type enclosure item) {opening closing : Token} {pieces : List Piece}
    (hOpen : opening.kind = enclosure.opener) (hClose : closing.kind = enclosure.closer)
    (hStarts : ∀ p ∈ pieces, Begins item.Starts p.1)
    (hItems : ∀ p ∈ pieces, ∀ levels, Enough levels p.1 →
      Accepts (production levels item) item.Next p.1 p.2)
    {levels : Option Nat} (hEnough : Enough levels (opening :: (tokensOf pieces ++ [closing]))) :
    Accepts (production levels x) x.Next (opening :: (tokensOf pieces ++ [closing]))
      (.node { type, location := opening.start } (phrasesOf pieces)) := by
  have hFree (p : Piece) (hp : p ∈ pieces) := hItems p hp none (enough_none p.1)
  -- an item lies one level deeper and is at least two tokens shorter than the whole
  have hWithin {n : Nat} (hLength : (opening :: (tokensOf pieces ++ [closing])).length ≤ n + 1)
      (p : Piece) (hp : p ∈ pieces) :
      Accepts (production (some n) item) item.Next p.1 p.2 := by
    refine hItems p hp (some n) fun m hm => ?_
    have hPiece := length_le_of_mem hp
    simp only [List.length_cons, List.length_append] at hLength
    cases hm
    omega
  cases hRule with
  | arguments =>
      exact collection_accepts hOpen hFree hStarts (fun t => arguments_inside) hClose trivial
  | variableDefinitions =>
      refine collection_accepts hOpen hFree hStarts (fun t ht => ?_) hClose ?_
      · simp [Symbol.Next, TokenKind.isCloser, show t.kind = .dollar from ht]
      · simp [Symbol.Next, hClose, Enclosure.closer]
  | selectionSet =>
      refine upTo_accepts (by simp) hEnough fun n hLength => ?_
      refine collection_accepts hOpen (hWithin hLength) hStarts (fun t ht => ?_) hClose ?_
      · rcases ht with hKind | hKind <;> simp [Symbol.Next, TokenKind.isCloser, hKind]
      · simp [Symbol.Next, hClose, Enclosure.closer]
  | listValue =>
      refine upTo_accepts (by simp) hEnough fun n hLength => ?_
      intro s rest hClean hTokens hRest
      rw [valueWithin_of_form n (show _ = some ValueForm.listValue by
        rw [current_of_remaining hTokens, ValueForm.startingAt?, hOpen]; rfl)]
      exact listValue_accepts hOpen (hWithin hLength) hStarts hClose hClean hTokens hRest
  | objectValue =>
      refine upTo_accepts (by simp) hEnough fun n hLength => ?_
      intro s rest hClean hTokens hRest
      rw [valueWithin_of_form n (show _ = some ValueForm.objectValue by
        rw [current_of_remaining hTokens, ValueForm.startingAt?, hOpen]; rfl)]
      exact collection_accepts hOpen (hWithin hLength) hStarts (fun t => arguments_inside) hClose
        trivial hClean hTokens hRest

/-- The phrase of a derivation is what the production of its kind gives. -/
theorem production_accepts {x : Symbol} {tokens : List Token} {phrase : Outline}
    (h : Forms x tokens phrase) {levels : Option Nat} (hEnough : Enough levels tokens) :
    Accepts (production levels x) x.Next tokens phrase := by
  induction h generalizing levels with
  | @atom type head label hValue hHead =>
      exact upTo_accepts (hHead.begins_value hValue).ne_nil hEnough
        fun n _ => atom_accepts n hHead hValue
  | enclosed hRule hOpen hItems hClose ih =>
      exact enclosed_accepts hRule hOpen hClose (fun p hp => (hItems p hp).begins)
        (fun p hp levels => ih p hp) hEnough
  | argument hHead hValue ih =>
      exact inputItem_accepts hHead (ih (hEnough.of_le (by simp))) hValue.begins
  | directive hHead hArguments ih =>
      exact directive_accepts hHead (fun p hp => ih p hp (enough_none _))
        (fun p hp => (hArguments p hp).begins)
  | @field head label arguments selections directives hHead hArguments hDirectives hSelections
      ihArguments ihDirectives ihSelections =>
      have hSelection : Accepts (field (upTo selectionSetWithin levels)) Symbol.selection.Next
          (head ++ tokensOf (arguments.toList ++ directives ++ selections.toList))
          (.node label (phrasesOf (arguments.toList ++ directives ++ selections.toList))) :=
        field_accepts (fun p hp => ihDirectives p hp (enough_none _))
          (fun p hp => (hDirectives p hp).begins) hHead
          (fun p hp => ihArguments p hp (enough_none _)) (fun p hp => (hArguments p hp).begins)
          (fun p hp => ihSelections p hp (hEnough.of_le (by
            have hPiece := length_le_of_mem (Option.mem_toList.2 hp)
            simp only [tokensOf_append, List.length_append]
            omega)))
          (fun p hp => (hSelections p hp).begins)
      intro s rest hClean hTokens hRest
      obtain ⟨s', hPhrase, hMoves⟩ := hSelection hClean hTokens hRest
      refine ⟨s', ?_, hMoves⟩
      have hAt : s.isAt .name = true := by
        cases hHead with
        | field hName => exact isAt_of_remaining hTokens hName rfl
        | aliasedField hAlias hColon hName => exact isAt_of_remaining hTokens hAlias rfl
      exact (selection_of_field hAt).trans hPhrase
  | spread hHead hDirectives ih =>
      exact spread_accepts (fun p hp => ih p hp (enough_none _))
        (fun p hp => (hDirectives p hp).begins) hHead
  | @inline head label directives selections hHead hDirectives hSelections ihDirectives
      ihSelections =>
      refine inline_accepts (fun p hp => ihDirectives p hp (enough_none _))
        (fun p hp => (hDirectives p hp).begins) hHead (ihSelections (hEnough.of_le ?_))
        hSelections.begins
      simp
      omega
  | declaration default hHead hEquals hConstant hDefault hDirectives ihDefault ihDirectives =>
      exact variableDefinition_accepts default hHead hEquals hConstant hDefault
        (fun d hd => ihDefault d hd (enough_none _))
        (fun p hp => ihDirectives p hp (enough_none _)) (fun p hp => (hDirectives p hp).begins)
  | shorthand hSelections ih =>
      exact shorthand_accepts (ih (enough_none _)) hSelections.begins
  | operation hHead hVariables hDirectives hSelections ihVariables ihDirectives ihSelections =>
      exact operation_accepts (fun p hp => ihDirectives p hp (enough_none _))
        (fun p hp => (hDirectives p hp).begins) (ihSelections (enough_none _)) hSelections.begins
        hHead (fun p hp => ihVariables p hp (enough_none _))
        (fun p hp => (hVariables p hp).begins)
  | fragment hHead hDirectives hSelections ihDirectives ihSelections =>
      exact namedFragment_accepts (fun p hp => ihDirectives p hp (enough_none _))
        (fun p hp => (hDirectives p hp).begins) (ihSelections (enough_none _)) hSelections.begins
        hHead
  | document hFirst hDefinitions ih =>
      exact document_accepts hFirst (fun p hp => ih p hp (enough_none _))
        (fun p hp => (hDefinitions p hp).begins)

end GraphQL.Grammar
