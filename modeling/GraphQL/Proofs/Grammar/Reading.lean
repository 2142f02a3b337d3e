import GraphQL.Proofs.Grammar.Phrase
import GraphQL.Proofs.Grammar.Steps

/-! Soundness of the productions. A production that succeeds has gone over tokens that are a phrase
of its kind, and gives that phrase. -/
namespace GraphQL.Grammar

open GraphQL.Parser TokenStream

/-- A production goes only over tokens that are what it gives. -/
def Reads (production : Parser Outline) (rule : List Token → Outline → Prop) : Prop :=
  ∀ ⦃s s' : TokenStream⦄ ⦃phrase : Outline⦄, Closed s.remaining →
    production s = .ok phrase s' → ∃ tokens, Moves s tokens s' ∧ rule tokens phrase

variable {s s' : TokenStream} {token : Token}

/-- A token of a kind that was looked for is left. -/
theorem leaves {kind : TokenKind} (hClosed : Closed s.remaining) (hAt : s.isAt kind = true)
    (h : s.advance = (.ok token, s')) (hKind : kind.isError = false ∧ kind ≠ .eof) :
    token.kind = kind ∧ Moves s [token] s' := by
  have hCurrent := (isAt_iff hKind.1).1 hAt
  obtain ⟨rfl, hMoves⟩ := moves_advance hClosed (hCurrent ▸ hKind.2) h
  exact ⟨hCurrent, hMoves⟩

/-- A word that is left is the one that was asked for. -/
theorem leavesWord {word : String} (hClosed : Closed s.remaining) (hAt : s.isAtWord word = true)
    (h : s.advance = (.ok token, s')) : token.isWord word = true ∧ Moves s [token] s' := by
  have hName := (isWord_iff.1 hAt).1
  obtain ⟨rfl, hMoves⟩ := moves_advance hClosed (by rw [hName]; decide) h
  exact ⟨hAt, hMoves⟩

theorem opener_plain (enclosure : Enclosure) :
    enclosure.opener.isError = false ∧ enclosure.opener ≠ .eof := by
  cases enclosure <;> decide

theorem closer_plain (enclosure : Enclosure) :
    enclosure.closer.isError = false ∧ enclosure.closer ≠ .eof := by
  cases enclosure <;> decide

section Growing

variable {child : Parser Outline} {rule : List Token → Outline → Prop} {label : Label}
  {before : List Outline} {node : Outline}

/-- A phrase grown is one that its reader reads, behind those before it. -/
theorem grow_reads (hChild : Reads child rule) (hClosed : Closed s.remaining)
    (h : grow (.node label before) child s = .ok node s') :
    ∃ piece : Piece, Moves s piece.1 s' ∧ rule piece.1 piece.2 ∧
      node = .node label (before ++ [piece.2]) := by
  obtain ⟨phrase, hPhrase, rfl⟩ := grow_eq_ok.1 h
  obtain ⟨tokens, hMoves, hRule⟩ := hChild hClosed hPhrase
  exact ⟨(tokens, phrase), hMoves, hRule, rfl⟩

/-- A part that may be missing is one that its reader reads, or none. -/
theorem growAt_reads {kind : TokenKind} (hChild : Reads child rule) (hClosed : Closed s.remaining)
    (h : growAt kind (.node label before) child s = .ok node s') :
    ∃ piece : Option Piece, Moves s (tokensOf piece.toList) s' ∧
      (∀ p ∈ piece, rule p.1 p.2) ∧ node = .node label (before ++ phrasesOf piece.toList) := by
  cases hAt : s.isAt kind with
  | true =>
      rw [growAt_of_at hAt] at h
      obtain ⟨piece, hMoves, hRule, rfl⟩ := grow_reads hChild hClosed h
      exact ⟨some piece, by simpa using hMoves, by simpa using hRule, rfl⟩
  | false =>
      rw [growAt_of_not_at hAt] at h
      cases h
      exact ⟨none, .refl hClosed, by simp, by simp⟩

/-- Parts grown in a row are read one by one, by induction on the rounds. -/
theorem growWhileAt_reads {kind : TokenKind} (hChild : Reads child rule) {rounds : Nat}
    (hClosed : Closed s.remaining)
    (h : growWhileAt kind child rounds (.node label before) s = .ok node s') :
    ∃ pieces : List Piece, Moves s (tokensOf pieces) s' ∧
      (∀ p ∈ pieces, rule p.1 p.2) ∧ node = .node label (before ++ phrasesOf pieces) := by
  induction rounds generalizing s before with
  | zero => simp [growWhileAt] at h
  | succ rounds ih =>
      cases hAt : s.isAt kind with
      | true =>
          rw [growWhileAt_of_at hAt, estate_bind_eq_ok] at h
          obtain ⟨grown, middle, hGrow, h⟩ := h
          obtain ⟨piece, hFirst, hRule, rfl⟩ := grow_reads hChild hClosed hGrow
          obtain ⟨pieces, hMore, hRules, rfl⟩ := ih hFirst.closed h
          exact ⟨piece :: pieces, hFirst.trans hMore, List.forall_mem_cons.2 ⟨hRule, hRules⟩,
            by simp⟩
      | false =>
          rw [growWhileAt_of_not_at hAt] at h
          cases h
          exact ⟨[], .refl hClosed, by simp, by simp⟩

/-- Items up to the closing delimiter are read one by one, by induction on the rounds. -/
theorem growUntilClosed_reads {enclosure : Enclosure} {opening : Token} (hChild : Reads child rule)
    {rounds : Nat} (hClosed : Closed s.remaining)
    (h : growUntilClosed enclosure opening child rounds (.node label before) s = .ok node s') :
    ∃ (pieces : List Piece) (closing : Token), Moves s (tokensOf pieces ++ [closing]) s' ∧
      (∀ p ∈ pieces, rule p.1 p.2) ∧ closing.kind = enclosure.closer ∧
      node = .node label (before ++ phrasesOf pieces) := by
  induction rounds generalizing s before with
  | zero => simp [growUntilClosed] at h
  | succ rounds ih =>
      simp only [growUntilClosed, estate_bind_eq_ok, keeping_eq_ok, closes_eq_ok] at h
      obtain ⟨_, middle, ⟨rfl, hAt, closing, hAdvance⟩ | ⟨rfl, -, -, -, rfl⟩, h⟩ := h
      · obtain ⟨rfl, rfl⟩ := estate_pure_eq_ok.1 h
        obtain ⟨hCloser, hMoves⟩ := leaves hClosed hAt hAdvance (closer_plain enclosure)
        exact ⟨[], closing, hMoves, by simp, hCloser, by simp⟩
      · simp only [Bool.false_eq_true, if_false, estate_bind_eq_ok] at h
        obtain ⟨grown, middle, hGrow, h⟩ := h
        obtain ⟨piece, hFirst, hRule, rfl⟩ := grow_reads hChild hClosed hGrow
        obtain ⟨pieces, closing, hMore, hRules, hCloser, rfl⟩ := ih hFirst.closed h
        exact ⟨piece :: pieces, closing, by simpa using hFirst.trans hMore,
          List.forall_mem_cons.2 ⟨hRule, hRules⟩, hCloser, by simp⟩

end Growing

/-- A collection that is read is formed of its items and the delimiters around them. -/
theorem collection_reads {x item : Symbol} {type : NodeType} {enclosure : Enclosure}
    (hRule : Encloses x type enclosure item) {production : Parser Outline}
    (hItem : Reads production (Forms item)) :
    Reads (collection type enclosure production) (Forms x) := by
  intro s s' phrase hClosed h
  simp only [collection, estate_bind_eq_ok, openEnclosure_eq_ok, bound_bind] at h
  obtain ⟨opening, middle, ⟨hAt, hAdvance⟩, h⟩ := h
  obtain ⟨hOpen, hOpening⟩ := leaves hClosed hAt hAdvance (opener_plain enclosure)
  obtain ⟨pieces, closing, hMoves, hItems, hClose, rfl⟩ :=
    growUntilClosed_reads hItem hOpening.closed h
  exact ⟨_, hOpening.trans hMoves, .enclosed hRule hOpen hItems hClose⟩

theorem scalarValue_reads : Reads scalarValue (Forms .value) := by
  intro s s' phrase hClosed h
  cases hKind : scalarKindOf? s.current with
  | none => simp [scalarValue, hKind] at h
  | some kind =>
      simp only [scalarValue, current_bind, hKind, estate_bind_eq_ok, advance_eq_ok,
        estate_pure_eq_ok] at h
      obtain ⟨token, _, hAdvance, rfl, rfl⟩ := h
      have hEnd : s.current.kind ≠ .eof := by
        intro hEnd
        simp [scalarKindOf?, hEnd] at hKind
      obtain ⟨rfl, hMoves⟩ := moves_advance hClosed hEnd hAdvance
      exact ⟨_, hMoves, .atom rfl (.scalar hKind)⟩

/-- An enum value is a name that is none of the reserved ones. -/
theorem enumValue_reads : Reads enumValue (Forms .value) := by
  intro s s' phrase hClosed h
  by_cases hText : s.current.text ∈ ["true", "false", "null"]
  · simp only [enumValue, current_bind, hText, if_true, failExpecting_ne_ok] at h
  · simp only [enumValue, current_bind, hText, if_false, estate_bind_eq_ok, expectName_eq_ok,
      estate_pure_eq_ok] at h
    obtain ⟨token, _, ⟨hAt, hAdvance⟩, rfl, rfl⟩ := h
    obtain ⟨hName, hMoves⟩ := leaves hClosed hAt hAdvance (by decide)
    have hToken := current_of_remaining hMoves.remaining
    exact ⟨_, hMoves, .atom rfl (.enumeration hName (hToken ▸ hText))⟩

theorem nullValue_reads : Reads nullValue (Forms .value) := by
  intro s s' phrase hClosed h
  simp only [nullValue, estate_bind_eq_ok, expectWord_eq_ok, estate_pure_eq_ok] at h
  obtain ⟨token, _, ⟨hAt, hAdvance⟩, rfl, rfl⟩ := h
  obtain ⟨hWord, hMoves⟩ := leavesWord hClosed hAt hAdvance
  exact ⟨_, hMoves, .atom rfl (.null hWord)⟩

theorem variableValue_reads : Reads variableValue (Forms .value) := by
  intro s s' phrase hClosed h
  simp only [variableValue, estate_bind_eq_ok, expect_eq_ok, expectName_eq_ok,
    estate_pure_eq_ok] at h
  obtain ⟨dollar, _, ⟨hDollar, hFirst⟩, name, _, ⟨hName, hSecond⟩, rfl, rfl⟩ := h
  obtain ⟨hDollar, hFirst⟩ := leaves hClosed hDollar hFirst (by decide)
  obtain ⟨hName, hSecond⟩ := leaves hFirst.closed hName hSecond (by decide)
  exact ⟨_, hFirst.trans hSecond, .atom rfl (.variableUsage hDollar hName)⟩

theorem listValue_reads {value : Parser Outline} (hValue : Reads value (Forms .value)) :
    Reads (listValue value) (Forms .value) := by
  refine collection_reads .listValue fun s s' phrase hClosed h => ?_
  rw [current_bind] at h
  cases hForm : ValueForm.startingAt? s.current with
  | none => simp [hForm] at h
  | some form => exact hValue hClosed (by simpa [hForm] using h)

theorem inputItem_reads {value : Parser Outline} (hValue : Reads value (Forms .value)) :
    Reads (inputItem value) (Forms .argument) := by
  intro s s' phrase hClosed h
  simp only [inputItem, estate_bind_eq_ok, expect_eq_ok, expectName_eq_ok, current_bind] at h
  obtain ⟨name, _, ⟨hName, hFirst⟩, colon, middle, ⟨hColon, hSecond⟩, h⟩ := h
  obtain ⟨hName, hFirst⟩ := leaves hClosed hName hFirst (by decide)
  obtain ⟨hColon, hSecond⟩ := leaves hFirst.closed hColon hSecond (by decide)
  cases hForm : ValueForm.startingAt? middle.current with
  | none => simp [hForm] at h
  | some form =>
      simp only [hForm] at h
      obtain ⟨piece, hMoves, hPiece, rfl⟩ := grow_reads hValue hSecond.closed h
      exact ⟨_, (hFirst.trans hSecond).trans hMoves, .argument (.argument hName hColon) hPiece⟩

/-- A value is formed as its form says. -/
theorem ValueForm.production_reads {value : Parser Outline} (hValue : Reads value (Forms .value))
    (form : ValueForm) : Reads (form.production value) (Forms .value) := by
  cases form with
  | variableValue => exact variableValue_reads
  | listValue => exact listValue_reads hValue
  | objectValue => exact collection_reads .objectValue (inputItem_reads hValue)
  | scalarValue => exact scalarValue_reads
  | nullValue => exact nullValue_reads
  | enumValue => exact enumValue_reads

/-- By induction on the levels: what a value has inside is read a level further down. -/
theorem valueWithin_reads (levels : Nat) : Reads (valueWithin levels) (Forms .value) := by
  induction levels with
  | zero => exact fun s s' phrase _ h => absurd h beyondBound_ne_ok
  | succ levels ih =>
      intro s s' phrase hClosed h
      rw [valueWithin, current_bind] at h
      cases hForm : ValueForm.startingAt? s.current with
      | none => simp [hForm] at h
      | some form => exact form.production_reads ih hClosed (by simpa [hForm] using h)

theorem value_reads : Reads value (Forms .value) := by
  intro s s' phrase hClosed h
  rw [value, bound_bind] at h
  exact valueWithin_reads _ hClosed h

theorem arguments_reads : Reads arguments (Forms .arguments) :=
  collection_reads .arguments (inputItem_reads value_reads)

theorem directive_reads : Reads directive (Forms .directive) := by
  intro s s' phrase hClosed h
  simp only [directive, estate_bind_eq_ok, expect_eq_ok, expectName_eq_ok] at h
  obtain ⟨sign, _, ⟨hSign, hFirst⟩, name, _, ⟨hName, hSecond⟩, h⟩ := h
  obtain ⟨hSign, hFirst⟩ := leaves hClosed hSign hFirst (by decide)
  obtain ⟨hName, hSecond⟩ := leaves hFirst.closed hName hSecond (by decide)
  obtain ⟨arguments, hMoves, hArguments, rfl⟩ := growAt_reads arguments_reads hSecond.closed h
  exact ⟨_, (hFirst.trans hSecond).trans hMoves, .directive (.directive hSign hName) hArguments⟩

/-- What is grown as directives is formed of them, in order. -/
theorem growDirectives_reads {label : Label} {before : List Outline} {node : Outline}
    (hClosed : Closed s.remaining) (h : growDirectives (.node label before) s = .ok node s') :
    ∃ pieces : List Piece, Moves s (tokensOf pieces) s' ∧
      (∀ p ∈ pieces, Forms .directive p.1 p.2) ∧
      node = .node label (before ++ phrasesOf pieces) := by
  rw [growDirectives, bound_bind] at h
  exact growWhileAt_reads directive_reads hClosed h

section Selections

variable {selections : Parser Outline} (hSelections : Reads selections (Forms .selectionSet))
include hSelections

/-- What may follow the name of a field: arguments, directives and selections. -/
theorem fieldInside_reads {head : List Token} {label : Label} {start : TokenStream}
    {phrase : Outline} (hHead : Head .field head label) (hStart : Moves start head s)
    (h : ∃ node middle, growAt .parenOpen (.node label []) arguments s = .ok node middle ∧
      ∃ full last, growDirectives node middle = .ok full last ∧
        growAt .curlyOpen full selections last = .ok phrase s') :
    ∃ tokens, Moves start tokens s' ∧ Forms .selection tokens phrase := by
  obtain ⟨_, _, hGrowArguments, _, _, hGrowDirectives, h⟩ := h
  obtain ⟨arguments, hFirst, hArguments, rfl⟩ :=
    growAt_reads arguments_reads hStart.closed hGrowArguments
  obtain ⟨directives, hSecond, hDirectives, rfl⟩ :=
    growDirectives_reads hFirst.closed hGrowDirectives
  obtain ⟨inner, hThird, hInner, rfl⟩ := growAt_reads hSelections hSecond.closed h
  refine ⟨_, ((hStart.trans hFirst).trans hSecond).trans hThird, ?_⟩
  simpa using Forms.field hHead hArguments hDirectives hInner

/-- A field is formed of an alias or none, its name and the parts that it may have. -/
theorem field_reads : Reads (field selections) (Forms .selection) := by
  intro s s' phrase hClosed h
  simp only [field, estate_bind_eq_ok, expectName_eq_ok, isAt_bind] at h
  obtain ⟨first, middle, ⟨hAt, hAdvance⟩, h⟩ := h
  obtain ⟨hFirst, hMoves⟩ := leaves hClosed hAt hAdvance (by decide)
  cases hColon : middle.isAt .colon with
  | false =>
      simp only [hColon, Bool.false_eq_true, if_false, estate_bind_eq_ok, estate_pure_eq_ok] at h
      obtain ⟨_, _, ⟨rfl, rfl⟩, h⟩ := h
      exact fieldInside_reads hSelections (.field hFirst) hMoves h
  | true =>
      simp only [hColon, if_true, estate_bind_eq_ok, keeping_eq_ok, advance_eq_ok,
        expectName_eq_ok, estate_pure_eq_ok] at h
      obtain ⟨_, _, ⟨colon, _, hAdvance, name, _, ⟨hAt, hName⟩, rfl, rfl⟩, h⟩ := h
      obtain ⟨hColon, hSecond⟩ := leaves hMoves.closed hColon hAdvance (by decide)
      obtain ⟨hName, hThird⟩ := leaves hSecond.closed hAt hName (by decide)
      exact fieldInside_reads hSelections (.aliasedField hFirst hColon hName)
        ((hMoves.trans hSecond).trans hThird) h

/-- What follows the dots and condition of an inline fragment: directives and selections. -/
theorem inlineInside_reads {head : List Token} {label : Label} {start : TokenStream}
    {phrase : Outline} (hHead : Head .inlineFragment head label) (hStart : Moves start head s)
    (h : ∃ node middle, growDirectives (.node label []) s = .ok node middle ∧
      grow node selections middle = .ok phrase s') :
    ∃ tokens, Moves start tokens s' ∧ Forms .selection tokens phrase := by
  obtain ⟨_, _, hGrowDirectives, h⟩ := h
  obtain ⟨directives, hFirst, hDirectives, rfl⟩ :=
    growDirectives_reads hStart.closed hGrowDirectives
  obtain ⟨inner, hSecond, hInner, rfl⟩ := grow_reads hSelections hFirst.closed h
  refine ⟨_, (hStart.trans hFirst).trans hSecond, ?_⟩
  simpa using Forms.inline hHead hDirectives hInner

/-- An inline fragment has its type condition only behind the word `on`. -/
theorem inlineFragment_reads : Reads (inlineFragment selections) (Forms .selection) := by
  intro s s' phrase hClosed h
  simp only [inlineFragment, estate_bind_eq_ok, expect_eq_ok, isAtWord_bind] at h
  obtain ⟨dots, middle, ⟨hAt, hAdvance⟩, h⟩ := h
  obtain ⟨hDots, hMoves⟩ := leaves hClosed hAt hAdvance (by decide)
  cases hOn : middle.isAtWord "on" with
  | false =>
      simp only [hOn, Bool.false_eq_true, if_false, estate_bind_eq_ok, estate_pure_eq_ok] at h
      obtain ⟨_, _, ⟨rfl, rfl⟩, h⟩ := h
      exact inlineInside_reads hSelections (.inline hDots) hMoves h
  | true =>
      simp only [hOn, if_true, estate_bind_eq_ok, keeping_eq_ok, advance_eq_ok,
        expectName_eq_ok, estate_pure_eq_ok] at h
      obtain ⟨_, _, ⟨on, _, hAdvance, type, _, ⟨hAt, hType⟩, rfl, rfl⟩, h⟩ := h
      obtain ⟨hOn, hSecond⟩ := leavesWord hMoves.closed hOn hAdvance
      obtain ⟨hType, hThird⟩ := leaves hSecond.closed hAt hType (by decide)
      exact inlineInside_reads hSelections (.conditionedInline hDots hOn hType)
        ((hMoves.trans hSecond).trans hThird) h

end Selections

/-- The name of a fragment is any name but `on`. -/
theorem fragmentName_eq_ok {context : String} :
    fragmentName context s = .ok token s' ↔
      s.isAtWord "on" = false ∧ s.isAt .name = true ∧ s.advance = (.ok token, s') := by
  cases hOn : s.isAtWord "on" <;> simp [fragmentName, hOn]

theorem leavesFragmentName (hClosed : Closed s.remaining) (hOn : s.isAtWord "on" = false)
    (hAt : s.isAt .name = true) (h : s.advance = (.ok token, s')) :
    token.kind = .name ∧ token.text ≠ "on" ∧ Moves s [token] s' := by
  obtain ⟨hName, hMoves⟩ := leaves hClosed hAt h (by decide)
  refine ⟨hName, fun hText => ?_, hMoves⟩
  have hWord : token.isWord "on" = true := isWord_iff.2 ⟨hName, hText⟩
  rw [← current_of_remaining hMoves.remaining] at hWord
  exact Bool.false_ne_true (hOn.symm.trans hWord)

theorem fragmentSpread_reads : Reads fragmentSpread (Forms .selection) := by
  intro s s' phrase hClosed h
  simp only [fragmentSpread, estate_bind_eq_ok, expect_eq_ok, fragmentName_eq_ok] at h
  obtain ⟨dots, _, ⟨hAt, hDots⟩, name, _, ⟨hOn, hName, hAdvance⟩, h⟩ := h
  obtain ⟨hDots, hFirst⟩ := leaves hClosed hAt hDots (by decide)
  obtain ⟨hName, hOn, hSecond⟩ := leavesFragmentName hFirst.closed hOn hName hAdvance
  obtain ⟨directives, hThird, hDirectives, rfl⟩ := growDirectives_reads hSecond.closed h
  exact ⟨_, (hFirst.trans hSecond).trans hThird, .spread (.spread hDots hName hOn) hDirectives⟩

theorem selection_reads {selections : Parser Outline}
    (hSelections : Reads selections (Forms .selectionSet)) :
    Reads (selection selections) (Forms .selection) := by
  intro s s' phrase hClosed h
  rw [selection, isAt_bind] at h
  split at h
  · exact field_reads hSelections hClosed h
  · rw [isAt_bind] at h
    split at h
    · rw [get_bind] at h
      -- looking further ahead leaves every token where it is
      have hFetch := Moves.fetch 1 hClosed
      obtain ⟨tokens, hMoves, hForms⟩ : ∃ tokens, Moves (s.fetch 1) tokens s' ∧
          Forms .selection tokens phrase := by
        split at h
        · exact fragmentSpread_reads hFetch.closed (by simpa using h)
        · exact inlineFragment_reads hSelections hFetch.closed (by simpa using h)
      exact ⟨tokens, hFetch.trans hMoves, hForms⟩
    · simp at h

/-- By induction on the levels: the selections inside are read a level further down. -/
theorem selectionSetWithin_reads (levels : Nat) :
    Reads (selectionSetWithin levels) (Forms .selectionSet) := by
  induction levels with
  | zero => exact fun s s' phrase _ h => absurd h beyondBound_ne_ok
  | succ levels ih => exact collection_reads .selectionSet (selection_reads ih)

/-- What is read as selections is formed of them between braces. -/
theorem selectionSet_reads : Reads selectionSet (Forms .selectionSet) := by
  intro s s' phrase hClosed h
  rw [selectionSet, bound_bind] at h
  exact selectionSetWithin_reads _ hClosed h

/-- What a stream moved over is covered from where it started to the end of the last token. -/
theorem cover_of_moves {tokens : List Token} (h : Moves s tokens s') (hTokens : tokens ≠ []) :
    Token.cover tokens = ⟨s.current.start.offset, s'.previousEnd.offset⟩ := by
  obtain ⟨first, rest, rfl⟩ := List.exists_cons_of_ne_nil hTokens
  have hFirst := current_of_remaining h.remaining
  rw [h.stop, List.getLast?_cons]
  simp [Token.cover, List.getLast?_cons, hFirst]

/-- The bytes of a type go to the mark behind it if there is one. -/
theorem typeEnd_reads {start : TokenStream} {tokens : List Token} {range : ByteRange}
    (hStart : Moves start tokens s) (hTokens : tokens ≠ [])
    (h : typeEnd start.current.start s = .ok range s') :
    ∃ mark, IsMark mark ∧ Moves start (tokens ++ mark) s' ∧
      range = Token.cover (tokens ++ mark) := by
  cases hAt : s.isAt .bang with
  | false =>
      rw [typeEnd_of_not_at hAt] at h
      cases h
      exact ⟨[], .inl rfl, by simpa using hStart, by simp [cover_of_moves hStart hTokens]⟩
  | true =>
      obtain ⟨bang, hAdvance, rfl⟩ := (typeEnd_of_at hAt).1 h
      obtain ⟨hBang, hMoves⟩ := leaves hStart.closed hAt hAdvance (by decide)
      have hAll := hStart.trans hMoves
      exact ⟨[bang], .inr ⟨bang, hBang, rfl⟩, hAll, (cover_of_moves hAll (by simp)).symm⟩

/-- By induction on the levels: what is read as a type is one, and its bytes are those told. -/
theorem typeWithin_reads {levels : Nat} {range : ByteRange} (hClosed : Closed s.remaining)
    (h : typeWithin levels s = .ok range s') :
    ∃ tokens, Moves s tokens s' ∧ IsType tokens ∧ range = Token.cover tokens := by
  induction levels generalizing s s' range with
  | zero => simp [typeWithin] at h
  | succ levels ih =>
      cases hAt : s.isAt .squareOpen with
      | true =>
          obtain ⟨opening, _, hAdvance, _, _, hInner, _, hCloses, h⟩ :=
            (typeWithin_of_list hAt).1 h
          obtain ⟨hOpen, hFirst⟩ := leaves hClosed hAt hAdvance (by decide)
          obtain ⟨item, hSecond, hItem, -⟩ := ih hFirst.closed hInner
          simp only [closes_eq_ok, true_and, Bool.true_eq_false, false_and, or_false] at hCloses
          obtain ⟨hClose, closing, hAdvance⟩ := hCloses
          obtain ⟨hClose, hThird⟩ := leaves hSecond.closed hClose hAdvance (by decide)
          obtain ⟨mark, hMark, hMoves, rfl⟩ :=
            typeEnd_reads ((hFirst.trans hSecond).trans hThird) (by simp) h
          exact ⟨_, hMoves, by simpa using IsType.list hOpen hItem hClose hMark, rfl⟩
      | false =>
          obtain ⟨hName, name, _, hAdvance, h⟩ := (typeWithin_of_not_list hAt).1 h
          obtain ⟨hName, hFirst⟩ := leaves hClosed hName hAdvance (by decide)
          obtain ⟨mark, hMark, hMoves, rfl⟩ := typeEnd_reads hFirst (by simp) h
          exact ⟨_, hMoves, .named hName hMark, rfl⟩

/-- The tokens between two cursors are those that the stream moved over. -/
theorem tokensBetween_of_moves {tokens : List Token} (h : Moves s tokens s') :
    tokensBetween s s' = tokens := by
  have hLength : s.ahead.length - s'.ahead.length = tokens.length := by
    have hAll := congrArg List.length h.remaining
    simp only [TokenStream.remaining, List.length_append, List.length_cons] at hAll
    omega
  have hRemaining : s.current :: s.ahead = tokens ++ s'.remaining := h.remaining
  rw [tokensBetween, hLength, hRemaining, List.take_left]

/-- No variable is found exactly if there is none; a dollar sign at the end would be overlooked. -/
theorem firstVariable?_eq_none {tokens : List Token} {last : Token}
    (hLast : tokens.getLast? = some last) (hDollar : last.kind ≠ .dollar) :
    firstVariable? tokens = none ↔ Constant tokens := by
  fun_induction firstVariable? tokens with
  | case1 dollar name rest hFirst => simp [Constant, hFirst]
  | case2 dollar name rest hFirst ih =>
      rw [ih (by simpa [List.getLast?_cons] using hLast)]
      simp [Constant, hFirst]
  | case3 tokens hShort =>
      cases tokens with
      | nil => simp [Constant]
      | cons token tokens =>
          cases tokens with
          | nil =>
              obtain rfl : token = last := by simpa using hLast
              simpa [Constant] using hDollar
          | cons next tokens => exact absurd rfl (hShort token next tokens)

/-- A default that is read is formed of a sign and a constant value. -/
theorem growDefault_reads {label : Label} {before : List Outline} {node : Outline}
    (hClosed : Closed s.remaining) (hAt : s.isAt .equals = true)
    (h : growDefault (.node label before) s = .ok node s') :
    ∃ (equals : Token) (value : Piece), Moves s (equals :: value.1) s' ∧
      equals.kind = .equals ∧ Constant value.1 ∧ Forms .value value.1 value.2 ∧
      node = .node label (before ++ [value.2]) := by
  simp only [growDefault, estate_bind_eq_ok, keeping_eq_ok, advance_eq_ok, current_bind] at h
  obtain ⟨equals, middle, hAdvance, h⟩ := h
  obtain ⟨hEquals, hFirst⟩ := leaves hClosed hAt hAdvance (by decide)
  cases hForm : ValueForm.startingAt? middle.current with
  | none => simp [hForm] at h
  | some form =>
      simp only [hForm, get_bind, estate_bind_eq_ok] at h
      obtain ⟨grown, last, hGrow, h⟩ := h
      obtain ⟨value, hMoves, hValue, rfl⟩ := grow_reads value_reads hFirst.closed hGrow
      obtain ⟨token, hLast, hDollar⟩ := hValue.last_value
      rw [tokensBetween_of_moves hMoves] at h
      cases hVariable : firstVariable? value.1 with
      | some found => simp [hVariable] at h
      | none =>
          simp only [hVariable, estate_pure_eq_ok] at h
          obtain ⟨rfl, rfl⟩ := h
          exact ⟨equals, value, hFirst.trans hMoves, hEquals,
            (firstVariable?_eq_none hLast hDollar).1 hVariable, hValue, rfl⟩

/-- A variable is formed with its default and directives once its head was read. -/
theorem variableInside_reads {head : List Token} {label : Label} {start : TokenStream}
    {phrase : Outline} (hHead : Head .variable head label) (hStart : Moves start head s)
    (h : variableInside (.node label []) s = .ok phrase s') :
    ∃ tokens, Moves start tokens s' ∧ Forms .variableDefinition tokens phrase := by
  cases hAt : s.isAt .equals with
  | false =>
      rw [variableInside_of_not_at hAt] at h
      obtain ⟨directives, hMoves, hDirectives, rfl⟩ := growDirectives_reads hStart.closed h
      exact ⟨_, hStart.trans hMoves, .declaration none hHead (by simp) (by simp) (by simp)
        hDirectives⟩
  | true =>
      rw [variableInside_of_at hAt, estate_bind_eq_ok] at h
      obtain ⟨_, _, hDefault, h⟩ := h
      obtain ⟨equals, value, hFirst, hEquals, hConstant, hValue, rfl⟩ :=
        growDefault_reads hStart.closed hAt hDefault
      obtain ⟨directives, hSecond, hDirectives, rfl⟩ := growDirectives_reads hFirst.closed h
      refine ⟨_, (hStart.trans hFirst).trans hSecond, ?_⟩
      have hForms := Forms.declaration (some (equals, value)) hHead
        (by simpa using hEquals) (by simpa using hConstant) (by simpa using hValue) hDirectives
      simpa [defaultTokens, defaultPhrases] using hForms

theorem variableDefinition_reads : Reads variableDefinition (Forms .variableDefinition) := by
  intro s s' phrase hClosed h
  obtain ⟨dollar, _, ⟨hAt, hDollar⟩, name, _, ⟨hAtName, hName⟩, hAtColon, colon, _, hColon, _, _,
    hRange, h⟩ := variableDefinition_eq_ok.1 h
  obtain ⟨hDollar, hFirst⟩ := leaves hClosed hAt hDollar (by decide)
  obtain ⟨hName, hSecond⟩ := leaves hFirst.closed hAtName hName (by decide)
  obtain ⟨hColon, hThird⟩ := leaves hSecond.closed hAtColon hColon (by decide)
  rw [typeRange, bound_bind] at hRange
  obtain ⟨type, hFourth, hType, rfl⟩ := typeWithin_reads hThird.closed hRange
  exact variableInside_reads (.declaration hDollar hName hColon hType)
    (((hFirst.trans hSecond).trans hThird).trans hFourth) h

theorem variableDefinitions_reads : Reads variableDefinitions (Forms .variableDefinitions) :=
  collection_reads .variableDefinitions variableDefinition_reads

theorem any_isWord {words : List String} :
    words.any token.isWord = true ↔ token.kind = .name ∧ token.text ∈ words := by
  induction words with
  | nil => simp
  | cons word words ih => simp [isWord_iff, ih]; grind

/-- The head of an operation is its keyword and perhaps a name. -/
theorem operationHead_reads {keyword : Token} {node : Outline} (hClosed : Closed s.remaining)
    (hWord : operationWords.any s.current.isWord = true)
    (h : operationHead (.node { type := .operation, location := s.current.start } []) s =
      .ok (keyword, node) s') :
    ∃ head label, Moves s head s' ∧ Head .operation head label ∧ node = .node label [] := by
  obtain ⟨hKeyword, hText⟩ := any_isWord.1 hWord
  simp only [operationHead, estate_bind_eq_ok, keeping_eq_ok, advance_eq_ok, isAt_bind] at h
  obtain ⟨first, middle, hAdvance, h⟩ := h
  obtain ⟨rfl, hFirst⟩ := moves_advance hClosed (by rw [hKeyword]; decide) hAdvance
  cases hAt : middle.isAt .name with
  | false =>
      simp only [hAt, Bool.false_eq_true, if_false, estate_pure_eq_ok, Prod.mk.injEq] at h
      obtain ⟨⟨-, rfl⟩, rfl⟩ := h
      exact ⟨_, _, hFirst, .operation hKeyword hText, rfl⟩
  | true =>
      simp only [hAt, if_true, estate_bind_eq_ok, keeping_eq_ok, advance_eq_ok,
        estate_pure_eq_ok, Prod.mk.injEq] at h
      obtain ⟨name, _, hAdvance, ⟨-, rfl⟩, rfl⟩ := h
      obtain ⟨hName, hSecond⟩ := leaves hFirst.closed hAt hAdvance (by decide)
      exact ⟨_, _, hFirst.trans hSecond, .namedOperation hKeyword hText hName, rfl⟩

theorem operation_reads : Reads operation (Forms .definition) := by
  intro s s' phrase hClosed h
  rw [operation, current_bind, isAt_bind] at h
  split at h
  · obtain ⟨⟨tokens, set⟩, hMoves, hSet, rfl⟩ := grow_reads selectionSet_reads hClosed h
    cases hSet with
    | @enclosed _ _ _ _ hRule opening _ pieces hOpen hItems hClose =>
        have hFirst := current_of_remaining hMoves.remaining
        refine ⟨_, hMoves, ?_⟩
        rw [hFirst]
        exact .shorthand (.enclosed hRule hOpen hItems hClose)
  · rw [isAtOneOf_bind] at h
    cases hWord : operationWords.any s.current.isWord with
    | false => simp [hWord] at h
    | true =>
        simp only [hWord, Bool.not_true, Bool.false_eq_true, if_false, estate_bind_eq_ok,
          isAt_bind] at h
        obtain ⟨⟨keyword, _⟩, _, hRead, _, _, hGrowVariables, _, last, hGrowDirectives, h⟩ := h
        obtain ⟨head, label, hFirst, hHead, rfl⟩ := operationHead_reads hClosed hWord hRead
        obtain ⟨declared, hSecond, hVariables, rfl⟩ :=
          growAt_reads variableDefinitions_reads hFirst.closed hGrowVariables
        obtain ⟨directives, hThird, hDirectives, rfl⟩ :=
          growDirectives_reads hSecond.closed hGrowDirectives
        cases hAt : last.isAt .curlyOpen with
        | false => simp [hAt] at h
        | true =>
            rw [hAt, if_pos rfl] at h
            obtain ⟨set, hFourth, hSet, rfl⟩ := grow_reads selectionSet_reads hThird.closed h
            refine ⟨_, ((hFirst.trans hSecond).trans hThird).trans hFourth, ?_⟩
            simpa using Forms.operation hHead hVariables hDirectives hSet

theorem namedFragment_reads : Reads namedFragment (Forms .definition) := by
  intro s s' phrase hClosed h
  simp only [namedFragment, estate_bind_eq_ok, expectWord_eq_ok, fragmentName_eq_ok,
    expectName_eq_ok] at h
  obtain ⟨keyword, _, ⟨hAtKeyword, hKeyword⟩, name, _, ⟨hNotOn, hAtName, hName⟩, on, _,
    ⟨hAtOn, hOn⟩, type, _, ⟨hAtType, hType⟩, _, _, hGrowDirectives, h⟩ := h
  obtain ⟨hKeyword, hFirst⟩ := leavesWord hClosed hAtKeyword hKeyword
  obtain ⟨hName, hNotOn, hSecond⟩ := leavesFragmentName hFirst.closed hNotOn hAtName hName
  obtain ⟨hOn, hThird⟩ := leavesWord hSecond.closed hAtOn hOn
  obtain ⟨hType, hFourth⟩ := leaves hThird.closed hAtType hType (by decide)
  have hHead := ((hFirst.trans hSecond).trans hThird).trans hFourth
  obtain ⟨directives, hInside, hDirectives, rfl⟩ :=
    growDirectives_reads hHead.closed hGrowDirectives
  obtain ⟨set, hLast, hSet, rfl⟩ := grow_reads selectionSet_reads hInside.closed h
  refine ⟨_, (hHead.trans hInside).trans hLast, ?_⟩
  simpa using Forms.fragment (.fragment hKeyword hName hNotOn hOn hType) hDirectives hSet

theorem definition_reads : Reads definition (Forms .definition) := by
  intro s s' phrase hClosed h
  rw [definition, isAt_bind, isAtOneOf_bind] at h
  split at h
  · exact operation_reads hClosed h
  · rw [isAtWord_bind] at h
    split at h
    · exact namedFragment_reads hClosed h
    · simp at h

/-- Definitions are read up to the end of the text, by induction on the rounds. -/
theorem growDefinitions_reads {rounds : Nat} {label : Label} {before : List Outline}
    {node : Outline} (hClosed : Closed s.remaining)
    (h : growDefinitions rounds (.node label before) s = .ok node s') :
    ∃ pieces : List Piece, Moves s (tokensOf pieces) s' ∧ s'.atEnd = true ∧
      (∀ p ∈ pieces, Forms .definition p.1 p.2) ∧
      node = .node label (before ++ phrasesOf pieces) := by
  induction rounds generalizing s before with
  | zero => simp [growDefinitions] at h
  | succ rounds ih =>
      rw [growDefinitions, get_bind] at h
      split at h
      · next hEnd =>
          obtain ⟨rfl, rfl⟩ := estate_pure_eq_ok.1 h
          exact ⟨[], .refl hClosed, hEnd, by simp, by simp⟩
      · rw [estate_bind_eq_ok] at h
        obtain ⟨grown, middle, hGrow, h⟩ := h
        obtain ⟨piece, hFirst, hRule, rfl⟩ := grow_reads definition_reads hClosed hGrow
        obtain ⟨pieces, hMore, hEnd, hRules, rfl⟩ := ih hFirst.closed h
        exact ⟨piece :: pieces, hFirst.trans hMore, hEnd, List.forall_mem_cons.2 ⟨hRule, hRules⟩,
          by simp⟩

/-- A document that is read goes up to the end of the text. -/
theorem document_reads {phrase : Outline} (hClosed : Closed s.remaining)
    (h : document s = .ok phrase s') :
    ∃ tokens, Moves s tokens s' ∧ s'.atEnd = true ∧ Forms .document tokens phrase := by
  rw [document, current_bind, get_bind] at h
  split at h
  · simp at h
  · next hNotEnd =>
      rw [bound_bind] at h
      obtain ⟨pieces, hMoves, hEnd, hDefinitions, rfl⟩ := growDefinitions_reads hClosed h
      refine ⟨_, hMoves, hEnd, ?_⟩
      cases hTokens : tokensOf pieces with
      | nil =>
          rw [hTokens] at hMoves
          have hSame := (List.cons.inj hMoves.remaining).1
          rw [atEnd, ← hSame] at hEnd
          exact absurd hEnd hNotEnd
      | cons first rest =>
          have hFirst := current_of_remaining (hTokens ▸ hMoves.remaining)
          rw [hFirst]
          exact .document hTokens hDefinitions

end GraphQL.Grammar
