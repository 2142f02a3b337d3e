import GraphQL.Proofs.Grammar.Reading

/-! Completeness of the productions. Where the tokens ahead are a phrase and the token after them is
none that the phrase could have gone on with, the production gives that phrase: no optional part is
taken or left wrongly, and no bound is ever reached. -/
namespace GraphQL

/-- The first of some tokens, which are not none, satisfies `P`. -/
def Begins (P : Token → Prop) : List Token → Prop
  | [] => False
  | t :: _ => P t

namespace Begins

variable {P Q : Token → Prop} {tokens more : List Token}

theorem ne_nil (h : Begins P tokens) : tokens ≠ [] := by
  cases tokens with
  | nil => exact h.elim
  | cons t tokens => simp

theorem mono (h : Begins P tokens) (hMono : ∀ t, P t → Q t) : Begins Q tokens := by
  cases tokens with
  | nil => exact h
  | cons t tokens => exact hMono t h

theorem append (h : Begins P tokens) : Begins P (tokens ++ more) := by
  cases tokens with
  | nil => exact h.elim
  | cons t tokens => exact h

/-- Pieces that all begin alike begin so together, or what follows them does. -/
theorem tokensOf_append {pieces : List Piece} (hPieces : ∀ p ∈ pieces, Begins P p.1)
    (hMore : Begins P more) : Begins P (tokensOf pieces ++ more) := by
  cases pieces with
  | nil => exact hMore
  | cons piece pieces =>
      rw [tokensOf_cons, List.append_assoc]
      exact (hPieces piece List.mem_cons_self).append

end Begins

/-- Pieces that are not empty have a token each at least. -/
theorem length_le_tokensOf {P : Token → Prop} {pieces : List Piece}
    (h : ∀ p ∈ pieces, Begins P p.1) : pieces.length ≤ (tokensOf pieces).length := by
  induction pieces with
  | nil => exact Nat.le_refl 0
  | cons piece pieces ih =>
      obtain ⟨hFirst, hRest⟩ := List.forall_mem_cons.1 h
      have hPiece := List.length_pos_iff.2 hFirst.ne_nil
      have hPieces := ih hRest
      simp only [List.length_cons, tokensOf_cons, List.length_append]
      omega

/-- As many rounds as there are tokens ahead are enough for some pieces with a token after them. -/
theorem length_lt_append {P : Token → Prop} {pieces : List Piece} {rest : List Token}
    (h : ∀ p ∈ pieces, Begins P p.1) (hRest : rest ≠ []) :
    pieces.length < (tokensOf pieces ++ rest).length := by
  have hPieces := length_le_tokensOf h
  have hMore := List.length_pos_iff.2 hRest
  rw [List.length_append]
  omega

/-- A piece has no more tokens than all pieces together. -/
theorem length_le_of_mem {piece : Piece} {pieces : List Piece} (h : piece ∈ pieces) :
    piece.1.length ≤ (tokensOf pieces).length := by
  obtain ⟨before, after, rfl⟩ := List.append_of_mem h
  simp only [tokensOf_append, tokensOf_cons, List.length_append]
  omega

namespace TokenStream

variable {s s' : TokenStream} {token : Token} {tokens rest : List Token} {kind : TokenKind}

/-- A stream that is closed and has no fault ahead. -/
structure Clean (s : TokenStream) : Prop where
  closed : Closed s.remaining
  legal : ∀ t ∈ s.remaining, t.kind.isError = false

/-- What is left ahead of a clean stream is clean. -/
theorem Moves.clean (h : Moves s tokens s') (hClean : s.Clean) : s'.Clean :=
  ⟨h.closed, fun t ht => hClean.legal t (by rw [h.remaining]; exact List.mem_append_right _ ht)⟩

/-- From a clean stream the token under the cursor can be left. -/
theorem Clean.leave (hClean : s.Clean) (h : s.remaining = token :: rest) (hRest : rest ≠ []) :
    ∃ s', s.advance = (.ok token, s') ∧ Moves s [token] s' ∧ s'.remaining = rest ∧ s'.Clean := by
  obtain ⟨next, rest, rfl⟩ := List.exists_cons_of_ne_nil hRest
  have hNext := hClean.legal next (by simp [h])
  obtain ⟨s', hAdvance, hMoves⟩ := exists_advance hClean.closed h hNext
  exact ⟨s', hAdvance, hMoves, hMoves.remaining_next h, hMoves.clean hClean⟩

theorem isAt_of_remaining (h : s.remaining = token :: rest) (hKind : token.kind = kind)
    (hLegal : kind.isError = false) : s.isAt kind = true :=
  (isAt_iff hLegal).2 (current_of_remaining h ▸ hKind)

/-- A stream is at no kind that what is left does not begin with. -/
theorem not_isAt_of_begins (h : s.remaining = tokens) (hBegins : Begins (·.kind ≠ kind) tokens)
    (hLegal : kind.isError = false) : s.isAt kind = false := by
  subst h
  exact Bool.eq_false_iff.2 fun hAt => hBegins ((isAt_iff hLegal).1 hAt)

theorem isAtWord_of_remaining {word : String} (h : s.remaining = token :: rest)
    (hWord : token.isWord word = true) : s.isAtWord word = true :=
  (congrArg (Token.isWord · word) (current_of_remaining h)).trans hWord

end TokenStream

namespace Grammar

open GraphQL.Parser TokenStream

/-- A production gives `phrase` where the tokens ahead are `tokens`, with such a token after them as
`Next` allows. -/
def Accepts (production : Parser Outline) (Next : Token → Prop) (tokens : List Token)
    (phrase : Outline) : Prop :=
  ∀ ⦃s : TokenStream⦄ ⦃rest : List Token⦄, s.Clean → s.remaining = tokens ++ rest →
    Begins Next rest → ∃ s', production s = .ok phrase s' ∧ Moves s tokens s'

variable {s : TokenStream} {tokens rest : List Token} {Next : Token → Prop}

section Growing

variable {child : Parser Outline} {kind : TokenKind}

/-- A phrase that is accepted is grown behind those before it. -/
theorem grow_accepts {phrase : Outline} (label : Label) (before : List Outline)
    (hChild : Accepts child Next tokens phrase) (hClean : s.Clean)
    (hTokens : s.remaining = tokens ++ rest) (hRest : Begins Next rest) :
    ∃ s', grow (.node label before) child s = .ok (.node label (before ++ [phrase])) s' ∧
      Moves s tokens s' := by
  obtain ⟨s', hPhrase, hMoves⟩ := hChild hClean hTokens hRest
  exact ⟨s', grow_eq_ok.2 ⟨phrase, hPhrase, rfl⟩, hMoves⟩

/-- A part that may be missing is accepted if it is there, and passed over if it is not. -/
theorem growAt_accepts {piece : Option Piece} (label : Label) (before : List Outline)
    (hChild : ∀ p ∈ piece, Accepts child (fun _ => True) p.1 p.2)
    (hKind : ∀ p ∈ piece, Begins (·.kind = kind) p.1) (hClean : s.Clean)
    (hTokens : s.remaining = tokensOf piece.toList ++ rest)
    (hRest : Begins (·.kind ≠ kind) rest) (hLegal : kind.isError = false) :
    ∃ s', growAt kind (.node label before) child s =
        .ok (.node label (before ++ phrasesOf piece.toList)) s' ∧
      Moves s (tokensOf piece.toList) s' := by
  cases piece with
  | none =>
      rw [growAt_of_not_at (not_isAt_of_begins hTokens hRest hLegal)]
      exact ⟨s, by simp, .refl hClean.closed⟩
  | some piece =>
      have hFirst := hKind piece rfl
      obtain ⟨first, others, hPiece⟩ := List.exists_cons_of_ne_nil hFirst.ne_nil
      rw [hPiece] at hFirst
      have hAt : s.isAt kind = true :=
        isAt_of_remaining (by simpa [hPiece] using hTokens) hFirst hLegal
      rw [growAt_of_at hAt]
      simpa using grow_accepts label before (hChild piece rfl) hClean (by simpa using hTokens)
        (hRest.mono fun _ _ => trivial)

/-- Parts are accepted one after another, by induction on them, if there are rounds enough. -/
theorem growWhileAt_accepts {rounds : Nat} {pieces : List Piece} (label : Label)
    (before : List Outline) (hRounds : pieces.length < rounds)
    (hChild : ∀ p ∈ pieces, Accepts child Next p.1 p.2)
    (hKind : ∀ p ∈ pieces, Begins (·.kind = kind) p.1) (hClean : s.Clean)
    (hTokens : s.remaining = tokensOf pieces ++ rest)
    (hRest : Begins (fun t => t.kind ≠ kind ∧ Next t) rest) (hNext : ∀ t, t.kind = kind → Next t)
    (hLegal : kind.isError = false) :
    ∃ s', growWhileAt kind child rounds (.node label before) s =
        .ok (.node label (before ++ phrasesOf pieces)) s' ∧ Moves s (tokensOf pieces) s' := by
  induction pieces generalizing s before rounds with
  | nil =>
      obtain ⟨rounds, rfl⟩ := Nat.exists_eq_add_one.2 hRounds
      rw [growWhileAt_of_not_at
        (not_isAt_of_begins hTokens (hRest.mono fun _ h => h.1) hLegal)]
      exact ⟨s, by simp, .refl hClean.closed⟩
  | cons piece pieces ih =>
      obtain ⟨rounds, rfl⟩ := Nat.exists_eq_add_one.2 (Nat.zero_lt_of_lt hRounds)
      obtain ⟨hPiece, hPieces⟩ := List.forall_mem_cons.1 hChild
      obtain ⟨hFirst, hFirsts⟩ := List.forall_mem_cons.1 hKind
      rw [tokensOf_cons, List.append_assoc] at hTokens
      -- the token after the first piece begins another or follows them all
      have hAfter : Begins Next (tokensOf pieces ++ rest) :=
        Begins.tokensOf_append (fun p hp => (hFirsts p hp).mono hNext) (hRest.mono fun _ h => h.2)
      obtain ⟨middle, hGrow, hMoves⟩ :=
        grow_accepts label before hPiece hClean hTokens hAfter
      obtain ⟨s', hMore, hLast⟩ := ih (before ++ [piece.2]) (Nat.lt_of_succ_lt_succ hRounds) hPieces
        hFirsts (hMoves.clean hClean) (hMoves.remaining_next hTokens)
      obtain ⟨first, others, hCons⟩ := List.exists_cons_of_ne_nil hFirst.ne_nil
      rw [hCons] at hFirst
      have hAt : s.isAt kind = true :=
        isAt_of_remaining (by rw [hTokens, hCons]; rfl) hFirst hLegal
      refine ⟨s', ?_, hMoves.trans hLast⟩
      rw [growWhileAt_of_at hAt, estate_bind_eq_ok]
      exact ⟨_, middle, hGrow, by simpa using hMore⟩

/-- Items are accepted up to the closing delimiter, by induction on them, if there are rounds
enough. -/
theorem growUntilClosed_accepts {enclosure : Enclosure} {rounds : Nat} {pieces : List Piece}
    {closing : Token} {Starts : Token → Prop} (opening : Token) (label : Label)
    (before : List Outline) (hRounds : pieces.length < rounds)
    (hChild : ∀ p ∈ pieces, Accepts child Next p.1 p.2) (hStarts : ∀ p ∈ pieces, Begins Starts p.1)
    (hInside : ∀ t, Starts t → t.kind.isCloser = false ∧ t.kind ≠ .eof ∧ Next t)
    (hClose : closing.kind = enclosure.closer) (hNext : Next closing) (hClean : s.Clean)
    (hTokens : s.remaining = tokensOf pieces ++ closing :: rest) (hRest : rest ≠ []) :
    ∃ s', growUntilClosed enclosure opening child rounds (.node label before) s =
        .ok (.node label (before ++ phrasesOf pieces)) s' ∧
      Moves s (tokensOf pieces ++ [closing]) s' := by
  induction pieces generalizing s before rounds with
  | nil =>
      obtain ⟨rounds, rfl⟩ := Nat.exists_eq_add_one.2 hRounds
      obtain ⟨s', hAdvance, hMoves, -⟩ := hClean.leave hTokens hRest
      have hAt := isAt_of_remaining hTokens hClose (closer_plain enclosure).1
      refine ⟨s', ?_, hMoves⟩
      simp only [growUntilClosed, estate_bind_eq_ok, keeping_eq_ok, closes_eq_ok]
      exact ⟨true, s', .inl ⟨rfl, hAt, closing, hAdvance⟩, by simp⟩
  | cons piece pieces ih =>
      obtain ⟨rounds, rfl⟩ := Nat.exists_eq_add_one.2 (Nat.zero_lt_of_lt hRounds)
      obtain ⟨hPiece, hPieces⟩ := List.forall_mem_cons.1 hChild
      obtain ⟨hFirst, hFirsts⟩ := List.forall_mem_cons.1 hStarts
      rw [tokensOf_cons, List.append_assoc] at hTokens
      -- the token after the first piece begins another or closes the enclosure
      have hAfter : Begins Next (tokensOf pieces ++ closing :: rest) :=
        Begins.tokensOf_append (fun p hp => (hFirsts p hp).mono fun t ht => (hInside t ht).2.2)
          hNext
      obtain ⟨middle, hGrow, hMoves⟩ := grow_accepts label before hPiece hClean hTokens hAfter
      obtain ⟨s', hMore, hLast⟩ := ih (before ++ [piece.2]) (Nat.lt_of_succ_lt_succ hRounds) hPieces
        hFirsts (hMoves.clean hClean) (hMoves.remaining_next hTokens)
      obtain ⟨first, others, hCons⟩ := List.exists_cons_of_ne_nil hFirst.ne_nil
      rw [hCons] at hFirst
      obtain ⟨hCloser, hEnd, -⟩ := hInside first hFirst
      have hCurrent := current_of_remaining (by rw [hTokens, hCons]; rfl : s.remaining = first :: _)
      have hNotAt : s.isAt enclosure.closer = false := by
        refine Bool.eq_false_iff.2 fun hAt => ?_
        have hKind := (isAt_iff (closer_plain enclosure).1).1 hAt
        rw [hCurrent] at hKind
        rw [hKind] at hCloser
        cases enclosure <;> cases hCloser
      refine ⟨s', ?_, by simpa using hMoves.trans hLast⟩
      simp only [growUntilClosed, estate_bind_eq_ok, keeping_eq_ok, closes_eq_ok]
      refine ⟨false, s, .inr ⟨rfl, hNotAt, ?_, by rw [hCurrent, hCloser], rfl⟩, ?_⟩
      · simpa [atEnd, hCurrent] using hEnd
      · simp only [Bool.false_eq_true, if_false, estate_bind_eq_ok]
        exact ⟨_, middle, hGrow, by simpa using hMore⟩

end Growing

/-- A collection whose items are accepted is accepted: the tokens ahead are rounds enough. -/
theorem collection_accepts {type : NodeType} {enclosure : Enclosure} {production : Parser Outline}
    {opening closing : Token} {pieces : List Piece} {Starts : Token → Prop}
    (hOpen : opening.kind = enclosure.opener)
    (hItems : ∀ p ∈ pieces, Accepts production Next p.1 p.2)
    (hStarts : ∀ p ∈ pieces, Begins Starts p.1)
    (hInside : ∀ t, Starts t → t.kind.isCloser = false ∧ t.kind ≠ .eof ∧ Next t)
    (hClose : closing.kind = enclosure.closer) (hNext : Next closing) :
    Accepts (collection type enclosure production) (fun _ => True)
      (opening :: (tokensOf pieces ++ [closing]))
      (.node { type, location := opening.start } (phrasesOf pieces)) := by
  intro s rest hClean hTokens hRest
  rw [List.cons_append, List.append_assoc] at hTokens
  obtain ⟨middle, hAdvance, hFirst, hMiddle, hClean'⟩ := hClean.leave hTokens (by simp)
  have hAt := isAt_of_remaining hTokens hOpen (opener_plain enclosure).1
  have hRounds : pieces.length < middle.remaining.length :=
    hMiddle ▸ length_lt_append hStarts (by simp)
  obtain ⟨s', hGrow, hMoves⟩ := growUntilClosed_accepts opening { type, location := opening.start }
    [] hRounds hItems hStarts hInside hClose hNext hClean' (by simpa using hMiddle) hRest.ne_nil
  refine ⟨s', ?_, hFirst.trans hMoves⟩
  simp only [collection, estate_bind_eq_ok, openEnclosure_eq_ok, bound_bind]
  exact ⟨opening, middle, ⟨hAt, hAdvance⟩, hGrow⟩

end Grammar

/-- The tokens that a phrase may begin with. -/
def Symbol.Starts : Symbol → Token → Prop
  | .value, t => (Grammar.ValueForm.startingAt? t).isSome = true
  | .argument, t => t.kind = .name
  | .arguments, t | .variableDefinitions, t => t.kind = .parenOpen
  | .directive, t => t.kind = .atSign
  | .selection, t => t.kind = .name ∨ t.kind = .ellipsis
  | .selectionSet, t => t.kind = .curlyOpen
  | .variableDefinition, t => t.kind = .dollar
  | .document, t | .definition, t =>
    t.kind = .curlyOpen ∨ t.kind = .name ∧ (t.text ∈ Grammar.operationWords ∨ t.text = "fragment")

/-- The tokens that may follow a phrase without changing how far it goes. -/
def Symbol.Next : Symbol → Token → Prop
  | .document, t => t.kind = .eof
  | .directive, t => t.kind ≠ .parenOpen
  | .selection, t =>
    t.kind ≠ .colon ∧ t.kind ≠ .parenOpen ∧ t.kind ≠ .atSign ∧ t.kind ≠ .curlyOpen
  | .variableDefinition, t =>
    t.kind ≠ .bang ∧ t.kind ≠ .equals ∧ t.kind ≠ .atSign ∧ t.kind ≠ .parenOpen
  | .definition, _ | .variableDefinitions, _ | .arguments, _ | .argument, _ | .selectionSet, _
  | .value, _ => True

theorem Grammar.startingAt?_of_name {token : Token} (h : token.kind = .name) :
    (ValueForm.startingAt? token).isSome = true := by
  simp only [ValueForm.startingAt?, h]
  split
  · rfl
  · split <;> rfl

/-- A value of one or two tokens begins as values do. -/
theorem Head.begins_value {type : NodeType} {head : List Token} {label : Label}
    (h : Head type head label) (hValue : type.isValue = true) :
    Begins Symbol.value.Starts head := by
  cases h with
  | variableUsage hDollar hName =>
      simp [Begins, Symbol.Starts, Grammar.ValueForm.startingAt?, hDollar]
  | @scalar token kind hKind =>
      cases hToken : token.kind with
      | name => exact Grammar.startingAt?_of_name hToken
      | number | string =>
          simp [Begins, Symbol.Starts, Grammar.ValueForm.startingAt?, hToken]
      | _ => simp [Grammar.scalarKindOf?, hToken] at hKind
  | null hWord => exact Grammar.startingAt?_of_name (Grammar.isWord_iff.1 hWord).1
  | enumeration hName hText => exact Grammar.startingAt?_of_name hName
  | _ => cases hValue

/-- A phrase begins with a token that its kind may begin with. -/
theorem Forms.begins {x : Symbol} {tokens : List Token} {phrase : Outline}
    (h : Forms x tokens phrase) : Begins x.Starts tokens := by
  induction h with
  | atom hValue hHead => exact hHead.begins_value hValue
  | enclosed hRule hOpen hItems hClose ih =>
      cases hRule with
      | listValue | objectValue =>
          simp [Begins, Symbol.Starts, Grammar.ValueForm.startingAt?, hOpen, Enclosure.opener]
      | selectionSet | arguments | variableDefinitions => exact hOpen
  | argument hHead hValue ih => cases hHead with | argument hName hColon => exact hName
  | directive hHead hArguments ih => cases hHead with | directive hSign hName => exact hSign
  | field hHead hArguments hDirectives hSelections =>
      cases hHead with
      | field hName => exact .inl hName
      | aliasedField hAlias hColon hName => exact .inl hAlias
  | spread hHead hDirectives ih => cases hHead with | spread hDots hName hOn => exact .inr hDots
  | inline hHead hDirectives hSelections =>
      cases hHead with
      | inline hDots => exact .inr hDots
      | conditionedInline hDots hOn hType => exact .inr hDots
  | declaration default hHead => cases hHead with | declaration hDollar => exact hDollar
  | shorthand hSelections ih => exact .inl ih
  | operation hHead =>
      cases hHead with
      | operation hKeyword hWord => exact .inr ⟨hKeyword, .inl hWord⟩
      | namedOperation hKeyword hWord hName => exact .inr ⟨hKeyword, .inl hWord⟩
  | fragment hHead =>
      cases hHead with
      | fragment hKeyword =>
          obtain ⟨hName, hText⟩ := Grammar.isWord_iff.1 hKeyword
          exact .inr ⟨hName, .inr hText⟩
  | @document definitions first rest hFirst hDefinitions ih =>
      cases definitions with
      | nil => cases hFirst
      | cons piece definitions =>
          have hBegins : Begins Symbol.definition.Starts (piece.1 ++ tokensOf definitions) :=
            (ih piece List.mem_cons_self).append
          rw [← tokensOf_cons, hFirst] at hBegins
          exact hBegins

namespace Grammar

open GraphQL.Parser TokenStream

theorem startingAt?_of_scalar {token : Token} {kind : ScalarKind}
    (h : scalarKindOf? token = some kind) : ValueForm.startingAt? token = some .scalarValue := by
  cases hToken : token.kind with
  | number | string => simp [ValueForm.startingAt?, hToken]
  | name =>
      simp only [scalarKindOf?, hToken] at h
      split at h
      · next hText => simp [ValueForm.startingAt?, hToken, hText]
      · cases h
  | _ => simp [scalarKindOf?, hToken] at h

/-- A value is read in the form that its first token decides. -/
theorem valueWithin_of_form {s : TokenStream} {form : ValueForm} (levels : Nat)
    (h : ValueForm.startingAt? s.current = some form) :
    valueWithin (levels + 1) s = form.production (valueWithin levels) s := by
  simp [valueWithin, h]

/-- A value of one token or two is given at any depth. -/
theorem atom_accepts {type : NodeType} {head : List Token} {label : Label} (levels : Nat)
    (hHead : Head type head label) (hValue : type.isValue = true) :
    Accepts (valueWithin (levels + 1)) (fun _ => True) head (.node label []) := by
  intro s rest hClean hTokens hRest
  cases hHead with
  | @variableUsage dollar name hDollar hName =>
      obtain ⟨middle, hAdvance, hFirst, hMiddle, hClean'⟩ := hClean.leave hTokens (by simp)
      obtain ⟨s', hAdvance', hSecond, -⟩ := hClean'.leave hMiddle hRest.ne_nil
      have hCurrent := current_of_remaining hTokens
      refine ⟨s', ?_, hFirst.trans hSecond⟩
      rw [valueWithin_of_form levels (by rw [hCurrent, ValueForm.startingAt?, hDollar])]
      simp only [ValueForm.production, variableValue, estate_bind_eq_ok, expect_eq_ok,
        expectName_eq_ok, estate_pure_eq_ok]
      exact ⟨dollar, middle, ⟨isAt_of_remaining hTokens hDollar rfl, hAdvance⟩, name, s',
        ⟨isAt_of_remaining hMiddle hName rfl, hAdvance'⟩, rfl, rfl⟩
  | @scalar token kind hKind =>
      obtain ⟨s', hAdvance, hMoves, -⟩ := hClean.leave hTokens hRest.ne_nil
      have hCurrent := current_of_remaining hTokens
      refine ⟨s', ?_, hMoves⟩
      rw [valueWithin_of_form levels (by rw [hCurrent, startingAt?_of_scalar hKind])]
      simp only [ValueForm.production, scalarValue, current_bind, hCurrent, hKind,
        estate_bind_eq_ok, advance_eq_ok, estate_pure_eq_ok]
      exact ⟨token, s', hAdvance, rfl, rfl⟩
  | @null token hWord =>
      obtain ⟨s', hAdvance, hMoves, -⟩ := hClean.leave hTokens hRest.ne_nil
      have hCurrent := current_of_remaining hTokens
      obtain ⟨hName, hText⟩ := isWord_iff.1 hWord
      refine ⟨s', ?_, hMoves⟩
      rw [valueWithin_of_form levels
        (show _ = some ValueForm.nullValue by simp [ValueForm.startingAt?, hCurrent, hName, hText])]
      simp only [ValueForm.production, nullValue, estate_bind_eq_ok, expectWord_eq_ok,
        estate_pure_eq_ok]
      exact ⟨token, s', ⟨isAtWord_of_remaining hTokens hWord, hAdvance⟩, rfl, rfl⟩
  | @enumeration token hName hText =>
      obtain ⟨s', hAdvance, hMoves, -⟩ := hClean.leave hTokens hRest.ne_nil
      have hCurrent := current_of_remaining hTokens
      refine ⟨s', ?_, hMoves⟩
      have hForm : ValueForm.startingAt? s.current = some .enumValue := by
        simp only [List.mem_cons, List.not_mem_nil, or_false, not_or] at hText
        simp [ValueForm.startingAt?, hCurrent, hName, hText]
      rw [valueWithin_of_form levels hForm]
      simp only [ValueForm.production, enumValue, current_bind, hCurrent, hText, if_false,
        estate_bind_eq_ok, expectName_eq_ok, estate_pure_eq_ok]
      exact ⟨token, s', ⟨isAt_of_remaining hTokens hName rfl, hAdvance⟩, rfl, rfl⟩
  | _ => cases hValue

/-- What a value begins with neither closes anything nor ends the text. -/
theorem value_inside {t : Token} (h : Symbol.value.Starts t) :
    t.kind.isCloser = false ∧ t.kind ≠ .eof ∧ True := by
  cases hKind : t.kind <;>
    first
    | simp [Symbol.Starts, ValueForm.startingAt?, hKind] at h; done
    | simp [TokenKind.isCloser]

theorem listValue_accepts {value : Parser Outline} {opening closing : Token} {pieces : List Piece}
    (hOpen : opening.kind = .squareOpen)
    (hItems : ∀ p ∈ pieces, Accepts value (fun _ => True) p.1 p.2)
    (hStarts : ∀ p ∈ pieces, Begins Symbol.value.Starts p.1)
    (hClose : closing.kind = .squareClose) :
    Accepts (listValue value) (fun _ => True) (opening :: (tokensOf pieces ++ [closing]))
      (.node { type := .listValue, location := opening.start } (phrasesOf pieces)) := by
  refine collection_accepts hOpen (fun p hp => ?_) hStarts (fun t => value_inside) hClose trivial
  intro s rest hClean hTokens hRest
  obtain ⟨s', hValue, hMoves⟩ := hItems p hp hClean hTokens hRest
  obtain ⟨first, others, hCons⟩ := List.exists_cons_of_ne_nil (hStarts p hp).ne_nil
  have hFirst := hStarts p hp
  rw [hCons] at hTokens hFirst
  obtain ⟨form, hForm⟩ := Option.isSome_iff_exists.1 hFirst
  refine ⟨s', ?_, hMoves⟩
  rw [current_bind, current_of_remaining hTokens, hForm]
  exact hValue

theorem inputItem_accepts {value : Parser Outline} {head : List Token} {label : Label}
    {piece : Piece} (hHead : Head .inputItem head label)
    (hValue : Accepts value (fun _ => True) piece.1 piece.2)
    (hStarts : Begins Symbol.value.Starts piece.1) :
    Accepts (inputItem value) (fun _ => True) (head ++ piece.1) (.node label [piece.2]) := by
  intro s rest hClean hTokens hRest
  cases hHead with
  | @argument name colon hName hColon =>
      obtain ⟨first, hAdvance, hFirst, hAfterName, hClean'⟩ := hClean.leave hTokens (by simp)
      obtain ⟨second, hAdvance', hSecond, hAfterColon, hClean''⟩ :=
        hClean'.leave hAfterName (by simp [hRest.ne_nil])
      obtain ⟨s', hGrow, hMoves⟩ := grow_accepts
        { type := .inputItem, primary := some name.bytes, location := name.start } [] hValue
        hClean'' hAfterColon hRest
      refine ⟨s', ?_, (hFirst.trans hSecond).trans hMoves⟩
      obtain ⟨start, others, hCons⟩ := List.exists_cons_of_ne_nil hStarts.ne_nil
      rw [hCons] at hStarts
      obtain ⟨form, hForm⟩ := Option.isSome_iff_exists.1 hStarts
      have hCurrent : second.current = start :=
        current_of_remaining (by rw [hAfterColon, hCons]; rfl)
      simp only [inputItem, estate_bind_eq_ok, expect_eq_ok, expectName_eq_ok, current_bind]
      refine ⟨name, first, ⟨isAt_of_remaining hTokens hName rfl, hAdvance⟩, colon, second,
        ⟨isAt_of_remaining hAfterName hColon rfl, hAdvance'⟩, ?_⟩
      rw [hCurrent, hForm]
      exact hGrow

/-- What an argument begins with neither closes anything nor ends the text. -/
theorem arguments_inside {t : Token} (h : Symbol.argument.Starts t) :
    t.kind.isCloser = false ∧ t.kind ≠ .eof ∧ True := by
  have hName : t.kind = .name := h
  simp [hName, TokenKind.isCloser]

/-- A directive is accepted with arguments or without, if nothing opens behind it. -/
theorem directive_accepts {head : List Token} {label : Label} {inside : Option Piece}
    (hHead : Head .directive head label)
    (hInside : ∀ p ∈ inside, Accepts arguments (fun _ => True) p.1 p.2)
    (hStarts : ∀ p ∈ inside, Begins Symbol.arguments.Starts p.1) :
    Accepts directive Symbol.directive.Next (head ++ tokensOf inside.toList)
      (.node label (phrasesOf inside.toList)) := by
  intro s rest hClean hTokens hRest
  cases hHead with
  | @directive sign name hSign hName =>
      obtain ⟨first, hAdvance, hFirst, hAfterSign, hClean'⟩ := hClean.leave hTokens (by simp)
      obtain ⟨second, hAdvance', hSecond, hAfterName, hClean''⟩ :=
        hClean'.leave hAfterSign (by simp [hRest.ne_nil])
      obtain ⟨s', hGrow, hMoves⟩ := growAt_accepts
        { type := .directive, primary := some name.bytes, location := sign.start } [] hInside
        hStarts hClean'' hAfterName hRest rfl
      refine ⟨s', ?_, (hFirst.trans hSecond).trans hMoves⟩
      simp only [directive, estate_bind_eq_ok, expect_eq_ok, expectName_eq_ok]
      exact ⟨sign, first, ⟨isAt_of_remaining hTokens hSign rfl, hAdvance⟩, name, second,
        ⟨isAt_of_remaining hAfterSign hName rfl, hAdvance'⟩, hGrow⟩

/-- The token after directives neither begins another nor goes on with the last. -/
def AfterDirectives (t : Token) : Prop := t.kind ≠ .atSign ∧ t.kind ≠ .parenOpen

/-- Directives are accepted one after another up to what is none. -/
theorem growDirectives_accepts {s : TokenStream} {rest : List Token} {pieces : List Piece}
    (label : Label) (before : List Outline)
    (hPieces : ∀ p ∈ pieces, Accepts directive Symbol.directive.Next p.1 p.2)
    (hStarts : ∀ p ∈ pieces, Begins Symbol.directive.Starts p.1) (hClean : s.Clean)
    (hTokens : s.remaining = tokensOf pieces ++ rest) (hRest : Begins AfterDirectives rest) :
    ∃ s', growDirectives (.node label before) s =
        .ok (.node label (before ++ phrasesOf pieces)) s' ∧ Moves s (tokensOf pieces) s' := by
  have hRounds : pieces.length < s.remaining.length :=
    hTokens ▸ length_lt_append hStarts hRest.ne_nil
  refine growWhileAt_accepts label before hRounds hPieces hStarts hClean hTokens hRest
    (fun t ht => ?_) rfl
  simp [Symbol.Next, ht]

/-- Directives and a selection set after them begin with no name. -/
theorem inlineInside_begins {directives : List Piece} {set : Piece} {rest : List Token}
    (hDirectiveStarts : ∀ p ∈ directives, Begins Symbol.directive.Starts p.1)
    (hSetStarts : Begins Symbol.selectionSet.Starts set.1) :
    Begins (fun t => t.kind ≠ .name) (tokensOf (directives ++ [set]) ++ rest) := by
  rw [tokensOf_append]
  refine Begins.append (Begins.tokensOf_append
    (fun p hp => (hDirectiveStarts p hp).mono fun t ht => ?_)
    (hSetStarts.mono fun t ht => ?_).append)
  · simp [show t.kind = .atSign from ht]
  · simp [show t.kind = .curlyOpen from ht]

section Selections

variable {selections : Parser Outline} {head : List Token} {label : Label}
  {directives : List Piece} {s : TokenStream} {rest : List Token}
  (hDirectives : ∀ p ∈ directives, Accepts directive Symbol.directive.Next p.1 p.2)
  (hDirectiveStarts : ∀ p ∈ directives, Begins Symbol.directive.Starts p.1)
include hDirectives hDirectiveStarts

theorem fieldInside_accepts {inside set : Option Piece} (label : Label)
    (hInside : ∀ p ∈ inside, Accepts arguments (fun _ => True) p.1 p.2)
    (hInsideStarts : ∀ p ∈ inside, Begins Symbol.arguments.Starts p.1)
    (hSet : ∀ p ∈ set, Accepts selections (fun _ => True) p.1 p.2)
    (hSetStarts : ∀ p ∈ set, Begins Symbol.selectionSet.Starts p.1) (hClean : s.Clean)
    (hTokens : s.remaining = tokensOf (inside.toList ++ directives ++ set.toList) ++ rest)
    (hRest : Begins Symbol.selection.Next rest) :
    s.isAt .colon = false ∧ ∃ s',
      Moves s (tokensOf (inside.toList ++ directives ++ set.toList)) s' ∧
      ∃ node middle, growAt .parenOpen (.node label []) arguments s = .ok node middle ∧
        ∃ full last, growDirectives node middle = .ok full last ∧
          growAt .curlyOpen full selections last =
            .ok (.node label (phrasesOf (inside.toList ++ directives ++ set.toList))) s' := by
  simp only [tokensOf_append, List.append_assoc] at hTokens
  have hAfterDirectives : Begins (fun t => AfterDirectives t ∧ t.kind ≠ .colon)
      (tokensOf set.toList ++ rest) :=
    Begins.tokensOf_append
      (fun p hp => (hSetStarts p (by simpa using hp)).mono fun t ht => by
        simp [AfterDirectives, show t.kind = .curlyOpen from ht])
      (hRest.mono fun t ht => ⟨⟨ht.2.2.1, ht.2.1⟩, ht.1⟩)
  have hAfterArguments : Begins (fun t => t.kind ≠ .parenOpen ∧ t.kind ≠ .colon)
      (tokensOf directives ++ (tokensOf set.toList ++ rest)) :=
    Begins.tokensOf_append
      (fun p hp => (hDirectiveStarts p hp).mono fun t ht => by simp [show t.kind = .atSign from ht])
      (hAfterDirectives.mono fun t ht => ⟨ht.1.2, ht.2⟩)
  have hAll : Begins (fun t => t.kind ≠ .colon)
      (tokensOf inside.toList ++ (tokensOf directives ++ (tokensOf set.toList ++ rest))) :=
    Begins.tokensOf_append
      (fun p hp => (hInsideStarts p (by simpa using hp)).mono fun t ht => by
        simp [show t.kind = .parenOpen from ht])
      (hAfterArguments.mono fun t ht => ht.2)
  obtain ⟨first, hGrowArguments, hFirst⟩ := growAt_accepts label [] hInside hInsideStarts hClean
    hTokens (hAfterArguments.mono fun t ht => ht.1) rfl
  obtain ⟨second, hGrowDirectives, hSecond⟩ := growDirectives_accepts label
    (phrasesOf inside.toList) hDirectives hDirectiveStarts (hFirst.clean hClean)
    (hFirst.remaining_next hTokens) (hAfterDirectives.mono fun t ht => ht.1)
  obtain ⟨s', hGrowSet, hThird⟩ := growAt_accepts label
    (phrasesOf inside.toList ++ phrasesOf directives) hSet hSetStarts
    ((hFirst.trans hSecond).clean hClean)
    (hSecond.remaining_next (hFirst.remaining_next hTokens)) (hRest.mono fun t ht => ht.2.2.2) rfl
  refine ⟨not_isAt_of_begins hTokens hAll rfl, s', ?_, _, first, hGrowArguments, _, second,
    hGrowDirectives, ?_⟩
  · simpa using (hFirst.trans hSecond).trans hThird
  · simpa using hGrowSet

/-- A field is accepted by its name or its alias. -/
theorem field_accepts {inside set : Option Piece} (hHead : Head .field head label)
    (hInside : ∀ p ∈ inside, Accepts arguments (fun _ => True) p.1 p.2)
    (hInsideStarts : ∀ p ∈ inside, Begins Symbol.arguments.Starts p.1)
    (hSet : ∀ p ∈ set, Accepts selections (fun _ => True) p.1 p.2)
    (hSetStarts : ∀ p ∈ set, Begins Symbol.selectionSet.Starts p.1) :
    Accepts (field selections) Symbol.selection.Next
      (head ++ tokensOf (inside.toList ++ directives ++ set.toList))
      (.node label (phrasesOf (inside.toList ++ directives ++ set.toList))) := by
  intro s rest hClean hTokens hRest
  rw [List.append_assoc] at hTokens
  cases hHead with
  | @field name hName =>
      obtain ⟨first, hAdvance, hFirst, hAfter, hClean'⟩ :=
        hClean.leave hTokens (by simp [hRest.ne_nil])
      obtain ⟨hColon, s', hMoves, hInside⟩ := fieldInside_accepts hDirectives hDirectiveStarts
        _ hInside hInsideStarts hSet hSetStarts hClean' hAfter hRest
      refine ⟨s', ?_, hFirst.trans hMoves⟩
      simp only [field, estate_bind_eq_ok, expectName_eq_ok, isAt_bind]
      refine ⟨name, first, ⟨isAt_of_remaining hTokens hName rfl, hAdvance⟩, ?_⟩
      simp only [hColon, Bool.false_eq_true, if_false, estate_bind_eq_ok, estate_pure_eq_ok]
      exact ⟨_, first, ⟨rfl, rfl⟩, hInside⟩
  | @aliasedField aliasName colon name hAlias hColon hName =>
      obtain ⟨first, hAdvance, hFirst, hAfterAlias, hClean'⟩ := hClean.leave hTokens (by simp)
      obtain ⟨second, hAdvance', hSecond, hAfterColon, hClean''⟩ :=
        hClean'.leave hAfterAlias (by simp)
      obtain ⟨third, hAdvance'', hThird, hAfter, hClean'''⟩ :=
        hClean''.leave hAfterColon (by simp [hRest.ne_nil])
      obtain ⟨-, s', hMoves, hInside⟩ := fieldInside_accepts hDirectives hDirectiveStarts
        _ hInside hInsideStarts hSet hSetStarts hClean''' hAfter hRest
      refine ⟨s', ?_, ((hFirst.trans hSecond).trans hThird).trans hMoves⟩
      simp only [field, estate_bind_eq_ok, expectName_eq_ok, isAt_bind]
      refine ⟨aliasName, first, ⟨isAt_of_remaining hTokens hAlias rfl, hAdvance⟩, ?_⟩
      rw [isAt_of_remaining hAfterAlias hColon rfl, if_pos rfl]
      simp only [estate_bind_eq_ok, keeping_eq_ok, advance_eq_ok, expectName_eq_ok,
        estate_pure_eq_ok]
      exact ⟨_, third, ⟨colon, second, hAdvance', name, third,
        ⟨isAt_of_remaining hAfterColon hName rfl, hAdvance''⟩, rfl, rfl⟩, hInside⟩

theorem fragmentSpread_accepts (hHead : Head .fragmentSpread head label) :
    Accepts fragmentSpread Symbol.selection.Next (head ++ tokensOf directives)
      (.node label (phrasesOf directives)) := by
  intro s rest hClean hTokens hRest
  cases hHead with
  | @spread dots name hDots hName hOn =>
      obtain ⟨first, hAdvance, hFirst, hAfterDots, hClean'⟩ := hClean.leave hTokens (by simp)
      obtain ⟨second, hAdvance', hSecond, hAfterName, hClean''⟩ :=
        hClean'.leave hAfterDots (by simp [hRest.ne_nil])
      obtain ⟨s', hGrow, hMoves⟩ := growDirectives_accepts
        { type := .fragmentSpread, primary := some name.bytes, location := dots.start } []
        hDirectives hDirectiveStarts hClean'' hAfterName (hRest.mono fun t ht => ⟨ht.2.2.1, ht.2.1⟩)
      refine ⟨s', ?_, (hFirst.trans hSecond).trans hMoves⟩
      have hNotOn : first.isAtWord "on" = false := by
        rw [TokenStream.isAtWord, current_of_remaining hAfterDots]
        simp [Token.isWord, hOn]
      simp only [fragmentSpread, estate_bind_eq_ok, expect_eq_ok, fragmentName_eq_ok]
      exact ⟨dots, first, ⟨isAt_of_remaining hTokens hDots rfl, hAdvance⟩, name, second,
        ⟨hNotOn, isAt_of_remaining hAfterDots hName rfl, hAdvance'⟩, hGrow⟩

theorem inlineInside_accepts {set : Piece} (label : Label)
    (hSet : Accepts selections (fun _ => True) set.1 set.2)
    (hSetStarts : Begins Symbol.selectionSet.Starts set.1) (hClean : s.Clean)
    (hTokens : s.remaining = tokensOf (directives ++ [set]) ++ rest) (hRest : rest ≠ []) :
    ∃ s', Moves s (tokensOf (directives ++ [set])) s' ∧
      ∃ node middle, growDirectives (.node label []) s = .ok node middle ∧
        grow node selections middle =
          .ok (.node label (phrasesOf (directives ++ [set]))) s' := by
  simp only [tokensOf_append, tokensOf_cons, tokensOf_nil, List.append_nil, List.append_assoc]
    at hTokens
  obtain ⟨next, others, rfl⟩ := List.exists_cons_of_ne_nil hRest
  have hAfter : Begins AfterDirectives (set.1 ++ next :: others) :=
    (hSetStarts.mono fun t ht => by simp [AfterDirectives, show t.kind = .curlyOpen from ht]).append
  obtain ⟨first, hGrowDirectives, hFirst⟩ := growDirectives_accepts label [] hDirectives
    hDirectiveStarts hClean hTokens hAfter
  obtain ⟨s', hGrowSet, hSecond⟩ := grow_accepts label (phrasesOf directives) hSet
    (hFirst.clean hClean) (hFirst.remaining_next hTokens) trivial
  refine ⟨s', by simpa using hFirst.trans hSecond, _, first, hGrowDirectives, ?_⟩
  simpa using hGrowSet

/-- An inline fragment is accepted with a type condition or without. -/
theorem inlineFragment_accepts {set : Piece} (hHead : Head .inlineFragment head label)
    (hSet : Accepts selections (fun _ => True) set.1 set.2)
    (hSetStarts : Begins Symbol.selectionSet.Starts set.1) :
    Accepts (inlineFragment selections) Symbol.selection.Next
      (head ++ tokensOf (directives ++ [set])) (.node label (phrasesOf (directives ++ [set]))) := by
  intro s rest hClean hTokens hRest
  rw [List.append_assoc] at hTokens
  cases hHead with
  | @inline dots hDots =>
      obtain ⟨first, hAdvance, hFirst, hAfter, hClean'⟩ :=
        hClean.leave hTokens (by simp [hRest.ne_nil])
      obtain ⟨s', hMoves, hInside⟩ := inlineInside_accepts hDirectives hDirectiveStarts
        _ hSet hSetStarts hClean' hAfter hRest.ne_nil
      refine ⟨s', ?_, hFirst.trans hMoves⟩
      have hNotOn : first.isAtWord "on" = false := by
        have hBegins : Begins (fun t => t.kind ≠ .name) first.remaining :=
          hAfter ▸ inlineInside_begins hDirectiveStarts hSetStarts
        simp [TokenStream.isAtWord, Token.isWord, show first.current.kind ≠ .name from hBegins]
      simp only [inlineFragment, estate_bind_eq_ok, expect_eq_ok, isAtWord_bind]
      refine ⟨dots, first, ⟨isAt_of_remaining hTokens hDots rfl, hAdvance⟩, ?_⟩
      simp only [hNotOn, Bool.false_eq_true, if_false, estate_bind_eq_ok, estate_pure_eq_ok]
      exact ⟨_, first, ⟨rfl, rfl⟩, hInside⟩
  | @conditionedInline dots on type hDots hOn hType =>
      obtain ⟨first, hAdvance, hFirst, hAfterDots, hClean'⟩ := hClean.leave hTokens (by simp)
      obtain ⟨second, hAdvance', hSecond, hAfterOn, hClean''⟩ := hClean'.leave hAfterDots (by simp)
      obtain ⟨third, hAdvance'', hThird, hAfter, hClean'''⟩ :=
        hClean''.leave hAfterOn (by simp [hRest.ne_nil])
      obtain ⟨s', hMoves, hInside⟩ := inlineInside_accepts hDirectives hDirectiveStarts
        _ hSet hSetStarts hClean''' hAfter hRest.ne_nil
      refine ⟨s', ?_, ((hFirst.trans hSecond).trans hThird).trans hMoves⟩
      simp only [inlineFragment, estate_bind_eq_ok, expect_eq_ok, isAtWord_bind]
      refine ⟨dots, first, ⟨isAt_of_remaining hTokens hDots rfl, hAdvance⟩, ?_⟩
      rw [isAtWord_of_remaining hAfterDots hOn, if_pos rfl]
      simp only [estate_bind_eq_ok, keeping_eq_ok, advance_eq_ok, expectName_eq_ok,
        estate_pure_eq_ok]
      exact ⟨_, third, ⟨on, second, hAdvance', type, third,
        ⟨isAt_of_remaining hAfterOn hType rfl, hAdvance''⟩, rfl, rfl⟩, hInside⟩

end Selections

/-- At a name a field is read. -/
theorem selection_of_field {selections : Parser Outline} {s : TokenStream}
    (h : s.isAt .name = true) : selection selections s = field selections s := by
  simp [selection, h]

/-- After dots a name other than `on` is the name of a fragment. -/
theorem selection_of_dots {selections : Parser Outline} {s : TokenStream} {dots next : Token}
    {rest : List Token} (hTokens : s.remaining = dots :: next :: rest)
    (hDots : dots.kind = .ellipsis) :
    selection selections s =
      (if next.kind = .name ∧ next.text ≠ "on" then fragmentSpread
        else inlineFragment selections) (s.fetch 1) := by
  have hName : s.isAt .name = false :=
    not_isAt_of_begins hTokens (show dots.kind ≠ .name by simp [hDots]) rfl
  obtain ⟨-, hAhead⟩ := List.cons.inj hTokens
  have hPeek : s.peek = next := by simp [TokenStream.peek, hAhead]
  simp [selection, hName, isAt_of_remaining hTokens hDots rfl, hPeek]

/-- To have looked ahead does not change what is accepted. -/
theorem Accepts.fetch {production : Parser Outline} {Next : Token → Prop} {tokens rest : List Token}
    {phrase : Outline} {s : TokenStream} (h : Accepts production Next tokens phrase)
    (hClean : s.Clean) (hTokens : s.remaining = tokens ++ rest) (hRest : Begins Next rest) :
    ∃ s', production (s.fetch 1) = .ok phrase s' ∧ Moves s tokens s' := by
  have hFetch := Moves.fetch 1 hClean.closed
  obtain ⟨s', hPhrase, hMoves⟩ := h (hFetch.clean hClean) hTokens hRest
  exact ⟨s', hPhrase, hFetch.trans hMoves⟩

section Selections

variable {selections : Parser Outline} {head : List Token} {label : Label}
  {directives : List Piece}
  (hDirectives : ∀ p ∈ directives, Accepts directive Symbol.directive.Next p.1 p.2)
  (hDirectiveStarts : ∀ p ∈ directives, Begins Symbol.directive.Starts p.1)
include hDirectives hDirectiveStarts

/-- Dots before a name other than `on` are read as a spread. -/
theorem spread_accepts (hHead : Head .fragmentSpread head label) :
    Accepts (selection selections) Symbol.selection.Next (head ++ tokensOf directives)
      (.node label (phrasesOf directives)) := by
  intro s rest hClean hTokens hRest
  obtain ⟨s', hPhrase, hMoves⟩ :=
    (fragmentSpread_accepts hDirectives hDirectiveStarts hHead).fetch hClean hTokens hRest
  refine ⟨s', ?_, hMoves⟩
  cases hHead with
  | spread hDots hName hOn => rw [selection_of_dots hTokens hDots, if_pos ⟨hName, hOn⟩, hPhrase]

/-- Dots before anything else are read as an inline fragment. -/
theorem inline_accepts {set : Piece} (hHead : Head .inlineFragment head label)
    (hSet : Accepts selections (fun _ => True) set.1 set.2)
    (hSetStarts : Begins Symbol.selectionSet.Starts set.1) :
    Accepts (selection selections) Symbol.selection.Next
      (head ++ tokensOf (directives ++ [set])) (.node label (phrasesOf (directives ++ [set]))) := by
  intro s rest hClean hTokens hRest
  obtain ⟨s', hPhrase, hMoves⟩ := (inlineFragment_accepts hDirectives hDirectiveStarts hHead hSet
    hSetStarts).fetch hClean hTokens hRest
  refine ⟨s', ?_, hMoves⟩
  cases hHead with
  | @inline dots hDots =>
      have hBegins : Begins _ (tokensOf (directives ++ [set]) ++ rest) :=
        inlineInside_begins hDirectiveStarts hSetStarts
      obtain ⟨next, others, hCons⟩ := List.exists_cons_of_ne_nil hBegins.ne_nil
      have hRemaining : s.remaining = dots :: next :: others := by rw [hTokens, ← hCons]; rfl
      rw [hCons] at hBegins
      rw [selection_of_dots hRemaining hDots, if_neg fun h => hBegins h.1, hPhrase]
  | conditionedInline hDots hOn hType =>
      rw [selection_of_dots hTokens hDots, if_neg fun h => h.2 (isWord_iff.1 hOn).2, hPhrase]

end Selections

end Grammar

end GraphQL
