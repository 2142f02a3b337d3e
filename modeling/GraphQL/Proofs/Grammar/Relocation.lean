import GraphQL.Proofs.Grammar.Reading
import GraphQL.Proofs.Token.Relocation

/-! Productions on tokens that lie elsewhere. They decide by the kinds and the texts of tokens
alone, so where the tokens were moved they do the same, and what they give lies where the tokens
do. -/
namespace GraphQL

variable (move : Relocation)

def Label.relocate (label : Label) : Label :=
  { label with
    primary := label.primary.map move.range
    secondary := label.secondary.map move.range
    location := move.position label.location }

mutual

def Outline.relocate : Outline → Outline
  | .node label children => .node (label.relocate move) (relocateAll children)
  | .missing index => .missing index

def Outline.relocateAll : List Outline → List Outline
  | [] => []
  | child :: rest => child.relocate :: relocateAll rest

end

theorem Outline.relocateAll_eq (phrases : List Outline) :
    relocateAll move phrases = phrases.map (relocate move) := by
  induction phrases with
  | nil => rfl
  | cons phrase rest ih => rw [relocateAll, ih, List.map_cons]

namespace Outline

variable (range : ByteRange) (phrase : Outline)

theorem relocate_setPrimary : (phrase.setPrimary range).relocate move =
    (phrase.relocate move).setPrimary (move.range range) := by
  cases phrase <;> rfl

theorem relocate_setSecondary : (phrase.setSecondary range).relocate move =
    (phrase.relocate move).setSecondary (move.range range) := by
  cases phrase <;> rfl

theorem relocate_addChild (node : Outline) : (phrase.addChild node).relocate move =
    (phrase.relocate move).addChild (node.relocate move) := by
  cases node with
  | missing index => rfl
  | node label children =>
      simp only [addChild, relocate, relocateAll_eq, List.map_append, List.map_cons, List.map_nil]

end Outline

def Failure.relocate (failure : Failure) : Failure :=
  ⟨failure.error.relocate move, failure.built.map (Outline.relocate move)⟩

def TokenStream.relocate (stream : TokenStream) : TokenStream :=
  { stream with
    tokens := stream.tokens.map (Token.relocate move.position)
    current := stream.current.relocate move.position
    ahead := stream.ahead.map (Token.relocate move.position)
    previousEnd := move.position stream.previousEnd }

@[simp] theorem TokenKind.isCloser_relocate (kind : TokenKind) :
    (kind.relocate move.position).isCloser = kind.isCloser := by
  cases kind <;> rfl

section Tokens

variable (token : Token)

@[simp] theorem Grammar.ValueForm.startingAt?_relocate :
    startingAt? (token.relocate move.position) = startingAt? token := by
  obtain ⟨kind, span, text⟩ := token
  cases kind <;> rfl

@[simp] theorem Grammar.scalarKindOf?_relocate :
    scalarKindOf? (token.relocate move.position) = scalarKindOf? token := by
  obtain ⟨kind, span, text⟩ := token
  cases kind <;> rfl

end Tokens

namespace TokenStream

variable (s : TokenStream)

@[simp] theorem isAt_relocate (kind : TokenKind) : (s.relocate move).isAt kind = s.isAt kind :=
  TokenKind.same_relocate move s.current.kind kind

@[simp] theorem isAtWord_relocate (word : String) :
    (s.relocate move).isAtWord word = s.isAtWord word := Token.isWord_relocate move s.current word

@[simp] theorem atEnd_relocate : (s.relocate move).atEnd = s.atEnd := by
  rw [Bool.eq_iff_iff, atEnd_iff, atEnd_iff]
  exact Token.kind_relocate_eq_iff move _ _ rfl

/-- What is missed at the cursor is missed at the moved one, in the same words. -/
theorem unexpected_relocate (expected : List String) (context : String) :
    (s.relocate move).unexpected expected context =
      (s.unexpected expected context).relocate move := by
  have hDescribe : (s.relocate move).current.describe = s.current.describe :=
    Token.describe_relocate move s.current
  rw [unexpected, unexpected, atEnd_relocate, hDescribe]
  split <;> rfl

/-- A fault under the cursor moves with it. -/
theorem raised_relocate (token : Token) :
    (s.relocate move).raised (token.relocate move.position) =
      match s.raised token with
      | (.ok found, s') => (.ok (found.relocate move.position), s'.relocate move)
      | (.error error, s') => (.error (error.relocate move), s'.relocate move) := by
  have hError : (s.relocate move).current.error? =
      s.current.error?.map (SyntaxError.relocate move) := Token.error?_relocate move s.current
  rw [raised, raised, hError]
  cases s.current.error? <;> rfl

theorem advance_relocate :
    (s.relocate move).advance =
      match s.advance with
      | (.ok found, s') => (.ok (found.relocate move.position), s'.relocate move)
      | (.error error, s') => (.error (error.relocate move), s'.relocate move) := by
  rw [advance, advance, atEnd_relocate]
  cases s.atEnd with
  | true => rfl
  | false =>
      rw [if_neg Bool.false_ne_true, if_neg Bool.false_ne_true, ← raised_relocate]
      unfold relocate
      cases s.ahead <;> rfl

theorem peek_relocate : (s.relocate move).peek = s.peek.relocate move.position := by
  unfold peek relocate
  cases s.ahead <;> rfl

theorem fetch_relocate (count : Nat) :
    (s.relocate move).fetch count = (s.fetch count).relocate move := by
  unfold fetch relocate
  rw [List.length_map]

end TokenStream

namespace Parser

variable {α β γ δ : Type} {f : α → β} {g : γ → δ} {p : Parser α} {q : Parser β}

/-- What a step came to, where the tokens were moved. -/
def moved (f : α → β) :
    EStateM.Result Failure TokenStream α → EStateM.Result Failure TokenStream β
  | .ok a s => .ok (f a) (s.relocate move)
  | .error failure s => .error (failure.relocate move) (s.relocate move)

/-- Whether a step does where the tokens were moved what another does where they were. -/
def Mirrors (f : α → β) (p : Parser α) (q : Parser β) : Prop :=
  ∀ s, q (s.relocate move) = moved move f (p s)

/-- Whether a production gives its phrase wherever the tokens are. -/
abbrev Relocates (p : Parser Outline) : Prop := Mirrors move (Outline.relocate move) p p

namespace Mirrors

variable {move}

theorem pure {a : α} {b : β} (h : f a = b) : Mirrors move f (pure a) (pure b) := by
  intro s
  rw [← h]
  rfl

theorem bind {next : α → Parser γ} {other : β → Parser δ} (h : Mirrors move f p q)
    (hNext : ∀ a, Mirrors move g (next a) (other (f a))) :
    Mirrors move g (p >>= next) (q >>= other) := by
  intro s
  have hFirst := h s
  cases hRun : p s with
  | ok a s' =>
      rw [hRun] at hFirst
      rw [estate_bind_of_ok hFirst, estate_bind_of_ok hRun]
      exact hNext a s'
  | error failure s' =>
      rw [hRun] at hFirst
      rw [estate_bind_of_error hFirst, estate_bind_of_error hRun]
      rfl

/-- A choice that does not depend on places is mirrored if both ways are. -/
theorem ite {c : Prop} [Decidable c] {p' : Parser α} {q' : Parser β} (h : Mirrors move f p q)
    (h' : Mirrors move f p' q') :
    Mirrors move f (if c then p else p') (if c then q else q') := by
  split
  · exact h
  · exact h'

end Mirrors

theorem mirrors_get : Mirrors move (TokenStream.relocate move) get get := fun _ => rfl

theorem mirrors_current : Mirrors move (Token.relocate move.position) current current :=
  fun _ => rfl

theorem mirrors_isAt (kind : TokenKind) : Mirrors move id (isAt kind) (isAt kind) :=
  (mirrors_get move).bind fun s => .pure (s.isAt_relocate move kind).symm

theorem mirrors_isAtWord (word : String) : Mirrors move id (isAtWord word) (isAtWord word) :=
  (mirrors_get move).bind fun s => .pure (s.isAtWord_relocate move word).symm

/-- A moved stream has as many tokens ahead. -/
theorem mirrors_bound : Mirrors move id bound bound :=
  (mirrors_get move).bind fun _ => .pure (congrArg (· + 1) (List.length_map _).symm)

theorem mirrors_advance : Mirrors move (Token.relocate move.position) advance advance := by
  intro s
  rw [advance, advance, s.advance_relocate]
  obtain ⟨result, after⟩ := s.advance
  cases result <;> rfl

theorem mirrors_fail (f : α → β) (error : SyntaxError) :
    Mirrors move f (fail error) (fail (error.relocate move)) := fun _ => rfl

/-- Notes that point nowhere are left as they are. -/
theorem mirrors_failExpecting (f : α → β) (expected : List String) (context : String)
    {notes : List Note} (h : notes.map (Note.relocate move.position) = notes) :
    Mirrors move f (failExpecting expected context notes)
      (failExpecting expected context notes) := by
  refine (mirrors_get move).bind fun s => ?_
  have hError : ((s.relocate move).unexpected expected context).addNotes notes =
      ((s.unexpected expected context).addNotes notes).relocate move := by
    rw [s.unexpected_relocate, SyntaxError.addNotes, SyntaxError.addNotes, SyntaxError.relocate,
      SyntaxError.relocate, List.map_append, h]
  rw [hError]
  exact mirrors_fail move f _

/-- A token that is required is required of the moved stream in the same words. -/
theorem mirrors_expect (kind : TokenKind) (context : String) :
    Mirrors move (Token.relocate move.position) (expect kind context) (expect kind context) :=
  (mirrors_isAt move kind).bind fun _ =>
    (mirrors_advance move).ite (mirrors_failExpecting move _ _ _ rfl)

theorem mirrors_expectName (context : String) :
    Mirrors move (Token.relocate move.position) (expectName context) (expectName context) :=
  mirrors_expect move .name context

theorem mirrors_expectWord (word context : String) :
    Mirrors move (Token.relocate move.position) (expectWord word context)
      (expectWord word context) :=
  (mirrors_isAtWord move word).bind fun _ =>
    (mirrors_advance move).ite (mirrors_failExpecting move _ _ _ rfl)

/-- What is kept on failure moves along. -/
theorem mirrors_keeping (node : Outline) (h : Mirrors move f p q) :
    Mirrors move f (keeping node p) (keeping (node.relocate move) q) := by
  intro s
  rw [keeping, keeping, h s]
  cases p s <;> rfl

section Growing

variable {move} {child item : Parser Outline}

theorem mirrors_grow (node : Outline) (h : Relocates move child) :
    Mirrors move (Outline.relocate move) (grow node child) (grow (node.relocate move) child) :=
  (mirrors_keeping move node h).bind fun phrase => .pure (phrase.relocate_addChild move node)

theorem mirrors_growAt (kind : TokenKind) (node : Outline) (h : Relocates move child) :
    Mirrors move (Outline.relocate move) (growAt kind node child)
      (growAt kind (node.relocate move) child) :=
  (mirrors_isAt move kind).bind fun _ => (mirrors_grow node h).ite (.pure rfl)

theorem mirrors_beyondBound (f : α → β) : Mirrors move f beyondBound beyondBound :=
  mirrors_failExpecting move f _ _ rfl

/-- Parts in a row are mirrored one by one, by induction on the rounds. -/
theorem mirrors_growWhileAt (kind : TokenKind) (h : Relocates move child) (rounds : Nat)
    (node : Outline) :
    Mirrors move (Outline.relocate move) (growWhileAt kind child rounds node)
      (growWhileAt kind child rounds (node.relocate move)) := by
  induction rounds generalizing node with
  | zero => exact mirrors_keeping move node (mirrors_beyondBound _)
  | succ rounds ih =>
      exact (mirrors_isAt move kind).bind fun _ => ((mirrors_grow node h).bind ih).ite (.pure rfl)

theorem mirrors_openEnclosure (enclosure : Enclosure) :
    Mirrors move (Token.relocate move.position) (openEnclosure enclosure)
      (openEnclosure enclosure) := mirrors_expect move _ _

/-- An enclosure ends at the moved delimiter, or fails with the moved places of both. -/
theorem mirrors_closes (enclosure : Enclosure) (opening : Token) :
    Mirrors move id (closes enclosure opening)
      (closes enclosure (opening.relocate move.position)) := by
  refine (mirrors_isAt move enclosure.closer).bind fun closed => ?_
  cases closed with
  | true => exact (mirrors_advance move).bind fun _ => .pure rfl
  | false =>
      refine (mirrors_get move).bind fun s => ?_
      have hMismatched : (enclosure.mismatched opening s.current).relocate move =
          enclosure.mismatched (opening.relocate move.position)
            (s.relocate move).current := by
        have hDescribe := TokenKind.describe_relocate move s.current.kind
        unfold SyntaxError.relocate Enclosure.mismatched TokenStream.relocate
        simp only [Token.kind_relocate, hDescribe]
        rfl
      rw [s.atEnd_relocate move]
      refine .ite (mirrors_fail move _ _) ?_
      rw [show (s.relocate move).current.kind.isCloser = s.current.kind.isCloser from
        TokenKind.isCloser_relocate move _, ← hMismatched]
      exact .ite (mirrors_fail move _ _) (.pure rfl)

/-- Items up to the closing delimiter are mirrored one by one, by induction on the rounds. -/
theorem mirrors_growUntilClosed (enclosure : Enclosure) (opening : Token) (h : Relocates move item)
    (rounds : Nat) (node : Outline) :
    Mirrors move (Outline.relocate move) (growUntilClosed enclosure opening item rounds node)
      (growUntilClosed enclosure (opening.relocate move.position) item rounds
        (node.relocate move)) := by
  induction rounds generalizing node with
  | zero => exact mirrors_keeping move node (mirrors_beyondBound _)
  | succ rounds ih =>
      refine (mirrors_keeping move node (mirrors_closes enclosure opening)).bind fun _ => ?_
      exact .ite (.pure rfl) ((mirrors_grow node h).bind ih)

/-- A collection moves with its items. -/
theorem relocates_collection (type : NodeType) (enclosure : Enclosure) (h : Relocates move item) :
    Relocates move (collection type enclosure item) :=
  (mirrors_openEnclosure enclosure).bind fun opening =>
    (mirrors_bound move).bind fun rounds =>
      mirrors_growUntilClosed enclosure opening h rounds (.leaf type opening.start)

end Growing

end Parser

namespace Grammar

open GraphQL.Parser

variable {move}

section Values

variable {value : Parser Outline}

theorem relocates_scalarValue : Relocates move scalarValue := by
  refine (mirrors_current move).bind fun token => ?_
  rw [scalarKindOf?_relocate]
  cases scalarKindOf? token with
  | none => exact mirrors_failExpecting move _ _ _ rfl
  | some kind => exact (mirrors_advance move).bind fun _ => .pure rfl

theorem relocates_enumValue : Relocates move enumValue := by
  refine (mirrors_current move).bind fun token => .ite (mirrors_failExpecting move _ _ _ rfl) ?_
  exact (mirrors_expectName move _).bind fun _ => .pure rfl

theorem relocates_nullValue : Relocates move nullValue :=
  (mirrors_expectWord move _ _).bind fun _ => .pure rfl

theorem relocates_variableValue : Relocates move variableValue :=
  (mirrors_expect move _ _).bind fun _ => (mirrors_expectName move _).bind fun _ => .pure rfl

/-- Whether a value starts at the cursor does not depend on where that is. -/
theorem mirrors_startingAt {α β : Type} {f : α → β} {found : ValueForm → Parser α}
    {found' : ValueForm → Parser β} {missing : Parser α} {missing' : Parser β}
    (hFound : ∀ form, Mirrors move f (found form) (found' form))
    (hMissing : Mirrors move f missing missing') :
    Mirrors move f
      (do
        match ValueForm.startingAt? (← current) with
        | some form => found form
        | none => missing)
      (do
        match ValueForm.startingAt? (← current) with
        | some form => found' form
        | none => missing') := by
  refine (mirrors_current move).bind fun token => ?_
  rw [ValueForm.startingAt?_relocate]
  cases ValueForm.startingAt? token with
  | none => exact hMissing
  | some form => exact hFound form

theorem relocates_listValue (h : Relocates move value) : Relocates move (listValue value) := by
  apply relocates_collection
  exact mirrors_startingAt (fun _ => h) (mirrors_failExpecting move _ _ _ rfl)

theorem relocates_inputItem (h : Relocates move value) : Relocates move (inputItem value) := by
  refine (mirrors_expectName move _).bind fun name => (mirrors_expect move _ _).bind fun _ => ?_
  exact mirrors_startingAt (fun _ => mirrors_grow _ h)
    (mirrors_keeping move _ (mirrors_failExpecting move _ _ _ rfl))

theorem relocates_form (h : Relocates move value) (form : ValueForm) :
    Relocates move (form.production value) := by
  cases form with
  | variableValue => exact relocates_variableValue
  | listValue => exact relocates_listValue h
  | objectValue => exact relocates_collection _ _ (relocates_inputItem h)
  | scalarValue => exact relocates_scalarValue
  | nullValue => exact relocates_nullValue
  | enumValue => exact relocates_enumValue

/-- A value moves as a whole, by induction on the levels. -/
theorem relocates_valueWithin (levels : Nat) : Relocates move (valueWithin levels) := by
  induction levels with
  | zero => exact mirrors_beyondBound _
  | succ levels ih =>
      exact mirrors_startingAt (relocates_form ih) (mirrors_failExpecting move _ _ _ rfl)

theorem relocates_value : Relocates move Grammar.value :=
  (mirrors_bound move).bind relocates_valueWithin

theorem relocates_arguments : Relocates move arguments :=
  relocates_collection _ _ (relocates_inputItem relocates_value)

theorem relocates_directive : Relocates move directive :=
  (mirrors_expect move _ _).bind fun _ => (mirrors_expectName move _).bind fun _ =>
    mirrors_growAt .parenOpen _ relocates_arguments

/-- Directives move one by one. -/
theorem mirrors_growDirectives (node : Outline) :
    Mirrors move (Outline.relocate move) (growDirectives node)
      (growDirectives (node.relocate move)) :=
  (mirrors_bound move).bind fun rounds =>
    mirrors_growWhileAt .atSign relocates_directive rounds node

end Values

section Selections

variable {selections : Parser Outline}

theorem mirrors_fragmentName (context : String) :
    Mirrors move (Token.relocate move.position) (fragmentName context) (fragmentName context) :=
  (mirrors_isAtWord move "on").bind fun _ =>
    .ite ((mirrors_current move).bind fun token => mirrors_fail move _ (reservedFragmentName token))
      (mirrors_expectName move context)

theorem relocates_field (h : Relocates move selections) : Relocates move (field selections) := by
  refine (mirrors_expectName move _).bind fun first => ?_
  refine (mirrors_isAt move .colon).bind fun aliased => ?_
  have hRest (node : Outline) : Mirrors move (Outline.relocate move)
      (do growAt .curlyOpen (← growDirectives (← growAt .parenOpen node arguments)) selections)
      (do
        let node := node.relocate move
        growAt .curlyOpen (← growDirectives (← growAt .parenOpen node arguments)) selections) :=
    (mirrors_growAt .parenOpen node relocates_arguments).bind fun node =>
      (mirrors_growDirectives node).bind fun node => mirrors_growAt .curlyOpen node h
  cases aliased with
  | true =>
      refine Mirrors.bind (mirrors_keeping move _ ?_) hRest
      exact (mirrors_advance move).bind fun _ => (mirrors_expectName move _).bind fun _ => .pure rfl
  | false => exact Mirrors.bind (.pure rfl) hRest

theorem relocates_fragmentSpread : Relocates move fragmentSpread :=
  (mirrors_expect move _ _).bind fun _ => (mirrors_fragmentName _).bind fun _ =>
    mirrors_growDirectives _

theorem relocates_inlineFragment (h : Relocates move selections) :
    Relocates move (inlineFragment selections) := by
  refine (mirrors_expect move _ _).bind fun dots => ?_
  refine (mirrors_isAtWord move "on").bind fun conditioned => ?_
  have hRest (node : Outline) : Mirrors move (Outline.relocate move)
      (do grow (← growDirectives node) selections)
      (do grow (← growDirectives (node.relocate move)) selections) :=
    (mirrors_growDirectives node).bind fun node => mirrors_grow node h
  cases conditioned with
  | true =>
      refine Mirrors.bind (mirrors_keeping move _ ?_) hRest
      exact (mirrors_advance move).bind fun _ => (mirrors_expectName move _).bind fun _ => .pure rfl
  | false => exact Mirrors.bind (.pure rfl) hRest

/-- Which selection is read does not depend on places. -/
theorem relocates_selection (h : Relocates move selections) :
    Relocates move (selection selections) := by
  refine (mirrors_isAt move .name).bind fun _ => .ite (relocates_field h) ?_
  refine (mirrors_isAt move .ellipsis).bind fun _ => .ite ?_ (mirrors_failExpecting move _ _ _ rfl)
  refine (mirrors_get move).bind fun s => ?_
  have hFetch : Mirrors move id (modify fun stream => stream.fetch 1 : Parser PUnit)
      (modify fun stream => stream.fetch 1) := by
    intro stream
    exact congrArg (EStateM.Result.ok PUnit.unit) (stream.fetch_relocate move 1)
  refine hFetch.bind fun _ => ?_
  have hNext : (s.relocate move).peek.kind = .name ∧ (s.relocate move).peek.text ≠ "on" ↔
      s.peek.kind = .name ∧ s.peek.text ≠ "on" := by
    rw [s.peek_relocate]
    exact and_congr (Token.kind_relocate_eq_iff move _ _ rfl) Iff.rfl
  simp only [hNext]
  exact .ite relocates_fragmentSpread (relocates_inlineFragment h)

/-- Selections move as a whole, by induction on the levels. -/
theorem relocates_selectionSetWithin (levels : Nat) :
    Relocates move (selectionSetWithin levels) := by
  induction levels with
  | zero => exact mirrors_beyondBound _
  | succ levels ih => exact relocates_collection _ _ (relocates_selection ih)

theorem relocates_selectionSet : Relocates move selectionSet :=
  (mirrors_bound move).bind relocates_selectionSetWithin

end Selections

/-- The bytes of a type move, by induction on the levels. -/
theorem mirrors_typeWithin (levels : Nat) :
    Mirrors move move.range (typeWithin levels) (typeWithin levels) := by
  induction levels with
  | zero => exact mirrors_beyondBound _
  | succ levels ih =>
      refine (mirrors_current move).bind fun first => ?_
      have hEnd : Mirrors move move.range (typeEnd first.start)
          (typeEnd (first.relocate move.position).start) := by
        refine (mirrors_isAt move .bang).bind fun marked => ?_
        have hRange : Mirrors move move.range
            (do return ⟨first.start.offset, (← get).previousEnd.offset⟩)
            (do return ⟨(first.relocate move.position).start.offset, (← get).previousEnd.offset⟩) :=
          (mirrors_get move).bind fun s => .pure rfl
        cases marked with
        | true => exact (mirrors_advance move).bind fun _ => hRange
        | false => exact hRange
      refine (mirrors_isAt move .squareOpen).bind fun opened => ?_
      cases opened with
      | true =>
          refine (mirrors_advance move).bind fun opening => ih.bind fun _ => ?_
          refine (mirrors_closes .listType opening).bind fun closed => ?_
          cases closed with
          | true => exact hEnd
          | false => exact Mirrors.bind (mirrors_failExpecting move id _ _ rfl) fun _ => hEnd
      | false =>
          refine (mirrors_isAt move .name).bind fun named => ?_
          cases named with
          | true => exact (mirrors_advance move).bind fun _ => hEnd
          | false => exact Mirrors.bind (mirrors_failExpecting move id _ _ rfl) fun _ => hEnd

theorem mirrors_typeRange : Mirrors move move.range typeRange typeRange :=
  (mirrors_bound move).bind mirrors_typeWithin

/-- The first variable is the same one, moved. -/
theorem firstVariable?_relocate (tokens : List Token) :
    firstVariable? (tokens.map (Token.relocate move.position)) =
      (firstVariable? tokens).map
        (Prod.map (Token.relocate move.position) (Token.relocate move.position)) := by
  fun_induction firstVariable? tokens with
  | case1 dollar name rest hDollar =>
      have hMoved := (Token.kind_relocate_eq_iff move .dollar dollar rfl).2 hDollar
      rw [List.map_cons, List.map_cons, firstVariable?, if_pos hMoved]
      rfl
  | case2 dollar name rest hDollar ih =>
      have hMoved := mt (Token.kind_relocate_eq_iff move .dollar dollar rfl).1 hDollar
      rw [List.map_cons, List.map_cons, firstVariable?, if_neg hMoved, ← ih, List.map_cons]
  | case3 tokens hShort =>
      match tokens, hShort with
      | [], _ => rfl
      | [_], _ => rfl
      | dollar :: name :: rest, hShort => exact (hShort dollar name rest rfl).elim

theorem tokensBetween_relocate (before after : TokenStream) :
    tokensBetween (before.relocate move) (after.relocate move) =
      (tokensBetween before after).map (Token.relocate move.position) := by
  have hBefore : (before.relocate move).ahead.length = before.ahead.length := List.length_map _
  have hAfter : (after.relocate move).ahead.length = after.ahead.length := List.length_map _
  rw [tokensBetween, tokensBetween, hBefore, hAfter, List.map_take]
  rfl

/-- A default is refused for the same variable, moved. -/
theorem mirrors_growDefault (node : Outline) :
    Mirrors move (Outline.relocate move) (growDefault node) (growDefault (node.relocate move)) := by
  refine (mirrors_keeping move node (mirrors_advance move)).bind fun _ => ?_
  refine (mirrors_current move).bind fun token => ?_
  rw [ValueForm.startingAt?_relocate]
  cases ValueForm.startingAt? token with
  | none => exact mirrors_keeping move node (mirrors_failExpecting move _ _ _ rfl)
  | some form =>
      refine (mirrors_get move).bind fun before => ?_
      refine (mirrors_grow node relocates_value).bind fun node => ?_
      refine (mirrors_get move).bind fun after => ?_
      rw [tokensBetween_relocate, firstVariable?_relocate]
      cases firstVariable? (tokensBetween before after) with
      | none => exact .pure rfl
      | some found =>
          exact mirrors_keeping move node (mirrors_fail move _ (variableInDefault found.1 found.2))

theorem relocates_variableDefinition : Relocates move variableDefinition := by
  refine (mirrors_expect move _ _).bind fun dollar => ?_
  refine (mirrors_expectName move _).bind fun name => ?_
  refine (mirrors_isAt move .colon).bind fun typed => ?_
  have hInside (node : Outline) : Mirrors move (Outline.relocate move) (variableInside node)
      (variableInside (node.relocate move)) := by
    refine (mirrors_isAt move .equals).bind fun given => ?_
    cases given with
    | true => exact (mirrors_growDefault node).bind mirrors_growDirectives
    | false => exact mirrors_growDirectives node
  have hRest (type : ByteRange) := hInside
    (((Outline.leaf .variable dollar.start).setPrimary name.bytes).setSecondary type)
  cases typed with
  | true => exact (mirrors_advance move).bind fun _ => mirrors_typeRange.bind hRest
  | false =>
      refine Mirrors.bind (mirrors_failExpecting move id _ _ rfl) fun _ => ?_
      exact (mirrors_advance move).bind fun _ => mirrors_typeRange.bind hRest

theorem relocates_variableDefinitions : Relocates move variableDefinitions :=
  relocates_collection _ _ relocates_variableDefinition

theorem mirrors_isAtOneOf (words : List String) :
    Mirrors move id (isAtOneOf words) (isAtOneOf words) :=
  (mirrors_current move).bind fun token => .pure
    (congrArg words.any (funext fun word => (token.isWord_relocate move word).symm))

theorem mirrors_operationHead (opened : Outline) :
    Mirrors move (Prod.map (Token.relocate move.position) (Outline.relocate move))
      (operationHead opened) (operationHead (opened.relocate move)) := by
  refine (mirrors_keeping move opened (mirrors_advance move)).bind fun keyword => ?_
  have hTyped := opened.relocate_setPrimary move keyword.bytes
  refine (mirrors_isAt move .name).bind fun _ => .ite ?_ (.pure (congrArg (Prod.mk _) hTyped))
  rw [Token.bytes_relocate, ← hTyped]
  refine (mirrors_keeping move _ (mirrors_advance move)).bind fun name => .pure ?_
  exact congrArg (Prod.mk _) (Outline.relocate_setSecondary move name.bytes _)

theorem relocates_operation : Relocates move operation := by
  refine (mirrors_current move).bind fun first => ?_
  refine (mirrors_isAt move .curlyOpen).bind fun _ => ?_
  refine .ite (mirrors_grow _ relocates_selectionSet) ?_
  refine (mirrors_isAtOneOf operationWords).bind fun _ =>
    .ite (mirrors_keeping move _ (mirrors_failExpecting move _ _ _ rfl)) ?_
  refine (mirrors_operationHead _).bind fun (keyword, named) => ?_
  refine (mirrors_growAt .parenOpen named relocates_variableDefinitions).bind fun node => ?_
  refine (mirrors_growDirectives node).bind fun node => ?_
  refine (mirrors_isAt move .curlyOpen).bind fun _ => ?_
  exact .ite (mirrors_grow node relocates_selectionSet)
    (mirrors_keeping move node (mirrors_failExpecting move _ _ _ rfl))

theorem relocates_namedFragment : Relocates move namedFragment := by
  refine (mirrors_expectWord move _ _).bind fun keyword => ?_
  refine (mirrors_fragmentName _).bind fun name => (mirrors_expectWord move _ _).bind fun _ => ?_
  refine (mirrors_expectName move _).bind fun type => ?_
  exact (mirrors_growDirectives _).bind fun node => mirrors_grow node relocates_selectionSet

/-- Which definition is read does not depend on places. -/
theorem relocates_definition : Relocates move definition := by
  refine (mirrors_isAt move .curlyOpen).bind fun _ => ?_
  refine (mirrors_isAtOneOf operationWords).bind fun _ => .ite relocates_operation ?_
  refine (mirrors_isAtWord move "fragment").bind fun _ => ?_
  exact .ite relocates_namedFragment (mirrors_failExpecting move _ _ _ rfl)

/-- Definitions move one by one, by induction on the rounds. -/
theorem mirrors_growDefinitions (rounds : Nat) (node : Outline) :
    Mirrors move (Outline.relocate move) (growDefinitions rounds node)
      (growDefinitions rounds (node.relocate move)) := by
  induction rounds generalizing node with
  | zero => exact mirrors_keeping move node (mirrors_beyondBound _)
  | succ rounds ih =>
      refine (mirrors_get move).bind fun s => ?_
      rw [s.atEnd_relocate move]
      exact .ite (.pure rfl) ((mirrors_grow node relocates_definition).bind ih)

/-- A whole document is read wherever its tokens are. -/
theorem relocates_document : Relocates move document := by
  refine (mirrors_current move).bind fun first => (mirrors_get move).bind fun s => ?_
  rw [s.atEnd_relocate move]
  refine .ite (mirrors_keeping move _ (mirrors_failExpecting move _ _ _ rfl)) ?_
  exact (mirrors_bound move).bind fun rounds => mirrors_growDefinitions rounds _

end Grammar

end GraphQL
