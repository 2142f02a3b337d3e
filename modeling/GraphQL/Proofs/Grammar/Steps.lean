import GraphQL.Proofs.Outcome
import GraphQL.Proofs.Token.Stream
import GraphQL.Grammar.Definition

/-! When the steps of a production succeed, and what they do then. Steps that only look change
nothing, and a step that may fail succeeds exactly if it leaves the token it asks for. -/
namespace GraphQL

namespace Parser

variable {α : Type} {s s' : TokenStream}

section Looking

variable {β : Type}

@[simp] theorem get_bind (f : TokenStream → Parser β) : (get >>= f) s = f s s := rfl

@[simp] theorem get_map (f : TokenStream → β) :
    (f <$> (get : Parser TokenStream)) s = .ok (f s) s := rfl

@[simp] theorem modify_bind (change : TokenStream → TokenStream) (f : PUnit → Parser β) :
    (modify change >>= f) s = f ⟨⟩ (change s) := rfl

@[simp] theorem current_bind (f : Token → Parser β) : (current >>= f) s = f s.current s := rfl

@[simp] theorem isAt_bind (kind : TokenKind) (f : Bool → Parser β) :
    (isAt kind >>= f) s = f (s.isAt kind) s := rfl

@[simp] theorem isAtWord_bind (word : String) (f : Bool → Parser β) :
    (isAtWord word >>= f) s = f (s.isAtWord word) s := rfl

@[simp] theorem isAtOneOf_bind (words : List String) (f : Bool → Parser β) :
    (Grammar.isAtOneOf words >>= f) s = f (words.any s.current.isWord) s := rfl

@[simp] theorem bound_bind (f : Nat → Parser β) : (bound >>= f) s = f s.remaining.length s := rfl

end Looking

@[simp] theorem advance_eq_ok {token : Token} :
    advance s = .ok token s' ↔ s.advance = (.ok token, s') := by
  unfold advance
  split
  · next left after hAdvance => simp [hAdvance]
  · next error after hAdvance => simp [hAdvance]

@[simp] theorem fail_ne_ok {error : SyntaxError} {a : α} :
    (fail error : Parser α) s ≠ .ok a s' := fun h => nomatch h

@[simp] theorem failExpecting_ne_ok {expected : List String} {context : String}
    {notes : List Note} {a : α} :
    (failExpecting expected context notes : Parser α) s ≠ .ok a s' := by
  simp [failExpecting]

@[simp] theorem beyondBound_ne_ok {a : α} : (beyondBound : Parser α) s ≠ .ok a s' :=
  failExpecting_ne_ok

@[simp] theorem keeping_eq_ok {node : Outline} {step : Parser α} {a : α} :
    keeping node step s = .ok a s' ↔ step s = .ok a s' := by
  unfold keeping
  split
  · next hStep => simp [hStep]
  · next hStep => simp [hStep]

@[simp] theorem expect_eq_ok {kind : TokenKind} {context : String} {token : Token} :
    expect kind context s = .ok token s' ↔
      s.isAt kind = true ∧ s.advance = (.ok token, s') := by
  unfold expect
  cases hAt : s.isAt kind <;> simp [hAt]

@[simp] theorem expectName_eq_ok {context : String} {token : Token} :
    expectName context s = .ok token s' ↔
      s.isAt .name = true ∧ s.advance = (.ok token, s') := expect_eq_ok

@[simp] theorem expectWord_eq_ok {word context : String} {token : Token} :
    expectWord word context s = .ok token s' ↔
      s.isAtWord word = true ∧ s.advance = (.ok token, s') := by
  unfold expectWord
  cases hAt : s.isAtWord word <;> simp [hAt]

@[simp] theorem openEnclosure_eq_ok {enclosure : Enclosure} {token : Token} :
    openEnclosure enclosure s = .ok token s' ↔
      s.isAt enclosure.opener = true ∧ s.advance = (.ok token, s') := expect_eq_ok

@[simp] theorem grow_eq_ok {node grown : Outline} {child : Parser Outline} :
    grow node child s = .ok grown s' ↔
      ∃ phrase, child s = .ok phrase s' ∧ phrase.addChild node = grown := by
  simp [grow]

theorem growAt_of_at {kind : TokenKind} {node : Outline} {child : Parser Outline}
    (h : s.isAt kind = true) : growAt kind node child s = grow node child s := by
  simp [growAt, h]

theorem growAt_of_not_at {kind : TokenKind} {node : Outline} {child : Parser Outline}
    (h : s.isAt kind = false) : growAt kind node child s = .ok node s := by
  simp [growAt, h]

theorem growWhileAt_of_at {kind : TokenKind} {node : Outline} {child : Parser Outline}
    {rounds : Nat} (h : s.isAt kind = true) :
    growWhileAt kind child (rounds + 1) node s =
      (grow node child >>= growWhileAt kind child rounds) s := by
  simp [growWhileAt, h]

theorem growWhileAt_of_not_at {kind : TokenKind} {node : Outline} {child : Parser Outline}
    {rounds : Nat} (h : s.isAt kind = false) :
    growWhileAt kind child (rounds + 1) node s = .ok node s := by
  simp [growWhileAt, h]

/-- An enclosure ends at its closer, and goes on at whatever can stand inside it. -/
theorem closes_eq_ok {enclosure : Enclosure} {opening : Token} {ends : Bool} :
    closes enclosure opening s = .ok ends s' ↔
      (ends = true ∧ s.isAt enclosure.closer = true ∧ ∃ token, s.advance = (.ok token, s')) ∨
        (ends = false ∧ s.isAt enclosure.closer = false ∧ s.atEnd = false ∧
          s.current.kind.isCloser = false ∧ s' = s) := by
  unfold closes
  cases hAt : s.isAt enclosure.closer with
  | true => simp [hAt, and_comm]
  | false =>
      cases hEnd : s.atEnd with
      | true => simp [hAt, hEnd]
      | false =>
          cases hCloser : s.current.kind.isCloser with
          | true => simp [hAt, hEnd, hCloser]
          | false => simp [hAt, hEnd, hCloser]

end Parser

namespace Grammar

open GraphQL.Parser

variable {s s' : TokenStream}

/-- What may follow a name or a list in a type that starts at `start`, and the bytes of the type. -/
def typeEnd (start : Position) : Parser ByteRange := do
  if ← isAt .bang then
    let _ ← advance
  return ⟨start.offset, (← get).previousEnd.offset⟩

/-- A mark behind a type belongs to it. -/
theorem typeEnd_of_at {start : Position} {range : ByteRange} (h : s.isAt .bang = true) :
    typeEnd start s = .ok range s' ↔
      ∃ bang, s.advance = (.ok bang, s') ∧ range = ⟨start.offset, s'.previousEnd.offset⟩ := by
  simp only [typeEnd, isAt_bind, h, if_true, estate_bind_eq_ok, advance_eq_ok, get_bind,
    estate_pure_eq_ok]
  grind

theorem typeEnd_of_not_at {start : Position} (h : s.isAt .bang = false) :
    typeEnd start s = .ok ⟨start.offset, s.previousEnd.offset⟩ s := by
  simp [typeEnd, h]

/-- A list type is read between brackets, one level further down. -/
theorem typeWithin_of_list {levels : Nat} {range : ByteRange} (h : s.isAt .squareOpen = true) :
    typeWithin (levels + 1) s = .ok range s' ↔
      ∃ opening first, s.advance = (.ok opening, first) ∧
        ∃ item second, typeWithin levels first = .ok item second ∧
          ∃ third, closes .listType opening second = .ok true third ∧
            typeEnd s.current.start third = .ok range s' := by
  simp [typeWithin, typeEnd, h]

/-- What opens no list type must be a name. -/
theorem typeWithin_of_not_list {levels : Nat} {range : ByteRange}
    (h : s.isAt .squareOpen = false) :
    typeWithin (levels + 1) s = .ok range s' ↔
      s.isAt .name = true ∧ ∃ name first, s.advance = (.ok name, first) ∧
        typeEnd s.current.start first = .ok range s' := by
  cases hName : s.isAt .name <;> simp [typeWithin, typeEnd, h, hName]

/-- What may follow the type of a variable, read into `node`: a default and directives. -/
def variableInside (node : Outline) : Parser Outline := do
  growDirectives (← if ← isAt .equals then growDefault node else pure node)

/-- After `=` comes a default, and directives after it. -/
theorem variableInside_of_at {node : Outline} (h : s.isAt .equals = true) :
    variableInside node s = (growDefault node >>= growDirectives) s := by
  simp [variableInside, h]

theorem variableInside_of_not_at {node : Outline} (h : s.isAt .equals = false) :
    variableInside node s = growDirectives node s := by
  simp [variableInside, h]

/-- The steps of a variable definition that is read. -/
theorem variableDefinition_eq_ok {phrase : Outline} :
    variableDefinition s = .ok phrase s' ↔
      ∃ dollar first, (s.isAt .dollar = true ∧ s.advance = (.ok dollar, first)) ∧
        ∃ name second, (first.isAt .name = true ∧ first.advance = (.ok name, second)) ∧
          second.isAt .colon = true ∧ ∃ colon third, second.advance = (.ok colon, third) ∧
            ∃ type fourth, typeRange third = .ok type fourth ∧
              variableInside (.node { type := .variable, primary := some name.bytes
                                      secondary := some type, location := dollar.start } [])
                fourth = .ok phrase s' := by
  simp only [variableDefinition, estate_bind_eq_ok, expect_eq_ok, expectName_eq_ok, isAt_bind]
  constructor
  · rintro ⟨dollar, first, hDollar, name, second, hName, h⟩
    cases hColon : second.isAt .colon with
    | false => simp [hColon] at h
    | true =>
        simp only [hColon, Bool.not_true, Bool.false_eq_true, if_false, estate_bind_eq_ok,
          advance_eq_ok, isAt_bind] at h
        exact ⟨dollar, first, hDollar, name, second, hName, hColon, h⟩
  · rintro ⟨dollar, first, hDollar, name, second, hName, hColon, h⟩
    refine ⟨dollar, first, hDollar, name, second, hName, ?_⟩
    simp only [hColon, Bool.not_true, Bool.false_eq_true, if_false, estate_bind_eq_ok,
      advance_eq_ok, isAt_bind]
    exact h

end Grammar

end GraphQL
