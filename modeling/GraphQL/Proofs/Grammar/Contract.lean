import GraphQL.Proofs.Grammar.Reading
import GraphQL.Grammar.Production

/-! What all steps of the grammar keep to. Each production begins and ends inside of the same open
delimiters, so whatever a stream is to satisfy there, and an error on the way, needs to be said only
for the few things that productions are made of. -/
namespace GraphQL

namespace TokenKind

/-- The kind that closes what a token of this kind opens. -/
def closer? : TokenKind → Option TokenKind
  | .parenOpen => some .parenClose
  | .squareOpen => some .squareClose
  | .curlyOpen => some .curlyClose
  | _ => none

/-- Whether tokens of this kind neither open nor close anything. -/
def NoDelimiter (kind : TokenKind) : Prop := kind.closer? = none ∧ kind.isCloser = false
deriving Decidable

end TokenKind

namespace Enclosure

theorem closer?_opener (enclosure : Enclosure) :
    enclosure.opener.closer? = some enclosure.closer := by
  cases enclosure <;> rfl

end Enclosure

/-- What is true of a stream inside of open delimiters, the innermost first, and what is true of
every error. A step of the stream may assume the first and has to keep it; where a production raises
an error, the second has to follow. -/
structure Contract where
  Inside : List Token → TokenStream → Prop
  Fails : SyntaxError → Prop
  fetched {stack : List Token} {s : TokenStream} (count : Nat) (h : Inside stack s) :
    Inside stack (s.fetch count)
  left {stack : List Token} {s : TokenStream} (h : Inside stack s)
    (hNone : s.current.kind.NoDelimiter) : Inside stack s.advance.2
  opened {stack : List Token} {s : TokenStream} (enclosure : Enclosure) (h : Inside stack s)
    (hOpener : s.current.kind = enclosure.opener) : Inside (s.current :: stack) s.advance.2
  closed {stack : List Token} {s : TokenStream} {enclosure : Enclosure} {opening : Token}
    (h : Inside (opening :: stack) s) (hOpening : opening.kind = enclosure.opener)
    (hCloser : s.current.kind = enclosure.closer) : Inside stack s.advance.2
  /-- The fault of a token that the cursor comes to. -/
  raised {stack : List Token} {s : TokenStream} {error : SyntaxError} (h : Inside stack s)
    (hError : s.current.error? = some error) : Fails error
  unexpected {stack : List Token} {s : TokenStream} {notes : List Note} (h : Inside stack s)
    (expected : List String) (context : String) (hNotes : ∀ note ∈ notes, note.span = none) :
    Fails ((s.unexpected expected context).addNotes notes)
  unclosed {stack : List Token} {s : TokenStream} {enclosure : Enclosure} {opening : Token}
    (h : Inside (opening :: stack) s) (hOpening : opening.kind = enclosure.opener)
    (hEnd : s.current.kind = .eof) : Fails (enclosure.unclosed opening s.previousEnd)
  mismatched {stack : List Token} {s : TokenStream} {enclosure : Enclosure} {opening : Token}
    (h : Inside (opening :: stack) s) (hOpening : opening.kind = enclosure.opener)
    (hFound : s.current.kind.isCloser = true) (hOther : s.current.kind ≠ enclosure.closer) :
    Fails (enclosure.mismatched opening s.current)
  reserved {stack : List Token} {s : TokenStream} (h : Inside stack s) :
    Fails (Grammar.reservedFragmentName s.current)
  /-- A variable that is among the tokens of a default. -/
  inDefault {stack : List Token} {before after : TokenStream} {dollar name : Token}
    (h : Inside stack before)
    (hFirst : Grammar.firstVariable? (Grammar.tokensBetween before after) = some (dollar, name)) :
    Fails (Grammar.variableInDefault dollar name)

namespace Contract

open GraphQL.Parser

variable {α β : Type}

/-- Whether a result is as agreed: a value and a stream that satisfy `After`, or an error that the
contract allows. -/
def Holds (contract : Contract) (After : α → TokenStream → Prop) :
    EStateM.Result Failure TokenStream α → Prop
  | .ok a s => After a s
  | .error failure _ => contract.Fails failure.error

/-- Whether a step ends inside of the delimiters that it begins in. -/
def Keeps (contract : Contract) (p : Parser α) : Prop :=
  ∀ stack s, contract.Inside stack s → contract.Holds (fun _ => contract.Inside stack) (p s)

/-- Whether a step that begins at a token of some kind ends inside of the delimiters that it begins
in. -/
def KeepsAt (contract : Contract) (kind : TokenKind) (p : Parser α) : Prop :=
  ∀ stack s, contract.Inside stack s → s.current.kind = kind →
    contract.Holds (fun _ => contract.Inside stack) (p s)

variable {contract : Contract} {stack : List Token} {s : TokenStream} {p : Parser α}
variable {After : α → TokenStream → Prop} {Last : β → TokenStream → Prop}

/-- Of two steps the second may count on what holds after the first. -/
theorem Holds.bind {f : α → Parser β} (h : contract.Holds After (p s))
    (hf : ∀ a s', After a s' → contract.Holds Last (f a s')) :
    contract.Holds Last ((p >>= f) s) := by
  cases hResult : p s with
  | ok a s' =>
      rw [hResult] at h
      rw [estate_bind_of_ok hResult]
      exact hf a s' h
  | error failure s' =>
      rw [hResult] at h
      rw [estate_bind_of_error hResult]
      exact h

/-- What holds of the value and the stream may be weakened. -/
theorem Holds.imp {Other : α → TokenStream → Prop} (h : contract.Holds After (p s))
    (hOther : ∀ a s', After a s' → Other a s') : contract.Holds Other (p s) := by
  cases hResult : p s with
  | ok a s' =>
      rw [hResult] at h
      exact hOther a s' h
  | error failure s' => rwa [hResult] at h

/-- What is kept on failure is not told by the error. -/
theorem Holds.keeping (node : Outline) (h : contract.Holds After (p s)) :
    contract.Holds After (keeping node p s) := by
  unfold Parser.keeping
  cases hResult : p s with
  | ok a s' => rwa [hResult] at h
  | error failure s' => rwa [hResult] at h

/-- Leaving a token gives that token, and raises no other fault than that of the next. -/
theorem holds_advance (h : contract.Inside stack s.advance.2) :
    contract.Holds (fun token s' => token = s.current ∧ contract.Inside stack s')
      (advance s) := by
  unfold Parser.advance
  cases hAdvance : s.advance with
  | mk result s' =>
      rw [hAdvance] at h
      unfold TokenStream.advance at hAdvance
      split at hAdvance
      · cases hAdvance
        exact ⟨rfl, h⟩
      · cases result with
        | ok token =>
            obtain ⟨-, rfl, -⟩ := TokenStream.raised_eq_ok.1 hAdvance
            exact ⟨rfl, h⟩
        | error error =>
            obtain ⟨hError, rfl⟩ := TokenStream.raised_eq_error.1 hAdvance
            exact contract.raised h hError

/-- A token that is no delimiter may be left anywhere. -/
theorem holds_leave (h : contract.Inside stack s) (hNone : s.current.kind.NoDelimiter) :
    contract.Holds (fun _ => contract.Inside stack) (advance s) :=
  (holds_advance (contract.left h hNone)).imp fun _ _ hLeft => hLeft.2

/-- An opener that is left is the innermost from then on. -/
theorem holds_open (enclosure : Enclosure) (h : contract.Inside stack s)
    (hOpener : s.current.kind = enclosure.opener) :
    contract.Holds (fun opening s' => opening.kind = enclosure.opener ∧
      contract.Inside (opening :: stack) s') (advance s) := by
  refine (holds_advance (contract.opened enclosure h hOpener)).imp ?_
  rintro _ s' ⟨rfl, hInside⟩
  exact ⟨hOpener, hInside⟩

/-- What is missed at the cursor may be told, with notes that have no place. -/
theorem holds_failExpecting (h : contract.Inside stack s) (expected : List String)
    (context : String) {notes : List Note} (hNotes : ∀ note ∈ notes, note.span = none) :
    contract.Holds After (failExpecting expected context notes s) :=
  contract.unexpected h expected context hNotes

/-- Nothing is done after a step that fails. -/
theorem holds_failExpecting_bind (h : contract.Inside stack s) (expected : List String)
    (context : String) {notes : List Note} (hNotes : ∀ note ∈ notes, note.span = none)
    (f : α → Parser β) :
    contract.Holds Last ((failExpecting expected context notes >>= f) s) := by
  have hFails : contract.Holds (fun (_ : α) _ => False) (failExpecting expected context notes s) :=
    holds_failExpecting h expected context hNotes
  exact hFails.bind fun _ _ hNever => hNever.elim

theorem holds_beyondBound (h : contract.Inside stack s) : contract.Holds After (beyondBound s) :=
  holds_failExpecting h _ _ (List.forall_mem_nil _)

/-- An enclosure that is opened is the innermost from then on. -/
theorem holds_openEnclosure (enclosure : Enclosure) (h : contract.Inside stack s) :
    contract.Holds (fun opening s' => opening.kind = enclosure.opener ∧
      contract.Inside (opening :: stack) s') (openEnclosure enclosure s) := by
  rw [openEnclosure, expect, isAt_bind]
  split
  · next hAt =>
      exact holds_open enclosure h ((TokenStream.isAt_iff (Grammar.opener_plain enclosure).1).1 hAt)
  · exact holds_failExpecting h _ _ (List.forall_mem_nil _)

/-- Where an enclosure ends its opening delimiter is no longer the innermost, else it still is. -/
theorem holds_closes {enclosure : Enclosure} {opening : Token}
    (h : contract.Inside (opening :: stack) s) (hOpening : opening.kind = enclosure.opener) :
    contract.Holds (fun ends s' => contract.Inside (if ends then stack else opening :: stack) s')
      (closes enclosure opening s) := by
  have hCloser : s.isAt enclosure.closer = true ↔ s.current.kind = enclosure.closer :=
    TokenStream.isAt_iff (Grammar.closer_plain enclosure).1
  rw [closes, isAt_bind]
  cases hAt : s.isAt enclosure.closer with
  | true =>
      have hAdvance := holds_advance (contract.closed h hOpening (hCloser.1 hAt))
      exact hAdvance.bind fun _ s' hInside => hInside.2
  | false =>
      have hOther : s.current.kind ≠ enclosure.closer := fun hSame => by
        rw [hCloser.2 hSame] at hAt
        cases hAt
      simp only [Bool.false_eq_true, if_false, get_bind]
      split
      · next hEnd => exact contract.unclosed h hOpening (TokenStream.atEnd_iff.1 hEnd)
      · split
        · next hFound => exact contract.mismatched h hOpening hFound hOther
        · exact h

/-- Steps that keep to the contract do so in a row. -/
theorem Keeps.bind {f : α → Parser β} (h : contract.Keeps p)
    (hf : ∀ a, contract.Keeps (f a)) : contract.Keeps (p >>= f) := fun stack s hs =>
  (h stack s hs).bind fun a s' hs' => hf a stack s' hs'

theorem keeps_pure (a : α) : contract.Keeps (pure a) := fun _ _ hs => hs

/-- A step that only looks at the stream. -/
theorem keeps_look (look : TokenStream → α) : contract.Keeps (do return look (← get)) :=
  fun _ _ hs => hs

theorem keeps_get : contract.Keeps get := fun _ _ hs => hs

theorem keeps_current : contract.Keeps current := keeps_look TokenStream.current

theorem keeps_isAt (kind : TokenKind) : contract.Keeps (isAt kind) := keeps_look (·.isAt kind)

theorem keeps_isAtWord (word : String) : contract.Keeps (isAtWord word) :=
  keeps_look (·.isAtWord word)

theorem keeps_bound : contract.Keeps bound := keeps_look (·.ahead.length + 1)

theorem keeps_ite {c : Prop} [Decidable c] {q : Parser α} (hp : contract.Keeps p)
    (hq : contract.Keeps q) : contract.Keeps (if c then p else q) := by
  split
  · exact hp
  · exact hq

theorem keeps_failExpecting (expected : List String) (context : String) {notes : List Note}
    (hNotes : ∀ note ∈ notes, note.span = none) :
    contract.Keeps (failExpecting expected context notes : Parser α) := fun _ _ hs =>
  holds_failExpecting hs expected context hNotes

theorem keeps_beyondBound : contract.Keeps (beyondBound : Parser α) := fun _ _ =>
  holds_beyondBound

theorem Keeps.keeping (node : Outline) (h : contract.Keeps p) :
    contract.Keeps (keeping node p) := fun stack s hs => (h stack s hs).keeping node

section Known

variable {kind : TokenKind} {q : Parser α}

/-- Only the first of two steps needs to begin at the token. -/
theorem KeepsAt.bind {f : α → Parser β} (h : contract.KeepsAt kind p)
    (hf : ∀ a, contract.Keeps (f a)) : contract.KeepsAt kind (p >>= f) := fun stack s hs hKind =>
  (h stack s hs hKind).bind fun a s' hs' => hf a stack s' hs'

theorem KeepsAt.keeping (node : Outline) (h : contract.KeepsAt kind p) :
    contract.KeepsAt kind (keeping node p) := fun stack s hs hKind =>
  (h stack s hs hKind).keeping node

/-- A token may be left if it is known to be no delimiter. -/
theorem keepsAt_advance (hNone : kind.NoDelimiter) : contract.KeepsAt kind advance :=
  fun _ _ hs hKind => holds_leave hs (hKind ▸ hNone)

/-- A step is taken only at its token. -/
theorem keeps_ifAt (hError : kind.isError = false) (hp : contract.KeepsAt kind p)
    (hq : contract.Keeps q) :
    contract.Keeps (do if ← isAt kind then p else q) := by
  intro stack s hs
  rw [isAt_bind]
  split
  · next hAt => exact hp stack s hs ((TokenStream.isAt_iff hError).1 hAt)
  · exact hq stack s hs

/-- What is taken at a token is known to begin there. -/
theorem keeps_unlessAt (hError : kind.isError = false) (hp : contract.Keeps p)
    (hq : contract.KeepsAt kind q) :
    contract.Keeps (do if !(← isAt kind) then p else q) := by
  intro stack s hs
  rw [isAt_bind]
  split
  · exact hp stack s hs
  · next hAt => exact hq stack s hs ((TokenStream.isAt_iff hError).1 (by simpa using hAt))

theorem keeps_ifAtWord (word : String) (hp : contract.KeepsAt .name p) (hq : contract.Keeps q) :
    contract.Keeps (do if ← isAtWord word then p else q) := by
  intro stack s hs
  rw [isAtWord_bind]
  split
  · next hAt => exact hp stack s hs (Grammar.isWord_iff.1 hAt).1
  · exact hq stack s hs

theorem keeps_unlessAtOneOf (words : List String) (hp : contract.Keeps p)
    (hq : contract.KeepsAt .name q) :
    contract.Keeps (do if !(← Grammar.isAtOneOf words) then p else q) := by
  intro stack s hs
  rw [isAtOneOf_bind]
  split
  · exact hp stack s hs
  · next hAt => exact hq stack s hs (Grammar.any_isWord.1 (by simpa using hAt)).1

/-- A token that is required may be left if its kind is that of no delimiter. -/
theorem keeps_expect (hError : kind.isError = false) (hNone : kind.NoDelimiter) (context : String) :
    contract.Keeps (expect kind context) :=
  keeps_ifAt hError (keepsAt_advance hNone) (keeps_failExpecting _ _ (List.forall_mem_nil _))

theorem keeps_expectName (context : String) : contract.Keeps (expectName context) :=
  keeps_expect rfl (by decide) context

theorem keeps_expectWord (word context : String) : contract.Keeps (expectWord word context) :=
  keeps_ifAtWord word (keepsAt_advance (by decide))
    (keeps_failExpecting _ _ (List.forall_mem_nil _))

end Known

section Growing

variable {child : Parser Outline} (hChild : contract.Keeps child)
include hChild

/-- To read a phrase into another keeps what reading the phrase keeps. -/
theorem keeps_grow (node : Outline) : contract.Keeps (grow node child) :=
  (hChild.keeping node).bind fun _ => keeps_pure _

theorem keeps_growAt (kind : TokenKind) (node : Outline) :
    contract.Keeps (growAt kind node child) :=
  (keeps_isAt kind).bind fun _ => keeps_ite (keeps_grow hChild node) (keeps_pure node)

/-- Parts in a row are read inside of the same delimiters, by induction on the rounds. -/
theorem keeps_growWhileAt (kind : TokenKind) (rounds : Nat) (node : Outline) :
    contract.Keeps (growWhileAt kind child rounds node) := by
  induction rounds generalizing node with
  | zero => exact keeps_beyondBound.keeping node
  | succ rounds ih =>
      exact (keeps_isAt kind).bind fun _ =>
        keeps_ite ((keeps_grow hChild node).bind ih) (keeps_pure node)

/-- The items of an enclosure are read inside of its opening delimiter, and after its end the
delimiters around it are open. -/
theorem holds_growUntilClosed {enclosure : Enclosure} {opening : Token}
    (hOpening : opening.kind = enclosure.opener) (rounds : Nat) (node : Outline)
    (h : contract.Inside (opening :: stack) s) :
    contract.Holds (fun _ => contract.Inside stack)
      (growUntilClosed enclosure opening child rounds node s) := by
  induction rounds generalizing node s with
  | zero => exact (holds_beyondBound h).keeping node
  | succ rounds ih =>
      refine ((holds_closes h hOpening).keeping node).bind fun ends s' hs' => ?_
      cases ends with
      | true => exact hs'
      | false =>
          exact (keeps_grow hChild node _ s' hs').bind fun grown s'' hs'' => ih grown hs''

/-- A collection leaves its delimiters as it found them: what it opens it closes. -/
theorem keeps_collection (type : NodeType) (enclosure : Enclosure) :
    contract.Keeps (collection type enclosure child) := fun _ _ hs =>
  (holds_openEnclosure enclosure hs).bind fun _ _ hInside =>
    holds_growUntilClosed hChild hInside.1 _ _ hInside.2

end Growing

end Contract

namespace Grammar

open GraphQL.Parser Contract

variable {contract : Contract}

theorem noDelimiter_of_scalarKindOf? {token : Token} {kind : ScalarKind}
    (h : scalarKindOf? token = some kind) : token.kind.NoDelimiter := by
  unfold scalarKindOf? at h
  split at h
  · next hKind => exact hKind ▸ (by decide : TokenKind.number.NoDelimiter)
  · next hKind => exact hKind ▸ (by decide : TokenKind.string.NoDelimiter)
  · next hKind => exact hKind ▸ (by decide : TokenKind.name.NoDelimiter)
  · cases h

theorem keeps_scalarValue : contract.Keeps scalarValue := by
  intro stack s hs
  rw [scalarValue, current_bind]
  cases hKind : scalarKindOf? s.current with
  | some kind =>
      exact (holds_leave hs (noDelimiter_of_scalarKindOf? hKind)).bind fun _ _ hs' => hs'
  | none => exact holds_failExpecting hs _ _ (List.forall_mem_nil _)

theorem keeps_enumValue : contract.Keeps enumValue :=
  keeps_current.bind fun _ => keeps_ite (keeps_failExpecting _ _ (List.forall_mem_nil _))
    ((keeps_expectName _).bind fun _ => keeps_pure _)

theorem keeps_nullValue : contract.Keeps nullValue :=
  (keeps_expectWord _ _).bind fun _ => keeps_pure _

theorem keeps_variableValue : contract.Keeps variableValue :=
  (keeps_expect rfl (by decide) _).bind fun _ => (keeps_expectName _).bind fun _ => keeps_pure _

section Inner

variable {value : Parser Outline} (hValue : contract.Keeps value)
include hValue

theorem keeps_listValue : contract.Keeps (listValue value) := by
  refine keeps_collection (keeps_current.bind fun token => ?_) _ _
  cases ValueForm.startingAt? token with
  | some form => exact hValue
  | none => exact keeps_failExpecting _ _ (List.forall_mem_nil _)

theorem keeps_inputItem : contract.Keeps (inputItem value) := by
  refine (keeps_expectName _).bind fun name => (keeps_expect rfl (by decide) _).bind fun _ =>
    keeps_current.bind fun token => ?_
  cases ValueForm.startingAt? token with
  | some form => exact keeps_grow hValue _
  | none => exact Keeps.keeping _ (keeps_failExpecting _ _ (List.forall_mem_nil _))

theorem keeps_objectValue : contract.Keeps (objectValue value) :=
  keeps_collection (keeps_inputItem hValue) _ _

/-- Each form of value begins and ends inside of the same delimiters. -/
theorem keeps_production (form : ValueForm) : contract.Keeps (form.production value) := by
  cases form with
  | variableValue => exact keeps_variableValue
  | listValue => exact keeps_listValue hValue
  | objectValue => exact keeps_objectValue hValue
  | scalarValue => exact keeps_scalarValue
  | nullValue => exact keeps_nullValue
  | enumValue => exact keeps_enumValue

end Inner

/-- A value closes what it opens, by induction on the levels. -/
theorem keeps_valueWithin (levels : Nat) : contract.Keeps (valueWithin levels) := by
  induction levels with
  | zero => exact keeps_beyondBound
  | succ levels ih =>
      refine keeps_current.bind fun token => ?_
      cases ValueForm.startingAt? token with
      | some form => exact keeps_production ih form
      | none => exact keeps_failExpecting _ _ (List.forall_mem_nil _)

theorem keeps_value : contract.Keeps value := keeps_bound.bind keeps_valueWithin

theorem keeps_arguments : contract.Keeps arguments :=
  keeps_collection (keeps_inputItem keeps_value) _ _

theorem keeps_directive : contract.Keeps directive :=
  (keeps_expect rfl (by decide) _).bind fun _ => (keeps_expectName _).bind fun _ =>
    keeps_growAt keeps_arguments _ _

theorem keeps_growDirectives (node : Outline) : contract.Keeps (growDirectives node) :=
  keeps_bound.bind fun rounds => keeps_growWhileAt keeps_directive _ rounds node

theorem keeps_typeEnd (start : Position) : contract.Keeps (typeEnd start) := by
  have hRange : contract.Keeps do
      return (⟨start.offset, (← get).previousEnd.offset⟩ : ByteRange) := fun _ _ hs => hs
  exact keeps_ifAt rfl ((keepsAt_advance (by decide)).bind fun _ => hRange) hRange

/-- A type closes the brackets that it opens, by induction on the levels. -/
theorem keeps_typeWithin (levels : Nat) : contract.Keeps (typeWithin levels) := by
  induction levels with
  | zero => exact keeps_beyondBound
  | succ levels ih =>
      refine keeps_current.bind fun first => keeps_ifAt rfl ?_ (keeps_ifAt rfl ?_ ?_)
      · intro stack s hs hKind
        refine (holds_open .listType hs hKind).bind fun opening s' ⟨hOpening, hInside⟩ => ?_
        refine (ih _ s' hInside).bind fun _ s'' hItem =>
          (holds_closes hItem hOpening).bind fun ends last hLast => ?_
        cases ends with
        | true => exact keeps_typeEnd first.start stack last hLast
        | false => exact holds_failExpecting_bind hLast _ _ (List.forall_mem_nil _) _
      · exact (keepsAt_advance (by decide)).bind fun _ => keeps_typeEnd first.start
      · exact fun _ _ hs => holds_failExpecting_bind hs _ _ (List.forall_mem_singleton.2 rfl) _

theorem keeps_typeRange : contract.Keeps typeRange := keeps_bound.bind keeps_typeWithin

/-- A default begins at its sign, and may be refused for a variable among its tokens. -/
theorem keepsAt_growDefault (node : Outline) : contract.KeepsAt .equals (growDefault node) := by
  refine ((keepsAt_advance (by decide)).keeping node).bind fun _ => keeps_current.bind
    fun token => ?_
  cases ValueForm.startingAt? token with
  | none => exact Keeps.keeping node (keeps_failExpecting _ _ (List.forall_mem_nil _))
  | some form =>
      intro stack s hs
      refine (keeps_grow keeps_value node stack s hs).bind fun grown s' hs' => ?_
      rw [get_bind]
      cases hFirst : firstVariable? (tokensBetween s s') with
      | none => exact hs'
      | some found => exact contract.inDefault hs hFirst

theorem keeps_variableDefinition : contract.Keeps variableDefinition := by
  refine (keeps_expect rfl (by decide) _).bind fun _ => (keeps_expectName _).bind fun _ =>
    keeps_unlessAt rfl ?_ ?_
  · exact fun _ _ hs => holds_failExpecting_bind hs _ _ (List.forall_mem_singleton.2 rfl) _
  · exact (keepsAt_advance (by decide)).bind fun _ => keeps_typeRange.bind fun _ =>
      keeps_ifAt rfl ((keepsAt_growDefault _).bind keeps_growDirectives) (keeps_growDirectives _)

theorem keeps_variableDefinitions : contract.Keeps variableDefinitions :=
  keeps_collection keeps_variableDefinition _ _

/-- The word `on` may be told as a name that is reserved. -/
theorem keeps_fragmentName (context : String) : contract.Keeps (fragmentName context) := by
  intro stack s hs
  rw [fragmentName, isAtWord_bind]
  split
  · exact contract.reserved hs
  · exact keeps_expectName context stack s hs

theorem keeps_fragmentSpread : contract.Keeps fragmentSpread :=
  (keeps_expect rfl (by decide) _).bind fun _ => (keeps_fragmentName _).bind fun _ =>
    keeps_growDirectives _

/-- A token that was looked for, and a name after it. -/
theorem keepsAt_named {kind : TokenKind} (hNone : kind.NoDelimiter) (opened : Outline)
    (context : String) (reckon : Token → Outline) :
    contract.KeepsAt kind (keeping opened do
      let _ ← advance
      let name ← expectName context
      return reckon name) :=
  ((keepsAt_advance hNone).bind fun _ =>
    (keeps_expectName context).bind fun _ => keeps_pure _).keeping opened

section Selections

variable {selections : Parser Outline} (hSelections : contract.Keeps selections)
include hSelections

theorem keeps_field : contract.Keeps (field selections) := by
  have hInside (named : Outline) : contract.Keeps (do
      let node ← growDirectives (← growAt .parenOpen named arguments)
      growAt .curlyOpen node selections) :=
    (keeps_growAt keeps_arguments _ _).bind fun _ =>
      (keeps_growDirectives _).bind fun _ => keeps_growAt hSelections _ _
  exact (keeps_expectName _).bind fun first =>
    keeps_ifAt rfl ((keepsAt_named (by decide) _ _ _).bind hInside) (hInside _)

theorem keeps_inlineFragment : contract.Keeps (inlineFragment selections) := by
  have hInside (node : Outline) : contract.Keeps (growDirectives node >>= (grow · selections)) :=
    (keeps_growDirectives node).bind fun _ => keeps_grow hSelections _
  exact (keeps_expect rfl (by decide) _).bind fun dots =>
    keeps_ifAtWord _ ((keepsAt_named (by decide) _ _ _).bind hInside) (hInside _)

theorem keeps_selection : contract.Keeps (selection selections) := by
  refine (keeps_isAt _).bind fun _ => keeps_ite (keeps_field hSelections) ?_
  refine (keeps_isAt _).bind fun _ => keeps_ite ?_ (keeps_failExpecting _ _ (List.forall_mem_nil _))
  -- The cursor stays at the dots while what comes after them is looked at.
  have hFetch : contract.Keeps (modify fun stream => stream.fetch 1) :=
    fun _ _ hs => contract.fetched 1 hs
  exact keeps_get.bind fun _ => hFetch.bind fun _ =>
    keeps_ite keeps_fragmentSpread (keeps_inlineFragment hSelections)

end Selections

/-- Selections close what they open, by induction on the levels. -/
theorem keeps_selectionSetWithin (levels : Nat) :
    contract.Keeps (selectionSetWithin levels) := by
  induction levels with
  | zero => exact keeps_beyondBound
  | succ levels ih => exact keeps_collection (keeps_selection ih) _ _

theorem keeps_selectionSet : contract.Keeps selectionSet :=
  keeps_bound.bind keeps_selectionSetWithin

theorem keepsAt_operationHead (opened : Outline) :
    contract.KeepsAt .name (operationHead opened) := by
  refine ((keepsAt_advance (by decide)).keeping opened).bind fun _ =>
    keeps_ifAt rfl ?_ (keeps_pure _)
  exact ((keepsAt_advance (by decide)).keeping _).bind fun _ => keeps_pure _

theorem keeps_operation : contract.Keeps operation := by
  refine keeps_current.bind fun _ => (keeps_isAt _).bind fun _ =>
    keeps_ite (keeps_grow keeps_selectionSet _) ?_
  refine keeps_unlessAtOneOf _
    (Keeps.keeping _ (keeps_failExpecting _ _ (List.forall_mem_nil _))) ?_
  refine (keepsAt_operationHead _).bind fun head =>
    (keeps_growAt keeps_variableDefinitions _ _).bind fun _ =>
      (keeps_growDirectives _).bind fun node => (keeps_isAt _).bind fun _ => ?_
  exact keeps_ite (keeps_grow keeps_selectionSet node)
    (Keeps.keeping node (keeps_failExpecting _ _ (List.forall_mem_singleton.2 rfl)))

theorem keeps_namedFragment : contract.Keeps namedFragment :=
  (keeps_expectWord _ _).bind fun _ => (keeps_fragmentName _).bind fun _ =>
    (keeps_expectWord _ _).bind fun _ => (keeps_expectName _).bind fun _ =>
      (keeps_growDirectives _).bind fun _ => keeps_grow keeps_selectionSet _

theorem keeps_definition : contract.Keeps definition := by
  have hIsAtOneOf : contract.Keeps (isAtOneOf operationWords) :=
    keeps_look fun s => operationWords.any s.current.isWord
  refine (keeps_isAt _).bind fun _ => hIsAtOneOf.bind fun _ => keeps_ite keeps_operation ?_
  exact (keeps_isAtWord _).bind fun _ =>
    keeps_ite keeps_namedFragment (keeps_failExpecting _ _ (List.forall_mem_nil _))

/-- Definitions close what they open, by induction on the rounds. -/
theorem keeps_growDefinitions (rounds : Nat) (node : Outline) :
    contract.Keeps (growDefinitions rounds node) := by
  induction rounds generalizing node with
  | zero => exact keeps_beyondBound.keeping node
  | succ rounds ih =>
      exact keeps_get.bind fun _ => keeps_ite (keeps_pure node)
        ((keeps_grow keeps_definition node).bind ih)

/-- A text is read inside of the delimiters that were open before it, which are none. -/
theorem keeps_document : contract.Keeps document :=
  keeps_current.bind fun _ => keeps_get.bind fun _ => keeps_ite
    (Keeps.keeping _ (keeps_failExpecting _ _ (List.forall_mem_singleton.2 rfl)))
    (keeps_bound.bind fun rounds => keeps_growDefinitions rounds _)

end Grammar

/-- Every error of a text is one that a contract allows, if the contract holds at the first
token. -/
theorem Contract.fails_of_outline {contract : Contract} {source : Source} {error : SyntaxError}
    (hStart : contract.Inside [] (TokenStream.ofText source.text).prime.2)
    (h : source.outline = .error error) :
    ∃ found, contract.Fails found ∧ error = found.atPath source.path := by
  unfold Source.outline at h
  split at h
  · next found s hPrime =>
      rw [hPrime] at hStart
      cases h
      exact ⟨found, contract.raised hStart (TokenStream.fault_of_prime hPrime).2, rfl⟩
  · next token s hPrime =>
      rw [hPrime] at hStart
      have hDocument := Grammar.keeps_document [] s hStart
      split at h
      · cases h
      · next failure s' hFailed =>
          rw [hFailed] at hDocument
          cases h
          exact ⟨failure.error, hDocument, rfl⟩

end GraphQL
