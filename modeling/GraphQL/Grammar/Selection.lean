import GraphQL.Grammar.Value

/-!
Selection sets and what may be selected: fields, fragment spreads and inline fragments.
-/
namespace GraphQL.Grammar

open GraphQL.Parser

/-- The error that a fragment is called `on`. -/
def reservedFragmentName (found : Token) : SyntaxError :=
  { message := "fragment name cannot be `on`"
    span := found.span
    kind := .reservedName "on"
    notes := [.spec "https://spec.graphql.org/September2025/#FragmentName"] }

/-- The name of a fragment, which is not `on`. -/
def fragmentName (context : String) : Parser Token := do
  if ← isAtWord "on" then fail (reservedFragmentName (← current)) else expectName context

/-- A name, perhaps after an alias, with arguments, directives and a selection set if they are
there. -/
def field (selectionSet : Parser Outline) : Parser Outline := do
  let first ← expectName "for field"
  let opened := Outline.leaf .field first.start
  let named ← if ← isAt .colon then keeping opened do
      let _ ← advance
      let name ← expectName "after field alias"
      return (opened.setPrimary name.bytes).setSecondary first.bytes
    else pure (opened.setPrimary first.bytes)
  let node ← growDirectives (← growAt .parenOpen named arguments)
  growAt .curlyOpen node selectionSet

/-- `...`, the name of a fragment, and directives. -/
def fragmentSpread : Parser Outline := do
  let dots ← expect .ellipsis "to begin a fragment spread"
  let name ← fragmentName "after `...`"
  growDirectives ((Outline.leaf .fragmentSpread dots.start).setPrimary name.bytes)

/-- `...`, perhaps `on` and a type, directives, and a selection set. -/
def inlineFragment (selectionSet : Parser Outline) : Parser Outline := do
  let dots ← expect .ellipsis "to begin an inline fragment"
  let opened := Outline.leaf .inlineFragment dots.start
  let conditioned ← if ← isAtWord "on" then keeping opened do
      let _ ← advance
      let type ← expectName "for type condition after `on`"
      return opened.setPrimary type.bytes
    else pure opened
  grow (← growDirectives conditioned) selectionSet

/-- A selection. Dots before a name other than `on` begin a spread, other dots an inline
fragment. -/
def selection (selectionSet : Parser Outline) : Parser Outline := do
  if ← isAt .name then field selectionSet
  else if ← isAt .ellipsis then
    let next := (← get).peek
    modify fun stream => stream.fetch 1
    if next.kind = .name ∧ next.text ≠ "on" then fragmentSpread else inlineFragment selectionSet
  else failExpecting ["name", "...", "\x7d"] "in selection set"

/-- Selections in braces, nested at most `levels` deep. -/
def selectionSetWithin : Nat → Parser Outline
  | 0 => beyondBound
  | levels + 1 => collection .fieldCollection .selectionSet (selection (selectionSetWithin levels))

/-- Selections in braces, which may be none. -/
def selectionSet : Parser Outline := do selectionSetWithin (← bound)

end GraphQL.Grammar
