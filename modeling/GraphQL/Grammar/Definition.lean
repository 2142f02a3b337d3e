import GraphQL.Grammar.Selection
import GraphQL.Grammar.Variable

/-!
Operations, fragment definitions and whole documents.
-/
namespace GraphQL.Grammar

open GraphQL.Parser

def operationWords : List String := ["query", "mutation", "subscription"]

/-- Whether the current token is one of `words`. -/
def isAtOneOf (words : List String) : Parser Bool := do
  let token ← current
  return words.any token.isWord

/-- The keyword of an operation and its name, if it has one. -/
def operationHead (opened : Outline) : Parser (Token × Outline) := do
  let keyword ← keeping opened advance
  let typed := opened.setPrimary keyword.bytes
  if ← isAt .name then
    let name ← keeping typed advance
    return (keyword, typed.setSecondary name.bytes)
  else return (keyword, typed)

/-- A selection set alone, or a keyword with perhaps a name, variables and directives before the
selection set. -/
def operation : Parser Outline := do
  let opened := Outline.leaf .operation (← current).start
  if ← isAt .curlyOpen then grow opened selectionSet
  else if !(← isAtOneOf operationWords) then
    keeping opened (failExpecting ("\x7b" :: operationWords) "to begin an operation")
  else
    let (keyword, named) ← operationHead opened
    let node ← growDirectives (← growAt .parenOpen named variableDefinitions)
    if ← isAt .curlyOpen then grow node selectionSet
    else keeping node (failExpecting ["\x7b"]
      ("to open the `" ++ keyword.text ++ "` operation's selection set")
      [.spec "https://spec.graphql.org/September2025/#sec-Language.Operations"])

/-- `fragment`, a name, `on` and a type, directives, and a selection set. -/
def namedFragment : Parser Outline := do
  let keyword ← expectWord "fragment" "to begin a fragment"
  let name ← fragmentName "for fragment name"
  let _ ← expectWord "on" "after fragment name"
  let type ← expectName "for type condition after `on`"
  let opened := Outline.leaf .namedFragment keyword.start
  let node ← growDirectives ((opened.setPrimary name.bytes).setSecondary type.bytes)
  grow node selectionSet

def definitionStarts : List String := "\x7b" :: operationWords ++ ["fragment"]

/-- An operation or a fragment definition. -/
def definition : Parser Outline := do
  if (← isAt .curlyOpen) || (← isAtOneOf operationWords) then operation
  else if ← isAtWord "fragment" then namedFragment
  else failExpecting definitionStarts "to begin a definition"

/-- Definitions up to the end of the text, read into `node`. -/
def growDefinitions : Nat → Outline → Parser Outline
  | 0, node => keeping node beyondBound
  | rounds + 1, node => do
    if (← get).atEnd then return node else growDefinitions rounds (← grow node definition)

/-- A whole text: one definition or more. -/
def document : Parser Outline := do
  let opened := Outline.leaf .document (← current).start
  if (← get).atEnd then
    keeping opened (failExpecting definitionStarts "to begin a definition"
      [.general "a document must contain at least one operation or fragment"])
  else growDefinitions (← bound) opened

end GraphQL.Grammar
