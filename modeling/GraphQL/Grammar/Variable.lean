import GraphQL.Grammar.Value

/-!
Variable definitions. The default of a variable is a constant: no variable may occur in it.
-/
namespace GraphQL.Grammar

open GraphQL.Parser

/-- A type, nested at most `levels` deep, and the bytes it covers. -/
def typeWithin : Nat → Parser ByteRange
  | 0 => beyondBound
  | levels + 1 => do
    let first ← current
    if ← isAt .squareOpen then
      let opening ← advance
      let _ ← typeWithin levels
      if !(← closes .listType opening) then failExpecting ["]"] "to close list type"
    else if ← isAt .name then
      let _ ← advance
    else
      failExpecting ["name", "["] "for variable type"
        [.spec "https://spec.graphql.org/September2025/#Type"]
    if ← isAt .bang then
      let _ ← advance
    return ⟨first.start.offset, (← get).previousEnd.offset⟩

/-- A type: a name or a type in square brackets, either perhaps with `!` after it. -/
def typeRange : Parser ByteRange := do typeWithin (← bound)

/-- The first `$` among some tokens, with the token after it. -/
def firstVariable? : List Token → Option (Token × Token)
  | dollar :: name :: rest =>
    if dollar.kind = .dollar then some (dollar, name) else firstVariable? (name :: rest)
  | _ => none

/-- The error that a variable occurs in a default. -/
def variableInDefault (dollar name : Token) : SyntaxError :=
  { message := "variable `$" ++ name.text ++ "` cannot be used in a default value"
    span := ⟨dollar.start, name.stop⟩
    kind := .invalidSyntax
    notes := [.general "default values must be constant"] }

/-- The tokens from the cursor of `before` up to the cursor of `after`, where one stream has moved
on to the other. -/
def tokensBetween (before after : TokenStream) : List Token :=
  (before.current :: before.ahead).take (before.ahead.length - after.ahead.length)

/-- The default after `=`, read into `node`. Once it is read its tokens are searched for variables;
Proofs.Syntax.Usage shows that a search of its nodes finds the same. -/
def growDefault (node : Outline) : Parser Outline := do
  let _ ← keeping node advance
  match ValueForm.startingAt? (← current) with
  | none => keeping node (failExpecting ["value"] "for default value after `=`")
  | some _ =>
    let before ← get
    let node ← grow node value
    match firstVariable? (tokensBetween before (← get)) with
    | none => return node
    | some (dollar, name) => keeping node (fail (variableInDefault dollar name))

/-- `$`, a name, a colon and a type, perhaps a default, and directives. -/
def variableDefinition : Parser Outline := do
  let dollar ← expect .dollar "to begin a variable definition"
  let name ← expectName "after `$`"
  if !(← isAt .colon) then
    failExpecting [":"] "after variable name" [.help "variables are declared as `$name: Type`"]
  let _ ← advance
  let type ← typeRange
  let node := ((Outline.leaf .variable dollar.start).setPrimary name.bytes).setSecondary type
  growDirectives (← if ← isAt .equals then growDefault node else pure node)

/-- Variable definitions in parentheses. -/
def variableDefinitions : Parser Outline :=
  collection .variableCollection .variableDefinitions variableDefinition

end GraphQL.Grammar
