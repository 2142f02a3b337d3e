import GraphQL.Grammar.Basic

/-!
Values, and the arguments and directives made of them. The productions that contain values take the
production of a value, and `value` ties the knot, nested no deeper than there are tokens.
-/
namespace GraphQL.Grammar

open GraphQL.Parser

/-- The productions of a value. -/
inductive ValueForm where
  | variableValue
  | listValue
  | objectValue
  | scalarValue
  | nullValue
  | enumValue
deriving DecidableEq, Repr, Inhabited

/-- The form of the value that starts with a token, if one can. -/
def ValueForm.startingAt? (token : Token) : Option ValueForm :=
  match token.kind with
  | .dollar => some .variableValue
  | .squareOpen => some .listValue
  | .curlyOpen => some .objectValue
  | .number | .string => some .scalarValue
  | .name =>
    if token.text = "true" ∨ token.text = "false" then some .scalarValue
    else if token.text = "null" then some .nullValue
    else some .enumValue
  | _ => none

/-- The kind of scalar that a token is, if it is one. -/
def scalarKindOf? (token : Token) : Option ScalarKind :=
  match token.kind with
  | .number => some .number
  | .string => some .string
  | .name => if token.text = "true" ∨ token.text = "false" then some .boolean else none
  | _ => none

/-- A number, a string, `true` or `false`. -/
def scalarValue : Parser Outline := do
  match scalarKindOf? (← current) with
  | some kind =>
    let token ← advance
    return (Outline.leaf .scalarValue token.start).setScalar token.bytes kind
  | none => failExpecting ["number", "string", "true", "false"] "for scalar value"

/-- A name other than `true`, `false` and `null`. -/
def enumValue : Parser Outline := do
  if (← current).text ∈ ["true", "false", "null"] then
    failExpecting ["enum value"] "for enum value"
  else
    let token ← expectName "for enum value"
    return (Outline.leaf .enumValue token.start).setPrimary token.bytes

def nullValue : Parser Outline := do
  let token ← expectWord "null" "for null value"
  return (Outline.leaf .nullValue token.start).setPrimary token.bytes

/-- A variable in the place of a value: `$` and a name. -/
def variableValue : Parser Outline := do
  let dollar ← expect .dollar "to begin a variable reference"
  let name ← expectName "after `$`"
  return (Outline.leaf .variableValue dollar.start).setPrimary name.bytes

/-- Values in square brackets. -/
def listValue (value : Parser Outline) : Parser Outline :=
  collection .listValue .listValue do
    match ValueForm.startingAt? (← current) with
    | some _ => value
    | none => failExpecting ["value", "]"] "in list value"

/-- A name and a value, as an argument or as a field of an object. -/
def inputItem (value : Parser Outline) : Parser Outline := do
  let name ← expectName "for input name"
  let _ ← expect .colon "after input name"
  let node := (Outline.leaf .inputItem name.start).setPrimary name.bytes
  match ValueForm.startingAt? (← current) with
  | some _ => grow node value
  | none => keeping node (failExpecting ["value"] ("for input `" ++ name.text ++ "`"))

/-- Names with values in braces. -/
def objectValue (value : Parser Outline) : Parser Outline :=
  collection .complexValue .objectValue (inputItem value)

/-- A value of a given form, whose inner values are read by `value`. -/
def ValueForm.production (value : Parser Outline) : ValueForm → Parser Outline
  | .variableValue => Grammar.variableValue
  | .listValue => Grammar.listValue value
  | .objectValue => Grammar.objectValue value
  | .scalarValue => Grammar.scalarValue
  | .nullValue => Grammar.nullValue
  | .enumValue => Grammar.enumValue

/-- A value, in the form that its first token decides, nested at most `levels` deep. -/
def valueWithin : Nat → Parser Outline
  | 0 => beyondBound
  | levels + 1 => do
    match ValueForm.startingAt? (← current) with
    | some form => form.production (valueWithin levels)
    | none => failExpecting ["value"] "for value"

/-- A value. -/
def value : Parser Outline := do valueWithin (← bound)

/-- Arguments in parentheses, which may be none. -/
def arguments : Parser Outline := collection .inputItemCollection .arguments (inputItem value)

/-- `@`, a name, and perhaps arguments. -/
def directive : Parser Outline := do
  let sign ← expect .atSign "to begin a directive"
  let name ← expectName "after `@`"
  growAt .parenOpen ((Outline.leaf .directive sign.start).setPrimary name.bytes) arguments

/-- The directives that follow, read into `node`. -/
def growDirectives (node : Outline) : Parser Outline := do
  growWhileAt .atSign directive (← bound) node

end GraphQL.Grammar
