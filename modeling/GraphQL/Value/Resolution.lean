import GraphQL.StringLiteral
import GraphQL.Value.Literal
import GraphQL.Value.Number

/-!
The resolution of values: literals are read and variables replaced by what the caller supplies for
them or by their defaults.
-/
namespace GraphQL

/-- A value that no longer depends on the document. -/
inductive Resolved where
  | null
  | boolean (value : Bool)
  | int (value : Int64)
  | float (value : Number.Binary64)
  | string (value : String)
  | enumeration (name : String)
  | list (items : List Resolved)
  | object (fields : List (String × Resolved))
deriving Repr, Inhabited

namespace Resolved

def isNull : Resolved → Bool
  | .null => true
  | _ => false

def string? : Resolved → Option String
  | .string value => some value
  | _ => none

def int? : Resolved → Option Int64
  | .int value => some value
  | _ => none

def list? : Resolved → Option (List Resolved)
  | .list items => some items
  | _ => none

def object? : Resolved → Option (List (String × Resolved))
  | .object fields => some fields
  | _ => none

end Resolved

/-- Values by name, in the order in which the names were first entered. -/
abbrev ResolvedMap := List (String × Resolved)

/-- Enter a value, in the place of the one entered under the same name if there is one. -/
def ResolvedMap.put (name : String) (value : Resolved) : ResolvedMap → ResolvedMap
  | [] => [(name, value)]
  | (listed, old) :: rest =>
    if listed = name then (listed, value) :: rest else (listed, old) :: put name value rest

/-- Enter values one after the other. -/
def ResolvedMap.ofPairs (pairs : List (String × Resolved)) : ResolvedMap :=
  pairs.foldl (fun map pair => map.put pair.1 pair.2) []

/-- Why a value cannot be resolved. -/
inductive ResolutionError where
  | intOutOfRange (text : String)
  | badFloat (text : String)
  | badString (text : String) (cause : StringLiteral.Fault)
  | unresolvedVariable (cause : VariableError)
  /-- The default of a variable leads back to the variable, which no document read from a text
  allows. -/
  | cyclicDefault (name : String)
deriving DecidableEq, Repr, Inhabited

def ResolutionError.message : ResolutionError → String
  | .intOutOfRange text =>
    "integer literal `" ++ text ++ "` does not fit in a 64-bit signed integer"
  | .badFloat text => "float literal `" ++ text ++ "` is not a finite 64-bit float"
  | .badString text cause =>
    "string literal " ++ text ++ " could not be cooked: " ++ cause.message
  | .unresolvedVariable cause =>
    "variable was not supplied and could not be resolved: " ++ cause.message
  | .cyclicDefault name => "the default of `$" ++ name ++ "` leads back to it"

/-- A number by its text: a float if it has a point or an exponent, else an integer. -/
def resolveNumber (text : String) : Except ResolutionError Resolved :=
  if Number.isFloat text then
    match Number.float? text with
    | some value => .ok (.float value)
    | none => .error (.badFloat text)
  else match Number.int64? text with
    | some value => .ok (.int value)
    | none => .error (.intOutOfRange text)

def resolveScalar (kind : ScalarKind) (text : String) : Except ResolutionError Resolved :=
  match kind with
  | .boolean => .ok (.boolean (text == "true"))
  | .number => resolveNumber text
  | .string =>
    match StringLiteral.value text with
    | .ok value => .ok (.string value)
    | .error cause => .error (.badString text cause)

namespace Literal

/-- How the usages of variables in a value are resolved, given the part and the name. -/
abbrev UsageRule := PartId → String → Except ResolutionError Resolved

mutual

/-- A value with each usage of a variable resolved by `usage`. The first failure in order is the
failure of the whole. -/
def resolveWith (usage : UsageRule) : Literal → Except ResolutionError Resolved
  | .scalar kind text => resolveScalar kind text
  | .enumeration name => .ok (.enumeration name)
  | .null => .ok .null
  | .list items => return .list (← resolveAllWith usage items)
  | .object fields => return .object (← resolveFieldsWith usage fields)
  | .variableUsage part name => usage part name

def resolveAllWith (usage : UsageRule) : List Literal → Except ResolutionError (List Resolved)
  | [] => .ok []
  | item :: rest => return (← resolveWith usage item) :: (← resolveAllWith usage rest)

def resolveFieldsWith (usage : UsageRule) :
    List (String × Literal) → Except ResolutionError (List (String × Resolved))
  | [] => .ok []
  | (name, value) :: rest =>
    return (name, ← resolveWith usage value) :: (← resolveFieldsWith usage rest)

end

end Literal

namespace Document

/-- The rule for usages: what is supplied under the name, else the default of the declaration, read
by `ofDefault`, else null. -/
def usageRule (document : Document) (supplied : ResolvedMap)
    (ofDefault : Literal → Except ResolutionError Resolved) : Literal.UsageRule :=
  fun part name =>
  match supplied.lookup name with
  | some value => .ok value
  | none =>
    match document.declaration part with
    | .error cause => .error (.unresolvedVariable cause)
    | .ok declaration =>
      match document.literal? declaration with
      | some literal => ofDefault literal
      | none => .ok .null

/-- Resolve a value, going from a usage to a default at most `steps` times in a row. -/
def resolveWithin (document : Document) (supplied : ResolvedMap) :
    Nat → Literal → Except ResolutionError Resolved
  | 0 => Literal.resolveWith fun _ name => .error (.cyclicDefault name)
  | steps + 1 =>
    Literal.resolveWith (document.usageRule supplied (document.resolveWithin supplied steps))

/-- Resolve a value of the document. Going on to defaults never comes back to the same usage without
going on for ever, so there are no more steps than parts. -/
def resolve (document : Document) (supplied : ResolvedMap) (literal : Literal) :
    Except ResolutionError Resolved :=
  document.resolveWithin supplied (document.size + 1) literal

end Document

end GraphQL
