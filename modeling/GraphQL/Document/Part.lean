import GraphQL.Syntax.Node
import GraphQL.TypeExpr

/-!
Parts of a document. A part is named by its number in the order in which parts are added; the root
has number 0. The phrases inside a part are its children, so its own data are only what they do not
say.
-/
namespace GraphQL

/-- The number of a part. It stands for a word of 32 bits and is a plain number, which is the same
below 2 ^ 32 parts: Proofs.Document.Sizes bounds those of a text. -/
abbrev PartId := Nat

inductive OperationType where
  | mutation
  | query
  | subscription
deriving DecidableEq, Repr, Inhabited

namespace OperationType

/-- The operation that a keyword begins. -/
def ofKeyword? (keyword : String) : Option OperationType :=
  if keyword = "mutation" then some .mutation
  else if keyword = "query" then some .query
  else if keyword = "subscription" then some .subscription
  else none

def keyword : OperationType → String
  | .mutation => "mutation"
  | .query => "query"
  | .subscription => "subscription"

end OperationType

inductive PartType where
  | document | operation | variable | directive
  | field | fragmentSpread | inlineFragment | namedFragment
  | argument | inputObjectField
  | scalarValue | enumValue | nullValue | listValue | complexValue | variableUsage
deriving DecidableEq, Repr, Inhabited

namespace PartType

def name : PartType → String
  | .document => "Document"
  | .operation => "Operation"
  | .variable => "Variable"
  | .directive => "Directive"
  | .field => "Field"
  | .fragmentSpread => "FragmentSpread"
  | .inlineFragment => "InlineFragment"
  | .namedFragment => "NamedFragment"
  | .argument => "Argument"
  | .inputObjectField => "InputObjectField"
  | .scalarValue => "ScalarValue"
  | .enumValue => "EnumValue"
  | .nullValue => "NullValue"
  | .listValue => "ListValue"
  | .complexValue => "ComplexValue"
  | .variableUsage => "VariableUsage"

def isSuppliedValue : PartType → Bool
  | .scalarValue | .enumValue | .nullValue | .listValue | .complexValue | .variableUsage => true
  | _ => false

/-- Whether a part of this type stands in a selection set. -/
def isSelection : PartType → Bool
  | .field | .fragmentSpread | .inlineFragment => true
  | _ => false

/-- Whether variables are looked up among the children of a part of this type. -/
def isVariableScope : PartType → Bool
  | .operation | .namedFragment => true
  | _ => false

end PartType

/-- A value as it was written. -/
inductive SuppliedValue where
  /-- A literal, whose text has its quotes and escapes if it is a string. -/
  | scalar (kind : ScalarKind) (text : String)
  | enumeration (name : String)
  | null
  /-- The items are the children. -/
  | list
  /-- The field that each name stands for. A name that is repeated stands for its first field. -/
  | complex (fields : List (String × PartId))
  | variableUsage (name : String)
deriving DecidableEq, Repr, Inhabited

namespace SuppliedValue

def type : SuppliedValue → PartType
  | .scalar _ _ => .scalarValue
  | .enumeration _ => .enumValue
  | .null => .nullValue
  | .list => .listValue
  | .complex _ => .complexValue
  | .variableUsage _ => .variableUsage

/-- The text of a scalar or the name of an enumeration value. -/
def text? : SuppliedValue → Option String
  | .scalar _ text => some text
  | .enumeration name => some name
  | _ => none

def scalarKind? : SuppliedValue → Option ScalarKind
  | .scalar kind _ => some kind
  | _ => none

def variableName? : SuppliedValue → Option String
  | .variableUsage name => some name
  | _ => none

/-- The field map of a complex value, and no entries for other values. -/
def fields : SuppliedValue → List (String × PartId)
  | .complex fields => fields
  | _ => []

/-- Enter a field of a complex value, unless one of the same name was entered before. -/
def enterField (name : String) (field : PartId) : SuppliedValue → SuppliedValue
  | .complex fields =>
    .complex (if (fields.lookup name).isSome then fields else fields ++ [(name, field)])
  | value => value

end SuppliedValue

/-- What a part is, apart from its children. -/
inductive PartData where
  | document
  | operation (type : OperationType) (name : Option String)
  | variable (name : String) (type : TypeExpr)
  | directive (name : String)
  | field (name : String) (aliasName : Option String)
  | fragmentSpread (fragment : String)
  | inlineFragment (condition : Option String)
  | namedFragment (name condition : String)
  | argument (name : String)
  | inputObjectField (name : String)
  | suppliedValue (value : SuppliedValue)
deriving DecidableEq, Repr, Inhabited

namespace PartData

def type : PartData → PartType
  | .document => .document
  | .operation _ _ => .operation
  | .variable _ _ => .variable
  | .directive _ => .directive
  | .field _ _ => .field
  | .fragmentSpread _ => .fragmentSpread
  | .inlineFragment _ => .inlineFragment
  | .namedFragment _ _ => .namedFragment
  | .argument _ => .argument
  | .inputObjectField _ => .inputObjectField
  | .suppliedValue value => value.type

/-- The name of a part. A fragment spread goes by the name of the fragment. -/
def name? : PartData → Option String
  | .operation _ name => name
  | .variable name _ | .directive name | .field name _ | .fragmentSpread name
  | .namedFragment name _ | .argument name | .inputObjectField name => some name
  | .document | .inlineFragment _ | .suppliedValue _ => none

def alias? : PartData → Option String
  | .field _ aliasName => aliasName
  | _ => none

/-- The key of a field in a response: its alias if it has one, else its name. -/
def responseName? : PartData → Option String
  | .field name aliasName => some (aliasName.getD name)
  | _ => none

def operationType? : PartData → Option OperationType
  | .operation type _ => some type
  | _ => none

def typeCondition? : PartData → Option String
  | .inlineFragment condition => condition
  | .namedFragment _ condition => some condition
  | _ => none

def typeExpr? : PartData → Option TypeExpr
  | .variable _ type => some type
  | _ => none

def suppliedValue? : PartData → Option SuppliedValue
  | .suppliedValue value => some value
  | _ => none

end PartData

/-- The children of a part in order, and the same by type, with the types in the order in which
they first appear. -/
structure Children where
  owner : PartId
  parts : List PartId := []
  byType : List (PartType × List PartId) := []
deriving DecidableEq, Repr, Inhabited

namespace Children

/-- Put `part` after the others that are listed under `type`. -/
def enter (type : PartType) (part : PartId) :
    List (PartType × List PartId) → List (PartType × List PartId)
  | [] => [(type, [part])]
  | (listed, parts) :: rest =>
    if listed = type then (listed, parts ++ [part]) :: rest
    else (listed, parts) :: enter type part rest

def add (children : Children) (type : PartType) (part : PartId) : Children :=
  { children with
    parts := children.parts ++ [part]
    byType := enter type part children.byType }

/-- The children of the given type, in order. -/
def ofType (children : Children) (type : PartType) : List PartId :=
  (children.byType.lookup type).getD []

def firstOfType? (children : Children) (type : PartType) : Option PartId :=
  (children.ofType type).head?

end Children

structure Part where
  /-- The part above this one. Only the root has none. -/
  parent : Option PartId
  children : Children
  /-- Where the first token of the part starts. -/
  location : Position
  data : PartData
deriving DecidableEq, Repr, Inhabited

def Part.type (part : Part) : PartType := part.data.type

end GraphQL
