import GraphQL.Source.Position

/-!
Nodes of a syntax tree. A node keeps no text of its own: it has the byte ranges of its names in the
source.
-/
namespace GraphQL

/-- The phrase of the grammar that a node stands for. -/
inductive NodeType where
  | document | operation | variableCollection | variable | directive
  | fieldCollection | field | fragmentSpread | inlineFragment | namedFragment
  | inputItemCollection | inputItem
  | scalarValue | listValue | complexValue | enumValue | nullValue | variableValue
  /-- The root of every tree. -/
  | empty
deriving DecidableEq, Repr, Inhabited

namespace NodeType

def name : NodeType → String
  | .document => "Document"
  | .operation => "Operation"
  | .variableCollection => "VariableCollection"
  | .variable => "Variable"
  | .directive => "Directive"
  | .fieldCollection => "FieldCollection"
  | .field => "Field"
  | .fragmentSpread => "FragmentSpread"
  | .inlineFragment => "InlineFragment"
  | .namedFragment => "NamedFragment"
  | .inputItemCollection => "InputItemCollection"
  | .inputItem => "InputItem"
  | .scalarValue => "ScalarValue"
  | .listValue => "ListValue"
  | .complexValue => "ComplexValue"
  | .enumValue => "EnumValue"
  | .nullValue => "NullValue"
  | .variableValue => "VariableValue"
  | .empty => "Empty"

/-- Whether a node of this type is a value. -/
def isValue : NodeType → Bool
  | .scalarValue | .listValue | .complexValue | .enumValue | .nullValue | .variableValue => true
  | _ => false

end NodeType

/-- How the text of a scalar is read. -/
inductive ScalarKind where
  | boolean
  | number
  | string
deriving DecidableEq, Repr, Inhabited

/-- What a node says of itself. The primary text is its name, keyword or literal. The secondary text
is the name of an operation, the type of a variable, the alias of a field or the type condition of
a named fragment. -/
structure Label where
  type : NodeType
  primary : Option ByteRange := none
  secondary : Option ByteRange := none
  /-- Set on scalars only. -/
  scalarKind : Option ScalarKind := none
  /-- Where the first token of the phrase starts. -/
  location : Position
deriving DecidableEq, Repr, Inhabited

/-- A phrase and the phrases in it. -/
inductive Outline where
  | node (label : Label) (children : List Outline)
  /-- The place of a node that a tree refers to but no longer holds. No phrase that was read from
  tokens has one. -/
  | missing (index : Nat)
deriving Repr, Inhabited

namespace Outline

/-- A phrase with nothing in it yet. -/
def leaf (type : NodeType) (location : Position) : Outline := .node { type, location } []

/-- Change what a phrase says of itself. -/
def relabel (change : Label → Label) : Outline → Outline
  | .node label children => .node (change label) children
  | .missing index => .missing index

def setPrimary (range : ByteRange) : Outline → Outline :=
  relabel fun label => { label with primary := some range }

def setSecondary (range : ByteRange) : Outline → Outline :=
  relabel fun label => { label with secondary := some range }

def setScalar (range : ByteRange) (kind : ScalarKind) : Outline → Outline :=
  relabel fun label => { label with primary := some range, scalarKind := some kind }

/-- Put a phrase after those already in another. -/
def addChild (child : Outline) : Outline → Outline
  | .node label children => .node label (children ++ [child])
  | .missing index => .missing index

end Outline

end GraphQL
