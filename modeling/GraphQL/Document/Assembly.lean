import GraphQL.Document.Basic
import GraphQL.Grammar.Production

/-!
The assembly of a document from a syntax tree. One walk goes over the phrases of the tree in order.
What may stand where is said by tables: each phrase is met in a context, and is either a part of the
document or a group whose contents belong to the part around it.
-/
namespace GraphQL

/-- Told when a part is added. -/
structure PartAdded where
  part : PartId
  parent : PartId
  type : PartType
  /-- The distance from the root, which is 1 for operations and named fragments. -/
  depth : Nat
deriving DecidableEq, Repr, Inhabited

/-- How far `depth` lies below `ancestor`, if it does. -/
def depthBelow? (depth ancestor : Nat) : Option Nat :=
  if ancestor < depth then some (depth - ancestor) else none

/-- Where a phrase is met. -/
inductive Context where
  | document | operation | variables | variable | directive | arguments
  | selections | field | fragmentSpread | inlineFragment | namedFragment
  | value | complexValue
deriving DecidableEq, Repr, Inhabited

namespace Context

def describe : Context → String
  | .document => "a document"
  | .operation => "an operation"
  | .variables => "a variable collection"
  | .variable => "a variable definition"
  | .directive => "a directive"
  | .arguments => "an argument list"
  | .selections => "a selection set"
  | .field => "a field"
  | .fragmentSpread => "a fragment spread"
  | .inlineFragment => "an inline fragment"
  | .namedFragment => "a named fragment"
  | .value => "a value position"
  | .complexValue => "a complex value"

/-- The context inside a phrase that only groups others, where such a group may stand. -/
def group? : Context → NodeType → Option Context
  | .operation, .variableCollection => some .variables
  | .operation, .fieldCollection | .field, .fieldCollection
  | .inlineFragment, .fieldCollection | .namedFragment, .fieldCollection => some .selections
  | .directive, .inputItemCollection | .field, .inputItemCollection => some .arguments
  | _, _ => none

/-- Whether a phrase of the given type may stand here as a part. -/
def admits : Context → NodeType → Bool
  | .document, type => type == .operation || type == .namedFragment
  | .operation, type | .field, type | .fragmentSpread, type | .inlineFragment, type
  | .namedFragment, type => type == .directive
  | .variables, type => type == .variable
  | .variable, type => type == .directive || type.isValue
  | .directive, _ => false
  | .arguments, type | .complexValue, type => type == .inputItem
  | .selections, type => type == .field || type == .fragmentSpread || type == .inlineFragment
  | .value, type => type.isValue

end Context

/-- What of a part's phrase is walked over next. -/
inductive Inside where
  | all (context : Context)
  /-- The first phrase alone, which must be a value. -/
  | firstValue
  | nothing
deriving DecidableEq, Repr, Inhabited

/-- What is walked over inside a part of the given type. -/
def NodeType.inside : NodeType → Inside
  | .operation => .all .operation
  | .variable => .all .variable
  | .directive => .all .directive
  | .field => .all .field
  | .fragmentSpread => .all .fragmentSpread
  | .inlineFragment => .all .inlineFragment
  | .namedFragment => .all .namedFragment
  | .listValue => .all .value
  | .complexValue => .all .complexValue
  | .inputItem => .firstValue
  | _ => .nothing

namespace Label

/-- The primary text of a phrase in `source`. -/
def primaryText (label : Label) (source : Source) : Except AssemblyError String :=
  match label.primary with
  | some range => .ok (source.slice range)
  | none => .error (.missingText label.type "primary")

/-- The secondary text of a phrase in `source`. -/
def secondaryText (label : Label) (source : Source) : Except AssemblyError String :=
  match label.secondary with
  | some range => .ok (source.slice range)
  | none => .error (.missingText label.type "secondary")

/-- The operation that a phrase is. One without a keyword is a query. -/
def operationType (label : Label) (source : Source) : Except AssemblyError OperationType :=
  match label.primary.map source.slice with
  | none => .ok .query
  | some keyword =>
    match OperationType.ofKeyword? keyword with
    | some type => .ok type
    | none => .error (.unknownOperation keyword)

/-- The type that a variable is declared with. -/
def declaredType (label : Label) (source : Source) : Except AssemblyError TypeExpr := do
  let text ← label.secondaryText source
  match TypeExpr.read text with
  | .ok type => return type
  | .error reason => throw (.badType text reason)

/-- The part that a phrase is in a context. -/
def partData (label : Label) (source : Source) (context : Context) :
    Except AssemblyError PartData := do
  if !context.admits label.type then throw (.unexpectedNode label.type context.describe)
  match label.type with
  | .operation =>
    return .operation (← label.operationType source) (label.secondary.map source.slice)
  | .variable => return .variable (← label.primaryText source) (← label.declaredType source)
  | .directive => return .directive (← label.primaryText source)
  | .field => return .field (← label.primaryText source) (label.secondary.map source.slice)
  | .fragmentSpread => return .fragmentSpread (← label.primaryText source)
  | .inlineFragment => return .inlineFragment (label.primary.map source.slice)
  | .namedFragment =>
    return .namedFragment (← label.primaryText source) (← label.secondaryText source)
  | .inputItem =>
    let name ← label.primaryText source
    return if context = .complexValue then .inputObjectField name else .argument name
  | .scalarValue =>
    match label.scalarKind with
    | some kind => return .suppliedValue (.scalar kind (← label.primaryText source))
    | none => throw (.missingText .scalarValue "value kind")
  | .enumValue => return .suppliedValue (.enumeration (← label.primaryText source))
  | .nullValue => return .suppliedValue .null
  | .listValue => return .suppliedValue .list
  | .complexValue => return .suppliedValue (.complex [])
  | .variableValue => return .suppliedValue (.variableUsage (← label.primaryText source))
  | type => throw (.unexpectedNode type context.describe)

end Label

/-- A document under assembly, and what was told of it. -/
structure Progress where
  document : Document
  events : List PartAdded := []
deriving Repr, Inhabited

/-- A step of an assembly. A step that fails keeps the progress made. -/
abbrev Assembly := EStateM AssemblyError Progress

namespace Assembly

/-- A step that succeeds as the given computation does. -/
def lift {α : Type} : Except AssemblyError α → Assembly α
  | .ok a => pure a
  | .error error => throw error

/-- Add a part under `parent` and tell of it. -/
def addPart (parent : PartId) (location : Position) (data : PartData) : Assembly PartId := do
  let progress ← get
  let (id, document) ← lift (progress.document.attach parent parent location data)
  let event : PartAdded := ⟨id, parent, data.type, document.depth id⟩
  set { progress with document, events := progress.events ++ [event] }
  return id

/-- Enter a field of a complex value in its field map. -/
def enterField (complex : PartId) (data : PartData) (field : PartId) : Assembly Unit := do
  match data with
  | .inputObjectField name =>
    let progress ← get
    set { progress with document := ← lift (progress.document.registerField complex name field) }
  | _ => pure ()

variable (source : Source)

mutual

/-- Walk over a phrase that is met in a context inside the part `parent`. -/
def walk (context : Context) (parent : PartId) : Outline → Assembly Unit
  | .missing index => throw (.missingNode index)
  | .node label children =>
    match context.group? label.type with
    | some inside => walkAll inside parent children
    | none => do
      let data ← lift (label.partData source context)
      let part ← addPart parent label.location data
      enterField parent data part
      match label.type.inside with
      | .all inside => walkAll inside part children
      | .firstValue => walkFirst label.type part children
      | .nothing => pure ()

/-- Walk over several phrases in order. -/
def walkAll (context : Context) (parent : PartId) : List Outline → Assembly Unit
  | [] => pure ()
  | phrase :: rest => do
    walk context parent phrase
    walkAll context parent rest

/-- Walk over the first phrase of several as a value. -/
def walkFirst (type : NodeType) (parent : PartId) : List Outline → Assembly Unit
  | [] => throw (.missingChild type "value")
  | phrase :: _ => walk .value parent phrase

end

/-- The document under assembly from the phrase of a whole text. -/
def run (phrase : Outline) : EStateM.Result AssemblyError Progress Unit :=
  match phrase with
  | .node label children => walkAll source .document 0 children ⟨.empty label.location, []⟩
  | .missing index => .error (.missingNode index) ⟨.empty {}, []⟩

end Assembly

/-- A finished document with what was told of it, or why there is none and what was told before. -/
inductive Assembled where
  | complete (document : Document) (events : List PartAdded)
  | failed (error : AssemblyError) (events : List PartAdded)
deriving Repr, Inhabited

namespace SyntaxTree

/-- Assemble the document in a tree, with texts from `source`. -/
def assemble (tree : SyntaxTree) (source : Source) : Except StaleNode Assembled := do
  match ← tree.document? with
  | none => return .failed (.missingChild .empty "Document") []
  | some id =>
    match Assembly.run source (tree.outline id.index) with
    | .ok _ progress => return .complete progress.document progress.events
    | .error (.missingNode index) _ => throw (tree.stale (tree.idAt index))
    | .error error progress => return .failed error progress.events

end SyntaxTree

/-- Why a text gives no document. -/
inductive DocumentError where
  /-- The text is at fault. -/
  | malformed (error : SyntaxError)
  /-- The library is at fault. -/
  | assembly (error : AssemblyError)
deriving DecidableEq, Repr, Inhabited

namespace DocumentError

def message : DocumentError → String
  | .malformed error => error.oneline
  | .assembly error => "internal error while assembling the document: " ++ error.message

/-- Whether the text is at fault. -/
def isUserError : DocumentError → Bool
  | .malformed _ => true
  | .assembly _ => false

end DocumentError

/-- The document that a text is, and what was told of its assembly. -/
def Source.document (source : Source) : Except DocumentError (Document × List PartAdded) :=
  match source.outline with
  | .error error => .error (.malformed error)
  | .ok phrase =>
    match Assembly.run source phrase with
    | .ok _ progress => .ok (progress.document, progress.events)
    | .error error _ => .error (.assembly error)

end GraphQL
