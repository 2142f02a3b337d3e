import GraphQL.Document.Basic

/-!
Questions about a document. They are total: of a number that names no part they say nothing, and
`Document.asking` tells such numbers apart.
-/
namespace GraphQL

/-- A number that names no part of a document with `count` parts. -/
structure ForeignPart where
  id : PartId
  count : Nat
deriving DecidableEq, Repr, Inhabited

def ForeignPart.message (foreign : ForeignPart) : String :=
  "document part " ++ showPart foreign.id ++ " does not belong to this document (" ++
    toString foreign.count ++ " parts)"

/-- Why a usage of a variable has no single declaration. -/
inductive VariableError where
  | notAUsage (part : PartId) (type : PartType)
  | noScope (name : String)
  | undeclared (name : String) (scope : PartId) (type : PartType)
  | ambiguous (name : String) (declarations : Nat)
deriving DecidableEq, Repr, Inhabited

def VariableError.message : VariableError → String
  | .notAUsage part type =>
    "part " ++ showPart part ++ " is a " ++ type.name ++ ", not a variable usage"
  | .noScope name => "`$" ++ name ++ "` is not inside an operation or named fragment"
  | .undeclared name scope type =>
    "`$" ++ name ++ "` is not declared by the enclosing " ++ type.name ++ " (" ++
      showPart scope ++ ")"
  | .ambiguous name declarations =>
    "`$" ++ name ++ "` is declared " ++ toString declarations ++
      " times by the enclosing operation"

namespace Document

/-- The part named `id`. -/
def part (document : Document) (id : PartId) : Except ForeignPart Part :=
  match document.part? id with
  | some part => .ok part
  | none => .error ⟨id, document.size⟩

/-- An answer about `id`, which must name a part. -/
def asking {α : Type} (document : Document) (id : PartId) (answer : α) :
    Except ForeignPart α := do
  let _ ← document.part id
  return answer

def name? (document : Document) (id : PartId) : Option String :=
  (document.part? id).bind fun part => part.data.name?

def type? (document : Document) (id : PartId) : Option PartType :=
  (document.part? id).map Part.type

/-- Whether `id` names a part of a type that satisfies `p`. -/
def hasType (document : Document) (p : PartType → Bool) (id : PartId) : Bool :=
  (document.type? id).any p

/-- The first operation called `name`. -/
def operationNamed? (document : Document) (name : String) : Option PartId :=
  document.operations.find? fun id => document.name? id == some name

/-- The first fragment called `name`. -/
def namedFragment? (document : Document) (name : String) : Option PartId :=
  document.namedFragments.lookup name

def children (document : Document) (id : PartId) : Children :=
  match document.part? id with
  | some part => part.children
  | none => { owner := id }

def declaredVariables (document : Document) (id : PartId) : List PartId :=
  (document.children id).ofType .variable

def directives (document : Document) (id : PartId) : List PartId :=
  (document.children id).ofType .directive

def arguments (document : Document) (id : PartId) : List PartId :=
  (document.children id).ofType .argument

def fields (document : Document) (id : PartId) : List PartId :=
  (document.children id).ofType .field

/-- The fields, spreads and inline fragments directly under `id`, in order. -/
def selections (document : Document) (id : PartId) : List PartId :=
  (document.children id).parts.filter (document.hasType PartType.isSelection)

/-- The first argument of `id` called `name`. -/
def argument? (document : Document) (id : PartId) (name : String) : Option PartId :=
  (document.arguments id).find? fun argument => document.name? argument == some name

/-- What was supplied at a part that is a value. -/
def supplied? (document : Document) (id : PartId) : Option SuppliedValue :=
  (document.part? id).bind fun part => part.data.suppliedValue?

/-- Whether a part of this type has a value as its child. -/
def holdsValue : PartType → Bool
  | .argument | .inputObjectField | .variable => true
  | _ => false

/-- The value at or directly under `id`: the part itself if it is a value, and the value of an
argument or a field of an object, or the default of a variable. -/
def value? (document : Document) (id : PartId) : Option PartId :=
  if document.hasType PartType.isSuppliedValue id then some id
  else if document.hasType holdsValue id then
    (document.children id).parts.find? (document.hasType PartType.isSuppliedValue)
  else none

/-- The items of a list value, and none for other parts. -/
def listItems (document : Document) (id : PartId) : List PartId :=
  match document.supplied? id with
  | some .list => (document.children id).parts.filterMap document.value?
  | _ => []

/-- The fields of a complex value with their values, and none for other parts. -/
def fieldValues (document : Document) (id : PartId) : List (String × PartId) :=
  match document.supplied? id with
  | some (.complex fields) =>
    fields.filterMap fun (name, field) => (document.value? field).map fun value => (name, value)
  | _ => []

/-- The value of the field called `name` of a complex value. -/
def fieldValue? (document : Document) (id : PartId) (name : String) : Option PartId := do
  document.value? (← (← document.supplied? id).fields.lookup name)

/-- The places below `id` of `ancestor`, if that is above `id`. -/
def relativeDepth? (document : Document) (ancestor id : PartId) : Option Nat :=
  ((document.ancestors id).findIdx? (· == ancestor)).map (· + 1)

/-- The nearest operation or named fragment above `id`. -/
def enclosingScope? (document : Document) (id : PartId) : Option PartId :=
  (document.ancestors id).find? (document.hasType PartType.isVariableScope)

/-- `id` and all below it, each before those below it. A part is above those with greater numbers
only. -/
def descendants (document : Document) (id : PartId) : List PartId :=
  id :: (document.children id).parts.flatMap fun child =>
    if id < child ∧ id < document.size then descendants document child else []
termination_by document.size - id
decreasing_by simp only [PartId] at *; omega

/-- The usages of variables at or below `id`, in order. -/
def variableUsages (document : Document) (id : PartId) : List PartId :=
  (document.descendants id).filter (document.hasType (· == .variableUsage))

/-- The variables of `scope` called `name`. -/
def declarations (document : Document) (scope : PartId) (name : String) : List PartId :=
  (document.declaredVariables scope).filter fun declared => document.name? declared == some name

/-- The one declaration that a usage of a variable refers to, in the nearest scope around it. -/
def declaration (document : Document) (usage : PartId) : Except VariableError PartId :=
  match document.supplied? usage with
  | some (.variableUsage name) =>
    match document.enclosingScope? usage with
    | none => .error (.noScope name)
    | some scope =>
      match document.declarations scope name with
      | [] => .error (.undeclared name scope ((document.type? scope).getD .document))
      | [declared] => .ok declared
      | several => .error (.ambiguous name several.length)
  | _ => .error (.notAUsage usage ((document.type? usage).getD .document))

end Document

end GraphQL
