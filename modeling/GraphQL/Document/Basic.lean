import GraphQL.Document.Part

/-!
Documents: the parts of a text in one array, with indexes of the operations and the named fragments.
A document grows by attaching parts, and a part that cannot be attached leaves it as it was.
-/
namespace GraphQL

/-- Why a document cannot be put together from a tree. The first two never come of a walk over a
tree, and the others only of trees that were not read from a text. -/
inductive AssemblyError where
  | parentMismatch (type : PartType) (declared owner : PartId)
  | unknownPart (part : PartId)
  /-- The tree refers to a node that it no longer holds. -/
  | missingNode (index : Nat)
  | unexpectedNode (type : NodeType) (context : String)
  | missingChild (type : NodeType) (expected : String)
  | missingText (type : NodeType) (which : String)
  | unknownOperation (keyword : String)
  | badType (text : String) (reason : TypeExpr.Fault)
deriving DecidableEq, Repr, Inhabited

/-- The number of a part as messages show it. -/
def showPart (part : PartId) : String := "#" ++ toString part

def AssemblyError.message : AssemblyError → String
  | .parentMismatch type declared owner =>
    type.name ++ " part declares parent " ++ showPart declared ++
      " but was added to the children of " ++ showPart owner
  | .unknownPart part => "no document part " ++ showPart part
  | .missingNode index => "no syntax node at " ++ toString index
  | .unexpectedNode type context => "unexpected " ++ type.name ++ " syntax node in " ++ context
  | .missingChild type expected =>
    type.name ++ " syntax node is missing its " ++ expected ++ " child"
  | .missingText type which => type.name ++ " syntax node is missing its " ++ which ++ " text"
  | .unknownOperation keyword => "`" ++ keyword ++ "` is not an operation type"
  | .badType text reason => "invalid variable type `" ++ text ++ "`: " ++ reason.message

structure Document where
  /-- All parts. The first is the root. -/
  parts : Array Part
  /-- The operations in order. -/
  operations : List PartId := []
  /-- The first fragment of each name, in order. -/
  namedFragments : List (String × PartId) := []
deriving DecidableEq, Repr, Inhabited

namespace Document

/-- A document with nothing but its root. -/
def empty (location : Position) : Document :=
  { parts := #[⟨none, { owner := 0 }, location, .document⟩] }

def size (document : Document) : Nat := document.parts.size

def part? (document : Document) (id : PartId) : Option Part := document.parts[id]?

/-- Enter a part among the operations or the named fragments if it is one. A fragment whose name was
entered before is left out. -/
def enter (document : Document) (id : PartId) (data : PartData) : Document :=
  match data with
  | .operation _ _ => { document with operations := document.operations ++ [id] }
  | .namedFragment name _ =>
    if (document.namedFragments.lookup name).isSome then document
    else { document with namedFragments := document.namedFragments ++ [(name, id)] }
  | _ => document

/-- Attach a part, declared to be a child of `declared`, after the other children of `owner`, and
answer with its number. -/
def attach (document : Document) (owner declared : PartId) (location : Position)
    (data : PartData) : Except AssemblyError (PartId × Document) :=
  if owner < document.size then
    if declared = owner then
      let id := document.size
      let listed := document.parts.modify owner fun part =>
        { part with children := part.children.add data.type id }
      let part : Part := ⟨some declared, { owner := id }, location, data⟩
      .ok (id, { document with parts := listed.push part }.enter id data)
    else .error (.parentMismatch data.type declared owner)
  else .error (.unknownPart owner)

/-- Enter `field` under `name` in the field map of `complex`, unless the name was entered before.
Parts that are no complex values have no field map. -/
def registerField (document : Document) (complex : PartId) (name : String) (field : PartId) :
    Except AssemblyError Document :=
  if complex < document.size then
    .ok { document with parts := document.parts.modify complex fun part =>
      match part.data with
      | .suppliedValue value => { part with data := .suppliedValue (value.enterField name field) }
      | _ => part }
  else .error (.unknownPart complex)

/-- The part above `id`. -/
def parent? (document : Document) (id : PartId) : Option PartId :=
  (document.part? id).bind Part.parent

/-- The parts above `id`, the nearest first. A part is above those with greater numbers only. -/
def ancestors (document : Document) (id : PartId) : List PartId :=
  match document.parent? id with
  | none => []
  | some parent => parent :: if parent < id then ancestors document parent else []

/-- The distance of `id` from the root. -/
def depth (document : Document) (id : PartId) : Nat := (document.ancestors id).length

end Document

end GraphQL
