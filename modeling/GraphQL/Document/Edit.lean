import GraphQL.Document.Basic

/-!
Documents changed in place, one store after another. What was stored before a failure stays stored.
-/
namespace GraphQL

/-- A change of a document in place. -/
abbrev Editing := EStateM AssemblyError Document

/-- The children of a part with one more of them, which must be declared to be a child of it. -/
def Children.accept (children : Children) (part declared : PartId) (type : PartType) :
    Except AssemblyError Children :=
  if declared = children.owner then .ok (children.add type part)
  else .error (.parentMismatch type declared children.owner)

namespace Editing

/-- Store a list of children in a part. -/
def storeChildren (owner : PartId) (children : Children) : Editing Unit :=
  modify fun document =>
    { document with parts := document.parts.modify owner fun part => { part with children } }

/-- Store a new part after all others. -/
def storePart (part : Part) : Editing Unit :=
  modify fun document => { document with parts := document.parts.push part }

/-- Attach a part in place. Its number is listed before the part is there, and indexed after. -/
def attach (owner declared : PartId) (location : Position) (data : PartData) :
    Editing PartId := do
  let document ← get
  let id := document.size
  match document.part? owner with
  | none => throw (.unknownPart owner)
  | some part =>
    match part.children.accept id declared data.type with
    | .error error => throw error
    | .ok children => do
      storeChildren owner children
      storePart ⟨some declared, { owner := id }, location, data⟩
      modify fun document => document.enter id data
      return id

/-- Enter a field in the field map of a complex value in place. -/
def registerField (complex : PartId) (name : String) (field : PartId) : Editing Unit := do
  let document ← get
  match document.part? complex with
  | none => throw (.unknownPart complex)
  | some part =>
    match part.data with
    | .suppliedValue value =>
      set { document with parts := document.parts.modify complex fun part =>
        { part with data := .suppliedValue (value.enterField name field) } }
    | _ => pure ()

end Editing

/-- A call that changes a document. -/
inductive Edit where
  | attach (owner declared : PartId) (location : Position) (data : PartData)
  | registerField (complex : PartId) (name : String) (field : PartId)
deriving DecidableEq, Repr, Inhabited

namespace Edit

def perform : Edit → Editing Unit
  | attach owner declared location data => do
    let _ ← Editing.attach owner declared location data
  | registerField complex name field => Editing.registerField complex name field

/-- What a call makes of a document, whether it succeeds or fails. -/
def leaves (edit : Edit) (document : Document) : Document :=
  match edit.perform document with
  | .ok _ after | .error _ after => after

end Edit

/-- What is left of a document after several calls, of which some may fail. -/
def Document.edited (document : Document) (edits : List Edit) : Document :=
  edits.foldl (fun document edit => edit.leaves document) document

end GraphQL
