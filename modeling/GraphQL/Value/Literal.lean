import GraphQL.Document.Query

/-!
Values as trees of their own, and when two of them are equal. The order of fields does not matter to
equality.
-/
namespace GraphQL

/-- A value with all that is in it. A usage of a variable keeps its part, which says in what scope
it stands. -/
inductive Literal where
  | scalar (kind : ScalarKind) (text : String)
  | enumeration (name : String)
  | null
  | list (items : List Literal)
  /-- The first field of each name, in order. -/
  | object (fields : List (String × Literal))
  | variableUsage (part : PartId) (name : String)
deriving Repr, Inhabited

/-- The value that the part `id` is. What is in a value has greater numbers. -/
def Document.literalAt (document : Document) (id : PartId) : Option Literal :=
  match document.supplied? id with
  | none => none
  | some (.scalar kind text) => some (.scalar kind text)
  | some (.enumeration name) => some (.enumeration name)
  | some .null => some .null
  | some .list =>
    some (.list ((document.listItems id).filterMap fun item =>
      if id < item ∧ id < document.size then literalAt document item else none))
  | some (.complex _) =>
    some (.object ((document.fieldValues id).filterMap fun field =>
      if id < field.2 ∧ id < document.size then
        (literalAt document field.2).map fun value => (field.1, value)
      else none))
  | some (.variableUsage name) => some (.variableUsage id name)
termination_by document.size - id
decreasing_by all_goals simp only [PartId] at *; omega

/-- The value at or directly under `id`. -/
def Document.literal? (document : Document) (id : PartId) : Option Literal :=
  (document.value? id).bind document.literalAt

namespace Literal

mutual

/-- Whether `a` equals `b`, except that an object equals one with more fields. -/
def isEqualTo (a b : Literal) : Bool :=
  match a with
  | .scalar kind text => match b with
    | .scalar otherKind otherText => kind == otherKind && text == otherText
    | _ => false
  | .enumeration name => match b with
    | .enumeration otherName => name == otherName
    | _ => false
  | .null => match b with
    | .null => true
    | _ => false
  | .list items => match b with
    | .list otherItems => areEqualTo items otherItems
    | _ => false
  | .object fields => match b with
    | .object otherFields => areWithin fields otherFields
    | _ => false
  | .variableUsage _ name => match b with
    | .variableUsage _ otherName => name == otherName
    | _ => false

/-- Whether two lists are equal item by item. -/
def areEqualTo (items others : List Literal) : Bool :=
  match items with
  | [] => others.isEmpty
  | item :: rest => match others with
    | [] => false
    | other :: more => item.isEqualTo other && areEqualTo rest more

/-- Whether each field is equal to the one of its name among `others`. -/
def areWithin (fields others : List (String × Literal)) : Bool :=
  match fields with
  | [] => true
  | (name, value) :: rest =>
    ((others.lookup name).any fun other => value.isEqualTo other) && areWithin rest others

end

/-- Whether each of two values is equal to the other. -/
def isStructurallyEqual (a b : Literal) : Bool := a.isEqualTo b && b.isEqualTo a

end Literal

end GraphQL
