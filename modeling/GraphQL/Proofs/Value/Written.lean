import GraphQL.Proofs.Document.Shape
import GraphQL.Proofs.Lookup
import GraphQL.Value.Literal

/-! The values that texts have written in them, each with the document that it is part of. What is
in such a value is values again, so facts about them are proved by induction on what is in them. -/
namespace GraphQL

/-- Every value of a sound document can be read as a literal. -/
theorem Document.literalAt_isSome {document : Document} {id : PartId}
    (h : (document.supplied? id).isSome = true) : (document.literalAt id).isSome = true := by
  obtain ⟨value, hValue⟩ := Option.isSome_iff_exists.1 h
  rw [literalAt, hValue]
  cases value <;> rfl

/-- A value in a document that was read from a text. -/
structure WrittenValue where
  document : Document
  isRead : document.IsRead
  part : PartId
  isValue : (document.supplied? part).isSome = true

namespace WrittenValue

/-- What was supplied at the value itself. -/
def supplied (value : WrittenValue) : SuppliedValue :=
  (value.document.supplied? value.part).get value.isValue

/-- The value with all that is in it. -/
def literal (value : WrittenValue) : Literal :=
  (value.document.literalAt value.part).get (Document.literalAt_isSome value.isValue)

/-- The operation or the named fragment around the value. -/
def scope? (value : WrittenValue) : Option PartId :=
  value.document.enclosingScope? value.part

/-- The value at or directly under another part of the document. -/
def at? (value : WrittenValue) (id : PartId) : Option WrittenValue :=
  (value.document.value? id).pmap
    (fun part hPart => ⟨value.document, value.isRead, part, hPart⟩)
    fun _ hPart => Document.isSome_of_value? hPart

/-- The values directly under the value, which are the items if it is a list. -/
def items (value : WrittenValue) : List WrittenValue :=
  (value.document.children value.part).parts.filterMap value.at?

/-- The fields that an object is written with, in order, those of repeated names included. -/
def fields (value : WrittenValue) : List (String × WrittenValue) :=
  (value.document.namedChildren value.part).filterMap fun entry =>
    (value.at? entry.2).map fun field => (entry.1, field)

/-- The fields of an object that its names stand for. -/
def entries (value : WrittenValue) : List (String × WrittenValue) :=
  value.supplied.fields.filterMap fun entry =>
    (value.at? entry.2).map fun field => (entry.1, field)

variable {value inner outer : WrittenValue}

/-- A written value is the value that its part holds. -/
theorem supplied_eq (value : WrittenValue) :
    value.document.supplied? value.part = some value.supplied :=
  (Option.some_get value.isValue).symm

theorem literalAt_eq (value : WrittenValue) :
    value.document.literalAt value.part = some value.literal :=
  (Option.some_get (Document.literalAt_isSome value.isValue)).symm

/-- What a document gives for a part as its value is a written value. -/
theorem exists_of_value? {document : Document} (hRead : document.IsRead) {id part : PartId}
    (h : document.value? id = some part) : ∃ value : WrittenValue,
      value.document = document ∧ value.part = part ∧
        document.literal? id = some value.literal := by
  let value : WrittenValue := ⟨document, hRead, part, Document.isSome_of_value? h⟩
  refine ⟨value, rfl, rfl, ?_⟩
  rw [Document.literal?, h]
  exact value.literalAt_eq

/-- What holds of a value that stands in another. -/
structure Below (inner outer : WrittenValue) : Prop where
  document : inner.document = outer.document
  after : outer.part < inner.part
  inside : inner.part ∈ outer.document.descendants outer.part
  scope : inner.scope? = outer.scope?

theorem part_lt (value : WrittenValue) : value.part < value.document.size := by
  obtain ⟨part, hPart, -⟩ := Document.supplied?_eq_some value.supplied_eq
  exact (Array.getElem?_eq_some_iff.1 hPart).1

/-- What lies inside a value comes after it, so that recursion into it ends. -/
theorem Below.measure_lt (h : inner.Below outer) :
    inner.document.size - inner.part < outer.document.size - outer.part := by
  have hLt := outer.part_lt
  have hAfter := h.after
  rw [h.document]
  simp only [PartId] at *
  omega

/-- What is true of a value when it is true of all in it is true of all values. -/
@[elab_as_elim]
theorem inductionBelow {motive : WrittenValue → Prop}
    (step : ∀ value : WrittenValue, (∀ inner : WrittenValue, inner.Below value → motive inner) →
      motive value)
    (value : WrittenValue) : motive value :=
  step value fun inner _ => inductionBelow step inner
termination_by value.document.size - value.part
decreasing_by
  apply Below.measure_lt
  assumption

/-- A value is no scope of variables. -/
theorem not_scope (value : WrittenValue) :
    value.document.hasType PartType.isVariableScope value.part = false := by
  obtain ⟨part, hPart, hData⟩ := Document.supplied?_eq_some value.supplied_eq
  rw [Document.hasType, Document.type?, hPart, Option.map_some, Part.type, hData]
  cases value.supplied <;> rfl

/-- A value at or directly under a part is the part that the document gives for it. -/
theorem map_part_at? (value : WrittenValue) (id : PartId) :
    (value.at? id).map part = value.document.value? id := by
  rw [at?, Option.map_pmap]
  simp

/-- A value at a child lies inside. -/
theorem below_of_at? {child : PartId}
    (hChild : child ∈ (value.document.children value.part).parts)
    (h : value.at? child = some inner) : inner.Below value := by
  obtain ⟨part, hPart, hValue, rfl⟩ := Option.pmap_eq_some_iff.1 h
  obtain ⟨hLt, -, -⟩ := value.isRead.of_mem_children hChild
  obtain ⟨hLe, hScope⟩ := value.isRead.of_value? hValue
  have hInside := value.isRead.mem_descendants_trans (value.isRead.mem_descendants_child hChild)
    (value.isRead.mem_descendants_of_value? hValue)
  exact ⟨rfl, Nat.lt_of_lt_of_le hLt hLe, hInside,
    hScope.trans (value.isRead.enclosingScope?_of_child value.not_scope hChild)⟩

theorem below_of_mem_items (h : inner ∈ value.items) : inner.Below value := by
  obtain ⟨child, hChild, hAt⟩ := List.mem_filterMap.1 h
  exact below_of_at? hChild hAt

/-- The fields of an object are children of its part. -/
theorem mem_children_of_namedChildren {document : Document} {id : PartId}
    {entry : String × PartId} (h : entry ∈ document.namedChildren id) :
    entry.2 ∈ (document.children id).parts := by
  obtain ⟨child, hChild, hNamed⟩ := List.mem_filterMap.1 h
  obtain ⟨name, -, rfl⟩ := Option.map_eq_some_iff.1 hNamed
  exact hChild

theorem below_of_mem_fields {name : String} (h : (name, inner) ∈ value.fields) :
    inner.Below value := by
  obtain ⟨entry, hEntry, hAt⟩ := List.mem_filterMap.1 h
  obtain ⟨field, hField, hSame⟩ := Option.map_eq_some_iff.1 hAt
  cases hSame
  exact below_of_at? (mem_children_of_namedChildren hEntry) hField

/-- What is taken up into the tree of a value from a child is the value that stands there. -/
theorem literalAt_child {child : PartId}
    (hChild : child ∈ (value.document.children value.part).parts) :
    ((value.document.value? child).bind fun part =>
      if value.part < part ∧ value.part < value.document.size then
        value.document.literalAt part else none) = (value.at? child).map literal := by
  cases hValue : value.document.value? child with
  | none =>
      have hAt : value.at? child = none := by simp [at?, hValue]
      rw [hAt]
      rfl
  | some part =>
      obtain ⟨inner, hInner⟩ : ∃ inner, value.at? child = some inner := by
        rw [← Option.isSome_iff_exists, at?, Option.isSome_pmap, hValue]
        rfl
      obtain ⟨found, hFound, hSame, rfl⟩ := Option.pmap_eq_some_iff.1 hInner
      rw [hValue] at hSame
      cases hSame
      rw [hInner, Option.bind_some, if_pos ⟨(below_of_at? hChild hInner).after, value.part_lt⟩]
      exact literalAt_eq ⟨value.document, value.isRead, part, hFound⟩

/-- The literal of a list is made of the literals of its items. -/
theorem literal_list (h : value.supplied = .list) :
    value.literal = .list (value.items.map literal) := by
  have hSupplied := value.supplied_eq
  rw [h] at hSupplied
  apply Option.some.inj
  rw [← literalAt_eq, Document.literalAt, hSupplied, Document.listItems, hSupplied]
  simp only [items, List.filterMap_filterMap, List.map_filterMap]
  congr 2
  apply List.filterMap_congr
  intro child hChild
  exact literalAt_child hChild

/-- The items of a list are all that is directly under it. -/
theorem part_items (h : value.supplied = .list) :
    value.items.map part = (value.document.children value.part).parts := by
  have hSupplied := value.supplied_eq
  rw [h] at hSupplied
  rw [items, List.map_filterMap]
  refine (List.filterMap_congr fun child hChild => ?_).trans List.filterMap_some
  have hType := value.isRead.supplied?_of_list hSupplied hChild
  rw [← Document.hasType_isSuppliedValue] at hType
  rw [map_part_at?, Document.value?, if_pos hType]

section Objects

variable {registered : List (String × PartId)} (h : value.supplied = .complex registered)
include h

theorem supplied?_complex :
    value.document.supplied? value.part = some (.complex registered) := by
  rw [← h]
  exact value.supplied_eq

theorem registered_eq : value.supplied.fields = registered := by
  rw [h]
  rfl

/-- The field that stands for a name is among those that are written. -/
theorem mem_namedChildren {entry : String × PartId} (hEntry : entry ∈ registered) :
    entry ∈ value.document.namedChildren value.part := by
  obtain ⟨hNames, hLookup⟩ := value.isRead.fields_of_complex (supplied?_complex h)
  apply mem_of_lookup
  rw [← hLookup]
  exact lookup_of_mem hNames hEntry

/-- Every field of an object has a value. -/
theorem at?_isSome {entry : String × PartId}
    (hEntry : entry ∈ value.document.namedChildren value.part) :
    (value.at? entry.2).isSome = true := by
  obtain ⟨name, part, hPart, hData⟩ := value.isRead.inputObjectField_of_complex
    (supplied?_complex h) (mem_children_of_namedChildren hEntry)
  obtain ⟨found, hFound⟩ := value.isRead.exists_value_of_field hPart hData
  rw [at?, Option.isSome_pmap, hFound]
  rfl

/-- The values of the entries lie inside the object, repeated names included. -/
theorem below_of_mem_entries {entry : String × WrittenValue} (hEntry : entry ∈ value.entries) :
    entry.2.Below value := by
  obtain ⟨listed, hListed, hAt⟩ := List.mem_filterMap.1 hEntry
  obtain ⟨field, hField, rfl⟩ := Option.map_eq_some_iff.1 hAt
  rw [registered_eq h] at hListed
  exact below_of_at? (mem_children_of_namedChildren (mem_namedChildren h hListed)) hField

/-- The fields of an object are all that is directly under it, each with its name and its value. -/
theorem fields_children :
    value.fields.map (fun field => (some field.1, some field.2.part)) =
      (value.document.children value.part).parts.map fun child =>
        (value.document.name? child, value.document.value? child) := by
  rw [fields, List.map_filterMap, Document.namedChildren, List.filterMap_filterMap,
    ← List.filterMap_eq_map]
  apply List.filterMap_congr
  intro child hChild
  obtain ⟨name, part, hPart, hData⟩ :=
    value.isRead.inputObjectField_of_complex (supplied?_complex h) hChild
  have hName : value.document.name? child = some name := by
    rw [Document.name?, hPart, Option.bind_some, hData]
    rfl
  have hNamed : value.document.named? child = some (name, child) := by
    rw [Document.named?, hName]
    rfl
  obtain ⟨field, hField⟩ := Option.isSome_iff_exists.1
    (at?_isSome h (List.mem_filterMap.2 ⟨child, hChild, hNamed⟩))
  have hValue : value.document.value? child = some field.part := by
    rw [← map_part_at?, hField, Option.map_some]
  simp [hNamed, hField, hName, hValue]

/-- A name stands for the first field that is written with it. -/
theorem lookup_entries (name : String) :
    value.entries.lookup name = value.fields.lookup name := by
  obtain ⟨-, hLookup⟩ := value.isRead.fields_of_complex (supplied?_complex h)
  rw [entries, fields, registered_eq h,
    lookup_filterMap _ (fun entry hEntry => at?_isSome h (mem_namedChildren h hEntry)),
    lookup_filterMap _ (fun entry hEntry => at?_isSome h hEntry), hLookup]

/-- Each name stands for one field. -/
theorem names_entries : (value.entries.map Prod.fst).Nodup := by
  obtain ⟨hNames, -⟩ := value.isRead.fields_of_complex (supplied?_complex h)
  rw [entries, registered_eq h,
    names_filterMap _ (fun entry hEntry => at?_isSome h (mem_namedChildren h hEntry))]
  exact hNames

/-- The names of an object stand for the first fields of all names. -/
theorem firsts_entries : Firsts value.fields value.entries where
  names := by
    have hFirsts := value.isRead.firsts_of_complex (supplied?_complex h)
    rw [entries, fields, registered_eq h,
      names_filterMap _ (fun entry hEntry => at?_isSome h (mem_namedChildren h hEntry)),
      names_filterMap _ (fun entry hEntry => at?_isSome h hEntry), hFirsts.names]
  first := by
    intro entry hEntry
    rw [← lookup_entries h]
    exact lookup_of_mem (names_entries h) hEntry

/-- The literal of an object is made of the literals of its entries. -/
theorem literal_complex :
    value.literal = .object (value.entries.map fun entry => (entry.1, entry.2.literal)) := by
  have hSupplied := supplied?_complex h
  apply Option.some.inj
  rw [← literalAt_eq, Document.literalAt, hSupplied, Document.fieldValues, hSupplied]
  simp only [entries, registered_eq h, List.filterMap_filterMap, List.map_filterMap]
  congr 2
  apply List.filterMap_congr
  intro entry hEntry
  have hChild := literalAt_child (mem_children_of_namedChildren (mem_namedChildren h hEntry))
  calc
    _ = ((value.document.value? entry.2).bind fun part =>
          if value.part < part ∧ value.part < value.document.size then
            value.document.literalAt part else none).map fun literal => (entry.1, literal) := by
        cases value.document.value? entry.2 with
        | none => rfl
        | some part =>
            rw [Option.map_some, Option.bind_some, Option.bind_some]
            split <;> rfl
    _ = ((value.at? entry.2).map literal).map fun literal => (entry.1, literal) := by rw [hChild]
    _ = _ := by
        rw [Option.map_map, Option.map_map]
        rfl

end Objects

/-- The tree of a value, by what was supplied at it. -/
theorem literal_eq (value : WrittenValue) : value.literal =
    match value.supplied with
    | .scalar kind text => .scalar kind text
    | .enumeration name => .enumeration name
    | .null => .null
    | .list => .list (value.items.map literal)
    | .complex _ => .object (value.entries.map fun entry => (entry.1, entry.2.literal))
    | .variableUsage name => .variableUsage value.part name := by
  have hSupplied := value.supplied_eq
  have hLiteral := value.literalAt_eq
  rw [Document.literalAt, hSupplied] at hLiteral
  cases h : value.supplied with
  | list => exact literal_list h
  | complex registered => exact literal_complex h
  | _ =>
      rw [h] at hLiteral
      exact (Option.some.inj hLiteral).symm

end WrittenValue

end GraphQL
