import GraphQL.Proofs.Value.Termination

/-! How lists and objects are resolved. Every item of a list and the first field of every name in an
object counts, in order, and nothing else does: the results stand in the same order, and where
something cannot be resolved, the first such failure is that of the whole. -/
namespace GraphQL

namespace WrittenValue

variable {value : WrittenValue} {supplied : ResolvedMap}

/-- A value is resolved as the document answers for its part. -/
theorem resolve_eq_answer (value : WrittenValue) (supplied : ResolvedMap) :
    value.resolve supplied = value.document.answer supplied value.part := by
  rw [Document.answer, value.literalAt_eq]
  rfl

/-- What is in a value is resolved in the document of the value. -/
theorem Below.resolve_eq {inner outer : WrittenValue} (h : inner.Below outer)
    (supplied : ResolvedMap) :
    inner.resolve supplied = outer.document.answer supplied inner.part := by
  rw [resolve_eq_answer, h.document]

/-- A list is resolved item by item, up to the first that fails. -/
theorem resolve_list (h : value.supplied = .list) : value.resolve supplied =
    (value.items.mapM fun item : WrittenValue => item.resolve supplied).map .list := by
  rw [resolve_eq_answer, Document.answer_eq_step, h, Document.resolveStep, listItems_eq h,
    List.mapM_map]
  congr 1
  apply mapM_congr_mem
  intro item hItem
  exact ((below_of_mem_items hItem).resolve_eq supplied).symm

/-- An object is resolved field by field, up to the first that fails. -/
theorem resolve_complex {registered : List (String × PartId)}
    (h : value.supplied = .complex registered) : value.resolve supplied =
      (value.entries.mapM fun entry : String × WrittenValue =>
        (entry.2.resolve supplied).map fun result => (entry.1, result)).map .object := by
  rw [resolve_eq_answer, Document.answer_eq_step, h, Document.resolveStep, fieldValues_eq h,
    List.mapM_map]
  congr 1
  apply mapM_congr_mem
  intro entry hEntry
  rw [(below_of_mem_entries h hEntry).resolve_eq supplied]
  rfl

/-- What the resolution of a list comes to, by what its items resolve to. -/
structure ListInOrder (list : WrittenValue) (supplied : ResolvedMap) : Prop where
  /-- Each child is an item. -/
  items : list.items.map part = (list.document.children list.part).parts
  listItems : list.document.listItems list.part = (list.document.children list.part).parts
  ok : ∀ result : Resolved, list.resolve supplied = .ok result ↔
    ∃ results, List.Forall₂ (fun item result => item.resolve supplied = .ok result)
      list.items results ∧ .list results = result
  error : ∀ error : ResolutionError, list.resolve supplied = .error error ↔
    FirstFails (fun item : WrittenValue => item.resolve supplied) list.items error

/-- What the resolution of an object comes to, by what the first fields of its names resolve to. -/
structure ObjectInOrder (object : WrittenValue) (supplied : ResolvedMap) : Prop where
  /-- Each child is a field, with a name and a value. -/
  fields : object.fields.map (fun field => (some field.1, some field.2.part)) =
    (object.document.children object.part).parts.map fun child =>
      (object.document.name? child, object.document.value? child)
  /-- Of the fields, the first of each name is an entry. -/
  entries : Firsts object.fields object.entries
  fieldValues : object.document.fieldValues object.part =
    object.entries.map fun entry => (entry.1, entry.2.part)
  ok : ∀ result : Resolved, object.resolve supplied = .ok result ↔
    ∃ results, List.Forall₂ (fun entry result => result.1 = entry.1 ∧
      entry.2.resolve supplied = .ok result.2) object.entries results ∧ .object results = result
  error : ∀ error : ResolutionError, object.resolve supplied = .error error ↔
    FirstFails (fun entry : String × WrittenValue => entry.2.resolve supplied) object.entries error

/-- The results of a list are those of its items, in order and with none left out. -/
theorem list_in_order (h : value.supplied = .list) (supplied : ResolvedMap) :
    value.ListInOrder supplied where
  items := part_items h
  listItems := by rw [listItems_eq h, part_items h]
  ok result := by
    rw [resolve_list h, except_map_eq_ok]
    simp only [except_mapM_eq_ok]
  error error := by rw [resolve_list h, except_map_eq_error, except_mapM_eq_error]

/-- The results of an object are those of its fields, each name once and in order of first
occurrence. -/
theorem object_in_order {registered : List (String × PartId)}
    (h : value.supplied = .complex registered) (supplied : ResolvedMap) :
    value.ObjectInOrder supplied where
  fields := fields_children h
  entries := firsts_entries h
  fieldValues := fieldValues_eq h
  ok result := by
    rw [resolve_complex h, except_map_eq_ok]
    simp only [except_mapM_eq_ok, except_map_pair_eq_ok]
  error error := by
    rw [resolve_complex h, except_map_eq_error, except_mapM_eq_error, firstFails_map]

/-- In every document that is read from a text, lists and objects are resolved in order: from all
items of a list, and from the first field of each name of an object, up to the first that fails. -/
theorem resolve_in_order (value : WrittenValue) (supplied : ResolvedMap) :
    (value.supplied = .list → value.ListInOrder supplied) ∧
      ∀ registered, value.supplied = .complex registered → value.ObjectInOrder supplied :=
  ⟨fun h => list_in_order h supplied, fun _ h => object_in_order h supplied⟩

/-- An object that repeats a name before a number that is out of range, in a list. -/
theorem resolve_in_order_repeated : ∃ list object : WrittenValue,
    list.part = 4 ∧ object.part = 5 ∧
    (∃ events, Source.document { text := "{f(x:[{a:1 b:$v a:99999999999999999999}2])}" } =
      .ok (list.document, events)) ∧
    list.supplied = .list ∧ object.supplied = .complex [("a", 6), ("b", 8)] ∧
    ∀ supplied, list.ListInOrder supplied ∧ object.ObjectInOrder supplied := by
  have hRead : ((Source.document
      { text := "{f(x:[{a:1 b:$v a:99999999999999999999}2])}" }).toOption.any fun read =>
        read.1.supplied? 4 == some .list &&
          read.1.supplied? 5 == some (.complex [("a", 6), ("b", 8)])) = true := by
    decide +kernel
  cases hDocument :
      Source.document { text := "{f(x:[{a:1 b:$v a:99999999999999999999}2])}" } with
  | error error =>
      rw [hDocument] at hRead
      cases hRead
  | ok read =>
      obtain ⟨document, events⟩ := read
      rw [hDocument] at hRead
      simp only [Except.toOption, Option.any_some, Bool.and_eq_true, beq_iff_eq] at hRead
      obtain ⟨hList, hObject⟩ := hRead
      let list : WrittenValue := ⟨document, ⟨_, events, hDocument⟩, 4, by rw [hList]; rfl⟩
      let object : WrittenValue := ⟨document, ⟨_, events, hDocument⟩, 5, by rw [hObject]; rfl⟩
      have hListSupplied : list.supplied = .list := Option.get_of_mem _ hList
      have hObjectSupplied : object.supplied = .complex [("a", 6), ("b", 8)] :=
        Option.get_of_mem _ hObject
      refine ⟨list, object, rfl, rfl, ⟨events, rfl⟩, hListSupplied, hObjectSupplied, ?_⟩
      intro supplied
      exact ⟨(resolve_in_order list supplied).1 hListSupplied,
        (resolve_in_order object supplied).2 _ hObjectSupplied⟩

end WrittenValue

end GraphQL
