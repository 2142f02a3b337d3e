import GraphQL.Proofs.Document.Abstract

/-! Parts that are read by section. The children of a part come in sections, each of parts of its
own types, so what is read from the sections one after another is read from all of them. -/
namespace GraphQL

namespace Abstract

@[simp] theorem Text.read?_val {kind : TokenKind} (text : Text kind) :
    Text.read? kind text.val = some text := dif_pos text.property

@[simp] theorem Name.read?_val (name : Name) : Name.read? name.val = some name :=
  Text.read?_val name

@[simp] theorem NameBut.read?_val {words : List String} (name : NameBut words) :
    NameBut.read? words name.val.val = some name := by
  simp [NameBut.read?, name.property]

/-- A name, or none, is read back from its text. -/
theorem Name.mapM_read?_val (name : Option Name) :
    (name.map Subtype.val).mapM Name.read? = some name := by
  cases name <;> simp

/-- Only a part that is a value is read as one. -/
theorem Value.type_of_read? {tree : PartTree} {value : Value}
    (h : Value.read? tree = some value) : tree.data.type.isSuppliedValue = true := by
  unfold Value.read? at h
  split at h
  · next location data children =>
      cases data <;> rfl
  · cases h

theorem Argument.type_of_read? {tree : PartTree} {argument : Argument}
    (h : Argument.read? tree = some argument) : tree.data.type = .argument := by
  unfold Argument.read? at h
  split at h
  · rfl
  · cases h

theorem Directive.type_of_read? {tree : PartTree} {directive : Directive}
    (h : Directive.read? tree = some directive) : tree.data.type = .directive := by
  unfold Directive.read? at h
  split at h
  · rfl
  · cases h

theorem VariableDefinition.type_of_read? {tree : PartTree} {written : VariableDefinition}
    (h : VariableDefinition.read? tree = some written) : tree.data.type = .variable := by
  unfold VariableDefinition.read? at h
  split at h
  · rfl
  · cases h

/-- Only a selection is read as one. -/
theorem Selection.type_of_read? {tree : PartTree} {selection : Selection}
    (h : Selection.read? tree = some selection) : tree.data.type.isSelection = true := by
  unfold Selection.read? at h
  split at h <;> first | rfl | cases h

/-- Items that are all read are read one by one. -/
theorem exists_of_mapM {α β : Type} {read? : α → Option β} {items : List α} {values : List β}
    (h : items.mapM read? = some values) : ∀ a ∈ items, ∃ b, read? a = some b := by
  induction items generalizing values with
  | nil => simp
  | cons first rest ih =>
      simp only [List.mapM_cons, Option.bind_eq_bind, Option.bind_eq_some_iff] at h
      obtain ⟨b, hFirst, others, hRest, -⟩ := h
      exact List.forall_mem_cons.2 ⟨⟨b, hFirst⟩, ih hRest⟩

/-- Parts that are read by a reader of one type are of that type. -/
theorem types_of_mapM {α : Type} {read? : PartTree → Option α} {type : PartType}
    (hType : ∀ {tree a}, read? tree = some a → tree.data.type = type) {trees : List PartTree}
    {values : List α} (h : trees.mapM read? = some values) : ∀ t ∈ trees, t.data.type = type := by
  intro tree hTree
  obtain ⟨a, hRead⟩ := exists_of_mapM h tree hTree
  exact hType hRead

theorem Selection.types_of_readSelections? {trees : List PartTree} {selections : List Selection}
    (h : readSelections? 0 trees = some selections) :
    ∀ t ∈ trees, t.data.type.isSelection = true := by
  induction trees generalizing selections with
  | nil => simp
  | cons tree rest ih =>
      simp only [readSelections?, Option.bind_eq_bind, Option.bind_eq_some_iff] at h
      obtain ⟨selection, hFirst, others, hRest, -⟩ := h
      exact List.forall_mem_cons.2 ⟨Selection.type_of_read? hFirst, ih hRest⟩

/-- Selections are read behind the parts that come before them. -/
theorem readSelections?_append (first rest : List PartTree) :
    readSelections? first.length (first ++ rest) = readSelections? 0 rest := by
  induction first with
  | nil => rfl
  | cons tree first ih => exact ih

theorem readSelections?_nil {selections : List Selection} (h : selectionWords selections = []) :
    readSelections? 0 [] = some selections := by
  cases selections with
  | nil => rfl
  | cons selection rest => cases selection <;> simp [selectionWords, Selection.words] at h

/-- The leading parts of a class are told from the rest by their types. -/
theorem leading_append {p : PartType → Bool} {first rest : List PartTree}
    (hFirst : ∀ t ∈ first, p t.data.type = true) (hRest : ∀ t ∈ rest, p t.data.type = false) :
    leading p (first ++ rest) = (first, rest) := by
  have hStop : ∀ t ∈ rest.head?, p t.data.type = false :=
    fun t ht => hRest t (List.mem_of_head? ht)
  exact Prod.ext (Lexer.takeWhile_append_stop hFirst hStop)
    (Lexer.dropWhile_append_stop hFirst hStop)

theorem leading_of_type {type : PartType} {first rest : List PartTree}
    (hFirst : ∀ t ∈ first, t.data.type = type) (hRest : ∀ t ∈ rest, t.data.type ≠ type) :
    leading (· == type) (first ++ rest) = (first, rest) :=
  leading_append (fun t ht => beq_iff_eq.2 (hFirst t ht)) fun t ht => beq_false_of_ne (hRest t ht)

section Body

variable {directives selections : List PartTree} {marks : List Directive} {set : List Selection}
  (hDirectives : directives.mapM Directive.read? = some marks)
  (hSelections : readSelections? 0 selections = some set)
include hDirectives hSelections

/-- Directives and selections are told apart by their types. -/
theorem leading_directives :
    leading (· == .directive) (directives ++ selections) = (directives, selections) := by
  refine leading_of_type (types_of_mapM Directive.type_of_read? hDirectives) fun t ht hType => ?_
  have hSelection := Selection.types_of_readSelections? hSelections t ht
  rw [hType] at hSelection
  cases hSelection

/-- What comes before the directives and selections is told apart from them. -/
theorem leading_section {type : PartType} {first : List PartTree}
    (hFirst : ∀ t ∈ first, t.data.type = type) (hNotDirective : type ≠ .directive)
    (hNotSelection : type.isSelection = false) :
    leading (· == type) (first ++ (directives ++ selections)) =
      (first, directives ++ selections) := by
  refine leading_of_type hFirst
    (List.forall_mem_append.2 ⟨fun t ht hType => ?_, fun t ht hType => ?_⟩)
  · exact hNotDirective (hType.symm.trans (types_of_mapM Directive.type_of_read? hDirectives t ht))
  · have hSelection := Selection.types_of_readSelections? hSelections t ht
    rw [hType, hNotSelection] at hSelection
    cases hSelection

end Body

/-- A variable is read from its own data and the sections below it. -/
theorem VariableDefinition.read?_node {defaults directives : List PartTree}
    (written : VariableDefinition) (location : Position)
    (hDefaults : readDefault? defaults = some written.default)
    (hTypes : ∀ t ∈ defaults, t.data.type.isSuppliedValue = true)
    (hDirectives : directives.mapM Directive.read? = some written.directives) :
    VariableDefinition.read? (.node location (.variable written.name.val written.type.val)
      (defaults ++ directives)) = some written := by
  have hLeading : leading PartType.isSuppliedValue (defaults ++ directives) =
      (defaults, directives) := by
    refine leading_append hTypes fun t ht => ?_
    rw [types_of_mapM Directive.type_of_read? hDirectives t ht]
    rfl
  simp [VariableDefinition.read?, hLeading, hDefaults, hDirectives, written.type.property]

/-- A field is read from its own data and the sections below it. -/
theorem Selection.read?_field {arguments directives selections : List PartTree}
    {written : List Argument} {marks : List Directive} {set : List Selection}
    (aliasName : Option Name) (name : Name) (location : Position)
    (hArguments : arguments.mapM Argument.read? = some written)
    (hDirectives : directives.mapM Directive.read? = some marks)
    (hSelections : readSelections? 0 selections = some set) :
    Selection.read? (.node location (.field name.val (aliasName.map Subtype.val))
      (arguments ++ (directives ++ selections))) =
        some (.field aliasName name written marks set) := by
  have hFirst := leading_section hDirectives hSelections
    (types_of_mapM Argument.type_of_read? hArguments) (by decide) rfl
  have hRest : readSelections? (arguments.length + directives.length)
      (arguments ++ (directives ++ selections)) = some set := by
    rw [← List.length_append, ← List.append_assoc, readSelections?_append, hSelections]
  simp only [Selection.read?, hFirst, leading_directives hDirectives hSelections, hArguments,
    hDirectives, hRest, Name.mapM_read?_val, Name.read?_val]
  rfl

theorem Selection.read?_inline {directives selections : List PartTree} {marks : List Directive}
    {set : List Selection} (condition : Option Name) (location : Position)
    (hDirectives : directives.mapM Directive.read? = some marks)
    (hSelections : readSelections? 0 selections = some set) :
    Selection.read? (.node location (.inlineFragment (condition.map Subtype.val))
      (directives ++ selections)) = some (.inline condition marks set) := by
  have hRest : readSelections? directives.length (directives ++ selections) = some set := by
    rw [readSelections?_append, hSelections]
  simp only [Selection.read?, leading_directives hDirectives hSelections, hDirectives, hRest,
    Name.mapM_read?_val]
  rfl

theorem Definition.read?_operation {declared directives selections : List PartTree}
    {written : List VariableDefinition} {marks : List Directive} {set : List Selection}
    (type : OperationType) (name : Option Name) (location : Position)
    (hVariables : declared.mapM VariableDefinition.read? = some written)
    (hDirectives : directives.mapM Directive.read? = some marks)
    (hSelections : readSelections? 0 selections = some set) :
    Definition.read? (.node location (.operation type (name.map Subtype.val))
      (declared ++ (directives ++ selections))) =
        some (.operation type name written marks set) := by
  have hFirst := leading_section hDirectives hSelections
    (types_of_mapM VariableDefinition.type_of_read? hVariables) (by decide) rfl
  simp only [Definition.read?, hFirst, leading_directives hDirectives hSelections, hVariables,
    hDirectives, hSelections, Name.mapM_read?_val]
  rfl

theorem Definition.read?_fragment {directives selections : List PartTree}
    {marks : List Directive} {set : List Selection} (name : FragmentName) (condition : Name)
    (location : Position) (hDirectives : directives.mapM Directive.read? = some marks)
    (hSelections : readSelections? 0 selections = some set) :
    Definition.read? (.node location (.namedFragment name.val.val condition.val)
      (directives ++ selections)) = some (.fragment name condition marks set) := by
  simp only [Definition.read?, leading_directives hDirectives hSelections, hDirectives,
    hSelections, NameBut.read?_val, Name.read?_val]
  rfl

end Abstract

end GraphQL
