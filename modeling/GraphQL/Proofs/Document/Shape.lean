import GraphQL.Document.Query
import GraphQL.Proofs.Document.Renumbering
import GraphQL.Proofs.Lookup

/-! What stands under the parts of a document that was read from a text, as far as values go: items
are values, what is in an object are fields, and a field or an argument has one value. The field map
of an object has the first field of each name. -/
namespace GraphQL

/-- Whether a document is one that some text is read as. -/
def Document.IsRead (document : Document) : Prop :=
  ∃ (source : Source) (events : List PartAdded), source.document = .ok (document, events)

/-- Whether the parts directly below one with the given data may stand there. -/
def PartData.Holds (data : PartData) (below : List PartTree) : Prop :=
  match data with
  | .suppliedValue .list => ∀ child ∈ below, ∃ value, child.data = .suppliedValue value
  | .suppliedValue (.complex _) => ∀ child ∈ below, ∃ name, child.data = .inputObjectField name
  | .argument _ | .inputObjectField _ =>
      ∃ child value, below = [child] ∧ child.data = .suppliedValue value
  | _ => True

/-- A tree in which each part may stand where it does, and no part holds numbers of others. -/
inductive PartTree.Shaped : PartTree → Prop where
  | node {location : Position} {data : PartData} {children : List PartTree}
      (hBare : data.bare = data) (hHolds : data.Holds children)
      (hChildren : ∀ c ∈ children, c.Shaped) : Shaped (.node location data children)

/-- The type of the nodes that parts of a type stand for. -/
def PartType.node : PartType → NodeType
  | .document => .document
  | .operation => .operation
  | .variable => .variable
  | .directive => .directive
  | .field => .field
  | .fragmentSpread => .fragmentSpread
  | .inlineFragment => .inlineFragment
  | .namedFragment => .namedFragment
  | .argument | .inputObjectField => .inputItem
  | .scalarValue => .scalarValue
  | .enumValue => .enumValue
  | .nullValue => .nullValue
  | .listValue => .listValue
  | .complexValue => .complexValue
  | .variableUsage => .variableValue

namespace Label

variable {source : Source} {label : Label} {data : PartData}

/-- The type of a part tells the type of the node that it came from. -/
theorem type_of_partData {context : Context} (h : label.partData source context = .ok data) :
    label.type = data.type.node := by
  have hDescribes := describes_of_partData h
  cases data with
  | document => exact hDescribes
  | suppliedValue value =>
      cases value with
      | null | list | complex => exact hDescribes
      | _ => exact hDescribes.1
  | _ => exact hDescribes.1

/-- A name with a value is a field in an object alone. -/
theorem type_of_inputItem {context : Context} (h : label.partData source context = .ok data)
    (hType : label.type = .inputItem) :
    data.type = if context = .complexValue then .inputObjectField else .argument := by
  have hDescribes := describes_of_partData h
  have hNode := type_of_partData h
  rw [hType] at hNode
  cases data with
  | argument name => exact (if_neg hDescribes.2.1).symm
  | inputObjectField name => exact (if_pos hDescribes.2.1).symm
  | suppliedValue value => cases value <;> cases hNode
  | _ => cases hNode

/-- A phrase in the place of a value is a value. -/
theorem suppliedValue_of_partData (h : label.partData source .value = .ok data) :
    ∃ value, data = .suppliedValue value := by
  have hAdmits : label.type.isValue = true := admits_of_partData h
  rw [type_of_partData h] at hAdmits
  cases data with
  | suppliedValue value => exact ⟨value, rfl⟩
  | _ => cases hAdmits

/-- A phrase in an object is a field. -/
theorem inputObjectField_of_partData (h : label.partData source .complexValue = .ok data) :
    ∃ name, data = .inputObjectField name := by
  have hItem : label.type = .inputItem := by simpa [Context.admits] using admits_of_partData h
  have hType : data.type = .inputObjectField := type_of_inputItem h hItem
  cases data with
  | inputObjectField name => exact ⟨name, rfl⟩
  | suppliedValue value => cases value <;> cases hType
  | _ => cases hType

end Label

namespace Outline

variable {source : Source} {trees : List PartTree}

/-- A phrase in the place of a value stands for one part, which is a value. -/
theorem parts_value {phrase : Outline} (h : phrase.parts source .value = .ok trees) :
    ∃ child value, trees = [child] ∧ child.data = .suppliedValue value := by
  cases phrase with
  | missing index => cases h
  | node label children =>
      obtain ⟨data, below, hData, -, rfl⟩ := exists_of_parts rfl h
      obtain ⟨value, rfl⟩ := Label.suppliedValue_of_partData hData
      exact ⟨_, value, rfl, rfl⟩

/-- A phrase in an object stands for fields. -/
theorem parts_field {phrase : Outline} (h : phrase.parts source .complexValue = .ok trees) :
    ∀ child ∈ trees, ∃ name, child.data = .inputObjectField name := by
  cases phrase with
  | missing index => cases h
  | node label children =>
      obtain ⟨data, below, hData, -, rfl⟩ := exists_of_parts rfl h
      exact List.forall_mem_singleton.2 (Label.inputObjectField_of_partData hData)

/-- What holds of the parts that each phrase stands for holds of those that several stand for. -/
theorem forall_partsOf {context : Context} {phrases : List Outline} {P : PartTree → Prop}
    (hEach : ∀ phrase ∈ phrases, ∀ trees : List PartTree,
      phrase.parts source context = .ok trees → ∀ child ∈ trees, P child)
    (h : partsAll source context phrases = .ok trees) : ∀ child ∈ trees, P child := by
  induction phrases generalizing trees with
  | nil =>
      cases h
      simp
  | cons phrase rest ih =>
      obtain ⟨hPhrase, hRest⟩ := List.forall_mem_cons.1 hEach
      simp only [partsAll, except_bind_eq_ok, except_pure_eq_ok] at h
      obtain ⟨first, hFirst, others, hOthers, rfl⟩ := h
      exact List.forall_mem_append.2 ⟨hPhrase first hFirst, ih hRest hOthers⟩

/-- What it takes for `P` to hold of all parts of phrases that satisfy `H`: it holds of a part when
it holds of the parts inside it, and what is in the phrases satisfies `H` too. -/
structure Inherits (source : Source) (H : Outline → Prop) (P : PartTree → Prop) : Prop where
  phrases : ∀ {label children}, H (.node label children) → ∀ c ∈ children, H c
  part : ∀ {label children context data below}, H (.node label children) →
    label.partData source context = .ok data → partsInside source label.type children = .ok below →
    (∀ t ∈ below, P t) → P (.node label.location data below)

variable {H : Outline → Prop} {P : PartTree → Prop}

mutual

/-- What phrases pass on to their parts holds of all of them, by induction over the phrase. -/
theorem forall_parts (rule : Inherits source H P) {context : Context} {trees : List PartTree} :
    (phrase : Outline) → H phrase → phrase.parts source context = .ok trees → ∀ t ∈ trees, P t
  | .missing _, _, h => nomatch h
  | .node label children, hPhrase, h => by
      have hChildren := rule.phrases hPhrase
      cases hGroup : context.group? label.type with
      | some inside =>
          rw [parts_group hGroup] at h
          exact forall_partsAll rule children hChildren h
      | none =>
          obtain ⟨data, below, hData, hBelow, rfl⟩ := exists_of_parts hGroup h
          refine List.forall_mem_singleton.2 (rule.part hPhrase hData hBelow ?_)
          rw [partsInside] at hBelow
          cases hInside : label.type.inside with
          | all inside =>
              rw [hInside] at hBelow
              exact forall_partsAll rule children hChildren hBelow
          | firstValue =>
              rw [hInside] at hBelow
              exact forall_partsFirst rule children hChildren hBelow
          | nothing =>
              rw [hInside] at hBelow
              cases hBelow
              simp

/-- What phrases pass on holds of the parts of phrases in a row. -/
theorem forall_partsAll (rule : Inherits source H P) {context : Context} {trees : List PartTree} :
    (phrases : List Outline) → (∀ c ∈ phrases, H c) →
    partsAll source context phrases = .ok trees → ∀ t ∈ trees, P t
  | [], _, h => by
      cases h
      simp
  | phrase :: rest, hAll, h => by
      obtain ⟨hPhrase, hRest⟩ := List.forall_mem_cons.1 hAll
      simp only [partsAll, except_bind_eq_ok, except_pure_eq_ok] at h
      obtain ⟨first, hFirst, others, hOthers, rfl⟩ := h
      exact List.forall_mem_append.2
        ⟨forall_parts rule phrase hPhrase hFirst, forall_partsAll rule rest hRest hOthers⟩

theorem forall_partsFirst (rule : Inherits source H P) {type : NodeType} {trees : List PartTree} :
    (phrases : List Outline) → (∀ c ∈ phrases, H c) →
    partsFirst source type phrases = .ok trees → ∀ t ∈ trees, P t
  | [], _, h => nomatch h
  | phrase :: _, hAll, h => forall_parts rule phrase (hAll phrase List.mem_cons_self) h

end

/-- The parts inside a phrase that is a part stand where they may. -/
theorem holds_of_partData {context : Context} {label : Label} {children : List Outline}
    {data : PartData} {below : List PartTree} (hData : label.partData source context = .ok data)
    (hBelow : partsInside source label.type children = .ok below) : data.Holds below := by
  have hDescribes := Label.describes_of_partData hData
  cases data with
  | suppliedValue value =>
      cases value with
      | list =>
          rw [show label.type = .listValue from hDescribes] at hBelow
          refine forall_partsOf (fun phrase _ trees hTrees => ?_) hBelow
          obtain ⟨child, value, rfl, hValue⟩ := parts_value hTrees
          exact List.forall_mem_singleton.2 ⟨value, hValue⟩
      | complex fields =>
          rw [show label.type = .complexValue from hDescribes] at hBelow
          exact forall_partsOf (fun _ _ _ => parts_field) hBelow
      | _ => trivial
  | argument name | inputObjectField name =>
      rw [hDescribes.1] at hBelow
      cases children with
      | nil => cases hBelow
      | cons phrase rest => exact parts_value hBelow
  | _ => trivial

/-- The parts of phrases stand where they may. -/
theorem shaped_partsAll {context : Context} {phrases : List Outline}
    (h : partsAll source context phrases = .ok trees) : ∀ t ∈ trees, t.Shaped := by
  have hRule : Inherits source (fun _ => True) PartTree.Shaped :=
    { phrases := fun _ _ _ => trivial
      part := fun _ hData hBelow hTrees =>
        .node (Label.bare_partData hData) (holds_of_partData hData hBelow) hTrees }
  exact forall_partsAll hRule phrases (fun _ _ => trivial) h

end Outline

namespace PartTree

variable {whole : List Part} {i : Nat}

mutual

/-- Each part that is laid out is the first of a tree that is laid out there. What holds of a tree
whenever it holds of one around it holds of that tree. -/
theorem exists_layout {P : PartTree → Prop} (hBelow : ∀ {location data children},
      P (.node location data children) → ∀ c ∈ children, P c) :
    (tree : PartTree) → (start : Nat) → (parent : Option PartId) → P tree →
    Lies whole start (tree.layout start parent) → start ≤ i → i < start + tree.count →
    ∃ below above, P below ∧ Lies whole i (below.layout i above)
  | .node location data children, start, parent, hTree, hLies, hFirst, hLast => by
      rcases Nat.eq_or_lt_of_le hFirst with rfl | hLt
      · exact ⟨_, parent, hTree, hLies⟩
      · rw [count] at hLast
        exact exists_layoutAll hBelow children (start + 1) start (hBelow hTree)
          (Lies.cons hLies).2 hLt (by omega)

/-- Every place among trees laid out is the root of one, which has what trees pass on to those in
them. -/
theorem exists_layoutAll {P : PartTree → Prop} (hBelow : ∀ {location data children},
      P (.node location data children) → ∀ c ∈ children, P c) :
    (trees : List PartTree) → (start parent : Nat) →
    (∀ t ∈ trees, P t) → Lies whole start (layoutAll start parent trees) → start ≤ i →
    i < start + countAll trees →
    ∃ below above, P below ∧ Lies whole i (below.layout i above)
  | [], start, _, _, _, hFirst, hLast => absurd hLast (Nat.not_lt.2 hFirst)
  | tree :: rest, start, parent, hTrees, hLies, hFirst, hLast => by
      obtain ⟨hTree, hRest⟩ := List.forall_mem_cons.1 hTrees
      obtain ⟨hHere, hThere⟩ := Lies.append hLies
      rw [length_layout] at hThere
      rw [countAll] at hLast
      rcases Nat.lt_or_ge i (start + tree.count) with hi | hi
      · exact exists_layout hBelow tree start (some parent) hTree hHere hFirst hi
      · exact exists_layoutAll hBelow rest (start + tree.count) parent hRest hThere hi (by omega)

end

/-- The numbers that several trees are laid out from are those of the first parts of the trees. -/
theorem exists_mem_of_places {trees : List PartTree} {start child parent : Nat}
    (hLies : Lies whole start (layoutAll start parent trees)) (h : child ∈ places start trees) :
    start ≤ child ∧ ∃ tree ∈ trees, Lies whole child (tree.layout child (some parent)) := by
  induction trees generalizing start with
  | nil => cases h
  | cons tree rest ih =>
      obtain ⟨hHere, hBelow⟩ := Lies.append hLies
      rw [length_layout] at hBelow
      rcases List.mem_cons.1 h with rfl | hRest
      · exact ⟨Nat.le_refl _, tree, List.mem_cons_self .., hHere⟩
      · obtain ⟨hLe, found, hFound, hLayout⟩ := ih hBelow hRest
        exact ⟨by omega, found, List.mem_cons_of_mem _ hFound, hLayout⟩

end PartTree

namespace PartData

variable {data : PartData}

theorem type_bare (data : PartData) : data.bare.type = data.type := by
  cases data with
  | suppliedValue value => cases value <;> rfl
  | _ => rfl

/-- A planned value stands for a value. -/
theorem exists_of_bare_suppliedValue {value : SuppliedValue}
    (h : data.bare = .suppliedValue value) : ∃ actual, data = .suppliedValue actual := by
  cases data with
  | suppliedValue actual => exact ⟨actual, rfl⟩
  | _ => cases h

/-- A planned field is the field. -/
theorem of_bare_inputObjectField {name : String} (h : data.bare = .inputObjectField name) :
    data = .inputObjectField name := by
  cases data with
  | suppliedValue value => cases value <;> cases h
  | _ => exact h

end PartData

namespace Document

variable {document : Document} {id : Nat} {part : Part}

/-- Whether the part `id` of a document and all below it are laid out from a tree. -/
structure Roots (document : Document) (id : Nat) (above : Option PartId) (tree : PartTree) :
    Prop where
  shaped : tree.Shaped
  lies : Lies document.parts.toList id (tree.layout id above)

section Trees

variable {P : PartTree → Prop}
  (hWhole : ∀ {source tokens label children trees}, Forms .document tokens (.node label children) →
    Outline.partsAll source .document children = .ok trees →
    P (.node label.location .document trees))
  (h : document.IsRead)
include hWhole h

/-- A document that was read is laid out from a tree for a document. -/
theorem IsRead.exists_root : ∃ location trees, P (.node location .document trees) ∧
    document.size = (PartTree.node location .document trees).count ∧
    document.Roots 0 none (.node location .document trees) := by
  obtain ⟨source, events, hDocument⟩ := h
  cases hOutline : source.outline with
  | error error =>
      simp only [Source.document, hOutline] at hDocument
      cases hDocument
  | ok phrase =>
      obtain ⟨-, hForms⟩ := Source.outline_eq_ok.1 hOutline
      obtain ⟨label, children, trees, rfl, -, hTrees⟩ :=
        hForms.parts_document (Token.beforeEnd_infix source.text)
      obtain ⟨found, told, hFound, hLayout, -⟩ := Source.document_eq hOutline hTrees
      rw [hDocument] at hFound
      cases hFound
      have hSize : document.size = (PartTree.node label.location .document trees).count := by
        rw [← PartTree.length_layout 0 none, ← hLayout, Array.length_toList]
        rfl
      have hLies : Lies document.parts.toList 0
          ((PartTree.node label.location .document trees).layout 0 none) := by
        rw [← hLayout]
        exact List.prefix_refl _
      exact ⟨label.location, trees, hWhole hForms hTrees, hSize,
        .node rfl trivial (Outline.shaped_partsAll hTrees), hLies⟩

/-- Each part of a document that was read roots a tree. What holds of the trees that texts stand for
and of a tree whenever it holds of one around it holds of that tree. -/
theorem IsRead.exists_tree
    (hBelow : ∀ {location data children}, P (.node location data children) →
      ∀ c ∈ children, P c)
    (hPart : document.part? id = some part) :
    ∃ above tree, P tree ∧ document.Roots id above tree := by
  obtain ⟨location, trees, hTree, hSize, hRoots⟩ := IsRead.exists_root hWhole h
  have hId : id < 0 + (PartTree.node location .document trees).count := by
    rw [Nat.zero_add, ← hSize]
    exact (Array.getElem?_eq_some_iff.1 hPart).1
  have hBoth {location : Position} {data : PartData} {children : List PartTree}
      (hTree : P (.node location data children) ∧
        (PartTree.node location data children).Shaped) :
      ∀ c ∈ children, P c ∧ c.Shaped := by
    obtain ⟨hTree, hShaped⟩ := hTree
    cases hShaped with
    | node _ _ hChildren => exact fun c hc => ⟨hBelow hTree c hc, hChildren c hc⟩
  obtain ⟨tree, above, ⟨hTree, hTreeShaped⟩, hThere⟩ := PartTree.exists_layout
    (P := fun tree => P tree ∧ tree.Shaped) hBoth _ 0 none ⟨hTree, hRoots.shaped⟩ hRoots.lies
    (Nat.zero_le id) hId
  exact ⟨above, tree, hTree, hTreeShaped, hThere⟩

end Trees

namespace Roots

variable {above : Option PartId} {location : Position} {data : PartData} {below : List PartTree}

/-- The part at the root of a tree in the document, with the children and fields that it holds. -/
theorem part_eq (h : document.Roots id above (.node location data below)) :
    document.part? id = some (PartTree.holdAll (id + 1) below
      ⟨above, { owner := id }, location, data⟩) := by
  rw [part?, ← Array.getElem?_toList]
  exact (Lies.cons h.lies).1

/-- The part says what the first part of the tree does. -/
theorem bare_eq (h : document.Roots id above (.node location data below))
    (hPart : document.part? id = some part) : part.data.bare = data := by
  rw [h.part_eq] at hPart
  cases hPart
  cases h.shaped with
  | node hBare _ _ =>
      exact (PartTree.holdAll_says below (id + 1) _).1.trans hBare

/-- A part is of the type that its tree says. -/
theorem type?_eq {tree : PartTree} (h : document.Roots id above tree) :
    document.type? id = some tree.data.type := by
  cases tree with
  | node location data below =>
      have hBare := h.bare_eq h.part_eq
      rw [type?, h.part_eq, Option.map_some, Part.type, ← PartData.type_bare, hBare]
      rfl

theorem holds (h : document.Roots id above (.node location data below)) : data.Holds below := by
  cases h.shaped with | node _ hHolds _ => exact hHolds

theorem parent?_eq (h : document.Roots id above (.node location data below)) :
    document.parent? id = above := by
  rw [parent?, h.part_eq, Option.bind_some, PartTree.parent_holdAll]

/-- The root lists what is below it, in order. -/
theorem children_eq (h : document.Roots id above (.node location data below)) :
    (document.children id).parts = PartTree.places (id + 1) below := by
  rw [children, h.part_eq]
  exact (PartTree.holdAll_says below (id + 1) _).2.1

/-- The children of a part root the trees below it. -/
theorem child (h : document.Roots id above (.node location data below)) {child : Nat}
    (hChild : child ∈ (document.children id).parts) :
    id < child ∧ ∃ tree ∈ below, document.Roots child (some id) tree := by
  rw [h.children_eq] at hChild
  obtain ⟨hLe, tree, hTree, hLies⟩ :=
    PartTree.exists_mem_of_places (Lies.cons h.lies).2 hChild
  cases h.shaped with
  | node _ _ hChildren => exact ⟨hLe, tree, hTree, hChildren tree hTree, hLies⟩

/-- A field at the root has its name. -/
theorem name?_eq {name : String} {tree : PartTree} (h : document.Roots id above tree)
    (hData : tree.data = .inputObjectField name) : document.name? id = some name := by
  cases tree with
  | node location data below =>
      have hBare := h.bare_eq h.part_eq
      rw [show data = .inputObjectField name from hData] at hBare
      rw [name?, h.part_eq, Option.bind_some, show data = .inputObjectField name from hData,
        PartData.of_bare_inputObjectField hBare]
      rfl

theorem supplied?_isSome {value : SuppliedValue} {tree : PartTree}
    (h : document.Roots id above tree) (hData : tree.data = .suppliedValue value) :
    (document.supplied? id).isSome = true := by
  cases tree with
  | node location data below =>
      have hBare := h.bare_eq h.part_eq
      rw [show data = .suppliedValue value from hData] at hBare
      obtain ⟨actual, hActual⟩ := PartData.exists_of_bare_suppliedValue hBare
      rw [supplied?, h.part_eq, Option.bind_some, show data = .suppliedValue value from hData,
        hActual]
      rfl

end Roots

/-- A part of a document that was read roots a tree that says what the part does. -/
theorem IsRead.exists_roots (h : document.IsRead) (hPart : document.part? id = some part) :
    ∃ above location below,
      document.Roots id above (.node location part.data.bare below) := by
  obtain ⟨above, ⟨location, data, below⟩, -, hRoots⟩ :=
    IsRead.exists_tree (P := fun _ => True) (fun _ _ => trivial) h (fun _ _ _ => trivial) hPart
  rw [hRoots.bare_eq hPart]
  exact ⟨above, location, below, hRoots⟩

end Document

/-- A child is entered behind those of its type, and no other list changes. -/
theorem Children.lookup_enter (type other : PartType) (part : PartId)
    (entries : List (PartType × List PartId)) : (enter type part entries).lookup other =
      if other = type then some ((entries.lookup other).getD [] ++ [part])
      else entries.lookup other := by
  induction entries with
  | nil =>
      rw [enter, List.lookup_cons]
      by_cases hOther : other = type
      · simp [hOther]
      · rw [beq_false_of_ne hOther, if_neg hOther]
  | cons entry rest ih =>
      obtain ⟨listed, parts⟩ := entry
      by_cases hListed : listed = type
      · rw [enter, if_pos hListed, List.lookup_cons, List.lookup_cons, hListed]
        by_cases hOther : other = type
        · simp [hOther]
        · rw [beq_false_of_ne hOther, if_neg hOther]
      · rw [enter, if_neg hListed, List.lookup_cons, List.lookup_cons, ih]
        by_cases hSame : other = listed
        · simp [hSame, hListed]
        · rw [beq_false_of_ne hSame]

/-- A child is added to those of its type. -/
theorem Children.ofType_add (children : Children) (type other : PartType) (part : PartId) :
    (children.add type part).ofType other =
      children.ofType other ++ if type = other then [part] else [] := by
  rw [ofType, add, lookup_enter, ofType]
  by_cases hOther : type = other
  · rw [if_pos hOther, if_pos hOther.symm, Option.getD_some]
  · rw [if_neg hOther, if_neg (Ne.symm hOther), List.append_nil]

/-- A part that holds trees lists them by the types of their parts, which lie behind it. -/
theorem PartTree.ofType_holdAll {document : Document} {owner : Nat} {type : PartType}
    (trees : List PartTree) (start : Nat) (part : Part) (hShaped : ∀ t ∈ trees, t.Shaped)
    (hLies : Lies document.parts.toList start (layoutAll start owner trees)) :
    (holdAll start trees part).children.ofType type = part.children.ofType type ++
      (places start trees).filter (document.hasType (· == type)) := by
  induction trees generalizing start part with
  | nil => exact (List.append_nil _).symm
  | cons tree rest ih =>
      obtain ⟨hTree, hTrees⟩ := List.forall_mem_cons.1 hShaped
      obtain ⟨hHere, hThere⟩ := Lies.append hLies
      rw [length_layout] at hThere
      have hType : document.hasType (· == type) start = (tree.data.type == type) := by
        rw [Document.hasType, Document.Roots.type?_eq ⟨hTree, hHere⟩, Option.any_some]
      have hHold : (part.hold start tree.data).children =
          part.children.add tree.data.type start := by
        unfold Part.hold Part.register
        split <;> rfl
      rw [holdAll, ih _ _ hTrees hThere, hHold, Children.ofType_add, places, List.filter_cons,
        hType, List.append_assoc]
      by_cases hSame : tree.data.type = type <;> simp [hSame]

/-- The children that a part of a document lists under a type are those of that type, in order. -/
theorem Document.IsRead.ofType_children {document : Document} (h : document.IsRead) (id : Nat)
    (type : PartType) : (document.children id).ofType type =
      (document.children id).parts.filter (document.hasType (· == type)) := by
  cases hPart : document.part? id with
  | none =>
      rw [children, hPart]
      rfl
  | some part =>
      obtain ⟨above, location, below, hRoots⟩ := h.exists_roots hPart
      have hBelow : ∀ t ∈ below, t.Shaped := by
        cases hRoots.shaped with | node _ _ hChildren => exact hChildren
      rw [hRoots.children_eq, children, hRoots.part_eq]
      exact PartTree.ofType_holdAll below (id + 1) _ hBelow (Lies.cons hRoots.lies).2

namespace Document

/-- A part with its name, if it has one. -/
def named? (document : Document) (id : PartId) : Option (String × PartId) :=
  (document.name? id).map fun name => (name, id)

/-- The children of a part that have names, in order. -/
def namedChildren (document : Document) (id : PartId) : List (String × PartId) :=
  (document.children id).parts.filterMap document.named?

end Document

/-- Of the fields that are put under an object, the first of each name is entered. The fields are
named by their own parts, which lie behind the object. -/
theorem PartTree.holdAll_fields {document : Document} {owner : Nat} (trees : List PartTree)
    (start : Nat) (part : Part) {all fields : List (String × PartId)}
    (hFields : ∀ t ∈ trees, ∃ name, t.data = .inputObjectField name)
    (hShaped : ∀ t ∈ trees, t.Shaped)
    (hLies : Lies document.parts.toList start (layoutAll start owner trees))
    (hPart : part.data = .suppliedValue (.complex fields)) (hFirsts : Firsts all fields) :
    ∃ entered, (holdAll start trees part).data = .suppliedValue (.complex entered) ∧
      Firsts (all ++ (places start trees).filterMap document.named?) entered := by
  induction trees generalizing start part all fields with
  | nil =>
      refine ⟨fields, hPart, ?_⟩
      rwa [places, List.filterMap_nil, List.append_nil]
  | cons tree rest ih =>
      obtain ⟨⟨name, hName⟩, hRest⟩ := List.forall_mem_cons.1 hFields
      obtain ⟨hTree, hTrees⟩ := List.forall_mem_cons.1 hShaped
      obtain ⟨hHere, hBelow⟩ := Lies.append hLies
      rw [length_layout] at hBelow
      have hHold : (part.hold start tree.data).data =
          .suppliedValue ((SuppliedValue.complex fields).enterField name start) := by
        rw [hName]
        simp [Part.hold, Part.register, Part.list, hPart]
      obtain ⟨entered, hEntered, hAll⟩ := ih (start + tree.count) (part.hold start tree.data)
        hRest hTrees hBelow hHold (hFirsts.enter name start)
      have hHead : document.named? start = some (name, start) := by
        rw [Document.named?, Document.Roots.name?_eq ⟨hTree, hHere⟩ hName]
        rfl
      refine ⟨entered, hEntered, ?_⟩
      rwa [places, List.filterMap_cons, hHead, List.append_cons]

namespace Document

variable {document : Document} {id : Nat}

/-- A part is a value if its data says so. -/
theorem supplied?_eq_some {value : SuppliedValue} (h : document.supplied? id = some value) :
    ∃ part, document.part? id = some part ∧ part.data = .suppliedValue value := by
  obtain ⟨part, hPart, hData⟩ := Option.bind_eq_some_iff.1 h
  refine ⟨part, hPart, ?_⟩
  cases hActual : part.data with
  | suppliedValue actual =>
      rw [hActual] at hData
      cases hData
      rfl
  | _ =>
      rw [hActual] at hData
      cases hData

theorem type?_of_supplied? {id : PartId} {value : SuppliedValue}
    (h : document.supplied? id = some value) : document.type? id = some value.type := by
  obtain ⟨part, hPart, hData⟩ := supplied?_eq_some h
  rw [type?, hPart, Option.map_some, Part.type, hData]
  rfl

/-- To be of the type of a value and to be a value are the same. -/
theorem hasType_isSuppliedValue :
    document.hasType PartType.isSuppliedValue id = (document.supplied? id).isSome := by
  rw [hasType, type?, supplied?]
  cases document.part? id with
  | none => rfl
  | some part =>
      cases hData : part.data with
      | suppliedValue value =>
          rw [Option.map_some, Part.type, hData, Option.bind_some, hData]
          cases value <;> rfl
      | _ =>
          rw [Option.map_some, Part.type, hData, Option.bind_some, hData]
          rfl

/-- What stands at or directly under a part as its value is a value. -/
theorem isSome_of_value? {value : PartId} (h : document.value? id = some value) :
    (document.supplied? value).isSome = true := by
  rw [← hasType_isSuppliedValue]
  unfold value? at h
  split at h
  · next hType =>
      cases h
      exact hType
  · split at h
    · exact List.find?_some h
    · cases h

/-- The value of an argument or of a field of an object is its one child. -/
theorem value?_of_child {type value : PartType} {child : Nat}
    (hType : document.type? id = some type) (hItem : type = .argument ∨ type = .inputObjectField)
    (hChildren : (document.children id).parts = [child])
    (hChild : document.type? child = some value) (hValue : value.isSuppliedValue = true) :
    document.value? id = some child := by
  have hSelf : ¬document.hasType PartType.isSuppliedValue id = true := by
    rw [hasType, hType]
    rcases hItem with rfl | rfl <;> decide
  have hHolder : document.hasType holdsValue id = true := by
    rw [hasType, hType]
    rcases hItem with rfl | rfl <;> rfl
  have hSupplied : document.hasType PartType.isSuppliedValue child = true := by
    rw [hasType, hChild]
    exact hValue
  rw [value?, if_neg hSelf, if_pos hHolder, hChildren]
  exact List.find?_cons_of_pos hSupplied

namespace IsRead

variable (h : document.IsRead)
include h

/-- What is directly below a part comes after it, and knows it. -/
theorem of_mem_children {child : Nat} (hChild : child ∈ (document.children id).parts) :
    id < child ∧ child < document.size ∧ document.parent? child = some id := by
  cases hPart : document.part? id with
  | none =>
      rw [children, hPart] at hChild
      cases hChild
  | some part =>
      obtain ⟨above, location, below, hRoots⟩ := h.exists_roots hPart
      obtain ⟨hLt, ⟨_, _, _⟩, -, hTree⟩ := hRoots.child hChild
      exact ⟨hLt, (Array.getElem?_eq_some_iff.1 hTree.part_eq).1, hTree.parent?_eq⟩

/-- What is in a list is values. -/
theorem supplied?_of_list (hList : document.supplied? id = some .list) {child : Nat}
    (hChild : child ∈ (document.children id).parts) :
    (document.supplied? child).isSome = true := by
  obtain ⟨part, hPart, hData⟩ := supplied?_eq_some hList
  obtain ⟨above, location, below, hRoots⟩ := h.exists_roots hPart
  rw [hData] at hRoots
  obtain ⟨-, tree, hTree, hChildRoots⟩ := hRoots.child hChild
  obtain ⟨value, hValue⟩ := hRoots.holds tree hTree
  exact hChildRoots.supplied?_isSome hValue

/-- What is in an object is fields. -/
theorem inputObjectField_of_complex {fields : List (String × PartId)}
    (hComplex : document.supplied? id = some (.complex fields)) {child : Nat}
    (hChild : child ∈ (document.children id).parts) :
    ∃ name part, document.part? child = some part ∧ part.data = .inputObjectField name := by
  obtain ⟨part, hPart, hData⟩ := supplied?_eq_some hComplex
  obtain ⟨above, location, below, hRoots⟩ := h.exists_roots hPart
  rw [hData] at hRoots
  obtain ⟨-, ⟨place, data, inside⟩, hTree, hChildRoots⟩ := hRoots.child hChild
  obtain ⟨name, hName⟩ := hRoots.holds _ hTree
  have hBare := (hChildRoots.bare_eq hChildRoots.part_eq).trans hName
  exact ⟨name, _, hChildRoots.part_eq, PartData.of_bare_inputObjectField hBare⟩

/-- The field map of an object has the first field of each name, in the order of the names. -/
theorem firsts_of_complex {fields : List (String × PartId)}
    (hComplex : document.supplied? id = some (.complex fields)) :
    Firsts (document.namedChildren id) fields := by
  obtain ⟨part, hPart, hData⟩ := supplied?_eq_some hComplex
  obtain ⟨above, location, below, hRoots⟩ := h.exists_roots hPart
  rw [hData] at hRoots
  have hBelow : ∀ t ∈ below, t.Shaped := by
    cases hRoots.shaped with | node _ _ hChildren => exact hChildren
  obtain ⟨entered, hEntered, hFirsts⟩ := PartTree.holdAll_fields below (id + 1)
    ⟨above, { owner := id }, location, .suppliedValue (.complex [])⟩ hRoots.holds hBelow
    (Lies.cons hRoots.lies).2 rfl Firsts.nil
  have hSame := hRoots.part_eq
  rw [hPart] at hSame
  cases hSame
  cases hEntered.symm.trans hData
  rw [namedChildren, hRoots.children_eq]
  exact hFirsts

/-- The registered fields of an object have each name once, and find what its children of that name
find first. -/
theorem fields_of_complex {fields : List (String × PartId)}
    (hComplex : document.supplied? id = some (.complex fields)) :
    (fields.map Prod.fst).Nodup ∧
      ∀ name, fields.lookup name = (document.namedChildren id).lookup name :=
  ⟨(h.firsts_of_complex hComplex).nodup, (h.firsts_of_complex hComplex).lookup_eq⟩

/-- A field of an object has a value. -/
theorem exists_value_of_field {part : Part} {name : String} (hPart : document.part? id = some part)
    (hData : part.data = .inputObjectField name) :
    ∃ value, document.value? id = some value := by
  obtain ⟨above, location, below, hRoots⟩ := h.exists_roots hPart
  rw [hData] at hRoots
  obtain ⟨tree, value, rfl, hValue⟩ := hRoots.holds
  have hChildren : (document.children id).parts = [id + 1] := hRoots.children_eq
  have hChild : (id + 1) ∈ (document.children id).parts := by
    rw [hChildren]
    exact List.mem_singleton_self _
  obtain ⟨-, found, hFound, hTree⟩ := hRoots.child hChild
  cases List.mem_singleton.1 hFound
  have hType : document.type? id = some .inputObjectField := by
    rw [type?, hPart, Option.map_some, Part.type, hData]
    rfl
  have hSupplied : tree.data.type.isSuppliedValue = true := by
    rw [hValue]
    cases value <;> rfl
  exact ⟨id + 1, value?_of_child hType (.inr rfl) hChildren hTree.type?_eq hSupplied⟩

/-- A part that opens no scope shares its scope with its children. -/
theorem enclosingScope?_of_child (hType : document.hasType PartType.isVariableScope id = false)
    {child : Nat} (hChild : child ∈ (document.children id).parts) :
    document.enclosingScope? child = document.enclosingScope? id := by
  obtain ⟨hLt, -, hParent⟩ := h.of_mem_children hChild
  rw [enclosingScope?, ancestors, hParent]
  simp only [if_pos hLt, List.find?_cons, hType]
  rfl

/-- The value at or directly under a part comes after it and stands in the same scope. -/
theorem of_value? {value : Nat} (hValue : document.value? id = some value) :
    id ≤ value ∧ document.enclosingScope? value = document.enclosingScope? id := by
  unfold value? at hValue
  split at hValue
  · cases hValue
    exact ⟨Nat.le_refl _, rfl⟩
  · split at hValue
    · next hHolds =>
        have hChild := List.mem_of_find?_eq_some hValue
        refine ⟨Nat.le_of_lt (h.of_mem_children hChild).1, h.enclosingScope?_of_child ?_ hChild⟩
        unfold hasType at hHolds ⊢
        cases hType : document.type? id with
        | none => rfl
        | some type =>
            rw [hType] at hHolds
            cases type <;> first | rfl | cases hHolds
    · cases hValue

/-- A part is at or below another if it is that part, or at or below one of its children. -/
theorem mem_descendants {inner : Nat} : inner ∈ document.descendants id ↔
    inner = id ∨ ∃ child ∈ (document.children id).parts, inner ∈ document.descendants child := by
  rw [descendants, List.mem_cons, List.mem_flatMap]
  apply or_congr Iff.rfl
  apply exists_congr
  intro child
  apply and_congr_right
  intro hChild
  obtain ⟨hLt, hSize, -⟩ := h.of_mem_children hChild
  rw [if_pos ⟨hLt, Nat.lt_trans hLt hSize⟩]

theorem mem_descendants_child {child : Nat} (hChild : child ∈ (document.children id).parts) :
    child ∈ document.descendants id :=
  h.mem_descendants.2 (.inr ⟨child, hChild, h.mem_descendants.2 (.inl rfl)⟩)

theorem mem_descendants_trans {middle inner : Nat} (hMiddle : middle ∈ document.descendants id)
    (hInner : inner ∈ document.descendants middle) : inner ∈ document.descendants id := by
  induction hRoom : document.size - id using Nat.strong_induction_on generalizing id with
  | _ room ih =>
      rcases h.mem_descendants.1 hMiddle with rfl | ⟨child, hChild, hBelow⟩
      · exact hInner
      · obtain ⟨hLt, hSize, -⟩ := h.of_mem_children hChild
        exact h.mem_descendants.2 (.inr ⟨child, hChild, ih _ (by omega) hBelow rfl⟩)

/-- The value of an argument or a field is below it. -/
theorem mem_descendants_of_value? {value : Nat} (hValue : document.value? id = some value) :
    value ∈ document.descendants id := by
  unfold value? at hValue
  split at hValue
  · cases hValue
    exact h.mem_descendants.2 (.inl rfl)
  · split at hValue
    · exact h.mem_descendants_child (List.mem_of_find?_eq_some hValue)
    · cases hValue

end IsRead

end Document

end GraphQL
