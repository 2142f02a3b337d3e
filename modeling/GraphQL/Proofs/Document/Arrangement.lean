import GraphQL.Proofs.Document.Shape

/-! The order of the children of parts. The assembly takes the phrases inside a part in any order:
that arguments, directives and selections come one after another is up to the grammar, so it is
carried from there to the trees of parts, and from these to the documents that are read. -/
namespace GraphQL

/-- Whether a list is made of sections one after another, a section for each of the classes. -/
def InSections : List (PartType → Bool) → List PartType → Prop
  | [], types => types = []
  | p :: classes, types => ∃ first rest, types = first ++ rest ∧ (∀ type ∈ first, p type = true) ∧
      InSections classes rest

/-- Whether children of some types, in order, may stand under a part of a type. -/
def PartType.Arranges : PartType → List PartType → Prop
  | .document, below => below ≠ [] ∧ ∀ type ∈ below, type = .operation ∨ type = .namedFragment
  | .operation, below => InSections [(· == .variable), (· == .directive), isSelection] below
  | .variable, below => ∃ default directives, below = default ++ directives ∧
      default.length ≤ 1 ∧ (∀ type ∈ default, type.isSuppliedValue = true) ∧
      ∀ type ∈ directives, type = .directive
  | .directive, below => ∀ type ∈ below, type = .argument
  | .field, below => InSections [(· == .argument), (· == .directive), isSelection] below
  | .fragmentSpread, below => ∀ type ∈ below, type = .directive
  | .inlineFragment, below | .namedFragment, below =>
      InSections [(· == .directive), isSelection] below
  | .argument, below | .inputObjectField, below =>
      ∃ value, below = [value] ∧ value.isSuppliedValue = true
  | .listValue, below => ∀ type ∈ below, type.isSuppliedValue = true
  | .complexValue, below => ∀ type ∈ below, type = .inputObjectField
  | .scalarValue, below | .enumValue, below | .nullValue, below | .variableUsage, below =>
      below = []

/-- Whether phrases of a kind stand for parts of a type in a context. -/
def Symbol.standsFor (context : Context) : Symbol → PartType → Bool
  | .document, type => type == .document
  | .definition, type => type == .operation || type == .namedFragment
  | .variableDefinitions, type | .variableDefinition, type => type == .variable
  | .directive, type => type == .directive
  | .arguments, type => type == .argument
  | .argument, type => type == if context = .complexValue then .inputObjectField else .argument
  | .selectionSet, type | .selection, type => type.isSelection
  | .value, type => type.isSuppliedValue

namespace PartTree

/-- The types of the first parts of trees. -/
def types (trees : List PartTree) : List PartType := trees.map fun t => t.data.type

/-- A tree in which the children of each part come as they may. -/
inductive Arranged : PartTree → Prop where
  | node {location : Position} {data : PartData} {children : List PartTree}
      (hHere : data.type.Arranges (types children)) (hChildren : ∀ c ∈ children, c.Arranged) :
      Arranged (.node location data children)

/-- What lies in an arranged tree is arranged. -/
theorem Arranged.children {location : Position} {data : PartData} {children : List PartTree}
    (h : (PartTree.node location data children).Arranged) : ∀ c ∈ children, c.Arranged := by
  cases h with | node _ hChildren => exact hChildren

end PartTree

open PartTree

variable {source : Source} {context : Context} {trees : List PartTree} {tokens : List Token}

/-- A phrase of the kind gives a part of a type that stands for the kind. -/
theorem Symbol.standsFor_of_gives {x : Symbol} {label : Label} {data : PartData}
    (hGives : x.gives label.type = true) (hData : label.partData source context = .ok data) :
    x.standsFor context data.type = true := by
  have hNode := Label.type_of_partData hData
  by_cases hItem : label.type = .inputItem
  · rw [Label.type_of_inputItem hData hItem]
    rw [hItem] at hGives
    cases x <;> first | exact beq_self_eq_true _ | cases hGives
  · rw [hNode] at hGives hItem
    generalize data.type = type at *
    cases x <;> cases type <;> first | rfl | exact absurd rfl hItem | cases hGives

/-- A phrase that is no group stands for a part of a type that its kind has. -/
theorem Outline.standsFor_of_gives {x : Symbol} {label : Label} {children : List Outline}
    (hGives : x.gives label.type = true) (hFits : context.fits x = true)
    (h : (node label children).parts source context = .ok trees) :
    ∃ type, types trees = [type] ∧ x.standsFor context type = true := by
  obtain ⟨-, hGroup⟩ := Context.admits_of_fits label.type hFits hGives
  obtain ⟨data, below, hData, -, rfl⟩ := exists_of_parts hGroup h
  exact ⟨data.type, rfl, Symbol.standsFor_of_gives hGives hData⟩

/-- What is in a group stands for what the group stands for. -/
theorem Encloses.standsFor {x item : Symbol} {type : NodeType} {enclosure : Enclosure}
    (h : Encloses x type enclosure item) {inside : Context}
    (hGroup : context.group? type = some inside) (part : PartType) :
    item.standsFor inside part = x.standsFor context part := by
  cases h <;> cases context <;> cases hGroup <;> rfl

/-- Phrases of the grammar stand for parts of the types that their kind has. -/
theorem Forms.standsFor {x : Symbol} {phrase : Outline} (h : Forms x tokens phrase)
    (hFits : context.fits x = true) (hParts : phrase.parts source context = .ok trees) :
    ∀ type ∈ types trees, x.standsFor context type = true := by
  have hPart {x : Symbol} {label : Label} {children : List Outline} {context : Context}
      {trees : List PartTree} (hGives : x.gives label.type = true) (hFits : context.fits x = true)
      (hParts : (Outline.node label children).parts source context = .ok trees) :
      ∀ type ∈ types trees, x.standsFor context type = true := by
    obtain ⟨type, hTypes, hType⟩ := Outline.standsFor_of_gives hGives hFits hParts
    rw [hTypes]
    exact List.forall_mem_singleton.2 hType
  induction h generalizing context trees with
  | atom hValue hHead => exact hPart (by rw [hHead.type]; exact hValue) hFits hParts
  | @enclosed x item type enclosure hRule opening closing pieces hOpen hItems hClose ih =>
      rcases hRule.group_or_value hFits with ⟨inside, hGroup, hItem⟩ | ⟨hValue, rfl, -⟩
      · rw [Outline.parts_group hGroup] at hParts
        refine List.forall_mem_map.2 (Outline.forall_partsOf (fun c hc below hBelow => ?_) hParts)
        obtain ⟨p, hp, rfl⟩ := List.mem_map.1 hc
        intro child hChild
        rw [← hRule.standsFor hGroup]
        exact ih p hp hItem hBelow _ (List.mem_map_of_mem hChild)
      · exact hPart (by exact hValue) hFits hParts
  | argument hHead | directive hHead | field hHead | spread hHead | inline hHead
  | declaration default hHead | operation hHead | fragment hHead =>
      exact hPart (by rw [hHead.type]; rfl) hFits hParts
  | shorthand => exact hPart rfl hFits hParts
  | document => cases context <;> cases hFits

/-- A value stands for one part. -/
theorem Forms.exists_value {phrase : Outline} (h : Forms .value tokens phrase)
    (hFits : context.fits .value = true) (hParts : phrase.parts source context = .ok trees) :
    ∃ type, types trees = [type] ∧ type.isSuppliedValue = true := by
  cases phrase with
  | missing index => cases hParts
  | node label children =>
      have hGives : Symbol.value.gives label.type = true := h.isValue
      exact Outline.standsFor_of_gives hGives hFits hParts

/-- A definition stands for one part. -/
theorem Forms.exists_definition {phrase : Outline} (h : Forms .definition tokens phrase)
    (hParts : phrase.parts source .document = .ok trees) :
    ∃ type, types trees = [type] ∧ Symbol.definition.standsFor .document type = true := by
  cases h with
  | shorthand => exact Outline.standsFor_of_gives rfl rfl hParts
  | operation hHead | fragment hHead =>
      exact Outline.standsFor_of_gives (by rw [hHead.type]; rfl) rfl hParts
  | enclosed hRule => cases hRule

/-- Pieces of one kind stand for parts of the types that the kind has. -/
theorem forall_standsFor {x : Symbol} {pieces : List Piece} (hFits : context.fits x = true)
    (hPieces : ∀ p ∈ pieces, Forms x p.1 p.2)
    (h : Outline.partsAll source context (phrasesOf pieces) = .ok trees) :
    ∀ type ∈ types trees, x.standsFor context type = true := by
  refine List.forall_mem_map.2 (Outline.forall_partsOf (fun c hc below hBelow => ?_) h)
  obtain ⟨p, hp, rfl⟩ := List.mem_map.1 hc
  exact List.forall_mem_map.1 ((hPieces p hp).standsFor hFits hBelow)

section Selections

variable {directives selections : List Piece}
  (hDirectives : ∀ p ∈ directives, Forms .directive p.1 p.2)
  (hSelections : ∀ p ∈ selections, Forms .selectionSet p.1 p.2)
include hDirectives hSelections

/-- Directives with selection sets after them stand for directives with selections after them. -/
theorem inSections_selections
    (h : Outline.partsAll source context (phrasesOf (directives ++ selections)) = .ok trees)
    (hMarks : context.fits .directive = true) (hSets : context.fits .selectionSet = true) :
    InSections [(· == .directive), PartType.isSelection] (types trees) := by
  rw [phrasesOf_append] at h
  obtain ⟨marks, chosen, hHere, hThere, rfl⟩ := Outline.partsAll_append_eq_ok.1 h
  exact ⟨types marks, types chosen, List.map_append, forall_standsFor hMarks hDirectives hHere,
    types chosen, [], (List.append_nil _).symm, forall_standsFor hSets hSelections hThere, rfl⟩

/-- Parts of a first kind come before the directives, and those before the selections. -/
theorem inSections_before {x : Symbol} {first : List Piece}
    (hFirst : ∀ p ∈ first, Forms x p.1 p.2)
    (h : Outline.partsAll source context (phrasesOf (first ++ directives ++ selections)) =
      .ok trees)
    (hFits : context.fits x = true) (hMarks : context.fits .directive = true)
    (hSets : context.fits .selectionSet = true) :
    InSections [x.standsFor context, (· == .directive), PartType.isSelection] (types trees) := by
  rw [List.append_assoc, phrasesOf_append] at h
  obtain ⟨before, after, hHere, hThere, rfl⟩ := Outline.partsAll_append_eq_ok.1 h
  exact ⟨types before, types after, List.map_append, forall_standsFor hFits hFirst hHere,
    inSections_selections hDirectives hSelections hThere hMarks hSets⟩

end Selections

/-- The phrases inside one of the grammar are phrases of the grammar. -/
theorem Forms.inner {x : Symbol} {label : Label} {children : List Outline}
    (h : Forms x tokens (.node label children)) : ∀ c ∈ children, ∃ y inner, Forms y inner c := by
  have hPieces {y : Symbol} {pieces : List Piece} (h : ∀ p ∈ pieces, Forms y p.1 p.2) :
      ∀ c ∈ phrasesOf pieces, ∃ y inner, Forms y inner c :=
    List.forall_mem_map.2 fun p hp => ⟨y, p.1, h p hp⟩
  cases h with
  | atom => simp
  | enclosed hRule hOpen hItems hClose => exact hPieces hItems
  | argument hHead hValue => exact List.forall_mem_singleton.2 ⟨_, _, hValue⟩
  | directive hHead hArguments => exact hPieces (forall_mem_toList hArguments)
  | field hHead hArguments hDirectives hSelections =>
      rw [phrasesOf_append, phrasesOf_append]
      exact List.forall_mem_append.2 ⟨List.forall_mem_append.2
        ⟨hPieces (forall_mem_toList hArguments), hPieces hDirectives⟩,
        hPieces (forall_mem_toList hSelections)⟩
  | spread hHead hDirectives => exact hPieces hDirectives
  | inline hHead hDirectives hSelections | fragment hHead hDirectives hSelections =>
      rw [phrasesOf_append]
      exact List.forall_mem_append.2
        ⟨hPieces hDirectives, List.forall_mem_singleton.2 ⟨_, _, hSelections⟩⟩
  | declaration default hHead hEquals hConstant hDefault hDirectives =>
      refine List.forall_mem_append.2 ⟨?_, hPieces hDirectives⟩
      exact List.forall_mem_map.2 fun d hd => ⟨_, _, hDefault d (Option.mem_toList.1 hd)⟩
  | shorthand hSelections => exact List.forall_mem_singleton.2 ⟨_, _, hSelections⟩
  | operation hHead hVariables hDirectives hSelections =>
      rw [phrasesOf_append, phrasesOf_append]
      exact List.forall_mem_append.2 ⟨List.forall_mem_append.2
        ⟨hPieces (forall_mem_toList hVariables), hPieces hDirectives⟩,
        List.forall_mem_singleton.2 ⟨_, _, hSelections⟩⟩
  | document hFirst hDefinitions => exact hPieces hDefinitions

/-- A default stands for one part, so that at most one value is below a variable. -/
theorem arranges_variable {default : Option (Token × Piece)} {directives : List Piece}
    (hDefault : ∀ d ∈ default, Forms .value d.2.1 d.2.2)
    (hDirectives : ∀ p ∈ directives, Forms .directive p.1 p.2)
    (h : Outline.partsAll source .variable (defaultPhrases default ++ phrasesOf directives) =
      .ok trees) : PartType.variable.Arranges (types trees) := by
  obtain ⟨values, others, hValues, hOthers, rfl⟩ := Outline.partsAll_append_eq_ok.1 h
  have hOne : (types values).length ≤ 1 ∧ ∀ type ∈ types values, type.isSuppliedValue = true := by
    cases default with
    | none =>
        cases hValues
        exact ⟨Nat.zero_le 1, by simp [types]⟩
    | some d =>
        have hValue : d.2.2.parts source .variable = .ok values :=
          (Outline.partsAll_singleton ..).symm.trans hValues
        obtain ⟨type, hTypes, hType⟩ := (hDefault d rfl).exists_value rfl hValue
        rw [hTypes]
        exact ⟨Nat.le_refl 1, List.forall_mem_singleton.2 hType⟩
  exact ⟨types values, types others, List.map_append, hOne.1, hOne.2,
    fun type hType => eq_of_beq (forall_standsFor rfl hDirectives hOthers type hType)⟩

/-- Only arguments and fields of objects stand for nodes of one type. -/
theorem PartType.eq_of_node {type other : PartType} (h : other.node = type.node)
    (hItem : other.node ≠ .inputItem) : type = other := by
  cases other <;> cases type <;> first | rfl | exact absurd rfl hItem | cases h

/-- The parts below the part that a phrase stands for come as they may. -/
theorem Forms.arranges {x : Symbol} {label : Label} {children : List Outline}
    (h : Forms x tokens (.node label children)) {data : PartData}
    (hData : label.partData source context = .ok data)
    (hBelow : Outline.partsInside source label.type children = .ok trees) :
    data.type.Arranges (types trees) := by
  have hNode := Label.type_of_partData hData
  generalize data.type = type at hNode
  cases h with
  | atom hValue hHead =>
      cases hHead with
      | variableUsage | scalar | null | enumeration =>
          cases hBelow
          cases type <;> first | rfl | cases hNode
      | _ => cases hValue
  | enclosed hRule hOpen hItems hClose =>
      cases hRule with
      | listValue =>
          obtain rfl : type = .listValue := PartType.eq_of_node hNode (by decide)
          exact forall_standsFor rfl hItems hBelow
      | objectValue =>
          obtain rfl : type = .complexValue := PartType.eq_of_node hNode (by decide)
          exact fun type hType => eq_of_beq (forall_standsFor rfl hItems hBelow type hType)
      | _ => cases type <;> cases hNode
  | argument hHead hValue =>
      rw [hHead.type] at hNode hBelow
      have hOne : ∃ only, types trees = [only] ∧ only.isSuppliedValue = true :=
        hValue.exists_value rfl hBelow
      cases type <;> first | exact hOne | cases hNode
  | directive hHead hArguments =>
      rw [hHead.type] at hNode hBelow
      obtain rfl : type = .directive := PartType.eq_of_node hNode (by decide)
      have hAll := forall_standsFor rfl (forall_mem_toList hArguments) hBelow
      exact fun type hType => eq_of_beq (hAll type hType)
  | field hHead hArguments hDirectives hSelections =>
      rw [hHead.type] at hNode hBelow
      obtain rfl : type = .field := PartType.eq_of_node hNode (by decide)
      exact inSections_before hDirectives (forall_mem_toList hSelections)
        (forall_mem_toList hArguments) hBelow rfl rfl rfl
  | spread hHead hDirectives =>
      rw [hHead.type] at hNode hBelow
      obtain rfl : type = .fragmentSpread := PartType.eq_of_node hNode (by decide)
      exact fun type hType => eq_of_beq (forall_standsFor rfl hDirectives hBelow type hType)
  | inline hHead hDirectives hSelections =>
      rw [hHead.type] at hNode hBelow
      obtain rfl : type = .inlineFragment := PartType.eq_of_node hNode (by decide)
      exact inSections_selections hDirectives (List.forall_mem_singleton.2 hSelections)
        hBelow rfl rfl
  | declaration default hHead hEquals hConstant hDefault hDirectives =>
      rw [hHead.type] at hNode hBelow
      obtain rfl : type = .variable := PartType.eq_of_node hNode (by decide)
      exact arranges_variable hDefault hDirectives hBelow
  | shorthand hSelections =>
      obtain rfl : type = .operation := PartType.eq_of_node hNode (by decide)
      exact ⟨[], types trees, rfl, by simp, [], types trees, rfl, by simp, types trees, [],
        (List.append_nil _).symm, hSelections.standsFor rfl
          ((Outline.partsAll_singleton ..).symm.trans hBelow), rfl⟩
  | operation hHead hVariables hDirectives hSelections =>
      rw [hHead.type] at hNode hBelow
      obtain rfl : type = .operation := PartType.eq_of_node hNode (by decide)
      exact inSections_before hDirectives (List.forall_mem_singleton.2 hSelections)
        (forall_mem_toList hVariables) hBelow rfl rfl rfl
  | fragment hHead hDirectives hSelections =>
      rw [hHead.type] at hNode hBelow
      obtain rfl : type = .namedFragment := PartType.eq_of_node hNode (by decide)
      exact inSections_selections hDirectives (List.forall_mem_singleton.2 hSelections)
        hBelow rfl rfl
  | document =>
      have hAdmits := Label.admits_of_partData hData
      cases context <;> cases hAdmits

/-- A document has definitions below its root. -/
theorem Forms.arranges_document {label : Label} {children : List Outline}
    (h : Forms .document tokens (.node label children))
    (hTrees : Outline.partsAll source .document children = .ok trees) :
    PartType.document.Arranges (types trees) := by
  cases h with
  | enclosed hRule => cases hRule
  | @document definitions first rest hFirst hDefinitions =>
      refine ⟨fun hNone => ?_, fun type hType => ?_⟩
      · -- The tokens of a document are not empty, so it has a definition, and that gives a part.
        cases definitions with
        | nil => cases hFirst
        | cons definition others =>
            have hDefinition := hDefinitions definition List.mem_cons_self
            have hCut : Outline.partsAll source .document ([definition.2] ++ phrasesOf others) =
                .ok trees := hTrees
            obtain ⟨a, b, hHere, -, rfl⟩ := Outline.partsAll_append_eq_ok.1 hCut
            obtain ⟨type, hTypes, -⟩ :=
              hDefinition.exists_definition ((Outline.partsAll_singleton ..).symm.trans hHere)
            rw [types, List.map_append, ← types, hTypes] at hNone
            cases hNone
      · simpa [Symbol.standsFor] using forall_standsFor rfl hDefinitions hTrees type hType

/-- Phrases of the grammar stand for trees in which children come as they may. -/
theorem Outline.inherits_arranged (source : Source) :
    Inherits source (fun phrase => ∃ x tokens, Forms x tokens phrase) PartTree.Arranged where
  phrases := fun ⟨_, _, h⟩ => h.inner
  part := fun ⟨_, _, h⟩ hData hBelow hTrees => .node (h.arranges hData hBelow) hTrees

/-- The numbers that trees are laid out from name parts of the types of the trees. -/
theorem PartTree.types_places {document : Document} {owner start : Nat}
    (hShaped : ∀ t ∈ trees, t.Shaped)
    (hLies : Lies document.parts.toList start (layoutAll start owner trees)) :
    (places start trees).map document.type? = (types trees).map some := by
  induction trees generalizing start with
  | nil => rfl
  | cons tree rest ih =>
      obtain ⟨hTree, hTrees⟩ := List.forall_mem_cons.1 hShaped
      obtain ⟨hHere, hThere⟩ := Lies.append hLies
      rw [length_layout] at hThere
      rw [places, List.map_cons, ih hTrees hThere, Document.Roots.type?_eq ⟨hTree, hHere⟩]
      rfl

namespace Document

variable {document : Document} {id : Nat}

/-- The children of a part are of the types of the trees below it. -/
theorem Roots.types_children {above : Option PartId} {location : Position} {data : PartData}
    {below : List PartTree} (h : document.Roots id above (.node location data below)) :
    (document.children id).parts.map document.type? = (types below).map some := by
  rw [h.children_eq]
  apply types_places _ (Lies.cons h.lies).2
  cases h.shaped with | node _ _ hChildren => exact hChildren

/-- Where all children of a part have names, none is left out of those with names. -/
theorem ids_namedChildren
    (h : ∀ child ∈ (document.children id).parts, ∃ name, document.name? child = some name) :
    (document.namedChildren id).map Prod.snd = (document.children id).parts := by
  rw [namedChildren]
  generalize (document.children id).parts = children at h ⊢
  induction children with
  | nil => rfl
  | cons child rest ih =>
      obtain ⟨⟨name, hName⟩, hRest⟩ := List.forall_mem_cons.1 h
      have hHead : document.named? child = some (name, child) := by
        rw [named?, hName]
        rfl
      rw [List.filterMap_cons, hHead, List.map_cons, ih hRest]

variable {part : Part}

/-- The children of each part of a document that was read come as they may. -/
theorem IsRead.arranges (h : document.IsRead) (hPart : document.part? id = some part) :
    ∃ types, (document.children id).parts.map document.type? = types.map some ∧
      part.type.Arranges types := by
  obtain ⟨above, ⟨location, data, below⟩, hArranged, hRoots⟩ :=
    IsRead.exists_tree (P := PartTree.Arranged)
      (fun hForms hTrees => .node (hForms.arranges_document hTrees)
        (Outline.forall_partsAll (Outline.inherits_arranged _) _ hForms.inner hTrees))
      h PartTree.Arranged.children hPart
  have hType : document.type? id = some data.type := hRoots.type?_eq
  rw [type?, hPart] at hType
  rw [show part.type = data.type from Option.some.inj hType]
  cases hArranged with
  | node hHere _ => exact ⟨types below, hRoots.types_children, hHere⟩

/-- The one child of an argument or of a field of an object is its value. -/
theorem IsRead.exists_value (h : document.IsRead) (hPart : document.part? id = some part)
    (hItem : part.type = .argument ∨ part.type = .inputObjectField) :
    ∃ value, (document.children id).parts = [value] ∧ document.value? id = some value := by
  obtain ⟨types, hTypes, hArranges⟩ := h.arranges hPart
  obtain ⟨type, rfl, hValue⟩ : ∃ type, types = [type] ∧ type.isSuppliedValue = true := by
    rcases hItem with hItem | hItem <;> rwa [hItem] at hArranges
  obtain ⟨child, hChildren, hChild⟩ := List.map_eq_singleton_iff.1 hTypes
  have hType : document.type? id = some part.type := by
    rw [type?, hPart]
    rfl
  exact ⟨child, hChildren, value?_of_child hType hItem hChildren hChild hValue⟩

end Document

/-- Whether what stands below each part of a document is what may stand there, in its place. -/
structure Document.Arranged (document : Document) : Prop where
  root : document.type? 0 = some .document
  below : ∀ (id : Nat) (part : Part), document.part? id = some part →
    ∃ types, (document.children id).parts.map document.type? = types.map some ∧
      part.type.Arranges types
  /-- The one child of an argument or of a field of an object is its value. -/
  value : ∀ (id : Nat) (part : Part), document.part? id = some part →
    part.type = .argument ∨ part.type = .inputObjectField →
    ∃ value, (document.children id).parts = [value] ∧ document.value? id = some value
  /-- All children of an object have names, and its field map has the first of each name. -/
  fields : ∀ (id : Nat) (part : Part) (fields : List (String × PartId)),
    document.part? id = some part → part.data = .suppliedValue (.complex fields) →
    (document.namedChildren id).map Prod.snd = (document.children id).parts ∧
      Firsts (document.namedChildren id) fields

/-- In every document that is read from a text, the children of each part come in the order of the
grammar. -/
theorem Source.document_arranged {source : Source} {document : Document} {events : List PartAdded}
    (h : source.document = .ok (document, events)) : document.Arranged := by
  have hRead : document.IsRead := ⟨source, events, h⟩
  constructor
  case root =>
    obtain ⟨location, trees, -, -, hRoots⟩ :=
      Document.IsRead.exists_root (P := fun _ => True) (fun _ _ => trivial) hRead
    exact hRoots.type?_eq
  case below => exact fun id part hPart => hRead.arranges hPart
  case value => exact fun id part hPart hItem => hRead.exists_value hPart hItem
  case fields =>
    intro id part fields hPart hData
    have hComplex : document.supplied? id = some (.complex fields) := by
      rw [Document.supplied?, hPart, Option.bind_some, hData]
      rfl
    refine ⟨Document.ids_namedChildren fun child hChild => ?_, hRead.firsts_of_complex hComplex⟩
    obtain ⟨name, field, hField, hFieldData⟩ :=
      hRead.inputObjectField_of_complex hComplex hChild
    refine ⟨name, ?_⟩
    rw [Document.name?, hField, Option.bind_some, hFieldData]
    rfl

/-- A variable with a default and a directive, and an object with a field that is repeated. -/
theorem Source.document_arranged_repeated : ∃ document events,
    Source.document { text := "query($v:T=1@c){a(x:{y:1 z:[] y:$v})@b}" } =
      .ok (document, events) ∧ document.Arranged := by
  have hRead : (Source.document
      { text := "query($v:T=1@c){a(x:{y:1 z:[] y:$v})@b}" }).toOption.isSome = true := by
    decide +kernel
  cases hDocument : Source.document { text := "query($v:T=1@c){a(x:{y:1 z:[] y:$v})@b}" } with
  | error error =>
      rw [hDocument] at hRead
      cases hRead
  | ok result => exact ⟨result.1, result.2, rfl, Source.document_arranged hDocument⟩

end GraphQL
