import GraphQL.Proofs.Document.Assembly
import GraphQL.Proofs.Syntax.Splicing

/-! A document is the tree of its text with the nodes renumbered. The nodes that are no collections
are the parts, in the order of the walk over the tree. -/
namespace GraphQL

/-- Whether a part says what its node says: it is of the type that belongs to the node's, and has
its texts. Where a name with a value is a field of an object is up to the node above. -/
def Label.Describes (source : Source) (inObject : Prop) (label : Label) : PartData → Prop
  | .document => label.type = .document
  | .operation type name => label.type = .operation ∧ name = label.secondary.map source.slice ∧
      match label.primary with
      | none => type = .query
      | some keyword => source.slice keyword = type.keyword
  | .variable name type => label.type = .variable ∧ label.primary.map source.slice = some name ∧
      ∃ text, label.secondary.map source.slice = some text ∧ TypeExpr.read text = .ok type
  | .directive name => label.type = .directive ∧ label.primary.map source.slice = some name
  | .field name aliasName => label.type = .field ∧ label.primary.map source.slice = some name ∧
      label.secondary.map source.slice = aliasName
  | .fragmentSpread name =>
      label.type = .fragmentSpread ∧ label.primary.map source.slice = some name
  | .inlineFragment condition =>
      label.type = .inlineFragment ∧ label.primary.map source.slice = condition
  | .namedFragment name condition => label.type = .namedFragment ∧
      label.primary.map source.slice = some name ∧ label.secondary.map source.slice = some condition
  | .argument name =>
      label.type = .inputItem ∧ ¬inObject ∧ label.primary.map source.slice = some name
  | .inputObjectField name =>
      label.type = .inputItem ∧ inObject ∧ label.primary.map source.slice = some name
  | .suppliedValue (.scalar kind text) => label.type = .scalarValue ∧
      label.scalarKind = some kind ∧ label.primary.map source.slice = some text
  | .suppliedValue (.enumeration name) =>
      label.type = .enumValue ∧ label.primary.map source.slice = some name
  | .suppliedValue .null => label.type = .nullValue
  | .suppliedValue .list => label.type = .listValue
  | .suppliedValue (.complex _) => label.type = .complexValue
  | .suppliedValue (.variableUsage name) =>
      label.type = .variableValue ∧ label.primary.map source.slice = some name

/-- Whether a part of the document stands for the node at `place`, where part `i` stands for the
node at the `i`th of the places that are kept. -/
structure StandsFor (source : Source) (tree : SyntaxTree) (kept : List Nat) (place : Nat)
    (node : Node) (part : Part) : Prop where
  location : part.location = node.label.location
  data : node.label.Describes source
    ((tree.owner? place).bind tree.typeAt? = some .complexValue) part.data
  /-- The part above stands for the nearest node above that is kept. Only the first has none. -/
  parent : (part.parent = none ∧ kept.head? = some place) ∨
    ∃ owner above, part.parent = some owner ∧ kept[owner]? = some above ∧
      tree.owner? place = some above
  /-- The children stand for the contents of the node, in order. -/
  children : part.children.parts.map (fun child => kept[child]?) = (tree.contents place).map some

/-- Whether the document is the tree with the nodes at the places `kept` renumbered. -/
structure Renumbering (source : Source) (tree : SyntaxTree) (document : Document)
    (kept : List Nat) : Prop where
  size : document.size = kept.length
  parts : ∀ (i : PartId) (place : Nat), kept[i]? = some place → ∃ node part,
    tree.nodes[place]? = some node ∧ document.part? i = some part ∧
      StandsFor source tree kept place node part

/-- The type of an operation is told by its keyword alone. -/
theorem OperationType.keyword_of_ofKeyword? {keyword : String} {type : OperationType}
    (h : OperationType.ofKeyword? keyword = some type) : keyword = type.keyword := by
  unfold ofKeyword? at h
  split at h
  · cases h; assumption
  · split at h
    · cases h; assumption
    · split at h
      · cases h; assumption
      · cases h

namespace Label

variable {source : Source} {label : Label} {context : Context} {data : PartData}

/-- Numbers of other parts do not matter to what a part says of its node. -/
theorem describes_bare {inObject : Prop} :
    label.Describes source inObject data.bare ↔ label.Describes source inObject data := by
  cases data with
  | suppliedValue value => cases value <;> rfl
  | _ => rfl

theorem primaryText_eq_ok {text : String} :
    label.primaryText source = .ok text ↔ label.primary.map source.slice = some text := by
  unfold primaryText
  cases label.primary <;> simp

theorem secondaryText_eq_ok {text : String} :
    label.secondaryText source = .ok text ↔ label.secondary.map source.slice = some text := by
  unfold secondaryText
  cases label.secondary <;> simp

/-- The type of a variable is read from the secondary text. -/
theorem declaredType_eq_ok {type : TypeExpr} (h : label.declaredType source = .ok type) :
    ∃ text, label.secondary.map source.slice = some text ∧ TypeExpr.read text = .ok type := by
  obtain ⟨text, hText, hType⟩ := except_bind_eq_ok.1 h
  refine ⟨text, secondaryText_eq_ok.1 hText, ?_⟩
  split at hType
  · next found hFound =>
      cases hType
      exact hFound
  · cases hType

/-- An operation is described by its keyword and its name. -/
theorem describes_operation {type : OperationType} {inObject : Prop}
    (hType : label.type = .operation) (h : label.operationType source = .ok type) :
    label.Describes source inObject (.operation type (label.secondary.map source.slice)) := by
  refine ⟨hType, rfl, ?_⟩
  unfold operationType at h
  cases hPrimary : label.primary with
  | none =>
      simp only [hPrimary, Option.map_none] at h
      cases h
      rfl
  | some keyword =>
      simp only [hPrimary, Option.map_some] at h
      split at h
      · next found hFound =>
          cases h
          exact OperationType.keyword_of_ofKeyword? hFound
      · cases h

/-- A label gives data only where a part of its type is admitted. -/
theorem admits_of_partData (h : label.partData source context = .ok data) :
    context.admits label.type = true := by
  unfold partData at h
  cases hAdmits : context.admits label.type with
  | true => rfl
  | false => simp [hAdmits] at h

/-- The part of a node says what the node says. -/
theorem describes_of_partData (h : label.partData source context = .ok data) :
    label.Describes source (context = .complexValue) data := by
  have hAdmits := admits_of_partData h
  unfold partData at h
  simp only [hAdmits, Bool.not_true, Bool.false_eq_true, if_false] at h
  cases hType : label.type <;> simp only [hType] at h
  case operation =>
    obtain ⟨type, hOperation, hData⟩ := except_bind_eq_ok.1 h
    cases hData
    exact describes_operation hType hOperation
  case «variable» =>
    obtain ⟨name, hName, hRest⟩ := except_bind_eq_ok.1 h
    obtain ⟨type, hDeclared, hData⟩ := except_bind_eq_ok.1 hRest
    cases hData
    exact ⟨hType, primaryText_eq_ok.1 hName, declaredType_eq_ok hDeclared⟩
  case inlineFragment =>
    cases h
    exact ⟨hType, rfl⟩
  case field | directive | fragmentSpread | enumValue | variableValue =>
    obtain ⟨name, hName, hData⟩ := except_bind_eq_ok.1 h
    cases hData
    first
      | exact ⟨hType, primaryText_eq_ok.1 hName⟩
      | exact ⟨hType, primaryText_eq_ok.1 hName, rfl⟩
  case namedFragment =>
    obtain ⟨name, hName, hRest⟩ := except_bind_eq_ok.1 h
    obtain ⟨condition, hCondition, hData⟩ := except_bind_eq_ok.1 hRest
    cases hData
    exact ⟨hType, primaryText_eq_ok.1 hName, secondaryText_eq_ok.1 hCondition⟩
  case inputItem =>
    obtain ⟨name, hName, hData⟩ := except_bind_eq_ok.1 h
    by_cases hContext : context = .complexValue
    · rw [if_pos hContext] at hData
      cases hData
      exact ⟨hType, hContext, primaryText_eq_ok.1 hName⟩
    · rw [if_neg hContext] at hData
      cases hData
      exact ⟨hType, hContext, primaryText_eq_ok.1 hName⟩
  case scalarValue =>
    split at h
    · next kind hKind =>
        obtain ⟨text, hText, hData⟩ := except_bind_eq_ok.1 h
        cases hData
        exact ⟨hType, hKind, primaryText_eq_ok.1 hText⟩
    · cases h
  case nullValue | listValue | complexValue =>
    cases h
    exact hType
  all_goals cases h

end Label

/-- A phrase with nothing in it that a walk leaves out: a name has one value, and the values that
are single tokens hold nothing. -/
inductive Outline.Full : Outline → Prop where
  | node {label : Label} {children : List Outline}
      (hItem : label.type.inside = .firstValue → ∃ value, children = [value])
      (hLeaf : label.type.isValue = true → label.type.inside = .nothing → children = [])
      (hChildren : ∀ c ∈ children, c.Full) : Full (.node label children)

/-- A phrase all of whose inside is walked is full if what is in it is. -/
theorem Outline.Full.of_all {label : Label} {children : List Outline} {context : Context}
    (hInside : label.type.inside = .all context) (hChildren : ∀ c ∈ children, c.Full) :
    Full (.node label children) :=
  .node (fun h => by rw [hInside] at h; cases h) (fun _ h => by rw [hInside] at h; cases h)
    hChildren

/-- A collection is full if what is in it is. -/
theorem Outline.Full.of_group {type : NodeType} {children : List Outline} (location : Position)
    (hInside : type.inside = .nothing) (hValue : type.isValue = false)
    (hChildren : ∀ c ∈ children, c.Full) : Full (.node { type, location } children) :=
  .node (fun h => by rw [hInside] at h; cases h) (fun h _ => by rw [hValue] at h; cases h)
    hChildren

/-- A phrase that was read has nothing in it that the walk would leave out. -/
theorem Forms.full {x : Symbol} {tokens : List Token} {phrase : Outline}
    (h : Forms x tokens phrase) : phrase.Full := by
  have hPhrases {pieces : List Piece} (hPieces : ∀ p ∈ pieces, p.2.Full) :
      ∀ c ∈ phrasesOf pieces, c.Full := List.forall_mem_map.2 hPieces
  have hInside {type : NodeType} {head : List Token} {label : Label} {context : Context}
      (hHead : Head type head label) (hType : type.inside = .all context) :
      label.type.inside = .all context := by rw [hHead.type, hType]
  induction h with
  | atom hValue hHead =>
      refine .node (fun h => ?_) (fun _ _ => rfl) (by simp)
      cases hHead <;> first | exact absurd hValue (by decide) | cases h
  | @enclosed _ _ _ _ hRule opening _ _ _ _ _ ih =>
      cases hRule with
      | listValue | objectValue => exact .of_all rfl (hPhrases ih)
      | _ => exact .of_group opening.start rfl rfl (hPhrases ih)
  | @argument head label value hHead _ ih =>
      refine .node (fun _ => ⟨_, rfl⟩) (fun h => ?_) (by simpa using ih)
      rw [hHead.type] at h
      cases h
  | directive hHead _ ih => exact .of_all (hInside hHead rfl) (hPhrases (forall_mem_toList ih))
  | field hHead _ _ _ ihArguments ihDirectives ihSelections =>
      exact .of_all (hInside hHead rfl) (hPhrases (List.forall_mem_append.2
        ⟨List.forall_mem_append.2 ⟨forall_mem_toList ihArguments, ihDirectives⟩,
          forall_mem_toList ihSelections⟩))
  | spread hHead _ ih => exact .of_all (hInside hHead rfl) (hPhrases ih)
  | inline hHead _ _ ihDirectives ihSelections
  | fragment hHead _ _ ihDirectives ihSelections =>
      exact .of_all (hInside hHead rfl) (hPhrases (List.forall_mem_append.2
        ⟨ihDirectives, by simpa using ihSelections⟩))
  | declaration default hHead _ _ _ _ ihDefault ihDirectives =>
      refine .of_all (hInside hHead rfl) (List.forall_mem_append.2 ⟨?_, hPhrases ihDirectives⟩)
      cases default with
      | none => simp [defaultPhrases]
      | some d => simpa [defaultPhrases] using ihDefault d rfl
  | shorthand _ ih => exact .of_all rfl (by simpa using ih)
  | operation hHead _ _ _ ihVariables ihDirectives ihSelections =>
      exact .of_all (hInside hHead rfl) (hPhrases (List.forall_mem_append.2
        ⟨List.forall_mem_append.2 ⟨forall_mem_toList ihVariables, ihDirectives⟩,
          by simpa using ihSelections⟩))
  | document _ _ ih => exact .of_group _ rfl rfl (hPhrases ih)

/-- Only collections are seen through. -/
theorem Context.isCollection_of_group {context inside : Context} {type : NodeType}
    (h : context.group? type = some inside) : type.isCollection = true := by
  cases context <;> cases type <;> first | rfl | cases h

/-- An object is no collection, and neither is what a collection is in. -/
theorem Context.group_not_object {context inside : Context} {type : NodeType}
    (h : context.group? type = some inside) : context ≠ .complexValue ∧ inside ≠ .complexValue := by
  cases context <;> cases type <;> cases h <;> decide

/-- A collection is no part. -/
theorem Context.not_collection_of_admits {context : Context} {type : NodeType}
    (h : context.admits type = true) : type.isCollection = false := by
  cases context <;> cases type <;> first | rfl | cases h

/-- A part that has nothing walked inside is a value. -/
theorem Context.isValue_of_admits {context : Context} {type : NodeType}
    (hAdmits : context.admits type = true) (hInside : type.inside = .nothing) :
    type.isValue = true := by
  cases type <;> first
    | rfl
    | exact absurd hInside (by decide)
    | (cases context <;> exact absurd hAdmits (by decide))

/-- What stands inside a part is met in one context, which is that of an object just if the part is
one. -/
theorem Outline.partsAll_of_partsInside {source : Source} {label : Label}
    {children : List Outline} {below : List PartTree} (hFull : (node label children).Full)
    {context : Context} (hAdmits : context.admits label.type = true)
    (h : partsInside source label.type children = .ok below) :
    ∃ inside, partsAll source inside children = .ok below ∧
      (inside = .complexValue ↔ label.type = .complexValue) := by
  cases hFull with
  | node hItem hLeaf hChildren =>
      unfold partsInside at h
      cases hInside : label.type.inside with
      | all inside =>
          rw [hInside] at h
          refine ⟨inside, h, ?_⟩
          cases hType : label.type <;> rw [hType] at hInside <;> cases hInside <;> decide
      | firstValue =>
          rw [hInside] at h
          obtain ⟨value, rfl⟩ := hItem hInside
          refine ⟨.value, (partsAll_singleton source .value value).trans h, ?_⟩
          cases hType : label.type <;> rw [hType] at hInside <;> cases hInside
          decide
      | nothing =>
          rw [hInside] at h
          cases h
          obtain rfl := hLeaf (Context.isValue_of_admits hAdmits hInside) hInside
          refine ⟨.value, rfl, ?_⟩
          cases hType : label.type <;> first | decide | exact absurd (hType ▸ hInside) (by decide)

namespace PartTree

theorem countAll_append (first second : List PartTree) :
    countAll (first ++ second) = countAll first + countAll second := by
  induction first with
  | nil => simp [countAll]
  | cons tree rest ih => rw [List.cons_append, countAll, countAll, ih, Nat.add_assoc]

theorem places_append (start : PartId) (first second : List PartTree) :
    places start (first ++ second) =
      places start first ++ places (start + countAll first) second := by
  induction first generalizing start with
  | nil => simp [places, countAll]
  | cons tree rest ih => rw [List.cons_append, places, places, ih, countAll, Nat.add_assoc]; rfl

theorem layoutAll_append (start parent : PartId) (first second : List PartTree) :
    layoutAll start parent (first ++ second) =
      layoutAll start parent first ++ layoutAll (start + countAll first) parent second := by
  induction first generalizing start with
  | nil => simp [layoutAll, countAll]
  | cons tree rest ih =>
      rw [List.cons_append, layoutAll, layoutAll, ih, countAll, Nat.add_assoc, List.append_assoc]

theorem parent_holdAll (trees : List PartTree) (start : PartId) (part : Part) :
    (holdAll start trees part).parent = part.parent := by
  induction trees generalizing start part with
  | nil => rfl
  | cons tree rest ih =>
      rw [holdAll, ih]
      unfold Part.hold Part.register
      split <;> rfl

end PartTree

section Numbering

open Outline (splicedAll keptAll layoutAll)

variable {source : Source} {tree : SyntaxTree} {document : Document} {kept : List Nat}

/-- Whether part `i` stands for the node at the `i`th of the places that are kept. -/
def Stands (source : Source) (tree : SyntaxTree) (document : Document) (kept : List Nat)
    (i : Nat) : Prop :=
  ∃ place node part, kept[i]? = some place ∧ tree.nodes[place]? = some node ∧
    document.part? i = some part ∧ StandsFor source tree kept place node part

/-- What a phrase in the node at `parent` is met in: a context inside the part `owner`, which stands
for the nearest node that is kept. -/
def Surrounds (tree : SyntaxTree) (kept : List Nat) (context : Context) (parent owner : Nat) :
    Prop :=
  ∃ above, tree.nearest? parent = some above ∧ kept[owner]? = some above ∧
    (context = .complexValue ↔ tree.typeAt? above = some .complexValue)

/-- Whether some trees of parts, numbered from `first` on, stand for nodes of which those at `here`
are kept and those at `tops` lie in no other. -/
structure Numbers (source : Source) (tree : SyntaxTree) (document : Document) (kept : List Nat)
    (first : Nat) (trees : List PartTree) (here tops : List Nat) : Prop where
  count : here.length = PartTree.countAll trees
  tops : (PartTree.places first trees).map (fun child => kept[child]?) = tops.map some
  stands : ∀ i, first ≤ i → i < first + PartTree.countAll trees →
    Stands source tree document kept i

/-- The numbers of later trees follow on those of the earlier ones. -/
theorem Numbers.append {first : Nat} {trees others : List PartTree}
    {here there tops more : List Nat}
    (h : Numbers source tree document kept first trees here tops)
    (hMore : Numbers source tree document kept (first + PartTree.countAll trees) others there
      more) :
    Numbers source tree document kept first (trees ++ others) (here ++ there) (tops ++ more) := by
  refine ⟨?_, ?_, fun i hFirst hLast => ?_⟩
  · rw [List.length_append, PartTree.countAll_append, h.count, hMore.count]
  · rw [PartTree.places_append, List.map_append, List.map_append, h.tops, hMore.tops]
  · rw [PartTree.countAll_append] at hLast
    rcases Nat.lt_or_ge i (first + PartTree.countAll trees) with hi | hi
    · exact h.stands i hFirst hi
    · exact hMore.stands i hi (by omega)

/-- A part stands for its node if what stands in it does for the contents. -/
theorem Numbers.node {first : Nat} {start parent : Nat} {holder : Option PartId} {label : Label}
    {children : List Outline} {data : PartData} {below : List PartTree} {here : List Nat}
    (hNodes : Lies tree.nodes.toList start ((Outline.node label children).layout start parent))
    (hParts : Lies document.parts.toList first
      ((PartTree.node label.location data below).layout first holder))
    (hKept : kept[first]? = some start)
    (hData : label.Describes source
      ((tree.owner? start).bind tree.typeAt? = some .complexValue) data)
    (hHolder : (holder = none ∧ kept.head? = some start) ∨ ∃ owner above, holder = some owner ∧
      kept[owner]? = some above ∧ tree.owner? start = some above)
    (h : Numbers source tree document kept (first + 1) below here
      (splicedAll (start + 1) children)) :
    Numbers source tree document kept first [.node label.location data below] (start :: here)
      [start] := by
  have hNode := SyntaxTree.getElem?_toList (Lies.cons hNodes).1
  have hPart : document.part? first = some (PartTree.holdAll (first + 1) below
      ⟨holder, { owner := first }, label.location, data⟩) := by
    rw [Document.part?, ← Array.getElem?_toList]
    exact (Lies.cons hParts).1
  obtain ⟨hBare, hChildren, hLocation⟩ := PartTree.holdAll_says below (first + 1)
    ⟨holder, { owner := first }, label.location, data⟩
  have hCount : PartTree.countAll [PartTree.node label.location data below] =
      PartTree.countAll below + 1 := by simp [PartTree.countAll, PartTree.count]
  refine ⟨?_, ?_, fun i hFirst hLast => ?_⟩
  · rw [List.length_cons, h.count, hCount]
  · rw [PartTree.places, PartTree.places, List.map_singleton, List.map_singleton, hKept]
  · rcases Nat.eq_or_lt_of_le hFirst with rfl | hi
    · refine ⟨start, _, _, hKept, hNode, hPart, hLocation, ?_, ?_, ?_⟩
      · rw [← Label.describes_bare, hBare, Label.describes_bare]
        exact hData
      · rw [PartTree.parent_holdAll]
        exact hHolder
      · rw [hChildren, SyntaxTree.contents_layout label children start parent hNodes]
        exact h.tops
    · exact h.stands i hi (by omega)

mutual

/-- The parts of a phrase stand for its nodes. -/
theorem numbers_parts : (phrase : Outline) → phrase.Full → (context : Context) →
    (start parent first owner : Nat) → (trees : List PartTree) →
    phrase.parts source context = .ok trees →
    Lies tree.nodes.toList start (phrase.layout start parent) →
    Lies document.parts.toList first (PartTree.layoutAll first owner trees) →
    Lies kept first (phrase.kept start) → parent < start →
    Surrounds tree kept context parent owner →
    Numbers source tree document kept first trees (phrase.kept start) (phrase.spliced start)
  | .missing _, hFull, _, _, _, _, _, _, _, _, _, _, _, _ => nomatch hFull
  | .node label children, hFull, context, start, parent, first, owner, trees, h, hNodes, hParts,
      hKept, hLt, hSurrounds => by
      have hNode := SyntaxTree.getElem?_toList (Lies.cons hNodes).1
      have hBelow := (Lies.cons hNodes).2
      have hChildren : ∀ c ∈ children, c.Full := by
        cases hFull with | node _ _ hChildren => exact hChildren
      obtain ⟨above, hNearest, hOwner, hContext⟩ := hSurrounds
      rw [Outline.parts] at h
      cases hGroup : context.group? label.type with
      | some inside =>
          rw [hGroup] at h
          have hCollection := Context.isCollection_of_group hGroup
          obtain ⟨hNot, hInside⟩ := Context.group_not_object hGroup
          have hUp := SyntaxTree.nearest?_of_collection hNode hCollection rfl hLt
          rw [Outline.kept, if_pos hCollection] at hKept ⊢
          rw [Outline.spliced, if_pos hCollection]
          refine numbers_partsAll children hChildren inside (start + 1) start first owner trees h
            hBelow hParts hKept (Nat.lt_succ_self _) ⟨above, hUp.trans hNearest, hOwner, ?_⟩
          rw [← hContext]
          exact ⟨fun h => absurd h hInside, fun h => absurd h hNot⟩
      | none =>
          simp only [hGroup, except_bind_eq_ok, except_map_eq_ok] at h
          obtain ⟨data, hData, below, hInside, rfl⟩ := h
          have hAdmits := Label.admits_of_partData hData
          have hPart := Context.not_collection_of_admits hAdmits
          obtain ⟨inside, hAll, hObject⟩ :=
            Outline.partsAll_of_partsInside hFull hAdmits hInside
          have hNot : ¬label.type.isCollection = true := by rw [hPart]; decide
          rw [Outline.kept, if_neg hNot] at hKept ⊢
          rw [Outline.spliced, if_neg hNot]
          obtain ⟨hHere, hRest⟩ := Lies.cons hKept
          have hAbove : tree.owner? start = some above := by
            rw [SyntaxTree.owner?, hNode]
            exact hNearest
          rw [PartTree.layoutAll, PartTree.layoutAll, List.append_nil] at hParts
          refine .node hNodes hParts hHere ?_ (.inr ⟨owner, above, rfl, hOwner, hAbove⟩) ?_
          · rw [hAbove, Option.bind_some, ← hContext]
            exact Label.describes_of_partData hData
          · refine numbers_partsAll children hChildren inside (start + 1) start (first + 1) first
              below hAll hBelow (Lies.cons hParts).2 hRest (Nat.lt_succ_self _)
              ⟨start, SyntaxTree.nearest?_of_part hNode hPart, hHere, ?_⟩
            rw [hObject, SyntaxTree.typeAt?, hNode]
            simp

/-- Nodes without collections and parts are numbered alike, from wherever the phrases start. -/
theorem numbers_partsAll : (phrases : List Outline) → (∀ c ∈ phrases, c.Full) →
    (context : Context) → (start parent first owner : Nat) → (trees : List PartTree) →
    Outline.partsAll source context phrases = .ok trees →
    Lies tree.nodes.toList start (layoutAll start parent phrases) →
    Lies document.parts.toList first (PartTree.layoutAll first owner trees) →
    Lies kept first (keptAll start phrases) → parent < start →
    Surrounds tree kept context parent owner →
    Numbers source tree document kept first trees (keptAll start phrases)
      (splicedAll start phrases)
  | [], _, _, _, _, _, _, _, h, _, _, _, _, _ => by
      cases h
      exact ⟨rfl, rfl, fun i hFirst hLast => absurd hFirst (Nat.not_le.2 hLast)⟩
  | phrase :: rest, hFull, context, start, parent, first, owner, trees, h, hNodes, hParts, hKept,
      hLt, hSurrounds => by
      simp only [Outline.partsAll, except_bind_eq_ok, except_pure_eq_ok] at h
      obtain ⟨here, hHere, others, hOthers, rfl⟩ := h
      obtain ⟨hFirst, hRest⟩ := List.forall_mem_cons.1 hFull
      obtain ⟨hNode, hNodes⟩ := Lies.append hNodes
      obtain ⟨hKeptHere, hKept⟩ := Lies.append hKept
      rw [PartTree.layoutAll_append] at hParts
      obtain ⟨hPart, hParts⟩ := Lies.append hParts
      have hNumbers := numbers_parts phrase hFirst context start parent first owner here hHere
        hNode hPart hKeptHere hLt hSurrounds
      rw [Outline.length_layout] at hNodes
      rw [PartTree.length_layoutAll] at hParts
      rw [hNumbers.count] at hKept
      exact hNumbers.append (numbers_partsAll rest hRest context _ parent _ owner others hOthers
        hNodes hParts hKept (Nat.lt_add_right _ hLt) hSurrounds)

end

end Numbering

/-- Every text that is read gives a document that is the tree of the text renumbered: part `i` is
the `i`th node of the walk from the document, collections left out. It says what the node says, lies
under the part of the nearest node above that is no collection, and holds the parts of the node's
contents in order. -/
theorem Source.document_renumbers {source : Source} {tree : SyntaxTree}
    (h : source.parse = .ok tree) :
    ∃ document events root places,
      source.document = .ok (document, events) ∧
      tree.assemble source = .ok (.complete document events) ∧
      tree.document? = .ok (some root) ∧ tree.descendants root = .ok places ∧
      Renumbering source tree document (places.filter fun place => !tree.collectsAt place) := by
  rw [source.parse_eq, except_map_eq_ok] at h
  obtain ⟨phrase, hOutline, rfl⟩ := h
  obtain ⟨-, hForms⟩ := Source.outline_eq_ok.1 hOutline
  obtain ⟨label, children, trees, rfl, hType, hTrees⟩ :=
    hForms.parts_document (Token.beforeEnd_infix source.text)
  obtain ⟨document, events, hDocument, hLayout, -⟩ := Source.document_eq hOutline hTrees
  let grown := SyntaxTree.graft {} 0 (.node label children)
  have hNodes : Lies grown.nodes.toList 1 ((Outline.node label children).layout 1 0) :=
    SyntaxTree.lies_graft {} 0 _
  have hNot : ¬label.type.isCollection = true := by rw [hType]; decide
  have hKept : (List.range' 1 (Outline.node label children).count).filter
      (fun place => !grown.collectsAt place) = 1 :: Outline.keptAll 2 children := by
    rw [SyntaxTree.filter_kept _ 1 0 hNodes, Outline.kept, if_neg hNot]
  have hNode := SyntaxTree.getElem?_toList (Lies.cons hNodes).1
  have hChildren : ∀ c ∈ children, c.Full := by
    cases hForms.full with | node _ _ hChildren => exact hChildren
  have hParts : Lies document.parts.toList 0
      ((PartTree.node label.location .document trees).layout 0 none) := by
    rw [← hLayout]
    exact List.prefix_refl _
  have hBelow : Numbers source grown document (1 :: Outline.keptAll 2 children) 1 trees
      (Outline.keptAll 2 children) (Outline.splicedAll 2 children) := by
    refine numbers_partsAll children hChildren .document 2 1 1 0 trees hTrees (Lies.cons hNodes).2
      (Lies.cons hParts).2 (List.prefix_refl _) (Nat.lt_succ_self _)
      ⟨1, SyntaxTree.nearest?_of_part hNode (by simpa using hNot), rfl, ?_⟩
    simp [SyntaxTree.typeAt?, hNode, hType]
  have hAll := Numbers.node hNodes hParts rfl hType (.inl ⟨rfl, rfl⟩) hBelow
  have hWalk : grown.descendants ⟨1, 0⟩ =
      .ok (List.range' 1 (Outline.node label children).count) := by
    have hDescendants := SyntaxTree.descendants_graft {} 0 label children
    simp only [SyntaxTree.idAt, SyntaxTree.graft_generation] at hDescendants
    exact hDescendants
  have hSize : document.size =
      PartTree.countAll [PartTree.node label.location .document trees] := by
    rw [Document.size, ← Array.length_toList, hLayout, PartTree.length_layout]
    rfl
  refine ⟨document, events, ⟨1, 0⟩, List.range' 1 (Outline.node label children).count, hDocument,
    SyntaxTree.assemble_graft hOutline hDocument, SyntaxTree.document?_graft hType children,
    hWalk, ?_⟩
  rw [hKept]
  refine ⟨by rw [hSize, hAll.count], fun i place hPlace => ?_⟩
  have hi : i < (1 :: Outline.keptAll 2 children).length :=
    (List.getElem?_eq_some_iff.1 hPlace).1
  obtain ⟨place', node, part, hPlace', hStands⟩ :=
    hAll.stands i (Nat.zero_le _) (by rw [← hAll.count, Nat.zero_add]; exact hi)
  rw [hPlace] at hPlace'
  cases hPlace'
  exact ⟨node, part, hStands⟩

/-- An object in an argument, whose field is met in another way than the argument. -/
theorem Source.document_renumbers_object :
    ∃ tree, Source.parse { text := "{a(x:{y:$z})@b}" } = .ok tree ∧
      ∃ document events root places,
        Source.document { text := "{a(x:{y:$z})@b}" } = .ok (document, events) ∧
        tree.assemble { text := "{a(x:{y:$z})@b}" } = .ok (.complete document events) ∧
        tree.document? = .ok (some root) ∧ tree.descendants root = .ok places ∧
        Renumbering { text := "{a(x:{y:$z})@b}" } tree document
          (places.filter fun place => !tree.collectsAt place) := by
  have hRead : (Source.parse { text := "{a(x:{y:$z})@b}" }).toOption.isSome = true := by
    decide +kernel
  cases hTree : Source.parse { text := "{a(x:{y:$z})@b}" } with
  | error error =>
      rw [hTree] at hRead
      cases hRead
  | ok tree => exact ⟨tree, rfl, Source.document_renumbers hTree⟩

end GraphQL
