import GraphQL.Proofs.Document.Layout
import GraphQL.Proofs.Syntax.Clearing
import GraphQL.Proofs.TypeExpr

/-! No text makes the assembly fail. Every phrase of the grammar stands for parts in each context
where the grammar puts it, with names, keywords and types that are read from the text. -/
namespace GraphQL

variable {source : Source} {tokens : List Token}

/-- Where the grammar puts phrases of a kind. -/
def Context.fits : Context → Symbol → Bool
  | .document, x => x == .definition
  | .operation, x => x == .variableDefinitions || x == .directive || x == .selectionSet
  | .variables, x => x == .variableDefinition
  | .variable, x => x == .value || x == .directive
  | .directive, x => x == .arguments
  | .arguments, x | .complexValue, x => x == .argument
  | .selections, x => x == .selection
  | .field, x => x == .arguments || x == .directive || x == .selectionSet
  | .fragmentSpread, x => x == .directive
  | .inlineFragment, x | .namedFragment, x => x == .directive || x == .selectionSet
  | .value, x => x == .value

namespace Outline

/-- A collection is no part: its parts are those of the phrases in it. -/
theorem parts_group {context inside : Context} {label : Label} {children : List Outline}
    (h : context.group? label.type = some inside) :
    (node label children).parts source context = partsAll source inside children := by
  rw [parts, h]

/-- The parts inside a phrase that is a part itself. -/
def partsInside (source : Source) (type : NodeType) (children : List Outline) :
    Except AssemblyError (List PartTree) :=
  match type.inside with
  | .all inside => partsAll source inside children
  | .firstValue => partsFirst source type children
  | .nothing => .ok []

/-- Any other phrase is one part, with the parts of the phrases in it below. -/
theorem parts_part {context : Context} {label : Label} {children : List Outline}
    {data : PartData} {below : List PartTree} (hGroup : context.group? label.type = none)
    (hData : label.partData source context = .ok data)
    (hBelow : partsInside source label.type children = .ok below) :
    (node label children).parts source context = .ok [.node label.location data below] := by
  rw [parts, hGroup]
  exact except_bind_eq_ok.2 ⟨data, hData, except_map_eq_ok.2 ⟨below, hBelow, rfl⟩⟩

/-- A phrase that is no group stands for one part, with the parts inside it below. -/
theorem exists_of_parts {context : Context} {label : Label} {children : List Outline}
    {trees : List PartTree} (hGroup : context.group? label.type = none)
    (h : (node label children).parts source context = .ok trees) :
    ∃ data below, label.partData source context = .ok data ∧
      partsInside source label.type children = .ok below ∧
      trees = [.node label.location data below] := by
  simp only [parts, hGroup, except_bind_eq_ok, except_map_eq_ok] at h
  obtain ⟨data, hData, below, hBelow, rfl⟩ := h
  exact ⟨data, below, hData, hBelow, rfl⟩

/-- Of a single phrase there are its own parts. -/
theorem partsAll_singleton (source : Source) (context : Context) (phrase : Outline) :
    partsAll source context [phrase] = phrase.parts source context := by
  rw [partsAll]
  cases phrase.parts source context with
  | error error => rfl
  | ok trees => simp [bind, Except.bind, partsAll, pure, Except.pure]

/-- Phrases one after another stand for the parts of the first ones and of the others. -/
theorem partsAll_append_eq_ok {context : Context} {first second : List Outline}
    {trees : List PartTree} : partsAll source context (first ++ second) = .ok trees ↔
      ∃ a b, partsAll source context first = .ok a ∧ partsAll source context second = .ok b ∧
        trees = a ++ b := by
  induction first generalizing trees with
  | nil => simp [partsAll]
  | cons phrase rest ih =>
      simp only [List.cons_append, partsAll, except_bind_eq_ok, except_pure_eq_ok, ih]
      constructor
      · rintro ⟨here, hHere, others, ⟨a, b, hRest, hSecond, rfl⟩, rfl⟩
        exact ⟨here ++ a, b, ⟨here, hHere, a, hRest, rfl⟩, hSecond, (List.append_assoc ..).symm⟩
      · rintro ⟨_, b, ⟨here, hHere, a, hRest, rfl⟩, hSecond, rfl⟩
        exact ⟨here, hHere, a ++ b, ⟨a, b, hRest, hSecond, rfl⟩, (List.append_assoc ..).symm⟩

/-- Phrases that can all be assembled can be assembled one after another. -/
theorem partsAll_ok {context : Context} {phrases : List Outline}
    (h : ∀ c ∈ phrases, ∃ trees, c.parts source context = .ok trees) :
    ∃ trees, partsAll source context phrases = .ok trees := by
  induction phrases with
  | nil => exact ⟨[], rfl⟩
  | cons phrase rest ih =>
      obtain ⟨⟨first, hFirst⟩, hRest⟩ := List.forall_mem_cons.1 h
      obtain ⟨others, hOthers⟩ := ih hRest
      exact ⟨first ++ others, by rw [partsAll, hFirst, hOthers]; rfl⟩

end Outline

/-- Every keyword that the grammar takes for an operation is one of a type. -/
theorem OperationType.ofKeyword?_of_mem {keyword : String}
    (h : keyword ∈ Grammar.operationWords) :
    ∃ type, OperationType.ofKeyword? keyword = some type := by
  simp only [Grammar.operationWords, List.mem_cons, List.not_mem_nil, or_false] at h
  rcases h with rfl | rfl | rfl
  · exact ⟨.query, rfl⟩
  · exact ⟨.mutation, rfl⟩
  · exact ⟨.subscription, rfl⟩

/-- The keyword of an operation is recognised. -/
theorem Head.operationType {head : List Token} {label : Label} (h : Head .operation head label)
    (hSource : source.Has head) : ∃ type, label.operationType source = .ok type := by
  have hSlice := hSource.slice
  cases h with
  | operation hKeyword hWord | namedOperation hKeyword hWord hName =>
      obtain ⟨type, hType⟩ := OperationType.ofKeyword?_of_mem hWord
      exact ⟨type, by simp [Label.operationType, hSlice _ (List.mem_cons_self ..), hType]⟩

/-- The type of a variable is read from the text that it was cut out of. -/
theorem Head.declaredType {head : List Token} {label : Label} (h : Head .variable head label)
    (hSource : source.Has head) : ∃ type, label.declaredType source = .ok type := by
  cases h with
  | @declaration dollar name colon type hDollar hName hColon hType =>
      have hAll : source.Has ([dollar, name, colon] ++ type) := hSource
      obtain ⟨declared, hWords⟩ := hType.exists_words hAll.right.text
      exact ⟨declared, by simp [Label.declaredType, Label.secondaryText,
        hAll.right.read_cover hWords, bind, Except.bind, pure, Except.pure]⟩

/-- A phrase with tokens of its own is a part wherever one of its type is admitted. -/
theorem Head.partData {type : NodeType} {head : List Token} {label : Label}
    (h : Head type head label) (hSource : source.Has head) {context : Context}
    (hAdmits : context.admits type = true) :
    ∃ data, label.partData source context = .ok data := by
  unfold Label.partData
  rw [← h.type] at hAdmits
  simp only [hAdmits, Bool.not_true, Bool.false_eq_true, if_false]
  cases h with
  | operation hKeyword hWord =>
      obtain ⟨type, hOperation⟩ := (Head.operation hKeyword hWord).operationType hSource
      exact ⟨_, except_bind_eq_ok.2 ⟨type, hOperation, rfl⟩⟩
  | namedOperation hKeyword hWord hName =>
      obtain ⟨type, hOperation⟩ := (Head.namedOperation hKeyword hWord hName).operationType hSource
      exact ⟨_, except_bind_eq_ok.2 ⟨type, hOperation, rfl⟩⟩
  | declaration hDollar hName hColon hType =>
      obtain ⟨type, hDeclared⟩ := (Head.declaration hDollar hName hColon hType).declaredType hSource
      exact ⟨_, except_bind_eq_ok.2 ⟨_, rfl, except_bind_eq_ok.2 ⟨type, hDeclared, rfl⟩⟩⟩
  | _ => exact ⟨_, rfl⟩

/-- The types of the nodes that phrases of a kind have, unless they only group others. -/
def Symbol.gives : Symbol → NodeType → Bool
  | .definition, type => type == .operation || type == .namedFragment
  | .variableDefinition, type => type == .variable
  | .directive, type => type == .directive
  | .argument, type => type == .inputItem
  | .selection, type => type == .field || type == .fragmentSpread || type == .inlineFragment
  | .value, type => type.isValue
  | _, _ => false

/-- Where a phrase fits, it is admitted as a part. -/
theorem Context.admits_of_fits {context : Context} {x : Symbol} (type : NodeType)
    (hFits : context.fits x = true) (hGives : x.gives type = true) :
    context.admits type = true ∧ context.group? type = none := by
  cases context <;> cases x <;> first
    | exact absurd hFits (by decide)
    | (cases type <;> first | exact ⟨rfl, rfl⟩ | exact absurd hGives (by decide))

/-- A phrase with tokens of its own is a part with the parts of all phrases in it, in a context
where the grammar puts it. -/
theorem Head.parts_of_fits {x : Symbol} {type : NodeType} {head : List Token} {label : Label}
    {children : List Outline} (h : Head type head label) (hSource : source.Has head)
    {context inside : Context} (hFits : context.fits x = true) (hGives : x.gives type = true)
    (hInside : type.inside = .all inside)
    (hChildren : ∀ c ∈ children, ∃ trees, c.parts source inside = .ok trees) :
    ∃ trees, (Outline.node label children).parts source context = .ok trees := by
  obtain ⟨hAdmits, hGroup⟩ := Context.admits_of_fits type hFits hGives
  obtain ⟨data, hData⟩ := h.partData hSource hAdmits
  obtain ⟨below, hBelow⟩ := Outline.partsAll_ok hChildren
  have hParts : Outline.partsInside source label.type children = .ok below := by
    rw [Outline.partsInside, h.type, hInside]
    exact hBelow
  exact ⟨_, Outline.parts_part (by rw [h.type, hGroup]) hData hParts⟩

/-- Where a phrase in delimiters fits, it is a group or a value that others fit into. -/
theorem Encloses.group_or_value {x item : Symbol} {type : NodeType} {enclosure : Enclosure}
    (h : Encloses x type enclosure item) {context : Context} (hFits : context.fits x = true) :
    (∃ inside, context.group? type = some inside ∧ inside.fits item = true) ∨
      type.isValue = true ∧ x = .value ∧ ∃ inside, type.inside = .all inside ∧
        inside.fits item = true := by
  cases h with
  | selectionSet =>
      exact .inl ⟨.selections, (by cases context <;> first | rfl | cases hFits), rfl⟩
  | arguments => exact .inl ⟨.arguments, (by cases context <;> first | rfl | cases hFits), rfl⟩
  | variableDefinitions =>
      exact .inl ⟨.variables, (by cases context <;> first | rfl | cases hFits), rfl⟩
  | listValue => exact .inr ⟨rfl, rfl, .value, rfl, rfl⟩
  | objectValue => exact .inr ⟨rfl, rfl, .complexValue, rfl, rfl⟩

/-- Some pieces stand for parts where each of them does. -/
theorem parts_phrasesOf {pieces : List Piece} {context : Context}
    (hSource : source.Has (tokensOf pieces))
    (h : ∀ p ∈ pieces, source.Has p.1 → ∃ trees, p.2.parts source context = .ok trees) :
    ∀ c ∈ phrasesOf pieces, ∃ trees, c.parts source context = .ok trees := by
  intro c hc
  obtain ⟨p, hp, rfl⟩ := List.mem_map.1 hc
  exact h p hp ((infix_tokensOf hp).trans hSource)

/-- A selection set alone stands for a query without a name. -/
theorem Outline.parts_shorthand {context : Context} (hFits : context.fits .definition = true)
    (location : Position) {phrase : Outline} {below : List PartTree}
    (h : phrase.parts source .operation = .ok below) :
    (Outline.node { type := .operation, location } [phrase]).parts source context =
      .ok [.node location (.operation .query none) below] := by
  obtain ⟨hAdmits, hGroup⟩ := Context.admits_of_fits .operation hFits rfl
  have hParts : Outline.partsInside source .operation [phrase] = .ok below :=
    (Outline.partsAll_singleton source .operation phrase).trans h
  have hData : ({ type := .operation, location } : Label).partData source context =
      .ok (.operation .query none) := by
    unfold Label.partData
    simp only [hAdmits, Bool.not_true, Bool.false_eq_true, if_false]
    rfl
  exact Outline.parts_part hGroup hData hParts

/-- Phrases of the grammar stand for parts where the grammar puts them. -/
theorem Forms.parts {x : Symbol} {phrase : Outline} (h : Forms x tokens phrase)
    (hSource : source.Has tokens) {context : Context} (hFits : context.fits x = true) :
    ∃ trees, phrase.parts source context = .ok trees := by
  induction h generalizing context with
  | @atom type head label hValue hHead =>
      obtain ⟨hAdmits, hGroup⟩ := Context.admits_of_fits type hFits hValue
      obtain ⟨data, hData⟩ := hHead.partData hSource hAdmits
      have hBelow : Outline.partsInside source label.type [] = .ok [] := by
        cases hHead <;> first | rfl | cases hValue
      exact ⟨_, Outline.parts_part (by rw [hHead.type, hGroup]) hData hBelow⟩
  | @enclosed x item type enclosure hRule opening closing pieces hOpen hItems hClose ih =>
      have hInside : source.Has (tokensOf pieces) := by
        have hAll : source.Has ([opening] ++ (tokensOf pieces ++ [closing])) := hSource
        exact hAll.right.left
      have hPieces {inside : Context} (hItem : inside.fits item = true) :=
        Outline.partsAll_ok (parts_phrasesOf hInside fun p hp hHas => ih p hp hHas hItem)
      rcases hRule.group_or_value hFits with ⟨inside, hGroup, hItem⟩ |
        ⟨hValue, rfl, inside, hType, hItem⟩
      · rw [Outline.parts_group hGroup]
        exact hPieces hItem
      · obtain ⟨hAdmits, hGroup⟩ := Context.admits_of_fits type hFits hValue
        obtain ⟨below, hBelow⟩ := hPieces hItem
        have hParts : Outline.partsInside source type (phrasesOf pieces) = .ok below := by
          rw [Outline.partsInside, hType]
          exact hBelow
        have hData : ∃ data, ({ type, location := opening.start } : Label).partData source
            context = .ok data := by
          unfold Label.partData
          simp only [hAdmits, Bool.not_true, Bool.false_eq_true, if_false]
          cases hRule <;> exact ⟨_, rfl⟩
        obtain ⟨data, hData⟩ := hData
        exact ⟨_, Outline.parts_part hGroup hData hParts⟩
  | @argument head label value hHead hValue ih =>
      obtain ⟨hAdmits, hGroup⟩ := Context.admits_of_fits .inputItem hFits rfl
      obtain ⟨data, hData⟩ := hHead.partData hSource.left hAdmits
      have hFirst : Context.value.fits .value = true := rfl
      obtain ⟨below, hBelow⟩ := ih hSource.right hFirst
      have hParts : Outline.partsInside source label.type [value.2] = .ok below := by
        rw [hHead.type]
        exact hBelow
      exact ⟨_, Outline.parts_part (by rw [hHead.type, hGroup]) hData hParts⟩
  | directive hHead hArguments ih =>
      exact hHead.parts_of_fits hSource.left hFits rfl rfl (parts_phrasesOf hSource.right
        fun p hp hHas => ih p (Option.mem_toList.1 hp) hHas rfl)
  | field hHead hArguments hDirectives hSelections ihArguments ihDirectives ihSelections =>
      refine hHead.parts_of_fits hSource.left hFits rfl rfl (parts_phrasesOf hSource.right ?_)
      refine List.forall_mem_append.2 ⟨List.forall_mem_append.2
        ⟨forall_mem_toList fun p hp hHas => ihArguments p hp hHas rfl,
          fun p hp hHas => ihDirectives p hp hHas rfl⟩,
        forall_mem_toList fun p hp hHas => ihSelections p hp hHas rfl⟩
  | spread hHead hDirectives ih =>
      exact hHead.parts_of_fits hSource.left hFits rfl rfl (parts_phrasesOf hSource.right
        fun p hp hHas => ih p hp hHas rfl)
  | inline hHead hDirectives hSelections ihDirectives ihSelections =>
      refine hHead.parts_of_fits hSource.left hFits rfl rfl (parts_phrasesOf hSource.right ?_)
      exact List.forall_mem_append.2 ⟨fun p hp hHas => ihDirectives p hp hHas rfl,
        List.forall_mem_singleton.2 fun hHas => ihSelections hHas rfl⟩
  | @declaration head label default directives hHead hEquals hConstant hDefault hDirectives
      ihDefault ihDirectives =>
      refine hHead.parts_of_fits hSource.left hFits rfl rfl (List.forall_mem_append.2
        ⟨?_, parts_phrasesOf hSource.right.right fun p hp hHas => ihDirectives p hp hHas rfl⟩)
      cases default with
      | none => simp [defaultPhrases]
      | some d =>
          have hDefaultSource : source.Has ([d.1] ++ d.2.1) := by
            simpa [defaultTokens] using hSource.right.left
          simpa [defaultPhrases] using ihDefault d rfl hDefaultSource.right rfl
  | @shorthand first rest phrase hSelections ih =>
      have hInside : Context.operation.fits .selectionSet = true := rfl
      obtain ⟨below, hBelow⟩ := ih hSource hInside
      exact ⟨_, Outline.parts_shorthand hFits first.start hBelow⟩
  | operation hHead hVariables hDirectives hSelections ihVariables ihDirectives ihSelections =>
      refine hHead.parts_of_fits hSource.left hFits rfl rfl (parts_phrasesOf hSource.right ?_)
      exact List.forall_mem_append.2 ⟨List.forall_mem_append.2
        ⟨forall_mem_toList fun p hp hHas => ihVariables p hp hHas rfl,
          fun p hp hHas => ihDirectives p hp hHas rfl⟩,
        List.forall_mem_singleton.2 fun hHas => ihSelections hHas rfl⟩
  | fragment hHead hDirectives hSelections ihDirectives ihSelections =>
      refine hHead.parts_of_fits hSource.left hFits rfl rfl (parts_phrasesOf hSource.right ?_)
      exact List.forall_mem_append.2 ⟨fun p hp hHas => ihDirectives p hp hHas rfl,
        List.forall_mem_singleton.2 fun hHas => ihSelections hHas rfl⟩
  | @document definitions first rest hFirst hDefinitions ih => cases context <;> cases hFits

/-- The definitions of a document stand for parts below its root. -/
theorem Forms.parts_document {phrase : Outline} (h : Forms .document tokens phrase)
    (hSource : source.Has tokens) : ∃ label children trees, phrase = .node label children ∧
      label.type = .document ∧ Outline.partsAll source .document children = .ok trees := by
  cases h with
  | @document definitions first rest hFirst hDefinitions =>
      rw [← hFirst] at hSource
      obtain ⟨trees, hTrees⟩ := Outline.partsAll_ok (parts_phrasesOf hSource
        fun p hp hHas => (hDefinitions p hp).parts hHas (rfl : Context.document.fits _ = true))
      exact ⟨_, _, trees, rfl, rfl, hTrees⟩
  | enclosed hRule => cases hRule

/-- A text that is read gives a document. -/
theorem Source.exists_document {source : Source} {phrase : Outline}
    (h : source.outline = .ok phrase) :
    ∃ document events, source.document = .ok (document, events) := by
  obtain ⟨-, hForms⟩ := Source.outline_eq_ok.1 h
  obtain ⟨label, children, trees, rfl, -, hTrees⟩ :=
    hForms.parts_document (Token.beforeEnd_infix source.text)
  obtain ⟨document, events, hDocument, -⟩ := Source.document_eq h hTrees
  exact ⟨document, events, hDocument⟩

namespace SyntaxTree

/-- The document is found under the root of a tree that was read. -/
theorem document?_graft {label : Label} (hType : label.type = .document)
    (children : List Outline) :
    (graft {} 0 (.node label children)).document? = .ok (some ⟨1, 0⟩) := by
  rw [clear_new.document?_graft hType, idAt, graft_generation]

/-- Assembling the tree of a phrase is assembling the phrase. -/
theorem assemble_graft {source : Source} {phrase : Outline} (hSource : source.outline = .ok phrase)
    {document : Document} {events : List PartAdded}
    (hDocument : source.document = .ok (document, events)) :
    (graft {} 0 phrase).assemble source = .ok (.complete document events) := by
  obtain ⟨-, hForms⟩ := Source.outline_eq_ok.1 hSource
  obtain ⟨label, children, trees, rfl, hType, hTrees⟩ :=
    hForms.parts_document (Token.beforeEnd_infix source.text)
  refine except_bind_eq_ok.2 ⟨some ⟨1, 0⟩, document?_graft hType children, ?_⟩
  have hOutline : (graft {} 0 (.node label children)).outline 1 = .node label children :=
    outline_graft hForms.whole {} 0
  simp only [Source.document, hSource] at hDocument
  simp only [hOutline]
  split at hDocument
  · next _ progress hRun =>
      cases hDocument
      rw [hRun]
      rfl
  · cases hDocument

end SyntaxTree

/-- What the texts of a phrase are read as. -/
def Label.Read (source : Source) (label : Label) : Prop :=
  (label.type = .variable → ∃ type, label.declaredType source = .ok type) ∧
    (label.type = .operation → ∃ type, label.operationType source = .ok type)

/-- A label that was read off its tokens can be read back from the text. -/
theorem Head.read {type : NodeType} {head : List Token} {label : Label} (h : Head type head label)
    (hSource : source.Has head) : label.Read source := by
  refine ⟨fun hType => ?_, fun hType => ?_⟩
  · rw [h.type] at hType
    subst hType
    exact h.declaredType hSource
  · rw [h.type] at hType
    subst hType
    exact h.operationType hSource

/-- No text makes the library fail: it is a document or malformed. Whatever tree it is read as is
assembled, every type that a variable is declared with is read and every keyword of an operation
recognised. -/
theorem Source.document_ok_or_malformed (source : Source) :
    ((∃ document events, source.document = .ok (document, events)) ∨
      ∃ error, source.document = .error (.malformed error)) ∧
    ∀ tree, source.parse = .ok tree →
      (∃ document events, source.document = .ok (document, events) ∧
        tree.assemble source = .ok (.complete document events)) ∧
      ∀ node ∈ tree.nodes,
        (node.label.type = .variable → ∃ type, node.label.declaredType source = .ok type) ∧
        (node.label.type = .operation → ∃ type, node.label.operationType source = .ok type) := by
  constructor
  · cases hOutline : source.outline with
    | error error => exact .inr ⟨error, by rw [Source.document, hOutline]⟩
    | ok phrase => exact .inl (Source.exists_document hOutline)
  · intro tree hTree
    rw [source.parse_eq, except_map_eq_ok] at hTree
    obtain ⟨phrase, hOutline, rfl⟩ := hTree
    obtain ⟨document, events, hDocument⟩ := Source.exists_document hOutline
    refine ⟨⟨document, events, hDocument, SyntaxTree.assemble_graft hOutline hDocument⟩, ?_⟩
    obtain ⟨-, hForms⟩ := Source.outline_eq_ok.1 hOutline
    have hBlank (type : NodeType) (location : Position) (hType : type.mayBeBlank = true) :
        Label.Read source { type, location } := by
      refine ⟨fun hVariable => ?_, fun _ => ⟨.query, rfl⟩⟩
      obtain rfl : type = .variable := hVariable
      cases hType
    have hAll : phrase.All (Label.Read source) :=
      hForms.all (fun h hHas => h.read hHas) hBlank (Token.beforeEnd_infix source.text)
    intro node hNode
    have hNodes := SyntaxTree.graft_nodes {} 0 phrase
    rw [← Array.mem_toList_iff, hNodes] at hNode
    rcases List.mem_append.1 hNode with hNode | hNode
    · have hRoot : node.label = { type := .empty, location := {} } := by
        rw [List.mem_singleton.1 hNode]
        rfl
      rw [hRoot]
      constructor <;> intro hType <;> cases hType
    · exact hAll.layout _ _ node hNode

end GraphQL
