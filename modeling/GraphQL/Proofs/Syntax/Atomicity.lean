import GraphQL.Proofs.Syntax.Following

/-! Every builder leaves a whole phrase or nothing. A failure may come at any depth, after phrases
inside were added and taken back; what is left is still the old tree with one unfinished phrase
grafted on, which the last cut removes. -/
namespace GraphQL

namespace NodeBuilder

open GraphQL.Parser GraphQL.Grammar

variable {build : NodeBuilder} {parser : Parser Outline}

/-- The kind of a scalar is known before its node is put in the tree. -/
theorem follows_scalarValue : Follows Builder.scalarValue scalarValue := by
  refine .reading sure_current.bare fun token => ?_
  cases scalarKindOf? token with
  | some kind =>
      exact .reading bare_advance fun token => (Continues.relabel _).opening _ _ token.start
  | none => exact .failing (failExpecting_alike _ _ _)

/-- A word that is no name of an enum value is refused before there is a node. -/
theorem follows_enumValue : Follows Builder.enumValue enumValue := by
  refine .reading sure_current.bare fun token => ?_
  split
  · exact .failing (failExpecting_alike _ _ _)
  · exact .reading (bare_expect _ _) fun name => (Continues.relabel _).opening _ _ name.start

theorem follows_nullValue : Follows Builder.nullValue nullValue :=
  .reading (bare_expectWord _ _) fun token => (Continues.relabel _).opening _ _ token.start

theorem follows_variableValue : Follows Builder.variableValue variableValue :=
  .reading (bare_expect _ _) fun dollar => .reading (bare_expect _ _) fun _ =>
    (Continues.relabel _).opening _ _ dollar.start

/-- The items of a list are built under its node, by whatever builds values. -/
theorem follows_listValue (h : build.Adds parser) :
    Follows (Builder.listValue build) (listValue parser) := by
  refine follows_collection ?_ _ _
  refine .looking sure_current fun token => ?_
  cases ValueForm.startingAt? token with
  | some _ => exact h
  | none => exact .failing (failExpecting_alike _ _ _)

/-- The value of the input `name`, read into `node`. -/
def growInput (parser : Parser Outline) (name : String) (node : Outline) : Parser Outline := do
  match ValueForm.startingAt? (← current) with
  | some _ => grow node parser
  | none => keeping node (failExpecting ["value"] ("for input `" ++ name ++ "`"))

/-- The node of an argument is put in the tree once its colon was read, before its value. -/
theorem follows_inputItem (h : build.Adds parser) :
    Follows (Builder.inputItem build) (inputItem parser) := by
  refine .reading (bare_expect _ _) fun name => .reading (bare_expect _ _) fun _ => ?_
  refine Continues.opening
    (fun node => pure (node.setPrimary name.bytes) >>= growInput parser name.text) ?_ _ _
  refine (continues_setPrimary name.bytes).andThen (.looking sure_current fun token => ?_)
  cases ValueForm.startingAt? token with
  | some _ => exact h.continues
  | none => exact .failing (failExpecting_alike _ _ _)

theorem follows_objectValue (h : build.Adds parser) :
    Follows (Builder.objectValue build) (objectValue parser) :=
  follows_collection (follows_inputItem h).atomically _ _

theorem follows_ofForm (h : build.Adds parser) (form : ValueForm) :
    Follows (Builder.ofForm build form) (form.production parser) := by
  cases form with
  | variableValue => exact follows_variableValue
  | listValue => exact follows_listValue h
  | objectValue => exact follows_objectValue h
  | scalarValue => exact follows_scalarValue
  | nullValue => exact follows_nullValue
  | enumValue => exact follows_enumValue

/-- By induction on the levels: the values inside one are built a level further down. -/
theorem adds_valueWithin : (levels : Nat) → Adds (Builder.valueWithin levels) (valueWithin levels)
  | 0 => .failing (failExpecting_alike _ _ _)
  | levels + 1 => by
      refine .looking sure_current fun token => ?_
      cases ValueForm.startingAt? token with
      | some form => exact (follows_ofForm (adds_valueWithin levels) form).atomically
      | none => exact .failing (failExpecting_alike _ _ _)

/-- A value is built whole or not at all. -/
theorem adds_value : Adds Builder.value value := .looking sure_bound adds_valueWithin

theorem follows_arguments : Follows Builder.arguments arguments :=
  follows_collection (follows_inputItem adds_value).atomically _ _

/-- A directive is named before its arguments are read. -/
theorem follows_directive : Follows Builder.directive directive := by
  refine .reading (bare_expect _ _) fun sign => .reading (bare_expect _ _) fun name => ?_
  exact Continues.opening (fun node => pure (node.setPrimary name.bytes) >>= fun node =>
    growAt .parenOpen node arguments)
    ((continues_setPrimary name.bytes).andThen
      (continues_addAt follows_arguments.atomically .parenOpen)) _ _

/-- Directives are built one after another under a node that is there. -/
theorem continues_addDirectives : Continues Builder.addDirectives growDirectives :=
  .looking sure_bound fun rounds =>
    continues_addWhileAt follows_directive.atomically .atSign rounds

/-- A default that is refused leaves its nodes behind, to be cut with those of the variable. -/
theorem continues_addDefault : Continues Builder.addDefault growDefault := by
  refine .reading fun _ => .looking sure_current fun token => ?_
  cases ValueForm.startingAt? token with
  | none => exact .failing (failExpecting_alike _ _ _)
  | some _ =>
      refine .looking sure_get fun before => ?_
      refine adds_value.continues.andThen (.looking sure_get fun after => ?_)
      cases firstVariable? (tokensBetween before after) with
      | none => exact .done
      | some found => exact .failing (fail_alike _)

/-- The node of a variable is put in the tree only once its type was read. -/
theorem follows_variableDefinition :
    Follows Builder.variableDefinition variableDefinition := by
  refine .reading (bare_expect _ _) fun dollar => .reading (bare_expect _ _) fun name => ?_
  refine .reading (sure_isAt .colon).bare fun colon => ?_
  have hRest : Follows (fun parent => do
      let _ ← Builder.reading advance
      let type ← Builder.reading typeRange
      let id ← Builder.append parent .variable dollar.start
      Builder.setPrimary name.bytes id
      Builder.setSecondary type id
      if ← Builder.reading (isAt .equals) then Builder.addDefault id
      Builder.addDirectives id) (do
      let _ ← advance
      let type ← typeRange
      variableInside (((Outline.leaf .variable dollar.start).setPrimary name.bytes).setSecondary
        type)) := by
    refine .reading bare_advance fun _ => .reading bare_typeRange fun type => ?_
    refine Continues.opening (fun node => pure (node.setPrimary name.bytes) >>= fun node =>
      pure (node.setSecondary type) >>= variableInside) ?_ _ _
    refine (continues_setPrimary name.bytes).andThen ((continues_setSecondary type).andThen ?_)
    refine .looking (sure_isAt .equals) fun equals => ?_
    cases equals with
    | true => exact continues_addDefault.andThen continues_addDirectives
    | false => exact continues_addDirectives
  cases colon with
  | true => exact hRest
  | false => exact .reading (bare_failExpecting _ _ _) fun _ => hRest

theorem follows_variableDefinitions :
    Follows Builder.variableDefinitions variableDefinitions :=
  follows_collection follows_variableDefinition.atomically _ _

/-- What may follow the name of a field. -/
def fieldInside (selectionSet : Parser Outline) (named : Outline) : Parser Outline := do
  let node ← growDirectives (← growAt .parenOpen named arguments)
  growAt .curlyOpen node selectionSet

/-- What follows the type condition of a fragment. -/
def fragmentInside (selectionSet : Parser Outline) (node : Outline) : Parser Outline := do
  grow (← growDirectives node) selectionSet

/-- An alias is told from a name by the colon after it, when the node is already there. -/
theorem follows_field (h : build.Follows parser) :
    Follows (Builder.field build) (field parser) := by
  refine .reading (bare_expect _ _) fun first => ?_
  refine Continues.opening (fun node => isAt .colon >>= fun aliased =>
    if aliased then keeping node (do
        let _ ← advance
        let name ← expectName "after field alias"
        return (node.setPrimary name.bytes).setSecondary first.bytes) >>= fieldInside parser
    else pure (node.setPrimary first.bytes) >>= fieldInside parser) ?_ _ _
  have hInside : Continues (fun id => do
      Builder.addAt .parenOpen (Builder.atomically Builder.arguments) id
      Builder.addDirectives id
      Builder.addAt .curlyOpen (Builder.atomically build) id) (fieldInside parser) :=
    (continues_addAt follows_arguments.atomically .parenOpen).andThen
      (continues_addDirectives.andThen (continues_addAt h.atomically .curlyOpen))
  refine .looking (sure_isAt .colon) fun aliased => ?_
  cases aliased with
  | true =>
      simp only [if_true, keeping_bind, keeping_pure, bind_assoc]
      exact .reading fun _ => .reading fun name => (continues_setPrimary name.bytes).andThen
        ((continues_setSecondary first.bytes).andThen hInside)
  | false => exact (continues_setPrimary first.bytes).andThen hInside

theorem follows_fragmentSpread : Follows Builder.fragmentSpread fragmentSpread := by
  refine .reading (bare_expect _ _) fun dots => .reading (bare_fragmentName _) fun name => ?_
  exact Continues.opening (fun node => pure (node.setPrimary name.bytes) >>= growDirectives)
    ((continues_setPrimary name.bytes).andThen continues_addDirectives) _ _

/-- An inline fragment may have a type condition, which its node is given later. -/
theorem follows_inlineFragment (h : build.Follows parser) :
    Follows (Builder.inlineFragment build) (inlineFragment parser) := by
  refine .reading (bare_expect _ _) fun dots => ?_
  refine Continues.opening (fun node => isAtWord "on" >>= fun conditioned =>
    if conditioned then keeping node (do
        let _ ← advance
        let type ← expectName "for type condition after `on`"
        return node.setPrimary type.bytes) >>= fragmentInside parser
    else pure node >>= fragmentInside parser) ?_ _ _
  have hInside : Continues (fun id => do
      Builder.addDirectives id
      Builder.atomically build id) (fragmentInside parser) :=
    continues_addDirectives.andThen h.atomically.continues
  refine .looking (sure_isAtWord "on") fun conditioned => ?_
  cases conditioned with
  | true =>
      simp only [if_true, keeping_bind, keeping_pure, bind_assoc]
      exact .reading fun _ => .reading fun type =>
        (continues_setPrimary type.bytes).andThen hInside
  | false => exact hInside

theorem adds_selection (h : build.Follows parser) :
    Adds (Builder.selection build) (selection parser) := by
  refine .looking (sure_isAt .name) fun named => ?_
  cases named with
  | true => exact (follows_field h).atomically
  | false =>
      refine .looking (sure_isAt .ellipsis) fun dots => ?_
      cases dots with
      | true =>
          refine .looking sure_get fun stream => .looking (sure_modify _) fun _ => ?_
          split
          · exact follows_fragmentSpread.atomically
          · exact (follows_inlineFragment h).atomically
      | false => exact .failing (failExpecting_alike _ _ _)

/-- By induction on the levels: the selections inside one are built a level further down. -/
theorem follows_selectionSetWithin : (levels : Nat) →
    Follows (Builder.selectionSetWithin levels) (selectionSetWithin levels)
  | 0 => .failing (failExpecting_alike _ _ _)
  | levels + 1 => follows_collection (adds_selection (follows_selectionSetWithin levels)) _ _

/-- A selection set is built as deep as the tokens ahead allow. -/
theorem follows_selectionSet : Follows Builder.selectionSet selectionSet :=
  .reading sure_bound.bare follows_selectionSetWithin

theorem follows_namedFragment : Follows Builder.namedFragment namedFragment := by
  refine .reading (bare_expectWord _ _) fun keyword => .reading (bare_fragmentName _) fun name =>
    .reading (bare_expectWord _ _) fun _ => .reading (bare_expect _ _) fun type => ?_
  refine Continues.opening (fun node => pure (node.setPrimary name.bytes) >>= fun node =>
    pure (node.setSecondary type.bytes) >>= fun node => growDirectives node >>= fun node =>
      grow node selectionSet) ?_ _ _
  exact (continues_setPrimary name.bytes).andThen ((continues_setSecondary type.bytes).andThen
    (continues_addDirectives.andThen follows_selectionSet.atomically.continues))

/-- What may follow the name of an operation. -/
def operationInside (keyword : Token) (named : Outline) : Parser Outline := do
  let node ← growDirectives (← growAt .parenOpen named variableDefinitions)
  if ← isAt .curlyOpen then grow node selectionSet
  else keeping node (failExpecting ["\x7b"]
    ("to open the `" ++ keyword.text ++ "` operation's selection set")
    [.spec "https://spec.graphql.org/September2025/#sec-Language.Operations"])

/-- The head of an operation, step by step: the keyword, and a name if there is one. -/
theorem operationHead_bind (node : Outline) (next : Token → Outline → Parser Outline) :
    (operationHead node >>= fun head => next head.1 head.2) =
      keeping node advance >>= fun keyword =>
      pure (node.setPrimary keyword.bytes) >>= fun typed => isAt .name >>= fun named =>
        if named then keeping typed advance >>= fun name =>
          pure (typed.setSecondary name.bytes) >>= next keyword
        else next keyword typed := by
  simp only [operationHead, bind_assoc, pure_bind]
  refine bind_congr fun keyword => bind_congr fun named => ?_
  cases named with
  | true => simp only [if_true, bind_assoc, pure_bind]
  | false => rfl

/-- After its head an operation must have selections, or it is left without them and refused. -/
theorem continues_operationInside (keyword : Token) :
    Continues (fun id => do
      Builder.addAt .parenOpen (Builder.atomically Builder.variableDefinitions) id
      Builder.addDirectives id
      if ← Builder.reading (isAt .curlyOpen) then Builder.atomically Builder.selectionSet id
      else Builder.reading (failExpecting ["\x7b"]
        ("to open the `" ++ keyword.text ++ "` operation's selection set")
        [.spec "https://spec.graphql.org/September2025/#sec-Language.Operations"]))
      (operationInside keyword) := by
  refine (continues_addAt follows_variableDefinitions.atomically .parenOpen).andThen
    (continues_addDirectives.andThen (.looking (sure_isAt .curlyOpen) fun opens => ?_))
  cases opens with
  | true => exact follows_selectionSet.atomically.continues
  | false => exact .failing (failExpecting_alike _ _ _)

/-- An operation has its node from the start, also where it turns out to be none. -/
theorem follows_operation : Follows Builder.operation operation := by
  refine .reading sure_current.bare fun first => ?_
  refine Continues.opening (fun node => isAt .curlyOpen >>= fun short =>
    if short then grow node selectionSet else isAtOneOf operationWords >>= fun worded =>
      if !worded then
        keeping node (failExpecting ("\x7b" :: operationWords) "to begin an operation")
      else operationHead node >>= fun head => operationInside head.1 head.2) ?_ _ _
  refine .looking (sure_isAt .curlyOpen) fun short => ?_
  cases short with
  | true => exact follows_selectionSet.atomically.continues
  | false =>
      refine .looking (sure_isAtOneOf operationWords) fun worded => ?_
      cases worded with
      | false => exact .failing (failExpecting_alike _ _ _)
      | true =>
          simp only [operationHead_bind]
          refine .reading fun keyword => (continues_setPrimary keyword.bytes).andThen
            (.looking (sure_isAt .name) fun named => ?_)
          cases named with
          | true =>
              exact .reading fun name => (continues_setSecondary name.bytes).andThen
                (continues_operationInside keyword)
          | false => exact continues_operationInside keyword

/-- The builder of a definition is chosen by its first token. -/
theorem adds_definition : Adds Builder.definition definition := by
  refine .looking (sure_isAt .curlyOpen) fun short => ?_
  cases short with
  | true => exact follows_operation.atomically
  | false =>
      refine .looking (sure_isAtOneOf operationWords) fun worded => ?_
      cases worded with
      | true => exact follows_operation.atomically
      | false =>
          refine .looking (sure_isAtWord "fragment") fun fragment => ?_
          cases fragment with
          | true => exact follows_namedFragment.atomically
          | false => exact .failing (failExpecting_alike _ _ _)

/-- Definitions are built one after another up to the end of the text. -/
theorem continues_addDefinitions : (rounds : Nat) →
    Continues (Builder.addDefinitions rounds) (growDefinitions rounds)
  | 0 => .failing (failExpecting_alike _ _ _)
  | rounds + 1 => by
      refine .looking sure_get fun stream => ?_
      split
      · exact .done
      · exact adds_definition.continues.andThen (continues_addDefinitions rounds)

/-- A document has its node from the start, also where nothing follows. -/
theorem follows_document : Follows Builder.document document := by
  refine .reading sure_current.bare fun first => ?_
  refine Continues.opening (fun node => get >>= fun stream =>
    if stream.atEnd then keeping node (failExpecting definitionStarts "to begin a definition"
      [.general "a document must contain at least one operation or fragment"])
    else bound >>= fun rounds => growDefinitions rounds node) ?_ _ _
  refine .looking sure_get fun stream => ?_
  split
  · exact .failing (failExpecting_alike _ _ _)
  · exact .looking sure_bound continues_addDefinitions

/-- Every builder follows its production. -/
theorem follows_production : (production : Production) →
    Follows production.builder production.parser
  | .document => follows_document
  | .operation => follows_operation
  | .namedFragment => follows_namedFragment
  | .variableCollection => follows_variableDefinitions
  | .variable => follows_variableDefinition
  | .directive => follows_directive
  | .fieldCollection => follows_selectionSet
  | .field => follows_field follows_selectionSet
  | .fragmentSpread => follows_fragmentSpread
  | .inlineFragment => follows_inlineFragment follows_selectionSet
  | .inputItemCollection => follows_arguments
  | .inputItem => follows_inputItem adds_value
  | .scalarValue => follows_scalarValue
  | .listValue => follows_listValue adds_value
  | .complexValue => follows_objectValue adds_value
  | .enumValue => follows_enumValue
  | .nullValue => follows_nullValue
  | .variableValue => follows_variableValue

end NodeBuilder

namespace SyntaxTree

/-- One phrase was added: all of what is new lies at and below one new last child of `parent`. -/
structure ExtendedUnder (tree grown : SyntaxTree) (parent : NodeId) : Prop where
  generation : grown.generation = tree.generation
  /-- Nodes other than the parent are as they were. -/
  others : ∀ index < tree.size, index ≠ parent.index → grown.nodes[index]? = tree.nodes[index]?
  /-- The parent lists one more child, the first of the new places. -/
  listed : grown.nodes[parent.index]? =
    tree.nodes[parent.index]?.map (Node.addChildren [tree.size])
  owned : (grown.nodes[tree.size]?.bind Node.parent) = some parent.index
  /-- The new places are that child and what is below it. -/
  fresh : tree.size < grown.size ∧ grown.descendants (grown.idAt tree.size) =
    .ok (List.range' tree.size (grown.size - tree.size))

/-- A grafted phrase is new as a whole, and nothing else is but the link to it. -/
theorem extendedUnder_graft {tree : SyntaxTree} {parent : NodeId} (h : tree.Holds parent)
    (label : Label) (children : List Outline) :
    tree.ExtendedUnder (tree.graft parent.index (.node label children)) parent := by
  have hLength : (tree.nodes.toList.modify parent.index (Node.addChildren [tree.size])).length =
      tree.size := by simp [size_eq]
  have hOld (index : Nat) (hIndex : index < tree.size) :
      (tree.graft parent.index (.node label children)).nodes[index]? =
        (tree.nodes.toList.modify parent.index (Node.addChildren [tree.size]))[index]? := by
    rw [← Array.getElem?_toList, graft_node_nodes, List.getElem?_append_left (by omega)]
  have hSize := size_graft tree parent.index (.node label children)
  refine ⟨graft_generation .., fun index hIndex hOther => ?_, ?_, ?_, ?_, ?_⟩
  · rw [hOld index hIndex, List.getElem?_modify_ne _ _ hOther.symm, Array.getElem?_toList]
  · rw [hOld _ h.2, List.getElem?_modify_eq, Array.getElem?_toList]
    rfl
  · rw [← Array.getElem?_toList, graft_node_nodes, List.getElem?_append_right (by omega), hLength,
      Nat.sub_self]
    rfl
  · rw [hSize, Outline.count]
    omega
  · rw [descendants_graft, hSize, Nat.add_sub_cancel_left]

end SyntaxTree

/-- A builder run atomically under a node of any tree, on any stream, either stops because of the
text and leaves the tree as it was, or adds one phrase and changes nothing else. Both are what
`SyntaxTree.build` says of the production. -/
theorem Production.builder_atomic (production : Production) {tree : SyntaxTree} {parent : NodeId}
    (stream : TokenStream) (h : tree.Holds parent) :
    (∃ error after,
      Builder.atomically production.builder parent ⟨tree, stream⟩ =
        .error (.malformed error) ⟨tree, after⟩ ∧
      tree.build parent production stream = .ok ⟨.error error, tree, after⟩) ∨
    (∃ grown after,
      Builder.atomically production.builder parent ⟨tree, stream⟩ = .ok () ⟨grown, after⟩ ∧
      tree.build parent production stream = .ok ⟨.ok (), grown, after⟩ ∧
      tree.ExtendedUnder grown parent) := by
  obtain ⟨node, hNode⟩ := h.exists_node
  have hFollows := NodeBuilder.follows_production production
  have hCall := hFollows.atomically tree parent stream h
  have hMirrors := hFollows tree parent stream h
  rw [hCall]
  simp only [SyntaxTree.build, hNode, bind, Except.bind, pure, Except.pure]
  generalize production.parser stream = read at hMirrors
  generalize production.builder parent ⟨tree, stream⟩ = left at hMirrors
  cases hMirrors with
  | built label children after =>
      exact .inr ⟨_, after, rfl, rfl, SyntaxTree.extendedUnder_graft h label children⟩
  | broken error label children after => exact .inl ⟨error, after, rfl, rfl⟩
  | unopened error after => exact .inl ⟨error, after, rfl, rfl⟩

/-- A directive whose argument lacks its value, under a field that is already there. -/
theorem Production.builder_atomic_directive :
    let tree := ({} : SyntaxTree).graft 0 (.leaf .field {})
    let parent : NodeId := ⟨1, 0⟩
    let stream := (TokenStream.ofText "@skip(if: )").prime.2
    tree.Holds parent ∧
      ((∃ error after,
        Builder.atomically Production.directive.builder parent ⟨tree, stream⟩ =
          .error (.malformed error) ⟨tree, after⟩ ∧
        tree.build parent .directive stream = .ok ⟨.error error, tree, after⟩) ∨
      (∃ grown after,
        Builder.atomically Production.directive.builder parent ⟨tree, stream⟩ =
          .ok () ⟨grown, after⟩ ∧
        tree.build parent .directive stream = .ok ⟨.ok (), grown, after⟩ ∧
        tree.ExtendedUnder grown parent)) :=
  ⟨⟨rfl, by decide⟩, Production.directive.builder_atomic _ ⟨rfl, by decide⟩⟩

end GraphQL
