import GraphQL.Proofs.Document.Shape

/-! The defaults of variables are constants: in a document that was read from a text, no usage of a
variable stands at or below the default of one. The grammar refuses `$` among the tokens of a
default, and what the document holds of a default comes from those tokens. Directives on a variable
stand beside its default, and may use variables. -/
namespace GraphQL

/-- No usage of a variable is in the phrase. -/
abbrev Outline.Constant (phrase : Outline) : Prop :=
  phrase.All fun label => label.type ≠ .variableValue

/-- Each phrase of a variable has constants alone among the values in it. -/
inductive Outline.ConstantDefaults : Outline → Prop where
  | node {label : Label} {children : List Outline}
      (hDefault : label.type = .variable → ∀ c ∈ children, c.isValue = true → c.Constant)
      (hChildren : ∀ c ∈ children, c.ConstantDefaults) : ConstantDefaults (.node label children)

theorem Outline.All.children {P : Label → Prop} {label : Label} {children : List Outline}
    (h : (Outline.node label children).All P) : ∀ c ∈ children, c.All P := by
  cases h with | node _ hChildren => exact hChildren

theorem Outline.ConstantDefaults.children {label : Label} {children : List Outline}
    (h : (Outline.node label children).ConstantDefaults) : ∀ c ∈ children, c.ConstantDefaults := by
  cases h with | node _ hChildren => exact hChildren

/-- Phrases of tokens without `$` have no usages in them. -/
theorem Forms.constant {x : Symbol} {tokens : List Token} {phrase : Outline}
    (h : Forms x tokens phrase) (hTokens : Constant tokens) : phrase.Constant := by
  apply h.all _ _ List.infix_rfl
  · intro type head label hHead hInfix
    rw [hHead.type]
    rintro rfl
    cases hHead with
    | variableUsage hDollar hName => exact hTokens _ (hInfix.subset List.mem_cons_self) hDollar
  · intro type location hBlank hUsage
    cases hUsage
    cases hBlank

/-- Only a variable can have a default that is no constant. -/
theorem Head.constantDefaults {type : NodeType} {head : List Token} {label : Label}
    (h : Head type head label) (hType : type ≠ .variable) {children : List Outline}
    (hChildren : ∀ c ∈ children, c.ConstantDefaults) :
    (Outline.node label children).ConstantDefaults := by
  apply Outline.ConstantDefaults.node _ hChildren
  intro hVariable
  exact absurd (h.type.symm.trans hVariable) hType

/-- Phrases of the grammar declare variables with constants alone for defaults. -/
theorem Forms.constantDefaults {x : Symbol} {tokens : List Token} {phrase : Outline}
    (h : Forms x tokens phrase) : phrase.ConstantDefaults := by
  have hPhrases {pieces : List Piece} (hPieces : ∀ p ∈ pieces, p.2.ConstantDefaults) :
      ∀ c ∈ phrasesOf pieces, c.ConstantDefaults := List.forall_mem_map.2 hPieces
  induction h with
  | atom hValue hHead =>
      apply hHead.constantDefaults _ (by simp)
      rintro rfl
      cases hValue
  | enclosed hRule hOpen hItems hClose ih =>
      apply Outline.ConstantDefaults.node _ (hPhrases ih)
      rintro rfl
      cases hRule
  | argument hHead hValue ih => exact hHead.constantDefaults (by simp) (by simpa using ih)
  | directive hHead hArguments ih =>
      exact hHead.constantDefaults (by simp) (hPhrases (forall_mem_toList ih))
  | field hHead hArguments hDirectives hSelections ihArguments ihDirectives ihSelections =>
      exact hHead.constantDefaults (by simp) (hPhrases (List.forall_mem_append.2
        ⟨List.forall_mem_append.2 ⟨forall_mem_toList ihArguments, ihDirectives⟩,
          forall_mem_toList ihSelections⟩))
  | spread hHead hDirectives ih => exact hHead.constantDefaults (by simp) (hPhrases ih)
  | inline hHead hDirectives hSelections ihDirectives ihSelections
  | fragment hHead hDirectives hSelections ihDirectives ihSelections =>
      exact hHead.constantDefaults (by simp) (hPhrases (List.forall_mem_append.2
        ⟨ihDirectives, List.forall_mem_singleton.2 ihSelections⟩))
  | @declaration head label default directives hHead hEquals hConstant hDefault hDirectives
      ihDefault ihDirectives =>
      -- The values among the phrases inside are the default, since directives are none.
      apply Outline.ConstantDefaults.node
      · intro _ c hc hValue
        rcases List.mem_append.1 hc with hc | hc
        · obtain ⟨d, hd, rfl⟩ := List.mem_map.1 hc
          have hMem := Option.mem_toList.1 hd
          exact (hDefault d hMem).constant (hConstant d hMem)
        · obtain ⟨p, hp, rfl⟩ := List.mem_map.1 hc
          rw [(hDirectives p hp).not_value] at hValue
          cases hValue
      · intro c hc
        rcases List.mem_append.1 hc with hc | hc
        · obtain ⟨d, hd, rfl⟩ := List.mem_map.1 hc
          exact ihDefault d (Option.mem_toList.1 hd)
        · exact hPhrases ihDirectives c hc
  | shorthand hSelections ih =>
      apply Outline.ConstantDefaults.node
      · intro hVariable
        cases hVariable
      · exact List.forall_mem_singleton.2 ih
  | operation hHead hVariables hDirectives hSelections ihVariables ihDirectives ihSelections =>
      exact hHead.constantDefaults (by simp) (hPhrases (List.forall_mem_append.2
        ⟨List.forall_mem_append.2 ⟨forall_mem_toList ihVariables, ihDirectives⟩,
          List.forall_mem_singleton.2 ihSelections⟩))
  | document hFirst hDefinitions ih =>
      apply Outline.ConstantDefaults.node _ (hPhrases ih)
      intro hVariable
      cases hVariable

/-- A tree with no usage of a variable in it. -/
inductive PartTree.Constant : PartTree → Prop where
  | node {location : Position} {data : PartData} {children : List PartTree}
      (hData : data.type ≠ .variableUsage) (hChildren : ∀ c ∈ children, c.Constant) :
      Constant (.node location data children)

/-- A tree in which all values directly below a variable are constants. -/
inductive PartTree.ConstantDefaults : PartTree → Prop where
  | node {location : Position} {data : PartData} {children : List PartTree}
      (hDefault : data.type = .variable →
        ∀ c ∈ children, c.data.type.isSuppliedValue = true → c.Constant)
      (hChildren : ∀ c ∈ children, c.ConstantDefaults) :
      ConstantDefaults (.node location data children)

theorem PartTree.ConstantDefaults.children {location : Position} {data : PartData}
    {children : List PartTree} (h : (PartTree.node location data children).ConstantDefaults) :
    ∀ c ∈ children, c.ConstantDefaults := by
  cases h with | node _ hChildren => exact hChildren

/-- A part that is a value comes from a phrase that is one. -/
theorem Label.isValue_of_isSuppliedValue {source : Source} {context : Context} {label : Label}
    {data : PartData} (h : label.partData source context = .ok data)
    (hType : data.type.isSuppliedValue = true) : label.type.isValue = true := by
  rw [type_of_partData h]
  cases hData : data.type <;> rw [hData] at hType <;> first | rfl | cases hType

namespace Outline

variable {source : Source} {trees : List PartTree}

/-- Phrases without usages stand for trees without usages. -/
theorem inherits_constant (source : Source) : Inherits source Constant PartTree.Constant where
  phrases h := h.children
  part := by
    intro label children context data below hPhrase hData _ hBelow
    apply PartTree.Constant.node _ hBelow
    intro hUsage
    cases hPhrase with
    | node hLabel _ => exact hLabel (by rw [Label.type_of_partData hData, hUsage]; rfl)

/-- A phrase directly inside a variable stands for one part, which is a value if the phrase is. -/
theorem isValue_of_parts {phrase : Outline} (h : phrase.parts source .variable = .ok trees)
    {t : PartTree} (hTree : t ∈ trees) (hValue : t.data.type.isSuppliedValue = true) :
    phrase.isValue = true := by
  cases phrase with
  | missing index => cases h
  | node label children =>
      obtain ⟨data, below, hData, -, rfl⟩ := exists_of_parts rfl h
      cases List.mem_singleton.1 hTree
      exact Label.isValue_of_isSuppliedValue hData hValue

/-- The values among the parts of constant phrases are constant. -/
theorem constant_of_partsAll {phrases : List Outline}
    (hPhrases : ∀ c ∈ phrases, c.isValue = true → c.Constant)
    (h : partsAll source .variable phrases = .ok trees) :
    ∀ t ∈ trees, t.data.type.isSuppliedValue = true → t.Constant := by
  induction phrases generalizing trees with
  | nil =>
      cases h
      simp
  | cons phrase rest ih =>
      obtain ⟨hPhrase, hRest⟩ := List.forall_mem_cons.1 hPhrases
      simp only [partsAll, except_bind_eq_ok, except_pure_eq_ok] at h
      obtain ⟨first, hFirst, others, hOthers, rfl⟩ := h
      intro t hTree hValue
      rcases List.mem_append.1 hTree with hTree | hTree
      · have hConstant := hPhrase (isValue_of_parts hFirst hTree hValue)
        exact forall_parts (inherits_constant source) phrase hConstant hFirst t hTree
      · exact ih hRest hOthers t hTree hValue

/-- What phrases say of defaults, the trees that they stand for say too. -/
theorem inherits_constantDefaults (source : Source) :
    Inherits source ConstantDefaults PartTree.ConstantDefaults where
  phrases h := h.children
  part := by
    intro label children context data below hPhrase hData hInside hBelow
    apply PartTree.ConstantDefaults.node _ hBelow
    intro hVariable
    have hType : label.type = .variable := by
      rw [Label.type_of_partData hData, hVariable]
      rfl
    rw [hType] at hInside
    cases hPhrase with
    | node hDefault _ => exact constant_of_partsAll (hDefault hType) hInside

end Outline

namespace Document

variable {document : Document} {id : Nat}

/-- The usages of a part are the variables in use among what is below it. -/
theorem mem_variableUsages {usage : Nat} : usage ∈ document.variableUsages id ↔
    usage ∈ document.descendants id ∧ document.type? usage = some .variableUsage := by
  rw [variableUsages, List.mem_filter, hasType]
  cases document.type? usage <;> simp

/-- No part at or below the root of a tree without usages is a usage. -/
theorem Roots.not_usage (h : document.IsRead) {tree : PartTree} (hConstant : tree.Constant) :
    ∀ {id : Nat} {above : Option PartId}, document.Roots id above tree →
      ∀ inner ∈ document.descendants id, document.type? inner ≠ some .variableUsage := by
  induction hConstant with
  | @node location data children hData _ ih =>
      intro id above hRoots inner hInner hUsage
      rcases h.mem_descendants.1 hInner with rfl | ⟨child, hChild, hBelow⟩
      · rw [hRoots.type?_eq] at hUsage
        exact hData (Option.some.inj hUsage)
      · obtain ⟨-, tree, hTree, hChildRoots⟩ := hRoots.child hChild
        exact ih tree hTree hChildRoots inner hBelow hUsage

/-- Each part of a document that was read roots a tree in which defaults are constants. -/
theorem IsRead.exists_constantDefaults (h : document.IsRead) {part : Part}
    (hPart : document.part? id = some part) :
    ∃ above tree, PartTree.ConstantDefaults tree ∧ document.Roots id above tree := by
  refine IsRead.exists_tree ?_ h PartTree.ConstantDefaults.children hPart
  intro source tokens label children trees hForms hTrees
  apply PartTree.ConstantDefaults.node
  · intro hVariable
    cases hVariable
  · exact Outline.forall_partsAll (Outline.inherits_constantDefaults source) children
      hForms.constantDefaults.children hTrees

/-- No usage of a variable is at or below the default of a variable. -/
theorem IsRead.variableUsages_default (h : document.IsRead) {declared default : Nat}
    (hDeclared : document.type? declared = some .variable)
    (hDefault : document.value? declared = some default) :
    document.variableUsages default = [] := by
  obtain ⟨part, hPart, -⟩ := Option.map_eq_some_iff.1 hDeclared
  obtain ⟨above, ⟨location, data, below⟩, hConstant, hRoots⟩ := h.exists_constantDefaults hPart
  have hData : data.type = .variable := Option.some.inj (hRoots.type?_eq.symm.trans hDeclared)
  have hSelf : ¬document.hasType PartType.isSuppliedValue declared = true := by
    rw [hasType, hDeclared]
    decide
  have hHolder : document.hasType holdsValue declared = true := by
    rw [hasType, hDeclared]
    rfl
  rw [value?, if_neg hSelf, if_pos hHolder] at hDefault
  obtain ⟨-, tree, hTree, hTreeRoots⟩ := hRoots.child (List.mem_of_find?_eq_some hDefault)
  have hValue : tree.data.type.isSuppliedValue = true := by
    have hFound := List.find?_some hDefault
    rwa [hasType, hTreeRoots.type?_eq] at hFound
  cases hConstant with
  | node hDefaults _ =>
      apply List.eq_nil_iff_forall_not_mem.2
      intro usage hUsage
      obtain ⟨hInner, hType⟩ := mem_variableUsages.1 hUsage
      exact Roots.not_usage h (hDefaults hData tree hTree hValue) hTreeRoots usage hInner hType

end Document

end GraphQL
