import GraphQL.Proofs.Document.Arrangement
import GraphQL.Proofs.Document.Subtrees

/-! The scopes of variables. Definitions stand under the root and nowhere else, so each part below
one stands under exactly one operation or named fragment, however deep it lies. A usage of a
variable refers to what that scope itself declares, and named fragments declare nothing. -/
namespace GraphQL

/-- Whether a part of the type `below` may stand directly under one of the type `above`, wherever
among the others. -/
def PartType.admits : (above below : PartType) → Bool
  | .document, below => below.isVariableScope
  | .operation, below => below == .variable || below == .directive || below.isSelection
  | .variable, below => below.isSuppliedValue || below == .directive
  | .directive, below => below == .argument
  | .field, below => below == .argument || below == .directive || below.isSelection
  | .fragmentSpread, below => below == .directive
  | .inlineFragment, below | .namedFragment, below => below == .directive || below.isSelection
  | .argument, below | .inputObjectField, below | .listValue, below => below.isSuppliedValue
  | .complexValue, below => below == .inputObjectField
  | .scalarValue, _ | .enumValue, _ | .nullValue, _ | .variableUsage, _ => false

/-- A type in sections belongs to one of their classes. -/
theorem InSections.exists_of_mem {classes : List (PartType → Bool)} {types : List PartType}
    (h : InSections classes types) {type : PartType} (hType : type ∈ types) :
    ∃ p ∈ classes, p type = true := by
  induction classes generalizing types with
  | nil =>
      obtain rfl : types = [] := h
      cases hType
  | cons p classes ih =>
      obtain ⟨first, rest, rfl, hFirst, hRest⟩ := h
      rcases List.mem_append.1 hType with hType | hType
      · exact ⟨p, List.mem_cons_self, hFirst type hType⟩
      · obtain ⟨q, hq, hSatisfied⟩ := ih hRest hType
        exact ⟨q, List.mem_cons_of_mem _ hq, hSatisfied⟩

namespace PartType

/-- What is arranged below a part is admitted there. -/
theorem Arranges.admits {above below : PartType} {types : List PartType}
    (h : above.Arranges types) (hBelow : below ∈ types) : above.admits below = true := by
  cases above with
  | document =>
      rcases h.2 below hBelow with rfl | rfl <;> rfl
  | operation | field | inlineFragment | namedFragment =>
      simpa [PartType.admits, or_assoc] using InSections.exists_of_mem h hBelow
  | argument | inputObjectField =>
      obtain ⟨value, rfl, hValue⟩ := h
      rw [List.mem_singleton.1 hBelow]
      exact hValue
  | directive | fragmentSpread | complexValue =>
      obtain rfl := h below hBelow
      rfl
  | listValue => exact h below hBelow
  | scalarValue | enumValue | nullValue | variableUsage =>
      obtain rfl : types = [] := h
      cases hBelow
  | _ =>
      -- a declaration of a variable: its default, then directives
      obtain ⟨default, directives, rfl, -, hDefault, hDirectives⟩ := h
      rcases List.mem_append.1 hBelow with hBelow | hBelow
      · simp [PartType.admits, hDefault below hBelow]
      · simp [PartType.admits, hDirectives below hBelow]

/-- Definitions stand under the root alone, and nothing else does. -/
theorem isVariableScope_of_admits {above below : PartType} (h : above.admits below = true) :
    below.isVariableScope = true ↔ above = .document := by
  cases above <;> cases below <;> first | decide | cases h

/-- A document lies below nothing. -/
theorem not_admits_document (above : PartType) : above.admits .document = false := by
  cases above <;> rfl

end PartType

namespace Document

variable {document : Document}

/-- Whether `scope` is the one operation or named fragment that the part `id` stands under. -/
structure ScopeOf (document : Document) (scope id : PartId) : Prop where
  isScope : document.hasType PartType.isVariableScope scope = true
  under : Under document.parent? scope id
  only : ∀ other : PartId, document.hasType PartType.isVariableScope other = true →
    Under document.parent? other id → other = scope

/-- The variables called `name` among the children of a part, in order. -/
def variablesNamed (document : Document) (id : PartId) (name : String) : List PartId :=
  (document.children id).parts.filter fun child =>
    document.type? child == some .variable && document.name? child == some name

theorem hasType_of_type? {id : PartId} {type : PartType} (h : document.type? id = some type)
    (p : PartType → Bool) : document.hasType p id = p type := by
  rw [hasType, h, Option.any_some]

/-- A part that is no definition stands in the scope that its parent stands in. -/
theorem ScopeOf.child {scope id parent : Nat}
    (hScope : document.ScopeOf scope parent) (hParent : document.parent? id = some parent)
    (hOther : document.hasType PartType.isVariableScope id = false) :
    document.ScopeOf scope id where
  isScope := hScope.isScope
  under := hScope.under.trans (.of_parent hParent)
  only := by
    intro other hIsScope hUnder
    rcases Under.iff_parent.1 hUnder with rfl | ⟨above, hAbove, hUnder⟩
    · rw [hOther] at hIsScope
      cases hIsScope
    · cases hParent.symm.trans hAbove
      exact hScope.only other hIsScope hUnder

namespace IsRead

variable (h : document.IsRead)
include h

/-- A part may stand where it does. -/
theorem admits_of_parent {id parent : Nat} (hParent : document.parent? id = some parent) :
    ∃ above below, document.type? parent = some above ∧ document.type? id = some below ∧
      above.admits below = true := by
  have hChild := (h.sound.listed parent id).2 hParent
  cases hPart : document.part? parent with
  | none =>
      rw [children, hPart] at hChild
      cases hChild
  | some part =>
      obtain ⟨types, hTypes, hArranges⟩ := h.arranges hPart
      have hMem : document.type? id ∈ types.map some := by
        rw [← hTypes]
        exact List.mem_map_of_mem hChild
      obtain ⟨below, hBelow, hType⟩ := List.mem_map.1 hMem
      exact ⟨part.type, below, by rw [type?, hPart]; rfl, hType.symm, hArranges.admits hBelow⟩

/-- Nothing stands above a part of the type of the root. -/
theorem parent?_of_document {id : Nat} (hType : document.type? id = some .document) :
    document.parent? id = none := by
  cases hParent : document.parent? id with
  | none => rfl
  | some parent =>
      obtain ⟨above, below, -, hBelow, hAdmits⟩ := h.admits_of_parent hParent
      cases hType.symm.trans hBelow
      rw [PartType.not_admits_document] at hAdmits
      cases hAdmits

/-- A definition is its own scope: only the root is above it. -/
theorem scopeOf_definition {id parent : Nat} (hParent : document.parent? id = some parent)
    (hScope : document.hasType PartType.isVariableScope id = true)
    (hRoot : document.type? parent = some .document) : document.ScopeOf id id where
  isScope := hScope
  under := .refl id
  only := by
    intro other hOther hUnder
    rcases Under.iff_parent.1 hUnder with rfl | ⟨above, hAbove, hUnder⟩
    · rfl
    · cases hParent.symm.trans hAbove
      rcases Under.iff_parent.1 hUnder with rfl | ⟨top, hTop, -⟩
      · rw [hasType_of_type? hRoot] at hOther
        cases hOther
      · rw [h.parent?_of_document hRoot] at hTop
        cases hTop

/-- Each part below the root stands in one scope, or is one. -/
theorem exists_scopeOf {id : Nat} (hSize : id < document.size) (hBelow : id ≠ 0) :
    ∃ scope, document.ScopeOf scope id := by
  induction id using Nat.strong_induction_on with
  | _ id ih =>
      obtain ⟨parent, hParent⟩ : ∃ parent, document.parent? id = some parent := by
        rw [← Option.ne_none_iff_exists']
        exact fun hTop => hBelow ((h.sound.top id hSize).1 hTop)
      have hLess := h.sound.above id parent hParent
      obtain ⟨above, below, hAbove, hType, hAdmits⟩ := h.admits_of_parent hParent
      have hScope := PartType.isVariableScope_of_admits hAdmits
      cases hDefinition : below.isVariableScope with
      | true =>
          have hRoot : document.type? parent = some .document := by
            rw [hAbove, hScope.1 hDefinition]
          rw [← hasType_of_type? hType PartType.isVariableScope] at hDefinition
          exact ⟨id, h.scopeOf_definition hParent hDefinition hRoot⟩
      | false =>
          have hInner : parent ≠ 0 := by
            rintro rfl
            cases h.sound.root.symm.trans hAbove
            rw [hScope.2 rfl] at hDefinition
            cases hDefinition
          obtain ⟨scope, hParentScope⟩ := ih parent hLess (Nat.lt_trans hLess hSize) hInner
          rw [← hasType_of_type? hType PartType.isVariableScope] at hDefinition
          exact ⟨scope, hParentScope.child hParent hDefinition⟩

/-- The search among the parts above finds the scope that a part stands in. -/
theorem enclosingScope?_eq {scope id : Nat} (hScope : document.ScopeOf scope id)
    (hOther : document.hasType PartType.isVariableScope id = false) :
    document.enclosingScope? id = some scope := by
  have hAncestors {other : Nat} : other ∈ document.ancestors id ↔
      id ≠ other ∧ Under document.parent? other id := h.sound.mem_ancestors
  have hOuter : scope ∈ document.ancestors id := by
    refine hAncestors.2 ⟨?_, hScope.under⟩
    rintro rfl
    rw [hScope.isScope] at hOther
    cases hOther
  cases hFound : document.enclosingScope? id with
  | none => exact absurd hScope.isScope (List.find?_eq_none.1 hFound scope hOuter)
  | some found =>
      have hUnder := (hAncestors.1 (List.mem_of_find?_eq_some hFound)).2
      rw [hScope.only found (List.find?_some hFound) hUnder]

/-- The declarations of a name in a scope are the variables of that name among its children. -/
theorem declarations_eq (scope : PartId) (name : String) :
    document.declarations scope name = document.variablesNamed scope name := by
  rw [declarations, declaredVariables, h.sound.ofType, List.filter_filter, variablesNamed]
  apply List.filter_congr
  intro child _
  rw [Bool.and_comm, hasType]
  cases document.type? child <;> rfl

/-- A named fragment declares no variables. -/
theorem variablesNamed_fragment {fragment : PartId}
    (hFragment : document.type? fragment = some .namedFragment) (name : String) :
    document.variablesNamed fragment name = [] := by
  apply List.filter_eq_nil_iff.2
  intro child hChild hNamed
  have hParent := (h.sound.listed fragment child).1 hChild
  obtain ⟨above, below, hAbove, hBelow, hAdmits⟩ := h.admits_of_parent hParent
  cases hFragment.symm.trans hAbove
  rw [hBelow, Bool.and_eq_true, beq_iff_eq] at hNamed
  cases hNamed.1
  cases hAdmits

end IsRead

/-- What a usage of a variable refers to, by how many variables of its name the scope that it stands
in has among its children. -/
structure RefersWithin (document : Document) (usage : PartId) (name : String) (scope : PartId)
    (type : PartType) : Prop where
  scopeOf : document.ScopeOf scope usage
  type?_eq : document.type? scope = some type
  enclosing : document.enclosingScope? usage = some scope
  ok : ∀ declared : PartId, document.declaration usage = .ok declared ↔
    document.variablesNamed scope name = [declared]
  undeclared : document.declaration usage = .error (.undeclared name scope type) ↔
    (document.variablesNamed scope name).length = 0
  ambiguous : ∀ count : Nat, document.declaration usage = .error (.ambiguous name count) ↔
    (document.variablesNamed scope name).length = count ∧ 2 ≤ count
  inScope : ∀ other : String, document.declaration usage ≠ .error (.noScope other)
  /-- Variables of the operations that spread a fragment do not count in it. -/
  fragment : type = .namedFragment →
    document.declaration usage = .error (.undeclared name scope .namedFragment)

/-- A usage is looked up among the variables of its name in the scope that it stands in. -/
theorem declaration_eq {usage scope : PartId} {name : String} {type : PartType}
    (hUsage : document.supplied? usage = some (.variableUsage name))
    (hScope : document.enclosingScope? usage = some scope)
    (hType : document.type? scope = some type) : document.declaration usage =
      match document.declarations scope name with
      | [] => .error (.undeclared name scope type)
      | [declared] => .ok declared
      | several => .error (.ambiguous name several.length) := by
  generalize hDeclared : document.declarations scope name = declarations
  rcases declarations with _ | ⟨declared, _ | ⟨other, rest⟩⟩ <;>
    simp [declaration, hUsage, hScope, hType, hDeclared]

end Document

/-- In every document that is read from a text, a usage of a variable refers to the one variable of
its name that the operation or named fragment around it declares, and to none if that declares none
or several. -/
theorem Source.declaration_within_scope {source : Source} {document : Document}
    {events : List PartAdded} (h : source.document = .ok (document, events)) {usage : PartId}
    {name : String} (hUsage : document.supplied? usage = some (.variableUsage name)) :
    ∃ scope type, document.RefersWithin usage name scope type := by
  have hRead : document.IsRead := ⟨source, events, h⟩
  have hUsageType := Document.type?_of_supplied? hUsage
  have hOther : document.hasType PartType.isVariableScope usage = false :=
    Document.hasType_of_type? hUsageType _
  have hBelow : usage ≠ 0 := by
    rintro rfl
    cases hRead.sound.root.symm.trans hUsageType
  obtain ⟨part, hPart, -⟩ := Document.supplied?_eq_some hUsage
  have hSize : usage < document.size := (Array.getElem?_eq_some_iff.1 hPart).1
  obtain ⟨scope, hScopeOf⟩ := hRead.exists_scopeOf hSize hBelow
  obtain ⟨type, hType, -⟩ := (Option.any_eq_true _ _).1 hScopeOf.isScope
  have hEnclosing := hRead.enclosingScope?_eq hScopeOf hOther
  have hDeclaration := Document.declaration_eq hUsage hEnclosing hType
  rw [hRead.declarations_eq] at hDeclaration
  refine ⟨scope, type, ?_⟩
  constructor
  case scopeOf => exact hScopeOf
  case type?_eq => exact hType
  case enclosing => exact hEnclosing
  case ok =>
    intro declared
    rw [hDeclaration]
    split <;> simp_all
  case undeclared =>
    rw [hDeclaration]
    split <;> simp_all
  case ambiguous =>
    intro count
    rw [hDeclaration]
    rcases document.variablesNamed scope name with _ | ⟨first, _ | ⟨second, others⟩⟩
    · refine iff_of_false (by simp) ?_
      rintro ⟨rfl, hTwo⟩
      cases hTwo
    · refine iff_of_false (by simp) ?_
      rintro ⟨rfl, hTwo⟩
      exact absurd hTwo (Nat.lt_irrefl 1)
    · simp only [Except.error.injEq, VariableError.ambiguous.injEq, true_and, iff_self_and]
      rintro rfl
      exact Nat.le_add_left 2 others.length
  case inScope =>
    intro other
    rw [hDeclaration]
    split <;> simp
  case fragment =>
    rintro rfl
    rw [hDeclaration, hRead.variablesNamed_fragment hType]

/-- A usage deep in a fragment, while the operation that spreads the fragment declares its name. -/
theorem Source.declaration_within_scope_fragment : ∃ document events,
    Source.document { text := "query($v:I){...F}fragment F on T{a{b(x:[{k:$v}])}}" } =
      .ok (document, events) ∧ document.supplied? 11 = some (.variableUsage "v") ∧
      document.RefersWithin 11 "v" 4 .namedFragment := by
  have hRead : ((Source.document
      { text := "query($v:I){...F}fragment F on T{a{b(x:[{k:$v}])}}" }).toOption.any fun read =>
        read.1.supplied? 11 == some (.variableUsage "v") && read.1.enclosingScope? 11 == some 4 &&
          read.1.type? 4 == some .namedFragment) = true := by
    decide +kernel
  cases hDocument :
      Source.document { text := "query($v:I){...F}fragment F on T{a{b(x:[{k:$v}])}}" } with
  | error error =>
      rw [hDocument] at hRead
      cases hRead
  | ok read =>
      obtain ⟨document, events⟩ := read
      rw [hDocument] at hRead
      simp only [Except.toOption, Option.any_some, Bool.and_eq_true, beq_iff_eq] at hRead
      obtain ⟨⟨hUsage, hScope⟩, hType⟩ := hRead
      obtain ⟨scope, type, hRefers⟩ := Source.declaration_within_scope hDocument hUsage
      cases hScope.symm.trans hRefers.enclosing
      cases hType.symm.trans hRefers.type?_eq
      exact ⟨document, events, rfl, hUsage, hRefers⟩

end GraphQL
