import GraphQL.Proofs.Document.Defaults
import GraphQL.Proofs.Value.Agreement

/-! What the resolution of a value depends on: the usages of variables in it, each by its name and
its declaration. Defaults have no usages in them, so a document that was read resolves its values
by the plain recursion, with no bound on the steps from usages to defaults. -/
namespace GraphQL

namespace Literal

mutual

/-- The usages of variables in a value, in order. -/
def usages : Literal → List (PartId × String)
  | .list items => usagesAll items
  | .object fields => usagesIn fields
  | .variableUsage part name => [(part, name)]
  | .scalar _ _ | .enumeration _ | .null => []

def usagesAll : List Literal → List (PartId × String)
  | [] => []
  | item :: rest => item.usages ++ usagesAll rest

def usagesIn : List (String × Literal) → List (PartId × String)
  | [] => []
  | field :: rest => field.2.usages ++ usagesIn rest

end

/-- The usages of items are those of each, in order. -/
theorem usagesAll_eq (items : List Literal) : usagesAll items = items.flatMap usages := by
  induction items with
  | nil => rfl
  | cons item rest ih => rw [usagesAll, List.flatMap_cons, ih]

theorem usagesIn_eq (fields : List (String × Literal)) :
    usagesIn fields = fields.flatMap fun field => field.2.usages := by
  induction fields with
  | nil => rfl
  | cons field rest ih => rw [usagesIn, List.flatMap_cons, ih]

variable {first second : UsageRule}

mutual

/-- Rules that resolve the usages in a value alike resolve the value alike. -/
theorem resolveWith_congr : (literal : Literal) →
    (∀ usage ∈ literal.usages, first usage.1 usage.2 = second usage.1 usage.2) →
      literal.resolveWith first = literal.resolveWith second
  | .list items, h => by rw [resolveWith, resolveWith, resolveAllWith_congr items h]
  | .object fields, h => by rw [resolveWith, resolveWith, resolveFieldsWith_congr fields h]
  | .variableUsage part name, h => h (part, name) List.mem_cons_self
  | .scalar _ _, _ | .enumeration _, _ | .null, _ => by rw [resolveWith, resolveWith]

/-- Items are resolved alike where their usages are answered alike. -/
theorem resolveAllWith_congr : (items : List Literal) →
    (∀ usage ∈ usagesAll items, first usage.1 usage.2 = second usage.1 usage.2) →
      resolveAllWith first items = resolveAllWith second items
  | [], _ => rfl
  | item :: rest, h => by
      obtain ⟨hItem, hRest⟩ := List.forall_mem_append.1 h
      rw [resolveAllWith, resolveAllWith, resolveWith_congr item hItem,
        resolveAllWith_congr rest hRest]

theorem resolveFieldsWith_congr : (fields : List (String × Literal)) →
    (∀ usage ∈ usagesIn fields, first usage.1 usage.2 = second usage.1 usage.2) →
      resolveFieldsWith first fields = resolveFieldsWith second fields
  | [], _ => rfl
  | (name, value) :: rest, h => by
      obtain ⟨hValue, hRest⟩ := List.forall_mem_append.1 h
      rw [resolveFieldsWith, resolveFieldsWith, resolveWith_congr value hValue,
        resolveFieldsWith_congr rest hRest]

end

/-- What a value without usages resolves to. -/
def plain (literal : Literal) : Except ResolutionError Resolved :=
  literal.resolveWith fun _ _ => .ok .null

/-- The rule for usages does not matter to a value without them. -/
theorem resolveWith_eq_plain {literal : Literal} (h : literal.usages = []) (usage : UsageRule) :
    literal.resolveWith usage = literal.plain := by
  apply literal.resolveWith_congr
  intro usage hUsage
  rw [h] at hUsage
  cases hUsage

end Literal

namespace WrittenValue

/-- Where a usage in a value stands: at or below the value, in its scope. -/
structure Uses (value : WrittenValue) (part : PartId) (name : String) : Prop where
  inside : part ∈ value.document.variableUsages value.part
  supplied : value.document.supplied? part = some (.variableUsage name)
  scope : value.document.enclosingScope? part = value.scope?

/-- What a value inside uses is used by the value around it. -/
theorem Uses.of_below {inner outer : WrittenValue} {part : PartId} {name : String}
    (h : inner.Uses part name) (hBelow : inner.Below outer) : outer.Uses part name := by
  obtain ⟨hInside, hSupplied, hScope⟩ := h
  rw [hBelow.document] at hInside hSupplied hScope
  obtain ⟨hDescends, hType⟩ := Document.mem_variableUsages.1 hInside
  have hOuter := outer.isRead.mem_descendants_trans hBelow.inside hDescends
  exact ⟨Document.mem_variableUsages.2 ⟨hOuter, hType⟩, hSupplied, hScope.trans hBelow.scope⟩

/-- The usage of a variable uses that variable. -/
theorem uses_self {value : WrittenValue} {name : String}
    (h : value.supplied = .variableUsage name) : value.Uses value.part name := by
  have hSupplied := value.supplied_eq
  rw [h] at hSupplied
  obtain ⟨part, hPart, hData⟩ := Document.supplied?_eq_some hSupplied
  have hType : value.document.type? value.part = some .variableUsage := by
    rw [Document.type?, hPart, Option.map_some, Part.type, hData]
    rfl
  have hSelf := value.isRead.mem_descendants.2 (.inl (Eq.refl value.part))
  exact ⟨Document.mem_variableUsages.2 ⟨hSelf, hType⟩, hSupplied, rfl⟩

/-- The usages in the tree of a value stand at or below the value, in its scope. -/
theorem uses_of_mem_usages (value : WrittenValue) :
    ∀ usage ∈ value.literal.usages, value.Uses usage.1 usage.2 := by
  induction value using inductionBelow with
  | step value ih =>
      intro usage hUsage
      rw [literal_eq] at hUsage
      cases hSupplied : value.supplied with
      | list =>
          rw [hSupplied, Literal.usages, Literal.usagesAll_eq, List.flatMap_map] at hUsage
          obtain ⟨item, hItem, hUsage⟩ := List.mem_flatMap.1 hUsage
          have hBelow := below_of_mem_items hItem
          exact (ih item hBelow usage hUsage).of_below hBelow
      | complex registered =>
          rw [hSupplied, Literal.usages, Literal.usagesIn_eq, List.flatMap_map] at hUsage
          obtain ⟨entry, hEntry, hUsage⟩ := List.mem_flatMap.1 hUsage
          have hBelow := below_of_mem_entries hSupplied hEntry
          exact (ih entry.2 hBelow usage hUsage).of_below hBelow
      | variableUsage name =>
          rw [hSupplied, Literal.usages, List.mem_singleton] at hUsage
          rw [hUsage]
          exact uses_self hSupplied
      | _ =>
          rw [hSupplied] at hUsage
          cases hUsage

end WrittenValue

namespace Document

variable {document : Document}

/-- A declaration is found exactly if the scope around the usage declares the name once. -/
theorem declaration_eq_ok {usage declared : PartId} :
    document.declaration usage = .ok declared ↔ ∃ name scope,
      document.supplied? usage = some (.variableUsage name) ∧
        document.enclosingScope? usage = some scope ∧
          document.declarations scope name = [declared] := by
  unfold declaration
  constructor
  · intro h
    split at h
    · next name hUsage =>
        split at h
        · cases h
        · next scope hScope =>
            split at h
            · cases h
            · next found hFound =>
                cases h
                exact ⟨name, scope, hUsage, hScope, hFound⟩
            · cases h
    · cases h
  · rintro ⟨name, scope, hUsage, hScope, hFound⟩
    rw [hUsage]
    simp only [hScope, hFound]

namespace IsRead

variable (h : document.IsRead)
include h

/-- What a usage refers to is a variable. -/
theorem type?_of_declaration {usage declared : PartId}
    (hDeclaration : document.declaration usage = .ok declared) :
    document.type? declared = some .variable := by
  obtain ⟨name, scope, -, -, hFound⟩ := declaration_eq_ok.1 hDeclaration
  have hMem : declared ∈ document.declarations scope name := by
    rw [hFound]
    exact List.mem_cons_self
  rw [declarations, declaredVariables, h.ofType_children] at hMem
  have hType := (List.mem_filter.1 (List.mem_filter.1 hMem).1).2
  rw [hasType] at hType
  cases hFoundType : document.type? declared with
  | none =>
      rw [hFoundType] at hType
      cases hType
  | some type =>
      rw [hFoundType, Option.any_some, beq_iff_eq] at hType
      rw [hType]

/-- The tree of a default has no usages in it. -/
theorem usages_default {declared : PartId} {default : Literal}
    (hDeclared : document.type? declared = some .variable)
    (hDefault : document.literal? declared = some default) : default.usages = [] := by
  obtain ⟨part, hPart, -⟩ := Option.bind_eq_some_iff.1 hDefault
  obtain ⟨value, hDocument, rfl, hLiteral⟩ := WrittenValue.exists_of_value? h hPart
  rw [hDefault] at hLiteral
  cases hLiteral
  apply List.eq_nil_iff_forall_not_mem.2
  intro usage hUsage
  have hInside := (value.uses_of_mem_usages usage hUsage).inside
  rw [hDocument, h.variableUsages_default hDeclared hPart] at hInside
  cases hInside

omit h in
/-- A value without usages resolves without regard to what is supplied and to the bound on steps. -/
theorem resolveWithin_eq_plain {literal : Literal} (hConstant : literal.usages = [])
    (supplied : ResolvedMap) (steps : Nat) :
    document.resolveWithin supplied steps literal = literal.plain := by
  cases steps with
  | zero => exact Literal.resolveWith_eq_plain hConstant _
  | succ steps => exact Literal.resolveWith_eq_plain hConstant _

/-- The bound on steps does not matter to the rule for usages, since defaults have no usages. -/
theorem usageRule_eq_plain (supplied : ResolvedMap) (steps : Nat) :
    document.usageRule supplied (document.resolveWithin supplied steps) =
      document.usageRule supplied Literal.plain := by
  funext part name
  rw [usageRule, usageRule]
  cases supplied.lookup name with
  | some value => rfl
  | none =>
      cases hDeclaration : document.declaration part with
      | error cause => rfl
      | ok declared =>
          cases hDefault : document.literal? declared with
          | none => simp only [hDefault]
          | some default =>
              have hConstant := h.usages_default (h.type?_of_declaration hDeclaration) hDefault
              simp only [hDefault, resolveWithin_eq_plain hConstant]

/-- Defaults are resolved without a map, as they use no variables. -/
theorem resolve_eq_plain (supplied : ResolvedMap) (literal : Literal) :
    document.resolve supplied literal =
      literal.resolveWith (document.usageRule supplied Literal.plain) := by
  rw [← h.usageRule_eq_plain supplied document.size]
  rfl

/-- Values are resolved by the plain recursion, which reads defaults as it reads all values. -/
theorem resolve_eq (supplied : ResolvedMap) (literal : Literal) :
    document.resolve supplied literal =
      literal.resolveWith (document.usageRule supplied (document.resolve supplied)) := by
  rw [h.resolve_eq_plain, ← h.usageRule_eq_plain supplied (document.size + 1)]
  rfl

end IsRead

end Document

end GraphQL
