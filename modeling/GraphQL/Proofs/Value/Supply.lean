import GraphQL.Proofs.Value.Usages

/-! What the result of a resolution depends on among the values that are supplied: on those of the
variables that are used in the value, and a variable for which nothing is supplied counts as
supplied with its default. -/
namespace GraphQL

/-- What is put under a name is found there, and nothing else changes. -/
theorem ResolvedMap.lookup_put (name : String) (value : Resolved) (map : ResolvedMap)
    (other : String) : (map.put name value).lookup other =
      if other = name then some value else map.lookup other := by
  induction map with
  | nil =>
      by_cases hOther : other = name
      · simp [put, hOther]
      · rw [put, List.lookup_cons, beq_false_of_ne hOther, if_neg hOther]
  | cons entry rest ih =>
      obtain ⟨listed, old⟩ := entry
      by_cases hListed : listed = name
      · rw [put, if_pos hListed, List.lookup_cons, List.lookup_cons, hListed]
        by_cases hOther : other = name
        · simp [hOther]
        · rw [beq_false_of_ne hOther, if_neg hOther]
      · rw [put, if_neg hListed, List.lookup_cons, List.lookup_cons, ih]
        by_cases hOther : other = listed
        · simp [hOther, hListed]
        · rw [beq_false_of_ne hOther]

/-- What the default of a variable resolves to, which is null if there is none. -/
def Document.resolveDefault (document : Document) (supplied : ResolvedMap) (declared : PartId) :
    Except ResolutionError Resolved :=
  match document.literal? declared with
  | some default => document.resolve supplied default
  | none => .ok .null

namespace WrittenValue

variable {value : WrittenValue} {supplied others : ResolvedMap}

/-- A value is resolved alike where its usages are answered alike. -/
theorem resolve_congr (h : ∀ part name, value.Uses part name →
    value.document.usageRule supplied Literal.plain part name =
      value.document.usageRule others Literal.plain part name) :
    value.resolve supplied = value.resolve others := by
  rw [resolve, resolve, value.isRead.resolve_eq_plain, value.isRead.resolve_eq_plain]
  apply Literal.resolveWith_congr
  intro usage hUsage
  exact h usage.1 usage.2 (value.uses_of_mem_usages usage hUsage)

/-- A usage is answered alike where its name finds the same. -/
theorem usageRule_of_lookup {document : Document} {part : PartId} {name : String}
    {ofDefault : Literal → Except ResolutionError Resolved}
    (h : supplied.lookup name = others.lookup name) :
    document.usageRule supplied ofDefault part name =
      document.usageRule others ofDefault part name := by
  rw [Document.usageRule, Document.usageRule, h]

/-- A usage for which nothing is supplied is resolved to the default of its declaration. -/
theorem Uses.usageRule_default {part declared scope : PartId} {name : String} {result : Resolved}
    (h : value.Uses part name) (hScope : value.scope? = some scope)
    (hDeclared : value.document.declarations scope name = [declared])
    (hDefault : value.document.resolveDefault others declared = .ok result)
    (hSupplied : supplied.lookup name = none) :
    value.document.usageRule supplied Literal.plain part name = .ok result := by
  have hDeclaration : value.document.declaration part = .ok declared :=
    Document.declaration_eq_ok.2 ⟨name, scope, h.supplied, h.scope.trans hScope, hDeclared⟩
  have hType := value.isRead.type?_of_declaration hDeclaration
  rw [Document.usageRule, hSupplied, hDeclaration]
  rw [Document.resolveDefault] at hDefault
  cases hLiteral : value.document.literal? declared with
  | none =>
      simp only [hLiteral] at hDefault ⊢
      exact hDefault
  | some default =>
      have hConstant := value.isRead.usages_default hType hLiteral
      simp only [hLiteral] at hDefault ⊢
      rw [← hDefault]
      exact (Document.IsRead.resolveWithin_eq_plain hConstant others _).symm

/-- Supplying a variable that has one declaration in the scope of a value with what its default
resolves to changes nothing, and nothing matters to a value but what is supplied for the variables
that are used at or below it. -/
theorem resolve_depends_on_usages (value : WrittenValue) :
    (∀ scope name declared others result supplied, value.scope? = some scope →
      value.document.declarations scope name = [declared] →
      value.document.resolveDefault others declared = .ok result →
      supplied.lookup name = none →
      value.resolve (supplied.put name result) = value.resolve supplied) ∧
    ∀ supplied others, (∀ usage ∈ value.document.variableUsages value.part, ∀ name,
      value.document.supplied? usage = some (.variableUsage name) →
      supplied.lookup name = others.lookup name) →
      value.resolve supplied = value.resolve others := by
  constructor
  · intro scope name declared others result supplied hScope hDeclared hDefault hSupplied
    apply resolve_congr
    intro part used hUses
    by_cases hName : used = name
    · subst hName
      rw [hUses.usageRule_default hScope hDeclared hDefault hSupplied, Document.usageRule,
        ResolvedMap.lookup_put, if_pos rfl]
    · apply usageRule_of_lookup
      rw [ResolvedMap.lookup_put, if_neg hName]
  · intro supplied others hAgree
    apply resolve_congr
    intro part name hUses
    exact usageRule_of_lookup (hAgree part hUses.inside name hUses.supplied)

/-- A list with a usage of a variable that has a default. -/
theorem resolve_depends_on_usages_default : ∃ value : WrittenValue, value.part = 6 ∧
    (∃ events, Source.document { text := "query($v:I=7){f(x:[$v])}" } =
      .ok (value.document, events)) ∧
    value.scope? = some 1 ∧ value.document.declarations 1 "v" = [2] ∧
    value.document.resolveDefault [] 2 = .ok (.int 7) ∧
    value.document.variableUsages 6 = [7] ∧
    value.document.supplied? 7 = some (.variableUsage "v") ∧
    value.resolve (ResolvedMap.put "v" (.int 7) [("w", .null)]) = value.resolve [("w", .null)] ∧
    value.resolve [("v", .null), ("w", .null)] = value.resolve [("v", .null)] := by
  have hRead : ((Source.document { text := "query($v:I=7){f(x:[$v])}" }).toOption.any
      fun read => (read.1.supplied? 6).isSome && read.1.enclosingScope? 6 == some 1 &&
        read.1.declarations 1 "v" == [2] &&
        (read.1.resolveDefault [] 2).toOption.bind Resolved.int? == some 7 &&
        read.1.variableUsages 6 == [7] &&
        read.1.supplied? 7 == some (.variableUsage "v")) = true := by
    decide +kernel
  cases hDocument : Source.document { text := "query($v:I=7){f(x:[$v])}" } with
  | error error =>
      rw [hDocument] at hRead
      cases hRead
  | ok read =>
      obtain ⟨document, events⟩ := read
      rw [hDocument] at hRead
      simp only [Except.toOption, Option.any_some, Bool.and_eq_true, beq_iff_eq] at hRead
      obtain ⟨⟨⟨⟨⟨hValue, hScope⟩, hDeclared⟩, hNumber⟩, hUsages⟩, hUsage⟩ := hRead
      have hDefault : document.resolveDefault [] 2 = .ok (.int 7) := by
        cases hResult : document.resolveDefault [] 2 with
        | error error =>
            rw [hResult] at hNumber
            cases hNumber
        | ok result =>
            rw [hResult] at hNumber
            cases result <;> cases hNumber
            rfl
      let value : WrittenValue := ⟨document, ⟨_, events, hDocument⟩, 6, hValue⟩
      obtain ⟨hSupply, hAgree⟩ := resolve_depends_on_usages value
      refine ⟨value, rfl, ⟨events, rfl⟩, hScope, hDeclared, hDefault, hUsages, hUsage,
        hSupply 1 "v" 2 [] (.int 7) [("w", .null)] hScope hDeclared hDefault rfl,
        hAgree _ _ ?_⟩
      intro usage hMem name hName
      rw [show document.variableUsages value.part = [7] from hUsages,
        List.mem_singleton] at hMem
      subst hMem
      rw [show document.supplied? 7 = some (.variableUsage "v") from hUsage] at hName
      cases hName
      rfl

end WrittenValue

end GraphQL
