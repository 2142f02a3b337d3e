import GraphQL.Proofs.Traversal
import GraphQL.Proofs.Value.Equality
import GraphQL.Value.Resolution

/-! Values that are structurally equal resolve alike. A usage of a variable is resolved by its name
and by the scope that it stands in, and what is in a value stands in the scope of the value. -/
namespace GraphQL

/-- What a resolved value is when the order of its fields is left out. -/
inductive Content where
  | null
  | boolean (value : Bool)
  | int (value : Int64)
  | float (value : Number.Binary64)
  | string (value : String)
  | enumeration (name : String)
  | list (items : List Content)
  | object (fields : String → Option Content)

namespace Resolved

mutual

def content : Resolved → Content
  | .null => .null
  | .boolean value => .boolean value
  | .int value => .int value
  | .float value => .float value
  | .string value => .string value
  | .enumeration name => .enumeration name
  | .list items => .list (contentAll items)
  | .object fields => .object (contentAt fields)

def contentAll : List Resolved → List Content
  | [] => []
  | item :: rest => item.content :: contentAll rest

/-- What is in the field called `name`. -/
def contentAt (fields : List (String × Resolved)) (name : String) : Option Content :=
  match fields with
  | [] => none
  | (listed, value) :: rest => if name = listed then some value.content else contentAt rest name

end

theorem contentAll_eq (items : List Resolved) : contentAll items = items.map content := by
  induction items with
  | nil => rfl
  | cons item rest ih => rw [contentAll, List.map_cons, ih]

/-- What a field holds is the content of what is found under its name. -/
theorem contentAt_eq (fields : List (String × Resolved)) (name : String) :
    contentAt fields name = (fields.lookup name).map content := by
  induction fields with
  | nil => rfl
  | cons field rest ih =>
      rw [contentAt, List.lookup_cons, ih]
      by_cases hName : name = field.1
      · rw [if_pos hName, hName, beq_self_eq_true]
        rfl
      · rw [if_neg hName, beq_false_of_ne hName]

end Resolved

/-- Whether two resolutions fail, or both succeed with values that differ in the order of fields
alone. -/
def ResolveAlike (first second : Except ResolutionError Resolved) : Prop :=
  match first, second with
  | .ok value, .ok other => value.content = other.content
  | .error _, .error _ => True
  | _, _ => False

section Results

variable {α β γ δ : Type} {R : α → γ → Prop}

/-- Items with the same images have results with the same contents. -/
theorem exists_results {image : α → β} {content : γ → δ} {items others : List α}
    {results : List γ} (hSame : items.map image = others.map image)
    (h : ∀ item ∈ items, ∀ other ∈ others, image item = image other → ∀ result, R item result →
      ∃ answer, R other answer ∧ content result = content answer)
    (hResults : List.Forall₂ R items results) :
    ∃ answers, List.Forall₂ R others answers ∧ results.map content = answers.map content := by
  induction hResults generalizing others with
  | nil =>
      cases others with
      | nil => exact ⟨[], .nil, rfl⟩
      | cons other more => cases hSame
  | @cons item result rest results hResult _ ih =>
      cases others with
      | nil => cases hSame
      | cons other more =>
          obtain ⟨hHead, hTail⟩ := List.cons.inj hSame
          obtain ⟨answer, hAnswer, hContent⟩ := h item List.mem_cons_self other
            List.mem_cons_self hHead result hResult
          obtain ⟨answers, hAnswers, hContents⟩ := ih hTail fun item hItem other hOther =>
            h item (List.mem_cons_of_mem _ hItem) other (List.mem_cons_of_mem _ hOther)
          refine ⟨answer :: answers, .cons hAnswer hAnswers, ?_⟩
          rw [List.map_cons, List.map_cons, hContent, hContents]

/-- If each item is related to some result, there are results for all of them in order. -/
theorem exists_forall₂ {items : List α} (h : ∀ item ∈ items, ∃ result, R item result) :
    ∃ results, List.Forall₂ R items results := by
  induction items with
  | nil => exact ⟨[], .nil⟩
  | cons item rest ih =>
      obtain ⟨hHead, hRest⟩ := List.forall_mem_cons.1 h
      obtain ⟨result, hResult⟩ := hHead
      obtain ⟨results, hResults⟩ := ih hRest
      exact ⟨result :: results, .cons hResult hResults⟩

end Results

namespace Literal

variable {usage : UsageRule}

/-- Items are resolved one after another. -/
theorem resolveAllWith_eq_mapM (usage : UsageRule) (items : List Literal) :
    resolveAllWith usage items = items.mapM (resolveWith usage) := by
  induction items with
  | nil => rfl
  | cons item rest ih => rw [resolveAllWith, List.mapM_cons, ih]

theorem resolveFieldsWith_eq_mapM (usage : UsageRule) (fields : List (String × Literal)) :
    resolveFieldsWith usage fields = fields.mapM fun field =>
      (resolveWith usage field.2).map fun value => (field.1, value) := by
  induction fields with
  | nil => rfl
  | cons field rest ih =>
      rw [resolveFieldsWith, List.mapM_cons, ih]
      cases resolveWith usage field.2 <;> rfl

/-- Items can be resolved exactly if each of them can. -/
theorem resolveAllWith_eq_ok {items : List Literal} {results : List Resolved} :
    resolveAllWith usage items = .ok results ↔
      List.Forall₂ (fun item result => resolveWith usage item = .ok result) items results := by
  rw [resolveAllWith_eq_mapM, except_mapM_eq_ok]

theorem resolveFieldsWith_eq_ok {fields : List (String × Literal)}
    {results : List (String × Resolved)} :
    resolveFieldsWith usage fields = .ok results ↔
      List.Forall₂ (fun field result => result.1 = field.1 ∧
        resolveWith usage field.2 = .ok result.2) fields results := by
  rw [resolveFieldsWith_eq_mapM, except_mapM_eq_ok]
  simp only [except_map_pair_eq_ok]

end Literal

/-- Usages of one variable in one scope have the same declaration. -/
theorem Document.declaration_congr {document : Document} {usage other : PartId} {name : String}
    (hUsage : document.supplied? usage = some (.variableUsage name))
    (hOther : document.supplied? other = some (.variableUsage name))
    (hScope : document.enclosingScope? usage = document.enclosingScope? other) :
    document.declaration usage = document.declaration other := by
  rw [declaration, declaration, hUsage, hOther, hScope]

namespace WrittenValue

/-- The value with usages of variables replaced by what is supplied. -/
def resolve (value : WrittenValue) (supplied : ResolvedMap) : Except ResolutionError Resolved :=
  value.document.resolve supplied value.literal

/-- Whether a value resolves to a result when usages of variables are resolved by the rule of a
document, with defaults read by `ofDefault`. -/
def ResolvesTo (document : Document) (supplied : ResolvedMap)
    (ofDefault : Literal → Except ResolutionError Resolved) (value : WrittenValue)
    (result : Resolved) : Prop :=
  value.literal.resolveWith (document.usageRule supplied ofDefault) = .ok result

variable {document : Document} {supplied : ResolvedMap}
  {ofDefault : Literal → Except ResolutionError Resolved}

/-- Resolution by what was supplied at the value. -/
theorem resolvesTo_iff (value : WrittenValue) {result : Resolved} :
    ResolvesTo document supplied ofDefault value result ↔
      match value.supplied with
      | .scalar kind text => resolveScalar kind text = .ok result
      | .enumeration name => .enumeration name = result
      | .null => .null = result
      | .list => ∃ results,
          List.Forall₂ (ResolvesTo document supplied ofDefault) value.items results ∧
            .list results = result
      | .complex _ => ∃ results, List.Forall₂ (fun entry result => result.1 = entry.1 ∧
          ResolvesTo document supplied ofDefault entry.2 result.2) value.entries results ∧
            .object results = result
      | .variableUsage name =>
          document.usageRule supplied ofDefault value.part name = .ok result := by
  rw [ResolvesTo, literal_eq]
  cases value.supplied with
  | list =>
      simp only [Literal.resolveWith, except_bind_eq_ok, except_pure_eq_ok,
        Literal.resolveAllWith_eq_ok, List.forall₂_map_left_iff]
      rfl
  | complex registered =>
      simp only [Literal.resolveWith, except_bind_eq_ok, except_pure_eq_ok,
        Literal.resolveFieldsWith_eq_ok, List.forall₂_map_left_iff]
      rfl
  | _ => simp [Literal.resolveWith]

/-- The rule for usages looks at the name and the scope of a usage alone. -/
theorem usageRule_congr {a b : WrittenValue} {name : String} (hA : a.document = document)
    (hB : b.document = document) (hScope : a.scope? = b.scope?)
    (hUsage : a.supplied = .variableUsage name) (hOther : b.supplied = .variableUsage name) :
    document.usageRule supplied ofDefault a.part name =
      document.usageRule supplied ofDefault b.part name := by
  subst hA
  have hFirst := a.supplied_eq
  have hSecond := b.supplied_eq
  rw [hUsage] at hFirst
  rw [hOther, hB] at hSecond
  rw [scope?, scope?, hB] at hScope
  rw [Document.usageRule, Document.usageRule,
    Document.declaration_congr hFirst hSecond hScope]

section Inner

variable {a b : WrittenValue} (hInner : ∀ inner other : WrittenValue, inner.Below a →
  other.Below b → inner.canon = other.canon → ∀ result,
    ResolvesTo document supplied ofDefault inner result →
      ∃ answer, ResolvesTo document supplied ofDefault other answer ∧
        result.content = answer.content)
include hInner

/-- Objects resolve alike if what is in them does. -/
theorem exists_resolved_entries {registered others : List (String × PartId)}
    (hA : a.supplied = .complex registered) (hB : b.supplied = .complex others)
    (hCanon : ∀ name, (a.fields.lookup name).map canon = (b.fields.lookup name).map canon)
    {results : List (String × Resolved)}
    (h : List.Forall₂ (fun entry result => result.1 = entry.1 ∧
      ResolvesTo document supplied ofDefault entry.2 result.2) a.entries results) :
    ∃ answers, List.Forall₂ (fun entry answer => answer.1 = entry.1 ∧
        ResolvesTo document supplied ofDefault entry.2 answer.2) b.entries answers ∧
      ∀ name, (results.lookup name).map Resolved.content =
        (answers.lookup name).map Resolved.content := by
  -- A field of `b` has one of its name in `a`, which resolves since all fields of `a` do.
  have hField (name : String) (other : WrittenValue)
      (hOther : b.fields.lookup name = some other) : ∃ result answer,
        results.lookup name = some result ∧
        ResolvesTo document supplied ofDefault other answer ∧
        result.content = answer.content := by
    have hName := hCanon name
    rw [hOther, Option.map_some] at hName
    obtain ⟨inner, hFound, hSame⟩ := Option.map_eq_some_iff.1 hName
    obtain ⟨result, hResult, hResolves⟩ :=
      (lookup_related h name).2 inner ((lookup_entries hA name).trans hFound)
    obtain ⟨answer, hAnswer, hContent⟩ := hInner inner other
      (below_of_mem_fields (mem_of_lookup hFound)) (below_of_mem_fields (mem_of_lookup hOther))
      hSame result hResolves
    exact ⟨result, answer, hResult, hAnswer, hContent⟩
  have hAll : ∀ entry ∈ b.entries, ∃ answer : String × Resolved, answer.1 = entry.1 ∧
      ResolvesTo document supplied ofDefault entry.2 answer.2 := by
    rintro ⟨name, other⟩ hEntry
    have hOther := lookup_of_mem (names_entries hB) hEntry
    rw [lookup_entries hB] at hOther
    obtain ⟨-, answer, -, hAnswer, -⟩ := hField name other hOther
    exact ⟨(name, answer), rfl, hAnswer⟩
  obtain ⟨answers, hAnswers⟩ := exists_forall₂ hAll
  refine ⟨answers, hAnswers, fun name => ?_⟩
  have hRelated := lookup_related hAnswers name
  rw [lookup_entries hB] at hRelated
  cases hOther : b.fields.lookup name with
  | none =>
      have hNone : a.fields.lookup name = none := by simpa [hOther] using hCanon name
      rw [hRelated.1 hOther, (lookup_related h name).1 ((lookup_entries hA name).trans hNone)]
  | some other =>
      obtain ⟨result, answer, hResult, hAnswer, hContent⟩ := hField name other hOther
      obtain ⟨found, hFound, hResolves⟩ := hRelated.2 other hOther
      cases Except.ok.inj (hResolves.symm.trans hAnswer)
      rw [hResult, hFound, Option.map_some, Option.map_some, hContent]

end Inner

/-- A value that says the same as one that resolves, in the same scope, resolves alike. -/
theorem exists_resolved (a b : WrittenValue) (hA : a.document = document)
    (hB : b.document = document) (hScope : a.scope? = b.scope?) (hCanon : a.canon = b.canon)
    {result : Resolved} (h : ResolvesTo document supplied ofDefault a result) :
    ∃ answer, ResolvesTo document supplied ofDefault b answer ∧
      result.content = answer.content := by
  induction a using inductionBelow generalizing b result with
  | step a ih =>
      -- What is in the two values stands in the scope of both, so that the induction goes through.
      have hInner (inner other : WrittenValue) (hInA : inner.Below a) (hInB : other.Below b)
          (hSame : inner.canon = other.canon) (result : Resolved)
          (hResult : ResolvesTo document supplied ofDefault inner result) :=
        ih inner hInA other (hInA.document.trans hA) (hInB.document.trans hB)
          (hInA.scope.trans (hScope.trans hInB.scope.symm)) hSame hResult
      rw [resolvesTo_iff] at h
      simp only [resolvesTo_iff b]
      rw [canon_eq a, canon_eq b] at hCanon
      cases hSupplied : a.supplied with
      | list =>
          cases hOther : b.supplied with
          | list =>
              simp only [hSupplied, hOther, Canon.list.injEq] at h hCanon ⊢
              obtain ⟨results, hResults, rfl⟩ := h
              obtain ⟨answers, hAnswers, hContents⟩ := exists_results hCanon
                (fun item hItem other hOther => hInner item other (below_of_mem_items hItem)
                  (below_of_mem_items hOther)) hResults
              refine ⟨.list answers, ⟨answers, hAnswers, rfl⟩, ?_⟩
              rw [Resolved.content, Resolved.content, Resolved.contentAll_eq,
                Resolved.contentAll_eq, hContents]
          | _ => simp [hSupplied, hOther] at hCanon
      | complex registered =>
          cases hOther : b.supplied with
          | complex others =>
              simp only [hSupplied, hOther, Canon.object.injEq] at h hCanon ⊢
              obtain ⟨results, hResults, rfl⟩ := h
              obtain ⟨answers, hAnswers, hContents⟩ := exists_resolved_entries hInner hSupplied
                hOther (fun name => congrFun hCanon name) hResults
              refine ⟨.object answers, ⟨answers, hAnswers, rfl⟩, ?_⟩
              rw [Resolved.content, Resolved.content]
              apply congrArg Content.object
              funext name
              rw [Resolved.contentAt_eq, Resolved.contentAt_eq, hContents]
          | _ => simp [hSupplied, hOther] at hCanon
      | variableUsage name =>
          cases hOther : b.supplied with
          | variableUsage other =>
              simp only [hSupplied, hOther, Canon.variableUsage.injEq] at h hCanon ⊢
              subst hCanon
              rw [usageRule_congr hA hB hScope hSupplied hOther] at h
              exact ⟨result, h, rfl⟩
          | _ => simp [hSupplied, hOther] at hCanon
      | _ =>
          cases hOther : b.supplied <;> simp_all

end WrittenValue

/-- Two values of one document that stand in one scope and are structurally equal resolve alike,
whatever is supplied for variables. -/
theorem WrittenValue.resolve_alike {a b : WrittenValue} (hDocument : a.document = b.document)
    (hScope : a.scope? = b.scope?) (hEqual : a.isStructurallyEqual b = true)
    (supplied : ResolvedMap) : ResolveAlike (a.resolve supplied) (b.resolve supplied) := by
  have hCanon := (isEqualTo_both_iff a b).1 (isStructurallyEqual_iff.1 hEqual)
  let ofDefault := a.document.resolveWithin supplied a.document.size
  have hFirst (result : Resolved) : a.resolve supplied = .ok result ↔
      ResolvesTo a.document supplied ofDefault a result := Iff.rfl
  have hSecond (result : Resolved) : b.resolve supplied = .ok result ↔
      ResolvesTo a.document supplied ofDefault b result := by
    rw [resolve, ← hDocument]
    rfl
  cases hA : a.resolve supplied with
  | ok value =>
      obtain ⟨other, hOther, hContent⟩ :=
        exists_resolved a b rfl hDocument.symm hScope hCanon ((hFirst value).1 hA)
      rw [(hSecond other).2 hOther]
      exact hContent
  | error fault =>
      cases hB : b.resolve supplied with
      | error other => trivial
      | ok other =>
          obtain ⟨value, hValue, -⟩ := exists_resolved b a hDocument.symm rfl hScope.symm
            hCanon.symm ((hSecond other).1 hB)
          rw [(hFirst value).2 hValue] at hA
          cases hA

/-- Two objects with their fields in different orders, one of which repeats a name. -/
theorem WrittenValue.resolve_alike_reordered :
    ∃ a b : WrittenValue, a.part = 4 ∧ b.part = 11 ∧
      (∃ events, Source.document { text := "{a(x:{p:$v q:[1]}y:{q:[1]p:$v p:2})}" } =
        .ok (a.document, events)) ∧
      a.document = b.document ∧ a.scope? = b.scope? ∧ a.isStructurallyEqual b = true ∧
      ∀ supplied, ResolveAlike (a.resolve supplied) (b.resolve supplied) := by
  have hRead : ((Source.document { text := "{a(x:{p:$v q:[1]}y:{q:[1]p:$v p:2})}" }).toOption.any
      fun read => (read.1.supplied? 4).isSome && (read.1.supplied? 11).isSome &&
        read.1.enclosingScope? 4 == read.1.enclosingScope? 11 &&
        (read.1.literalAt 4).any fun literal =>
          (read.1.literalAt 11).any literal.isStructurallyEqual) = true := by
    decide +kernel
  cases hDocument : Source.document { text := "{a(x:{p:$v q:[1]}y:{q:[1]p:$v p:2})}" } with
  | error error =>
      rw [hDocument] at hRead
      cases hRead
  | ok read =>
      obtain ⟨document, events⟩ := read
      rw [hDocument] at hRead
      simp only [Except.toOption, Option.any_some, Bool.and_eq_true, beq_iff_eq] at hRead
      obtain ⟨⟨⟨hA, hB⟩, hScope⟩, hLiterals⟩ := hRead
      let a : WrittenValue := ⟨document, ⟨_, events, hDocument⟩, 4, hA⟩
      let b : WrittenValue := ⟨document, ⟨_, events, hDocument⟩, 11, hB⟩
      have hEqual : a.isStructurallyEqual b = true := by
        rw [show document.literalAt 4 = some a.literal from a.literalAt_eq,
          show document.literalAt 11 = some b.literal from b.literalAt_eq] at hLiterals
        exact hLiterals
      exact ⟨a, b, rfl, rfl, ⟨events, rfl⟩, rfl, hScope, hEqual,
        WrittenValue.resolve_alike rfl hScope hEqual⟩

end GraphQL
