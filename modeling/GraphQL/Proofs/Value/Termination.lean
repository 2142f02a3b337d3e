import Mathlib.Logic.Relation
import GraphQL.Proofs.Value.Usages

/-! The resolution of values comes to an end in every document that was read from a text. It goes
down a value, and from a usage of a variable to the default of the variable; since no usage is in a
default, the second happens at most once on any way down. -/
namespace GraphQL

namespace Document

section Rules

variable (document : Document) (supplied : ResolvedMap)

/-- Whether the resolution of one value goes on to that of another. -/
inductive Calls : PartId → PartId → Prop where
  | item {list item : PartId} (hItem : item ∈ document.listItems list) : Calls list item
  | field {object : PartId} {field : String × PartId}
      (hField : field ∈ document.fieldValues object) : Calls object field.2
  | default {usage declared default : PartId} {name : String}
      (hUsage : document.supplied? usage = some (.variableUsage name))
      (hSupplied : supplied.lookup name = none)
      (hDeclaration : document.declaration usage = .ok declared)
      (hDefault : document.value? declared = some default) : Calls usage default

/-- What the resolution of a value comes to. The rules say nothing of how many steps it takes, so a
resolution that went on for ever would come to nothing. -/
inductive Resolves : PartId → Except ResolutionError Resolved → Prop where
  | scalar {id : PartId} {kind : ScalarKind} {text : String}
      (hValue : document.supplied? id = some (.scalar kind text)) :
      Resolves id (resolveScalar kind text)
  | enumeration {id : PartId} {name : String}
      (hValue : document.supplied? id = some (.enumeration name)) :
      Resolves id (.ok (.enumeration name))
  | null {id : PartId} (hValue : document.supplied? id = some .null) : Resolves id (.ok .null)
  | list {id : PartId} {answer : PartId → Except ResolutionError Resolved}
      (hValue : document.supplied? id = some .list)
      (hItems : ∀ item ∈ document.listItems id, Resolves item (answer item)) :
      Resolves id (((document.listItems id).mapM answer).map .list)
  | complex {id : PartId} {fields : List (String × PartId)}
      {answer : PartId → Except ResolutionError Resolved}
      (hValue : document.supplied? id = some (.complex fields))
      (hFields : ∀ field ∈ document.fieldValues id, Resolves field.2 (answer field.2)) :
      Resolves id (((document.fieldValues id).mapM fun field =>
        (answer field.2).map fun value => (field.1, value)).map .object)
  | supplied {id : PartId} {name : String} {value : Resolved}
      (hUsage : document.supplied? id = some (.variableUsage name))
      (hSupplied : supplied.lookup name = some value) : Resolves id (.ok value)
  | undeclared {id : PartId} {name : String} {cause : VariableError}
      (hUsage : document.supplied? id = some (.variableUsage name))
      (hSupplied : supplied.lookup name = none)
      (hDeclaration : document.declaration id = .error cause) :
      Resolves id (.error (.unresolvedVariable cause))
  | default {id declared default : PartId} {name : String}
      {result : Except ResolutionError Resolved}
      (hUsage : document.supplied? id = some (.variableUsage name))
      (hSupplied : supplied.lookup name = none)
      (hDeclaration : document.declaration id = .ok declared)
      (hDefault : document.value? declared = some default) (hResult : Resolves default result) :
      Resolves id result
  | noDefault {id declared : PartId} {name : String}
      (hUsage : document.supplied? id = some (.variableUsage name))
      (hSupplied : supplied.lookup name = none)
      (hDeclaration : document.declaration id = .ok declared)
      (hDefault : document.value? declared = none) : Resolves id (.ok .null)

end Rules

/-- What it means for the resolution of the values of a document to come to an end. -/
structure ResolutionEnds (document : Document) : Prop where
  /-- No usage of a variable is at or below a default. -/
  defaults : ∀ declared default, document.type? declared = some .variable →
    document.value? declared = some default → document.variableUsages default = []
  /-- What is resolved in the course of the resolution of a usage is no usage. -/
  never_back : ∀ supplied usage inner, document.type? usage = some .variableUsage →
    Relation.TransGen (document.Calls supplied) usage inner →
      document.type? inner ≠ some .variableUsage
  /-- No resolution goes on to others for ever. -/
  wellFounded : ∀ supplied, WellFounded fun inner outer => document.Calls supplied outer inner
  /-- The resolution of each value comes to one result, which is not that it was cut off. -/
  resolves : ∀ supplied id part, document.value? id = some part →
    ∃ literal, document.literal? id = some literal ∧
      (∀ result, document.Resolves supplied part result ↔
        result = document.resolve supplied literal) ∧
      ∀ name, document.resolve supplied literal ≠ .error (.cyclicDefault name)

variable {document : Document} {supplied : ResolvedMap}

/-- A bound on the steps that the resolution of a value takes. The step from a usage to a default
leaves the values with usages. -/
def rank (document : Document) (id : PartId) : Nat :=
  (if document.variableUsages id = [] then 0 else document.size + 1) + (document.size - id)

namespace IsRead

variable (hRead : document.IsRead)
include hRead

/-- Where no variable is used outside, none is used inside. -/
theorem variableUsages_inside {outer inner : PartId} (hInside : inner ∈ document.descendants outer)
    (hNone : document.variableUsages outer = []) : document.variableUsages inner = [] := by
  apply List.eq_nil_iff_forall_not_mem.2
  intro usage hUsage
  obtain ⟨hBelow, hType⟩ := mem_variableUsages.1 hUsage
  have hOuter := mem_variableUsages.2 ⟨hRead.mem_descendants_trans hInside hBelow, hType⟩
  rw [hNone] at hOuter
  cases hOuter

/-- A usage is at or below itself. -/
theorem variableUsages_ne_nil {usage : PartId}
    (hType : document.type? usage = some .variableUsage) : document.variableUsages usage ≠ [] := by
  intro hNone
  have hSelf := mem_variableUsages.2 ⟨hRead.mem_descendants.2 (.inl rfl), hType⟩
  rw [hNone] at hSelf
  cases hSelf

/-- The value of a child lies below its parent. -/
theorem inside_of_child {id child value : PartId} (hChild : child ∈ (document.children id).parts)
    (hValue : document.value? child = some value) :
    value ∈ document.descendants id ∧ id < value ∧ value < document.size := by
  obtain ⟨hLt, -, -⟩ := hRead.of_mem_children hChild
  obtain ⟨hLe, -⟩ := hRead.of_value? hValue
  obtain ⟨supplied, hSupplied⟩ := Option.isSome_iff_exists.1 (isSome_of_value? hValue)
  obtain ⟨part, hPart, -⟩ := supplied?_eq_some hSupplied
  exact ⟨hRead.mem_descendants_trans (hRead.mem_descendants_child hChild)
    (hRead.mem_descendants_of_value? hValue), Nat.lt_of_lt_of_le hLt hLe,
    (Array.getElem?_eq_some_iff.1 hPart).1⟩

/-- A resolution goes on to what lies below, or from a usage to a value without usages. -/
theorem inside_or_default {outer inner : PartId} (h : document.Calls supplied outer inner) :
    (inner ∈ document.descendants outer ∧ outer < inner ∧ inner < document.size ∧
      document.type? outer ≠ some .variableUsage) ∨
    (document.type? outer = some .variableUsage ∧ document.variableUsages inner = []) := by
  cases h with
  | item hItem =>
      left
      unfold listItems at hItem
      split at hItem
      · next hList =>
          obtain ⟨child, hChild, hValue⟩ := List.mem_filterMap.1 hItem
          obtain ⟨hInside, hLt, hSize⟩ := hRead.inside_of_child hChild hValue
          refine ⟨hInside, hLt, hSize, ?_⟩
          rw [type?_of_supplied? hList]
          decide
      · cases hItem
  | field hField =>
      left
      unfold fieldValues at hField
      split at hField
      · next fields hComplex =>
          obtain ⟨⟨name, field⟩, hEntry, hMapped⟩ := List.mem_filterMap.1 hField
          obtain ⟨value, hValue, rfl⟩ := Option.map_eq_some_iff.1 hMapped
          let object : WrittenValue := ⟨document, hRead, outer, by rw [hComplex]; rfl⟩
          have hObject : object.supplied = .complex fields := Option.get_of_mem _ hComplex
          have hChild := WrittenValue.mem_children_of_namedChildren
            (WrittenValue.mem_namedChildren hObject hEntry)
          obtain ⟨hInside, hLt, hSize⟩ := hRead.inside_of_child hChild hValue
          refine ⟨hInside, hLt, hSize, ?_⟩
          rw [type?_of_supplied? hComplex]
          simp [SuppliedValue.type]
      · cases hField
  | default hUsage hSupplied hDeclaration hDefault =>
      right
      exact ⟨type?_of_supplied? hUsage,
        hRead.variableUsages_default (hRead.type?_of_declaration hDeclaration) hDefault⟩

/-- Every call goes down in rank: to a value inside, or from a usage to a default, which uses none.
-/
theorem rank_lt {outer inner : PartId} (h : document.Calls supplied outer inner) :
    document.rank inner < document.rank outer := by
  unfold rank
  rcases hRead.inside_or_default h with ⟨hInside, hLt, hSize, -⟩ | ⟨hUsage, hConstant⟩
  · by_cases hNone : document.variableUsages outer = []
    · rw [if_pos hNone, if_pos (hRead.variableUsages_inside hInside hNone)]
      simp only [PartId] at *
      omega
    · rw [if_neg hNone]
      simp only [PartId] at *
      split <;> omega
  · rw [if_neg (hRead.variableUsages_ne_nil hUsage), if_pos hConstant]
    omega

/-- Calls cannot go on forever. -/
theorem calls_wellFounded (supplied : ResolvedMap) :
    WellFounded fun inner outer => document.Calls supplied outer inner :=
  Subrelation.wf (fun h => hRead.rank_lt h) (measure document.rank).wf

/-- On the way on from a usage there are values without usages alone. -/
theorem variableUsages_of_transGen {usage inner : PartId}
    (hUsage : document.type? usage = some .variableUsage)
    (h : Relation.TransGen (document.Calls supplied) usage inner) :
    document.variableUsages inner = [] := by
  induction h with
  | single hCall =>
      rcases hRead.inside_or_default hCall with ⟨-, -, -, hOther⟩ | ⟨-, hConstant⟩
      · exact absurd hUsage hOther
      · exact hConstant
  | tail _ hCall ih =>
      rcases hRead.inside_or_default hCall with ⟨hInside, -⟩ | ⟨-, hConstant⟩
      · exact hRead.variableUsages_inside hInside ih
      · exact hConstant

end IsRead

end Document

namespace WrittenValue

variable {value : WrittenValue}

/-- The items of a list are the parts of its values. -/
theorem listItems_eq (h : value.supplied = .list) :
    value.document.listItems value.part = value.items.map part := by
  have hSupplied := value.supplied_eq
  rw [h] at hSupplied
  rw [Document.listItems, hSupplied, items, List.map_filterMap]
  apply List.filterMap_congr
  intro child _
  rw [map_part_at?]

/-- The fields of an object are the parts of its values, each name once. -/
theorem fieldValues_eq {registered : List (String × PartId)}
    (h : value.supplied = .complex registered) :
    value.document.fieldValues value.part =
      value.entries.map fun entry => (entry.1, entry.2.part) := by
  rw [Document.fieldValues, supplied?_complex h, entries, registered_eq h, List.map_filterMap]
  apply List.filterMap_congr
  rintro ⟨name, field⟩ -
  dsimp only
  rw [← map_part_at?, Option.map_map, Option.map_map]
  rfl

end WrittenValue

namespace Document

variable {document : Document} {supplied : ResolvedMap}

/-- What the value `id` resolves to. -/
def answer (document : Document) (supplied : ResolvedMap) (id : PartId) :
    Except ResolutionError Resolved :=
  match document.literalAt id with
  | some literal => document.resolve supplied literal
  | none => .ok .null

/-- One step of the plain recursion, by what was supplied at the value `id`. -/
def resolveStep (document : Document) (supplied : ResolvedMap) (id : PartId) :
    SuppliedValue → Except ResolutionError Resolved
  | .scalar kind text => resolveScalar kind text
  | .enumeration name => .ok (.enumeration name)
  | .null => .ok .null
  | .list => ((document.listItems id).mapM (document.answer supplied)).map .list
  | .complex _ => ((document.fieldValues id).mapM fun field =>
      (document.answer supplied field.2).map fun value => (field.1, value)).map .object
  | .variableUsage name =>
    match supplied.lookup name with
    | some value => .ok value
    | none =>
      match document.declaration id with
      | .error cause => .error (.unresolvedVariable cause)
      | .ok declared =>
        match document.value? declared with
        | some default => document.answer supplied default
        | none => .ok .null

/-- The rule for a usage is one step of the resolution. -/
theorem usageRule_eq_step (id : PartId) (name : String) :
    document.usageRule supplied (document.resolve supplied) id name =
      document.resolveStep supplied id (.variableUsage name) := by
  rw [usageRule, resolveStep]
  cases supplied.lookup name with
  | some value => rfl
  | none =>
      cases document.declaration id with
      | error cause => rfl
      | ok declared =>
          simp only [literal?]
          cases hDefault : document.value? declared with
          | none => rfl
          | some default =>
              obtain ⟨literal, hLiteral⟩ :=
                Option.isSome_iff_exists.1 (literalAt_isSome (isSome_of_value? hDefault))
              simp only [Option.bind_some, answer, hLiteral]

/-- The tree of a value is resolved to the answer for the value. -/
theorem resolveWith_eq_answer (value : WrittenValue) (hDocument : value.document = document) :
    value.literal.resolveWith (document.usageRule supplied (document.resolve supplied)) =
      document.answer supplied value.part := by
  subst hDocument
  rw [answer, value.literalAt_eq]
  exact (value.isRead.resolve_eq supplied value.literal).symm

/-- An answer is one step of the resolution from the value's own part. -/
theorem answer_eq_step (value : WrittenValue) : value.document.answer supplied value.part =
    value.document.resolveStep supplied value.part value.supplied := by
  rw [← resolveWith_eq_answer value rfl, value.literal_eq]
  cases h : value.supplied with
  | list =>
      have hAnswers : (value.items.map WrittenValue.literal).mapM (Literal.resolveWith
          (value.document.usageRule supplied (value.document.resolve supplied))) =
            (value.document.listItems value.part).mapM (value.document.answer supplied) := by
        rw [WrittenValue.listItems_eq h, List.mapM_map, List.mapM_map]
        apply mapM_congr_mem
        intro item hItem
        exact resolveWith_eq_answer item (WrittenValue.below_of_mem_items hItem).document
      simp only [Literal.resolveWith, Literal.resolveAllWith_eq_mapM, hAnswers]
      exact except_bind_pure
  | complex fields =>
      have hAnswers : (value.entries.map fun entry => (entry.1, entry.2.literal)).mapM
          (fun field => (field.2.resolveWith
            (value.document.usageRule supplied (value.document.resolve supplied))).map
              fun answer => (field.1, answer)) =
          (value.document.fieldValues value.part).mapM fun field =>
            (value.document.answer supplied field.2).map fun answer => (field.1, answer) := by
        rw [WrittenValue.fieldValues_eq h, List.mapM_map, List.mapM_map]
        apply mapM_congr_mem
        intro entry hEntry
        have hBelow := WrittenValue.below_of_mem_entries h hEntry
        simp only [Function.comp, ← resolveWith_eq_answer entry.2 hBelow.document]
      simp only [Literal.resolveWith, Literal.resolveFieldsWith_eq_mapM, hAnswers]
      exact except_bind_pure
  | variableUsage name => exact usageRule_eq_step value.part name
  | _ => rfl

/-- The plain recursion: the answer for a value is made of the answers for what is in it. -/
theorem IsRead.answer_eq (hRead : document.IsRead) {id : PartId} {value : SuppliedValue}
    (h : document.supplied? id = some value) :
    document.answer supplied id = document.resolveStep supplied id value := by
  let written : WrittenValue := ⟨document, hRead, id, by rw [h]; rfl⟩
  have hWritten : written.supplied = value := Option.get_of_mem _ h
  rw [← hWritten]
  exact answer_eq_step written

/-- The resolution of each value comes to the answer for it. -/
theorem IsRead.resolves_answer (hRead : document.IsRead) (id : PartId) {value : SuppliedValue}
    (h : document.supplied? id = some value) :
    document.Resolves supplied id (document.answer supplied id) := by
  induction id using (hRead.calls_wellFounded supplied).induction generalizing value with
  | _ id ih =>
      have hCalled {inner : PartId} (hCall : document.Calls supplied id inner)
          (hInner : (document.supplied? inner).isSome = true) :
          document.Resolves supplied inner (document.answer supplied inner) := by
        obtain ⟨value, hValue⟩ := Option.isSome_iff_exists.1 hInner
        exact ih inner hCall hValue
      rw [hRead.answer_eq h]
      cases value with
      | scalar kind text => exact .scalar h
      | enumeration name => exact .enumeration h
      | null => exact .null h
      | list =>
          apply Resolves.list h
          intro item hItem
          have hCall : document.Calls supplied id item := .item hItem
          rw [listItems, h] at hItem
          obtain ⟨child, -, hValue⟩ := List.mem_filterMap.1 hItem
          exact hCalled hCall (isSome_of_value? hValue)
      | complex fields =>
          apply Resolves.complex h
          intro field hField
          have hCall : document.Calls supplied id field.2 := .field hField
          rw [fieldValues, h] at hField
          obtain ⟨entry, -, hMapped⟩ := List.mem_filterMap.1 hField
          obtain ⟨found, hValue, rfl⟩ := Option.map_eq_some_iff.1 hMapped
          exact hCalled hCall (isSome_of_value? hValue)
      | variableUsage name =>
          rw [resolveStep]
          cases hSupplied : supplied.lookup name with
          | some value => exact .supplied h hSupplied
          | none =>
              cases hDeclaration : document.declaration id with
              | error cause => exact .undeclared h hSupplied hDeclaration
              | ok declared =>
                  dsimp only
                  cases hDefault : document.value? declared with
                  | none => exact .noDefault h hSupplied hDeclaration hDefault
                  | some default =>
                      apply Resolves.default h hSupplied hDeclaration hDefault
                      exact hCalled (.default h hSupplied hDeclaration hDefault)
                        (isSome_of_value? hDefault)

/-- Nothing but the answer for a value comes of its resolution. -/
theorem IsRead.answer_of_resolves (hRead : document.IsRead) {id : PartId}
    {result : Except ResolutionError Resolved} (h : document.Resolves supplied id result) :
    result = document.answer supplied id := by
  induction h with
  | scalar hValue | enumeration hValue | null hValue => exact (hRead.answer_eq hValue).symm
  | list hValue _ ih =>
      rw [hRead.answer_eq hValue, resolveStep, mapM_congr_mem ih]
  | complex hValue _ ih =>
      rw [hRead.answer_eq hValue, resolveStep]
      congr 1
      apply mapM_congr_mem
      intro field hField
      rw [ih field hField]
  | supplied hUsage hSupplied => simp only [hRead.answer_eq hUsage, resolveStep, hSupplied]
  | undeclared hUsage hSupplied hDeclaration =>
      simp only [hRead.answer_eq hUsage, resolveStep, hSupplied, hDeclaration]
  | noDefault hUsage hSupplied hDeclaration hDefault =>
      simp only [hRead.answer_eq hUsage, resolveStep, hSupplied, hDeclaration, hDefault]
  | default hUsage hSupplied hDeclaration hDefault _ ih =>
      simp only [hRead.answer_eq hUsage, resolveStep, hSupplied, hDeclaration, hDefault, ih]

/-- A scalar never fails because of a cycle. -/
theorem resolveScalar_ne_cyclic (kind : ScalarKind) (text name : String) :
    resolveScalar kind text ≠ .error (.cyclicDefault name) := by
  cases kind with
  | boolean => simp [resolveScalar]
  | number =>
      rw [resolveScalar, resolveNumber]
      split <;> split <;> simp
  | string =>
      rw [resolveScalar]
      split <;> simp

/-- No resolution is cut off. -/
theorem Resolves.ne_cyclic {id : PartId} {result : Except ResolutionError Resolved}
    (h : document.Resolves supplied id result) (name : String) :
    result ≠ .error (.cyclicDefault name) := by
  induction h with
  | scalar => exact resolveScalar_ne_cyclic _ _ name
  | @list id answer _ _ ih =>
      intro hCyclic
      cases hItems : (document.listItems id).mapM answer with
      | ok results =>
          rw [hItems] at hCyclic
          cases hCyclic
      | error error =>
          rw [hItems] at hCyclic
          cases hCyclic
          obtain ⟨item, hItem, hError⟩ := (except_mapM_eq_error.1 hItems).exists_mem
          exact ih item hItem hError
  | @complex id fields answer _ _ ih =>
      intro hCyclic
      cases hFields : (document.fieldValues id).mapM fun field =>
          (answer field.2).map fun value => (field.1, value) with
      | ok results =>
          rw [hFields] at hCyclic
          cases hCyclic
      | error error =>
          rw [hFields] at hCyclic
          cases hCyclic
          obtain ⟨field, hField, hError⟩ := (except_mapM_eq_error.1 hFields).exists_mem
          cases hAnswer : answer field.2 with
          | ok value =>
              rw [hAnswer] at hError
              cases hError
          | error cause =>
              rw [hAnswer] at hError
              cases hError
              exact ih field hField hAnswer
  | default _ _ _ _ _ ih => exact ih
  | _ => simp

end Document

/-- In a document that was read from a text, the resolution of every value ends, whatever is
supplied for variables. -/
theorem Source.resolution_ends {source : Source} {document : Document} {events : List PartAdded}
    (h : source.document = .ok (document, events)) : document.ResolutionEnds := by
  have hRead : document.IsRead := ⟨source, events, h⟩
  constructor
  case defaults => exact fun declared default => hRead.variableUsages_default
  case never_back =>
    intro supplied usage inner hUsage hCalls hInner
    exact hRead.variableUsages_ne_nil hInner (hRead.variableUsages_of_transGen hUsage hCalls)
  case wellFounded => exact hRead.calls_wellFounded
  case resolves =>
    intro supplied id part hValue
    obtain ⟨value, rfl, rfl, hLiteral⟩ := WrittenValue.exists_of_value? hRead hValue
    have hAnswer : value.document.answer supplied value.part =
        value.document.resolve supplied value.literal := by
      rw [Document.answer, value.literalAt_eq]
    have hResolves : value.document.Resolves supplied value.part
        (value.document.resolve supplied value.literal) := by
      rw [← hAnswer]
      exact hRead.resolves_answer value.part value.supplied_eq
    refine ⟨value.literal, hLiteral, fun result => ⟨fun hResult => ?_, ?_⟩, hResolves.ne_cyclic⟩
    · rw [hRead.answer_of_resolves hResult, hAnswer]
    · rintro rfl
      exact hResolves

/-- Defaults with lists and objects in them, beside a directive that uses another variable. -/
theorem Source.resolution_ends_nested : ∃ document events,
    Source.document { text := "query($a:T=[{k:[1]}]@d(x:$b)$b:I=2){f(x:[$a])}" } =
      .ok (document, events) ∧ document.ResolutionEnds := by
  have hRead : (Source.document
      { text := "query($a:T=[{k:[1]}]@d(x:$b)$b:I=2){f(x:[$a])}" }).toOption.isSome = true := by
    decide +kernel
  cases hDocument :
      Source.document { text := "query($a:T=[{k:[1]}]@d(x:$b)$b:I=2){f(x:[$a])}" } with
  | error error =>
      rw [hDocument] at hRead
      cases hRead
  | ok read =>
      obtain ⟨document, events⟩ := read
      exact ⟨document, events, rfl, Source.resolution_ends hDocument⟩

end GraphQL
