import GraphQL.Proofs.Value.Written

/-! Equality of values. To be equal in one direction is to be found in the other value with all that
is in it, and two values that are equal in both directions differ in the order of fields alone. -/
namespace GraphQL

/-- What a value says when the order of its fields is left out. -/
inductive Canon where
  | scalar (kind : ScalarKind) (text : String)
  | enumeration (name : String)
  | null
  | list (items : List Canon)
  /-- What the first field of each name says, if there is one. -/
  | object (fields : String → Option Canon)
  | variableUsage (name : String)

namespace Literal

/-- Lists are equal item by item. -/
theorem areEqualTo_iff {items others : List Literal} : areEqualTo items others = true ↔
    List.Forall₂ (fun item other => item.isEqualTo other = true) items others := by
  induction items generalizing others with
  | nil => cases others <;> simp [areEqualTo]
  | cons item rest ih =>
      cases others with
      | nil => simp [areEqualTo]
      | cons other more => simp [areEqualTo, ih]

/-- Each field is found among the others. -/
theorem areWithin_iff {fields others : List (String × Literal)} :
    areWithin fields others = true ↔ ∀ field ∈ fields, ∃ other,
      others.lookup field.1 = some other ∧ field.2.isEqualTo other = true := by
  induction fields with
  | nil => simp [areWithin]
  | cons field rest ih =>
      rw [areWithin, Bool.and_eq_true, ih, List.forall_mem_cons, Option.any_eq_true]

end Literal

section Related

variable {α β : Type} {R : α → α → Prop}

/-- Relations item by item can be chained if they can for the items there are. -/
theorem forall₂_trans_of_mem {first second third : List α}
    (h : ∀ a ∈ first, ∀ b c, R a b → R b c → R a c) (hFirst : List.Forall₂ R first second)
    (hSecond : List.Forall₂ R second third) : List.Forall₂ R first third := by
  induction hFirst generalizing third with
  | nil => exact hSecond
  | cons hHead _ ih =>
      cases hSecond with
      | cons hNext hRest =>
          obtain ⟨hHere, hBelow⟩ := List.forall_mem_cons.1 h
          exact .cons (hHere _ _ hHead hNext) (ih hBelow hRest)

/-- Lists are related in both directions if their items have the same images, when this is how
items are related in both directions. -/
theorem forall₂_both_iff {image : α → β} {items others : List α}
    (h : ∀ a ∈ items, ∀ b, (R a b ∧ R b a) ↔ image a = image b) :
    (List.Forall₂ R items others ∧ List.Forall₂ R others items) ↔
      items.map image = others.map image := by
  induction items generalizing others with
  | nil => cases others <;> simp
  | cons item rest ih =>
      obtain ⟨hHere, hBelow⟩ := List.forall_mem_cons.1 h
      cases others with
      | nil => simp
      | cons other more =>
          rw [List.forall₂_cons, List.forall₂_cons, List.map_cons, List.map_cons,
            List.cons.injEq, ← hHere, ← ih hBelow]
          constructor
          · rintro ⟨⟨hHead, hRest⟩, hBack, hMore⟩
            exact ⟨⟨hHead, hBack⟩, hRest, hMore⟩
          · rintro ⟨⟨hHead, hBack⟩, hRest, hMore⟩
            exact ⟨⟨hHead, hRest⟩, hBack, hMore⟩

/-- Lookups that are related in both directions have the same images, when this is how what is found
first is related in both directions. -/
theorem lookups_both_iff {image : α → β} {first second : String → Option α}
    (h : ∀ name a, first name = some a → ∀ b, (R a b ∧ R b a) ↔ image a = image b) :
    ((∀ name a, first name = some a → ∃ b, second name = some b ∧ R a b) ∧
        ∀ name b, second name = some b → ∃ a, first name = some a ∧ R b a) ↔
      (fun name => (first name).map image) = fun name => (second name).map image := by
  constructor
  · rintro ⟨hFirst, hSecond⟩
    funext name
    cases hA : first name with
    | none =>
        cases hB : second name with
        | none => rfl
        | some b =>
            obtain ⟨a, hFound, -⟩ := hSecond name b hB
            rw [hA] at hFound
            cases hFound
    | some a =>
        obtain ⟨b, hB, hForth⟩ := hFirst name a hA
        obtain ⟨found, hFound, hBack⟩ := hSecond name b hB
        rw [hA] at hFound
        cases hFound
        rw [hB, Option.map_some, Option.map_some, (h name a hA b).1 ⟨hForth, hBack⟩]
  · intro hSame
    have hAt (name : String) : (first name).map image = (second name).map image :=
      congrFun hSame name
    constructor
    · intro name a hA
      have hName := hAt name
      rw [hA, Option.map_some, eq_comm] at hName
      obtain ⟨b, hB, hImage⟩ := Option.map_eq_some_iff.1 hName
      exact ⟨b, hB, ((h name a hA b).2 hImage.symm).1⟩
    · intro name b hB
      have hName := hAt name
      rw [hB, Option.map_some] at hName
      obtain ⟨a, hA, hImage⟩ := Option.map_eq_some_iff.1 hName
      exact ⟨a, hA, ((h name a hA b).2 hImage).2⟩

end Related

namespace WrittenValue

/-- What the value says when the order of fields is left out, and of the fields of an object all but
the first of each name. -/
def canon (value : WrittenValue) : Canon :=
  match value.supplied with
  | .scalar kind text => .scalar kind text
  | .enumeration name => .enumeration name
  | .null => .null
  | .list => .list (value.items.attach.map fun item => canon item.1)
  | .complex _ => .object fun name =>
    (value.fields.lookup name).attach.map fun field => canon field.1
  | .variableUsage name => .variableUsage name
termination_by value.document.size - value.part
decreasing_by
  · exact (below_of_mem_items item.2).measure_lt
  · exact (below_of_mem_fields (mem_of_lookup field.2)).measure_lt

/-- Whether the value equals another, except that an object equals one with more fields. -/
def isEqualTo (value other : WrittenValue) : Bool := value.literal.isEqualTo other.literal

/-- Whether each of two values is equal to the other. -/
def isStructurallyEqual (value other : WrittenValue) : Bool :=
  value.literal.isStructurallyEqual other.literal

variable {a b c : WrittenValue}

/-- The canonical form of a value, by its form and those of the values in it. -/
theorem canon_eq (value : WrittenValue) : value.canon =
    match value.supplied with
    | .scalar kind text => .scalar kind text
    | .enumeration name => .enumeration name
    | .null => .null
    | .list => .list (value.items.map canon)
    | .complex _ => .object fun name => (value.fields.lookup name).map canon
    | .variableUsage name => .variableUsage name := by
  rw [canon]
  cases value.supplied with
  | list => rw [List.attach_map_val]
  | complex registered =>
      apply congrArg Canon.object
      funext name
      rw [Option.attach_map_val]
  | _ => rfl

/-- An object equals another if each of its fields is equal to the one of its name there. -/
theorem areWithin_entries {registered others : List (String × PartId)}
    (hA : a.supplied = .complex registered) (hB : b.supplied = .complex others) :
    Literal.areWithin (a.entries.map fun entry => (entry.1, entry.2.literal))
        (b.entries.map fun entry => (entry.1, entry.2.literal)) = true ↔
      ∀ name field, a.fields.lookup name = some field →
        ∃ other, b.fields.lookup name = some other ∧ field.isEqualTo other = true := by
  rw [Literal.areWithin_iff]
  constructor
  · intro h name field hField
    rw [← lookup_entries hA] at hField
    obtain ⟨found, hFound, hEqual⟩ :=
      h _ (List.mem_map_of_mem (mem_of_lookup hField))
    rw [lookup_map, lookup_entries hB] at hFound
    obtain ⟨other, hOther, rfl⟩ := Option.map_eq_some_iff.1 hFound
    exact ⟨other, hOther, hEqual⟩
  · intro h entry hEntry
    obtain ⟨⟨name, field⟩, hMem, rfl⟩ := List.mem_map.1 hEntry
    have hField := lookup_of_mem (names_entries hA) hMem
    rw [lookup_entries hA] at hField
    obtain ⟨other, hOther, hEqual⟩ := h name field hField
    refine ⟨other.literal, ?_, hEqual⟩
    rw [lookup_map, lookup_entries hB, hOther]
    rfl

/-- Equality by what was supplied at the two values. -/
theorem isEqualTo_iff : a.isEqualTo b = true ↔
    match a.supplied, b.supplied with
    | .scalar kind text, .scalar otherKind otherText => kind = otherKind ∧ text = otherText
    | .enumeration name, .enumeration otherName => name = otherName
    | .null, .null => True
    | .list, .list =>
        List.Forall₂ (fun item other => item.isEqualTo other = true) a.items b.items
    | .complex _, .complex _ => ∀ name field, a.fields.lookup name = some field →
        ∃ other, b.fields.lookup name = some other ∧ field.isEqualTo other = true
    | .variableUsage name, .variableUsage otherName => name = otherName
    | _, _ => False := by
  unfold isEqualTo
  rw [literal_eq a, literal_eq b]
  cases hA : a.supplied with
  | list =>
      cases hB : b.supplied with
      | list =>
          rw [Literal.isEqualTo, Literal.areEqualTo_iff, List.forall₂_map_left_iff,
            List.forall₂_map_right_iff]
      | _ => simp [Literal.isEqualTo]
  | complex registered =>
      cases hB : b.supplied with
      | complex others =>
          rw [Literal.isEqualTo]
          exact areWithin_entries hA hB
      | _ => simp [Literal.isEqualTo]
  | _ => cases hB : b.supplied <;> simp [Literal.isEqualTo]

theorem isEqualTo_self (a : WrittenValue) : a.isEqualTo a = true := by
  induction a using inductionBelow with
  | step a ih =>
      rw [isEqualTo_iff]
      cases hA : a.supplied with
      | list =>
          apply List.forall₂_same.2
          intro item hItem
          exact ih item (below_of_mem_items hItem)
      | complex registered =>
          intro name field hField
          exact ⟨field, hField, ih field (below_of_mem_fields (mem_of_lookup hField))⟩
      | _ => simp

/-- Equality can be chained, also over three documents. -/
theorem isEqualTo_trans (hFirst : a.isEqualTo b = true) (hSecond : b.isEqualTo c = true) :
    a.isEqualTo c = true := by
  induction a using inductionBelow generalizing b c with
  | step a ih =>
      rw [isEqualTo_iff] at hFirst hSecond ⊢
      cases hA : a.supplied with
      | list =>
          cases hB : b.supplied with
          | list =>
              cases hC : c.supplied with
              | list =>
                  simp only [hA, hB, hC] at hFirst hSecond ⊢
                  refine forall₂_trans_of_mem (fun item hItem _ _ => ?_) hFirst hSecond
                  exact ih item (below_of_mem_items hItem)
              | _ => simp [hB, hC] at hSecond
          | _ => simp [hA, hB] at hFirst
      | complex registered =>
          cases hB : b.supplied with
          | complex others =>
              cases hC : c.supplied with
              | complex more =>
                  simp only [hA, hB, hC] at hFirst hSecond ⊢
                  intro name field hField
                  obtain ⟨middle, hMiddle, hEqual⟩ := hFirst name field hField
                  obtain ⟨last, hLast, hNext⟩ := hSecond name middle hMiddle
                  have hBelow := below_of_mem_fields (mem_of_lookup hField)
                  exact ⟨last, hLast, ih field hBelow hEqual hNext⟩
              | _ => simp [hB, hC] at hSecond
          | _ => simp [hA, hB] at hFirst
      | _ => 
          cases hB : b.supplied <;> cases hC : c.supplied <;> simp_all

/-- Values are structurally equal if either is equal to the other. -/
theorem isStructurallyEqual_iff :
    a.isStructurallyEqual b = true ↔ a.isEqualTo b = true ∧ b.isEqualTo a = true :=
  Bool.and_eq_true_iff

/-- Values that are equal in both directions are those that say the same. -/
theorem isEqualTo_both_iff (a b : WrittenValue) :
    (a.isEqualTo b = true ∧ b.isEqualTo a = true) ↔ a.canon = b.canon := by
  induction a using inductionBelow generalizing b with
  | step a ih =>
      rw [isEqualTo_iff, isEqualTo_iff, canon_eq a, canon_eq b]
      cases hA : a.supplied with
      | list =>
          cases hB : b.supplied with
          | list =>
              rw [Canon.list.injEq]
              apply forall₂_both_iff
              intro item hItem
              exact ih item (below_of_mem_items hItem)
          | _ => simp
      | complex registered =>
          cases hB : b.supplied with
          | complex others =>
              rw [Canon.object.injEq]
              apply lookups_both_iff
              intro name field hField
              exact ih field (below_of_mem_fields (mem_of_lookup hField))
          | _ => simp
      | _ => cases hB : b.supplied <;> simp [eq_comm]

end WrittenValue

/-- Equality in one direction is reflexive and transitive. Two values, perhaps of different
documents, are structurally equal exactly if they say the same but for the order of fields, so that
structural equality is an equivalence. -/
theorem WrittenValue.isStructurallyEqual_iff_canon :
    (∀ a : WrittenValue, a.isEqualTo a = true) ∧
    (∀ a b c : WrittenValue, a.isEqualTo b = true → b.isEqualTo c = true →
      a.isEqualTo c = true) ∧
    (∀ a b : WrittenValue, a.isStructurallyEqual b = true ↔ a.canon = b.canon) ∧
    Equivalence fun a b : WrittenValue => a.isStructurallyEqual b = true := by
  have hCanon (a b : WrittenValue) : a.isStructurallyEqual b = true ↔ a.canon = b.canon :=
    isStructurallyEqual_iff.trans (isEqualTo_both_iff a b)
  refine ⟨isEqualTo_self, fun _ _ _ => isEqualTo_trans, hCanon, ?_⟩
  constructor
  · intro a
    exact (hCanon a a).2 rfl
  · intro a b h
    exact (hCanon b a).2 ((hCanon a b).1 h).symm
  · intro a b c hFirst hSecond
    exact (hCanon a c).2 (((hCanon a b).1 hFirst).trans ((hCanon b c).1 hSecond))

end GraphQL
