import GraphQL.Document.Edit
import GraphQL.Proofs.Document.Shape
import GraphQL.Proofs.Lookup
import Mathlib.Data.List.Nodup

/-! Documents as they grow. A document is changed by attaching parts and by entering fields of
objects, and whatever the order of the changes, its parts, child lists and indexes agree: what a new
part adds to each of them is said once, and all else is left as it was. -/
namespace GraphQL

/-- Entering a field does not change the type or the name of a part, nor where it stands. -/
theorem Part.register_keeps (part : Part) (id : PartId) (data : PartData) :
    (part.register id data).type = part.type ∧ (part.register id data).parent = part.parent ∧
      (part.register id data).children = part.children ∧
      (part.register id data).data.name? = part.data.name? := by
  unfold register
  split
  · next name value hValue =>
      refine ⟨?_, rfl, rfl, ?_⟩
      · rw [type, type, hValue]
        cases value <;> rfl
      · rw [hValue]
        rfl
  · exact ⟨rfl, rfl, rfl, rfl⟩

namespace Document

/-- The named fragments in the order of their numbers, each under its name. -/
def fragmentEntries (document : Document) : List (String × PartId) :=
  ((List.range document.size).filter (document.hasType (· == .namedFragment))).filterMap
    document.named?

/-- Whether the parts of a document, their child lists and the indexes say the same. -/
structure Sound (document : Document) : Prop where
  /-- The first part is the root. -/
  root : document.type? 0 = some .document
  /-- Only the root has nothing above it. -/
  top : ∀ id : Nat, id < document.size → (document.parent? id = none ↔ id = 0)
  above : ∀ id parent : Nat, document.parent? id = some parent → parent < id
  /-- The children of a part are those that it is above. -/
  listed : ∀ owner child : Nat, child ∈ (document.children owner).parts ↔
    document.parent? child = some owner
  increasing : ∀ owner : Nat, (document.children owner).parts.Pairwise (· < ·)
  owner : ∀ owner : Nat, (document.children owner).owner = owner
  ofType : ∀ (owner : Nat) (type : PartType), (document.children owner).ofType type =
    (document.children owner).parts.filter (document.hasType (· == type))
  /-- The types that children are listed under come in the order in which they first appear. -/
  types : ∀ owner : Nat, (document.children owner).byType.map Prod.fst =
    ((document.children owner).parts.filterMap document.type?).eraseDups
  operations : document.operations =
    (List.range document.size).filter (document.hasType (· == .operation))
  namedFragments : Firsts document.fragmentEntries document.namedFragments

/-- An operation is listed among those of the document. -/
theorem operations_enter (document : Document) (id : PartId) (data : PartData) :
    (document.enter id data).operations =
      document.operations ++ if (data.type == .operation) = true then [id] else [] := by
  cases data with
  | operation type name => rfl
  | namedFragment name condition =>
      simp only [enter]
      split <;> exact (List.append_nil _).symm
  | suppliedValue value => cases value <;> exact (List.append_nil _).symm
  | _ => exact (List.append_nil _).symm

/-- A fragment definition is found under its name from then on. -/
theorem namedFragments_enter (document : Document) (id : PartId) (data : PartData) :
    (document.enter id data).namedFragments =
      match data with
      | .namedFragment name _ =>
        if (document.namedFragments.lookup name).isSome then document.namedFragments
        else document.namedFragments ++ [(name, id)]
      | _ => document.namedFragments := by
  cases data with
  | namedFragment name condition =>
      simp only [enter]
      split <;> rfl
  | _ => rfl

section Attached

variable (document : Document) (parent : PartId) (location : Position) (data : PartData)

/-- The new part comes last and knows its parent. -/
theorem part?_attached (id : Nat) : (document.attached parent location data).part? id =
    if id = document.size then some ⟨some parent, { owner := document.size }, location, data⟩
    else if id = parent then (document.part? id).map (Part.list document.size data.type)
    else document.part? id := by
  simp only [part?, attached, enter_parts, Array.getElem?_push, Array.size_modify,
    Array.getElem?_modify, size, eq_comm (a := parent)]
  rfl

/-- What a part says apart from its children is not changed by a new part. -/
theorem bind_attached {α : Type} (view : Part → Option α)
    (h : ∀ (part : Part) (id : PartId) (type : PartType), view (part.list id type) = view part)
    (id : Nat) : ((document.attached parent location data).part? id).bind view =
      if id = document.size then view ⟨some parent, { owner := document.size }, location, data⟩
      else (document.part? id).bind view := by
  rw [part?_attached]
  by_cases hNew : id = document.size
  · rw [if_pos hNew, if_pos hNew, Option.bind_some]
  · rw [if_neg hNew, if_neg hNew]
    by_cases hParent : id = parent
    · rw [if_pos hParent]
      cases document.part? id with
      | none => rfl
      | some part => exact h part _ _
    · rw [if_neg hParent]

theorem type?_attached (id : Nat) : (document.attached parent location data).type? id =
    if id = document.size then some data.type else document.type? id := by
  simp only [type?, Option.map_eq_bind]
  exact document.bind_attached parent location data _ (fun _ _ _ => rfl) id

/-- The parents of all other parts stay. -/
theorem parent?_attached (id : Nat) : (document.attached parent location data).parent? id =
    if id = document.size then some parent else document.parent? id :=
  document.bind_attached parent location data _ (fun _ _ _ => rfl) id

theorem name?_attached (id : Nat) : (document.attached parent location data).name? id =
    if id = document.size then data.name? else document.name? id :=
  document.bind_attached parent location data _ (fun _ _ _ => rfl) id

/-- The types of all other parts stay. -/
theorem hasType_attached (p : PartType → Bool) (id : Nat) :
    (document.attached parent location data).hasType p id =
      if id = document.size then p data.type else document.hasType p id := by
  rw [hasType, type?_attached, hasType]
  split <;> rfl

theorem named?_attached (id : Nat) : (document.attached parent location data).named? id =
    if id = document.size then data.name?.map fun name => (name, id) else document.named? id := by
  rw [named?, name?_attached, named?]
  split <;> rfl

/-- A new part comes last among the parts of its type. -/
theorem filter_attached (p : PartType → Bool) :
    (List.range (document.attached parent location data).size).filter
        ((document.attached parent location data).hasType p) =
      (List.range document.size).filter (document.hasType p) ++
        if p data.type = true then [document.size] else [] := by
  rw [size_attached, List.range_succ, List.filter_append]
  congr 1
  · apply List.filter_congr
    intro id hId
    rw [hasType_attached, if_neg (Nat.ne_of_lt (List.mem_range.1 hId))]
  · rw [List.filter_cons, hasType_attached, if_pos rfl, List.filter_nil]

/-- A fragment definition is entered behind those that were there. -/
theorem fragmentEntries_attached : (document.attached parent location data).fragmentEntries =
    document.fragmentEntries ++ match data with
      | .namedFragment name _ => [(name, document.size)]
      | _ => [] := by
  rw [fragmentEntries, filter_attached, List.filterMap_append, fragmentEntries]
  congr 1
  · apply List.filterMap_congr
    intro id hId
    rw [named?_attached, if_neg (Nat.ne_of_lt (List.mem_range.1 (List.mem_filter.1 hId).1))]
  · cases data with
    | namedFragment name condition =>
        show List.filterMap _ [document.size] = [(name, document.size)]
        rw [List.filterMap_cons, named?_attached, if_pos rfl]
        rfl
    | suppliedValue value => cases value <;> rfl
    | _ => rfl

/-- The parent has one more child, the last of its type. -/
theorem children_attached (hParent : parent < document.size) (id : Nat) :
    (document.attached parent location data).children id =
      if id = parent then (document.children id).add data.type document.size
      else document.children id := by
  rw [children, children, part?_attached]
  by_cases hNew : id = document.size
  · have hNone : document.part? id = none := by simp [part?, hNew, size]
    have hOther : id ≠ parent := by
      rw [hNew]
      exact Nat.ne_of_gt hParent
    rw [if_pos hNew, hNone, if_neg hOther, hNew]
  · rw [if_neg hNew]
    by_cases hSame : id = parent
    · obtain ⟨part, hPart⟩ : ∃ part, document.part? id = some part :=
        ⟨_, Array.getElem?_eq_getElem (hSame ▸ hParent)⟩
      rw [if_pos hSame, if_pos hSame, hPart]
      rfl
    · rw [if_neg hSame, if_neg hSame]

end Attached

/-- A document with one part entered in the field map of another, if that is an object. -/
def registered (document : Document) (complex field : PartId) (data : PartData) : Document :=
  { document with parts := document.parts.modify complex (Part.register field data) }

section Registered

variable (document : Document) (complex field : PartId) (data : PartData)

/-- Where parts stand, their types and their names are not changed by entering a field. -/
theorem bind_registered {α : Type} (view : Part → Option α)
    (h : ∀ part : Part, view (part.register field data) = view part) (id : Nat) :
    ((document.registered complex field data).part? id).bind view =
      (document.part? id).bind view := by
  rw [registered, part?, part?, Array.getElem?_modify]
  split
  · cases document.parts[id]? with
    | none => rfl
    | some part => exact h part
  · rfl

theorem type?_registered (id : Nat) :
    (document.registered complex field data).type? id = document.type? id := by
  simp only [type?, Option.map_eq_bind]
  exact document.bind_registered complex field data (fun part => some part.type)
    (fun part => congrArg some (part.register_keeps field data).1) id

theorem parent?_registered (id : Nat) :
    (document.registered complex field data).parent? id = document.parent? id :=
  document.bind_registered complex field data _
    (fun part => (part.register_keeps field data).2.1) id

theorem name?_registered (id : Nat) :
    (document.registered complex field data).name? id = document.name? id :=
  document.bind_registered complex field data _
    (fun part => (part.register_keeps field data).2.2.2) id

/-- Registering a field lists no child. -/
theorem children_registered (id : Nat) :
    (document.registered complex field data).children id = document.children id := by
  have hView (document : Document) : document.children id =
      ((document.part? id).bind fun part => some part.children).getD { owner := id } := by
    rw [children]
    cases document.part? id <;> rfl
  rw [hView, hView]
  congr 1
  exact document.bind_registered complex field data (fun part => some part.children)
    (fun part => congrArg some (part.register_keeps field data).2.2.1) id

end Registered

/-- Only a part that is there has a parent. -/
theorem lt_size_of_parent? {document : Document} {id parent : Nat}
    (h : document.parent? id = some parent) : id < document.size := by
  obtain ⟨part, hPart, -⟩ := Option.bind_eq_some_iff.1 h
  exact (Array.getElem?_eq_some_iff.1 hPart).1

end Document

/-- A type is listed when its first child comes, behind the types before it. -/
theorem Children.types_enter (type : PartType) (part : PartId)
    (entries : List (PartType × List PartId)) : (enter type part entries).map Prod.fst =
      if type ∈ entries.map Prod.fst then entries.map Prod.fst
      else entries.map Prod.fst ++ [type] := by
  induction entries with
  | nil => rfl
  | cons entry rest ih =>
      obtain ⟨listed, parts⟩ := entry
      by_cases hListed : listed = type
      · rw [enter, if_pos hListed]
        simp [hListed]
      · rw [enter, if_neg hListed, List.map_cons, ih]
        by_cases hRest : type ∈ rest.map Prod.fst
        · simp [hRest]
        · simp [hRest, Ne.symm hListed]

theorem Children.types_add (children : Children) (type : PartType) (part : PartId) :
    (children.add type part).byType.map Prod.fst =
      if type ∈ children.byType.map Prod.fst then children.byType.map Prod.fst
      else children.byType.map Prod.fst ++ [type] :=
  types_enter type part children.byType

namespace Document

namespace Sound

variable {document : Document}

theorem empty (location : Position) : (Document.empty location).Sound := by
  have hBelow (owner : Nat) : ((Document.empty location).children owner).parts = [] ∧
      ((Document.empty location).children owner).byType = [] ∧
      ((Document.empty location).children owner).owner = owner := by
    cases owner <;> exact ⟨rfl, rfl, rfl⟩
  have hParent (id : Nat) : (Document.empty location).parent? id = none := by
    cases id <;> rfl
  refine ⟨rfl, ?_, ?_, ?_, ?_, fun owner => (hBelow owner).2.2, ?_, ?_, rfl, Firsts.nil⟩
  · intro id hId
    simpa [hParent] using Nat.lt_one_iff.1 hId
  · intro id parent h
    rw [hParent] at h
    cases h
  · intro owner child
    rw [(hBelow owner).1, hParent]
    simp
  · intro owner
    rw [(hBelow owner).1]
    exact .nil
  · intro owner type
    rw [Children.ofType, (hBelow owner).1, (hBelow owner).2.1]
    rfl
  · intro owner
    rw [(hBelow owner).1, (hBelow owner).2.1]
    rfl

/-- A new part keeps a document sound. -/
theorem attached (h : document.Sound) {parent : PartId} (hParent : parent < document.size)
    (location : Position) (data : PartData) : (document.attached parent location data).Sound := by
  -- No child list has the number of the new part yet, so the old lists are read as before.
  have hOld {child owner : Nat} (hChild : child ∈ (document.children owner).parts) :
      child < document.size := lt_size_of_parent? ((h.listed owner child).1 hChild)
  have hSize : document.size ≠ 0 := Nat.ne_of_gt (Nat.zero_lt_of_lt hParent)
  have hFilter (owner : Nat) (p : PartType → Bool) : (document.children owner).parts.filter
      ((document.attached parent location data).hasType p) =
        (document.children owner).parts.filter (document.hasType p) := by
    apply List.filter_congr
    intro child hChild
    rw [hasType_attached, if_neg (Nat.ne_of_lt (hOld hChild))]
  have hTypes (owner : Nat) : (document.children owner).parts.filterMap
      (document.attached parent location data).type? =
        (document.children owner).parts.filterMap document.type? := by
    apply List.filterMap_congr
    intro child hChild
    rw [type?_attached, if_neg (Nat.ne_of_lt (hOld hChild))]
  constructor
  case root => rw [type?_attached, if_neg hSize.symm, h.root]
  case top =>
    intro id hId
    rw [parent?_attached]
    by_cases hNew : id = document.size
    · simpa [hNew] using hSize
    · rw [if_neg hNew]
      rw [size_attached] at hId
      exact h.top id (by omega)
  case above =>
    intro id above hAbove
    rw [parent?_attached] at hAbove
    by_cases hNew : id = document.size
    · rw [if_pos hNew] at hAbove
      cases hAbove
      rwa [hNew]
    · rw [if_neg hNew] at hAbove
      exact h.above id above hAbove
  case listed =>
    intro owner child
    rw [children_attached _ _ _ _ hParent, parent?_attached]
    by_cases hOwner : owner = parent
    · rw [if_pos hOwner, Children.add, List.mem_append, List.mem_singleton, h.listed]
      by_cases hNew : child = document.size
      · simp [hNew, hOwner]
      · simp [hNew]
    · rw [if_neg hOwner, h.listed]
      by_cases hNew : child = document.size
      · have hNone : document.parent? child ≠ some owner := fun hChild =>
          absurd (lt_size_of_parent? hChild) (Nat.not_lt.2 (Nat.le_of_eq hNew.symm))
        simp [hNew ▸ hNone, hNew, Ne.symm hOwner]
      · rw [if_neg hNew]
  case increasing =>
    intro owner
    rw [children_attached _ _ _ _ hParent]
    by_cases hOwner : owner = parent
    · rw [if_pos hOwner, Children.add, List.pairwise_append]
      exact ⟨h.increasing owner, List.pairwise_singleton _ _,
        fun child hChild last hLast => List.mem_singleton.1 hLast ▸ hOld hChild⟩
    · rw [if_neg hOwner]
      exact h.increasing owner
  case owner =>
    intro owner
    rw [children_attached _ _ _ _ hParent]
    split <;> exact h.owner owner
  case ofType =>
    intro owner type
    rw [children_attached _ _ _ _ hParent]
    by_cases hOwner : owner = parent
    · rw [if_pos hOwner, Children.ofType_add, Children.add, List.filter_append, hFilter, h.ofType,
        List.filter_cons, hasType_attached, if_pos rfl, List.filter_nil]
      simp only [beq_iff_eq]
    · rw [if_neg hOwner, hFilter, h.ofType]
  case types =>
    intro owner
    rw [children_attached _ _ _ _ hParent]
    by_cases hOwner : owner = parent
    · rw [if_pos hOwner, Children.types_add, Children.add, List.filterMap_append, hTypes,
        List.filterMap_cons, type?_attached, if_pos rfl, List.filterMap_nil, eraseDups_concat,
        h.types]
      simp only [List.mem_eraseDups]
    · rw [if_neg hOwner, hTypes, h.types]
  case operations =>
    rw [filter_attached, ← h.operations]
    exact operations_enter _ _ _
  case namedFragments =>
    rw [fragmentEntries_attached, Document.attached, namedFragments_enter]
    cases data with
    | namedFragment name condition => exact h.namedFragments.enter name document.size
    | _ =>
        rw [List.append_nil]
        exact h.namedFragments

/-- What a document says of where parts stand and of their types and names is all that counts. -/
theorem of_same {new : Document} (h : document.Sound) (hSize : new.size = document.size)
    (hType : new.type? = document.type?) (hParent : new.parent? = document.parent?)
    (hChildren : new.children = document.children) (hName : new.name? = document.name?)
    (hOperations : new.operations = document.operations)
    (hFragments : new.namedFragments = document.namedFragments) : new.Sound := by
  have hHas : new.hasType = document.hasType := by
    funext p id
    rw [hasType, hType, hasType]
  have hNamed : new.named? = document.named? := by
    funext id
    rw [named?, hName, named?]
  have hEntries : new.fragmentEntries = document.fragmentEntries := by
    rw [fragmentEntries, hSize, hHas, hNamed, fragmentEntries]
  constructor
  case root => rw [hType, h.root]
  case top =>
    rw [hSize, hParent]
    exact h.top
  case above =>
    rw [hParent]
    exact h.above
  case listed =>
    rw [hChildren, hParent]
    exact h.listed
  case increasing =>
    rw [hChildren]
    exact h.increasing
  case owner =>
    rw [hChildren]
    exact h.owner
  case ofType =>
    rw [hChildren, hHas]
    exact h.ofType
  case types =>
    rw [hChildren, hType]
    exact h.types
  case operations => rw [hOperations, hSize, hHas, h.operations]
  case namedFragments =>
    rw [hEntries, hFragments]
    exact h.namedFragments

/-- Entering a field keeps a document sound. -/
theorem registered (h : document.Sound) (complex field : PartId) (data : PartData) :
    (document.registered complex field data).Sound :=
  h.of_same Array.size_modify (funext (document.type?_registered complex field data))
    (funext (document.parent?_registered complex field data))
    (funext (document.children_registered complex field data))
    (funext (document.name?_registered complex field data)) rfl rfl

end Sound

/-- Two changes of a part that come to the same are the same change of a document. -/
theorem modify_congr {document : Document} {id : PartId} {part : Part} {f g : Part → Part}
    (hPart : document.part? id = some part) (hSame : f part = g part) :
    document.parts.modify id f = document.parts.modify id g := by
  apply Array.toList_inj.1
  rw [Array.toList_modify, Array.toList_modify]
  apply GraphQL.modify_congr
  intro other hOther
  rw [Array.getElem?_toList] at hOther
  cases hPart.symm.trans hOther
  exact hSame

theorem part?_eq_none {document : Document} {id : Nat} :
    document.part? id = none ↔ ¬id < document.size := by
  rw [part?, Array.getElem?_eq_none_iff, Nat.not_lt]
  rfl

variable {document : Document}

/-- Attaching in place stores nothing before it is known that it succeeds. -/
theorem Sound.attach_in_place (h : document.Sound) (owner declared : PartId) (location : Position)
    (data : PartData) : Editing.attach owner declared location data document =
      match document.attach owner declared location data with
      | .ok (id, after) => .ok id after
      | .error error => .error error document := by
  rw [Editing.attach]
  refine (estate_bind_of_ok rfl).trans ?_
  by_cases hOwner : owner < document.size
  · obtain ⟨part, hPart⟩ : ∃ part, document.part? owner = some part :=
      ⟨_, Array.getElem?_eq_getElem hOwner⟩
    have hChildren : part.children.owner = owner := by
      have hSame := h.owner owner
      rwa [children, hPart] at hSame
    simp only [hPart, Children.accept, hChildren, attach, if_pos hOwner]
    by_cases hDeclared : declared = owner
    · have hStored := modify_congr hPart
        (f := fun part => { part with
          children := part.children.add data.type document.size })
        (g := fun other => { other with
          children := part.children.add data.type document.size }) rfl
      simp only [if_pos hDeclared, hStored]
      rfl
    · simp only [if_neg hDeclared]
      rfl
  · have hNone := part?_eq_none.2 hOwner
    simp only [hNone, attach, if_neg hOwner]
    rfl

/-- The field is registered in place, or nothing changes. -/
theorem registerField_in_place (document : Document) (complex : PartId) (name : String)
    (field : PartId) : Editing.registerField complex name field document =
      match document.registerField complex name field with
      | .ok after => .ok () after
      | .error error => .error error document := by
  rw [Editing.registerField]
  refine (estate_bind_of_ok rfl).trans ?_
  by_cases hComplex : complex < document.size
  · obtain ⟨part, hPart⟩ : ∃ part, document.part? complex = some part :=
      ⟨_, Array.getElem?_eq_getElem hComplex⟩
    rw [registerField_eq hComplex]
    cases hData : part.data with
    | suppliedValue value =>
        have hStored := modify_congr hPart
          (f := Part.register field (.inputObjectField name))
          (g := fun other => { other with
            data := .suppliedValue (value.enterField name field) })
          (by
            rw [Part.register]
            simp [hData])
        simp only [hPart, hData, hStored]
        rfl
    | _ =>
        have hStored := modify_congr hPart
          (f := Part.register field (.inputObjectField name)) (g := id)
          (by
            unfold Part.register
            rw [hData]
            rfl)
        simp only [hPart, hData, hStored, modify_id]
        rfl
  · have hNone := part?_eq_none.2 hComplex
    simp only [hNone, registerField, if_neg hComplex]
    rfl

/-- A part is attached under a part that is there and that it is declared to be under. -/
theorem attach_cases (document : Document) (owner declared : PartId) (location : Position)
    (data : PartData) :
    (owner < document.size ∧ declared = owner ∧ document.attach owner declared location data =
      .ok (document.size, document.attached owner location data)) ∨
    ∃ error, document.attach owner declared location data = .error error ∧
      (document.size ≤ owner ∧ error = .unknownPart owner ∨
        owner < document.size ∧ declared ≠ owner ∧
          error = .parentMismatch data.type declared owner) := by
  unfold attach
  by_cases hOwner : owner < document.size
  · by_cases hDeclared : declared = owner
    · rw [if_pos hOwner, if_pos hDeclared, hDeclared]
      exact .inl ⟨hOwner, rfl, rfl⟩
    · rw [if_pos hOwner, if_neg hDeclared]
      exact .inr ⟨_, rfl, .inr ⟨hOwner, hDeclared, rfl⟩⟩
  · rw [if_neg hOwner]
    exact .inr ⟨_, rfl, .inl ⟨Nat.le_of_not_lt hOwner, rfl⟩⟩

theorem leaves_of_ok {edit : Edit} {after : Document}
    (h : edit.perform document = .ok () after) : edit.leaves document = after := by
  rw [Edit.leaves, h]

theorem leaves_of_error {edit : Edit} {error : AssemblyError} {after : Document}
    (h : edit.perform document = .error error after) : edit.leaves document = after := by
  rw [Edit.leaves, h]

/-- Every change keeps a document sound, also one that fails. -/
theorem Sound.leaves (h : document.Sound) (edit : Edit) : (edit.leaves document).Sound := by
  cases edit with
  | attach owner declared location data =>
      have hPlace := h.attach_in_place owner declared location data
      rcases document.attach_cases owner declared location data with
        ⟨hOwner, -, hAttach⟩ | ⟨error, hAttach, -⟩
      · rw [hAttach] at hPlace
        rw [leaves_of_ok (estate_bind_of_ok hPlace)]
        exact h.attached hOwner location data
      · rw [hAttach] at hPlace
        rw [leaves_of_error (estate_bind_of_error hPlace)]
        exact h
  | registerField complex name field =>
      have hPlace : (Edit.registerField complex name field).perform document = _ :=
        registerField_in_place document complex name field
      by_cases hComplex : complex < document.size
      · rw [registerField_eq hComplex] at hPlace
        rw [leaves_of_ok hPlace]
        exact h.registered complex field _
      · rw [registerField, if_neg hComplex] at hPlace
        rw [leaves_of_error hPlace]
        exact h

/-- Whatever is changed, a sound document stays sound. -/
theorem Sound.edited (h : document.Sound) (edits : List Edit) : (document.edited edits).Sound := by
  induction edits generalizing document with
  | nil => exact h
  | cons edit rest ih => exact ih (h.leaves edit)

/-- A part that is not the root is listed once, by the part above it. -/
theorem Sound.listed_once (h : document.Sound) {id : Nat} (hRoot : 0 < id)
    (hSize : id < document.size) :
    ∃ parent < id, document.parent? id = some parent ∧
      (document.children parent).parts.count id = 1 ∧
      ∀ other : Nat, other ≠ parent → id ∉ (document.children other).parts := by
  obtain ⟨parent, hParent⟩ : ∃ parent, document.parent? id = some parent := by
    apply Option.ne_none_iff_exists'.1
    intro hNone
    exact Nat.ne_of_gt hRoot ((h.top id hSize).1 hNone)
  refine ⟨parent, h.above id parent hParent, hParent, ?_, fun other hOther hListed => ?_⟩
  · have hNodup : (document.children parent).parts.Nodup :=
      (h.increasing parent).imp fun hLt => Nat.ne_of_lt hLt
    exact List.count_eq_one_of_mem hNodup ((h.listed parent id).2 hParent)
  · have hSame := (h.listed other id).1 hListed
    rw [hParent] at hSame
    exact hOther (Option.some.inj hSame).symm

/-- Whatever calls change a new document, its parts, child lists and indexes agree. A part is
attached to it under a part that is there and that it is declared to be under, and a part that
cannot be attached leaves it as it was. -/
theorem sound_of_edits (location : Position) (edits : List Edit) :
    let document := (empty location).edited edits
    document.Sound ∧
      (∀ id : Nat, 0 < id → id < document.size → ∃ parent < id,
        document.parent? id = some parent ∧ (document.children parent).parts.count id = 1 ∧
          ∀ other : Nat, other ≠ parent → id ∉ (document.children other).parts) ∧
      ∀ (owner declared : PartId) (place : Position) (data : PartData),
        match document.attach owner declared place data with
        | .ok (id, after) =>
          Editing.attach owner declared place data document = .ok id after ∧
            owner < document.size ∧ declared = owner ∧ id = document.size ∧
            after.size = document.size + 1 ∧
            after.part? id = some ⟨some owner, { owner := id }, place, data⟩
        | .error error =>
          Editing.attach owner declared place data document = .error error document ∧
            (document.size ≤ owner ∧ error = .unknownPart owner ∨
              owner < document.size ∧ declared ≠ owner ∧
                error = .parentMismatch data.type declared owner) := by
  intro document
  have hSound : document.Sound := (Sound.empty location).edited edits
  refine ⟨hSound, fun id => hSound.listed_once, fun owner declared place data => ?_⟩
  have hPlace := hSound.attach_in_place owner declared place data
  rcases document.attach_cases owner declared place data with
    ⟨hOwner, hDeclared, hAttach⟩ | ⟨error, hAttach, hError⟩
  · rw [hAttach] at hPlace ⊢
    refine ⟨hPlace, hOwner, hDeclared, rfl, document.size_attached owner place data, ?_⟩
    rw [part?_attached, if_pos rfl]
  · rw [hAttach] at hPlace ⊢
    exact ⟨hPlace, hError⟩

end Document

end GraphQL
