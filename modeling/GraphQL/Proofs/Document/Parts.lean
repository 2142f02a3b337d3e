import GraphQL.Document.Assembly
import GraphQL.Proofs.Outcome
import GraphQL.Proofs.Syntax.Graft

/-! The parts that phrases stand for, as trees that have no numbers yet. A walk over a phrase that
stands for some parts puts just these into the document, one after another. -/
namespace GraphQL

/-- A part with the parts below it. -/
inductive PartTree where
  | node (location : Position) (data : PartData) (children : List PartTree)
deriving Repr, Inhabited

def PartTree.data : PartTree → PartData
  | .node _ data _ => data

namespace Outline

variable (source : Source)

mutual

/-- The parts that a phrase stands for in a context: one with the parts inside it, or those inside
it alone if it only groups them. -/
def parts (context : Context) : Outline → Except AssemblyError (List PartTree)
  | .missing index => .error (.missingNode index)
  | .node label children =>
    match context.group? label.type with
    | some inside => partsAll inside children
    | none => do
      let data ← label.partData source context
      (match label.type.inside with
        | .all inside => partsAll inside children
        | .firstValue => partsFirst label.type children
        | .nothing => .ok []).map fun below => [.node label.location data below]

/-- The parts that several phrases stand for in order. -/
def partsAll (context : Context) : List Outline → Except AssemblyError (List PartTree)
  | [] => .ok []
  | phrase :: rest => do
    let first ← parts context phrase
    let others ← partsAll context rest
    return first ++ others

/-- The parts that the first phrase of several stands for as a value. -/
def partsFirst (type : NodeType) : List Outline → Except AssemblyError (List PartTree)
  | [] => .error (.missingChild type "value")
  | phrase :: _ => parts .value phrase

end

end Outline

/-- List the part `id` as the last child. -/
def Part.list (id : PartId) (type : PartType) (part : Part) : Part :=
  { part with children := part.children.add type id }

/-- Enter the part `id` in the field map of a part, if that is a complex value and `id` a field. -/
def Part.register (id : PartId) (data : PartData) (part : Part) : Part :=
  match data, part.data with
  | .inputObjectField name, .suppliedValue value =>
    { part with data := .suppliedValue (value.enterField name id) }
  | _, _ => part

/-- What becomes of a part when the part `id` is put under it. -/
def Part.hold (id : PartId) (data : PartData) (part : Part) : Part :=
  (part.list id data.type).register id data

namespace Document

/-- A document with a new part listed under `parent`. -/
def attached (document : Document) (parent : PartId) (location : Position) (data : PartData) :
    Document :=
  { document with
    parts := (document.parts.modify parent (Part.list document.size data.type)).push
      ⟨some parent, { owner := document.size }, location, data⟩ }.enter document.size data

/-- A document with a new part put under `parent`. -/
def put (document : Document) (parent : PartId) (location : Position) (data : PartData) :
    Document :=
  let listed := document.attached parent location data
  { listed with parts := listed.parts.modify parent (Part.register document.size data) }

@[simp] theorem enter_parts (document : Document) (id : PartId) (data : PartData) :
    (document.enter id data).parts = document.parts := by
  unfold enter
  split <;> first | rfl | (split <;> rfl)

theorem size_attached (document : Document) (parent : PartId) (location : Position)
    (data : PartData) : (document.attached parent location data).size = document.size + 1 := by
  simp [attached, size]

theorem size_put (document : Document) (parent : PartId) (location : Position)
    (data : PartData) : (document.put parent location data).size = document.size + 1 := by
  rw [← size_attached document parent location data]
  simp [put, size]

/-- Under a parent that is there a part can be attached. -/
theorem attach_eq {document : Document} {parent : PartId} (h : parent < document.size)
    (location : Position) (data : PartData) :
    document.attach parent parent location data =
      .ok (document.size, document.attached parent location data) := by
  rw [attach, if_pos h, if_pos rfl]
  rfl

theorem modify_id (document : Document) (part : PartId) :
    document.parts.modify part id = document.parts := by
  apply Array.ext'
  rw [Array.toList_modify, List.modify_id]

/-- A field is registered with the object that it belongs to. -/
theorem registerField_eq {document : Document} {complex : PartId} (h : complex < document.size)
    (name : String) (field : PartId) :
    document.registerField complex name field = .ok { document with
      parts := document.parts.modify complex (Part.register field (.inputObjectField name)) } := by
  rw [registerField, if_pos h]
  congr 4
  funext part
  unfold Part.register
  split <;> simp_all

/-- Putting a part changes its parent alone and adds it behind the others. -/
theorem put_parts {document : Document} {parent : PartId} (h : parent < document.size)
    (location : Position) (data : PartData) :
    (document.put parent location data).parts.toList =
      document.parts.toList.modify parent (Part.hold document.size data) ++
        [⟨some parent, { owner := document.size }, location, data⟩] := by
  have hParent : parent < (document.parts.toList.modify parent
      (Part.list document.size data.type)).length := by simpa [size] using h
  simp only [put, attached, enter_parts, Array.toList_modify, Array.toList_push]
  rw [modify_append_left hParent, List.modify_modify_eq]
  rfl

end Document

namespace Progress

/-- Put a new part under `parent` and tell of it. -/
def put (progress : Progress) (parent : PartId) (location : Position) (data : PartData) :
    Progress :=
  let id := progress.document.size
  let listed := progress.document.attached parent location data
  ⟨progress.document.put parent location data,
    progress.events ++ [⟨id, parent, data.type, listed.depth id⟩]⟩

mutual

/-- Put a part and all below it under `parent`, each part before those below it. -/
def graft (progress : Progress) (parent : PartId) : PartTree → Progress
  | .node location data children =>
    graftAll (progress.put parent location data) progress.document.size children

/-- Put several parts and all below them under `parent`, in order. -/
def graftAll (progress : Progress) (parent : PartId) : List PartTree → Progress
  | [] => progress
  | tree :: rest => graftAll (progress.graft parent tree) parent rest

end

theorem graftAll_append (progress : Progress) (parent : PartId) (first second : List PartTree) :
    progress.graftAll parent (first ++ second) =
      (progress.graftAll parent first).graftAll parent second := by
  induction first generalizing progress with
  | nil => rfl
  | cons tree rest ih => simp only [List.cons_append, graftAll, ih]

mutual

/-- Grafting loses no part. -/
theorem size_le_graft (progress : Progress) (parent : PartId) :
    (tree : PartTree) → progress.document.size ≤ (progress.graft parent tree).document.size
  | .node location data children => by
      have hPut : (progress.put parent location data).document.size = progress.document.size + 1 :=
        Document.size_put progress.document parent location data
      have hBelow := size_le_graftAll (progress.put parent location data)
        progress.document.size children
      rw [graft]
      omega

theorem size_le_graftAll (progress : Progress) (parent : PartId) :
    (trees : List PartTree) →
      progress.document.size ≤ (progress.graftAll parent trees).document.size
  | [] => Nat.le_refl _
  | tree :: rest =>
      Nat.le_trans (size_le_graft progress parent tree)
        (size_le_graftAll (progress.graft parent tree) parent rest)

end

end Progress

namespace Assembly

theorem lift_eq_ok {α : Type} {x : Except AssemblyError α} {a : α} (h : x = .ok a)
    (progress : Progress) : lift x progress = .ok a progress := by
  rw [h]
  rfl

/-- Under a parent that is there a part is put and told of. -/
theorem addPart_eq {progress : Progress} {parent : PartId}
    (h : parent < progress.document.size) (location : Position) (data : PartData) :
    addPart parent location data progress = .ok progress.document.size
      ⟨progress.document.attached parent location data,
        (progress.put parent location data).events⟩ := by
  refine estate_bind_eq_ok.2 ⟨progress, progress, rfl, ?_⟩
  exact estate_bind_eq_ok.2
    ⟨_, progress, lift_eq_ok (Document.attach_eq h location data) progress, rfl⟩

/-- Only a field is registered with its parent. -/
theorem register_of_no_field {data : PartData} (h : ∀ name, data ≠ .inputObjectField name)
    (field : PartId) : Part.register field data = id := by
  funext part
  unfold Part.register
  split
  · exact absurd rfl (h _)
  · rfl

/-- A field of an object is registered with the object, any other part is not. -/
theorem enterField_eq {document : Document} {parent : PartId} (h : parent < document.size)
    (data : PartData) (field : PartId) (events : List PartAdded) :
    enterField parent data field ⟨document, events⟩ =
      .ok () ⟨{ document with parts := document.parts.modify parent (Part.register field data) },
        events⟩ := by
  by_cases hField : ∃ name, data = .inputObjectField name
  · obtain ⟨name, rfl⟩ := hField
    refine estate_bind_eq_ok.2 ⟨_, _, rfl, ?_⟩
    exact estate_bind_eq_ok.2
      ⟨_, _, lift_eq_ok (Document.registerField_eq h name field) _, rfl⟩
  · have hSame := register_of_no_field (fun name hData => hField ⟨name, hData⟩) field
    unfold enterField
    split
    · next name => exact absurd ⟨name, rfl⟩ hField
    · rw [hSame, Document.modify_id]
      rfl

/-- The two steps that add a part put it under a part that is there. -/
theorem add_eq {progress : Progress} {parent : PartId} (h : parent < progress.document.size)
    (location : Position) (data : PartData) (next : PartId → Assembly Unit) :
    (do
      let part ← addPart parent location data
      enterField parent data part
      next part) progress =
        next progress.document.size (progress.put parent location data) := by
  have hListed : parent < (progress.document.attached parent location data).size := by
    rw [Document.size_attached]
    exact Nat.lt_succ_of_lt h
  show EStateM.bind _ _ _ = _
  simp only [EStateM.bind, addPart_eq h]
  show EStateM.bind _ _ _ = _
  simp only [EStateM.bind, enterField_eq hListed]
  rfl

mutual

/-- A walk over a phrase puts the parts that it stands for under the parent. -/
theorem walk_parts {source : Source} {context : Context} {parent : PartId} {progress : Progress}
    {trees : List PartTree} (hParent : parent < progress.document.size) :
    (phrase : Outline) → phrase.parts source context = .ok trees →
      walk source context parent phrase progress = .ok () (progress.graftAll parent trees)
  | .missing index, h => nomatch h
  | .node label children, h => by
      rw [Outline.parts] at h
      rw [walk]
      cases hGroup : context.group? label.type with
      | some inside =>
          rw [hGroup] at h
          exact walkAll_parts hParent children h
      | none =>
          simp only [hGroup, except_bind_eq_ok, except_map_eq_ok] at h
          obtain ⟨data, hData, below, hBelow, rfl⟩ := h
          refine estate_bind_eq_ok.2 ⟨data, progress, lift_eq_ok hData progress, ?_⟩
          have hPart : progress.document.size <
              (progress.put parent label.location data).document.size := by
            rw [Progress.put, Document.size_put]
            exact Nat.lt_succ_self _
          rw [add_eq hParent]
          cases hInside : label.type.inside with
          | all inside =>
              rw [hInside] at hBelow
              exact walkAll_parts hPart children hBelow
          | firstValue =>
              rw [hInside] at hBelow
              exact walkFirst_parts hPart children hBelow
          | nothing =>
              rw [hInside] at hBelow
              cases hBelow
              rfl

/-- The walk of phrases grafts the parts that are planned for them. -/
theorem walkAll_parts {source : Source} {context : Context} {parent : PartId}
    {progress : Progress} {trees : List PartTree} (hParent : parent < progress.document.size) :
    (phrases : List Outline) → Outline.partsAll source context phrases = .ok trees →
      walkAll source context parent phrases progress = .ok () (progress.graftAll parent trees)
  | [], h => by
      rw [Outline.partsAll] at h
      cases h
      rfl
  | phrase :: rest, h => by
      simp only [Outline.partsAll, except_bind_eq_ok, except_pure_eq_ok] at h
      obtain ⟨first, hFirst, others, hOthers, rfl⟩ := h
      have hThere := Nat.lt_of_lt_of_le hParent (progress.size_le_graftAll parent first)
      rw [Progress.graftAll_append]
      exact estate_bind_eq_ok.2
        ⟨(), _, walk_parts hParent phrase hFirst, walkAll_parts hThere rest hOthers⟩

/-- The walk of the first phrase of a type grafts the parts that are planned for it. -/
theorem walkFirst_parts {source : Source} {type : NodeType} {parent : PartId}
    {progress : Progress} {trees : List PartTree} (hParent : parent < progress.document.size) :
    (phrases : List Outline) → Outline.partsFirst source type phrases = .ok trees →
      walkFirst source type parent phrases progress = .ok () (progress.graftAll parent trees)
  | [], h => nomatch h
  | phrase :: _, h => walk_parts hParent phrase h

end

end Assembly

end GraphQL
