import GraphQL.Proofs.Document.Parts

/-! Where the parts of a document lie. They are numbered in preorder, and each part lists those
directly below it in order, so the trees that were put into a document are read back from it. -/
namespace GraphQL

/-- What a part says apart from the numbers of other parts, which only field maps hold. -/
def PartData.bare : PartData → PartData
  | .suppliedValue (.complex _) => .suppliedValue (.complex [])
  | data => data

namespace PartTree

mutual

/-- The number of parts in a tree. -/
def count : PartTree → Nat
  | .node _ _ children => countAll children + 1

def countAll : List PartTree → Nat
  | [] => 0
  | tree :: rest => tree.count + countAll rest

end

/-- The numbers of the first parts of several trees that are laid out from `start` on. -/
def places (start : PartId) : List PartTree → List PartId
  | [] => []
  | tree :: rest => start :: places (start + tree.count) rest

/-- What becomes of a part when trees are put under it, which are laid out from `start` on. -/
def holdAll (start : PartId) : List PartTree → Part → Part
  | [], part => part
  | tree :: rest, part => holdAll (start + tree.count) rest (part.hold start tree.data)

mutual

/-- The parts of a tree in preorder, the first of which has the number `start`. -/
def layout (start : PartId) (parent : Option PartId) : PartTree → List Part
  | .node location data children =>
    holdAll (start + 1) children ⟨parent, { owner := start }, location, data⟩ ::
      layoutAll (start + 1) start children

def layoutAll (start parent : PartId) : List PartTree → List Part
  | [] => []
  | tree :: rest =>
    layout start (some parent) tree ++ layoutAll (start + tree.count) parent rest

end

mutual

theorem length_layout (start : PartId) (parent : Option PartId) :
    (tree : PartTree) → (tree.layout start parent).length = tree.count
  | .node _ _ children => by
      rw [layout, count, List.length_cons, length_layoutAll (start + 1) start children]

theorem length_layoutAll (start parent : PartId) :
    (trees : List PartTree) → (layoutAll start parent trees).length = countAll trees
  | [] => rfl
  | tree :: rest => by
      rw [layoutAll, countAll, List.length_append, length_layout start (some parent) tree,
        length_layoutAll (start + tree.count) parent rest]

end

/-- A tree whose parts hold no numbers of other parts. -/
inductive Bare : PartTree → Prop where
  | node {location : Position} {data : PartData} {children : List PartTree}
      (hData : data.bare = data) (hChildren : ∀ c ∈ children, c.Bare) :
      Bare (.node location data children)

end PartTree

open PartTree

/-- A part that takes a child is the same but for what it registers. -/
theorem Part.bare_hold (part : Part) (id : PartId) (data : PartData) :
    (part.hold id data).data.bare = part.data.bare := by
  unfold Part.hold Part.register
  split
  · next name value hData =>
      rw [show part.data = .suppliedValue value from hData]
      cases value <;> rfl
  · rfl

/-- The child is listed last. -/
theorem Part.children_hold (part : Part) (id : PartId) (data : PartData) :
    (part.hold id data).children.parts = part.children.parts ++ [id] := by
  unfold Part.hold Part.register
  split <;> rfl

theorem Part.location_hold (part : Part) (id : PartId) (data : PartData) :
    (part.hold id data).location = part.location := by
  unfold Part.hold Part.register
  split <;> rfl

/-- A part that takes children lists them at their places and is the same otherwise. -/
theorem PartTree.holdAll_says (trees : List PartTree) (start : PartId) (part : Part) :
    (holdAll start trees part).data.bare = part.data.bare ∧
      (holdAll start trees part).children.parts = part.children.parts ++ places start trees ∧
      (holdAll start trees part).location = part.location := by
  induction trees generalizing start part with
  | nil => exact ⟨rfl, (List.append_nil _).symm, rfl⟩
  | cons tree rest ih =>
      obtain ⟨hData, hChildren, hLocation⟩ := ih (start + tree.count) (part.hold start tree.data)
      refine ⟨hData.trans (part.bare_hold start tree.data), ?_,
        hLocation.trans (part.location_hold start tree.data)⟩
      rw [holdAll, hChildren, part.children_hold, places, List.append_assoc]
      rfl

namespace Progress

mutual

/-- Where the parts of a grafted tree lie: behind those that were there, with the parent changed
alone. -/
theorem graft_parts {progress : Progress} {parent : PartId}
    (h : parent < progress.document.size) :
    (tree : PartTree) → (progress.graft parent tree).document.parts.toList =
      progress.document.parts.toList.modify parent (Part.hold progress.document.size tree.data) ++
        tree.layout progress.document.size (some parent)
  | .node location data children => by
      have hPut := Document.put_parts h location data
      have hSize := Document.size_put progress.document parent location data
      have hThere : progress.document.size <
          (progress.put parent location data).document.size := by
        rw [put, hSize]
        exact Nat.lt_succ_self _
      rw [graft, graftAll_parts hThere children]
      simp only [put, hPut, hSize]
      have hLength : (progress.document.parts.toList.modify parent
          (Part.hold progress.document.size data)).length = progress.document.size := by
        simp [Document.size]
      have hNew := modify_append_mid (holdAll (progress.document.size + 1) children)
        (progress.document.parts.toList.modify parent (Part.hold progress.document.size data))
        ⟨some parent, { owner := progress.document.size }, location, data⟩ []
      rw [hLength] at hNew
      rw [hNew, layout, List.append_assoc]
      rfl

/-- Where the parts of grafted trees lie, one tree behind the other. -/
theorem graftAll_parts {progress : Progress} {parent : PartId}
    (h : parent < progress.document.size) :
    (trees : List PartTree) → (progress.graftAll parent trees).document.parts.toList =
      progress.document.parts.toList.modify parent (holdAll progress.document.size trees) ++
        layoutAll progress.document.size parent trees
  | [] => by
      have hSame : holdAll progress.document.size [] = id := rfl
      rw [graftAll, hSame, List.modify_id, layoutAll, List.append_nil]
  | tree :: rest => by
      have hFirst := graft_parts h tree
      have hParent : parent < progress.document.parts.toList.length := h
      have hSize : (progress.graft parent tree).document.size =
          progress.document.size + tree.count := by
        have hLength := congrArg List.length hFirst
        rw [List.length_append, List.length_modify, length_layout] at hLength
        exact hLength
      have hThere : parent < (progress.graft parent tree).document.size :=
        Nat.lt_of_lt_of_le h (progress.size_le_graft parent tree)
      rw [graftAll, graftAll_parts hThere rest, hFirst, hSize,
        modify_append_left (by simpa using hParent), List.modify_modify_eq, layoutAll,
        List.append_assoc]
      rfl

end

end Progress

namespace Document

/-- The part named `id` with all below it. A part is above those with greater numbers only. -/
def treeAt (document : Document) (id : PartId) : Option PartTree :=
  match document.part? id with
  | none => none
  | some part =>
    (part.children.parts.mapM fun child =>
      if id < child ∧ id < document.size then treeAt document child else none).map
        (.node part.location part.data.bare)
termination_by document.size - id
decreasing_by simp only [PartId] at *; omega

/-- The tree at a part, from the trees at its children. -/
theorem treeAt_of_part {document : Document} {id : PartId} {part : Part}
    (h : document.part? id = some part) :
    document.treeAt id = (part.children.parts.mapM fun child =>
      if id < child ∧ id < document.size then document.treeAt child else none).map
        (.node part.location part.data.bare) := by
  rw [treeAt]
  split
  · next hNone => rw [h] at hNone; cases hNone
  · next found hFound =>
      rw [h] at hFound
      cases hFound
      rfl

/-- A tree of parts is read back from where it is laid out. -/
theorem treeAt_layout {tree : PartTree} (h : tree.Bare) {document : Document}
    (before after : List Part) (parent : Option PartId)
    (hParts : document.parts.toList = before ++ tree.layout before.length parent ++ after) :
    document.treeAt before.length = some tree := by
  induction h generalizing before after parent with
  | @node location data children hData hChildren ih =>
      have hPart : document.part? before.length = some (holdAll (before.length + 1) children
          ⟨parent, { owner := before.length }, location, data⟩) := by
        rw [part?, ← Array.getElem?_toList, hParts, layout]
        simp
      have hSize : before.length < document.size := (Array.getElem?_eq_some_iff.1 hPart).1
      have hAll (trees : List PartTree) (seen : List Part) (owner : PartId) (after : List Part)
          (hTrees : ∀ t ∈ trees, t ∈ children) (hBelow : before.length < seen.length)
          (hSeen : document.parts.toList = seen ++ layoutAll seen.length owner trees ++ after) :
          ((places seen.length trees).mapM fun child =>
            if before.length < child ∧ before.length < document.size then document.treeAt child
            else none) = some trees := by
        induction trees generalizing seen with
        | nil => rfl
        | cons t rest ihRest =>
            obtain ⟨hFirst, hRest⟩ := List.forall_mem_cons.1 hTrees
            rw [layoutAll] at hSeen
            have hTree := ih t hFirst seen (layoutAll (seen.length + t.count) owner rest ++ after)
              (some owner) (by simpa using hSeen)
            have hLength : (seen ++ t.layout seen.length (some owner)).length =
                seen.length + t.count := by rw [List.length_append, length_layout]
            have hOthers := ihRest (seen ++ t.layout seen.length (some owner)) hRest
              (by rw [hLength]; exact Nat.lt_add_right _ hBelow)
              (by rw [hLength]; simpa using hSeen)
            rw [hLength] at hOthers
            rw [places, List.mapM_cons, if_pos ⟨hBelow, hSize⟩, hTree, hOthers]
            rfl
      have hRead := hAll children (before ++ [_]) before.length after (fun t ht => ht) (by simp)
        (by simpa [layout] using hParts)
      rw [List.length_append, List.length_singleton] at hRead
      obtain ⟨hBare, hPlaces, hLocation⟩ := holdAll_says children (before.length + 1)
        ⟨parent, { owner := before.length }, location, data⟩
      rw [treeAt_of_part hPart, hBare, hLocation, hPlaces, List.nil_append, hRead, hData]
      rfl

end Document

/-- The data of a part start without numbers of other parts. -/
theorem Label.bare_partData {label : Label} {source : Source} {context : Context}
    {data : PartData} (h : label.partData source context = .ok data) : data.bare = data := by
  unfold partData at h
  cases hAdmits : context.admits label.type with
  | false => simp [hAdmits] at h
  | true =>
      simp only [hAdmits, Bool.not_true, Bool.false_eq_true, if_false] at h
      cases hType : label.type with
      | inputItem =>
          simp only [hType] at h
          obtain ⟨name, -, hName⟩ := except_bind_eq_ok.1 h
          cases hName
          split <;> rfl
      | scalarValue =>
          simp only [hType] at h
          split at h
          · obtain ⟨text, -, hText⟩ := except_bind_eq_ok.1 h
            cases hText
            rfl
          · cases h
      | _ =>
          simp only [hType, except_bind_eq_ok, except_pure_eq_ok, except_throw_ne_ok] at h <;>
            grind [PartData.bare]

mutual

/-- Parts that are only planned have registered nothing yet. -/
theorem Outline.bare_parts {source : Source} {context : Context} {trees : List PartTree} :
    (phrase : Outline) → phrase.parts source context = .ok trees → ∀ t ∈ trees, t.Bare
  | .missing _, h => nomatch h
  | .node label children, h => by
      rw [parts] at h
      cases hGroup : context.group? label.type with
      | some inside =>
          rw [hGroup] at h
          exact bare_partsAll children h
      | none =>
          simp only [hGroup, except_bind_eq_ok, except_map_eq_ok] at h
          obtain ⟨data, hData, below, hBelow, rfl⟩ := h
          refine List.forall_mem_singleton.2 (.node (Label.bare_partData hData) ?_)
          cases hInside : label.type.inside with
          | all inside =>
              rw [hInside] at hBelow
              exact bare_partsAll children hBelow
          | firstValue =>
              rw [hInside] at hBelow
              exact bare_partsFirst children hBelow
          | nothing =>
              rw [hInside] at hBelow
              cases hBelow
              simp

theorem Outline.bare_partsAll {source : Source} {context : Context} {trees : List PartTree} :
    (phrases : List Outline) → partsAll source context phrases = .ok trees →
      ∀ t ∈ trees, t.Bare
  | [], h => by
      cases h
      simp
  | phrase :: rest, h => by
      simp only [partsAll, except_bind_eq_ok, except_pure_eq_ok] at h
      obtain ⟨first, hFirst, others, hOthers, rfl⟩ := h
      exact List.forall_mem_append.2 ⟨bare_parts phrase hFirst, bare_partsAll rest hOthers⟩

theorem Outline.bare_partsFirst {source : Source} {type : NodeType} {trees : List PartTree} :
    (phrases : List Outline) → partsFirst source type phrases = .ok trees → ∀ t ∈ trees, t.Bare
  | [], h => nomatch h
  | phrase :: _, h => bare_parts phrase h

end

/-- The document of a phrase is its root with the parts put below that its contents stand for. -/
theorem Source.document_graft {source : Source} {label : Label} {children : List Outline}
    {trees : List PartTree} (hOutline : source.outline = .ok (.node label children))
    (hParts : Outline.partsAll source .document children = .ok trees) :
    let progress := Progress.graftAll ⟨.empty label.location, []⟩ 0 trees
    source.document = .ok (progress.document, progress.events) := by
  have hStart : 0 < (Document.empty label.location).size := Nat.one_pos
  have hWalk : Assembly.run source (.node label children) = .ok () _ :=
    Assembly.walkAll_parts hStart children hParts
  simp only [Source.document, hOutline, hWalk]

/-- The document of a phrase whose contents stand for some parts has just these below its root. -/
theorem Source.document_eq {source : Source} {label : Label} {children : List Outline}
    {trees : List PartTree} (hOutline : source.outline = .ok (.node label children))
    (hParts : Outline.partsAll source .document children = .ok trees) :
    ∃ document events, source.document = .ok (document, events) ∧
      document.parts.toList = (PartTree.node label.location .document trees).layout 0 none ∧
      document.treeAt 0 = some (.node label.location .document trees) := by
  let start : Progress := ⟨.empty label.location, []⟩
  have hStart : 0 < start.document.size := Nat.one_pos
  have hLayout : (start.graftAll 0 trees).document.parts.toList =
      (PartTree.node label.location .document trees).layout 0 none := by
    rw [Progress.graftAll_parts hStart trees]
    rfl
  have hBare : (PartTree.node label.location .document trees).Bare :=
    .node rfl (Outline.bare_partsAll children hParts)
  exact ⟨_, _, Source.document_graft hOutline hParts, hLayout,
    Document.treeAt_layout hBare [] [] none (by rw [hLayout]; simp)⟩

end GraphQL
