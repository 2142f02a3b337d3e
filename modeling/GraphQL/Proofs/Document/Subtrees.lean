import GraphQL.Proofs.Document.Observation
import GraphQL.Proofs.Links

/-! Walks down an assembled document against walks up. An assembly adds each part under the last
part before it or under one above that, so what lies under a part has the numbers right after it.
Parts that are attached in any other order need not lie so. -/
namespace GraphQL

namespace Document

variable {document : Document}

/-- The numbers that a part lists as its children, if it is there. -/
def childrenOf? (document : Document) (id : Nat) : Option (List Nat) :=
  (document.part? id).map fun part => part.children.parts

/-- A part that is there has a list of children. -/
theorem childrenOf?_eq {id : Nat} (h : id < document.size) :
    document.childrenOf? id = some (document.children id).parts := by
  have hPart : document.part? id = some document.parts[id] := Array.getElem?_eq_getElem h
  rw [childrenOf?, children, hPart]
  rfl

/-- The walk down is that of numbered nodes. -/
theorem descendants_eq (document : Document) (id : Nat) : document.descendants id =
    subtree document.size (fun id => (document.children id).parts) id := by
  induction hRoom : document.size - id using Nat.strongRecOn generalizing id with
  | _ room ih =>
      rw [descendants, subtree]
      congr 1
      apply List.flatMap_congr
      intro child _
      split
      · next hBelow =>
          have hLess := Nat.sub_lt_sub_left hBelow.2 hBelow.1
          exact ih (document.size - child) (hRoom ▸ hLess) child rfl
      · rfl

/-- A part has a depth below its ancestors, and below no others. -/
theorem relativeDepth?_isSome {id ancestor : Nat} :
    (document.relativeDepth? ancestor id).isSome = true ↔ ancestor ∈ document.ancestors id := by
  rw [relativeDepth?, Option.isSome_map, List.findIdx?_isSome, List.any_eq_true]
  simp

namespace Sound

variable (h : document.Sound)
include h

/-- Parents and children of a sound document are linked both ways. -/
theorem linked :
    Linked document.size document.parent? (fun id => (document.children id).parts) where
  inside _ _ hParent := lt_size_of_parent? hParent
  above := h.above
  listed := h.listed
  increasing := h.increasing

/-- The ancestors of a part are what it lies under, without itself. -/
theorem mem_ancestors {id ancestor : Nat} : ancestor ∈ document.ancestors id ↔
    id ≠ ancestor ∧ Under document.parent? ancestor id := by
  induction id using Nat.strongRecOn with
  | _ id ih =>
      rw [Under.iff_parent]
      cases hParent : document.parent? id with
      | none =>
          rw [ancestors, hParent]
          simp
      | some parent =>
          have hAbove := h.above id parent hParent
          rw [h.ancestors_eq hParent, List.mem_cons, ih parent hAbove]
          constructor
          · intro hAncestor
            have hUnder : Under document.parent? ancestor parent := by
              rcases hAncestor with rfl | ⟨-, hUnder⟩
              · exact .refl _
              · exact hUnder
            have hLe := h.linked.le_of_under hUnder
            exact ⟨by omega, .inr ⟨parent, rfl, hUnder⟩⟩
          · rintro ⟨hOther, hSame | ⟨found, hFound, hUnder⟩⟩
            · exact absurd hSame hOther
            · cases hFound
              by_cases hSame : ancestor = parent
              · exact .inl hSame
              · exact .inr ⟨Ne.symm hSame, hUnder⟩

/-- A part is less deep than those it is above, by as many places as it is above them. -/
theorem depth_of_relativeDepth? {id ancestor places : Nat}
    (hPlaces : document.relativeDepth? ancestor id = some places) :
    0 < places ∧ document.depth id = document.depth ancestor + places := by
  have hAncestor := relativeDepth?_isSome.1 (Option.isSome_of_eq_some hPlaces)
  obtain ⟨-, hLess, hFound⟩ := h.of_mem_ancestors hAncestor
  cases hPlaces.symm.trans hFound
  omega

end Sound

/-- Whether each part stands under the last part before it or under one above that, and `part` is
the last of all or above that. -/
structure Trails (document : Document) (part : Nat) : Prop where
  each : ∀ id : Nat, id + 1 < document.size →
    ∃ parent, document.parent? (id + 1) = some parent ∧ Under document.parent? parent id
  last : Under document.parent? part (document.size - 1)

/-- The document is the last part as long as it is the only one. -/
theorem Trails.empty (location : Position) : (Document.empty location).Trails 0 where
  each id hId := absurd hId (by simp [Document.empty, size])
  last := .refl 0

theorem parent?_put (document : Document) (parent : PartId) (location : Position)
    (data : PartData) (id : Nat) : (document.put parent location data).parent? id =
      if id = document.size then some parent else document.parent? id :=
  ((document.attached parent location data).parent?_registered parent document.size data id).trans
    (document.parent?_attached parent location data id)

/-- The parents that were there stay. -/
theorem parent?_put_of_some {parent : PartId} {location : Position} {data : PartData}
    {id above : Nat} (h : document.parent? id = some above) :
    (document.put parent location data).parent? id = some above := by
  rw [parent?_put, if_neg (Nat.ne_of_lt (lt_size_of_parent? h)), h]

/-- A part put under the last part, or under one above that, is the last itself. -/
theorem Trails.put {parent : Nat} (h : document.Trails parent) (location : Position)
    (data : PartData) : (document.put parent location data).Trails document.size := by
  have hKept {outer inner : Nat} (hUnder : Under document.parent? outer inner) :
      Under (document.put parent location data).parent? outer inner :=
    hUnder.of_kept fun _ _ => parent?_put_of_some
  constructor
  case each =>
    intro id hId
    rw [size_put] at hId
    by_cases hOld : id + 1 < document.size
    · obtain ⟨above, hAbove, hUnder⟩ := h.each id hOld
      exact ⟨above, parent?_put_of_some hAbove, hKept hUnder⟩
    · obtain hNew : id + 1 = document.size := by omega
      refine ⟨parent, ?_, ?_⟩
      · rw [parent?_put, if_pos hNew]
      · have hLast := hKept h.last
        rwa [← hNew] at hLast
  case last =>
    rw [size_put]
    exact .refl document.size

end Document

/-- A walk in a part keeps what is known of parents, and goes on with that part at or above the
last. -/
theorem Assembly.trails_carries : Carries fun parent progress after =>
    (∀ id above : Nat, progress.document.parent? id = some above →
      after.document.parent? id = some above) ∧
    (progress.document.Trails parent → after.document.Trails parent) where
  refl _ _ := ⟨fun _ _ h => h, fun h => h⟩
  trans hFirst hSecond :=
    ⟨fun id above h => hSecond.1 id above (hFirst.1 id above h), fun h => hSecond.2 (hFirst.2 h)⟩
  part := by
    intro parent progress after location data _ ⟨hKept, hInside⟩
    refine ⟨fun id above h => hKept id above (Document.parent?_put_of_some h), fun h => ?_⟩
    have hAfter := hInside (h.put location data)
    have hNew : after.document.parent? progress.document.size = some parent :=
      hKept _ _ ((progress.document.parent?_put parent location data _).trans (if_pos rfl))
    exact ⟨hAfter.each, (Under.of_parent hNew).trans hAfter.last⟩

/-- What walking down from a part and walking up to it say of each other, where `count` parts lie
below it. -/
structure Document.Descends (document : Document) (top count : Nat) : Prop where
  bound : top + count < document.size
  /-- A walk down from the part ends, having met it and the parts right after it in order. -/
  walk : Walk document.childrenOf? [top] (List.range' top (count + 1))
  descendants : document.descendants top = List.range' top (count + 1)
  ancestors : ∀ id : Nat, id ∈ document.descendants top ↔ id = top ∨ top ∈ document.ancestors id
  below : ∀ id : Nat, (∃ places, 0 < places ∧ document.relativeDepth? top id = some places) ↔
    id ∈ document.descendants top ∧ id ≠ top
  depth : ∀ id places : Nat, document.relativeDepth? top id = some places →
    0 < places ∧ document.depth id = document.depth top + places
  usages : document.variableUsages top =
    (List.range' top (count + 1)).filter (document.hasType (· == .variableUsage))

/-- In every document that was assembled, the parts at and below a part are those that it is above,
and have consecutive numbers. -/
theorem SyntaxTree.descendants_of_assemble {tree : SyntaxTree} {source : Source}
    {document : Document} {events : List PartAdded}
    (h : tree.assemble source = .ok (.complete document events)) {top : Nat}
    (hTop : top < document.size) : ∃ count, document.Descends top count := by
  have hSound : document.Sound := (told_of_assemble h).sound
  obtain ⟨phrase, hRun⟩ := exists_run_of_assemble h
  obtain ⟨location, -, hTrails⟩ := Assembly.run_carries Assembly.trails_carries hRun
  have hEach := (hTrails (.empty location)).each
  obtain ⟨count, hBound, hRange⟩ := hSound.linked.exists_range hEach hTop
  have hDescendants : document.descendants top = List.range' top (count + 1) :=
    (document.descendants_eq top).trans hRange
  have hAncestors (id : Nat) :
      id ∈ document.descendants top ↔ id = top ∨ top ∈ document.ancestors id := by
    rw [document.descendants_eq, hSound.linked.mem_subtree, hSound.mem_ancestors]
    by_cases hSame : id = top
    · simp [hSame, Under.refl]
    · simp [hSame]
  refine ⟨count, ?_⟩
  constructor
  case bound => exact hBound
  case walk =>
    rw [← hRange]
    exact hSound.linked.walk (fun _ => Document.childrenOf?_eq) top hTop
  case descendants => exact hDescendants
  case ancestors => exact hAncestors
  case below =>
    intro id
    constructor
    · rintro ⟨places, -, hPlaces⟩
      have hAbove := Document.relativeDepth?_isSome.1 (Option.isSome_of_eq_some hPlaces)
      exact ⟨(hAncestors id).2 (.inr hAbove), (hSound.mem_ancestors.1 hAbove).1⟩
    · rintro ⟨hBelow, hOther⟩
      have hAbove := ((hAncestors id).1 hBelow).resolve_left hOther
      have hSome := Document.relativeDepth?_isSome.2 hAbove
      obtain ⟨places, hPlaces⟩ := Option.isSome_iff_exists.1 hSome
      exact ⟨places, (hSound.depth_of_relativeDepth? hPlaces).1, hPlaces⟩
  case depth => exact fun id places => hSound.depth_of_relativeDepth?
  case usages => rw [Document.variableUsages, hDescendants]

/-- The field has variables in a list that it is passed. -/
theorem SyntaxTree.descendants_of_assemble_nested : ∃ document events count,
    (graft {} 0 (.node { type := .document, location := {} }
      [.node { type := .operation, location := {} }
        [.node { type := .fieldCollection, location := {} }
          [.node { type := .field, primary := some ⟨0, 1⟩, location := {} }
            [.node { type := .inputItemCollection, location := {} }
              [.node { type := .inputItem, primary := some ⟨1, 2⟩, location := {} }
                [.node { type := .listValue, location := {} }
                  [.node { type := .variableValue, primary := some ⟨2, 3⟩, location := {} } [],
                  .node { type := .variableValue, primary := some ⟨3, 4⟩, location := {} } []]]],
            .node { type := .directive, primary := some ⟨4, 5⟩, location := {} } []]]]])).assemble
      { text := "abcde" } = .ok (.complete document events) ∧ 2 < document.size ∧
      document.Descends 2 count := by
  generalize hTree : graft {} 0 _ = tree
  have hSize : ((tree.assemble { text := "abcde" }).toOption.bind Assembled.document?).any
      (fun document => decide (2 < document.size)) = true := by
    rw [← hTree]
    decide +kernel
  cases hAssemble : tree.assemble { text := "abcde" } with
  | error stale =>
      rw [hAssemble] at hSize
      cases hSize
  | ok assembled =>
      rw [hAssemble] at hSize
      cases assembled with
      | complete document events =>
          have hTop : 2 < document.size := of_decide_eq_true hSize
          obtain ⟨count, hDescends⟩ := descendants_of_assemble hAssemble hTop
          exact ⟨document, events, count, rfl, hTop, hDescends⟩
      | failed error events => cases hSize

end GraphQL
