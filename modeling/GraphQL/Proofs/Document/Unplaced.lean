import GraphQL.Proofs.Document.Layout

/-! Documents without the places of their parts. Where the parts of a text are decides nothing: at
other places the same parts make up the same document. -/
namespace GraphQL

def Part.unplaced (part : Part) : Part := { part with location := {} }

/-- A document that does not say where its parts are. -/
def Document.unplaced (document : Document) : Document :=
  { document with parts := document.parts.map Part.unplaced }

namespace PartTree

mutual

def unplaced : PartTree → PartTree
  | .node _ data children => .node {} data (unplacedAll children)

def unplacedAll : List PartTree → List PartTree
  | [] => []
  | tree :: rest => tree.unplaced :: unplacedAll rest

end

theorem unplacedAll_append (first second : List PartTree) :
    unplacedAll (first ++ second) = unplacedAll first ++ unplacedAll second := by
  induction first with
  | nil => rfl
  | cons tree rest ih => rw [List.cons_append, unplacedAll, unplacedAll, ih, List.cons_append]

end PartTree

/-- A change of one element that commutes with a change of all. -/
theorem map_modify_of_comm {α : Type} {f g : α → α} (h : ∀ a, g (f a) = f (g a)) (xs : Array α)
    (i : Nat) : (xs.modify i f).map g = (xs.map g).modify i f := by
  apply Array.toList_inj.1
  rw [Array.toList_map, Array.toList_modify, Array.toList_modify, Array.toList_map]
  exact map_modify g f f h xs.toList i

namespace Part

/-- A child is listed alike with and without places. -/
theorem unplaced_list (id : PartId) (type : PartType) (part : Part) :
    (part.list id type).unplaced = part.unplaced.list id type := rfl

theorem unplaced_register (id : PartId) (data : PartData) (part : Part) :
    (part.register id data).unplaced = part.unplaced.register id data := by
  obtain ⟨parent, children, location, held⟩ := part
  cases data with
  | inputObjectField name => cases held <;> rfl
  | _ => rfl

end Part

namespace Document

variable (document : Document)

theorem unplaced_empty (location : Position) : (empty location).unplaced = empty {} := by
  simp [empty, unplaced, Part.unplaced]

theorem size_unplaced : document.unplaced.size = document.size := Array.size_map ..

theorem parent?_unplaced (id : PartId) : document.unplaced.parent? id = document.parent? id := by
  rw [parent?, parent?, part?, part?, unplaced, Array.getElem?_map, Option.bind_map]
  rfl

theorem ancestors_unplaced (id : PartId) :
    document.unplaced.ancestors id = document.ancestors id := by
  induction id using Nat.strongRecOn with
  | ind id ih =>
      rw [ancestors, ancestors, parent?_unplaced]
      cases document.parent? id with
      | none => rfl
      | some parent =>
          by_cases hLt : parent < id
          · simp only [if_pos hLt, ih parent hLt]
          · simp only [if_neg hLt]

theorem depth_unplaced (id : PartId) : document.unplaced.depth id = document.depth id := by
  rw [depth, depth, ancestors_unplaced]

theorem unplaced_enter (id : PartId) (data : PartData) :
    (document.enter id data).unplaced = document.unplaced.enter id data := by
  cases data with
  | namedFragment name condition =>
      rw [enter, enter, show document.unplaced.namedFragments = document.namedFragments from rfl]
      split <;> rfl
  | _ => rfl

variable (parent : PartId) (location : Position) (data : PartData)

/-- A part is attached alike with and without places. -/
theorem unplaced_attached : (document.attached parent location data).unplaced =
    document.unplaced.attached parent {} data := by
  have hList :=
    map_modify_of_comm (Part.unplaced_list document.size data.type) document.parts parent
  rw [attached, unplaced_enter, attached, size_unplaced]
  congr 1
  rw [unplaced, Array.map_push, hList]
  rfl

theorem unplaced_put : (document.put parent location data).unplaced =
    document.unplaced.put parent {} data := by
  have hRegister := map_modify_of_comm (Part.unplaced_register document.size data)
    (document.attached parent location data).parts parent
  rw [put, put, size_unplaced, ← unplaced_attached document parent location data, unplaced,
    hRegister]
  rfl

end Document

namespace Progress

def unplaced (progress : Progress) : Progress :=
  { progress with document := progress.document.unplaced }

theorem unplaced_put (progress : Progress) (parent : PartId) (location : Position)
    (data : PartData) :
    (progress.put parent location data).unplaced = progress.unplaced.put parent {} data := by
  have hDepth := (progress.document.attached parent location data).depth_unplaced
  simp only [put, unplaced, Document.unplaced_put, Document.size_unplaced,
    ← Document.unplaced_attached progress.document parent location data, hDepth]

mutual

/-- A tree is grafted alike with and without places, by induction over it. -/
theorem unplaced_graft (progress : Progress) (parent : PartId) : (tree : PartTree) →
    (progress.graft parent tree).unplaced = progress.unplaced.graft parent tree.unplaced
  | .node location data children => by
      rw [graft, unplaced_graftAll, unplaced_put, PartTree.unplaced, graft]
      congr 1
      exact progress.document.size_unplaced.symm

theorem unplaced_graftAll (progress : Progress) (parent : PartId) : (trees : List PartTree) →
    (progress.graftAll parent trees).unplaced =
      progress.unplaced.graftAll parent (PartTree.unplacedAll trees)
  | [] => rfl
  | tree :: rest => by
      rw [graftAll, unplaced_graftAll, unplaced_graft, PartTree.unplacedAll, graftAll]

end

end Progress

end GraphQL
