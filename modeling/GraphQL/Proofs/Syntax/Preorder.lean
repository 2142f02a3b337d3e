import GraphQL.Proofs.Outcome
import GraphQL.Proofs.Syntax.Graft

/-! The walk over a grafted phrase. A phrase lies in one piece of the array, so the places of its
nodes, each before those below it, are consecutive. -/
namespace GraphQL

namespace SyntaxTree

open Outline

variable {tree : SyntaxTree}

/-- A child is walked only if it lies after its parent, which is itself in the array. -/
def placesBelow (tree : SyntaxTree) (index child : Nat) : Except StaleNode (List Nat) :=
  if index < child ∧ index < tree.nodes.size then tree.placesFrom child
  else .error (tree.stale (tree.idAt child))

theorem placesFrom_of_node {index : Nat} {node : Node} (h : tree.nodes[index]? = some node) :
    tree.placesFrom index = (do
      let below ← node.children.mapM (tree.placesBelow index)
      return index :: below.flatten) := by
  rw [placesFrom]
  split
  · next hNone => rw [h] at hNone; cases hNone
  · next found hFound =>
      rw [h] at hFound
      cases hFound
      rfl

mutual

/-- The places of a phrase are those from its first on, one for each node. -/
theorem placesFrom_layout (label : Label) (children : List Outline) (before after : List Node)
    (parent : Nat)
    (h : tree.nodes.toList =
      before ++ (Outline.node label children).layout before.length parent ++ after) :
    tree.placesFrom before.length =
      .ok (List.range' before.length (Outline.node label children).count) := by
  have hNode : tree.nodes[before.length]? = some
      { label, parent := some parent, children := places (before.length + 1) children } := by
    rw [← Array.getElem?_toList, h, layout]
    simp
  have hSize : before.length < tree.nodes.size := (Array.getElem?_eq_some_iff.1 hNode).1
  obtain ⟨below, hBelow, hFlat⟩ := mapM_placesBelow children (before ++ [_]) after before.length
    (by simp) hSize (by simpa [layout] using h)
  simp only [List.length_append, List.length_singleton] at hBelow hFlat
  rw [placesFrom_of_node hNode, hBelow, count, List.range'_succ, ← hFlat]
  rfl

/-- The walks from phrases laid out side by side meet their places in order. -/
theorem mapM_placesBelow : (phrases : List Outline) → (before after : List Node) →
    (owner : Nat) → owner < before.length → owner < tree.nodes.size →
    tree.nodes.toList = before ++ layoutAll before.length owner phrases ++ after →
    ∃ below, (places before.length phrases).mapM (tree.placesBelow owner) = .ok below ∧
      below.flatten = List.range' before.length (countAll phrases)
  | [], _, _, _, _, _, _ => ⟨[], rfl, rfl⟩
  | .missing _ :: rest, before, after, owner, hOwner, hSize, h => by
      simpa [places, countAll, count] using
        mapM_placesBelow rest before after owner hOwner hSize
          (by simpa [layoutAll, layout, count] using h)
  | .node label children :: rest, before, after, owner, hOwner, hSize, h => by
      have hFirst := placesFrom_layout label children before
        (layoutAll (before.length + (Outline.node label children).count) owner rest ++ after) owner
        (by simpa [layoutAll] using h)
      have hLength : (before ++ (Outline.node label children).layout before.length owner).length =
          before.length + (Outline.node label children).count := by
        rw [List.length_append, length_layout]
      obtain ⟨below, hBelow, hFlat⟩ := mapM_placesBelow rest
        (before ++ (Outline.node label children).layout before.length owner) after owner
        (by omega) hSize (by rw [hLength]; simpa [layoutAll] using h)
      rw [hLength] at hBelow hFlat
      refine ⟨List.range' before.length (Outline.node label children).count :: below, ?_, ?_⟩
      · rw [places, List.mapM_cons, hBelow, placesBelow, if_pos ⟨hOwner, hSize⟩, hFirst]
        rfl
      · rw [List.flatten_cons, hFlat, countAll, List.range'_append_1]

end

theorem size_graft (tree : SyntaxTree) (parent : Nat) (phrase : Outline) :
    (tree.graft parent phrase).size = tree.size + phrase.count := by
  rw [size_eq, graft_nodes, List.length_append, List.length_modify, length_layout]
  rfl

/-- The walk from a grafted phrase meets the nodes that are new, and no others. -/
theorem descendants_graft (tree : SyntaxTree) (parent : Nat) (label : Label)
    (children : List Outline) :
    let grown := tree.graft parent (.node label children)
    grown.descendants (grown.idAt tree.size) =
      .ok (List.range' tree.size (Outline.node label children).count) := by
  have hLength : (tree.nodes.toList.modify parent
      (Node.addChildren (places tree.size [.node label children]))).length = tree.size := by
    simp [size_eq]
  have hPlaces := placesFrom_layout label children _ [] parent
    (by rw [hLength, List.append_nil]; exact graft_nodes tree parent (.node label children))
  rw [hLength] at hPlaces
  have hSize : tree.size < (tree.graft parent (.node label children)).nodes.size := by
    have := size_graft tree parent (.node label children)
    simp only [size, count] at this ⊢
    omega
  obtain ⟨found, hFound⟩ : ∃ found, (tree.graft parent (.node label children)).node
      ((tree.graft parent (.node label children)).idAt tree.size) = .ok found := by
    simp [SyntaxTree.node, idAt, Array.getElem?_eq_getElem hSize]
  simp only [descendants, hFound]
  exact hPlaces

end SyntaxTree

end GraphQL
