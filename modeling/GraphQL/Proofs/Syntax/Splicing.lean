import GraphQL.Proofs.Syntax.Preorder

/-! A syntax tree without its collections. A collection only groups phrases, so what counts as the
contents of a node is its children with the contents of each collection in its place, and a node
belongs to the nearest node above it that is no collection. -/
namespace GraphQL

/-- Whether a node of this type only groups the phrases in it. -/
def NodeType.isCollection : NodeType → Bool
  | .variableCollection | .inputItemCollection | .fieldCollection => true
  | _ => false

namespace SyntaxTree

variable (tree : SyntaxTree)

def typeAt? (index : Nat) : Option NodeType := tree.nodes[index]?.map fun node => node.label.type

/-- Whether the node at `index` is a collection. -/
def collectsAt (index : Nat) : Bool := (tree.typeAt? index).any NodeType.isCollection

/-- The place of the nearest node, from the one at `index` on upwards, that is no collection. -/
def nearest? (index : Nat) : Option Nat :=
  if tree.collectsAt index then
    match tree.nodes[index]?.bind Node.parent with
    | some parent => if parent < index then nearest? parent else none
    | none => none
  else some index

/-- The place of the nearest node above the one at `index` that is no collection. -/
def owner? (index : Nat) : Option Nat := (tree.nodes[index]?.bind Node.parent).bind tree.nearest?

/-- The children of the node at `index`, each collection among them replaced by its contents. -/
def contents (index : Nat) : List Nat :=
  match tree.nodes[index]? with
  | none => []
  | some node => node.children.flatMap fun child =>
    if tree.collectsAt child then
      if index < child ∧ index < tree.nodes.size then contents child else []
    else [child]
termination_by tree.nodes.size - index

end SyntaxTree

/-- A piece of a list that begins at `start`. -/
def Lies {α : Type} (whole : List α) (start : Nat) (piece : List α) : Prop :=
  piece <+: whole.drop start

namespace Lies

variable {α : Type} {whole : List α} {start : Nat}

/-- A part of a list lies where the elements before it end. -/
theorem of_eq {before piece after : List α} (h : whole = before ++ piece ++ after) :
    Lies whole before.length piece := by
  refine ⟨after, ?_⟩
  rw [h, List.append_assoc, List.drop_left]

theorem append {first second : List α} (h : Lies whole start (first ++ second)) :
    Lies whole start first ∧ Lies whole (start + first.length) second := by
  obtain ⟨rest, hRest⟩ := h
  rw [List.append_assoc] at hRest
  refine ⟨⟨_, hRest⟩, rest, ?_⟩
  rw [← List.drop_drop, ← hRest, List.drop_left]

theorem cons {first : α} {rest : List α} (h : Lies whole start (first :: rest)) :
    whole[start]? = some first ∧ Lies whole (start + 1) rest := by
  have hBoth : Lies whole start ([first] ++ rest) := h
  obtain ⟨⟨after, hAfter⟩, hRest⟩ := hBoth.append
  refine ⟨?_, hRest⟩
  rw [← Nat.add_zero start, ← List.getElem?_drop, ← hAfter]
  rfl

end Lies

namespace Outline

mutual

/-- The places of the nodes of a phrase that are no collections, if it is laid out from `start`. -/
def kept (start : Nat) : Outline → List Nat
  | .node label children =>
    if label.type.isCollection then keptAll (start + 1) children
    else start :: keptAll (start + 1) children
  | .missing _ => []

def keptAll (start : Nat) : List Outline → List Nat
  | [] => []
  | child :: rest => child.kept start ++ keptAll (start + child.count) rest

end

mutual

/-- The place of a phrase, or those of the contents of a collection. -/
def spliced (start : Nat) : Outline → List Nat
  | .node label children =>
    if label.type.isCollection then splicedAll (start + 1) children else [start]
  | .missing _ => []

def splicedAll (start : Nat) : List Outline → List Nat
  | [] => []
  | child :: rest => child.spliced start ++ splicedAll (start + child.count) rest

end

end Outline

namespace SyntaxTree

open Outline

variable {tree : SyntaxTree} {start parent : Nat}

/-- The contents of a node are its children, with collections replaced by what is in them. -/
theorem contents_of_node {index : Nat} {node : Node} (h : tree.nodes[index]? = some node) :
    tree.contents index = node.children.flatMap fun child =>
      if tree.collectsAt child then
        if index < child ∧ index < tree.nodes.size then tree.contents child else []
      else [child] := by
  rw [contents]
  split
  · next hNone => rw [h] at hNone; cases hNone
  · next found hFound =>
      rw [h] at hFound
      cases hFound
      rfl

theorem getElem?_toList {index : Nat} {node : Node} (h : tree.nodes.toList[index]? = some node) :
    tree.nodes[index]? = some node := by rwa [← Array.getElem?_toList]

/-- A grafted phrase lies behind the nodes that were there. -/
theorem lies_graft (tree : SyntaxTree) (parent : Nat) (phrase : Outline) :
    Lies (tree.graft parent phrase).nodes.toList tree.size (phrase.layout tree.size parent) := by
  have hLies := Lies.of_eq ((graft_nodes tree parent phrase).trans (List.append_nil _).symm)
  rwa [List.length_modify] at hLies

theorem collectsAt_of_node {index : Nat} {node : Node} (h : tree.nodes[index]? = some node) :
    tree.collectsAt index = node.label.type.isCollection := by
  simp [collectsAt, typeAt?, h]

mutual

/-- The walk over a phrase, less the collections. -/
theorem filter_kept : (phrase : Outline) → (start parent : Nat) →
    Lies tree.nodes.toList start (phrase.layout start parent) →
    (List.range' start phrase.count).filter (fun place => !tree.collectsAt place) =
      phrase.kept start
  | .missing _, _, _, _ => rfl
  | .node label children, start, _, h => by
      obtain ⟨hNode, hBelow⟩ := h.cons
      have hRest := filter_keptAll children (start + 1) start hBelow
      rw [count, List.range'_succ, List.filter_cons, collectsAt_of_node (getElem?_toList hNode),
        hRest, kept]
      cases label.type.isCollection <;> rfl

/-- Of phrases laid out side by side all nodes are kept but the collections. -/
theorem filter_keptAll : (phrases : List Outline) → (start parent : Nat) →
    Lies tree.nodes.toList start (layoutAll start parent phrases) →
    (List.range' start (countAll phrases)).filter (fun place => !tree.collectsAt place) =
      keptAll start phrases
  | [], _, _, _ => rfl
  | child :: rest, start, parent, h => by
      obtain ⟨hChild, hRest⟩ := Lies.append h
      rw [length_layout] at hRest
      rw [countAll, ← List.range'_append_1, List.filter_append,
        filter_kept child start parent hChild, filter_keptAll rest _ parent hRest, keptAll]

end

mutual

/-- The contents of the node of a phrase are the places of what stands in it. -/
theorem contents_layout : (label : Label) → (children : List Outline) → (start parent : Nat) →
    Lies tree.nodes.toList start ((Outline.node label children).layout start parent) →
    tree.contents start = splicedAll (start + 1) children
  | label, children, start, parent, h => by
      obtain ⟨hNode, hBelow⟩ := Lies.cons h
      have hSize : start < tree.nodes.size :=
        (Array.getElem?_eq_some_iff.1 (getElem?_toList hNode)).1
      rw [contents_of_node (getElem?_toList hNode)]
      exact flatMap_splicedAll children (start + 1) start (Nat.lt_succ_self _) hSize hBelow

/-- The contents of phrases side by side are their nodes, seen through collections. -/
theorem flatMap_splicedAll : (phrases : List Outline) → (start owner : Nat) → owner < start →
    owner < tree.nodes.size → Lies tree.nodes.toList start (layoutAll start owner phrases) →
    ((places start phrases).flatMap fun child =>
      if tree.collectsAt child then
        if owner < child ∧ owner < tree.nodes.size then tree.contents child else []
      else [child]) = splicedAll start phrases
  | [], _, _, _, _, _ => rfl
  | .missing _ :: rest, start, owner, hOwner, hSize, h => by
      simpa [splicedAll, spliced, places, count] using
        flatMap_splicedAll rest start owner hOwner hSize h
  | .node label children :: rest, start, owner, hOwner, hSize, h => by
      obtain ⟨hChild, hRest⟩ := Lies.append h
      obtain ⟨hNode, -⟩ := Lies.cons hChild
      have hContents := contents_layout label children start owner hChild
      rw [length_layout] at hRest
      have hOthers := flatMap_splicedAll rest _ owner (by omega) hSize hRest
      have hSeen : owner < start ∧ owner < tree.nodes.size := ⟨hOwner, hSize⟩
      rw [places, List.flatMap_cons, hOthers, collectsAt_of_node (getElem?_toList hNode),
        if_pos hSeen, hContents, splicedAll, spliced]

end

/-- What stands in a collection belongs where the collection does. -/
theorem nearest?_of_collection {index : Nat} {node : Node} (h : tree.nodes[index]? = some node)
    (hCollection : node.label.type.isCollection = true) (hParent : node.parent = some parent)
    (hLt : parent < index) : tree.nearest? index = tree.nearest? parent := by
  rw [nearest?, collectsAt_of_node h, if_pos hCollection, h]
  simp only [Option.bind_some, hParent, if_pos hLt]

/-- A node that is no collection is the nearest part to itself. -/
theorem nearest?_of_part {index : Nat} {node : Node} (h : tree.nodes[index]? = some node)
    (hPart : node.label.type.isCollection = false) : tree.nearest? index = some index := by
  rw [nearest?, collectsAt_of_node h, hPart]
  rfl

end SyntaxTree

end GraphQL
