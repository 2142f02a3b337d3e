import GraphQL.Proofs.Syntax.Following

/-! Trees that hold nothing but their root. Whatever such a tree held before, a phrase that is put
in it lies where it does in a new tree. -/
namespace GraphQL

namespace SyntaxTree

open Outline

/-- Whether a tree is a root that has nothing under it. -/
structure Clear (tree : SyntaxTree) : Prop where
  size : tree.size = 1
  childless : tree.children tree.root = .ok []

/-- Whether two trees are equal but for what their roots say of themselves. -/
structure SameBelow (tree other : SyntaxTree) : Prop where
  size : tree.size = other.size
  children : tree.nodes[0]?.map Node.children = other.nodes[0]?.map Node.children
  nodes : ∀ index, 0 < index → tree.nodes[index]? = other.nodes[index]?

variable {tree other : SyntaxTree}

theorem clear_of_nodes {root : Node} (hNodes : tree.nodes.toList = [root])
    (hChildless : root.children = []) : tree.Clear := by
  have hRoot : tree.nodes[0]? = some root := by
    rw [← Array.getElem?_toList, hNodes]
    rfl
  have hFound : tree.node tree.root = .ok root := node_eq_ok.2 ⟨rfl, hRoot⟩
  constructor
  case size => rw [size_eq, hNodes, List.length_singleton]
  case childless =>
    rw [children, hFound]
    exact congrArg (fun children => Except.ok (children.map tree.idAt)) hChildless

theorem clear_new : ({} : SyntaxTree).Clear := clear_of_nodes rfl rfl

/-- Only the root is left by a reset, without its children but with its texts. -/
theorem reset_nodes {root : Node} {rest : List Node} (h : tree.nodes.toList = root :: rest) :
    tree.reset.nodes.toList = [{ root with children := [] }] := by
  rw [reset, Array.toList_modify, Array.take_eq_extract, Array.toList_extract,
    List.extract_eq_take_drop, h]
  rfl

/-- Clearing a tree leaves its root only. -/
theorem clear_reset (h : 0 < tree.size) : tree.reset.Clear := by
  obtain ⟨root, rest, hNodes⟩ := List.exists_cons_of_length_pos (size_eq tree ▸ h)
  exact clear_of_nodes (reset_nodes hNodes) rfl

namespace Clear

theorem exists_root (h : tree.Clear) : ∃ root, tree.nodes.toList = [root] ∧ root.children = [] := by
  obtain ⟨root, hNodes⟩ := List.length_eq_one_iff.1 (size_eq tree ▸ h.size)
  obtain ⟨found, hFound, hChildless⟩ := except_bind_eq_ok.1 h.childless
  have hRoot := (node_eq_ok.1 hFound).2
  rw [← Array.getElem?_toList, hNodes] at hRoot
  cases hRoot
  exact ⟨root, hNodes, by simpa using hChildless⟩

/-- The root of a clear tree has a good name. -/
theorem holds_root (h : tree.Clear) : tree.Holds tree.root :=
  ⟨rfl, h.size ▸ Nat.zero_lt_one⟩

/-- A phrase that is put in such a tree lies after the root, which lists it. -/
theorem graft_nodes (h : tree.Clear) (label : Label) (children : List Outline) :
    ∃ root, root.children = [1] ∧ (tree.graft 0 (.node label children)).nodes.toList =
      root :: (Outline.node label children).layout 1 0 := by
  obtain ⟨root, hNodes, hChildless⟩ := h.exists_root
  refine ⟨root.addChildren [1], ?_, ?_⟩
  · rw [Node.addChildren, hChildless]
    rfl
  · rw [SyntaxTree.graft_nodes, hNodes, h.size]
    rfl

/-- What such a tree was before shows in nothing that is put in it. -/
theorem sameBelow_graft (h : tree.Clear) (hOther : other.Clear) (label : Label)
    (children : List Outline) :
    (tree.graft 0 (.node label children)).SameBelow (other.graft 0 (.node label children)) := by
  obtain ⟨root, hRoot, hNodes⟩ := h.graft_nodes label children
  obtain ⟨otherRoot, hOtherRoot, hOtherNodes⟩ := hOther.graft_nodes label children
  constructor
  case size => rw [size_eq, size_eq, hNodes, hOtherNodes, List.length_cons, List.length_cons]
  case children =>
    rw [← Array.getElem?_toList, ← Array.getElem?_toList, hNodes, hOtherNodes]
    exact congrArg some (hRoot.trans hOtherRoot.symm)
  case nodes =>
    intro index hIndex
    obtain ⟨below, rfl⟩ := Nat.exists_eq_succ_of_ne_zero (Nat.ne_of_gt hIndex)
    rw [← Array.getElem?_toList, ← Array.getElem?_toList, hNodes, hOtherNodes]
    rfl

/-- The root lists nothing but the phrase that is put in such a tree. -/
theorem children_graft (h : tree.Clear) (label : Label) (children : List Outline) :
    (tree.graft 0 (.node label children)).children tree.root =
      .ok [(tree.graft 0 (.node label children)).idAt 1] := by
  obtain ⟨root, hRoot, hNodes⟩ := h.graft_nodes label children
  have hFound : (tree.graft 0 (.node label children)).node tree.root = .ok root := by
    refine node_eq_ok.2 ⟨(graft_generation ..).symm, ?_⟩
    rw [← Array.getElem?_toList, hNodes]
    rfl
  refine except_bind_eq_ok.2 ⟨root, hFound, ?_⟩
  rw [hRoot]
  rfl

/-- The document is found under the root of the tree that it is put in. -/
theorem document?_graft (h : tree.Clear) {label : Label} (hType : label.type = .document)
    (children : List Outline) : (tree.graft 0 (.node label children)).document? =
      .ok (some ((tree.graft 0 (.node label children)).idAt 1)) := by
  obtain ⟨first, -, hNodes⟩ := h.graft_nodes label children
  have hListed := h.children_graft label children
  have hName : tree.root = (tree.graft 0 (.node label children)).root := by
    rw [root, root, idAt, idAt, graft_generation]
  generalize tree.graft 0 (.node label children) = grown at hNodes hListed hName
  have hNode : grown.node (grown.idAt 1) =
      .ok { label, parent := some 0, children := places 2 children } := by
    refine node_eq_ok.2 ⟨rfl, ?_⟩
    rw [← Array.getElem?_toList, hNodes]
    rfl
  have hFound : (do
      let child ← grown.node (grown.idAt 1)
      return child.label.type == .document) = Except.ok true := by
    rw [hNode]
    simp [bind, Except.bind, hType, pure, Except.pure]
  rw [document?, firstChildOfType?, ← hName, hListed]
  refine except_bind_eq_ok.2 ⟨_, rfl, ?_⟩
  rw [List.findM?, hFound]
  rfl

end Clear

end SyntaxTree

end GraphQL
