import GraphQL.Proofs.Links
import GraphQL.Proofs.Syntax.Clearing
import GraphQL.Proofs.Traversal

/-! How the nodes of a syntax tree are linked. Children that are put in one by one come after their
parent and are listed there once, so a walk down from the root meets every node, each one once. -/
namespace GraphQL

/-- What a node says but for its texts and its place in the source. -/
structure Shape where
  type : NodeType
  parent : Option Nat
  children : List Nat
deriving DecidableEq, Repr, Inhabited

namespace Shape

def addChildren (more : List Nat) (shape : Shape) : Shape :=
  { shape with children := shape.children ++ more }

def cutChildren (count : Nat) (shape : Shape) : Shape :=
  { shape with children := shape.children.take count }

end Shape

def Node.shape (node : Node) : Shape := ⟨node.label.type, node.parent, node.children⟩

namespace SyntaxTree

/-- The number of the nodes, their types and all that links them. -/
def shape (tree : SyntaxTree) : List Shape := tree.nodes.toList.map Node.shape

def parentAt? (tree : SyntaxTree) (index : Nat) : Option Nat := tree.nodes[index]?.bind Node.parent

def childrenAt? (tree : SyntaxTree) (index : Nat) : Option (List Nat) :=
  tree.nodes[index]?.map Node.children

def childrenAt (tree : SyntaxTree) (index : Nat) : List Nat := (tree.childrenAt? index).getD []

/-- Whether all nodes but the root have a parent, and parents and lists of children say the same. -/
structure Sound (tree : SyntaxTree) : Prop where
  nonempty : 0 < tree.size
  parent : ∀ index < tree.size, tree.parentAt? index = none ↔ index = 0
  linked : Linked tree.size tree.parentAt? tree.childrenAt

variable {tree other : SyntaxTree}

theorem length_shape (tree : SyntaxTree) : tree.shape.length = tree.size := List.length_map _

theorem getElem?_shape (tree : SyntaxTree) (index : Nat) :
    tree.shape[index]? = tree.nodes[index]?.map Node.shape := by
  rw [shape, List.getElem?_map, Array.getElem?_toList]

theorem parentAt?_eq (tree : SyntaxTree) (index : Nat) :
    tree.parentAt? index = tree.shape[index]?.bind Shape.parent := by
  rw [getElem?_shape, Option.bind_map]
  rfl

theorem childrenAt?_eq (tree : SyntaxTree) (index : Nat) :
    tree.childrenAt? index = tree.shape[index]?.map Shape.children := by
  rw [getElem?_shape, Option.map_map]
  rfl

/-- The children at a place are those of its shape, and none where there is no node. -/
theorem childrenAt_eq (tree : SyntaxTree) (index : Nat) :
    tree.childrenAt index = (tree.shape[index]?.map Shape.children).getD [] := by
  rw [childrenAt, childrenAt?_eq]

/-- Whether a tree is sound shows in its shape. -/
theorem Sound.of_shape (h : tree.Sound) (hShape : other.shape = tree.shape) : other.Sound := by
  have hSize : other.size = tree.size := by rw [← length_shape, hShape, length_shape]
  have hParent : other.parentAt? = tree.parentAt? := by
    funext index
    rw [parentAt?_eq, parentAt?_eq, hShape]
  have hChildren : other.childrenAt = tree.childrenAt := by
    funext index
    rw [childrenAt_eq, childrenAt_eq, hShape]
  constructor
  case nonempty => exact hSize ▸ h.nonempty
  case parent =>
    rw [hSize, hParent]
    exact h.parent
  case linked =>
    rw [hSize, hParent, hChildren]
    exact h.linked

/-- A new node adds a shape at the end and a child to its parent's. -/
theorem shape_appendAt (tree : SyntaxTree) (parent : Nat) (label : Label) :
    (tree.appendAt parent label).shape =
      tree.shape.modify parent (Shape.addChildren [tree.size]) ++
        [⟨label.type, some parent, []⟩] := by
  have hListed := map_modify Node.shape (Node.addChildren [tree.size])
    (Shape.addChildren [tree.size]) (fun _ => rfl) tree.nodes.toList parent
  rw [shape, appendAt_nodes, List.map_append, hListed]
  rfl

/-- A change of texts is none of the shape. -/
theorem shape_relabel {name : NodeId} {change : Label → Label}
    (h : tree.relabel name change = .ok other)
    (hChange : ∀ label, (change label).type = label.type) :
    other.shape = tree.shape ∧ other.generation = tree.generation := by
  obtain ⟨node, -, hOther⟩ := except_bind_eq_ok.1 h
  cases hOther
  have hSame := map_modify Node.shape
    (fun node : Node => { node with label := change node.label }) id
    (fun node => by simp [Node.shape, hChange]) tree.nodes.toList name.index
  refine ⟨?_, rfl⟩
  rw [shape, Array.toList_modify, hSame, List.modify_id]
  rfl

theorem getElem?_shape_appendAt (tree : SyntaxTree) (parent : Nat) (label : Label) (index : Nat) :
    (tree.appendAt parent label).shape[index]? =
      if index = tree.size then some ⟨label.type, some parent, []⟩
      else tree.shape[index]?.map fun shape =>
        if parent = index then shape.addChildren [tree.size] else shape := by
  rw [shape_appendAt, List.getElem?_append, List.length_modify, length_shape]
  by_cases hOld : index < tree.size
  · rw [if_pos hOld, if_neg (Nat.ne_of_lt hOld), List.getElem?_modify]
    rfl
  · have hNone : tree.shape[index]? = none := by
      rw [List.getElem?_eq_none_iff, length_shape]
      omega
    rw [if_neg hOld, hNone, List.getElem?_singleton, Option.map_none]
    apply if_congr _ rfl rfl
    omega

theorem parentAt?_appendAt (tree : SyntaxTree) (parent : Nat) (label : Label) :
    (tree.appendAt parent label).parentAt? =
      fun index => if index = tree.size then some parent else tree.parentAt? index := by
  funext index
  rw [parentAt?_eq, parentAt?_eq, getElem?_shape_appendAt]
  split
  · rfl
  · cases tree.shape[index]? with
    | none => rfl
    | some shape => by_cases hSame : parent = index <;> simp [hSame, Shape.addChildren]

/-- All nodes but the parent keep their children. -/
theorem childrenAt_appendAt {parent : Nat} (h : parent < tree.size) (label : Label) :
    (tree.appendAt parent label).childrenAt = fun index =>
      if index = parent then tree.childrenAt index ++ [tree.size] else tree.childrenAt index := by
  funext index
  rw [childrenAt_eq, childrenAt_eq, getElem?_shape_appendAt]
  by_cases hParent : index = parent
  · have hIndex : index < tree.shape.length := by rwa [length_shape, hParent]
    have hFound : tree.shape[index]? = some tree.shape[index] := List.getElem?_eq_getElem hIndex
    rw [if_pos hParent, if_neg (by omega), hFound, Option.map_some, if_pos hParent.symm]
    rfl
  · rw [if_neg hParent]
    split
    · next hNew =>
        have hNone : tree.shape[index]? = none := by
          rw [List.getElem?_eq_none_iff, length_shape]
          omega
        rw [hNone]
        rfl
    · cases tree.shape[index]? with
      | none => rfl
      | some shape => simp [Ne.symm hParent]

theorem size_appendAt (tree : SyntaxTree) (parent : Nat) (label : Label) :
    (tree.appendAt parent label).size = tree.size + 1 := by
  rw [← length_shape, shape_appendAt, List.length_append, List.length_modify, length_shape]
  rfl

/-- A sound tree stays sound when a node is put under one of its nodes. -/
theorem Sound.append (h : tree.Sound) {parent : Nat} (hParent : parent < tree.size)
    (label : Label) : (tree.appendAt parent label).Sound := by
  constructor
  case nonempty =>
    rw [size_appendAt]
    omega
  case parent =>
    intro index hIndex
    rw [size_appendAt] at hIndex
    rw [parentAt?_appendAt]
    have hNonempty := h.nonempty
    by_cases hNew : index = tree.size
    · simp only [hNew, if_true, reduceCtorEq, false_iff]
      omega
    · simp only [if_neg hNew]
      exact h.parent index (by omega)
  case linked =>
    rw [size_appendAt, parentAt?_appendAt, childrenAt_appendAt hParent]
    exact h.linked.extend hParent

/-- A tree of one node that has neither a parent nor children is sound. -/
theorem sound_of_shape (type : NodeType) (h : tree.shape = [⟨type, none, []⟩]) : tree.Sound := by
  have hSize : tree.size = 1 := by rw [← length_shape, h]; rfl
  have hParent : tree.parentAt? = fun _ => none := by
    funext index
    rw [parentAt?_eq, h, List.getElem?_singleton]
    split <;> rfl
  have hChildren : tree.childrenAt = fun _ => [] := by
    funext index
    rw [childrenAt_eq, h, List.getElem?_singleton]
    split <;> rfl
  constructor
  case nonempty => omega
  case parent =>
    intro index hIndex
    rw [hParent]
    simp only [true_iff]
    omega
  case linked =>
    rw [hSize, hParent, hChildren]
    exact .single

theorem sound_new : ({} : SyntaxTree).Sound := sound_of_shape .empty rfl

/-- The root is all that a tree keeps when it is cleared. -/
theorem Sound.reset (h : tree.Sound) : tree.reset.Sound := by
  have hNonempty := h.nonempty
  obtain ⟨root, rest, hNodes⟩ := List.exists_cons_of_length_pos (l := tree.nodes.toList) hNonempty
  have hRoot : tree.nodes[0]? = some root := by
    rw [← Array.getElem?_toList, hNodes]
    rfl
  have hParent : root.parent = none := by
    have hTop := (h.parent 0 hNonempty).2 rfl
    rwa [parentAt?, hRoot] at hTop
  apply sound_of_shape root.label.type
  rw [shape, reset_nodes hNodes]
  simp [Node.shape, hParent]

/-- At each place below the size there is a node, with the children listed for it. -/
theorem exists_nodeAt {index : Nat} (h : index < tree.size) : ∃ node,
    tree.nodes[index]? = some node ∧ tree.childrenAt? index = some (tree.childrenAt index) ∧
      tree.childrenAt index = node.children := by
  have hFound : tree.nodes[index]? = some tree.nodes[index] := Array.getElem?_eq_getElem h
  refine ⟨_, hFound, ?_⟩
  simp [childrenAt, childrenAt?, hFound]

/-- The depth of a node that is there is asked for by its current name. -/
theorem depth_idAt {index : Nat} (h : index < tree.size) :
    tree.depth (tree.idAt index) = .ok (tree.depthAt index) := by
  obtain ⟨node, hNode, -⟩ := exists_nodeAt h
  have hFound : tree.node (tree.idAt index) = .ok node := node_eq_ok.2 ⟨rfl, hNode⟩
  rw [depth, hFound]
  rfl

theorem depthAt_eq {index parent : Nat} (h : tree.parentAt? index = some parent)
    (hLt : parent < index) : tree.depthAt index = tree.depthAt parent + 1 := by
  rw [parentAt?] at h
  rw [depthAt, h]
  exact if_pos hLt

namespace Sound

variable (h : tree.Sound)
include h

/-- All nodes of a sound tree lie under the root. -/
theorem under_root {index : Nat} : Under tree.parentAt? 0 index ↔ index < tree.size := by
  constructor
  · intro hUnder
    exact h.linked.lt_of_under hUnder h.nonempty
  · induction index using Nat.strongRecOn with
    | _ index ih =>
        intro hIndex
        rw [Under.iff_parent]
        cases hParent : tree.parentAt? index with
        | none => exact .inl ((h.parent index hIndex).1 hParent)
        | some parent =>
            have hLt := h.linked.above index parent hParent
            exact .inr ⟨parent, rfl, ih parent hLt (Nat.lt_trans hLt hIndex)⟩

/-- The walk of a sound tree meets what lies under its start. -/
theorem placesFrom_eq {index : Nat} (hIndex : index < tree.size) :
    tree.placesFrom index = .ok (subtree tree.size tree.childrenAt index) := by
  induction index using h.linked.induction_below with
  | hNode index ih =>
      obtain ⟨node, hNode, -, hChildren⟩ := exists_nodeAt hIndex
      rw [hChildren] at ih
      have hBelow : ∀ child ∈ node.children, tree.placesBelow index child =
          .ok (subtree tree.size tree.childrenAt child) := by
        intro child hChild
        rw [← hChildren] at hChild
        obtain ⟨-, hLt, hSize⟩ := h.linked.mem_children hChild
        rw [placesBelow, if_pos ⟨hLt, hIndex⟩]
        exact ih child (hChildren ▸ hChild) hSize
      rw [placesFrom_of_node hNode, except_mapM_of_ok hBelow, h.linked.subtree_eq, hChildren,
        List.flatMap_def]
      rfl

/-- A walk down from the root meets all nodes, each one once. -/
theorem descendants_root : ∃ places, tree.descendants tree.root = .ok places ∧
    Walk tree.childrenAt? [0] places ∧ places.Perm (List.range tree.size) := by
  refine ⟨subtree tree.size tree.childrenAt 0, ?_, ?_, ?_⟩
  · obtain ⟨node, hNode, -⟩ := exists_nodeAt h.nonempty
    have hRoot : tree.node tree.root = .ok node := node_eq_ok.2 ⟨rfl, hNode⟩
    rw [descendants, hRoot]
    exact h.placesFrom_eq h.nonempty
  · apply h.linked.walk _ 0 h.nonempty
    intro index hIndex
    obtain ⟨node, -, hChildren, -⟩ := exists_nodeAt hIndex
    exact hChildren
  · apply (List.perm_ext_iff_of_nodup (h.linked.nodup_subtree 0) List.nodup_range).2
    intro index
    rw [h.linked.mem_subtree, h.under_root, List.mem_range]

end Sound

/-- How the nodes of a tree hang together. -/
structure Joined (tree : SyntaxTree) : Prop where
  root : 0 < tree.size ∧ tree.parentAt? 0 = none
  parent : ∀ index, 0 < index → index < tree.size →
    ∃ parent, tree.parentAt? index = some parent ∧ parent < index
  /-- A node is listed once, by its parent, and nothing else is listed anywhere. -/
  listed : ∀ index parent, (tree.childrenAt parent).count index =
    if tree.parentAt? index = some parent then 1 else 0
  increasing : ∀ index, (tree.childrenAt index).Pairwise (· < ·)
  deeper : ∀ index parent, tree.parentAt? index = some parent →
    ∃ depth, tree.depth (tree.idAt parent) = .ok depth ∧
      tree.depth (tree.idAt index) = .ok (depth + 1)
  descendants : ∃ places, tree.descendants tree.root = .ok places ∧
    Walk tree.childrenAt? [0] places ∧ places.Perm (List.range tree.size)

/-- A sound tree is joined: what parents, children, depths and walks say of it agrees. -/
theorem Sound.joined (h : tree.Sound) : tree.Joined where
  root := ⟨h.nonempty, (h.parent 0 h.nonempty).2 rfl⟩
  parent index hPositive hIndex := by
    cases hParent : tree.parentAt? index with
    | none => exact absurd ((h.parent index hIndex).1 hParent) (Nat.ne_of_gt hPositive)
    | some parent => exact ⟨parent, rfl, h.linked.above index parent hParent⟩
  listed index parent := by
    split
    · next hParent =>
        have hMem := (h.linked.listed parent index).2 hParent
        have hOnce : (tree.childrenAt parent).Nodup := (h.linked.increasing parent).imp Nat.ne_of_lt
        exact List.count_eq_one_of_mem hOnce hMem
    · next hOther =>
        rw [List.count_eq_zero, h.linked.listed]
        exact hOther
  increasing := h.linked.increasing
  deeper index parent hParent := by
    have hLt := h.linked.above index parent hParent
    have hIndex := h.linked.inside index parent hParent
    exact ⟨_, depth_idAt (Nat.lt_trans hLt hIndex), depthAt_eq hParent hLt ▸ depth_idAt hIndex⟩
  descendants := h.descendants_root

end SyntaxTree

end GraphQL
