import GraphQL.Syntax.Node

/-!
Syntax trees. The nodes of a tree lie in one array, and a node is named by its place there and by
the generation of the tree. Clearing a tree starts its next generation.
-/
namespace GraphQL

/-- The name of a node: its place in the tree and the generation it belongs to. A place stands for a
word of 32 bits and is a plain number, which is the same below 2 ^ 32 nodes: Proofs.Document.Sizes
bounds those of a text, and a tree that is grown by hand is taken to stay below. -/
structure NodeId where
  index : Nat
  generation : UInt32
deriving DecidableEq, Repr, Inhabited

/-- A name that stands for no node of a tree of this generation and size. -/
structure StaleNode where
  id : NodeId
  generation : UInt32
  count : Nat
deriving DecidableEq, Repr, Inhabited

def StaleNode.message (stale : StaleNode) : String :=
  "stale or foreign SyntaxNodeId SyntaxNodeId \x7b index: " ++ toString stale.id.index ++
    ", generation: " ++ toString stale.id.generation ++ " \x7d (tree generation " ++
    toString stale.generation ++ ", " ++ toString stale.count ++ " nodes)"

/-- A node in the array: its label, the place of its parent and the places of its children. -/
structure Node where
  label : Label
  parent : Option Nat := none
  children : List Nat := []
deriving DecidableEq, Repr, Inhabited

structure SyntaxTree where
  /-- All nodes. The first is the root. -/
  nodes : Array Node := #[{ label := { type := .empty, location := {} } }]
  generation : UInt32 := 0
deriving DecidableEq, Repr, Inhabited

/-- The size of a tree and of one child list, to go back to. -/
structure Checkpoint where
  nodeCount : Nat
  parent : NodeId
  childCount : Nat
deriving DecidableEq, Repr, Inhabited

namespace SyntaxTree

def size (tree : SyntaxTree) : Nat := tree.nodes.size

/-- Whether the tree holds nothing but its root. -/
def isEmpty (tree : SyntaxTree) : Bool := tree.size == 1

/-- The name that the node at `index` has now. -/
def idAt (tree : SyntaxTree) (index : Nat) : NodeId := ⟨index, tree.generation⟩

def root (tree : SyntaxTree) : NodeId := tree.idAt 0

def stale (tree : SyntaxTree) (id : NodeId) : StaleNode := ⟨id, tree.generation, tree.size⟩

/-- The node named `id`. -/
def node (tree : SyntaxTree) (id : NodeId) : Except StaleNode Node :=
  match tree.nodes[id.index]? with
  | some node => if id.generation = tree.generation then .ok node else .error (tree.stale id)
  | none => .error (tree.stale id)

/-- The node at `index`, if the tree still holds one there. -/
def nodeAt (tree : SyntaxTree) (index : Nat) : Except StaleNode Node := tree.node (tree.idAt index)

/-- Put a new node after the other children of the one at `parent`. -/
def appendAt (tree : SyntaxTree) (parent : Nat) (label : Label) : SyntaxTree :=
  let listed := tree.nodes.modify parent fun node =>
    { node with children := node.children ++ [tree.size] }
  { tree with nodes := listed.push { label, parent := some parent } }

/-- Put a new node after the other children of `parent`, and answer with its name. -/
def append (tree : SyntaxTree) (parent : NodeId) (label : Label) :
    Except StaleNode (NodeId × SyntaxTree) := do
  let _ ← tree.node parent
  return (tree.idAt tree.size, tree.appendAt parent.index label)

/-- Change what the node named `id` says of itself. -/
def relabel (tree : SyntaxTree) (id : NodeId) (change : Label → Label) :
    Except StaleNode SyntaxTree := do
  let _ ← tree.node id
  return { tree with
    nodes := tree.nodes.modify id.index fun node => { node with label := change node.label } }

mutual

/-- Put a whole phrase under the node at `parent`, each node before those in it. -/
def graft (tree : SyntaxTree) (parent : Nat) : Outline → SyntaxTree
  | .node label children => graftAll (tree.appendAt parent label) tree.size children
  | .missing _ => tree

/-- Put several phrases under the node at `parent`, in order. -/
def graftAll (tree : SyntaxTree) (parent : Nat) : List Outline → SyntaxTree
  | [] => tree
  | child :: rest => graftAll (tree.graft parent child) parent rest

end

/-- The size of the tree and of the child list of `parent`. -/
def checkpoint (tree : SyntaxTree) (parent : NodeId) : Except StaleNode Checkpoint := do
  let node ← tree.node parent
  return ⟨tree.size, parent, node.children.length⟩

/-- Cut the child list of the node at `index` back to `count` children. -/
def cutChildren (tree : SyntaxTree) (index count : Nat) : SyntaxTree :=
  { tree with nodes := tree.nodes.modify index fun node =>
    { node with children := node.children.take count } }

/-- Cut the tree and the child list back to a checkpoint. The nodes are cut even if the parent of
the checkpoint is not there. -/
def rollback (tree : SyntaxTree) (checkpoint : Checkpoint) :
    Except StaleNode Unit × SyntaxTree :=
  let cut := { tree with nodes := tree.nodes.take checkpoint.nodeCount }
  match cut.node checkpoint.parent with
  | .ok _ => (.ok (), cut.cutChildren checkpoint.parent.index checkpoint.childCount)
  | .error stale => (.error stale, cut)

/-- Cut the tree back to its root, which loses its children but not its texts, and start the next
generation. -/
def reset (tree : SyntaxTree) : SyntaxTree :=
  ⟨(tree.nodes.take 1).modify 0 fun node => { node with children := [] }, tree.generation + 1⟩

/-- The names of the children of `id`. -/
def children (tree : SyntaxTree) (id : NodeId) : Except StaleNode (List NodeId) := do
  let node ← tree.node id
  return node.children.map tree.idAt

/-- The children of `id` that are of the given type. -/
def childrenOfType (tree : SyntaxTree) (id : NodeId) (type : NodeType) :
    Except StaleNode (List NodeId) := do
  (← tree.children id).filterM fun child => do
    return (← tree.node child).label.type == type

/-- The first child of `id` of the given type. Children after it are not looked at. -/
def firstChildOfType? (tree : SyntaxTree) (id : NodeId) (type : NodeType) :
    Except StaleNode (Option NodeId) := do
  (← tree.children id).findM? fun child => do
    return (← tree.node child).label.type == type

/-- The document under the root, once one was read. -/
def document? (tree : SyntaxTree) : Except StaleNode (Option NodeId) :=
  tree.firstChildOfType? tree.root .document

/-- The places of the node at `index` and of all below it, each before those below it. A child lies
after its parent in the array. -/
def placesFrom (tree : SyntaxTree) (index : Nat) : Except StaleNode (List Nat) :=
  match tree.nodes[index]? with
  | none => .error (tree.stale (tree.idAt index))
  | some node => do
    let below ← node.children.mapM fun child =>
      if index < child ∧ index < tree.nodes.size then placesFrom tree child
      else .error (tree.stale (tree.idAt child))
    return index :: below.flatten
termination_by tree.nodes.size - index

/-- The places of `id` and of all below it. -/
def descendants (tree : SyntaxTree) (id : NodeId) : Except StaleNode (List Nat) := do
  let _ ← tree.node id
  tree.placesFrom id.index

/-- The number of steps from the node at `index` up to the root. A parent lies before its children
in the array. -/
def depthAt (tree : SyntaxTree) (index : Nat) : Nat :=
  match tree.nodes[index]?.bind Node.parent with
  | none => 0
  | some parent => if parent < index then depthAt tree parent + 1 else 1

def depth (tree : SyntaxTree) (id : NodeId) : Except StaleNode Nat := do
  let _ ← tree.node id
  return tree.depthAt id.index

/-- The phrase at `index`, as a tree of its own. -/
def outline (tree : SyntaxTree) (index : Nat) : Outline :=
  match tree.nodes[index]? with
  | none => .missing index
  | some node =>
    .node node.label (node.children.map fun child =>
      if index < child ∧ index < tree.nodes.size then outline tree child else .missing child)
termination_by tree.nodes.size - index

end SyntaxTree

end GraphQL
