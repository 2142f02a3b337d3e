import GraphQL.Syntax.Tree

/-!
Runs of calls on one syntax tree. A tree goes back to any checkpoint it is given; a run here goes
back to one only where the cuts are sure to undo what was done since. Between the two, nodes are put
under the parent of the checkpoint only or under nodes that are newer than it, later checkpoints are
gone back to before earlier ones, and the tree is not cleared.
-/
namespace GraphQL

/-- A text that a node may be given. -/
inductive NodeText where
  | primary (range : ByteRange)
  | secondary (range : ByteRange)
  | scalar (range : ByteRange) (kind : ScalarKind)
deriving DecidableEq, Repr, Inhabited

/-- A label with a text put in. -/
def NodeText.record : NodeText → Label → Label
  | .primary range, label => { label with primary := some range }
  | .secondary range, label => { label with secondary := some range }
  | .scalar range kind, label => { label with primary := some range, scalarKind := some kind }

/-- A call that changes a tree, or that takes a checkpoint of it. -/
inductive TreeCall where
  | append (parent : NodeId) (type : NodeType) (location : Position)
  | setText (id : NodeId) (text : NodeText)
  | checkpoint (parent : NodeId)
  /-- Go back to a checkpoint, where 0 is the one taken last. -/
  | rollback (number : Nat)
  | reset
deriving DecidableEq, Repr, Inhabited

/-- A checkpoint and the tree that it was taken of. -/
structure Mark where
  checkpoint : Checkpoint
  before : SyntaxTree
deriving DecidableEq, Repr, Inhabited

/-- Whether the checkpoint can still be gone back to once a node is put under `parent`. -/
def Mark.allows (mark : Mark) (parent : NodeId) : Bool :=
  parent = mark.checkpoint.parent || mark.checkpoint.nodeCount ≤ parent.index

/-- A tree and the checkpoints that can still be gone back to, the last taken first. -/
structure TreeSession where
  tree : SyntaxTree := {}
  marks : List Mark := []
deriving DecidableEq, Repr, Inhabited

namespace TreeSession

/-- The session after a call. There is none if the call is given a name that stands for no node, or
goes back to a checkpoint that can not be gone back to. -/
def perform (session : TreeSession) : TreeCall → Option TreeSession
  | .append parent type location => do
    let (_, tree) ← (session.tree.append parent { type, location }).toOption
    return { tree, marks := session.marks.filter fun mark => mark.allows parent }
  | .setText id text => do
    let tree ← (session.tree.relabel id text.record).toOption
    return { session with tree }
  | .checkpoint parent => do
    let checkpoint ← (session.tree.checkpoint parent).toOption
    return { session with marks := ⟨checkpoint, session.tree⟩ :: session.marks }
  | .rollback number =>
    match session.marks.drop number with
    | [] => none
    | mark :: older =>
      match session.tree.rollback mark.checkpoint with
      | (.ok _, tree) => some { tree, marks := mark :: older }
      | (.error _, _) => none
  | .reset => some { tree := session.tree.reset }

/-- The session after several calls. -/
def run (session : TreeSession) : List TreeCall → Option TreeSession
  | [] => some session
  | call :: rest => do (← session.perform call).run rest

end TreeSession

end GraphQL
