import GraphQL.Proofs.Syntax.Reuse

/-! Roots. Of all calls on a tree only those that give the root a text change what the root says of
itself. Clearing is no exception: it takes the children of the root and not its texts, so these go
on to whoever uses the tree next. -/
namespace GraphQL

/-- The texts that a label has, as ranges of the source. -/
def Label.ranges (label : Label) : List ByteRange := label.primary.toList ++ label.secondary.toList

/-- Whether a label says nothing but what it is the label of and where that stands. -/
structure Label.Plain (label : Label) : Prop where
  primary : label.primary = none
  secondary : label.secondary = none
  scalarKind : label.scalarKind = none

theorem Label.Plain.ranges {label : Label} (h : label.Plain) : label.ranges = [] := by
  rw [Label.ranges, h.primary, h.secondary]
  rfl

namespace SyntaxTree

/-- The label and the parent of the first node. -/
def head? (tree : SyntaxTree) : Option (Label × Option Nat) :=
  tree.nodes[0]?.map fun node => (node.label, node.parent)

/-- What the root of a tree says of itself. -/
def rootLabel (tree : SyntaxTree) : Label :=
  (tree.head?.map Prod.fst).getD { type := .empty, location := {} }

/-- Whether the first node of a tree is a root: empty, at the start of the text, under nothing. -/
structure Headed (tree : SyntaxTree) : Prop where
  head : tree.head? = some (tree.rootLabel, none)
  type : tree.rootLabel.type = .empty
  location : tree.rootLabel.location = {}

variable {tree after : SyntaxTree}

theorem head?_toList (tree : SyntaxTree) :
    tree.head? = tree.nodes.toList[0]?.map fun node => (node.label, node.parent) := by
  rw [head?, Array.getElem?_toList]

theorem headed_new : ({} : SyntaxTree).Headed := ⟨rfl, rfl, rfl⟩

/-- Whether a tree is headed depends on its root alone. -/
theorem Headed.of_head? (h : tree.Headed) (hHead : after.head? = tree.head?) : after.Headed := by
  have hLabel : after.rootLabel = tree.rootLabel := by rw [rootLabel, hHead, rootLabel]
  exact ⟨by rw [hHead, hLabel, h.head], by rw [hLabel, h.type], by rw [hLabel, h.location]⟩

/-- A change of children anywhere leaves the label and the parent of the first node. -/
theorem head?_modify (change : List Nat → List Nat) (nodes : List Node) (index : Nat) :
    (nodes.modify index fun node => { node with children := change node.children })[0]?.map
        (fun node => (node.label, node.parent)) =
      nodes[0]?.map fun node => (node.label, node.parent) := by
  rw [List.getElem?_modify]
  cases nodes[0]? with
  | none => rfl
  | some node => by_cases hFirst : index = 0 <;> simp [hFirst]

theorem head?_graft (h : 0 < tree.size) (parent : Nat) (phrase : Outline) :
    (tree.graft parent phrase).head? = tree.head? := by
  rw [head?_toList, graft_nodes, List.getElem?_append_left (by simpa [size_eq] using h),
    head?_toList]
  exact head?_modify (· ++ Outline.places tree.size [phrase]) tree.nodes.toList parent

/-- A reset leaves what the root says, its texts included. -/
theorem head?_reset (h : 0 < tree.size) : tree.reset.head? = tree.head? := by
  obtain ⟨root, rest, hNodes⟩ := List.exists_cons_of_length_pos (size_eq tree ▸ h)
  rw [head?_toList, head?_toList, reset_nodes hNodes, hNodes]
  rfl

theorem head?_cleared (h : 0 < tree.size) : tree.cleared.head? = tree.head? := by
  rw [cleared]
  split
  · rfl
  · exact head?_reset h

/-- A rollback that leaves any node leaves the first one. -/
theorem head?_rollback {checkpoint : Checkpoint} (hCount : 0 < checkpoint.nodeCount)
    (hBack : tree.rollback checkpoint = (.ok (), after)) : after.head? = tree.head? := by
  simp only [rollback] at hBack
  split at hBack
  · cases hBack
    rw [head?_toList, cutChildren, Array.toList_modify,
      head?_modify (List.take checkpoint.childCount), head?_toList]
    simp [hCount]
  · cases hBack

/-- Only the label is changed, and that of the root if the root is named. -/
theorem head?_relabel {id : NodeId} {change : Label → Label}
    (hSet : tree.relabel id change = .ok after) : after.head? = tree.head?.map fun root =>
      (if id.index = 0 then change root.1 else root.1, root.2) := by
  obtain ⟨node, -, hAfter⟩ := except_bind_eq_ok.1 hSet
  cases hAfter
  rw [head?_toList, Array.toList_modify, List.getElem?_modify, head?_toList]
  cases tree.nodes.toList[0]? with
  | none => rfl
  | some root => by_cases hFirst : id.index = 0 <;> simp [hFirst]

/-- Texts are set on the root without changing that it is headed. -/
theorem Headed.setText (h : tree.Headed) {id : NodeId} {text : NodeText}
    (hSet : tree.relabel id text.record = .ok after) : after.Headed := by
  have hRecord (label : Label) : (text.record label).type = label.type ∧
      (text.record label).location = label.location := by cases text <;> exact ⟨rfl, rfl⟩
  have hHead := head?_relabel hSet
  rw [h.head, Option.map_some] at hHead
  have hLabel : after.rootLabel =
      if id.index = 0 then text.record tree.rootLabel else tree.rootLabel := by
    rw [rootLabel, hHead]
    rfl
  have hKept : after.rootLabel.type = tree.rootLabel.type ∧
      after.rootLabel.location = tree.rootLabel.location := by
    rw [hLabel]
    split
    · exact hRecord tree.rootLabel
    · exact ⟨rfl, rfl⟩
  constructor
  case head => rw [hHead, hLabel]
  case type => rw [hKept.1, h.type]
  case location => rw [hKept.2, h.location]

/-- Reading leaves what the root says. -/
theorem head?_parseInto (h : tree.Rooted) (source : Source) :
    (source.parseInto tree).2.head? = tree.head? := by
  have hCleared := head?_cleared h.nonempty
  unfold Source.parseInto
  cases source.outline with
  | error error => exact hCleared
  | ok phrase => exact (head?_graft (h.clear_cleared.rooted.nonempty) 0 phrase).trans hCleared

/-- A builder leaves a headed tree, whether it succeeds or not. -/
theorem Headed.of_mirrors (h : tree.Headed) (hSize : 0 < tree.size) {parent : Nat}
    {read : EStateM.Result Failure TokenStream Outline}
    {result : EStateM.Result Halt Workspace Unit} (hMirrors : Mirrors tree parent read result) :
    match result with
    | .ok _ space => space.tree.Headed
    | .error _ space => space.tree.Headed := by
  have hGrown (label : Label) (children : List Outline) :
      (tree.graft parent (.node label children)).Headed := h.of_head? (head?_graft hSize _ _)
  cases hMirrors with
  | built label children stream => exact hGrown label children
  | broken error label children stream => exact hGrown label children
  | unopened error stream => exact h

/-- Every tree that calls can lead to has a root, whatever texts the root was given. -/
theorem Reachable.headed (h : tree.Reachable) : tree.Headed := by
  induction h with
  | new => exact headed_new
  | @append tree after parent id type location h hAppend ih =>
      obtain ⟨node, -, hAfter⟩ := except_bind_eq_ok.1 hAppend
      cases hAfter
      exact ih.of_head? (head?_graft h.rooted.nonempty parent.index (.leaf type location))
  | setText _ hSet ih => exact ih.setText hSet
  | @rollback tree other after parent checkpoint h hOther hTaken hBack ih _ =>
      obtain ⟨node, -, rfl⟩ := checkpoint_eq_ok.1 hTaken
      exact ih.of_head? (head?_rollback hOther.rooted.nonempty hBack)
  | reset h ih => exact ih.of_head? (head?_reset h.rooted.nonempty)
  | @built tree parent stream space production h hParent hBuild ih =>
      have hMirrors := NodeBuilder.follows_production production tree parent stream hParent
      rw [hBuild] at hMirrors
      exact ih.of_mirrors h.rooted.nonempty hMirrors
  | @unbuilt tree parent stream space error production h hParent hBuild ih =>
      have hMirrors := NodeBuilder.follows_production production tree parent stream hParent
      rw [hBuild] at hMirrors
      exact ih.of_mirrors h.rooted.nonempty hMirrors
  | @read tree after source id h hRead ih =>
      have hTree := h.rooted.tree_of_readInto source
      rw [hRead] at hTree
      exact ih.of_head? (hTree ▸ head?_parseInto h.rooted source)
  | @unread tree after source error h hRead ih =>
      have hTree := h.rooted.tree_of_readInto source
      rw [hRead] at hTree
      exact ih.of_head? (hTree ▸ head?_parseInto h.rooted source)

/-- What is left of a tree with a root: the root and what it says of itself. -/
theorem Headed.reset_eq (h : tree.Headed) : tree.reset =
    { nodes := #[{ label := tree.rootLabel }], generation := tree.generation + 1 } := by
  have hHead := h.head
  rw [head?_toList] at hHead
  obtain ⟨root, hRoot, hSays⟩ := Option.map_eq_some_iff.1 hHead
  obtain ⟨hLabel, hParent⟩ := Prod.mk.inj hSays
  obtain ⟨rest, hNodes⟩ := List.head?_eq_some_iff.1 ((List.head?_eq_getElem? ..).trans hRoot)
  apply ext_toList
  · rw [reset_nodes hNodes, ← hLabel, ← hParent]
  · rfl

/-- A label of a root is that of a new root if it is plain. -/
theorem Headed.plain_iff (h : tree.Headed) :
    tree.rootLabel.Plain ↔ tree.rootLabel = { type := .empty, location := {} } := by
  have hType := h.type
  have hLocation := h.location
  generalize tree.rootLabel = label at hType hLocation
  constructor
  · rintro ⟨hPrimary, hSecondary, hKind⟩
    cases label
    simp_all
  · rintro rfl
    exact ⟨rfl, rfl, rfl⟩

/-- How much of a tree is left when it is cleared. -/
structure LeavesRoot (tree : SyntaxTree) : Prop where
  /-- All that a cleared tree has is a root with the texts it had. -/
  remains : tree.reset =
    { nodes := #[{ label := tree.rootLabel }], generation := tree.generation + 1 }
  root : tree.rootLabel.type = .empty ∧ tree.rootLabel.location = {}
  /-- It can be told from a new tree by more than its generation exactly if there are texts. -/
  asNew : tree.reset.nodes = ({} : SyntaxTree).nodes ↔ tree.rootLabel.Plain
  /-- Who gets the tree from a pool next gets what was left. -/
  lent : ∀ pool : TreePool, pool.retained < pool.limit →
    (pool.release tree).acquire = (tree.reset, pool)

/-- Clearing a tree takes all that it holds, whatever was done to it, except for the texts that its
root was given. -/
theorem Reachable.leavesRoot (h : tree.Reachable) : tree.LeavesRoot := by
  have hHeaded := h.headed
  have hRemains := hHeaded.reset_eq
  constructor
  case remains => exact hRemains
  case root => exact ⟨hHeaded.type, hHeaded.location⟩
  case asNew =>
    rw [hHeaded.plain_iff, hRemains]
    simp
  case lent =>
    intro pool hRoom
    have hLess : pool.idle.length < pool.limit := hRoom
    rw [TreePool.release, if_pos hLess]
    rfl

/-- A new tree whose root was given a number. -/
theorem leavesRoot_of_scalar : ∃ tree : SyntaxTree,
    ({} : SyntaxTree).relabel ⟨0, 0⟩ (NodeText.scalar ⟨0, 1⟩ .number).record = .ok tree ∧
      tree.Reachable ∧ tree.LeavesRoot := by
  obtain ⟨tree, hSet⟩ : ∃ tree, ({} : SyntaxTree).relabel ⟨0, 0⟩
      (NodeText.scalar ⟨0, 1⟩ .number).record = .ok tree := ⟨_, rfl⟩
  have hReachable := Reachable.setText .new hSet
  exact ⟨tree, hSet, hReachable, hReachable.leavesRoot⟩

/-- A tree can be told from a new one by more than its generation once it is cleared. -/
theorem reset_keeps_text :
    ¬ ∀ tree : SyntaxTree, tree.Reachable → tree.reset.nodes = ({} : SyntaxTree).nodes := by
  intro hNew
  have hSet : ({} : SyntaxTree).relabel ⟨0, 0⟩ (NodeText.primary ⟨0, 1⟩).record = .ok
      { nodes := #[{ label := { type := .empty, primary := some ⟨0, 1⟩, location := {} } }] } := rfl
  have hNodes := hNew _ (.setText .new hSet)
  revert hNodes
  decide

end SyntaxTree

end GraphQL
