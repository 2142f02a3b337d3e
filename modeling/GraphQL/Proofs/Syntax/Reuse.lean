import GraphQL.Proofs.Grammar.Document
import GraphQL.Proofs.Syntax.Atomicity
import GraphQL.Proofs.Syntax.Session

/-! Trees that are read into again. A tree of one node is not cleared before a text is read into it,
so it matters that its root has no children then, whatever was done to the tree: a rollback may cut
at any checkpoint, also at one of another tree. -/
namespace GraphQL

namespace SyntaxTree

/-- A tree as a text is read into it. -/
def cleared (tree : SyntaxTree) : SyntaxTree := if tree.isEmpty then tree else tree.reset

end SyntaxTree

/-- Read a text into a tree in place of what it held, building in the tree itself. The answer is the
first child of the root, if there is one. -/
def Source.readInto (source : Source) (tree : SyntaxTree) :
    EStateM.Result Halt SyntaxTree (Option NodeId) :=
  match (TokenStream.ofText source.text).prime with
  | (.error error, _) => .error (.malformed (error.atPath source.path)) tree.cleared
  | (.ok _, stream) =>
    match Builder.atomically Builder.document tree.cleared.root ⟨tree.cleared, stream⟩ with
    | .error (.malformed error) space => .error (.malformed (error.atPath source.path)) space.tree
    | .error (.stale node) space => .error (.stale node) space.tree
    | .ok _ space =>
      match space.tree.children tree.cleared.root with
      | .ok children => .ok children.head? space.tree
      | .error stale => .error (.stale stale) space.tree

/-- A tree that calls can lead to in any order, where none of them is given a name that stands for
no node. A checkpoint may be one of any such tree. -/
inductive SyntaxTree.Reachable : SyntaxTree → Prop where
  | new : Reachable {}
  | append {tree after : SyntaxTree} {parent id : NodeId} {type : NodeType} {location : Position}
      (h : Reachable tree) (hAppend : tree.append parent { type, location } = .ok (id, after)) :
      Reachable after
  | setText {tree after : SyntaxTree} {id : NodeId} {text : NodeText} (h : Reachable tree)
      (hSet : tree.relabel id text.record = .ok after) : Reachable after
  | rollback {tree other after : SyntaxTree} {parent : NodeId} {checkpoint : Checkpoint}
      (h : Reachable tree) (hOther : Reachable other)
      (hTaken : other.checkpoint parent = .ok checkpoint)
      (hBack : tree.rollback checkpoint = (.ok (), after)) : Reachable after
  | reset {tree : SyntaxTree} (h : Reachable tree) : Reachable tree.reset
  | built {tree : SyntaxTree} {parent : NodeId} {stream : TokenStream} {space : Workspace}
      (production : Production) (h : Reachable tree) (hParent : tree.Holds parent)
      (hBuild : production.builder parent ⟨tree, stream⟩ = .ok () space) : Reachable space.tree
  | unbuilt {tree : SyntaxTree} {parent : NodeId} {stream : TokenStream} {space : Workspace}
      {error : SyntaxError} (production : Production) (h : Reachable tree)
      (hParent : tree.Holds parent)
      (hBuild : production.builder parent ⟨tree, stream⟩ = .error (.malformed error) space) :
      Reachable space.tree
  | read {tree after : SyntaxTree} {source : Source} {id : NodeId} (h : Reachable tree)
      (hRead : source.readInto tree = .ok (some id) after) : Reachable after
  | unread {tree after : SyntaxTree} {source : Source} {error : SyntaxError} (h : Reachable tree)
      (hRead : source.readInto tree = .error (.malformed error) after) : Reachable after

namespace SyntaxTree

variable {tree after : SyntaxTree}

/-- Whether a tree has a root, which has no children if it is all there is. -/
structure Rooted (tree : SyntaxTree) : Prop where
  nonempty : 0 < tree.size
  bare : tree.size = 1 → tree.childrenAt 0 = []

theorem Clear.rooted (h : tree.Clear) : tree.Rooted := by
  obtain ⟨root, hNodes, hChildless⟩ := h.exists_root
  constructor
  case nonempty => exact h.size ▸ Nat.zero_lt_one
  case bare =>
    intro _
    rw [childrenAt, childrenAt?, ← Array.getElem?_toList, hNodes]
    exact hChildless

/-- A tree of two nodes or more is rooted, whatever its nodes say. -/
theorem rooted_of_two (h : 2 ≤ tree.size) : tree.Rooted := ⟨by omega, by omega⟩

namespace Rooted

variable (h : tree.Rooted)
include h

theorem clear_cleared : tree.cleared.Clear := by
  rw [cleared]
  split
  · next hEmpty =>
      have hSize : tree.size = 1 := by simpa [isEmpty] using hEmpty
      obtain ⟨root, hNodes⟩ := List.length_eq_one_iff.1 (size_eq tree ▸ hSize)
      have hBare := h.bare hSize
      rw [childrenAt, childrenAt?, ← Array.getElem?_toList, hNodes] at hBare
      exact clear_of_nodes hNodes hBare
  · exact clear_reset h.nonempty

/-- Whether a tree is rooted depends on its shape alone. -/
theorem of_shape (hShape : after.shape = tree.shape) : after.Rooted := by
  have hSize : after.size = tree.size := by rw [← length_shape, hShape, length_shape]
  constructor
  case nonempty => exact hSize ▸ h.nonempty
  case bare =>
    intro hOne
    rw [childrenAt_eq, hShape, ← childrenAt_eq]
    exact h.bare (hSize ▸ hOne)

theorem append {parent id : NodeId} {label : Label}
    (hAppend : tree.append parent label = .ok (id, after)) : after.Rooted := by
  obtain ⟨node, -, hAfter⟩ := except_bind_eq_ok.1 hAppend
  cases hAfter
  apply rooted_of_two
  have hNonempty := h.nonempty
  rw [size_appendAt]
  omega

/-- A rollback that leaves one node leaves it without children, whatever tree the checkpoint was
taken of. -/
theorem rollback {other : SyntaxTree} {parent : NodeId} {checkpoint : Checkpoint}
    (hOther : other.Rooted) (hTaken : other.checkpoint parent = .ok checkpoint)
    (hBack : tree.rollback checkpoint = (.ok (), after)) : after.Rooted := by
  obtain ⟨node, hNode, rfl⟩ := checkpoint_eq_ok.1 hTaken
  obtain ⟨hIndex, hShape⟩ := shape_of_rollback hBack
  have hSize : after.size = min other.size tree.size := by
    rw [← length_shape, hShape, Checkpoint.cut, List.length_modify, List.length_take, length_shape]
  have hRoot : after.childrenAt 0 = if parent.index = 0 then
      (tree.childrenAt 0).take node.children.length else tree.childrenAt 0 := by
    rw [childrenAt_eq, childrenAt_eq, hShape, Checkpoint.cut, List.getElem?_modify,
      List.getElem?_take_of_lt hOther.nonempty]
    cases tree.shape[0]? with
    | none => simp
    | some shape => by_cases hFirst : parent.index = 0 <;> simp [hFirst, Shape.cutChildren]
  have hNonempty := hOther.nonempty
  have hSome := h.nonempty
  constructor
  case nonempty => omega
  case bare =>
    intro hOne
    rw [hRoot]
    by_cases hSame : tree.size = 1
    · rw [h.bare hSame, List.take_nil, ite_self]
    · -- the checkpoint was taken of a root without children
      have hFirst : parent.index = 0 := by
        have hLess : parent.index < min other.size tree.size := hIndex
        omega
      have hBare := hOther.bare (by omega)
      have hFound := (node_eq_ok.1 hNode).2
      rw [hFirst] at hFound
      rw [childrenAt, childrenAt?, hFound] at hBare
      have hNone : node.children = [] := hBare
      rw [if_pos hFirst, hNone]
      rfl

end Rooted

/-- What a builder leaves, whether it fails or not, is rooted too. -/
theorem Rooted.of_mirrors (h : tree.Rooted) {parent : Nat}
    {read : EStateM.Result Failure TokenStream Outline}
    {result : EStateM.Result Halt Workspace Unit} (hMirrors : Mirrors tree parent read result) :
    match result with
    | .ok _ space => space.tree.Rooted
    | .error _ space => space.tree.Rooted := by
  have hGrown (label : Label) (children : List Outline) :
      (tree.graft parent (.node label children)).Rooted := by
    apply rooted_of_two
    have hNonempty := h.nonempty
    rw [size_graft, Outline.count]
    omega
  cases hMirrors with
  | built label children stream => exact hGrown label children
  | broken error label children stream => exact hGrown label children
  | unopened error stream => exact h

end SyntaxTree

/-- A text that is read is a document. -/
theorem Source.document_of_outline {source : Source} {phrase : Outline}
    (h : source.outline = .ok phrase) :
    ∃ label children, phrase = .node label children ∧ label.type = .document := by
  obtain ⟨-, hForms⟩ := Source.outline_eq_ok.1 h
  generalize Token.beforeEnd source.text = tokens at hForms
  cases hForms with
  | document => exact ⟨_, _, rfl, rfl⟩
  | enclosed hRule => cases hRule

/-- Reading in place is reading first and putting what was read in the tree. -/
theorem Source.readInto_eq (source : Source) {tree : SyntaxTree} (h : tree.cleared.Clear) :
    source.readInto tree = match source.parseInto tree with
      | (.ok id, after) => .ok (some id) after
      | (.error error, after) => .error (.malformed error) after := by
  have hDocument (phrase : Outline) : source.outline = .ok phrase →
      ∃ label children, phrase = .node label children ∧ label.type = .document :=
    source.document_of_outline
  unfold Source.readInto Source.parseInto Source.outline at *
  cases hPrime : (TokenStream.ofText source.text).prime with
  | mk primed stream =>
      cases primed with
      | error error => rfl
      | ok first =>
          simp only [hPrime] at hDocument ⊢
          rw [NodeBuilder.follows_document.atomically tree.cleared tree.cleared.root stream
            h.holds_root]
          cases hRead : Grammar.document stream with
          | error failure after => rfl
          | ok phrase after =>
              simp only [hRead] at hDocument ⊢
              obtain ⟨label, children, rfl, -⟩ := hDocument phrase rfl
              have hFirst : tree.cleared.root.index = 0 := rfl
              simp only [hFirst, h.children_graft label children]
              rfl

namespace SyntaxTree

/-- Whether reading a text into a tree gives what reading it into a new one does. -/
def ReadsAfresh (tree : SyntaxTree) (source : Source) : Prop :=
  match source.parse with
  | .ok fresh => ∃ id after, source.readInto tree = .ok (some id) after ∧
    source.parseInto tree = (.ok id, after) ∧ after.document? = .ok (some id) ∧
    after.SameBelow fresh
  | .error error => ∃ after, source.readInto tree = .error (.malformed error) after ∧
    source.parseInto tree = (.error error, after) ∧ after.Clear

namespace Rooted

variable {tree : SyntaxTree} (h : tree.Rooted)
include h

/-- Whatever was in a rooted tree before, a text is read into it as into a new one. -/
theorem readsAfresh (source : Source) : tree.ReadsAfresh source := by
  have hClear := h.clear_cleared
  rw [ReadsAfresh, source.readInto_eq hClear, source.parse_eq]
  cases hOutline : source.outline with
  | error error =>
      have hInto : source.parseInto tree = (.error error, tree.cleared) := by
        rw [Source.parseInto, hOutline]
        rfl
      rw [hInto]
      exact ⟨_, rfl, rfl, hClear⟩
  | ok phrase =>
      obtain ⟨label, children, rfl, hType⟩ := source.document_of_outline hOutline
      let grown := tree.cleared.graft 0 (.node label children)
      have hInto : source.parseInto tree = (.ok (grown.idAt 1), grown) := by
        rw [Source.parseInto, hOutline]
        rfl
      rw [hInto]
      exact ⟨_, _, rfl, rfl, hClear.document?_graft hType children,
        hClear.sameBelow_graft clear_new label children⟩

theorem parseInto (source : Source) : (source.parseInto tree).2.Rooted := by
  have hClear := h.clear_cleared
  unfold Source.parseInto
  cases hOutline : source.outline with
  | error error => exact hClear.rooted
  | ok phrase =>
      obtain ⟨label, children, rfl, -⟩ := source.document_of_outline hOutline
      have hSize := size_graft tree.cleared 0 (.node label children)
      rw [hClear.size, Outline.count] at hSize
      have hTwo : 2 ≤ (tree.cleared.graft 0 (.node label children)).size := by omega
      exact rooted_of_two hTwo

/-- Both ways to read a text leave the same tree. -/
theorem tree_of_readInto (source : Source) :
    match source.readInto tree with
    | .ok _ left => left = (source.parseInto tree).2
    | .error _ left => left = (source.parseInto tree).2 := by
  rw [source.readInto_eq h.clear_cleared]
  cases source.parseInto tree with
  | mk found left => cases found <;> rfl

end Rooted

/-- In every tree that calls can lead to, a root that is all there is has no children. -/
theorem Reachable.rooted {tree : SyntaxTree} (h : tree.Reachable) : tree.Rooted := by
  induction h with
  | new => exact clear_new.rooted
  | append _ hAppend ih => exact ih.append hAppend
  | @setText tree after id text _ hSet ih =>
      have hType (label : Label) : (text.record label).type = label.type := by cases text <;> rfl
      exact ih.of_shape (shape_relabel hSet hType).1
  | rollback _ _ hTaken hBack ih ihOther => exact ih.rollback ihOther hTaken hBack
  | reset _ ih => exact (clear_reset ih.nonempty).rooted
  | @built tree parent stream space production _ hParent hBuild ih =>
      have hMirrors := NodeBuilder.follows_production production tree parent stream hParent
      rw [hBuild] at hMirrors
      exact ih.of_mirrors hMirrors
  | @unbuilt tree parent stream space error production _ hParent hBuild ih =>
      have hMirrors := NodeBuilder.follows_production production tree parent stream hParent
      rw [hBuild] at hMirrors
      exact ih.of_mirrors hMirrors
  | @read tree after source id _ hRead ih =>
      have hTree := ih.tree_of_readInto source
      rw [hRead] at hTree
      exact hTree ▸ ih.parseInto source
  | @unread tree after source error _ hRead ih =>
      have hTree := ih.tree_of_readInto source
      rw [hRead] at hTree
      exact hTree ▸ ih.parseInto source

/-- What a tree held before a text is read into it decides nothing: the text is read as into a new
tree. -/
theorem readsAfresh_of_reachable {tree : SyntaxTree} (h : tree.Reachable) (source : Source) :
    tree.ReadsAfresh source :=
  h.rooted.readsAfresh source

/-- A tree that was cleared and grown is cut at a checkpoint that was taken in between. -/
theorem readsAfresh_of_reachable_cut :
    let grown := SyntaxTree.graft (SyntaxTree.reset {}) 0
      (.node { type := .document, location := {} } [.leaf .operation {}])
    let cut := (grown.rollback ⟨1, ⟨0, 1⟩, 0⟩).2
    grown.size = 3 ∧ cut.size = 1 ∧ cut.Reachable ∧ cut.ReadsAfresh { text := "{a}" } := by
  intro grown cut
  have hCleared : (SyntaxTree.reset {}).Reachable := .reset .new
  have hDocument : (SyntaxTree.reset {}).append ⟨0, 1⟩ { type := .document, location := {} } =
      .ok (⟨1, 1⟩, (SyntaxTree.reset {}).graft 0 (.leaf .document {})) := rfl
  have hOperation : ((SyntaxTree.reset {}).graft 0 (.leaf .document {})).append ⟨1, 1⟩
      { type := .operation, location := {} } = .ok (⟨2, 1⟩, grown) := rfl
  have hTaken : (SyntaxTree.reset {}).checkpoint ⟨0, 1⟩ = .ok ⟨1, ⟨0, 1⟩, 0⟩ := rfl
  have hCut : cut.Reachable :=
    .rollback ((hCleared.append hDocument).append hOperation) hCleared hTaken rfl
  exact ⟨rfl, rfl, hCut, readsAfresh_of_reachable hCut _⟩

end SyntaxTree

end GraphQL
