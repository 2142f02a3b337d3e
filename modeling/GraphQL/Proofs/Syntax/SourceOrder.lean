import GraphQL.Proofs.Syntax.Extent
import GraphQL.Proofs.Syntax.Preorder

/-! Trees in the order of their text. A walk over a tree that was read goes through the text from
its start to its end. Texts that the root was given before are not in that order. -/
namespace GraphQL

namespace SyntaxTree

open Outline

def labels (tree : SyntaxTree) : List Label := tree.nodes.toList.map Node.label

/-- The texts of the node at a place. -/
def textsAt (tree : SyntaxTree) (index : Nat) : List ByteRange :=
  (tree.labels[index]?.map Label.ranges).getD []

/-- Whether the nodes of a tree and their texts come in the order of a text. -/
structure InSourceOrder (source : Source) (tree : SyntaxTree) : Prop where
  walk : tree.descendants tree.root = .ok (List.range tree.size)
  locations : tree.labels.Pairwise fun label later => label.location.offset ≤ later.location.offset
  texts : ∀ label ∈ tree.labels, ∀ range ∈ label.ranges,
    source.HasText range ∧ label.location.offset ≤ range.start
  /-- The texts of a node are before the node after it. -/
  stops : ∀ (index : Nat) (label next : Label), tree.labels[index]? = some label →
    tree.labels[index + 1]? = some next → ∀ range ∈ label.ranges, range.stop ≤ next.location.offset
  children : ∀ parent, ∀ child ∈ tree.childrenAt parent, ∀ range ∈ tree.textsAt parent,
    ∀ inner ∈ tree.textsAt child, range.stop ≤ inner.start
  siblings : ∀ parent, (tree.childrenAt parent).Pairwise fun child later =>
    ∀ range ∈ tree.textsAt child, ∀ other ∈ tree.textsAt later, range.stop ≤ other.start

variable {source : Source} {tree after : SyntaxTree} {id : NodeId}

theorem mem_textsAt {index : Nat} {range : ByteRange} :
    range ∈ tree.textsAt index ↔
      ∃ label, tree.labels[index]? = some label ∧ range ∈ label.ranges := by
  rw [textsAt]
  cases tree.labels[index]? with
  | none => simp
  | some label => simp

mutual

/-- A sound tree stays sound when a phrase is grafted, by induction over the phrase. -/
theorem Sound.graft {tree : SyntaxTree} (h : tree.Sound) {parent : Nat}
    (hParent : parent < tree.size) :
    (phrase : Outline) → (tree.graft parent phrase).Sound
  | .node label children =>
      Sound.graftAll (h.append hParent label) (by rw [size_appendAt]; omega) children
  | .missing _ => h

theorem Sound.graftAll {tree : SyntaxTree} (h : tree.Sound) {parent : Nat}
    (hParent : parent < tree.size) :
    (phrases : List Outline) → (SyntaxTree.graftAll tree parent phrases).Sound
  | [] => h
  | child :: rest =>
      Sound.graftAll (Sound.graft h hParent child) (by rw [size_graft]; omega) rest

end

/-- A clear tree whose root has no parent is sound. -/
theorem Headed.sound_of_clear (h : tree.Headed) (hClear : tree.Clear) : tree.Sound := by
  obtain ⟨root, hNodes, hChildless⟩ := hClear.exists_root
  have hHead := h.head
  rw [head?_toList, hNodes] at hHead
  obtain ⟨hLabel, hParent⟩ := Prod.mk.inj (Option.some.inj hHead)
  apply sound_of_shape root.label.type
  rw [shape, hNodes]
  simp [Node.shape, hParent, hChildless]

/-- Labels in a row are in the order of the text, wherever the tree links them. -/
theorem Sound.inSourceOrder {start stop : Nat} (h : tree.Sound)
    (hWalk : tree.descendants tree.root = .ok (List.range tree.size))
    (hThreads : source.Threads stop start tree.labels) : tree.InSourceOrder source := by
  have hLater {first second : Nat} {label later : Label} (hLt : first < second)
      (hLabel : tree.labels[first]? = some label) (hNext : tree.labels[second]? = some later) :
      ∀ range ∈ label.ranges, range.stop ≤ later.location.offset := by
    obtain ⟨hFirst, rfl⟩ := List.getElem?_eq_some_iff.1 hLabel
    obtain ⟨hSecond, rfl⟩ := List.getElem?_eq_some_iff.1 hNext
    exact (List.pairwise_iff_getElem.1 hThreads.pairwise first second hFirst hSecond hLt).2
  have hApart {first second : Nat} (hLt : first < second) : ∀ range ∈ tree.textsAt first,
      ∀ other ∈ tree.textsAt second, range.stop ≤ other.start := by
    intro range hRange other hOther
    obtain ⟨label, hLabel, hRange⟩ := mem_textsAt.1 hRange
    obtain ⟨later, hNext, hOther⟩ := mem_textsAt.1 hOther
    exact Nat.le_trans (hLater hLt hLabel hNext range hRange)
      (hThreads.texts later (List.mem_of_getElem? hNext) other hOther).2
  constructor
  case walk => exact hWalk
  case locations => exact hThreads.pairwise.imp And.left
  case texts => exact hThreads.texts
  case stops => exact fun index label next => hLater (Nat.lt_succ_self index)
  case children => exact fun parent child hChild => hApart (h.linked.mem_children hChild).2.1
  case siblings => exact fun parent => (h.linked.increasing parent).imp hApart

/-- The walk over a phrase that is put in a tree with nothing but a root. -/
theorem Clear.descendants_graft (h : tree.Clear) (label : Label) (children : List Outline) :
    let grown := tree.graft 0 (.node label children)
    grown.descendants grown.root = .ok (List.range grown.size) := by
  intro grown
  obtain ⟨root, hRoot, hNodes⟩ := h.graft_nodes label children
  have hSize : grown.size = (Outline.node label children).count + 1 := by
    rw [size_eq, hNodes, List.length_cons, length_layout]
  have hFirst : grown.nodes[0]? = some root := by
    rw [← Array.getElem?_toList, hNodes]
    rfl
  have hFound : grown.node grown.root = .ok root := node_eq_ok.2 ⟨rfl, hFirst⟩
  have hBelow : grown.placesFrom 1 = .ok (List.range' 1 (Outline.node label children).count) :=
    placesFrom_layout label children [root] [] 0 (by rw [List.append_nil]; exact hNodes)
  have hChild : grown.placesBelow 0 1 = grown.placesFrom 1 :=
    if_pos ⟨Nat.zero_lt_one, show 0 < grown.size by omega⟩
  have hAll : grown.placesFrom 0 = .ok (List.range grown.size) := by
    rw [placesFrom_of_node hFirst, hRoot, List.mapM_cons, hChild, hBelow, hSize,
      List.range_eq_range', List.range'_succ]
    simp [bind, Except.bind, pure, Except.pure]
  rw [descendants, hFound]
  exact hAll

/-- The labels of a tree that a phrase is put in are that of its root and those of the phrase. -/
theorem Headed.labels_graft (h : tree.Headed) (hClear : tree.Clear) (label : Label)
    (children : List Outline) : (tree.graft 0 (.node label children)).labels =
      tree.rootLabel :: (Outline.node label children).labels := by
  obtain ⟨root, -, hNodes⟩ := hClear.graft_nodes label children
  have hHead := (head?_graft hClear.rooted.nonempty 0 (.node label children)).trans h.head
  rw [head?_toList, hNodes] at hHead
  obtain ⟨hLabel, -⟩ := Prod.mk.inj (Option.some.inj hHead)
  rw [SyntaxTree.labels, hNodes, List.map_cons, labels_layout, hLabel]

/-- A tree in which a text is put is in the order of the text if what its root says is. -/
theorem Headed.inSourceOrder_graft (h : tree.Headed) (hClear : tree.Clear) {label : Label}
    {children : List Outline} (hOutline : source.outline = .ok (.node label children)) :
    (tree.graft 0 (.node label children)).InSourceOrder source ↔
      tree.rootLabel.Fits source label.location.offset := by
  have hLabels := h.labels_graft hClear label children
  rw [Outline.labels] at hLabels
  constructor
  · intro hOrder range hRange
    have hRoot : tree.rootLabel ∈ (tree.graft 0 (.node label children)).labels :=
      hLabels ▸ List.mem_cons_self
    obtain ⟨hText, hStart⟩ := hOrder.texts tree.rootLabel hRoot range hRange
    have hStop := hOrder.stops 0 tree.rootLabel label (by rw [hLabels]; rfl) (by rw [hLabels]; rfl)
    exact ⟨hText, hStart, hStop range hRange⟩
  · intro hFits
    have hRoot : tree.rootLabel.location.offset = 0 := congrArg Position.offset h.location
    -- The document starts where the texts of the root have to be over.
    have hBelow := (Source.threads_of_outline hOutline).from_first
    have hThreads : source.Threads source.byteSize 0
        (tree.graft 0 (.node label children)).labels := by
      rw [hLabels]
      exact .cons (Nat.zero_le _) (hRoot ▸ Nat.zero_le _) hFits hBelow
    have hSound := (h.sound_of_clear hClear).graft hClear.rooted.nonempty (.node label children)
    exact hSound.inSourceOrder (hClear.descendants_graft label children) hThreads

theorem exists_of_parseInto (h : (source.parseInto tree).1.toOption.isSome = true) :
    ∃ id after, source.parseInto tree = (.ok id, after) := by
  cases hRead : source.parseInto tree with
  | mk found after =>
      cases found with
      | error error =>
          rw [hRead] at h
          cases h
      | ok id => exact ⟨id, after, rfl⟩

/-- What reading a text into a tree makes of it. -/
theorem Rooted.exists_outline (h : tree.Rooted) (hRead : source.parseInto tree = (.ok id, after)) :
    ∃ label children, source.outline = .ok (.node label children) ∧ label.type = .document ∧
      after = tree.cleared.graft 0 (.node label children) ∧
      after.node id = .ok { label, parent := some 0, children := places 2 children } := by
  unfold Source.parseInto at hRead
  cases hOutline : source.outline with
  | error error =>
      rw [hOutline] at hRead
      cases hRead
  | ok phrase =>
      rw [hOutline] at hRead
      obtain ⟨label, children, rfl, hType⟩ := source.document_of_outline hOutline
      obtain ⟨root, -, hNodes⟩ := h.clear_cleared.graft_nodes label children
      cases hRead
      refine ⟨label, children, rfl, hType, rfl, node_eq_ok.2 ⟨rfl, ?_⟩⟩
      rw [← Array.getElem?_toList]
      exact congrArg (·[1]?) hNodes

/-- Once a text is read only texts on the root can be out of order. -/
theorem Rooted.inSourceOrder_parseInto (h : tree.Rooted) (hHeaded : tree.Headed)
    (hRead : source.parseInto tree = (.ok id, after)) {document : Node}
    (hNode : after.node id = .ok document) : after.InSourceOrder source ↔
      tree.rootLabel.Fits source document.label.location.offset := by
  obtain ⟨label, children, hOutline, -, rfl, hFound⟩ := h.exists_outline hRead
  cases hNode.symm.trans hFound
  have hHead := head?_cleared h.nonempty
  have hSame : tree.cleared.rootLabel = tree.rootLabel := by rw [rootLabel, hHead, rootLabel]
  rw [← hSame]
  exact (hHeaded.of_head? hHead).inSourceOrder_graft h.clear_cleared hOutline

/-- A text that is read into a new tree is in order there. -/
theorem inSourceOrder_of_parse (h : source.parse = .ok tree) : tree.InSourceOrder source := by
  unfold Source.parse at h
  split at h
  · next found read hRead =>
      cases h
      obtain ⟨label, children, -, -, -, hNode⟩ := clear_new.rooted.exists_outline hRead
      have hOrder := clear_new.rooted.inSourceOrder_parseInto headed_new hRead hNode
      exact hOrder.2 (List.forall_mem_nil _)
  · cases h

/-- Whatever was done to a tree before, once a text is read into it all of it is in the order of the
text, but for texts that its root was given: it is in order exactly if they are, too. The tree is
the one that the builders make in place. -/
theorem Reachable.inSourceOrder_iff (h : tree.Reachable)
    (hRead : source.parseInto tree = (.ok id, after)) :
    source.readInto tree = .ok (some id) after ∧ ∃ document, after.node id = .ok document ∧
      document.label.type = .document ∧ (after.InSourceOrder source ↔
        tree.rootLabel.Fits source document.label.location.offset) := by
  have hBuilt : source.readInto tree = .ok (some id) after := by
    rw [source.readInto_eq h.rooted.clear_cleared, hRead]
  obtain ⟨label, children, -, hType, -, hNode⟩ := h.rooted.exists_outline hRead
  have hOrder := h.rooted.inSourceOrder_parseInto h.headed hRead hNode
  exact ⟨hBuilt, _, hNode, hType, hOrder⟩

/-- A new tree, and a text with phrases of many kinds. -/
theorem inSourceOrder_iff_new :
    let source : Source :=
      { text := "query Q($a: [Int!] = [1]) @d \x7bb: c(e: \"é\") ...F ... on T \x7bg\x7d\x7d" }
    ∃ id after, source.parseInto {} = (.ok id, after) ∧ after.InSourceOrder source := by
  intro source
  obtain ⟨id, after, hRead⟩ : ∃ id after, source.parseInto {} = (.ok id, after) :=
    exists_of_parseInto (by decide +kernel)
  obtain ⟨-, document, -, -, hOrder⟩ := Reachable.new.inSourceOrder_iff hRead
  exact ⟨id, after, hRead, hOrder.2 (List.forall_mem_nil _)⟩

/-- A root that was given a text without characters keeps it when the tree is cleared, and then the
next text that is read is not in order. -/
theorem reset_disorders : ¬ ∀ (tree after : SyntaxTree) (source : Source) (id : NodeId),
    tree.Reachable → source.parseInto tree.reset = (.ok id, after) →
    after.InSourceOrder source := by
  intro hOrdered
  let tree : SyntaxTree :=
    { nodes := #[{ label := { type := .empty, primary := some ⟨0, 0⟩, location := {} } }] }
  have hSet : ({} : SyntaxTree).relabel ⟨0, 0⟩ (NodeText.primary ⟨0, 0⟩).record = .ok tree := rfl
  have hTree := Reachable.setText .new hSet
  have hCleared := Reachable.reset hTree
  have hRange : (⟨0, 0⟩ : ByteRange) ∈ tree.reset.rootLabel.ranges := List.mem_singleton_self _
  let source : Source := { text := "\x7ba\x7d" }
  obtain ⟨id, after, hRead⟩ : ∃ id after, source.parseInto tree.reset = (.ok id, after) :=
    exists_of_parseInto (by decide +kernel)
  obtain ⟨label, children, -, -, -, hNode⟩ := hCleared.rooted.exists_outline hRead
  have hOrder := hCleared.rooted.inSourceOrder_parseInto hCleared.headed hRead hNode
  have hText := (hOrder.1 (hOrdered tree after source id hTree hRead) ⟨0, 0⟩ hRange).1
  exact Nat.lt_irrefl 0 hText.nonempty

end SyntaxTree

end GraphQL
