import GraphQL.Syntax.Tree

/-! Where the nodes of a grafted phrase lie. They come after the nodes that were there, in preorder,
and the only other change is that the parent lists the new node; read back from its place, the
phrase is the one that was grafted. -/
namespace GraphQL

namespace Outline

mutual

/-- The number of nodes of a phrase. -/
def count : Outline → Nat
  | .node _ children => countAll children + 1
  | .missing _ => 0

def countAll : List Outline → Nat
  | [] => 0
  | child :: rest => child.count + countAll rest

end

/-- The places of several phrases that are laid out from `start` on. -/
def places (start : Nat) : List Outline → List Nat
  | [] => []
  | .node label children :: rest => start :: places (start + (node label children).count) rest
  | .missing _ :: rest => places start rest

mutual

/-- The nodes of a phrase in preorder, the first of which lies at `start`. -/
def layout (start parent : Nat) : Outline → List Node
  | .node label children =>
    { label, parent := some parent, children := places (start + 1) children } ::
      layoutAll (start + 1) start children
  | .missing _ => []

def layoutAll (start parent : Nat) : List Outline → List Node
  | [] => []
  | child :: rest => layout start parent child ++ layoutAll (start + child.count) parent rest

end

mutual

/-- A phrase is laid out in as many places as it has nodes. -/
theorem length_layout (start parent : Nat) :
    (phrase : Outline) → (phrase.layout start parent).length = phrase.count
  | .node label children => by
      rw [layout, count, List.length_cons, length_layoutAll (start + 1) start children]
  | .missing _ => rfl

theorem length_layoutAll (start parent : Nat) :
    (phrases : List Outline) → (layoutAll start parent phrases).length = countAll phrases
  | [] => rfl
  | child :: rest => by
      rw [layoutAll, countAll, List.length_append, length_layout start parent child,
        length_layoutAll (start + child.count) parent rest]

end

/-- A phrase that holds no reference to a lost node and whose labels all satisfy `P`. -/
inductive All (P : Label → Prop) : Outline → Prop where
  | node {label : Label} {children : List Outline} (hLabel : P label)
      (hChildren : ∀ c ∈ children, c.All P) : All P (.node label children)

/-- A phrase that holds no reference to a lost node. -/
abbrev Whole (phrase : Outline) : Prop := phrase.All fun _ => True

/-- What holds of all labels of a phrase holds of those of the nodes laid out. -/
theorem All.layout {P : Label → Prop} {phrase : Outline} (h : phrase.All P) (start parent : Nat) :
    ∀ node ∈ phrase.layout start parent, P node.label := by
  induction h generalizing start parent with
  | @node label children hLabel hChildren ih =>
      have hAll (phrases : List Outline) (start parent : Nat)
          (hPhrases : ∀ c ∈ phrases, c ∈ children) :
          ∀ node ∈ layoutAll start parent phrases, P node.label := by
        induction phrases generalizing start with
        | nil => simp [layoutAll]
        | cons first rest ihRest =>
            obtain ⟨hFirst, hRest⟩ := List.forall_mem_cons.1 hPhrases
            exact List.forall_mem_append.2 ⟨ih first hFirst start parent, ihRest _ hRest⟩
      exact List.forall_mem_cons.2 ⟨hLabel, hAll children _ _ fun c hc => hc⟩

end Outline

/-- List more children of a node. -/
def Node.addChildren (more : List Nat) (node : Node) : Node :=
  { node with children := node.children ++ more }

theorem modify_append_left {α : Type} {f : α → α} {i : Nat} {xs ys : List α} (h : i < xs.length) :
    (xs ++ ys).modify i f = xs.modify i f ++ ys := by
  apply List.ext_getElem?
  intro j
  grind

theorem modify_append_mid {α : Type} (f : α → α) (xs : List α) (x : α) (ys : List α) :
    (xs ++ x :: ys).modify xs.length f = xs ++ f x :: ys := by
  induction xs with
  | nil => rfl
  | cons y xs ih => simp [ih]

/-- Changes of one element are the same if they agree on what is there. -/
theorem modify_congr {α : Type} {f g : α → α} {xs : List α} {i : Nat}
    (h : ∀ a, xs[i]? = some a → f a = g a) : xs.modify i f = xs.modify i g := by
  apply List.ext_getElem?
  intro j
  rw [List.getElem?_modify, List.getElem?_modify]
  by_cases hSame : i = j
  · subst hSame
    cases hFound : xs[i]? with
    | none => rfl
    | some a => simp [h a hFound]
  · simp [hSame]

/-- A change of one element, seen through a map of all. -/
theorem map_modify {α β : Type} (g : α → β) (f : α → α) (f' : β → β) (h : ∀ a, g (f a) = f' (g a))
    (xs : List α) (i : Nat) : (xs.modify i f).map g = (xs.map g).modify i f' := by
  apply List.ext_getElem?
  intro j
  rw [List.getElem?_map, List.getElem?_modify, List.getElem?_modify, List.getElem?_map]
  cases xs[j]? with
  | none => rfl
  | some a => by_cases hSame : i = j <;> simp [hSame, h]

namespace SyntaxTree

open Outline

/-- A new node comes last, and its parent lists it. -/
theorem appendAt_nodes (tree : SyntaxTree) (parent : Nat) (label : Label) :
    (tree.appendAt parent label).nodes.toList =
      tree.nodes.toList.modify parent (Node.addChildren [tree.size]) ++
        [{ label, parent := some parent }] := by
  simp only [appendAt, Array.toList_push, Array.toList_modify]
  rfl

theorem size_eq (tree : SyntaxTree) : tree.size = tree.nodes.toList.length := rfl

mutual

/-- The nodes of a grafted phrase come last, in preorder, and the parent lists the first of them. -/
theorem graft_nodes (tree : SyntaxTree) (parent : Nat) :
    (phrase : Outline) → (tree.graft parent phrase).nodes.toList =
      tree.nodes.toList.modify parent (Node.addChildren (places tree.size [phrase])) ++
        phrase.layout tree.size parent
  | .node label children => by
      have hSize : (tree.appendAt parent label).size = tree.size + 1 := by
        simp [size_eq, appendAt_nodes]
      rw [graft, graftAll_nodes _ tree.size (by rw [hSize]; omega) children, appendAt_nodes, hSize]
      have hLength : (tree.nodes.toList.modify parent (Node.addChildren [tree.size])).length =
          tree.size := by simp [size_eq]
      have hNew := modify_append_mid (Node.addChildren (places (tree.size + 1) children))
        (tree.nodes.toList.modify parent (Node.addChildren [tree.size]))
        { label, parent := some parent } []
      rw [hLength] at hNew
      rw [hNew]
      simp [layout, places, Node.addChildren]
  | .missing _ => by
      have hSame : Node.addChildren [] = id := by funext node; simp [Node.addChildren]
      simp [graft, layout, places, hSame]

theorem graftAll_nodes (tree : SyntaxTree) (parent : Nat) (h : parent < tree.size) :
    (phrases : List Outline) → (graftAll tree parent phrases).nodes.toList =
      tree.nodes.toList.modify parent (Node.addChildren (places tree.size phrases)) ++
        layoutAll tree.size parent phrases
  | [] => by
      have hSame : Node.addChildren [] = id := by funext node; simp [Node.addChildren]
      simp [graftAll, layoutAll, places, hSame]
  | child :: rest => by
      have hFirst := graft_nodes tree parent child
      have hSize : (tree.graft parent child).size = tree.size + child.count := by
        rw [size_eq, hFirst, List.length_append, List.length_modify, length_layout]
        rfl
      rw [graftAll, graftAll_nodes (tree.graft parent child) parent (by omega) rest, hFirst, hSize,
        modify_append_left (by simpa [size_eq] using h), List.modify_modify_eq]
      have hPlaces : Node.addChildren (places (tree.size + child.count) rest) ∘
          Node.addChildren (places tree.size [child]) =
            Node.addChildren (places tree.size (child :: rest)) := by
        funext node
        cases child <;> simp [places, Node.addChildren, count]
      rw [hPlaces, layoutAll, List.append_assoc]

end

mutual

/-- Grafting belongs to the generation of the tree. -/
theorem graft_generation (tree : SyntaxTree) (parent : Nat) :
    (phrase : Outline) → (tree.graft parent phrase).generation = tree.generation
  | .node label children => by
      rw [graft, graftAll_generation (tree.appendAt parent label) tree.size children]
      rfl
  | .missing _ => rfl

theorem graftAll_generation (tree : SyntaxTree) (parent : Nat) :
    (phrases : List Outline) → (graftAll tree parent phrases).generation = tree.generation
  | [] => rfl
  | child :: rest => by
      rw [graftAll, graftAll_generation (tree.graft parent child) parent rest,
        graft_generation tree parent child]

end

theorem outline_of_node {tree : SyntaxTree} {index : Nat} {node : Node}
    (h : tree.nodes[index]? = some node) :
    tree.outline index = .node node.label (node.children.map fun child =>
      if index < child ∧ index < tree.nodes.size then tree.outline child else .missing child) := by
  rw [outline]
  split
  · next hNone => rw [h] at hNone; cases hNone
  · next found hFound =>
      rw [h] at hFound
      cases hFound
      rfl

/-- No phrase is laid out before the place where the first is. -/
theorem lt_of_mem_places {start place : Nat} {phrases : List Outline}
    (h : place ∈ places start phrases) : start ≤ place := by
  induction phrases generalizing start with
  | nil => cases h
  | cons child rest ih =>
      cases child with
      | node label children =>
          rcases List.mem_cons.1 h with rfl | h
          · exact Nat.le_refl _
          · exact Nat.le_trans (Nat.le_add_right _ _) (ih h)
      | missing index => exact ih h

/-- A whole phrase is read back from where it is laid out. -/
theorem outline_layout {phrase : Outline} (h : phrase.Whole) {tree : SyntaxTree}
    (before after : List Node) (parent : Nat)
    (hNodes : tree.nodes.toList = before ++ phrase.layout before.length parent ++ after) :
    tree.outline before.length = phrase := by
  induction h generalizing before after parent with
  | @node label children hLabel hChildren ih =>
      have hNode : tree.nodes[before.length]? = some
          { label, parent := some parent, children := places (before.length + 1) children } := by
        rw [← Array.getElem?_toList, hNodes, layout]
        simp
      have hSize : before.length < tree.nodes.size := (Array.getElem?_eq_some_iff.1 hNode).1
      have hAll (cs : List Outline) (seen : List Node) (owner : Nat) (after : List Node)
          (hcs : ∀ c ∈ cs, c ∈ children)
          (hSeen : tree.nodes.toList = seen ++ layoutAll seen.length owner cs ++ after) :
          (places seen.length cs).map tree.outline = cs := by
        induction cs generalizing seen with
        | nil => rfl
        | cons c cs ihCs =>
            obtain ⟨hc, hcs⟩ := List.forall_mem_cons.1 hcs
            rw [layoutAll] at hSeen
            have hFirst := ih c hc seen (layoutAll (seen.length + c.count) owner cs ++ after) owner
              (by simpa using hSeen)
            have hLength : (seen ++ c.layout seen.length owner).length = seen.length + c.count := by
              rw [List.length_append, length_layout]
            have hRest := ihCs (seen ++ c.layout seen.length owner) hcs
              (by rw [hLength]; simpa using hSeen)
            rw [hLength] at hRest
            cases hChildren c hc with
            | node _ _ => rw [places, List.map_cons, hFirst, hRest]
      have hRead := hAll children (before ++ [_]) before.length after (fun c hc => hc)
        (by simpa [layout] using hNodes)
      rw [List.length_append, List.length_singleton] at hRead
      rw [outline_of_node hNode]
      refine congrArg (Outline.node label) ?_
      refine Eq.trans (List.map_congr_left fun child hChild => ?_) hRead
      exact if_pos ⟨lt_of_mem_places hChild, hSize⟩

/-- A grafted phrase is read back from the place after the nodes that were there. -/
theorem outline_graft {phrase : Outline} (h : phrase.Whole) (tree : SyntaxTree) (parent : Nat) :
    (tree.graft parent phrase).outline tree.size = phrase := by
  have hLength : (tree.nodes.toList.modify parent
      (Node.addChildren (places tree.size [phrase]))).length = tree.size := by simp [size_eq]
  have hNodes := graft_nodes tree parent phrase
  rw [← hLength]
  exact outline_layout h _ [] parent (by rw [hNodes, hLength]; simp)

/-- The parent of a grafted phrase lists it after the children it had. -/
theorem node_graft {phrase : Outline} (h : phrase.Whole) {tree : SyntaxTree} {parent : NodeId}
    {node : Node} (hParent : tree.node parent = .ok node) :
    (tree.graft parent.index phrase).node parent = .ok (node.addChildren [tree.size]) := by
  unfold SyntaxTree.node at hParent ⊢
  split at hParent
  · next found hFound =>
      split at hParent
      · next hGeneration =>
          cases hParent
          have hIndex : parent.index < tree.nodes.toList.length :=
            (Array.getElem?_eq_some_iff.1 hFound).1
          have hNew : (tree.graft parent.index phrase).nodes[parent.index]? =
              some (node.addChildren [tree.size]) := by
            rw [← Array.getElem?_toList, graft_nodes,
              List.getElem?_append_left (by simpa using hIndex), List.getElem?_modify_eq,
              Array.getElem?_toList, hFound]
            cases h with
            | node _ _ => rfl
          simp [hNew, graft_generation, hGeneration]
      · cases hParent
  · cases hParent

end SyntaxTree

end GraphQL
