import GraphQL.Walk
import Mathlib.Data.List.Nodup
import Mathlib.Data.Nat.Find
import Mathlib.Logic.Relation

/-! Numbered nodes that know the node above them and list those below. Where both say the same and
each node comes after the one above it, a walk down meets what lies under its start, each node once;
where also each node stands under the last one before it or under one above that, it meets
consecutive numbers. -/
namespace GraphQL

/-- Whether `inner` is `outer` or lies below it. -/
def Under (parent? : Nat → Option Nat) (outer inner : Nat) : Prop :=
  Relation.ReflTransGen (fun node parent => parent? node = some parent) inner outer

/-- Whether parents and lists of children say the same of `size` nodes, and each node comes after
its parent. -/
structure Linked (size : Nat) (parent? : Nat → Option Nat) (children : Nat → List Nat) : Prop where
  inside : ∀ node parent : Nat, parent? node = some parent → node < size
  above : ∀ node parent : Nat, parent? node = some parent → parent < node
  listed : ∀ parent node : Nat, node ∈ children parent ↔ parent? node = some parent
  increasing : ∀ parent : Nat, (children parent).Pairwise (· < ·)

/-- A node and all below it, each before those below it, where lists of children name greater
numbers only. -/
def subtree (size : Nat) (children : Nat → List Nat) (node : Nat) : List Nat :=
  node :: (children node).flatMap fun child =>
    if node < child ∧ node < size then subtree size children child else []
termination_by size - node

namespace Under

variable {parent? : Nat → Option Nat} {outer inner : Nat}

theorem refl (node : Nat) : Under parent? node node := Relation.ReflTransGen.refl

/-- What lies under a node lies under all that the node lies under. -/
theorem trans {middle : Nat} (hOuter : Under parent? outer middle)
    (hInner : Under parent? middle inner) : Under parent? outer inner :=
  Relation.ReflTransGen.trans hInner hOuter

/-- A child lies under its parent. -/
theorem of_parent {parent : Nat} (h : parent? inner = some parent) : Under parent? parent inner :=
  Relation.ReflTransGen.single h

/-- What lies below a node is found by the first step up. -/
theorem iff_parent : Under parent? outer inner ↔
    inner = outer ∨ ∃ parent, parent? inner = some parent ∧ Under parent? outer parent :=
  Relation.ReflTransGen.cases_head_iff

/-- What lies below a node lies under one of its children. -/
theorem iff_child : Under parent? outer inner ↔
    inner = outer ∨ ∃ child, parent? child = some outer ∧ Under parent? child inner := by
  apply (Relation.ReflTransGen.cases_tail_iff _ _ _).trans
  apply or_congr eq_comm
  apply exists_congr
  intro child
  exact and_comm

/-- Nodes keep what lies under them where no parent is changed. -/
theorem of_kept {new? : Nat → Option Nat}
    (hKept : ∀ node parent, parent? node = some parent → new? node = some parent)
    (h : Under parent? outer inner) : Under new? outer inner :=
  Relation.ReflTransGen.mono hKept _ _ h

/-- Of two nodes with something under both, one lies under the other. -/
theorem total {other : Nat} (hOuter : Under parent? outer inner)
    (hOther : Under parent? other inner) :
    Under parent? other outer ∨ Under parent? outer other := by
  refine Relation.ReflTransGen.total_of_right_unique ?_ hOuter hOther
  intro node first second hFirst hSecond
  exact Option.some.inj (hFirst.symm.trans hSecond)

end Under

namespace Walk

variable {children? : Nat → Option (List Nat)}

/-- Nodes below on the stack wait until all above them are visited. -/
theorem append {first second visited others : List Nat} (hFirst : Walk children? first visited)
    (hSecond : Walk children? second others) :
    Walk children? (first ++ second) (visited ++ others) := by
  induction hFirst with
  | done => exact hSecond
  | @visit node children stack visited hChildren hRest ih =>
      rw [List.append_assoc] at ih
      exact .visit hChildren ih

end Walk

namespace Linked

/-- A node that has none above or below it. -/
theorem single : Linked 1 (fun _ => none) (fun _ => []) where
  inside _ _ hParent := nomatch hParent
  above _ _ hParent := nomatch hParent
  listed _ _ := by simp
  increasing _ := .nil

variable {size : Nat} {parent? : Nat → Option Nat} {children : Nat → List Nat}
  (h : Linked size parent? children)
include h

/-- A new node comes last, after the other children of one that was there. -/
theorem extend {owner : Nat} (hOwner : owner < size) :
    Linked (size + 1) (fun node => if node = size then some owner else parent? node)
      (fun node => if node = owner then children node ++ [size] else children node) := by
  have hNew : parent? size = none := by
    cases hParent : parent? size with
    | none => rfl
    | some parent => exact absurd (h.inside size parent hParent) (Nat.lt_irrefl size)
  have hFresh (node : Nat) : size ∉ children node := by
    rw [h.listed, hNew]
    simp
  constructor
  case inside =>
    intro node parent hParent
    split at hParent
    · omega
    · exact Nat.lt_succ_of_lt (h.inside node parent hParent)
  case above =>
    intro node parent hParent
    split at hParent
    · next hSame =>
        cases hParent
        omega
    · exact h.above node parent hParent
  case listed =>
    intro parent node
    by_cases hLast : node = size
    · rw [if_pos hLast, hLast, Option.some.injEq]
      split
      · next hSame => simp [hSame]
      · next hOther => simp [hFresh parent, Ne.symm hOther]
    · rw [if_neg hLast, ← h.listed]
      split <;> simp [hLast]
  case increasing =>
    intro parent
    split
    · apply List.pairwise_append.2
      refine ⟨h.increasing parent, List.pairwise_singleton _ _, fun child hChild last hLast => ?_⟩
      rw [List.mem_singleton.1 hLast]
      exact h.inside child parent ((h.listed parent child).1 hChild)
    · exact h.increasing parent

/-- A child knows its parent, and comes after it. -/
theorem mem_children {node child : Nat} (hChild : child ∈ children node) :
    parent? child = some node ∧ node < child ∧ child < size := by
  have hParent := (h.listed node child).1 hChild
  exact ⟨hParent, h.above child node hParent, h.inside child node hParent⟩

/-- What lies under a node does not come before it. -/
theorem le_of_under {outer inner : Nat} (hUnder : Under parent? outer inner) : outer ≤ inner := by
  induction hUnder with
  | refl => exact Nat.le_refl _
  | tail _ hStep ih => exact Nat.le_trans (Nat.le_of_lt (h.above _ _ hStep)) ih

/-- What lies under a node that is there is there too. -/
theorem lt_of_under {outer inner : Nat} (hUnder : Under parent? outer inner)
    (hOuter : outer < size) : inner < size := by
  rcases Under.iff_parent.1 hUnder with rfl | ⟨parent, hParent, -⟩
  · exact hOuter
  · exact h.inside inner parent hParent

/-- The walk meets a node and then what the walks from its children meet. -/
theorem subtree_eq (node : Nat) :
    subtree size children node = node :: (children node).flatMap (subtree size children) := by
  rw [subtree]
  congr 1
  apply List.flatMap_congr
  intro child hChild
  obtain ⟨-, hLt, hSize⟩ := h.mem_children hChild
  exact if_pos ⟨hLt, Nat.lt_trans hLt hSize⟩

/-- Induction from the last node to the first: what holds of a node may rest on its children. -/
theorem induction_below {P : Nat → Prop}
    (hNode : ∀ node, (∀ child ∈ children node, P child) → P node) (node : Nat) : P node := by
  induction hRoom : size - node using Nat.strongRecOn generalizing node with
  | _ room ih =>
      apply hNode
      intro child hChild
      obtain ⟨-, hLt, hSize⟩ := h.mem_children hChild
      exact ih (size - child) (by omega) child rfl

/-- The walk meets what lies under the node, and nothing else. -/
theorem mem_subtree {outer inner : Nat} :
    inner ∈ subtree size children outer ↔ Under parent? outer inner := by
  induction outer using h.induction_below with
  | hNode outer ih =>
      rw [h.subtree_eq, List.mem_cons, List.mem_flatMap, Under.iff_child]
      apply or_congr Iff.rfl
      apply exists_congr
      intro child
      rw [h.listed]
      apply and_congr_right
      intro hParent
      exact ih child ((h.listed outer child).2 hParent)

/-- Nothing lies under two children of one node. -/
theorem eq_of_under {owner first second inner : Nat} (hFirst : parent? first = some owner)
    (hSecond : parent? second = some owner) (hUnder : Under parent? first inner)
    (hOther : Under parent? second inner) : first = second := by
  -- If one child lay below the other, it would lie below what it is a child of, which is above it.
  have hNever {lower upper : Nat} (hLower : parent? lower = some owner)
      (hUpper : parent? upper = some owner) (hBelow : Under parent? upper lower) :
      lower = upper := by
    rcases Under.iff_parent.1 hBelow with hSame | ⟨parent, hParent, hRest⟩
    · exact hSame
    · cases hLower.symm.trans hParent
      have hLe := h.le_of_under hRest
      have hLt := h.above upper owner hUpper
      omega
  rcases hUnder.total hOther with hBelow | hBelow
  · exact hNever hFirst hSecond hBelow
  · exact (hNever hSecond hFirst hBelow).symm

/-- The walk meets nothing twice: what lies under one child lies under no other. -/
theorem nodup_subtree (node : Nat) : (subtree size children node).Nodup := by
  induction node using h.induction_below with
  | hNode node ih =>
      rw [h.subtree_eq, List.nodup_cons, List.nodup_flatMap]
      refine ⟨fun hSelf => ?_, ih, ?_⟩
      · obtain ⟨child, hChild, hMem⟩ := List.mem_flatMap.1 hSelf
        have hLe := h.le_of_under (h.mem_subtree.1 hMem)
        have hLt := (h.mem_children hChild).2.1
        omega
      · apply (h.increasing node).imp_of_mem
        intro first second hFirst hSecond hLt inner hInner hOther
        have hSame := h.eq_of_under (h.mem_children hFirst).1 (h.mem_children hSecond).1
          (h.mem_subtree.1 hInner) (h.mem_subtree.1 hOther)
        omega

/-- A walk with a stack, which looks at nodes that are there only, visits what lies under its
start. -/
theorem walk {children? : Nat → Option (List Nat)}
    (hChildren : ∀ node < size, children? node = some (children node)) (node : Nat)
    (hNode : node < size) : Walk children? [node] (subtree size children node) := by
  induction node using h.induction_below with
  | hNode node ih =>
      rw [h.subtree_eq]
      apply Walk.visit (hChildren node hNode)
      rw [List.append_nil]
      have hBelow : ∀ child ∈ children node,
          Walk children? [child] (subtree size children child) :=
        fun child hChild => ih child hChild (h.mem_children hChild).2.2
      generalize children node = below at hBelow
      induction below with
      | nil => exact .done
      | cons child rest ihRest =>
          obtain ⟨hFirst, hRest⟩ := List.forall_mem_cons.1 hBelow
          exact hFirst.append (ihRest hRest)

section Trailing

variable (hTrailing : ∀ node : Nat, node + 1 < size →
  ∃ parent, parent? (node + 1) = some parent ∧ Under parent? parent node)
include hTrailing

/-- What lies under a node comes right after it. -/
theorem under_pred {outer inner : Nat} (hUnder : Under parent? outer (inner + 1))
    (hLe : outer ≤ inner) : Under parent? outer inner := by
  rcases Under.iff_parent.1 hUnder with hSame | ⟨parent, hParent, hAbove⟩
  · omega
  · obtain ⟨found, hFound, hLast⟩ := hTrailing inner (h.inside _ _ hParent)
    cases hParent.symm.trans hFound
    exact hAbove.trans hLast

/-- What comes between a node and something under it is under it too. -/
theorem under_between {outer inner last : Nat} (hUnder : Under parent? outer last)
    (hOuter : outer ≤ inner) (hLast : inner ≤ last) : Under parent? outer inner := by
  induction hLast with
  | refl => exact hUnder
  | @step last hLe ih => exact ih (h.under_pred hTrailing hUnder (Nat.le_trans hOuter hLe))

/-- The nodes under a node have consecutive numbers. -/
theorem exists_last {outer : Nat} (hOuter : outer < size) :
    ∃ count, outer + count < size ∧
      ∀ inner, Under parent? outer inner ↔ outer ≤ inner ∧ inner ≤ outer + count := by
  classical
  let last := Nat.findGreatest (Under parent? outer) (size - 1)
  have hSelf : outer ≤ last := Nat.le_findGreatest (by omega) (.refl outer)
  have hLast : Under parent? outer last := Nat.findGreatest_spec (by omega) (.refl outer)
  have hSize : last ≤ size - 1 := Nat.findGreatest_le (size - 1)
  refine ⟨last - outer, by omega, fun inner => ⟨fun hUnder => ?_, fun ⟨hLe, hGe⟩ => ?_⟩⟩
  · have hInner := h.lt_of_under hUnder hOuter
    have hGreatest : inner ≤ last := Nat.le_findGreatest (by omega) hUnder
    have hLe := h.le_of_under hUnder
    omega
  · exact h.under_between hTrailing hLast hLe (by omega)

/-- If nothing is put under a node once something beside it was, the walk goes up in numbers. -/
theorem increasing_subtree (node : Nat) :
    (subtree size children node).Pairwise (· < ·) := by
  induction node using h.induction_below with
  | hNode node ih =>
      rw [h.subtree_eq, List.pairwise_cons, List.pairwise_flatMap]
      refine ⟨fun inner hInner => ?_, ih, ?_⟩
      · obtain ⟨child, hChild, hMem⟩ := List.mem_flatMap.1 hInner
        have hLe := h.le_of_under (h.mem_subtree.1 hMem)
        have hLt := (h.mem_children hChild).2.1
        omega
      · apply (h.increasing node).imp_of_mem
        intro first second hFirst hSecond hLt inner hInner other hOther
        obtain ⟨hParent, -, hSize⟩ := h.mem_children hFirst
        obtain ⟨count, -, hIff⟩ := h.exists_last hTrailing hSize
        -- The second child comes after the first, and not under it: it comes after all of that.
        have hBeyond : ¬Under parent? first second := by
          intro hUnder
          have hSame := h.eq_of_under hParent (h.mem_children hSecond).1 hUnder (.refl second)
          omega
        have hInner := (hIff inner).1 (h.mem_subtree.1 hInner)
        have hOther := h.le_of_under (h.mem_subtree.1 hOther)
        rw [hIff] at hBeyond
        omega

/-- What lies under a node, each before those below it, is one run of numbers. -/
theorem exists_range {node : Nat} (hNode : node < size) : ∃ count, node + count < size ∧
    subtree size children node = List.range' node (count + 1) := by
  obtain ⟨count, hCount, hIff⟩ := h.exists_last hTrailing hNode
  refine ⟨count, hCount, ?_⟩
  have hPerm : (subtree size children node).Perm (List.range' node (count + 1)) := by
    apply (List.perm_ext_iff_of_nodup (h.nodup_subtree node) List.nodup_range').2
    intro inner
    rw [h.mem_subtree, hIff, List.mem_range'_1]
    omega
  refine hPerm.eq_of_pairwise ?_ (h.increasing_subtree hTrailing node) (List.pairwise_lt_range' 1)
  intro first second _ _ hLt hGt
  omega

end Trailing

end Linked

end GraphQL
