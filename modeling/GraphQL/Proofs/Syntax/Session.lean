import GraphQL.Proofs.Syntax.Links
import GraphQL.Syntax.Session

/-! Checkpoints that are gone back to in order. The cuts to a checkpoint undo all that was done
since, because each call that a run may make leaves what the cuts keep as it was; so every rollback
gives back the shape that the checkpoint was taken of. -/
namespace GraphQL

/-- What a shape is cut back to at a checkpoint. -/
def Checkpoint.cut (checkpoint : Checkpoint) (shape : List Shape) : List Shape :=
  (shape.take checkpoint.nodeCount).modify checkpoint.parent.index
    (Shape.cutChildren checkpoint.childCount)

namespace SyntaxTree

variable {tree after : SyntaxTree}

/-- A checkpoint is taken at a node that is there and holds the sizes of that moment. -/
theorem checkpoint_eq_ok {parent : NodeId} {checkpoint : Checkpoint} :
    tree.checkpoint parent = .ok checkpoint ↔ ∃ node, tree.node parent = .ok node ∧
      ⟨tree.size, parent, node.children.length⟩ = checkpoint := by
  simp only [SyntaxTree.checkpoint, except_bind_eq_ok, except_pure_eq_ok]

/-- Going back succeeds if the parent of the checkpoint is not cut off. -/
theorem exists_rollback {checkpoint : Checkpoint}
    (hGeneration : checkpoint.parent.generation = tree.generation)
    (hIndex : checkpoint.parent.index < min checkpoint.nodeCount tree.size) :
    ∃ after, tree.rollback checkpoint = (.ok (), after) ∧
      after.shape = checkpoint.cut tree.shape ∧ after.generation = tree.generation := by
  let cut := { tree with nodes := tree.nodes.take checkpoint.nodeCount }
  have hHolds : cut.Holds checkpoint.parent := by
    refine ⟨hGeneration, ?_⟩
    simpa [cut, SyntaxTree.size] using hIndex
  obtain ⟨node, hNode⟩ := hHolds.exists_node
  refine ⟨cut.cutChildren checkpoint.parent.index checkpoint.childCount, ?_, ?_, rfl⟩
  · simp only [rollback, cut, hNode]
  · have hCut : cut.nodes.toList = tree.nodes.toList.take checkpoint.nodeCount := by
      simp [cut]
    rw [shape, cutChildren, Array.toList_modify, hCut,
      map_modify Node.shape _ (Shape.cutChildren checkpoint.childCount) fun _ => rfl, List.map_take]
    rfl

/-- What a rollback leaves is the shape cut back to the checkpoint. -/
theorem shape_of_rollback {checkpoint : Checkpoint}
    (h : tree.rollback checkpoint = (.ok (), after)) :
    checkpoint.parent.index < min checkpoint.nodeCount tree.size ∧
      after.shape = checkpoint.cut tree.shape := by
  have hBack := h
  simp only [rollback] at hBack
  split at hBack
  · next node hNode =>
      obtain ⟨hGeneration, hFound⟩ := node_eq_ok.1 hNode
      have hIndex : checkpoint.parent.index < min checkpoint.nodeCount tree.size := by
        simpa [SyntaxTree.size] using (Array.getElem?_eq_some_iff.1 hFound).1
      have hSame : checkpoint.parent.generation = tree.generation := hGeneration
      obtain ⟨other, hOther, hShape, -⟩ := exists_rollback hSame hIndex
      cases h.symm.trans hOther
      exact ⟨hIndex, hShape⟩
  · cases hBack

end SyntaxTree

/-- Whether a tree that is cut back to a checkpoint has the shape it was taken of. -/
structure Mark.Fits (mark : Mark) (tree : SyntaxTree) : Prop where
  sound : mark.before.Sound
  taken : mark.before.checkpoint mark.checkpoint.parent = .ok mark.checkpoint
  generation : mark.before.generation = tree.generation
  cut : mark.checkpoint.cut tree.shape = mark.before.shape

namespace Mark.Fits

variable {mark : Mark} {tree other : SyntaxTree}

/-- Whether a mark fits depends on the shape of the tree and its generation. -/
theorem of_shape (h : mark.Fits tree) (hShape : other.shape = tree.shape)
    (hGeneration : other.generation = tree.generation) : mark.Fits other where
  sound := h.sound
  taken := h.taken
  generation := h.generation.trans hGeneration.symm
  cut := by rw [hShape, h.cut]

/-- A checkpoint fits the tree that it is taken of. -/
theorem of_checkpoint {parent : NodeId} {checkpoint : Checkpoint} (hSound : tree.Sound)
    (h : tree.checkpoint parent = .ok checkpoint) : Mark.Fits ⟨checkpoint, tree⟩ tree := by
  obtain ⟨node, hNode, rfl⟩ := SyntaxTree.checkpoint_eq_ok.1 h
  have hFound := (SyntaxTree.node_eq_ok.1 hNode).2
  constructor
  case sound => exact hSound
  case taken => exact h
  case generation => rfl
  case cut =>
    rw [Checkpoint.cut, ← SyntaxTree.length_shape, List.take_length]
    have hSame : tree.shape.modify parent.index (Shape.cutChildren node.children.length) =
        tree.shape.modify parent.index id := by
      apply modify_congr
      intro shape hShape
      rw [SyntaxTree.getElem?_shape, hFound] at hShape
      cases hShape
      simp [Shape.cutChildren, Node.shape]
    rw [hSame, List.modify_id]

/-- The parent of a mark that fits is there, and has its children still. -/
theorem exists_parent (h : mark.Fits tree) : ∃ shape,
    (tree.shape.take mark.checkpoint.nodeCount)[mark.checkpoint.parent.index]? = some shape ∧
      mark.checkpoint.childCount ≤ shape.children.length := by
  obtain ⟨node, hNode, hTaken⟩ := SyntaxTree.checkpoint_eq_ok.1 h.taken
  have hFound := (SyntaxTree.node_eq_ok.1 hNode).2
  have hBefore : mark.before.shape[mark.checkpoint.parent.index]? = some node.shape := by
    rw [SyntaxTree.getElem?_shape, hFound]
    rfl
  rw [← h.cut, Checkpoint.cut, List.getElem?_modify_eq] at hBefore
  obtain ⟨shape, hShape, hCut⟩ := Option.map_eq_some_iff.1 hBefore
  refine ⟨shape, hShape, ?_⟩
  have hLength : node.children.length = mark.checkpoint.childCount := by rw [← hTaken]
  have hTake : (shape.children.take mark.checkpoint.childCount).length = node.children.length :=
    congrArg (List.length ∘ Shape.children) hCut
  rw [List.length_take] at hTake
  omega

theorem nodeCount_le (h : mark.Fits tree) : mark.checkpoint.nodeCount ≤ tree.size := by
  obtain ⟨node, -, hTaken⟩ := SyntaxTree.checkpoint_eq_ok.1 h.taken
  have hLength := congrArg List.length h.cut
  rw [Checkpoint.cut, List.length_modify, List.length_take, SyntaxTree.length_shape,
    SyntaxTree.length_shape] at hLength
  have hCount : mark.before.size = mark.checkpoint.nodeCount := by rw [← hTaken]
  omega

/-- What is put under the parent of a checkpoint or under newer nodes is cut off again. -/
theorem append (h : mark.Fits tree) {parent : NodeId} (hAllowed : mark.allows parent = true)
    (label : Label) : mark.Fits (tree.appendAt parent.index label) where
  sound := h.sound
  taken := h.taken
  generation := h.generation
  cut := by
    have hKept : mark.checkpoint.nodeCount ≤
        (tree.shape.modify parent.index (Shape.addChildren [tree.size])).length := by
      rw [List.length_modify, SyntaxTree.length_shape]
      exact h.nodeCount_le
    rw [← h.cut, Checkpoint.cut, Checkpoint.cut, SyntaxTree.shape_appendAt,
      List.take_append_of_le_length hKept, List.take_modify]
    rcases Bool.or_eq_true_iff.1 hAllowed with hParent | hNewer
    · cases of_decide_eq_true hParent
      obtain ⟨shape, hShape, hCount⟩ := h.exists_parent
      rw [List.modify_modify_eq]
      apply modify_congr
      intro found hFound
      cases hShape.symm.trans hFound
      simp [Shape.cutChildren, Shape.addChildren, List.take_append_of_le_length hCount]
    · have hBeyond : (tree.shape.take mark.checkpoint.nodeCount).length ≤ parent.index :=
        Nat.le_trans (List.length_take_le ..) (of_decide_eq_true hNewer)
      rw [List.modify_eq_self hBeyond]

/-- The shape that a checkpoint was taken of is gone back to. -/
theorem rollback (h : mark.Fits tree) : ∃ after,
    tree.rollback mark.checkpoint = (.ok (), after) ∧ after.shape = mark.before.shape ∧
      after.generation = tree.generation := by
  obtain ⟨node, hNode, -⟩ := SyntaxTree.checkpoint_eq_ok.1 h.taken
  have hGeneration := (SyntaxTree.node_eq_ok.1 hNode).1.trans h.generation
  obtain ⟨shape, hShape, -⟩ := h.exists_parent
  have hIndex := (List.getElem?_eq_some_iff.1 hShape).1
  rw [List.length_take, SyntaxTree.length_shape] at hIndex
  obtain ⟨after, hRollback, hCut, hSame⟩ := SyntaxTree.exists_rollback hGeneration hIndex
  exact ⟨after, hRollback, hCut.trans h.cut, hSame⟩

end Mark.Fits

namespace TreeSession

/-- Whether the tree of a session is sound and all its checkpoints fit it. An earlier checkpoint
fits what a later one was taken of too. -/
structure Orderly (session : TreeSession) : Prop where
  sound : session.tree.Sound
  fits : ∀ mark ∈ session.marks, mark.Fits session.tree
  nested : session.marks.Pairwise fun later earlier => earlier.Fits later.before

theorem orderly_new : Orderly {} where
  sound := SyntaxTree.sound_new
  fits _ hMark := nomatch hMark
  nested := .nil

/-- A checkpoint that can be gone back to gives back the shape it was taken of. -/
theorem Orderly.rollback {session : TreeSession} {number : Nat} {mark : Mark} {older : List Mark}
    (h : session.Orderly) (hDrop : session.marks.drop number = mark :: older) : ∃ tree,
    session.perform (.rollback number) = some ⟨tree, mark :: older⟩ ∧
      tree.shape = mark.before.shape ∧ tree.generation = mark.before.generation := by
  have hMark : mark ∈ session.marks := List.mem_of_mem_drop (hDrop ▸ List.mem_cons_self)
  have hFits := h.fits mark hMark
  obtain ⟨tree, hRollback, hShape, hGeneration⟩ := hFits.rollback
  refine ⟨tree, ?_, hShape, hGeneration.trans hFits.generation.symm⟩
  simp only [TreeSession.perform, hDrop, hRollback]

/-- What one call leaves. -/
theorem Orderly.perform {session after : TreeSession} {call : TreeCall} (h : session.Orderly)
    (hCall : session.perform call = some after) : after.Orderly := by
  cases call with
  | append parent type location =>
      obtain ⟨⟨name, tree⟩, hAppend, hAfter⟩ := Option.bind_eq_some_iff.1 hCall
      cases hAfter
      obtain ⟨node, hNode, hTree⟩ := except_bind_eq_ok.1 (except_toOption_eq_some.1 hAppend)
      cases hTree
      obtain ⟨hIndex, -⟩ := Array.getElem?_eq_some_iff.1 (SyntaxTree.node_eq_ok.1 hNode).2
      constructor
      case sound => exact h.sound.append hIndex _
      case fits =>
        intro mark hMark
        obtain ⟨hBefore, hAllowed⟩ := List.mem_filter.1 hMark
        exact (h.fits mark hBefore).append hAllowed _
      case nested => exact h.nested.filter _
  | setText name text =>
      obtain ⟨tree, hSet, hAfter⟩ := Option.bind_eq_some_iff.1 hCall
      cases hAfter
      have hRelabel := except_toOption_eq_some.1 hSet
      have hType (label : Label) : (text.record label).type = label.type := by cases text <;> rfl
      obtain ⟨hShape, hGeneration⟩ := SyntaxTree.shape_relabel hRelabel hType
      constructor
      case sound => exact h.sound.of_shape hShape
      case fits => exact fun mark hMark => (h.fits mark hMark).of_shape hShape hGeneration
      case nested => exact h.nested
  | checkpoint parent =>
      obtain ⟨checkpoint, hTake, hAfter⟩ := Option.bind_eq_some_iff.1 hCall
      cases hAfter
      have hTaken := Mark.Fits.of_checkpoint h.sound (except_toOption_eq_some.1 hTake)
      constructor
      case sound => exact h.sound
      case fits => exact List.forall_mem_cons.2 ⟨hTaken, h.fits⟩
      case nested => exact List.pairwise_cons.2 ⟨h.fits, h.nested⟩
  | rollback number =>
      cases hDrop : session.marks.drop number with
      | nil => simp [TreeSession.perform, hDrop] at hCall
      | cons mark older =>
          obtain ⟨tree, hRollback, hShape, hGeneration⟩ := h.rollback hDrop
          cases hCall.symm.trans hRollback
          have hMark : mark ∈ session.marks := List.mem_of_mem_drop (hDrop ▸ List.mem_cons_self)
          have hTaken := Mark.Fits.of_checkpoint (h.fits mark hMark).sound (h.fits mark hMark).taken
          have hNested := h.nested.sublist (List.drop_sublist number session.marks)
          rw [hDrop] at hNested
          have hOlder := (List.pairwise_cons.1 hNested).1
          constructor
          case sound => exact (h.fits mark hMark).sound.of_shape hShape
          case fits =>
            intro other hOther
            rcases List.mem_cons.1 hOther with rfl | hOther
            · exact hTaken.of_shape hShape hGeneration
            · exact (hOlder other hOther).of_shape hShape hGeneration
          case nested => exact hNested
  | reset =>
      cases hCall
      constructor
      case sound => exact h.sound.reset
      case fits => exact fun _ hMark => nomatch hMark
      case nested => exact .nil

theorem Orderly.run {session after : TreeSession} {calls : List TreeCall} (h : session.Orderly)
    (hRun : session.run calls = some after) : after.Orderly := by
  induction calls generalizing session with
  | nil =>
      cases hRun
      exact h
  | cons call rest ih =>
      obtain ⟨middle, hCall, hRest⟩ := Option.bind_eq_some_iff.1 hRun
      exact ih (h.perform hCall) hRest

/-- Whether the checkpoint was taken by one of the calls, of the tree as it was then. -/
def Takes (session : TreeSession) (calls : List TreeCall) (mark : Mark) : Prop :=
  ∃ earlier parent later found, calls = earlier ++ .checkpoint parent :: later ∧
    session.run earlier = some found ∧ found.tree = mark.before ∧
    found.tree.checkpoint parent = .ok mark.checkpoint

/-- A call leaves no new checkpoints but the one that it takes. -/
theorem mem_marks_of_perform {session after : TreeSession} {call : TreeCall} {mark : Mark}
    (h : session.perform call = some after) (hMark : mark ∈ after.marks) :
    mark ∈ session.marks ∨ ∃ parent, call = .checkpoint parent ∧ session.tree = mark.before ∧
      session.tree.checkpoint parent = .ok mark.checkpoint := by
  cases call with
  | append parent type location =>
      obtain ⟨_, -, hAfter⟩ := Option.bind_eq_some_iff.1 h
      cases hAfter
      exact .inl (List.mem_filter.1 hMark).1
  | setText name text =>
      obtain ⟨_, -, hAfter⟩ := Option.bind_eq_some_iff.1 h
      cases hAfter
      exact .inl hMark
  | checkpoint parent =>
      obtain ⟨checkpoint, hTake, hAfter⟩ := Option.bind_eq_some_iff.1 h
      cases hAfter
      rcases List.mem_cons.1 hMark with rfl | hOld
      · exact .inr ⟨parent, rfl, rfl, except_toOption_eq_some.1 hTake⟩
      · exact .inl hOld
  | rollback number =>
      simp only [TreeSession.perform] at h
      split at h
      · cases h
      · next newest older hDrop =>
          split at h
          · cases h
            exact .inl (List.mem_of_mem_drop (hDrop ▸ hMark))
          · cases h
  | reset =>
      cases h
      cases hMark

/-- A mark that is held at the end was held at the start or taken on the way. -/
theorem takes_of_run {session after : TreeSession} {calls : List TreeCall} {mark : Mark}
    (h : session.run calls = some after) (hMark : mark ∈ after.marks) :
    mark ∈ session.marks ∨ session.Takes calls mark := by
  induction calls generalizing session with
  | nil =>
      cases h
      exact .inl hMark
  | cons call rest ih =>
      obtain ⟨middle, hCall, hRest⟩ := Option.bind_eq_some_iff.1 h
      rcases ih hRest with hBefore | ⟨earlier, parent, later, found, rfl, hRun, hFound⟩
      · rcases mem_marks_of_perform hCall hBefore with hOld | ⟨parent, rfl, hTaken⟩
        · exact .inl hOld
        · exact .inr ⟨[], parent, rest, session, rfl, rfl, hTaken⟩
      · refine .inr ⟨call :: earlier, parent, later, found, rfl, ?_, hFound⟩
        rw [TreeSession.run, hCall]
        exact hRun

/-- In every run the nodes of the tree hang together, and each checkpoint that can still be gone
back to gives back the shape that the tree had when it was taken. -/
theorem joined_of_run {calls : List TreeCall} {session : TreeSession}
    (h : ({} : TreeSession).run calls = some session) :
    session.tree.Joined ∧
      ∀ (number : Nat) (mark : Mark), session.marks[number]? = some mark →
        Takes {} calls mark ∧
          ∃ after, session.perform (.rollback number) = some after ∧
            after.tree.shape = mark.before.shape := by
  have hOrderly := orderly_new.run h
  refine ⟨hOrderly.sound.joined, fun number mark hMark => ⟨?_, ?_⟩⟩
  · rcases takes_of_run h (List.mem_of_getElem? hMark) with hOld | hTaken
    · cases hOld
    · exact hTaken
  · obtain ⟨hNumber, rfl⟩ := List.getElem?_eq_some_iff.1 hMark
    obtain ⟨tree, hRollback, hShape, -⟩ := hOrderly.rollback (List.drop_eq_getElem_cons hNumber)
    exact ⟨_, hRollback, hShape⟩

/-- A field is given up, and a directive takes its place; both checkpoints can be gone back to
still. -/
theorem joined_of_run_nested :
    let calls : List TreeCall := [.append ⟨0, 0⟩ .document {}, .checkpoint ⟨1, 0⟩,
      .append ⟨1, 0⟩ .operation {}, .checkpoint ⟨2, 0⟩, .append ⟨2, 0⟩ .fieldCollection {},
      .append ⟨3, 0⟩ .field {}, .setText ⟨4, 0⟩ (.primary ⟨0, 1⟩), .rollback 0,
      .append ⟨2, 0⟩ .directive {}]
    ∃ session, ({} : TreeSession).run calls = some session ∧ session.marks.length = 2 ∧
      session.tree.Joined ∧
      ∀ (number : Nat) (mark : Mark), session.marks[number]? = some mark →
        Takes {} calls mark ∧
          ∃ after, session.perform (.rollback number) = some after ∧
            after.tree.shape = mark.before.shape :=
  ⟨_, rfl, rfl, joined_of_run rfl⟩

end TreeSession

end GraphQL
