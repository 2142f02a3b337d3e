import GraphQL.Proofs.Grammar.Steps
import GraphQL.Proofs.Syntax.Builder
import GraphQL.Proofs.Syntax.Preorder

/-! Building in the tree against reading into a phrase. Each builder follows its production step by
step: at any time the tree is the one from before the call with what was read so far grafted on, so
the cuts of a failed call give back exactly that tree. -/
namespace GraphQL

open Outline

namespace SyntaxTree

variable {tree : SyntaxTree} {parent : Nat}

/-- Whether a name stands for a node of the tree. -/
def Holds (tree : SyntaxTree) (id : NodeId) : Prop :=
  id.generation = tree.generation ∧ id.index < tree.size

/-- A name finds its node only in its own generation. -/
theorem node_eq_ok {id : NodeId} {node : Node} :
    tree.node id = .ok node ↔
      id.generation = tree.generation ∧ tree.nodes[id.index]? = some node := by
  unfold SyntaxTree.node
  split
  · next found hFound => split <;> simp_all
  · next hNone => simp [hNone]

theorem Holds.exists_node {id : NodeId} (h : tree.Holds id) : ∃ node, tree.node id = .ok node :=
  ⟨_, node_eq_ok.2 ⟨h.1, Array.getElem?_eq_getElem h.2⟩⟩

/-- The new node of a grafted phrase has a good name. -/
theorem holds_graft (tree : SyntaxTree) (parent : Nat) (label : Label) (children : List Outline) :
    (tree.graft parent (.node label children)).Holds (tree.idAt tree.size) :=
  ⟨(graft_generation ..).symm, by rw [size_graft, count]; simp [idAt]⟩

/-- Under a good name a node without children is grafted. -/
theorem append_of_holds {id : NodeId} (h : tree.Holds id) (label : Label) :
    tree.append id label = .ok (tree.idAt tree.size, tree.graft id.index (.node label [])) := by
  obtain ⟨node, hNode⟩ := h.exists_node
  simp only [append, hNode]
  rfl

theorem graftAll_append (tree : SyntaxTree) (parent : Nat) (phrases more : List Outline) :
    graftAll tree parent (phrases ++ more) =
      graftAll (graftAll tree parent phrases) parent more := by
  induction phrases generalizing tree with
  | nil => rfl
  | cons child rest ih => exact ih _

/-- A phrase that is put under the new node becomes the last in the phrase grafted before. -/
theorem graft_graft (tree : SyntaxTree) (parent : Nat) (label : Label)
    (children : List Outline) (child : Outline) :
    (tree.graft parent (.node label children)).graft tree.size child =
      tree.graft parent (.node label (children ++ [child])) := by
  rw [graft, graft, graftAll_append]
  rfl

/-- Where the nodes of a phrase lie: its own first, those inside it behind. -/
theorem graft_node_nodes (tree : SyntaxTree) (parent : Nat) (label : Label)
    (children : List Outline) :
    (tree.graft parent (.node label children)).nodes.toList =
      tree.nodes.toList.modify parent (Node.addChildren [tree.size]) ++
        { label, parent := some parent, children := places (tree.size + 1) children } ::
          layoutAll (tree.size + 1) tree.size children := graft_nodes ..

theorem ext_toList {t u : SyntaxTree} (hNodes : t.nodes.toList = u.nodes.toList)
    (hGeneration : t.generation = u.generation) : t = u := by
  cases t
  cases u
  simp_all [Array.toList_inj]

/-- What the new node says of itself may be changed after the phrase is grafted. -/
theorem relabel_graft (tree : SyntaxTree) (parent : Nat) (label : Label)
    (children : List Outline) (change : Label → Label) :
    (tree.graft parent (.node label children)).relabel (tree.idAt tree.size) change =
      .ok (tree.graft parent (.node (change label) children)) := by
  obtain ⟨node, hNode⟩ := (holds_graft tree parent label children).exists_node
  have hLength : (tree.nodes.toList.modify parent (Node.addChildren [tree.size])).length =
      tree.size := by simp [size_eq]
  have hNew := modify_append_mid (fun node : Node => { node with label := change node.label })
    (tree.nodes.toList.modify parent (Node.addChildren [tree.size]))
    { label, parent := some parent, children := places (tree.size + 1) children }
    (layoutAll (tree.size + 1) tree.size children)
  simp only [SyntaxTree.relabel, hNode]
  refine congrArg Except.ok (ext_toList ?_ ?_)
  · simp only [Array.toList_modify, idAt]
    rw [graft_node_nodes, graft_node_nodes, ← hNew, hLength]
  · simp only [graft_generation]

/-- A checkpoint of a tree cuts off what was grafted under its node since. -/
theorem rollback_graft {id : NodeId} {node : Node} (hNode : tree.node id = .ok node)
    (phrase : Outline) :
    (tree.graft id.index phrase).rollback ⟨tree.size, id, node.children.length⟩ =
      (.ok (), tree) := by
  obtain ⟨hGeneration, hFound⟩ := node_eq_ok.1 hNode
  have hLength : (tree.nodes.toList.modify id.index
      (Node.addChildren (places tree.size [phrase]))).length = tree.size := by simp [size_eq]
  have hCut : ((tree.graft id.index phrase).nodes.take tree.size).toList =
      tree.nodes.toList.modify id.index (Node.addChildren (places tree.size [phrase])) := by
    rw [Array.take_eq_extract, Array.toList_extract, List.extract_eq_take_drop, graft_nodes,
      List.drop_zero, Nat.sub_zero, List.take_left' hLength]
  have hStill : (SyntaxTree.mk ((tree.graft id.index phrase).nodes.take tree.size)
      (tree.graft id.index phrase).generation).node id =
        .ok (node.addChildren (places tree.size [phrase])) := by
    refine node_eq_ok.2 ⟨by rw [graft_generation]; exact hGeneration, ?_⟩
    rw [← Array.getElem?_toList, hCut, List.getElem?_modify_eq, Array.getElem?_toList, hFound]
    rfl
  simp only [rollback, hStill, Prod.mk.injEq, true_and]
  refine ext_toList ?_ (graft_generation ..)
  simp only [cutChildren, Array.toList_modify, hCut]
  rw [List.modify_modify_eq]
  apply List.ext_getElem?
  intro i
  rw [List.getElem?_modify]
  by_cases hi : id.index = i
  · subst hi
    simp [Array.getElem?_toList, hFound, Node.addChildren]
  · simp [hi]

end SyntaxTree

/-- What a builder leaves where `tree` stood and the phrase goes under the node at `parent`: the
same tokens, error and tree as reading the phrase first and grafting as much as was built. -/
inductive Mirrors (tree : SyntaxTree) (parent : Nat) :
    EStateM.Result Failure TokenStream Outline → EStateM.Result Halt Workspace Unit → Prop where
  | built (label : Label) (children : List Outline) (stream : TokenStream) :
      Mirrors tree parent (.ok (.node label children) stream)
        (.ok () ⟨tree.graft parent (.node label children), stream⟩)
  | broken (error : SyntaxError) (label : Label) (children : List Outline)
      (stream : TokenStream) :
      Mirrors tree parent (.error ⟨error, some (.node label children)⟩ stream)
        (.error (.malformed error) ⟨tree.graft parent (.node label children), stream⟩)
  | unopened (error : SyntaxError) (stream : TokenStream) :
      Mirrors tree parent (.error ⟨error, none⟩ stream) (.error (.malformed error) ⟨tree, stream⟩)

namespace NodeBuilder

/-- The builder leaves of any tree, under any of its nodes, what the production says. -/
def Follows (build : NodeBuilder) (parser : Parser Outline) : Prop :=
  ∀ (tree : SyntaxTree) (parent : NodeId) (stream : TokenStream), tree.Holds parent →
    Mirrors tree parent.index (parser stream) (build parent ⟨tree, stream⟩)

/-- The builder goes on at a new node as the production goes on from what is there of its phrase. -/
def Continues (build : NodeBuilder) (parser : Outline → Parser Outline) : Prop :=
  ∀ (tree : SyntaxTree) (parent : NodeId) (stream : TokenStream) (label : Label)
    (children : List Outline), tree.Holds parent →
    Mirrors tree parent.index (parser (.node label children) stream)
      (build (tree.idAt tree.size) ⟨tree.graft parent.index (.node label children), stream⟩)

/-- The builder puts all of the phrase in the tree or nothing. -/
def Adds (build : NodeBuilder) (parser : Parser Outline) : Prop :=
  ∀ (tree : SyntaxTree) (parent : NodeId) (stream : TokenStream), tree.Holds parent →
    build parent ⟨tree, stream⟩ =
      match parser stream with
      | .ok phrase after => .ok () ⟨tree.graft parent.index phrase, after⟩
      | .error failure after => .error (.malformed failure.error) ⟨tree, after⟩

variable {α : Type} {build : NodeBuilder}

/-- What follows a production puts all of its phrase in the tree or, run atomically, nothing. -/
theorem Follows.atomically {parser : Parser Outline} (h : build.Follows parser) :
    (Builder.atomically build).Adds parser := by
  intro tree parent stream hParent
  obtain ⟨node, hNode⟩ := hParent.exists_node
  have hCheckpoint : tree.checkpoint parent = .ok ⟨tree.size, parent, node.children.length⟩ := by
    simp only [SyntaxTree.checkpoint, hNode]
    rfl
  have hBuild := h tree parent stream hParent
  generalize hRead : parser stream = read at hBuild
  generalize hLeft : build parent ⟨tree, stream⟩ = left at hBuild
  cases hBuild with
  | built label children after => simp only [Builder.atomically, hCheckpoint, hLeft]
  | broken error label children after =>
      simp only [Builder.atomically, hCheckpoint, hLeft, Builder.goBack,
        SyntaxTree.rollback_graft hNode]
  | unopened error after =>
      have hBack : tree.rollback ⟨tree.size, parent, node.children.length⟩ = (.ok (), tree) :=
        SyntaxTree.rollback_graft hNode (.missing 0)
      simp only [Builder.atomically, hCheckpoint, hLeft, Builder.goBack, hBack]

/-- A step that fails with nothing built. -/
def Bare (step : Parser α) : Prop :=
  ∀ stream failure after, step stream = .error failure after → failure.built = none

/-- A step that never fails. -/
def Sure (step : Parser α) : Prop := ∀ stream, ∃ a after, step stream = .ok a after

/-- A step that never fails has nothing built when it fails. -/
theorem Sure.bare {step : Parser α} (h : Sure step) : Bare step := by
  intro stream failure after hStep
  obtain ⟨a, other, hOk⟩ := h stream
  rw [hOk] at hStep
  cases hStep

/-- Tokens may be read before there is a node, as long as a failure has nothing built. -/
theorem Follows.reading {step : Parser α} {next : α → NodeBuilder}
    {rest : α → Parser Outline} (hStep : Bare step) (h : ∀ a, (next a).Follows (rest a)) :
    Follows (fun parent => Builder.reading step >>= fun a => next a parent)
      (step >>= rest) := by
  intro tree parent stream hParent
  cases hRead : step stream with
  | ok a after =>
      have hNext := h a tree parent after hParent
      simpa only [bind, EStateM.bind, Builder.reading, hRead] using hNext
  | error failure after =>
      obtain ⟨error, built⟩ := failure
      cases hStep stream _ after hRead
      simpa only [bind, EStateM.bind, Builder.reading, hRead] using Mirrors.unopened error after

/-- A production that fails at once leaves no node. -/
theorem Follows.failing {step : Parser Unit} {same : Parser Outline}
    (h : ∀ stream, ∃ error after, step stream = .error ⟨error, none⟩ after ∧
      same stream = .error ⟨error, none⟩ after) :
    Follows (fun _ => Builder.reading step) same := by
  intro tree parent stream hParent
  obtain ⟨error, after, hStep, hSame⟩ := h stream
  simpa only [Builder.reading, hStep, hSame] using Mirrors.unopened error after

/-- The node is put in the tree, and the rest goes on there. -/
theorem Continues.opening {next : NodeBuilder} (rest : Outline → Parser Outline)
    (h : next.Continues rest) (type : NodeType) (location : Position) :
    Follows (fun parent => Builder.append parent type location >>= fun id => next id)
      (rest (.leaf type location)) := by
  intro tree parent stream hParent
  simp only [bind, EStateM.bind, Builder.append, SyntaxTree.append_of_holds hParent]
  exact h tree parent stream _ [] hParent

/-- A phrase may end where it is. -/
theorem Continues.done : Continues (fun _ => pure ()) fun node => pure node :=
  fun _ _ stream label children _ => .built label children stream

/-- One part of a phrase after another. -/
theorem Continues.andThen {first second : NodeBuilder} {start rest : Outline → Parser Outline}
    (hFirst : first.Continues start) (hSecond : second.Continues rest) :
    Continues (fun id => do first id; second id) fun node => start node >>= rest := by
  intro tree parent stream label children hParent
  have hStart := hFirst tree parent stream label children hParent
  generalize hRead : start (.node label children) stream = read at hStart
  generalize hLeft : first (tree.idAt tree.size)
    ⟨tree.graft parent.index (.node label children), stream⟩ = left at hStart
  simp only [bind, EStateM.bind, hRead, hLeft]
  cases hStart with
  | built label children after => exact hSecond tree parent after label children hParent
  | broken error label children after => exact .broken error label children after
  | unopened error after => exact .unopened error after

/-- Once there is a node, a step that fails leaves what was built so far. -/
theorem Continues.reading {step : Parser α} {next : α → NodeBuilder}
    {rest : α → Outline → Parser Outline} (h : ∀ a, (next a).Continues (rest a)) :
    Continues (fun id => Builder.reading step >>= fun a => next a id)
      fun node => Parser.keeping node step >>= fun a => rest a node := by
  intro tree parent stream label children hParent
  cases hRead : step stream with
  | ok a after =>
      have hNext := h a tree parent after label children hParent
      simpa only [bind, EStateM.bind, Builder.reading, Parser.keeping, hRead] using hNext
  | error failure after =>
      simpa only [bind, EStateM.bind, Builder.reading, Parser.keeping, hRead] using
        Mirrors.broken failure.error label children after

/-- To look at the stream changes nothing and cannot fail. -/
theorem Continues.looking {step : Parser α} {next : α → NodeBuilder}
    {rest : α → Outline → Parser Outline} (hStep : Sure step)
    (h : ∀ a, (next a).Continues (rest a)) :
    Continues (fun id => Builder.reading step >>= fun a => next a id)
      fun node => step >>= fun a => rest a node := by
  intro tree parent stream label children hParent
  obtain ⟨a, after, hRead⟩ := hStep stream
  have hNext := h a tree parent after label children hParent
  simpa only [bind, EStateM.bind, Builder.reading, hRead] using hNext

/-- Once there is a node, a failure leaves it in the tree, to be cut by the caller. -/
theorem Continues.failing {step : Parser Unit} {same : Parser Outline}
    (h : ∀ stream, ∃ error after, step stream = .error ⟨error, none⟩ after ∧
      same stream = .error ⟨error, none⟩ after) :
    Continues (fun _ => Builder.reading step) fun node => Parser.keeping node same := by
  intro tree parent stream label children hParent
  obtain ⟨error, after, hStep, hSame⟩ := h stream
  simpa only [Builder.reading, Parser.keeping, hStep, hSame] using
    Mirrors.broken error label children after

/-- What a node says of itself may change while it is the last that was grafted. -/
theorem Continues.relabel (change : Label → Label) :
    Continues (Builder.relabel change) fun node => pure (node.relabel change) := by
  intro tree parent stream label children hParent
  simp only [Builder.relabel, SyntaxTree.relabel_graft]
  exact .built (change label) children stream

/-- A phrase put under the new node, or nothing of it, is the next of its children. -/
theorem Adds.continues {child : NodeBuilder} {parser : Parser Outline} (h : child.Adds parser) :
    child.Continues fun node => Parser.grow node parser := by
  intro tree parent stream label children hParent
  rw [h _ _ _ (SyntaxTree.holds_graft tree parent.index label children)]
  cases hRead : parser stream with
  | ok phrase after =>
      simp only [Parser.grow, bind, EStateM.bind, Parser.keeping, hRead, SyntaxTree.idAt,
        SyntaxTree.graft_graft]
      exact .built label (children ++ [phrase]) after
  | error failure after =>
      simpa only [Parser.grow, bind, EStateM.bind, Parser.keeping, hRead] using
        Mirrors.broken failure.error label children after

/-- The choice of a builder leaves the tree alone. -/
theorem Adds.looking {step : Parser α} {next : α → NodeBuilder}
    {rest : α → Parser Outline} (hStep : Sure step) (h : ∀ a, (next a).Adds (rest a)) :
    Adds (fun id => Builder.reading step >>= fun a => next a id) (step >>= rest) := by
  intro tree parent stream hParent
  obtain ⟨a, after, hRead⟩ := hStep stream
  have hNext := h a tree parent after hParent
  simpa only [Bind.bind, EStateM.bind, Builder.reading, hRead] using hNext

/-- Where no builder is chosen the tree is left alone. -/
theorem Adds.failing {step : Parser Unit} {same : Parser Outline}
    (h : ∀ stream, ∃ error after, step stream = .error ⟨error, none⟩ after ∧
      same stream = .error ⟨error, none⟩ after) :
    Adds (fun _ => Builder.reading step) same := by
  intro tree parent stream hParent
  obtain ⟨error, after, hStep, hSame⟩ := h stream
  simp only [Builder.reading, hStep, hSame]

section Steps

open GraphQL.Parser GraphQL.Grammar

variable {β : Type}

theorem sure_pure (a : α) : Sure (pure a : Parser α) := fun stream => ⟨a, stream, rfl⟩

theorem sure_get : Sure (get : Parser TokenStream) := fun stream => ⟨stream, stream, rfl⟩

theorem sure_modify (change : TokenStream → TokenStream) : Sure (modify change : Parser PUnit) :=
  fun stream => ⟨⟨⟩, change stream, rfl⟩

theorem sure_current : Sure current := fun stream => ⟨stream.current, stream, rfl⟩

theorem sure_isAt (kind : TokenKind) : Sure (isAt kind) :=
  fun stream => ⟨stream.isAt kind, stream, rfl⟩

theorem sure_isAtWord (word : String) : Sure (isAtWord word) :=
  fun stream => ⟨stream.isAtWord word, stream, rfl⟩

theorem sure_isAtOneOf (words : List String) : Sure (isAtOneOf words) :=
  fun stream => ⟨words.any stream.current.isWord, stream, rfl⟩

theorem sure_bound : Sure bound := fun stream => ⟨_, stream, rfl⟩

/-- Of two steps that have nothing built when they fail either may come first. -/
theorem Bare.bind {step : Parser α} {next : α → Parser β} (hStep : Bare step)
    (hNext : ∀ a, Bare (next a)) : Bare (step >>= next) := by
  intro stream failure after h
  cases hRead : step stream with
  | ok a middle =>
      simp only [Bind.bind, EStateM.bind, hRead] at h
      exact hNext a middle failure after h
  | error early middle =>
      simp only [Bind.bind, EStateM.bind, hRead] at h
      cases h
      exact hStep stream _ _ hRead

theorem bare_advance : Bare advance := by
  intro stream failure after h
  unfold advance at h
  split at h
  · cases h
  · cases h
    rfl

theorem bare_fail (error : SyntaxError) : Bare (fail error : Parser α) := by
  intro stream failure after h
  cases h
  rfl

theorem bare_failExpecting (expected : List String) (context : String) (notes : List Note) :
    Bare (failExpecting expected context notes : Parser α) :=
  sure_get.bare.bind fun _ => bare_fail _

theorem bare_expect (kind : TokenKind) (context : String) : Bare (expect kind context) := by
  refine (sure_isAt kind).bare.bind fun here => ?_
  cases here with
  | true => exact bare_advance
  | false => exact bare_failExpecting _ _ _

theorem bare_expectWord (word context : String) : Bare (expectWord word context) := by
  refine (sure_isAtWord word).bare.bind fun here => ?_
  cases here with
  | true => exact bare_advance
  | false => exact bare_failExpecting _ _ _

theorem bare_fragmentName (context : String) : Bare (fragmentName context) := by
  refine (sure_isAtWord "on").bare.bind fun here => ?_
  cases here with
  | true => exact sure_current.bare.bind fun _ => bare_fail _
  | false => exact bare_expect _ _

theorem bare_closes (enclosure : Enclosure) (opening : Token) :
    Bare (closes enclosure opening) := by
  refine (sure_isAt enclosure.closer).bare.bind fun here => ?_
  cases here with
  | true => exact bare_advance.bind fun _ => (sure_pure true).bare
  | false =>
      refine sure_get.bare.bind fun stream => ?_
      split
      · exact bare_fail _
      · split
        · exact bare_fail _
        · exact (sure_pure false).bare

theorem bare_typeEnd (start : Position) : Bare (typeEnd start) := by
  refine (sure_isAt .bang).bare.bind fun here => ?_
  cases here with
  | true => exact bare_advance.bind fun _ => sure_get.bare.bind fun _ => (sure_pure _).bare
  | false => exact sure_get.bare.bind fun _ => (sure_pure _).bare

/-- A type has no node, so nothing of it is built; by induction on the levels. -/
theorem bare_typeWithin : (levels : Nat) → Bare (typeWithin levels)
  | 0 => bare_failExpecting _ _ _
  | levels + 1 => by
      refine sure_current.bare.bind fun first => (sure_isAt .squareOpen).bare.bind fun list => ?_
      cases list with
      | true =>
          refine bare_advance.bind fun opening => (bare_typeWithin levels).bind fun _ =>
            (bare_closes _ _).bind fun closed => ?_
          cases closed with
          | true => exact bare_typeEnd first.start
          | false => exact (bare_failExpecting _ _ _).bind fun _ => bare_typeEnd first.start
      | false =>
          refine (sure_isAt .name).bare.bind fun named => ?_
          cases named with
          | true => exact bare_advance.bind fun _ => bare_typeEnd first.start
          | false => exact (bare_failExpecting _ _ _).bind fun _ => bare_typeEnd first.start

theorem bare_typeRange : Bare typeRange := sure_bound.bare.bind bare_typeWithin

/-- The same failure may be asked for where nothing is expected of it and where a phrase is. -/
theorem failExpecting_alike (expected : List String) (context : String) (notes : List Note)
    (stream : TokenStream) : ∃ error after,
      (failExpecting expected context notes : Parser Unit) stream = .error ⟨error, none⟩ after ∧
        (failExpecting expected context notes : Parser Outline) stream =
          .error ⟨error, none⟩ after :=
  ⟨_, _, rfl, rfl⟩

theorem fail_alike (error : SyntaxError) (stream : TokenStream) : ∃ error' after,
    (fail error : Parser Unit) stream = .error ⟨error', none⟩ after ∧
      (fail error : Parser Outline) stream = .error ⟨error', none⟩ after := ⟨_, _, rfl, rfl⟩

/-- What is kept while two steps are taken is kept in each. -/
theorem keeping_bind (node : Outline) (step : Parser α) (next : α → Parser β) :
    keeping node (step >>= next) = keeping node step >>= fun a => keeping node (next a) := by
  funext stream
  cases hRead : step stream with
  | ok a after => simp only [keeping, Bind.bind, EStateM.bind, hRead]
  | error failure after => simp only [keeping, Bind.bind, EStateM.bind, hRead]

theorem keeping_pure (node : Outline) (a : α) : keeping node (pure a) = pure a := rfl

theorem continues_setPrimary (range : ByteRange) :
    Continues (Builder.setPrimary range) fun node => pure (node.setPrimary range) := .relabel _

theorem continues_setSecondary (range : ByteRange) :
    Continues (Builder.setSecondary range) fun node => pure (node.setSecondary range) := .relabel _

end Steps

section Repetition

open GraphQL.Parser

/-- A part that may be missing is built if its first token is there. -/
theorem continues_addAt {child : NodeBuilder} {parser : Parser Outline} (h : child.Adds parser)
    (kind : TokenKind) :
    Continues (Builder.addAt kind child) fun node => growAt kind node parser := by
  refine .looking (sure_isAt kind) fun here => ?_
  cases here with
  | true => exact h.continues
  | false => exact .done

/-- Parts are built as long as their first token is there, by induction on the rounds. -/
theorem continues_addWhileAt {child : NodeBuilder} {parser : Parser Outline}
    (h : child.Adds parser) (kind : TokenKind) : (rounds : Nat) →
    Continues (Builder.addWhileAt kind child rounds) (growWhileAt kind parser rounds)
  | 0 => .failing (failExpecting_alike _ _ _)
  | rounds + 1 => by
      refine .looking (sure_isAt kind) fun here => ?_
      cases here with
      | true => exact h.continues.andThen (continues_addWhileAt h kind rounds)
      | false => exact .done

/-- Items are built up to the closing delimiter, by induction on the rounds. -/
theorem continues_addUntilClosed {item : NodeBuilder} {parser : Parser Outline}
    (h : item.Adds parser) (enclosure : Enclosure) (opening : Token) : (rounds : Nat) →
    Continues (Builder.addUntilClosed enclosure opening item rounds)
      (growUntilClosed enclosure opening parser rounds)
  | 0 => .failing (failExpecting_alike _ _ _)
  | rounds + 1 => by
      refine .reading fun closed => ?_
      cases closed with
      | true => exact .done
      | false => exact h.continues.andThen (continues_addUntilClosed h enclosure opening rounds)

/-- A collection has its node once it is opened, and its items are built under it. -/
theorem follows_collection {item : NodeBuilder} {parser : Parser Outline} (h : item.Adds parser)
    (type : NodeType) (enclosure : Enclosure) :
    Follows (Builder.collection type enclosure item) (collection type enclosure parser) := by
  refine .reading (bare_expect _ _) fun opening => ?_
  refine Continues.opening
    (fun node => bound >>= fun rounds => growUntilClosed enclosure opening parser rounds node)
    ?_ type opening.start
  exact .looking sure_bound fun rounds => continues_addUntilClosed h enclosure opening rounds

end Repetition

end NodeBuilder

end GraphQL
