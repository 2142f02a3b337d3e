import GraphQL.Proofs.Grammar.Explanation
import GraphQL.Proofs.Grammar.Sites
import GraphQL.Proofs.Syntax.Atomicity
import GraphQL.Proofs.Syntax.Extent

/-! Variables in defaults. A use of one can be looked for among the tokens of a default, or among
the nodes that were built for it; its name is then cut out of the text, and its place is found from
the lines of the text. Both ways come to the same use and the same error. -/
namespace GraphQL

open Outline Grammar

/-- Whether a label is that of the use of a variable. -/
def Label.isUsage (label : Label) : Bool := label.type == .variableValue

/-- The label that a use of a variable has: its tokens are a dollar sign and a name. -/
def Label.ofUsage (found : Token × Token) : Label :=
  { type := .variableValue, primary := some found.2.bytes, location := found.1.start }

/-- The first use of a variable in a phrase. -/
def Outline.usage? (phrase : Outline) : Option Label := phrase.labels.find? Label.isUsage

/-- The error that a variable is used in a default, from the label of the use. -/
def Source.usageInDefault (source : Source) (usage : Label) : SyntaxError :=
  let name := usage.primary.getD ⟨0, 0⟩
  let start := usage.location.offset
  { message := "variable `$" ++ source.slice name ++ "` cannot be used in a default value"
    span := source.spanAt ⟨start, max name.stop start⟩
    kind := .invalidSyntax
    notes := [.general "default values must be constant"] }

namespace SyntaxTree

/-- The first use of a variable among the nodes at some places. Nodes after it are not looked at. -/
def usageAmong? (tree : SyntaxTree) : List Nat → Except StaleNode (Option Label)
  | [] => return none
  | place :: rest => do
    let label := (← tree.nodeAt place).label
    if label.isUsage then return some label else tree.usageAmong? rest

/-- The first use of a variable in the first child of a node. -/
def usageInDefault? (tree : SyntaxTree) (id : NodeId) : Except StaleNode (Option Label) := do
  match ← tree.children id with
  | [] => return none
  | default :: _ => tree.usageAmong? (← tree.descendants default)

end SyntaxTree

/-- Stop if a variable is used in the first child of a node. -/
def Builder.rejectUsages (source : Source) : NodeBuilder := fun id space =>
  match space.tree.usageInDefault? id with
  | .ok none => .ok () space
  | .ok (some usage) => .error (.malformed (source.usageInDefault usage)) space
  | .error stale => .error (.stale stale) space

/-- The default after `=`. Once it is built, its nodes are searched for variables. -/
def Builder.addDefaultSearched (source : Source) : NodeBuilder := fun id => do
  let _ ← reading Parser.advance
  match ValueForm.startingAt? (← reading Parser.current) with
  | none => reading (Parser.failExpecting ["value"] "for default value after `=`")
  | some _ =>
    value id
    rejectUsages source id

/-- Whether the first variable among some tokens is the first use among some labels, whatever
tokens come after them. -/
def Shows (tokens : List Token) (labels : List Label) : Prop :=
  ∀ more, (firstVariable? (tokens ++ more)).map Label.ofUsage =
    (labels.find? Label.isUsage).or ((firstVariable? more).map Label.ofUsage)

namespace Shows

variable {tokens more : List Token} {labels others : List Label} {token : Token} {label : Label}

theorem nil : Shows [] [] := fun _ => rfl

theorem append (h : Shows tokens labels) (hMore : Shows more others) :
    Shows (tokens ++ more) (labels ++ others) := by
  intro rest
  rw [List.append_assoc, h, hMore, List.find?_append, Option.or_assoc]

/-- A token that is no dollar sign starts no variable. -/
theorem single (h : token.kind ≠ .dollar) : Shows [token] [] := by
  intro rest
  cases rest with
  | nil => rfl
  | cons next rest => simp [firstVariable?, h]

/-- A label of another type is passed over. -/
theorem under (h : Shows tokens labels) (hLabel : label.isUsage = false) :
    Shows tokens (label :: labels) := by
  intro rest
  rw [h, List.find?_cons_of_neg (by simp [hLabel])]

theorem pieces {pieces : List Piece} (h : ∀ p ∈ pieces, Shows p.1 p.2.labels) :
    Shows (tokensOf pieces) (labelsAll (phrasesOf pieces)) := by
  induction pieces with
  | nil => exact nil
  | cons piece rest ih =>
      obtain ⟨hPiece, hRest⟩ := List.forall_mem_cons.1 h
      exact hPiece.append (ih hRest)

end Shows

/-- The tokens before what is inside a value or an argument start a variable only if that is all the
value is. -/
theorem Head.shows {type : NodeType} {head : List Token} {label : Label} (h : Head type head label)
    (hType : type.isValue = true ∨ type = .inputItem) : Shows head [label] := by
  cases h with
  | variableUsage hDollar hName =>
      intro rest
      simp [firstVariable?, hDollar, Label.isUsage, Label.ofUsage]
  | scalar hKind =>
      refine .under (.single fun hDollar => ?_) rfl
      simp [scalarKindOf?, hDollar] at hKind
  | null hWord => exact .under (.single (by simp [(isWord_iff.1 hWord).1])) rfl
  | enumeration hName hText => exact .under (.single (by simp [hName])) rfl
  | @argument name colon hName hColon =>
      have hFirst : Shows [name] [] := .single (by simp [hName])
      have hSecond : Shows [colon] [] := .single (by simp [hColon])
      exact (hFirst.append hSecond).under rfl
  | _ => simp [NodeType.isValue] at hType

/-- The first variable among the tokens of a value is the first use among its labels. -/
theorem Forms.shows {x : Symbol} {tokens : List Token} {phrase : Outline}
    (h : Forms x tokens phrase) (hx : x = .value ∨ x = .argument) : Shows tokens phrase.labels := by
  induction h with
  | atom hValue hHead => exact hHead.shows (.inl hValue)
  | @enclosed x item type enclosure hRule opening closing pieces hOpen hItems hClose ih =>
      have hItem : item = .value ∨ item = .argument := by
        cases hRule <;> simp at hx ⊢
      have hBetween : Shows (tokensOf pieces) (labelsAll (phrasesOf pieces)) :=
        .pieces fun p hp => ih p hp hItem
      have hFirst : Shows [opening] [] := .single (by rw [hOpen]; cases enclosure <;> decide)
      have hLast : Shows [closing] [] := .single (by rw [hClose]; cases enclosure <;> decide)
      have hAll := hFirst.append (hBetween.append hLast)
      rw [List.append_nil] at hAll
      exact hAll.under (by cases hRule <;> simp [Label.isUsage] at hx ⊢)
  | argument hHead hValue ih =>
      rw [labels, labelsAll, labelsAll, List.append_nil]
      exact (hHead.shows (.inr rfl)).append (ih (.inl rfl))
  | _ => simp at hx

/-- Among its tokens and among its labels a value has the same first variable. -/
theorem Forms.usage? {tokens : List Token} {phrase : Outline} (h : Forms .value tokens phrase) :
    phrase.usage? = (firstVariable? tokens).map Label.ofUsage := by
  have hShows := h.shows (.inl rfl) []
  rw [List.append_nil] at hShows
  simpa [Outline.usage?, firstVariable?] using hShows.symm

/-- The error told from two tokens of a text is that told from the text and the label. -/
theorem Source.usageInDefault_ofUsage {source : Source} {dollar name : Token}
    (h : [dollar, name] <:+: Token.lex source.text) :
    source.usageInDefault (.ofUsage (dollar, name)) = variableInDefault dollar name := by
  have hName : source.slice name.bytes = name.text := slice_of_mem_lex (h.subset (by simp))
  obtain ⟨hStart, hStop, hOrder⟩ := (Site.pair h).places
  have hSpan : source.spanAt ⟨dollar.start.offset, max name.bytes.stop dollar.start.offset⟩ =
      ⟨dollar.start, name.stop⟩ := by
    have hMax : max name.bytes.stop dollar.start.offset = name.stop.offset := Nat.max_eq_left hOrder
    rw [hMax, Source.spanAt, hStart.positionAt_offset, hStop.positionAt_offset]
  simp only [Source.usageInDefault, Label.ofUsage, Option.getD_some, hName, hSpan,
    variableInDefault]

namespace SyntaxTree

variable {tree : SyntaxTree}

theorem holds_of_node {id : NodeId} {node : Node} (h : tree.node id = .ok node) :
    tree.Holds id := by
  obtain ⟨hGeneration, hNode⟩ := node_eq_ok.1 h
  exact ⟨hGeneration, (Array.getElem?_eq_some_iff.1 hNode).1⟩

/-- The search of nodes in a row is the search of their labels. -/
theorem usageAmong?_range' {nodes : List Node} {start : Nat}
    (h : ∀ i node, nodes[i]? = some node → tree.nodeAt (start + i) = .ok node) :
    tree.usageAmong? (List.range' start nodes.length) =
      .ok ((nodes.map Node.label).find? Label.isUsage) := by
  induction nodes generalizing start with
  | nil => rfl
  | cons node rest ih =>
      have hFirst : tree.nodeAt start = .ok node := h 0 node rfl
      have hRest : tree.usageAmong? (List.range' (start + 1) rest.length) =
          .ok ((rest.map Node.label).find? Label.isUsage) := ih fun i other hOther => by
        rw [Nat.add_assoc, Nat.add_comm 1 i]
        exact h (i + 1) other hOther
      rw [List.length_cons, List.range'_succ, usageAmong?, hFirst, hRest, List.map_cons]
      cases hUsage : node.label.isUsage with
      | true =>
          rw [List.find?_cons_of_pos hUsage]
          simp [bind, Except.bind, hUsage, pure, Except.pure]
      | false =>
          rw [List.find?_cons_of_neg (by simp [hUsage])]
          simp [bind, Except.bind, hUsage]

/-- To search a phrase that was put under a node without children is to search its labels. -/
theorem usageInDefault?_graft {id : NodeId} {node : Node} (hNode : tree.node id = .ok node)
    (hEmpty : node.children = []) {phrase : Outline} (hPhrase : phrase.Whole) :
    (tree.graft id.index phrase).usageInDefault? id = .ok phrase.usage? := by
  cases hPhrase with
  | @node label children hLabel hChildren =>
      have hWhole : (Outline.node label children).Whole := .node hLabel hChildren
      have hParent := node_graft hWhole hNode
      have hLayout (i : Nat) (found : Node)
          (hFound : ((Outline.node label children).layout tree.size id.index)[i]? = some found) :
          (tree.graft id.index (.node label children)).nodeAt (tree.size + i) = .ok found := by
        refine node_eq_ok.2 ⟨rfl, ?_⟩
        have hLength : (tree.nodes.toList.modify id.index (Node.addChildren
            (places tree.size [Outline.node label children]))).length = tree.size := by
          simp [size_eq]
        rw [← Array.getElem?_toList, graft_nodes]
        simp only [idAt]
        rw [List.getElem?_append_right (by omega), hLength, Nat.add_sub_cancel_left, hFound]
      have hSearch := usageAmong?_range' hLayout
      rw [length_layout, labels_layout] at hSearch
      simp only [usageInDefault?, SyntaxTree.children, hParent, hEmpty, Node.addChildren, bind,
        Except.bind, pure, Except.pure, List.nil_append, List.map_cons, List.map_nil,
        descendants_graft]
      exact hSearch

end SyntaxTree

namespace TokenStream.Over

variable {text : String} {s after : TokenStream} {token : Token}

/-- The end of input is ahead of every stream over a text. -/
theorem closed (h : s.Over text) : Closed s.remaining := by
  obtain ⟨before, hAll⟩ := h.remaining
  exact (hAll ▸ Token.lex_closed text).of_append (List.cons_ne_nil _ _)

/-- A stream over a text that leaves a token is one still. -/
theorem of_advance (h : s.Over text) (hAdvance : s.advance = (.ok token, after)) :
    after.Over text := by
  have hLeft := h.advance
  rwa [hAdvance] at hLeft

end TokenStream.Over

section Default

open GraphQL.Parser

variable {source : Source} {s : TokenStream}

/-- In a default that was read, its tokens and its labels show no variable, or both show one, which
gives the same error either way. -/
theorem usage_of_value {after : TokenStream} {phrase : Outline} (hs : s.Over source.text)
    (h : value s = .ok phrase after) :
    (firstVariable? (tokensBetween s after) = none ∧ phrase.usage? = none) ∨
    ∃ dollar name usage, firstVariable? (tokensBetween s after) = some (dollar, name) ∧
      phrase.usage? = some usage ∧
      source.usageInDefault usage = variableInDefault dollar name := by
  obtain ⟨tokens, hMoves, hForms⟩ := value_reads hs.closed h
  rw [tokensBetween_of_moves hMoves, hForms.usage?]
  cases hFirst : firstVariable? tokens with
  | none => exact .inl ⟨rfl, rfl⟩
  | some found =>
      obtain ⟨clear, rest, rfl, -, -⟩ := firstVariable?_eq_some hFirst
      have hRead : clear ++ found.1 :: found.2 :: rest <:+: s.remaining := by
        rw [hMoves.remaining]
        exact List.infix_append_left
      have hPair : [found.1, found.2] <:+: clear ++ found.1 :: found.2 :: rest :=
        ⟨clear, rest, by simp⟩
      exact .inr ⟨found.1, found.2, .ofUsage found, rfl, rfl,
        Source.usageInDefault_ofUsage (hPair.trans (hRead.trans hs.remaining.isInfix))⟩

/-- The default after `=`, read into `node`. Once it is read, its labels are searched. -/
def growDefaultSearched (source : Source) (node : Outline) : Parser Outline := do
  let _ ← keeping node advance
  match ValueForm.startingAt? (← current) with
  | none => keeping node (failExpecting ["value"] "for default value after `=`")
  | some _ =>
    let default ← keeping node value
    let node := default.addChild node
    match default.usage? with
    | none => return node
    | some usage => keeping node (fail (source.usageInDefault usage))

/-- Where the default was started, its tokens and its labels are searched with the same outcome. -/
theorem grow_then_search (hs : s.Over source.text) (node : Outline) :
    (do
      let before ← get
      let grown ← grow node value
      match firstVariable? (tokensBetween before (← get)) with
      | none => return grown
      | some (dollar, name) => keeping grown (fail (variableInDefault dollar name)) :
        Parser Outline) s =
    (do
      let default ← keeping node value
      let grown := default.addChild node
      match default.usage? with
      | none => return grown
      | some usage => keeping grown (fail (source.usageInDefault usage)) : Parser Outline) s := by
  simp only [get_bind, grow, bind_assoc, pure_bind]
  cases hValue : keeping node value s with
  | error failure after => rw [estate_bind_of_error hValue, estate_bind_of_error hValue]
  | ok default after =>
      rw [estate_bind_of_ok hValue, estate_bind_of_ok hValue, get_bind]
      obtain ⟨hFirst, hUsage⟩ | ⟨dollar, name, usage, hFirst, hUsage, hError⟩ :=
        usage_of_value hs (keeping_eq_ok.1 hValue)
      · rw [hFirst, hUsage]
      · rw [hFirst, hUsage]
        exact congrArg (fun error => keeping (default.addChild node) (fail error) after) hError.symm

/-- The search of the tokens and that of the phrase accept the same defaults, give the same phrase
and refuse the others with the same error. -/
theorem growDefault_eq_searched (hs : s.Over source.text) (node : Outline) :
    growDefault node s = growDefaultSearched source node s := by
  rw [growDefault, growDefaultSearched]
  cases hAdvance : keeping node advance s with
  | error failure middle => rw [estate_bind_of_error hAdvance, estate_bind_of_error hAdvance]
  | ok equals middle =>
      have hMiddle : middle.Over source.text := hs.of_advance (by simpa using hAdvance)
      rw [estate_bind_of_ok hAdvance, estate_bind_of_ok hAdvance, current_bind, current_bind]
      cases ValueForm.startingAt? middle.current with
      | none => rfl
      | some form => exact grow_then_search hMiddle node

namespace Builder

variable {α β : Type} {step : Parser α} {next : α → Builder β} {tree : SyntaxTree} {id : NodeId}
  {node : Node} {after : TokenStream}

/-- After a step that succeeds the tree is as it was. -/
theorem reading_bind_of_ok {a : α} (h : step s = .ok a after) :
    (reading step >>= next) ⟨tree, s⟩ = next a ⟨tree, after⟩ := by
  have hRead : reading step ⟨tree, s⟩ = .ok a ⟨tree, after⟩ := by simp only [reading, h]
  exact estate_bind_of_ok hRead

/-- A step that fails leaves the tree as it was and the error without what was built. -/
theorem reading_bind_of_error {failure : Failure} (h : step s = .error failure after) :
    (reading step >>= next) ⟨tree, s⟩ = .error (.malformed failure.error) ⟨tree, after⟩ := by
  have hRead : reading step ⟨tree, s⟩ = .error (.malformed failure.error) ⟨tree, after⟩ := by
    simp only [reading, h]
  exact estate_bind_of_error hRead

@[simp] theorem reading_get_bind {next : TokenStream → Builder β} :
    (reading get >>= next) ⟨tree, s⟩ = next s ⟨tree, s⟩ := reading_bind_of_ok rfl

@[simp] theorem reading_current_bind {next : Token → Builder β} :
    (reading current >>= next) ⟨tree, s⟩ = next s.current ⟨tree, s⟩ := reading_bind_of_ok rfl

/-- Where the default was started, its tokens and its nodes are searched with the same outcome. -/
theorem value_then_search (hNode : tree.node id = .ok node) (hEmpty : node.children = [])
    (hs : s.Over source.text) :
    (do
      let before ← reading get
      value id
      match firstVariable? (tokensBetween before (← reading get)) with
      | none => return
      | some (dollar, name) => reading (fail (variableInDefault dollar name)) : Builder Unit)
        ⟨tree, s⟩ =
    (do
      value id
      rejectUsages source id : Builder Unit) ⟨tree, s⟩ := by
  rw [reading_get_bind]
  have hValue := NodeBuilder.adds_value tree id s (SyntaxTree.holds_of_node hNode)
  cases hRead : Grammar.value s with
  | error failure after =>
      rw [hRead] at hValue
      rw [estate_bind_of_error hValue, estate_bind_of_error hValue]
  | ok default after =>
      obtain ⟨tokens, -, hForms⟩ := value_reads hs.closed hRead
      have hTree := SyntaxTree.usageInDefault?_graft hNode hEmpty hForms.whole
      rw [hRead] at hValue
      rw [estate_bind_of_ok hValue, estate_bind_of_ok hValue, reading_get_bind, rejectUsages, hTree]
      obtain ⟨hFirst, hUsage⟩ | ⟨dollar, name, usage, hFirst, hUsage, hError⟩ :=
        usage_of_value hs hRead
      · rw [hFirst, hUsage]
        rfl
      · rw [hFirst, hUsage]
        simp only [hError]
        rfl

/-- The search of the tokens and that of the tree leave the same tree, the same tokens ahead and the
same error, if there is one. -/
theorem addDefault_eq_searched (hNode : tree.node id = .ok node) (hEmpty : node.children = [])
    (hs : s.Over source.text) :
    addDefault id ⟨tree, s⟩ = addDefaultSearched source id ⟨tree, s⟩ := by
  rw [addDefault, addDefaultSearched]
  cases hAdvance : advance s with
  | error failure middle =>
      rw [reading_bind_of_error hAdvance, reading_bind_of_error hAdvance]
  | ok equals middle =>
      have hMiddle : middle.Over source.text := hs.of_advance (advance_eq_ok.1 hAdvance)
      rw [reading_bind_of_ok hAdvance, reading_bind_of_ok hAdvance, reading_current_bind,
        reading_current_bind]
      cases ValueForm.startingAt? middle.current with
      | none => rfl
      | some form => exact value_then_search hNode hEmpty hMiddle

end Builder

end Default

end GraphQL
