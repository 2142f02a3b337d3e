import GraphQL.Proofs.Grammar.Document
import GraphQL.Proofs.Syntax.Graft

/-! Phrases written out as lexemes. What is written depends only on the labels in a phrase and on
the text: the order of the parts, the delimiters and the signs between them are those of the
grammar. A phrase that was read gives back the tokens it was read from. -/
namespace GraphQL

/-- The delimiters around the phrases in a collection. -/
def NodeType.enclosure? : NodeType → Option Enclosure
  | .fieldCollection => some .selectionSet
  | .inputItemCollection => some .arguments
  | .variableCollection => some .variableDefinitions
  | .listValue => some .listValue
  | .complexValue => some .objectValue
  | _ => none

/-- Lexemes in the delimiters of a phrase, if it has any. -/
def NodeType.enclose (type : NodeType) (inside : List String) : List String :=
  match type.enclosure? with
  | some enclosure =>
    enclosure.opener.punctuator?.toList ++ inside ++ enclosure.closer.punctuator?.toList
  | none => inside

/-- The lexemes of a phrase before those of the phrases in it: its names and keywords, and the
punctuators between them. The type of a variable is cut into its tokens. -/
def Label.lexemes (source : Source) (label : Label) : List String :=
  let primary := label.primary.toList.map source.slice
  let secondary := label.secondary.toList.map source.slice
  match label.type with
  | .scalarValue | .enumValue | .nullValue => primary
  | .variableValue => "$" :: primary
  | .inputItem => primary ++ [":"]
  | .directive => "@" :: primary
  | .field => secondary.flatMap (fun aliasName => [aliasName, ":"]) ++ primary
  | .fragmentSpread => "..." :: primary
  | .inlineFragment => "..." :: primary.flatMap fun type => ["on", type]
  | .namedFragment => "fragment" :: (primary ++ "on" :: secondary)
  | .operation => primary ++ secondary
  | .variable =>
    "$" :: (primary ++ ":" :: secondary.flatMap fun type => (Token.beforeEnd type).map Token.text)
  | _ => []

namespace Outline

def isValue : Outline → Bool
  | .node label _ => label.type.isValue
  | .missing _ => false

mutual

/-- The lexemes of a phrase in the order of the grammar. -/
def lexemes (source : Source) : Outline → List String
  | .node label children =>
    label.lexemes source ++ label.type.enclose (lexemesIn source label.type children)
  | .missing _ => []

/-- The lexemes of the phrases in one of the given type. The default of a variable follows `=`. -/
def lexemesIn (source : Source) (type : NodeType) : List Outline → List String
  | [] => []
  | child :: rest =>
    (if type = .variable ∧ child.isValue then ["="] else []) ++ child.lexemes source ++
      lexemesIn source type rest

end

end Outline

/-- Some tokens as they stand in a text. -/
abbrev Source.Has (source : Source) (tokens : List Token) : Prop :=
  tokens <:+: Token.lex source.text

variable {source : Source} {tokens more : List Token}

theorem Source.Has.left (h : source.Has (tokens ++ more)) : source.Has tokens :=
  List.infix_append_left.trans h

theorem Source.Has.right (h : source.Has (tokens ++ more)) : source.Has more :=
  List.infix_append_right.trans h

theorem Source.Has.slice (h : source.Has tokens) :
    ∀ t ∈ tokens, source.slice t.bytes = t.text :=
  fun _ ht => slice_of_mem_lex (h.subset ht)

/-- Punctuators stand in a text as they are spelled. -/
theorem Source.Has.text (h : source.Has tokens) :
    ∀ t ∈ tokens, ∀ word, t.kind.punctuator? = some word → t.text = word :=
  fun _ ht _ hKind => text_of_mem_lex (h.subset ht) hKind

theorem infix_tokensOf {piece : Piece} {pieces : List Piece} (h : piece ∈ pieces) :
    piece.1 <:+: tokensOf pieces := by
  obtain ⟨before, after, rfl⟩ := List.append_of_mem h
  rw [tokensOf_append, tokensOf_cons]
  exact List.infix_append' _ _ _

theorem IsMark.sound (h : IsMark tokens) : ∀ t ∈ tokens, t.Sound := by
  rcases h with rfl | ⟨bang, hBang, rfl⟩
  · simp
  · simp [Token.Sound, hBang, TokenKind.isError]

/-- No token of a type is at fault or the end of input. -/
theorem IsType.sound (h : IsType tokens) : ∀ t ∈ tokens, t.Sound := by
  induction h with
  | named hName hMark =>
      refine List.forall_mem_cons.2 ⟨?_, hMark.sound⟩
      simp [Token.Sound, hName, TokenKind.isError]
  | list hOpen hItem hClose hMark ih =>
      refine List.forall_mem_cons.2 ⟨?_, List.forall_mem_append.2
        ⟨ih, List.forall_mem_cons.2 ⟨?_, hMark.sound⟩⟩⟩
      · simp [Token.Sound, hOpen, TokenKind.isError]
      · simp [Token.Sound, hClose, TokenKind.isError]

theorem IsType.ne_nil (h : IsType tokens) : tokens ≠ [] := by
  cases h <;> simp

/-- A type is cut out of the text with the tokens it was read from. -/
theorem IsType.lexemes (h : IsType tokens) (hSource : source.Has tokens) :
    (Token.beforeEnd (source.slice (Token.cover tokens))).map Token.text =
      tokens.map Token.text := by
  have hWords := congrArg (List.map Prod.snd) (words_beforeEnd_slice hSource h.ne_nil h.sound)
  simpa [Token.word, Function.comp_def] using hWords

/-- The tokens before the phrases in another are written from its label. -/
theorem Head.lexemes {type : NodeType} {head : List Token} {label : Label}
    (h : Head type head label) (hSource : source.Has head) :
    label.lexemes source = head.map Token.text := by
  have hSlice := hSource.slice
  have hText := hSource.text
  cases h with
  | @declaration dollar name colon type hDollar hName hColon hType =>
      have hTypeSource : source.Has type := by
        have hAll : source.Has ([dollar, name, colon] ++ type) := hSource
        exact hAll.right
      simp only [List.forall_mem_cons, hDollar, hColon, TokenKind.punctuator?] at hSlice hText
      simp [Label.lexemes, hSlice, hText, hType.lexemes hTypeSource]
  | _ =>
      simp only [List.forall_mem_cons, Grammar.isWord_iff] at *
      simp_all [Label.lexemes, TokenKind.punctuator?]

theorem lexemesIn_append (source : Source) (type : NodeType) (first second : List Outline) :
    Outline.lexemesIn source type (first ++ second) =
      Outline.lexemesIn source type first ++ Outline.lexemesIn source type second := by
  induction first with
  | nil => rfl
  | cons child rest ih => simp [Outline.lexemesIn, ih]

/-- Phrases that are no defaults are written one after another. -/
theorem lexemesIn_phrasesOf {type : NodeType} {pieces : List Piece}
    (hType : ∀ p ∈ pieces, type = .variable → p.2.isValue = false)
    (hPieces : ∀ p ∈ pieces, source.Has p.1 → p.2.lexemes source = p.1.map Token.text)
    (hSource : source.Has (tokensOf pieces)) :
    Outline.lexemesIn source type (phrasesOf pieces) = (tokensOf pieces).map Token.text := by
  induction pieces with
  | nil => rfl
  | cons piece pieces ih =>
      obtain ⟨hFirst, hRest⟩ := List.forall_mem_cons.1 hPieces
      obtain ⟨hFirstType, hRestType⟩ := List.forall_mem_cons.1 hType
      have hNone : ¬ (type = .variable ∧ piece.2.isValue = true) := by
        rintro ⟨hVariable, hValue⟩
        simp [hFirstType hVariable] at hValue
      rw [phrasesOf_cons, Outline.lexemesIn, if_neg hNone, tokensOf_cons, List.map_append,
        hFirst hSource.left, ih hRestType hRest hSource.right]
      rfl

theorem enclose_of_none {type : NodeType} {inside : List String} (h : type.enclosure? = none) :
    type.enclose inside = inside := by
  rw [NodeType.enclose, h]

/-- A collection is written between the delimiters that it was read between. -/
theorem Encloses.lexemes {x item : Symbol} {type : NodeType} {enclosure : Enclosure}
    (h : Encloses x type enclosure item) {opening closing : Token} {inside : List Token}
    (hOpen : opening.kind = enclosure.opener) (hClose : closing.kind = enclosure.closer)
    (hSource : source.Has (opening :: (inside ++ [closing]))) :
    type.enclose (inside.map Token.text) = (opening :: (inside ++ [closing])).map Token.text := by
  have hOpenText := hSource.text opening (by simp)
  have hCloseText := hSource.text closing (by simp)
  rw [hOpen] at hOpenText
  rw [hClose] at hCloseText
  cases h <;>
    simp [NodeType.enclose, NodeType.enclosure?, Enclosure.opener, Enclosure.closer,
      TokenKind.punctuator?] at hOpenText hCloseText ⊢ <;>
    simp [hOpenText, hCloseText]

/-- A directive is no value, so that it is not taken for a default. -/
theorem Forms.not_value {phrase : Outline} (h : Forms .directive tokens phrase) :
    phrase.isValue = false := by
  cases h with
  | directive hHead => simp [Outline.isValue, hHead.type, NodeType.isValue]
  | enclosed hRule => cases hRule

/-- A value has a label that says so. -/
theorem Forms.isValue {phrase : Outline} (h : Forms .value tokens phrase) :
    phrase.isValue = true := by
  cases h with
  | atom hValue hHead => rw [Outline.isValue, hHead.type, hValue]
  | enclosed hRule => cases hRule <;> rfl

/-- A phrase that starts with tokens of its own is written as those and the phrases in it. -/
theorem Head.lexemes_node {type : NodeType} {head : List Token} {label : Label}
    {pieces : List Piece} (hHead : Head type head label) (hNone : type.enclosure? = none)
    (hNotVariable : type ≠ .variable)
    (hPieces : ∀ p ∈ pieces, source.Has p.1 → p.2.lexemes source = p.1.map Token.text)
    (hSource : source.Has (head ++ tokensOf pieces)) :
    (Outline.node label (phrasesOf pieces)).lexemes source =
      (head ++ tokensOf pieces).map Token.text := by
  rw [Outline.lexemes, hHead.lexemes hSource.left, hHead.type, enclose_of_none hNone,
    lexemesIn_phrasesOf (fun _ _ h => absurd h hNotVariable) hPieces hSource.right,
    List.map_append]

theorem forall_mem_toList {P : Piece → Prop} {piece : Option Piece} (h : ∀ p ∈ piece, P p) :
    ∀ p ∈ piece.toList, P p := fun p hp => h p (Option.mem_toList.1 hp)

/-- A phrase is written out as the tokens that form it. -/
theorem Forms.lexemes {x : Symbol} {phrase : Outline} (h : Forms x tokens phrase)
    (hSource : source.Has tokens) : phrase.lexemes source = tokens.map Token.text := by
  induction h with
  | @atom type head label hValue hHead =>
      have hNone : label.type.enclosure? = none := by
        rw [hHead.type]
        cases hHead <;> rfl
      rw [Outline.lexemes, hHead.lexemes hSource, enclose_of_none hNone]
      simp [Outline.lexemesIn]
  | @enclosed x item type enclosure hRule opening closing pieces hOpen hItems hClose ih =>
      have hInside : source.Has (tokensOf pieces) := by
        have hAll : source.Has ([opening] ++ (tokensOf pieces ++ [closing])) := hSource
        exact hAll.right.left
      have hNotVariable (p : Piece) (_ : p ∈ pieces) : type = .variable → p.2.isValue = false := by
        cases hRule <;> simp
      have hNoHead : ({ type, location := opening.start } : Label).lexemes source = [] := by
        cases hRule <;> rfl
      rw [Outline.lexemes, hNoHead, lexemesIn_phrasesOf hNotVariable ih hInside,
        hRule.lexemes hOpen hClose hSource]
      rfl
  | @argument head label value hHead hValue ih =>
      rw [← tokensOf_singleton value] at hSource ⊢
      exact hHead.lexemes_node rfl (by simp) (by simpa using ih) hSource
  | directive hHead hArguments ih =>
      exact hHead.lexemes_node rfl (by simp) (forall_mem_toList ih) hSource
  | field hHead hArguments hDirectives hSelections ihArguments ihDirectives ihSelections =>
      refine hHead.lexemes_node rfl (by simp) ?_ hSource
      exact List.forall_mem_append.2 ⟨List.forall_mem_append.2
        ⟨forall_mem_toList ihArguments, ihDirectives⟩, forall_mem_toList ihSelections⟩
  | spread hHead hDirectives ih => exact hHead.lexemes_node rfl (by simp) ih hSource
  | inline hHead hDirectives hSelections ihDirectives ihSelections =>
      refine hHead.lexemes_node rfl (by simp) ?_ hSource
      exact List.forall_mem_append.2 ⟨ihDirectives, by simpa using ihSelections⟩
  | @declaration head label default directives hHead hEquals hConstant hDefault hDirectives
      ihDefault ihDirectives =>
      have hInside := hSource.right
      have hNotValue (p : Piece) (hp : p ∈ directives) (_ : label.type = .variable) :
          p.2.isValue = false := (hDirectives p hp).not_value
      have hDirectiveLexemes := lexemesIn_phrasesOf hNotValue ihDirectives hInside.right
      have hDefaultLexemes : Outline.lexemesIn source label.type (defaultPhrases default) =
          (defaultTokens default).map Token.text := by
        cases default with
        | none => rfl
        | some d =>
            have hDefaultSource : source.Has (d.1 :: d.2.1) := by
              simpa [defaultTokens] using hInside.left
            have hEqualsText := hDefaultSource.text d.1 (by simp) "=" (by rw [hEquals d rfl]; rfl)
            have hValueSource : source.Has d.2.1 := by
              have hAll : source.Has ([d.1] ++ d.2.1) := hDefaultSource
              exact hAll.right
            have hIsValue : d.2.2.isValue = true := (hDefault d rfl).isValue
            simp [defaultPhrases, defaultTokens, Outline.lexemesIn, hHead.type, hIsValue,
              hEqualsText, ihDefault d rfl hValueSource]
      rw [Outline.lexemes, hHead.lexemes hSource.left, lexemesIn_append, hDefaultLexemes,
        hDirectiveLexemes, enclose_of_none (by rw [hHead.type]; rfl)]
      simp
  | @shorthand first rest phrase hSelections ih =>
      have hNotVariable (p : Piece) (_ : p ∈ [(first :: rest, phrase)])
          (h : NodeType.operation = .variable) : p.2.isValue = false := by cases h
      have hInside := lexemesIn_phrasesOf hNotVariable (by simpa using ih)
        (by simpa using hSource)
      rw [Outline.lexemes, enclose_of_none rfl]
      simpa [Label.lexemes] using hInside
  | operation hHead hVariables hDirectives hSelections ihVariables ihDirectives ihSelections =>
      refine hHead.lexemes_node rfl (by simp) ?_ hSource
      exact List.forall_mem_append.2 ⟨List.forall_mem_append.2
        ⟨forall_mem_toList ihVariables, ihDirectives⟩, by simpa using ihSelections⟩
  | fragment hHead hDirectives hSelections ihDirectives ihSelections =>
      refine hHead.lexemes_node rfl (by simp) ?_ hSource
      exact List.forall_mem_append.2 ⟨ihDirectives, by simpa using ihSelections⟩
  | @document definitions first rest hFirst hDefinitions ih =>
      rw [← hFirst] at hSource ⊢
      have hInside : Outline.lexemesIn source .document (phrasesOf definitions) =
          (tokensOf definitions).map Token.text := lexemesIn_phrasesOf (by simp) ih hSource
      rw [Outline.lexemes, enclose_of_none rfl]
      exact hInside

/-- Whether a phrase of this type may have no tokens of its own but delimiters. -/
def NodeType.mayBeBlank : NodeType → Bool
  | .document | .operation | .listValue | .complexValue
  | .variableCollection | .fieldCollection | .inputItemCollection => true
  | _ => false

/-- Every label in a phrase says nothing but where it is, or is that of some tokens in it. -/
theorem Forms.all {P : Label → Prop} {all : List Token}
    (hHead : ∀ {type head label}, Head type head label → head <:+: all → P label)
    (hBlank : ∀ type location, type.mayBeBlank = true → P { type, location }) {x : Symbol}
    {phrase : Outline} (h : Forms x tokens phrase) (hTokens : tokens <:+: all) : phrase.All P := by
  have hPhrases {pieces : List Piece} (hInside : tokensOf pieces <:+: all)
      (hPieces : ∀ p ∈ pieces, p.1 <:+: all → p.2.All P) : ∀ c ∈ phrasesOf pieces, c.All P := by
    intro c hc
    obtain ⟨p, hp, rfl⟩ := List.mem_map.1 hc
    exact hPieces p hp ((infix_tokensOf hp).trans hInside)
  have hLeft {first second : List Token} (hBoth : first ++ second <:+: all) : first <:+: all :=
    List.infix_append_left.trans hBoth
  have hRight {first second : List Token} (hBoth : first ++ second <:+: all) : second <:+: all :=
    List.infix_append_right.trans hBoth
  induction h with
  | atom hValue hHeadTokens => exact .node (hHead hHeadTokens hTokens) (by simp)
  | @enclosed x item type enclosure hRule opening closing pieces hOpen hItems hClose ih =>
      have hAll : [opening] ++ (tokensOf pieces ++ [closing]) <:+: all := hTokens
      exact .node (hBlank _ _ (by cases hRule <;> rfl)) (hPhrases (hLeft (hRight hAll)) ih)
  | argument hHeadTokens hValue ih =>
      exact .node (hHead hHeadTokens (hLeft hTokens)) (by simpa using ih (hRight hTokens))
  | directive hHeadTokens hArguments ih =>
      exact .node (hHead hHeadTokens (hLeft hTokens))
        (hPhrases (hRight hTokens) (forall_mem_toList ih))
  | field hHeadTokens _ _ _ ihArguments ihDirectives ihSelections =>
      exact .node (hHead hHeadTokens (hLeft hTokens)) (hPhrases (hRight hTokens)
        (List.forall_mem_append.2 ⟨List.forall_mem_append.2
          ⟨forall_mem_toList ihArguments, ihDirectives⟩, forall_mem_toList ihSelections⟩))
  | spread hHeadTokens _ ih =>
      exact .node (hHead hHeadTokens (hLeft hTokens)) (hPhrases (hRight hTokens) ih)
  | inline hHeadTokens _ _ ihDirectives ihSelections
  | fragment hHeadTokens _ _ ihDirectives ihSelections =>
      exact .node (hHead hHeadTokens (hLeft hTokens)) (hPhrases (hRight hTokens)
        (List.forall_mem_append.2 ⟨ihDirectives, by simpa using ihSelections⟩))
  | declaration default hHeadTokens _ _ _ _ ihDefault ihDirectives =>
      refine .node (hHead hHeadTokens (hLeft hTokens)) (List.forall_mem_append.2
        ⟨?_, hPhrases (hRight (hRight hTokens)) ihDirectives⟩)
      cases default with
      | none => simp [defaultPhrases]
      | some d =>
          have hDefault : d.1 :: d.2.1 <:+: all := by
            simpa [defaultTokens] using hLeft (hRight hTokens)
          have hValue : [d.1] ++ d.2.1 <:+: all := hDefault
          simpa [defaultPhrases] using ihDefault d rfl (hRight hValue)
  | shorthand _ ih => exact .node (hBlank _ _ rfl) (by simpa using ih hTokens)
  | operation hHeadTokens _ _ _ ihVariables ihDirectives ihSelections =>
      exact .node (hHead hHeadTokens (hLeft hTokens)) (hPhrases (hRight hTokens)
        (List.forall_mem_append.2 ⟨List.forall_mem_append.2
          ⟨forall_mem_toList ihVariables, ihDirectives⟩, by simpa using ihSelections⟩))
  | document hFirst _ ih =>
      rw [← hFirst] at hTokens
      exact .node (hBlank _ _ rfl) (hPhrases hTokens ih)

/-- A phrase that was read has no lost nodes. -/
theorem Forms.whole {x : Symbol} {phrase : Outline} (h : Forms x tokens phrase) : phrase.Whole :=
  h.all (fun _ _ => trivial) (fun _ _ _ => trivial) List.infix_rfl

/-- The kind of phrase that a production gives. -/
def Production.symbol : Production → Symbol
  | .document => .document
  | .operation | .namedFragment => .definition
  | .variableCollection => .variableDefinitions
  | .variable => .variableDefinition
  | .directive => .directive
  | .fieldCollection => .selectionSet
  | .field | .fragmentSpread | .inlineFragment => .selection
  | .inputItemCollection => .arguments
  | .inputItem => .argument
  | .scalarValue | .listValue | .complexValue | .enumValue | .nullValue | .variableValue => .value

/-- Every production reads the phrases of its kind. -/
theorem Production.reads :
    (production : Production) → Grammar.Reads production.parser (Forms production.symbol)
  | .document => fun s s' phrase hClosed h => by
      obtain ⟨tokens, hMoves, -, hForms⟩ := Grammar.document_reads hClosed h
      exact ⟨tokens, hMoves, hForms⟩
  | .operation => Grammar.operation_reads
  | .namedFragment => Grammar.namedFragment_reads
  | .variableCollection => Grammar.variableDefinitions_reads
  | .variable => Grammar.variableDefinition_reads
  | .directive => Grammar.directive_reads
  | .fieldCollection => Grammar.selectionSet_reads
  | .field => Grammar.field_reads Grammar.selectionSet_reads
  | .fragmentSpread => Grammar.fragmentSpread_reads
  | .inlineFragment => Grammar.inlineFragment_reads Grammar.selectionSet_reads
  | .inputItemCollection => Grammar.arguments_reads
  | .inputItem => Grammar.inputItem_reads Grammar.value_reads
  | .scalarValue => Grammar.scalarValue_reads
  | .listValue => Grammar.listValue_reads Grammar.value_reads
  | .complexValue =>
    Grammar.collection_reads .objectValue (Grammar.inputItem_reads Grammar.value_reads)
  | .enumValue => Grammar.enumValue_reads
  | .nullValue => Grammar.nullValue_reads
  | .variableValue => Grammar.variableValue_reads

/-- A production that succeeds puts one phrase under the parent, and the lexemes of the phrase are
exactly the tokens that the cursor went over. -/
theorem SyntaxTree.build_lexemes {tree tree' : SyntaxTree} {parent : NodeId} {node : Node}
    {production : Production} {stream stream' : TokenStream} (hParent : tree.node parent = .ok node)
    (hStream : stream.Reached source.text) (hPrimed : stream.primed = true)
    (h : tree.build parent production stream = .ok ⟨.ok (), tree', stream'⟩) :
    ∃ consumed, stream.remaining = consumed ++ stream'.remaining ∧
      tree'.node parent = .ok { node with children := node.children ++ [tree.size] } ∧
      (tree'.outline tree.size).lexemes source = consumed.map Token.text := by
  unfold SyntaxTree.build at h
  rw [except_bind_eq_ok] at h
  obtain ⟨_, -, h⟩ := h
  split at h
  · next phrase after hParser =>
      cases h
      obtain ⟨consumed, hMoves, hForms⟩ := production.reads (hStream.closed hPrimed) hParser
      have hSource : source.Has consumed := by
        refine List.IsInfix.trans ?_ (hStream.remaining.2 hPrimed).isInfix
        rw [hMoves.remaining]
        exact List.infix_append_left
      refine ⟨consumed, hMoves.remaining, node_graft hForms.whole hParent, ?_⟩
      rw [outline_graft hForms.whole]
      exact hForms.lexemes hSource
  · cases h

open TokenStream in
/-- A field with an alias is written back from the tree it was read into. -/
theorem SyntaxTree.build_lexemes_aliased :
    ∃ tree' stream', SyntaxTree.build {} ⟨0, 0⟩ .field (ofText "a:b").prime.2 =
        .ok ⟨.ok (), tree', stream'⟩ ∧
      ∃ consumed, (ofText "a:b").prime.2.remaining = consumed ++ stream'.remaining ∧
        tree'.node ⟨0, 0⟩ = .ok { label := { type := .empty, location := {} }, children := [1] } ∧
        (tree'.outline 1).lexemes { text := "a:b" } = consumed.map Token.text := by
  have hBuild : SyntaxTree.build {} ⟨0, 0⟩ .field (ofText "a:b").prime.2 = .ok ⟨.ok (),
      { nodes := #[{ label := { type := .empty, location := {} }, children := [1] },
          { label := { type := .field, primary := some ⟨2, 3⟩, secondary := some ⟨0, 1⟩
                       location := {} }
            parent := some 0 }] },
      { (ofText "a:b").prime.2 with
        current := .eofAt ⟨0, 3, 3, 3⟩, ahead := [], previousEnd := ⟨0, 3, 3, 3⟩ }⟩ := by
    with_unfolding_all rfl
  have hParent : SyntaxTree.node {} ⟨0, 0⟩ =
      .ok { label := { type := .empty, location := {} } } := by rfl
  have hStream : Reached ({ text := "a:b" } : Source).text (ofText "a:b").prime.2 :=
    .primed .opened
  have hPrimed : (ofText "a:b").prime.2.primed = true := by
    with_unfolding_all rfl
  exact ⟨_, _, hBuild, build_lexemes hParent hStream hPrimed hBuild⟩

end GraphQL
