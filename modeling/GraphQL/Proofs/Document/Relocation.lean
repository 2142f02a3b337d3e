import GraphQL.Proofs.Document.Assembly
import GraphQL.Proofs.Document.Unplaced
import GraphQL.Proofs.Grammar.Failure
import GraphQL.Proofs.Grammar.Relocation

/-! What is ignored between the tokens of a text matters to nothing but places. Texts with the same
words are one pattern of tokens, moved to two places: both are documents, with the same parts, or
neither is, for the same reason at the same token. -/
namespace GraphQL

variable {source other : Source} {tokens : List Token} {move shift : Relocation}

namespace TokenStream

/-- A stream whose cursor is at the first of some tokens. -/
def atFirst (tokens : List Token) : TokenStream :=
  { tokens, current := tokens.headD (.eofAt {}), ahead := tokens.tail, primed := true }

/-- A stream at the first of some tokens has all of them ahead. -/
theorem remaining_atFirst (h : tokens ≠ []) : (atFirst tokens).remaining = tokens := by
  obtain ⟨first, rest, rfl⟩ := List.exists_cons_of_ne_nil h
  rfl

/-- A stream at the first of the moved tokens is the stream moved. -/
theorem atFirst_relocate (h : tokens ≠ []) (hStart : move 0 = {}) :
    atFirst (tokens.map (Token.relocate move.position)) = (atFirst tokens).relocate move := by
  obtain ⟨first, rest, rfl⟩ := List.exists_cons_of_ne_nil h
  rw [relocate, show move.position (atFirst (first :: rest)).previousEnd = {} from hStart]
  rfl

/-- A text without faults is primed to its first token. -/
theorem prime_eq_atFirst {text : String} (h : ∀ t ∈ Token.lex text, t.kind.isError = false) :
    (ofText text).prime = (.ok (atFirst (Token.lex text)).current, atFirst (Token.lex text)) := by
  have hNonempty := (Token.lex_closed text).ne_nil
  rw [prime, raised_eq_ok, tokens_ofText]
  refine ⟨h _ ?_, rfl, rfl⟩
  rw [← remaining_atFirst hNonempty]
  exact List.mem_cons_self

end TokenStream

open TokenStream

/-- A word is the same wherever it lies. -/
theorem Token.word_relocate (move : Relocation) {token : Token} (h : token.kind.isError = false) :
    (token.relocate move.position).word = token.word :=
  congrArg (Prod.mk · token.text) (TokenKind.relocate_of_legal move token.kind h)

/-- Whether the tokens of a text are the given ones, moved. None of them is a fault. -/
structure Source.Realizes (source : Source) (tokens : List Token) (move : Relocation) : Prop where
  lex : tokens.map (Token.relocate move.position) = Token.lex source.text
  start : move 0 = {}
  legal : ∀ t ∈ Token.lex source.text, t.kind.isError = false

/-- A text realizes the pattern of its own words. -/
theorem Source.realizes (h : ∀ t ∈ Token.lex source.text, t.kind.isError = false) :
    source.Realizes (Token.pattern ((Token.lex source.text).map Token.word))
      (.onto (Token.lex source.text)) :=
  ⟨Token.relocate_pattern h, rfl, h⟩

namespace Source.Realizes

variable (h : source.Realizes tokens move)
include h

/-- The tokens of the pattern are closed. -/
theorem closed : Closed tokens := by
  obtain ⟨before, last, hLex, hLast, hBefore⟩ := h.lex ▸ Token.lex_closed source.text
  obtain ⟨start, finish, rfl, rfl, hFinish⟩ := List.map_eq_append_iff.1 hLex
  obtain ⟨token, rfl, rfl⟩ := List.map_eq_singleton_iff.1 hFinish
  refine ⟨start, token, rfl, (Token.kind_relocate_eq_iff move _ _ rfl).1 hLast, fun t ht => ?_⟩
  exact mt (Token.kind_relocate_eq_iff move _ _ rfl).2 (hBefore _ (List.mem_map_of_mem ht))

/-- The stream of the pattern is ready to be read. -/
theorem ready : (atFirst tokens).Ready tokens.length := by
  have hRemaining := remaining_atFirst h.closed.ne_nil
  refine ⟨hRemaining ▸ h.closed, ?_, Nat.le_of_eq (congrArg List.length hRemaining)⟩
  have hMem : (atFirst tokens).current ∈ (atFirst tokens).remaining := List.mem_cons_self
  rw [hRemaining] at hMem
  rw [← Token.isError_relocate move]
  exact h.legal _ (h.lex ▸ List.mem_map_of_mem hMem)

/-- A token of the pattern, where it is in the text. -/
theorem getElem? {i : Nat} {token : Token} (hToken : tokens[i]? = some token) :
    (Token.lex source.text)[i]? = some (token.relocate move.position) := by
  rw [← h.lex, List.getElem?_map, hToken]
  rfl

/-- What a text is read as, or why it is not read, is found where the tokens are. -/
theorem outline_eq : source.outline =
    match Grammar.document (atFirst tokens) with
    | .ok phrase _ => .ok (phrase.relocate move)
    | .error failure _ => .error ((failure.error.relocate move).atPath source.path) := by
  have hStream : atFirst (Token.lex source.text) = (atFirst tokens).relocate move := by
    rw [← h.lex, atFirst_relocate h.closed.ne_nil h.start]
  have hRelocates : Parser.Relocates move Grammar.document := Grammar.relocates_document
  have hDocument := hRelocates (atFirst tokens)
  simp only [outline, prime_eq_atFirst h.legal, hStream, hDocument]
  cases Grammar.document (atFirst tokens) <;> rfl

end Source.Realizes

/-- The end of the last of some tokens, or the start of a text. -/
def Token.endOf (tokens : List Token) : Position := (tokens.getLast?.map Token.stop).getD {}

/-- Whether the errors of two texts are at the same token: it is at that token itself, or before the
end of input, or from a `$` to the name after it. -/
inductive AtSameToken (tokens others : List Token) : Span → Span → Prop where
  | token {i : Nat} {t u : Token} (hToken : tokens[i]? = some t) (hOther : others[i]? = some u) :
      AtSameToken tokens others t.span u.span
  | ended {i : Nat} {t u : Token} (hToken : tokens[i]? = some t) (hOther : others[i]? = some u)
      (hEnd : t.kind = .eof) (hOtherEnd : u.kind = .eof) :
      AtSameToken tokens others (.emptyAt (Token.endOf (tokens.take i)))
        (.emptyAt (Token.endOf (others.take i)))
  | usage {i : Nat} {dollar name dollar' name' : Token} (hDollar : tokens[i]? = some dollar)
      (hName : tokens[i + 1]? = some name) (hOtherDollar : others[i]? = some dollar')
      (hOtherName : others[i + 1]? = some name') (hKind : dollar.kind = .dollar)
      (hOtherKind : dollar'.kind = .dollar) :
      AtSameToken tokens others ⟨dollar.start, name.stop⟩ ⟨dollar'.start, name'.stop⟩

/-- The end of the last token moves with the tokens. -/
theorem Token.endOf_relocate (hStart : move 0 = {}) (tokens : List Token) :
    endOf (tokens.map (relocate move.position)) = move.position (endOf tokens) := by
  rw [endOf, endOf, List.getLast?_map]
  cases tokens.getLast? with
  | none => exact hStart.symm
  | some last => rfl

namespace Source.Realizes

variable (h : source.Realizes tokens move) (h' : other.Realizes tokens shift)
include h h'

/-- An error at a token of the one text is at the token of the same number in the other. -/
theorem at_token {before after : List Token} {token : Token}
    (hTokens : tokens = before ++ token :: after) :
    AtSameToken (Token.lex source.text) (Token.lex other.text)
      (token.span.relocate move.position) (token.span.relocate shift.position) := by
  have hToken : tokens[before.length]? = some token := by simp [hTokens]
  exact .token (h.getElem? hToken) (h'.getElem? hToken)

/-- An error at the end is behind the last token in either text. -/
theorem at_end {before after : List Token} {last : Token}
    (hTokens : tokens = before ++ last :: after) (hLast : last.kind = .eof) :
    AtSameToken (Token.lex source.text) (Token.lex other.text)
      (.emptyAt (move.position (Token.endOf before)))
      (.emptyAt (shift.position (Token.endOf before))) := by
  have hToken : tokens[before.length]? = some last := by simp [hTokens]
  have hBefore {source : Source} {move : Relocation} (h : source.Realizes tokens move) :
      Token.endOf ((Token.lex source.text).take before.length) =
        move.position (Token.endOf before) := by
    rw [← h.lex, ← List.map_take, Token.endOf_relocate h.start, hTokens, List.take_left]
  rw [← hBefore h, ← hBefore h']
  exact .ended (h.getElem? hToken) (h'.getElem? hToken)
    ((Token.kind_relocate_eq_iff move _ _ rfl).2 hLast)
    ((Token.kind_relocate_eq_iff shift _ _ rfl).2 hLast)

/-- An error at a variable is at its two tokens in either text. -/
theorem at_usage {before after : List Token} {dollar name : Token}
    (hTokens : tokens = before ++ dollar :: name :: after) (hDollar : dollar.kind = .dollar) :
    AtSameToken (Token.lex source.text) (Token.lex other.text)
      (Span.relocate move.position ⟨dollar.start, name.stop⟩)
      (Span.relocate shift.position ⟨dollar.start, name.stop⟩) := by
  have hFirst : tokens[before.length]? = some dollar := by simp [hTokens]
  have hSecond : tokens[before.length + 1]? = some name := by simp [hTokens]
  exact .usage (h.getElem? hFirst) (h.getElem? hSecond) (h'.getElem? hFirst)
    (h'.getElem? hSecond) ((Token.kind_relocate_eq_iff move _ _ rfl).2 hDollar)
    ((Token.kind_relocate_eq_iff shift _ _ rfl).2 hDollar)

/-- A document of a pattern that fails does so at the same token wherever the pattern is. -/
theorem atSameToken {failure : Failure} {s : TokenStream}
    (hError : Grammar.document (atFirst tokens) = .error failure s) :
    AtSameToken (Token.lex source.text) (Token.lex other.text)
      (failure.error.span.relocate move.position) (failure.error.span.relocate shift.position) := by
  have hExplains := Grammar.explained_document (atFirst tokens) h.ready
  rw [hError] at hExplains
  obtain ⟨read, hPasses, -, hWhy⟩ := hExplains
  have hTokens : tokens = read ++ s.current :: s.ahead := by
    rw [← remaining_atFirst h.closed.ne_nil]
    exact hPasses.remaining
  have hPlace : s.previousEnd = Token.endOf read := hPasses.stop
  cases hKind : failure.error.kind with
  | lexical =>
      rw [hKind] at hWhy
      rw [hWhy.2]
      exact h.at_token h' hTokens
  | unexpectedToken | mismatchedDelimiter | reservedName =>
      rw [hKind] at hWhy
      rw [hWhy.2.2.1]
      exact h.at_token h' hTokens
  | unexpectedEnd | unclosedDelimiter =>
      rw [hKind] at hWhy
      obtain ⟨hEnd, hSpan, -⟩ := hWhy
      rw [hSpan, hPlace]
      exact h.at_end h' hTokens hEnd
  | invalidSyntax =>
      rw [hKind] at hWhy
      obtain ⟨-, hRefuses⟩ := hWhy
      generalize failure.error.span = span at hRefuses ⊢
      cases hRefuses with
      | @default start clear rest equals dollar name hStart hEquals hClear hDollar hName hValue =>
          have hAll : tokens = (start ++ equals :: clear) ++
              dollar :: name :: (rest ++ s.current :: s.ahead) := by
            rw [hTokens]
            simp
          exact h.at_usage h' hAll hDollar

end Source.Realizes

namespace Label

/-- Whether labels of two texts are of one type and say the same, wherever they say it. -/
structure SaysSame (source other : Source) (label label' : Label) : Prop where
  type : label'.type = label.type
  scalarKind : label'.scalarKind = label.scalarKind
  primary : label'.primary.map other.slice = label.primary.map source.slice
  secondary : label.type ≠ .variable →
    label'.secondary.map other.slice = label.secondary.map source.slice
  declared : label.type = .variable → label'.declaredType other = label.declaredType source

theorem primaryText_eq (label : Label) (source : Source) : label.primaryText source =
    match label.primary.map source.slice with
    | some text => .ok text
    | none => .error (.missingText label.type "primary") := by
  rw [primaryText]
  cases label.primary <;> rfl

theorem secondaryText_eq (label : Label) (source : Source) : label.secondaryText source =
    match label.secondary.map source.slice with
    | some text => .ok text
    | none => .error (.missingText label.type "secondary") := by
  rw [secondaryText]
  cases label.secondary <;> rfl

/-- Labels that say the same are the same part. -/
theorem SaysSame.partData {label label' : Label} (h : SaysSame source other label label')
    (context : Context) : label'.partData other context = label.partData source context := by
  have hPrimary : label'.primaryText other = label.primaryText source := by
    rw [primaryText_eq, primaryText_eq, h.primary, h.type]
  unfold Label.partData
  rw [h.type, h.scalarKind, hPrimary, operationType, operationType, h.primary]
  by_cases hVariable : label.type = .variable
  · rw [hVariable]
    simp only [h.declared hVariable]
  · have hSecondary := h.secondary hVariable
    have hSecondaryText : label'.secondaryText other = label.secondaryText source := by
      rw [secondaryText_eq, secondaryText_eq, hSecondary, h.type]
    cases hType : label.type <;> first
      | exact absurd hType hVariable
      | simp only [hSecondary, hSecondaryText]

end Label

/-- What tokens cover moves with them. -/
theorem Token.cover_relocate (move : Relocation) (h : tokens ≠ []) :
    cover (tokens.map (relocate move.position)) = move.range (cover tokens) := by
  obtain ⟨first, rest, rfl⟩ := List.exists_cons_of_ne_nil h
  rw [cover, cover, List.getLast?_map, List.getLast?_eq_some_getLast h]
  rfl

/-- A type is read as the same where its tokens were moved. -/
theorem IsType.read_relocate (h : IsType tokens)
    (hSource : source.Has (tokens.map (Token.relocate move.position)))
    (hOther : other.Has (tokens.map (Token.relocate shift.position))) :
    ∃ type, TypeExpr.read (source.slice (move.range (Token.cover tokens))) = .ok type ∧
      TypeExpr.read (other.slice (shift.range (Token.cover tokens))) = .ok type := by
  have hWords (move : Relocation) :
      (tokens.map (Token.relocate move.position)).map Token.word = tokens.map Token.word := by
    rw [List.map_map]
    exact List.map_congr_left fun t ht => Token.word_relocate move (h.sound t ht).1
  have hText : ∀ t ∈ tokens, ∀ word, t.kind.punctuator? = some word → t.text = word := by
    intro t ht word hWord
    refine hSource.text _ (List.mem_map_of_mem ht) word ?_
    rw [← hWord]
    exact congrArg TokenKind.punctuator?
      (congrArg Prod.fst (Token.word_relocate move (h.sound t ht).1))
  obtain ⟨type, hType⟩ := h.exists_words hText
  rw [← Token.cover_relocate move h.ne_nil, ← Token.cover_relocate shift h.ne_nil]
  exact ⟨type, hSource.read_cover ((hWords move).trans hType),
    hOther.read_cover ((hWords shift).trans hType)⟩

/-- What the first tokens of a phrase say does not depend on where they were moved. -/
theorem Head.saysSame {type : NodeType} {head : List Token} {label : Label}
    (h : Head type head label) (hSource : source.Has (head.map (Token.relocate move.position)))
    (hOther : other.Has (head.map (Token.relocate shift.position))) :
    Label.SaysSame source other (label.relocate move) (label.relocate shift) := by
  have hSlice : ∀ t ∈ head, other.slice (shift.range t.bytes) = source.slice (move.range t.bytes) :=
    fun t ht => (hOther.slice _ (List.mem_map_of_mem ht)).trans
      (hSource.slice _ (List.mem_map_of_mem ht)).symm
  cases h with
  | @declaration dollar name colon type hDollar hName hColon hType =>
      have hTypeSource : source.Has (([dollar, name, colon].map (Token.relocate move.position)) ++
        type.map (Token.relocate move.position)) := hSource
      have hTypeOther : other.Has (([dollar, name, colon].map (Token.relocate shift.position)) ++
        type.map (Token.relocate shift.position)) := hOther
      obtain ⟨declared, hRead, hOtherRead⟩ := hType.read_relocate hTypeSource.right hTypeOther.right
      have hNameSlice := hSlice name (by simp)
      refine ⟨rfl, rfl, congrArg some hNameSlice, fun hNot => absurd rfl hNot, fun _ => ?_⟩
      simp only [Label.declaredType, Label.secondaryText, Label.relocate, Option.map_some, bind,
        Except.bind, hRead, hOtherRead]
  | _ => constructor <;> simp [Label.relocate, hSlice]

/-- Phrases without tokens of their own say nothing. -/
theorem Label.saysSame_blank {type : NodeType} {location : Position} (h : type.mayBeBlank = true) :
    SaysSame source other (relocate move { type, location })
      (relocate shift { type, location }) := by
  refine ⟨rfl, rfl, rfl, fun _ => rfl, fun hVariable => ?_⟩
  rw [show type = .variable from hVariable] at h
  cases h

namespace Outline

/-- Whether all labels of a phrase say the same in two texts that it was moved to. -/
abbrev SaysSame (source other : Source) (move shift : Relocation) (phrase : Outline) : Prop :=
  phrase.All fun label => label.relocate move |>.SaysSame source other (label.relocate shift)

theorem map_unplaced_part (location : Position) (data : PartData)
    (below : Except AssemblyError (List PartTree)) :
    (below.map fun trees => [PartTree.node location data trees]).map PartTree.unplacedAll =
      (below.map PartTree.unplacedAll).map fun trees => [.node {} data trees] := by
  cases below <;> rfl

theorem map_unplaced_append (first others : Except AssemblyError (List PartTree)) :
    (do return (← first) ++ (← others) : Except AssemblyError (List PartTree)).map
        PartTree.unplacedAll =
      (do return (← first.map PartTree.unplacedAll) ++ (← others.map PartTree.unplacedAll)) := by
  cases first with
  | error error => rfl
  | ok trees =>
      cases others with
      | error error => rfl
      | ok more => exact congrArg Except.ok (PartTree.unplacedAll_append trees more)

mutual

/-- A phrase that says the same stands for the same parts, wherever they are. -/
theorem parts_relocate (context : Context) : (phrase : Outline) →
    SaysSame source other move shift phrase →
    ((phrase.relocate shift).parts other context).map PartTree.unplacedAll =
      ((phrase.relocate move).parts source context).map PartTree.unplacedAll
  | .missing _, _ => rfl
  | .node label children, h => by
      obtain ⟨hLabel, hChildren⟩ : Label.SaysSame source other (label.relocate move)
          (label.relocate shift) ∧ ∀ c ∈ children, SaysSame source other move shift c := by
        cases h with | node hLabel hChildren => exact ⟨hLabel, hChildren⟩
      have hType : (label.relocate shift).type = (label.relocate move).type := rfl
      rw [relocate, relocate, parts, parts, hType]
      cases context.group? (label.relocate move).type with
      | some inside => exact parts_relocateAll inside children hChildren
      | none =>
          rw [hLabel.partData]
          cases (label.relocate move).partData source context with
          | error error => rfl
          | ok data =>
              show (Except.map _ _).map _ = (Except.map _ _).map _
              rw [map_unplaced_part, map_unplaced_part]
              congr 1
              cases (label.relocate move).type.inside with
              | all inside => exact parts_relocateAll inside children hChildren
              | firstValue => exact parts_relocateFirst _ children hChildren
              | nothing => rfl

/-- The parts planned for moved phrases are the same but for their places. -/
theorem parts_relocateAll (context : Context) : (phrases : List Outline) →
    (∀ c ∈ phrases, SaysSame source other move shift c) →
    (partsAll other context (relocateAll shift phrases)).map PartTree.unplacedAll =
      (partsAll source context (relocateAll move phrases)).map PartTree.unplacedAll
  | [], _ => rfl
  | phrase :: rest, h => by
      obtain ⟨hPhrase, hRest⟩ := List.forall_mem_cons.1 h
      have hFirst := parts_relocate context phrase hPhrase
      have hOthers := parts_relocateAll context rest hRest
      rw [relocateAll, relocateAll, partsAll, partsAll, map_unplaced_append, map_unplaced_append,
        hFirst, hOthers]

theorem parts_relocateFirst (type : NodeType) : (phrases : List Outline) →
    (∀ c ∈ phrases, SaysSame source other move shift c) →
    (partsFirst other type (relocateAll shift phrases)).map PartTree.unplacedAll =
      (partsFirst source type (relocateAll move phrases)).map PartTree.unplacedAll
  | [], _ => rfl
  | phrase :: _, h => parts_relocate .value phrase (h phrase List.mem_cons_self)

end

end Outline

/-- A document of a pattern says the same in each text that it was moved to. -/
theorem Source.Realizes.saysSame (h : source.Realizes tokens move)
    (h' : other.Realizes tokens shift) {phrase : Outline} {s : TokenStream}
    (hPhrase : Grammar.document (atFirst tokens) = .ok phrase s) :
    phrase.SaysSame source other move shift := by
  have hRemaining := remaining_atFirst h.closed.ne_nil
  obtain ⟨read, hMoves, -, hForms⟩ := Grammar.document_reads (hRemaining ▸ h.closed) hPhrase
  have hRead : read <:+: tokens := by
    rw [← hRemaining, hMoves.remaining]
    exact List.infix_append_left
  have hHas {source : Source} {move : Relocation} {head : List Token}
      (h : source.Realizes tokens move) (hHead : head <:+: tokens) :
      source.Has (head.map (Token.relocate move.position)) := by
    rw [Source.Has, ← h.lex]
    exact hHead.map _
  exact hForms.all (fun hHead hInside => hHead.saysSame (hHas h hInside) (hHas h' hInside))
    (fun _ _ => Label.saysSame_blank) hRead

/-- The documents of texts with the same words are the same but for the places of their parts. -/
theorem Source.Realizes.document_eq (h : source.Realizes tokens move)
    (h' : other.Realizes tokens shift) {phrase : Outline} {s : TokenStream}
    (hPhrase : Grammar.document (atFirst tokens) = .ok phrase s) :
    ∃ document document' events, source.document = .ok (document, events) ∧
      other.document = .ok (document', events) ∧ document'.unplaced = document.unplaced := by
  have hOutline : source.outline = .ok (phrase.relocate move) := by
    rw [h.outline_eq, hPhrase]
  have hOther : other.outline = .ok (phrase.relocate shift) := by
    rw [h'.outline_eq, hPhrase]
  obtain ⟨-, hForms⟩ := Source.outline_eq_ok.1 hOutline
  obtain ⟨label, children, trees, hNode, -, hTrees⟩ :=
    hForms.parts_document (Token.beforeEnd_infix source.text)
  cases phrase with
  | missing index => cases hNode
  | node label children =>
      cases hNode
      have hChildren : ∀ c ∈ children, c.SaysSame source other move shift := by
        cases h.saysSame h' hPhrase with | node _ hChildren => exact hChildren
      have hParts := Outline.parts_relocateAll .document children hChildren
      rw [hTrees, Except.map, except_map_eq_ok] at hParts
      obtain ⟨others, hOthers, hSame⟩ := hParts
      have hUnplaced (location : Position) (trees : List PartTree) :
          (Progress.graftAll ⟨.empty location, []⟩ 0 trees).unplaced =
            Progress.graftAll ⟨.empty {}, []⟩ 0 (PartTree.unplacedAll trees) := by
        rw [Progress.unplaced_graftAll, Progress.unplaced, Document.unplaced_empty]
      have hProgress := (hUnplaced (shift.position label.location) others).trans
        (hSame ▸ (hUnplaced (move.position label.location) trees).symm)
      have hEvents := congrArg Progress.events hProgress
      refine ⟨_, _, _, Source.document_graft hOutline hTrees, ?_,
        congrArg Progress.document hProgress⟩
      rw [Source.document_graft hOther hOthers]
      exact congrArg (fun events => Except.ok (_, events)) hEvents

/-- What is ignored in texts matters to nothing but places. Of two texts without faults that have
the same words, either both are documents, which are the same but for the places of their parts, and
the same is told of their assembly; or neither is, with the same message and kind of error, at the
same token. -/
theorem Source.document_alike {source other : Source}
    (hLegal : ∀ t ∈ Token.lex source.text, t.kind.isError = false)
    (hWords : (Token.lex other.text).map Token.word = (Token.lex source.text).map Token.word) :
    (∃ document document' events, source.document = .ok (document, events) ∧
      other.document = .ok (document', events) ∧ document'.unplaced = document.unplaced) ∨
    ∃ error error', source.document = .error (.malformed error) ∧
      other.document = .error (.malformed error') ∧ error'.message = error.message ∧
      error'.kind = error.kind ∧
      AtSameToken (Token.lex source.text) (Token.lex other.text) error.span error'.span := by
  have hOtherLegal : ∀ t ∈ Token.lex other.text, t.kind.isError = false := by
    intro t ht
    obtain ⟨u, hu, hWord⟩ := List.mem_map.1 (hWords ▸ List.mem_map_of_mem ht)
    rw [← show u.kind = t.kind from congrArg Prod.fst hWord]
    exact hLegal u hu
  have h := Source.realizes hLegal
  have h' := Source.realizes hOtherLegal
  rw [hWords] at h'
  generalize Token.pattern ((Token.lex source.text).map Token.word) = tokens at h h'
  cases hResult : Grammar.document (atFirst tokens) with
  | ok phrase s => exact .inl (h.document_eq h' hResult)
  | error failure s =>
      have hOutline := h.outline_eq
      have hOther := h'.outline_eq
      rw [hResult] at hOutline hOther
      refine .inr ⟨(failure.error.relocate (.onto (Token.lex source.text))).atPath source.path,
        (failure.error.relocate (.onto (Token.lex other.text))).atPath other.path, ?_, ?_, rfl, rfl,
        h.atSameToken h' hResult⟩
      · rw [Source.document, hOutline]
      · rw [Source.document, hOther]

/-- The type of a variable, with a comment in it and spread over two lines. -/
theorem Source.document_alike_type :
    let source : Source := { text := "query($a:[Int]=1)\x7bb\x7d" }
    let other : Source := { text := "query($ a:[#c\nInt,]=1)\x7bb\x7d" }
    (∀ t ∈ Token.lex source.text, t.kind.isError = false) ∧
      (Token.lex other.text).map Token.word = (Token.lex source.text).map Token.word ∧
      ∃ document document' events, source.document = .ok (document, events) ∧
        other.document = .ok (document', events) ∧ document'.unplaced = document.unplaced := by
  intro source other
  have hLegal : ∀ t ∈ Token.lex source.text, t.kind.isError = false := by decide +kernel
  have hWords : (Token.lex other.text).map Token.word = (Token.lex source.text).map Token.word := by
    decide +kernel
  refine ⟨hLegal, hWords, ?_⟩
  rcases Source.document_alike hLegal hWords with hBoth | ⟨error, -, hError, -⟩
  · exact hBoth
  · have hRead : source.document.toOption.isSome = true := by decide +kernel
    rw [hError] at hRead
    cases hRead

end GraphQL
