import GraphQL.Proofs.Document.Rendering
import GraphQL.Proofs.Document.Sections
import GraphQL.Proofs.Document.Assembly

/-! Writing and reading back. The words of each kind of phrase form a phrase of that kind, which
stands for parts that are read as what was written. -/
namespace GraphQL

namespace Abstract

variable {source : Source}

/-- Some pieces of a kind stand for parts in a context. -/
structure Fill (source : Source) (context : Context) (x : Symbol) (pieces : List Piece)
    (trees : List PartTree) : Prop where
  forms : ∀ p ∈ pieces, Forms x p.1 p.2
  parts : Outline.partsAll source context (phrasesOf pieces) = .ok trees

/-- Tokens with these words are always one phrase, whose parts satisfy `P`. -/
def Stands (source : Source) (context : Context) (x : Symbol) (words : List Word)
    (P : List PartTree → Prop) : Prop :=
  ∀ tokens, tokens.map Token.word = words → source.Has tokens →
    ∃ phrase trees, Fill source context x [(tokens, phrase)] trees ∧ P trees

/-- Tokens with these words are always a phrase or none, whose parts satisfy `P`. -/
def MayStand (source : Source) (context : Context) (x : Symbol) (words : List Word)
    (P : List PartTree → Prop) : Prop :=
  ∀ tokens, tokens.map Token.word = words → source.Has tokens →
    ∃ (piece : Option Piece) (trees : List PartTree), tokensOf piece.toList = tokens ∧
      Fill source context x piece.toList trees ∧ P trees

/-- Tokens with these words are always a sequence of phrases, whose parts satisfy `P`. -/
def StandAll (source : Source) (context : Context) (x : Symbol) (words : List Word)
    (P : List PartTree → Prop) : Prop :=
  ∀ tokens, tokens.map Token.word = words → source.Has tokens →
    ∃ pieces trees, tokensOf pieces = tokens ∧ Fill source context x pieces trees ∧ P trees

/-- Some parts are one that is read as `a`. -/
def IsRead {α : Type} (read? : PartTree → Option α) (a : α) (trees : List PartTree) : Prop :=
  ∃ tree, trees = [tree] ∧ read? tree = some a

variable {context inside : Context} {x item : Symbol} {words more : List Word}
  {P Q : List PartTree → Prop}

theorem partsAll_append {first second : List Outline} {trees others : List PartTree}
    (hFirst : Outline.partsAll source context first = .ok trees)
    (hSecond : Outline.partsAll source context second = .ok others) :
    Outline.partsAll source context (first ++ second) = .ok (trees ++ others) :=
  Outline.partsAll_append_eq_ok.2 ⟨trees, others, hFirst, hSecond, rfl⟩

/-- A phrase fills a place on its own. -/
theorem Fill.one {tokens : List Token} {phrase : Outline} {trees : List PartTree}
    (hForms : Forms x tokens phrase) (hParts : phrase.parts source context = .ok trees) :
    Fill source context x [(tokens, phrase)] trees :=
  ⟨List.forall_mem_singleton.2 hForms, (Outline.partsAll_singleton ..).trans hParts⟩

/-- Two fillings, one behind the other, fill the place together. -/
theorem Fill.append {first second : List Piece} {trees others : List PartTree}
    (hFirst : Fill source context x first trees) (hSecond : Fill source context x second others) :
    Fill source context x (first ++ second) (trees ++ others) :=
  ⟨List.forall_mem_append.2 ⟨hFirst.forms, hSecond.forms⟩, by
    rw [phrasesOf_append]
    exact partsAll_append hFirst.parts hSecond.parts⟩

theorem StandAll.nil (hNil : P []) : StandAll source context x [] P := by
  intro tokens hWords _
  obtain rfl := List.map_eq_nil_iff.1 hWords
  exact ⟨[], [], rfl, ⟨by simp, rfl⟩, hNil⟩

/-- What stands first and what stands for the rest stand for all, whatever is read from the two. -/
theorem StandAll.cons {R : List PartTree → Prop} (hFirst : Stands source context x words P)
    (hRest : StandAll source context x more Q)
    (h : ∀ trees others, P trees → Q others → R (trees ++ others)) :
    StandAll source context x (words ++ more) R := by
  intro tokens hWords hSource
  obtain ⟨before, after, rfl, hBefore, hAfter⟩ := List.map_eq_append_iff.1 hWords
  obtain ⟨phrase, trees, hPhrase, hTrees⟩ := hFirst before hBefore hSource.left
  obtain ⟨pieces, others, rfl, hPieces, hOthers⟩ := hRest after hAfter hSource.right
  exact ⟨(before, phrase) :: pieces, trees ++ others, rfl, hPhrase.append hPieces,
    h trees others hTrees hOthers⟩

/-- What each of some items is read from is read as all of them. -/
theorem StandAll.flatMap_map {α β : Type} {write : α → List Word} {value : α → β}
    {read? : PartTree → Option β}
    (h : ∀ a, Stands source context x (write a) (IsRead read? (value a))) (items : List α) :
    StandAll source context x (items.flatMap write)
      fun trees => trees.mapM read? = some (items.map value) := by
  induction items with
  | nil => exact StandAll.nil rfl
  | cons a rest ih =>
      rw [List.flatMap_cons]
      refine StandAll.cons (h a) ih ?_
      rintro _ others ⟨tree, rfl, hTree⟩ hOthers
      simp [List.mapM_cons, hTree, hOthers]

/-- Items that stand one by one stand in a row, and are read back in order. -/
theorem StandAll.flatMap {α : Type} {write : α → List Word} {read? : PartTree → Option α}
    (h : ∀ a, Stands source context x (write a) (IsRead read? a)) (items : List α) :
    StandAll source context x (items.flatMap write)
      fun trees => trees.mapM read? = some items := by
  have hAll := StandAll.flatMap_map h items
  rwa [List.map_id'] at hAll

theorem word_eq_iff {token : Token} {kind : TokenKind} {text : String} :
    token.word = (kind, text) ↔ token.kind = kind ∧ token.text = text := Prod.mk.injEq .. ▸ Iff.rfl

/-- A sign has the kind that it is written for. -/
theorem kind_of_sign {token : Token} {kind : TokenKind} (h : token.word = Word.sign kind) :
    token.kind = kind := congrArg Prod.fst h

/-- What a token with a known word is, and what stands where it is. -/
theorem token_of_word {tokens : List Token} {token : Token} {kind : TokenKind} {text : String}
    (hSource : source.Has tokens) (hToken : token ∈ tokens) (h : token.word = (kind, text)) :
    token.kind = kind ∧ token.text = text ∧ source.slice token.bytes = text := by
  obtain ⟨hKind, hText⟩ := word_eq_iff.1 h
  exact ⟨hKind, hText, (hSource.slice token hToken).trans hText⟩

/-- Words between delimiters are split where the delimiters are. -/
theorem split_words {enclosure : Enclosure} {tokens : List Token}
    (h : tokens.map Token.word = enclosure.words words) :
    ∃ opening body closing, tokens = opening :: (body ++ [closing]) ∧
      opening.kind = enclosure.opener ∧ body.map Token.word = words ∧
      closing.kind = enclosure.closer := by
  obtain ⟨opening, rest, rfl, hOpening, hRest⟩ := List.map_eq_cons_iff.1 h
  obtain ⟨body, last, rfl, hBody, hLast⟩ := List.map_eq_append_iff.1 hRest
  obtain ⟨closing, rfl, hClosing⟩ := List.map_eq_singleton_iff.1 hLast
  exact ⟨opening, body, closing, rfl, kind_of_sign hOpening, hBody, kind_of_sign hClosing⟩

/-- Phrases between delimiters stand for what they stand for, where those are a group. -/
theorem Stands.group {type : NodeType} {enclosure : Enclosure}
    (hRule : Encloses x type enclosure item) (hGroup : context.group? type = some inside)
    (h : StandAll source inside item words P) :
    Stands source context x (enclosure.words words) P := by
  intro tokens hWords hSource
  obtain ⟨opening, body, closing, rfl, hOpen, hBody, hClose⟩ := split_words hWords
  have hAll : source.Has ([opening] ++ (body ++ [closing])) := hSource
  obtain ⟨pieces, trees, rfl, hPieces, hTrees⟩ := h body hBody hAll.right.left
  refine ⟨_, trees, Fill.one (.enclosed hRule hOpen hPieces.forms hClose) ?_, hTrees⟩
  rw [Outline.parts_group hGroup]
  exact hPieces.parts

/-- A group that is only written if there is something in it. -/
theorem MayStand.group {type : NodeType} {enclosure : Enclosure}
    (hRule : Encloses x type enclosure item) (hGroup : context.group? type = some inside)
    (h : StandAll source inside item words P) (hNone : words = [] → P []) :
    MayStand source context x (enclosure.wordsIfAny words) P := by
  intro tokens hWords hSource
  cases words with
  | nil =>
      obtain rfl := List.map_eq_nil_iff.1 hWords
      exact ⟨none, [], rfl, ⟨by simp, rfl⟩, hNone rfl⟩
  | cons word more =>
      obtain ⟨phrase, trees, hFill, hTrees⟩ :=
        Stands.group hRule hGroup h tokens hWords hSource
      exact ⟨some (tokens, phrase), trees, by simp, hFill, hTrees⟩

/-- A value is the same part in every context where one is admitted. -/
theorem partData_value {label : Label} (hValue : label.type.isValue = true)
    (hAdmits : context.admits label.type = true) :
    label.partData source context = label.partData source .value := by
  have hValueAdmits : Context.value.admits label.type = true := hValue
  unfold Label.partData
  simp only [hAdmits, hValueAdmits, Bool.not_true, Bool.false_eq_true, if_false]
  split <;> first | rfl | simp_all [NodeType.isValue]

/-- A phrase that is a value with nothing or some values in it. -/
theorem Stands.value {tokens : List Token} {label : Label} {children : List Outline}
    {data : SuppliedValue} {below : List PartTree} {value : Value}
    (hForms : Forms .value tokens (.node label children)) (hFits : context.fits .value = true)
    (hData : label.partData source .value = .ok (.suppliedValue data))
    (hBelow : Outline.partsInside source label.type children = .ok below)
    (hRead : Value.read? (.node label.location (.suppliedValue data) below) = some value) :
    ∃ phrase trees, Fill source context .value [(tokens, phrase)] trees ∧
      IsRead Value.read? value trees := by
  have hValue : label.type.isValue = true := hForms.isValue
  obtain ⟨hAdmits, hGroup⟩ := Context.admits_of_fits label.type hFits hValue
  rw [← partData_value hValue hAdmits] at hData
  exact ⟨_, _, Fill.one hForms (Outline.parts_part hGroup hData hBelow), _, rfl, hRead⟩

/-- A word that is a scalar wherever it stands. -/
theorem Stands.scalar {word : Word} (kind : ScalarKind) {value : Value}
    (hFits : context.fits .value = true)
    (hKind : ∀ token : Token, token.word = word → Grammar.scalarKindOf? token = some kind)
    (hRead : ∀ location,
      Value.read? (.node location (.suppliedValue (.scalar kind word.2)) []) = some value) :
    Stands source context .value [word] (IsRead Value.read? value) := by
  intro tokens hWords hSource
  obtain ⟨token, rfl, hToken⟩ := List.map_eq_singleton_iff.1 hWords
  obtain ⟨-, -, hSlice⟩ := token_of_word hSource (List.mem_singleton_self token) hToken
  refine Stands.value (.atom rfl (.scalar (hKind token hToken))) hFits rfl rfl ?_
  rw [hSlice]
  exact hRead token.start

/-- What a named value stands for: an argument, or a field in a complex value. -/
theorem Stands.argument {value : Value} (name : Name) (hFits : context.fits .argument = true)
    (h : Stands source .value .value value.words (IsRead Value.read? value)) :
    Stands source context .argument ([(.name, name.val), Word.sign .colon] ++ value.words)
      fun trees => ∃ location tree, trees = [.node location (if context = .complexValue then
        .inputObjectField name.val else .argument name.val) [tree]] ∧
          Value.read? tree = some value := by
  intro tokens hWords hSource
  obtain ⟨head, body, rfl, hHead, hBody⟩ := List.map_eq_append_iff.1 hWords
  obtain ⟨token, rest, rfl, hToken, hRest⟩ := List.map_eq_cons_iff.1 hHead
  obtain ⟨colon, rfl, hColon⟩ := List.map_eq_singleton_iff.1 hRest
  obtain ⟨hKind, -, hSlice⟩ := token_of_word hSource (by simp) hToken
  obtain ⟨phrase, _, hFill, tree, rfl, hTree⟩ := h body hBody hSource.right
  have hArgument : Head .inputItem [token, colon] _ := .argument hKind (kind_of_sign hColon)
  have hForms := @Forms.argument _ _ (body, phrase) hArgument (hFill.forms _ (by simp))
  obtain ⟨hAdmits, hGroup⟩ := Context.admits_of_fits .inputItem hFits rfl
  refine ⟨_, _, Fill.one hForms ?_, token.start, tree, rfl, hTree⟩
  rw [← hSlice]
  refine Outline.parts_part hGroup ?_ ((Outline.partsAll_singleton ..).symm.trans hFill.parts)
  unfold Label.partData
  simp only [hAdmits, Bool.not_true, Bool.false_eq_true, if_false]
  rfl

mutual

/-- The words of a value are a value that is read as it. -/
theorem Value.stands : (value : Value) → {context : Context} → context.fits .value = true →
    Stands source context .value value.words (IsRead Value.read? value)
  | .number text, context, hFits =>
      Stands.scalar .number hFits
        (fun token h => by simp [Grammar.scalarKindOf?, (word_eq_iff.1 h).1])
        (fun location => by simp [Value.read?])
  | .string text, context, hFits =>
      Stands.scalar .string hFits
        (fun token h => by simp [Grammar.scalarKindOf?, (word_eq_iff.1 h).1])
        (fun location => by simp [Value.read?])
  | .boolean value, context, hFits =>
      Stands.scalar .boolean hFits
        (fun token h => by
          obtain ⟨hKind, hText⟩ := word_eq_iff.1 h
          cases value <;> simp [Grammar.scalarKindOf?, hKind, hText])
        (fun location => by cases value <;> simp [Value.read?])
  | .null, context, hFits => by
      intro tokens hWords hSource
      obtain ⟨token, rfl, hToken⟩ := List.map_eq_singleton_iff.1 hWords
      have hWord : token.isWord "null" = true := Grammar.isWord_iff.2 (word_eq_iff.1 hToken)
      exact Stands.value (.atom rfl (.null hWord)) hFits rfl rfl rfl
  | .enumeration name, context, hFits => by
      intro tokens hWords hSource
      obtain ⟨token, rfl, hToken⟩ := List.map_eq_singleton_iff.1 hWords
      obtain ⟨hKind, hText, hSlice⟩ := token_of_word hSource (by simp) hToken
      have hOther : token.text ∉ ["true", "false", "null"] := hText ▸ name.property
      refine Stands.value (.atom rfl (.enumeration hKind hOther)) hFits rfl rfl ?_
      simp [hSlice, Value.read?]
  | .usage name, context, hFits => by
      intro tokens hWords hSource
      obtain ⟨dollar, rest, rfl, hDollar, hRest⟩ := List.map_eq_cons_iff.1 hWords
      obtain ⟨token, rfl, hToken⟩ := List.map_eq_singleton_iff.1 hRest
      obtain ⟨hKind, -, hSlice⟩ := token_of_word hSource (by simp) hToken
      refine Stands.value (.atom rfl (.variableUsage (kind_of_sign hDollar) hKind)) hFits rfl rfl ?_
      simp [hSlice, Value.read?]
  | .list items, context, hFits => by
      intro tokens hWords hSource
      obtain ⟨opening, body, closing, rfl, hOpen, hBody, hClose⟩ := split_words hWords
      have hAll : source.Has ([opening] ++ (body ++ [closing])) := hSource
      obtain ⟨pieces, trees, rfl, hPieces, hTrees⟩ := items_stand items body hBody hAll.right.left
      refine Stands.value (.enclosed .listValue hOpen hPieces.forms hClose) hFits rfl
        hPieces.parts ?_
      simp [Value.read?, hTrees]
  | .object fields, context, hFits => by
      intro tokens hWords hSource
      obtain ⟨opening, body, closing, rfl, hOpen, hBody, hClose⟩ := split_words hWords
      have hAll : source.Has ([opening] ++ (body ++ [closing])) := hSource
      obtain ⟨pieces, trees, rfl, hPieces, hTrees⟩ := fields_stand fields body hBody hAll.right.left
      refine Stands.value (.enclosed .objectValue hOpen hPieces.forms hClose) hFits rfl
        hPieces.parts ?_
      simp [Value.read?, hTrees]

/-- The items of a list stand for its values, by induction with the values in them. -/
theorem items_stand : (items : List Value) → StandAll source .value .value (itemWords items)
    fun trees => readItems? trees = some items
  | [] => StandAll.nil rfl
  | item :: rest => by
      rw [itemWords]
      refine StandAll.cons (item.stands rfl) (items_stand rest) ?_
      rintro _ others ⟨tree, rfl, hTree⟩ hOthers
      simp [readItems?, hTree, hOthers]

theorem fields_stand : (fields : List (Name × Value)) →
    StandAll source .complexValue .argument (fieldWords fields)
      fun trees => readFields? trees = some fields
  | [] => StandAll.nil rfl
  | (name, value) :: rest => by
      rw [fieldWords]
      refine StandAll.cons (Stands.argument name rfl (value.stands rfl)) (fields_stand rest) ?_
      rintro _ others ⟨location, tree, rfl, hTree⟩ hOthers
      simp [readFields?, hTree, hOthers]

end

/-- The part of a phrase with tokens of its own, all of whose contents are walked over. -/
theorem Fill.part {type : NodeType} {tokens head : List Token} {label : Label}
    {children : List Outline} {data : PartData} {below : List PartTree}
    (hHead : Head type head label) (hForms : Forms x tokens (.node label children))
    (hFits : context.fits x = true) (hGives : x.gives type = true)
    (hInside : type.inside = .all inside)
    (hData : label.partData source context = .ok data)
    (hBelow : Outline.partsAll source inside children = .ok below) :
    Fill source context x [(tokens, .node label children)] [.node label.location data below] := by
  obtain ⟨-, hGroup⟩ := Context.admits_of_fits type hFits hGives
  have hParts : Outline.partsInside source label.type children = .ok below := by
    rw [Outline.partsInside, hHead.type, hInside]
    exact hBelow
  exact Fill.one hForms (Outline.parts_part (by rw [hHead.type, hGroup]) hData hParts)

theorem Argument.stands (argument : Argument) :
    Stands source .arguments .argument argument.words (IsRead Argument.read? argument) := by
  intro tokens hWords hSource
  have hFits : Context.arguments.fits .argument = true := rfl
  obtain ⟨phrase, _, hFill, location, tree, rfl, hTree⟩ :=
    Stands.argument argument.1 hFits (argument.2.stands rfl) tokens hWords hSource
  exact ⟨phrase, _, hFill, _, rfl, by simp [Argument.read?, hTree]⟩

/-- Arguments may be left out if there are none. -/
theorem arguments_mayStand (arguments : List Argument)
    (hGroup : context.group? .inputItemCollection = some .arguments) :
    MayStand source context .arguments (argumentWords arguments)
      fun trees => trees.mapM Argument.read? = some arguments := by
  refine MayStand.group .arguments hGroup (StandAll.flatMap Argument.stands arguments) ?_
  intro hNone
  cases arguments with
  | nil => rfl
  | cons first rest => simp [Argument.words] at hNone

/-- A directive stands for its name and arguments, wherever directives fit. -/
theorem Directive.stands (hFits : context.fits .directive = true) (directive : Directive) :
    Stands source context .directive directive.words (IsRead Directive.read? directive) := by
  intro tokens hWords hSource
  obtain ⟨head, body, rfl, hHead, hBody⟩ := List.map_eq_append_iff.1 hWords
  obtain ⟨sign, rest, rfl, hSign, hRest⟩ := List.map_eq_cons_iff.1 hHead
  obtain ⟨token, rfl, hToken⟩ := List.map_eq_singleton_iff.1 hRest
  obtain ⟨hKind, -, hSlice⟩ := token_of_word hSource (by simp) hToken
  have hGroup : Context.directive.group? .inputItemCollection = some .arguments := rfl
  obtain ⟨piece, trees, rfl, hFill, hTrees⟩ :=
    arguments_mayStand directive.arguments hGroup body hBody hSource.right
  have hHead := Head.directive (kind_of_sign hSign) hKind
  have hForms := Forms.directive hHead fun p hp => hFill.forms p (Option.mem_toList.2 hp)
  have hData : ({ type := .directive, primary := some token.bytes, location := sign.start } :
      Label).partData source context = .ok (.directive directive.name.val) := by
    obtain ⟨hAdmits, -⟩ := Context.admits_of_fits .directive hFits rfl
    rw [← hSlice]
    unfold Label.partData
    simp only [hAdmits, Bool.not_true, Bool.false_eq_true, if_false]
    rfl
  exact ⟨_, _, Fill.part hHead hForms hFits rfl rfl hData hFill.parts, _, rfl, by
    simp [Directive.read?, hTrees]⟩

theorem directives_stand (hFits : context.fits .directive = true) (directives : List Directive) :
    StandAll source context .directive (directiveWords directives)
      fun trees => trees.mapM Directive.read? = some directives :=
  StandAll.flatMap (Directive.stands hFits) directives

/-- Delimiters bring no variable in. -/
theorem enclosed_constant {enclosure : Enclosure} (h : ∀ w ∈ words, w.1 ≠ .dollar) :
    ∀ w ∈ enclosure.words words, w.1 ≠ .dollar := by
  refine List.forall_mem_cons.2 ⟨?_, List.forall_mem_append.2 ⟨h, List.forall_mem_singleton.2 ?_⟩⟩
  · cases enclosure <;> exact nofun
  · cases enclosure <;> exact nofun

mutual

/-- A constant is written without the sign of variables. -/
theorem Value.words_constant : (value : Value) → value.isConstant = true →
    ∀ w ∈ value.words, w.1 ≠ .dollar
  | .number _, _ | .string _, _ | .boolean _, _ | .null, _ | .enumeration _, _ => by
      simp [Value.words]
  | .usage _, h => nomatch h
  | .list items, h => enclosed_constant (itemWords_constant items h)
  | .object fields, h => enclosed_constant (fieldWords_constant fields h)

/-- A list of constants is written without variables. -/
theorem itemWords_constant : (items : List Value) → areConstant items = true →
    ∀ w ∈ itemWords items, w.1 ≠ .dollar
  | [], _ => by simp [itemWords]
  | item :: rest, h => by
      obtain ⟨hItem, hRest⟩ := Bool.and_eq_true_iff.1 h
      exact List.forall_mem_append.2 ⟨item.words_constant hItem, itemWords_constant rest hRest⟩

/-- An object of constants is written without variables. -/
theorem fieldWords_constant : (fields : List (Name × Value)) → haveConstants fields = true →
    ∀ w ∈ fieldWords fields, w.1 ≠ .dollar
  | [], _ => by simp [fieldWords]
  | (name, value) :: rest, h => by
      obtain ⟨hValue, hRest⟩ := Bool.and_eq_true_iff.1 h
      exact List.forall_mem_append.2 ⟨List.forall_mem_append.2 ⟨by simp [Word.sign],
        value.words_constant hValue⟩, fieldWords_constant rest hRest⟩

end

/-- What the default of a variable stands for, if there is one. -/
theorem default_stands (default : Option { value : Value // value.isConstant = true })
    {tokens : List Token}
    (hWords : tokens.map Token.word =
      default.toList.flatMap fun value => Word.sign .equals :: value.val.words)
    (hSource : source.Has tokens) :
    ∃ (read : Option (Token × Piece)) (trees : List PartTree), defaultTokens read = tokens ∧
      (∀ d ∈ read, d.1.kind = .equals ∧ Constant d.2.1 ∧ Forms .value d.2.1 d.2.2) ∧
      Outline.partsAll source .variable (defaultPhrases read) = .ok trees ∧
      readDefault? trees = some default ∧ ∀ t ∈ trees, t.data.type.isSuppliedValue = true := by
  cases default with
  | none =>
      obtain rfl := List.map_eq_nil_iff.1 hWords
      exact ⟨none, [], rfl, by simp, rfl, rfl, by simp⟩
  | some value =>
      simp only [Option.toList_some, List.flatMap_cons, List.flatMap_nil, List.append_nil] at hWords
      obtain ⟨sign, body, rfl, hSign, hBody⟩ := List.map_eq_cons_iff.1 hWords
      have hAll : source.Has ([sign] ++ body) := hSource
      have hFits : Context.variable.fits .value = true := rfl
      obtain ⟨phrase, _, hFill, tree, rfl, hTree⟩ :=
        value.val.stands hFits body hBody hAll.right
      have hConstant : Constant body := by
        intro token hToken
        have hWord : token.word ∈ value.val.words := hBody ▸ List.mem_map_of_mem hToken
        exact value.val.words_constant value.property _ hWord
      refine ⟨some (sign, body, phrase), [tree], by simp [defaultTokens], ?_, hFill.parts, ?_, ?_⟩
      · rintro d ⟨⟩
        exact ⟨kind_of_sign hSign, hConstant, hFill.forms (body, phrase) (by simp)⟩
      · simp [readDefault?, hTree, value.property]
      · simpa using Value.type_of_read? hTree

/-- A variable stands for its name, type, default and directives. -/
theorem VariableDefinition.stands (written : VariableDefinition) :
    Stands source .variables .variableDefinition written.words
      (IsRead VariableDefinition.read? written) := by
  intro tokens hWords hSource
  obtain ⟨front, directiveTokens, rfl, hFront, hDirectives⟩ := List.map_eq_append_iff.1 hWords
  obtain ⟨head, defaultTokens', rfl, hHead, hDefault⟩ := List.map_eq_append_iff.1 hFront
  obtain ⟨names, type, rfl, hNames, hType⟩ := List.map_eq_append_iff.1 hHead
  obtain ⟨dollar, rest, rfl, hDollar, hRest⟩ := List.map_eq_cons_iff.1 hNames
  obtain ⟨token, rest, rfl, hToken, hRest⟩ := List.map_eq_cons_iff.1 hRest
  obtain ⟨colon, rfl, hColon⟩ := List.map_eq_singleton_iff.1 hRest
  obtain ⟨hKind, -, hSlice⟩ := token_of_word hSource (by simp) hToken
  obtain ⟨default, defaults, rfl, hFormed, hDefaults, hRead, hTypes⟩ :=
    default_stands written.default hDefault hSource.left.right
  have hFits : Context.variable.fits .directive = true := rfl
  obtain ⟨pieces, directives, rfl, hFill, hDirectivesRead⟩ :=
    directives_stand hFits written.directives directiveTokens hDirectives hSource.right
  have hDeclaration := Head.declaration (kind_of_sign hDollar) hKind (kind_of_sign hColon)
    (isType_of_words hType)
  have hForms := Forms.declaration default hDeclaration (fun d hd => (hFormed d hd).1)
    (fun d hd => (hFormed d hd).2.1) (fun d hd => (hFormed d hd).2.2) hFill.forms
  have hDeclared := hSource.left.left.right.read_cover hType
  have hContext : Context.variables.fits .variableDefinition = true := rfl
  have hBelow := partsAll_append hDefaults hFill.parts
  have hData : ({ type := .variable, primary := some token.bytes
                  secondary := some (Token.cover type), location := dollar.start } :
      Label).partData source .variables =
        .ok (.variable written.name.val written.type.val) := by
    refine except_bind_eq_ok.2 ⟨written.name.val, ?_, except_bind_eq_ok.2 ⟨_, ?_, rfl⟩⟩
    · rw [← hSlice]
      rfl
    · refine except_bind_eq_ok.2 ⟨_, rfl, ?_⟩
      rw [hDeclared]
      rfl
  rw [List.append_assoc]
  exact ⟨_, _, Fill.part hDeclaration hForms hContext rfl rfl hData hBelow, _, rfl,
    written.read?_node dollar.start hRead hTypes hDirectivesRead⟩

/-- The tokens before the arguments of a field say its name and alias. -/
theorem field_head {aliasName : Option Name} {name : Name} {tokens : List Token}
    (hWords : tokens.map Token.word = (aliasName.toList.flatMap fun other =>
      [(.name, other.val), Word.sign .colon]) ++ [(.name, name.val)])
    (hSource : source.Has tokens) :
    ∃ label, Head .field tokens label ∧ label.partData source .selections =
      .ok (.field name.val (aliasName.map Subtype.val)) := by
  cases aliasName with
  | none =>
      obtain ⟨token, rfl, hToken⟩ := List.map_eq_singleton_iff.1 hWords
      obtain ⟨hKind, -, hSlice⟩ := token_of_word hSource (by simp) hToken
      refine ⟨_, .field hKind, ?_⟩
      rw [← hSlice]
      rfl
  | some other =>
      simp only [Option.toList_some, List.flatMap_cons, List.flatMap_nil, List.append_nil,
        List.cons_append, List.nil_append] at hWords
      obtain ⟨first, rest, rfl, hFirst, hRest⟩ := List.map_eq_cons_iff.1 hWords
      obtain ⟨colon, rest, rfl, hColon, hRest⟩ := List.map_eq_cons_iff.1 hRest
      obtain ⟨token, rfl, hToken⟩ := List.map_eq_singleton_iff.1 hRest
      obtain ⟨hAliasKind, -, hAliasSlice⟩ := token_of_word hSource (by simp) hFirst
      obtain ⟨hKind, -, hSlice⟩ := token_of_word hSource (by simp) hToken
      refine ⟨_, .aliasedField hAliasKind (kind_of_sign hColon) hKind, ?_⟩
      rw [Option.map_some, ← hSlice, ← hAliasSlice]
      rfl

/-- The tokens before the directives of an inline fragment say its type condition. -/
theorem inline_head {condition : Option Name} {tokens : List Token}
    (hWords : tokens.map Token.word = [Word.sign .ellipsis] ++
      condition.toList.flatMap fun type => [(.name, "on"), (.name, type.val)])
    (hSource : source.Has tokens) :
    ∃ label, Head .inlineFragment tokens label ∧ label.partData source .selections =
      .ok (.inlineFragment (condition.map Subtype.val)) := by
  cases condition with
  | none =>
      obtain ⟨dots, rfl, hDots⟩ := List.map_eq_singleton_iff.1 hWords
      exact ⟨_, .inline (kind_of_sign hDots), rfl⟩
  | some type =>
      simp only [Option.toList_some, List.flatMap_cons, List.flatMap_nil, List.append_nil,
        List.cons_append, List.nil_append] at hWords
      obtain ⟨dots, rest, rfl, hDots, hRest⟩ := List.map_eq_cons_iff.1 hWords
      obtain ⟨on, rest, rfl, hOn, hRest⟩ := List.map_eq_cons_iff.1 hRest
      obtain ⟨token, rfl, hToken⟩ := List.map_eq_singleton_iff.1 hRest
      obtain ⟨hKind, -, hSlice⟩ := token_of_word hSource (by simp) hToken
      have hWord : on.isWord "on" = true := Grammar.isWord_iff.2 (word_eq_iff.1 hOn)
      refine ⟨_, .conditionedInline (kind_of_sign hDots) hWord hKind, ?_⟩
      rw [Option.map_some, ← hSlice]
      rfl

/-- What directives and a selection set after them stand for. -/
theorem body_stands {directives : List Directive} {selections : List Selection}
    (hFits : context.fits .directive = true)
    (hGroup : context.group? .fieldCollection = some .selections)
    (hAll : StandAll source .selections .selection (selectionWords selections)
      fun trees => readSelections? 0 trees = some selections)
    {tokens : List Token} (hWords : tokens.map Token.word =
      directiveWords directives ++ Enclosure.selectionSet.words (selectionWords selections))
    (hSource : source.Has tokens) :
    ∃ (pieces : List Piece) (piece : Piece) (marks set : List PartTree),
      tokensOf (pieces ++ [piece]) = tokens ∧
      (∀ p ∈ pieces, Forms .directive p.1 p.2) ∧ Forms .selectionSet piece.1 piece.2 ∧
      Outline.partsAll source context (phrasesOf (pieces ++ [piece])) = .ok (marks ++ set) ∧
      marks.mapM Directive.read? = some directives ∧ readSelections? 0 set = some selections := by
  obtain ⟨markTokens, setTokens, rfl, hMarks, hSet⟩ := List.map_eq_append_iff.1 hWords
  obtain ⟨pieces, marks, rfl, hMarkFill, hMarksRead⟩ :=
    directives_stand hFits directives markTokens hMarks hSource.left
  obtain ⟨phrase, set, hSetFill, hSetRead⟩ :=
    Stands.group .selectionSet hGroup hAll setTokens hSet hSource.right
  refine ⟨pieces, (setTokens, phrase), marks, set, by simp, hMarkFill.forms,
    hSetFill.forms (setTokens, phrase) (by simp), ?_, hMarksRead, hSetRead⟩
  rw [phrasesOf_append]
  exact partsAll_append hMarkFill.parts hSetFill.parts

mutual

/-- The words of a selection are a selection that is read as it. -/
theorem Selection.stands : (selection : Selection) →
    Stands source .selections .selection selection.words (IsRead Selection.read? selection)
  | .field aliasName name arguments directives selections => by
      intro tokens hWords hSource
      obtain ⟨front, setTokens, rfl, hFront, hSet⟩ := List.map_eq_append_iff.1 hWords
      obtain ⟨front, markTokens, rfl, hFront, hMarks⟩ := List.map_eq_append_iff.1 hFront
      obtain ⟨head, argumentTokens, rfl, hHead, hArguments⟩ := List.map_eq_append_iff.1 hFront
      obtain ⟨label, hLabel, hData⟩ := field_head hHead hSource.left.left.left
      have hArgumentGroup : Context.field.group? .inputItemCollection = some .arguments := rfl
      have hSetGroup : Context.field.group? .fieldCollection = some .selections := rfl
      have hFits : Context.field.fits .directive = true := rfl
      obtain ⟨argument, written, rfl, hArgumentFill, hWritten⟩ := arguments_mayStand arguments
        hArgumentGroup argumentTokens hArguments hSource.left.left.right
      obtain ⟨pieces, marks, rfl, hMarkFill, hMarksRead⟩ :=
        directives_stand hFits directives markTokens hMarks hSource.left.right
      obtain ⟨piece, set, rfl, hSetFill, hSetRead⟩ := MayStand.group .selectionSet hSetGroup
        (selections_stand selections) readSelections?_nil setTokens hSet hSource.right
      have hForms := Forms.field hLabel
        (fun p hp => hArgumentFill.forms p (Option.mem_toList.2 hp)) hMarkFill.forms
        (fun p hp => hSetFill.forms p (Option.mem_toList.2 hp))
      have hParts := partsAll_append hArgumentFill.parts
        (partsAll_append hMarkFill.parts hSetFill.parts)
      rw [← phrasesOf_append, ← phrasesOf_append, ← List.append_assoc] at hParts
      have hRead := Selection.read?_field aliasName name label.location hWritten hMarksRead hSetRead
      have hContext : Context.selections.fits .selection = true := rfl
      have hFill := Fill.part hLabel hForms hContext rfl rfl hData hParts
      simp only [tokensOf_append, ← List.append_assoc] at hFill
      exact ⟨_, _, hFill, _, rfl, by simpa using hRead⟩
  | .spread fragment directives => by
      intro tokens hWords hSource
      obtain ⟨head, markTokens, rfl, hHead, hMarks⟩ := List.map_eq_append_iff.1 hWords
      obtain ⟨dots, rest, rfl, hDots, hRest⟩ := List.map_eq_cons_iff.1 hHead
      obtain ⟨token, rfl, hToken⟩ := List.map_eq_singleton_iff.1 hRest
      obtain ⟨hKind, hText, hSlice⟩ := token_of_word hSource (by simp) hToken
      have hFits : Context.fragmentSpread.fits .directive = true := rfl
      obtain ⟨pieces, marks, rfl, hMarkFill, hMarksRead⟩ :=
        directives_stand hFits directives markTokens hMarks hSource.right
      have hNotOn : token.text ≠ "on" := by simpa [hText] using fragment.property
      have hLabel := Head.spread (kind_of_sign hDots) hKind hNotOn
      have hForms := Forms.spread hLabel hMarkFill.forms
      have hContext : Context.selections.fits .selection = true := rfl
      refine ⟨_, _, Fill.part hLabel hForms hContext rfl rfl rfl hMarkFill.parts, _, rfl, ?_⟩
      simp [Selection.read?, hSlice, hMarksRead]
  | .inline condition directives selections => by
      intro tokens hWords hSource
      obtain ⟨head, body, rfl, hHead, hBody⟩ := List.map_eq_append_iff.1 hWords
      obtain ⟨label, hLabel, hData⟩ := inline_head hHead hSource.left
      have hSetGroup : Context.inlineFragment.group? .fieldCollection = some .selections := rfl
      have hFits : Context.inlineFragment.fits .directive = true := rfl
      obtain ⟨pieces, piece, marks, set, rfl, hMarks, hSet, hParts, hMarksRead, hSetRead⟩ :=
        body_stands hFits hSetGroup (selections_stand selections) hBody hSource.right
      have hForms := Forms.inline hLabel hMarks hSet
      have hContext : Context.selections.fits .selection = true := rfl
      exact ⟨_, _, Fill.part hLabel hForms hContext rfl rfl hData hParts, _, rfl,
        Selection.read?_inline condition label.location hMarksRead hSetRead⟩

/-- Selections stand for themselves in order, at any depth. -/
theorem selections_stand : (selections : List Selection) →
    StandAll source .selections .selection (selectionWords selections)
      fun trees => readSelections? 0 trees = some selections
  | [] => StandAll.nil rfl
  | selection :: rest => by
      rw [selectionWords]
      refine StandAll.cons selection.stands (selections_stand rest) ?_
      rintro _ others ⟨tree, rfl, hTree⟩ hOthers
      simp [readSelections?, hTree, hOthers]

end

theorem keyword_mem (type : OperationType) : type.keyword ∈ Grammar.operationWords := by
  cases type <;> decide

/-- The keyword of an operation tells its type. -/
theorem ofKeyword?_keyword (type : OperationType) :
    OperationType.ofKeyword? type.keyword = some type := by
  cases type <;> rfl

/-- The tokens before the variables of an operation say what operation it is and its name. -/
theorem operation_head {type : OperationType} {name : Option Name} {tokens : List Token}
    (hWords : tokens.map Token.word =
      [(.name, type.keyword)] ++ name.toList.map fun name => (.name, name.val))
    (hSource : source.Has tokens) :
    ∃ label, Head .operation tokens label ∧ label.partData source .document =
      .ok (.operation type (name.map Subtype.val)) := by
  cases name with
  | none =>
      obtain ⟨keyword, rfl, hKeyword⟩ := List.map_eq_singleton_iff.1 hWords
      obtain ⟨hKind, hText, hSlice⟩ := token_of_word hSource (by simp) hKeyword
      refine ⟨_, .operation hKind (hText ▸ keyword_mem type), ?_⟩
      refine except_bind_eq_ok.2 ⟨type, ?_, rfl⟩
      simp [Label.operationType, hSlice, ofKeyword?_keyword]
  | some name =>
      obtain ⟨keyword, rest, rfl, hKeyword, hRest⟩ := List.map_eq_cons_iff.1 hWords
      obtain ⟨token, rfl, hToken⟩ := List.map_eq_singleton_iff.1 hRest
      obtain ⟨hKind, hText, hSlice⟩ := token_of_word hSource (by simp) hKeyword
      obtain ⟨hNameKind, -, hNameSlice⟩ := token_of_word hSource (by simp) hToken
      refine ⟨_, .namedOperation hKind (hText ▸ keyword_mem type) hNameKind, ?_⟩
      rw [Option.map_some, ← hNameSlice]
      refine except_bind_eq_ok.2 ⟨type, ?_, rfl⟩
      simp [Label.operationType, hSlice, ofKeyword?_keyword]

/-- The words of a definition are a definition that is read as it in full. -/
theorem Definition.stands (definition : Definition) :
    Stands source .document .definition definition.words
      (IsRead Definition.read? definition.spelledOut) := by
  intro tokens hWords hSource
  have hContext : Context.document.fits .definition = true := rfl
  have hFits : Context.operation.fits .directive = true := rfl
  have hGroup : Context.operation.group? .fieldCollection = some .selections := rfl
  cases definition with
  | anonymous selections =>
      obtain ⟨phrase, set, hSetFill, hSetRead⟩ :=
        Stands.group .selectionSet hGroup (selections_stand selections) tokens hWords hSource
      obtain ⟨opening, body, closing, rfl, -⟩ := split_words hWords
      have hForms := Forms.shorthand (hSetFill.forms _ (List.mem_singleton_self _))
      have hPart := Outline.parts_shorthand hContext opening.start
        ((Outline.partsAll_singleton ..).symm.trans hSetFill.parts)
      have hRead := @Definition.read?_operation [] [] set [] [] selections .query none
        opening.start rfl rfl hSetRead
      exact ⟨_, _, Fill.one hForms hPart, _, rfl, hRead⟩
  | operation type name declared directives selections =>
      obtain ⟨front, body, rfl, hFront, hBody⟩ := List.map_eq_append_iff.1 hWords
      obtain ⟨head, variableTokens, rfl, hHead, hVariables⟩ := List.map_eq_append_iff.1 hFront
      obtain ⟨label, hLabel, hData⟩ := operation_head hHead hSource.left.left
      have hVariableGroup : Context.operation.group? .variableCollection = some .variables := rfl
      obtain ⟨variablePiece, written, rfl, hVariableFill, hWritten⟩ :=
        MayStand.group .variableDefinitions hVariableGroup
          (StandAll.flatMap VariableDefinition.stands declared) (by
            intro hNone
            cases declared with
            | nil => rfl
            | cons first rest => simp [VariableDefinition.words] at hNone)
          variableTokens hVariables hSource.left.right
      obtain ⟨pieces, piece, marks, set, rfl, hMarks, hSet, hParts, hMarksRead, hSetRead⟩ :=
        body_stands hFits hGroup (selections_stand selections) hBody hSource.right
      have hForms := Forms.operation hLabel
        (fun p hp => hVariableFill.forms p (Option.mem_toList.2 hp)) hMarks hSet
      have hAll := partsAll_append hVariableFill.parts hParts
      rw [← phrasesOf_append, ← List.append_assoc] at hAll
      have hFill := Fill.part hLabel hForms hContext rfl rfl hData hAll
      rw [List.append_assoc, tokensOf_append, ← List.append_assoc] at hFill
      exact ⟨_, _, hFill, _, rfl, Definition.read?_operation type name label.location hWritten
        hMarksRead hSetRead⟩
  | fragment name condition directives selections =>
      obtain ⟨head, body, rfl, hHead, hBody⟩ := List.map_eq_append_iff.1 hWords
      obtain ⟨keyword, rest, rfl, hKeyword, hRest⟩ := List.map_eq_cons_iff.1 hHead
      obtain ⟨token, rest, rfl, hToken, hRest⟩ := List.map_eq_cons_iff.1 hRest
      obtain ⟨on, rest, rfl, hOn, hRest⟩ := List.map_eq_cons_iff.1 hRest
      obtain ⟨type, rfl, hType⟩ := List.map_eq_singleton_iff.1 hRest
      obtain ⟨hKind, hText, hSlice⟩ := token_of_word hSource (by simp) hToken
      obtain ⟨hTypeKind, -, hTypeSlice⟩ := token_of_word hSource (by simp) hType
      have hNotOn : token.text ≠ "on" := by simpa [hText] using name.property
      have hLabel := Head.fragment (Grammar.isWord_iff.2 (word_eq_iff.1 hKeyword)) hKind hNotOn
        (Grammar.isWord_iff.2 (word_eq_iff.1 hOn)) hTypeKind
      have hFragmentFits : Context.namedFragment.fits .directive = true := rfl
      have hFragmentGroup : Context.namedFragment.group? .fieldCollection = some .selections := rfl
      obtain ⟨pieces, piece, marks, set, rfl, hMarks, hSet, hParts, hMarksRead, hSetRead⟩ :=
        body_stands hFragmentFits hFragmentGroup (selections_stand selections) hBody hSource.right
      have hForms := Forms.fragment hLabel hMarks hSet
      have hRead := Definition.read?_fragment name condition keyword.start hMarksRead hSetRead
      rw [← hSlice, ← hTypeSlice] at hRead
      exact ⟨_, _, Fill.part hLabel hForms hContext rfl rfl rfl hParts, _, rfl, hRead⟩

/-- No definition is written as nothing. -/
theorem Definition.words_ne_nil (definition : Definition) : definition.words ≠ [] := by
  cases definition <;> simp [Definition.words, Enclosure.words]

/-- A rendered document is a document whose parts are read as it, with selection sets that stand
alone in full. -/
theorem QueryDocument.read_render (written : QueryDocument) (path : Option String) :
    ∃ document events,
      Source.document { text := written.render, path } = .ok (document, events) ∧
      (document.treeAt 0).bind QueryDocument.read? = some written.spelledOut := by
  let source : Source := { text := written.render, path }
  obtain ⟨hWords, hLegal⟩ := written.lex_render
  have hAll : StandAll source .document .definition written.words fun trees =>
      trees.mapM Definition.read? = some (written.val.map Definition.spelledOut) :=
    StandAll.flatMap_map Definition.stands written.val
  obtain ⟨pieces, trees, hTokens, hFill, hTrees⟩ :=
    hAll _ hWords (Token.beforeEnd_infix source.text)
  obtain ⟨first, rest, hFirst⟩ : ∃ first rest, tokensOf pieces = first :: rest := by
    refine List.exists_cons_of_ne_nil fun hNone => ?_
    rw [hTokens] at hNone
    rw [hNone] at hWords
    obtain ⟨definition, others, hDefinitions⟩ := List.exists_cons_of_ne_nil written.property
    have hEmpty := List.flatMap_eq_nil_iff.1 hWords.symm definition (by simp [hDefinitions])
    exact definition.words_ne_nil hEmpty
  have hForms : Forms .document (Token.beforeEnd source.text) _ :=
    hTokens ▸ hFirst ▸ Forms.document hFirst hFill.forms
  have hOutline : source.outline = .ok _ := Source.outline_eq_ok.2 ⟨hLegal, hForms⟩
  obtain ⟨document, events, hDocument, -, hTree⟩ := Source.document_eq hOutline hFill.parts
  refine ⟨document, events, hDocument, ?_⟩
  have hNonempty : written.val.map Definition.spelledOut ≠ [] := by simpa using written.property
  simp only [hTree, Option.bind_some, QueryDocument.read?, hTrees]
  exact dif_pos hNonempty

end Abstract

end GraphQL
