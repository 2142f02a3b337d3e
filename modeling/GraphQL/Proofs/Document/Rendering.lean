import GraphQL.Proofs.Document.Abstract

/-! The text of a query document. All its words are lexemes, so the text is read as these words. -/
namespace GraphQL

namespace Abstract

variable {words more : List Word}

/-- Words that are all lexemes. -/
def Printable (words : List Word) : Prop := ∀ w ∈ words, Lexer.Lexeme w.1 w.2.toList

theorem Printable.append (hFirst : Printable words) (hSecond : Printable more) :
    Printable (words ++ more) := List.forall_mem_append.2 ⟨hFirst, hSecond⟩

/-- What is written for items one by one can be printed if it can for each. -/
theorem Printable.flatMap {α : Type} {write : α → List Word} {items : List α}
    (h : ∀ a, Printable (write a)) : Printable (items.flatMap write) := by
  intro w hw
  obtain ⟨a, -, hWord⟩ := List.mem_flatMap.1 hw
  exact h a w hWord

theorem printable_sign {kind : TokenKind} {text : String} (h : kind.punctuator? = some text) :
    Lexer.Lexeme (Word.sign kind).1 (Word.sign kind).2.toList := by
  rw [Word.sign, h]
  exact .punctuator h

/-- Characters that may form a name are the lexeme of one. -/
theorem printable_name {text : String} {c : Char} {cs : List Char} (hText : text.toList = c :: cs)
    (hStart : Lexer.isNameStart c = true) (hContinue : cs.all Lexer.isNameContinue = true) :
    Lexer.Lexeme .name text.toList := by
  rw [hText]
  exact .name hStart (List.all_eq_true.1 hContinue)

/-- Delimiters around words can be printed. -/
theorem Printable.enclosed {enclosure : Enclosure} (h : Printable words) :
    Printable (enclosure.words words) := by
  have hOpener : ∃ text, enclosure.opener.punctuator? = some text := by
    cases enclosure <;> exact ⟨_, rfl⟩
  have hCloser : ∃ text, enclosure.closer.punctuator? = some text := by
    cases enclosure <;> exact ⟨_, rfl⟩
  exact List.forall_mem_cons.2 ⟨printable_sign hOpener.choose_spec,
    h.append (List.forall_mem_singleton.2 (printable_sign hCloser.choose_spec))⟩

theorem Printable.ifAny {enclosure : Enclosure} (h : Printable words) :
    Printable (enclosure.wordsIfAny words) := by
  unfold Enclosure.wordsIfAny
  split
  · simp [Printable]
  · exact h.enclosed

mutual

/-- The words of a value are lexemes, by its form. -/
theorem Value.printable : (value : Value) → Printable value.words
  | .number text => List.forall_mem_singleton.2 text.property
  | .string text => List.forall_mem_singleton.2 text.property
  | .boolean value => by
      cases value <;> exact List.forall_mem_singleton.2 (printable_name rfl rfl rfl)
  | .null => List.forall_mem_singleton.2 (printable_name rfl rfl rfl)
  | .enumeration name => List.forall_mem_singleton.2 name.val.property
  | .usage name => List.forall_mem_cons.2
      ⟨printable_sign rfl, List.forall_mem_singleton.2 name.property⟩
  | .list items => (itemWords_printable items).enclosed
  | .object fields => (fieldWords_printable fields).enclosed

theorem itemWords_printable : (items : List Value) → Printable (itemWords items)
  | [] => nofun
  | item :: rest => item.printable.append (itemWords_printable rest)

theorem fieldWords_printable : (fields : List (Name × Value)) → Printable (fieldWords fields)
  | [] => nofun
  | (name, value) :: rest =>
      Printable.append (Printable.append
        (List.forall_mem_cons.2 ⟨name.property, List.forall_mem_singleton.2 (printable_sign rfl)⟩)
        value.printable) (fieldWords_printable rest)

end

theorem Argument.printable (argument : Argument) : Printable argument.words :=
  Printable.append
    (List.forall_mem_cons.2 ⟨argument.1.property, List.forall_mem_singleton.2 (printable_sign rfl)⟩)
    argument.2.printable

theorem argumentWords_printable (arguments : List Argument) :
    Printable (argumentWords arguments) :=
  (Printable.flatMap Argument.printable).ifAny

theorem Directive.printable (directive : Directive) : Printable directive.words :=
  Printable.append
    (List.forall_mem_cons.2
      ⟨printable_sign rfl, List.forall_mem_singleton.2 directive.name.property⟩)
    (argumentWords_printable directive.arguments)

theorem directiveWords_printable (directives : List Directive) :
    Printable (directiveWords directives) := Printable.flatMap Directive.printable

theorem markWords_printable (nullable : Bool) : Printable (TypeExpr.markWords nullable) := by
  cases nullable with
  | false => exact List.forall_mem_singleton.2 (.punctuator rfl)
  | true => exact nofun

/-- The words of a type are lexemes if its name is one. -/
theorem typeWords_printable {type : TypeExpr}
    (h : Lexer.Lexeme .name type.innermostName.toList) : Printable type.words := by
  induction type with
  | named name nullable => exact List.forall_mem_cons.2 ⟨h, markWords_printable nullable⟩
  | list item nullable ih =>
      exact List.forall_mem_cons.2 ⟨.punctuator rfl, (ih h).append
        (List.forall_mem_cons.2 ⟨.punctuator rfl, markWords_printable nullable⟩)⟩

theorem VariableDefinition.printable (written : VariableDefinition) : Printable written.words := by
  have hNames : Printable [Word.sign .dollar, (.name, written.name.val), Word.sign .colon] :=
    List.forall_mem_cons.2 ⟨printable_sign rfl, List.forall_mem_cons.2
      ⟨written.name.property, List.forall_mem_singleton.2 (printable_sign rfl)⟩⟩
  have hDefault : Printable (written.default.toList.flatMap fun value =>
      Word.sign .equals :: value.val.words) :=
    Printable.flatMap fun value => List.forall_mem_cons.2
      ⟨printable_sign rfl, value.val.printable⟩
  exact ((hNames.append (typeWords_printable written.type.property)).append hDefault).append
    (directiveWords_printable written.directives)

mutual

/-- The words of a selection are lexemes, at any depth. -/
theorem Selection.printable : (selection : Selection) → Printable selection.words
  | .field aliasName name arguments directives selections => by
      have hAlias : Printable (aliasName.toList.flatMap fun other =>
          [(.name, other.val), Word.sign .colon]) :=
        Printable.flatMap fun other => List.forall_mem_cons.2
          ⟨other.property, List.forall_mem_singleton.2 (printable_sign rfl)⟩
      have hName : Printable [(.name, name.val)] := List.forall_mem_singleton.2 name.property
      exact (((hAlias.append hName).append (argumentWords_printable arguments)).append
        (directiveWords_printable directives)).append (selectionWords_printable selections).ifAny
  | .spread fragment directives =>
      Printable.append (List.forall_mem_cons.2
        ⟨printable_sign rfl, List.forall_mem_singleton.2 fragment.val.property⟩)
        (directiveWords_printable directives)
  | .inline condition directives selections => by
      have hDots : Printable [Word.sign .ellipsis] :=
        List.forall_mem_singleton.2 (printable_sign rfl)
      have hCondition : Printable (condition.toList.flatMap fun type =>
          [(.name, "on"), (.name, type.val)]) :=
        Printable.flatMap fun type => List.forall_mem_cons.2
          ⟨printable_name rfl rfl rfl, List.forall_mem_singleton.2 type.property⟩
      exact (hDots.append hCondition).append ((directiveWords_printable directives).append
        (selectionWords_printable selections).enclosed)

theorem selectionWords_printable : (selections : List Selection) →
    Printable (selectionWords selections)
  | [] => nofun
  | selection :: rest => selection.printable.append (selectionWords_printable rest)

end

theorem Definition.printable : (definition : Definition) → Printable definition.words
  | .anonymous selections => (selectionWords_printable selections).enclosed
  | .operation type name declared directives selections => by
      have hKeyword : Printable [(.name, type.keyword)] := by
        cases type <;> exact List.forall_mem_singleton.2 (printable_name rfl rfl rfl)
      have hName : Printable (name.toList.map fun name => (.name, name.val)) := by
        intro w hw
        obtain ⟨name, -, rfl⟩ := List.mem_map.1 hw
        exact name.property
      exact ((hKeyword.append hName).append
        (Printable.flatMap VariableDefinition.printable).ifAny).append
          ((directiveWords_printable directives).append
            (selectionWords_printable selections).enclosed)
  | .fragment name condition directives selections => by
      have hHead : Printable
          [(.name, "fragment"), (.name, name.val.val), (.name, "on"), (.name, condition.val)] :=
        List.forall_mem_cons.2 ⟨printable_name rfl rfl rfl, List.forall_mem_cons.2
          ⟨name.val.property, List.forall_mem_cons.2 ⟨printable_name rfl rfl rfl,
            List.forall_mem_singleton.2 condition.property⟩⟩⟩
      exact hHead.append ((directiveWords_printable directives).append
        (selectionWords_printable selections).enclosed)

/-- The tokens of a rendered document have its words, and none is a fault. -/
theorem QueryDocument.lex_render (document : QueryDocument) :
    (Token.beforeEnd document.render).map Token.word = document.words ∧
      ∀ t ∈ Token.lex document.render, t.kind.isError = false := by
  have hPrintable : Printable document.words := Printable.flatMap Definition.printable
  have hWords : (Token.lex document.render).map Token.word = document.words ++ [Word.eof] :=
    words_lex_intercalate hPrintable
  obtain ⟨last, hLast, hLex⟩ := Token.lex_eq document.render
  rw [hLex, List.map_append] at hWords
  obtain ⟨hBefore, -⟩ := List.append_inj' hWords rfl
  refine ⟨hBefore, fun t ht => ?_⟩
  rw [hLex] at ht
  rcases List.mem_append.1 ht with ht | ht
  · have hWord : t.word ∈ document.words := hBefore ▸ List.mem_map_of_mem ht
    exact (hPrintable _ hWord).isError
  · rw [List.mem_singleton.1 ht, hLast]
    rfl

end Abstract

end GraphQL
