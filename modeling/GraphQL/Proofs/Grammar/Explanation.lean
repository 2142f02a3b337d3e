import Mathlib.Data.List.Chain
import GraphQL.Proofs.Grammar.Prediction

/-! Each production reads the language of its phrases: it stops only where the language does, and
goes on with whatever the language goes on with. -/
namespace GraphQL.Grammar

open GraphQL.Parser GraphQL.Language TokenStream

variable {Refusing : Prop} {Next : Token → Prop} {n : Nat} {s : TokenStream}

theorem starts_literal : literal.Starts
    fun t => t.kind = .number ∨ t.kind = .string ∨ t.kind = .name := starts_one _

theorem starts_enclosed (enclosure : Enclosure) (A : Language) :
    (enclosed enclosure A).Starts (·.kind = enclosure.opener) := (starts_sign _).seq

theorem starts_usage : ((sign .dollar).seq (sign .name)).Starts (·.kind = .dollar) :=
  (starts_sign _).seq

/-- All values of more than one token start with a sign. -/
theorem starts_compound : (((sign .dollar).seq (sign .name)).either
    ((enclosed .listValue (of .value)).either (enclosed .objectValue (of .argument)))).Starts
      fun t => t.kind = .dollar ∨ t.kind = .squareOpen ∨ t.kind = .curlyOpen :=
  starts_usage.either ((starts_enclosed _ _).either (starts_enclosed _ _))

/-- The tokens that a value of some form starts with. -/
def ValueForm.Begins (token : Token) : ValueForm → Prop
  | .variableValue => token.kind = .dollar
  | .listValue => token.kind = .squareOpen
  | .objectValue => token.kind = .curlyOpen
  | .scalarValue => ∃ kind, scalarKindOf? token = some kind
  | .nullValue => token.isWord "null" = true
  | .enumValue => token.kind = .name ∧ token.text ∉ ["true", "false", "null"]

/-- The form that a token is taken for is one that begins with it. -/
theorem ValueForm.begins_of_startingAt? {token : Token} {form : ValueForm}
    (h : ValueForm.startingAt? token = some form) : form.Begins token := by
  cases hKind : token.kind with
  | name =>
      simp only [ValueForm.startingAt?, hKind] at h
      split at h
      · next hText =>
          cases h
          exact ⟨.boolean, by simp [scalarKindOf?, hKind, hText]⟩
      · next hText =>
          split at h
          · next hNull =>
              cases h
              exact isWord_iff.2 ⟨hKind, hNull⟩
          · next hNull =>
              cases h
              exact ⟨hKind, by simpa using ⟨not_or.1 hText |>.1, not_or.1 hText |>.2, hNull⟩⟩
  | dollar | squareOpen | curlyOpen | number | string =>
      simp only [ValueForm.startingAt?, hKind, Option.some.injEq] at h
      subst h
      simp [ValueForm.Begins, scalarKindOf?, hKind]
  | _ => simp [ValueForm.startingAt?, hKind] at h

theorem not_starts_value {token : Token} (h : ValueForm.startingAt? token = none) :
    ¬ Symbol.value.Starts token := by
  simp [Symbol.Starts, h]

/-- A value of one token is that token, whatever is reckoned from it. -/
theorem explains_literal {step : Parser Token} (reckon : Token → Outline) (hs : s.Ready n)
    (hStep : step s = Parser.advance s)
    (h : s.current.kind = .number ∨ s.current.kind = .string ∨ s.current.kind = .name) :
    Explains Refusing s (of .value) Next
      ((step >>= fun token => pure (reckon token) : Parser Outline) s) := by
  have hEnd : s.current.kind ≠ .eof := by rcases h with h | h | h <;> simp [h]
  have hLiteral : Explains Refusing s literal Next (step s) :=
    hStep ▸ explains_advance hs _ h hEnd
  rw [of_value]
  refine (explains_map reckon hLiteral hs.legal).left starts_compound.leads_self ?_
  rcases h with h | h | h <;> simp [h]

/-- An argument fails where it ends to be the start of one. -/
theorem explained_inputItem {value : Parser Outline}
    (hValue : Explained Refusing n value (of .value) Next) :
    Explained Refusing n (inputItem value) (of .argument) Next := by
  rw [of_argument]
  refine (explained_expectName _).bind (leads_any _ _) fun name =>
    (explained_expect _ (by decide)).bind (leads_any _ _) fun colon s hs => ?_
  rw [current_bind]
  cases hForm : ValueForm.startingAt? s.current with
  | some form => exact hValue.grow _ s hs
  | none =>
      exact explains_keeping _ (explains_failExpecting _ _ _ hs
        (starts_of .value).leads_self (not_starts_value hForm))

/-- A list has its values a level further down. -/
theorem explained_listValue {value : Parser Outline}
    (hValue : Explained Refusing n value (of .value) fun _ => True) :
    Explained Refusing (n + 1) (listValue value) (enclosed .listValue (of .value)) Next := by
  refine explained_collection _ (fun s hs => ?_) (starts_of .value) (fun t ht => ?_)
    fun _ _ => trivial
  · rw [current_bind]
    cases hForm : ValueForm.startingAt? s.current with
    | some form => exact hValue s hs
    | none =>
        exact explains_failExpecting _ _ _ hs (starts_of .value).leads_self
          (not_starts_value hForm)
  · obtain ⟨hCloser, hEnd, -⟩ := value_inside ht
    exact ⟨not_or.2 ⟨hEnd, Bool.eq_false_iff.1 hCloser⟩, trivial⟩

theorem explained_objectValue {value : Parser Outline}
    (hValue : Explained Refusing n value (of .value) fun _ => True) :
    Explained Refusing (n + 1) (objectValue value) (enclosed .objectValue (of .argument)) Next :=
  explained_collection _ (explained_inputItem hValue) (starts_of .argument)
    (fun t (ht : t.kind = .name) => by simp [Token.Ends, TokenKind.isCloser, ht])
    fun _ _ => trivial

theorem explained_variableValue :
    Explained Refusing n variableValue ((sign .dollar).seq (sign .name)) Next :=
  (explained_expect _ (by decide)).bind (leads_any _ _) fun _ =>
    (explained_expectName _).map _

/-- A value is read in the form that its first token decides. -/
theorem explains_production {value : Parser Outline} {form : ValueForm}
    (hValue : Explained Refusing n value (of .value) fun _ => True) (hs : s.Ready (n + 1))
    (hBegins : form.Begins s.current) :
    Explains Refusing s (of .value) Next (form.production value s) := by
  have hList := starts_enclosed .listValue (of .value)
  have hObject := starts_enclosed .objectValue (of .argument)
  cases form with
  | variableValue =>
      have hHere : s.current.kind = .dollar := hBegins
      rw [of_value]
      refine ((explained_variableValue s hs).left (hList.either hObject).leads_self ?_).right
        starts_literal.leads_self ?_
      · simp [hHere, Enclosure.opener]
      · simp [hHere]
  | listValue =>
      have hHere : s.current.kind = .squareOpen := hBegins
      rw [of_value]
      refine (((explained_listValue hValue s hs).left hObject.leads_self ?_).right
        starts_usage.leads_self ?_).right starts_literal.leads_self ?_
      · simp [hHere, Enclosure.opener]
      · simp [hHere]
      · simp [hHere]
  | objectValue =>
      have hHere : s.current.kind = .curlyOpen := hBegins
      rw [of_value]
      refine (((explained_objectValue hValue s hs).right hList.leads_self ?_).right
        starts_usage.leads_self ?_).right starts_literal.leads_self ?_
      · simp [hHere, Enclosure.opener]
      · simp [hHere]
      · simp [hHere]
  | scalarValue =>
      obtain ⟨kind, hKind⟩ := hBegins
      simp only [ValueForm.production, scalarValue, current_bind, hKind]
      refine explains_literal _ hs rfl ?_
      cases hHere : s.current.kind <;> simp [scalarKindOf?, hHere] at hKind ⊢
  | nullValue =>
      have hHere : s.isAtWord "null" = true := hBegins
      exact explains_literal _ hs (expectWord_of_at hHere) (.inr (.inr (isWord_iff.1 hHere).1))
  | enumValue =>
      obtain ⟨hName, hText⟩ := hBegins
      simp only [ValueForm.production, enumValue, current_bind, hText, if_false]
      exact explains_literal _ hs (expect_of_at ((isAt_iff rfl).2 hName)) (.inr (.inr hName))

/-- By induction on the levels: what a value has inside has a token less ahead. -/
theorem explained_valueWithin (levels : Nat) :
    Explained Refusing levels (valueWithin levels) (of .value) Next := by
  induction levels generalizing Next with
  | zero => exact fun s hs => absurd hs not_ready_zero
  | succ levels ih =>
      intro s hs
      cases hForm : ValueForm.startingAt? s.current with
      | none =>
          simp only [valueWithin, current_bind, hForm]
          exact explains_failExpecting _ _ _ hs (starts_of .value).leads_self
            (not_starts_value hForm)
      | some form =>
          rw [valueWithin_of_form levels hForm]
          exact explains_production ih hs (ValueForm.begins_of_startingAt? hForm)

/-- A value stops only where no value goes on. -/
theorem explained_value : Explained Refusing n value (of .value) Next := by
  intro s hs
  rw [value, bound_bind]
  exact explained_valueWithin _ s hs.tight

theorem explained_arguments : Explained Refusing n arguments (of .arguments) Next := by
  rw [of_arguments]
  exact (explained_collection _ (explained_inputItem explained_value) (starts_of .argument)
    (fun t (ht : t.kind = .name) => by simp [Token.Ends, TokenKind.isCloser, ht])
    fun _ _ => trivial).of_succ

/-- After the name of a directive only an opening parenthesis goes on with it. -/
theorem explained_directive :
    Explained Refusing n directive (of .directive) Symbol.directive.Next := by
  rw [of_directive]
  exact (explained_expect _ (by decide)).bind (leads_any _ _) fun sign =>
    (explained_expectName _).bind (leads_any _ _) fun name =>
      explained_growAt _ explained_arguments starts_arguments rfl fun _ => id

/-- Directives stop where no other begins. -/
theorem explained_growDirectives (node : Outline) (hNext : ∀ t, Next t → AfterDirectives t) :
    Explained Refusing n (growDirectives node) (of .directive).many Next := by
  intro s hs
  rw [growDirectives, bound_bind]
  exact explains_growWhileAt node explained_directive starts_directive rfl
    (fun t ht => by simp [Symbol.Next, ht]) hNext hs hs.tight

/-- The name of a fragment stops at `on` as at what is no name. -/
theorem explained_fragmentName (context : String) :
    Explained Refusing n (fragmentName context) Language.fragmentName Next := by
  intro s hs
  have hStarts : Language.fragmentName.Starts fun t => t.kind = .name ∧ t.text ≠ "on" :=
    starts_one _
  rw [fragmentName, isAtWord_bind]
  cases hOn : s.isAtWord "on" with
  | true =>
      obtain ⟨hName, hText⟩ := isWord_iff.1 hOn
      refine explains_fail hStarts.leads_self (fun hHere => hHere.2 hText) fun hA => ?_
      exact ⟨hs.legal, by simp [hName], rfl, hA⟩
  | false =>
      rw [if_neg Bool.false_ne_true, expectName]
      cases hAt : s.isAt .name with
      | true =>
          have hName := (isAt_iff rfl).1 hAt
          have hNotOn : s.current.text ≠ "on" := fun hText =>
            Bool.false_ne_true (hOn.symm.trans (isWord_iff.2 ⟨hName, hText⟩))
          rw [expect_of_at hAt]
          exact explains_advance hs _ ⟨hName, hNotOn⟩ (by simp [hName])
      | false =>
          rw [expect, isAt_bind, hAt, if_neg Bool.false_ne_true]
          exact explains_failExpecting _ _ _ hs hStarts.leads_self
            fun hHere => (isAt_eq_false_iff rfl).1 hAt hHere.1

/-- A token that was looked for, and a name after it. -/
theorem explains_named {P : Token → Prop} {token : ∃ t, P t} {context : String}
    (reckon : Token → Outline) (hs : s.Ready n) (hAt : P s.current)
    (hEnd : s.current.kind ≠ .eof) :
    Explains Refusing s ((one P token).seq (sign .name)) Next
      ((Parser.advance >>= fun _ => expectName context >>= fun name =>
        pure (reckon name) : Parser Outline) s) :=
  explains_bind (explains_advance hs token hAt hEnd) (leads_any _ _) hs.legal
    fun _ s' _ _ hMoves _ => (explained_expectName context).map reckon s' (hs.move hMoves)

/-- The dots are left for the token that was looked at. -/
theorem explains_dots {A : Language} {context : String} {f : Token → Parser Outline}
    (hs : s.Ready n) (hf : ∀ dots s', s'.Ready n → s.peek = s'.current →
      Explains Refusing s' A Next (f dots s')) :
    Explains Refusing s ((sign .ellipsis).seq A) Next
      ((expect .ellipsis context >>= f) (s.fetch 1)) := by
  have hFetch := hs.fetch 1
  refine explains_fetch 1 (explains_bind (explained_expect context (by decide) _ hFetch)
    (leads_any _ _) hFetch.legal fun dots s' read _ hMoves hRead => ?_)
  obtain ⟨_, -, rfl⟩ := hRead
  exact hf dots s' (hFetch.move hMoves) (peek_eq hMoves.remaining)

/-- What follows the name of a field does not start with a colon, so an alias is told at once. -/
theorem leads_fieldInside :
    fieldInside.Leads Symbol.selection.Next (·.kind ≠ .colon) :=
  (starts_arguments.leads_opt (by simp +contextual) fun _ => id).seq
    ((starts_directive.leads_many (by simp +contextual) fun _ => id).seq
      (starts_selectionSet.leads_opt (by simp +contextual) fun _ ht => ht.1))

theorem starts_spreadInside : spreadInside.Starts fun t => t.kind = .name ∧ t.text ≠ "on" :=
  (starts_one _).seq

/-- A spread stops where neither a directive begins nor anything that may follow. -/
theorem explained_spreadInside (dots : Token) :
    Explained Refusing n (Grammar.fragmentName "after `...`" >>= fun name =>
      growDirectives ((Outline.leaf .fragmentSpread dots.start).setPrimary name.bytes))
      spreadInside Symbol.selection.Next :=
  (explained_fragmentName _).bind (leads_any _ _) fun _ =>
    explained_growDirectives _ fun _ ht => ⟨ht.2.2.1, ht.2.1⟩

/-- What follows the dots of an inline fragment starts with no other name than `on`. -/
theorem leads_inlineInside : inlineInside.Leads Symbol.selection.Next
    fun t => t.isWord "on" = true ∨ t.kind = .atSign ∨ t.kind = .curlyOpen := by
  refine ((starts_word "on").seq.leads_opt (fun _ => .inl) fun _ => id).seq ?_
  exact (starts_directive.leads_many (fun _ ht => .inr (.inl ht)) fun _ => id).seq
    (starts_selectionSet.leads fun _ ht => .inr (.inr ht))

/-- Selections start with what may follow directives. -/
theorem leads_selectionSet : (of .selectionSet).Leads Next AfterDirectives :=
  starts_selectionSet.leads (by simp +contextual [AfterDirectives])

/-- Directives and a selection set, as they end fragments of both kinds. -/
theorem explained_directed {selections : Parser Outline}
    (hSelections : Explained Refusing n selections (of .selectionSet) Next) (node : Outline) :
    Explained Refusing n (growDirectives node >>= fun node => grow node selections)
      ((of .directive).many.seq (of .selectionSet)) Next :=
  (explained_growDirectives node fun _ => id).bind leads_selectionSet fun node =>
    hSelections.grow node

section Selections

variable {selections : Parser Outline}
  (hSelections : Explained Refusing n selections (of .selectionSet) Symbol.selection.Next)
include hSelections

/-- What may follow the name of a field. -/
theorem explained_fieldInside (named : Outline) :
    Explained Refusing n (growAt .parenOpen named arguments >>= fun node =>
      growDirectives node >>= fun node => growAt .curlyOpen node selections)
      fieldInside Symbol.selection.Next := by
  have hLast : (of .selectionSet).opt.Leads Symbol.selection.Next AfterDirectives := by
    refine starts_selectionSet.leads_opt (fun t ht => ?_) fun t ht => ⟨ht.2.2.1, ht.2.1⟩
    simp [AfterDirectives, ht]
  have hRest : ((of .directive).many.seq (of .selectionSet).opt).Leads Symbol.selection.Next
      (·.kind ≠ .parenOpen) :=
    (starts_directive.leads_many (by simp +contextual) fun t ht => ht.2).seq hLast
  exact (explained_growAt named explained_arguments starts_arguments rfl fun _ => id).bind
    hRest fun node => (explained_growDirectives node fun _ => id).bind hLast fun node =>
      explained_growAt node hSelections starts_selectionSet rfl fun t ht => ht.2.2.2

/-- A field is told from an alias by the token after it. -/
theorem explained_field : Explained Refusing n (field selections)
    ((sign .name).seq (((sign .colon).seq (sign .name)).opt.seq fieldInside))
    Symbol.selection.Next := by
  refine (explained_expectName _).bind (leads_any _ _) fun first => ?_
  intro s hs
  rw [isAt_bind]
  refine explains_opt_seq hs (starts_sign .colon).seq (isAt_iff rfl) leads_fieldInside
    (fun hAt => explains_keeping _ ?_) (explained_fieldInside hSelections)
  have hColon := (isAt_iff rfl).1 hAt
  exact explains_named _ hs hColon (by simp [hColon])

/-- After `on` a type is required, and without it the rest of the fragment. -/
theorem explained_conditioned (opened : Outline) :
    Explained Refusing n (do
        let conditioned ← if ← isAtWord "on" then keeping opened do
            let _ ← Parser.advance
            let type ← expectName "for type condition after `on`"
            return opened.setPrimary type.bytes
          else pure opened
        grow (← growDirectives conditioned) selections) inlineInside Symbol.selection.Next := by
  intro s hs
  rw [isAtWord_bind]
  refine explains_opt_seq hs (starts_word "on").seq Iff.rfl ?_
    (fun hAt => explains_keeping _ ?_) (explained_directed hSelections)
  · have hSet : (of .selectionSet).Leads Symbol.selection.Next fun t => ¬ t.isWord "on" = true :=
      starts_selectionSet.leads (by simp +contextual [Token.isWord])
    exact (starts_directive.leads_many (by simp +contextual [Token.isWord]) fun _ => id).seq hSet
  · exact explains_named _ hs hAt (by simp [(isWord_iff.1 hAt).1])

/-- The token after the dots decides which selection they begin. -/
theorem explained_selection :
    Explained Refusing n (selection selections) (of .selection) Symbol.selection.Next := by
  intro s hs
  rw [selection, isAt_bind]
  cases hName : s.isAt .name with
  | true =>
      have hHere := (isAt_iff rfl).1 hName
      rw [of_selection]
      exact (explained_field hSelections s hs).left (starts_sign .ellipsis).seq.leads_self
        (by simp [hHere])
  | false =>
      rw [if_neg Bool.false_ne_true, isAt_bind]
      cases hDots : s.isAt .ellipsis with
      | false =>
          exact explains_failExpecting _ _ _ hs (starts_of .selection).leads_self
            (not_or.2 ⟨(isAt_eq_false_iff rfl).1 hName, (isAt_eq_false_iff rfl).1 hDots⟩)
      | true =>
          rw [of_selection, if_pos rfl, get_bind, modify_bind]
          refine Explains.right ?_ (starts_sign .name).seq.leads_self
            ((isAt_eq_false_iff rfl).1 hName)
          split
          · next hSpread =>
              refine explains_dots hs fun dots s' hReady hPeek => ?_
              rw [hPeek] at hSpread
              exact (explained_spreadInside dots s' hReady).left leads_inlineInside
                (not_or.2 ⟨fun hOn => hSpread.2 (isWord_iff.1 hOn).2, by simp [hSpread.1]⟩)
          · next hInline =>
              refine explains_dots hs fun dots s' hReady hPeek => ?_
              rw [hPeek] at hInline
              exact (explained_conditioned hSelections _ s' hReady).right
                starts_spreadInside.leads_self hInline

end Selections

/-- By induction on the levels: what selections have inside has a token less ahead. -/
theorem explained_selectionSetWithin (levels : Nat) :
    Explained Refusing levels (selectionSetWithin levels) (of .selectionSet) Next := by
  induction levels generalizing Next with
  | zero => exact fun s hs => absurd hs not_ready_zero
  | succ levels ih =>
      rw [of_selectionSet]
      refine explained_collection _ (explained_selection ih) (starts_of .selection)
        (fun t ht => ?_) fun t ht => ?_
      · rcases ht with ht | ht <;> simp [Token.Ends, TokenKind.isCloser, Symbol.Next, ht]
      · simp [Symbol.Next, Enclosure.closer, ht]

theorem explained_selectionSet : Explained Refusing n selectionSet (of .selectionSet) Next := by
  intro s hs
  rw [selectionSet, bound_bind]
  exact explained_selectionSetWithin _ s hs.tight

/-- A mark behind a type goes on with it. -/
theorem explained_typeEnd (start : Position) :
    Explained Refusing n (typeEnd start) (sign .bang).opt (·.kind ≠ .bang) := by
  intro s hs
  rw [typeEnd, isAt_bind]
  cases hAt : s.isAt .bang with
  | true =>
      have hHere := (isAt_iff rfl).1 hAt
      refine Explains.right ?_ (leads_nothing fun _ => id) fun hNot => hNot hHere
      rw [← seq_nothing (sign .bang)]
      exact explains_bind (explains_sign hs hHere (by decide)) (leads_nothing fun _ => id) hs.legal
        fun _ s' _ _ hMoves _ => explains_pure _ hMoves.closed
  | false =>
      exact (explains_pure _ hs.closed).left (starts_sign .bang).leads_self
        ((isAt_eq_false_iff rfl).1 hAt)

/-- The end of a list type: its closer, whatever else closes, and the mark. -/
theorem explained_listEnd {opening : Token} {f : Unit → Parser ByteRange}
    (hf : ∀ r, Explained Refusing n (f r) (sign .bang).opt (·.kind ≠ .bang)) :
    Explained Refusing n
      (closes .listType opening >>= fun ends =>
        if (!ends) = true then failExpecting ["]"] "to close list type" >>= f else f ())
      ((sign .squareClose).seq (sign .bang).opt) (·.kind ≠ .bang) := by
  intro s hs
  have hClose : (sign .squareClose).Starts (·.kind = .squareClose) := starts_sign _
  by_cases hEnds : s.current.Ends
  · refine explains_bind (explains_closes opening hs hEnds) (leads_any _ _) hs.legal
      fun ends s' _ hStep hMoves _ => ?_
    obtain rfl := closes_true hEnds hStep
    exact hf () s' (hs.move hMoves)
  · have hNot : s.current.kind ≠ .squareClose := fun hHere =>
      hEnds (.inr (by simp [hHere, TokenKind.isCloser]))
    rw [estate_bind_of_ok (closes_of_not_ends opening hEnds), Bool.not_false, if_pos rfl]
    exact explains_failExpecting_bind _ _ _ hs hClose.seq.leads_self hNot

/-- By induction on the levels, as for values. -/
theorem explained_typeWithin (levels : Nat) :
    Explained Refusing levels (typeWithin levels) type (·.kind ≠ .bang) := by
  induction levels with
  | zero => exact fun s hs => absurd hs not_ready_zero
  | succ levels ih =>
      intro s hs
      have hEnd : (sign .bang).opt.Leads (·.kind ≠ .bang) fun _ => True := leads_any _ _
      rw [typeWithin, current_bind, isAt_bind]
      cases hAt : s.isAt .squareOpen with
      | true =>
          have hHere := (isAt_iff rfl).1 hAt
          have hItem : ((sign .squareClose).seq (sign .bang).opt).Leads (·.kind ≠ .bang)
              (·.kind ≠ .bang) := (starts_sign _).seq.leads (by simp +contextual)
          rw [if_pos rfl, type_eq]
          refine (explains_bind (explains_sign hs hHere (by decide)) (leads_any _ _)
            hs.legal fun opening s' _ _ hMoves hRead => ?_).right (starts_sign .name).seq.leads_self
            (by simp [hHere])
          have hReady := hs.leave hMoves ((starts_sign .squareOpen).has_ne_nil hRead)
          exact ih.bind hItem (fun _ => explained_listEnd fun _ => explained_typeEnd _) s' hReady
      | false =>
          rw [if_neg Bool.false_ne_true, isAt_bind]
          cases hName : s.isAt .name with
          | true =>
              have hHere := (isAt_iff rfl).1 hName
              rw [if_pos rfl, type_eq]
              exact (explains_bind (explains_sign hs hHere (by decide)) hEnd hs.legal
                fun _ s' _ _ hMoves _ => explained_typeEnd _ s' (hs.move hMoves)).left
                (starts_sign .squareOpen).seq.leads_self (by simp [hHere])
          | false =>
              rw [if_neg Bool.false_ne_true]
              exact explains_failExpecting_bind _ _ _ hs starts_type.leads_self
                (not_or.2 ⟨(isAt_eq_false_iff rfl).1 hName, (isAt_eq_false_iff rfl).1 hAt⟩)

theorem explained_typeRange : Explained Refusing n typeRange type (·.kind ≠ .bang) := by
  intro s hs
  rw [typeRange, bound_bind]
  exact explained_typeWithin _ s hs.tight

/-- What a `$` is followed by. -/
def Names (dollar name : Token) : Prop := dollar.kind = .dollar → name.kind = .name

/-- Whatever comes after them, each `$` of some tokens has a name after it. -/
def Binds (tokens : List Token) : Prop :=
  ∀ rest, rest.IsChain Names → (tokens ++ rest).IsChain Names

theorem Binds.append {tokens more : List Token} (h : Binds tokens) (hMore : Binds more) :
    Binds (tokens ++ more) := fun rest hRest => by
  rw [List.append_assoc]
  exact h _ (hMore rest hRest)

theorem Binds.flatten {lists : List (List Token)} (h : ∀ ts ∈ lists, Binds ts) :
    Binds lists.flatten := by
  induction lists with
  | nil => exact fun _ => id
  | cons first rest ih =>
      obtain ⟨hFirst, hRest⟩ := List.forall_mem_cons.1 h
      exact hFirst.append (ih hRest)

theorem binds_singleton {token : Token} (h : token.kind ≠ .dollar) : Binds [token] :=
  fun _ hRest => List.isChain_cons.2 ⟨fun _ _ hDollar => absurd hDollar h, hRest⟩

/-- A variable binds its dollar sign to its name. -/
theorem binds_usage {dollar name : Token} (hName : name.kind = .name) : Binds [dollar, name] :=
  fun rest hRest => List.isChain_cons_cons.2
    ⟨fun _ => hName, binds_singleton (by simp [hName]) rest hRest⟩

/-- By induction on the derivation of a value or an argument. -/
theorem binds_of_derives {D : List Token → Prop} {x : Symbol} {ts : List Token} (h : Derives D x ts)
    (hx : x = .value ∨ x = .argument) : Binds ts := by
  induction h with
  | literal hKind => exact binds_singleton (by rcases hKind with h | h | h <;> simp [h])
  | variableUsage hDollar hName => exact binds_usage hName
  | list hOpen _ hClose ih =>
      exact (binds_singleton (by simp [hOpen])).append
        ((Binds.flatten fun ts hts => ih ts hts (.inl rfl)).append
          (binds_singleton (by simp [hClose])))
  | object hOpen _ hClose ih =>
      exact (binds_singleton (by simp [hOpen])).append
        ((Binds.flatten fun ts hts => ih ts hts (.inr rfl)).append
          (binds_singleton (by simp [hClose])))
  | argument hName hColon _ ih =>
      exact (binds_singleton (by simp [hName])).append
        ((binds_singleton (by simp [hColon])).append (ih (.inl rfl)))
  | _ => simp at hx

/-- The variable found is the first: what comes before it is constant. -/
theorem firstVariable?_eq_some {tokens : List Token} {dollar name : Token}
    (h : firstVariable? tokens = some (dollar, name)) :
    ∃ clear rest, tokens = clear ++ dollar :: name :: rest ∧ Constant clear ∧
      dollar.kind = .dollar := by
  fun_induction firstVariable? tokens with
  | case1 first next rest hFirst =>
      cases h
      exact ⟨[], rest, rfl, by simp [Constant], hFirst⟩
  | case2 first next rest hFirst ih =>
      obtain ⟨clear, rest, hTokens, hClear, hDollar⟩ := ih h
      exact ⟨first :: clear, rest, by rw [hTokens]; rfl, List.forall_mem_cons.2 ⟨hFirst, hClear⟩,
        hDollar⟩
  | case3 => cases h

/-- A value in which no variable is found is constant. -/
theorem constant_of_firstVariable? {tokens : List Token} (h : Derives Constant .value tokens)
    (hFirst : firstVariable? tokens = none) : Constant tokens := by
  obtain ⟨phrase, hForms⟩ := h.exists_phrase
  obtain ⟨last, hLast, hDollar⟩ := hForms.last_value
  exact (firstVariable?_eq_none hLast hDollar).1 hFirst

/-- Where a value goes wrong, a default does. -/
theorem explains_fallback {α : Type} {s' : TokenStream} {failure : Failure}
    (h : Explains False s (of .value) Next
      (.error failure s' : EStateM.Result Failure TokenStream α)) :
    Explains Refusing s fallback Next
      (.error failure s' : EStateM.Result Failure TokenStream α) := by
  obtain ⟨read, hPasses, ⟨more, hMore⟩, hWhy⟩ := h
  exact ⟨read, hPasses, ⟨more, hMore, trivial⟩, hWhy.imp
    (fun hExcludes u v hu => hExcludes u v hu.1) fun hFalse => hFalse.1.elim⟩

/-- A default is refused only when it was read to its end. -/
theorem explains_refusal {α : Type} {middle s' : TokenStream} {equals dollar name : Token}
    {value : List Token} (hLegal : s.current.kind.isError = false)
    (hMoves : Moves s [equals] middle) (hEquals : equals.kind = .equals)
    (hMoves' : Moves middle value s') (hValue : Derives Constant .value value)
    (hFirst : firstVariable? value = some (dollar, name)) :
    Explains True s ((sign .equals).seq fallback) Next
      ((fail (variableInDefault dollar name) : Parser α) s') := by
  obtain ⟨clear, rest, rfl, hClear, hDollar⟩ := firstVariable?_eq_some hFirst
  have hChain := binds_of_derives hValue (.inl rfl) [] .nil
  rw [List.append_nil, List.isChain_append_cons_cons] at hChain
  have hLoose := (of .value).loosen hValue
  have hStart : ((sign .equals).seq fallback).Allows true ([] ++ [equals]) :=
    (allows_of_has (has_sign hEquals)).left
  exact ⟨_, (hMoves.passes hLegal).trans (hMoves'.passes (hMoves.legal hLegal).2),
    allows_of_has ⟨_, _, has_sign hEquals, ⟨hLoose, trivial⟩, rfl⟩, trivial,
    .default hStart hEquals hClear hDollar (hChain.2.1 hDollar) hLoose⟩

/-- A default fails where it ends to be the start of a value, or once it was read to its end and has
a variable. -/
theorem explains_growDefault (node : Outline) (hs : s.Ready n) (hAt : s.isAt .equals = true) :
    Explains True s ((sign .equals).seq fallback) Next (growDefault node s) := by
  have hHere := (isAt_iff rfl).1 hAt
  rw [growDefault]
  refine explains_then (explains_keeping node (explains_sign hs hHere (by decide))) (leads_any _ _)
    fun _ middle read _ hMoves hRead hDecides => ?_
  have hReady := hs.move hMoves
  have hSecond {result : EStateM.Result Failure TokenStream Outline}
      (h : Explains True middle fallback Next result) :=
    explains_second hMoves hRead hDecides (leads_any _ _) hs.legal h
  rw [current_bind]
  cases hForm : ValueForm.startingAt? middle.current with
  | none =>
      have hStarts : fallback.Starts Symbol.value.Starts := fun ts h => starts_of .value ts h.1
      exact hSecond (explains_keeping node (explains_failExpecting _ _ _ hReady
        hStarts.leads_self (not_starts_value hForm)))
  | some form =>
      have hValue : Explains False middle (of .value) Next (grow node value middle) :=
        explained_value.grow node middle hReady
      simp only [get_bind]
      cases hGrow : grow node value middle with
      | error failure s' =>
          rw [estate_bind_of_error hGrow]
          exact hSecond (explains_fallback (hGrow ▸ hValue))
      | ok grown s' =>
          rw [hGrow] at hValue
          obtain ⟨value, hMoves', hHas, hOnly⟩ := hValue
          rw [estate_bind_of_ok hGrow, get_bind, tokensBetween_of_moves hMoves']
          cases hFirst : firstVariable? value with
          | none =>
              have hConstant := constant_of_firstVariable? hHas hFirst
              exact hSecond ⟨value, hMoves', ⟨hHas, hConstant⟩, fun u v hu => hOnly u v hu.1⟩
          | some found =>
              obtain ⟨equals, hEquals, rfl⟩ := hRead
              exact explains_keeping grown
                (explains_refusal hs.legal hMoves hEquals hMoves' hHas hFirst)

/-- After its type a variable may have a default, and then directives. -/
theorem explained_variableInside (node : Outline) :
    Explained True n (variableInside node)
      (((sign .equals).seq fallback).opt.seq (of .directive).many)
      Symbol.variableDefinition.Next := by
  intro s hs
  rw [variableInside, isAt_bind]
  refine explains_opt_seq hs (starts_sign .equals).seq (isAt_iff rfl) ?_
    (fun hAt => explains_growDefault node hs hAt)
    fun node => explained_growDirectives node fun t ht => ht.2.2
  exact starts_directive.leads_many
    (by simp +contextual) fun t ht => ht.2.1

/-- A variable definition fails where it ends to be the start of one, or for its default. -/
theorem explained_variableDefinition : Explained True n variableDefinition
    (of .variableDefinition) Symbol.variableDefinition.Next := by
  rw [of_variableDefinition]
  refine (explained_expect _ (by decide)).bind (leads_any _ _) fun dollar =>
    (explained_expectName _).bind (leads_any _ _) fun name s hs => ?_
  rw [isAt_bind]
  cases hAt : s.isAt .colon with
  | false =>
      exact explains_failExpecting_bind _ _ _ hs (starts_sign .colon).seq.leads_self
        ((isAt_eq_false_iff rfl).1 hAt)
  | true =>
      have hRest : (((sign .equals).seq fallback).opt.seq (of .directive).many).Leads
          Symbol.variableDefinition.Next (·.kind ≠ .bang) :=
        ((starts_sign .equals).seq.leads_opt (fun t ht => by simp [ht]) fun _ => id).seq
          (starts_directive.leads_many
            (by simp +contextual) fun t ht => ht.1)
      exact explains_bind (explains_sign hs ((isAt_iff rfl).1 hAt) (by decide)) (leads_any _ _)
        hs.legal fun _ s' _ _ hMoves _ =>
          explained_typeRange.bind hRest (fun type => explained_variableInside _) s'
            (hs.move hMoves)

theorem explained_variableDefinitions :
    Explained True n variableDefinitions (of .variableDefinitions) Next := by
  rw [of_variableDefinitions]
  refine (explained_collection _ explained_variableDefinition (starts_of .variableDefinition)
    (fun t ht => ?_) fun t ht => ?_).of_succ
  · have hDollar : t.kind = .dollar := ht
    simp [Token.Ends, TokenKind.isCloser, Symbol.Next, hDollar]
  · simp [Symbol.Next, Enclosure.closer, ht]

/-- An operation that does not start with a brace starts with one of three words. -/
theorem starts_operationKeyword : operationKeyword.Starts
    fun t => t.kind = .name ∧ t.text ∈ operationWords := starts_one _

/-- A name behind the keyword belongs to the operation. -/
theorem explains_operationHead (hs : s.Ready n)
    (hWord : operationWords.any s.current.isWord = true) (opened : Outline) :
    Explains Refusing s (operationKeyword.seq (sign .name).opt) (·.kind ≠ .name)
      (operationHead opened s) := by
  have hKeyword := any_isWord.1 hWord
  refine explains_bind (explains_keeping opened (explains_advance hs _ hKeyword
    (by simp [hKeyword.1]))) (leads_any _ _) hs.legal fun keyword s' _ _ hMoves _ => ?_
  have hReady := hs.move hMoves
  rw [isAt_bind]
  refine explains_opt _ hReady (starts_sign .name) (isAt_iff rfl) (fun _ => id) fun hAt => ?_
  exact explains_map _ (explains_keeping _ (explains_sign hReady ((isAt_iff rfl).1 hAt)
    (by decide))) hReady.legal

/-- What may follow the name of an operation. -/
theorem explained_operationInside (keyword : Token) (named : Outline) :
    Explained True n (do
        let node ← growDirectives (← growAt .parenOpen named variableDefinitions)
        if ← isAt .curlyOpen then grow node selectionSet
        else keeping node (failExpecting ["\x7b"]
          ("to open the `" ++ keyword.text ++ "` operation's selection set")
          [.spec "https://spec.graphql.org/September2025/#sec-Language.Operations"]))
      operationInside Next := by
  have hRest : ((of .directive).many.seq (of .selectionSet)).Leads Next (·.kind ≠ .parenOpen) :=
    (starts_directive.leads_many (by simp +contextual) fun _ ht => ht.2).seq leads_selectionSet
  refine (explained_growAt named explained_variableDefinitions starts_variableDefinitions rfl
    fun _ => id).bind hRest fun node =>
      (explained_growDirectives node fun _ => id).bind leads_selectionSet fun node s hs => ?_
  rw [isAt_bind]
  cases hAt : s.isAt .curlyOpen with
  | true => exact explained_selectionSet.grow node s hs
  | false =>
      exact explains_keeping _ (explains_failExpecting _ _ _ hs starts_selectionSet.leads_self
        ((isAt_eq_false_iff rfl).1 hAt))

/-- What follows the name of an operation begins with no name. -/
theorem leads_operationInside : operationInside.Leads Next (·.kind ≠ .name) :=
  (starts_variableDefinitions.leads_opt (by simp +contextual) fun _ => id).seq
    ((starts_directive.leads_many (by simp +contextual) fun _ => id).seq
      (starts_selectionSet.leads (by simp +contextual)))

/-- After its head an operation must have selections. -/
theorem explains_operation (hs : s.Ready n)
    (hWord : operationWords.any s.current.isWord = true) :
    Explains True s (operationKeyword.seq ((sign .name).opt.seq operationInside)) Next
      (operation s) := by
  have hNotOpen : s.isAt .curlyOpen = false :=
    (isAt_eq_false_iff rfl).2 (by simp [(any_isWord.1 hWord).1])
  rw [operation, current_bind, isAt_bind, hNotOpen, if_neg Bool.false_ne_true, isAtOneOf_bind,
    hWord, Bool.not_true, if_neg Bool.false_ne_true, ← seq_assoc]
  exact explains_bind (explains_operationHead hs hWord _) leads_operationInside hs.legal
    fun head s' _ _ hMoves _ => explained_operationInside head.1 head.2 s' (hs.move hMoves)

/-- A fragment definition fails where it ends to be the start of one. -/
theorem explained_namedFragment : Explained True n namedFragment
    ((word "fragment").seq (Language.fragmentName.seq ((word "on").seq ((sign .name).seq
      ((of .directive).many.seq (of .selectionSet)))))) Next :=
  (explained_expectWord _ _).bind (leads_any _ _) fun _ =>
    (explained_fragmentName _).bind (leads_any _ _) fun _ =>
      (explained_expectWord _ _).bind (leads_any _ _) fun _ =>
        (explained_expectName _).bind (leads_any _ _) fun _ =>
          explained_directed explained_selectionSet _

/-- Which definition is read is told by its first token. -/
theorem explained_definition : Explained True n definition (of .definition) Next := by
  intro s hs
  rw [definition, isAt_bind, isAtOneOf_bind]
  cases hOpen : s.isAt .curlyOpen with
  | true =>
      have hHere := (isAt_iff rfl).1 hOpen
      rw [Bool.true_or, if_pos rfl, operation, current_bind, isAt_bind, hOpen, if_pos rfl,
        of_definition]
      refine (explained_selectionSet.grow _ s hs).left
        (starts_operationKeyword.seq.either (starts_word "fragment").seq).leads_self ?_
      simp [hHere, Token.isWord]
  | false =>
      have hNotOpen := (isAt_eq_false_iff rfl).1 hOpen
      cases hWord : operationWords.any s.current.isWord with
      | true =>
          obtain ⟨hName, hText⟩ := any_isWord.1 hWord
          rw [Bool.or_true, if_pos rfl, of_definition]
          refine ((explains_operation hs hWord).left (starts_word "fragment").seq.leads_self
            fun hHere => ?_).right starts_selectionSet.leads_self hNotOpen
          rw [(isWord_iff.1 hHere).2] at hText
          exact absurd hText (by decide)
      | false =>
          have hNotOperation := fun hHere =>
            Bool.false_ne_true (hWord.symm.trans (any_isWord.2 hHere))
          rw [Bool.or_self, if_neg Bool.false_ne_true, isAtWord_bind]
          cases hFragment : s.isAtWord "fragment" with
          | true =>
              rw [if_pos rfl, of_definition]
              exact ((explained_namedFragment s hs).right starts_operationKeyword.seq.leads_self
                hNotOperation).right starts_selectionSet.leads_self hNotOpen
          | false =>
              refine explains_failExpecting _ _ _ hs (starts_of .definition).leads_self ?_
              rintro (hHere | ⟨hName, hText | hText⟩)
              · exact hNotOpen hHere
              · exact hNotOperation ⟨hName, hText⟩
              · exact Bool.false_ne_true (hFragment.symm.trans (isWord_iff.2 ⟨hName, hText⟩))

/-- By induction on the rounds, up to the end of the text. -/
theorem explains_growDefinitions {rounds : Nat} (node : Outline) (hs : s.Ready rounds) :
    Explains True s (of .definition).many (·.kind = .eof) (growDefinitions rounds node s) := by
  induction rounds generalizing s node with
  | zero => exact absurd hs not_ready_zero
  | succ rounds ih =>
      have hStarts := starts_of .definition
      have hEof {t : Token} (ht : t.kind = .eof) : ¬ Symbol.definition.Starts t := by
        simp [Symbol.Starts, ht]
      rw [growDefinitions, get_bind, many_eq]
      cases hEnd : s.atEnd with
      | true =>
          exact (explains_pure node hs.closed).left hStarts.seq.leads_self
            (hEof (atEnd_iff.1 hEnd))
      | false =>
          rw [if_neg Bool.false_ne_true]
          refine (explains_bind (explained_definition.grow node s hs) (leads_any _ _) hs.legal
            fun grown s' _ _ hMoves hRead => ?_).right (leads_nothing fun _ => id)
            (atEnd_eq_false_iff.1 hEnd)
          exact ih grown (hs.leave hMoves (hStarts.has_ne_nil hRead))

/-- A document fails where it ends to be the start of one, or for a default. -/
theorem explained_document :
    Explained True n document (of .document) (·.kind = .eof) := by
  intro s hs
  rw [document, current_bind, get_bind]
  cases hEnd : s.atEnd with
  | true =>
      exact explains_keeping _ (explains_failExpecting _ _ _ hs (starts_of .document).leads_self
        (by simp [Symbol.Starts, atEnd_iff.1 hEnd]))
  | false =>
      rw [if_neg Bool.false_ne_true, bound_bind, of_document, TokenStream.remaining,
        List.length_cons, growDefinitions, get_bind, hEnd, if_neg Bool.false_ne_true]
      refine explains_bind (explained_definition.grow _ s hs) (leads_any _ _) hs.legal
        fun grown s' _ _ hMoves hRead => explains_growDefinitions grown ?_
      exact hs.tight.leave hMoves ((starts_of .definition).has_ne_nil hRead)

end GraphQL.Grammar
