import GraphQL.Proofs.Grammar.Document

/-! The grammar as languages built from one another. Each language has a strict form, where defaults
are constant, and a loose form, where any value may be a default: what is read is in the strict one,
and what might still be read is measured against the loose one. -/
namespace GraphQL

/-- A token of the given kind, to show that there are some. -/
def Token.sample (kind : TokenKind) (text : String := "") : Token := ⟨kind, default, text⟩

/-- What a default has to be in the strict and in the loose form of the grammar. -/
def DefaultRule : Bool → List Token → Prop
  | true => Constant
  | false => fun _ => True

/-- Some lists of tokens, at least one of which is strict. -/
structure Language where
  /-- The lists of the strict form or of the loose one. -/
  has : Bool → List Token → Prop
  loosen : ∀ {ts}, has true ts → has false ts
  exists_has : ∃ ts, has true ts

namespace Language

variable {A B C : Language} {P Q Next : Token → Prop} {b : Bool} {ts : List Token}

theorem eq_of_has (h : ∀ b ts, A.has b ts ↔ B.has b ts) : A = B := by
  have hSays : A.has = B.has := funext fun b => funext fun ts => propext (h b ts)
  cases A
  cases B
  cases hSays
  rfl

/-- The empty list. -/
def nothing : Language := ⟨fun _ ts => ts = [], id, [], rfl⟩

def one (P : Token → Prop) (h : ∃ t, P t) : Language where
  has _ ts := ∃ t, P t ∧ ts = [t]
  loosen := id
  exists_has := h.elim fun t ht => ⟨[t], t, ht, rfl⟩

/-- One token of the given kind. -/
def sign (kind : TokenKind) : Language := one (·.kind = kind) ⟨.sample kind, rfl⟩

/-- The name `word`. -/
def word (word : String) : Language :=
  one (·.isWord word = true) ⟨.sample .name word, by simp [Token.sample, Token.isWord]⟩

def seq (A B : Language) : Language where
  has b ts := ∃ u v, A.has b u ∧ B.has b v ∧ ts = u ++ v
  loosen := fun ⟨u, v, hu, hv, h⟩ => ⟨u, v, A.loosen hu, B.loosen hv, h⟩
  exists_has := by
    obtain ⟨u, hu⟩ := A.exists_has
    obtain ⟨v, hv⟩ := B.exists_has
    exact ⟨u ++ v, u, v, hu, hv, rfl⟩

def either (A B : Language) : Language where
  has b ts := A.has b ts ∨ B.has b ts
  loosen := Or.imp A.loosen B.loosen
  exists_has := A.exists_has.imp fun _ => .inl

def opt (A : Language) : Language := nothing.either A

def many (A : Language) : Language where
  has b ts := ∃ lists : List (List Token), (∀ l ∈ lists, A.has b l) ∧ ts = lists.flatten
  loosen := fun ⟨lists, hLists, h⟩ => ⟨lists, fun l hl => A.loosen (hLists l hl), h⟩
  exists_has := ⟨[], [], by simp, rfl⟩

/-- Any number of phrases between delimiters. -/
def enclosed (enclosure : Enclosure) (A : Language) : Language :=
  (sign enclosure.opener).seq (A.many.seq (sign enclosure.closer))

theorem seq_assoc (A B C : Language) : (A.seq B).seq C = A.seq (B.seq C) := by
  refine eq_of_has fun b ts => ⟨?_, ?_⟩
  · rintro ⟨_, w, ⟨u, v, hu, hv, rfl⟩, hw, rfl⟩
    exact ⟨u, v ++ w, hu, ⟨v, w, hv, hw, rfl⟩, List.append_assoc u v w⟩
  · rintro ⟨u, _, hu, ⟨v, w, hv, hw, rfl⟩, rfl⟩
    exact ⟨u ++ v, w, ⟨u, v, hu, hv, rfl⟩, hw, (List.append_assoc u v w).symm⟩

/-- After any number of lists comes what follows, or another list first. -/
theorem many_seq (A C : Language) : A.many.seq C = C.either (A.seq (A.many.seq C)) := by
  refine eq_of_has fun b ts => ⟨?_, ?_⟩
  · rintro ⟨_, w, ⟨lists, hLists, rfl⟩, hw, rfl⟩
    cases lists with
    | nil => exact .inl hw
    | cons first rest =>
        obtain ⟨hFirst, hRest⟩ := List.forall_mem_cons.1 hLists
        exact .inr ⟨first, _, hFirst, ⟨_, w, ⟨rest, hRest, rfl⟩, hw, rfl⟩, by simp⟩
  · rintro (hts | ⟨first, _, hFirst, ⟨_, w, ⟨rest, hRest, rfl⟩, hw, rfl⟩, rfl⟩)
    · exact ⟨[], ts, ⟨[], by simp, rfl⟩, hts, rfl⟩
    · exact ⟨_, w, ⟨first :: rest, List.forall_mem_cons.2 ⟨hFirst, hRest⟩, rfl⟩, hw, by simp⟩

theorem seq_nothing (A : Language) : A.seq nothing = A := by
  refine eq_of_has fun b ts => ⟨?_, fun h => ⟨ts, [], h, rfl, (List.append_nil ts).symm⟩⟩
  rintro ⟨u, _, hu, rfl, rfl⟩
  rwa [List.append_nil]

/-- Any number of lists is none, or one and any number more. -/
theorem many_eq (A : Language) : A.many = (A.seq A.many).opt := by
  have h := many_seq A nothing
  rwa [seq_nothing] at h

/-- Every list begins with a token that satisfies `P`, or is empty and what follows it does. -/
def Leads (A : Language) (Next P : Token → Prop) : Prop :=
  ∀ u v, A.has false u → Begins Next v → Begins P (u ++ v)

/-- Every list begins with a token that satisfies `P`. -/
def Starts (A : Language) (P : Token → Prop) : Prop := ∀ ts, A.has false ts → Begins P ts

theorem Starts.has_ne_nil (h : A.Starts P) (hts : A.has true ts) : ts ≠ [] :=
  (h ts (A.loosen hts)).ne_nil

/-- A language that starts with a token leads with it, whatever follows. -/
theorem Starts.leads (h : A.Starts Q) (hQ : ∀ t, Q t → P t) : A.Leads Next P :=
  fun u _ hu _ => ((h u hu).mono hQ).append

theorem Starts.leads_self (h : A.Starts P) : A.Leads Next P := h.leads fun _ => id

/-- A row of languages starts as the first does, if that has no empty list. -/
theorem Starts.seq (h : A.Starts P) : (A.seq B).Starts P := by
  rintro _ ⟨u, v, hu, -, rfl⟩
  exact (h u hu).append

/-- A choice starts with what either starts with. -/
theorem Starts.either (hA : A.Starts P) (hB : B.Starts Q) :
    (A.either B).Starts fun t => P t ∨ Q t := by
  rintro ts (h | h)
  · exact (hA ts h).mono fun _ => .inl
  · exact (hB ts h).mono fun _ => .inr

theorem starts_one (h : ∃ t, P t) : (one P h).Starts P := by
  rintro _ ⟨t, ht, rfl⟩
  exact ht

theorem starts_sign (kind : TokenKind) : (sign kind).Starts (·.kind = kind) := starts_one _

theorem starts_word (w : String) : (word w).Starts (·.isWord w = true) := starts_one _

/-- The empty list leads with what follows. -/
theorem leads_nothing (h : ∀ t, Next t → P t) : nothing.Leads Next P := by
  rintro _ v rfl hv
  exact hv.mono h

theorem Leads.either (hA : A.Leads Next P) (hB : B.Leads Next P) :
    (A.either B).Leads Next P := by
  rintro u v (hu | hu) hv
  · exact hA u v hu hv
  · exact hB u v hu hv

theorem Leads.seq (hA : A.Leads Q P) (hB : B.Leads Next Q) : (A.seq B).Leads Next P := by
  rintro _ w ⟨u, v, hu, hv, rfl⟩ hw
  rw [List.append_assoc]
  exact hA u (v ++ w) hu (hB v w hv hw)

/-- An optional part leads with its start or with what follows. -/
theorem Starts.leads_opt (h : A.Starts Q) (hQ : ∀ t, Q t → P t) (hNext : ∀ t, Next t → P t) :
    A.opt.Leads Next P := (leads_nothing hNext).either (h.leads hQ)

/-- A repetition leads with the start of its parts or with what follows. -/
theorem Starts.leads_many (h : A.Starts Q) (hQ : ∀ t, Q t → P t) (hNext : ∀ t, Next t → P t) :
    A.many.Leads Next P := by
  rw [many_eq]
  exact h.seq.leads_opt hQ hNext

end Language

/-- A weaker rule for defaults allows more. -/
theorem Derives.mono {D E : List Token → Prop} (hDefault : ∀ ts, D ts → E ts) {x : Symbol}
    {ts : List Token} (h : Derives D x ts) : Derives E x ts := by
  induction h with
  | document hSome _ ih => exact .document hSome ih
  | shorthand _ ih => exact .shorthand ih
  | operation hKeyword hName _ _ _ ihVariables ihDirectives ihSelections =>
      exact .operation hKeyword hName ihVariables ihDirectives ihSelections
  | fragment hKeyword hName hNotOn hOn hType _ _ ihDirectives ihSelections =>
      exact .fragment hKeyword hName hNotOn hOn hType ihDirectives ihSelections
  | variableDefinitions hOpen _ hClose ih => exact .variableDefinitions hOpen ih hClose
  | variableDefinition default hDollar hName hColon hType hEquals _ hKeeps _ ihDefault
      ihDirectives =>
      exact .variableDefinition default hDollar hName hColon hType hEquals ihDefault
        (fun d hd => hDefault _ (hKeeps d hd)) ihDirectives
  | directive hSign hName _ ih => exact .directive hSign hName ih
  | arguments hOpen _ hClose ih => exact .arguments hOpen ih hClose
  | argument hName hColon _ ih => exact .argument hName hColon ih
  | selectionSet hOpen _ hClose ih => exact .selectionSet hOpen ih hClose
  | field hFirst hName _ _ _ ihArguments ihDirectives ihSelections =>
      exact .field hFirst hName ihArguments ihDirectives ihSelections
  | spread hDots hName hNotOn _ ih => exact .spread hDots hName hNotOn ih
  | inline hDots hCondition _ _ ihDirectives ihSelections =>
      exact .inline hDots hCondition ihDirectives ihSelections
  | literal hKind => exact .literal hKind
  | variableUsage hDollar hName => exact .variableUsage hDollar hName
  | list hOpen _ hClose ih => exact .list hOpen ih hClose
  | object hOpen _ hClose ih => exact .object hOpen ih hClose

theorem Derives.begins {D : List Token → Prop} {x : Symbol} {ts : List Token}
    (h : Derives D x ts) : Begins x.Starts ts := by
  induction h with
  | document hSome _ ih =>
      obtain ⟨first, rest, rfl⟩ := List.exists_cons_of_ne_nil hSome
      exact (ih first List.mem_cons_self).append
  | shorthand _ ih => exact ih.mono fun t ht => .inl ht
  | operation hKeyword =>
      obtain ⟨hKind, hText⟩ := operationWord_iff.1 hKeyword
      exact .inr ⟨hKind, .inl hText⟩
  | fragment hKeyword =>
      obtain ⟨hKind, hText⟩ := Grammar.isWord_iff.1 hKeyword
      exact .inr ⟨hKind, .inr hText⟩
  | variableDefinitions hOpen | arguments hOpen | selectionSet hOpen => exact hOpen
  | variableDefinition _ hDollar => exact hDollar
  | directive hSign => exact hSign
  | argument hName => exact hName
  | field hFirst => exact .inl hFirst
  | spread hDots | inline hDots => exact .inr hDots
  | literal hKind =>
      rcases hKind with hKind | hKind | hKind
      · simp [Begins, Symbol.Starts, Grammar.ValueForm.startingAt?, hKind]
      · simp [Begins, Symbol.Starts, Grammar.ValueForm.startingAt?, hKind]
      · exact Grammar.startingAt?_of_name hKind
  | variableUsage hDollar => simp [Begins, Symbol.Starts, Grammar.ValueForm.startingAt?, hDollar]
  | list hOpen | object hOpen =>
      simp [Begins, Symbol.Starts, Grammar.ValueForm.startingAt?, hOpen]

/-- There are phrases of every kind. -/
theorem exists_derives (D : List Token → Prop) (x : Symbol) : ∃ ts, Derives D x ts := by
  have hNone {y : Symbol} : ∀ ts ∈ ([] : List (List Token)), Derives D y ts := by simp
  have hAbsent {y : Symbol} : ∀ ts ∈ (none : Option (List Token)), Derives D y ts := by simp
  have hSelections : Derives D .selectionSet [.sample .curlyOpen, .sample .curlyClose] :=
    .selectionSet rfl hNone rfl
  have hValue : Derives D .value [.sample .name] := .literal (.inr (.inr rfl))
  cases x with
  | document =>
      have hDefinitions : ∀ ts ∈ [[Token.sample .curlyOpen, .sample .curlyClose]],
          Derives D .definition ts := by simpa using Derives.shorthand hSelections
      exact ⟨_, .document (List.cons_ne_nil _ _) hDefinitions⟩
  | definition => exact ⟨_, .shorthand hSelections⟩
  | variableDefinitions =>
      exact ⟨[.sample .parenOpen, .sample .parenClose], .variableDefinitions rfl hNone rfl⟩
  | variableDefinition =>
      exact ⟨[.sample .dollar, .sample .name, .sample .colon, .sample .name],
        .variableDefinition none rfl rfl rfl (.named rfl (.inl rfl)) (by simp) (by simp) (by simp)
          hNone⟩
  | directive => exact ⟨[.sample .atSign, .sample .name], .directive rfl rfl hAbsent⟩
  | arguments => exact ⟨[.sample .parenOpen, .sample .parenClose], .arguments rfl hNone rfl⟩
  | argument => exact ⟨[.sample .name, .sample .colon, .sample .name], .argument rfl rfl hValue⟩
  | selectionSet => exact ⟨_, hSelections⟩
  | selection =>
      have hAlias : ∀ n ∈ (none : Option (Token × Token)),
          n.1.kind = .colon ∧ n.2.kind = .name := by simp
      exact ⟨[.sample .name], .field rfl hAlias hAbsent hNone hAbsent⟩
  | value => exact ⟨_, hValue⟩

namespace Language

/-- The phrases of a kind. -/
def of (x : Symbol) : Language where
  has b := Derives (DefaultRule b) x
  loosen := fun h => h.mono fun _ _ => trivial
  exists_has := exists_derives Constant x

/-- The values that may be defaults. -/
def fallback : Language where
  has b ts := Derives (DefaultRule b) .value ts ∧ DefaultRule b ts
  loosen := fun h => ⟨h.1.mono fun _ _ => trivial, trivial⟩
  exists_has := ⟨[.sample .name], .literal (.inr (.inr rfl)),
    by simp [DefaultRule, Constant, Token.sample]⟩

def type : Language where
  has _ := IsType
  loosen := id
  exists_has := ⟨[.sample .name], .named rfl (.inl rfl)⟩

/-- Any name but `on`. -/
def fragmentName : Language :=
  one (fun t => t.kind = .name ∧ t.text ≠ "on") ⟨.sample .name, rfl, by decide⟩

/-- A literal, a constant name or an enumeration value. -/
def literal : Language :=
  one (fun t => t.kind = .number ∨ t.kind = .string ∨ t.kind = .name)
    ⟨.sample .name, .inr (.inr rfl)⟩

def operationKeyword : Language :=
  one (fun t => t.kind = .name ∧ t.text ∈ Grammar.operationWords)
    ⟨.sample .name "query", rfl, by decide⟩

/-- What follows the name of a field. -/
def fieldInside : Language :=
  (of .arguments).opt.seq ((of .directive).many.seq (of .selectionSet).opt)

/-- What follows the name of a fragment that is spread. -/
def spreadInside : Language := fragmentName.seq (of .directive).many

/-- What follows the dots of an inline fragment. -/
def inlineInside : Language :=
  ((word "on").seq (sign .name)).opt.seq ((of .directive).many.seq (of .selectionSet))

/-- What follows the name of an operation. -/
def operationInside : Language :=
  (of .variableDefinitions).opt.seq ((of .directive).many.seq (of .selectionSet))

variable {A B : Language} {P Q : Token → Prop} {b : Bool} {ts : List Token}

@[simp] theorem has_of {x : Symbol} : (of x).has b ts ↔ Derives (DefaultRule b) x ts := Iff.rfl

theorem starts_of (x : Symbol) : (of x).Starts x.Starts := fun _ h => h.begins

theorem starts_arguments : (of .arguments).Starts (·.kind = .parenOpen) := starts_of .arguments

theorem starts_variableDefinitions : (of .variableDefinitions).Starts (·.kind = .parenOpen) :=
  starts_of .variableDefinitions

theorem starts_directive : (of .directive).Starts (·.kind = .atSign) := starts_of .directive

theorem starts_selectionSet : (of .selectionSet).Starts (·.kind = .curlyOpen) :=
  starts_of .selectionSet

theorem starts_type : type.Starts fun t => t.kind = .name ∨ t.kind = .squareOpen := by
  intro ts h
  cases h with
  | named hName => exact .inl hName
  | list hOpen => exact .inr hOpen

theorem has_sign {kind : TokenKind} {token : Token} (h : token.kind = kind) :
    (sign kind).has b [token] := ⟨token, h, rfl⟩

theorem has_opt (piece : Option (List Token)) (h : ∀ ts ∈ piece, A.has b ts) :
    A.opt.has b piece.toList.flatten := by
  cases piece with
  | none => exact .inl rfl
  | some ts => exact .inr (by simpa using h ts rfl)

/-- A list of an optional language is one of the language or missing. -/
theorem exists_of_has_opt (h : A.opt.has b ts) :
    ∃ piece : Option (List Token), (∀ l ∈ piece, A.has b l) ∧ ts = piece.toList.flatten := by
  rcases h with rfl | h
  · exact ⟨none, by simp, rfl⟩
  · exact ⟨some ts, by simpa using h, by simp⟩

/-- Two tokens, or none. -/
theorem has_pair {hP : ∃ t, P t} {hQ : ∃ t, Q t} (pair : Option (Token × Token))
    (h : ∀ n ∈ pair, P n.1 ∧ Q n.2) :
    ((one P hP).seq (one Q hQ)).opt.has b (pair.toList.flatMap fun n => [n.1, n.2]) := by
  cases pair with
  | none => exact .inl rfl
  | some n =>
      obtain ⟨hFirst, hSecond⟩ := h n rfl
      exact .inr ⟨[n.1], [n.2], ⟨_, hFirst, rfl⟩, ⟨_, hSecond, rfl⟩, by simp⟩

/-- An optional pair of tokens is there as a whole or not at all. -/
theorem exists_of_has_pair {hP : ∃ t, P t} {hQ : ∃ t, Q t}
    (h : ((one P hP).seq (one Q hQ)).opt.has b ts) :
    ∃ pair : Option (Token × Token), (∀ n ∈ pair, P n.1 ∧ Q n.2) ∧
      ts = pair.toList.flatMap fun n => [n.1, n.2] := by
  rcases h with rfl | ⟨_, _, ⟨first, hFirst, rfl⟩, ⟨second, hSecond, rfl⟩, rfl⟩
  · exact ⟨none, by simp, rfl⟩
  · exact ⟨some (first, second), by simp [hFirst, hSecond], by simp⟩

/-- A collection is a language between delimiters. -/
theorem of_enclosed (x item : Symbol) (enclosure : Enclosure)
    (h : ∀ b ts, Derives (DefaultRule b) x ts ↔ ∃ opening lists closing,
      opening.kind = enclosure.opener ∧ (∀ l ∈ lists, Derives (DefaultRule b) item l) ∧
      closing.kind = enclosure.closer ∧ ts = opening :: (List.flatten lists ++ [closing])) :
    of x = enclosed enclosure (of item) := by
  refine eq_of_has fun b ts => (h b ts).trans ⟨?_, ?_⟩
  · rintro ⟨opening, lists, closing, hOpen, hLists, hClose, rfl⟩
    exact ⟨_, _, has_sign hOpen, ⟨_, _, ⟨lists, hLists, rfl⟩, has_sign hClose, rfl⟩, rfl⟩
  · rintro ⟨_, _, ⟨opening, hOpen, rfl⟩, ⟨_, _, ⟨lists, hLists, rfl⟩, ⟨closing, hClose, rfl⟩, rfl⟩,
      rfl⟩
    exact ⟨opening, lists, closing, hOpen, hLists, hClose, rfl⟩

theorem of_arguments : of .arguments = enclosed .arguments (of .argument) := by
  refine of_enclosed _ _ _ fun b ts => ⟨fun h => ?_, ?_⟩
  · cases h with
    | arguments hOpen hItems hClose => exact ⟨_, _, _, hOpen, hItems, hClose, rfl⟩
  · rintro ⟨_, _, _, hOpen, hItems, hClose, rfl⟩
    exact .arguments hOpen hItems hClose

theorem of_selectionSet : of .selectionSet = enclosed .selectionSet (of .selection) := by
  refine of_enclosed _ _ _ fun b ts => ⟨fun h => ?_, ?_⟩
  · cases h with
    | selectionSet hOpen hItems hClose => exact ⟨_, _, _, hOpen, hItems, hClose, rfl⟩
  · rintro ⟨_, _, _, hOpen, hItems, hClose, rfl⟩
    exact .selectionSet hOpen hItems hClose

theorem of_variableDefinitions :
    of .variableDefinitions = enclosed .variableDefinitions (of .variableDefinition) := by
  refine of_enclosed _ _ _ fun b ts => ⟨fun h => ?_, ?_⟩
  · cases h with
    | variableDefinitions hOpen hItems hClose => exact ⟨_, _, _, hOpen, hItems, hClose, rfl⟩
  · rintro ⟨_, _, _, hOpen, hItems, hClose, rfl⟩
    exact .variableDefinitions hOpen hItems hClose

theorem of_argument :
    of .argument = (sign .name).seq ((sign .colon).seq (of .value)) := by
  refine eq_of_has fun b ts => ⟨fun h => ?_, ?_⟩
  · cases h with
    | argument hName hColon hValue =>
        exact ⟨_, _, has_sign hName, ⟨_, _, has_sign hColon, hValue, rfl⟩, rfl⟩
  · rintro ⟨_, _, ⟨_, hName, rfl⟩, ⟨_, _, ⟨_, hColon, rfl⟩, hValue, rfl⟩, rfl⟩
    exact .argument hName hColon hValue

/-- The language of values, by the forms that they have. -/
theorem of_value : of .value = literal.either (((sign .dollar).seq (sign .name)).either
    ((enclosed .listValue (of .value)).either (enclosed .objectValue (of .argument)))) := by
  refine eq_of_has fun b ts => ⟨fun h => ?_, ?_⟩
  · cases h with
    | literal hKind => exact .inl ⟨_, hKind, rfl⟩
    | variableUsage hDollar hName =>
        exact .inr (.inl ⟨_, _, has_sign hDollar, has_sign hName, rfl⟩)
    | list hOpen hItems hClose =>
        exact .inr (.inr (.inl ⟨_, _, has_sign hOpen,
          ⟨_, _, ⟨_, hItems, rfl⟩, has_sign hClose, rfl⟩, rfl⟩))
    | object hOpen hItems hClose =>
        exact .inr (.inr (.inr ⟨_, _, has_sign hOpen,
          ⟨_, _, ⟨_, hItems, rfl⟩, has_sign hClose, rfl⟩, rfl⟩))
  · rintro (⟨_, hKind, rfl⟩ | ⟨_, _, ⟨_, hDollar, rfl⟩, ⟨_, hName, rfl⟩, rfl⟩ |
      ⟨_, _, ⟨_, hOpen, rfl⟩, ⟨_, _, ⟨_, hItems, rfl⟩, ⟨_, hClose, rfl⟩, rfl⟩, rfl⟩ |
      ⟨_, _, ⟨_, hOpen, rfl⟩, ⟨_, _, ⟨_, hItems, rfl⟩, ⟨_, hClose, rfl⟩, rfl⟩, rfl⟩)
    · exact .literal hKind
    · exact .variableUsage hDollar hName
    · exact .list hOpen hItems hClose
    · exact .object hOpen hItems hClose

theorem of_directive :
    of .directive = (sign .atSign).seq ((sign .name).seq (of .arguments).opt) := by
  refine eq_of_has fun b ts => ⟨fun h => ?_, ?_⟩
  · cases h with
    | directive hSign hName hArguments =>
        exact ⟨_, _, has_sign hSign, ⟨_, _, has_sign hName, has_opt _ hArguments, rfl⟩, rfl⟩
  · rintro ⟨_, _, ⟨_, hSign, rfl⟩, ⟨_, _, ⟨_, hName, rfl⟩, hFound, rfl⟩, rfl⟩
    obtain ⟨arguments, hArguments, rfl⟩ := exists_of_has_opt hFound
    exact .directive hSign hName hArguments

/-- The language of types, by what they start with. -/
theorem type_eq : type = ((sign .name).seq (sign .bang).opt).either
    ((sign .squareOpen).seq (type.seq ((sign .squareClose).seq (sign .bang).opt))) := by
  refine eq_of_has fun b ts => ⟨fun h => ?_, ?_⟩
  · cases h with
    | named hName hMark => exact .inl ⟨_, _, has_sign hName, hMark, rfl⟩
    | list hOpen hItem hClose hMark =>
        exact .inr ⟨_, _, has_sign hOpen, ⟨_, _, hItem, ⟨_, _, has_sign hClose, hMark, rfl⟩, rfl⟩,
          rfl⟩
  · rintro (⟨_, _, ⟨_, hName, rfl⟩, hMark, rfl⟩ |
      ⟨_, _, ⟨_, hOpen, rfl⟩, ⟨_, _, hItem, ⟨_, _, ⟨_, hClose, rfl⟩, hMark, rfl⟩, rfl⟩, rfl⟩)
    · exact .named hName hMark
    · exact .list hOpen hItem hClose hMark

theorem of_variableDefinition : of .variableDefinition =
    (sign .dollar).seq ((sign .name).seq ((sign .colon).seq (type.seq
      (((sign .equals).seq fallback).opt.seq (of .directive).many)))) := by
  refine eq_of_has fun b ts => ⟨fun h => ?_, ?_⟩
  · cases h with
    | variableDefinition found hDollar hName hColon hType hEquals hValue hDefault hDirectives =>
        have hFound : ((sign .equals).seq fallback).opt.has b
            (found.toList.flatMap fun d => d.1 :: d.2) := by
          cases found with
          | none => exact .inl rfl
          | some d => exact .inr ⟨[d.1], d.2, has_sign (hEquals d rfl),
              ⟨hValue d rfl, hDefault d rfl⟩, by simp⟩
        exact ⟨_, _, has_sign hDollar, ⟨_, _, has_sign hName, ⟨_, _, has_sign hColon,
          ⟨_, _, hType, ⟨_, _, hFound, ⟨_, hDirectives, rfl⟩, rfl⟩, rfl⟩, rfl⟩, rfl⟩, rfl⟩
  · rintro ⟨_, _, ⟨_, hDollar, rfl⟩, ⟨_, _, ⟨_, hName, rfl⟩, ⟨_, _, ⟨_, hColon, rfl⟩, ⟨_, _, hType,
      ⟨_, _, hFound, ⟨directives, hDirectives, rfl⟩, rfl⟩, rfl⟩, rfl⟩, rfl⟩, rfl⟩
    rcases hFound with rfl | ⟨_, value, ⟨equals, hEquals, rfl⟩, ⟨hValue, hDefault⟩, rfl⟩
    · exact .variableDefinition none hDollar hName hColon hType (by simp) (by simp) (by simp)
        hDirectives
    · have hWhole := Derives.variableDefinition (some (equals, value)) hDollar hName hColon hType
        (by simpa using hEquals) (by simpa using hValue) (by simpa using hDefault) hDirectives
      simp only [Option.toList_some, List.flatMap_singleton] at hWhole
      exact hWhole

/-- The language of selections: a name starts a field, and dots start one of the two others. -/
theorem of_selection : of .selection =
    ((sign .name).seq (((sign .colon).seq (sign .name)).opt.seq fieldInside)).either
      ((sign .ellipsis).seq (spreadInside.either inlineInside)) := by
  refine eq_of_has fun b ts => ⟨fun h => ?_, ?_⟩
  · cases h with
    | field hFirst hName hArguments hDirectives hSelections =>
        refine .inl ⟨_, _, has_sign hFirst, ⟨_, _, has_pair _ hName, ⟨_, _, has_opt _ hArguments,
          ⟨_, _, ⟨_, hDirectives, rfl⟩, has_opt _ hSelections, rfl⟩, rfl⟩, rfl⟩, ?_⟩
        simp
    | spread hDots hName hNotOn hDirectives =>
        exact .inr ⟨_, _, has_sign hDots,
          .inl ⟨_, _, ⟨_, ⟨hName, hNotOn⟩, rfl⟩, ⟨_, hDirectives, rfl⟩, rfl⟩, rfl⟩
    | inline hDots hCondition hDirectives hSelections =>
        exact .inr ⟨_, _, has_sign hDots, .inr ⟨_, _, has_pair _ hCondition,
          ⟨_, _, ⟨_, hDirectives, rfl⟩, hSelections, rfl⟩, rfl⟩, rfl⟩
  · rintro (⟨_, _, ⟨first, hFirst, rfl⟩, ⟨_, _, hName, ⟨_, _, hArguments,
      ⟨_, _, ⟨directives, hDirectives, rfl⟩, hSelections, rfl⟩, rfl⟩, rfl⟩, rfl⟩ |
      ⟨_, _, ⟨dots, hDots, rfl⟩,
        ⟨_, _, ⟨name, ⟨hName, hNotOn⟩, rfl⟩, ⟨directives, hDirectives, rfl⟩, rfl⟩ |
        ⟨_, _, hCondition, ⟨_, _, ⟨directives, hDirectives, rfl⟩, hSelections, rfl⟩, rfl⟩, rfl⟩)
    · obtain ⟨name, hPair, rfl⟩ := exists_of_has_pair hName
      obtain ⟨arguments, hArgument, rfl⟩ := exists_of_has_opt hArguments
      obtain ⟨selections, hSelection, rfl⟩ := exists_of_has_opt hSelections
      simpa using Derives.field hFirst hPair hArgument hDirectives hSelection
    · exact .spread hDots hName hNotOn hDirectives
    · obtain ⟨condition, hPair, rfl⟩ := exists_of_has_pair hCondition
      exact .inline hDots hPair hDirectives hSelections

/-- The language of definitions: selections alone, an operation with a keyword, or a fragment. -/
theorem of_definition : of .definition =
    (of .selectionSet).either ((operationKeyword.seq ((sign .name).opt.seq operationInside)).either
      ((word "fragment").seq (fragmentName.seq ((word "on").seq ((sign .name).seq
        ((of .directive).many.seq (of .selectionSet))))))) := by
  refine eq_of_has fun b ts => ⟨fun h => ?_, ?_⟩
  · cases h with
    | shorthand hSelections => exact .inl hSelections
    | @operation keyword name _ _ _ hKeyword hName hVariables hDirectives hSelections =>
        have hFound : (sign .name).opt.has b name.toList := by
          cases name with
          | none => exact .inl rfl
          | some t => exact .inr (has_sign (hName t rfl))
        refine .inr (.inl ⟨_, _, ⟨_, operationWord_iff.1 hKeyword, rfl⟩, ⟨_, _, hFound,
          ⟨_, _, has_opt _ hVariables, ⟨_, _, ⟨_, hDirectives, rfl⟩, hSelections, rfl⟩, rfl⟩,
          rfl⟩, ?_⟩)
        simp
    | fragment hKeyword hName hNotOn hOn hType hDirectives hSelections =>
        exact .inr (.inr ⟨_, _, ⟨_, hKeyword, rfl⟩, ⟨_, _, ⟨_, ⟨hName, hNotOn⟩, rfl⟩, ⟨_, _,
          ⟨_, hOn, rfl⟩, ⟨_, _, has_sign hType, ⟨_, _, ⟨_, hDirectives, rfl⟩, hSelections, rfl⟩,
          rfl⟩, rfl⟩, rfl⟩, rfl⟩)
  · rintro (hSelections | ⟨_, _, ⟨keyword, hKeyword, rfl⟩, ⟨_, _, hName, ⟨_, _, hVariables,
      ⟨_, _, ⟨directives, hDirectives, rfl⟩, hSelections, rfl⟩, rfl⟩, rfl⟩, rfl⟩ |
      ⟨_, _, ⟨keyword, hKeyword, rfl⟩, ⟨_, _, ⟨name, ⟨hName, hNotOn⟩, rfl⟩, ⟨_, _, ⟨on, hOn, rfl⟩,
        ⟨_, _, ⟨type, hType, rfl⟩, ⟨_, _, ⟨directives, hDirectives, rfl⟩, hSelections, rfl⟩, rfl⟩,
        rfl⟩, rfl⟩, rfl⟩)
    · exact .shorthand hSelections
    · obtain ⟨declared, hDeclared, rfl⟩ := exists_of_has_opt hVariables
      have hOperation {name : Option Token} (hName : ∀ t ∈ name, t.kind = .name) :=
        Derives.operation (operationWord_iff.2 hKeyword) hName hDeclared hDirectives hSelections
      rcases hName with rfl | ⟨name, hName, rfl⟩
      · have hNone : ∀ t ∈ (none : Option Token), t.kind = .name := by simp
        simpa using hOperation hNone
      · have hSome : ∀ t ∈ some name, t.kind = .name := by simpa using hName
        simpa using hOperation hSome
    · exact .fragment hKeyword hName hNotOn hOn hType hDirectives hSelections

/-- A document is one definition and any number more. -/
theorem of_document : of .document = (of .definition).seq (of .definition).many := by
  refine eq_of_has fun b ts => ⟨fun h => ?_, ?_⟩
  · cases h with
    | document hSome hDefinitions =>
        obtain ⟨first, rest, rfl⟩ := List.exists_cons_of_ne_nil hSome
        obtain ⟨hFirst, hRest⟩ := List.forall_mem_cons.1 hDefinitions
        exact ⟨first, _, hFirst, ⟨rest, hRest, rfl⟩, rfl⟩
  · rintro ⟨first, _, hFirst, ⟨rest, hRest, rfl⟩, rfl⟩
    exact .document (List.cons_ne_nil first rest) (List.forall_mem_cons.2 ⟨hFirst, hRest⟩)

end Language

end GraphQL
