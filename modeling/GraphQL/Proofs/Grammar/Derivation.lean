import GraphQL.Proofs.Grammar.Completeness
import GraphQL.Grammar.Production

/-! The grammar of documents as rules over tokens alone, and the main statement about it: a text is
read exactly if its tokens have no fault among them and the rules derive them as a document. -/
namespace GraphQL

/-- The tokens that the grammar derives as each kind of phrase, where a value may be the default of
a variable if it satisfies `Default`. -/
inductive Derives (Default : List Token → Prop) : Symbol → List Token → Prop where
  | document {definitions : List (List Token)} (hSome : definitions ≠ [])
      (hDefinitions : ∀ ts ∈ definitions, Derives Default .definition ts) :
      Derives Default .document definitions.flatten
  | shorthand {selections : List Token} (hSelections : Derives Default .selectionSet selections) :
      Derives Default .definition selections
  | operation {keyword : Token} {name : Option Token} {declared : Option (List Token)}
      {directives : List (List Token)} {selections : List Token}
      (hKeyword : keyword.isWord "query" = true ∨ keyword.isWord "mutation" = true ∨
        keyword.isWord "subscription" = true)
      (hName : ∀ t ∈ name, t.kind = .name)
      (hVariables : ∀ ts ∈ declared, Derives Default .variableDefinitions ts)
      (hDirectives : ∀ ts ∈ directives, Derives Default .directive ts)
      (hSelections : Derives Default .selectionSet selections) :
      Derives Default .definition (keyword :: (name.toList ++
        (declared.toList.flatten ++ directives.flatten ++ selections)))
  | fragment {keyword name on type : Token} {directives : List (List Token)}
      {selections : List Token} (hKeyword : keyword.isWord "fragment" = true)
      (hName : name.kind = .name) (hNotOn : name.text ≠ "on") (hOn : on.isWord "on" = true)
      (hType : type.kind = .name) (hDirectives : ∀ ts ∈ directives, Derives Default .directive ts)
      (hSelections : Derives Default .selectionSet selections) :
      Derives Default .definition (keyword :: name :: on :: type ::
        (directives.flatten ++ selections))
  | variableDefinitions {opening closing : Token} {definitions : List (List Token)}
      (hOpen : opening.kind = .parenOpen)
      (hDefinitions : ∀ ts ∈ definitions, Derives Default .variableDefinition ts)
      (hClose : closing.kind = .parenClose) :
      Derives Default .variableDefinitions (opening :: (definitions.flatten ++ [closing]))
  | variableDefinition {dollar name colon : Token} {type : List Token}
      (default : Option (Token × List Token)) {directives : List (List Token)}
      (hDollar : dollar.kind = .dollar) (hName : name.kind = .name) (hColon : colon.kind = .colon)
      (hType : IsType type) (hEquals : ∀ d ∈ default, d.1.kind = .equals)
      (hValue : ∀ d ∈ default, Derives Default .value d.2) (hDefault : ∀ d ∈ default, Default d.2)
      (hDirectives : ∀ ts ∈ directives, Derives Default .directive ts) :
      Derives Default .variableDefinition (dollar :: name :: colon :: (type ++
        (default.toList.flatMap (fun d => d.1 :: d.2) ++ directives.flatten)))
  | directive {sign name : Token} {arguments : Option (List Token)} (hSign : sign.kind = .atSign)
      (hName : name.kind = .name) (hArguments : ∀ ts ∈ arguments, Derives Default .arguments ts) :
      Derives Default .directive (sign :: name :: arguments.toList.flatten)
  | arguments {opening closing : Token} {items : List (List Token)}
      (hOpen : opening.kind = .parenOpen) (hItems : ∀ ts ∈ items, Derives Default .argument ts)
      (hClose : closing.kind = .parenClose) :
      Derives Default .arguments (opening :: (items.flatten ++ [closing]))
  | argument {name colon : Token} {value : List Token} (hName : name.kind = .name)
      (hColon : colon.kind = .colon) (hValue : Derives Default .value value) :
      Derives Default .argument (name :: colon :: value)
  | selectionSet {opening closing : Token} {items : List (List Token)}
      (hOpen : opening.kind = .curlyOpen) (hItems : ∀ ts ∈ items, Derives Default .selection ts)
      (hClose : closing.kind = .curlyClose) :
      Derives Default .selectionSet (opening :: (items.flatten ++ [closing]))
  | field {first : Token} {name : Option (Token × Token)}
      {arguments selections : Option (List Token)} {directives : List (List Token)}
      (hFirst : first.kind = .name)
      (hName : ∀ n ∈ name, n.1.kind = .colon ∧ n.2.kind = .name)
      (hArguments : ∀ ts ∈ arguments, Derives Default .arguments ts)
      (hDirectives : ∀ ts ∈ directives, Derives Default .directive ts)
      (hSelections : ∀ ts ∈ selections, Derives Default .selectionSet ts) :
      Derives Default .selection (first :: (name.toList.flatMap (fun n => [n.1, n.2]) ++
        (arguments.toList.flatten ++ directives.flatten ++ selections.toList.flatten)))
  | spread {dots name : Token} {directives : List (List Token)} (hDots : dots.kind = .ellipsis)
      (hName : name.kind = .name) (hNotOn : name.text ≠ "on")
      (hDirectives : ∀ ts ∈ directives, Derives Default .directive ts) :
      Derives Default .selection (dots :: name :: directives.flatten)
  | inline {dots : Token} {condition : Option (Token × Token)} {directives : List (List Token)}
      {selections : List Token} (hDots : dots.kind = .ellipsis)
      (hCondition : ∀ c ∈ condition, c.1.isWord "on" = true ∧ c.2.kind = .name)
      (hDirectives : ∀ ts ∈ directives, Derives Default .directive ts)
      (hSelections : Derives Default .selectionSet selections) :
      Derives Default .selection (dots :: (condition.toList.flatMap (fun c => [c.1, c.2]) ++
        (directives.flatten ++ selections)))
  | literal {token : Token}
      (hKind : token.kind = .number ∨ token.kind = .string ∨ token.kind = .name) :
      Derives Default .value [token]
  | variableUsage {dollar name : Token} (hDollar : dollar.kind = .dollar)
      (hName : name.kind = .name) : Derives Default .value [dollar, name]
  | list {opening closing : Token} {items : List (List Token)} (hOpen : opening.kind = .squareOpen)
      (hItems : ∀ ts ∈ items, Derives Default .value ts) (hClose : closing.kind = .squareClose) :
      Derives Default .value (opening :: (items.flatten ++ [closing]))
  | object {opening closing : Token} {items : List (List Token)} (hOpen : opening.kind = .curlyOpen)
      (hItems : ∀ ts ∈ items, Derives Default .argument ts) (hClose : closing.kind = .curlyClose) :
      Derives Default .value (opening :: (items.flatten ++ [closing]))

theorem tokensOf_eq_flatten (pieces : List Piece) :
    tokensOf pieces = (pieces.map Prod.fst).flatten := List.flatMap_def

/-- What holds of the tokens of each piece holds of each list of tokens. -/
theorem forall_mem_map_fst {P : List Token → Prop} {pieces : List Piece}
    (h : ∀ p ∈ pieces, P p.1) : ∀ ts ∈ pieces.map Prod.fst, P ts := by
  intro ts hts
  obtain ⟨p, hp, rfl⟩ := List.mem_map.1 hts
  exact h p hp

theorem forall_mem_map_fst? {P : List Token → Prop} {piece : Option Piece}
    (h : ∀ p ∈ piece, P p.1) : ∀ ts ∈ piece.map Prod.fst, P ts := by
  cases piece with
  | none => exact fun ts hts => nomatch hts
  | some piece => simpa using h piece rfl

/-- The keywords of operations, spelled out. -/
theorem operationWord_iff {keyword : Token} :
    keyword.isWord "query" = true ∨ keyword.isWord "mutation" = true ∨
        keyword.isWord "subscription" = true ↔
      keyword.kind = .name ∧ keyword.text ∈ Grammar.operationWords := by
  simp only [Grammar.operationWords, Grammar.isWord_iff, List.mem_cons, List.not_mem_nil, or_false]
  grind

theorem toList_map_fst (piece : Option Piece) :
    tokensOf piece.toList = (piece.map Prod.fst).toList.flatten := by
  cases piece <;> simp

/-- A phrase that is formed by tokens is derived from them. -/
theorem Forms.derives {x : Symbol} {tokens : List Token} {phrase : Outline}
    (h : Forms x tokens phrase) : Derives Constant x tokens := by
  induction h with
  | atom hValue hHead =>
      cases hHead with
      | variableUsage hDollar hName => exact .variableUsage hDollar hName
      | @scalar token kind hKind =>
          refine .literal ?_
          cases hToken : token.kind <;> simp [Grammar.scalarKindOf?, hToken] at hKind ⊢
      | null hWord => exact .literal (.inr (.inr (Grammar.isWord_iff.1 hWord).1))
      | enumeration hName hText => exact .literal (.inr (.inr hName))
      | _ => cases hValue
  | @enclosed x item type enclosure hRule opening closing pieces hOpen hItems hClose ih =>
      have hDerives := forall_mem_map_fst ih
      rw [tokensOf_eq_flatten]
      cases hRule with
      | selectionSet => exact .selectionSet hOpen hDerives hClose
      | arguments => exact .arguments hOpen hDerives hClose
      | variableDefinitions => exact .variableDefinitions hOpen hDerives hClose
      | listValue => exact .list hOpen hDerives hClose
      | objectValue => exact .object hOpen hDerives hClose
  | argument hHead hValue ih =>
      cases hHead with
      | argument hName hColon => exact .argument hName hColon ih
  | @directive _ _ arguments hHead hArguments ih =>
      cases hHead with
      | directive hSign hName =>
          rw [toList_map_fst]
          exact .directive hSign hName (forall_mem_map_fst? ih)
  | @field _ _ arguments selections directives hHead hArguments hDirectives hSelections ihArguments
      ihDirectives ihSelections =>
      simp only [tokensOf_append, toList_map_fst, tokensOf_eq_flatten directives]
      have hInside {first : Token} (name : Option (Token × Token)) (hFirst : first.kind = .name)
          (hName : ∀ n ∈ name, n.1.kind = .colon ∧ n.2.kind = .name) :=
        Derives.field hFirst hName (forall_mem_map_fst? ihArguments)
          (forall_mem_map_fst ihDirectives) (forall_mem_map_fst? ihSelections)
      cases hHead with
      | field hName => simpa using hInside none hName (by simp)
      | @aliasedField _ colon name hAlias hColon hName =>
          simpa using hInside (some (colon, name)) hAlias (by simp [hColon, hName])
  | spread hHead hDirectives ih =>
      cases hHead with
      | spread hDots hName hOn =>
          rw [tokensOf_eq_flatten]
          exact .spread hDots hName hOn (forall_mem_map_fst ih)
  | @inline _ _ directives selections hHead hDirectives hSelections ihDirectives ihSelections =>
      simp only [tokensOf_append, tokensOf_eq_flatten directives]
      have hInside {dots : Token} (condition : Option (Token × Token))
          (hDots : dots.kind = .ellipsis)
          (hCondition : ∀ c ∈ condition, c.1.isWord "on" = true ∧ c.2.kind = .name) :=
        Derives.inline hDots hCondition (forall_mem_map_fst ihDirectives) ihSelections
      cases hHead with
      | inline hDots => simpa using hInside none hDots (by simp)
      | @conditionedInline _ on type hDots hOn hType =>
          simpa using hInside (some (on, type)) hDots (by simp [hOn, hType])
  | @declaration _ _ default directives hHead hEquals hConstant hDefault hDirectives ihDefault
      ihDirectives =>
      cases hHead with
      | declaration hDollar hName hColon hType =>
          rw [tokensOf_eq_flatten]
          have hMore := forall_mem_map_fst ihDirectives
          cases default with
          | none =>
              exact .variableDefinition none hDollar hName hColon hType (by simp) (by simp)
                (by simp) hMore
          | some d =>
              exact .variableDefinition (some (d.1, d.2.1)) hDollar hName hColon hType
                (by simpa using hEquals d rfl) (by simpa using ihDefault d rfl)
                (by simpa using hConstant d rfl) hMore
  | shorthand hSelections ih => exact .shorthand ih
  | @operation _ _ declared directives selections hHead hVariables hDirectives hSelections
      ihVariables ihDirectives ihSelections =>
      simp only [tokensOf_append, toList_map_fst, tokensOf_eq_flatten directives]
      have hInside {keyword : Token} (name : Option Token) (hKeyword : keyword.kind = .name)
          (hWord : keyword.text ∈ Grammar.operationWords) (hName : ∀ t ∈ name, t.kind = .name) :=
        Derives.operation (operationWord_iff.2 ⟨hKeyword, hWord⟩) hName
          (forall_mem_map_fst? ihVariables) (forall_mem_map_fst ihDirectives) ihSelections
      cases hHead with
      | operation hKeyword hWord => simpa using hInside none hKeyword hWord (by simp)
      | @namedOperation _ name hKeyword hWord hName =>
          simpa using hInside (some name) hKeyword hWord (by simpa using hName)
  | @fragment _ _ directives selections hHead hDirectives hSelections ihDirectives ihSelections =>
      cases hHead with
      | fragment hKeyword hName hNotOn hOn hType =>
          simpa [tokensOf_eq_flatten] using Derives.fragment hKeyword hName hNotOn hOn hType
            (forall_mem_map_fst ihDirectives) ihSelections
  | document hFirst hDefinitions ih =>
      rw [← hFirst, tokensOf_eq_flatten]
      refine .document (fun hNone => ?_) (forall_mem_map_fst ih)
      rw [tokensOf_eq_flatten, hNone] at hFirst
      cases hFirst

theorem exists_pieces {x : Symbol} {lists : List (List Token)}
    (h : ∀ ts ∈ lists, ∃ phrase, Forms x ts phrase) :
    ∃ pieces : List Piece, pieces.map Prod.fst = lists ∧ ∀ p ∈ pieces, Forms x p.1 p.2 := by
  induction lists with
  | nil => exact ⟨[], rfl, by simp⟩
  | cons ts lists ih =>
      obtain ⟨⟨phrase, hPhrase⟩, hMore⟩ := List.forall_mem_cons.1 h
      obtain ⟨pieces, rfl, hPieces⟩ := ih hMore
      exact ⟨(ts, phrase) :: pieces, rfl, List.forall_mem_cons.2 ⟨hPhrase, hPieces⟩⟩

theorem exists_piece {x : Symbol} {tokens : List Token} (h : ∃ phrase, Forms x tokens phrase) :
    ∃ piece : Piece, piece.1 = tokens ∧ Forms x piece.1 piece.2 := by
  obtain ⟨phrase, hPhrase⟩ := h
  exact ⟨(tokens, phrase), rfl, hPhrase⟩

theorem exists_piece? {x : Symbol} {tokens : Option (List Token)}
    (h : ∀ ts ∈ tokens, ∃ phrase, Forms x ts phrase) :
    ∃ piece : Option Piece, piece.map Prod.fst = tokens ∧ ∀ p ∈ piece, Forms x p.1 p.2 := by
  cases tokens with
  | none => exact ⟨none, rfl, by simp⟩
  | some ts =>
      obtain ⟨phrase, hPhrase⟩ := h ts rfl
      exact ⟨some (ts, phrase), rfl, by simpa using hPhrase⟩

/-- Lists that form items form a collection between delimiters. -/
theorem exists_enclosed {x item : Symbol} {type : NodeType} {enclosure : Enclosure}
    (hRule : Encloses x type enclosure item) {opening closing : Token} {lists : List (List Token)}
    (hOpen : opening.kind = enclosure.opener)
    (hItems : ∀ ts ∈ lists, ∃ phrase, Forms item ts phrase)
    (hClose : closing.kind = enclosure.closer) :
    ∃ phrase, Forms x (opening :: (lists.flatten ++ [closing])) phrase := by
  obtain ⟨pieces, rfl, hPieces⟩ := exists_pieces hItems
  rw [← tokensOf_eq_flatten]
  exact ⟨_, .enclosed hRule hOpen hPieces hClose⟩

/-- Every name is a value: a truth value, the null value or an enumeration value. -/
theorem exists_literal {token : Token}
    (h : token.kind = .number ∨ token.kind = .string ∨ token.kind = .name) :
    ∃ phrase, Forms .value [token] phrase := by
  rcases h with hKind | hKind | hKind
  · have hScalar : Grammar.scalarKindOf? token = some .number := by
      simp [Grammar.scalarKindOf?, hKind]
    exact ⟨_, .atom rfl (.scalar hScalar)⟩
  · have hScalar : Grammar.scalarKindOf? token = some .string := by
      simp [Grammar.scalarKindOf?, hKind]
    exact ⟨_, .atom rfl (.scalar hScalar)⟩
  · by_cases hTruth : token.text = "true" ∨ token.text = "false"
    · have hScalar : Grammar.scalarKindOf? token = some .boolean := by
        simp [Grammar.scalarKindOf?, hKind, hTruth]
      exact ⟨_, .atom rfl (.scalar hScalar)⟩
    · by_cases hNull : token.text = "null"
      · exact ⟨_, .atom rfl (.null (Grammar.isWord_iff.2 ⟨hKind, hNull⟩))⟩
      · have hText : token.text ∉ ["true", "false", "null"] := by
          simp only [not_or] at hTruth
          simp [hTruth, hNull]
        exact ⟨_, .atom rfl (.enumeration hKind hText)⟩

/-- Tokens that are derived form a phrase. -/
theorem Derives.exists_phrase {x : Symbol} {tokens : List Token} (h : Derives Constant x tokens) :
    ∃ phrase, Forms x tokens phrase := by
  induction h with
  | literal hKind => exact exists_literal hKind
  | variableUsage hDollar hName => exact ⟨_, .atom rfl (.variableUsage hDollar hName)⟩
  | list hOpen hItems hClose ih => exact exists_enclosed .listValue hOpen ih hClose
  | object hOpen hItems hClose ih => exact exists_enclosed .objectValue hOpen ih hClose
  | arguments hOpen hItems hClose ih => exact exists_enclosed .arguments hOpen ih hClose
  | selectionSet hOpen hItems hClose ih => exact exists_enclosed .selectionSet hOpen ih hClose
  | variableDefinitions hOpen hDefinitions hClose ih =>
      exact exists_enclosed .variableDefinitions hOpen ih hClose
  | argument hName hColon _ ih =>
      obtain ⟨value, rfl, hValue⟩ := exists_piece ih
      exact ⟨_, .argument (.argument hName hColon) hValue⟩
  | directive hSign hName _ ih =>
      obtain ⟨arguments, rfl, hArguments⟩ := exists_piece? ih
      rw [← toList_map_fst]
      exact ⟨_, .directive (.directive hSign hName) hArguments⟩
  | @field _ name _ _ _ hFirst hName _ _ _ ihArguments ihDirectives ihSelections =>
      obtain ⟨arguments, rfl, hArguments⟩ := exists_piece? ihArguments
      obtain ⟨directives, rfl, hDirectives⟩ := exists_pieces ihDirectives
      obtain ⟨selections, rfl, hSelections⟩ := exists_piece? ihSelections
      simp only [← tokensOf_eq_flatten, ← toList_map_fst, ← tokensOf_append]
      cases name with
      | none => exact ⟨_, .field (.field hFirst) hArguments hDirectives hSelections⟩
      | some n =>
          obtain ⟨hColon, hSecond⟩ := hName n rfl
          exact ⟨_, .field (.aliasedField hFirst hColon hSecond) hArguments hDirectives hSelections⟩
  | spread hDots hName hNotOn _ ih =>
      obtain ⟨directives, rfl, hDirectives⟩ := exists_pieces ih
      rw [← tokensOf_eq_flatten]
      exact ⟨_, .spread (.spread hDots hName hNotOn) hDirectives⟩
  | @inline dots condition _ _ hDots hCondition _ _ ihDirectives ihSelections =>
      obtain ⟨directives, rfl, hDirectives⟩ := exists_pieces ihDirectives
      obtain ⟨selections, rfl, hSelections⟩ := exists_piece ihSelections
      rw [← tokensOf_eq_flatten, ← tokensOf_singleton selections, ← tokensOf_append]
      cases condition with
      | none => exact ⟨_, .inline (.inline hDots) hDirectives hSelections⟩
      | some c =>
          obtain ⟨hOn, hType⟩ := hCondition c rfl
          exact ⟨_, .inline (.conditionedInline hDots hOn hType) hDirectives hSelections⟩
  | @variableDefinition _ _ _ _ default _ hDollar hName hColon hType hEquals _ hConstant _ ihDefault
      ihDirectives =>
      obtain ⟨directives, rfl, hDirectives⟩ := exists_pieces ihDirectives
      rw [← tokensOf_eq_flatten]
      have hHead := Head.declaration hDollar hName hColon hType
      cases default with
      | none => exact ⟨_, .declaration none hHead (by simp) (by simp) (by simp) hDirectives⟩
      | some d =>
          obtain ⟨phrase, hValue⟩ := ihDefault d rfl
          exact ⟨_, .declaration (some (d.1, d.2, phrase)) hHead (by simpa using hEquals d rfl)
            (by simpa using hConstant d rfl) (by simpa using hValue) hDirectives⟩
  | shorthand _ ih =>
      obtain ⟨phrase, hSelections⟩ := ih
      obtain ⟨first, rest, rfl⟩ := List.exists_cons_of_ne_nil hSelections.begins.ne_nil
      exact ⟨_, .shorthand hSelections⟩
  | @operation keyword name _ _ _ hKeyword hName _ _ _ ihVariables ihDirectives ihSelections =>
      obtain ⟨declared, rfl, hVariables⟩ := exists_piece? ihVariables
      obtain ⟨directives, rfl, hDirectives⟩ := exists_pieces ihDirectives
      obtain ⟨selections, rfl, hSelections⟩ := exists_piece ihSelections
      rw [← tokensOf_eq_flatten, ← toList_map_fst, ← tokensOf_singleton selections,
        ← tokensOf_append, ← tokensOf_append]
      obtain ⟨hKind, hWord⟩ := operationWord_iff.1 hKeyword
      cases name with
      | none => exact ⟨_, .operation (.operation hKind hWord) hVariables hDirectives hSelections⟩
      | some t =>
          exact ⟨_, .operation (.namedOperation hKind hWord (hName t rfl)) hVariables hDirectives
            hSelections⟩
  | fragment hKeyword hName hNotOn hOn hType _ _ ihDirectives ihSelections =>
      obtain ⟨directives, rfl, hDirectives⟩ := exists_pieces ihDirectives
      obtain ⟨selections, rfl, hSelections⟩ := exists_piece ihSelections
      rw [← tokensOf_eq_flatten, ← tokensOf_singleton selections, ← tokensOf_append]
      exact ⟨_, .fragment (.fragment hKeyword hName hNotOn hOn hType) hDirectives hSelections⟩
  | document hSome _ ih =>
      obtain ⟨definitions, rfl, hDefinitions⟩ := exists_pieces ih
      rw [← tokensOf_eq_flatten]
      obtain ⟨piece, more, rfl⟩ := List.exists_cons_of_ne_nil
        (show definitions ≠ [] by simpa using hSome)
      obtain ⟨first, rest, hFirst⟩ := List.exists_cons_of_ne_nil
        (hDefinitions piece List.mem_cons_self).begins.ne_nil
      rw [show tokensOf (piece :: more) = first :: (rest ++ tokensOf more) by simp [hFirst]]
      exact ⟨_, .document (by simp [hFirst]) hDefinitions⟩

end GraphQL
