import GraphQL.Proofs.Token.Run
import GraphQL.Grammar.Definition

/-! The grammar with the phrase of each derivation: which tokens are a phrase of which kind,
and what the phrase says of itself and holds. Nothing here is about streams or the order of
decisions. -/
namespace GraphQL

/-- The kinds of phrase that the grammar has rules for. -/
inductive Symbol where
  | document | definition | variableDefinitions | variableDefinition | directive
  | arguments | argument | selectionSet | selection | value
deriving DecidableEq, Repr

/-- Some tokens and the phrase that they are. -/
abbrev Piece := List Token × Outline

def tokensOf (pieces : List Piece) : List Token := pieces.flatMap Prod.fst

def phrasesOf (pieces : List Piece) : List Outline := pieces.map Prod.snd

@[simp] theorem tokensOf_nil : tokensOf [] = [] := rfl

@[simp] theorem tokensOf_cons (piece : Piece) (pieces : List Piece) :
    tokensOf (piece :: pieces) = piece.1 ++ tokensOf pieces := rfl

theorem tokensOf_singleton (piece : Piece) : tokensOf [piece] = piece.1 := List.append_nil _

@[simp] theorem tokensOf_append (first second : List Piece) :
    tokensOf (first ++ second) = tokensOf first ++ tokensOf second := List.flatMap_append

@[simp] theorem phrasesOf_nil : phrasesOf [] = [] := rfl

@[simp] theorem phrasesOf_cons (piece : Piece) (pieces : List Piece) :
    phrasesOf (piece :: pieces) = piece.2 :: phrasesOf pieces := rfl

@[simp] theorem phrasesOf_append (first second : List Piece) :
    phrasesOf (first ++ second) = phrasesOf first ++ phrasesOf second := List.map_append

/-- A word is a name with its text, and no string or number of that text. -/
theorem Grammar.isWord_iff {token : Token} {word : String} :
    token.isWord word = true ↔ token.kind = .name ∧ token.text = word := by
  simp [Token.isWord]

/-- The mark of a type that does not admit null, which may be absent. -/
def IsMark (tokens : List Token) : Prop := tokens = [] ∨ ∃ bang, bang.kind = .bang ∧ tokens = [bang]

/-- The tokens of a type. -/
inductive IsType : List Token → Prop where
  | named {name : Token} {mark : List Token} (hName : name.kind = .name) (hMark : IsMark mark) :
      IsType (name :: mark)
  | list {opening closing : Token} {item mark : List Token} (hOpen : opening.kind = .squareOpen)
      (hItem : IsType item) (hClose : closing.kind = .squareClose) (hMark : IsMark mark) :
      IsType (opening :: (item ++ closing :: mark))

/-- The tokens that a phrase starts with, before the phrases inside it, and what it says of itself.
Phrases in delimiters, documents and operations without a keyword have no such tokens. -/
inductive Head : NodeType → List Token → Label → Prop where
  | variableUsage {dollar name : Token} (hDollar : dollar.kind = .dollar)
      (hName : name.kind = .name) :
      Head .variableValue [dollar, name]
        { type := .variableValue, primary := some name.bytes, location := dollar.start }
  | scalar {token : Token} {kind : ScalarKind} (hKind : Grammar.scalarKindOf? token = some kind) :
      Head .scalarValue [token]
        { type := .scalarValue, primary := some token.bytes, scalarKind := some kind
          location := token.start }
  | null {token : Token} (hWord : token.isWord "null" = true) :
      Head .nullValue [token]
        { type := .nullValue, primary := some token.bytes, location := token.start }
  | enumeration {token : Token} (hName : token.kind = .name)
      (hText : token.text ∉ ["true", "false", "null"]) :
      Head .enumValue [token]
        { type := .enumValue, primary := some token.bytes, location := token.start }
  | argument {name colon : Token} (hName : name.kind = .name) (hColon : colon.kind = .colon) :
      Head .inputItem [name, colon]
        { type := .inputItem, primary := some name.bytes, location := name.start }
  | directive {sign name : Token} (hSign : sign.kind = .atSign) (hName : name.kind = .name) :
      Head .directive [sign, name]
        { type := .directive, primary := some name.bytes, location := sign.start }
  | field {name : Token} (hName : name.kind = .name) :
      Head .field [name] { type := .field, primary := some name.bytes, location := name.start }
  | aliasedField {aliasName colon name : Token} (hAlias : aliasName.kind = .name)
      (hColon : colon.kind = .colon) (hName : name.kind = .name) :
      Head .field [aliasName, colon, name]
        { type := .field, primary := some name.bytes, secondary := some aliasName.bytes
          location := aliasName.start }
  | spread {dots name : Token} (hDots : dots.kind = .ellipsis) (hName : name.kind = .name)
      (hOn : name.text ≠ "on") :
      Head .fragmentSpread [dots, name]
        { type := .fragmentSpread, primary := some name.bytes, location := dots.start }
  | inline {dots : Token} (hDots : dots.kind = .ellipsis) :
      Head .inlineFragment [dots] { type := .inlineFragment, location := dots.start }
  | conditionedInline {dots on type : Token} (hDots : dots.kind = .ellipsis)
      (hOn : on.isWord "on" = true) (hType : type.kind = .name) :
      Head .inlineFragment [dots, on, type]
        { type := .inlineFragment, primary := some type.bytes, location := dots.start }
  | operation {keyword : Token} (hKeyword : keyword.kind = .name)
      (hWord : keyword.text ∈ Grammar.operationWords) :
      Head .operation [keyword]
        { type := .operation, primary := some keyword.bytes, location := keyword.start }
  | namedOperation {keyword name : Token} (hKeyword : keyword.kind = .name)
      (hWord : keyword.text ∈ Grammar.operationWords) (hName : name.kind = .name) :
      Head .operation [keyword, name]
        { type := .operation, primary := some keyword.bytes, secondary := some name.bytes
          location := keyword.start }
  | fragment {keyword name on type : Token} (hKeyword : keyword.isWord "fragment" = true)
      (hName : name.kind = .name) (hNotOn : name.text ≠ "on") (hOn : on.isWord "on" = true)
      (hType : type.kind = .name) :
      Head .namedFragment [keyword, name, on, type]
        { type := .namedFragment, primary := some name.bytes, secondary := some type.bytes
          location := keyword.start }
  | declaration {dollar name colon : Token} {type : List Token} (hDollar : dollar.kind = .dollar)
      (hName : name.kind = .name) (hColon : colon.kind = .colon) (hType : IsType type) :
      Head .variable (dollar :: name :: colon :: type)
        { type := .variable, primary := some name.bytes, secondary := some (Token.cover type)
          location := dollar.start }

theorem Head.type {type : NodeType} {tokens : List Token} {label : Label}
    (h : Head type tokens label) : label.type = type := by
  cases h <;> rfl

/-- The kinds of phrase that are any number of others between delimiters. -/
inductive Encloses : Symbol → NodeType → Enclosure → Symbol → Prop where
  | selectionSet : Encloses .selectionSet .fieldCollection .selectionSet .selection
  | arguments : Encloses .arguments .inputItemCollection .arguments .argument
  | variableDefinitions :
      Encloses .variableDefinitions .variableCollection .variableDefinitions .variableDefinition
  | listValue : Encloses .value .listValue .listValue .value
  | objectValue : Encloses .value .complexValue .objectValue .argument

/-- No variable stands among the tokens. -/
def Constant (tokens : List Token) : Prop := ∀ t ∈ tokens, t.kind ≠ .dollar

/-- The tokens of a default, if there is one: `=` and those of a value. -/
def defaultTokens (default : Option (Token × Piece)) : List Token :=
  default.toList.flatMap fun d => d.1 :: d.2.1

def defaultPhrases (default : Option (Token × Piece)) : List Outline :=
  default.toList.map fun d => d.2.2

/-- The tokens that are a phrase of some kind, and the phrase. -/
inductive Forms : Symbol → List Token → Outline → Prop where
  | atom {type : NodeType} {head : List Token} {label : Label} (hValue : type.isValue = true)
      (hHead : Head type head label) : Forms .value head (.node label [])
  | enclosed {x item : Symbol} {type : NodeType} {enclosure : Enclosure}
      (hRule : Encloses x type enclosure item) {opening closing : Token} {pieces : List Piece}
      (hOpen : opening.kind = enclosure.opener) (hItems : ∀ p ∈ pieces, Forms item p.1 p.2)
      (hClose : closing.kind = enclosure.closer) :
      Forms x (opening :: (tokensOf pieces ++ [closing]))
        (.node { type, location := opening.start } (phrasesOf pieces))
  | argument {head : List Token} {label : Label} {value : Piece}
      (hHead : Head .inputItem head label) (hValue : Forms .value value.1 value.2) :
      Forms .argument (head ++ value.1) (.node label [value.2])
  | directive {head : List Token} {label : Label} {arguments : Option Piece}
      (hHead : Head .directive head label)
      (hArguments : ∀ p ∈ arguments, Forms .arguments p.1 p.2) :
      Forms .directive (head ++ tokensOf arguments.toList)
        (.node label (phrasesOf arguments.toList))
  | field {head : List Token} {label : Label} {arguments selections : Option Piece}
      {directives : List Piece} (hHead : Head .field head label)
      (hArguments : ∀ p ∈ arguments, Forms .arguments p.1 p.2)
      (hDirectives : ∀ p ∈ directives, Forms .directive p.1 p.2)
      (hSelections : ∀ p ∈ selections, Forms .selectionSet p.1 p.2) :
      Forms .selection (head ++ tokensOf (arguments.toList ++ directives ++ selections.toList))
        (.node label (phrasesOf (arguments.toList ++ directives ++ selections.toList)))
  | spread {head : List Token} {label : Label} {directives : List Piece}
      (hHead : Head .fragmentSpread head label)
      (hDirectives : ∀ p ∈ directives, Forms .directive p.1 p.2) :
      Forms .selection (head ++ tokensOf directives) (.node label (phrasesOf directives))
  | inline {head : List Token} {label : Label} {directives : List Piece} {selections : Piece}
      (hHead : Head .inlineFragment head label)
      (hDirectives : ∀ p ∈ directives, Forms .directive p.1 p.2)
      (hSelections : Forms .selectionSet selections.1 selections.2) :
      Forms .selection (head ++ tokensOf (directives ++ [selections]))
        (.node label (phrasesOf (directives ++ [selections])))
  | declaration {head : List Token} {label : Label} (default : Option (Token × Piece))
      {directives : List Piece} (hHead : Head .variable head label)
      (hEquals : ∀ d ∈ default, d.1.kind = .equals)
      (hConstant : ∀ d ∈ default, Constant d.2.1)
      (hDefault : ∀ d ∈ default, Forms .value d.2.1 d.2.2)
      (hDirectives : ∀ p ∈ directives, Forms .directive p.1 p.2) :
      Forms .variableDefinition (head ++ (defaultTokens default ++ tokensOf directives))
        (.node label (defaultPhrases default ++ phrasesOf directives))
  | shorthand {first : Token} {rest : List Token} {phrase : Outline}
      (hSelections : Forms .selectionSet (first :: rest) phrase) :
      Forms .definition (first :: rest)
        (.node { type := .operation, location := first.start } [phrase])
  | operation {head : List Token} {label : Label} {declared : Option Piece}
      {directives : List Piece} {selections : Piece} (hHead : Head .operation head label)
      (hVariables : ∀ p ∈ declared, Forms .variableDefinitions p.1 p.2)
      (hDirectives : ∀ p ∈ directives, Forms .directive p.1 p.2)
      (hSelections : Forms .selectionSet selections.1 selections.2) :
      Forms .definition (head ++ tokensOf (declared.toList ++ directives ++ [selections]))
        (.node label (phrasesOf (declared.toList ++ directives ++ [selections])))
  | fragment {head : List Token} {label : Label} {directives : List Piece} {selections : Piece}
      (hHead : Head .namedFragment head label)
      (hDirectives : ∀ p ∈ directives, Forms .directive p.1 p.2)
      (hSelections : Forms .selectionSet selections.1 selections.2) :
      Forms .definition (head ++ tokensOf (directives ++ [selections]))
        (.node label (phrasesOf (directives ++ [selections])))
  | document {definitions : List Piece} {first : Token} {rest : List Token}
      (hFirst : tokensOf definitions = first :: rest)
      (hDefinitions : ∀ p ∈ definitions, Forms .definition p.1 p.2) :
      Forms .document (first :: rest)
        (.node { type := .document, location := first.start } (phrasesOf definitions))

/-- No value ends in `$`. -/
theorem Forms.last_value {tokens : List Token} {phrase : Outline}
    (h : Forms .value tokens phrase) :
    ∃ last, tokens.getLast? = some last ∧ last.kind ≠ .dollar := by
  cases h with
  | atom hValue hHead =>
      cases hHead with
      | variableUsage hDollar hName => exact ⟨_, rfl, by simp [hName]⟩
      | @scalar token kind hKind =>
          refine ⟨token, rfl, fun hDollar => ?_⟩
          simp [Grammar.scalarKindOf?, hDollar] at hKind
      | null hWord => exact ⟨_, rfl, by simp [(Grammar.isWord_iff.1 hWord).1]⟩
      | enumeration hName hText => exact ⟨_, rfl, by simp [hName]⟩
      | _ => cases hValue
  | @enclosed _ item type enclosure hRule opening closing pieces hOpen hItems hClose =>
      refine ⟨closing, by simp [List.getLast?_cons], ?_⟩
      rw [hClose]
      cases enclosure <;> decide

end GraphQL
