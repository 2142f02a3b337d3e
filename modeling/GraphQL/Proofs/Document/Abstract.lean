import GraphQL.Proofs.Document.Parts
import GraphQL.Proofs.TypeExpr

/-! Query documents as trees of names and values, without a text. Each is written in words of the
lexical grammar, and is read from the parts of a document, whose children must come in order. -/
namespace GraphQL

/-- A punctuator as a word. -/
def Word.sign (kind : TokenKind) : Word := (kind, kind.punctuator?.getD "")

namespace Enclosure

/-- Some words between delimiters. -/
def words (enclosure : Enclosure) (inside : List Word) : List Word :=
  Word.sign enclosure.opener :: (inside ++ [Word.sign enclosure.closer])

/-- Some words between delimiters, unless there are none. -/
def wordsIfAny (enclosure : Enclosure) (inside : List Word) : List Word :=
  if inside.isEmpty then [] else enclosure.words inside

end Enclosure

namespace Abstract

/-- The text of a token of the given kind. -/
abbrev Text (kind : TokenKind) := { text : String // Lexer.Lexeme kind text.toList }

abbrev Name := Text .name

/-- A name other than the given words. -/
abbrev NameBut (words : List String) := { name : Name // name.val ∉ words }

abbrev FragmentName := NameBut ["on"]

inductive Value where
  | number (text : Text .number)
  | string (text : Text .string)
  | boolean (value : Bool)
  | null
  | enumeration (name : NameBut ["true", "false", "null"])
  | usage (name : Name)
  | list (items : List Value)
  | object (fields : List (Name × Value))

/-- A named value. -/
abbrev Argument := Name × Value

mutual

/-- Whether no variable is used in a value. -/
def Value.isConstant : Value → Bool
  | .usage _ => false
  | .list items => areConstant items
  | .object fields => haveConstants fields
  | _ => true

def areConstant : List Value → Bool
  | [] => true
  | item :: rest => item.isConstant && areConstant rest

def haveConstants : List (Name × Value) → Bool
  | [] => true
  | (_, value) :: rest => value.isConstant && haveConstants rest

end

structure Directive where
  name : Name
  arguments : List Argument

structure VariableDefinition where
  name : Name
  /-- The type, inside which there is a name. -/
  type : { type : TypeExpr // Lexer.Lexeme .name type.innermostName.toList }
  default : Option { value : Value // value.isConstant = true }
  directives : List Directive

inductive Selection where
  | field (aliasName : Option Name) (name : Name) (arguments : List Argument)
      (directives : List Directive) (selections : List Selection)
  | spread (fragment : FragmentName) (directives : List Directive)
  | inline (condition : Option Name) (directives : List Directive) (selections : List Selection)

inductive Definition where
  /-- A selection set alone. -/
  | anonymous (selections : List Selection)
  | operation (type : OperationType) (name : Option Name) (declared : List VariableDefinition)
      (directives : List Directive) (selections : List Selection)
  | fragment (name : FragmentName) (condition : Name) (directives : List Directive)
      (selections : List Selection)

abbrev QueryDocument := { definitions : List Definition // definitions ≠ [] }

mutual

/-- The words that a value is written in. -/
def Value.words : Value → List Word
  | .number text => [(.number, text.val)]
  | .string text => [(.string, text.val)]
  | .boolean value => [(.name, if value then "true" else "false")]
  | .null => [(.name, "null")]
  | .enumeration name => [(.name, name.val.val)]
  | .usage name => [Word.sign .dollar, (.name, name.val)]
  | .list items => Enclosure.listValue.words (itemWords items)
  | .object fields => Enclosure.objectValue.words (fieldWords fields)

def itemWords : List Value → List Word
  | [] => []
  | item :: rest => item.words ++ itemWords rest

def fieldWords : List (Name × Value) → List Word
  | [] => []
  | (name, value) :: rest =>
    [(.name, name.val), Word.sign .colon] ++ value.words ++ fieldWords rest

end

namespace Argument

def words (argument : Argument) : List Word :=
  [(.name, argument.1.val), Word.sign .colon] ++ argument.2.words

end Argument

/-- Arguments in parentheses, if there are any. -/
def argumentWords (arguments : List Argument) : List Word :=
  Enclosure.arguments.wordsIfAny (arguments.flatMap Argument.words)

namespace Directive

def words (directive : Directive) : List Word :=
  [Word.sign .atSign, (.name, directive.name.val)] ++ argumentWords directive.arguments

end Directive

def directiveWords (directives : List Directive) : List Word := directives.flatMap Directive.words

namespace VariableDefinition

def words (variableDefinition : VariableDefinition) : List Word :=
  [Word.sign .dollar, (.name, variableDefinition.name.val), Word.sign .colon] ++
    variableDefinition.type.val.words ++
    (variableDefinition.default.toList.flatMap fun value =>
      Word.sign .equals :: value.val.words) ++
    directiveWords variableDefinition.directives

end VariableDefinition

mutual

/-- The words that a selection is written in. -/
def Selection.words : Selection → List Word
  | .field aliasName name arguments directives selections =>
    (aliasName.toList.flatMap fun other => [(.name, other.val), Word.sign .colon]) ++
      [(.name, name.val)] ++ argumentWords arguments ++ directiveWords directives ++
      Enclosure.selectionSet.wordsIfAny (selectionWords selections)
  | .spread fragment directives =>
    [Word.sign .ellipsis, (.name, fragment.val.val)] ++ directiveWords directives
  | .inline condition directives selections =>
    [Word.sign .ellipsis] ++
      (condition.toList.flatMap fun type => [(.name, "on"), (.name, type.val)]) ++
      (directiveWords directives ++ Enclosure.selectionSet.words (selectionWords selections))

def selectionWords : List Selection → List Word
  | [] => []
  | selection :: rest => selection.words ++ selectionWords rest

end

namespace Definition

def words : Definition → List Word
  | .anonymous selections => Enclosure.selectionSet.words (selectionWords selections)
  | .operation type name declared directives selections =>
    [(.name, type.keyword)] ++ (name.toList.map fun name => (.name, name.val)) ++
      Enclosure.variableDefinitions.wordsIfAny (declared.flatMap VariableDefinition.words) ++
      (directiveWords directives ++ Enclosure.selectionSet.words (selectionWords selections))
  | .fragment name condition directives selections =>
    [(.name, "fragment"), (.name, name.val.val), (.name, "on"), (.name, condition.val)] ++
      (directiveWords directives ++ Enclosure.selectionSet.words (selectionWords selections))

/-- A definition in full: a selection set alone is a query without a name. -/
def spelledOut : Definition → Definition
  | .anonymous selections => .operation .query none [] [] selections
  | definition => definition

end Definition

namespace QueryDocument

def words (document : QueryDocument) : List Word := document.val.flatMap Definition.words

/-- The text of a document, with single spaces between its tokens. -/
def render (document : QueryDocument) : String := " ".intercalate (document.words.map Prod.snd)

/-- A document with all its definitions in full. -/
def spelledOut (document : QueryDocument) : QueryDocument :=
  ⟨document.val.map Definition.spelledOut, by simpa using document.property⟩

end QueryDocument

/-- A text as that of one token. -/
def Text.read? (kind : TokenKind) (text : String) : Option (Text kind) :=
  if h : Lexer.Lexeme kind text.toList then some ⟨text, h⟩ else none

def Name.read? : String → Option Name := Text.read? .name

def NameBut.read? (words : List String) (text : String) : Option (NameBut words) := do
  let name ← Name.read? text
  if h : name.val ∉ words then some ⟨name, h⟩ else none

mutual

/-- The value that a part is. -/
def Value.read? : PartTree → Option Value
  | .node _ (.suppliedValue value) children =>
    match value, children with
    | .scalar .number text, [] => (Text.read? .number text).map .number
    | .scalar .string text, [] => (Text.read? .string text).map .string
    | .scalar .boolean text, [] =>
      if text = "true" then some (.boolean true)
      else if text = "false" then some (.boolean false)
      else none
    | .null, [] => some .null
    | .enumeration name, [] => (NameBut.read? _ name).map .enumeration
    | .variableUsage name, [] => (Name.read? name).map .usage
    | .list, children => (readItems? children).map .list
    | .complex _, children => (readFields? children).map .object
    | _, _ => none
  | _ => none

def readItems? : List PartTree → Option (List Value)
  | [] => some []
  | tree :: rest => do return (← Value.read? tree) :: (← readItems? rest)

def readFields? : List PartTree → Option (List (Name × Value))
  | [] => some []
  | .node _ (.inputObjectField name) [value] :: rest => do
    return (← Name.read? name, ← Value.read? value) :: (← readFields? rest)
  | _ => none

end

def Argument.read? : PartTree → Option Argument
  | .node _ (.argument name) [value] => do return (← Name.read? name, ← Value.read? value)
  | _ => none

def Directive.read? : PartTree → Option Directive
  | .node _ (.directive name) children => do
    return ⟨← Name.read? name, ← children.mapM Argument.read?⟩
  | _ => none

/-- The parts that come first and are of the given types, and those after them. -/
def leading (p : PartType → Bool) (trees : List PartTree) : List PartTree × List PartTree :=
  (trees.takeWhile fun tree => p tree.data.type, trees.dropWhile fun tree => p tree.data.type)

/-- The default of a variable, which is its only value. -/
def readDefault? : List PartTree → Option (Option { value : Value // value.isConstant = true })
  | [] => some none
  | [tree] => do
    let value ← Value.read? tree
    if h : value.isConstant = true then some (some ⟨value, h⟩) else none
  | _ => none

def VariableDefinition.read? : PartTree → Option VariableDefinition
  | .node _ (.variable name type) children => do
    let (values, directives) := leading PartType.isSuppliedValue children
    let name ← Name.read? name
    let default ← readDefault? values
    let directives ← directives.mapM Directive.read?
    if h : Lexer.Lexeme .name type.innermostName.toList then
      some ⟨name, ⟨type, h⟩, default, directives⟩
    else none
  | _ => none

mutual

/-- The selection that a part is. -/
def Selection.read? : PartTree → Option Selection
  | .node _ (.field name aliasName) children => do
    let (arguments, rest) := leading (· == .argument) children
    let (directives, _) := leading (· == .directive) rest
    return .field (← aliasName.mapM Name.read?) (← Name.read? name)
      (← arguments.mapM Argument.read?) (← directives.mapM Directive.read?)
      (← readSelections? (arguments.length + directives.length) children)
  | .node _ (.fragmentSpread fragment) children => do
    return .spread (← NameBut.read? _ fragment) (← children.mapM Directive.read?)
  | .node _ (.inlineFragment condition) children => do
    let (directives, _) := leading (· == .directive) children
    return .inline (← condition.mapM Name.read?) (← directives.mapM Directive.read?)
      (← readSelections? directives.length children)
  | _ => none

/-- The selections that some parts are, apart from the first ones. -/
def readSelections? : Nat → List PartTree → Option (List Selection)
  | _, [] => some []
  | 0, tree :: rest => do return (← Selection.read? tree) :: (← readSelections? 0 rest)
  | skipped + 1, _ :: rest => readSelections? skipped rest

end

def Definition.read? : PartTree → Option Definition
  | .node _ (.operation type name) children => do
    let (declared, rest) := leading (· == .variable) children
    let (directives, selections) := leading (· == .directive) rest
    return .operation type (← name.mapM Name.read?) (← declared.mapM VariableDefinition.read?)
      (← directives.mapM Directive.read?) (← readSelections? 0 selections)
  | .node _ (.namedFragment name condition) children => do
    let (directives, selections) := leading (· == .directive) children
    return .fragment (← NameBut.read? _ name) (← Name.read? condition)
      (← directives.mapM Directive.read?) (← readSelections? 0 selections)
  | _ => none

/-- The document whose root is a part. -/
def QueryDocument.read? : PartTree → Option QueryDocument
  | .node _ .document children => do
    let definitions ← children.mapM Definition.read?
    if h : definitions ≠ [] then some ⟨definitions, h⟩ else none
  | _ => none

end Abstract

end GraphQL
