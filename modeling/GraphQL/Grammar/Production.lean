import GraphQL.Grammar.Definition
import GraphQL.Syntax.Pool

/-!
Productions run on their own, and the reading of whole texts into trees.
-/
namespace GraphQL

/-- The productions of the grammar that give one node each. -/
inductive Production where
  | document | operation | namedFragment
  | variableCollection | variable | directive
  | fieldCollection | field | fragmentSpread | inlineFragment
  | inputItemCollection | inputItem
  | scalarValue | listValue | complexValue | enumValue | nullValue | variableValue
deriving DecidableEq, Repr, Inhabited

namespace Production

def parser : Production → Parser Outline
  | .document => Grammar.document
  | .operation => Grammar.operation
  | .namedFragment => Grammar.namedFragment
  | .variableCollection => Grammar.variableDefinitions
  | .variable => Grammar.variableDefinition
  | .directive => Grammar.directive
  | .fieldCollection => Grammar.selectionSet
  | .field => Grammar.field Grammar.selectionSet
  | .fragmentSpread => Grammar.fragmentSpread
  | .inlineFragment => Grammar.inlineFragment Grammar.selectionSet
  | .inputItemCollection => Grammar.arguments
  | .inputItem => Grammar.inputItem Grammar.value
  | .scalarValue => Grammar.scalarValue
  | .listValue => Grammar.listValue Grammar.value
  | .complexValue => Grammar.objectValue Grammar.value
  | .enumValue => Grammar.enumValue
  | .nullValue => Grammar.nullValue
  | .variableValue => Grammar.variableValue

/-- The production of the value that starts at the cursor, if one does. -/
def valueAt? (stream : TokenStream) : Option Production :=
  (Grammar.ValueForm.startingAt? stream.current).map fun
    | .variableValue => .variableValue
    | .listValue => .listValue
    | .objectValue => .complexValue
    | .scalarValue => .scalarValue
    | .nullValue => .nullValue
    | .enumValue => .enumValue

end Production

/-- A tree and a stream after a production ran, and the error if it failed. -/
structure Built where
  result : Except SyntaxError Unit
  tree : SyntaxTree
  stream : TokenStream
deriving Inhabited

namespace SyntaxTree

/-- Run a production and put its phrase under `parent`. If it fails, the tree stays as it was. -/
def build (tree : SyntaxTree) (parent : NodeId) (production : Production) (stream : TokenStream) :
    Except StaleNode Built := do
  let _ ← tree.node parent
  match production.parser stream with
  | .ok phrase stream => return ⟨.ok (), tree.graft parent.index phrase, stream⟩
  | .error failure stream => return ⟨.error failure.error, tree, stream⟩

/-- Run a production and put under `parent` what it builds, even if it fails. The parent is looked
at only if there is something to put under it. -/
def buildPartly (tree : SyntaxTree) (parent : NodeId) (production : Production)
    (stream : TokenStream) : Except StaleNode Built := do
  match production.parser stream with
  | .ok phrase stream =>
    let _ ← tree.node parent
    return ⟨.ok (), tree.graft parent.index phrase, stream⟩
  | .error failure stream =>
    match failure.built with
    | some phrase =>
      let _ ← tree.node parent
      return ⟨.error failure.error, tree.graft parent.index phrase, stream⟩
    | none => return ⟨.error failure.error, tree, stream⟩

end SyntaxTree

namespace Source

/-- The phrase that a whole text is. Errors carry the path of the text. -/
def outline (source : Source) : Except SyntaxError Outline :=
  let fail (error : SyntaxError) := Except.error (error.atPath source.path)
  match (TokenStream.ofText source.text).prime with
  | (.error error, _) => fail error
  | (.ok _, stream) =>
    match Grammar.document stream with
    | .ok phrase _ => .ok phrase
    | .error failure _ => fail failure.error

/-- Read a text into a tree in place of what it held, and answer with the document. If the text is
no document, the tree is left with only its root. -/
def parseInto (source : Source) (tree : SyntaxTree) : Except SyntaxError NodeId × SyntaxTree :=
  let cleared := if tree.isEmpty then tree else tree.reset
  match source.outline with
  | .ok phrase =>
    let grown := cleared.graft 0 phrase
    (.ok (grown.idAt 1), grown)
  | .error error => (.error error, cleared)

/-- The tree of a text. -/
def parse (source : Source) : Except SyntaxError SyntaxTree :=
  match source.parseInto {} with
  | (.ok _, tree) => .ok tree
  | (.error error, _) => .error error

end Source

/-- Read a text into a tree on loan from a pool. The tree goes back at once if the text is no
document. -/
def TreePool.parse (pool : TreePool) (source : Source) :
    Except SyntaxError SyntaxTree × TreePool :=
  let (tree, pool) := pool.acquire
  match source.parseInto tree with
  | (.ok _, tree) => (.ok tree, pool)
  | (.error error, tree) => (.error error, pool.release tree)

end GraphQL
