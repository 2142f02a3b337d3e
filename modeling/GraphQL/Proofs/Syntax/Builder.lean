import GraphQL.Grammar.Production

/-! Productions that build in the tree itself. Each puts its node under a parent once the first
tokens are read, names it and goes on below it; a production inside another runs atomically, from a
checkpoint that a failure goes back to. Nothing here promises that a failure leaves the tree as it
was: going back only cuts the array and one child list. -/
namespace GraphQL

/-- A tree to build in and the tokens to read. -/
structure Workspace where
  tree : SyntaxTree
  stream : TokenStream
deriving DecidableEq, Repr, Inhabited

/-- Why a builder stops. -/
inductive Halt where
  /-- The text is at fault. -/
  | malformed (error : SyntaxError)
  /-- A name stands for no node. -/
  | stale (node : StaleNode)
deriving DecidableEq, Repr, Inhabited

/-- A step that reads tokens and changes the tree. One that stops leaves both as they are then. -/
abbrev Builder := EStateM Halt Workspace

/-- What puts a phrase under the node of the given name. -/
abbrev NodeBuilder := NodeId → Builder Unit

namespace Builder

open GraphQL.Parser GraphQL.Grammar

/-- A step that reads tokens and leaves the tree alone. -/
def reading {α : Type} (step : Parser α) : Builder α := fun space =>
  match step space.stream with
  | .ok a stream => .ok a { space with stream }
  | .error failure stream => .error (.malformed failure.error) { space with stream }

/-- Put a new node under `parent`. -/
def append (parent : NodeId) (type : NodeType) (location : Position) : Builder NodeId :=
  fun space =>
    match space.tree.append parent { type, location } with
    | .ok (id, tree) => .ok id { space with tree }
    | .error stale => .error (.stale stale) space

/-- Change what the node named `id` says of itself. -/
def relabel (change : Label → Label) : NodeBuilder := fun id space =>
  match space.tree.relabel id change with
  | .ok tree => .ok () { space with tree }
  | .error stale => .error (.stale stale) space

def setPrimary (range : ByteRange) : NodeBuilder :=
  relabel fun label => { label with primary := some range }

def setSecondary (range : ByteRange) : NodeBuilder :=
  relabel fun label => { label with secondary := some range }

def setScalar (range : ByteRange) (kind : ScalarKind) : NodeBuilder :=
  relabel fun label => { label with primary := some range, scalarKind := some kind }

/-- Go back to a checkpoint because of an error. -/
def goBack (checkpoint : Checkpoint) (error : SyntaxError) : Builder Unit := fun space =>
  match space.tree.rollback checkpoint with
  | (.ok _, tree) => .error (.malformed error) { space with tree }
  | (.error stale, tree) => .error (.stale stale) { space with tree }

/-- Run a builder from a checkpoint, which is gone back to if the text is at fault. -/
def atomically (build : NodeBuilder) : NodeBuilder := fun parent space =>
  match space.tree.checkpoint parent with
  | .error stale => .error (.stale stale) space
  | .ok checkpoint =>
    match build parent space with
    | .error (.malformed error) after => goBack checkpoint error after
    | result => result

/-- Add a phrase if the current token is of the given kind. -/
def addAt (kind : TokenKind) (child : NodeBuilder) : NodeBuilder := fun id => do
  if ← reading (isAt kind) then child id

/-- Add phrases as long as the current token is of the given kind. -/
def addWhileAt (kind : TokenKind) (child : NodeBuilder) : Nat → NodeBuilder
  | 0, _ => reading beyondBound
  | rounds + 1, id => do
    if ← reading (isAt kind) then
      child id
      addWhileAt kind child rounds id

/-- Add phrases up to the closing delimiter. -/
def addUntilClosed (enclosure : Enclosure) (opening : Token) (item : NodeBuilder) :
    Nat → NodeBuilder
  | 0, _ => reading beyondBound
  | rounds + 1, id => do
    if ← reading (closes enclosure opening) then return
    item id
    addUntilClosed enclosure opening item rounds id

/-- A collection of phrases between delimiters. -/
def collection (type : NodeType) (enclosure : Enclosure) (item : NodeBuilder) : NodeBuilder :=
  fun parent => do
    let opening ← reading (openEnclosure enclosure)
    let id ← append parent type opening.start
    addUntilClosed enclosure opening item (← reading bound) id

def scalarValue : NodeBuilder := fun parent => do
  match scalarKindOf? (← reading current) with
  | some kind =>
    let token ← reading advance
    let id ← append parent .scalarValue token.start
    setScalar token.bytes kind id
  | none => reading (failExpecting ["number", "string", "true", "false"] "for scalar value")

def enumValue : NodeBuilder := fun parent => do
  if (← reading current).text ∈ ["true", "false", "null"] then
    reading (failExpecting ["enum value"] "for enum value")
  else
    let token ← reading (expectName "for enum value")
    let id ← append parent .enumValue token.start
    setPrimary token.bytes id

def nullValue : NodeBuilder := fun parent => do
  let token ← reading (expectWord "null" "for null value")
  let id ← append parent .nullValue token.start
  setPrimary token.bytes id

def variableValue : NodeBuilder := fun parent => do
  let dollar ← reading (expect .dollar "to begin a variable reference")
  let name ← reading (expectName "after `$`")
  let id ← append parent .variableValue dollar.start
  setPrimary name.bytes id

def listValue (value : NodeBuilder) : NodeBuilder :=
  collection .listValue .listValue fun id => do
    match ValueForm.startingAt? (← reading current) with
    | some _ => value id
    | none => reading (failExpecting ["value", "]"] "in list value")

def inputItem (value : NodeBuilder) : NodeBuilder := fun parent => do
  let name ← reading (expectName "for input name")
  let _ ← reading (expect .colon "after input name")
  let id ← append parent .inputItem name.start
  setPrimary name.bytes id
  match ValueForm.startingAt? (← reading current) with
  | some _ => value id
  | none => reading (failExpecting ["value"] ("for input `" ++ name.text ++ "`"))

def objectValue (value : NodeBuilder) : NodeBuilder :=
  collection .complexValue .objectValue (atomically (inputItem value))

/-- The builder of a form of value, whose inner values are built by `value`. -/
def ofForm (value : NodeBuilder) : ValueForm → NodeBuilder
  | .variableValue => variableValue
  | .listValue => listValue value
  | .objectValue => objectValue value
  | .scalarValue => scalarValue
  | .nullValue => nullValue
  | .enumValue => enumValue

/-- Choose the builder of a value by its first token and run it atomically. -/
def valueWithin : Nat → NodeBuilder
  | 0, _ => reading beyondBound
  | levels + 1, id => do
    match ValueForm.startingAt? (← reading current) with
    | some form => atomically (ofForm (valueWithin levels) form) id
    | none => reading (failExpecting ["value"] "for value")

def value : NodeBuilder := fun id => do valueWithin (← reading bound) id

def arguments : NodeBuilder :=
  collection .inputItemCollection .arguments (atomically (inputItem value))

def directive : NodeBuilder := fun parent => do
  let sign ← reading (expect .atSign "to begin a directive")
  let name ← reading (expectName "after `@`")
  let id ← append parent .directive sign.start
  setPrimary name.bytes id
  addAt .parenOpen (atomically arguments) id

def addDirectives : NodeBuilder := fun id => do
  addWhileAt .atSign (atomically directive) (← reading bound) id

/-- The default after `=`. Once it is built, the tokens it was read from are looked at again. -/
def addDefault : NodeBuilder := fun id => do
  let _ ← reading advance
  match ValueForm.startingAt? (← reading current) with
  | none => reading (failExpecting ["value"] "for default value after `=`")
  | some _ =>
    let before ← reading get
    value id
    match firstVariable? (tokensBetween before (← reading get)) with
    | none => return
    | some (dollar, name) => reading (fail (variableInDefault dollar name))

def variableDefinition : NodeBuilder := fun parent => do
  let dollar ← reading (expect .dollar "to begin a variable definition")
  let name ← reading (expectName "after `$`")
  if !(← reading (isAt .colon)) then
    reading (failExpecting [":"] "after variable name"
      [.help "variables are declared as `$name: Type`"])
  let _ ← reading advance
  let type ← reading typeRange
  let id ← append parent .variable dollar.start
  setPrimary name.bytes id
  setSecondary type id
  if ← reading (isAt .equals) then addDefault id
  addDirectives id

def variableDefinitions : NodeBuilder :=
  collection .variableCollection .variableDefinitions (atomically variableDefinition)

def field (selectionSet : NodeBuilder) : NodeBuilder := fun parent => do
  let first ← reading (expectName "for field")
  let id ← append parent .field first.start
  if ← reading (isAt .colon) then
    let _ ← reading advance
    let name ← reading (expectName "after field alias")
    setPrimary name.bytes id
    setSecondary first.bytes id
  else setPrimary first.bytes id
  addAt .parenOpen (atomically arguments) id
  addDirectives id
  addAt .curlyOpen (atomically selectionSet) id

def fragmentSpread : NodeBuilder := fun parent => do
  let dots ← reading (expect .ellipsis "to begin a fragment spread")
  let name ← reading (fragmentName "after `...`")
  let id ← append parent .fragmentSpread dots.start
  setPrimary name.bytes id
  addDirectives id

def inlineFragment (selectionSet : NodeBuilder) : NodeBuilder := fun parent => do
  let dots ← reading (expect .ellipsis "to begin an inline fragment")
  let id ← append parent .inlineFragment dots.start
  if ← reading (isAtWord "on") then
    let _ ← reading advance
    let type ← reading (expectName "for type condition after `on`")
    setPrimary type.bytes id
  addDirectives id
  atomically selectionSet id

/-- Choose the builder of a selection by its first tokens and run it atomically. -/
def selection (selectionSet : NodeBuilder) : NodeBuilder := fun id => do
  if ← reading (isAt .name) then atomically (field selectionSet) id
  else if ← reading (isAt .ellipsis) then
    let next := (← reading get).peek
    reading (modify fun stream => stream.fetch 1)
    if next.kind = .name ∧ next.text ≠ "on" then atomically fragmentSpread id
    else atomically (inlineFragment selectionSet) id
  else reading (failExpecting ["name", "...", "\x7d"] "in selection set")

def selectionSetWithin : Nat → NodeBuilder
  | 0 => fun _ => reading beyondBound
  | levels + 1 =>
    collection .fieldCollection .selectionSet (selection (selectionSetWithin levels))

def selectionSet : NodeBuilder := fun parent => do
  selectionSetWithin (← reading bound) parent

def operation : NodeBuilder := fun parent => do
  let id ← append parent .operation (← reading current).start
  if ← reading (isAt .curlyOpen) then atomically selectionSet id
  else if !(← reading (isAtOneOf operationWords)) then
    reading (failExpecting ("\x7b" :: operationWords) "to begin an operation")
  else
    let keyword ← reading advance
    setPrimary keyword.bytes id
    if ← reading (isAt .name) then
      let name ← reading advance
      setSecondary name.bytes id
    addAt .parenOpen (atomically variableDefinitions) id
    addDirectives id
    if ← reading (isAt .curlyOpen) then atomically selectionSet id
    else reading (failExpecting ["\x7b"]
      ("to open the `" ++ keyword.text ++ "` operation's selection set")
      [.spec "https://spec.graphql.org/September2025/#sec-Language.Operations"])

def namedFragment : NodeBuilder := fun parent => do
  let keyword ← reading (expectWord "fragment" "to begin a fragment")
  let name ← reading (fragmentName "for fragment name")
  let _ ← reading (expectWord "on" "after fragment name")
  let type ← reading (expectName "for type condition after `on`")
  let id ← append parent .namedFragment keyword.start
  setPrimary name.bytes id
  setSecondary type.bytes id
  addDirectives id
  atomically selectionSet id

/-- Choose the builder of a definition by its first token and run it atomically. -/
def definition : NodeBuilder := fun id => do
  if (← reading (isAt .curlyOpen)) || (← reading (isAtOneOf operationWords)) then
    atomically operation id
  else if ← reading (isAtWord "fragment") then atomically namedFragment id
  else reading (failExpecting definitionStarts "to begin a definition")

def addDefinitions : Nat → NodeBuilder
  | 0, _ => reading beyondBound
  | rounds + 1, id => do
    if (← reading get).atEnd then return
    definition id
    addDefinitions rounds id

def document : NodeBuilder := fun parent => do
  let id ← append parent .document (← reading current).start
  if (← reading get).atEnd then
    reading (failExpecting definitionStarts "to begin a definition"
      [.general "a document must contain at least one operation or fragment"])
  else addDefinitions (← reading bound) id

end Builder

/-- The builder of a production, which leaves what it built if it fails. -/
def Production.builder : Production → NodeBuilder
  | .document => Builder.document
  | .operation => Builder.operation
  | .namedFragment => Builder.namedFragment
  | .variableCollection => Builder.variableDefinitions
  | .variable => Builder.variableDefinition
  | .directive => Builder.directive
  | .fieldCollection => Builder.selectionSet
  | .field => Builder.field Builder.selectionSet
  | .fragmentSpread => Builder.fragmentSpread
  | .inlineFragment => Builder.inlineFragment Builder.selectionSet
  | .inputItemCollection => Builder.arguments
  | .inputItem => Builder.inputItem Builder.value
  | .scalarValue => Builder.scalarValue
  | .listValue => Builder.listValue Builder.value
  | .complexValue => Builder.objectValue Builder.value
  | .enumValue => Builder.enumValue
  | .nullValue => Builder.nullValue
  | .variableValue => Builder.variableValue

end GraphQL
