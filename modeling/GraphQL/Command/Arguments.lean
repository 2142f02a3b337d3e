/-!
The arguments of the command line. An option takes its value after `=` or from the next word. A
value from the next word, and a run of paths, is read only when something else follows it; until
then an argument that is not known is the error that counts.
-/
namespace GraphQL

/-- What is wrong with the arguments. -/
inductive UsageError where
  | missingCommand
  | missingRequired
  | unknownCommand
  | unknownArgument
  | badValue
  | missingValue
  | unexpectedValue
  | repeated
deriving DecidableEq, Repr, Inhabited

inductive Command where
  /-- Parse and assemble the query files at and under some paths. -/
  | check (extensions paths : List String)
  /-- Show the syntax tree of one query file. -/
  | tree (path : String)
deriving DecidableEq, Repr, Inhabited

/-- A command, and the size of the largest file that it reads. -/
structure Invocation where
  command : Command
  maxBytes : Nat
  verbose : Bool
deriving DecidableEq, Repr, Inhabited

namespace Arguments

/-- A word of the command line by its form. -/
inductive Word where
  /-- Two dashes: all words after them are plain. -/
  | dashes
  | long (name : String) (value : Option String)
  | short (letters : List Char)
  | plain (text : String)
deriving DecidableEq, Repr, Inhabited

def Word.ofString (text : String) : Word :=
  match text.toList with
  | ['-', '-'] => .dashes
  | '-' :: '-' :: cs =>
    match cs.dropWhile (· != '=') with
    | [] => .long (String.ofList cs) none
    | _ :: value => .long (String.ofList (cs.takeWhile (· != '='))) (some (String.ofList value))
  | '-' :: c :: cs => .short (c :: cs)
  | _ => .plain text

/-- The options that take a value. -/
inductive Setting where
  | maxBytes
  | extensions
deriving DecidableEq, Repr, Inhabited

/-- What may be given where: before a command, or after a certain one. -/
inductive Level where
  | top
  | check
  | tree
deriving DecidableEq, Repr, Inhabited

/-- The option with a value that has the given name at a level. -/
def Level.setting? (level : Level) (name : String) : Option Setting :=
  if name = "max-source-bytes" then some .maxBytes
  else if name = "graphql-file-exts" ∧ level = .check then some .extensions
  else none

/-- What was met but not read yet. -/
inductive Pending where
  /-- An option, with its value if that is there. -/
  | option (setting : Setting) (value : Option String)
  /-- Paths that follow one another. -/
  | paths (texts : List String)
deriving DecidableEq, Repr, Inhabited

/-- What was given so far at a level. -/
structure Given where
  maxBytes : Option Nat := none
  verbose : Bool := false
  /-- None if the option was not given. -/
  extensions : Option (List String) := none
  paths : List String := []
  pending : Option Pending := none
  /-- Whether two dashes were met. -/
  onlyPlain : Bool := false
deriving DecidableEq, Repr, Inhabited

/-- A count of bytes, in decimal digits and of at most 64 bits. -/
def readBytes (text : String) : Except UsageError Nat :=
  let digits := match text.toList with
    | '+' :: cs => cs
    | cs => cs
  let n := digits.foldl (fun n c => 10 * n + (c.toNat - '0'.toNat)) 0
  if !digits.isEmpty && digits.all Char.isDigit && n < UInt64.size then .ok n else .error .badValue

namespace Given

/-- Read the value of an option. -/
def apply (given : Given) (setting : Setting) (value : String) : Except UsageError Given :=
  match setting with
  | .maxBytes =>
    if given.maxBytes.isSome then .error .repeated
    else (readBytes value).map fun n => { given with maxBytes := some n }
  | .extensions =>
    .ok { given with extensions := some (given.extensions.getD [] ++ value.splitOn ",") }

/-- Read what is pending. An option must have a value, and no path may be empty. -/
def settle (given : Given) : Except UsageError Given :=
  match given.pending with
  | none => .ok given
  | some (.option _ none) => .error .missingValue
  | some (.option setting (some value)) => { given with pending := none }.apply setting value
  | some (.paths texts) =>
    if "" ∈ texts then .error .missingValue
    else .ok { given with pending := none, paths := given.paths ++ texts }

def setVerbose (given : Given) : Except UsageError Given := do
  let given ← given.settle
  if given.verbose then throw .repeated
  return { given with verbose := true }

/-- Read the letters after one dash. -/
def readLetters (given : Given) : List Char → Except UsageError Given
  | [] => .ok given
  | 'v' :: rest => do (← given.setVerbose).readLetters rest
  | _ :: _ => .error .unknownArgument

/-- Read an option that begins with two dashes. -/
def readLong (given : Given) (level : Level) (name : String) (value : Option String) :
    Except UsageError Given := do
  match level.setting? name with
  | some setting =>
    let given ← given.settle
    match value with
    | some value => given.apply setting value
    | none => return { given with pending := some (.option setting none) }
  | none =>
    if name ≠ "verbose" then throw .unknownArgument
    else if value.isSome then throw .unexpectedValue
    else given.setVerbose

/-- The paths that are pending. -/
def pendingPaths (given : Given) : List String :=
  match given.pending with
  | some (.paths texts) => texts
  | _ => []

/-- Read a path. It is pending together with the paths directly before it. -/
def readPath (given : Given) (level : Level) (path : String) : Except UsageError Given :=
  match given.pendingPaths with
  | [] => do
    if level = .tree ∧ !given.paths.isEmpty then throw .unknownArgument
    return { (← given.settle) with pending := some (.paths [path]) }
  | texts =>
    if level = .tree then .error .unknownArgument
    else .ok { given with pending := some (.paths (texts ++ [path])) }

/-- The option that waits for a value in the next word. -/
def waiting? (given : Given) : Option Setting :=
  if given.onlyPlain then none
  else match given.pending with
    | some (.option setting none) => some setting
    | _ => none

/-- Read a word after a command. -/
def readWord (level : Level) (given : Given) (text : String) : Except UsageError Given :=
  if given.onlyPlain then given.readPath level text
  else match Word.ofString text with
    | .dashes => .ok { given with onlyPlain := true }
    | .long name value => given.readLong level name value
    | .short letters => given.readLetters letters
    | .plain text =>
      match given.waiting? with
      | some setting => .ok { given with pending := some (.option setting (some text)) }
      | none => given.readPath level text

end Given

/-- The level that the name of a command begins. -/
def levelOf? (name : String) : Option Level :=
  if name = "check" then some .check
  else if name = "tree" then some .tree
  else none

/-- The extensions that are searched for if none are given. -/
def defaultExtensions : List String := ["graphql", "gql"]

/-- One mebibyte. -/
def defaultMaxBytes : Nat := 1048576

/-- The command at a level, from all that was given after its name. -/
def commandOf (level : Level) (given : Given) : Except UsageError Command :=
  match level, given.paths with
  | .tree, path :: _ => .ok (.tree path)
  | .check, path :: paths =>
    .ok (.check (given.extensions.getD defaultExtensions) (path :: paths))
  | .top, _ => .error .missingCommand
  | _, [] => .error .missingRequired

/-- Read the words after the name of a command. What is given there outweighs what was given
before. -/
def readCommand (before : Given) (level : Level) (words : List String) :
    Except UsageError Invocation := do
  let after ← (← words.foldlM (Given.readWord level) {}).settle
  let command ← commandOf level after
  let before ← before.settle
  let maxBytes := (after.maxBytes.or before.maxBytes).getD defaultMaxBytes
  return { command, maxBytes, verbose := after.verbose || before.verbose }

/-- Read the words up to the name of a command, and then those after it. -/
def readTop (given : Given) : List String → Except UsageError Invocation
  | [] => do
    let _ ← given.settle
    throw .missingCommand
  | text :: rest =>
    if given.onlyPlain then
      throw (if (levelOf? text).isSome then .unknownArgument else .unknownCommand)
    else match Word.ofString text with
      | .dashes => readTop { given with onlyPlain := true } rest
      | .long name value => do readTop (← given.readLong .top name value) rest
      | .short letters => do readTop (← given.readLetters letters) rest
      | .plain text =>
        match given.waiting? with
        | some setting =>
          readTop { given with pending := some (.option setting (some text)) } rest
        | none =>
          match levelOf? text with
          | some level => readCommand given level rest
          | none => throw .unknownCommand

end Arguments

/-- What the arguments ask for. -/
def Invocation.ofArguments (words : List String) : Except UsageError Invocation :=
  Arguments.readTop {} words

end GraphQL
