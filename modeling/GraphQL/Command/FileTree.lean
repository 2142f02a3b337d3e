import GraphQL.Command.Path

/-!
Files and directories as a value, so that what a command does with them is a function of it.
-/
namespace GraphQL

/-- A file with its bytes, or a directory with its own size and its entries by name. -/
inductive Entry where
  | file (content : ByteArray)
  | directory (size : Nat) (entries : List (String × Entry))
deriving Inhabited

/-- Why there is no entry at a path. -/
inductive AccessError where
  | notFound
  /-- Something on the way is a file. -/
  | notADirectory
deriving DecidableEq, Repr, Inhabited

namespace AccessError

/-- The number that the operating system gives the error. -/
def code : AccessError → Nat
  | .notFound => 2
  | .notADirectory => 20

def kind : AccessError → String
  | .notFound => "NotFound"
  | .notADirectory => "NotADirectory"

def message : AccessError → String
  | .notFound => "No such file or directory"
  | .notADirectory => "Not a directory"

end AccessError

/-- The error as it is shown to a person. -/
def osError (message : String) (code : Nat) : String :=
  message ++ " (os error " ++ toString code ++ ")"

/-- What there is at each path. -/
abbrev FileView := String → Except AccessError Entry

namespace Entry

def size : Entry → Nat
  | .file content => content.size
  | .directory size _ => size

/-- The entry reached by going down a path piece by piece. `above` has the directories passed, the
nearest first. -/
def descend (above : List Entry) : Entry → List String → Except AccessError Entry
  | entry, [] => .ok entry
  | .file _, _ :: _ => .error .notADirectory
  | .directory size entries, piece :: rest =>
    if piece = "" ∨ piece = "." then descend above (.directory size entries) rest
    else if piece = ".." then
      match above with
      | [] => descend [] (.directory size entries) rest
      | parent :: higher => descend higher parent rest
    else match entries.lookup piece with
      | some entry => descend (.directory size entries :: above) entry rest
      | none => .error .notFound
termination_by _ pieces => pieces.length

/-- What there is at a path that is relative to this directory. -/
def view (entry : Entry) : FileView := fun path =>
  if path = "" ∨ path.startsWith "/" then .error .notFound
  else entry.descend [] (path.splitOn "/")

/-- Put a value in the place of the first one under a name, or after all others. -/
def replace (name : String) (entry : Entry) : List (String × Entry) → List (String × Entry)
  | [] => [(name, entry)]
  | (listed, old) :: rest =>
    if listed = name then (name, entry) :: rest else (listed, old) :: replace name entry rest

/-- Put an entry at a path, with the directories on the way, which have the given size. A directory
that is there already keeps its entries. -/
def insert (directorySize : Nat) (new : Entry) : List String → Entry → Entry
  | [], .directory size entries => match new with
    | .directory _ _ => .directory size entries
    | .file content => .file content
  | [], .file _ => new
  | piece :: rest, entry =>
    let (size, entries) := match entry with
      | .directory size entries => (size, entries)
      | .file _ => (directorySize, [])
    if piece = "" ∨ piece = "." then insert directorySize new rest (.directory size entries)
    else
      let old := (entries.lookup piece).getD (.directory directorySize [])
      .directory size (replace piece (insert directorySize new rest old) entries)

end Entry

end GraphQL
