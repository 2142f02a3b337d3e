/-!
Paths as the command line sees them. Two spellings of a path are equal if they have the same
components, and paths are ordered by their components.
-/
namespace GraphQL.Path

/-- A step of a path. -/
inductive Component where
  /-- The start of an absolute path. -/
  | root
  /-- The directory itself, which counts at the start of a path only. -/
  | here
  | up
  | name (text : String)
deriving DecidableEq, Repr, Inhabited

namespace Component

/-- Where a component stands among those of other forms. -/
def rank : Component → Nat
  | .root => 0
  | .here => 1
  | .up => 2
  | .name _ => 3

/-- Whether a component is before another: by form, and names by their characters. -/
def before : Component → Component → Bool
  | .name a, .name b => a < b
  | a, b => a.rank < b.rank

end Component

/-- The component that a stretch between slashes is, if it is one. -/
def component? (piece : String) : Option Component :=
  if piece = "" ∨ piece = "." then none
  else if piece = ".." then some .up
  else some (.name piece)

/-- The components of a path. Repeated and final slashes do not count, and neither does `.` after
the start. -/
def components (path : String) : List Component :=
  let pieces := path.splitOn "/"
  let start := match pieces with
    | "" :: _ :: _ => [.root]
    | "." :: _ => [.here]
    | _ => []
  start ++ pieces.filterMap component?

/-- Whether a list of components is not after another. -/
def notAfter : List Component → List Component → Bool
  | [], _ => true
  | _ :: _, [] => false
  | a :: as, b :: bs => a.before b || (a == b && notAfter as bs)

/-- The path of an entry in a directory. -/
def join (directory name : String) : String :=
  if directory.endsWith "/" then directory ++ name else directory ++ "/" ++ name

/-- The last component of a path, if it is a name. -/
def fileName? (path : String) : Option String :=
  match (components path).getLast? with
  | some (.name text) => some text
  | _ => none

/-- What follows the last dot of a file name. A dot at the start alone begins no extension. -/
def extension? (path : String) : Option String := do
  let name ← fileName? path
  let reversed := name.toList.reverse
  match reversed.dropWhile (· != '.') with
  | [] | [_] => none
  | _ => return String.ofList (reversed.takeWhile (· != '.')).reverse

end GraphQL.Path
