import GraphQL.Command.FileTree
import GraphQL.Text.Quoted

/-!
The search for query files at and under the paths that a command is given.
-/
namespace GraphQL

/-- What a walk meets: an entry with its path, or a path that could not be read and why. -/
abbrev Walked := Except (String × AccessError) (String × Entry)

/-- What is met on the way through all that lies at and under a path. -/
abbrev PathWalk := String → List Walked

mutual

/-- An entry that has the given path, and those under it. -/
def entriesUnder (path : String) : Entry → List (String × Entry)
  | .file content => [(path, .file content)]
  | .directory size entries => (path, .directory size entries) :: entriesAmong path entries

/-- The entries of a directory and those under them. -/
def entriesAmong (directory : String) : List (String × Entry) → List (String × Entry)
  | [] => []
  | (name, entry) :: rest =>
    entriesUnder (Path.join directory name) entry ++ entriesAmong directory rest

end

/-- The walk through what a view shows, each directory before its entries. -/
def FileView.walk (view : FileView) : PathWalk := fun path =>
  match view path with
  | .error error => [.error (path, error)]
  | .ok entry => (entriesUnder path entry).map .ok

/-- A file with the path under which it was found. -/
structure FoundFile where
  path : String
  content : ByteArray
deriving Inhabited

/-- The files found, how many others were passed over, and the paths that could not be read. -/
structure Discovery where
  files : List FoundFile := []
  skipped : Nat := 0
  unreadable : List (String × AccessError) := []
deriving Inhabited

namespace Discovery

/-- An extension with its dot. -/
def normalize (extension : String) : String :=
  if extension.startsWith "." then extension else "." ++ extension

/-- Whether the file at a path has one of the given extensions, which have their dots. -/
def hasExtension (extensions : List String) (path : String) : Bool :=
  (Path.extension? path).any fun extension => ("." ++ extension) ∈ extensions

/-- Go on with the search at what a walk meets next. Directories are not counted. -/
def meet (extensions : List String) (found : Discovery) : Walked → Discovery
  | .error unreadable => { found with unreadable := found.unreadable ++ [unreadable] }
  | .ok (_, .directory _ _) => found
  | .ok (path, .file content) =>
    if hasExtension extensions path then { found with files := found.files ++ [⟨path, content⟩] }
    else { found with skipped := found.skipped + 1 }

/-- Go on with the search at one more path. -/
def visit (walk : PathWalk) (extensions : List String) (found : Discovery) (path : String) :
    Discovery :=
  (walk path).foldl (meet extensions) found

/-- A single path that names a file asks for that file, whatever its extension. -/
def orOnlyFile (view : FileView) (paths : List String) (found : Discovery) : Discovery :=
  match found.files, paths with
  | [], [path] =>
    match view path with
    | .ok (.file content) =>
      { found with files := [⟨path, content⟩], skipped := found.skipped - 1 }
    | _ => found
  | _, _ => found

/-- The first of each run of files with equal paths. -/
def dropRepeats : List FoundFile → List FoundFile
  | a :: b :: rest =>
    if Path.components a.path = Path.components b.path then dropRepeats (a :: rest)
    else a :: dropRepeats (b :: rest)
  | files => files

/-- The files in the order of their paths, each once, in the spelling that comes first. -/
def ordered (files : List FoundFile) : List FoundFile :=
  dropRepeats (files.mergeSort fun a b =>
    Path.notAfter (Path.components a.path) (Path.components b.path))

/-- The files at and under each of `paths` that have one of the given extensions. The search goes by
any walk; the view only decides whether a single path names a file. -/
def run (walk : PathWalk) (view : FileView) (extensions paths : List String) : Discovery :=
  let found := orOnlyFile view paths (paths.foldl (visit walk (extensions.map normalize)) {})
  { found with files := ordered found.files }

end Discovery

/-- A path that could not be read and why, over several lines. -/
def describeUnreadable (path : String) (error : AccessError) : String :=
  "\n".intercalate
    ["    Error \x7b",
     "        depth: 0,",
     "        inner: Io \x7b",
     "            path: Some(",
     "                " ++ Text.quoted path ++ ",",
     "            ),",
     "            err: Os \x7b",
     "                code: " ++ toString error.code ++ ",",
     "                kind: " ++ error.kind ++ ",",
     "                message: \"" ++ error.message ++ "\",",
     "            \x7d,",
     "        \x7d,",
     "    \x7d,"]

end GraphQL
