import GraphQL.Command.Arguments
import GraphQL.Command.Discovery
import GraphQL.Document.Assembly

/-!
What the commands do. A command reads files through a view of them and answers with one text, for
standard output if it succeeds and for the error output if it fails.
-/
namespace GraphQL

inductive Outcome where
  | success (output : String)
  | failure (message : String)
deriving DecidableEq, Repr, Inhabited

/-- Why a file is not taken as source text. -/
inductive ReadError where
  | noAccess (error : AccessError)
  | tooLarge (size limit : Nat)
  | directory
  | notText
deriving DecidableEq, Repr, Inhabited

def ReadError.message (path : String) : ReadError → String
  | .noAccess error => "failed to stat " ++ path ++ ": " ++ osError error.message error.code
  | .tooLarge size limit =>
    path ++ " is " ++ toString size ++ " bytes, over the --max-source-bytes limit of " ++
      toString limit
  | .directory => "failed to read " ++ path ++ ": " ++ osError "Is a directory" 21
  | .notText => "failed to read " ++ path ++ ": stream did not contain valid UTF-8"

/-- The source text in a file. A file over the limit is not read. -/
def sourceOf (limit : Nat) (path : String) (entry : Entry) : Except ReadError Source :=
  if limit < entry.size then .error (.tooLarge entry.size limit)
  else match entry with
    | .directory _ _ => .error .directory
    | .file content =>
      match String.fromUTF8? content with
      | some text => .ok { text, path := some path }
      | none => .error .notText

/-- The source text in the file at a path. -/
def readSource (view : FileView) (limit : Nat) (path : String) : Except ReadError Source :=
  match view path with
  | .error error => .error (.noAccess error)
  | .ok entry => sourceOf limit path entry

/-- A number of things, with their noun in the plural unless there is one. -/
def counted (n : Nat) (noun : String) : String :=
  toString n ++ " " ++ noun ++ (if n = 1 then "" else "s")

def crossMark : String := "\u274c"

def checkMark : String := "\u2705"

/-- A text in a line of a shown tree. -/
def showText (source : Source) (range : ByteRange) : String := "`" ++ source.slice range ++ "`"

/-- The line of a node at a depth: its type, its texts and its place. -/
def showLabel (source : Source) (depth : Nat) (label : Label) : String :=
  String.ofList (List.replicate (2 * depth) ' ') ++ label.type.name ++
    ((label.primary.map fun range => " " ++ showText source range).getD "") ++
    ((label.secondary.map fun range => " (" ++ showText source range ++ ")").getD "") ++
    " @ " ++ label.location.display

mutual

/-- The lines of a phrase, each before those of the phrases in it. -/
def showOutline (source : Source) (depth : Nat) : Outline → List String
  | .node label children => showLabel source depth label :: showOutlines source (depth + 1) children
  | .missing _ => []

def showOutlines (source : Source) (depth : Nat) : List Outline → List String
  | [] => []
  | phrase :: rest => showOutline source depth phrase ++ showOutlines source depth rest

end

def runTree (view : FileView) (limit : Nat) (path : String) : Outcome :=
  match readSource view limit path with
  | .error error => .failure (crossMark ++ " " ++ error.message path)
  | .ok source =>
    match source.outline with
    | .ok phrase => .success ("\n".intercalate (showOutline source 0 phrase))
    | .error error => .failure (error.detailed (some source))

/-- What was put together from some files. -/
structure Tally where
  operations : Nat := 0
  fragments : Nat := 0
  parts : Nat := 0
deriving DecidableEq, Repr, Inhabited

def Tally.add (a b : Tally) : Tally :=
  ⟨a.operations + b.operations, a.fragments + b.fragments, a.parts + b.parts⟩

/-- The tally of one file, or what is wrong with it. -/
def checkFile (limit : Nat) (file : FoundFile) : Except String Tally :=
  match sourceOf limit file.path (.file file.content) with
  | .error error => .error (error.message file.path)
  | .ok source =>
    match source.document with
    | .ok (document, _) =>
      .ok ⟨document.operations.length, document.namedFragments.length, document.size⟩
    | .error (.malformed error) => .error (error.detailed (some source))
    | .error error => .error (file.path ++ ": " ++ error.message)

/-- The failures of some checks in order. -/
def failures (checks : List (Except String Tally)) : List String :=
  checks.filterMap fun
    | .error message => some message
    | .ok _ => none

/-- The sum over the checks that succeeded. -/
def totals (checks : List (Except String Tally)) : Tally :=
  checks.foldl (fun sum check => match check with
    | .ok tally => sum.add tally
    | .error _ => sum) {}

/-- The report on all files that were searched for. -/
def report (found : Discovery) (checks : List (Except String Tally)) : Outcome :=
  let checked := found.files.length
  match failures checks with
  | [] =>
    let sum := totals checks
    .success (checkMark ++ " All query documents parsed successfully:\n" ++
      "  * Checked " ++ counted checked "file" ++ ".\n" ++
      "  * Skipped " ++ counted found.skipped "non-query file" ++ ".\n" ++
      "  * Assembled " ++ counted sum.operations "operation" ++ " and " ++
      counted sum.fragments "named fragment" ++ " into " ++
      counted sum.parts "document part" ++ ".")
  | messages =>
    .failure ("\n\n".intercalate messages ++ "\n\n" ++ crossMark ++ " " ++
      counted messages.length "file" ++ " of " ++ toString checked ++ " failed to parse.")

def runCheck (view : FileView) (limit : Nat) (extensions paths : List String) : Outcome :=
  let found := Discovery.run view.walk view extensions paths
  match found.unreadable with
  | [] => report found (found.files.map (checkFile limit))
  | unreadable =>
    .failure (crossMark ++ " Errors while scanning input paths: [\n" ++
      "\n".intercalate (unreadable.map fun (path, error) => describeUnreadable path error) ++
      "\n]")

/-- What a command answers. -/
def Invocation.run (invocation : Invocation) (view : FileView) : Outcome :=
  match invocation.command with
  | .tree path => runTree view invocation.maxBytes path
  | .check extensions paths => runCheck view invocation.maxBytes extensions paths

end GraphQL
