import GraphQL.Command.Run

/-!
The program: it reads the files that a command names, runs the command on them and prints what it
answers.
-/
namespace GraphQL

/-- The paths that a command is given. -/
def Command.paths : Command → List String
  | .check _ paths => paths
  | .tree path => [path]

def UsageError.message : UsageError → String
  | .missingCommand => "a command is required: `check` or `tree`"
  | .missingRequired => "a path is required"
  | .unknownCommand => "unrecognized command"
  | .unknownArgument => "unexpected argument"
  | .badValue => "invalid value for an option"
  | .missingValue => "an option or path has no value"
  | .unexpectedValue => "unexpected value for an option"
  | .repeated => "an option is given more than once"

/-- Read the file or the whole directory at a path. -/
partial def loadEntry (path : String) : IO Entry := do
  let place ← IO.FS.realPath path
  let info ← place.metadata
  match info.type with
  | .dir =>
    let mut entries := #[]
    for item in ← place.readDir do
      entries := entries.push (item.fileName, ← loadEntry item.path.toString)
    return .directory info.byteSize.toNat entries.toList
  | _ => return .file (← IO.FS.readBinFile place)

/-- What there is at a path of the file system. -/
def loadPath (path : String) : IO (Except AccessError Entry) := do
  match ← (loadEntry path).toBaseIO with
  | .ok entry => return .ok entry
  | .error (.noFileOrDirectory _ _ _) => return .error .notFound
  | .error _ => return .error .notADirectory

end GraphQL

open GraphQL in
/-- Run the command that the arguments ask for. -/
def main (arguments : List String) : IO UInt32 := do
  match Invocation.ofArguments arguments with
  | .error error =>
    IO.eprintln ("error: " ++ error.message)
    return 2
  | .ok invocation =>
    let loaded ← invocation.command.paths.mapM fun path => return (path, ← loadPath path)
    match invocation.run fun path => (loaded.lookup path).getD (.error .notFound) with
    | .success output =>
      IO.println output
      return 0
    | .failure message =>
      IO.eprintln message
      return 1
