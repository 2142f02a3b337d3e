import GraphQL.Source.Position

/-!
Notes that go with a diagnostic.
-/
namespace GraphQL

inductive NoteKind where
  /-- Context, such as where a delimiter was opened. -/
  | general
  /-- Advice on what to change. -/
  | help
  /-- A link into the language specification. -/
  | spec
deriving DecidableEq, Repr, Inhabited

/-- The word that introduces a note of this kind. -/
def NoteKind.label : NoteKind → String
  | .general => "note"
  | .help => "help"
  | .spec => "spec"

structure Note where
  kind : NoteKind
  message : String
  /-- A related place, shown with its line. -/
  span : Option Span := none
deriving DecidableEq, Repr, Inhabited

namespace Note

def general (message : String) : Note := ⟨.general, message, none⟩

def generalAt (message : String) (span : Span) : Note := ⟨.general, message, some span⟩

def help (message : String) : Note := ⟨.help, message, none⟩

def spec (address : String) : Note := ⟨.spec, address, none⟩

end Note

end GraphQL
