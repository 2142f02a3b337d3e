import GraphQL.Token.Lexer

/-!
Types that variables are declared with. Only the form is recorded; which names are types is for a
schema to say.
-/
namespace GraphQL

/-- A named type or a list type. A type that is not marked with `!` admits null. -/
inductive TypeExpr where
  | named (name : String) (nullable : Bool)
  | list (item : TypeExpr) (nullable : Bool)
deriving DecidableEq, Repr, Inhabited

namespace TypeExpr

/-- Why a text is no type. -/
inductive Fault where
  | ended
  | unexpected (found : String)
  | unclosedList
  | trailing (found : String)
deriving DecidableEq, Repr, Inhabited

def Fault.message : Fault → String
  | .ended => "expected a type name or `[`, found end of input"
  | .unexpected found => "expected a type name or `[`, found `" ++ found ++ "`"
  | .unclosedList => "list type is missing its closing `]`"
  | .trailing found => "unexpected `" ++ found ++ "` after the end of the type"

def isList : TypeExpr → Bool
  | .list _ _ => true
  | .named _ _ => false

def nullable : TypeExpr → Bool
  | .list _ nullable | .named _ nullable => nullable

/-- The name inside all lists. -/
def innermostName : TypeExpr → String
  | .list item _ => item.innermostName
  | .named name _ => name

/-- The number of lists around the name. -/
def listDepth : TypeExpr → Nat
  | .list item _ => item.listDepth + 1
  | .named _ _ => 0

def mark (nullable : Bool) : String := if nullable then "" else "!"

def display : TypeExpr → String
  | .list item nullable => "[" ++ item.display ++ "]" ++ mark nullable
  | .named name nullable => name ++ mark nullable

/-- Complete a type by the `!` that may follow it. -/
def marked (build : Bool → TypeExpr) : List Token → TypeExpr × List Token
  | [] => (build true, [])
  | token :: rest => if token.kind = .bang then (build false, rest) else (build true, token :: rest)

/-- The type at the start of some tokens, and the tokens after it. -/
def readTokens : List Token → Except Fault (TypeExpr × List Token)
  | [] => .error .ended
  | token :: rest =>
    match token.kind with
    | .name => .ok (marked (.named token.text) rest)
    | .squareOpen => do
      let (item, rest) ← readTokens rest
      match rest with
      | [] => throw .unclosedList
      | closer :: rest =>
        if closer.kind = .squareClose then return marked (.list item) rest
        else throw .unclosedList
    | _ => .error (.unexpected token.text)

/-- The type that a text is. Ignored characters may stand between its tokens. -/
def read (text : String) : Except Fault TypeExpr := do
  let (type, rest) ← readTokens ((Token.lex text).takeWhile fun token => token.kind ≠ .eof)
  match rest with
  | [] => return type
  | token :: _ => throw (.trailing token.text)

end TypeExpr

end GraphQL
