import GraphQL.Syntax.Tree

/-!
A pool of idle syntax trees. A tree is cleared when it comes back, and the tree that came back last
is handed out first.
-/
namespace GraphQL

structure TreePool where
  /-- The idle trees, the last to come back first. -/
  idle : List SyntaxTree := []
  /-- The most trees that are kept. -/
  limit : Nat := 64
deriving DecidableEq, Repr, Inhabited

namespace TreePool

/-- A tree on loan: an idle one if there is any, else a new one. -/
def acquire (pool : TreePool) : SyntaxTree × TreePool :=
  match pool.idle with
  | [] => ({}, pool)
  | tree :: rest => (tree, { pool with idle := rest })

/-- Take a tree back. It is cleared, and dropped if the pool is full. -/
def release (pool : TreePool) (tree : SyntaxTree) : TreePool :=
  if pool.idle.length < pool.limit then { pool with idle := tree.reset :: pool.idle } else pool

def retained (pool : TreePool) : Nat := pool.idle.length

end TreePool

end GraphQL
