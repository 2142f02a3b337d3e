/-!
Walks over nodes that are named by numbers. A walk goes down from where it starts and keeps the
nodes that it has still to visit on a stack.
-/
namespace GraphQL

/-- A walk from the nodes in a stack, the next one first, comes to an end, and visits these nodes on
the way. The children of a node go on top of the stack, in order. A node that is not there has no
list of children, and is never visited. -/
inductive Walk (children? : Nat → Option (List Nat)) : List Nat → List Nat → Prop where
  | done : Walk children? [] []
  | visit {node : Nat} {children stack visited : List Nat}
      (hChildren : children? node = some children)
      (hRest : Walk children? (children ++ stack) visited) :
      Walk children? (node :: stack) (node :: visited)

end GraphQL
