import GraphQL.Grammar.Production

/-!
A pool of trees and all who hold trees of it. Each loan has a slot of its own, and whoever holds it
acts in steps that any steps of others may come between: a step is as much as is done while the list
of idle trees is locked, or what is done to one tree that nobody else can see.
-/
namespace GraphQL

/-- A tree of a pool. The serial tells it from all others that were ever made for the pool. -/
structure Lent where
  serial : Nat
  tree : SyntaxTree
deriving DecidableEq, Repr, Inhabited

/-- What became of a loan. -/
inductive LoanState where
  | held (lent : Lent)
  /-- The tree was acquired to read a text into it, which is still to be done. -/
  | reading (lent : Lent) (source : Source)
  /-- The tree is on its way back, because of an error if one is given. -/
  | returning (lent : Lent) (error : Option SyntaxError)
  | returned (error : Option SyntaxError)
  | detached (lent : Lent)
deriving Inhabited

/-- The tree of a loan that is not over. -/
def LoanState.lent? : LoanState → Option Lent
  | .held lent | .reading lent _ | .returning lent _ => some lent
  | .returned _ | .detached _ => none

/-- A step of somebody who holds a tree or wants one. Loans are counted from 0. -/
inductive LendingStep where
  | acquire
  /-- Acquire a tree to read a text into. -/
  | parse (source : Source)
  /-- Read the text. If it is no document the tree is given up. -/
  | read (loan : Nat)
  | append (loan : Nat) (parent : NodeId) (type : NodeType) (location : Position)
  /-- Give up a tree that is held. -/
  | drop (loan : Nat)
  /-- Put a tree that was given up back in the pool. -/
  | giveBack (loan : Nat)
  /-- Take a tree that is held out of the pool for good. -/
  | detach (loan : Nat)
deriving Inhabited

/-- A pool, the loans that were made of it and the number of its trees that were made. -/
structure Lending where
  /-- The idle trees, the last to come back first. -/
  idle : List Lent := []
  /-- The most trees that are kept. -/
  limit : Nat := 64
  loans : List LoanState := []
  made : Nat := 0
deriving Inhabited

namespace Lending

/-- The pool as those see it who ask it for a tree. -/
def pool (lending : Lending) : TreePool := ⟨lending.idle.map Lent.tree, lending.limit⟩

/-- The trees on loan. -/
def loaned (lending : Lending) : List Lent := lending.loans.filterMap LoanState.lent?

/-- The tree that is lent next: the idle one that came back last if there is any, else a new one. -/
def next (lending : Lending) : Lent := lending.idle.headD ⟨lending.made, {}⟩

/-- Make a loan of the next tree. -/
def lend (lending : Lending) (state : LoanState) : Lending :=
  { lending with
    idle := lending.idle.tail
    loans := lending.loans ++ [state]
    made := if lending.idle.isEmpty then lending.made + 1 else lending.made }

/-- Change what became of a loan. -/
def become (lending : Lending) (loan : Nat) (state : LoanState) : Lending :=
  { lending with loans := lending.loans.set loan state }

/-- Take a tree back. It is cleared, and dropped if the pool is full. -/
def keep (lending : Lending) (lent : Lent) : Lending :=
  if lending.idle.length < lending.limit then
    { lending with idle := { lent with tree := lent.tree.reset } :: lending.idle }
  else lending

/-- The lending after a step. There is none if the loan is in no state for it, or a node is put
under a name that stands for none. -/
def perform (lending : Lending) : LendingStep → Option Lending
  | .acquire => some (lending.lend (.held lending.next))
  | .parse source => some (lending.lend (.reading lending.next source))
  | .read loan =>
    match lending.loans[loan]? with
    | some (.reading lent source) =>
      match source.parseInto lent.tree with
      | (.ok _, tree) => some (lending.become loan (.held { lent with tree }))
      | (.error error, tree) => some (lending.become loan (.returning { lent with tree } error))
    | _ => none
  | .append loan parent type location =>
    match lending.loans[loan]? with
    | some (.held lent) => do
      let (_, tree) ← (lent.tree.append parent { type, location }).toOption
      return lending.become loan (.held { lent with tree })
    | _ => none
  | .drop loan =>
    match lending.loans[loan]? with
    | some (.held lent) => some (lending.become loan (.returning lent none))
    | _ => none
  | .giveBack loan =>
    match lending.loans[loan]? with
    | some (.returning lent error) => some ((lending.keep lent).become loan (.returned error))
    | _ => none
  | .detach loan =>
    match lending.loans[loan]? with
    | some (.held lent) => some (lending.become loan (.detached lent))
    | _ => none

/-- The lending after several steps, of any holders in any order. -/
def run (lending : Lending) : List LendingStep → Option Lending
  | [] => some lending
  | step :: rest => do (← lending.perform step).run rest

end Lending

end GraphQL
