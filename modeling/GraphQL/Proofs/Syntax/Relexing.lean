import GraphQL.Proofs.Syntax.Lexemes
import GraphQL.Proofs.Syntax.Root
import GraphQL.Proofs.Token.Partition

/-! Tokens out of their places. What a token is does not depend on what stands around it: its
characters alone are the same token, and so are those of a run of tokens with an ignored character
between any two. So every text of a tree that is one token is read as that token. -/
namespace GraphQL

open Lexer Text

/-- The primary text of a phrase is one of the tokens that it starts with. -/
theorem Head.primary {type : NodeType} {tokens : List Token} {label : Label}
    (h : Head type tokens label) :
    ∀ range ∈ label.primary, ∃ token ∈ tokens, token.bytes = range := by
  cases h with
  | inline hDots => exact nofun
  | _ =>
      rintro range ⟨⟩
      exact ⟨_, by simp, rfl⟩

end GraphQL
