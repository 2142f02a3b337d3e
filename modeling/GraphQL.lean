import GraphQL.Value.Resolution
import GraphQL.Main
import GraphQL.Proofs.Outcome
import GraphQL.Proofs.Text.Slice
import GraphQL.Proofs.Token.Lexeme
import GraphQL.Proofs.Token.Lexing
import GraphQL.Proofs.Token.Run
import GraphQL.Proofs.Token.Stream
import GraphQL.Proofs.Grammar.Steps
import GraphQL.Proofs.Grammar.Phrase
import GraphQL.Proofs.Grammar.Reading
import GraphQL.Proofs.Grammar.Acceptance
import GraphQL.Proofs.Grammar.Completeness
import GraphQL.Proofs.Grammar.Derivation
import GraphQL.Proofs.Grammar.Document
import GraphQL.Proofs.Grammar.Language
import GraphQL.Proofs.Grammar.Prediction
import GraphQL.Proofs.Grammar.Explanation
import GraphQL.Proofs.Grammar.Failure
import GraphQL.Proofs.Syntax.Graft
import GraphQL.Proofs.Syntax.Lexemes
import GraphQL.Proofs.Token.Recognition
import GraphQL.Proofs.Token.Partition
import GraphQL.Proofs.Source.Position
import GraphQL.Proofs.Syntax.Builder
import GraphQL.Proofs.Syntax.Preorder
import GraphQL.Proofs.Syntax.Splicing
import GraphQL.Proofs.Syntax.Following
import GraphQL.Proofs.Syntax.Atomicity
import GraphQL.Proofs.Document.Parts
import GraphQL.Proofs.Document.Layout
import GraphQL.Proofs.TypeExpr
import GraphQL.Proofs.TypeExpr.Display
import GraphQL.Proofs.Document.Assembly
import GraphQL.Proofs.Document.Renumbering
import GraphQL.Proofs.Document.Abstract
import GraphQL.Proofs.Document.RoundTrip
import GraphQL.Proofs.Token.Position
import GraphQL.Proofs.Document.Shape
import GraphQL.Proofs.Value.Written
import GraphQL.Proofs.Value.Equality
import GraphQL.Proofs.Value.Agreement
import GraphQL.Proofs.Document.Defaults
import GraphQL.Proofs.Value.Usages
import GraphQL.Proofs.Value.Termination
import GraphQL.Proofs.Value.Supply
import GraphQL.Proofs.StringLiteral
import GraphQL.Proofs.Token.LineEnds
import GraphQL.Proofs.Grammar.Relocation
import GraphQL.Proofs.Document.Unplaced
import GraphQL.Proofs.Document.Relocation
import GraphQL.Proofs.Token.Buffer
import GraphQL.Proofs.Document.Arrangement
import GraphQL.Proofs.Document.Arena
import GraphQL.Proofs.Document.Observation
import GraphQL.Proofs.Links
import GraphQL.Proofs.Document.Subtrees
import GraphQL.Proofs.Syntax.Clearing
import GraphQL.Proofs.Syntax.Links
import GraphQL.Proofs.Syntax.Session
import GraphQL.Proofs.Syntax.Reuse
import GraphQL.Proofs.Grammar.Lending
import GraphQL.Proofs.Grammar.Generations
import GraphQL.Proofs.Token.Sites
import GraphQL.Proofs.Grammar.Contract
import GraphQL.Proofs.Grammar.Sites
import GraphQL.Proofs.Grammar.Brackets
import GraphQL.Proofs.Syntax.Root
import GraphQL.Proofs.Syntax.Extent
import GraphQL.Proofs.Syntax.Usage
import GraphQL.Proofs.Syntax.SourceOrder
import GraphQL.Proofs.Syntax.Relexing
import GraphQL.Proofs.Source.Lines
import GraphQL.Proofs.Diagnostic.Snippet
import GraphQL.Proofs.Document.Scope
import GraphQL.Proofs.StringLiteral.Block
import GraphQL.Proofs.StringLiteral.Escapes
import GraphQL.Proofs.Value.FirstFailure
import GraphQL.Proofs.Source.Offsets
import GraphQL.Proofs.Value.Number
import GraphQL.Proofs.Command.Discovery
import GraphQL.Proofs.Document.Sizes
