import SyntaxTree.Main
import SyntaxTree.FileSystem.Setup
import SyntaxTree.Proofs.Matching.Outcome
import SyntaxTree.Proofs.Matching.Reads
import SyntaxTree.Proofs.Matching.Scans
import SyntaxTree.Proofs.Lexeme.Basic
import SyntaxTree.Proofs.Lexeme.Longest
import SyntaxTree.Proofs.Lexeme.Words
import SyntaxTree.Proofs.Lexeme.Literals
import SyntaxTree.Proofs.Lexeme.Symbols
import SyntaxTree.Proofs.Lexeme.Skipping
import SyntaxTree.Proofs.Lexeme.Cut
import SyntaxTree.Proofs.Lexeme.Rules
import SyntaxTree.Proofs.Derivation.Basic
import SyntaxTree.Proofs.Derivation.Spacing
import SyntaxTree.Proofs.Writing.Basic
import SyntaxTree.Proofs.Writing.WellFormed
import SyntaxTree.Proofs.Reading.Expr
import SyntaxTree.Proofs.Reading.Clause
import SyntaxTree.Proofs.Reading.Block
import SyntaxTree.Proofs.Writing.Ladder
import SyntaxTree.Proofs.Soundness.Expr
import SyntaxTree.Proofs.Soundness.Block
import SyntaxTree.Proofs.Soundness.Class
import SyntaxTree.Proofs.Soundness.Construct
import SyntaxTree.Proofs.Soundness.Source
import SyntaxTree.Proofs.Acceptance.Heads
import SyntaxTree.Proofs.Acceptance.Expr
import SyntaxTree.Proofs.Acceptance.Clause
import SyntaxTree.Proofs.Acceptance.Header
import SyntaxTree.Proofs.Acceptance.Block
import SyntaxTree.Proofs.Acceptance.Class
import SyntaxTree.Proofs.Acceptance.Source
import SyntaxTree.Proofs.Diagram.Expr
import SyntaxTree.Proofs.Diagram.Normal
import SyntaxTree.Proofs.Diagram.Clause
import SyntaxTree.Proofs.Diagram.Block
import SyntaxTree.Proofs.Acceptance.Layout
import SyntaxTree.Proofs.Nesting.Reading
import SyntaxTree.Proofs.Nesting.Source
import SyntaxTree.Proofs.Leaves.Basic
import SyntaxTree.Proofs.Leaves.Expr
import SyntaxTree.Proofs.Leaves.Clause
import SyntaxTree.Proofs.Leaves.Source
import SyntaxTree.Proofs.Drawing.Caption
import SyntaxTree.Proofs.Drawing.Rows
import SyntaxTree.Proofs.Drawing.Source
import SyntaxTree.Proofs.Frontier.Furthest
import SyntaxTree.Proofs.Frontier.Location
import SyntaxTree.Proofs.Frontier.Misses
import SyntaxTree.Proofs.Frontier.Wording
import SyntaxTree.Proofs.Truncation.Braces
import SyntaxTree.Proofs.Truncation.Slashes
import SyntaxTree.Proofs.Truncation.Lexing
import SyntaxTree.Proofs.Truncation.Source
import SyntaxTree.Proofs.Files.Store
import SyntaxTree.Proofs.Files.Generate
import SyntaxTree.Proofs.Drawing.Lines
import SyntaxTree.Proofs.Command.Runs
import SyntaxTree.Proofs.Origin.Phrase
import SyntaxTree.Proofs.Origin.Words
import SyntaxTree.Proofs.Origin.Reading
import SyntaxTree.Proofs.Origin.Expr
import SyntaxTree.Proofs.Origin.Clause
import SyntaxTree.Proofs.Origin.Class
import SyntaxTree.Proofs.Origin.Source
import SyntaxTree.Proofs.Origin.Shape
import SyntaxTree.Proofs.Drawing.Paths
import SyntaxTree.Proofs.Lowering.Parts
import SyntaxTree.Proofs.Lowering.Leaves
import SyntaxTree.Proofs.Lowering.Class
import SyntaxTree.Proofs.Matching.Entries
import SyntaxTree.Proofs.Matching.Grammars
import SyntaxTree.Proofs.Alternatives.Header
import SyntaxTree.Proofs.Alternatives.Statement
import SyntaxTree.Proofs.Alternatives.Order
import SyntaxTree.Proofs.Alternatives.Exclusive
import SyntaxTree.Proofs.Lexeme.WholeWords
import SyntaxTree.Proofs.Lexeme.Scanner
