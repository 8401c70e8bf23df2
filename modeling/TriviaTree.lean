import TriviaTree.Files.Memory
import TriviaTree.Main
import TriviaTree.Proofs.Grammar.Uncommented
import TriviaTree.Proofs.Placement.Extents
import TriviaTree.Proofs.RoundTrip.Validation
import TriviaTree.Proofs.Token.Layout
import TriviaTree.Text.Literal
import TriviaTree.Tree.Edit
import TriviaTree.Proofs.Grammar.Blocks
import TriviaTree.Proofs.Grammar.Ladder
import TriviaTree.Proofs.Grammar.LineBreaks
import TriviaTree.Proofs.Placement.Legible
import TriviaTree.Proofs.Printing.Blocks
import TriviaTree.Proofs.Grammar.Atoms
import TriviaTree.Proofs.Placement.LineEnds
import TriviaTree.Proofs.Placement.TokenOrder
import TriviaTree.Proofs.RoundTrip.Rereading
import TriviaTree.Proofs.Printing.Marks
import TriviaTree.Proofs.RoundTrip.Directives
import TriviaTree.Proofs.Directive.Lines
import TriviaTree.Proofs.Directive.Clauses
import TriviaTree.Proofs.Grammar.Statements
import TriviaTree.Proofs.Directive.Wording
import TriviaTree.Proofs.Token.BlockMarks
import TriviaTree.Proofs.Token.CommentLines
import TriviaTree.Proofs.Tree.Ancestry
import TriviaTree.Proofs.Source.Offsets
import TriviaTree.Proofs.Tree.Lens
import TriviaTree.Proofs.Directive.Counting
