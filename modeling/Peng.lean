import Peng.Main
import Peng.Run.Step
import Peng.Proofs.Syntax.Acceptance
import Peng.Proofs.Run.Kinds
import Peng.Proofs.Run.Lines
import Peng.Proofs.Source.Tiling
import Peng.Proofs.Syntax.Extent
import Peng.Proofs.Diagnostic.Excerpt
import Peng.Proofs.Console.Input
import Peng.Proofs.Run.Failure
import Peng.Proofs.Console.Conversation
import Peng.Proofs.Run.Overflow
import Peng.Proofs.Run.LastWrite
import Peng.Proofs.Source.Lexemes
import Peng.Proofs.Source.LongestMatch
import Peng.Proofs.Syntax.Rendering
import Peng.Proofs.Syntax.RoundTrip
import Peng.Proofs.Number.Magnitude
import Peng.Proofs.Number.Bits
import Peng.Proofs.Number.Nearest
import Peng.Proofs.Number.Rounding
import Peng.Proofs.Number.Product
import Peng.Proofs.Number.Whole
import Peng.Proofs.Run.Repetition
import Peng.Proofs.Run.Saying
import Peng.Proofs.Run.Quotes
import Peng.Proofs.Number.Literal
import Peng.Proofs.Number.Numeral
import Peng.Proofs.Number.ReadBack
import Peng.Proofs.Run.FirstFailure
import Peng.Proofs.Syntax.Context
import Peng.Proofs.Syntax.Resumption
import Peng.Proofs.Syntax.NodeSpans
import Peng.Proofs.Run.Dependence
import Peng.Proofs.Run.Layout
import Peng.Proofs.Syntax.Calls
