import Reckon.Host.World
import Reckon.Main
import Reckon.Proofs.Evaluation
import Reckon.Proofs.Refinement
import Reckon.Proofs.RoundTrip
import Reckon.Proofs.Generation
import Reckon.Proofs.Words
import Reckon.Proofs.Outcomes
import Reckon.Proofs.Precedence
import Reckon.Proofs.Recogniser
import Reckon.Proofs.ViablePrefix
import Reckon.Proofs.Regrouping
import Reckon.Proofs.LineBreak
import Reckon.Proofs.Simulation
import Reckon.Proofs.TokenText
import Reckon.Proofs.Lookahead
import Reckon.Proofs.PullParsing
import Reckon.Proofs.Composition
import Reckon.Proofs.TreeShape
import Reckon.Proofs.Delivery
import Reckon.Proofs.NumeralText
import Reckon.Proofs.CodeText
import Reckon.Proofs.LimitedSink
import Reckon.Proofs.Decompile
import Reckon.Proofs.BracketDepth
import Reckon.Proofs.DumpRoutine
import Reckon.Proofs.Preparing
import Reckon.Proofs.Pipeline
import Reckon.Proofs.Unsupported
import Reckon.Proofs.FailedCalls
import Reckon.Proofs.FinalState
import Reckon.Proofs.NumeralSyntax
import Reckon.Proofs.NumeralReading
import Reckon.Proofs.StringSyntax
import Reckon.Proofs.Placement
import Reckon.Proofs.BracketPadding
import Reckon.Proofs.StackShape
import Reckon.Proofs.OutputDirectory
import Reckon.Proofs.NearestSingle
import Reckon.Proofs.FloatOperand
import Reckon.Proofs.Trail
import Reckon.Proofs.TokenReads
import Reckon.Proofs.BracketChecks
import Reckon.Proofs.DistinctPaths
