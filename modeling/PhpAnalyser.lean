import PhpAnalyser.Main
import PhpAnalyser.Syntax.Restoration
import PhpAnalyser.Proofs.Lexeme.Lexed
import PhpAnalyser.Proofs.Lexeme.Positions
import PhpAnalyser.Proofs.Lexeme.Literals
import PhpAnalyser.Proofs.Lexeme.Rendering
import PhpAnalyser.Proofs.Text.Utf8
import PhpAnalyser.Proofs.Syntax.Arena
import PhpAnalyser.Proofs.Syntax.Operands
import PhpAnalyser.Proofs.Syntax.Space
import PhpAnalyser.Proofs.Grammar.State
import PhpAnalyser.Proofs.Grammar.Judgement
import PhpAnalyser.Proofs.Grammar.Primitive
import PhpAnalyser.Proofs.Grammar.Control
import PhpAnalyser.Proofs.Grammar.Parts
import PhpAnalyser.Proofs.Grammar.Naming
import PhpAnalyser.Proofs.Grammar.Spelling
import PhpAnalyser.Proofs.Grammar.Expression
import PhpAnalyser.Proofs.Grammar.Declaration
import PhpAnalyser.Proofs.Grammar.Statement
import PhpAnalyser.Proofs.Grammar.Unit
import PhpAnalyser.Proofs.Grammar.Outcome
import PhpAnalyser.Proofs.Syntax.Chain
import PhpAnalyser.Proofs.Grammar.Precedence
import PhpAnalyser.Proofs.Grammar.Fatal
import PhpAnalyser.Proofs.Code.Exposure
import PhpAnalyser.Proofs.Code.Index
import PhpAnalyser.Proofs.Code.Entry
import PhpAnalyser.Proofs.Code.Integrity
import PhpAnalyser.Proofs.Code.Marking
import PhpAnalyser.Proofs.Code.Account
import PhpAnalyser.Proofs.Code.Calls
import PhpAnalyser.Proofs.Code.Referential
import PhpAnalyser.Proofs.Code.Packages
import PhpAnalyser.Proofs.Lockstep.Neighbours
import PhpAnalyser.Proofs.Production.Unit
import PhpAnalyser.Proofs.Code.Renumbering
import PhpAnalyser.Proofs.Code.Total
import PhpAnalyser.Proofs.Code.PackageNames
import PhpAnalyser.Proofs.Code.Survey
import PhpAnalyser.Proofs.Code.References
import PhpAnalyser.Proofs.Code.Refiling
import PhpAnalyser.Proofs.Scope.Around
import PhpAnalyser.Proofs.Measure.Accepted
import PhpAnalyser.Proofs.Measure.Runs
import PhpAnalyser.Proofs.Measure.Agreement
import PhpAnalyser.Proofs.Report.Listing
import PhpAnalyser.Proofs.Report.Order
import PhpAnalyser.Proofs.Report.Sums
import PhpAnalyser.Proofs.Measure.Sequence
import PhpAnalyser.Proofs.Code.Aliasing
import PhpAnalyser.Proofs.Layout.Judgement
import PhpAnalyser.Proofs.Layout.Unit
import PhpAnalyser.Proofs.Depth.Judgement
import PhpAnalyser.Proofs.Depth.Levels
import PhpAnalyser.Proofs.Code.Turns
import PhpAnalyser.Proofs.Code.Visibility
import PhpAnalyser.Proofs.Code.Visits
import PhpAnalyser.Proofs.Code.Preference
import PhpAnalyser.Proofs.Code.Cycles
import PhpAnalyser.Proofs.Naming.Words
import PhpAnalyser.Proofs.Upkeep.Unit
import PhpAnalyser.Proofs.Naming.Position
import PhpAnalyser.Proofs.Naming.Recorded
import PhpAnalyser.Proofs.Naming.TraitRule
import PhpAnalyser.Proofs.Naming.Folding
import PhpAnalyser.Proofs.Syntax.Descent
import PhpAnalyser.Proofs.Syntax.Orphans
import PhpAnalyser.Proofs.Replay.Passage
import PhpAnalyser.Proofs.Replay.Judgement
import PhpAnalyser.Proofs.Replay.Primitive
import PhpAnalyser.Proofs.Replay.Items
import PhpAnalyser.Proofs.Replay.Expression
import PhpAnalyser.Proofs.Replay.Declaration
import PhpAnalyser.Proofs.Replay.Members
import PhpAnalyser.Proofs.Replay.Statement
import PhpAnalyser.Proofs.Replay.Unit
import PhpAnalyser.Proofs.Replay.Forms
import PhpAnalyser.Proofs.Replay.Rounds
import PhpAnalyser.Proofs.Replay.Scanned
import PhpAnalyser.Proofs.Replay.Joining
import PhpAnalyser.Proofs.Replay.Coverage
import PhpAnalyser.Proofs.Replay.Alternative
import PhpAnalyser.Proofs.Measure.Deadlock
import PhpAnalyser.Proofs.Measure.Ancestry
import PhpAnalyser.Proofs.Measure.Decisions
import PhpAnalyser.Proofs.Measure.Renaming
import PhpAnalyser.Proofs.Measure.Exclusion
import PhpAnalyser.Proofs.Measure.Filtering
import PhpAnalyser.Proofs.Measure.Hearing
import PhpAnalyser.Proofs.Lexeme.Checkpoint
import PhpAnalyser.Proofs.Files.Discovery
import PhpAnalyser.Proofs.Nesting.Unit
