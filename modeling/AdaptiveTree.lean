import AdaptiveTree.Adaptation
import AdaptiveTree.Builtin
import AdaptiveTree.Double.Decimal
import AdaptiveTree.Engine
import AdaptiveTree.Grammar.Conversion
import AdaptiveTree.Proofs.Comparator
import AdaptiveTree.Proofs.Comparator.Speculation
import AdaptiveTree.Proofs.Depth.Bounds
import AdaptiveTree.Proofs.Depth.Branches
import AdaptiveTree.Proofs.Depth.Conditional
import AdaptiveTree.Proofs.Depth.Run
import AdaptiveTree.Proofs.Depth.Worlds
import AdaptiveTree.Proofs.Double.Decimal
import AdaptiveTree.Proofs.Double.Truncation
import AdaptiveTree.Proofs.Grammar.Constructs
import AdaptiveTree.Proofs.Grammar.Displayed
import AdaptiveTree.Proofs.Grammar.Failures
import AdaptiveTree.Proofs.Grammar.Sequences
import AdaptiveTree.Proofs.Grammar.Spans
import AdaptiveTree.Proofs.Lowering.Operands
import AdaptiveTree.Proofs.Machine.Notices
import AdaptiveTree.Proofs.Machine.Release
import AdaptiveTree.Proofs.Places.Conditionals
import AdaptiveTree.Proofs.Places.Run
import AdaptiveTree.Proofs.Reading.Listing
import AdaptiveTree.Proofs.Reading.ReadBack
import AdaptiveTree.Proofs.Reading.Shown
import AdaptiveTree.Proofs.Reference.Displayed
import AdaptiveTree.Proofs.Repetition.Adapting
import AdaptiveTree.Proofs.Repetition.Conditionals
import AdaptiveTree.Proofs.Repetition.Expressions
import AdaptiveTree.Proofs.Repetition.Returns
import AdaptiveTree.Proofs.Repetition.Statements
import AdaptiveTree.Proofs.Report.Lines
import AdaptiveTree.Proofs.Report.Places
import AdaptiveTree.Proofs.Session.Agreement
import AdaptiveTree.Proofs.Session.Depth
import AdaptiveTree.Proofs.Session.Displayed
import AdaptiveTree.Proofs.Session.Faults
import AdaptiveTree.Proofs.Session.Isolation
import AdaptiveTree.Proofs.Session.Places
import AdaptiveTree.Proofs.Session.Returning
import AdaptiveTree.Proofs.Session.Sources
import AdaptiveTree.Proofs.Session.Splices
import AdaptiveTree.Proofs.Session.Tails
import AdaptiveTree.Proofs.Session.Watching
import AdaptiveTree.Proofs.Simulation.Termination
import AdaptiveTree.Proofs.Tree.Atomicity
import AdaptiveTree.Proofs.Tree.Chronicle
import AdaptiveTree.Proofs.Tree.Placing
import AdaptiveTree.Proofs.Tree.Pruning
import AdaptiveTree.Proofs.Value.Order
