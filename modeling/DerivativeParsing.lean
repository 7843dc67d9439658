import DerivativeParsing.Analysis.Basic
import DerivativeParsing.Analysis.Forest
import DerivativeParsing.Arena
import DerivativeParsing.Configuration.Basic
import DerivativeParsing.Configuration.Toml
import DerivativeParsing.Cursor.Basic
import DerivativeParsing.Cursor.Characters
import DerivativeParsing.Cursor.Items
import DerivativeParsing.Diagnostic
import DerivativeParsing.Engine.Basic
import DerivativeParsing.Engine.Compaction
import DerivativeParsing.Engine.Derivative
import DerivativeParsing.Engine.Query
import DerivativeParsing.Engine.Run
import DerivativeParsing.Fixpoint.Expression
import DerivativeParsing.Fixpoint.Inquiry
import DerivativeParsing.Fixpoint.Solver
import DerivativeParsing.Forest.Basic
import DerivativeParsing.Grammar.Basic
import DerivativeParsing.Grammar.Collection
import DerivativeParsing.Grammar.Equality
import DerivativeParsing.Grammar.Error
import DerivativeParsing.Grammar.Reachability
import DerivativeParsing.Grammar.Render
import DerivativeParsing.Handle
import DerivativeParsing.Journal
import DerivativeParsing.Lexicon
import DerivativeParsing.Lexicon.Name
import DerivativeParsing.Lexicon.Standard
import DerivativeParsing.Matcher
import DerivativeParsing.Memo
import DerivativeParsing.Node
import DerivativeParsing.Proofs.Analysis.Finiteness
import DerivativeParsing.Proofs.Analysis.Forests
import DerivativeParsing.Proofs.Analysis.Properties
import DerivativeParsing.Proofs.Analysis.Reports
import DerivativeParsing.Proofs.Analysis.Trichotomy
import DerivativeParsing.Proofs.Compaction.Condensation
import DerivativeParsing.Proofs.Compaction.Draft
import DerivativeParsing.Proofs.Compaction.Drafting
import DerivativeParsing.Proofs.Compaction.Ledger
import DerivativeParsing.Proofs.Compaction.Trim
import DerivativeParsing.Proofs.Compaction.Upkeep
import DerivativeParsing.Proofs.Completeness
import DerivativeParsing.Proofs.Correctness
import DerivativeParsing.Proofs.Counting
import DerivativeParsing.Proofs.Coverage
import DerivativeParsing.Proofs.Cursor
import DerivativeParsing.Proofs.Cursor.Agreement
import DerivativeParsing.Proofs.Decision
import DerivativeParsing.Proofs.Display
import DerivativeParsing.Proofs.Engine.Action
import DerivativeParsing.Proofs.Engine.Alike
import DerivativeParsing.Proofs.Engine.Coherence
import DerivativeParsing.Proofs.Engine.Compaction
import DerivativeParsing.Proofs.Engine.Derivation
import DerivativeParsing.Proofs.Engine.Descent
import DerivativeParsing.Proofs.Engine.Fallback
import DerivativeParsing.Proofs.Engine.Logged
import DerivativeParsing.Proofs.Engine.Openings
import DerivativeParsing.Proofs.Engine.Parallel
import DerivativeParsing.Proofs.Engine.Query
import DerivativeParsing.Proofs.Engine.Reached
import DerivativeParsing.Proofs.Engine.Run
import DerivativeParsing.Proofs.Engine.Survey
import DerivativeParsing.Proofs.Engine.Traced
import DerivativeParsing.Proofs.Engine.Turn
import DerivativeParsing.Proofs.Engine.Underway
import DerivativeParsing.Proofs.Exactness
import DerivativeParsing.Proofs.Expansion
import DerivativeParsing.Proofs.Fixpoint.Convergence
import DerivativeParsing.Proofs.Fixpoint.Height
import DerivativeParsing.Proofs.Fixpoint.Least
import DerivativeParsing.Proofs.Fixpoint.Notes
import DerivativeParsing.Proofs.Fixpoint.Pass
import DerivativeParsing.Proofs.Fixpoint.Rounds
import DerivativeParsing.Proofs.Fixpoint.Tracking
import DerivativeParsing.Proofs.Grammar.Bisimulation
import DerivativeParsing.Proofs.Grammar.Coinduction
import DerivativeParsing.Proofs.Grammar.Comparison
import DerivativeParsing.Proofs.Grammar.Equality
import DerivativeParsing.Proofs.Grammar.Fusion
import DerivativeParsing.Proofs.Grammar.Garbage
import DerivativeParsing.Proofs.Grammar.Growth
import DerivativeParsing.Proofs.Grammar.History
import DerivativeParsing.Proofs.Grammar.Inspection
import DerivativeParsing.Proofs.Grammar.Loops
import DerivativeParsing.Proofs.Grammar.Meaning
import DerivativeParsing.Proofs.Grammar.Patching
import DerivativeParsing.Proofs.Grammar.Reach
import DerivativeParsing.Proofs.Grammar.Transparency
import DerivativeParsing.Proofs.Grammar.Unwrapping
import DerivativeParsing.Proofs.Idempotence
import DerivativeParsing.Proofs.Independence
import DerivativeParsing.Proofs.Knots
import DerivativeParsing.Proofs.NormalForm
import DerivativeParsing.Proofs.Persistence
import DerivativeParsing.Proofs.Residual.Basic
import DerivativeParsing.Proofs.Residual.Representation
import DerivativeParsing.Proofs.Residual.Unfolding
import DerivativeParsing.Proofs.Resumption
import DerivativeParsing.Proofs.Safety
import DerivativeParsing.Proofs.Spelling
import DerivativeParsing.Proofs.Tables
import DerivativeParsing.Reducer
import DerivativeParsing.Text.Glyph
import DerivativeParsing.Text.Quoted
import DerivativeParsing.Tree.Basic
import DerivativeParsing.Tree.Order
