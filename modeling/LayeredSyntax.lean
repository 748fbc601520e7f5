import LayeredSyntax.Composition.Compose
import LayeredSyntax.Composition.Composite
import LayeredSyntax.Composition.Embedding
import LayeredSyntax.Composition.Fault
import LayeredSyntax.Composition.LevelMerge
import LayeredSyntax.Composition.Lowering
import LayeredSyntax.Composition.Validation
import LayeredSyntax.Edit.Basic
import LayeredSyntax.Edit.Candidates
import LayeredSyntax.Edit.Relex
import LayeredSyntax.Grammar.Basic
import LayeredSyntax.Grammar.Builtin
import LayeredSyntax.Grammar.ClassDefinition
import LayeredSyntax.Grammar.Command
import LayeredSyntax.Grammar.Expression
import LayeredSyntax.Grammar.Levels
import LayeredSyntax.Grammar.Phrase
import LayeredSyntax.Grammar.Symbol
import LayeredSyntax.Journal.Code
import LayeredSyntax.Journal.Event
import LayeredSyntax.Journal.Keeper
import LayeredSyntax.Language
import LayeredSyntax.Lexicon.ClassLayer
import LayeredSyntax.Lexicon.CodeLayer
import LayeredSyntax.Lexicon.Kind
import LayeredSyntax.Lexicon.Lexeme
import LayeredSyntax.Lexicon.Mode
import LayeredSyntax.Lexicon.Nesting
import LayeredSyntax.Lexicon.RawLayer
import LayeredSyntax.Lexicon.Scan
import LayeredSyntax.Lexicon.Words
import LayeredSyntax.Limits
import LayeredSyntax.Parse.Assembly
import LayeredSyntax.Parse.Job
import LayeredSyntax.Parse.Progress
import LayeredSyntax.Parse.Reduce
import LayeredSyntax.Parse.Repair
import LayeredSyntax.Parse.Resync
import LayeredSyntax.Parse.Reuse
import LayeredSyntax.Parse.Run
import LayeredSyntax.Parse.Shift
import LayeredSyntax.Parse.Stack
import LayeredSyntax.Proofs.Composition.ClimbingGrammar
import LayeredSyntax.Proofs.Composition.Cycles
import LayeredSyntax.Proofs.Composition.Disagreeing
import LayeredSyntax.Proofs.Composition.Faithful
import LayeredSyntax.Proofs.Composition.Faults
import LayeredSyntax.Proofs.Composition.Lowered
import LayeredSyntax.Proofs.Composition.Merging
import LayeredSyntax.Proofs.Edit.Offering
import LayeredSyntax.Proofs.Edit.Relexing
import LayeredSyntax.Proofs.Edit.Splicing
import LayeredSyntax.Proofs.Grammar.Expanding
import LayeredSyntax.Proofs.Grammar.Helpers
import LayeredSyntax.Proofs.Grammar.Repeating
import LayeredSyntax.Proofs.Grammar.Rewriting
import LayeredSyntax.Proofs.Lexicon.Bounds
import LayeredSyntax.Proofs.Lexicon.Canonical
import LayeredSyntax.Proofs.Lexicon.Continuing
import LayeredSyntax.Proofs.Lexicon.Fencing
import LayeredSyntax.Proofs.Lexicon.Literals
import LayeredSyntax.Proofs.Lexicon.LookingAhead
import LayeredSyntax.Proofs.Lexicon.Outcomes
import LayeredSyntax.Proofs.Lexicon.Stacking
import LayeredSyntax.Proofs.Lexicon.Steps
import LayeredSyntax.Proofs.Parse.Accepting
import LayeredSyntax.Proofs.Parse.Adopting
import LayeredSyntax.Proofs.Parse.Assembling
import LayeredSyntax.Proofs.Parse.AttributingLeaves
import LayeredSyntax.Proofs.Parse.Barring
import LayeredSyntax.Proofs.Parse.Below
import LayeredSyntax.Proofs.Parse.Completing
import LayeredSyntax.Proofs.Parse.Counting
import LayeredSyntax.Proofs.Parse.Deriving
import LayeredSyntax.Proofs.Parse.Filing
import LayeredSyntax.Proofs.Parse.Forcing
import LayeredSyntax.Proofs.Parse.Grouping
import LayeredSyntax.Proofs.Parse.Keeping
import LayeredSyntax.Proofs.Parse.Linking
import LayeredSyntax.Proofs.Parse.OpeningAtOnce
import LayeredSyntax.Proofs.Parse.Pacing
import LayeredSyntax.Proofs.Parse.Placing
import LayeredSyntax.Proofs.Parse.Reaching
import LayeredSyntax.Proofs.Parse.Recording
import LayeredSyntax.Proofs.Parse.Recovering
import LayeredSyntax.Proofs.Parse.Reducing
import LayeredSyntax.Proofs.Parse.Remembering
import LayeredSyntax.Proofs.Parse.Repairing
import LayeredSyntax.Proofs.Parse.Replaying
import LayeredSyntax.Proofs.Parse.Running
import LayeredSyntax.Proofs.Parse.Saturating
import LayeredSyntax.Proofs.Parse.Settling
import LayeredSyntax.Proofs.Parse.Shifting
import LayeredSyntax.Proofs.Parse.Spreading
import LayeredSyntax.Proofs.Parse.Stacks
import LayeredSyntax.Proofs.Parse.Tracing
import LayeredSyntax.Proofs.Parse.Trails
import LayeredSyntax.Proofs.Parse.Turning
import LayeredSyntax.Proofs.Parse.Unmarked
import LayeredSyntax.Proofs.Parse.Unmet
import LayeredSyntax.Proofs.Session.Carrying
import LayeredSyntax.Proofs.Session.Choices
import LayeredSyntax.Proofs.Session.CleanParses
import LayeredSyntax.Proofs.Session.Climbing
import LayeredSyntax.Proofs.Session.Diagnosing
import LayeredSyntax.Proofs.Session.LeafGrammars
import LayeredSyntax.Proofs.Session.Marking
import LayeredSyntax.Proofs.Session.OpeningLate
import LayeredSyntax.Proofs.Session.Reparsing
import LayeredSyntax.Proofs.Session.Reusing
import LayeredSyntax.Proofs.Session.Shapes
import LayeredSyntax.Proofs.Session.Termination
import LayeredSyntax.Proofs.Session.Totality
import LayeredSyntax.Proofs.Source.Lines
import LayeredSyntax.Proofs.Source.Ordering
import LayeredSyntax.Proofs.Table.Cells
import LayeredSyntax.Proofs.Table.Collection
import LayeredSyntax.Proofs.Table.Items
import LayeredSyntax.Proofs.Table.LongRows
import LayeredSyntax.Proofs.Table.LookaheadSets
import LayeredSyntax.Proofs.Table.MatchedTerminals
import LayeredSyntax.Proofs.Table.Precedence
import LayeredSyntax.Proofs.Table.Reached
import LayeredSyntax.Proofs.Table.Rounds
import LayeredSyntax.Proofs.Table.Sentences
import LayeredSyntax.Proofs.Table.Signs
import LayeredSyntax.Proofs.Table.Spots
import LayeredSyntax.Proofs.Table.States
import LayeredSyntax.Proofs.Token.Bodies
import LayeredSyntax.Proofs.Token.Causes
import LayeredSyntax.Proofs.Token.Lexing
import LayeredSyntax.Proofs.Token.Locality
import LayeredSyntax.Proofs.Token.Members
import LayeredSyntax.Proofs.Token.Resuming
import LayeredSyntax.Proofs.Token.Streams
import LayeredSyntax.Proofs.Token.Tiling
import LayeredSyntax.Proofs.Token.Windows
import LayeredSyntax.Proofs.Tree.Attributions
import LayeredSyntax.Proofs.Tree.Derivations
import LayeredSyntax.Proofs.Tree.Finding
import LayeredSyntax.Proofs.Tree.Formulas
import LayeredSyntax.Proofs.Tree.Opening
import LayeredSyntax.Proofs.Tree.Reading
import LayeredSyntax.Proofs.Tree.Regions
import LayeredSyntax.Proofs.Tree.Walking
import LayeredSyntax.Session.Diagnostic
import LayeredSyntax.Session.Outcome
import LayeredSyntax.Session.Parser
import LayeredSyntax.Settings.Basic
import LayeredSyntax.Settings.Toml
import LayeredSyntax.Source.Document
import LayeredSyntax.Source.Position
import LayeredSyntax.Table.Automaton
import LayeredSyntax.Table.Basic
import LayeredSyntax.Table.Build
import LayeredSyntax.Table.Lookahead
import LayeredSyntax.Table.Lookup
import LayeredSyntax.Table.Matching
import LayeredSyntax.Table.Reach
import LayeredSyntax.Text.Classes
import LayeredSyntax.Text.Quoted
import LayeredSyntax.Text.Ranges
import LayeredSyntax.Text.Width
import LayeredSyntax.Token.Basic
import LayeredSyntax.Token.Fault
import LayeredSyntax.Token.Metrics
import LayeredSyntax.Token.Stream
import LayeredSyntax.Token.Tokenize
import LayeredSyntax.Tree.Cursor
import LayeredSyntax.Tree.Node
import LayeredSyntax.Tree.Outline
import LayeredSyntax.Tree.Place
