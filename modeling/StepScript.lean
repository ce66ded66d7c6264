import StepScript.Outline.Basic
import StepScript.Outline.Edit
import StepScript.Outline.Bounded
import StepScript.Outline.Checked
import StepScript.Text.Blank
import StepScript.Text.Ranges
import StepScript.Text.Invisible
import StepScript.Text.Width
import StepScript.Text.Quoted
import StepScript.Number.Binary
import StepScript.Number.Shortest
import StepScript.Number.Digits
import StepScript.Number.Text
import StepScript.Span
import StepScript.Program.Operation
import StepScript.Program.Node
import StepScript.Value.Basic
import StepScript.Value.Store
import StepScript.Value.Text
import StepScript.Value.Host
import StepScript.Operator.Evaluate
import StepScript.Token.Basic
import StepScript.Token.Lexer
import StepScript.Grammar.Cursor
import StepScript.Grammar.Operators
import StepScript.Grammar.Rules
import StepScript.Machine.Error
import StepScript.Machine.NodeMap
import StepScript.Machine.Frame
import StepScript.Machine.Handler
import StepScript.Machine.Statements
import StepScript.Machine.Expressions
import StepScript.Machine.Step
import StepScript.Machine.Text
import StepScript.Host.Builtin
import StepScript.Session
import StepScript.Report.Source
import StepScript.Report.Draw
import StepScript.Prompt
import StepScript.Folder
import StepScript.CommandLine
import StepScript.Main
import StepScript.Proofs.Outline.Levels
import StepScript.Proofs.Outline.Navigation
import StepScript.Proofs.Outline.Editing
import StepScript.Proofs.Grammar.Shape
import StepScript.Proofs.Grammar.Assembly
import StepScript.Proofs.Grammar.Printing
import StepScript.Proofs.Grammar.Cursor
import StepScript.Proofs.Value.Bodies
import StepScript.Proofs.Program.Layout
import StepScript.Proofs.Machine.Handlers
import StepScript.Proofs.Machine.Safety
import StepScript.Proofs.Evaluator.Direct
import StepScript.Proofs.Evaluator.Behaviour
import StepScript.Proofs.Evaluator.Walk
import StepScript.Proofs.Evaluator.Calls
import StepScript.Proofs.Evaluator.Operands
import StepScript.Proofs.Evaluator.Statements
import StepScript.Proofs.Evaluator.Expressions
import StepScript.Proofs.Evaluator.Assignments
import StepScript.Proofs.Evaluator.Agreement
import StepScript.Proofs.Evaluator.Equivalence
import StepScript.Proofs.Grammar.Spelling
import StepScript.Proofs.Grammar.Parsed
import StepScript.Proofs.Grammar.Completeness
import StepScript.Proofs.Number.Encoding
import StepScript.Proofs.Number.Rounding
import StepScript.Proofs.Number.Shortest
import StepScript.Proofs.Number.ReadBack
import StepScript.Proofs.Number.Unpacking
import StepScript.Proofs.Number.Equality
import StepScript.Proofs.Number.Arithmetic
import StepScript.Proofs.Grammar.RoundTrip
import StepScript.Proofs.Value.Rendering
import StepScript.Proofs.Evaluator.Literals
import StepScript.Proofs.Stack.Waiting
import StepScript.Proofs.Stack.Tidiness
import StepScript.Proofs.Stack.Nodes
import StepScript.Proofs.Stack.Discipline
import StepScript.Proofs.Stack.Nesting
import StepScript.Proofs.Value.Coercion
import StepScript.Proofs.Stack.Folds
import StepScript.Proofs.Stack.Hooks
import StepScript.Proofs.Stack.Operators
import StepScript.Proofs.Stack.Updates
import StepScript.Proofs.Stack.Order
import StepScript.Proofs.Stack.Bumps
import StepScript.Proofs.Units.Beside
import StepScript.Proofs.Units.Values
import StepScript.Proofs.Units.Recovery
import StepScript.Proofs.Units.Interleaving
import StepScript.Proofs.Value.Hosts
import StepScript.Proofs.Outline.Appending
import StepScript.Proofs.Lockstep.Computations
import StepScript.Proofs.Lockstep.Handlers
import StepScript.Proofs.Lockstep.Steps
import StepScript.Proofs.Lockstep.Extension
import StepScript.Proofs.Units.Splitting
import StepScript.Proofs.Session.Watching
import StepScript.Proofs.Session.Driver
import StepScript.Proofs.Session.Views
import StepScript.Proofs.Number.Numeral
import StepScript.Proofs.Number.Hexadecimal
import StepScript.Proofs.Token.Lexemes
import StepScript.Proofs.Token.Tiling
import StepScript.Proofs.Token.Serving
import StepScript.Proofs.Grammar.Termination
import StepScript.Proofs.Outline.Pool
import StepScript.Proofs.Outline.Bounded
import StepScript.Proofs.Outline.BoundedEditing
import StepScript.Proofs.Outline.Deep
import StepScript.Proofs.Outline.BoundedNavigation
import StepScript.Proofs.Outline.Checking
import StepScript.Proofs.Outline.BoundedRefinement
import StepScript.Proofs.Outline.BoundedPool
import StepScript.Proofs.Outline.Limits
import StepScript.Proofs.Value.Computations
import StepScript.Proofs.Value.Chains
import StepScript.Proofs.Value.Properties
import StepScript.Proofs.Value.References
import StepScript.Proofs.Grammar.Literals
import StepScript.Proofs.Host.References
import StepScript.Proofs.Machine.References
import StepScript.Proofs.Machine.Chains
import StepScript.Proofs.Value.Bindings
import StepScript.Proofs.Token.Quoting
import StepScript.Proofs.Token.Peeking
import StepScript.Proofs.Value.Cycles
import StepScript.Proofs.Value.Vivifying
import StepScript.Proofs.Token.Places
import StepScript.Proofs.Grammar.Lookahead
import StepScript.Proofs.Grammar.Refusal
import StepScript.Proofs.Report.Pointing
import StepScript.Proofs.Token.Spacing
import StepScript.Proofs.Grammar.Respacing
import StepScript.Proofs.Number.Scanning
import StepScript.Proofs.Number.Reading
import StepScript.Proofs.Token.Numbers
