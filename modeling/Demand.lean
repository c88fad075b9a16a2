import Demand.CommandLine.Arguments
import Demand.CommandLine.Directory
import Demand.CommandLine.Program
import Demand.Compiler.Problem
import Demand.Compiler.Request
import Demand.Compiler.Rules
import Demand.Compiler.Session
import Demand.Diagnostic.Basic
import Demand.Diagnostic.Report
import Demand.Duration
import Demand.Engine.Command
import Demand.Engine.Evaluate
import Demand.Engine.Fault
import Demand.Engine.Graph
import Demand.Engine.Recorder
import Demand.Engine.Registry
import Demand.Engine.State
import Demand.Engine.Statistics
import Demand.Engine.Tables
import Demand.Engine.Task
import Demand.FirstSeen
import Demand.Language.Expectation
import Demand.Language.Expr
import Demand.Language.Lexer
import Demand.Language.Parser
import Demand.Language.Token
import Demand.Log
import Demand.Main
import Demand.Reference
import Demand.Request.Family
import Demand.Request.Handle
import Demand.Request.Policy
import Demand.Request.TypeId
import Demand.Script.Action
import Demand.Script.Request
import Demand.Script.Session
import Demand.Snippet.Basic
import Demand.Snippet.Body
import Demand.Snippet.Render
import Demand.Source.File
import Demand.Source.Span
import Demand.Text.Blank
import Demand.Text.Columns
import Demand.Text.Combining
import Demand.Text.Hidden
import Demand.Text.Lines
import Demand.Text.Quoted
import Demand.Text.Ranges
import Demand.Text.Wide
import Demand.Text.Width
import Demand.Text.ZeroWidth
import Demand.Proofs.Engine.Tables
import Demand.Proofs.Engine.Steps
import Demand.Proofs.Engine.Discipline
import Demand.Proofs.Engine.Calls
import Demand.Proofs.Engine.Commands
import Demand.Proofs.Engine.Layer
import Demand.Proofs.Engine.Order
import Demand.Proofs.Engine.Plain
import Demand.Proofs.Engine.Blindness
import Demand.Proofs.Engine.Aids
import Demand.Proofs.Script.Text
import Demand.Proofs.Script.Table
import Demand.Proofs.Script.Session
import Demand.Proofs.Script.Agreement
import Demand.Proofs.Script.Clearing
import Demand.Proofs.Script.Computations
import Demand.Proofs.Script.Aids
import Demand.Proofs.Language.Positions
import Demand.Proofs.Language.Grammar
import Demand.Proofs.Language.Parsing
import Demand.Proofs.Compiler.Meaning
import Demand.Proofs.Compiler.Answers
import Demand.Proofs.Compiler.Bodies
import Demand.Proofs.Compiler.References
import Demand.Proofs.Compiler.Session
import Demand.Proofs.Compiler.Filed
import Demand.Proofs.Compiler.Findings
import Demand.Proofs.Compiler.Disclosure
import Demand.Proofs.Compiler.Cycles
import Demand.Proofs.Compiler.Supply
import Demand.Proofs.Compiler.Endurance
import Demand.Proofs.Compiler.Verdicts
import Demand.Proofs.CommandLine.Checking
import Demand.Proofs.Language.Pieces
import Demand.Proofs.Language.Printing
import Demand.Proofs.Language.Continuation
import Demand.Proofs.Language.Shift
import Demand.Proofs.Language.Spans
import Demand.Proofs.Language.Lexing
import Demand.Proofs.Language.Lines
import Demand.Proofs.Language.Offenses
import Demand.Proofs.Compiler.Problems
import Demand.Proofs.Compiler.Accounts
import Demand.Proofs.Compiler.Reports
import Demand.Proofs.Compiler.Likeness
import Demand.Proofs.Compiler.Twins
import Demand.Proofs.Compiler.Separation
import Demand.Proofs.Compiler.Interleaving
import Demand.Proofs.CommandLine.Separation
import Demand.Proofs.Compiler.Aids
import Demand.Proofs.Engine.Edges
import Demand.Proofs.Engine.Completion
import Demand.Proofs.Script.Completion
import Demand.Proofs.Script.Cycles
import Demand.Proofs.Script.Order
import Demand.Proofs.Engine.Moments
import Demand.Proofs.Engine.Scopes
import Demand.Proofs.Script.Moments
import Demand.Proofs.Engine.Provenance
import Demand.Proofs.Script.Records
import Demand.Proofs.Compiler.Locations
import Demand.Proofs.Compiler.Display
import Demand.Proofs.Engine.Operations
import Demand.Proofs.Engine.Counting
import Demand.Proofs.Compiler.Work
import Demand.Proofs.Engine.Growth
import Demand.Proofs.Engine.Walks
import Demand.Proofs.Engine.Trees
import Demand.Proofs.Engine.Drawing
import Demand.Proofs.Snippet.Groups
import Demand.Proofs.Engine.Refusals
import Demand.Proofs.Script.Refusals
import Demand.Proofs.Compiler.Refusals
import Demand.Proofs.Compiler.Refusals
import Demand.Proofs.Language.Automaton
