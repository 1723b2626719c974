import Lisplet.Builtin
import Lisplet.Builtin.Arguments
import Lisplet.Builtin.Arithmetic
import Lisplet.Builtin.Records
import Lisplet.Builtin.Values
import Lisplet.CommandLine
import Lisplet.Config
import Lisplet.ErrorCode
import Lisplet.Evaluation
import Lisplet.Evaluation.Expansion
import Lisplet.Evaluation.Forms
import Lisplet.Evaluation.Operations
import Lisplet.Evaluation.Quasiquote
import Lisplet.Evaluation.Recursion
import Lisplet.Fault
import Lisplet.FileTree
import Lisplet.Input
import Lisplet.Interpreter
import Lisplet.Json
import Lisplet.Machine
import Lisplet.Main
import Lisplet.Number.Double
import Lisplet.Number.Layout
import Lisplet.Number.Numeral
import Lisplet.Number.Shortest
import Lisplet.Path
import Lisplet.Position
import Lisplet.Quaternion
import Lisplet.Registry
import Lisplet.Scope
import Lisplet.Session
import Lisplet.SyntaxError
import Lisplet.Term
import Lisplet.Term.Dump
import Lisplet.Term.Printer
import Lisplet.Term.Reader
import Lisplet.Text.Words
import Lisplet.Text.Quoted
import Lisplet.Text.Units
import Lisplet.Text.Utf8
import Lisplet.Token
import Lisplet.Token.Format
import Lisplet.Token.Lexer
import Lisplet.Value
import Lisplet.Value.Bridge
import Lisplet.Value.Equality
import Lisplet.Value.Printer
import Lisplet.World
import Lisplet.Proofs.Reading.Scans
import Lisplet.Proofs.Reading.Spelling
import Lisplet.Proofs.Reading.FormatStrings
import Lisplet.Proofs.Number.Exponents
import Lisplet.Proofs.Number.Plain
import Lisplet.Proofs.Number.ReadBack
import Lisplet.Proofs.Reading.Written
import Lisplet.Proofs.Reading.RoundTrip
import Lisplet.Proofs.Reading.Groups
import Lisplet.Proofs.Reading.Forms
import Lisplet.Proofs.Equality.Bridge
import Lisplet.Proofs.Equality.Terms
import Lisplet.Proofs.Equality.Values
import Lisplet.Proofs.Evaluation.Calling
import Lisplet.Proofs.Evaluation.Congruence
import Lisplet.Proofs.Evaluation.Context
import Lisplet.Proofs.Evaluation.Direct
import Lisplet.Proofs.Evaluation.Frames
import Lisplet.Proofs.Evaluation.Fuel
import Lisplet.Proofs.Evaluation.Growth
import Lisplet.Proofs.Evaluation.Shorthands
import Lisplet.Proofs.Input.Decoding
import Lisplet.Proofs.Input.Lines
import Lisplet.Proofs.Likeness.Actions
import Lisplet.Proofs.Likeness.Evaluating
import Lisplet.Proofs.Likeness.Expanding
import Lisplet.Proofs.Likeness.Formatting
import Lisplet.Proofs.Likeness.Looking
import Lisplet.Proofs.Likeness.Lookout
import Lisplet.Proofs.Likeness.Macros
import Lisplet.Proofs.Likeness.Outcomes
import Lisplet.Proofs.Likeness.Programs
import Lisplet.Proofs.Likeness.Quotation
import Lisplet.Proofs.Likeness.Reading
import Lisplet.Proofs.Likeness.Sessions
import Lisplet.Proofs.Likeness.Tracing
import Lisplet.Proofs.Macros.Respelling
import Lisplet.Proofs.Macros.Rules
import Lisplet.Proofs.Macros.Templates
import Lisplet.Proofs.Reading.Acceptance
import Lisplet.Proofs.Reading.Cuts
import Lisplet.Proofs.Reading.Embedding
import Lisplet.Proofs.Reading.Failures
import Lisplet.Proofs.Reading.Infix
import Lisplet.Proofs.Reading.Joined
import Lisplet.Proofs.Reading.Places
import Lisplet.Proofs.Reading.Prefixes
import Lisplet.Proofs.Reading.Printed
import Lisplet.Proofs.Reading.Standing
import Lisplet.Proofs.Reading.Tiling
import Lisplet.Proofs.Scopes.Defining
import Lisplet.Proofs.Scopes.Lexical
import Lisplet.Proofs.Session.Completion
import Lisplet.Proofs.Session.Incomplete
import Lisplet.Proofs.Session.Imports
import Lisplet.Proofs.Session.LastValue
import Lisplet.Proofs.Session.Lines
import Lisplet.Proofs.Session.Scripts
import Lisplet.Proofs.Soundness.Reachable
import Lisplet.Proofs.Structs.Definitions
import Lisplet.Proofs.Structs.Procedures
import Lisplet.Proofs.Arithmetic.Mixed
import Lisplet.Proofs.Arithmetic.Quaternions
