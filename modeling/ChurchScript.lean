import ChurchScript.Church.Code
import ChurchScript.Church.Combinator
import ChurchScript.Church.Compiler
import ChurchScript.Church.Scope
import ChurchScript.Church.Target
import ChurchScript.CommandLine.FileSystem
import ChurchScript.CommandLine.Options
import ChurchScript.CommandLine.Path
import ChurchScript.CommandLine.Run
import ChurchScript.Demo
import ChurchScript.Diagram.Canvas
import ChurchScript.Diagram.Figure
import ChurchScript.Diagram.Layout
import ChurchScript.Diagram.Picture
import ChurchScript.Diagram.Stroke
import ChurchScript.Diagram.Style
import ChurchScript.Diagram.Svg
import ChurchScript.Drawing
import ChurchScript.Error
import ChurchScript.Json.Basic
import ChurchScript.Json.Number
import ChurchScript.Json.Reader
import ChurchScript.Json.Token
import ChurchScript.Main
import ChurchScript.Number.Binary64
import ChurchScript.Number.Decimal
import ChurchScript.Number.Digits
import ChurchScript.Number.Power
import ChurchScript.Script.CallGraph
import ChurchScript.Script.References
import ChurchScript.Script.Syntax
import ChurchScript.Script.SyntaxTree
import ChurchScript.Term.Basic
import ChurchScript.Term.Binding
import ChurchScript.Term.Numeral
import ChurchScript.Term.Parser
import ChurchScript.Term.Printer
import ChurchScript.Term.Token
import ChurchScript.Text.Blank
import ChurchScript.Text.Word
import ChurchScript.Proofs.Term.Lexemes
import ChurchScript.Proofs.Term.Phrase
import ChurchScript.Proofs.Church.Simulation
import ChurchScript.Proofs.Church.Agreement
import ChurchScript.Proofs.Church.Runs
import ChurchScript.Proofs.Church.TermTarget
import ChurchScript.Proofs.Church.Reading
import ChurchScript.Proofs.Church.Hygiene
import ChurchScript.Proofs.Church.Arithmetic
import ChurchScript.Proofs.Church.Correctness
import ChurchScript.Proofs.Church.Application
import ChurchScript.Proofs.Church.Expansion
import ChurchScript.Proofs.Term.Grammar
import ChurchScript.Proofs.Term.Printing
import ChurchScript.Proofs.Term.Depth
import ChurchScript.Proofs.Church.Operators
import ChurchScript.Proofs.Church.Outcomes
import ChurchScript.Proofs.Church.Switches
import ChurchScript.Proofs.Term.Resolution
import ChurchScript.Proofs.Script.Reachability
import ChurchScript.Proofs.Church.Reach
import ChurchScript.Proofs.Church.Equivalence
import ChurchScript.Proofs.Church.Exact
import ChurchScript.Proofs.Church.Keeping
import ChurchScript.Proofs.Term.Renaming
import ChurchScript.Proofs.Diagram.Geometry
import ChurchScript.Proofs.Diagram.Decoding
import ChurchScript.Proofs.Diagram.CanvasText
import ChurchScript.Proofs.Diagram.Raster
import ChurchScript.Proofs.Diagram.Markup
import ChurchScript.Proofs.Diagram.Rendering
import ChurchScript.Proofs.Term.Tokens
import ChurchScript.Proofs.Church.Identifiers
import ChurchScript.Proofs.Script.Cycles
import ChurchScript.Proofs.Script.Unreached
import ChurchScript.Proofs.Church.Unreached
import ChurchScript.Proofs.Church.CaseChain
import ChurchScript.Proofs.Term.Refusals
import ChurchScript.Proofs.Term.Tokenization
import ChurchScript.Proofs.Term.Marks
import ChurchScript.Proofs.Term.FreeNames
import ChurchScript.Proofs.Diagram.Crossings
import ChurchScript.Proofs.Diagram.Columns
import ChurchScript.Proofs.Term.Ranges
import ChurchScript.Proofs.Diagram.Ranges
import ChurchScript.Proofs.Diagram.Document
import ChurchScript.Proofs.Diagram.CanvasLines
import ChurchScript.Proofs.Script.TreeChanges
import ChurchScript.Proofs.Term.Traversal
import ChurchScript.Proofs.Term.Cursor
import ChurchScript.Proofs.Diagram.CrossingSet
import ChurchScript.Proofs.CommandLine.Files
import ChurchScript.Proofs.CommandLine.Storage
import ChurchScript.Proofs.CommandLine.Outputs
