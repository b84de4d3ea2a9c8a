import VexLang.Text.Blank
import VexLang.Text.Escape
import VexLang.Number.Magnitude
import VexLang.Number.Decimal
import VexLang.Number.Digits
import VexLang.Number.Numeral
import VexLang.Number.Text
import VexLang.Token
import VexLang.Token.Lexer
import VexLang.Value
import VexLang.RunError
import VexLang.Environment
import VexLang.Environment.Operation
import VexLang.Node
import VexLang.Node.Text
import VexLang.Node.ParseError
import VexLang.Node.Word
import VexLang.Node.Parser
import VexLang.Source
import VexLang.Manual
import VexLang.Run.World
import VexLang.Run.Evaluation
import VexLang.Run
import VexLang.Session
import VexLang.JavaScript.Prelude
import VexLang.JavaScript.Code
import VexLang.JavaScript.Emit
import VexLang.Shell.Path
import VexLang.Shell.FileStore
import VexLang.Shell.Arguments
import VexLang.Shell.Console
import VexLang.Shell.Listing
import VexLang.Shell
import VexLang.Main
import VexLang.Proofs.Token.Layout
import VexLang.Proofs.Token.Spelling
import VexLang.Proofs.Node.Plain
import VexLang.Proofs.Node.Spelling
import VexLang.Proofs.Node.Reading
import VexLang.Proofs.Node.RoundTrip
import VexLang.Proofs.Node.Grammar
import VexLang.Proofs.Node.Rules
import VexLang.Proofs.Node.Content
import VexLang.Proofs.Node.Progress
import VexLang.Proofs.Node.Lockstep
import VexLang.Proofs.Node.Refusal
import VexLang.Proofs.Node.Respelling
import VexLang.Proofs.Node.Shape
import VexLang.Proofs.Number.Nearest
import VexLang.Proofs.Number.Shortest
import VexLang.Proofs.Number.RoundTrip
import VexLang.Proofs.Effect
import VexLang.Proofs.JavaScript.Machine
import VexLang.Proofs.JavaScript.Meaning
import VexLang.Proofs.JavaScript.Scan
import VexLang.Proofs.JavaScript.Joins
import VexLang.Proofs.Compile.Portable
import VexLang.Proofs.Compile.Interpreted
import VexLang.Proofs.Compile.Terms
import VexLang.Proofs.Compile.Tracks
import VexLang.Proofs.Compile.Compiled
import VexLang.Proofs.Compile.Agreement
import VexLang.Proofs.Compile.Closed
import VexLang.Proofs.Compile.Phrases
import VexLang.Proofs.Run.Relation
import VexLang.Proofs.Run.Frame
import VexLang.Proofs.Run.Shown
import VexLang.Proofs.Run.Interrupt
import VexLang.Proofs.Run.Sink
import VexLang.Proofs.Run.Switch
import VexLang.Proofs.Environment.History
import VexLang.Proofs.Number.Grammar
import VexLang.Proofs.Number.Counting
import VexLang.Proofs.Run.Fuel
import VexLang.Proofs.Run.Inline
import VexLang.Proofs.Shell.Chain
import VexLang.Proofs.Shell.Dialogue
import VexLang.Proofs.Token.Lines
import VexLang.Proofs.Compile.Stored
import VexLang.Proofs.Number.Printed
import VexLang.Proofs.Run.CastSpelling
