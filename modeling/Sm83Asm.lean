import Sm83Asm.Act
import Sm83Asm.Assembler
import Sm83Asm.Config
import Sm83Asm.Config.Document
import Sm83Asm.Define
import Sm83Asm.Diagnostic
import Sm83Asm.Eval.Arithmetic
import Sm83Asm.Eval.Constant
import Sm83Asm.Eval.Literal
import Sm83Asm.Eval.Scope
import Sm83Asm.Execute.Blocks
import Sm83Asm.Execute.Data
import Sm83Asm.Execute.Names
import Sm83Asm.Execute.Sections
import Sm83Asm.Execute.Settings
import Sm83Asm.Expr
import Sm83Asm.Files
import Sm83Asm.Instruction.Encode
import Sm83Asm.Instruction.Operand
import Sm83Asm.Instruction.Table
import Sm83Asm.Line
import Sm83Asm.Line.Parser
import Sm83Asm.Link.Compile
import Sm83Asm.Link.Program
import Sm83Asm.Main
import Sm83Asm.Numeral
import Sm83Asm.Object
import Sm83Asm.Proofs.Act
import Sm83Asm.Proofs.Bytes
import Sm83Asm.Proofs.Charmap
import Sm83Asm.Proofs.Eval.Constancy
import Sm83Asm.Proofs.Eval.Gate
import Sm83Asm.Proofs.Eval.Inside
import Sm83Asm.Proofs.Eval.Lookups
import Sm83Asm.Proofs.Eval.Reports
import Sm83Asm.Proofs.Eval.Settling
import Sm83Asm.Proofs.Eval.Substrings
import Sm83Asm.Proofs.Execute.Bearings
import Sm83Asm.Proofs.Execute.Blocks
import Sm83Asm.Proofs.Execute.Change
import Sm83Asm.Proofs.Execute.Exports
import Sm83Asm.Proofs.Execute.Footprint
import Sm83Asm.Proofs.Execute.Gate
import Sm83Asm.Proofs.Execute.Inside
import Sm83Asm.Proofs.Execute.OptionStack
import Sm83Asm.Proofs.Execute.Part
import Sm83Asm.Proofs.Execute.Reports
import Sm83Asm.Proofs.Execute.Setting
import Sm83Asm.Proofs.Instruction.Delimiting
import Sm83Asm.Proofs.Instruction.Folded
import Sm83Asm.Proofs.Instruction.JumpRange
import Sm83Asm.Proofs.Instruction.Overflow
import Sm83Asm.Proofs.Instruction.Reports
import Sm83Asm.Proofs.Layout.Declaration
import Sm83Asm.Proofs.Layout.Edit
import Sm83Asm.Proofs.Layout.Emission
import Sm83Asm.Proofs.Layout.Lines
import Sm83Asm.Proofs.Layout.Patches
import Sm83Asm.Proofs.Layout.Scopes
import Sm83Asm.Proofs.Layout.Symbols
import Sm83Asm.Proofs.Layout.UnionHomes
import Sm83Asm.Proofs.Layout.UnionResult
import Sm83Asm.Proofs.Line.Arguments
import Sm83Asm.Proofs.Line.Calls
import Sm83Asm.Proofs.Line.Columns
import Sm83Asm.Proofs.Line.Consumed
import Sm83Asm.Proofs.Line.Grammar
import Sm83Asm.Proofs.Line.Numerals
import Sm83Asm.Proofs.Line.Passed
import Sm83Asm.Proofs.Line.Printing
import Sm83Asm.Proofs.Line.Written
import Sm83Asm.Proofs.Link.Compile
import Sm83Asm.Proofs.Link.Deferred
import Sm83Asm.Proofs.Link.Forward
import Sm83Asm.Proofs.Link.Jump
import Sm83Asm.Proofs.Link.Machine
import Sm83Asm.Proofs.Link.Reports
import Sm83Asm.Proofs.Numeral.Spelled
import Sm83Asm.Proofs.Object.Decode
import Sm83Asm.Proofs.Object.Heap
import Sm83Asm.Proofs.Random
import Sm83Asm.Proofs.Run.AppendOnly
import Sm83Asm.Proofs.Run.Balance
import Sm83Asm.Proofs.Run.Changes
import Sm83Asm.Proofs.Run.Conditional
import Sm83Asm.Proofs.Run.Depth
import Sm83Asm.Proofs.Run.Exports
import Sm83Asm.Proofs.Run.Gate
import Sm83Asm.Proofs.Run.History
import Sm83Asm.Proofs.Run.Inside
import Sm83Asm.Proofs.Run.Labels
import Sm83Asm.Proofs.Run.Macros
import Sm83Asm.Proofs.Run.Names
import Sm83Asm.Proofs.Run.Overflow
import Sm83Asm.Proofs.Run.Repeat
import Sm83Asm.Proofs.Run.Reports
import Sm83Asm.Proofs.Run.Restored
import Sm83Asm.Proofs.Run.Steps
import Sm83Asm.Proofs.Run.Unclosed
import Sm83Asm.Proofs.Table
import Sm83Asm.Proofs.Text
import Sm83Asm.Proofs.Token.Bounds
import Sm83Asm.Proofs.Token.Covering
import Sm83Asm.Proofs.Token.Gate
import Sm83Asm.Proofs.Token.Lossless
import Sm83Asm.Proofs.Token.Replacing
import Sm83Asm.Proofs.Token.Reports
import Sm83Asm.Proofs.Token.Scanned
import Sm83Asm.Proofs.Token.Stored
import Sm83Asm.Proofs.Token.Strings
import Sm83Asm.Random
import Sm83Asm.State
import Sm83Asm.Table
import Sm83Asm.Text.Basic
import Sm83Asm.Text.Case
import Sm83Asm.Text.CaseTable
import Sm83Asm.Token
import Sm83Asm.Token.Match
import Sm83Asm.Token.Stream
import Sm83Asm.Toml.Datetime
import Sm83Asm.Toml.Number
import Sm83Asm.Toml.Parser
import Sm83Asm.Toml.Quoted
import Sm83Asm.Toml.Reader
import Sm83Asm.Toml.Value
import Sm83Asm.Value
import Sm83Asm.Vocabulary
