import MipsLab.Assembly
import MipsLab.Breakpoint
import MipsLab.Console
import MipsLab.Diagnostic
import MipsLab.Diagnostic.Cause
import MipsLab.Fault
import MipsLab.History
import MipsLab.Instr
import MipsLab.Instr.Decode
import MipsLab.Instr.Encode
import MipsLab.Instr.Print
import MipsLab.Layout
import MipsLab.Lowering
import MipsLab.Machine
import MipsLab.Machine.Access
import MipsLab.Machine.Execute
import MipsLab.Machine.Run
import MipsLab.Machine.Service
import MipsLab.Machine.Step
import MipsLab.Macro
import MipsLab.Memory
import MipsLab.Observer
import MipsLab.Operand
import MipsLab.Placement
import MipsLab.Reg
import MipsLab.Registers
import MipsLab.SourceFiles
import MipsLab.SourceLine
import MipsLab.SourceUnit
import MipsLab.Statement
import MipsLab.Symbol
import MipsLab.SymbolicInstr
import MipsLab.Text.CharClass
import MipsLab.Text.CharTable.Case
import MipsLab.Text.CharTable.Hidden
import MipsLab.Text.CharTable.Lower
import MipsLab.Text.CharTable.Words
import MipsLab.Text.Lines
import MipsLab.Text.Lowercase
import MipsLab.Text.Numeral
import MipsLab.Text.Quoted
import MipsLab.Text.Utf8
import MipsLab.Token
import MipsLab.Token.Lexer
import MipsLab.Token.Line
import MipsLab.Token.Literal
import MipsLab.Word
import MipsLab.Proofs.Image
import MipsLab.Proofs.Records
import MipsLab.Proofs.Attempt
import MipsLab.Proofs.Reachable
import MipsLab.Proofs.Undo
import MipsLab.Proofs.FaultAtomicity
import MipsLab.Proofs.Rewind
import MipsLab.Proofs.RoundTrip
import MipsLab.Proofs.Except
import MipsLab.Proofs.Placement
import MipsLab.Proofs.FirstPass
import MipsLab.Proofs.Storage
import MipsLab.Proofs.Effect
import MipsLab.Proofs.Extended
import MipsLab.Proofs.Halves
import MipsLab.Proofs.Mnemonics
import MipsLab.Proofs.MnemonicTables
import MipsLab.Proofs.ExpansionPieces
import MipsLab.Proofs.Expansion
import MipsLab.Proofs.Lockstep
import MipsLab.Proofs.Alike
import MipsLab.Proofs.FreeRun
import MipsLab.Proofs.Redo
import MipsLab.Proofs.Ranges
import MipsLab.Proofs.Resolution
import MipsLab.Proofs.LabelUse
import MipsLab.Proofs.LabelWords
import MipsLab.Proofs.PlacedLines
import MipsLab.Proofs.Linking
import MipsLab.Proofs.ExactLayout
import MipsLab.Proofs.CarriedOut
import MipsLab.Proofs.Positions
import MipsLab.Proofs.LayoutPass
import MipsLab.Proofs.CodeOrder
import MipsLab.Proofs.EndOfMemory
import MipsLab.Proofs.UnitSymbols
import MipsLab.Proofs.ProgramSymbols
import MipsLab.Proofs.Labels
import MipsLab.Proofs.Ownership
import MipsLab.Proofs.Exports
import MipsLab.Proofs.DataImage
import MipsLab.Proofs.IntegerSemantics
import MipsLab.Proofs.Spelling
import MipsLab.Proofs.StatementTokens
import MipsLab.Proofs.Disassembly
import MipsLab.Proofs.Reading
import MipsLab.Proofs.MacroRun
import MipsLab.Proofs.Acceptance
import MipsLab.Proofs.SymbolSteps
import MipsLab.Proofs.KeptSymbols
import MipsLab.Proofs.UpheldLines
import MipsLab.Proofs.AllOrNothing
import MipsLab.Proofs.Loading
import MipsLab.Proofs.ReportedRun
import MipsLab.Proofs.Unrecorded
import MipsLab.Proofs.TracedExpansion
import MipsLab.Proofs.Origins
import MipsLab.Proofs.MacroLabels
import MipsLab.Proofs.Conservativity
import MipsLab.Proofs.Sessions
import MipsLab.Proofs.Heredity
import MipsLab.Proofs.TokenSpans
import MipsLab.Proofs.Parsing
import MipsLab.Proofs.Sites
import MipsLab.Proofs.DiagnosticPlaces
import MipsLab.Proofs.GuardedMachine
import MipsLab.Proofs.Cuts
import MipsLab.Proofs.NumberRanges
import MipsLab.Proofs.Definedness
import MipsLab.Proofs.UnitHistory
import MipsLab.Proofs.UnlimitedExpansion
import MipsLab.Proofs.InvocationForms
import MipsLab.Proofs.ReservedStorage
import MipsLab.Proofs.Writes
import MipsLab.Proofs.TidyRecords
import MipsLab.Proofs.ObservedChanges
import MipsLab.Proofs.FlatMemory
import MipsLab.Proofs.Lines
import MipsLab.Proofs.StringServices
import MipsLab.Proofs.WrittenStatements
import MipsLab.Proofs.TextCoverage
import MipsLab.Proofs.NumberLiterals
import MipsLab.Proofs.Footprints
import MipsLab.Proofs.TouchedPages
import MipsLab.Proofs.ConstantValues
import MipsLab.Proofs.HistoryBounds
import MipsLab.Proofs.KnownMnemonics
import MipsLab.Proofs.Devices
import MipsLab.Proofs.WarningMarks
import MipsLab.Proofs.UnusedSegments
