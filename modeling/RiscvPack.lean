import RiscvPack.Lib.Bits
import RiscvPack.Lib.CString
import RiscvPack.Lib.Runs
import RiscvPack.Lib.OutFile
import RiscvPack.Lib.SortedMap
import RiscvPack.Lib.Layout
import RiscvPack.Lib.History
import RiscvPack.Lib.Loops
import RiscvPack.Lib.Simulation
import RiscvPack.Lib.Division
import RiscvPack.Lib.Transitions
import RiscvPack.Lib.FileSystem
import RiscvPack.Lib.CommandLine
import RiscvPack.Isa.Instr
import RiscvPack.Isa.Semantics
import RiscvPack.Isa.Environment
import RiscvPack.Emulator.Memory
import RiscvPack.Emulator.Instructions
import RiscvPack.Emulator.Cpu
import RiscvPack.Emulator.Operations
import RiscvPack.Emulator.ByteMap
import RiscvPack.Emulator.StepRefinement
import RiscvPack.Emulator.IllegalWords
import RiscvPack.Emulator.Run
import RiscvPack.Emulator.Stack
import RiscvPack.Emulator.Division
import RiscvPack.Emulator.MemoryBounds
import RiscvPack.Emulator.Syscalls
import RiscvPack.Emulator.SyscallResults
import RiscvPack.Emulator.StepErrors
import RiscvPack.Emulator.Trace
import RiscvPack.Emulator.MainLoop
import RiscvPack.Emulator.Frames
import RiscvPack.Emulator.Provenance
import RiscvPack.Emulator.Visible
import RiscvPack.Emulator.StepLimit
import RiscvPack.Emulator.RunRefinement
import RiscvPack.Emulator.StackRuns
import RiscvPack.Emulator.Loader
import RiscvPack.Emulator.DebugMode
import RiscvPack.Assembler.Encoder
import RiscvPack.Assembler.Utils
import RiscvPack.Assembler.FirstPass
import RiscvPack.Assembler.AdjustLabels
import RiscvPack.Assembler.SecondPass
import RiscvPack.Assembler.Tables
import RiscvPack.Assembler.Layout
import RiscvPack.Assembler.Lines
import RiscvPack.Assembler.Blocks
import RiscvPack.Assembler.LineBytes
import RiscvPack.Assembler.Sections
import RiscvPack.Assembler.Interleaving
import RiscvPack.Assembler.Operands
import RiscvPack.Assembler.Canonical
import RiscvPack.Assembler.RegisterNames
import RiscvPack.Assembler.RoundTrip
import RiscvPack.Assembler.EncodeDecode
import RiscvPack.Assembler.Pseudo
import RiscvPack.Assembler.LongOperands
import RiscvPack.Assembler.Rejection
import RiscvPack.Assembler.ListTexts
import RiscvPack.Assembler.LineSizes
import RiscvPack.Assembler.LockStep
import RiscvPack.Assembler.Counters
import RiscvPack.Assembler.Alignment
import RiscvPack.Assembler.Agreement
import RiscvPack.Assembler.DataLists
import RiscvPack.Assembler.ListFields
import RiscvPack.Assembler.DirectiveSizes
import RiscvPack.Assembler.NumericData
import RiscvPack.Assembler.Dispatch
import RiscvPack.Assembler.StringData
import RiscvPack.Assembler.PseudoSizes
import RiscvPack.Assembler.Reuse
import RiscvPack.Assembler.LabelReferences
import RiscvPack.Assembler.Main
import RiscvPack.Assembler.Comments
import RiscvPack.Assembler.Tokenisers
import RiscvPack.Assembler.SpacedLines
import RiscvPack.Assembler.Spacing
import RiscvPack.Assembler.SourceProgram
import RiscvPack.Assembler.SourceMachine
import RiscvPack.Assembler.ProgramImage
import RiscvPack.Assembler.WholeRun
import RiscvPack.Assembler.Completeness
import RiscvPack.Assembler.DataLines
import RiscvPack.Assembler.LoadedData
import RiscvPack.Assembler.SourceFile
import RiscvPack.Assembler.Relocation
import RiscvPack.Assembler.SourceRuns
import RiscvPack.Assembler.CommandLine
import RiscvPack.Toolchain
