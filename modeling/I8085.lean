import I8085.Main
import I8085.Proofs.Assembler.Canonical
import I8085.Proofs.Machine.StraightLine
import I8085.Proofs.Opcode.FieldStep
import I8085.Proofs.Assembler.Grammar
import I8085.Proofs.Assembler.RoundTrip
import I8085.Proofs.Assembler.Loading
import I8085.Proofs.Assembler.Sweep
import I8085.Proofs.Machine.Footprint
import I8085.Proofs.Machine.Stack
import I8085.Proofs.Console.Session
import I8085.Proofs.Machine.Stages
import I8085.Proofs.Machine.Resume
import I8085.Proofs.Machine.Reads
import I8085.Proofs.Machine.Renewal
import I8085.Proofs.Machine.Flags
import I8085.Proofs.Machine.Columns
import I8085.Proofs.Console.Trail
import I8085.Proofs.Console.Interruption
import I8085.Proofs.Console.RunFile
import I8085.Proofs.Sample.Multiply
import I8085.Proofs.Sample.DecimalSubtract
import I8085.Proofs.Assembler.Refusal
import I8085.Proofs.Console.RefusedLine
import I8085.Proofs.Console.FirstFault
import I8085.Proofs.Console.Layout
import I8085.Proofs.Console.StartUp
import I8085.Proofs.Machine.Line
import I8085.Proofs.Machine.Latches
import I8085.Proofs.Sample.Vocabulary
import I8085.Proofs.Sample.StraightLine
import I8085.Proofs.Sample.Summation
import I8085.Proofs.Machine.FlagAgreement
import I8085.Proofs.Machine.Shifts
import I8085.Proofs.Machine.Undo
import I8085.Proofs.Assembler.SizeReport
import I8085.Proofs.Console.Dump
import I8085.Proofs.Memory.LastWrite
import I8085.Proofs.Console.Setting
import I8085.Proofs.Assembler.SearchOrder
import I8085.Proofs.Text.StrictReading
