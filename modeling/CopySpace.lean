import CopySpace.Assembler.Listing
import CopySpace.Assembler.Output
import CopySpace.Assembler.Reading
import CopySpace.Assembler.Source
import CopySpace.Assembler.Symbols
import CopySpace.Bitcopy
import CopySpace.Bulk.Adder
import CopySpace.Bulk.Encode
import CopySpace.Bulk.Level
import CopySpace.Bulk.Order
import CopySpace.Bulk.Tick
import CopySpace.Compiler.Constants
import CopySpace.Compiler.Enumerators
import CopySpace.Compiler.RecordCells
import CopySpace.Compiler.RecordLayout
import CopySpace.Compiler.RecordSizes
import CopySpace.Compiler.RecordTables
import CopySpace.Compiler.Records
import CopySpace.Compiler.StaticLayout
import CopySpace.Compiler.Statics
import CopySpace.CopyC.Emission
import CopySpace.CopyC.Integer64
import CopySpace.CopyC.Layers
import CopySpace.CopyC.Rows
import CopySpace.CopyC.Simulation
import CopySpace.CopyC.Transparent
import CopySpace.Core.Boot
import CopySpace.Core.Config
import CopySpace.Core.Image
import CopySpace.Core.Install
import CopySpace.Emit.Atomic
import CopySpace.Emit.Constant
import CopySpace.Emit.Effect
import CopySpace.Emit.Image
import CopySpace.Emit.Laid
import CopySpace.Emit.Program
import CopySpace.Emit.Rows
import CopySpace.Gcc.Consistent
import CopySpace.Gcc.Contents
import CopySpace.Gcc.Directories
import CopySpace.Gcc.Enumeration
import CopySpace.Gcc.Envelope
import CopySpace.Gcc.Files
import CopySpace.Gcc.Job
import CopySpace.Gcc.JobFormat
import CopySpace.Gcc.Lifetime
import CopySpace.Gcc.Paths
import CopySpace.Gcc.Product
import CopySpace.Gcc.Reading
import CopySpace.Gcc.Response
import CopySpace.Gcc.Steps
import CopySpace.Lib.Bits
import CopySpace.Lib.Components
import CopySpace.Lib.Descent
import CopySpace.Lib.Digits
import CopySpace.Lib.Halves
import CopySpace.Lib.Heap
import CopySpace.Lib.Integers
import CopySpace.Lib.Layout
import CopySpace.Lib.Lockstep
import CopySpace.Lib.Nesting
import CopySpace.Lib.Numeral
import CopySpace.Lib.Prefix
import CopySpace.Lib.Probing
import CopySpace.Lib.Relax
import CopySpace.Lib.Ripple
import CopySpace.Lib.Schedule
import CopySpace.Lib.Selection
import CopySpace.Lib.Settles
import CopySpace.Lib.Utf8
import CopySpace.Lib.Volume
import CopySpace.Lib.Words
import CopySpace.Link.Alias
import CopySpace.Link.Archive
import CopySpace.Link.Closure
import CopySpace.Link.Compare
import CopySpace.Link.Context
import CopySpace.Link.Divide
import CopySpace.Link.Emits
import CopySpace.Link.Events
import CopySpace.Link.Instruction
import CopySpace.Link.Jumps
import CopySpace.Link.Labels
import CopySpace.Link.Layout
import CopySpace.Link.Members
import CopySpace.Link.Multiply
import CopySpace.Link.Names
import CopySpace.Link.Operators
import CopySpace.Link.Pieces
import CopySpace.Link.Quotient
import CopySpace.Link.Resolve
import CopySpace.Link.Shift
import CopySpace.Link.Sound
import CopySpace.Link.Statements
import CopySpace.Link.Text
import CopySpace.Link.Words
import CopySpace.PForth.Clib
import CopySpace.PForth.Words
import CopySpace.Preprocess.Arguments
import CopySpace.Preprocess.Capacity
import CopySpace.Preprocess.Climbing
import CopySpace.Preprocess.Conditions
import CopySpace.Preprocess.Constants
import CopySpace.Preprocess.Define
import CopySpace.Preprocess.Delimited
import CopySpace.Preprocess.Escapes
import CopySpace.Preprocess.Evaluate
import CopySpace.Preprocess.Expressions
import CopySpace.Preprocess.Groups
import CopySpace.Preprocess.HideSets
import CopySpace.Preprocess.Lexer
import CopySpace.Preprocess.Lines
import CopySpace.Preprocess.Operate
import CopySpace.Preprocess.Output
import CopySpace.Preprocess.Reference
import CopySpace.Preprocess.Replacement
import CopySpace.Preprocess.Rescan
import CopySpace.Preprocess.Selection
import CopySpace.Preprocess.Strings
import CopySpace.Preprocess.Substitute
import CopySpace.Preprocess.Termination
import CopySpace.Rv32i.Adder
import CopySpace.Rv32i.Execute
import CopySpace.Rv32i.Gates
import CopySpace.Rv32i.Image
import CopySpace.Rv32i.Layout
import CopySpace.Rv32i.Stream
import CopySpace.Space.Bitwise
import CopySpace.Space.Chain
import CopySpace.Space.Config
import CopySpace.Space.Field
import CopySpace.Space.Halt
import CopySpace.Space.Layer
import CopySpace.Space.Machine
import CopySpace.Space.Row
import CopySpace.Space.Run
import CopySpace.Space.Safety
import CopySpace.Space.Spot
import CopySpace.Space.Writers
import CopySpace.Target.Access
import CopySpace.Target.Assembly
import CopySpace.Target.Body
import CopySpace.Target.Dispatch
import CopySpace.Target.Execution
import CopySpace.Target.Finish
import CopySpace.Target.Labels
import CopySpace.Target.Leaf
import CopySpace.Target.Located
import CopySpace.Target.Machine
import CopySpace.Target.Memory
import CopySpace.Target.Operations
import CopySpace.Target.Operators
import CopySpace.Target.Refused
import CopySpace.Target.Report
import CopySpace.Target.Represents
import CopySpace.Target.Resolution
import CopySpace.Target.Start
