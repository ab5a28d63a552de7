import Proviso.Act
import Proviso.Assembly.Block
import Proviso.Assembly.Link
import Proviso.Assembly.Literal
import Proviso.Bytecode
import Proviso.CommandLine.Command
import Proviso.CommandLine.Directory
import Proviso.CommandLine.Path
import Proviso.CompileError
import Proviso.Config
import Proviso.Diagnostic
import Proviso.Evaluate
import Proviso.Fault
import Proviso.Hex
import Proviso.Host
import Proviso.Instr
import Proviso.Keccak
import Proviso.Kind
import Proviso.Listing
import Proviso.Log
import Proviso.Machine.Basic
import Proviso.Machine.Collection
import Proviso.Machine.Decoded
import Proviso.Machine.Effect
import Proviso.Machine.Handler
import Proviso.Machine.Operator
import Proviso.Machine.Perform
import Proviso.Machine.Program
import Proviso.Machine.Run
import Proviso.Main
import Proviso.Octets
import Proviso.Opcode
import Proviso.Registry
import Proviso.Registry.Index
import Proviso.Slot
import Proviso.Source.Body
import Proviso.Source.Call
import Proviso.Source.Compile
import Proviso.Source.Numeral
import Proviso.Source.Postfix
import Proviso.Source.Sugar
import Proviso.Source.Token
import Proviso.Stack
import Proviso.Store
import Proviso.Table
import Proviso.Text.Alphanumeric
import Proviso.Text.Blank
import Proviso.UInt256
import Proviso.Word
import Proviso.Proofs.Encoding
import Proviso.Proofs.Performing
import Proviso.Proofs.Layout
import Proviso.Proofs.Stepping
import Proviso.Proofs.Termination
import Proviso.Proofs.ControlFlow
import Proviso.Proofs.Blocks
import Proviso.Proofs.Expression
import Proviso.Proofs.Lexing
import Proviso.Proofs.Numerals
import Proviso.Proofs.Straight
import Proviso.Proofs.Atoms
import Proviso.Proofs.Values
import Proviso.Proofs.Compiler
import Proviso.Proofs.Listings
import Proviso.Proofs.Primitives
import Proviso.Proofs.Staging
import Proviso.Proofs.Requests
import Proviso.Proofs.Conservation
import Proviso.Proofs.Failures
import Proviso.Proofs.Decoding
import Proviso.Proofs.Invariants
import Proviso.Proofs.Authority
import Proviso.Proofs.Arrays
import Proviso.Proofs.Returns
import Proviso.Proofs.Footprint
import Proviso.Proofs.Independence
import Proviso.Proofs.Limits
import Proviso.Proofs.Bounds
import Proviso.Proofs.Rearrangement
import Proviso.Proofs.Registries
import Proviso.Proofs.Literals
import Proviso.Proofs.Hoisting
import Proviso.Proofs.Linking
import Proviso.Proofs.Calls
import Proviso.Proofs.Records
import Proviso.Proofs.FieldSums
import Proviso.Proofs.Conversion
import Proviso.Proofs.Grammar
import Proviso.Proofs.Shorthands
import Proviso.Proofs.Words
import Proviso.Proofs.Spellings
import Proviso.Proofs.Variables
import Proviso.Proofs.Overlays
import Proviso.Proofs.Blanks
import Proviso.Proofs.Readability
import Proviso.Proofs.Registration
import Proviso.Proofs.Occurrences
import Proviso.Proofs.Places
