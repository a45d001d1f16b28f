import Subleq.Command.Assemble
import Subleq.Command.Run
import Subleq.Files
import Subleq.Main
import Subleq.Session
import Subleq.Proofs.Cell
import Subleq.Proofs.Bitwise
import Subleq.Proofs.Evaluation
import Subleq.Proofs.SymbolTable
import Subleq.Proofs.Constants
import Subleq.Proofs.Layout
import Subleq.Proofs.Pool
import Subleq.Proofs.Expansion
import Subleq.Proofs.Image
import Subleq.Proofs.Assembly
import Subleq.Proofs.FinalEnvironment
import Subleq.Proofs.Interpreter
import Subleq.Proofs.Machine
import Subleq.Proofs.Refinement
import Subleq.Proofs.Refusal
import Subleq.Proofs.Tiling
import Subleq.Proofs.Simulation
import Subleq.Proofs.Relaxation
import Subleq.Proofs.Literals
import Subleq.Proofs.Resolver
import Subleq.Proofs.QueryOrder
import Subleq.Proofs.ExprGrammar
import Subleq.Proofs.LineGrammar
import Subleq.Proofs.Stopping
import Subleq.Proofs.JsonRoundTrip
import Subleq.Proofs.ImageRoundTrip
import Subleq.Proofs.Lexemes
import Subleq.Proofs.Scanning
import Subleq.Proofs.Concatenation
import Subleq.Proofs.Trace
import Subleq.Proofs.Reachable
import Subleq.Proofs.Rearrangement
import Subleq.Proofs.Blocks
import Subleq.Proofs.StraightLine
import Subleq.Proofs.Comparison
import Subleq.Proofs.MemorySize
import Subleq.Proofs.Addresses
import Subleq.Proofs.Formatting
import Subleq.Proofs.Entry
import Subleq.Proofs.ExactValue
import Subleq.Proofs.Names
import Subleq.Proofs.Utf8
import Subleq.Proofs.Lines
import Subleq.Proofs.WordImages
import Subleq.Proofs.Numerals
import Subleq.Proofs.Requests
import Subleq.Proofs.PoolSymbols
import Subleq.Proofs.Quotation
import Subleq.Proofs.EndOfText
import Subleq.Proofs.Dumps
import Subleq.Proofs.EditDistance
