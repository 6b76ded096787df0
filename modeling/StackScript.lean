import StackScript.Corpus
import StackScript.Files.Tree
import StackScript.Main
import StackScript.Proofs.Heights.Expression
import StackScript.Proofs.Heights.Statement
import StackScript.Proofs.Heights.Function
import StackScript.Proofs.Reading.Basic
import StackScript.Proofs.Reading.Uses
import StackScript.Proofs.Reading.Places
import StackScript.Proofs.Reading.Grammar
import StackScript.Proofs.Reading.Course
import StackScript.Proofs.Reading.Reader
import StackScript.Proofs.Reading.Scripts
import StackScript.Proofs.Reading.Heights
import StackScript.Proofs.Compiled
import StackScript.Proofs.Machine.Clean
import StackScript.Proofs.Machine.Steps
import StackScript.Proofs.Machine.Standing
import StackScript.Proofs.Machine.Safety
import StackScript.Proofs.Machine.Soundness
import StackScript.Proofs.Tries
import StackScript.Proofs.Machine.Effects
import StackScript.Proofs.Machine.Turns
import StackScript.Proofs.Machine.Reachable
import StackScript.Proofs.Machine.Unwinding
import StackScript.Proofs.Machine.Returning
import StackScript.Proofs.Machine.Evaluation
import StackScript.Proofs.Source.Term
import StackScript.Proofs.Source.Echo
import StackScript.Proofs.Source.Slice
import StackScript.Proofs.Structured.Agreement
import StackScript.Proofs.Machine.Tidy
import StackScript.Proofs.Session
import StackScript.Proofs.Code.RoundTrip
import StackScript.Proofs.Token.Scan
import StackScript.Proofs.Token.Spans
import StackScript.Proofs.Token.Nesting
import StackScript.Proofs.Heap.Operation
import StackScript.Proofs.Heap.Copies
import StackScript.Proofs.Heap.Elements
import StackScript.Proofs.Heap.Slices
import StackScript.Proofs.Heap.Rendering
import StackScript.Proofs.Heap.Tables
import StackScript.Proofs.Text.Search
import StackScript.Proofs.Machine.Imports
import StackScript.Proofs.Machine.FailedImports
import StackScript.Proofs.Interpolations
import StackScript.Proofs.Writing.Offsets
import StackScript.Proofs.Writing.Sheet
import StackScript.Proofs.Writing.Shows
import StackScript.Proofs.Writing.Progress
import StackScript.Proofs.Writing.Script
import StackScript.Proofs.Loops
import StackScript.Proofs.Token.Names
import StackScript.Proofs.Reading.Blocks
import StackScript.Proofs.Reading.Hidden
import StackScript.Proofs.Reading.Lookup
import StackScript.Proofs.Reading.Strings
import StackScript.Proofs.Machine.Increment
import StackScript.Proofs.Writing.Increments
import StackScript.Proofs.Machine.Twins
import StackScript.Proofs.Machine.Outcome
import StackScript.Proofs.Machine.Pieces
import StackScript.Proofs.Machine.Levels
import StackScript.Proofs.Machine.Operands
import StackScript.Proofs.Assignment.Stored
import StackScript.Proofs.Value.Arithmetic
import StackScript.Proofs.Value.Comparison
import StackScript.Proofs.Value.Cast
import StackScript.Proofs.Token.Floats
import StackScript.Proofs.Machine.Depth
import StackScript.Proofs.Machine.Seclusion
import StackScript.Proofs.Collections.Items
import StackScript.Proofs.Collections.Traversal
import StackScript.Proofs.Collections.Rounds
import StackScript.Proofs.Machine.Jumps
import StackScript.Proofs.Machine.Room
import StackScript.Proofs.Machine.Bounds
import StackScript.Proofs.Reading.Budget
import StackScript.Proofs.LineTable
import StackScript.Proofs.Code.Truncated
import StackScript.Proofs.Token.Literal
import StackScript.Proofs.Token.Spelling
import StackScript.Proofs.Text.Lines
import StackScript.Proofs.Diagnosis
import StackScript.Proofs.Code.Operation
