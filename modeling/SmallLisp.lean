import SmallLisp.Heap.Lemmas
import SmallLisp.Main
import SmallLisp.Prompt.Completion
import SmallLisp.Prompt.Highlight
import SmallLisp.Session.Run
import SmallLisp.Proofs.Token.Choice
import SmallLisp.Proofs.Token.Contents
import SmallLisp.Proofs.Heap.Growth
import SmallLisp.Proofs.Interpreter.Reachable
import SmallLisp.Proofs.Form.Reading
import SmallLisp.Proofs.Form.Shifting
import SmallLisp.Proofs.Form.Grammar
import SmallLisp.Proofs.Form.Acceptance
import SmallLisp.Proofs.Form.Incomplete
import SmallLisp.Proofs.Token.Written
import SmallLisp.Proofs.Value.RoundTrip
import SmallLisp.Proofs.Eval.Built
import SmallLisp.Proofs.Prompt.Units
import SmallLisp.Proofs.Program.Runs
import SmallLisp.Proofs.Prompt.Answers
import SmallLisp.Proofs.Token.Runs
import SmallLisp.Proofs.Eval.Law
import SmallLisp.Proofs.Eval.Lawful
import SmallLisp.Proofs.Program.Lawful
import SmallLisp.Proofs.Eval.Frames
import SmallLisp.Proofs.Session.Acts
import SmallLisp.Proofs.Session.Turns
import SmallLisp.Proofs.Session.Scopes
import SmallLisp.Proofs.Interpreter.Constants
import SmallLisp.Proofs.Interpreter.Names
import SmallLisp.Proofs.Token.Places
import SmallLisp.Proofs.Token.Tiling
import SmallLisp.Proofs.Program.Concatenation
import SmallLisp.Proofs.Heap.Identity
import SmallLisp.Proofs.Value.Walks
import SmallLisp.Proofs.Session.Objects
import SmallLisp.Proofs.Heap.Renaming
import SmallLisp.Proofs.Eval.Renaming
import SmallLisp.Proofs.Eval.Coupling
import SmallLisp.Proofs.Eval.Coupled
import SmallLisp.Proofs.Program.Renamed
import SmallLisp.Proofs.Heap.Bounds
import SmallLisp.Proofs.Heap.Moving
import SmallLisp.Proofs.Interpreter.Isolation
import SmallLisp.Proofs.Interpreter.Works
import SmallLisp.Proofs.Interpreter.Effects
import SmallLisp.Proofs.Eval.Depth
import SmallLisp.Proofs.Program.Calls
import SmallLisp.Proofs.Heap.Lifetimes
import SmallLisp.Proofs.Heap.Survival
import SmallLisp.Proofs.Eval.Ahead
import SmallLisp.Proofs.Eval.Alive
import SmallLisp.Proofs.Eval.InStep
import SmallLisp.Proofs.Heap.Sharing
import SmallLisp.Proofs.Program.Shapes
import SmallLisp.Proofs.Program.Lets
import SmallLisp.Proofs.Eval.Holding
import SmallLisp.Proofs.Program.Assignments
import SmallLisp.Proofs.Program.Sequential
import SmallLisp.Proofs.Program.Parameters
import SmallLisp.Proofs.Number.Arithmetic
import SmallLisp.Proofs.Program.Termination
import SmallLisp.Proofs.Number.Floats
import SmallLisp.Proofs.Number.Rounding
import SmallLisp.Proofs.Number.Comparison
import SmallLisp.Proofs.Form.Unclosed
import SmallLisp.Proofs.Token.Alone
import SmallLisp.Proofs.Form.Blame
import SmallLisp.Proofs.Source.Reports
import SmallLisp.Proofs.Value.Numbers
import SmallLisp.Proofs.Form.Outline
import SmallLisp.Proofs.Form.Unfinished
import SmallLisp.Proofs.Prompt.Pairs
import SmallLisp.Proofs.Prompt.Colours
import SmallLisp.Proofs.Form.Iteration
import SmallLisp.Proofs.Session.States
import SmallLisp.Proofs.Form.Interning
import SmallLisp.Proofs.Text.ByteOrder
import SmallLisp.Proofs.Prompt.Candidates
import SmallLisp.Proofs.Token.Strings
import SmallLisp.Proofs.Number.Remainder
