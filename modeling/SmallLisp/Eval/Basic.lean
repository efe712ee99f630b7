import SmallLisp.Eval.Error
import SmallLisp.Interpreter

set_option autoImplicit false

/-! # Evaluation as a computation

An evaluation runs in a heap and a current environment and ends in a value or a stop. Both the
heap and the environment are kept when it stops, so whatever was assigned before an error
stays assigned.

Frames are pushed inside `withScope`, which removes them again however its body ends.

A computation also knows what is held by the computations that it is a part of. They say so by
`holding`: a value that has been computed and is still needed, the closure that is running, the
arguments of a builtin. A value that has been handed on, such as an argument that has become
the value of a parameter, is not held any more. None of this changes what is computed, except
that it decides how long packages live.
-/

namespace SmallLisp

/-- The heap and the environment that forms are evaluated in. -/
structure State where
  heap : Heap
  env : Environment

/-- Why an evaluation ends without a value: an error of the program, or more nesting than the
evaluator was allowed. -/
inductive Stop
  | error (e : EvalError)
  | exhausted
deriving DecidableEq

/-- **A computation** that may change the state, and ends in a value or a stop. It is given what
is held around it. -/
abbrev Eval := ReaderT Anchors (EStateM Stop State)

namespace Eval

/-- Stops with an error. -/
def fail {α : Type} (e : EvalError) : Eval α := throw (.error e)

/-- The value of a check, or its error. -/
def ofExcept {α : Type} : Except EvalError α → Eval α
  | .ok a => pure a
  | .error e => fail e

/-- Reads something off the heap. -/
def onHeap {α : Type} (f : Heap → α) : Eval α := fun _ s => .ok (f s.heap) s

/-- Reads something off the heap that depends on what is held. -/
def inspect {α : Type} (f : Anchors → Heap → α) : Eval α := fun a s =>
  .ok (f (a.stay s.env) s.heap) s

/-- Makes something in the heap. -/
def make {α : Type} (f : Heap → α × Heap) : Eval α := fun _ s =>
  match f s.heap with
  | (a, h) => .ok a { s with heap := h }

/-- Changes the heap. -/
def change (f : Heap → Heap) : Eval Unit := fun _ s => .ok () { s with heap := f s.heap }

/-- The current environment. -/
def environment : Eval Environment := fun _ s => .ok s.env s

/-- Pushes a new frame on the current environment. -/
def push (frame : Frame) : Eval Unit := fun _ s =>
  match s.heap.makeFrame frame with
  | (id, h) => .ok () ⟨h, id :: s.env⟩

/-- **A scope.** Frames pushed by the body are gone afterwards, whether it succeeds or not. -/
def withScope {α : Type} (body : Eval α) : Eval α := fun a s =>
  let depth := s.env.length
  match body a s with
  | .ok a s' => .ok a { s' with env := s'.env.truncate depth }
  | .error e s' => .error e { s' with env := s'.env.truncate depth }

/-- Runs the body while some values are held. -/
def holding {α : Type} (vs : List Value) (body : Eval α) : Eval α := fun a => body (a.hold vs)

/-- Runs the body in another environment and comes back to the current one. -/
def inEnvironment {α : Type} (env : Environment) (body : Eval α) : Eval α := fun a s =>
  match body (a.stay s.env) { s with env := env } with
  | .ok a s' => .ok a { s' with env := s.env }
  | .error e s' => .error e { s' with env := s.env }

/-- The lexical value of a variable, if it has one. -/
def lexical? (s : Symbol) : Eval (Option Value) := fun _ st =>
  .ok (st.heap.lookup st.env s.id) st

/-- Assigns a variable in the innermost frame that binds it, or else its global value. -/
def assign (s : Symbol) (v : Value) : Eval Unit := fun _ st =>
  match st.heap.assign? st.env s.id v with
  | some h => .ok () { st with heap := h }
  | none => .ok () { st with heap := st.heap.setValue s v }

/-- The function of a symbol; an error if it has none. -/
def functionOf (s : Symbol) : Eval Value := do
  match ← onHeap fun h => (h.cellsOf s).function with
  | some f => pure f
  | none => fail (.undefinedFunction s.name)

end Eval

end SmallLisp
