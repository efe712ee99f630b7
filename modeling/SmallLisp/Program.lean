import SmallLisp.Eval.Evaluate
import SmallLisp.Form.Reader
import SmallLisp.Source.File

set_option autoImplicit false

/-! # Running source text

Reading and evaluating forms at top level. The heap comes back whatever happens, because what a
program did before it failed stays done. Whoever runs a program says what is held elsewhere
meanwhile.
-/

namespace SmallLisp

/-- **Whatever can go wrong** between a source file and a value. -/
inductive Failure
  | parse (e : ParseError)
  | eval (e : EvalError)
  | file (path : String) (e : FileError)
  /-- The evaluation was nested more deeply than allowed. -/
  | exhausted
deriving DecidableEq

/-- The wording of a failure. -/
def Failure.message : Failure → String
  | .parse e => e.message
  | .eval e => e.message
  | .file path e => "cannot read " ++ path ++ ": " ++ e.message
  | .exhausted => "Evaluation is nested too deeply"

/-- The failure that stops an evaluation. -/
def Failure.ofStop : Stop → Failure
  | .error e => .eval e
  | .exhausted => .exhausted

/-- The outcome of running something in a heap. -/
abbrev Outcome := Except Failure Value × Heap

namespace Interpreter

/-- Runs a computation in an environment, for its outcome and the environment it leaves. -/
def runIn (held : Anchors) (env : Environment) (h : Heap) (act : Eval Value) :
    Except Failure Value × Heap × Environment :=
  match act held ⟨h, env⟩ with
  | .ok v s => (.ok v, s.heap, s.env)
  | .error e s => (.error (.ofStop e), s.heap, s.env)

/-- **Evaluates a form at top level**, with at most `depth` evaluations nested. The form, of
which all forms inside are parts, is held all the time. -/
def eval (lisp : Interpreter) (depth : Nat) (held : Anchors) (form : Value) (h : Heap) :
    Outcome :=
  let out := runIn (held.hold [form]) lisp.toplevel h (Eval.evaluate lisp depth form)
  (out.1, out.2.1)

/-- **Reads exactly one form and evaluates it.** Nothing is evaluated if reading fails. -/
def evalText (lisp : Interpreter) (depth : Nat) (held : Anchors) (source : List Char)
    (h : Heap) : Outcome :=
  match readText lisp source h with
  | (.error e, h) => (.error (.parse e), h)
  | (.ok form, h) => lisp.eval depth held form h

/-- Reads and evaluates the forms that a reader still has, one after the other. Each value is
kept until the next one is there. -/
def loadFrom (lisp : Interpreter) (depth : Nat) (held : Anchors) (last : Value) (r : Reader)
    (h : Heap) : Outcome :=
  match _hnext : r.next? lisp h with
  | none => (.ok last, h)
  | some reading =>
      match reading.result with
      | .error e => (.error (.parse e), reading.heap)
      | .ok form =>
          match lisp.eval depth (held.hold [last]) form reading.heap with
          | (.error e, h) => (.error e, h)
          | (.ok v, h) => loadFrom lisp depth held v reading.reader h
termination_by r.pending.length
decreasing_by exact Reader.pending_next?_length _hnext

/-- **Reads and evaluates every form of a text**, up to the first failure. The result is the
last value, or `nil` if there is no form. -/
def loadText (lisp : Interpreter) (depth : Nat) (held : Anchors) (source : List Char)
    (h : Heap) : Outcome :=
  lisp.loadFrom depth held lisp.nilValue (Reader.ofSource source) h

end Interpreter

end SmallLisp
