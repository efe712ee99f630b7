import SmallLisp.Eval.Builtin
import SmallLisp.Eval.SpecialForm

set_option autoImplicit false

/-! # The evaluator

Numbers and strings evaluate to themselves, a symbol to its innermost lexical value or else
its global one, and a list to the result of applying its operator. Programs may run for ever,
so `evaluate` takes the number of levels that evaluations may be nested; an evaluation that
needs more stops as exhausted, and a finished answer does not depend on the number.
-/

namespace SmallLisp.Eval

/-- Calls a closure: one new frame on top of the environment it was made in, with the
parameters bound to the arguments and the rest parameter to a list of those left over. -/
def callClosure (lisp : Interpreter) (ev : Value → Eval Value) (code : Closure)
    (args : List Value) : Eval Value := do
  ofExcept (code.arity.check args.length)
  let required := List.zipWith (fun (s : Symbol) v => Binding.mk (.symbol s) v) code.params args
  let rest ← match code.rest with
    | some s => do
        let surplus ← make (lisp.list · (args.drop code.params.length))
        pure [Binding.mk (.symbol s) surplus]
    | none => pure []
  inEnvironment code.env <| withScope do
    push ⟨required ++ rest⟩
    SpecialForm.body lisp ev code.body

/-- The function that a value designates: a symbol stands for its function. -/
def designated : Value → Eval Value
  | .symbol s => functionOf s
  | v => pure v

/-- **Applies an operator to values.** Special forms take the values as their operands. A closure
is held while it runs, and so are the operands of anything else; what a closure is given is
held by its frame. -/
def applyValues (lisp : Interpreter) (ev : Value → Eval Value) (operator : Value)
    (args : List Value) : Eval Value :=
  match operator with
  | .specialForm _ form => do
      ofExcept (form.arity.check args.length)
      holding args (form.run lisp ev args)
  | .builtin _ op => do
      ofExcept (op.arity.check args.length)
      match op, args with
      | .funcall, f :: rest => holding (f :: rest) do
          let g ← designated f
          applyValues lisp ev g rest
      | op, args => holding args (op.run lisp args)
  | .closure id _ => holding [operator] do
      match ← onHeap (·.closures[id]?) with
      | some code => callClosure lisp ev code args
      | none => fail (.notCallable operator)
  | v => fail (.notCallable v)
termination_by structural args

/-- Calls a builtin on values, without a check of their number. -/
def callBuiltin (lisp : Interpreter) (ev : Value → Eval Value) (op : Builtin)
    (args : List Value) : Eval Value :=
  match op, args with
  | .funcall, f :: rest => holding (f :: rest) do
      let g ← designated f
      applyValues lisp ev g rest
  | op, args => holding args (op.run lisp args)

/-- To apply a builtin is to check the number of arguments and call it. -/
theorem applyValues_builtin (lisp : Interpreter) (ev : Value → Eval Value) (id : ObjectId)
    (op : Builtin) (args : List Value) :
    applyValues lisp ev (.builtin id op) args = (do
      ofExcept (op.arity.check args.length)
      callBuiltin lisp ev op args) := by
  cases args <;> cases op <;> rfl

/-- The values of forms, computed from left to right and kept until all are there. -/
def evaluateAll (ev : Value → Eval Value) : List Value → Eval (List Value)
  | [] => pure []
  | form :: forms => do
      let v ← ev form
      let later ← holding [v] (evaluateAll ev forms)
      return v :: later

/-- **Applies an operator to a list of forms.** Special forms get the forms themselves, builtins
and closures their values, computed from left to right. -/
def apply (lisp : Interpreter) (ev : Value → Eval Value) (operator argList : Value) :
    Eval Value :=
  match argList.items? with
  | none => fail (.malformed (.argumentList argList))
  | some args =>
      match operator with
      | .specialForm _ form => do
          ofExcept (form.arity.check args.length)
          form.run lisp ev args
      | .builtin _ op => do
          let values ← evaluateAll ev args
          ofExcept (op.arity.check values.length)
          callBuiltin lisp ev op values
      | .closure id _ => holding [operator] do
          let values ← evaluateAll ev args
          match ← onHeap (·.closures[id]?) with
          | some code => callClosure lisp ev code values
          | none => fail (.notCallable operator)
      | v => fail (.notCallable v)

/-- The operator that the head of a form stands for. -/
def operatorOf (lisp : Interpreter) (ev : Value → Eval Value) (head : Value) : Eval Value :=
  match head with
  | .symbol s => functionOf s
  | head => do
      if ← onHeap (lisp.isLambdaForm · head) then ev head else fail (.notCallable head)

/-- One level of evaluation, with `ev` for the forms inside. -/
def evaluateWith (lisp : Interpreter) (ev : Value → Eval Value) (form : Value) : Eval Value :=
  match form with
  | .number _ _ => pure form
  | .string _ _ => pure form
  | .symbol s => do
      match ← lexical? s with
      | some v => pure v
      | none =>
          match ← onHeap fun h => (h.cellsOf s).value with
          | some v => pure v
          | none => fail (.unboundVariable s.name)
  | .cons _ head args => do
      let operator ← operatorOf lisp ev head
      apply lisp ev operator args
  | v => fail (.notEvaluable v.typeName)

/-- **Evaluates a form**, with at most `depth` evaluations nested in one another. -/
def evaluate (lisp : Interpreter) : Nat → Value → Eval Value
  | 0, _ => throw .exhausted
  | depth + 1, form => evaluateWith lisp (evaluate lisp depth) form

end SmallLisp.Eval
