import SmallLisp.Eval.Basic
import SmallLisp.Eval.Binding

set_option autoImplicit false

/-! # What special forms do

Special forms evaluate some of their operands themselves. The evaluator is a parameter `ev`
here, so that each form is described on its own; `Eval.Evaluate` ties the knot. A form reached
without a check of its argument count still answers every operand list.
-/

namespace SmallLisp.SpecialForm

open Eval

/-- Evaluates forms in order and gives the last value, or `nil` if there are none. Each value
is kept until the next one is there. -/
def body (lisp : Interpreter) (ev : Value → Eval Value) (forms : List Value) : Eval Value :=
  forms.foldlM (fun last form => holding [last] (ev form)) lisp.nilValue

/-- `(function name)` is the function of a name, `(function (lambda …))` a new closure. -/
def functionNamed (lisp : Interpreter) (ev : Value → Eval Value) (target : Value) :
    Eval Value := do
  match target with
  | .symbol s => functionOf s
  | target =>
      if ← onHeap (lisp.isLambdaForm · target) then ev target
      else fail (.unsupportedArgument "function" target)

/-- `(setq var form …)`: each form is evaluated and assigned before the next pair. -/
def assignPairs (lisp : Interpreter) (ev : Value → Eval Value) (last : Value) :
    List Value → Eval Value
  | target :: form :: rest => do
      let s ← ofExcept (expectVariable lisp "setq" target)
      let v ← holding [last] (ev form)
      assign s v
      assignPairs lisp ev v rest
  | _ => pure last

/-- The first value of a variable in a `let`. -/
def initial (lisp : Interpreter) (ev : Value → Eval Value) (spec : BindingSpec) : Eval Value :=
  match spec.init with
  | some form => ev form
  | none => pure lisp.nilValue

/-- The first values of variables, computed in order. -/
def initialAll (lisp : Interpreter) (ev : Value → Eval Value) :
    List BindingSpec → Eval (List Binding)
  | [] => pure []
  | spec :: specs => do
      let v ← initial lisp ev spec
      let later ← holding [v] (initialAll lisp ev specs)
      return ⟨.symbol spec.var, v⟩ :: later

/-- Parallel bindings: all values are computed outside, then bound in one frame. -/
def bindParallel (lisp : Interpreter) (ev : Value → Eval Value) (specs : List BindingSpec)
    (forms : List Value) : Eval Value := do
  let bindings ← initialAll lisp ev specs
  withScope do
    push ⟨bindings⟩
    body lisp ev forms

/-- Sequential bindings: each in a frame of its own that later ones see. -/
def bindInTurn (lisp : Interpreter) (ev : Value → Eval Value) : List BindingSpec → Eval Unit
  | [] => pure ()
  | spec :: specs => do
      let v ← initial lisp ev spec
      push ⟨[⟨.symbol spec.var, v⟩]⟩
      bindInTurn lisp ev specs

/-- The parameters of a new closure. A lambda list that is no list is refused before the
marker `&rest` is interned. -/
def parameters (lisp : Interpreter) (lambdaList : Value) : Eval Parameters := do
  match lambdaList.items? with
  | none => fail (.malformed (.lambdaList lambdaList))
  | some items =>
      let marker ← make (lisp.intern · "&rest")
      ofExcept (Parameters.ofItems lisp marker items)

/-- A new closure in the current environment. -/
def closure (lisp : Interpreter) (name : Option Symbol) (lambdaList : Value)
    (forms : List Value) : Eval Value := do
  let params ← parameters lisp lambdaList
  let env ← environment
  make (·.makeClosure name ⟨params.required, params.rest, forms, env⟩)

/-- **The result of a special form** on its operands. -/
def run (lisp : Interpreter) (ev : Value → Eval Value) (form : SpecialForm)
    (args : List Value) : Eval Value :=
  let refuse : Eval Value := fail (.malformed (.operands form))
  match form with
  | .quote =>
      match args with
      | [datum] => pure datum
      | _ => refuse
  | .function =>
      match args with
      | [target] => functionNamed lisp ev target
      | _ => refuse
  | .ite =>
      match args with
      | condition :: consequent :: alternative => do
          if (← ev condition).isNil then body lisp ev alternative else ev consequent
      | _ => refuse
  | .setq =>
      if args.length % 2 = 0 then assignPairs lisp ev lisp.nilValue args else refuse
  | .letParallel =>
      match args with
      | bindings :: forms => do
          let specs ← ofExcept (bindingSpecs lisp "let" bindings)
          bindParallel lisp ev specs forms
      | [] => refuse
  | .letSequential =>
      match args with
      | bindings :: forms => do
          let specs ← ofExcept (bindingSpecs lisp "let*" bindings)
          withScope do
            bindInTurn lisp ev specs
            body lisp ev forms
      | [] => refuse
  | .lambda =>
      match args with
      | lambdaList :: forms => closure lisp none lambdaList forms
      | [] => refuse
  | .defun =>
      match args with
      | name :: lambdaList :: forms =>
          match name with
          | .symbol s => do
              let f ← closure lisp (some s) lambdaList forms
              change (·.setFunction s f)
              return name
          | name => fail (.unsupportedArgument "defun" name)
      | _ => refuse

end SmallLisp.SpecialForm
