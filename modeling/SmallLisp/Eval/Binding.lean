import SmallLisp.Eval.Error
import SmallLisp.Interpreter

set_option autoImplicit false

/-! # Binding lists and lambda lists

The shapes in which variables are introduced. Both are checked as a whole before anything is
evaluated.
-/

namespace SmallLisp

/-- **A symbol that may be bound or assigned**: any symbol but `nil` and `t`. -/
def expectVariable (lisp : Interpreter) (operation : String) (target : Value) :
    Except EvalError Symbol :=
  match target with
  | .symbol s =>
      if lisp.isConstant target then .error (.malformed (.constant operation target)) else .ok s
  | v => .error (.unsupportedArgument operation v)

/-- A variable to be bound, with the form of its value if one is given. -/
structure BindingSpec where
  var : Symbol
  init : Option Value
deriving DecidableEq

/-- One entry of a binding list: `var`, `(var)` or `(var init)`. -/
def BindingSpec.ofItem (lisp : Interpreter) (operation : String) (item : Value) :
    Except EvalError BindingSpec :=
  match item with
  | .symbol _ => do return ⟨← expectVariable lisp operation item, none⟩
  | _ =>
      match item.items? with
      | some [target] => do return ⟨← expectVariable lisp operation target, none⟩
      | some [target, init] => do return ⟨← expectVariable lisp operation target, some init⟩
      | _ => .error (.malformed (.binding operation item))

/-- **The entries of a binding list**, or the error of the first bad one. -/
def bindingSpecs (lisp : Interpreter) (operation : String) (bindings : Value) :
    Except EvalError (List BindingSpec) :=
  match bindings.items? with
  | none => .error (.malformed (.bindingList operation))
  | some items => items.mapM (BindingSpec.ofItem lisp operation)

/-- The parameters of a closure. -/
structure Parameters where
  required : List Symbol
  rest : Option Symbol
deriving DecidableEq

/-- **The parameters in a lambda list**: variables, and at the end perhaps the marker `&rest`
with one more variable. -/
def Parameters.ofItems (lisp : Interpreter) (marker : Symbol) :
    List Value → Except EvalError Parameters
  | [] => .ok ⟨[], none⟩
  | item :: items =>
      if item.same (.symbol marker) then
        match items with
        | [rest] => do return ⟨[], some (← expectVariable lisp "lambda" rest)⟩
        | _ => .error (.malformed .restParameter)
      else do
        let var ← expectVariable lisp "lambda" item
        let later ← Parameters.ofItems lisp marker items
        return ⟨var :: later.required, later.rest⟩

end SmallLisp
