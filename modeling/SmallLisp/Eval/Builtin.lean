import SmallLisp.Eval.Basic

set_option autoImplicit false

/-! # What builtins compute

The builtins that need no evaluation of their own, all but `funcall`. A call has its argument
count checked beforehand; a builtin reached without that check still answers every argument
list, some of them with an error of its own.
-/

namespace SmallLisp.Builtin

open Eval

/-! ## Arithmetic -/

/-- The number that an argument is. -/
def expectNumber (operation : String) : Value → Except EvalError Number
  | .number _ n => .ok n
  | v => .error (.unsupportedArgument operation v)

/-- The integer that an argument is. -/
def expectInteger (operation : String) : Value → Except EvalError Int64
  | .number _ (.integer i) => .ok i
  | v => .error (.unsupportedArgument operation v)

/-- Names the operation in which an arithmetic error arose. -/
def blame {α : Type} (operation : String) : Except ArithmeticError α → Except EvalError α
  | .ok a => .ok a
  | .error e => .error (.arithmetic operation e)

/-- Folds arguments into a number, from the left. An argument is looked at only when it is its
turn, so an arithmetic error wins over a later argument that is no number. -/
def foldNumbers (operation : String) (step : Number → Number → Except ArithmeticError Number) :
    Number → List Value → Except EvalError Number
  | acc, [] => .ok acc
  | acc, v :: vs => do
      let n ← expectNumber operation v
      let acc ← blame operation (step acc n)
      foldNumbers operation step acc vs

/-- **The four operations.** A single argument is negated by `-` and inverted by `/`; the sum
and the product of nothing are 0 and 1. -/
def arithmeticResult : Arithmetic → List Value → Except EvalError Number
  | .add, args => foldNumbers "+" Number.add (.integer 0) args
  | .mul, args => foldNumbers "*" Number.mul (.integer 1) args
  | .sub, [] => .error (.wrongArgumentCount (.atLeast 1) 0)
  | .sub, [v] => do blame "-" (← expectNumber "-" v).negate
  | .sub, v :: vs => do foldNumbers "-" Number.sub (← expectNumber "-" v) vs
  | .div, [] => .error (.wrongArgumentCount (.atLeast 1) 0)
  | .div, [v] => do blame "/" (Number.div (.integer 1) (← expectNumber "/" v))
  | .div, v :: vs => do foldNumbers "/" Number.div (← expectNumber "/" v) vs

/-- **The remainder.** All arguments must be integers, even those after a zero divisor. -/
def modResult (args : List Value) : Except EvalError Int64 := do
  match ← args.mapM (expectInteger "mod") with
  | [] => .error (.wrongArgumentCount (.atLeast 1) 0)
  | i :: is => blame "mod" (is.foldlM Number.mod i)

/-- Whether every two neighbours stand in a relation. -/
def chain (rel : Relation) : List Number → Bool
  | a :: b :: ns => (a.compare b).any rel.holds && chain rel (b :: ns)
  | _ => true

/-- **A comparison** of neighbours. All arguments must be numbers, even if an early pair
already fails. -/
def relationResult (rel : Relation) (args : List Value) : Except EvalError Bool := do
  return chain rel (← args.mapM (expectNumber rel.name))

/-- A trigonometric function of one number. -/
def trigonometricResult (fn : Trigonometric) : List Value → Except EvalError Float
  | [v] => do return fn.apply (← expectNumber fn.name v).toFloat
  | args => .error (.wrongArgumentCount (.exactly 1) args.length)

/-! ## Lists -/

/-- The two ends of a cons; the empty list has `nil` at both. -/
def ends (lisp : Interpreter) (operation : String) (v : Value) :
    Except EvalError (Value × Value) :=
  match v with
  | .cons _ a d => .ok (a, d)
  | v =>
      if v.isNil then .ok (lisp.nilValue, lisp.nilValue)
      else .error (.unsupportedArgument operation v)

/-! ## Symbols -/

/-- A part of a symbol. The value and the function must be there; an empty property list and a
package that is gone are `nil`. -/
def partOf (lisp : Interpreter) (s : Symbol) (part : SymbolPart) (a : Anchors) (h : Heap) :
    Except EvalError Value :=
  match part with
  | .name => .ok (.nameOf s)
  | .value =>
      match (h.cellsOf s).value with
      | some v => .ok v
      | none => .error (.unboundVariable s.name)
  | .function =>
      match (h.cellsOf s).function with
      | some v => .ok v
      | none => .error (.undefinedFunction s.name)
  | .plist => .ok ((h.cellsOf s).plist.getD lisp.nilValue)
  | .package => .ok ((lisp.packageOf? h a s).getD lisp.nilValue)

/-- The symbol in a list of exactly one argument. -/
def expectSymbol (operation : String) : List Value → Except EvalError Symbol
  | [.symbol s] => .ok s
  | [v] => .error (.unsupportedArgument operation v)
  | args => .error (.wrongArgumentCount (.exactly 1) args.length)

/-! ## All together -/

/-- A new number. -/
def makeNumber (n : Number) : Eval Value := make (·.alloc (.number · n))

/-- **The result of a builtin** other than `funcall` on evaluated arguments. (`funcall` without
arguments is answered here too; with arguments it is a call, see `Eval.callBuiltin`.) -/
def run (lisp : Interpreter) (op : Builtin) (args : List Value) : Eval Value :=
  match op with
  | .eq =>
      match args with
      | [a, b] => pure (lisp.truth (a.same b))
      | _ => fail (.malformed (.arguments .eq))
  | .null => pure (lisp.truth (args.head?.any Value.isNil))
  | .not => pure (lisp.truth (args.head?.any Value.isNil))
  | .atom => pure (lisp.truth (args.head?.any Value.isAtom))
  | .funcall => fail (.wrongArgumentCount (.atLeast 1) 0)
  | .arithmetic op => do makeNumber (← ofExcept (arithmeticResult op args))
  | .mod => do makeNumber (.integer (← ofExcept (modResult args)))
  | .relation rel => do return lisp.truth (← ofExcept (relationResult rel args))
  | .trigonometric fn => do makeNumber (.float (← ofExcept (trigonometricResult fn args)))
  | .car | .first =>
      match args with
      | [v] => do return (← ofExcept (ends lisp op.operation v)).1
      | _ => fail (.malformed (.arguments op))
  | .cdr | .rest =>
      match args with
      | [v] => do return (← ofExcept (ends lisp op.operation v)).2
      | _ => fail (.malformed (.arguments op))
  | .cons =>
      match args with
      | [a, d] => make (·.cons a d)
      | _ => fail (.malformed (.arguments .cons))
  | .list => make (lisp.list · args)
  | .symbolPart part => do
      let s ← ofExcept (expectSymbol part.accessor args)
      ofExcept (← inspect (partOf lisp s part))

end SmallLisp.Builtin
