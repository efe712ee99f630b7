import SmallLisp.Value.Printer

set_option autoImplicit false

/-! # Errors of evaluation

Each error names its cause; the wording is in one place, `EvalError.message`. Printing a value
needs no heap, so an error reads the same whenever it is shown.
-/

namespace SmallLisp

/-- **Ways in which a form lacks the expected shape.** -/
inductive Malformation
  /-- The arguments of a call do not form a proper list. -/
  | argumentList (args : Value)
  /-- `nil` or `t` where a variable is bound or assigned. -/
  | constant (operation : String) (target : Value)
  /-- The wrong number of operands for a special form. -/
  | operands (form : SpecialForm)
  /-- The wrong number of arguments, found by a builtin itself. -/
  | arguments (op : Builtin)
  /-- The bindings of a `let` do not form a proper list. -/
  | bindingList (operation : String)
  | binding (operation : String) (item : Value)
  | lambdaList (params : Value)
  | restParameter
deriving DecidableEq

/-- The operands that a special form asks for. -/
def SpecialForm.expectation : SpecialForm → String
  | .quote => "exactly one argument"
  | .function => "exactly one argument"
  | .ite => "a condition and a then-branch"
  | .setq => "an even number of arguments"
  | .letParallel => "a binding list"
  | .letSequential => "a binding list"
  | .lambda => "a parameter list"
  | .defun => "a name and a parameter list"

/-- The operation that a builtin names in its errors. The two names of an operation on lists
share one. -/
def Builtin.operation : Builtin → String
  | .first => "car"
  | .rest => "cdr"
  | op => op.name

/-- The arguments that a builtin asks for: two for `eq` and `cons`, one for any other that
counts its arguments itself. -/
def Builtin.expectation : Builtin → String
  | .eq => "two arguments"
  | .cons => "two arguments"
  | _ => "one argument"

/-- The wording of a malformation. -/
def Malformation.message : Malformation → String
  | .argumentList args => "argument list is not a proper list: " ++ args.text
  | .constant operation target =>
      operation ++ ": cannot bind or assign the constant " ++ target.text
  | .operands form => form.name ++ " expects " ++ form.expectation
  | .arguments op => op.operation ++ " expects " ++ op.expectation
  | .bindingList operation => operation ++ ": bindings must be a list"
  | .binding operation item => operation ++ ": invalid binding " ++ item.text
  | .lambdaList params => "invalid lambda list: " ++ params.text
  | .restParameter => "&rest must be followed by exactly one parameter"

/-- **Why an evaluation fails.** -/
inductive EvalError
  | unboundVariable (name : String)
  | undefinedFunction (name : String)
  | wrongArgumentCount (expected : Arity) (got : Nat)
  | unsupportedArgument (operation : String) (value : Value)
  | notCallable (value : Value)
  | notEvaluable (typeName : String)
  | malformed (cause : Malformation)
  | arithmetic (operation : String) (cause : ArithmeticError)
deriving DecidableEq

/-- The wording of an error of evaluation. -/
def EvalError.message : EvalError → String
  | .unboundVariable name => "Unbound variable: '" ++ name ++ "'"
  | .undefinedFunction name => "Undefined function: '" ++ name ++ "'"
  | .wrongArgumentCount expected got =>
      "Wrong number of arguments: expected " ++ expected.text ++ ", got " ++ toString got
  | .unsupportedArgument operation value =>
      "Unsupported argument type for '" ++ operation ++ "': " ++ value.text
  | .notCallable value => "Not callable: " ++ value.text
  | .notEvaluable typeName => "Cannot evaluate an object of type " ++ typeName
  | .malformed cause => "Malformed expression: " ++ cause.message
  | .arithmetic operation cause => operation ++ ": " ++ cause.message

/-- Accepts an argument count or names what is wrong with it. -/
def Arity.check (a : Arity) (count : Nat) : Except EvalError Unit :=
  if a.accepts count then .ok () else .error (.wrongArgumentCount a count)

end SmallLisp
