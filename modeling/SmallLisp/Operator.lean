import SmallLisp.Arity

set_option autoImplicit false

/-! # Built-in operators

The operators that every interpreter starts with. A **special form** receives its arguments
as they are written; a **builtin** receives their values. This module gives their names and
argument counts; what they do is in `Eval`.
-/

namespace SmallLisp

/-- Operators on unevaluated arguments. -/
inductive SpecialForm
  | quote
  | function
  | ite
  | setq
  | letParallel
  | letSequential
  | lambda
  | defun
deriving DecidableEq, Repr

namespace SpecialForm

/-- All special forms, in the order in which they are installed. -/
def all : List SpecialForm :=
  [.quote, .function, .ite, .setq, .letParallel, .letSequential, .lambda, .defun]

/-- The name under which a special form is installed. -/
def name : SpecialForm → String
  | .quote => "quote"
  | .function => "function"
  | .ite => "if"
  | .setq => "setq"
  | .letParallel => "let"
  | .letSequential => "let*"
  | .lambda => "lambda"
  | .defun => "defun"

/-- The argument count that a call of a special form is checked against. -/
def arity : SpecialForm → Arity
  | .quote => .exactly 1
  | .function => .exactly 1
  | .ite => .atLeast 2
  | .setq => .atLeast 2
  | .letParallel => .atLeast 1
  | .letSequential => .atLeast 1
  | .lambda => .atLeast 1
  | .defun => .atLeast 2

end SpecialForm

/-- The four operations of arithmetic. -/
inductive Arithmetic
  | add
  | sub
  | mul
  | div
deriving DecidableEq, Repr

/-- The name of an arithmetic operation. -/
def Arithmetic.name : Arithmetic → String
  | .add => "+"
  | .sub => "-"
  | .mul => "*"
  | .div => "/"

/-- The five numeric relations. -/
inductive Relation
  | equal
  | less
  | lessEqual
  | greater
  | greaterEqual
deriving DecidableEq, Repr

namespace Relation

/-- The name of a relation. -/
def name : Relation → String
  | .equal => "="
  | .less => "<"
  | .lessEqual => "<="
  | .greater => ">"
  | .greaterEqual => ">="

/-- Whether two numbers that compare as `o` stand in the relation. -/
def holds : Relation → Ordering → Bool
  | .equal, o => o == .eq
  | .less, o => o == .lt
  | .lessEqual, o => o != .gt
  | .greater, o => o == .gt
  | .greaterEqual, o => o != .lt

end Relation

/-- The trigonometric functions. -/
inductive Trigonometric
  | sin
  | cos
  | tan
deriving DecidableEq, Repr

namespace Trigonometric

/-- The name of a trigonometric function. -/
def name : Trigonometric → String
  | .sin => "sin"
  | .cos => "cos"
  | .tan => "tan"

/-- The function itself, of an angle in radians. -/
def apply : Trigonometric → Float → Float
  | .sin => Float.sin
  | .cos => Float.cos
  | .tan => Float.tan

end Trigonometric

/-- The parts of a symbol that can be asked for. -/
inductive SymbolPart
  | name
  | value
  | function
  | plist
  | package
deriving DecidableEq, Repr

/-- The name of the builtin that asks for a part of a symbol. -/
def SymbolPart.accessor : SymbolPart → String
  | .name => "symbol-name"
  | .value => "symbol-value"
  | .function => "symbol-function"
  | .plist => "symbol-plist"
  | .package => "symbol-package"

/-- Operators on evaluated arguments. -/
inductive Builtin
  | eq
  | null
  | not
  | atom
  | funcall
  | arithmetic (op : Arithmetic)
  | mod
  | relation (rel : Relation)
  | trigonometric (fn : Trigonometric)
  | car
  | first
  | cdr
  | rest
  | cons
  | list
  | symbolPart (part : SymbolPart)
deriving DecidableEq, Repr

namespace Builtin

/-- All builtins, in the order in which they are installed. -/
def all : List Builtin :=
  [.eq, .null, .not, .atom, .funcall,
    .arithmetic .add, .arithmetic .sub, .arithmetic .mul, .arithmetic .div, .mod,
    .relation .equal, .relation .less, .relation .lessEqual, .relation .greater,
    .relation .greaterEqual,
    .trigonometric .sin, .trigonometric .cos, .trigonometric .tan,
    .car, .first, .cdr, .rest, .cons, .list,
    .symbolPart .name, .symbolPart .value, .symbolPart .function, .symbolPart .plist,
    .symbolPart .package]

/-- The name under which a builtin is installed. -/
def name : Builtin → String
  | .eq => "eq"
  | .null => "null"
  | .not => "not"
  | .atom => "atom"
  | .funcall => "funcall"
  | .arithmetic op => op.name
  | .mod => "mod"
  | .relation rel => rel.name
  | .trigonometric fn => fn.name
  | .car => "car"
  | .first => "first"
  | .cdr => "cdr"
  | .rest => "rest"
  | .cons => "cons"
  | .list => "list"
  | .symbolPart part => part.accessor

/-- The argument count that a call of a builtin is checked against. -/
def arity : Builtin → Arity
  | .eq => .exactly 2
  | .null => .exactly 1
  | .not => .exactly 1
  | .atom => .exactly 1
  | .funcall => .atLeast 1
  | .arithmetic .add => .atLeast 0
  | .arithmetic .sub => .atLeast 1
  | .arithmetic .mul => .atLeast 0
  | .arithmetic .div => .atLeast 1
  | .mod => .atLeast 1
  | .relation _ => .atLeast 2
  | .trigonometric _ => .exactly 1
  | .car => .exactly 1
  | .first => .exactly 1
  | .cdr => .exactly 1
  | .rest => .exactly 1
  | .cons => .exactly 2
  | .list => .atLeast 0
  | .symbolPart _ => .exactly 1

end Builtin

end SmallLisp
