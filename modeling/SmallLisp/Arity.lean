set_option autoImplicit false

/-! # Argument counts -/

namespace SmallLisp

/-- **How many arguments an operator takes**: `required` of them, or at least that many. -/
structure Arity where
  required : Nat
  variadic : Bool
deriving DecidableEq, Repr

namespace Arity

/-- Exactly `n` arguments. -/
def exactly (n : Nat) : Arity := ⟨n, false⟩

/-- `n` arguments or more. -/
def atLeast (n : Nat) : Arity := ⟨n, true⟩

/-- Whether a call with `count` arguments is allowed. -/
def accepts (a : Arity) (count : Nat) : Bool :=
  if a.variadic then decide (a.required ≤ count) else decide (count = a.required)

/-- The wording used in messages: `exactly 2`, `at least 2`. -/
def text (a : Arity) : String :=
  (if a.variadic then "at least " else "exactly ") ++ toString a.required

@[simp]
theorem accepts_exactly (n count : Nat) : (exactly n).accepts count = decide (count = n) := rfl

@[simp]
theorem accepts_atLeast (n count : Nat) : (atLeast n).accepts count = decide (n ≤ count) := rfl

end Arity

end SmallLisp
