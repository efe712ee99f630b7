import SmallLisp.Decimal.Notation

set_option autoImplicit false

/-! # Numbers

The two kinds of number: 64-bit integers and doubles. Integer arithmetic is exact or fails:
every operation computes over the unbounded integers and then checks the range, so a result
never wraps. As soon as one operand is a float both are taken as floats and the result is a
float.
-/

namespace SmallLisp

/-- A number value. -/
inductive Number
  | integer (i : Int64)
  | float (x : Float)
deriving DecidableEq

/-- Why an arithmetic operation has no result. -/
inductive ArithmeticError
  | divisionByZero
  | overflow
deriving DecidableEq, Repr

/-- The wording of an arithmetic error. -/
def ArithmeticError.message : ArithmeticError → String
  | .divisionByZero => "division by zero"
  | .overflow => "integer overflow"

namespace Number

/-- Whether `n` is in the range of a 64-bit integer. -/
def InRange (n : Int) : Prop := -9223372036854775808 ≤ n ∧ n ≤ 9223372036854775807

instance (n : Int) : Decidable (InRange n) := inferInstanceAs (Decidable (_ ∧ _))

/-- **The range check.** An exact result becomes an integer if it fits and is an overflow
otherwise. -/
def fit (n : Int) : Except ArithmeticError Int64 :=
  if InRange n then .ok (Int64.ofInt n) else .error .overflow

/-- The float nearest to a number; ties between two floats go to the even one. -/
def toFloat : Number → Float
  | .integer i => Float.ofInt i.toInt
  | .float x => x

/-- Combines two numbers: exactly when both are integers, as floats otherwise. -/
def combine (exact : Int → Int → Int) (rounded : Float → Float → Float) :
    Number → Number → Except ArithmeticError Number
  | .integer a, .integer b => .integer <$> fit (exact a.toInt b.toInt)
  | a, b => .ok (.float (rounded a.toFloat b.toFloat))

/-- The sum of two numbers. -/
def add : Number → Number → Except ArithmeticError Number := combine (· + ·) (· + ·)

/-- The difference of two numbers. -/
def sub : Number → Number → Except ArithmeticError Number := combine (· - ·) (· - ·)

/-- The product of two numbers. -/
def mul : Number → Number → Except ArithmeticError Number := combine (· * ·) (· * ·)

/-- The quotient of two numbers, truncated toward zero on integers. Only an integer zero
that divides an integer is an error; floats have infinities. -/
def div : Number → Number → Except ArithmeticError Number
  | .integer a, .integer b =>
      if b = 0 then .error .divisionByZero else .integer <$> fit (a.toInt.tdiv b.toInt)
  | a, b => .ok (.float (a.toFloat / b.toFloat))

/-- The number with its sign changed. -/
def negate : Number → Except ArithmeticError Number
  | .integer i => .integer <$> fit (-i.toInt)
  | .float x => .ok (.float (-x))

/-- **The floored remainder**, which takes the sign of the divisor: the truncated remainder,
with the divisor added when the two differ in sign. The least integer divided by `-1` has no
quotient and counts as an overflow. -/
def mod (a b : Int64) : Except ArithmeticError Int64 :=
  if b = 0 then .error .divisionByZero
  else do
    let _ ← fit (a.toInt.tdiv b.toInt)
    let r := a.toInt.tmod b.toInt
    if r ≠ 0 ∧ (decide (r < 0) != decide (b.toInt < 0)) then fit (r + b.toInt) else fit r

/-- The order of two floats, undefined if either is not a number. -/
def compareFloats (x y : Float) : Option Ordering :=
  if x < y then some .lt
  else if y < x then some .gt
  else if x == y then some .eq
  else none

/-- The numeric order across kinds. Integers are compared exactly; any other pair is
compared as floats. -/
def compare : Number → Number → Option Ordering
  | .integer a, .integer b => some (Ord.compare a.toInt b.toInt)
  | a, b => compareFloats a.toFloat b.toFloat

/-- Same kind and equal content. As floats are equal, the two zeros are equal and
not-a-number equals nothing. -/
def same : Number → Number → Bool
  | .integer a, .integer b => a == b
  | .float x, .float y => x == y
  | _, _ => false

/-- The decimal text of an integer. -/
def integerChars (n : Int) : List Char :=
  if n < 0 then '-' :: Decimal.digits n.natAbs else Decimal.digits n.natAbs

/-- The text of a number as a character list. -/
def chars : Number → List Char
  | .integer i => integerChars i.toInt
  | .float x => Decimal.scientific x

/-- The text of a number. -/
def text (n : Number) : String := String.ofList n.chars

/-- The name of a number's kind. -/
def kindName : Number → String
  | .integer _ => "integer"
  | .float _ => "float"

/-! ## Range of the integers -/

theorem inRange_toInt (i : Int64) : InRange i.toInt := by
  have lower := i.le_toInt
  have upper := i.toInt_lt
  exact ⟨by omega, by omega⟩

/-- An integer that fits is represented exactly. -/
theorem toInt_of_fit {n : Int} {i : Int64} (h : fit n = .ok i) : i.toInt = n := by
  unfold fit at h
  split at h
  · rename_i hr
    cases h
    exact Int64.toInt_ofInt_of_le hr.1 (Int.lt_add_one_of_le hr.2)
  · cases h

end Number

end SmallLisp
