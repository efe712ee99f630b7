import SmallLisp.Decimal.Shortest

set_option autoImplicit false

/-! # Notations for floats

The two ways a float is written. Values are shown in scientific notation, with one digit
before the point, no trailing zeros, and an exponent of at least two digits that always
carries its sign: `3.14E+00`, `1E+02`, `5E-324`. Messages about tokens show the same digits
positionally and never with an exponent: `2.5`, `100`, `0.00001`.
-/

namespace SmallLisp.Decimal

/-- Digits with a point after the first; a single digit has no point. -/
def pointAfterFirst : List Char → List Char
  | [] => []
  | [d] => [d]
  | d :: ds => d :: '.' :: ds

/-- An exponent with its sign and at least two digits. -/
def signedExponent (e : Int) : List Char :=
  let ds := digits e.natAbs
  (if e < 0 then '-' else '+') :: (if ds.length < 2 then '0' :: ds else ds)

/-- `d.dddE±xx`. -/
def Scaled.scientific (d : Scaled) : List Char :=
  let ds := digits d.coefficient
  pointAfterFirst ds ++ 'E' :: signedExponent (d.exponent + ds.length - 1)

/-- All digits in place, with zeros filled in on either side of the point. -/
def Scaled.positional (d : Scaled) : List Char :=
  let ds := digits d.coefficient
  if 0 ≤ d.exponent then
    ds ++ List.replicate d.exponent.toNat '0'
  else
    let places := (-d.exponent).toNat
    if places < ds.length then
      ds.take (ds.length - places) ++ '.' :: ds.drop (ds.length - places)
    else
      '0' :: '.' :: (List.replicate (places - ds.length) '0' ++ ds)

/-- Puts a minus sign in front when the sign bit is set. -/
def signed (x : Float) (cs : List Char) : List Char :=
  if isNegative x then '-' :: cs else cs

/-- **Scientific notation**, the text of a float value. Not-a-number has no sign, the
infinities always have one. -/
def scientific (x : Float) : List Char :=
  match magnitude x with
  | .notANumber => ['N', 'a', 'N']
  | .infinite => if isNegative x then ['-', 'I', 'n', 'f'] else ['+', 'I', 'n', 'f']
  | .finite d => signed x d.scientific

/-- **Positional notation**, the text of a float inside a message about a token. -/
def positional (x : Float) : List Char :=
  match magnitude x with
  | .notANumber => ['N', 'a', 'N']
  | .infinite => signed x ['i', 'n', 'f']
  | .finite d => signed x d.positional

end SmallLisp.Decimal
