import SmallLisp.Text.Quoted
import SmallLisp.Value.Basic

set_option autoImplicit false

/-! # Printing

The text of a value. Numbers, strings, symbols and lists are written as the reader reads them;
every other kind has an unreadable description between `#<` and `>`.
-/

namespace SmallLisp.Value

/-- The text of a value that is not a cons. -/
def atomChars : Value → List Char
  | .number _ n => n.chars
  | .string _ s => Text.literal s.toList
  | .symbol s => s.name.toList
  | .cons _ _ _ => []
  | .package _ name => "#<package ".toList ++ name.toList ++ ['>']
  | .specialForm _ form => "#<special-form ".toList ++ form.name.toList ++ ['>']
  | .builtin _ op => "#<builtin ".toList ++ op.name.toList ++ ['>']
  | .closure _ (some s) => "#<function ".toList ++ s.name.toList ++ ['>']
  | .closure _ none => "#<function lambda>".toList

/-- The text of a value, either on its own or, with `inTail`, as what follows the elements of
a list already written: further elements, a dotted tail or nothing, and the closing
parenthesis. -/
def render (inTail : Bool) : Value → List Char
  | .cons _ car cdr =>
      (if inTail then ' ' else '(') :: (render false car ++ render true cdr)
  | v =>
      if inTail then
        if v.isNil then [')'] else ' ' :: '.' :: ' ' :: (v.atomChars ++ [')'])
      else v.atomChars

/-- **The text of a value** as a character list. -/
def chars (v : Value) : List Char := render false v

/-- The text of a value. -/
def text (v : Value) : String := String.ofList v.chars

end SmallLisp.Value
