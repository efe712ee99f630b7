import SmallLisp.Number
import SmallLisp.Operator

set_option autoImplicit false

/-! # Values

Everything a program handles is a `Value`. Each value carries the identity it got when it was
allocated, and `eq` compares nothing else. A value is a finite tree that never changes:
whatever can change (the cells of a symbol, the variables of a scope) lives in the heap under
the identity of its owner. So lists cannot be circular, and walking or printing one always
ends.
-/

namespace SmallLisp

/-- The identity of an object. -/
abbrev ObjectId := Nat

/-- **A symbol.** Its name is an object of its own, with identity `nameId`. The empty list is
the one symbol marked `isNil`; a symbol that is merely called `nil` is not the empty list.
`home` is the identity of the package that the symbol was made for. -/
structure Symbol where
  id : ObjectId
  name : String
  nameId : ObjectId
  isNil : Bool
  home : ObjectId
deriving DecidableEq, Repr

/-- **A value.** -/
inductive Value
  | number (id : ObjectId) (n : Number)
  | string (id : ObjectId) (s : String)
  | symbol (s : Symbol)
  | cons (id : ObjectId) (car cdr : Value)
  | package (id : ObjectId) (name : String)
  | specialForm (id : ObjectId) (form : SpecialForm)
  | builtin (id : ObjectId) (op : Builtin)
  /-- A closure, with its name if it has one. Its code is in the heap. -/
  | closure (id : ObjectId) (name : Option Symbol)
deriving DecidableEq

namespace Value

/-- The identity of a value. -/
def id : Value → ObjectId
  | .number id _ => id
  | .string id _ => id
  | .symbol s => s.id
  | .cons id _ _ => id
  | .package id _ => id
  | .specialForm id _ => id
  | .builtin id _ => id
  | .closure id _ => id

/-- **Identity**, the only equality that programs see. -/
def same (a b : Value) : Bool := a.id == b.id

/-- The name of a value's type. -/
def typeName : Value → String
  | .number _ n => n.kindName
  | .string _ _ => "string"
  | .symbol _ => "symbol"
  | .cons _ _ _ => "cons"
  | .package _ _ => "package"
  | .specialForm _ _ => "special-form"
  | .builtin _ _ => "builtin"
  | .closure _ _ => "function"

/-- Numbers, strings and symbols are atoms; so is the empty list. -/
def isAtom : Value → Bool
  | .number _ _ => true
  | .string _ _ => true
  | .symbol _ => true
  | _ => false

/-- Whether a value is an empty list, which is also what counts as false. -/
def isNil : Value → Bool
  | .symbol s => s.isNil
  | _ => false

/-- **The elements of a proper list.** Anything else, such as a list with a dotted tail, has
none. -/
def items? : Value → Option (List Value)
  | .symbol s => if s.isNil then some [] else none
  | .cons _ car cdr => cdr.items?.map (car :: ·)
  | _ => none

/-- The name of a symbol, as the string object that belongs to it. -/
def nameOf (s : Symbol) : Value := .string s.nameId s.name

end Value

end SmallLisp
