set_option autoImplicit false

/-! # Lines and columns

A line ends with a line terminator, which belongs to it; a carriage return directly before a
line feed is one terminator together with it. A text that ends in a terminator has no further
line, so the offset at its very end still belongs to the last line.
-/

namespace SmallLisp

/-- A place in a text, counted from 1. -/
structure Location where
  line : Nat
  column : Nat
deriving DecidableEq, Repr

namespace Location

/-- How a place in a named source is written: `name:2:7`. -/
def text (name : String) (place : Location) : String :=
  name ++ ":" ++ toString place.line ++ ":" ++ toString place.column

/-- The characters that end a line. -/
def isTerminator (c : Char) : Bool :=
  c == '\n' || c == '\r' || c == '\x0b' || c == '\x0c' || c == '\u0085' || c == '\u2028' ||
    c == '\u2029'

/-- Whether a line ends after the character `c` when `rest` follows. -/
def breaksAfter (c : Char) (rest : List Char) : Bool :=
  isTerminator c && !rest.isEmpty && !(c == '\r' && rest.head? == some '\n')

/-- The place that is `offset` characters further on; `none` beyond the end of the text. -/
def advance (here : Location) : Nat → List Char → Option Location
  | 0, _ => some here
  | _ + 1, [] => none
  | offset + 1, c :: rest =>
      if breaksAfter c rest then advance ⟨here.line + 1, 1⟩ offset rest
      else advance ⟨here.line, here.column + 1⟩ offset rest

/-- **The place of an offset** in a text. -/
def of? (source : List Char) (offset : Nat) : Option Location := advance ⟨1, 1⟩ offset source

end Location

end SmallLisp
