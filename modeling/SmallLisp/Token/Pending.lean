import SmallLisp.Token.Lexer

set_option autoImplicit false

/-! # Text that asks for more

Whether a text stops in the middle of something: inside a list, inside a string, or right
after a quote. An interactive reader uses this to decide whether to wait for another line, so
the answer must not depend on any interpreter: it is found from the items alone, by counting
parentheses.
-/

namespace SmallLisp

/-- What has been seen so far: how many lists are open, and whether the last item was a
quote. -/
structure Pending where
  depth : Nat
  dangling : Bool
deriving DecidableEq, Repr

namespace Pending

/-- At the start of a text nothing is open. -/
def start : Pending := ⟨0, false⟩

/-- Takes one more token into account. A closing parenthesis too many changes nothing. -/
def next (p : Pending) : Token → Pending
  | .leftParen => ⟨p.depth + 1, false⟩
  | .rightParen => ⟨p.depth - 1, false⟩
  | .quote => ⟨p.depth, true⟩
  | _ => ⟨p.depth, false⟩

/-- Whether the items that follow leave something open. A string without an end does at
once; any other error is passed over, because more text cannot mend it. -/
def remains (p : Pending) : List Item → Bool
  | [] => decide (0 < p.depth) || p.dangling
  | item :: rest =>
      match item.content with
      | .ok t => (p.next t).remains rest
      | .error .unterminatedString => true
      | .error _ => Pending.remains ⟨p.depth, false⟩ rest

end Pending

/-- **Whether a text asks for more input.** -/
def isIncomplete (source : List Char) : Bool := Pending.start.remains (items source)

end SmallLisp
