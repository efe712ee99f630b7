import SmallLisp.Token.Lexer

set_option autoImplicit false

/-! # Matching parentheses

Which parenthesis of a line belongs to which. Only parenthesis tokens count: those inside
strings and comments do not, and lexical errors are passed over.
-/

namespace SmallLisp.Prompt

/-- A parenthesis token: where it starts and whether it opens. -/
structure Paren where
  start : Nat
  opens : Bool
deriving DecidableEq, Repr

/-- The parenthesis that an item is, if any. -/
def Paren.ofItem? (item : Item) : Option Paren :=
  match item.content with
  | .ok .leftParen => some ⟨item.span.start, true⟩
  | .ok .rightParen => some ⟨item.span.start, false⟩
  | _ => none

/-- The parentheses of a line. -/
def parens (line : List Char) : List Paren := (items line).filterMap Paren.ofItem?

/-- Finds the partner of the parenthesis at an offset, given those open so far, innermost
first. A closing parenthesis without partner ends the search. -/
def partner? (offset : Nat) : List Nat → List Paren → Option Nat
  | _, [] => none
  | stack, p :: ps =>
      if p.opens then partner? offset (p.start :: stack) ps
      else
        match stack with
        | [] => none
        | opened :: stack =>
            if opened = offset then some p.start
            else if p.start = offset then some opened
            else partner? offset stack ps

/-- **The offset of the matching parenthesis**, if there is one at the given offset and it has
a partner. -/
def matchingParen? (line : List Char) (offset : Nat) : Option Nat :=
  partner? offset [] (parens line)

end SmallLisp.Prompt
