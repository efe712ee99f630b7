import SmallLisp.Prompt.Parens

set_option autoImplicit false

/-! # Highlighting

Colours a line for a terminal. Strings, numbers, quotes and errors always have their colour;
parentheses have one only when the cursor stands behind one of a matching pair. Colour is added
piece by piece, so the line itself is unchanged between the escape sequences.
-/

namespace SmallLisp.Prompt

/-- The colours in use. -/
inductive Colour
  | green
  | yellow
  | magenta
  | boldBlue
  | red
deriving DecidableEq, Repr

/-- The code of a colour in an escape sequence. -/
def Colour.code : Colour → String
  | .green => "32"
  | .yellow => "33"
  | .magenta => "35"
  | .boldBlue => "1;34"
  | .red => "31"

/-- The escape sequence that switches to a colour. -/
def Colour.start (c : Colour) : List Char := ('\x1b' :: '[' :: c.code.toList) ++ ['m']

/-- The escape sequence that switches back. -/
def reset : List Char := ['\x1b', '[', '0', 'm']

/-- A text in a colour, or as it is. -/
def painted (colour : Option Colour) (text : List Char) : List Char :=
  match colour with
  | some c => c.start ++ text ++ reset
  | none => text

/-- The pair of parentheses to show: the one directly before the cursor and its partner. -/
def shownPair? (line : List Char) (cursor : Nat) : Option (Nat × Nat) :=
  if cursor = 0 then none
  else (matchingParen? line (cursor - 1)).map fun partner => (cursor - 1, partner)

/-- The colour of a piece that starts at the given offset. -/
def colourOf (pair : Option (Nat × Nat)) (start : Nat) : Rule.Content → Option Colour
  | .skipped => none
  | .error _ => some .red
  | .token (.string _) => some .green
  | .token (.integer _) => some .yellow
  | .token (.float _) => some .yellow
  | .token .quote => some .magenta
  | .token .leftParen | .token .rightParen =>
      if pair.any fun p => p.1 == start || p.2 == start then some .boldBlue else none
  | .token .dot => none
  | .token (.symbol _) => none

/-- Paints consecutive pieces, the first of which starts at the given offset. -/
def paint (pair : Option (Nat × Nat)) (start : Nat) : List Piece → List Char
  | [] => []
  | p :: ps =>
      painted (colourOf pair start p.content) p.text ++
        paint pair (start + Text.byteLength p.text) ps

/-- **A line in colour**, with the cursor at the given offset. -/
def highlight (line : List Char) (cursor : Nat) : List Char :=
  paint (shownPair? line cursor) 0 (pieces line)

end SmallLisp.Prompt
