set_option autoImplicit false

/-! # Blank characters

Two classes of blank. `isWhitespace` is the Unicode property `White_Space`, which ends an
atom and is what trimming removes. `isSkipped` is the part of it that may stand between
tokens: the space and the five ASCII controls from tab to carriage return.
-/

namespace SmallLisp.Text

/-- The blanks allowed between tokens: space, tab, line feed, vertical tab, form feed and
carriage return. -/
def isSkipped (c : Char) : Bool :=
  c == ' ' || (decide (9 ≤ c.toNat) && decide (c.toNat ≤ 13))

/-- The characters with the property `White_Space`. -/
def isWhitespace (c : Char) : Bool :=
  let n := c.toNat
  isSkipped c || n == 0x85 || n == 0xa0 || n == 0x1680 ||
    (decide (0x2000 ≤ n) && decide (n ≤ 0x200a)) || n == 0x2028 || n == 0x2029 ||
    n == 0x202f || n == 0x205f || n == 0x3000

theorem isWhitespace_of_isSkipped {c : Char} (h : isSkipped c = true) :
    isWhitespace c = true := by
  simp [isWhitespace, h]

/-- The text without the whitespace at its start. -/
def trimStart (cs : List Char) : List Char := cs.dropWhile isWhitespace

/-- The text without the whitespace at its end. -/
def trimEnd (cs : List Char) : List Char := (cs.reverse.dropWhile isWhitespace).reverse

/-- The text without the whitespace at both ends. -/
def trim (cs : List Char) : List Char := trimEnd (trimStart cs)

end SmallLisp.Text
