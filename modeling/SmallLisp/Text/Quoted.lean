import SmallLisp.Text.Invisible

set_option autoImplicit false

/-! # Quoted strings

Two ways to write a string between double quotes.

* A **literal** is what the printer writes and the reader reads back: a quote and a backslash
  are preceded by a backslash, a line feed becomes `\n`, and every other character stands for
  itself.
* An **exhibit** is how a message shows a string token: the usual short escapes, and any
  character without a visible form by its code point.
-/

namespace SmallLisp.Text

/-- One character inside a literal. -/
def literalChar (c : Char) : List Char :=
  if c = '"' then ['\\', '"']
  else if c = '\\' then ['\\', '\\']
  else if c = '\n' then ['\\', 'n']
  else [c]

/-- **The literal of a string**, quotes included. -/
def literal (s : List Char) : List Char := '"' :: (s.flatMap literalChar ++ ['"'])

/-- Reads the body of a literal after its opening quote: the pair `\n` is a line feed, any
other escaped character stands for itself, and the first quote that is not escaped ends the
string. Without such a quote there is no string. -/
def unescape : List Char → Option (List Char)
  | [] => none
  | ['\\'] => none
  | '\\' :: c :: cs => (unescape cs).map ((if c = 'n' then '\n' else c) :: ·)
  | c :: cs => if c = '"' then some [] else (unescape cs).map (c :: ·)

/-- One character inside an exhibit. -/
def exhibitChar (c : Char) : List Char :=
  if c = '"' then ['\\', '"']
  else if c = '\\' then ['\\', '\\']
  else if c = '\n' then ['\\', 'n']
  else if c = '\r' then ['\\', 'r']
  else if c = '\t' then ['\\', 't']
  else if c = '\x00' then ['\\', '0']
  else if isInvisible c then
    ['\\', 'u', '\x7b'] ++ Nat.toDigits 16 c.toNat ++ ['\x7d']
  else [c]

/-- **The exhibit of a string**, quotes included. -/
def exhibit (s : List Char) : List Char := '"' :: (s.flatMap exhibitChar ++ ['"'])

end SmallLisp.Text
