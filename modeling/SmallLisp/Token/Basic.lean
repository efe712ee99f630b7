import SmallLisp.Number
import SmallLisp.Source.Span
import SmallLisp.Text.Quoted

set_option autoImplicit false

/-! # Tokens

What the lexer finds in a source text: a token, or an error where no token can be made, each
with the span it covers.
-/

namespace SmallLisp

/-- **A token.** Numbers and strings carry their value, symbols their name. -/
inductive Token
  | leftParen
  | rightParen
  | dot
  | quote
  | integer (i : Int64)
  | float (x : Float)
  | string (s : String)
  | symbol (name : String)
deriving DecidableEq

/-- The wording of a token in messages. Floats are written positionally and strings as
exhibits, so that nothing in them is hidden. -/
def Token.text : Token → String
  | .leftParen => "("
  | .rightParen => ")"
  | .dot => "."
  | .quote => "'"
  | .integer i => String.ofList (Number.integerChars i.toInt)
  | .float x => String.ofList (Decimal.positional x)
  | .string s => String.ofList (Text.exhibit s.toList)
  | .symbol name => name

/-- **Why a stretch of text is no token.** -/
inductive LexicalError
  /-- A string that the input ends inside of. -/
  | unterminatedString
  /-- An atom that begins like a number and is none, or an integer out of range. -/
  | invalidNumber (text : String)
  /-- Any other atom that is no symbol. -/
  | invalidSymbol (text : String)
  /-- A character that can begin nothing. -/
  | invalidToken
deriving DecidableEq, Repr

/-- The wording of a lexical error. -/
def LexicalError.message : LexicalError → String
  | .unterminatedString => "Unterminated string literal"
  | .invalidNumber text => "Invalid number format: '" ++ text ++ "'"
  | .invalidSymbol text => "Invalid symbol: '" ++ text ++ "' must be followed by a delimiter"
  | .invalidToken => "Invalid token"

/-- Something with the span of source text that it comes from. -/
structure Located (α : Type) where
  span : Span
  content : α
deriving DecidableEq

/-- The wording of a token with its place: `'(' at 0..1`. -/
def Located.tokenText (t : Located Token) : String :=
  "'" ++ t.content.text ++ "' at " ++ t.span.text

/-- The wording of a lexical error with its place. -/
def Located.errorText (e : Located LexicalError) : String :=
  e.content.message ++ " at " ++ e.span.text

/-- **What the lexer yields**: a token or an error, with its span. -/
abbrev Item := Located (Except LexicalError Token)

end SmallLisp
