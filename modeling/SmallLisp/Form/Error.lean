import SmallLisp.Token.Basic

set_option autoImplicit false

/-! # Errors of reading -/

namespace SmallLisp

/-- What the reader was waiting for. -/
inductive Expectation
  | expression
  | quotedExpression
  | closingParen
  | endOfInput
deriving DecidableEq, Repr

/-- The wording of an expectation. -/
def Expectation.text : Expectation → String
  | .expression => "an expression"
  | .quotedExpression => "an expression after quote"
  | .closingParen => "')' after dotted pair"
  | .endOfInput => "end of input"

/-- **Why a text cannot be read as a form.** -/
inductive ParseError
  | unexpectedToken (found : Located Token) (expected : Expectation)
  | unexpectedEnd (expected : Expectation)
  /-- A list that the input ends inside of, with the span of its opening parenthesis. -/
  | unclosedList (opened : Span)
  | lexical (error : Located LexicalError)
  | invalidDot (span : Span)
deriving DecidableEq

/-- The wording of an error of reading. -/
def ParseError.message : ParseError → String
  | .unexpectedToken found expected =>
      "Parse Error: Unexpected token " ++ found.tokenText ++ ", expected " ++ expected.text
  | .unexpectedEnd expected => "Parse Error: Unexpected end of input. Expected " ++ expected.text
  | .unclosedList opened => "Parse Error: List opened at [" ++ opened.text ++ "] is never closed"
  | .lexical error => "Lexer Error: " ++ error.errorText
  | .invalidDot span => "Parse Error: Invalid syntax for dotted pair at [" ++ span.text ++ "]"

/-- Where in the source an error of reading lies; the end of the input has no span. -/
def ParseError.span? : ParseError → Option Span
  | .unexpectedToken found _ => some found.span
  | .unexpectedEnd _ => none
  | .unclosedList opened => some opened
  | .lexical error => some error.span
  | .invalidDot span => some span

end SmallLisp
