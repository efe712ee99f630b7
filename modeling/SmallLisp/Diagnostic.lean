import SmallLisp.Program
import SmallLisp.Source.Location
import SmallLisp.Text.Blank

set_option autoImplicit false

/-! # Diagnostics

How a failure is shown to whoever wrote the source: a message, the span of text it is about, a
label under that span, and sometimes a line of help. Errors of reading point at the text they
complain about. Errors of evaluation do not know where they arose and cover the whole source.
-/

namespace SmallLisp

/-- **A diagnostic.** One without a label is shown as its message alone. -/
structure Diagnostic where
  message : String
  span : Span
  label : Option String
  help : Option String
deriving DecidableEq, Repr

namespace Diagnostic

/-- The diagnostic of an error of reading. The end of the input is shown as the empty span
behind the source. -/
def ofParseError (source : List Char) : ParseError → Diagnostic
  | .unexpectedToken found expected =>
      ⟨"Unexpected token: " ++ found.content.text, found.span,
        some ("Expected " ++ expected.text), none⟩
  | .unexpectedEnd expected =>
      ⟨"Unexpected end of input", ⟨Text.byteLength source, Text.byteLength source⟩,
        some ("Expected " ++ expected.text), none⟩
  | .unclosedList opened =>
      ⟨"Unclosed list", opened, some "This '(' has no matching ')'", none⟩
  | .lexical error =>
      ⟨"Lexer Error", error.span, some error.content.message,
        match error.content with
        | .invalidSymbol _ =>
            some "Symbols and numbers must end at whitespace, a parenthesis, '\"' or ';'"
        | _ => none⟩
  | .invalidDot span =>
      ⟨"Invalid Dot Syntax", span, some "A dot may only precede the last element of a list",
        none⟩

/-- What the label of an error of evaluation says. -/
def hint : EvalError → String
  | .unboundVariable _ => "This symbol has no lexical binding or global value"
  | .undefinedFunction _ => "This symbol's function cell is empty"
  | .wrongArgumentCount _ _ => "Check the number of arguments in this call"
  | .unsupportedArgument _ _ => "An argument has the wrong type"
  | .notCallable _ => "The head of a form must name a function"
  | .notEvaluable _ => "Only numbers, strings, symbols and lists evaluate"
  | .malformed _ => "This form does not have the expected shape"
  | .arithmetic _ _ => "Arithmetic failed while evaluating this form"

/-- **The diagnostic of a failure** in a source text. -/
def ofFailure (source : List Char) : Failure → Diagnostic
  | .parse e => ofParseError source e
  | .eval e => ⟨e.message, ⟨0, Text.byteLength (Text.trimEnd source)⟩, some (hint e), none⟩
  | .file path e => ⟨(Failure.file path e).message, ⟨0, 0⟩, none, none⟩
  | .exhausted => ⟨Failure.exhausted.message, ⟨0, 0⟩, none, none⟩

end Diagnostic

/-- A diagnostic as it is shown: with the place its span starts at, under the name of the
source. -/
structure Report where
  message : String
  label : Option String
  help : Option String
  location : Option String
deriving DecidableEq, Repr

namespace Report

/-- The message and nothing else. -/
def bare (message : String) : Report := ⟨message, none, none, none⟩

/-- **Shows a diagnostic.** Offsets are looked up as counts of characters; where that leads out
of the source, or where there is no label, only the message is shown. -/
def ofDiagnostic (name : String) (source : List Char) (d : Diagnostic) : Report :=
  match d.label, Location.of? source d.span.start with
  | some label, some place =>
      if d.span.start < d.span.stop ∧ source.length < d.span.stop - 1 then bare d.message
      else ⟨d.message, some label, d.help, some (place.text name)⟩
  | _, _ => bare d.message

/-- Shows a failure in a named source. -/
def ofFailure (name : String) (source : List Char) (e : Failure) : Report :=
  ofDiagnostic name source (Diagnostic.ofFailure source e)

end Report

end SmallLisp
