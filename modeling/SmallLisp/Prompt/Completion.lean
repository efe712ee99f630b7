import SmallLisp.Interpreter
import SmallLisp.Token.Lexer

set_option autoImplicit false

/-! # Completion

Proposes how a symbol under the cursor might go on, from the names that are interned. Nothing is
interned on the way.
-/

namespace SmallLisp.Prompt

/-- The symbol that ends exactly at the cursor, if the text before it has one and lexes without
error. -/
def symbolBefore? (line : List Char) (cursor : Nat) : Option (List Char) :=
  match tokenize (Text.takeBytes cursor line) with
  | .error _ => none
  | .ok tokens =>
      match tokens.getLast? with
      | some ⟨span, .symbol name⟩ => if span.stop = cursor then some name.toList else none
      | _ => none

/-- What is missing from the typed text to a longer name that begins with it. -/
def remainder? (typed name : List Char) : Option (List Char) :=
  if typed.isPrefixOf name && decide (typed.length < name.length) then
    some (name.drop typed.length)
  else none

/-- **The completions at a cursor**: the rest of every interned name that goes on from the
symbol before it, in increasing order. -/
def completions (lisp : Interpreter) (h : Heap) (line : List Char) (cursor : Nat) :
    List String :=
  match symbolBefore? line cursor with
  | none => []
  | some typed =>
      (h.symbolNames lisp.package).filterMap fun name =>
        (remainder? typed name.toList).map String.ofList

/-- What the prompt is offered: where in the line the completions go, and the completions. -/
structure Offer where
  start : Nat
  candidates : List String
deriving DecidableEq, Repr

/-- **Completes a line** in a heap. The completions go where the cursor is. -/
def complete (lisp : Interpreter) (line : List Char) (cursor : Nat) (h : Heap) : Offer × Heap :=
  (⟨cursor, completions lisp h line cursor⟩, h)

end SmallLisp.Prompt
