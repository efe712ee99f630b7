import SmallLisp.Form.Error
import SmallLisp.Interpreter
import SmallLisp.Token.Lexer

set_option autoImplicit false

/-! # Reading forms

The reader turns items into values, interning the symbols it meets. It keeps a stack of the
constructs it is inside of and takes one item at a time, so a form is complete exactly when
its last token has been taken, and reading can go on from there.

    form  ::=  integer | float | string | symbol | ' form | ( ) | ( form+ ) | ( form+ . form )

A quoted form is read as the list of the symbol `quote` and the form, `( )` as the empty list.
-/

namespace SmallLisp

/-- A construct that is being read, each waiting for a form. -/
inductive Context
  /-- Inside the list opened at the span, after the given elements in reverse order. -/
  | list (opened : Span) (items : List Value)
  /-- After the dot of such a list. -/
  | tail (opened : Span) (items : List Value)
  /-- After a quote. -/
  | quote
deriving DecidableEq

/-- What the reader waits for next, with the constructs around it, innermost first. -/
inductive Stage
  /-- A form, or the end of the list that is innermost. -/
  | form (stack : List Context)
  /-- The closing parenthesis of a list whose dotted tail is complete. -/
  | closing (opened : Span) (items : List Value) (tail : Value) (stack : List Context)
deriving DecidableEq

/-- The result of taking one token. -/
inductive Progress
  | done (form : Value)
  | more (stage : Stage)
  | failed (error : ParseError)
deriving DecidableEq

/-- **Hands a finished form to the construct it belongs to.** Quotes around it are completed
at once. -/
def deliver (lisp : Interpreter) (form : Value) : List Context → Heap → Progress × Heap
  | [], h => (.done form, h)
  | .quote :: stack, h =>
      let quote := lisp.intern h "quote"
      let list := lisp.list quote.2 [.symbol quote.1, form]
      deliver lisp list.1 stack list.2
  | .list opened items :: stack, h => (.more (.form (.list opened (form :: items) :: stack)), h)
  | .tail opened items :: stack, h => (.more (.closing opened items form stack), h)

/-- Takes a token where a form may begin or a list may end. -/
def takeForm (lisp : Interpreter) (token : Located Token) (stack : List Context) (h : Heap) :
    Progress × Heap :=
  match token.content with
  | .leftParen => (.more (.form (.list token.span [] :: stack)), h)
  | .quote => (.more (.form (.quote :: stack)), h)
  | .integer i =>
      let made := h.alloc (.number · (.integer i))
      deliver lisp made.1 stack made.2
  | .float x =>
      let made := h.alloc (.number · (.float x))
      deliver lisp made.1 stack made.2
  | .string s =>
      let made := h.alloc (.string · s)
      deliver lisp made.1 stack made.2
  | .symbol name =>
      let symbol := lisp.intern h name
      deliver lisp (.symbol symbol.1) stack symbol.2
  | .rightParen =>
      match stack with
      | .list _ items :: outer =>
          let list := lisp.list h items.reverse
          deliver lisp list.1 outer list.2
      | _ => (.failed (.unexpectedToken token .expression), h)
  | .dot =>
      match stack with
      | .list opened (x :: xs) :: outer => (.more (.form (.tail opened (x :: xs) :: outer)), h)
      | _ => (.failed (.invalidDot token.span), h)

/-- **Takes one token.** -/
def Stage.take (lisp : Interpreter) (token : Located Token) (h : Heap) : Stage → Progress × Heap
  | .form stack => takeForm lisp token stack h
  | .closing _ items tail stack =>
      match token.content with
      | .rightParen =>
          let list := h.listWithTail tail items.reverse
          deliver lisp list.1 stack list.2
      | _ => (.failed (.unexpectedToken token .closingParen), h)

/-- The error when the input ends at a stage: inside a list it is the innermost open list that
is reported, right after a quote it is the missing form. -/
def Stage.atEnd : Stage → ParseError
  | .form [] => .unexpectedEnd .expression
  | .form (.quote :: _) => .unexpectedEnd .quotedExpression
  | .form (.list opened _ :: _) => .unclosedList opened
  | .form (.tail opened _ :: _) => .unclosedList opened
  | .closing opened _ _ _ => .unclosedList opened

/-- **A reader** on a source text: the items still to be taken, the offset just past the last
one that was, and the length of the source. -/
structure Reader where
  pending : List Item
  position : Nat
  length : Nat

/-- The outcome of reading one form, with the reader and the heap as they are afterwards. -/
structure Reading where
  result : Except ParseError Value
  reader : Reader
  heap : Heap

namespace Reader

/-- A reader at the start of a source text. -/
def ofSource (source : List Char) : Reader := ⟨items source, 0, Text.byteLength source⟩

/-- Takes items from a stage on until a form is complete or reading fails. -/
def run (lisp : Interpreter) (length : Nat) : Stage → List Item → Heap → Reading
  | stage, [], h => ⟨.error stage.atEnd, ⟨[], length, length⟩, h⟩
  | stage, item :: rest, h =>
      let after : Reader := ⟨rest, item.span.stop, length⟩
      match item.content with
      | .error e => ⟨.error (.lexical ⟨item.span, e⟩), after, h⟩
      | .ok token =>
          match stage.take lisp ⟨item.span, token⟩ h with
          | (.done form, h) => ⟨.ok form, after, h⟩
          | (.failed e, h) => ⟨.error e, after, h⟩
          | (.more stage, h) => run lisp length stage rest h

/-- **Reads one form**; the end of the input is an error. -/
def read (r : Reader) (lisp : Interpreter) (h : Heap) : Reading :=
  run lisp r.length (.form []) r.pending h

/-- Reads the next form, or nothing at the end of the input. After an error this goes on
behind the item that caused it, and whatever list was open is forgotten. -/
def next? (r : Reader) (lisp : Interpreter) (h : Heap) : Option Reading :=
  if r.pending.isEmpty then none else some (r.read lisp h)

/-- The reader once it has been asked for a form and there was none: it stands at the end of the
source. -/
def finish (r : Reader) : Reader := { r with position := r.length }

theorem pending_run_length (lisp : Interpreter) (length : Nat) (stage : Stage)
    (items : List Item) (h : Heap) :
    (run lisp length stage items h).reader.pending.length ≤ items.length - 1 := by
  induction items generalizing stage h with
  | nil => simp [run]
  | cons item rest ih =>
      unfold run
      split
      · simp
      · split
        · simp
        · simp
        · rename_i next h' _
          have := ih next h'
          simp only [List.length_cons]
          omega

/-- Every form takes at least one item. -/
theorem pending_next?_length {r : Reader} {lisp : Interpreter} {h : Heap} {out : Reading}
    (hout : r.next? lisp h = some out) :
    out.reader.pending.length < r.pending.length := by
  unfold next? at hout
  split at hout
  · cases hout
  · rename_i hne
    cases hout
    have := pending_run_length lisp r.length (.form []) r.pending h
    have pos : 0 < r.pending.length := by
      cases hp : r.pending with
      | nil => simp [hp] at hne
      | cons _ _ => simp
    simp only [read]
    omega

end Reader

/-- **Reads a text that holds exactly one form.** -/
def readText (lisp : Interpreter) (source : List Char) (h : Heap) :
    Except ParseError Value × Heap :=
  let reading := (Reader.ofSource source).read lisp h
  match reading.result with
  | .error e => (.error e, reading.heap)
  | .ok form =>
      match reading.reader.pending with
      | [] => (.ok form, reading.heap)
      | item :: _ =>
          match item.content with
          | .ok token => (.error (.unexpectedToken ⟨item.span, token⟩ .endOfInput), reading.heap)
          | .error e => (.error (.lexical ⟨item.span, e⟩), reading.heap)

/-- The readings of successive forms, each with the reader as it is afterwards. With
`pastErrors` an error does not end the sequence. -/
def Reader.readAll (lisp : Interpreter) (pastErrors : Bool) (r : Reader) (h : Heap) :
    List Reading × Reader × Heap :=
  match _hnext : r.next? lisp h with
  | none => ([], r.finish, h)
  | some reading =>
      if !pastErrors && !reading.result.isOk then
        ([reading], reading.reader, reading.heap)
      else
        let later := Reader.readAll lisp pastErrors reading.reader reading.heap
        (reading :: later.1, later.2)
termination_by r.pending.length
decreasing_by exact pending_next?_length _hnext

end SmallLisp
