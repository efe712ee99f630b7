import SmallLisp.Diagnostic
import SmallLisp.Token.Pending

set_option autoImplicit false

/-! # A conversation at the prompt

The program as a whole: it loads the files it is given, then reads units of input, evaluates
their forms and prints the values. A unit is a line, or several lines as long as what has been
read asks for more. The transcript says all that is written and how the program ends.
-/

namespace SmallLisp.Prompt

/-! ## Units of input -/

/-- A line of input and the line ending that was taken off it. -/
structure InputLine where
  text : List Char
  ending : List Char
deriving DecidableEq, Repr

/-- A line that was ended by a line feed. A carriage return before it is part of the ending. -/
def InputLine.ended (line : List Char) : InputLine :=
  if line.getLast? = some '\r' then ⟨line.dropLast, ['\r', '\n']⟩ else ⟨line, ['\n']⟩

/-- The lines of the input, given the characters read of the first one in reverse order. What
stands behind the last line feed is a line too, unless it is empty. -/
def inputLines (line : List Char) : List Char → List InputLine
  | [] => if line.isEmpty then [] else [⟨line.reverse, []⟩]
  | c :: cs =>
      if c = '\n' then .ended line.reverse :: inputLines [] cs else inputLines (c :: line) cs

/-- **The units of the input.** Lines are joined, with their endings put back, while they are
incomplete; if the input ends then, the unfinished text is dropped. -/
def joinLines (pending : List Char) : List InputLine → List (List Char)
  | [] => []
  | line :: lines =>
      let text := pending ++ line.text
      if isIncomplete text then joinLines (text ++ line.ending) lines
      else text :: joinLines [] lines

/-- The units of an input text. -/
def units (input : List Char) : List (List Char) := joinLines [] (inputLines [] input)

/-- What to do with a unit. -/
inductive Request
  | nothing
  | exit
  | evaluate
deriving DecidableEq, Repr

/-- A blank unit is skipped, and the word `exit` in any case of letters ends the conversation. -/
def Request.ofUnit (unit : List Char) : Request :=
  match Text.trim unit with
  | [] => .nothing
  | word => if word.map Char.toLower = ['e', 'x', 'i', 't'] then .exit else .evaluate

/-! ## Answers -/

/-- What the program has written so far, and the heap it works in. -/
structure Conversation where
  heap : Heap
  output : List String
  reports : List Report

namespace Conversation

/-- Writes a line to the output. -/
def say (c : Conversation) (line : String) : Conversation :=
  { c with output := c.output ++ [line] }

/-- Reports a failure in a named source. -/
def complain (c : Conversation) (name : String) (source : List Char) (e : Failure) :
    Conversation :=
  { c with reports := c.reports ++ [.ofFailure name source e] }

/-- The name under which failures in typed input are reported. -/
def inputName : String := "REPL"

/-- Evaluates the forms that a reader still has in a unit and prints each value. The first
failure is reported and ends the unit. -/
def answerFrom (lisp : Interpreter) (depth : Nat) (unit : List Char) (r : Reader)
    (c : Conversation) : Conversation :=
  match _hnext : r.next? lisp c.heap with
  | none => c
  | some reading =>
      match reading.result with
      | .error e => { c with heap := reading.heap }.complain inputName unit (.parse e)
      | .ok form =>
          match lisp.eval depth .none form reading.heap with
          | (.error e, h) => { c with heap := h }.complain inputName unit e
          | (.ok v, h) =>
              answerFrom lisp depth unit reading.reader ({ c with heap := h }.say v.text)
termination_by r.pending.length
decreasing_by exact Reader.pending_next?_length _hnext

/-- **Answers a unit of input.** -/
def answer (lisp : Interpreter) (depth : Nat) (c : Conversation) (unit : List Char) :
    Conversation :=
  answerFrom lisp depth unit (Reader.ofSource unit) c

/-- Goes through the units until one asks to exit or the input ends, which is said. -/
def converse (lisp : Interpreter) (depth : Nat) (c : Conversation) :
    List (List Char) → Conversation
  | [] => (c.say "").say "Exiting."
  | unit :: rest =>
      match Request.ofUnit unit with
      | .nothing => converse lisp depth c rest
      | .exit => c
      | .evaluate => converse lisp depth (c.answer lisp depth unit) rest

/-- Loads files in order. The first failure is reported and ends the loading; the flag says
whether all went well. -/
def loadFiles (read : String → Except FileError String) (lisp : Interpreter) (depth : Nat)
    (c : Conversation) : List String → Conversation × Bool
  | [] => (c, true)
  | path :: rest =>
      match read path with
      | .error e => (c.complain path [] (.file path e), false)
      | .ok text =>
          match lisp.loadText depth .none text.toList c.heap with
          | (.error e, h) => ({ c with heap := h }.complain path text.toList e, false)
          | (.ok _, h) => loadFiles read lisp depth { c with heap := h } rest

end Conversation

/-! ## The program -/

/-- All that the program writes, and how it ends. -/
structure Transcript where
  exitCode : Nat
  output : List String
  reports : List Report
deriving DecidableEq, Repr

/-- The text on standard output: every line with its line feed. -/
def Transcript.text (t : Transcript) : String := String.join (t.output.map (· ++ "\n"))

/-- The lines with which a conversation begins. -/
def greeting : List String :=
  ["kons v0.1.0", "Type 'exit' or press Ctrl-D to quit.", "No previous history."]

/-- **The program**, given a way to read files, the files to load and the input. -/
def run (read : String → Except FileError String) (depth : Nat) (paths : List String)
    (input : List Char) : Transcript :=
  let made := Interpreter.fresh Heap.empty
  let loaded := Conversation.loadFiles read made.1 depth ⟨made.2, [], []⟩ paths
  if loaded.2 then
    let start := { loaded.1 with output := loaded.1.output ++ greeting }
    let c := start.converse made.1 depth (units input)
    ⟨0, c.output, c.reports⟩
  else
    ⟨1, loaded.1.output, loaded.1.reports⟩

end SmallLisp.Prompt
