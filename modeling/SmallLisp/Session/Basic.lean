import SmallLisp.Program

set_option autoImplicit false

/-! # Inspection sessions

A session works on an interpreter from the outside. Besides running source text it keeps named
objects, builds and takes apart values, and handles a lexical environment of its own: it opens
and closes scopes on it, pushes frames, and captures it under a name. This module has the
session itself and its vocabulary, `Session.Run` the effect of each step.
-/

namespace SmallLisp

/-- **A session.** -/
structure Session where
  lisp : Interpreter
  /-- A second interpreter on the same heap, once one has been asked for. -/
  foreign : Option Interpreter
  heap : Heap
  /-- The working environment, apart from the interpreter's top level. -/
  env : Environment
  /-- For each nested scope, innermost first, how many frames there were when it was opened.
  The outermost scope, always open, was opened on no frames. -/
  scopes : List Nat
  slots : List (String × Value)
  captured : List (String × Environment)

namespace Session

/-- A session on a fresh interpreter. -/
def start : Session :=
  let made := Interpreter.fresh Heap.empty
  ⟨made.1, none, made.2, [], [], [], []⟩

/-- How many frames there were when the current scope was opened. -/
def base (s : Session) : Nat := s.scopes.head?.getD 0

/-- The number of frames in the working environment. -/
def depth (s : Session) : Nat := s.env.length

/-- The number of frames pushed in the current scope. -/
def pushed (s : Session) : Nat := s.depth - s.base

/-- The object in a slot; a slot that was never set holds `nil`. -/
def slot (s : Session) (name : String) : Value :=
  (s.slots.lookup name).getD s.lisp.nilValue

/-- Keeps an object under a name. -/
def save (s : Session) (name : String) (v : Value) : Session :=
  { s with slots := (name, v) :: s.slots.filter (·.1 != name) }

/-- A captured environment; one that was never captured has no frames. -/
def environment (s : Session) (name : String) : Environment :=
  (s.captured.lookup name).getD []

/-! ## Steps -/

/-- How a step names an object: by a slot, or by the name of a symbol to be interned. -/
inductive Target
  | slot (name : String)
  | symbol (name : String)
deriving DecidableEq, Repr

/-- Objects that a step can build. -/
inductive Recipe
  | number (n : Number)
  | string (text : String)
  | cons (car cdr : String)
  | list (items : List String)
  | listWithTail (items : List String) (tail : String)
  | truth (b : Bool)
  /-- A new package without symbols. -/
  | package (name : String)
  /-- The package of the interpreter. -/
  | home
  /-- A symbol of the second interpreter, which is made on first use. -/
  | foreign (name : String)
deriving DecidableEq

/-- The cells of a symbol. -/
inductive CellName
  | value
  | function
  | plist
deriving DecidableEq, Repr

/-- **What a session can be asked to do.** Objects are named by slots. -/
inductive Step
  | evalText (source : String)
  | loadText (source : String)
  | readText (source : String)
  | evalObject (target : Target)
  /-- Reads a form and evaluates it in the working environment. -/
  | evalHere (source : String)
  /-- Reads a form and evaluates it in a captured environment. -/
  | evalCaptured (env source : String)
  | apply (operator args : String)
  | applyValues (operator : String) (args : List String)
  /-- Calls a special form or builtin without a check of the argument count. -/
  | callDirectly (operator : String) (args : List String)
  | intern (name : String)
  | make (recipe : Recipe)
  | dropForeign
  | lookup (target : Target)
  | assign (target : Target) (source : String)
  | push (bindings : List (Target × String))
  | capture (name : String)
  | lookupCaptured (env : String) (target : Target)
  | assignCaptured (env : String) (target : Target) (source : String)
  | same (a b : String)
  | setCell (target : Target) (cell : CellName) (value : String)
  | findSymbol (name : String)
  | cells (target : Target)
  /-- The interned names, all of them or only those that a fresh interpreter lacks. -/
  | names (all : Bool)
  | packageIntern (package name : String)
  | packageFind (package name : String)
  | packageInfo (package : String)
  | describe (target : Target)
  | readSource (path : String)
  | openScope
  | closeScope
deriving DecidableEq

/-- A step, with the slot for its result if it is to be kept. -/
structure Request where
  step : Step
  save : Option String
deriving DecidableEq

/-! ## Answers -/

/-- The cells of a symbol with its name and package. -/
structure SymbolInfo where
  name : String
  cells : Cells
  package : Option Value
deriving DecidableEq

/-- The name of a package and the names in it. -/
structure PackageInfo where
  name : String
  names : List String
deriving DecidableEq, Repr

/-- All that can be asked of an object. -/
structure Description where
  object : Value
  constant : Bool
  lambdaForm : Bool
  arity : Option Arity
deriving DecidableEq

/-- Requests that make no sense for the object at hand. -/
inductive Refusal
  | notNative
  | notSymbol
  | notPackage
deriving DecidableEq, Repr

/-- The wording of a refusal. -/
def Refusal.message : Refusal → String
  | .notNative => "not native"
  | .notSymbol => "not a symbol"
  | .notPackage => "not a package"

/-- **What a step answers.** -/
inductive Answer
  | result (r : Except Failure Value)
  /-- A result with the depth of the captured environment afterwards. -/
  | captured (r : Except Failure Value) (depth : Nat)
  | found (v : Option Value)
  | flag (b : Bool)
  | count (n : Nat)
  | frame (size : Nat)
  | symbol (info : Option SymbolInfo)
  | names (shown : List String) (total : Nat)
  | package (info : PackageInfo)
  | description (d : Description)
  | text (s : String)
  | opened
  | closed
  | refused (r : Refusal)

/-- An answer with the state of the working environment after the step. -/
structure Entry where
  answer : Answer
  depth : Nat
  pushed : Nat

end Session

end SmallLisp
