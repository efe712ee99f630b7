import SmallLisp.Session.Basic

set_option autoImplicit false

/-! # Running a session

The effect and the answer of every step. A step that fails changes nothing but what reading and
evaluating have already done to the heap.
-/

namespace SmallLisp

namespace Session

/-- Reads a form, for use by a step. -/
def read (s : Session) (source : String) : Except ParseError Value × Session :=
  match readText s.lisp source.toList s.heap with
  | (r, h) => (r, { s with heap := h })

/-- The object that a step names. -/
def resolve (s : Session) : Target → Value × Session
  | .slot name => (s.slot name, s)
  | .symbol name =>
      match s.lisp.intern s.heap name with
      | (symbol, h) => (.symbol symbol, { s with heap := h })

/-- Answers with the outcome of running something in the heap. -/
def finish (s : Session) (out : Outcome) : Answer × Session :=
  (.result out.1, { s with heap := out.2 })

/-- Answers with a value made in the heap. -/
def made (s : Session) (out : Value × Heap) : Answer × Session :=
  s.finish (.ok out.1, out.2)

/-- What a session holds on to: the objects in its slots, its second interpreter, and its
environments. -/
def held (s : Session) : Anchors :=
  ⟨s.slots.map Prod.snd ++ (s.foreign.map Interpreter.held).getD [],
    s.env :: s.captured.map Prod.snd⟩

/-- Runs a computation in the working environment. -/
def runHere (s : Session) (act : Eval Value) : Answer × Session :=
  match Interpreter.runIn s.held s.env s.heap act with
  | (r, h, env) => (.result r, { s with heap := h, env := env })

/-- The name and the cells of a symbol. -/
def symbolInfo (s : Session) (symbol : Symbol) : SymbolInfo :=
  ⟨symbol.name, s.heap.cellsOf symbol, s.lisp.packageOf? s.heap s.held symbol⟩

/-- The number of arguments that an operator takes. -/
def arityOf (s : Session) : Value → Option Arity
  | .specialForm _ form => some form.arity
  | .builtin _ op => some op.arity
  | .closure id _ => s.heap.closures[id]?.map Closure.arity
  | _ => none

/-- The second interpreter, made if there is none. -/
def withForeign (s : Session) : Interpreter × Session :=
  match s.foreign with
  | some lisp => (lisp, s)
  | none =>
      match Interpreter.fresh s.heap with
      | (lisp, h) => (lisp, { s with foreign := some lisp, heap := h })

/-- Builds an object. -/
def build (s : Session) : Recipe → Answer × Session
  | .number n => s.made (s.heap.alloc (.number · n))
  | .string text => s.made (s.heap.alloc (.string · text))
  | .cons car cdr => s.made (s.heap.cons (s.slot car) (s.slot cdr))
  | .list items => s.made (s.lisp.list s.heap (items.map s.slot))
  | .listWithTail items tail => s.made (s.heap.listWithTail (s.slot tail) (items.map s.slot))
  | .truth b => s.made (s.lisp.truth b, s.heap)
  | .package name => s.made (s.heap.makePackage name)
  | .home => s.made ((s.heap.packageValue? s.lisp.package).getD s.lisp.nilValue, s.heap)
  | .foreign name =>
      match s.withForeign with
      | (lisp, s) =>
          match lisp.intern s.heap name with
          | (symbol, h) => s.made (.symbol symbol, h)

/-- Reads the value of an assignment and makes it in the given environment. The target is
looked for after the value has been read, so a target is not interned for a value that cannot
be. -/
def assignIn (s : Session) (env : Environment) (target : Target) (source : String) :
    Answer × Session :=
  match s.read source with
  | (.error e, s) => (.result (.error (.parse e)), s)
  | (.ok v, s) =>
      match s.resolve target with
      | (object, s) =>
          match s.heap.assign? env object.id v with
          | some h => (.flag true, { s with heap := h })
          | none => (.flag false, s)

/-- Reads the bindings of a frame one after the other, of each the value first. -/
def readBindings (s : Session) : List (Target × String) → Except ParseError (List Binding) × Session
  | [] => (.ok [], s)
  | (target, source) :: rest =>
      match s.read source with
      | (.error e, s) => (.error e, s)
      | (.ok v, s) =>
          match s.resolve target with
          | (object, s) =>
              match s.readBindings rest with
              | (.error e, s) => (.error e, s)
              | (.ok bindings, s) => (.ok (⟨object, v⟩ :: bindings), s)

/-- Pushes a frame on the working environment. -/
def pushFrame (s : Session) (frame : Frame) : Session :=
  match s.heap.makeFrame frame with
  | (id, h) => { s with heap := h, env := id :: s.env }

/-- Opens a scope on the frames there are. -/
def openScope (s : Session) : Session := { s with scopes := s.depth :: s.scopes }

/-- Closes the current scope and removes the frames pushed in it. If only the outermost scope is
open it is closed and begun anew. -/
def closeScope (s : Session) : Session :=
  { s with env := s.env.truncate s.base, scopes := s.scopes.tail }

/-- Sets a cell of a symbol. -/
def setCell (h : Heap) (symbol : Symbol) (v : Value) : CellName → Heap
  | .value => h.setValue symbol v
  | .function => h.setFunction symbol v
  | .plist => h.setPlist symbol v

/-- The names that a fresh interpreter has. -/
def freshNames : List String :=
  match Interpreter.fresh Heap.empty with
  | (lisp, h) => h.symbolNames lisp.package

/-- **Takes one step.** `limit` is how deeply evaluations may be nested. -/
def take (limit : Nat) (s : Session) : Step → Answer × Session
  | .evalText source => s.finish (s.lisp.evalText limit s.held source.toList s.heap)
  | .loadText source => s.finish (s.lisp.loadText limit s.held source.toList s.heap)
  | .readText source =>
      match s.read source with
      | (r, s) => (.result (r.mapError .parse), s)
  | .evalObject target =>
      match s.resolve target with
      | (object, s) => s.finish (s.lisp.eval limit s.held object s.heap)
  | .evalHere source =>
      match s.read source with
      | (.error e, s) => (.result (.error (.parse e)), s)
      | (.ok form, s) => s.runHere (Eval.holding [form] (Eval.evaluate s.lisp limit form))
  | .evalCaptured name source =>
      let env := s.environment name
      match s.read source with
      | (.error e, s) => (.captured (.error (.parse e)) env.length, s)
      | (.ok form, s) =>
          match Interpreter.runIn (s.held.hold [form]) env s.heap
              (Eval.evaluate s.lisp limit form) with
          | (r, h, env) => (.captured r env.length, { s with heap := h })
  | .apply operator args =>
      s.runHere (Eval.apply s.lisp (Eval.evaluate s.lisp limit) (s.slot operator) (s.slot args))
  | .applyValues operator args =>
      s.runHere (Eval.applyValues s.lisp (Eval.evaluate s.lisp limit) (s.slot operator)
        (args.map s.slot))
  | .callDirectly operator args =>
      match s.slot operator with
      | .specialForm _ form =>
          s.runHere (form.run s.lisp (Eval.evaluate s.lisp limit) (args.map s.slot))
      | .builtin _ op =>
          s.runHere (Eval.callBuiltin s.lisp (Eval.evaluate s.lisp limit) op (args.map s.slot))
      | _ => (.refused .notNative, s)
  | .intern name =>
      match s.resolve (.symbol name) with
      | (symbol, s) => (.result (.ok symbol), s)
  | .make recipe => s.build recipe
  | .dropForeign => (.flag true, { s with foreign := none })
  | .lookup target =>
      match s.resolve target with
      | (object, s) => (.found (s.heap.lookup s.env object.id), s)
  | .assign target source => s.assignIn s.env target source
  | .push bindings =>
      match s.readBindings bindings with
      | (.error e, s) => (.result (.error (.parse e)), s)
      | (.ok bindings, s) => (.frame bindings.length, s.pushFrame ⟨bindings⟩)
  | .capture name =>
      (.count s.depth,
        { s with captured := (name, s.env) :: s.captured.filter (·.1 != name) })
  | .lookupCaptured name target =>
      match s.resolve target with
      | (object, s) => (.found (s.heap.lookup (s.environment name) object.id), s)
  | .assignCaptured name target source => s.assignIn (s.environment name) target source
  | .same a b => (.flag ((s.slot a).same (s.slot b)), s)
  | .setCell target cell value =>
      match s.resolve target with
      | (.symbol symbol, s) =>
          (.flag true, { s with heap := setCell s.heap symbol (s.slot value) cell })
      | (_, s) => (.refused .notSymbol, s)
  | .findSymbol name =>
      (.symbol ((s.lisp.findSymbol s.heap name).map s.symbolInfo), s)
  | .cells target =>
      match s.resolve target with
      | (.symbol symbol, s) => (.symbol (some (s.symbolInfo symbol)), s)
      | (_, s) => (.symbol none, s)
  | .names all =>
      let names := s.heap.symbolNames s.lisp.package
      (.names (if all then names else names.filter (!freshNames.contains ·)) names.length, s)
  | .packageIntern package name =>
      match s.slot package with
      | .package id _ =>
          match s.heap.intern id name with
          | (symbol, h) => s.made (.symbol symbol, h)
      | _ => (.refused .notPackage, s)
  | .packageFind package name =>
      match s.slot package with
      | .package id _ => (.found ((s.heap.findSymbol id name).map .symbol), s)
      | _ => (.refused .notPackage, s)
  | .packageInfo package =>
      match s.slot package with
      | .package id name => (.package ⟨name, s.heap.symbolNames id⟩, s)
      | _ => (.refused .notPackage, s)
  | .describe target =>
      match s.resolve target with
      | (object, s) =>
          (.description ⟨object, s.lisp.isConstant object, s.lisp.isLambdaForm s.heap object,
            s.arityOf object⟩, s)
  | .readSource path =>
      match (Folder.mk []).read path with
      | .error e => (.result (.error (.file path e)), s)
      | .ok text => (.text text, s)
  | .openScope => (.opened, s.openScope)
  | .closeScope => (.closed, s.closeScope)

/-- Keeps the result of a step under a name, if it has one. -/
def keep (s : Session) : Option String → Answer → Session
  | some name, .result (.ok v) => s.save name v
  | some name, .captured (.ok v) _ => s.save name v
  | _, _ => s

/-- The answer with the state of the working environment. -/
def entry (s : Session) (answer : Answer) : Entry := ⟨answer, s.depth, s.pushed⟩

/-- Whether a step leaves an entry: closing the outermost scope does not. -/
def isRecorded (s : Session) : Step → Bool
  | .closeScope => !s.scopes.isEmpty
  | _ => true

/-- Closes the nested scopes that are still open, innermost first. -/
def closeAll (s : Session) : Nat → List Entry × Session
  | 0 => ([], s.closeScope)
  | nested + 1 =>
      let closed := s.closeScope
      let later := closed.closeAll nested
      (closed.entry .closed :: later.1, later.2)

/-- **Runs a session** to its end. -/
def run (limit : Nat) (s : Session) : List Request → List Entry × Session
  | [] => s.closeAll s.scopes.length
  | request :: rest =>
      let taken := s.take limit request.step
      let next := taken.2.keep request.save taken.1
      let later := next.run limit rest
      (if s.isRecorded request.step then next.entry taken.1 :: later.1 else later.1, later.2)

end Session

end SmallLisp
