import Std.Data.TreeMap
import SmallLisp.Value.Basic

set_option autoImplicit false

/-! # The heap

All that can change while a program runs: the cells of symbols, the symbols of packages, the
variables of lexical frames, and which objects exist at all. Objects get increasing
identities, so a new one is always distinct from every earlier one. Frames are numbered
separately, by their place in `frames`.

A symbol has three cells (global value, function, property list), all empty at first; a symbol
without an entry in `cells` is one whose cells are still empty.
-/

namespace SmallLisp

/-- The number of a frame. -/
abbrev FrameId := Nat

/-- **A lexical environment**: the frames in scope, innermost first. Frames are shared, so an
assignment made through one environment is seen through every other that has the frame. -/
abbrev Environment := List FrameId

/-- The outermost `depth` frames of an environment. -/
def Environment.truncate (env : Environment) (depth : Nat) : Environment :=
  env.drop (env.length - depth)

/-- A variable and its value. In programs the object that serves as the variable is always a
symbol. -/
structure Binding where
  object : Value
  value : Value
deriving DecidableEq

/-- A variable is known by the identity of its object. -/
def Binding.key (b : Binding) : ObjectId := b.object.id

/-- **A frame**: the variables of one scope. Of two bindings for one variable only the first
is ever seen. -/
structure Frame where
  bindings : List Binding
deriving DecidableEq

namespace Frame

/-- The value of a variable in a frame. -/
def lookup (f : Frame) (key : ObjectId) : Option Value :=
  (f.bindings.find? (·.key == key)).map Binding.value

/-- Whether a frame binds a variable. -/
def binds (f : Frame) (key : ObjectId) : Bool := f.bindings.any (·.key == key)

/-- Replaces the value of the first binding with the given key. -/
def assignFirst (key : ObjectId) (value : Value) : List Binding → List Binding
  | [] => []
  | b :: bs => if b.key == key then ⟨b.object, value⟩ :: bs else b :: assignFirst key value bs

/-- The frame with a variable assigned; unchanged if it does not bind the variable. -/
def assign (f : Frame) (key : ObjectId) (value : Value) : Frame :=
  ⟨assignFirst key value f.bindings⟩

end Frame

/-- The three cells of a symbol. -/
structure Cells where
  value : Option Value := none
  function : Option Value := none
  plist : Option Value := none
deriving DecidableEq

/-- **A package**: its name and the symbols interned in it, by name. -/
structure Package where
  name : String
  symbols : Std.TreeMap String Symbol

/-- **The code of a closure**: its parameters, the parameter after `&rest` if there is one,
its body, and the environment in which it was made. -/
structure Closure where
  params : List Symbol
  rest : Option Symbol
  body : List Value
  env : Environment
deriving DecidableEq

/-- A closure takes as many arguments as it has parameters, or more if it has a parameter for
the rest. -/
def Closure.arity (c : Closure) : Arity := ⟨c.params.length, c.rest.isSome⟩

/-- **The heap.** -/
structure Heap where
  /-- The identity of the next object. -/
  next : ObjectId
  cells : Std.TreeMap ObjectId Cells
  packages : Std.TreeMap ObjectId Package
  closures : Std.TreeMap ObjectId Closure
  frames : Array Frame

namespace Heap

/-- The heap in which nothing has been allocated. -/
def empty : Heap := ⟨0, {}, {}, {}, #[]⟩

/-! ## Allocation -/

/-- Makes a new object from the next identity. -/
def alloc (h : Heap) (make : ObjectId → Value) : Value × Heap :=
  (make h.next, { h with next := h.next + 1 })

/-- A new cons. -/
def cons (h : Heap) (car cdr : Value) : Value × Heap := h.alloc (.cons · car cdr)

/-- **A new list** of the given elements that ends in `tail`. The last cell is made first. -/
def listWithTail (h : Heap) (tail : Value) : List Value → Value × Heap
  | [] => (tail, h)
  | x :: xs =>
      let rest := h.listWithTail tail xs
      rest.2.cons x rest.1

/-- A new closure with its code. -/
def makeClosure (h : Heap) (name : Option Symbol) (code : Closure) : Value × Heap :=
  (.closure h.next name,
    { h with next := h.next + 1, closures := h.closures.insert h.next code })

/-- A new frame. -/
def makeFrame (h : Heap) (frame : Frame) : FrameId × Heap :=
  (h.frames.size, { h with frames := h.frames.push frame })

/-! ## Packages and symbols -/

/-- A new package without symbols. -/
def makePackage (h : Heap) (name : String) : Value × Heap :=
  (.package h.next name,
    { h with next := h.next + 1, packages := h.packages.insert h.next ⟨name, {}⟩ })

/-- A package as a value, if there is one of that identity. -/
def packageValue? (h : Heap) (package : ObjectId) : Option Value :=
  h.packages[package]?.map fun p => .package package p.name

/-- The symbols of a package, by name; none if there is no such package. -/
def symbolsOf (h : Heap) (package : ObjectId) : Std.TreeMap String Symbol :=
  (h.packages[package]?.map Package.symbols).getD {}

/-- The symbol that a package has under a name. -/
def findSymbol (h : Heap) (package : ObjectId) (name : String) : Option Symbol :=
  (h.symbolsOf package)[name]?

/-- Enters a symbol into a package under its own name. -/
def enter (h : Heap) (package : ObjectId) (s : Symbol) : Heap :=
  { h with
    packages := h.packages.modify package fun p =>
      { p with symbols := p.symbols.insert s.name s } }

/-- Makes a symbol for a package without entering it. The name is allocated before the symbol
itself. -/
def makeSymbol (h : Heap) (package : ObjectId) (name : String) (isNil : Bool) : Symbol × Heap :=
  (⟨h.next + 1, name, h.next, isNil, package⟩, { h with next := h.next + 2 })

/-- **Interning**: the symbol of a package with the given name, made on first use. -/
def intern (h : Heap) (package : ObjectId) (name : String) : Symbol × Heap :=
  match h.findSymbol package name with
  | some s => (s, h)
  | none =>
      let made := h.makeSymbol package name false
      (made.1, made.2.enter package made.1)

/-- The names interned in a package, in increasing order. -/
def symbolNames (h : Heap) (package : ObjectId) : List String := (h.symbolsOf package).keys

/-! ## Cells -/

/-- The cells of a symbol. -/
def cellsOf (h : Heap) (s : Symbol) : Cells := h.cells.getD s.id {}

/-- Replaces the cells of a symbol. -/
def setCells (h : Heap) (s : Symbol) (c : Cells) : Heap :=
  { h with cells := h.cells.insert s.id c }

/-- Sets the global value of a symbol. -/
def setValue (h : Heap) (s : Symbol) (v : Value) : Heap :=
  h.setCells s { h.cellsOf s with value := some v }

/-- Sets the function of a symbol. -/
def setFunction (h : Heap) (s : Symbol) (v : Value) : Heap :=
  h.setCells s { h.cellsOf s with function := some v }

/-- Sets the property list of a symbol. -/
def setPlist (h : Heap) (s : Symbol) (v : Value) : Heap :=
  h.setCells s { h.cellsOf s with plist := some v }

/-! ## Variables -/

/-- A frame by its number; an empty one if there is none. -/
def frame (h : Heap) (id : FrameId) : Frame := h.frames[id]?.getD ⟨[]⟩

/-- **Looking a variable up**: its value in the innermost frame that binds it. -/
def lookup (h : Heap) (env : Environment) (key : ObjectId) : Option Value :=
  env.findSome? fun id => (h.frame id).lookup key

/-- The innermost frame that binds a variable. -/
def binder? (h : Heap) (env : Environment) (key : ObjectId) : Option FrameId :=
  env.find? fun id => (h.frame id).binds key

/-- **Assigning a variable** in the innermost frame that binds it; `none` if no frame does. -/
def assign? (h : Heap) (env : Environment) (key : ObjectId) (value : Value) : Option Heap :=
  (h.binder? env key).map fun id =>
    { h with frames := h.frames.modify id (·.assign key value) }

end Heap

end SmallLisp
