import SmallLisp.Heap.Lifetime

set_option autoImplicit false

/-! # Interpreters

An interpreter is a package of symbols in a heap together with two of them that mean false and
true. Several interpreters can share one heap.
-/

namespace SmallLisp

/-- **An interpreter**: its package, the symbols `nil` and `t`, and the environment of forms
at top level, which has no frames. -/
structure Interpreter where
  package : ObjectId
  nil : Symbol
  t : Symbol
  toplevel : Environment := []
deriving DecidableEq

namespace Interpreter

/-- The value that means false and the empty list. -/
def nilValue (lisp : Interpreter) : Value := .symbol lisp.nil

/-- The value that means true. -/
def trueValue (lisp : Interpreter) : Value := .symbol lisp.t

/-- A truth value. -/
def truth (lisp : Interpreter) (b : Bool) : Value :=
  if b then lisp.trueValue else lisp.nilValue

/-- Whether a symbol is `nil` or `t`, which are never bound or assigned. -/
def isConstant (lisp : Interpreter) (v : Value) : Bool :=
  v.same lisp.nilValue || v.same lisp.trueValue

/-- The symbol of a name in the interpreter's package, made on first use. -/
def intern (lisp : Interpreter) (h : Heap) (name : String) : Symbol × Heap :=
  h.intern lisp.package name

/-- The symbol of a name in the interpreter's package, if there is one. -/
def findSymbol (lisp : Interpreter) (h : Heap) (name : String) : Option Symbol :=
  h.findSymbol lisp.package name

/-- A new proper list. -/
def list (lisp : Interpreter) (h : Heap) (items : List Value) : Value × Heap :=
  h.listWithTail lisp.nilValue items

/-- Whether a form is a list headed by the symbol `lambda`. -/
def isLambdaForm (lisp : Interpreter) (h : Heap) : Value → Bool
  | .cons _ car _ =>
      match lisp.findSymbol h "lambda" with
      | some s => car.same (.symbol s)
      | none => false
  | _ => false

/-! ## The packages of symbols -/

/-- The name of the package that an interpreter works in. -/
def packageName : String := "CL-USER"

/-- What an interpreter holds on to. -/
def held (lisp : Interpreter) : List Value :=
  [.package lisp.package packageName, lisp.nilValue, lisp.trueValue]

/-- **The package of a symbol**, if it still lives. The interpreter's own package does. -/
def packageOf? (lisp : Interpreter) (h : Heap) (a : Anchors) (s : Symbol) : Option Value :=
  (h.packageValue? s.home).filter fun _ =>
    s.home == lisp.package || h.keeps (a.hold lisp.held) s.home

/-- A symbol of the interpreter has its package whatever is held. -/
theorem packageOf?_own {lisp : Interpreter} {s : Symbol} (h : Heap) (a : Anchors)
    (hs : s.home = lisp.package) : lisp.packageOf? h a s = h.packageValue? s.home := by
  rw [packageOf?, hs]
  cases h.packageValue? lisp.package <;> simp

/-- While no package has been made but the interpreter's own, it does not matter what is held. -/
theorem packageOf?_alone {lisp : Interpreter} {h : Heap}
    (alone : ∀ id ∈ h.packages, id = lisp.package) (a : Anchors) (s : Symbol) :
    lisp.packageOf? h a s = h.packageValue? s.home := by
  by_cases hs : s.home ∈ h.packages
  · exact packageOf?_own h a (alone _ hs)
  · simp [packageOf?, Heap.packageValue?, Std.TreeMap.getElem?_eq_none hs]

/-! ## A fresh interpreter -/

/-- The value of the variable `pi`. -/
def pi : Number := .float 3.141592653589793

/-- Sets the global value of a name. -/
def define (lisp : Interpreter) (h : Heap) (name : String) (v : Value) : Heap :=
  let s := lisp.intern h name
  s.2.setValue s.1 v

/-- Installs an operator in the function cell of its name. -/
def install (lisp : Interpreter) (h : Heap) (name : String) (make : ObjectId → Value) : Heap :=
  let s := lisp.intern h name
  let op := s.2.alloc make
  op.2.setFunction s.1 op.1

/-- The package of a fresh interpreter, with `nil` and `t` in it but nothing defined. -/
def origin (h : Heap) : Interpreter × Heap :=
  let package := h.makePackage packageName
  let nil := package.2.makeSymbol package.1.id "nil" true
  let entered := nil.2.enter package.1.id nil.1
  let t := entered.intern package.1.id "t"
  (⟨package.1.id, nil.1, t.1, []⟩, t.2)

/-- **A fresh interpreter.** `nil` and `t` evaluate to themselves, `pi` is defined, and every
special form and builtin is installed under its name. -/
def fresh (h : Heap) : Interpreter × Heap :=
  let made := origin h
  let lisp := made.1
  let h := lisp.define made.2 "nil" lisp.nilValue
  let h := lisp.define h "t" lisp.trueValue
  let number := h.alloc (.number · pi)
  let h := lisp.define number.2 "pi" number.1
  let h := SpecialForm.all.foldl (fun h form => lisp.install h form.name (.specialForm · form)) h
  let h := Builtin.all.foldl (fun h op => lisp.install h op.name (.builtin · op)) h
  (lisp, h)

end Interpreter

end SmallLisp
