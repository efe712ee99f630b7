import Std.Data.TreeSet
import SmallLisp.Heap.Basic

set_option autoImplicit false

/-! # Lifetimes

An object or a frame lives as long as something refers to it. A symbol refers to what is in its
cells, a package to its symbols, a closure to its code and to the frames of its environment, a
frame to its variables and their values, and a cons to its two ends. Running code refers to
whatever it holds at the moment, its `Anchors`.

A symbol does *not* refer to its package. Once nothing else does, the package is gone and the
symbol goes on without one. This is the only way in which a program can see a lifetime end, so
nothing is ever removed from the heap; `Heap.keeps` says what still lives in it.

Things that refer to each other in a circle keep each other alive. So what lives is the largest
set each of whose members is referred to by an anchor or by a member of the set.
-/

namespace SmallLisp

/-! ## Anchors -/

/-- **What running code holds on to**: values that it has computed or was given and not yet
handed on, and environments that it will come back to. -/
structure Anchors where
  values : List Value
  environments : List Environment

namespace Anchors

/-- Nothing is held. -/
def none : Anchors := ⟨[], []⟩

/-- Some more values are held. -/
def hold (a : Anchors) (vs : List Value) : Anchors := { a with values := vs ++ a.values }

/-- One more environment is held. -/
def stay (a : Anchors) (env : Environment) : Anchors :=
  { a with environments := env :: a.environments }

end Anchors

/-! ## Populations -/

/-- **A set of objects and frames.** -/
structure Population where
  objects : Std.TreeSet ObjectId
  frames : Std.TreeSet FrameId

namespace Population

/-- Neither objects nor frames. -/
def empty : Population := ⟨{}, {}⟩

/-- The number of members. -/
def size (p : Population) : Nat := p.objects.size + p.frames.size

/-- Adds an object. -/
def addObject (p : Population) (id : ObjectId) : Population :=
  { p with objects := p.objects.insert id }

/-- Adds a frame. -/
def addFrame (p : Population) (id : FrameId) : Population :=
  { p with frames := p.frames.insert id }

/-- Adds the frames of an environment. -/
def addEnvironment (p : Population) (env : Environment) : Population := env.foldl addFrame p

/-- **Adds a value** and all that hangs together with it by conses. A cons that is there already
is not entered again, so a value is walked in the number of its conses however much of it is
shared. -/
def addValue (p : Population) : Value → Population
  | .cons id car cdr =>
      if p.objects.contains id then p else ((p.addObject id).addValue car).addValue cdr
  | .closure id (some name) => (p.addObject id).addObject name.id
  | v => p.addObject v.id

/-- Adds values. -/
def addValues (p : Population) (vs : List Value) : Population := vs.foldl addValue p

/-- Adds symbols. -/
def addSymbols (p : Population) (ss : List Symbol) : Population :=
  ss.foldl (fun p s => p.addObject s.id) p

/-- Adds what code holds on to. -/
def addAnchors (p : Population) (a : Anchors) : Population :=
  a.environments.foldl addEnvironment (p.addValues a.values)

/-- The members of a population that are in another one too. -/
def within (p q : Population) : Population :=
  ⟨p.objects.filter q.objects.contains, p.frames.filter q.frames.contains⟩

end Population

namespace Heap

open Population

/-! ## What refers to what -/

/-- The values that a symbol refers to. -/
def cellValues (c : Cells) : List Value :=
  c.value.toList ++ c.function.toList ++ c.plist.toList

/-- Adds what a closure refers to. Its name belongs to the value itself. -/
def addClosure (p : Population) (c : Closure) : Population :=
  (((p.addSymbols c.params).addSymbols c.rest.toList).addValues c.body).addEnvironment c.env

/-- Adds what an object refers to by its entries in the heap. -/
def addContents (h : Heap) (p : Population) (id : ObjectId) : Population :=
  let p := (h.cells[id]?).elim p fun c => p.addValues (cellValues c)
  let p := (h.packages[id]?).elim p fun package => p.addSymbols package.symbols.values
  (h.closures[id]?).elim p (addClosure p)

/-- Adds what a frame refers to. -/
def addVariables (h : Heap) (p : Population) (id : FrameId) : Population :=
  (h.frame id).bindings.foldl (fun p b => (p.addValue b.object).addValue b.value) p

/-- All that anchors and the members of a population refer to. -/
def referents (h : Heap) (a : Anchors) (p : Population) : Population :=
  let q := Population.empty.addAnchors a
  let q := p.objects.foldl h.addContents q
  p.frames.foldl h.addVariables q

/-! ## What lives -/

/-- The frames, and the objects with entries in the heap. -/
def population (h : Heap) : Population :=
  let p := h.cells.keys.foldl addObject .empty
  let p := h.packages.keys.foldl addObject p
  let p := h.closures.keys.foldl addObject p
  (List.range h.frames.size).foldl addFrame p

/-- Leaves out members that nothing refers to until there are no more of them. -/
def settle (h : Heap) (a : Anchors) (p : Population) : Population :=
  let q := p.within (h.referents a p)
  if q.size < p.size then h.settle a q else p
termination_by p.size

/-- **What still lives** among the frames and the objects with entries in the heap. -/
def survivors (h : Heap) (a : Anchors) : Population := h.settle a h.population

/-- **Whether a package still lives.** -/
def keeps (h : Heap) (a : Anchors) (package : ObjectId) : Bool :=
  (h.survivors a).objects.contains package

end Heap

end SmallLisp
