import Mathlib.Data.Set.Operations
import SmallLisp.Proofs.Interpreter.Names
import SmallLisp.Value.Printer

set_option autoImplicit false

/-! # Renaming objects and frames

Identities are only ever compared, so it does not matter which numbers they are. A `Renaming` gives
other numbers to objects and frames, no two of them the same, and everything that is observed of a
value is observed of the renamed value as well: its type, its text, its elements, and whether two
values are the same.

A heap *carries* another one, its guest, if all entries of the guest are there under their new
numbers (`Renaming.Carries`); that is enough for all reads. It *follows* the guest if moreover the
next numbers of the guest are the next numbers of the host (`Renaming.Follows`). It may hold much
besides. Each operation, done on both heaps, leads to heaps of which one follows the other again,
with the same renaming, and leaves alone what the renaming does not reach (`Renaming.Spares`). A
heap *hosts* the heap of an interpreter that is alone there if the same names are interned in it as
well (`Renaming.Hosts`).
-/

namespace SmallLisp

/-- **A renaming** of objects and frames. -/
structure Renaming where
  object : ObjectId → ObjectId
  frameId : FrameId → FrameId
  object_injective : Function.Injective object
  frameId_injective : Function.Injective frameId

namespace Renaming

variable (r : Renaming)

/-! ## Values -/

/-- A symbol, renamed along with its name and the package that it was made for. -/
def symbol (s : Symbol) : Symbol :=
  ⟨r.object s.id, s.name, r.object s.nameId, s.isNil, r.object s.home⟩

/-- **A value, renamed** along with its parts. -/
def value : Value → Value
  | .number id n => .number (r.object id) n
  | .string id s => .string (r.object id) s
  | .symbol s => .symbol (r.symbol s)
  | .cons id car cdr => .cons (r.object id) (value car) (value cdr)
  | .package id name => .package (r.object id) name
  | .specialForm id form => .specialForm (r.object id) form
  | .builtin id op => .builtin (r.object id) op
  | .closure id name => .closure (r.object id) (name.map r.symbol)

/-- Several values, renamed. -/
def values (vs : List Value) : List Value := vs.map r.value

@[simp]
theorem values_nil : r.values [] = [] := rfl

@[simp]
theorem values_cons (v : Value) (vs : List Value) :
    r.values (v :: vs) = r.value v :: r.values vs := rfl

@[simp]
theorem length_values (vs : List Value) : (r.values vs).length = vs.length := List.length_map ..

@[simp]
theorem object_beq (i j : ObjectId) : (r.object i == r.object j) = (i == j) := by
  rw [Bool.eq_iff_iff, beq_iff_eq, beq_iff_eq, r.object_injective.eq_iff]

@[simp]
theorem id_value (v : Value) : (r.value v).id = r.object v.id := by
  cases v <;> rfl

@[simp]
theorem same_value (a b : Value) : (r.value a).same (r.value b) = a.same b := by
  rw [Value.same, Value.same, id_value, id_value, object_beq]

@[simp]
theorem typeName_value (v : Value) : (r.value v).typeName = v.typeName := by
  cases v <;> rfl

@[simp]
theorem isAtom_value (v : Value) : (r.value v).isAtom = v.isAtom := by
  cases v <;> rfl

@[simp]
theorem isNil_value (v : Value) : (r.value v).isNil = v.isNil := by
  cases v <;> rfl

@[simp]
theorem items?_value (v : Value) : (r.value v).items? = v.items?.map r.values := by
  induction v with
  | symbol s =>
      simp only [value, Value.items?, symbol]
      split <;> rfl
  | cons id car cdr _ ih =>
      rw [value, Value.items?, ih, Value.items?]
      cases cdr.items? <;> rfl
  | _ => rfl

theorem render_value (v : Value) (inTail : Bool) :
    (r.value v).render inTail = v.render inTail := by
  induction v generalizing inTail with
  | cons id car cdr ihcar ihcdr => rw [value, Value.render, ihcar, ihcdr, Value.render]
  | closure id name => cases name <;> rfl
  | _ => rfl

@[simp]
theorem text_value (v : Value) : (r.value v).text = v.text := by
  rw [Value.text, Value.chars, render_value, Value.text, Value.chars]

/-! ## Entries of a heap -/

/-- Cells, renamed. -/
def cells (c : Cells) : Cells :=
  ⟨c.value.map r.value, c.function.map r.value, c.plist.map r.value⟩

/-- A variable and its value, renamed. -/
def binding (b : Binding) : Binding := ⟨r.value b.object, r.value b.value⟩

/-- A frame, renamed. -/
def frame (f : Frame) : Frame := ⟨f.bindings.map r.binding⟩

/-- An environment, renamed. -/
def env (e : Environment) : Environment := e.map r.frameId

/-- Code, renamed. -/
def closure (c : Closure) : Closure :=
  ⟨c.params.map r.symbol, c.rest.map r.symbol, r.values c.body, r.env c.env⟩

/-- An interpreter, renamed. -/
def interpreter (lisp : Interpreter) : Interpreter :=
  ⟨r.object lisp.package, r.symbol lisp.nil, r.symbol lisp.t, r.env lisp.toplevel⟩

@[simp]
theorem key_binding (b : Binding) : (r.binding b).key = r.object b.key := r.id_value b.object

@[simp]
theorem lookup_frame (f : Frame) (key : ObjectId) :
    (r.frame f).lookup (r.object key) = (f.lookup key).map r.value := by
  have hkey : (fun b : Binding => b.key == r.object key) ∘ r.binding = (·.key == key) := by
    funext b
    simp
  rw [Frame.lookup, Frame.lookup, frame, List.find?_map, hkey, Option.map_map, Option.map_map]
  rfl

@[simp]
theorem binds_frame (f : Frame) (key : ObjectId) :
    (r.frame f).binds (r.object key) = f.binds key := by
  rw [← Frame.isSome_lookup, ← Frame.isSome_lookup, lookup_frame, Option.isSome_map]

theorem assign_frame (f : Frame) (key : ObjectId) (v : Value) :
    (r.frame f).assign (r.object key) (r.value v) = r.frame (f.assign key v) := by
  have hfirst : ∀ bs : List Binding, Frame.assignFirst (r.object key) (r.value v)
      (bs.map r.binding) = (Frame.assignFirst key v bs).map r.binding := by
    intro bs
    induction bs with
    | nil => rfl
    | cons b bs ih =>
        simp only [List.map_cons, Frame.assignFirst, key_binding, object_beq]
        split
        · rfl
        · rw [ih, List.map_cons]
  exact congrArg Frame.mk (hfirst f.bindings)

@[simp]
theorem arity_closure (c : Closure) : (r.closure c).arity = c.arity := by
  simp [Closure.arity, closure]

@[simp]
theorem length_env (e : Environment) : (r.env e).length = e.length := List.length_map ..

theorem truncate_env (e : Environment) (depth : Nat) :
    (r.env e).truncate depth = r.env (e.truncate depth) := by
  rw [Environment.truncate, Environment.truncate, length_env, env, env, List.map_drop]

theorem isConstant_value (lisp : Interpreter) (v : Value) :
    (r.interpreter lisp).isConstant (r.value v) = lisp.isConstant v := by
  show ((r.value v).same (r.value lisp.nilValue) || (r.value v).same (r.value lisp.trueValue)) = _
  rw [same_value, same_value]
  rfl

/-! ## Hosts and guests -/

/-- What the renaming does not reach is as it was. -/
structure Spares (base host : Heap) : Prop where
  cells : ∀ id ∉ Set.range r.object, host.cells[id]? = base.cells[id]?
  closures : ∀ id ∉ Set.range r.object, host.closures[id]? = base.closures[id]?
  packages : ∀ id ∉ Set.range r.object, host.packages[id]? = base.packages[id]?
  frames : ∀ id ∉ Set.range r.frameId, host.frame id = base.frame id

/-- **A heap carries another one**: each entry of the guest stands renamed in the host. What names
are interned in packages is left open. -/
structure Carries (host guest : Heap) : Prop where
  cells : ∀ id : ObjectId, host.cells[r.object id]? = guest.cells[id]?.map r.cells
  closures : ∀ id : ObjectId, host.closures[r.object id]? = guest.closures[id]?.map r.closure
  packages : ∀ id, host.packageValue? (r.object id) = (guest.packageValue? id).map r.value
  frames : ∀ id, host.frame (r.frameId id) = r.frame (guest.frame id)

/-- **A heap follows another one**: it carries it, new objects and frames get their next numbers in
both, and all else in the host is as in `base`. -/
structure Follows (base host guest : Heap) : Prop extends r.Carries host guest where
  next : ∀ n, r.object (guest.next + n) = host.next + n
  size : ∀ n, r.frameId (guest.frames.size + n) = host.frames.size + n
  spares : r.Spares base host

/-- **A heap hosts another one**, the heap of an interpreter that is alone there: it follows it, and
has the same names. -/
structure Hosts (lisp : Interpreter) (base host guest : Heap) : Prop
    extends r.Follows base host guest where
  symbols : ∀ id name,
    host.findSymbol (r.object id) name = (guest.findSymbol id name).map r.symbol
  alone : lisp.Alone guest

variable {r : Renaming} {lisp : Interpreter} {base host guest : Heap}

theorem Spares.refl (r : Renaming) (h : Heap) : r.Spares h h :=
  ⟨fun _ _ => rfl, fun _ _ => rfl, fun _ _ => rfl, fun _ _ => rfl⟩

theorem ne_of_not_mem_range {id id' : ObjectId} (hid : id ∉ Set.range r.object) :
    r.object id' ≠ id := fun heq => hid ⟨id', heq⟩

/-! ## What is read -/

theorem Carries.cellsOf (hh : r.Carries host guest) (s : Symbol) :
    host.cellsOf (r.symbol s) = r.cells (guest.cellsOf s) := by
  rw [Heap.cellsOf, Heap.cellsOf, Std.TreeMap.getD_eq_getD_getElem?,
    Std.TreeMap.getD_eq_getD_getElem?]
  show (host.cells[r.object s.id]?).getD {} = _
  rw [hh.cells]
  cases guest.cells[s.id]? <;> rfl

theorem Carries.lookup (hh : r.Carries host guest) (e : Environment) (key : ObjectId) :
    host.lookup (r.env e) (r.object key) = (guest.lookup e key).map r.value := by
  induction e with
  | nil => rfl
  | cons id e ih =>
      have hfirst : (host.frame (r.frameId id)).lookup (r.object key) =
          ((guest.frame id).lookup key).map r.value := by
        rw [hh.frames, lookup_frame]
      simp only [Heap.lookup, env, List.map_cons, List.findSome?_cons, hfirst] at ih ⊢
      cases (guest.frame id).lookup key with
      | some v => rfl
      | none => exact ih

theorem Carries.binder? (hh : r.Carries host guest) (e : Environment) (key : ObjectId) :
    host.binder? (r.env e) (r.object key) = (guest.binder? e key).map r.frameId := by
  have hbinds : (fun id => (host.frame id).binds (r.object key)) ∘ r.frameId =
      fun id => (guest.frame id).binds key := by
    funext id
    show (host.frame (r.frameId id)).binds (r.object key) = _
    rw [hh.frames, binds_frame]
  rw [Heap.binder?, Heap.binder?, env, List.find?_map, hbinds]

theorem Carries.mem_packages (hh : r.Carries host guest) {id : ObjectId} :
    r.object id ∈ host.packages ↔ id ∈ guest.packages := by
  have hsome : ∀ (h : Heap) (id : ObjectId), id ∈ h.packages ↔ (h.packageValue? id).isSome := by
    intro h id
    rw [Heap.packageValue?, Option.isSome_map, Std.TreeMap.isSome_getElem?_iff_mem]
  rw [hsome, hsome, hh.packages, Option.isSome_map]

/-- Whether a form is headed by `lambda` depends on the symbol of that name alone. -/
theorem isLambdaForm_value
    (hfound : (r.interpreter lisp).findSymbol host "lambda" =
      (lisp.findSymbol guest "lambda").map r.symbol) (v : Value) :
    (r.interpreter lisp).isLambdaForm host (r.value v) = lisp.isLambdaForm guest v := by
  cases v with
  | cons id car cdr =>
      simp only [value, Interpreter.isLambdaForm, hfound]
      cases lisp.findSymbol guest "lambda" with
      | none => rfl
      | some s => exact r.same_value car (.symbol s)
  | _ => rfl

/-- The package of a symbol. What is held on either side does not matter, because the guest is
alone. -/
theorem Hosts.packageOf? (hh : r.Hosts lisp base host guest) (a a' : Anchors) (s : Symbol) :
    (r.interpreter lisp).packageOf? host a (r.symbol s) =
      (lisp.packageOf? guest a' s).map r.value := by
  rw [Interpreter.packageOf?_alone hh.alone]
  by_cases hhome : s.home = lisp.package
  · rw [Interpreter.packageOf?_own host a (congrArg r.object hhome)]
    exact hh.packages s.home
  · -- there is no such package in the guest, hence none in the host
    have hnone : guest.packageValue? s.home = none := by
      have hmem : s.home ∉ guest.packages := fun hmem => hhome (hh.alone _ hmem)
      rw [Heap.packageValue?, Std.TreeMap.getElem?_eq_none hmem, Option.map_none]
    have hnone' : host.packageValue? (r.object s.home) = none := by
      rw [hh.packages, hnone, Option.map_none]
    show (host.packageValue? (r.object s.home)).filter _ = _
    rw [hnone, hnone', Option.filter_none, Option.map_none]

/-! ## What is made -/

/-- Numbers that are passed over on both sides. -/
theorem Follows.advance (hf : r.Follows base host guest) (n : Nat) :
    r.Follows base { host with next := host.next + n } { guest with next := guest.next + n } where
  cells := hf.cells
  closures := hf.closures
  packages := hf.packages
  frames := hf.frames
  next m := by
    show r.object (guest.next + n + m) = host.next + n + m
    rw [Nat.add_assoc, hf.next, Nat.add_assoc]
  size := hf.size
  spares := ⟨hf.spares.cells, hf.spares.closures, hf.spares.packages, hf.spares.frames⟩

theorem Follows.object_next (hf : r.Follows base host guest) : r.object guest.next = host.next :=
  hf.next 0

theorem Follows.frameId_size (hf : r.Follows base host guest) :
    r.frameId guest.frames.size = host.frames.size := hf.size 0

theorem Follows.makeClosure (hf : r.Follows base host guest) (name name' : Option Symbol)
    (c : Closure) :
    r.Follows base (host.makeClosure name (r.closure c)).2 (guest.makeClosure name' c).2 :=
  { hf.advance 1 with
    closures := fun id => by
      rw [Heap.makeClosure, Heap.makeClosure, ← hf.object_next, Std.TreeMap.getElem?_insert,
        Std.TreeMap.getElem?_insert]
      simp only [Std.LawfulEqCmp.compare_eq_iff_eq, r.object_injective.eq_iff]
      split
      · rfl
      · exact hf.closures id
    spares :=
      { (hf.advance 1).spares with
        closures := fun id hid => by
          rw [Heap.makeClosure, ← hf.object_next, Std.TreeMap.getElem?_insert, if_neg]
          · exact hf.spares.closures id hid
          · rw [Std.LawfulEqCmp.compare_eq_iff_eq]
            exact ne_of_not_mem_range hid } }

theorem Follows.makeFrame (hf : r.Follows base host guest) (f : Frame) :
    r.Follows base (host.makeFrame (r.frame f)).2 (guest.makeFrame f).2 :=
  { hf with
    size := fun n => by
      show r.frameId ((guest.frames.push f).size + n) = (host.frames.push (r.frame f)).size + n
      rw [Array.size_push, Array.size_push, Nat.add_assoc, hf.size, Nat.add_assoc]
    frames := fun id => by
      rw [Interpreter.frame_makeFrame, Interpreter.frame_makeFrame, ← hf.frameId_size]
      simp only [r.frameId_injective.eq_iff]
      split
      · rfl
      · exact hf.frames id
    spares :=
      { hf.spares with
        frames := fun id hid => by
          rw [Interpreter.frame_makeFrame, if_neg]
          · exact hf.spares.frames id hid
          · rw [← hf.frameId_size]
            exact fun heq => hid ⟨_, heq.symm⟩ } }

theorem Follows.enter (hf : r.Follows base host guest) (package : ObjectId) (s s' : Symbol) :
    r.Follows base (host.enter (r.object package) s) (guest.enter package s') :=
  { hf with
    packages := fun id => by
      rw [Heap.packageValue?_enter, Heap.packageValue?_enter]
      exact hf.packages id
    spares :=
      { hf.spares with
        packages := fun id hid => by
          rw [Heap.enter, Std.TreeMap.getElem?_modify, if_neg]
          · exact hf.spares.packages id hid
          · rw [Std.LawfulEqCmp.compare_eq_iff_eq]
            exact ne_of_not_mem_range hid } }

/-- Two results of making something, renamed and in heaps of which one hosts the other. -/
structure Makes (r : Renaming) (lisp : Interpreter) (base : Heap) {α β : Type} (f : α → β)
    (out : β × Heap) (out' : α × Heap) : Prop where
  result : out.1 = f out'.1
  hosts : r.Hosts lisp base out.2 out'.2

theorem Makes.eq {α β : Type} {f : α → β} {out : β × Heap} {out' : α × Heap}
    (hmade : r.Makes lisp base f out out') : out = (f out'.1, out.2) :=
  Prod.ext hmade.result rfl

theorem Hosts.advance (hh : r.Hosts lisp base host guest) (n : Nat) :
    r.Hosts lisp base { host with next := host.next + n }
      { guest with next := guest.next + n } :=
  ⟨hh.toFollows.advance n, hh.symbols, hh.alone⟩

theorem Hosts.alloc (hh : r.Hosts lisp base host guest) {make make' : ObjectId → Value}
    (hmake : make (r.object guest.next) = r.value (make' guest.next)) :
    r.Makes lisp base r.value (host.alloc make) (guest.alloc make') :=
  ⟨by rw [hh.object_next] at hmake; exact hmake, hh.advance 1⟩

theorem Hosts.cons (hh : r.Hosts lisp base host guest) (car cdr : Value) :
    r.Makes lisp base r.value (host.cons (r.value car) (r.value cdr)) (guest.cons car cdr) :=
  hh.alloc rfl

theorem Hosts.listWithTail (hh : r.Hosts lisp base host guest) (tail : Value)
    (items : List Value) :
    r.Makes lisp base r.value (host.listWithTail (r.value tail) (r.values items))
      (guest.listWithTail tail items) := by
  induction items with
  | nil => exact ⟨rfl, hh⟩
  | cons x xs ih =>
      simp only [values_cons, Heap.listWithTail]
      rw [ih.result]
      exact ih.hosts.cons x _

theorem Hosts.list (hh : r.Hosts lisp base host guest) (items : List Value) :
    r.Makes lisp base r.value ((r.interpreter lisp).list host (r.values items))
      (lisp.list guest items) :=
  hh.listWithTail lisp.nilValue items

theorem Hosts.makeClosure (hh : r.Hosts lisp base host guest) (name : Option Symbol)
    (c : Closure) :
    r.Makes lisp base r.value (host.makeClosure (name.map r.symbol) (r.closure c))
      (guest.makeClosure name c) where
  result := by rw [Heap.makeClosure, Heap.makeClosure, value, hh.object_next]
  hosts := ⟨hh.toFollows.makeClosure _ name c, hh.symbols, hh.alone⟩

theorem Hosts.makeFrame (hh : r.Hosts lisp base host guest) (f : Frame) :
    r.Makes lisp base r.frameId (host.makeFrame (r.frame f)) (guest.makeFrame f) where
  result := hh.frameId_size.symm
  hosts := ⟨hh.toFollows.makeFrame f, hh.symbols, hh.alone⟩

theorem Hosts.makeSymbol (hh : r.Hosts lisp base host guest) (package : ObjectId) (name : String)
    (isNil : Bool) :
    r.Makes lisp base r.symbol (host.makeSymbol (r.object package) name isNil)
      (guest.makeSymbol package name isNil) where
  result := by
    rw [Heap.makeSymbol, Heap.makeSymbol, symbol, hh.next, hh.object_next]
  hosts := hh.advance 2

theorem Hosts.enter (hh : r.Hosts lisp base host guest) (package : ObjectId) (s : Symbol) :
    r.Hosts lisp base (host.enter (r.object package) (r.symbol s)) (guest.enter package s) :=
  { hh.toFollows.enter package (r.symbol s) s with
    symbols := fun id name => by
      have hname : (r.symbol s).name = s.name := rfl
      rw [Heap.findSymbol_enter, Heap.findSymbol_enter]
      simp only [r.object_injective.eq_iff, hh.mem_packages, hname]
      split
      · rfl
      · exact hh.symbols id name
    alone := fun id hid => hh.alone id (Heap.mem_packages_enter.1 hid) }

/-- What is made on both sides and then entered. -/
theorem Makes.enter {out out' : Symbol × Heap} (hmade : r.Makes lisp base r.symbol out out')
    (package : ObjectId) :
    r.Hosts lisp base (out.2.enter (r.object package) out.1) (out'.2.enter package out'.1) := by
  rw [hmade.result]
  exact hmade.hosts.enter package out'.1

theorem Hosts.internIn (hh : r.Hosts lisp base host guest) (package : ObjectId) (name : String) :
    r.Makes lisp base r.symbol (host.intern (r.object package) name)
      (guest.intern package name) := by
  have hfound := hh.symbols package name
  unfold Heap.intern
  cases hguest : guest.findSymbol package name with
  | some s =>
      rw [hguest, Option.map_some] at hfound
      rw [hfound]
      exact ⟨rfl, hh⟩
  | none =>
      rw [hguest, Option.map_none] at hfound
      rw [hfound]
      have hmade := hh.makeSymbol package name false
      exact ⟨hmade.result, hmade.enter package⟩

theorem Hosts.intern (hh : r.Hosts lisp base host guest) (name : String) :
    r.Makes lisp base r.symbol ((r.interpreter lisp).intern host name) (lisp.intern guest name) :=
  hh.internIn lisp.package name

/-- The package of the guest's interpreter is the one that may be made. -/
theorem Hosts.makePackage (hh : r.Hosts lisp base host guest) (name : String)
    (hnext : guest.next = lisp.package) :
    r.Makes lisp base r.value (host.makePackage name) (guest.makePackage name) where
  result := by rw [Heap.makePackage, Heap.makePackage, value, hh.object_next]
  hosts :=
    { hh.advance 1 with
      packages := fun id => by
        rw [Heap.packageValue?, Heap.packageValue?, Heap.makePackage, Heap.makePackage,
          ← hh.object_next, Std.TreeMap.getElem?_insert, Std.TreeMap.getElem?_insert]
        simp only [Std.LawfulEqCmp.compare_eq_iff_eq, r.object_injective.eq_iff]
        split
        · rfl
        · exact hh.packages id
      symbols := fun id title => by
        rw [Heap.findSymbol_makePackage, Heap.findSymbol_makePackage, ← hh.object_next]
        simp only [r.object_injective.eq_iff]
        split
        · rfl
        · exact hh.symbols id title
      alone := fun id hid => by
        rw [Heap.makePackage, Std.TreeMap.mem_insert, Std.LawfulEqCmp.compare_eq_iff_eq] at hid
        rcases hid with hnew | hold
        · exact hnew ▸ hnext
        · exact hh.alone id hold
      spares :=
        { (hh.advance 1).spares with
          packages := fun id hid => by
            rw [Heap.makePackage, ← hh.object_next, Std.TreeMap.getElem?_insert, if_neg]
            · exact hh.spares.packages id hid
            · rw [Std.LawfulEqCmp.compare_eq_iff_eq]
              exact ne_of_not_mem_range hid } }

/-! ## What is set -/

theorem Follows.setCells (hf : r.Follows base host guest) (s : Symbol) (c : Cells) :
    r.Follows base (host.setCells (r.symbol s) (r.cells c)) (guest.setCells s c) :=
  { hf with
    cells := fun id => by
      show (host.cells.insert (r.object s.id) (r.cells c))[r.object id]? =
        (guest.cells.insert s.id c)[id]?.map r.cells
      rw [Std.TreeMap.getElem?_insert, Std.TreeMap.getElem?_insert]
      simp only [Std.LawfulEqCmp.compare_eq_iff_eq, r.object_injective.eq_iff]
      split
      · rfl
      · exact hf.cells id
    spares :=
      { hf.spares with
        cells := fun id hid => by
          show (host.cells.insert (r.object s.id) (r.cells c))[id]? = _
          rw [Std.TreeMap.getElem?_insert, if_neg]
          · exact hf.spares.cells id hid
          · rw [Std.LawfulEqCmp.compare_eq_iff_eq]
            exact ne_of_not_mem_range hid } }

theorem Follows.setValue (hf : r.Follows base host guest) (s : Symbol) (v : Value) :
    r.Follows base (host.setValue (r.symbol s) (r.value v)) (guest.setValue s v) := by
  rw [Heap.setValue, hf.cellsOf]
  exact hf.setCells s { guest.cellsOf s with value := some v }

theorem Follows.setFunction (hf : r.Follows base host guest) (s : Symbol) (v : Value) :
    r.Follows base (host.setFunction (r.symbol s) (r.value v)) (guest.setFunction s v) := by
  rw [Heap.setFunction, hf.cellsOf]
  exact hf.setCells s { guest.cellsOf s with function := some v }

theorem Follows.assignIn (hf : r.Follows base host guest) (id : FrameId) (key : ObjectId)
    (v : Value) :
    r.Follows base
      { host with
        frames := host.frames.modify (r.frameId id) (·.assign (r.object key) (r.value v)) }
      { guest with frames := guest.frames.modify id (·.assign key v) } :=
  { hf with
    size := by simpa using hf.size
    frames := fun id' => by
      rw [Heap.frame_modify, Heap.frame_modify]
      simp only [r.frameId_injective.eq_iff, hf.frames, assign_frame]
      split <;> rfl
    spares :=
      { hf.spares with
        frames := fun id' hid => by
          rw [Heap.frame_modify, if_neg]
          · exact hf.spares.frames id' hid
          · exact fun heq => hid ⟨_, heq⟩ } }

/-- Assigning a variable on both sides. -/
theorem Follows.assign (hf : r.Follows base host guest) {host' guest' : Heap} {e : Environment}
    {key : ObjectId} {v : Value}
    (hhost : host.assign? (r.env e) (r.object key) (r.value v) = some host')
    (hguest : guest.assign? e key v = some guest') : r.Follows base host' guest' := by
  obtain ⟨id, hid, rfl⟩ := Option.map_eq_some_iff.1 hguest
  obtain ⟨id', hid', rfl⟩ := Option.map_eq_some_iff.1 hhost
  rw [hf.binder?, hid] at hid'
  obtain rfl : r.frameId id = id' := Option.some.inj hid'
  exact hf.assignIn id key v

theorem Hosts.assign (hh : r.Hosts lisp base host guest) {host' guest' : Heap} {e : Environment}
    {key : ObjectId} {v : Value}
    (hhost : host.assign? (r.env e) (r.object key) (r.value v) = some host')
    (hguest : guest.assign? e key v = some guest') : r.Hosts lisp base host' guest' := by
  have hf := hh.toFollows.assign hhost hguest
  obtain ⟨id, hid, rfl⟩ := Option.map_eq_some_iff.1 hguest
  obtain ⟨id', hid', rfl⟩ := Option.map_eq_some_iff.1 hhost
  exact ⟨hf, hh.symbols, hh.alone⟩

theorem Hosts.setValue (hh : r.Hosts lisp base host guest) (s : Symbol) (v : Value) :
    r.Hosts lisp base (host.setValue (r.symbol s) (r.value v)) (guest.setValue s v) :=
  ⟨hh.toFollows.setValue s v, hh.symbols, hh.alone⟩

theorem Hosts.setFunction (hh : r.Hosts lisp base host guest) (s : Symbol) (v : Value) :
    r.Hosts lisp base (host.setFunction (r.symbol s) (r.value v)) (guest.setFunction s v) :=
  ⟨hh.toFollows.setFunction s v, hh.symbols, hh.alone⟩

/-! ## New interpreters -/

theorem Hosts.define (hh : r.Hosts lisp base host guest) (maker : Interpreter) (name : String)
    (v : Value) :
    r.Hosts lisp base ((r.interpreter maker).define host name (r.value v))
      (maker.define guest name v) := by
  have hsymbol := hh.internIn maker.package name
  show r.Hosts lisp base ((host.intern (r.object maker.package) name).2.setValue
    (host.intern (r.object maker.package) name).1 (r.value v)) _
  rw [hsymbol.result]
  exact hsymbol.hosts.setValue _ v

/-- What is made on both sides and then defined. -/
theorem Makes.define {out out' : Value × Heap} (hmade : r.Makes lisp base r.value out out')
    (maker : Interpreter) (name : String) :
    r.Hosts lisp base ((r.interpreter maker).define out.2 name out.1)
      (maker.define out'.2 name out'.1) := by
  rw [hmade.result]
  exact hmade.hosts.define maker name out'.1

theorem Hosts.install (hh : r.Hosts lisp base host guest) (maker : Interpreter) (name : String)
    {make : ObjectId → Value} (hmake : ∀ id, make (r.object id) = r.value (make id)) :
    r.Hosts lisp base ((r.interpreter maker).install host name make)
      (maker.install guest name make) := by
  have hsymbol := hh.internIn maker.package name
  have hmade := hsymbol.hosts.alloc (hmake _)
  show r.Hosts lisp base (Heap.setFunction _ (host.intern (r.object maker.package) name).1
    ((host.intern (r.object maker.package) name).2.alloc make).1) _
  rw [hmade.result, hsymbol.result]
  exact hmade.hosts.setFunction _ _

theorem Hosts.foldl {α : Type} {step step' : Heap → α → Heap}
    (hstep : ∀ host guest, r.Hosts lisp base host guest → ∀ a,
      r.Hosts lisp base (step host a) (step' guest a))
    (as : List α) (hh : r.Hosts lisp base host guest) :
    r.Hosts lisp base (as.foldl step host) (as.foldl step' guest) := by
  induction as generalizing host guest with
  | nil => exact hh
  | cons a as ih => exact ih (hstep host guest hh a)

theorem Hosts.origin (hh : r.Hosts lisp base host guest) (hnext : guest.next = lisp.package) :
    r.Makes lisp base r.interpreter (Interpreter.origin host) (Interpreter.origin guest) := by
  have hpackage := hh.makePackage Interpreter.packageName hnext
  have hnil := hpackage.hosts.makeSymbol guest.next "nil" true
  have ht := (hnil.enter guest.next).internIn guest.next "t"
  have hid : (host.makePackage Interpreter.packageName).1.id = r.object guest.next :=
    hh.object_next.symm
  unfold Interpreter.origin
  simp only [hid]
  refine ⟨?_, ht.hosts⟩
  rw [ht.result, hnil.result]
  rfl

/-- **A new interpreter**, on both sides. -/
theorem Hosts.fresh (hh : r.Hosts lisp base host guest) (hnext : guest.next = lisp.package) :
    r.Makes lisp base r.interpreter (Interpreter.fresh host) (Interpreter.fresh guest) := by
  have horigin := hh.origin hnext
  refine ⟨horigin.result, ?_⟩
  unfold Interpreter.fresh
  generalize SpecialForm.all = forms
  generalize Builtin.all = ops
  simp only [horigin.result]
  refine Hosts.foldl (fun _ _ hh op => hh.install _ op.name fun _ => rfl) ops ?_
  refine Hosts.foldl (fun _ _ hh form => hh.install _ form.name fun _ => rfl) forms ?_
  have hnil := horigin.hosts.define (Interpreter.origin guest).1 "nil"
    (Interpreter.origin guest).1.nilValue
  have ht := hnil.define (Interpreter.origin guest).1 "t" (Interpreter.origin guest).1.trueValue
  have hpi : r.Makes lisp base r.value (Heap.alloc _ (.number · Interpreter.pi))
      (Heap.alloc _ (.number · Interpreter.pi)) := ht.alloc rfl
  exact hpi.define (Interpreter.origin guest).1 "pi"

end Renaming

end SmallLisp
