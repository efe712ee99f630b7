import Mathlib.Order.Basic
import Mathlib.Tactic.Common
import SmallLisp.Eval.Evaluate
import SmallLisp.Heap.Lemmas

set_option autoImplicit false

/-! # Laws that evaluation keeps

An invariant of evaluation is more than a property of heaps. To show that a call of a closure
keeps it, one has to know that the environment of the closure may be run in and that its
parameters may be bound; and to show that a variable may be assigned, one has to know its value.
So an invariant has parts for heaps, for environments, for values and for variables, and they all
speak about what is known so far of the run, its *world* (`View`).

A `Law` is a view that is kept by each single thing that code can do to a heap, under the
conditions under which code does it: only variables are bound and assigned, a closure is made in
the current environment, and only the code of a closure is ever run elsewhere. `Eval.Built` says
which computations there are, but not what they are applied to, and here that is the point.

That a computation keeps a law (`View.Keeps`) includes that it leaves the current environment as
it was, however it ends. This file has the rules by which such computations are put together; that
evaluation is one of them is shown in `Eval.Lawful`.
-/

namespace SmallLisp

/-! ## Views -/

/-- **A view of a run**: what is said of its heaps, environments, values and variables. A world
stands for what is known at some time, and what is known stays known in later worlds. Only a heap
may be right for one world and not for a later one. -/
structure View where
  World : Type
  [order : Preorder World]
  heap : World → Heap → Prop
  env : World → Environment → Prop
  value : World → Value → Prop
  var : World → Symbol → Prop
  env_mono : ∀ {w w' : World} {e : Environment}, w ≤ w' → env w e → env w' e
  value_mono : ∀ {w w' : World} {v : Value}, w ≤ w' → value w v → value w' v
  var_mono : ∀ {w w' : World} {s : Symbol}, w ≤ w' → var w s → var w' s

attribute [instance] View.order

namespace View

/-- A heap that is right for some later world, about which something more is said. -/
def Reaches (V : View) (w : V.World) (h : Heap) (post : V.World → Prop) : Prop :=
  ∃ w', w ≤ w' ∧ V.heap w' h ∧ post w'

/-- Values that are all known. -/
def values (V : View) (w : V.World) (vs : List Value) : Prop := ∀ v ∈ vs, V.value w v

/-- A frame that binds variables to known values. -/
def IsFrame (V : View) (w : V.World) (frame : Frame) : Prop :=
  ∀ b ∈ frame.bindings, (∃ s, b.object = .symbol s ∧ V.var w s) ∧ V.value w b.value

/-- Code that may be run: its parameters are variables, its body is known, and its environment
may be run in. -/
structure IsCode (V : View) (w : V.World) (c : Closure) : Prop where
  env : V.env w c.env
  bound : ∀ s ∈ c.params ++ c.rest.toList, V.var w s
  body : V.values w c.body

section

variable {V : View} {w w' : V.World} {h : Heap}

theorem Reaches.here {post : V.World → Prop} (hh : V.heap w h) (hpost : post w) :
    V.Reaches w h post := ⟨w, le_refl w, hh, hpost⟩

theorem Reaches.from_later {post : V.World → Prop} (hw : w ≤ w') (hr : V.Reaches w' h post) :
    V.Reaches w h post := by
  obtain ⟨u, hu, hh, hpost⟩ := hr
  exact ⟨u, le_trans hw hu, hh, hpost⟩

theorem Reaches.imp {post post' : V.World → Prop} (hr : V.Reaches w h post)
    (himp : ∀ u, w ≤ u → post u → post' u) : V.Reaches w h post' := by
  obtain ⟨u, hu, hh, hpost⟩ := hr
  exact ⟨u, hu, hh, himp u hu hpost⟩

theorem values_mono {vs : List Value} (hw : w ≤ w') (hvs : V.values w vs) : V.values w' vs :=
  fun v hv => V.value_mono hw (hvs v hv)

theorem values_cons {v : Value} {vs : List Value} :
    V.values w (v :: vs) ↔ V.value w v ∧ V.values w vs :=
  List.forall_mem_cons

theorem values_nil : V.values w [] := fun _ hv => absurd hv List.not_mem_nil

theorem IsFrame.mono {frame : Frame} (hw : w ≤ w') (hframe : V.IsFrame w frame) :
    V.IsFrame w' frame := by
  intro b hb
  obtain ⟨⟨s, hs, hvar⟩, hv⟩ := hframe b hb
  exact ⟨⟨s, hs, V.var_mono hw hvar⟩, V.value_mono hw hv⟩

end

end View

/-! ## Laws -/

/-- **A law**: a view that is kept by whatever code can do to a heap. -/
structure Law (lisp : Interpreter) extends View where
  -- what is known to begin with, and what is read off what is known
  toplevel : ∀ w, env w lisp.toplevel
  nil : ∀ w, value w lisp.nilValue
  t : ∀ w, value w lisp.trueValue
  parts : ∀ {w : World} {id : ObjectId} {car cdr : Value}, value w (.cons id car cdr) →
    value w car ∧ value w cdr
  name : ∀ {w : World} {s : Symbol}, value w (.symbol s) → value w (.nameOf s)
  cell : ∀ {w : World} {h : Heap} {s : Symbol} {v : Value}, heap w h → value w (.symbol s) →
    v ∈ Heap.cellValues (h.cellsOf s) → value w v
  package : ∀ {w : World} {h : Heap} {a : Anchors} {s : Symbol} {v : Value}, heap w h →
    value w (.symbol s) → lisp.packageOf? h a s = some v → value w v
  lookup : ∀ {w : World} {h : Heap} {e : Environment} {key : ObjectId} {v : Value}, heap w h →
    env w e → h.lookup e key = some v → value w v
  check : ∀ {w : World} {s : Symbol}, value w (.symbol s) →
    lisp.isConstant (.symbol s) = false → var w s
  code : ∀ {w : World} {h : Heap} {id : ObjectId} {c : Closure}, heap w h →
    h.closures[id]? = some c → toView.IsCode w c
  -- what is made
  number : ∀ {w : World} {h : Heap}, heap w h → ∀ n,
    toView.Reaches w (h.alloc (.number · n)).2 fun w' => value w' (h.alloc (.number · n)).1
  string : ∀ {w : World} {h : Heap}, heap w h → ∀ s,
    toView.Reaches w (h.alloc (.string · s)).2 fun w' => value w' (h.alloc (.string · s)).1
  cons : ∀ {w : World} {h : Heap} {car cdr : Value}, heap w h → value w car → value w cdr →
    toView.Reaches w (h.cons car cdr).2 fun w' => value w' (h.cons car cdr).1
  intern : ∀ {w : World} {h : Heap}, heap w h → ∀ name,
    toView.Reaches w (lisp.intern h name).2 fun w' => value w' (.symbol (lisp.intern h name).1)
  closure : ∀ {w : World} {h : Heap} {name : Option Symbol} {c : Closure}, heap w h →
    (∀ s ∈ name, value w (.symbol s)) → toView.IsCode w c →
    toView.Reaches w (h.makeClosure name c).2 fun w' => value w' (h.makeClosure name c).1
  frame : ∀ {w : World} {h : Heap} {e : Environment} {frame : Frame}, heap w h → env w e →
    toView.IsFrame w frame →
    toView.Reaches w (h.makeFrame frame).2 fun w' => env w' ((h.makeFrame frame).1 :: e)
  -- what is changed; only closures become functions of symbols
  setFunction : ∀ {w : World} {h : Heap} {s : Symbol} {id : ObjectId} {name : Option Symbol},
    heap w h → value w (.symbol s) → value w (.closure id name) →
    toView.Reaches w (h.setFunction s (.closure id name)) fun _ => True
  setValue : ∀ {w : World} {h : Heap} {s : Symbol} {v : Value}, heap w h →
    var w s → value w v → toView.Reaches w (h.setValue s v) fun _ => True
  assign : ∀ {w : World} {h h' : Heap} {e : Environment} {s : Symbol} {v : Value}, heap w h →
    env w e → var w s → value w v → h.assign? e s.id v = some h' →
    toView.Reaches w h' fun _ => True

/-- **A law that says nothing about values.** It is a matter of cells, closures and frames, so that
it does not notice other objects being made and names being interned. -/
structure ShapeLaw (lisp : Interpreter) extends View where
  known : ∀ w v, value w v
  toplevel : ∀ w, env w lisp.toplevel
  check : ∀ {w : World} {s : Symbol}, lisp.isConstant (.symbol s) = false → var w s
  code : ∀ {w : World} {h : Heap} {id : ObjectId} {c : Closure}, heap w h →
    h.closures[id]? = some c → toView.IsCode w c
  shape : ∀ {w : World} {h h' : Heap}, heap w h → h'.cells = h.cells →
    h'.closures = h.closures → h'.frames = h.frames → heap w h'
  closure : ∀ {w : World} {h : Heap} {name : Option Symbol} {c : Closure}, heap w h →
    toView.IsCode w c → heap w (h.makeClosure name c).2
  frame : ∀ {w : World} {h : Heap} {e : Environment} {frame : Frame}, heap w h → env w e →
    toView.IsFrame w frame →
    toView.Reaches w (h.makeFrame frame).2 fun w' => env w' ((h.makeFrame frame).1 :: e)
  setFunction : ∀ {w : World} {h : Heap} {s : Symbol} {v : Value}, heap w h →
    heap w (h.setFunction s v)
  setValue : ∀ {w : World} {h : Heap} {s : Symbol} {v : Value}, heap w h → var w s →
    heap w (h.setValue s v)
  assign : ∀ {w : World} {h h' : Heap} {e : Environment} {s : Symbol} {v : Value}, heap w h →
    h.assign? e s.id v = some h' → heap w h'

/-- Interning is a matter of packages only. -/
theorem Heap.shape_intern (h : Heap) (package : ObjectId) (name : String) :
    (h.intern package name).2.cells = h.cells ∧
      (h.intern package name).2.closures = h.closures ∧
      (h.intern package name).2.frames = h.frames := by
  unfold Heap.intern
  split <;> exact ⟨rfl, rfl, rfl⟩

namespace ShapeLaw

variable {lisp : Interpreter}

theorem intern (L : ShapeLaw lisp) {w : L.World} {h : Heap} (hheap : L.heap w h) (name : String) :
    L.heap w (lisp.intern h name).2 := by
  obtain ⟨hcells, hclosures, hframes⟩ := h.shape_intern lisp.package name
  exact L.shape hheap hcells hclosures hframes

/-- Where all values are known nothing has to be shown about them. -/
def toLaw (L : ShapeLaw lisp) : Law lisp where
  toView := L.toView
  toplevel := L.toplevel
  nil w := L.known w _
  t w := L.known w _
  parts _ := ⟨L.known _ _, L.known _ _⟩
  name _ := L.known _ _
  cell _ _ _ := L.known _ _
  package _ _ _ := L.known _ _
  lookup _ _ _ := L.known _ _
  check _ hs := L.check hs
  code := L.code
  number hheap _ := .here (L.shape hheap rfl rfl rfl) (L.known _ _)
  string hheap _ := .here (L.shape hheap rfl rfl rfl) (L.known _ _)
  cons hheap _ _ := .here (L.shape hheap rfl rfl rfl) (L.known _ _)
  intern hheap name := .here (L.intern hheap name) (L.known _ _)
  closure hheap _ hcode := .here (L.closure hheap hcode) (L.known _ _)
  frame := L.frame
  setFunction hheap _ _ := .here (L.setFunction hheap) trivial
  setValue hheap hs _ := .here (L.setValue hheap hs) trivial
  assign hheap _ _ _ hassign := .here (L.assign hheap hassign) trivial

theorem values (L : ShapeLaw lisp) (w : L.World) (vs : List Value) : L.toLaw.values w vs :=
  fun v _ => L.known w v

end ShapeLaw

namespace View

open Eval

/-! ## Computations that keep a view -/

/-- How a computation ends: its environment is as it should be, and its heap is right for a later
world, which is also where its value is known. -/
def Ends (V : View) (w : V.World) (kept : Environment → Prop) {α : Type}
    (P : V.World → α → Prop) : EStateM.Result Stop State α → Prop
  | .ok v s => kept s.env ∧ V.Reaches w s.heap fun w' => V.env w' s.env ∧ P w' v
  | .error _ s => kept s.env ∧ V.Reaches w s.heap fun _ => True

/-- **A computation keeps a view**: it may be run in any heap that is right and any environment
that is known, and leaves the environment as it was. -/
def Keeps (V : View) (w : V.World) {α : Type} (act : Eval α) (P : V.World → α → Prop) : Prop :=
  ∀ a s, V.heap w s.heap → V.env w s.env → V.Ends w (· = s.env) P (act a s)

/-- **A computation for the inside of a scope.** It may leave new frames on the environment. -/
def Stacks (V : View) (w : V.World) {α : Type} (act : Eval α) (P : V.World → α → Prop) :
    Prop :=
  ∀ a s, V.heap w s.heap → V.env w s.env → V.Ends w (s.env <:+ ·) P (act a s)

section

variable {V : View} {w : V.World} {α β : Type} {P : V.World → α → Prop}
  {Q : V.World → β → Prop}

/-- What ends well after a computation that ended well ends well altogether. -/
theorem Ends.bind {kept : Environment → Prop} {x : Eval α} {f : α → Eval β} {a : Anchors}
    {s : State} (hx : V.Ends w kept P (x a s))
    (hf : ∀ w' v s', w ≤ w' → kept s'.env → V.heap w' s'.heap → V.env w' s'.env → P w' v →
      V.Ends w' kept Q (f v a s')) : V.Ends w kept Q ((x >>= f) a s) := by
  show V.Ends w kept Q (EStateM.bind (x a) (fun v => f v a) s)
  unfold EStateM.bind
  cases hrun : x a s with
  | error e s' =>
      rw [hrun] at hx
      exact hx
  | ok v s' =>
      rw [hrun] at hx
      obtain ⟨hkept, w', hw, hheap, henv, hpost⟩ := hx
      have hend := hf w' v s' hw hkept hheap henv hpost
      simp only
      revert hend
      cases f v a s' with
      | ok u s'' => exact fun hend => ⟨hend.1, hend.2.from_later hw⟩
      | error e s'' => exact fun hend => ⟨hend.1, hend.2.from_later hw⟩

theorem Keeps.bind {x : Eval α} {f : α → Eval β} (hx : V.Keeps w x P)
    (hf : ∀ w' v, w ≤ w' → P w' v → V.Keeps w' (f v) Q) : V.Keeps w (x >>= f) Q := by
  intro a s hheap henv
  refine (hx a s hheap henv).bind fun w' v s' hw hkept hheap' henv' hpost => ?_
  rw [← hkept]
  exact hf w' v hw hpost a s' hheap' henv'

theorem Ends.imp {kept kept' : Environment → Prop} {r : EStateM.Result Stop State α}
    (hr : V.Ends w kept P r) (hk : ∀ e, kept e → kept' e) : V.Ends w kept' P r := by
  cases r with
  | ok v s => exact ⟨hk _ hr.1, hr.2⟩
  | error e s => exact ⟨hk _ hr.1, hr.2⟩

theorem Keeps.imp_post {act : Eval α} {Q : V.World → α → Prop} (hact : V.Keeps w act P)
    (himp : ∀ w' v, P w' v → Q w' v) : V.Keeps w act Q := by
  intro a s hheap henv
  have hend := hact a s hheap henv
  revert hend
  cases act a s with
  | ok v s' => exact fun hend => ⟨hend.1, hend.2.imp fun w' _ hp => ⟨hp.1, himp w' v hp.2⟩⟩
  | error e s' => exact fun hend => hend

theorem Stacks.bind {x : Eval α} {f : α → Eval β} (hx : V.Stacks w x P)
    (hf : ∀ w' v, w ≤ w' → P w' v → V.Stacks w' (f v) Q) :
    V.Stacks w (x >>= f) Q := by
  intro a s hheap henv
  refine (hx a s hheap henv).bind fun w' v s' hw hkept hheap' henv' hpost => ?_
  exact (hf w' v hw hpost a s' hheap' henv').imp fun e he => hkept.trans he

theorem Keeps.stacks {act : Eval α} (hact : V.Keeps w act P) : V.Stacks w act P :=
  fun a s hheap henv => (hact a s hheap henv).imp fun _ he => he ▸ List.suffix_refl _

/-! ## Primitive computations -/

theorem keeps_pure {v : α} (hv : P w v) : V.Keeps w (pure v : Eval α) P :=
  fun _ _ hheap henv => ⟨rfl, .here hheap ⟨henv, hv⟩⟩

theorem keeps_stop (e : Stop) : V.Keeps w (throw e : Eval α) P :=
  fun _ _ hheap _ => ⟨rfl, .here hheap trivial⟩

theorem keeps_fail (e : EvalError) : V.Keeps w (fail e : Eval α) P := keeps_stop (.error e)

theorem keeps_ofExcept {x : Except EvalError α} (hx : ∀ v, x = .ok v → P w v) :
    V.Keeps w (ofExcept x) P := by
  cases x with
  | ok v => exact keeps_pure (hx v rfl)
  | error e => exact keeps_fail e

/-- A check whose result does not matter. -/
theorem keeps_check (x : Except EvalError α) : V.Keeps w (ofExcept x) fun _ _ => True :=
  keeps_ofExcept fun _ _ => trivial

theorem keeps_onHeap {f : Heap → α} (hf : ∀ h, V.heap w h → P w (f h)) :
    V.Keeps w (onHeap f) P :=
  fun _ s hheap henv => ⟨rfl, .here hheap ⟨henv, hf s.heap hheap⟩⟩

theorem keeps_inspect {f : Anchors → Heap → α} (hf : ∀ a h, V.heap w h → P w (f a h)) :
    V.Keeps w (inspect f) P :=
  fun _ s hheap henv => ⟨rfl, .here hheap ⟨henv, hf _ s.heap hheap⟩⟩

theorem keeps_environment : V.Keeps w environment V.env :=
  fun _ _ hheap henv => ⟨rfl, .here hheap ⟨henv, henv⟩⟩

theorem keeps_make {f : Heap → α × Heap}
    (hf : ∀ h, V.heap w h → V.Reaches w (f h).2 fun w' => P w' (f h).1) :
    V.Keeps w (make f) P :=
  fun _ s hheap henv => ⟨rfl, (hf s.heap hheap).imp fun _ hw hv => ⟨V.env_mono hw henv, hv⟩⟩

theorem keeps_change {f : Heap → Heap}
    (hf : ∀ h, V.heap w h → V.Reaches w (f h) fun _ => True) :
    V.Keeps w (change f) fun _ _ => True :=
  fun _ s hheap henv => ⟨rfl, (hf s.heap hheap).imp fun _ hw _ => ⟨V.env_mono hw henv, trivial⟩⟩

theorem keeps_holding {vs : List Value} {body : Eval α} (hbody : V.Keeps w body P) :
    V.Keeps w (holding vs body) P :=
  fun a s => hbody (a.hold vs) s

theorem truncate_of_suffix {env env' : Environment} (h : env <:+ env') :
    env'.truncate env.length = env := by
  obtain ⟨pushed, rfl⟩ := h
  exact Environment.truncate_append pushed env

/-- A scope takes off what its body has left on the environment. -/
theorem keeps_withScope {body : Eval α} (hbody : V.Stacks w body P) :
    V.Keeps w (withScope body) P := by
  intro a s hheap henv
  have hend := hbody a s hheap henv
  simp only [withScope]
  cases hrun : body a s with
  | ok v s' =>
      rw [hrun] at hend
      have hback := truncate_of_suffix hend.1
      refine ⟨hback, hend.2.imp fun w' hw hpost => ⟨?_, hpost.2⟩⟩
      exact hback.symm ▸ V.env_mono hw henv
  | error e s' =>
      rw [hrun] at hend
      exact ⟨truncate_of_suffix hend.1, hend.2⟩

theorem keeps_inEnvironment {e : Environment} {body : Eval α} (he : V.env w e)
    (hbody : V.Keeps w body P) : V.Keeps w (inEnvironment e body) P := by
  intro a s hheap henv
  have hend := hbody (a.stay s.env) { s with env := e } hheap he
  simp only [inEnvironment]
  cases hrun : body (a.stay s.env) { s with env := e } with
  | ok v s' =>
      rw [hrun] at hend
      exact ⟨rfl, hend.2.imp fun w' hw hpost => ⟨V.env_mono hw henv, hpost.2⟩⟩
  | error e s' =>
      rw [hrun] at hend
      exact ⟨rfl, hend.2⟩

end

end View

namespace Law

open Eval View

variable {lisp : Interpreter} (L : Law lisp) {w : L.World}

/-! ## What the primitives of evaluation keep -/

theorem value_truth (b : Bool) : L.value w (lisp.truth b) := by
  unfold Interpreter.truth
  split
  · exact L.t w
  · exact L.nil w

theorem keeps_functionOf {s : Symbol} (hs : L.value w (.symbol s)) :
    L.Keeps w (functionOf s) L.value := by
  refine Keeps.bind (P := fun w f => ∀ v ∈ f, L.value w v)
    (keeps_onHeap fun h hheap v hv => ?_) fun w' found _ hfound => ?_
  · exact L.cell hheap hs (by simp [Heap.cellValues, Option.mem_def.1 hv])
  · cases found with
    | some f => exact keeps_pure (hfound f rfl)
    | none => exact keeps_fail _

/-- A list is made from its end on, so that every cell comes after all that it holds. -/
theorem reaches_listWithTail {h : Heap} {tail : Value} {items : List Value} (hheap : L.heap w h)
    (htail : L.value w tail) (hitems : L.values w items) :
    L.Reaches w (h.listWithTail tail items).2 fun w' =>
      L.value w' (h.listWithTail tail items).1 := by
  induction items with
  | nil => exact .here hheap htail
  | cons x xs ih =>
      obtain ⟨hx, hxs⟩ := values_cons.1 hitems
      obtain ⟨w', hw, hheap', hrest⟩ := ih hxs
      exact (L.cons hheap' (L.value_mono hw hx) hrest).from_later hw

theorem keeps_list {items : List Value} (hitems : L.values w items) :
    L.Keeps w (make (lisp.list · items)) L.value :=
  keeps_make fun _ hheap => L.reaches_listWithTail hheap (L.nil w) hitems

theorem keeps_lexical (s : Symbol) :
    L.Keeps w (lexical? s) fun w found => ∀ v ∈ found, L.value w v :=
  fun _ _ hheap henv => ⟨rfl, .here hheap ⟨henv, fun _ hv => L.lookup hheap henv hv⟩⟩

theorem keeps_assign {s : Symbol} {v : Value} (hs : L.var w s)
    (hv : L.value w v) : L.Keeps w (Eval.assign s v) fun _ _ => True := by
  intro a st hheap henv
  simp only [Eval.assign]
  split
  · rename_i h' hassign
    exact ⟨rfl, (L.assign hheap henv hs hv hassign).imp fun w' hw _ =>
      ⟨L.env_mono hw henv, trivial⟩⟩
  · exact ⟨rfl, (L.setValue hheap hs hv).imp fun w' hw _ => ⟨L.env_mono hw henv, trivial⟩⟩

theorem stacks_push {frame : Frame} (hframe : L.IsFrame w frame) :
    L.Stacks w (push frame) fun _ _ => True := by
  intro a s hheap henv
  exact ⟨List.suffix_cons _ _, (L.frame hheap henv hframe).imp fun _ _ he => ⟨he, trivial⟩⟩

end Law

end SmallLisp
