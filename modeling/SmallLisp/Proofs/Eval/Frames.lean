import Mathlib.Data.List.Infix
import Mathlib.Data.List.Nodup
import SmallLisp.Proofs.Eval.Lawful

set_option autoImplicit false

/-! # The frames of environments

Two laws about frames that evaluation keeps, wherever it is entered.

The first says nothing about heaps, environments and values, so it holds everywhere. What is left
of it is that a computation takes off the environment all frames that it has pushed, however it
ends (`Eval.Releases`).

The second is about what lies below a frame. A frame is pushed once, when it is made, and lies on
the same frames ever after, in whatever environment it occurs. A `Lineage` records for each frame
of a heap what it was pushed on, and the environments that are in use are paths in it.
-/

namespace SmallLisp

/-! ## Entry points

Evaluation is entered at a form, at a call with the arguments still to be evaluated or already
evaluated, or at a native operator itself. -/

namespace Eval

/-- **A computation keeps every law about the shape of heaps.** -/
def KeepsShape (lisp : Interpreter) (act : Eval Value) : Prop :=
  ∀ (L : ShapeLaw lisp) (w : L.World), L.toLaw.Keeps w act L.toLaw.value

section

variable (lisp : Interpreter) (depth : Nat)

theorem keepsShape_evaluate (form : Value) : KeepsShape lisp (evaluate lisp depth form) :=
  fun L w => L.toLaw.keeps_evaluate depth (L.known w form)

theorem keepsShape_apply (operator argList : Value) :
    KeepsShape lisp (apply lisp (evaluate lisp depth) operator argList) :=
  fun L w => L.toLaw.keeps_apply (L.toLaw.keeps_evaluate depth) (L.known w argList) operator

theorem keepsShape_applyValues (operator : Value) (args : List Value) :
    KeepsShape lisp (applyValues lisp (evaluate lisp depth) operator args) :=
  fun L w => L.toLaw.keeps_applyValues (L.toLaw.keeps_evaluate depth) (L.values w args) operator

theorem keepsShape_specialForm (form : SpecialForm) (args : List Value) :
    KeepsShape lisp (form.run lisp (evaluate lisp depth) args) :=
  fun L w => L.toLaw.keeps_specialForm (L.toLaw.keeps_evaluate depth) form (L.values w args)

theorem keepsShape_callBuiltin (op : Builtin) (args : List Value) :
    KeepsShape lisp (callBuiltin lisp (evaluate lisp depth) op args) :=
  fun L w => L.toLaw.keeps_callBuiltin op (L.values w args) fun _ hrest g =>
    L.toLaw.keeps_applyValues (L.toLaw.keeps_evaluate depth) hrest g

variable {lisp}

theorem KeepsShape.holding {act : Eval Value} (hact : KeepsShape lisp act) (vs : List Value) :
    KeepsShape lisp (holding vs act) :=
  fun L w => View.keeps_holding (hact L w)

end

end Eval

/-! ## Frames are released -/

/-- The law that says nothing. -/
def ShapeLaw.vacuous (lisp : Interpreter) : ShapeLaw lisp where
  World := Unit
  order := PUnit.instLinearOrder.toPreorder
  heap _ _ := True
  env _ _ := True
  value _ _ := True
  var _ _ := True
  env_mono _ _ := trivial
  value_mono _ _ := trivial
  var_mono _ _ := trivial
  known _ _ := trivial
  toplevel _ := trivial
  check _ := trivial
  code _ _ := ⟨trivial, fun _ _ => trivial, fun _ _ => trivial⟩
  shape _ _ _ _ := trivial
  closure _ _ := trivial
  frame _ _ _ := .here trivial trivial
  setFunction _ := trivial
  setValue _ _ := trivial
  assign _ _ := trivial

namespace Eval

/-- **A computation releases its frames**: it leaves the environment as it was, whether it ends
in a value or not. -/
def Releases {α : Type} (act : Eval α) : Prop :=
  ∀ (a : Anchors) (s : State), (left (act a s)).env = s.env

theorem KeepsShape.releases {lisp : Interpreter} {act : Eval Value}
    (hact : KeepsShape lisp act) : Releases act := by
  intro a s
  have hend := hact (.vacuous lisp) () a s trivial trivial
  cases hrun : act a s <;> rw [hrun] at hend <;> exact hend.1

end Eval

/-! ## What frames lie on -/

/-- **The descent of frames**: for each frame, in the order in which they were made, the frames
that it was pushed on. Those are older. -/
structure Lineage where
  below : List Environment
  older : ∀ {id : FrameId} {e : Environment}, below[id]? = some e → ∀ f ∈ e, f < id

namespace Lineage

/-- The descent of no frames. -/
def empty : Lineage := ⟨[], nofun⟩

/-- New frames come after the old ones. -/
instance : Preorder Lineage where
  le l l' := l.below <+: l'.below
  le_refl l := List.prefix_refl l.below
  le_trans _ _ _ h h' := h.trans h'

/-- **An environment that follows the descent**: below each of its frames is what the frame was
pushed on. -/
inductive IsPath (l : Lineage) : Environment → Prop
  | nil : IsPath l []
  | cons {id : FrameId} {e : Environment} (hid : l.below[id]? = some e) (he : IsPath l e) :
      IsPath l (id :: e)

variable {l l' : Lineage} {e : Environment}

theorem IsPath.mono (hl : l ≤ l') (he : l.IsPath e) : l'.IsPath e := by
  obtain ⟨later, hlater⟩ := hl
  induction he with
  | nil => exact .nil
  | cons hid _ ih =>
      refine .cons ?_ ih
      rw [← hlater, List.getElem?_append_left (List.getElem?_eq_some_iff.1 hid).1, hid]

/-- What is left of a path when frames are taken off is a path. -/
theorem IsPath.of_append {above : Environment} (he : l.IsPath (above ++ e)) : l.IsPath e := by
  induction above with
  | nil => exact he
  | cons f above ih =>
      cases he with
      | cons _ hrest => exact ih hrest

theorem IsPath.drop (he : l.IsPath e) (n : Nat) : l.IsPath (e.drop n) := by
  rw [← List.take_append_drop n e] at he
  exact he.of_append

theorem IsPath.lt (he : l.IsPath e) : ∀ f ∈ e, f < l.below.length := by
  induction he with
  | nil => exact fun _ hf => absurd hf List.not_mem_nil
  | cons hid _ ih => exact List.forall_mem_cons.2 ⟨(List.getElem?_eq_some_iff.1 hid).1, ih⟩

/-- Frames get older from each to the next, so none occurs twice. -/
theorem IsPath.nodup (he : l.IsPath e) : e.Nodup := by
  induction he with
  | nil => exact List.nodup_nil
  | @cons id e hid _ ih =>
      exact List.nodup_cons.2 ⟨fun hmem => Nat.lt_irrefl id (l.older hid id hmem), ih⟩

/-- **A frame lies on the same frames in every path.** -/
theorem IsPath.below_eq {above above' e' : Environment} {f : FrameId}
    (h : l.IsPath (above ++ f :: e)) (h' : l.IsPath (above' ++ f :: e')) : e = e' := by
  cases h.of_append with
  | cons hf _ =>
      cases h'.of_append with
      | cons hf' _ => exact Option.some.inj (hf.symm.trans hf')

/-- The descent with a new frame, pushed on a path. -/
def push (l : Lineage) (e : Environment) (he : l.IsPath e) : Lineage where
  below := l.below ++ [e]
  older := by
    intro id e' hid f hf
    rw [List.getElem?_append] at hid
    split at hid
    · exact l.older hid f hf
    · rename_i hlen
      have hsingle := List.mem_of_getElem? hid
      rw [List.mem_singleton] at hsingle
      subst hsingle
      exact Nat.lt_of_lt_of_le (he.lt f hf) (Nat.le_of_not_lt hlen)

theorem le_push (he : l.IsPath e) : l ≤ l.push e he := List.prefix_append _ _

/-- A frame that is pushed on a path makes a path. -/
theorem isPath_push (he : l.IsPath e) : (l.push e he).IsPath (l.below.length :: e) :=
  .cons List.getElem?_concat_length (he.mono (le_push he))

end Lineage

/-! ## Frames and closures that stay -/

namespace Heap

/-- **A heap in which no frame and no closure has been made.** Variables may have been assigned. -/
structure Still (h h' : Heap) : Prop where
  size : h'.frames.size = h.frames.size
  closures : h'.closures = h.closures

theorem Still.refl (h : Heap) : Still h h := ⟨rfl, rfl⟩

theorem Still.trans {h h' h'' : Heap} (h₁ : Still h h') (h₂ : Still h' h'') : Still h h'' :=
  ⟨h₂.size.trans h₁.size, h₂.closures.trans h₁.closures⟩

theorem still_alloc (h : Heap) (make : ObjectId → Value) : Still h (h.alloc make).2 := ⟨rfl, rfl⟩

theorem still_setCells (h : Heap) (s : Symbol) (c : Cells) : Still h (h.setCells s c) := ⟨rfl, rfl⟩

theorem still_makePackage (h : Heap) (name : String) : Still h (h.makePackage name).2 := ⟨rfl, rfl⟩

theorem still_intern (h : Heap) (package : ObjectId) (name : String) :
    Still h (h.intern package name).2 := by
  obtain ⟨_, hclosures, hframes⟩ := h.shape_intern package name
  exact ⟨congrArg Array.size hframes, hclosures⟩

theorem still_assign? {h h' : Heap} {env : Environment} {key : ObjectId} {v : Value}
    (hassign : h.assign? env key v = some h') : Still h h' := by
  obtain ⟨id, _, rfl⟩ := Option.map_eq_some_iff.1 hassign
  exact ⟨Array.size_modify, rfl⟩

theorem still_listWithTail (h : Heap) (tail : Value) (items : List Value) :
    Still h (h.listWithTail tail items).2 := by
  induction items with
  | nil => exact .refl h
  | cons x xs ih => exact ih.trans (still_alloc _ _)

end Heap

namespace Interpreter

open Heap

theorem still_define (lisp : Interpreter) (h : Heap) (name : String) (v : Value) :
    Still h (lisp.define h name v) :=
  (still_intern h lisp.package name).trans (still_setCells _ _ _)

theorem still_install (lisp : Interpreter) (h : Heap) (name : String) (make : ObjectId → Value) :
    Still h (lisp.install h name make) :=
  ((still_intern h lisp.package name).trans (still_alloc _ make)).trans (still_setCells _ _ _)

theorem still_origin (h : Heap) : Still h (origin h).2 := by
  refine Still.trans ?_ (still_intern _ _ "t")
  exact ⟨rfl, rfl⟩

/-- A fresh interpreter has neither frames nor closures of its own. -/
theorem still_fresh (h : Heap) : Still h (fresh h).2 := by
  unfold fresh
  -- the operators are installed one by one, whichever they are
  generalize SpecialForm.all = forms
  generalize Builtin.all = ops
  refine List.foldlRecOn ops _ ?_ fun _ hstill _ _ => hstill.trans (still_install _ _ _ _)
  refine List.foldlRecOn forms _ ?_ fun _ hstill _ _ => hstill.trans (still_install _ _ _ _)
  refine .trans ?_ (still_define _ _ "pi" _)
  refine .trans ?_ (still_alloc _ _)
  exact ((still_origin h).trans (still_define _ _ "nil" _)).trans (still_define _ _ "t" _)

end Interpreter

/-! ## The descent of the frames of a heap -/

namespace Lineage

open Heap

/-- **The descent of the frames of a heap.** Closures have been made in environments that follow
it. -/
structure Describes (l : Lineage) (h : Heap) : Prop where
  size : h.frames.size = l.below.length
  closures : ∀ {id : ObjectId} {c : Closure}, h.closures[id]? = some c → l.IsPath c.env

variable {l : Lineage} {h h' : Heap} {e : Environment}

theorem Describes.of_still (hl : l.Describes h) (hstill : Still h h') : l.Describes h' where
  size := hstill.size.trans hl.size
  closures := fun hc => hl.closures (hstill.closures ▸ hc)

theorem describes_empty (hframes : h.frames.size = 0) (hclosures : h.closures = {}) :
    empty.Describes h where
  size := hframes
  closures := fun hc => by
    rw [hclosures] at hc
    simp at hc

theorem describes_makeClosure (hl : l.Describes h) (name : Option Symbol) {code : Closure}
    (hcode : l.IsPath code.env) : l.Describes (h.makeClosure name code).2 where
  size := hl.size
  closures := by
    intro id c hc
    rw [makeClosure, Std.TreeMap.getElem?_insert] at hc
    split at hc
    · cases hc
      exact hcode
    · exact hl.closures hc

/-- **A new frame on a path** is new in the descent. -/
theorem describes_makeFrame (hl : l.Describes h) (he : l.IsPath e) (frame : Frame) :
    ∃ l', l ≤ l' ∧ l'.Describes (h.makeFrame frame).2 ∧
      l'.IsPath ((h.makeFrame frame).1 :: e) := by
  refine ⟨l.push e he, le_push he, ⟨?_, fun hc => (hl.closures hc).mono (le_push he)⟩, ?_⟩
  · simp [makeFrame, push, hl.size]
  · show (l.push e he).IsPath (h.frames.size :: e)
    rw [hl.size]
    exact isPath_push he

/-- **Evaluation follows the descent of frames.** -/
def law (lisp : Interpreter) (htop : lisp.toplevel = []) : ShapeLaw lisp where
  World := Lineage
  heap := Describes
  env := IsPath
  value _ _ := True
  var _ _ := True
  env_mono := IsPath.mono
  value_mono _ _ := trivial
  var_mono _ _ := trivial
  known _ _ := trivial
  toplevel _ := htop ▸ .nil
  check _ := trivial
  code hl hc := ⟨hl.closures hc, fun _ _ => trivial, fun _ _ => trivial⟩
  shape hl _ hclosures hframes := hl.of_still ⟨congrArg Array.size hframes, hclosures⟩
  closure hl hcode := describes_makeClosure hl _ hcode.env
  frame hl he _ := describes_makeFrame hl he _
  setFunction hl := hl.of_still (still_setCells _ _ _)
  setValue hl _ := hl.of_still (still_setCells _ _ _)
  assign hl hassign := hl.of_still (still_assign? hassign)

end Lineage

end SmallLisp
