import SmallLisp.Proofs.Interpreter.Names
import SmallLisp.Proofs.Program.Calls

set_option autoImplicit false

/-! # Evaluations that end

Only closures can make an evaluation go on for ever, and a program gets at them by `lambda`, `defun`
and `funcall` alone. As long as the functions of symbols are those that an interpreter starts with
(`Interpreter.Pristine`), a form without these three symbols needs no more levels than its lists are
nested (`Value.nesting`).

The measure is on the form because nothing that is evaluated comes from anywhere else: values of
variables are handed on but not evaluated. What has to be kept along the way is that symbols still
have the functions they had (`Heap.Alike`); it does not matter what happens to their values. A
computation that keeps this and is not exhausted *ends* (`Eval.Ends`), and so does whatever is put
together from computations that end.
-/

namespace SmallLisp

open Eval

/-! ## What has to stay as it is -/

/-- **Heaps that are alike**: packages have the same symbols and symbols the same functions. -/
structure Heap.Alike (h h' : Heap) : Prop where
  packages : h'.packages = h.packages
  function : ∀ s, (h'.cellsOf s).function = (h.cellsOf s).function

namespace Heap.Alike

variable {h h' : Heap}

theorem refl (h : Heap) : h.Alike h := ⟨rfl, fun _ => rfl⟩

/-- Neither new objects nor frames matter. -/
theorem of_eq (hh : h.Alike h') {h'' : Heap} (hcells : h''.cells = h'.cells)
    (hpackages : h''.packages = h'.packages) : h.Alike h'' where
  packages := hpackages.trans hh.packages
  function := fun s => by
    rw [cellsOf, hcells]
    exact hh.function s

theorem setValue (hh : h.Alike h') (s : Symbol) (v : Value) : h.Alike (h'.setValue s v) where
  packages := hh.packages
  function := fun s' => by
    rw [← hh.function s', cellsOf_setValue]
    split <;> rfl

theorem findSymbol (hh : h.Alike h') (lisp : Interpreter) (name : String) :
    lisp.findSymbol h' name = lisp.findSymbol h name := by
  rw [Interpreter.findSymbol, Interpreter.findSymbol, Heap.findSymbol, Heap.findSymbol, symbolsOf,
    symbolsOf, hh.packages]

theorem isLambdaForm (hh : h.Alike h') (lisp : Interpreter) (v : Value) :
    lisp.isLambdaForm h' v = lisp.isLambdaForm h v := by
  cases v with
  | cons id car cdr => rw [Interpreter.isLambdaForm, Interpreter.isLambdaForm, hh.findSymbol]
  | _ => rfl

end Heap.Alike

/-! ## Computations that end -/

namespace Eval

/-- **An outcome that is not exhausted**: a value of some kind or an error. Symbols have the
functions that they have in `h`. -/
def Ended {α : Type} (h : Heap) (Q : α → Prop) : EStateM.Result Stop State α → Prop
  | .ok v s => Q v ∧ h.Alike s.heap
  | .error e s => e ≠ .exhausted ∧ h.Alike s.heap

/-- **A computation ends** where symbols have the functions that they have in `h`. -/
def Ends {α : Type} (h : Heap) (Q : α → Prop) (x : Eval α) : Prop :=
  ∀ a s, h.Alike s.heap → Ended h Q (x a s)

section

variable {α β : Type} {h : Heap} {Q : α → Prop} {R : β → Prop} {x : Eval α}

theorem ends_pure {v : α} (hv : Q v) : Ends h Q (pure v) := fun _ _ hs => ⟨hv, hs⟩

theorem ends_fail (e : EvalError) : Ends h Q (fail e) := fun _ _ hs => ⟨nofun, hs⟩

theorem ends_ofExcept {checked : Except EvalError α} (hv : ∀ v, checked = .ok v → Q v) :
    Ends h Q (ofExcept checked) := by
  cases checked with
  | ok v => exact ends_pure (hv v rfl)
  | error e => exact ends_fail e

theorem ends_onHeap {f : Heap → α} (hf : ∀ h', h.Alike h' → Q (f h')) : Ends h Q (onHeap f) :=
  fun _ s hs => ⟨hf s.heap hs, hs⟩

theorem ends_inspect (f : Anchors → Heap → α) : Ends h (fun _ => True) (inspect f) :=
  fun _ _ hs => ⟨trivial, hs⟩

theorem ends_make {f : Heap → α × Heap}
    (hf : ∀ h', (f h').2.cells = h'.cells ∧ (f h').2.packages = h'.packages) :
    Ends h (fun _ => True) (make f) :=
  fun _ s hs => ⟨trivial, hs.of_eq (hf s.heap).1 (hf s.heap).2⟩

theorem ends_push (frame : Frame) : Ends h (fun _ => True) (push frame) :=
  fun _ _ hs => ⟨trivial, hs.of_eq rfl rfl⟩

theorem ends_lexical? (s : Symbol) : Ends h (fun _ => True) (lexical? s) :=
  fun _ _ hs => ⟨trivial, hs⟩

theorem ends_assign (x : Symbol) (v : Value) : Ends h (fun _ => True) (assign x v) := by
  intro a s hs
  unfold assign
  cases hassign : s.heap.assign? s.env x.id v with
  | some h' =>
      obtain ⟨id, _, rfl⟩ := Option.map_eq_some_iff.1 hassign
      exact ⟨trivial, hs.of_eq rfl rfl⟩
  | none => exact ⟨trivial, hs.setValue x v⟩

theorem Ends.bind {f : α → Eval β} (hx : Ends h Q x) (hf : ∀ v, Q v → Ends h R (f v)) :
    Ends h R (x >>= f) := by
  intro a s hs
  show Ended h R (EStateM.bind (x a) (fun v => f v a) s)
  unfold EStateM.bind
  have hfirst := hx a s hs
  cases hrun : x a s with
  | ok v t =>
      rw [hrun] at hfirst
      exact hf v hfirst.1 a t hfirst.2
  | error e t =>
      rw [hrun] at hfirst
      exact hfirst

theorem Ends.imp {Q' : α → Prop} (hx : Ends h Q x) (hQ : ∀ v, Q v → Q' v) : Ends h Q' x := by
  intro a s hs
  have hend := hx a s hs
  cases hrun : x a s with
  | ok v t =>
      rw [hrun] at hend
      exact ⟨hQ v hend.1, hend.2⟩
  | error e t =>
      rw [hrun] at hend
      exact hend

theorem Ends.holding (hx : Ends h Q x) (vs : List Value) : Ends h Q (holding vs x) :=
  fun a s hs => hx (a.hold vs) s hs

theorem Ends.withScope (hx : Ends h Q x) : Ends h Q (withScope x) := by
  intro a s hs
  rw [withScope_eq]
  have hbody := hx a s hs
  cases hrun : x a s with
  | ok v t =>
      rw [hrun] at hbody
      exact hbody
  | error e t =>
      rw [hrun] at hbody
      exact hbody

theorem ends_functionOf (s : Symbol) :
    Ends h (fun f => (h.cellsOf s).function = some f) (functionOf s) := by
  refine (ends_onHeap (Q := fun found => found = (h.cellsOf s).function)
    fun h' hh' => hh'.function s).bind fun found hfound => ?_
  subst hfound
  cases hfunction : (h.cellsOf s).function with
  | some f => exact ends_pure rfl
  | none => exact ends_fail _

end

/-! ## Builtins -/

section

variable {lisp : Interpreter} {h : Heap} {α : Type}

theorem ends_checked (checked : Except EvalError α) : Ends h (fun _ => True) (ofExcept checked) :=
  ends_ofExcept fun _ _ => trivial

theorem ends_makeNumber (n : Number) : Ends h (fun _ => True) (Builtin.makeNumber n) :=
  ends_make fun _ => ⟨rfl, rfl⟩

theorem ends_list (items : List Value) : Ends h (fun _ => True) (make (lisp.list · items)) := by
  refine ends_make fun h' => ?_
  rw [Interpreter.list, Heap.listWithTail_heap]
  exact ⟨rfl, rfl⟩

/-- What a builtin does itself always ends. -/
theorem ends_builtin (op : Builtin) (args : List Value) :
    Ends h (fun _ => True) (op.run lisp args) := by
  cases op with
  | eq =>
      simp only [Builtin.run]
      split
      · exact ends_pure trivial
      · exact ends_fail _
  | null => exact ends_pure trivial
  | not => exact ends_pure trivial
  | atom => exact ends_pure trivial
  | funcall => exact ends_fail _
  | arithmetic op => exact (ends_checked _).bind fun n _ => ends_makeNumber n
  | mod => exact (ends_checked _).bind fun i _ => ends_makeNumber _
  | relation rel => exact (ends_checked _).bind fun b _ => ends_pure trivial
  | trigonometric fn => exact (ends_checked _).bind fun x _ => ends_makeNumber _
  | car | first | cdr | rest =>
      simp only [Builtin.run]
      split
      · exact (ends_checked _).bind fun p _ => ends_pure trivial
      · exact ends_fail _
  | cons =>
      simp only [Builtin.run]
      split
      · exact ends_make fun _ => ⟨rfl, rfl⟩
      · exact ends_fail _
  | list => exact ends_list args
  | symbolPart part =>
      exact (ends_checked _).bind fun s _ => (ends_inspect _).bind fun x _ => ends_checked x

end

end Eval

/-! ## Forms -/

/-- **How deeply lists are nested in a value.** -/
def Value.nesting : Value → Nat
  | .cons _ car cdr => max (car.nesting + 1) cdr.nesting
  | _ => 0

/-- **An operator that runs no closure**: a builtin other than `funcall`, or a special form that
makes no closure. -/
inductive Value.IsPlainOperator : Value → Prop
  | specialForm (id : ObjectId) {form : SpecialForm} (hlambda : form ≠ .lambda)
      (hdefun : form ≠ .defun) : IsPlainOperator (.specialForm id form)
  | builtin (id : ObjectId) {op : Builtin} (hfuncall : op ≠ .funcall) :
      IsPlainOperator (.builtin id op)

/-- **A symbol that leads to no closure**: it is not `lambda`, and its function is plain. -/
structure Interpreter.Tame (lisp : Interpreter) (h : Heap) (s : Symbol) : Prop where
  not_lambda : ∀ l, lisp.findSymbol h "lambda" = some l → s.id ≠ l.id
  function : ∀ f, (h.cellsOf s).function = some f → f.IsPlainOperator

/-- **A form that can be evaluated in a number of levels**: it is not nested more deeply, and its
symbols are tame. -/
structure Value.Tame (lisp : Interpreter) (h : Heap) (depth : Nat) (v : Value) : Prop where
  nesting_lt : v.nesting < depth
  symbols : ∀ s ∈ v.symbols, lisp.Tame h s

namespace Value.Tame

variable {lisp : Interpreter} {h : Heap} {depth : Nat} {id : ObjectId} {v head tail : Value}

theorem car (hv : Tame lisp h (depth + 1) (.cons id head tail)) : Tame lisp h depth head where
  nesting_lt := by
    have hlt := hv.nesting_lt
    rw [nesting] at hlt
    omega
  symbols := fun s hs => hv.symbols s (List.mem_append_left _ hs)

theorem cdr (hv : Tame lisp h depth (.cons id head tail)) : Tame lisp h depth tail where
  nesting_lt := by
    have hlt := hv.nesting_lt
    rw [nesting] at hlt
    omega
  symbols := fun s hs => hv.symbols s (List.mem_append_right _ hs)

theorem mono (hv : Tame lisp h depth v) {depth' : Nat} (hle : depth ≤ depth') :
    Tame lisp h depth' v :=
  ⟨Nat.lt_of_lt_of_le hv.nesting_lt hle, hv.symbols⟩

/-- The elements of a list need one level less. -/
theorem items (hv : Tame lisp h (depth + 1) v) {xs : List Value} (hxs : v.items? = some xs) :
    ∀ x ∈ xs, Tame lisp h depth x := by
  induction v generalizing xs with
  | cons id car cdr _ ih =>
      obtain ⟨ys, hys, rfl⟩ := Option.map_eq_some_iff.1 hxs
      exact List.forall_mem_cons.2 ⟨hv.car, ih hv.cdr hys⟩
  | symbol s =>
      rw [items?] at hxs
      split at hxs
      · cases hxs
        exact List.forall_mem_nil _
      · cases hxs
  | _ => cases hxs

theorem items_le (hv : Tame lisp h depth v) {xs : List Value} (hxs : v.items? = some xs) :
    ∀ x ∈ xs, Tame lisp h depth x :=
  (hv.mono (Nat.le_succ depth)).items hxs

/-- The forms in a binding list are elements of its elements. -/
theorem inits {items : List Value} {specs : List BindingSpec}
    (hspecs : List.Forall₂ (IsBinding lisp) items specs)
    (hitems : ∀ item ∈ items, Tame lisp h depth item) :
    ∀ spec ∈ specs, ∀ form ∈ spec.init, Tame lisp h depth form := by
  induction hspecs with
  | nil => exact List.forall_mem_nil _
  | cons hbinding _ ih =>
      obtain ⟨hitem, hlater⟩ := List.forall_mem_cons.1 hitems
      refine List.forall_mem_cons.2 ⟨fun form hform => ?_, ih hlater⟩
      cases hbinding with
      | bare _ => cases hform
      | listed _ _ => cases hform
      | given hgiven _ =>
          cases hform
          exact hitem.items_le hgiven _ (List.mem_cons_of_mem _ (List.mem_singleton_self _))

/-- A tame form is headed by `lambda` only if it is not headed by a symbol. -/
theorem not_isLambdaForm {s : Symbol} (hv : Tame lisp h depth (.cons id (.symbol s) tail)) :
    lisp.isLambdaForm h (.cons id (.symbol s) tail) = false := by
  have hs : lisp.Tame h s := hv.symbols s (List.mem_append_left _ (List.mem_singleton_self s))
  unfold Interpreter.isLambdaForm
  cases hl : lisp.findSymbol h "lambda" with
  | none => rfl
  | some l => exact beq_false_of_ne (hs.not_lambda l hl)

end Value.Tame

/-- **A form that may have a value**: if it is a list, it is headed by a symbol. -/
def Value.Headed (v : Value) : Prop := ∀ id car cdr, v = .cons id car cdr → ∃ s, car = .symbol s

namespace Eval

section

variable {lisp : Interpreter} {h : Heap} {depth : Nat} {ev : Value → Eval Value}
  (hev : ∀ form, form.Tame lisp h depth → Ends h (fun _ => form.Headed) (ev form))

include hev

/-! ## Special forms -/

theorem ends_inner {form : Value} (hform : form.Tame lisp h depth) :
    Ends h (fun _ => True) (ev form) :=
  (hev form hform).imp fun _ _ => trivial

theorem ends_body {forms : List Value} (hforms : ∀ x ∈ forms, x.Tame lisp h depth) :
    Ends h (fun _ => True) (SpecialForm.body lisp ev forms) := by
  have hfold : ∀ last, Ends h (fun _ => True)
      (forms.foldlM (fun last form => holding [last] (ev form)) last) := by
    induction forms with
    | nil => exact fun last => ends_pure trivial
    | cons form forms ih =>
        obtain ⟨hform, hlater⟩ := List.forall_mem_cons.1 hforms
        intro last
        rw [List.foldlM_cons]
        exact ((ends_inner hev hform).holding _).bind fun v _ => ih hlater v
  exact hfold lisp.nilValue

/-- A list that looks like a `lambda` form is not headed by a symbol, so it has no value. -/
theorem ends_lambdaForm {v : Value} (hv : v.Tame lisp h depth) (e : EvalError) :
    Ends h (fun _ => False) (do
      if ← onHeap (lisp.isLambdaForm · v) then ev v else fail e) := by
  refine (ends_onHeap (Q := fun b => b = lisp.isLambdaForm h v)
    fun h' hh' => hh'.isLambdaForm lisp v).bind fun b hb => ?_
  subst hb
  cases hlambda : lisp.isLambdaForm h v with
  | true =>
      refine (hev v hv).imp fun _ hheaded => ?_
      cases v with
      | cons id car cdr =>
          obtain ⟨s, rfl⟩ := hheaded id car cdr rfl
          exact absurd (hlambda.symm.trans hv.not_isLambdaForm) nofun
      | _ => cases hlambda
  | false => exact ends_fail e

theorem ends_functionNamed {target : Value} (htarget : target.Tame lisp h depth) :
    Ends h (fun _ => True) (SpecialForm.functionNamed lisp ev target) := by
  cases target with
  | symbol s => exact (ends_functionOf s).imp fun _ _ => trivial
  | _ => exact (ends_lambdaForm hev htarget _).imp fun _ hfalse => hfalse.elim

theorem ends_assignPairs (last : Value) {args : List Value}
    (hargs : ∀ x ∈ args, x.Tame lisp h depth) :
    Ends h (fun _ => True) (SpecialForm.assignPairs lisp ev last args) := by
  fun_induction SpecialForm.assignPairs lisp ev last args with
  | case1 last target form rest ih =>
      obtain ⟨_, hrest⟩ := List.forall_mem_cons.1 hargs
      obtain ⟨hform, hlater⟩ := List.forall_mem_cons.1 hrest
      refine (ends_checked _).bind fun s _ => ?_
      refine ((ends_inner hev hform).holding _).bind fun v _ => ?_
      exact (ends_assign s v).bind fun _ _ => ih v hlater
  | case2 args last _ => exact ends_pure trivial

/-- The forms in binding lists. -/
theorem ends_initial {spec : BindingSpec} (hspec : ∀ form ∈ spec.init, form.Tame lisp h depth) :
    Ends h (fun _ => True) (SpecialForm.initial lisp ev spec) := by
  obtain ⟨var, init⟩ := spec
  cases init with
  | some form => exact ends_inner hev (hspec form rfl)
  | none => exact ends_pure trivial

theorem ends_initialAll {specs : List BindingSpec}
    (hspecs : ∀ spec ∈ specs, ∀ form ∈ spec.init, form.Tame lisp h depth) :
    Ends h (fun _ => True) (SpecialForm.initialAll lisp ev specs) := by
  induction specs with
  | nil => exact ends_pure trivial
  | cons spec specs ih =>
      obtain ⟨hspec, hlater⟩ := List.forall_mem_cons.1 hspecs
      exact (ends_initial hev hspec).bind fun v _ =>
        ((ih hlater).holding _).bind fun _ _ => ends_pure trivial

theorem ends_bindInTurn {specs : List BindingSpec}
    (hspecs : ∀ spec ∈ specs, ∀ form ∈ spec.init, form.Tame lisp h depth) :
    Ends h (fun _ => True) (SpecialForm.bindInTurn lisp ev specs) := by
  induction specs with
  | nil => exact ends_pure trivial
  | cons spec specs ih =>
      obtain ⟨hspec, hlater⟩ := List.forall_mem_cons.1 hspecs
      exact (ends_initial hev hspec).bind fun v _ =>
        (ends_push _).bind fun _ _ => ih hlater

omit hev in
theorem ends_bindingSpecs {bindings : Value} (hbindings : bindings.Tame lisp h depth)
    (operation : String) :
    Ends h (fun specs => ∀ spec ∈ specs, ∀ form ∈ spec.init, form.Tame lisp h depth)
      (ofExcept (bindingSpecs lisp operation bindings)) := by
  rcases isBindingList_or_fault lisp operation bindings with ⟨specs, hlist⟩ | ⟨e, he⟩
  · rw [bindingSpecs_of_isBindingList hlist]
    obtain ⟨items, hitems, hspecs⟩ := hlist
    exact ends_pure (Value.Tame.inits hspecs (hbindings.items_le hitems))
  · rw [bindingSpecs_of_fault he]
    exact ends_fail e

theorem ends_specialForm {form : SpecialForm} (hlambda : form ≠ .lambda) (hdefun : form ≠ .defun)
    {args : List Value} (hargs : ∀ x ∈ args, x.Tame lisp h depth) :
    Ends h (fun _ => True) (form.run lisp ev args) := by
  cases form with
  | quote =>
      simp only [SpecialForm.run]
      split
      · exact ends_pure trivial
      · exact ends_fail _
  | function =>
      rcases args with _ | ⟨target, _ | ⟨more, rest⟩⟩
      · exact ends_fail _
      · exact ends_functionNamed hev (hargs target (List.mem_singleton_self target))
      · exact ends_fail _
  | ite =>
      rcases args with _ | ⟨condition, _ | ⟨consequent, alternative⟩⟩
      · exact ends_fail _
      · exact ends_fail _
      · obtain ⟨hcondition, hrest⟩ := List.forall_mem_cons.1 hargs
        obtain ⟨hconsequent, halternative⟩ := List.forall_mem_cons.1 hrest
        refine (ends_inner hev hcondition).bind fun v _ => ?_
        split
        · exact ends_body hev halternative
        · exact ends_inner hev hconsequent
  | setq =>
      simp only [SpecialForm.run]
      split
      · exact ends_assignPairs hev _ hargs
      · exact ends_fail _
  | letParallel =>
      rcases args with _ | ⟨bindings, forms⟩
      · exact ends_fail _
      · obtain ⟨hbindings, hforms⟩ := List.forall_mem_cons.1 hargs
        refine (ends_bindingSpecs hbindings "let").bind fun specs hspecs => ?_
        refine (ends_initialAll hev hspecs).bind fun bs _ => Ends.withScope ?_
        exact (ends_push _).bind fun _ _ => ends_body hev hforms
  | letSequential =>
      rcases args with _ | ⟨bindings, forms⟩
      · exact ends_fail _
      · obtain ⟨hbindings, hforms⟩ := List.forall_mem_cons.1 hargs
        refine (ends_bindingSpecs hbindings "let*").bind fun specs hspecs => Ends.withScope ?_
        exact (ends_bindInTurn hev hspecs).bind fun _ _ => ends_body hev hforms
  | lambda => exact absurd rfl hlambda
  | defun => exact absurd rfl hdefun

/-! ## Application -/

theorem ends_evaluateAll {forms : List Value} (hforms : ∀ x ∈ forms, x.Tame lisp h depth) :
    Ends h (fun _ => True) (evaluateAll ev forms) := by
  induction forms with
  | nil => exact ends_pure trivial
  | cons form forms ih =>
      obtain ⟨hform, hlater⟩ := List.forall_mem_cons.1 hforms
      exact (ends_inner hev hform).bind fun v _ =>
        ((ih hlater).holding _).bind fun _ _ => ends_pure trivial

omit hev in
theorem callBuiltin_of_ne_funcall {op : Builtin} (hop : op ≠ .funcall) (args : List Value) :
    callBuiltin lisp ev op args = holding args (op.run lisp args) := by
  cases op with
  | funcall => exact absurd rfl hop
  | _ => rfl

theorem ends_apply {operator argList : Value} (hoperator : operator.IsPlainOperator)
    (hargs : argList.Tame lisp h (depth + 1)) :
    Ends h (fun _ => True) (apply lisp ev operator argList) := by
  unfold apply
  cases hitems : argList.items? with
  | none => exact ends_fail _
  | some args =>
      have htame := hargs.items hitems
      cases hoperator with
      | specialForm id hlambda hdefun =>
          exact (ends_checked _).bind fun _ _ => ends_specialForm hev hlambda hdefun htame
      | builtin id hfuncall =>
          refine (ends_evaluateAll hev htame).bind fun values _ => ?_
          refine (ends_checked _).bind fun _ _ => ?_
          rw [callBuiltin_of_ne_funcall hfuncall]
          exact (ends_builtin _ values).holding values

/-- **One level of evaluation ends** if the levels below it do. -/
theorem ends_evaluateWith {form : Value} (hform : form.Tame lisp h (depth + 1)) :
    Ends h (fun _ => form.Headed) (evaluateWith lisp ev form) := by
  cases form with
  | symbol s =>
      refine (ends_lexical? s).bind fun found _ => ?_
      cases found with
      | some v => exact ends_pure nofun
      | none =>
          refine (ends_onHeap (Q := fun _ => True) fun _ _ => trivial).bind fun found _ => ?_
          cases found with
          | some v => exact ends_pure nofun
          | none => exact ends_fail _
  | cons id head args =>
      cases head with
      | symbol s =>
          have hs : lisp.Tame h s := hform.car.symbols s (List.mem_singleton_self s)
          refine (ends_functionOf s).bind fun f hf => ?_
          refine (ends_apply hev (hs.function f hf) hform.cdr).imp fun _ _ => ?_
          intro id' car cdr heq
          cases heq
          exact ⟨s, rfl⟩
      | _ => exact (ends_lambdaForm hev hform.car _).bind fun _ hfalse => hfalse.elim
  | number id n => exact ends_pure nofun
  | string id text => exact ends_pure nofun
  | _ => exact ends_fail _

end

/-- **A form that is tame ends in as many levels as it is nested.** -/
theorem ends_evaluate {lisp : Interpreter} {h : Heap} {depth : Nat} {form : Value}
    (hform : form.Tame lisp h depth) :
    Ends h (fun _ => form.Headed) (evaluate lisp depth form) := by
  induction depth generalizing form with
  | zero => exact absurd hform.nesting_lt (Nat.not_lt_zero _)
  | succ depth ih => exact ends_evaluateWith (fun _ hinner => ih hinner) hform

end Eval

/-! ## Interpreters without definitions -/

/-- **An interpreter in which no functions have been defined**: every special form and builtin is in
its place, and no other symbol of the package has a function. -/
structure Interpreter.Pristine (lisp : Interpreter) (h : Heap) : Prop where
  specialForm : ∀ form : SpecialForm, ∃ s id, lisp.findSymbol h form.name = some s ∧
    (h.cellsOf s).function = some (.specialForm id form)
  builtin : ∀ op : Builtin, ∃ s id, lisp.findSymbol h op.name = some s ∧
    (h.cellsOf s).function = some (.builtin id op)
  other : ∀ {name : String} {s : Symbol}, lisp.findSymbol h name = some s →
    (∀ form : SpecialForm, form.name ≠ name) → (∀ op : Builtin, op.name ≠ name) →
    (h.cellsOf s).function = none

namespace Interpreter.Pristine

variable {lisp : Interpreter} {h : Heap} {s : Symbol}

/-- The function of a symbol is what is installed under its name. -/
theorem function_cases (hh : lisp.Pristine h) {name : String} (hs : lisp.findSymbol h name = some s)
    {f : Value} (hf : (h.cellsOf s).function = some f) :
    (∃ id form, f = .specialForm id form ∧ form.name = name) ∨
      ∃ id op, f = .builtin id op ∧ op.name = name := by
  by_cases hform : ∃ form : SpecialForm, form.name = name
  · obtain ⟨form, rfl⟩ := hform
    obtain ⟨s', id, hs', hf'⟩ := hh.specialForm form
    obtain rfl := Option.some.inj (hs.symm.trans hs')
    exact .inl ⟨id, form, Option.some.inj (hf.symm.trans hf'), rfl⟩
  · by_cases hop : ∃ op : Builtin, op.name = name
    · obtain ⟨op, rfl⟩ := hop
      obtain ⟨s', id, hs', hf'⟩ := hh.builtin op
      obtain rfl := Option.some.inj (hs.symm.trans hs')
      exact .inr ⟨id, op, Option.some.inj (hf.symm.trans hf'), rfl⟩
    · have hnone := hh.other hs (not_exists.1 hform) (not_exists.1 hop)
      exact absurd (hf.symm.trans hnone) nofun

/-- **A symbol of the package is tame** unless it is one of three. -/
theorem tame (hh : lisp.Pristine h) (hs : lisp.findSymbol h s.name = some s)
    (hname : s.name ∉ ["lambda", "defun", "funcall"]) : lisp.Tame h s := by
  simp only [List.mem_cons, List.not_mem_nil, or_false, not_or] at hname
  obtain ⟨hlambda, hdefun, hfuncall⟩ := hname
  constructor
  · -- a symbol with the identity of `lambda` has its function, so it has its name as well
    intro l hl hid
    obtain ⟨l', id, hl', hf⟩ := hh.specialForm .lambda
    obtain rfl := Option.some.inj (hl.symm.trans hl')
    rw [← h.cellsOf_congr hid] at hf
    rcases hh.function_cases hs hf with ⟨_, form, heq, hform⟩ | ⟨_, op, heq, _⟩
    · cases heq
      exact hlambda hform.symm
    · cases heq
  · intro f hf
    rcases hh.function_cases hs hf with ⟨id, form, rfl, hform⟩ | ⟨id, op, rfl, hop⟩
    · refine .specialForm id ?_ ?_
      · rintro rfl
        exact hlambda hform.symm
      · rintro rfl
        exact hdefun hform.symm
    · refine .builtin id ?_
      rintro rfl
      exact hfuncall hop.symm

end Interpreter.Pristine

/-- **Only closures can run for ever.** Where no functions have been defined, a form of symbols of
the package ends with a value or an error if `lambda`, `defun` and `funcall` do not occur in it,
whatever variables there are and whatever they stand for. -/
theorem evaluation_without_closures_ends {lisp : Interpreter} {s : State}
    (hpristine : lisp.Pristine s.heap) {form : Value}
    (hform : ∀ x ∈ form.symbols, lisp.findSymbol s.heap x.name = some x ∧
      x.name ∉ ["lambda", "defun", "funcall"]) (a : Anchors) :
    (∃ v t, Yields lisp form a s (.ok v t)) ∨
      ∃ e t, Yields lisp form a s (.error (.error e) t) := by
  have htame : form.Tame lisp s.heap (form.nesting + 1) :=
    ⟨Nat.lt_succ_self _, fun x hx => hpristine.tame (hform x hx).1 (hform x hx).2⟩
  have hends := ends_evaluate htame a s (.refl s.heap)
  cases hrun : evaluate lisp (form.nesting + 1) form a s with
  | ok v t => exact .inl ⟨v, t, _, hrun, nofun⟩
  | error e t =>
      rw [hrun] at hends
      cases e with
      | error e => exact .inr ⟨e, t, _, hrun, nofun⟩
      | exhausted => exact absurd rfl hends.1

theorem SpecialForm.mem_all (form : SpecialForm) : form ∈ all := by
  cases form <;> decide

theorem Builtin.mem_all (op : Builtin) : op ∈ all := by
  cases op with
  | arithmetic op => cases op <;> decide
  | relation rel => cases rel <;> decide
  | trigonometric fn => cases fn <;> decide
  | symbolPart part => cases part <;> decide
  | _ => decide

/-- A form in which a variable has a closure for its value, and its name is also that of a function
which is called. -/
theorem evaluation_without_closures_ends_shadowed :
    let made := Interpreter.fresh Heap.empty
    let reading := (Reader.ofSource "(let ((list x)) (setq y (list list x)))".toList).read made.1
      made.2
    let form := reading.result.toOption.getD made.1.nilValue
    let x := Value.symbol (symbolNamed (made.1, reading.heap) "x")
    let s : State := ⟨{ reading.heap with frames := #[⟨[⟨x, .closure 0 none⟩]⟩] }, [0]⟩
    made.1.Pristine s.heap ∧
      ((∃ v t, Yields made.1 form .none s (.ok v t)) ∨
        ∃ e t, Yields made.1 form .none s (.error (.error e) t)) := by
  intro made reading form x s
  have hfacts : (∀ form ∈ SpecialForm.all,
        made.1.findSymbol s.heap form.name = some (symbolNamed (made.1, s.heap) form.name) ∧
        (s.heap.cellsOf (symbolNamed (made.1, s.heap) form.name)).function =
          some (.specialForm (functionId (made.1, s.heap) form.name) form)) ∧
      (∀ op ∈ Builtin.all,
        made.1.findSymbol s.heap op.name = some (symbolNamed (made.1, s.heap) op.name) ∧
        (s.heap.cellsOf (symbolNamed (made.1, s.heap) op.name)).function =
          some (.builtin (functionId (made.1, s.heap) op.name) op)) ∧
      (∀ p ∈ (s.heap.symbolsOf made.1.package).toList,
        p.1 ∉ SpecialForm.all.map SpecialForm.name → p.1 ∉ Builtin.all.map Builtin.name →
        (s.heap.cellsOf p.2).function = none) ∧
      ∀ x ∈ form.symbols, made.1.findSymbol s.heap x.name = some x ∧
        x.name ∉ ["lambda", "defun", "funcall"] := by
    decide +kernel
  obtain ⟨hforms, hops, hothers, hform⟩ := hfacts
  have hpristine : made.1.Pristine s.heap :=
    { specialForm := fun form => ⟨_, _, hforms form form.mem_all⟩
      builtin := fun op => ⟨_, _, hops op op.mem_all⟩
      other := fun {name x} hx hform hop => by
        refine hothers (name, x) (Std.TreeMap.mem_toList_iff_getElem?_eq_some.2 hx) ?_ ?_
        · intro hmem
          obtain ⟨form, _, heq⟩ := List.mem_map.1 hmem
          exact hform form heq
        · intro hmem
          obtain ⟨op, _, heq⟩ := List.mem_map.1 hmem
          exact hop op heq }
  exact ⟨hpristine, evaluation_without_closures_ends hpristine hform .none⟩

end SmallLisp
