import SmallLisp.Program
import SmallLisp.Proofs.Interpreter.Reachable

set_option autoImplicit false

/-! # What evaluation is built from

The evaluator is put together from a few primitive computations: it reads the heap and the
environment, makes objects, sets cells and variables, opens scopes and says what it holds.
`Eval.Built` lists them, and `built_evaluate` says that there are no others. An invariant of
evaluation is then an induction over this list and never has to look at the evaluator itself.

Two are proved here. Evaluation keeps every relation between heaps that the primitives keep
(`Built.tracks`); so what it does are elementary changes (`Built.changes`). And of what is held it
sees no more than the packages of symbols (`Built.eq_of_unseen`); so as long as there is one package
it does not matter what is held (`Built.indifferent`).
-/

namespace SmallLisp.Eval

open Heap

/-- **The computations that evaluation is built from.** -/
inductive Built (lisp : Interpreter) : {α : Type} → Eval α → Prop
  | pure {α : Type} (a : α) : Built lisp (pure a : Eval α)
  | bind {α β : Type} {x : Eval α} {f : α → Eval β} (hx : Built lisp x)
      (hf : ∀ a, Built lisp (f a)) : Built lisp (x >>= f)
  | stop {α : Type} (e : Stop) : Built lisp (throw e : Eval α)
  | onHeap {α : Type} (f : Heap → α) : Built lisp (onHeap f)
  | part (s : Symbol) (part : SymbolPart) : Built lisp (inspect (Builtin.partOf lisp s part))
  | environment : Built lisp environment
  | lexical (s : Symbol) : Built lisp (lexical? s)
  | alloc (f : ObjectId → Value) : Built lisp (make (·.alloc f))
  | list (items : List Value) : Built lisp (make (lisp.list · items))
  /-- The only name that is interned is the marker of lambda lists. -/
  | marker : Built lisp (make (lisp.intern · "&rest"))
  | closure (name : Option Symbol) (code : Closure) :
      Built lisp (make (·.makeClosure name code))
  | setFunction (s : Symbol) (v : Value) : Built lisp (change (·.setFunction s v))
  | assign (s : Symbol) (v : Value) : Built lisp (assign s v)
  | push (frame : Frame) : Built lisp (push frame)
  | withScope {α : Type} {body : Eval α} (hbody : Built lisp body) : Built lisp (withScope body)
  | holding {α : Type} (vs : List Value) {body : Eval α} (hbody : Built lisp body) :
      Built lisp (holding vs body)
  | inEnvironment {α : Type} (env : Environment) {body : Eval α} (hbody : Built lisp body) :
      Built lisp (inEnvironment env body)

section Evaluator

variable {lisp : Interpreter}

theorem built_fail {α : Type} (e : EvalError) : Built lisp (fail e : Eval α) := .stop (.error e)

theorem built_ofExcept {α : Type} (x : Except EvalError α) : Built lisp (ofExcept x) := by
  cases x with
  | ok a => exact .pure a
  | error e => exact built_fail e

theorem built_functionOf (s : Symbol) : Built lisp (functionOf s) := by
  refine .bind (.onHeap _) fun found => ?_
  cases found with
  | some f => exact .pure f
  | none => exact built_fail _

/-! ## Builtins -/

theorem built_makeNumber (n : Number) : Built lisp (Builtin.makeNumber n) := .alloc _

theorem built_builtin (op : Builtin) (args : List Value) : Built lisp (op.run lisp args) := by
  cases op with
  | eq =>
      simp only [Builtin.run]
      split
      · exact .pure _
      · exact built_fail _
  | null => exact .pure _
  | not => exact .pure _
  | atom => exact .pure _
  | funcall => exact built_fail _
  | arithmetic op => exact .bind (built_ofExcept _) fun n => built_makeNumber n
  | mod => exact .bind (built_ofExcept _) fun i => built_makeNumber _
  | relation rel => exact .bind (built_ofExcept _) fun b => .pure _
  | trigonometric fn => exact .bind (built_ofExcept _) fun x => built_makeNumber _
  | car | first | cdr | rest =>
      simp only [Builtin.run]
      split
      · exact .bind (built_ofExcept _) fun p => .pure _
      · exact built_fail _
  | cons =>
      simp only [Builtin.run]
      split
      · exact .alloc _
      · exact built_fail _
  | list => exact .list _
  | symbolPart part =>
      exact .bind (built_ofExcept _) fun s => .bind (.part s part) fun x => built_ofExcept x

/-! ## Special forms -/

section

variable {ev : Value → Eval Value} (hev : ∀ form, Built lisp (ev form))

include hev

theorem built_body (forms : List Value) : Built lisp (SpecialForm.body lisp ev forms) := by
  have hfold : ∀ last, Built lisp
      (forms.foldlM (fun last form => holding [last] (ev form)) last) := by
    induction forms with
    | nil => exact fun last => .pure last
    | cons form forms ih =>
        intro last
        rw [List.foldlM_cons]
        exact .bind (.holding _ (hev form)) ih
  exact hfold lisp.nilValue

theorem built_functionNamed (target : Value) :
    Built lisp (SpecialForm.functionNamed lisp ev target) := by
  unfold SpecialForm.functionNamed
  split
  · exact built_functionOf _
  · refine .bind (.onHeap _) fun isLambda => ?_
    split
    · exact hev _
    · exact built_fail _

theorem built_assignPairs (last : Value) (args : List Value) :
    Built lisp (SpecialForm.assignPairs lisp ev last args) := by
  fun_induction SpecialForm.assignPairs lisp ev last args with
  | case1 last target form rest ih =>
      exact .bind (built_ofExcept _) fun s =>
        .bind (.holding _ (hev form)) fun v => .bind (.assign s v) fun _ => ih v
  | case2 args last _ => exact .pure last

theorem built_initial (spec : BindingSpec) : Built lisp (SpecialForm.initial lisp ev spec) := by
  unfold SpecialForm.initial
  split
  · exact hev _
  · exact .pure _

theorem built_initialAll (specs : List BindingSpec) :
    Built lisp (SpecialForm.initialAll lisp ev specs) := by
  induction specs with
  | nil => exact .pure []
  | cons spec specs ih =>
      exact .bind (built_initial hev spec) fun v => .bind (.holding _ ih) fun later => .pure _

theorem built_bindInTurn (specs : List BindingSpec) :
    Built lisp (SpecialForm.bindInTurn lisp ev specs) := by
  induction specs with
  | nil => exact .pure ()
  | cons spec specs ih =>
      exact .bind (built_initial hev spec) fun v => .bind (.push _) fun _ => ih

omit hev in
theorem built_closure (name : Option Symbol) (lambdaList : Value) (forms : List Value) :
    Built lisp (SpecialForm.closure lisp name lambdaList forms) := by
  have hparams : Built lisp (SpecialForm.parameters lisp lambdaList) := by
    unfold SpecialForm.parameters
    split
    · exact built_fail _
    · exact .bind .marker fun marker => built_ofExcept _
  exact .bind hparams fun params => .bind .environment fun env => .closure _ _

theorem built_specialForm (form : SpecialForm) (args : List Value) :
    Built lisp (form.run lisp ev args) := by
  cases form with
  | quote =>
      simp only [SpecialForm.run]
      split
      · exact .pure _
      · exact built_fail _
  | function =>
      simp only [SpecialForm.run]
      split
      · exact built_functionNamed hev _
      · exact built_fail _
  | ite =>
      simp only [SpecialForm.run]
      split
      · refine .bind (hev _) fun condition => ?_
        split
        · exact built_body hev _
        · exact hev _
      · exact built_fail _
  | setq =>
      simp only [SpecialForm.run]
      split
      · exact built_assignPairs hev _ _
      · exact built_fail _
  | letParallel =>
      simp only [SpecialForm.run]
      split
      · refine .bind (built_ofExcept _) fun specs => ?_
        refine .bind (built_initialAll hev specs) fun bindings => ?_
        exact .withScope (.bind (.push _) fun _ => built_body hev _)
      · exact built_fail _
  | letSequential =>
      simp only [SpecialForm.run]
      split
      · refine .bind (built_ofExcept _) fun specs => ?_
        exact .withScope (.bind (built_bindInTurn hev specs) fun _ => built_body hev _)
      · exact built_fail _
  | lambda =>
      simp only [SpecialForm.run]
      split
      · exact built_closure _ _ _
      · exact built_fail _
  | defun =>
      simp only [SpecialForm.run]
      split
      · split
        · exact .bind (built_closure _ _ _) fun f => .bind (.setFunction _ f) fun _ => .pure _
        · exact built_fail _
      · exact built_fail _

/-! ## Application -/

theorem built_callClosure (code : Closure) (args : List Value) :
    Built lisp (callClosure lisp ev code args) := by
  have hcall : ∀ frame, Built lisp (inEnvironment code.env (withScope do
      push frame
      SpecialForm.body lisp ev code.body)) := fun frame =>
    .inEnvironment _ (.withScope (.bind (.push frame) fun _ => built_body hev _))
  refine .bind (built_ofExcept _) fun _ => ?_
  dsimp only
  split
  · exact .bind (.list _) fun surplus => .bind (.pure _) fun rest => hcall _
  · exact .bind (.pure _) fun rest => hcall _

/-- Calls a closure that is held, if it has code. -/
theorem built_callHeld (operator : Value) (id : ObjectId) (args : List Value) :
    Built lisp (do
      match ← onHeap (·.closures[id]?) with
      | some code => callClosure lisp ev code args
      | none => fail (.notCallable operator)) := by
  refine .bind (.onHeap _) fun code => ?_
  cases code with
  | some code => exact built_callClosure hev code args
  | none => exact built_fail _

omit hev in
theorem built_callBuiltin (op : Builtin) (args : List Value)
    (happly : ∀ f rest g, args = f :: rest → Built lisp (applyValues lisp ev g rest)) :
    Built lisp (callBuiltin lisp ev op args) := by
  unfold callBuiltin
  split
  · rename_i f rest
    refine .holding _ (.bind ?_ fun g => happly f rest g rfl)
    unfold designated
    split
    · exact built_functionOf _
    · exact .pure _
  · exact .holding _ (built_builtin _ _)

/-- One application of `funcall` peels off one argument, so this is an induction on their
number. -/
theorem built_applyValues (operator : Value) (args : List Value) :
    Built lisp (applyValues lisp ev operator args) := by
  have hstep : ∀ (operator : Value) (args : List Value),
      (∀ f rest g, args = f :: rest → Built lisp (applyValues lisp ev g rest)) →
      Built lisp (applyValues lisp ev operator args) := by
    intro operator args happly
    cases operator with
    | specialForm id form =>
        rw [applyValues]
        exact .bind (built_ofExcept _) fun _ => .holding _ (built_specialForm hev form args)
    | builtin id op =>
        rw [applyValues_builtin]
        exact .bind (built_ofExcept _) fun _ => built_callBuiltin op args happly
    | closure id name =>
        rw [applyValues]
        exact .holding _ (built_callHeld hev _ id args)
    | _ =>
        rw [applyValues]
        · exact built_fail _
        all_goals exact nofun
  induction args generalizing operator with
  | nil => exact hstep operator [] nofun
  | cons arg args ih =>
      refine hstep operator (arg :: args) fun f rest g hargs => ?_
      cases hargs
      exact ih g

theorem built_evaluateAll (forms : List Value) : Built lisp (evaluateAll ev forms) := by
  induction forms with
  | nil => exact .pure []
  | cons form forms ih =>
      exact .bind (hev form) fun v => .bind (.holding _ ih) fun later => .pure _

theorem built_apply (operator argList : Value) : Built lisp (apply lisp ev operator argList) := by
  unfold apply
  split
  · exact built_fail _
  · rename_i args _
    cases operator with
    | specialForm id form =>
        exact .bind (built_ofExcept _) fun _ => built_specialForm hev form args
    | builtin id op =>
        refine .bind (built_evaluateAll hev args) fun values => .bind (built_ofExcept _) fun _ => ?_
        exact built_callBuiltin op values fun _ rest g _ => built_applyValues hev g rest
    | closure id name =>
        refine .holding _ (.bind (built_evaluateAll hev args) fun values => ?_)
        exact built_callHeld hev _ id values
    | _ => exact built_fail _

theorem built_operatorOf (head : Value) : Built lisp (operatorOf lisp ev head) := by
  unfold operatorOf
  split
  · exact built_functionOf _
  · refine .bind (.onHeap _) fun isLambda => ?_
    split
    · exact hev _
    · exact built_fail _

theorem built_evaluateWith (form : Value) : Built lisp (evaluateWith lisp ev form) := by
  cases form with
  | number id n => exact .pure _
  | string id s => exact .pure _
  | symbol s =>
      refine .bind (.lexical s) fun found => ?_
      cases found with
      | some v => exact .pure v
      | none =>
          refine .bind (.onHeap _) fun value => ?_
          cases value with
          | some v => exact .pure v
          | none => exact built_fail _
  | cons id head args =>
      exact .bind (built_operatorOf hev head) fun operator => built_apply hev operator args
  | _ => exact built_fail _

end

/-- **Evaluation is built from the primitives**, at every depth. -/
theorem built_evaluate (depth : Nat) (form : Value) : Built lisp (evaluate lisp depth form) := by
  induction depth generalizing form with
  | zero => exact .stop .exhausted
  | succ depth ih => exact built_evaluateWith ih form

end Evaluator

/-! ## Changes of the heap -/

/-- The state that a computation leaves, however it ends. -/
def left {α : Type} : EStateM.Result Stop State α → State
  | .ok _ s => s
  | .error _ s => s

/-- **A relation that the primitive computations keep** between a heap and what becomes of it. -/
structure Tracks (lisp : Interpreter) (R : Heap → Heap → Prop) : Prop where
  refl : ∀ h, R h h
  trans : ∀ {h h' h'' : Heap}, R h h' → R h' h'' → R h h''
  alloc : ∀ h make, R h (h.alloc make).2
  marker : ∀ h, R h (lisp.intern h "&rest").2
  closure : ∀ h name code, R h (h.makeClosure name code).2
  frame : ∀ h frame, R h (h.makeFrame frame).2
  setFunction : ∀ h s v, R h (h.setFunction s v)
  setValue : ∀ h s v, R h (h.setValue s v)
  assign : ∀ {h h' : Heap} {env : Environment} {key : ObjectId} {v : Value},
    h.assign? env key v = some h' → R h h'

theorem Tracks.listWithTail {lisp : Interpreter} {R : Heap → Heap → Prop} (hR : Tracks lisp R)
    (h : Heap) (tail : Value) (items : List Value) : R h (h.listWithTail tail items).2 := by
  induction items with
  | nil => exact hR.refl h
  | cons x xs ih => exact hR.trans ih (hR.alloc _ _)

/-- **What all primitive computations do to the heap, evaluation does.** -/
theorem Built.tracks {lisp : Interpreter} {R : Heap → Heap → Prop} (hR : Tracks lisp R)
    {α : Type} {act : Eval α} (hact : Built lisp act) (a : Anchors) (s : State) :
    R s.heap (left (act a s)).heap := by
  induction hact generalizing a s with
  | @bind α β x f _ _ ihx ihf =>
      have hx := ihx a s
      show R s.heap (left (EStateM.bind (x a) (fun v => f v a) s)).heap
      unfold EStateM.bind
      cases hrun : x a s with
      | ok v s' =>
          rw [hrun] at hx
          exact hR.trans hx (ihf v a s')
      | error e s' =>
          rw [hrun] at hx
          exact hx
  | alloc f => exact hR.alloc s.heap f
  | list items => exact hR.listWithTail s.heap lisp.nilValue items
  | marker => exact hR.marker s.heap
  | closure name code => exact hR.closure s.heap name code
  | setFunction sym v => exact hR.setFunction s.heap sym v
  | assign sym v =>
      simp only [Eval.assign]
      split
      · rename_i h' hassign
        exact hR.assign hassign
      · exact hR.setValue s.heap sym v
  | push frame => exact hR.frame s.heap frame
  | @withScope α body _ ih =>
      have hbody := ih a s
      simp only [Eval.withScope]
      cases hrun : body a s <;> rw [hrun] at hbody <;> exact hbody
  | holding vs _ ih => exact ih (a.hold vs) s
  | @inEnvironment α env body _ ih =>
      have hbody := ih (a.stay s.env) { s with env := env }
      simp only [Eval.inEnvironment]
      cases hrun : body (a.stay s.env) { s with env := env } <;> rw [hrun] at hbody <;> exact hbody
  | _ => exact hR.refl s.heap

theorem tracks_changes (lisp : Interpreter) : Tracks lisp Changes where
  refl _ := .refl
  trans := .trans
  alloc h make := .single (.alloc h make)
  marker h := lisp.changes_intern h "&rest"
  closure h name code := .single (.closure h name code)
  frame h frame := .single (.frame h frame)
  setFunction h s _ := .single (.cells h s _)
  setValue h s _ := .single (.cells h s _)
  assign hassign := .single (.assign hassign)

/-- **What a computation does to the heap are elementary changes.** -/
theorem Built.changes {lisp : Interpreter} {α : Type} {act : Eval α} (hact : Built lisp act)
    (a : Anchors) (s : State) : Changes s.heap (left (act a s)).heap :=
  hact.tracks (tracks_changes lisp) a s

/-! ## What is held -/

/-- **A difference in what is held that cannot be seen** in some heaps: every symbol has the same
package in them either way, also while more is held, and no change leads out of them. -/
structure Unseen (lisp : Interpreter) (R : Anchors → Anchors → Prop) (P : Heap → Prop) : Prop where
  hold : ∀ {a b : Anchors} (vs : List Value), R a b → R (a.hold vs) (b.hold vs)
  stay : ∀ {a b : Anchors} (env : Environment), R a b → R (a.stay env) (b.stay env)
  later : ∀ {h h' : Heap}, P h → Changes h h' → P h'
  package : ∀ {a b : Anchors} {h : Heap} (s : Symbol), R a b → P h →
    lisp.packageOf? h a s = lisp.packageOf? h b s

/-- **What cannot be seen makes no difference to any computation.** -/
theorem Built.eq_of_unseen {lisp : Interpreter} {R : Anchors → Anchors → Prop} {P : Heap → Prop}
    (hR : Unseen lisp R P) {α : Type} {act : Eval α} (hact : Built lisp act) {a b : Anchors}
    (hab : R a b) {s : State} (hs : P s.heap) : act a s = act b s := by
  induction hact generalizing a b s with
  | @bind α β x f hx _ ihx ihf =>
      have hleft := hx.changes b s
      show EStateM.bind (x a) (fun v => f v a) s = EStateM.bind (x b) (fun v => f v b) s
      unfold EStateM.bind
      rw [ihx hab hs]
      cases hrun : x b s with
      | ok v s' =>
          rw [hrun] at hleft
          exact ihf v hab (hR.later hs hleft)
      | error e s' => rfl
  | part sym part =>
      -- the package of a symbol is the only thing that depends on what is held
      have hpart : Builtin.partOf lisp sym part (a.stay s.env) s.heap =
          Builtin.partOf lisp sym part (b.stay s.env) s.heap := by
        cases part with
        | package =>
            simp only [Builtin.partOf]
            rw [hR.package sym (hR.stay s.env hab) hs]
        | _ => rfl
      simp only [Eval.inspect, hpart]
  | withScope _ ih => simp only [Eval.withScope, ih hab hs]
  | holding vs _ ih => exact ih (hR.hold vs hab) hs
  | @inEnvironment α env body _ ih =>
      have hbody : body (a.stay s.env) { s with env := env } =
          body (b.stay s.env) { s with env := env } := ih (hR.stay s.env hab) hs
      simp only [Eval.inEnvironment, hbody]
  | _ => rfl

/-- Where an interpreter is alone nothing can be seen of what is held. -/
theorem unseen_alone (lisp : Interpreter) : Unseen lisp (fun _ _ => True) lisp.Alone where
  hold _ _ := trivial
  stay _ _ := trivial
  later := Interpreter.Alone.of_changes
  package s _ halone := by
    rw [Interpreter.packageOf?_alone halone, Interpreter.packageOf?_alone halone]

/-- **What is held does not matter** while there is one package. -/
theorem Built.indifferent {lisp : Interpreter} {α : Type} {act : Eval α} (hact : Built lisp act)
    (a b : Anchors) {s : State} (halone : lisp.Alone s.heap) : act a s = act b s :=
  hact.eq_of_unseen (unseen_alone lisp) trivial halone

end SmallLisp.Eval

namespace SmallLisp.Interpreter

open Heap

/-- Evaluating a form makes elementary changes. -/
theorem changes_eval (lisp : Interpreter) (depth : Nat) (a : Anchors) (form : Value) (h : Heap) :
    Changes h (lisp.eval depth a form h).2 := by
  have hc := (@Eval.built_evaluate lisp depth form).changes (a.hold [form])
    ⟨h, lisp.toplevel⟩
  simp only [eval, runIn]
  split <;> rename_i hrun <;> rw [hrun] at hc <;> exact hc

/-- **Where an interpreter is alone, forms have the same values whatever is held meanwhile.** -/
theorem eval_indifferent {lisp : Interpreter} {h : Heap} (halone : lisp.Alone h) (depth : Nat)
    (a b : Anchors) (form : Value) : lisp.eval depth a form h = lisp.eval depth b form h := by
  simp only [eval, runIn]
  rw [(Eval.built_evaluate depth form).indifferent (a.hold [form]) (b.hold [form]) halone]

end SmallLisp.Interpreter
