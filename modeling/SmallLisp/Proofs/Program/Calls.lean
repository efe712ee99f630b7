import SmallLisp.Proofs.Eval.Depth
import SmallLisp.Proofs.Interpreter.Works
import SmallLisp.Proofs.Program.Concatenation
import SmallLisp.Proofs.Program.Shapes

set_option autoImplicit false

/-! # Direct calls and `funcall`

A function can be called by a form that begins with its name, or by `funcall`. The evaluator goes
different ways for the two (`apply` and `applyValues`), but does the same things in the same order:
it looks the function up, evaluates the arguments from left to right, and applies the function to
their values. The one difference is what is held meanwhile. `funcall` is a builtin, so it holds its
arguments, among them the function and all values, until it returns, whereas a closure that is
called directly has its values in a frame, where they can be assigned over. This can only be seen
where other packages have been made.
-/

namespace SmallLisp

open Eval

/-! ## The two calls, step by step -/

/-- What a direct call holds of its operator: a closure, but not a builtin. -/
def Value.heldInCall : Value → List Value
  | .closure id name => [.closure id name]
  | _ => []

/-- **A function that takes values**: a builtin or a closure. -/
inductive Value.IsFunction : Value → Prop
  | builtin (id : ObjectId) (op : Builtin) : IsFunction (.builtin id op)
  | closure (id : ObjectId) (name : Option Symbol) : IsFunction (.closure id name)

section

variable {lisp : Interpreter} {ev : Value → Eval Value} {h : Heap} {env : Environment}
  {a : Anchors}

theorem functionOf_eq_ok {s : Symbol} {f : Value} (hf : (h.cellsOf s).function = some f) :
    functionOf s a ⟨h, env⟩ = .ok f ⟨h, env⟩ := by
  simp only [functionOf, bind, ReaderT.bind, EStateM.bind, onHeap, hf]
  rfl

theorem bind_functionOf {s : Symbol} {f : Value} (hf : (h.cellsOf s).function = some f)
    (k : Value → Eval Value) : (functionOf s >>= k) a ⟨h, env⟩ = k f a ⟨h, env⟩ := by
  show EStateM.bind (functionOf s a) (fun v => k v a) ⟨h, env⟩ = _
  rw [EStateM.bind, functionOf_eq_ok hf]

theorem bind_functionOf_none {s : Symbol} (hf : (h.cellsOf s).function = none)
    (k : Value → Eval Value) :
    (functionOf s >>= k) a ⟨h, env⟩ = .error (.error (.undefinedFunction s.name)) ⟨h, env⟩ := by
  simp only [functionOf, bind, ReaderT.bind, EStateM.bind, onHeap, hf]
  rfl

/-- Computations that start alike go on alike. -/
theorem bind_congr_run {α β : Type} {x y : Eval α} {s : State} (hxy : x a s = y a s)
    (k : α → Eval β) : (x >>= k) a s = (y >>= k) a s := by
  show EStateM.bind (x a) (fun v => k v a) s = EStateM.bind (y a) (fun v => k v a) s
  rw [EStateM.bind, EStateM.bind, hxy]

/-- To apply a function to forms is to apply it to their values. -/
theorem apply_function {f argList : Value} (hf : f.IsFunction) {args : List Value}
    (hargs : argList.items? = some args) :
    apply lisp ev f argList = (do
      let vs ← holding f.heldInCall (evaluateAll ev args)
      applyValues lisp ev f vs) := by
  cases hf with
  | builtin id op =>
      simp only [apply, hargs, applyValues_builtin]
      rfl
  | closure id name =>
      simp only [apply, hargs, applyValues]
      rfl

/-- A form that names a function has that function as its value. -/
theorem evaluateWith_function {fn s : Symbol} {i j : ObjectId} {tail : Value}
    (hfn : (h.cellsOf fn).function = some (.specialForm j .function))
    (htail : tail.items? = some [.symbol s]) :
    evaluateWith lisp ev (.cons i (.symbol fn) tail) a ⟨h, env⟩ = functionOf s a ⟨h, env⟩ := by
  show (functionOf fn >>= fun operator => apply lisp ev operator tail) a ⟨h, env⟩ = _
  rw [bind_functionOf hfn]
  simp only [apply, htail]
  rfl

/-- **A form that names a special form** hands it the forms behind the name, if their number is
right. -/
theorem evaluate_specialForm {form : Value} {op : Symbol} {args : List Value}
    (hitems : form.items? = some (.symbol op :: args)) {k : ObjectId} {special : SpecialForm}
    (hop : (h.cellsOf op).function = some (.specialForm k special))
    (harity : special.arity.check args.length = .ok ()) (depth : Nat) :
    evaluate lisp (depth + 1) form a ⟨h, env⟩ =
      special.run lisp (evaluate lisp depth) args a ⟨h, env⟩ := by
  obtain ⟨i, argList, rfl, hargs⟩ := Value.eq_cons_of_items? hitems
  show (functionOf op >>= fun f => apply lisp (evaluate lisp depth) f argList) a ⟨h, env⟩ = _
  rw [bind_functionOf hop]
  simp only [apply, hargs, harity]
  rfl

/-- `funcall` applies a function to values and holds them all. -/
theorem callBuiltin_funcall {f : Value} (hf : f.IsFunction) (vs : List Value) :
    callBuiltin lisp ev .funcall (f :: vs) = holding (f :: vs) (applyValues lisp ev f vs) := by
  cases hf <;> rfl

end

/-- **The two ways to call a function by its name**, as forms: `(s args…)` and
`(funcall (function s) args…)`, where `funcall` and `function` are any symbols whose function cells
hold the two natives. Of the lists that the forms are made of only the elements matter. -/
structure Calls (h : Heap) (s : Symbol) (args : List Value) (direct call : Value) : Prop where
  direct : ∃ i argList, direct = .cons i (.symbol s) argList ∧ argList.items? = some args
  call : ∃ i j funcall function tail argList, call = .cons i (.symbol funcall) argList ∧
    argList.items? = some (.cons j (.symbol function) tail :: args) ∧
    tail.items? = some [.symbol s] ∧
    (∃ k, (h.cellsOf funcall).function = some (.builtin k .funcall)) ∧
    ∃ k, (h.cellsOf function).function = some (.specialForm k .function)

section

variable {lisp : Interpreter} {h : Heap} {s : Symbol} {args : List Value} {direct call : Value}

/-- **A direct call**: the function is looked up, the arguments are evaluated, and it is applied to
their values. -/
theorem Calls.evaluate_direct (hc : Calls h s args direct call)
    (hs : ∀ f ∈ (h.cellsOf s).function, f.IsFunction) (depth : Nat) (a : Anchors)
    (env : Environment) :
    evaluate lisp (depth + 2) direct a ⟨h, env⟩ = (do
      let f ← functionOf s
      let vs ← holding f.heldInCall (evaluateAll (evaluate lisp (depth + 1)) args)
      applyValues lisp (evaluate lisp (depth + 1)) f vs) a ⟨h, env⟩ := by
  obtain ⟨i, argList, rfl, hargs⟩ := hc.direct
  show (functionOf s >>= fun f => apply lisp (evaluate lisp (depth + 1)) f argList) a ⟨h, env⟩ = _
  cases hf : (h.cellsOf s).function with
  | none => rw [bind_functionOf_none hf, bind_functionOf_none hf]
  | some f => rw [bind_functionOf hf, bind_functionOf hf, apply_function (hs f hf) hargs]

/-- **A call by `funcall`** does the same and holds the function and the values. -/
theorem Calls.evaluate_call (hc : Calls h s args direct call)
    (hs : ∀ f ∈ (h.cellsOf s).function, f.IsFunction) (depth : Nat) (a : Anchors)
    (env : Environment) :
    evaluate lisp (depth + 2) call a ⟨h, env⟩ = (do
      let f ← functionOf s
      let vs ← holding [f] (evaluateAll (evaluate lisp (depth + 1)) args)
      holding (f :: vs) (applyValues lisp (evaluate lisp (depth + 1)) f vs)) a ⟨h, env⟩ := by
  obtain ⟨i, j, funcall, function, tail, argList, rfl, hargs, htail, ⟨k, hfuncall⟩, m,
    hfunction⟩ := hc.call
  show (functionOf funcall >>= fun f =>
    apply lisp (evaluate lisp (depth + 1)) f argList) a ⟨h, env⟩ = _
  rw [bind_functionOf hfuncall]
  -- the first argument is the form that names the function
  have hfirst : evaluate lisp (depth + 1) (.cons j (.symbol function) tail) a ⟨h, env⟩ =
      functionOf s a ⟨h, env⟩ := evaluateWith_function hfunction htail
  simp only [apply, hargs, evaluateAll, bind_assoc, pure_bind]
  rw [bind_congr_run hfirst]
  cases hf : (h.cellsOf s).function with
  | none => rw [bind_functionOf_none hf, bind_functionOf_none hf]
  | some f =>
      have harity : ∀ vs : List Value, Builtin.funcall.arity.check (f :: vs).length = .ok () :=
        fun vs => by simp [Arity.check, Builtin.arity]
      rw [bind_functionOf hf, bind_functionOf hf]
      simp only [harity, callBuiltin_funcall (hs f hf)]
      rfl

/-- Where an interpreter is alone, nothing can be seen of what is held. -/
theorem Calls.evaluate_eq (hc : Calls h s args direct call)
    (hs : ∀ f ∈ (h.cellsOf s).function, f.IsFunction) (halone : lisp.Alone h) (depth : Nat)
    (a b : Anchors) (env : Environment) :
    evaluate lisp (depth + 2) direct a ⟨h, env⟩ = evaluate lisp (depth + 2) call b ⟨h, env⟩ := by
  rw [hc.evaluate_direct hs, hc.evaluate_call hs]
  set ev := evaluate lisp (depth + 1)
  have hev : ∀ form, Built lisp (ev form) := built_evaluate (depth + 1)
  cases hf : (h.cellsOf s).function with
  | none => rw [bind_functionOf_none hf, bind_functionOf_none hf]
  | some f =>
      rw [bind_functionOf hf, bind_functionOf hf]
      show EStateM.bind (evaluateAll ev args (a.hold f.heldInCall))
          (fun vs => applyValues lisp ev f vs a) ⟨h, env⟩ =
        EStateM.bind (evaluateAll ev args (b.hold [f]))
          (fun vs => applyValues lisp ev f vs (b.hold (f :: vs))) ⟨h, env⟩
      have hall : evaluateAll ev args (a.hold f.heldInCall) ⟨h, env⟩ =
          evaluateAll ev args (b.hold [f]) ⟨h, env⟩ :=
        (built_evaluateAll hev args).indifferent _ _ halone
      have hchanges := (built_evaluateAll hev args).changes (b.hold [f]) ⟨h, env⟩
      rw [EStateM.bind, EStateM.bind, hall]
      cases hrun : evaluateAll ev args (b.hold [f]) ⟨h, env⟩ with
      | ok vs s' =>
          rw [hrun] at hchanges
          exact (built_applyValues hev f vs).indifferent _ _ (halone.of_changes hchanges)
      | error e s' => rfl

end

/-! ## Agreement -/

/-- **A direct call and `funcall` agree.** Both look the function up first, evaluate the arguments
from left to right and apply the function to their values, also if there is no function, the
number of arguments is wrong, or something fails on the way. All that differs is that `funcall` goes
on holding the function and the values. Where no other package has been made, as in all states that
code leads to, nothing can be seen of this: the outcomes are the same and so are the states. -/
theorem direct_call_agrees_with_funcall {lisp : Interpreter} {h : Heap} {s : Symbol}
    {args : List Value} {direct call : Value} (hc : Calls h s args direct call)
    (hs : ∀ f ∈ (h.cellsOf s).function, f.IsFunction) :
    (lisp.Alone h → ∀ a b env out,
      Yields lisp direct a ⟨h, env⟩ out ↔ Yields lisp call b ⟨h, env⟩ out) ∧
    ∀ depth a env,
      (evaluate lisp (depth + 2) direct a ⟨h, env⟩ = (do
        let f ← functionOf s
        let vs ← holding f.heldInCall (evaluateAll (evaluate lisp (depth + 1)) args)
        applyValues lisp (evaluate lisp (depth + 1)) f vs) a ⟨h, env⟩) ∧
      evaluate lisp (depth + 2) call a ⟨h, env⟩ = (do
        let f ← functionOf s
        let vs ← holding [f] (evaluateAll (evaluate lisp (depth + 1)) args)
        holding (f :: vs) (applyValues lisp (evaluate lisp (depth + 1)) f vs)) a ⟨h, env⟩ := by
  refine ⟨fun halone a b env out => ?_, fun depth a env =>
    ⟨hc.evaluate_direct hs depth a env, hc.evaluate_call hs depth a env⟩⟩
  -- with two levels the forms inside have one, which is enough for the name of the function
  constructor
  · intro hy
    obtain ⟨depth, hle, hout⟩ := hy.exists_le 2
    obtain ⟨depth, rfl⟩ := Nat.exists_eq_add_of_le' hle
    exact ⟨depth + 2, (hc.evaluate_eq hs halone depth a b env).symm.trans hout, hy.finished⟩
  · intro hy
    obtain ⟨depth, hle, hout⟩ := hy.exists_le 2
    obtain ⟨depth, rfl⟩ := Nat.exists_eq_add_of_le' hle
    exact ⟨depth + 2, (hc.evaluate_eq hs halone depth a b env).trans hout, hy.finished⟩

/-- The symbol of a name in an interpreter's package. -/
def symbolNamed (made : Interpreter × Heap) (name : String) : Symbol :=
  (made.1.intern made.2 name).1

/-- The identity of what is in the function cell of a name. -/
def functionId (made : Interpreter × Heap) (name : String) : ObjectId :=
  ((made.2.cellsOf (symbolNamed made name)).function.map Value.id).getD 0

/-- A list of one number, made by a direct call and by `funcall`. -/
theorem direct_call_agrees_with_funcall_list :
    let made := Interpreter.fresh Heap.empty
    let n := made.2.next
    let args := Value.cons n (.number (n + 1) (.integer 7)) made.1.nilValue
    let direct := Value.cons (n + 2) (.symbol (symbolNamed made "list")) args
    let named := Value.cons (n + 3) (.symbol (symbolNamed made "function"))
      (.cons (n + 4) (.symbol (symbolNamed made "list")) made.1.nilValue)
    let call := Value.cons (n + 5) (.symbol (symbolNamed made "funcall")) (.cons (n + 6) named args)
    ∀ out, Yields made.1 direct .none ⟨made.2, []⟩ out ↔
      Yields made.1 call .none ⟨made.2, []⟩ out := by
  intro made n args direct named call
  have hcells : (made.2.cellsOf (symbolNamed made "list")).function =
        some (.builtin (functionId made "list") .list) ∧
      (made.2.cellsOf (symbolNamed made "funcall")).function =
        some (.builtin (functionId made "funcall") .funcall) ∧
      (made.2.cellsOf (symbolNamed made "function")).function =
        some (.specialForm (functionId made "function") .function) := by decide +kernel
  obtain ⟨hlist, hfuncall, hnamed⟩ := hcells
  have hcalls : Calls made.2 (symbolNamed made "list") [.number (n + 1) (.integer 7)]
      direct call :=
    ⟨⟨n + 2, args, rfl, rfl⟩, n + 5, n + 3, symbolNamed made "funcall",
      symbolNamed made "function", _, .cons (n + 6) named args, rfl, rfl, rfl, ⟨_, hfuncall⟩,
      ⟨_, hnamed⟩⟩
  have hfunction : ∀ f ∈ (made.2.cellsOf (symbolNamed made "list")).function, f.IsFunction := by
    rw [hlist]
    rintro f ⟨⟩
    exact .builtin _ _
  have halone : made.1.Alone made.2 := Interpreter.Solitary.alone ⟨rfl, .refl⟩
  exact fun out => (direct_call_agrees_with_funcall hcalls hfunction).1 halone .none .none [] out

/-! ## Where held arguments show -/

/-- A function that forgets its argument before it asks for a package. -/
def forgetting : List Char := "(defun f (q) (setq q nil) (symbol-package y))".toList

/-- A state in which nothing but the variable `p` keeps the package of the symbol `y` alive, and
there is a function that forgets its argument. -/
def forgettingState : Interpreter × Heap :=
  (lendingState.1, (lendingState.1.loadText 9 .none forgetting lendingState.2).2)

/-- A direct call of that function and one by `funcall`, on an argument that takes the package out
of `p`. -/
def forgettingCalls : (Value × Value × Value) × Heap :=
  let reading := (Reader.ofSource takingPackage).read forgettingState.1 forgettingState.2
  let arg := reading.result.toOption.getD forgettingState.1.nilValue
  let args := reading.heap.cons arg forgettingState.1.nilValue
  let f := Value.symbol (symbolNamed forgettingState "f")
  let direct := args.2.cons f args.1
  let tail := direct.2.cons f forgettingState.1.nilValue
  let named := tail.2.cons (.symbol (symbolNamed forgettingState "function")) tail.1
  let list := named.2.cons named.1 args.1
  let call := list.2.cons (.symbol (symbolNamed forgettingState "funcall")) list.1
  ((arg, direct.1, call.1), call.2)

theorem reachable_forgettingCalls : forgettingState.1.Reachable forgettingCalls.2 := by
  have hload : forgettingState.1.Reachable forgettingState.2 :=
    reachable_lendingState.of_changes (changes_loadFrom _ _ _ _ _ _)
  have hread := hload.of_changes
    ((Reader.ofSource takingPackage).changes_read forgettingState.1 forgettingState.2)
  -- the two forms consist of six new conses
  have hcons : ∀ {h : Heap}, forgettingState.1.Reachable h →
      forgettingState.1.Reachable { h with next := h.next + 1 } :=
    fun {h} hr => hr.change (.alloc h fun _ => forgettingState.1.nilValue)
  exact hcons (hcons (hcons (hcons (hcons (hcons hread)))))

/-- An evaluation with a value has ended. -/
theorem yields_of_value {lisp : Interpreter} {depth : Nat} {form : Value} {a : Anchors} {s : State}
    (hvalue : (valueOf (evaluate lisp depth form a s)).map Value.text ≠ []) :
    Yields lisp form a s (evaluate lisp depth form a s) := by
  refine ⟨depth, rfl, ?_⟩
  rintro ⟨s', hstop⟩
  rw [hstop] at hvalue
  exact hvalue rfl

/-- **A direct call and `funcall` do not always agree** where another package has been made. The
value of the argument is all that keeps the package alive. The function forgets it, so that in a
direct call the package is gone, while `funcall` still holds it. -/
theorem funcall_shows_held_arguments :
    ¬ ∀ (lisp : Interpreter) (h : Heap) (s : Symbol) (args : List Value) (direct call : Value),
      lisp.Reachable h → Calls h s args direct call →
      (∀ f ∈ (h.cellsOf s).function, f.IsFunction) →
      ∀ a env out, Yields lisp direct a ⟨h, env⟩ out ↔ Yields lisp call a ⟨h, env⟩ out := by
  intro hall
  set h := forgettingCalls.2
  set direct := forgettingCalls.1.2.1
  set call := forgettingCalls.1.2.2
  set a : Anchors := ⟨[direct, call], []⟩
  have hfacts : (h.cellsOf (symbolNamed forgettingState "f")).function =
        some (.closure (functionId forgettingState "f") (symbolNamed forgettingState "f")) ∧
      (h.cellsOf (symbolNamed forgettingState "funcall")).function =
        some (.builtin (functionId forgettingState "funcall") .funcall) ∧
      (h.cellsOf (symbolNamed forgettingState "function")).function =
        some (.specialForm (functionId forgettingState "function") .function) ∧
      (valueOf (evaluate forgettingState.1 6 direct a ⟨h, []⟩)).map Value.text = ["nil"] ∧
      (valueOf (evaluate forgettingState.1 6 call a ⟨h, []⟩)).map Value.text =
        ["#<package OTHER>"] := by decide +kernel
  obtain ⟨hf, hfuncall, hnamed, hdirect, hcall⟩ := hfacts
  have hcalls : Calls h (symbolNamed forgettingState "f") [forgettingCalls.1.1] direct call :=
    ⟨⟨_, _, rfl, rfl⟩, _, _, symbolNamed forgettingState "funcall",
      symbolNamed forgettingState "function", _, _, rfl, rfl, rfl, ⟨_, hfuncall⟩, _, hnamed⟩
  have hfunction : ∀ f ∈ (h.cellsOf (symbolNamed forgettingState "f")).function,
      f.IsFunction := by
    rw [hf]
    rintro f ⟨⟩
    exact .closure _ _
  have hyields := (hall _ h _ _ _ _ reachable_forgettingCalls hcalls hfunction a [] _).1
    (yields_of_value (by rw [hdirect]; exact List.cons_ne_nil _ _))
  have hsame := hyields.unique (yields_of_value (by rw [hcall]; exact List.cons_ne_nil _ _))
  rw [hsame, hcall] at hdirect
  exact absurd hdirect (by decide)

end SmallLisp
