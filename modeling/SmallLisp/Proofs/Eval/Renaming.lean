import SmallLisp.Proofs.Heap.Renaming
import SmallLisp.Eval.Evaluate

set_option autoImplicit false

/-! # Checks under other names

The parts of the evaluator that do not touch the heap: the shapes in which variables are introduced,
and what builtins ask of their arguments. An error keeps its wording when it is renamed, and a check
of renamed things is equal to the renamed result of the check (`Renaming.check`).
-/

namespace SmallLisp

namespace Renaming

variable (r : Renaming)

/-! ## Errors -/

/-- A malformation, renamed. -/
def malformation : Malformation → Malformation
  | .argumentList args => .argumentList (r.value args)
  | .constant operation target => .constant operation (r.value target)
  | .binding operation item => .binding operation (r.value item)
  | .lambdaList params => .lambdaList (r.value params)
  | cause => cause

/-- An error, renamed. -/
def error : EvalError → EvalError
  | .unsupportedArgument operation v => .unsupportedArgument operation (r.value v)
  | .notCallable v => .notCallable (r.value v)
  | .malformed cause => .malformed (r.malformation cause)
  | e => e

/-- A stop, renamed. -/
def stop : Stop → Stop
  | .error e => .error (r.error e)
  | .exhausted => .exhausted

theorem message_malformation (cause : Malformation) :
    (r.malformation cause).message = cause.message := by
  unfold Malformation.message
  cases cause <;> simp only [malformation, text_value]

@[simp]
theorem message_error (e : EvalError) : (r.error e).message = e.message := by
  unfold EvalError.message
  cases e <;> simp only [error, text_value, message_malformation]

/-! ## Checks -/

/-- The result of a check, with the error or the value renamed. -/
def check {α β : Type} (f : α → β) : Except EvalError α → Except EvalError β
  | .ok v => .ok (f v)
  | .error e => .error (r.error e)

section

variable {α β γ δ : Type} {f : α → β} {g : γ → δ}

theorem check_bind {x : Except EvalError α} {k : α → Except EvalError γ}
    {k' : β → Except EvalError δ} (hk : ∀ v, k' (f v) = r.check g (k v)) :
    (r.check f x >>= k') = r.check g (x >>= k) := by
  cases x with
  | ok v => exact hk v
  | error e => rfl

theorem check_mapM {step : γ → Except EvalError α} {step' : δ → Except EvalError β}
    (hstep : ∀ v, step' (g v) = r.check f (step v)) (vs : List γ) :
    (vs.map g).mapM step' = r.check (List.map f) (vs.mapM step) := by
  induction vs with
  | nil => rfl
  | cons v vs ih =>
      rw [List.map_cons, List.mapM_cons, List.mapM_cons, hstep, ih]
      exact r.check_bind fun u => r.check_bind fun us => rfl

end

theorem expectVariable_value (lisp : Interpreter) (operation : String) (v : Value) :
    expectVariable (r.interpreter lisp) operation (r.value v) =
      r.check r.symbol (expectVariable lisp operation v) := by
  cases v with
  | symbol s =>
      have hconstant : (r.interpreter lisp).isConstant (.symbol (r.symbol s)) =
          lisp.isConstant (.symbol s) := r.isConstant_value lisp (.symbol s)
      simp only [value, expectVariable, hconstant]
      split <;> rfl
  | _ => rfl

/-- A variable to be bound, renamed. -/
def spec (spec : BindingSpec) : BindingSpec := ⟨r.symbol spec.var, spec.init.map r.value⟩

theorem ofItem_value (lisp : Interpreter) (operation : String) (item : Value) :
    BindingSpec.ofItem (r.interpreter lisp) operation (r.value item) =
      r.check r.spec (BindingSpec.ofItem lisp operation item) := by
  cases item with
  | symbol s =>
      have hvar := r.expectVariable_value lisp operation (.symbol s)
      simp only [value, BindingSpec.ofItem] at hvar ⊢
      rw [hvar]
      exact r.check_bind fun var => rfl
  | cons id car cdr =>
      have hitems := r.items?_value (.cons id car cdr)
      simp only [value, BindingSpec.ofItem] at hitems ⊢
      rw [hitems]
      -- two shapes are accepted, and a list of any other length is refused
      rcases (Value.cons id car cdr).items? with _ | _ | ⟨target, _ | ⟨init, _ | ⟨more, rest⟩⟩⟩
      · rfl
      · rfl
      · show (expectVariable _ operation (r.value target) >>= _) = _
        rw [expectVariable_value]
        exact r.check_bind fun var => rfl
      · show (expectVariable _ operation (r.value target) >>= _) = _
        rw [expectVariable_value]
        exact r.check_bind fun var => rfl
      · rfl
  | _ => rfl

theorem bindingSpecs_value (lisp : Interpreter) (operation : String) (bindings : Value) :
    bindingSpecs (r.interpreter lisp) operation (r.value bindings) =
      r.check (List.map r.spec) (bindingSpecs lisp operation bindings) := by
  rw [bindingSpecs, bindingSpecs, items?_value]
  cases bindings.items? with
  | none => rfl
  | some items => exact r.check_mapM (r.ofItem_value lisp operation) items

/-- The parameters of a closure, renamed. -/
def parameters (params : Parameters) : Parameters :=
  ⟨params.required.map r.symbol, params.rest.map r.symbol⟩

theorem ofItems_values (lisp : Interpreter) (marker : Symbol) (items : List Value) :
    Parameters.ofItems (r.interpreter lisp) (r.symbol marker) (r.values items) =
      r.check r.parameters (Parameters.ofItems lisp marker items) := by
  induction items with
  | nil => rfl
  | cons item items ih =>
      have hsame : (r.value item).same (.symbol (r.symbol marker)) = item.same (.symbol marker) :=
        r.same_value item (.symbol marker)
      unfold Parameters.ofItems
      simp only [values_cons, hsame]
      by_cases hmarker : item.same (.symbol marker) = true
      · rw [if_pos hmarker, if_pos hmarker]
        rcases items with _ | ⟨rest, _ | ⟨more, items⟩⟩
        · rfl
        · show (expectVariable _ "lambda" (r.value rest) >>= _) = _
          rw [expectVariable_value]
          exact r.check_bind fun var => rfl
        · rfl
      · rw [if_neg hmarker, if_neg hmarker, expectVariable_value, ih]
        exact r.check_bind fun var => r.check_bind fun later => rfl

/-! ### Checks of arguments -/

theorem expectNumber_value (operation : String) (v : Value) :
    Builtin.expectNumber operation (r.value v) = r.check id (Builtin.expectNumber operation v) := by
  cases v <;> rfl

theorem expectInteger_value (operation : String) (v : Value) :
    Builtin.expectInteger operation (r.value v) =
      r.check id (Builtin.expectInteger operation v) := by
  cases v with
  | number id n => cases n <;> rfl
  | _ => rfl

theorem blame_eq_check {α : Type} (operation : String) (x : Except ArithmeticError α) :
    Builtin.blame operation x = r.check id (Builtin.blame operation x) := by
  cases x <;> rfl

theorem foldNumbers_values (operation : String)
    (step : Number → Number → Except ArithmeticError Number) (acc : Number) (args : List Value) :
    Builtin.foldNumbers operation step acc (r.values args) =
      r.check id (Builtin.foldNumbers operation step acc args) := by
  induction args generalizing acc with
  | nil => rfl
  | cons v vs ih =>
      rw [values_cons, Builtin.foldNumbers, Builtin.foldNumbers, expectNumber_value]
      refine r.check_bind fun n => ?_
      rw [r.blame_eq_check operation (step acc (id n))]
      exact r.check_bind fun acc => ih acc

theorem arithmeticResult_values (op : Arithmetic) (args : List Value) :
    Builtin.arithmeticResult op (r.values args) =
      r.check id (Builtin.arithmeticResult op args) := by
  -- the operations that look at the first argument differ in what they do with a single one
  cases op with
  | add => exact r.foldNumbers_values "+" Number.add (.integer 0) args
  | mul => exact r.foldNumbers_values "*" Number.mul (.integer 1) args
  | sub =>
      rcases args with _ | ⟨v, _ | ⟨u, vs⟩⟩
      · rfl
      · simp only [values_cons, values_nil, Builtin.arithmeticResult, expectNumber_value]
        exact r.check_bind fun n => r.blame_eq_check "-" n.negate
      · simp only [values_cons, Builtin.arithmeticResult, expectNumber_value]
        exact r.check_bind fun n => r.foldNumbers_values "-" Number.sub n (u :: vs)
  | div =>
      rcases args with _ | ⟨v, _ | ⟨u, vs⟩⟩
      · rfl
      · simp only [values_cons, values_nil, Builtin.arithmeticResult, expectNumber_value]
        exact r.check_bind fun n => r.blame_eq_check "/" (Number.div (.integer 1) n)
      · simp only [values_cons, Builtin.arithmeticResult, expectNumber_value]
        exact r.check_bind fun n => r.foldNumbers_values "/" Number.div n (u :: vs)

theorem modResult_values (args : List Value) :
    Builtin.modResult (r.values args) = r.check id (Builtin.modResult args) := by
  rw [Builtin.modResult, Builtin.modResult, values, r.check_mapM (r.expectInteger_value "mod"),
    List.map_id_fun]
  refine r.check_bind fun is => ?_
  cases is with
  | nil => rfl
  | cons i is => exact r.blame_eq_check "mod" (is.foldlM Number.mod i)

theorem relationResult_values (rel : Relation) (args : List Value) :
    Builtin.relationResult rel (r.values args) = r.check id (Builtin.relationResult rel args) := by
  rw [Builtin.relationResult, Builtin.relationResult, values,
    r.check_mapM (r.expectNumber_value rel.name), List.map_id_fun]
  exact r.check_bind fun ns => rfl

theorem trigonometricResult_values (fn : Trigonometric) (args : List Value) :
    Builtin.trigonometricResult fn (r.values args) =
      r.check id (Builtin.trigonometricResult fn args) := by
  rcases args with _ | ⟨v, _ | ⟨u, vs⟩⟩
  · rfl
  · simp only [values_cons, values_nil, Builtin.trigonometricResult, expectNumber_value]
    exact r.check_bind fun n => rfl
  · simp [Builtin.trigonometricResult, check, error]

theorem ends_value (lisp : Interpreter) (operation : String) (v : Value) :
    Builtin.ends (r.interpreter lisp) operation (r.value v) =
      r.check (Prod.map r.value r.value) (Builtin.ends lisp operation v) := by
  cases v with
  | symbol s =>
      have hnil : (Value.symbol (r.symbol s)).isNil = (Value.symbol s).isNil := rfl
      simp only [value, Builtin.ends, hnil]
      split <;> rfl
  | _ => rfl

theorem expectSymbol_values (operation : String) (args : List Value) :
    Builtin.expectSymbol operation (r.values args) =
      r.check r.symbol (Builtin.expectSymbol operation args) := by
  rcases args with _ | ⟨v, _ | ⟨u, vs⟩⟩
  · rfl
  · cases v <;> rfl
  · simp [Builtin.expectSymbol, check, error]

/-- A check of an argument count has nothing to rename. -/
theorem arityCheck_eq_check (arity : Arity) (count : Nat) :
    arity.check count = r.check id (arity.check count) := by
  unfold Arity.check
  split <;> rfl

end Renaming

end SmallLisp
