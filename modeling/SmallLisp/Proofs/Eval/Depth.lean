import SmallLisp.Proofs.Eval.Built

set_option autoImplicit false

/-! # How deeply evaluations are nested

The evaluator is told how deeply evaluations may be nested, and stops as exhausted if that is not
enough. Nothing else depends on this number. A computation *extends* another one if it ends in the
same way unless the other one is exhausted (`Eval.Extends`), and since nothing in the evaluator
takes notice of a stop, whatever is put together from computations that extend others extends what
is put together from these. So an evaluation extends the one with one level less
(`extends_evaluate`), and the outcome of an evaluation is well defined (`Eval.Yields`). The same
can be said of any computation that takes a number of levels (`Eval.Concludes`), and the outcome of
one after another can be told from the outcomes of both (`concludes_bind_iff`).
-/

namespace SmallLisp.Eval

/-! ## One computation after another -/

section

variable {α β : Type} {x : Eval α} {f : α → Eval β} {a : Anchors} {s s' : State}

theorem bind_eq_ok_iff {w : β} :
    (x >>= f) a s = .ok w s' ↔ ∃ v t, x a s = .ok v t ∧ f v a t = .ok w s' := by
  show EStateM.bind (x a) (fun v => f v a) s = _ ↔ _
  rw [EStateM.bind]
  cases x a s <;> simp

/-- The second computation is not reached if the first one fails. -/
theorem bind_eq_error_iff {stop : Stop} :
    (x >>= f) a s = .error stop s' ↔
      x a s = .error stop s' ∨ ∃ v t, x a s = .ok v t ∧ f v a t = .error stop s' := by
  show EStateM.bind (x a) (fun v => f v a) s = _ ↔ _
  rw [EStateM.bind]
  cases x a s <;> simp

/-- **A loop fails at the first step that fails**, in the state that this step leaves. -/
theorem foldlM_eq_error_iff {step : β → α → Eval β} {xs : List α} {init : β} {stop : Stop} :
    xs.foldlM step init a s = .error stop s' ↔ ∃ done x later v t, xs = done ++ x :: later ∧
      done.foldlM step init a s = .ok v t ∧ step v x a t = .error stop s' := by
  induction xs generalizing init s with
  | nil =>
      refine ⟨nofun, ?_⟩
      rintro ⟨done, x, later, v, t, hsplit, _⟩
      simp at hsplit
  | cons y ys ih =>
      rw [List.foldlM_cons, bind_eq_error_iff]
      constructor
      · rintro (hy | ⟨w, t, hw, hys⟩)
        · exact ⟨[], y, ys, init, s, rfl, rfl, hy⟩
        · obtain ⟨done, x, later, v, t', rfl, hdone, hx⟩ := ih.1 hys
          refine ⟨y :: done, x, later, v, t', rfl, ?_, hx⟩
          rw [List.foldlM_cons]
          exact bind_eq_ok_iff.2 ⟨w, t, hw, hdone⟩
      · rintro ⟨done, x, later, v, t, hsplit, hdone, hx⟩
        rcases done with _ | ⟨z, done⟩
        · cases hdone
          cases hsplit
          exact .inl hx
        · cases hsplit
          rw [List.foldlM_cons] at hdone
          obtain ⟨w, t', hw, hdone⟩ := bind_eq_ok_iff.1 hdone
          exact .inr ⟨w, t', hw, ih.2 ⟨done, x, later, v, t, rfl, hdone, hx⟩⟩

end

/-! ## Extension -/

/-- **A computation extends another one**: it ends in the same way, unless the other one is
exhausted. -/
def Extends {α : Type} (x y : Eval α) : Prop :=
  ∀ a s, y a s = x a s ∨ ∃ s', x a s = .error .exhausted s'

section

variable {α β : Type} {x y : Eval α}

theorem Extends.refl (x : Eval α) : Extends x x := fun _ _ => .inl rfl

theorem Extends.bind {f g : α → Eval β} (hx : Extends x y) (hf : ∀ v, Extends (f v) (g v)) :
    Extends (x >>= f) (y >>= g) := by
  intro a s
  show EStateM.bind (y a) (fun v => g v a) s = EStateM.bind (x a) (fun v => f v a) s ∨
    ∃ s', EStateM.bind (x a) (fun v => f v a) s = .error .exhausted s'
  unfold EStateM.bind
  rcases hx a s with heq | ⟨s', hstop⟩
  · rw [heq]
    cases x a s with
    | ok v s' => exact hf v a s'
    | error e s' => exact .inl rfl
  · rw [hstop]
    exact .inr ⟨s', rfl⟩

theorem Extends.holding (hx : Extends x y) (vs : List Value) :
    Extends (holding vs x) (holding vs y) :=
  fun a s => hx (a.hold vs) s

theorem Extends.withScope (hx : Extends x y) : Extends (withScope x) (withScope y) := by
  intro a s
  simp only [Eval.withScope]
  rcases hx a s with heq | ⟨s', hstop⟩
  · exact .inl (by rw [heq])
  · exact .inr ⟨_, by rw [hstop]⟩

theorem Extends.inEnvironment (hx : Extends x y) (env : Environment) :
    Extends (inEnvironment env x) (inEnvironment env y) := by
  intro a s
  simp only [Eval.inEnvironment]
  rcases hx (a.stay s.env) { s with env := env } with heq | ⟨s', hstop⟩
  · exact .inl (by rw [heq])
  · exact .inr ⟨_, by rw [hstop]⟩

end

/-! ## Conclusions -/

/-- **A computation that takes a number of levels settles**: with one level more it extends what it
was. -/
def Settles {α : Type} (x : Nat → Eval α) : Prop := ∀ depth, Extends (x depth) (x (depth + 1))

/-- **The outcome of a computation that has enough levels**, if there is one. -/
def Concludes {α : Type} (x : Nat → Eval α) (a : Anchors) (s : State)
    (out : EStateM.Result Stop State α) : Prop :=
  ∃ depth, x depth a s = out ∧ ∀ s', out ≠ .error .exhausted s'

section

variable {α β : Type} {x : Nat → Eval α} {a : Anchors} {s : State}
  {out out' : EStateM.Result Stop State α}

/-- Once a computation has ended, more levels make no difference. -/
theorem Settles.of_le (hx : Settles x) {depth depth' : Nat} (hle : depth ≤ depth')
    (hout : x depth a s = out) (hfinished : ∀ s', out ≠ .error .exhausted s') :
    x depth' a s = out := by
  induction hle with
  | refl => exact hout
  | @step depth' _ ih =>
      rcases hx depth' a s with heq | ⟨s', hstop⟩
      · rw [heq, ih]
      · exact absurd (ih.symm.trans hstop) (hfinished s')

theorem Settles.bind {f : α → Nat → Eval β} (hx : Settles x) (hf : ∀ v, Settles (f v)) :
    Settles fun depth => x depth >>= fun v => f v depth :=
  fun depth => (hx depth).bind fun v => hf v depth

theorem Settles.withScope (hx : Settles x) : Settles fun depth => withScope (x depth) :=
  fun depth => (hx depth).withScope

/-- There is at most one outcome. -/
theorem Concludes.unique (h : Concludes x a s out) (hx : Settles x) (h' : Concludes x a s out') :
    out = out' := by
  obtain ⟨depth, hout, hfinished⟩ := h
  obtain ⟨depth', hout', hfinished'⟩ := h'
  rcases Nat.le_total depth depth' with hle | hle
  · exact (hx.of_le hle hout hfinished).symm.trans hout'
  · exact hout.symm.trans (hx.of_le hle hout' hfinished')

theorem concludes_congr {y : Nat → Eval α} (hxy : ∀ depth, x depth a s = y depth a s) :
    Concludes x a s out ↔ Concludes y a s out := by
  simp only [Concludes, hxy]

/-- One level may be taken off, or added. -/
theorem concludes_succ_iff (hx : Settles x) :
    Concludes (fun depth => x (depth + 1)) a s out ↔ Concludes x a s out := by
  constructor
  · rintro ⟨depth, hout, hfinished⟩
    exact ⟨depth + 1, hout, hfinished⟩
  · rintro ⟨depth, hout, hfinished⟩
    exact ⟨depth, hx.of_le (Nat.le_succ depth) hout hfinished, hfinished⟩

/-- **The outcome of one computation after another**: that of the second one, or that of the first
one if it has no value. -/
theorem concludes_bind_iff {f : α → Nat → Eval β} (hx : Settles x) (hf : ∀ v, Settles (f v))
    {out : EStateM.Result Stop State β} :
    Concludes (fun depth => x depth >>= fun v => f v depth) a s out ↔
      (∃ v s', Concludes x a s (.ok v s') ∧ Concludes (f v) a s' out) ∨
        ∃ e s', Concludes x a s (.error e s') ∧ out = .error e s' := by
  constructor
  · rintro ⟨depth, hout, hfinished⟩
    change EStateM.bind (x depth a) (fun v => f v depth a) s = out at hout
    rw [EStateM.bind] at hout
    cases hrun : x depth a s with
    | ok v s' =>
        rw [hrun] at hout
        exact .inl ⟨v, s', ⟨depth, hrun, nofun⟩, depth, hout, hfinished⟩
    | error e s' =>
        rw [hrun] at hout
        subst hout
        exact .inr ⟨e, s', ⟨depth, hrun, fun t ht => hfinished t (by cases ht; rfl)⟩, rfl⟩
  · rintro (⟨v, s', ⟨n, hv, hn⟩, m, hout, hm⟩ | ⟨e, s', ⟨n, he, hn⟩, rfl⟩)
    · -- the larger number of levels is enough for both
      refine ⟨max n m, ?_, hm⟩
      show EStateM.bind (x (max n m) a) (fun v => f v (max n m) a) s = out
      rw [EStateM.bind, hx.of_le (Nat.le_max_left n m) hv hn]
      exact (hf v).of_le (Nat.le_max_right n m) hout hm
    · refine ⟨n, ?_, fun t ht => hn t (by cases ht; rfl)⟩
      show EStateM.bind (x n a) (fun v => f v n a) s = _
      rw [EStateM.bind, he]

/-- The frames above a depth are taken off the environment that a computation leaves. -/
def released (depth : Nat) : EStateM.Result Stop State α → EStateM.Result Stop State α
  | .ok v s => .ok v { s with env := s.env.truncate depth }
  | .error e s => .error e { s with env := s.env.truncate depth }

theorem withScope_eq (x : Eval α) (a : Anchors) (s : State) :
    Eval.withScope x a s = released s.env.length (x a s) := by
  unfold Eval.withScope
  cases x a s <;> rfl

/-- **The outcome of a scope.** -/
theorem concludes_withScope_iff :
    Concludes (fun depth => withScope (x depth)) a s out ↔
      ∃ out', Concludes x a s out' ∧ out = released s.env.length out' := by
  constructor
  · rintro ⟨depth, hout, hfinished⟩
    replace hout := (withScope_eq (x depth) a s).symm.trans hout
    refine ⟨_, ⟨depth, rfl, fun s' hstop => ?_⟩, hout.symm⟩
    rw [hstop] at hout
    exact hfinished _ hout.symm
  · rintro ⟨out', ⟨depth, hout, hfinished⟩, rfl⟩
    refine ⟨depth, (withScope_eq (x depth) a s).trans (by rw [hout]), fun s' hstop => ?_⟩
    cases out' with
    | ok v t => cases hstop
    | error e t =>
        obtain ⟨rfl, _⟩ := EStateM.Result.error.inj hstop
        exact hfinished t rfl

end

/-! ## Special forms -/

section

variable {lisp : Interpreter} {ev ev' : Value → Eval Value}
  (hev : ∀ form, Extends (ev form) (ev' form))

include hev

theorem extends_body (forms : List Value) :
    Extends (SpecialForm.body lisp ev forms) (SpecialForm.body lisp ev' forms) := by
  have hfold : ∀ last, Extends
      (forms.foldlM (fun last form => holding [last] (ev form)) last)
      (forms.foldlM (fun last form => holding [last] (ev' form)) last) := by
    induction forms with
    | nil => exact fun last => .refl _
    | cons form forms ih =>
        intro last
        rw [List.foldlM_cons, List.foldlM_cons]
        exact ((hev form).holding _).bind ih
  exact hfold lisp.nilValue

/-- A form that is evaluated if it is headed by `lambda` and refused otherwise. -/
theorem extends_lambdaForm (v : Value) (e : EvalError) :
    Extends (do if ← onHeap (lisp.isLambdaForm · v) then ev v else fail e)
      (do if ← onHeap (lisp.isLambdaForm · v) then ev' v else fail e) := by
  refine (Extends.refl _).bind fun b => ?_
  cases b with
  | true => exact hev v
  | false => exact .refl _

theorem extends_functionNamed (target : Value) :
    Extends (SpecialForm.functionNamed lisp ev target)
      (SpecialForm.functionNamed lisp ev' target) := by
  cases target with
  | symbol s => exact .refl _
  | _ => exact extends_lambdaForm hev _ _

theorem extends_assignPairs (last : Value) (args : List Value) :
    Extends (SpecialForm.assignPairs lisp ev last args)
      (SpecialForm.assignPairs lisp ev' last args) := by
  fun_induction SpecialForm.assignPairs lisp ev last args with
  | case1 last target form rest ih =>
      refine (Extends.refl _).bind fun s => ((hev form).holding _).bind fun v => ?_
      exact (Extends.refl _).bind fun _ => ih v
  | case2 args last hshort =>
      rcases args with _ | ⟨target, _ | ⟨form, rest⟩⟩
      · exact .refl _
      · exact .refl _
      · exact absurd rfl (hshort target form rest)

theorem extends_initial (spec : BindingSpec) :
    Extends (SpecialForm.initial lisp ev spec) (SpecialForm.initial lisp ev' spec) := by
  obtain ⟨var, init⟩ := spec
  cases init with
  | some form => exact hev form
  | none => exact .refl _

theorem extends_initialAll (specs : List BindingSpec) :
    Extends (SpecialForm.initialAll lisp ev specs) (SpecialForm.initialAll lisp ev' specs) := by
  induction specs with
  | nil => exact .refl _
  | cons spec specs ih =>
      exact (extends_initial hev spec).bind fun v => (ih.holding _).bind fun _ => .refl _

theorem extends_bindInTurn (specs : List BindingSpec) :
    Extends (SpecialForm.bindInTurn lisp ev specs) (SpecialForm.bindInTurn lisp ev' specs) := by
  induction specs with
  | nil => exact .refl _
  | cons spec specs ih =>
      exact (extends_initial hev spec).bind fun v => (Extends.refl _).bind fun _ => ih

theorem extends_specialForm (form : SpecialForm) (args : List Value) :
    Extends (form.run lisp ev args) (form.run lisp ev' args) := by
  cases form with
  | quote => exact .refl _
  | function =>
      rcases args with _ | ⟨target, _ | ⟨more, rest⟩⟩
      · exact .refl _
      · exact extends_functionNamed hev target
      · exact .refl _
  | ite =>
      rcases args with _ | ⟨condition, _ | ⟨consequent, alternative⟩⟩
      · exact .refl _
      · exact .refl _
      · refine (hev condition).bind fun v => ?_
        split
        · exact extends_body hev alternative
        · exact hev consequent
  | setq =>
      simp only [SpecialForm.run]
      split
      · exact extends_assignPairs hev _ args
      · exact .refl _
  | letParallel =>
      rcases args with _ | ⟨bindings, forms⟩
      · exact .refl _
      · refine (Extends.refl _).bind fun specs => (extends_initialAll hev specs).bind fun bs => ?_
        exact Extends.withScope ((Extends.refl _).bind fun _ => extends_body hev forms)
  | letSequential =>
      rcases args with _ | ⟨bindings, forms⟩
      · exact .refl _
      · refine (Extends.refl _).bind fun specs => Extends.withScope ?_
        exact (extends_bindInTurn hev specs).bind fun _ => extends_body hev forms
  | lambda => exact .refl _
  | defun => exact .refl _

/-! ## Application -/

theorem extends_callClosure (code : Closure) (args : List Value) :
    Extends (callClosure lisp ev code args) (callClosure lisp ev' code args) := by
  obtain ⟨params, rest, body, env⟩ := code
  have hcall : ∀ frame, Extends
      (inEnvironment env (withScope do
        push frame
        SpecialForm.body lisp ev body))
      (inEnvironment env (withScope do
        push frame
        SpecialForm.body lisp ev' body)) := fun frame =>
    (Extends.withScope ((Extends.refl _).bind fun _ => extends_body hev body)).inEnvironment env
  refine (Extends.refl _).bind fun _ => ?_
  cases rest with
  | none => exact (Extends.refl _).bind fun _ => hcall _
  | some s => exact (Extends.refl _).bind fun _ => (Extends.refl _).bind fun _ => hcall _

/-- Calls a closure by its identity, if it has code. -/
theorem extends_callById (operator : Value) (id : ObjectId) (args : List Value) :
    Extends
      (do
        match ← onHeap (·.closures[id]?) with
        | some code => callClosure lisp ev code args
        | none => fail (.notCallable operator))
      (do
        match ← onHeap (·.closures[id]?) with
        | some code => callClosure lisp ev' code args
        | none => fail (.notCallable operator)) := by
  refine (Extends.refl _).bind fun found => ?_
  cases found with
  | some code => exact extends_callClosure hev code args
  | none => exact .refl _

omit hev in
theorem extends_callBuiltin (op : Builtin) (args : List Value)
    (happly : ∀ f rest g, args = f :: rest →
      Extends (applyValues lisp ev g rest) (applyValues lisp ev' g rest)) :
    Extends (callBuiltin lisp ev op args) (callBuiltin lisp ev' op args) := by
  unfold callBuiltin
  split
  · rename_i f rest
    exact Extends.holding ((Extends.refl _).bind fun g => happly f rest g rfl) _
  · exact .refl _

/-- One application of `funcall` peels off one argument, so this is an induction on their
number. -/
theorem extends_applyValues (operator : Value) (args : List Value) :
    Extends (applyValues lisp ev operator args) (applyValues lisp ev' operator args) := by
  have hstep : ∀ (operator : Value) (args : List Value),
      (∀ f rest g, args = f :: rest →
        Extends (applyValues lisp ev g rest) (applyValues lisp ev' g rest)) →
      Extends (applyValues lisp ev operator args) (applyValues lisp ev' operator args) := by
    intro operator args happly
    cases operator with
    | specialForm id form =>
        rw [applyValues, applyValues]
        exact (Extends.refl _).bind fun _ => (extends_specialForm hev form args).holding _
    | builtin id op =>
        rw [applyValues_builtin, applyValues_builtin]
        exact (Extends.refl _).bind fun _ => extends_callBuiltin op args happly
    | closure id name =>
        rw [applyValues, applyValues]
        exact (extends_callById hev _ id args).holding _
    | _ =>
        rw [applyValues, applyValues]
        · exact .refl _
        all_goals
          intro _ _ hvalue
          cases hvalue
  induction args generalizing operator with
  | nil => exact hstep operator [] fun _ _ _ hcons => by cases hcons
  | cons arg args ih =>
      refine hstep operator (arg :: args) fun f rest g hargs => ?_
      cases hargs
      exact ih g

theorem extends_evaluateAll (forms : List Value) :
    Extends (evaluateAll ev forms) (evaluateAll ev' forms) := by
  induction forms with
  | nil => exact .refl _
  | cons form forms ih =>
      exact (hev form).bind fun v => (ih.holding _).bind fun _ => .refl _

theorem extends_apply (operator argList : Value) :
    Extends (apply lisp ev operator argList) (apply lisp ev' operator argList) := by
  unfold apply
  cases argList.items? with
  | none => exact .refl _
  | some args =>
      cases operator with
      | specialForm id form =>
          exact (Extends.refl _).bind fun _ => extends_specialForm hev form args
      | builtin id op =>
          refine (extends_evaluateAll hev args).bind fun values => (Extends.refl _).bind fun _ => ?_
          exact extends_callBuiltin op values fun _ rest g _ => extends_applyValues hev g rest
      | closure id name =>
          exact Extends.holding ((extends_evaluateAll hev args).bind fun values =>
            extends_callById hev _ id values) _
      | _ => exact .refl _

theorem extends_operatorOf (head : Value) :
    Extends (operatorOf lisp ev head) (operatorOf lisp ev' head) := by
  cases head with
  | symbol s => exact .refl _
  | _ => exact extends_lambdaForm hev _ _

theorem extends_evaluateWith (form : Value) :
    Extends (evaluateWith lisp ev form) (evaluateWith lisp ev' form) := by
  cases form with
  | cons id head args =>
      exact (extends_operatorOf hev head).bind fun operator => extends_apply hev operator args
  | _ => exact .refl _

end

/-! ## Evaluation -/

variable {lisp : Interpreter} {depth depth' : Nat} {form : Value} {a : Anchors} {s : State}
  {out out' : EStateM.Result Stop State Value}

/-- One more level of evaluations that are nested. -/
theorem extends_evaluate (lisp : Interpreter) (depth : Nat) (form : Value) :
    Extends (evaluate lisp depth form) (evaluate lisp (depth + 1) form) := by
  induction depth generalizing form with
  | zero => exact fun _ s => .inr ⟨s, rfl⟩
  | succ depth ih => exact extends_evaluateWith ih form

theorem settles_evaluate (lisp : Interpreter) (form : Value) :
    Settles fun depth => evaluate lisp depth form :=
  fun depth => extends_evaluate lisp depth form

/-- The outcome of a computation that was nested too deeply. -/
def IsExhausted (out : EStateM.Result Stop State Value) : Prop := ∃ s, out = .error .exhausted s

/-- **A finished evaluation does not depend on the number of levels.** -/
theorem evaluate_of_le (hle : depth ≤ depth') (hout : evaluate lisp depth form a s = out)
    (hfinished : ¬ IsExhausted out) : evaluate lisp depth' form a s = out :=
  (settles_evaluate lisp form).of_le hle hout fun s' hstop => hfinished ⟨s', hstop⟩

/-- **The outcome of an evaluation**, in a value or an error of the program, if there is one. -/
def Yields (lisp : Interpreter) (form : Value) (a : Anchors) (s : State)
    (out : EStateM.Result Stop State Value) : Prop :=
  ∃ depth, evaluate lisp depth form a s = out ∧ ¬ IsExhausted out

theorem Yields.finished (h : Yields lisp form a s out) : ¬ IsExhausted out := h.choose_spec.2

theorem yields_iff_concludes :
    Yields lisp form a s out ↔ Concludes (fun depth => evaluate lisp depth form) a s out := by
  simp only [Yields, Concludes, IsExhausted, not_exists, ne_eq]

/-- There is at most one outcome. -/
theorem Yields.unique (h : Yields lisp form a s out) (h' : Yields lisp form a s out') :
    out = out' := by
  rw [yields_iff_concludes] at h h'
  exact h.unique (settles_evaluate lisp form) h'

/-- Any number of levels may be added. -/
theorem Yields.exists_le (h : Yields lisp form a s out) (n : Nat) :
    ∃ depth, n ≤ depth ∧ evaluate lisp depth form a s = out := by
  obtain ⟨depth, hout, hfinished⟩ := h
  exact ⟨max n depth, Nat.le_max_left _ _,
    evaluate_of_le (Nat.le_max_right _ _) hout hfinished⟩

end SmallLisp.Eval
