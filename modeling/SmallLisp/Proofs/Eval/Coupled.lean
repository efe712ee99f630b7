import SmallLisp.Proofs.Eval.Coupling

set_option autoImplicit false

/-! # Evaluation does not depend on names

To evaluate forms that belong together has outcomes that belong together, whatever the coupling
(`mirrors_evaluate`). There is one lemma for each part of the evaluator, and the evaluator for the
forms inside is a parameter, as in the definitions. The lemmas follow the definitions line by line:
each look at a value is a look at its name, and each thing that is made or set is made or set on
both sides.
-/

namespace SmallLisp.Coupling

open Eval

variable {lisp host : Interpreter} {L : Law lisp} {C : Coupling L host} {w : Naming L host}

/-! ## Checks -/

theorem mirrors_expectVariable (operation : String) {u v : Value} (hv : w.value u v) :
    C.Mirrors w (ofExcept (expectVariable host operation u))
      (ofExcept (expectVariable lisp operation v)) Naming.var := by
  obtain ⟨rfl, hv⟩ := hv
  have hcheck := w.ren.expectVariable_value lisp operation v
  rw [w.interpreter] at hcheck
  exact mirrors_ofExcept hcheck fun s hs => ⟨rfl, L.var_of_expectVariable hv hs⟩

theorem mirrors_bindingSpecs (operation : String) {u v : Value} (hv : w.value u v) :
    C.Mirrors w (ofExcept (bindingSpecs host operation u))
      (ofExcept (bindingSpecs lisp operation v)) fun w => List.Forall₂ w.spec := by
  obtain ⟨rfl, hv⟩ := hv
  have hcheck := w.ren.bindingSpecs_value lisp operation v
  rw [w.interpreter] at hcheck
  refine mirrors_ofExcept hcheck fun specs hspecs => ?_
  have hknown := L.isSpec_of_bindingSpecs hv hspecs
  clear hspecs
  induction specs with
  | nil => exact .nil
  | cons spec specs ih =>
      obtain ⟨⟨hvar, hinit⟩, hrest⟩ := List.forall_mem_cons.1 hknown
      refine .cons ⟨⟨rfl, hvar⟩, ?_⟩ (ih hrest)
      obtain ⟨var, init⟩ := spec
      cases init with
      | some form => exact .some ⟨rfl, hinit form rfl⟩
      | none => exact .none

/-- Parameters that belong together. -/
def Params (w : Naming L host) (p p' : Parameters) : Prop :=
  List.Forall₂ w.var p.required p'.required ∧ Option.Rel w.var p.rest p'.rest

theorem mirrors_ofItems {marker marker' : Symbol} {us vs : List Value}
    (hmarker : w.value (.symbol marker) (.symbol marker')) (hvs : w.values us vs) :
    C.Mirrors w (ofExcept (Parameters.ofItems host marker us))
      (ofExcept (Parameters.ofItems lisp marker' vs)) Params := by
  obtain rfl : marker = w.ren.symbol marker' := by injection hmarker.1
  have hcheck := w.ren.ofItems_values lisp marker' vs
  rw [w.interpreter, ← Naming.values_eq hvs] at hcheck
  refine mirrors_ofExcept hcheck fun p hp => ?_
  have hknown := L.var_of_parameters (Naming.values_known hvs) hp
  obtain ⟨hrequired, hrest⟩ := List.forall_mem_append.1 hknown
  refine ⟨Naming.vars_of_known hrequired, ?_⟩
  obtain ⟨required, rest⟩ := p
  cases rest with
  | some s => exact .some ⟨rfl, hrest s List.mem_cons_self⟩
  | none => exact .none

/-! ## Builtins -/

theorem isNil_eq {u v : Value} (hv : w.value u v) : u.isNil = v.isNil := by
  rw [hv.1, Renaming.isNil_value]

theorem mirrors_makeNumber (n : Number) :
    C.Mirrors w (Builtin.makeNumber n) (Builtin.makeNumber n) Naming.value :=
  mirrors_make fun _ _ hh => C.number hh n

/-- A list is made from its end on, on both sides. -/
theorem arrives_listWithTail {h g : Heap} {tail tail' : Value} {us vs : List Value}
    (hh : C.heap w h g) (htail : w.value tail tail') (hvs : w.values us vs) :
    w.Arrives C.heap Naming.value (h.listWithTail tail us) (g.listWithTail tail' vs) := by
  induction hvs with
  | nil => exact ⟨w, le_refl w, hh, htail⟩
  | cons hv _ ih =>
      obtain ⟨w₁, hw₁, hh₁, hrest⟩ := ih
      obtain ⟨w₂, hw₂, hh₂, hcons⟩ := C.cons hh₁ (Naming.value_mono hw₁ hv) hrest
      exact ⟨w₂, hw₁.trans hw₂, hh₂, hcons⟩

theorem mirrors_list {us vs : List Value} (hvs : w.values us vs) :
    C.Mirrors w (make (host.list · us)) (make (lisp.list · vs)) Naming.value :=
  mirrors_make fun _ _ hh => arrives_listWithTail hh w.value_nil hvs

/-- The result of a check that knows its values, and its name. -/
def Checked (w : Naming L host) (x x' : Except EvalError Value) : Prop :=
  x = w.ren.check w.ren.value x' ∧ ∀ v, x' = .ok v → L.value w.world v

theorem checked_partOf {h g : Heap} {a a' : Anchors} (hh : C.heap w h g)
    (ha : C.anchors w a a') {s s' : Symbol} (hs : w.value (.symbol s) (.symbol s'))
    (part : SymbolPart) :
    Checked w (Builtin.partOf host s part a h) (Builtin.partOf lisp s' part a' g) := by
  refine ⟨?_, fun v hv => L.value_of_partOf (C.known hh) hs.2 hv⟩
  have hpackage := C.package hh ha hs
  have hnil : host.nilValue = w.ren.value lisp.nilValue := w.value_nil.1
  obtain rfl : s = w.ren.symbol s' := by injection hs.1
  have hcells := (C.carries hh).cellsOf s'
  cases part with
  | name => rfl
  | value =>
      simp only [Builtin.partOf, hcells, Renaming.cells]
      cases (g.cellsOf s').value <;> rfl
  | function =>
      simp only [Builtin.partOf, hcells, Renaming.cells]
      cases (g.cellsOf s').function <;> rfl
  | plist =>
      simp only [Builtin.partOf, hcells, Renaming.cells, hnil]
      cases (g.cellsOf s').plist <;> rfl
  | package =>
      simp only [Builtin.partOf, hpackage, hnil]
      cases lisp.packageOf? g a' s' <;> rfl

theorem mirrors_ends (operation : String) {u v : Value} (hv : w.value u v) :
    C.Mirrors w (ofExcept (Builtin.ends host operation u))
      (ofExcept (Builtin.ends lisp operation v)) fun w p p' =>
        w.value p.1 p'.1 ∧ w.value p.2 p'.2 := by
  obtain ⟨rfl, hv⟩ := hv
  have hcheck := w.ren.ends_value lisp operation v
  rw [w.interpreter] at hcheck
  refine mirrors_ofExcept hcheck fun p hp => ?_
  have hknown := L.value_of_ends hv hp
  exact ⟨⟨rfl, hknown.1⟩, rfl, hknown.2⟩

/-- The two ends of a single argument, of which a builtin gives one. -/
theorem mirrors_pickEnd (op : Builtin) (pick : Value × Value → Value)
    (hpick : ∀ {w : Naming L host} {p p' : Value × Value}, w.value p.1 p'.1 → w.value p.2 p'.2 →
      w.value (pick p) (pick p')) {us vs : List Value} (hargs : w.values us vs) :
    C.Mirrors w
      (match us with
        | [v] => do return pick (← ofExcept (Builtin.ends host op.operation v))
        | _ => fail (.malformed (.arguments op)))
      (match vs with
        | [v] => do return pick (← ofExcept (Builtin.ends lisp op.operation v))
        | _ => fail (.malformed (.arguments op))) Naming.value := by
  rcases hargs with _ | ⟨hv, _ | ⟨_, _⟩⟩
  · exact mirrors_fail rfl
  · exact (mirrors_ends op.operation hv).bind fun _ _ _ _ hp => mirrors_pure (hpick hp.1 hp.2)
  · exact mirrors_fail rfl

/-- A question about the first argument has the same answer on both sides. -/
theorem head?_any_eq {test : Value → Bool} (htest : ∀ (r : Renaming) v, test (r.value v) = test v)
    {us vs : List Value} (hargs : w.values us vs) : us.head?.any test = vs.head?.any test := by
  rcases hargs with _ | ⟨hv, _⟩
  · rfl
  · rw [hv.1]
    exact htest w.ren _

theorem mirrors_truth {b b' : Bool} (hb : b = b') :
    C.Mirrors w (pure (host.truth b)) (pure (lisp.truth b')) Naming.value :=
  mirrors_pure (hb ▸ w.value_truth b)

/-- A number is computed from arguments and made on both sides. -/
theorem mirrors_number {α : Type} {x x' : Except EvalError α} (hx : x = w.ren.check id x')
    (number : α → Number) :
    C.Mirrors w (do Builtin.makeNumber (number (← ofExcept x)))
      (do Builtin.makeNumber (number (← ofExcept x'))) Naming.value := by
  refine (mirrors_ofExcept (R := fun _ n n' => n = n') hx fun _ _ => rfl).bind
    fun w' n n' _ hn => ?_
  subst hn
  exact mirrors_makeNumber _

theorem mirrors_builtin (op : Builtin) {us vs : List Value} (hargs : w.values us vs) :
    C.Mirrors w (op.run host us) (op.run lisp vs) Naming.value := by
  have heq := Naming.values_eq hargs
  cases op with
  | eq =>
      rcases hargs with _ | ⟨hu, _ | ⟨hv, _ | ⟨_, _⟩⟩⟩
      · exact mirrors_fail rfl
      · exact mirrors_fail rfl
      · refine mirrors_truth ?_
        rw [hu.1, hv.1, Renaming.same_value]
      · exact mirrors_fail rfl
  | null => exact mirrors_truth (head?_any_eq (fun r v => r.isNil_value v) hargs)
  | not => exact mirrors_truth (head?_any_eq (fun r v => r.isNil_value v) hargs)
  | atom => exact mirrors_truth (head?_any_eq (fun r v => r.isAtom_value v) hargs)
  | funcall => exact mirrors_fail rfl
  | arithmetic op =>
      rw [heq]
      exact mirrors_number (w.ren.arithmeticResult_values op vs) id
  | mod =>
      rw [heq]
      exact mirrors_number (w.ren.modResult_values vs) Number.integer
  | relation rel =>
      rw [heq]
      exact (mirrors_ofExcept (R := fun _ b b' => b = b') (w.ren.relationResult_values rel vs)
        fun _ _ => rfl).bind fun w' b b' _ hb => mirrors_truth hb
  | trigonometric fn =>
      rw [heq]
      exact mirrors_number (w.ren.trigonometricResult_values fn vs) Number.float
  | car => exact mirrors_pickEnd .car Prod.fst (fun h _ => h) hargs
  | first => exact mirrors_pickEnd .first Prod.fst (fun h _ => h) hargs
  | cdr => exact mirrors_pickEnd .cdr Prod.snd (fun _ h => h) hargs
  | rest => exact mirrors_pickEnd .rest Prod.snd (fun _ h => h) hargs
  | cons =>
      rcases hargs with _ | ⟨hu, _ | ⟨hv, _ | ⟨_, _⟩⟩⟩
      · exact mirrors_fail rfl
      · exact mirrors_fail rfl
      · exact mirrors_make fun _ _ hh => C.cons hh hu hv
      · exact mirrors_fail rfl
  | list => exact mirrors_list hargs
  | symbolPart part =>
      have hcheck := w.ren.expectSymbol_values part.accessor vs
      rw [← heq] at hcheck
      refine Mirrors.bind (R := fun w s s' => w.value (.symbol s) (.symbol s'))
        (mirrors_ofExcept hcheck fun s hs => ⟨rfl, L.value_of_expectSymbol
          (Naming.values_known hargs) hs⟩) fun w₁ s s' hw₁ hs => ?_
      refine Mirrors.bind (R := Checked) (mirrors_inspect fun a a' h g hh ha =>
        checked_partOf hh ha hs part) fun w₂ x x' _ hx => ?_
      exact mirrors_ofExcept hx.1 fun v hv => ⟨rfl, hx.2 v hv⟩

/-! ## Special forms -/

/-- Evaluators that mirror each other on forms that belong together. -/
def Evaluates (C : Coupling L host) (ev ev' : Value → Eval Value) : Prop :=
  ∀ {w : Naming L host} {form form' : Value}, w.value form form' →
    C.Mirrors w (ev form) (ev' form') Naming.value

theorem isLambdaForm_eq {h g : Heap} (hh : C.heap w h g) {u v : Value} (hv : w.value u v) :
    host.isLambdaForm h u = lisp.isLambdaForm g v := by
  have hfound := C.lambda hh
  have hform := @Renaming.isLambdaForm_value w.ren lisp h g
  rw [w.interpreter] at hform
  rw [hv.1]
  exact hform hfound v

section

variable {ev ev' : Value → Eval Value} (hev : C.Evaluates ev ev')

include hev

theorem mirrors_body {forms forms' : List Value} (hforms : w.values forms forms') :
    C.Mirrors w (SpecialForm.body host ev forms) (SpecialForm.body lisp ev' forms')
      Naming.value := by
  suffices hfold : ∀ {w : Naming L host} {last last' : Value}, w.value last last' →
      w.values forms forms' →
      C.Mirrors w (forms.foldlM (fun last form => holding [last] (ev form)) last)
        (forms'.foldlM (fun last form => holding [last] (ev' form)) last') Naming.value from
    hfold w.value_nil hforms
  clear hforms
  intro w last last' hlast hforms
  induction forms generalizing forms' w last last' with
  | nil =>
      cases hforms
      exact mirrors_pure hlast
  | cons form forms ih =>
      rcases hforms with _ | ⟨hform, hrest⟩
      rw [List.foldlM_cons, List.foldlM_cons]
      exact ((hev hform).holding (.cons hlast .nil)).bind fun w' v v' hw hv =>
        ih hv (Naming.values_mono hw hrest)

/-- A form that is evaluated if it is headed by `lambda` and refused otherwise. -/
theorem mirrors_lambdaForm {u v : Value} (hv : w.value u v) {refusal : Value → EvalError}
    (hrefusal : ∀ (r : Renaming) v, refusal (r.value v) = r.error (refusal v)) :
    C.Mirrors w
      (do if ← onHeap (host.isLambdaForm · u) then ev u else fail (refusal u))
      (do if ← onHeap (lisp.isLambdaForm · v) then ev' v else fail (refusal v))
      Naming.value := by
  refine Mirrors.bind (R := fun _ b b' => b = b')
    (mirrors_onHeap fun h g hh => isLambdaForm_eq hh hv) fun w' b b' hw hb => ?_
  subst hb
  have hv' := Naming.value_mono hw hv
  cases b with
  | true => exact hev hv'
  | false =>
      refine mirrors_fail ?_
      rw [hv'.1]
      exact hrefusal _ v

theorem mirrors_functionNamed {u v : Value} (hv : w.value u v) :
    C.Mirrors w (SpecialForm.functionNamed host ev u) (SpecialForm.functionNamed lisp ev' v)
      Naming.value := by
  obtain ⟨rfl, hv⟩ := hv
  cases v with
  | symbol s => exact mirrors_functionOf ⟨rfl, hv⟩
  | _ => exact mirrors_lambdaForm hev ⟨rfl, hv⟩ fun _ _ => rfl

theorem mirrors_assignPairs {last last' : Value} {args args' : List Value}
    (hlast : w.value last last') (hargs : w.values args args') :
    C.Mirrors w (SpecialForm.assignPairs host ev last args)
      (SpecialForm.assignPairs lisp ev' last' args') Naming.value := by
  fun_induction SpecialForm.assignPairs lisp ev' last' args' generalizing w last args with
  | case1 last' target' form' rest' ih =>
      rcases hargs with _ | ⟨htarget, _ | ⟨hform, hrest⟩⟩
      refine (mirrors_expectVariable "setq" htarget).bind fun w₁ s s' hw₁ hs => ?_
      refine ((hev (Naming.value_mono hw₁ hform)).holding
        (.cons (Naming.value_mono hw₁ hlast) .nil)).bind fun w₂ v v' hw₂ hv => ?_
      refine (mirrors_assign (Naming.var_mono hw₂ hs) hv).bind fun w₃ _ _ hw₃ _ => ?_
      exact ih v' (Naming.value_mono hw₃ hv)
        (Naming.values_mono ((hw₁.trans hw₂).trans hw₃) hrest)
  | case2 args' last' hshort =>
      rcases hargs with _ | ⟨_, _ | ⟨_, _⟩⟩
      · exact mirrors_pure hlast
      · exact mirrors_pure hlast
      · exact absurd rfl (hshort _ _ _)

theorem mirrors_initial {p p' : BindingSpec} (hp : w.spec p p') :
    C.Mirrors w (SpecialForm.initial host ev p) (SpecialForm.initial lisp ev' p')
      Naming.value := by
  obtain ⟨var, init⟩ := p
  obtain ⟨var', init'⟩ := p'
  obtain ⟨_, hinit⟩ := hp
  cases hinit with
  | some hform => exact hev hform
  | none => exact mirrors_pure w.value_nil

theorem mirrors_initialAll {specs specs' : List BindingSpec}
    (hspecs : List.Forall₂ w.spec specs specs') :
    C.Mirrors w (SpecialForm.initialAll host ev specs) (SpecialForm.initialAll lisp ev' specs')
      fun w => List.Forall₂ w.binding := by
  induction specs generalizing specs' w with
  | nil =>
      cases hspecs
      exact mirrors_pure .nil
  | cons spec specs ih =>
      rcases hspecs with _ | ⟨hspec, hrest⟩
      refine (mirrors_initial hev hspec).bind fun w₁ v v' hw₁ hv => ?_
      refine ((ih (hrest.imp fun _ _ => Naming.spec_mono hw₁)).holding (.cons hv .nil)).bind
        fun w₂ later later' hw₂ hlater => ?_
      refine mirrors_pure (.cons (Naming.binding_mk ?_ (Naming.value_mono hw₂ hv)) hlater)
      exact Naming.var_mono (hw₁.trans hw₂) hspec.1

theorem stacks_bindInTurn {specs specs' : List BindingSpec}
    (hspecs : List.Forall₂ w.spec specs specs') :
    C.Stacks w (SpecialForm.bindInTurn host ev specs) (SpecialForm.bindInTurn lisp ev' specs')
      fun _ _ _ => True := by
  induction specs generalizing specs' w with
  | nil =>
      cases hspecs
      exact (mirrors_pure trivial).stacks
  | cons spec specs ih =>
      rcases hspecs with _ | ⟨hspec, hrest⟩
      refine (mirrors_initial hev hspec).stacks.bind fun w₁ v v' hw₁ hv => ?_
      have hframe : w₁.frame ⟨[⟨.symbol spec.var, v⟩]⟩ ⟨[⟨.symbol _, v'⟩]⟩ :=
        .cons (Naming.binding_mk (Naming.var_mono hw₁ hspec.1) hv) .nil
      refine (stacks_push hframe).bind fun w₂ _ _ hw₂ _ => ?_
      exact ih (hrest.imp fun _ _ => Naming.spec_mono (hw₁.trans hw₂))

omit hev in
/-- A new closure, which is made in the current environment. -/
theorem mirrors_closure {name name' : Option Symbol} {lambdaList lambdaList' : Value}
    {forms forms' : List Value}
    (hname : Option.Rel (fun s s' => w.value (.symbol s) (.symbol s')) name name')
    (hlist : w.value lambdaList lambdaList') (hforms : w.values forms forms') :
    C.Mirrors w (SpecialForm.closure host name lambdaList forms)
      (SpecialForm.closure lisp name' lambdaList' forms')
      fun w v v' => w.value v v' ∧ ∃ id id', v = .closure id name ∧ v' = .closure id' name' := by
  have hparams : C.Mirrors w (SpecialForm.parameters host lambdaList)
      (SpecialForm.parameters lisp lambdaList') Params := by
    unfold SpecialForm.parameters
    rcases Naming.items_eq hlist with ⟨hnone, hnone'⟩ | ⟨us, vs, hus, hvs, hitems⟩
    · rw [hnone, hnone']
      exact mirrors_fail (congrArg (EvalError.malformed ∘ Malformation.lambdaList) hlist.1)
    · rw [hus, hvs]
      exact (mirrors_make fun _ _ hh => C.marker hh).bind fun w' marker marker' hw hmarker =>
        mirrors_ofItems hmarker (Naming.values_mono hw hitems)
  refine hparams.bind fun w₁ p p' hw₁ hp => ?_
  refine mirrors_environment.bind fun w₂ e e' hw₂ he => ?_
  refine mirrors_make fun h g hh => ?_
  have hw := hw₁.trans hw₂
  have hcode : w₂.Code ⟨p.required, p.rest, forms, e⟩ ⟨p'.required, p'.rest, forms', e'⟩ :=
    { params := hp.1.imp fun _ _ => Naming.var_mono hw₂
      rest := Naming.option_imp (fun _ _ => Naming.var_mono hw₂) hp.2
      body := Naming.values_mono hw hforms
      env := he }
  obtain ⟨w₃, hw₃, hh₃, hv⟩ :=
    C.closure hh (Naming.option_imp (fun _ _ => Naming.value_mono hw) hname) hcode
  exact ⟨w₃, hw₃, hh₃, hv, _, _, rfl, rfl⟩

theorem mirrors_specialForm (form : SpecialForm) {args args' : List Value}
    (hargs : w.values args args') :
    C.Mirrors w (form.run host ev args) (form.run lisp ev' args') Naming.value := by
  cases form with
  | quote =>
      rcases hargs with _ | ⟨hv, _ | ⟨_, _⟩⟩
      · exact mirrors_fail rfl
      · exact mirrors_pure hv
      · exact mirrors_fail rfl
  | function =>
      rcases hargs with _ | ⟨hv, _ | ⟨_, _⟩⟩
      · exact mirrors_fail rfl
      · exact mirrors_functionNamed hev hv
      · exact mirrors_fail rfl
  | ite =>
      rcases hargs with _ | ⟨hcond, _ | ⟨hthen, helse⟩⟩
      · exact mirrors_fail rfl
      · exact mirrors_fail rfl
      · refine (hev hcond).bind fun w' v v' hw hv => ?_
        rw [isNil_eq hv]
        split
        · exact mirrors_body hev (Naming.values_mono hw helse)
        · exact hev (Naming.value_mono hw hthen)
  | setq =>
      simp only [SpecialForm.run, hargs.length_eq]
      split
      · exact mirrors_assignPairs hev w.value_nil hargs
      · exact mirrors_fail rfl
  | letParallel =>
      rcases hargs with _ | ⟨hbindings, hforms⟩
      · exact mirrors_fail rfl
      · refine (mirrors_bindingSpecs "let" hbindings).bind fun w₁ specs specs' hw₁ hspecs => ?_
        refine (mirrors_initialAll hev hspecs).bind fun w₂ bs bs' hw₂ hbs => ?_
        have hframe : w₂.frame ⟨bs⟩ ⟨bs'⟩ := hbs
        refine mirrors_withScope ((stacks_push hframe).bind fun w₃ _ _ hw₃ _ => Mirrors.stacks ?_)
        exact mirrors_body hev (Naming.values_mono ((hw₁.trans hw₂).trans hw₃) hforms)
  | letSequential =>
      rcases hargs with _ | ⟨hbindings, hforms⟩
      · exact mirrors_fail rfl
      · refine (mirrors_bindingSpecs "let*" hbindings).bind fun w₁ specs specs' hw₁ hspecs => ?_
        refine mirrors_withScope
          ((stacks_bindInTurn hev hspecs).bind fun w₂ _ _ hw₂ _ => Mirrors.stacks ?_)
        exact mirrors_body hev (Naming.values_mono (hw₁.trans hw₂) hforms)
  | lambda =>
      rcases hargs with _ | ⟨hlist, hforms⟩
      · exact mirrors_fail rfl
      · exact (mirrors_closure .none hlist hforms).imp_post fun _ _ _ hv => hv.1
  | defun =>
      cases hargs with
      | nil => exact mirrors_fail rfl
      | @cons name name' _ _ hname hargs =>
          rcases hargs with _ | ⟨hlist, hforms⟩
          · exact mirrors_fail rfl
          · obtain ⟨rfl, hname⟩ := hname
            cases name' with
            | symbol s =>
                have hs : w.value (.symbol (w.ren.symbol s)) (.symbol s) := ⟨rfl, hname⟩
                refine (mirrors_closure (.some hs) hlist hforms).bind fun w₁ f f' hw₁ hf => ?_
                obtain ⟨hf, id, id', rfl, rfl⟩ := hf
                refine (mirrors_change fun _ _ hh => C.setFunction hh (Naming.value_mono hw₁ hs)
                  hf).bind fun w₂ _ _ hw₂ _ => ?_
                exact mirrors_pure (Naming.value_mono (hw₁.trans hw₂) hs)
            | _ => exact mirrors_fail rfl

/-! ## Application -/

omit hev in
/-- Each parameter is bound to the argument in its place. -/
theorem binding_zipWith {params params' : List Symbol} {args args' : List Value}
    (hparams : List.Forall₂ w.var params params') (hargs : w.values args args') :
    List.Forall₂ w.binding (List.zipWith (fun s v => Binding.mk (.symbol s) v) params args)
      (List.zipWith (fun s v => Binding.mk (.symbol s) v) params' args') := by
  induction hparams generalizing args args' with
  | nil => exact .nil
  | cons hs _ ih =>
      rcases hargs with _ | ⟨hv, hrest⟩
      · exact .nil
      · exact .cons (Naming.binding_mk hs hv) (ih hrest)

omit hev in
theorem arity_eq {c c' : Closure} (hc : w.Code c c') : c.arity = c'.arity := by
  rw [hc.eq, Renaming.arity_closure]

theorem mirrors_callClosure {c c' : Closure} {args args' : List Value} (hc : w.Code c c')
    (hargs : w.values args args') :
    C.Mirrors w (callClosure host ev c args) (callClosure lisp ev' c' args') Naming.value := by
  unfold callClosure
  rw [arity_eq hc]
  refine (mirrors_arity c'.arity hargs.length_eq).bind fun w₁ _ _ hw₁ _ => ?_
  have hc₁ := Naming.code_mono hw₁ hc
  have hargs₁ := Naming.values_mono hw₁ hargs
  -- the call itself, once the frame is complete
  have hcall : ∀ {w₂ : Naming L host} {later later' : List Binding}, w₁ ≤ w₂ →
      List.Forall₂ w₂.binding later later' →
      C.Mirrors w₂
        (inEnvironment c.env (withScope do
          Eval.push ⟨List.zipWith (fun s v => ⟨.symbol s, v⟩) c.params args ++ later⟩
          SpecialForm.body host ev c.body))
        (inEnvironment c'.env (withScope do
          Eval.push ⟨List.zipWith (fun s v => ⟨.symbol s, v⟩) c'.params args' ++ later'⟩
          SpecialForm.body lisp ev' c'.body)) Naming.value := by
    intro w₂ later later' hw₂ hlater
    have hc₂ := Naming.code_mono hw₂ hc₁
    refine Mirrors.inEnvironment (mirrors_withScope ?_) hc₂.env
    have hframe : w₂.frame
        ⟨List.zipWith (fun s v => ⟨.symbol s, v⟩) c.params args ++ later⟩
        ⟨List.zipWith (fun s v => ⟨.symbol s, v⟩) c'.params args' ++ later'⟩ :=
      List.rel_append (binding_zipWith hc₂.params (Naming.values_mono hw₂ hargs₁)) hlater
    refine (stacks_push hframe).bind fun w₃ _ _ hw₃ _ => Mirrors.stacks ?_
    exact mirrors_body hev (Naming.values_mono hw₃ hc₂.body)
  obtain ⟨params, rest, body, env⟩ := c
  obtain ⟨params', rest', body', env'⟩ := c'
  obtain ⟨hparams, hrest, _, _⟩ := hc₁
  cases hrest with
  | none =>
      exact Mirrors.bind (R := fun w₂ bs bs' => w₁ ≤ w₂ ∧ List.Forall₂ w₂.binding bs bs')
        (mirrors_pure ⟨le_refl w₁, .nil⟩) fun w₂ bs bs' _ hbs => hcall hbs.1 hbs.2
  | @some s s' hs =>
      have hsurplus : w₁.values (args.drop params.length) (args'.drop params'.length) := by
        rw [hparams.length_eq]
        exact List.forall₂_drop _ hargs₁
      refine (mirrors_list hsurplus).bind fun w₂ v v' hw₂ hv => ?_
      refine Mirrors.bind (R := fun w₂ bs bs' => w₁ ≤ w₂ ∧ List.Forall₂ w₂.binding bs bs')
        (mirrors_pure ⟨hw₂, .cons (Naming.binding_mk (Naming.var_mono hw₂ hs) hv) .nil⟩)
        fun w₃ bs bs' _ hbs => hcall hbs.1 hbs.2

omit hev in
theorem mirrors_designated {u v : Value} (hv : w.value u v) :
    C.Mirrors w (designated u) (designated v) Naming.value := by
  obtain ⟨rfl, hv⟩ := hv
  cases v with
  | symbol s => exact mirrors_functionOf ⟨rfl, hv⟩
  | _ => exact mirrors_pure ⟨rfl, hv⟩

/-- Calls a closure by its identity, if it has code. -/
theorem mirrors_callById {id id' : ObjectId} {name name' : Option Symbol}
    (hf : w.value (.closure id name) (.closure id' name')) {args args' : List Value}
    (hargs : w.values args args') :
    C.Mirrors w
      (do
        match ← onHeap (·.closures[id]?) with
        | some code => callClosure host ev code args
        | none => fail (.notCallable (.closure id name)))
      (do
        match ← onHeap (·.closures[id']?) with
        | some code => callClosure lisp ev' code args'
        | none => fail (.notCallable (.closure id' name'))) Naming.value := by
  refine Mirrors.bind (R := fun w => Option.Rel w.Code) (mirrors_onHeap fun h g hh => ?_)
    fun w' found found' hw hfound => ?_
  · have hid : id = w.ren.object id' := congrArg Value.id hf.1
    rw [hid, (C.carries hh).closures]
    cases hcode : g.closures[id']? with
    | some c => exact .some (Naming.code_of_known (L.code (C.known hh) hcode))
    | none => exact .none
  · cases hfound with
    | some hc => exact mirrors_callClosure hev hc (Naming.values_mono hw hargs)
    | none => exact mirrors_fail (congrArg EvalError.notCallable (Naming.value_mono hw hf).1)

omit hev in
theorem mirrors_callBuiltin (op : Builtin) {args args' : List Value} (hargs : w.values args args')
    (happly : ∀ {w : Naming L host} {f f' g g' : Value} {rest rest' : List Value},
      args = f :: rest → args' = f' :: rest' → w.values rest rest' → w.value g g' →
      C.Mirrors w (applyValues host ev g rest) (applyValues lisp ev' g' rest') Naming.value) :
    C.Mirrors w (callBuiltin host ev op args) (callBuiltin lisp ev' op args') Naming.value := by
  have hrun : C.Mirrors w (holding args (op.run host args)) (holding args' (op.run lisp args'))
      Naming.value := (mirrors_builtin op hargs).holding hargs
  cases hargs with
  | nil => cases op <;> exact hrun
  | cons hf hrest =>
      cases op with
      | funcall =>
          refine Mirrors.holding ?_ (.cons hf hrest)
          exact (mirrors_designated hf).bind fun w' g g' hw hg =>
            happly rfl rfl (Naming.values_mono hw hrest) hg
      | _ => exact hrun

/-- One application of `funcall` peels off one argument, so this is an induction on their
number. -/
theorem mirrors_applyValues {u v : Value} {args args' : List Value} (hv : w.value u v)
    (hargs : w.values args args') :
    C.Mirrors w (applyValues host ev u args) (applyValues lisp ev' v args') Naming.value := by
  have hstep : ∀ {w : Naming L host} {u v : Value} {args args' : List Value}, w.value u v →
      w.values args args' →
      (∀ {w : Naming L host} {f f' g g' : Value} {rest rest' : List Value},
        args = f :: rest → args' = f' :: rest' → w.values rest rest' → w.value g g' →
        C.Mirrors w (applyValues host ev g rest) (applyValues lisp ev' g' rest') Naming.value) →
      C.Mirrors w (applyValues host ev u args) (applyValues lisp ev' v args') Naming.value := by
    intro w u v args args' hv hargs happly
    obtain ⟨rfl, hv⟩ := hv
    cases v with
    | specialForm id form =>
        rw [Renaming.value, applyValues, applyValues]
        exact (mirrors_arity form.arity hargs.length_eq).bind fun w' _ _ hw _ =>
          have hargs' := Naming.values_mono hw hargs
          (mirrors_specialForm hev form hargs').holding hargs'
    | builtin id op =>
        rw [Renaming.value, applyValues_builtin, applyValues_builtin]
        exact (mirrors_arity op.arity hargs.length_eq).bind fun w' _ _ hw _ =>
          mirrors_callBuiltin op (Naming.values_mono hw hargs) happly
    | closure id name =>
        have hf : w.value (.closure (w.ren.object id) (name.map w.ren.symbol)) (.closure id name) :=
          ⟨rfl, hv⟩
        rw [Renaming.value, applyValues, applyValues]
        exact (mirrors_callById hev hf hargs).holding (.cons hf .nil)
    | _ =>
        rw [Renaming.value, applyValues, applyValues]
        · exact mirrors_fail rfl
        all_goals
          intro _ _ hvalue
          cases hvalue
  induction args generalizing u v args' w with
  | nil => exact hstep hv hargs fun hcons => by cases hcons
  | cons arg args ih =>
      refine hstep hv hargs fun hcons _ hrest hg => ?_
      cases hcons
      exact ih hg hrest

theorem mirrors_evaluateAll {forms forms' : List Value} (hforms : w.values forms forms') :
    C.Mirrors w (evaluateAll ev forms) (evaluateAll ev' forms') Naming.values := by
  induction forms generalizing forms' w with
  | nil =>
      cases hforms
      exact mirrors_pure .nil
  | cons form forms ih =>
      rcases hforms with _ | ⟨hform, hrest⟩
      refine (hev hform).bind fun w₁ v v' hw₁ hv => ?_
      refine ((ih (Naming.values_mono hw₁ hrest)).holding (.cons hv .nil)).bind
        fun w₂ later later' hw₂ hlater => ?_
      exact mirrors_pure (.cons (Naming.value_mono hw₂ hv) hlater)

theorem mirrors_apply {u v argList argList' : Value} (hv : w.value u v)
    (hlist : w.value argList argList') :
    C.Mirrors w (apply host ev u argList) (apply lisp ev' v argList') Naming.value := by
  unfold apply
  rcases Naming.items_eq hlist with ⟨hnone, hnone'⟩ | ⟨args, args', hitems, hitems', hargs⟩
  · rw [hnone, hnone']
    exact mirrors_fail (congrArg (EvalError.malformed ∘ Malformation.argumentList) hlist.1)
  · rw [hitems, hitems']
    obtain ⟨rfl, hv⟩ := hv
    cases v with
    | specialForm id form =>
        exact (mirrors_arity form.arity hargs.length_eq).bind fun w' _ _ hw _ =>
          mirrors_specialForm hev form (Naming.values_mono hw hargs)
    | builtin id op =>
        refine (mirrors_evaluateAll hev hargs).bind fun w₁ values values' _ hvalues => ?_
        refine (mirrors_arity op.arity hvalues.length_eq).bind fun w₂ _ _ hw₂ _ => ?_
        exact mirrors_callBuiltin op (Naming.values_mono hw₂ hvalues)
          fun _ _ hrest hg => mirrors_applyValues hev hg hrest
    | closure id name =>
        have hf : w.value (.closure (w.ren.object id) (name.map w.ren.symbol)) (.closure id name) :=
          ⟨rfl, hv⟩
        refine Mirrors.holding ?_ (.cons hf .nil)
        refine (mirrors_evaluateAll hev hargs).bind fun w₁ values values' hw₁ hvalues => ?_
        exact mirrors_callById hev (Naming.value_mono hw₁ hf) hvalues
    | _ => exact mirrors_fail rfl

theorem mirrors_operatorOf {head head' : Value} (hhead : w.value head head') :
    C.Mirrors w (operatorOf host ev head) (operatorOf lisp ev' head') Naming.value := by
  obtain ⟨rfl, hhead⟩ := hhead
  cases head' with
  | symbol s => exact mirrors_functionOf ⟨rfl, hhead⟩
  | _ => exact mirrors_lambdaForm hev ⟨rfl, hhead⟩ fun _ _ => rfl

theorem mirrors_evaluateWith {form form' : Value} (hform : w.value form form') :
    C.Mirrors w (evaluateWith host ev form) (evaluateWith lisp ev' form') Naming.value := by
  obtain ⟨rfl, hform⟩ := hform
  cases form' with
  | number id n => exact mirrors_pure ⟨rfl, hform⟩
  | string id s => exact mirrors_pure ⟨rfl, hform⟩
  | symbol s =>
      have hs : w.value (.symbol (w.ren.symbol s)) (.symbol s) := ⟨rfl, hform⟩
      refine (mirrors_lexical hs).bind fun w₁ found found' hw₁ hfound => ?_
      cases hfound with
      | some hv => exact mirrors_pure hv
      | none =>
          refine Mirrors.bind (R := fun w => Option.Rel w.value) (mirrors_onHeap fun h g hh =>
            cell_rel hh (Naming.value_mono hw₁ hs) Cells.value (fun _ => rfl)
              fun c v hv => by simp [Heap.cellValues, hv]) fun w₂ found found' _ hfound => ?_
          cases hfound with
          | some hv => exact mirrors_pure hv
          | none => exact mirrors_fail rfl
  | cons id head args =>
      obtain ⟨hhead, hargs⟩ := L.parts hform
      have hlist : w.value (w.ren.value args) args := ⟨rfl, hargs⟩
      refine Mirrors.bind (mirrors_operatorOf hev ⟨rfl, hhead⟩) fun w' f f' hw hf => ?_
      exact mirrors_apply hev hf (Naming.value_mono hw hlist)
  | _ => exact mirrors_fail rfl

end

/-- **Evaluation under other names**, at every depth. -/
theorem mirrors_evaluate (depth : Nat) :
    C.Evaluates (evaluate host depth) (evaluate lisp depth) := by
  induction depth with
  | zero => exact fun _ => mirrors_stop .exhausted
  | succ depth ih => exact fun hform => mirrors_evaluateWith ih hform

end SmallLisp.Coupling
