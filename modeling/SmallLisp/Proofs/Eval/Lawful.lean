import SmallLisp.Proofs.Eval.Built
import SmallLisp.Proofs.Eval.Law

set_option autoImplicit false

/-! # Evaluation keeps every law

One lemma for each part of the evaluator, from the checks on binding lists up to `evaluate`. Each
says of its part that it keeps whatever law there is, so to prove an invariant of evaluation is to
state it as a `Law`; nobody has to look at the evaluator again.
-/

namespace SmallLisp.Law

open Eval View

variable {lisp : Interpreter} (L : Law lisp) {w : L.World}

/-! ## Values and their parts -/

theorem values_items {v : Value} {items : List Value} (hv : L.value w v)
    (hitems : v.items? = some items) : L.values w items := by
  induction v generalizing items with
  | symbol s =>
      simp only [Value.items?] at hitems
      split at hitems
      · cases hitems
        exact values_nil
      · cases hitems
  | cons id car cdr _ ih =>
      obtain ⟨rest, hrest, rfl⟩ := Option.map_eq_some_iff.1 hitems
      exact values_cons.2 ⟨(L.parts hv).1, ih (L.parts hv).2 hrest⟩
  | _ => cases hitems

/-- A check made in two steps succeeds if both do. -/
theorem exists_of_bind_ok {α β : Type} {x : Except EvalError α} {f : α → Except EvalError β}
    {b : β} (h : x >>= f = .ok b) : ∃ a, x = .ok a ∧ f a = .ok b := by
  cases x with
  | error e => cases h
  | ok a => exact ⟨a, rfl, h⟩

theorem var_of_expectVariable {operation : String} {target : Value} {s : Symbol}
    (ht : L.value w target) (hs : expectVariable lisp operation target = .ok s) :
    L.var w s := by
  unfold expectVariable at hs
  split at hs
  · split at hs
    · cases hs
    · rename_i hconst
      cases hs
      exact L.check ht (by simpa using hconst)
  · cases hs

/-- A binding to be made: its variable may be bound, and the form of its value is known. -/
def IsSpec (L : Law lisp) (w : L.World) (spec : BindingSpec) : Prop :=
  L.var w spec.var ∧ ∀ form ∈ spec.init, L.value w form

theorem IsSpec.mono {w' : L.World} {spec : BindingSpec} (hw : w ≤ w') (hspec : L.IsSpec w spec) :
    L.IsSpec w' spec :=
  ⟨L.var_mono hw hspec.1, fun form hform => L.value_mono hw (hspec.2 form hform)⟩

theorem isSpec_of_ofItem {operation : String} {item : Value} {spec : BindingSpec}
    (hitem : L.value w item) (hspec : BindingSpec.ofItem lisp operation item = .ok spec) :
    L.IsSpec w spec := by
  unfold BindingSpec.ofItem at hspec
  -- whatever the shape of the item, its target has been checked by `expectVariable`
  split at hspec
  · obtain ⟨s, hs, hspec⟩ := exists_of_bind_ok hspec
    cases hspec
    exact ⟨L.var_of_expectVariable hitem hs, nofun⟩
  · split at hspec
    · rename_i target htarget
      have hitems := L.values_items hitem htarget
      obtain ⟨s, hs, hspec⟩ := exists_of_bind_ok hspec
      cases hspec
      exact ⟨L.var_of_expectVariable (hitems target List.mem_cons_self) hs, nofun⟩
    · rename_i target init htarget
      have hitems := L.values_items hitem htarget
      obtain ⟨s, hs, hspec⟩ := exists_of_bind_ok hspec
      cases hspec
      refine ⟨L.var_of_expectVariable (hitems target List.mem_cons_self) hs, ?_⟩
      rintro form ⟨⟩
      exact hitems init (List.mem_cons_of_mem _ List.mem_cons_self)
    · cases hspec

theorem isSpec_of_bindingSpecs {operation : String} {bindings : Value} {specs : List BindingSpec}
    (hb : L.value w bindings) (hspecs : bindingSpecs lisp operation bindings = .ok specs) :
    ∀ spec ∈ specs, L.IsSpec w spec := by
  unfold bindingSpecs at hspecs
  split at hspecs
  · cases hspecs
  · rename_i items hitems
    have hknown := L.values_items hb hitems
    clear hitems hb
    induction items generalizing specs with
    | nil =>
        cases hspecs
        exact fun _ hs => absurd hs List.not_mem_nil
    | cons item items ih =>
        obtain ⟨hitem, hrest⟩ := values_cons.1 hknown
        rw [List.mapM_cons] at hspecs
        obtain ⟨spec, hone, hspecs⟩ := exists_of_bind_ok hspecs
        obtain ⟨later, hlater, hspecs⟩ := exists_of_bind_ok hspecs
        cases hspecs
        exact List.forall_mem_cons.2 ⟨L.isSpec_of_ofItem hitem hone, ih hlater hrest⟩

theorem var_of_parameters {marker : Symbol} {items : List Value} {p : Parameters}
    (hitems : L.values w items) (hp : Parameters.ofItems lisp marker items = .ok p) :
    ∀ s ∈ p.required ++ p.rest.toList, L.var w s := by
  fun_induction Parameters.ofItems lisp marker items generalizing p with
  | case1 =>
      cases hp
      exact fun _ hs => absurd hs List.not_mem_nil
  | case2 item hmarker rest =>
      obtain ⟨s, hs, hp⟩ := exists_of_bind_ok hp
      cases hp
      have hrest := hitems rest (List.mem_cons_of_mem _ List.mem_cons_self)
      simpa using L.var_of_expectVariable hrest hs
  | case3 => cases hp
  | case4 item items hmarker ih =>
      obtain ⟨hitem, hrest⟩ := values_cons.1 hitems
      obtain ⟨s, hs, hp⟩ := exists_of_bind_ok hp
      obtain ⟨later, hlater, hp⟩ := exists_of_bind_ok hp
      cases hp
      exact List.forall_mem_cons.2 ⟨L.var_of_expectVariable hitem hs, ih hrest hlater⟩

/-! ## Builtins -/

theorem keeps_makeNumber (n : Number) : L.Keeps w (Builtin.makeNumber n) L.value :=
  keeps_make fun _ hheap => L.number hheap n

theorem value_of_ends {operation : String} {v : Value} {p : Value × Value} (hv : L.value w v)
    (hp : Builtin.ends lisp operation v = .ok p) : L.value w p.1 ∧ L.value w p.2 := by
  unfold Builtin.ends at hp
  split at hp
  · cases hp
    exact L.parts hv
  · split at hp
    · cases hp
      exact ⟨L.nil w, L.nil w⟩
    · cases hp

theorem keeps_ends {operation : String} {v : Value} (hv : L.value w v) :
    L.Keeps w (ofExcept (Builtin.ends lisp operation v)) fun w p =>
      L.value w p.1 ∧ L.value w p.2 :=
  keeps_ofExcept fun _ hp => L.value_of_ends hv hp

theorem value_of_partOf {s : Symbol} {part : SymbolPart} {a : Anchors} {h : Heap} {v : Value}
    (hheap : L.heap w h) (hs : L.value w (.symbol s))
    (hv : Builtin.partOf lisp s part a h = .ok v) : L.value w v := by
  cases part with
  | name =>
      cases hv
      exact L.name hs
  | value =>
      simp only [Builtin.partOf] at hv
      split at hv
      · rename_i u hu
        cases hv
        exact L.cell hheap hs (by simp [Heap.cellValues, hu])
      · cases hv
  | function =>
      simp only [Builtin.partOf] at hv
      split at hv
      · rename_i u hu
        cases hv
        exact L.cell hheap hs (by simp [Heap.cellValues, hu])
      · cases hv
  | plist =>
      cases hv
      cases hp : (h.cellsOf s).plist with
      | none => exact L.nil w
      | some u => exact L.cell hheap hs (by simp [Heap.cellValues, hp])
  | package =>
      cases hv
      cases hp : lisp.packageOf? h a s with
      | none => exact L.nil w
      | some u => exact L.package hheap hs hp

theorem value_of_expectSymbol {operation : String} {args : List Value} {s : Symbol}
    (hargs : L.values w args) (hs : Builtin.expectSymbol operation args = .ok s) :
    L.value w (.symbol s) := by
  unfold Builtin.expectSymbol at hs
  split at hs
  · cases hs
    exact hargs _ List.mem_cons_self
  · cases hs
  · cases hs

theorem keeps_builtin (op : Builtin) {args : List Value} (hargs : L.values w args) :
    L.Keeps w (op.run lisp args) L.value := by
  cases op with
  | eq =>
      simp only [Builtin.run]
      split
      · exact keeps_pure (L.value_truth _)
      · exact keeps_fail _
  | null => exact keeps_pure (L.value_truth _)
  | not => exact keeps_pure (L.value_truth _)
  | atom => exact keeps_pure (L.value_truth _)
  | funcall => exact keeps_fail _
  | arithmetic op =>
      exact (keeps_check _).bind fun _ n _ _ => L.keeps_makeNumber n
  | mod =>
      exact (keeps_check _).bind fun _ i _ _ => L.keeps_makeNumber _
  | relation rel =>
      exact (keeps_check _).bind fun _ b _ _ =>
        keeps_pure (L.value_truth b)
  | trigonometric fn =>
      exact (keeps_check _).bind fun _ x _ _ => L.keeps_makeNumber _
  | car | first =>
      simp only [Builtin.run]
      split
      · exact (L.keeps_ends (hargs _ List.mem_cons_self)).bind fun _ _ _ hp => keeps_pure hp.1
      · exact keeps_fail _
  | cdr | rest =>
      simp only [Builtin.run]
      split
      · exact (L.keeps_ends (hargs _ List.mem_cons_self)).bind fun _ _ _ hp => keeps_pure hp.2
      · exact keeps_fail _
  | cons =>
      simp only [Builtin.run]
      split
      · obtain ⟨ha, hrest⟩ := values_cons.1 hargs
        exact keeps_make fun _ hheap => L.cons hheap ha (values_cons.1 hrest).1
      · exact keeps_fail _
  | list => exact L.keeps_list hargs
  | symbolPart part =>
      refine Keeps.bind (P := fun w s => L.value w (.symbol s))
        (keeps_ofExcept fun s hs => L.value_of_expectSymbol hargs hs) fun w' s _ hs => ?_
      refine Keeps.bind (P := fun w r => ∀ v, r = .ok v → L.value w v)
        (keeps_inspect fun a h hheap v hv => L.value_of_partOf hheap hs hv) fun _ r _ hr => ?_
      exact keeps_ofExcept hr

/-! ## Special forms

What the forms inside are evaluated by is a parameter, and all that has to be known of it is that
it keeps the law itself. -/

/-- **An evaluator that keeps the law**: it takes known forms to known values. -/
def Evaluates (L : Law lisp) (ev : Value → Eval Value) : Prop :=
  ∀ {w : L.World} {form : Value}, L.value w form → L.Keeps w (ev form) L.value

section

variable {ev : Value → Eval Value} (hev : L.Evaluates ev)

include hev

theorem keeps_body {forms : List Value} (hforms : L.values w forms) :
    L.Keeps w (SpecialForm.body lisp ev forms) L.value := by
  suffices hfold : ∀ {w : L.World} {last : Value}, L.value w last → L.values w forms →
      L.Keeps w (forms.foldlM (fun last form => holding [last] (ev form)) last) L.value from
    hfold (L.nil w) hforms
  clear hforms
  intro w last hlast hforms
  induction forms generalizing w last with
  | nil => exact keeps_pure hlast
  | cons form forms ih =>
      obtain ⟨hform, hrest⟩ := values_cons.1 hforms
      rw [List.foldlM_cons]
      exact (keeps_holding (hev hform)).bind fun w' v hw hv =>
        ih hv (values_mono hw hrest)

theorem keeps_functionNamed {target : Value} (ht : L.value w target) :
    L.Keeps w (SpecialForm.functionNamed lisp ev target) L.value := by
  unfold SpecialForm.functionNamed
  split
  · exact L.keeps_functionOf ht
  · refine Keeps.bind (P := fun _ _ => True) (keeps_onHeap fun _ _ => trivial)
      fun w' isLambda hw _ => ?_
    split
    · exact hev (L.value_mono hw ht)
    · exact keeps_fail _

theorem keeps_assignPairs {last : Value} {args : List Value} (hlast : L.value w last)
    (hargs : L.values w args) : L.Keeps w (SpecialForm.assignPairs lisp ev last args) L.value := by
  fun_induction SpecialForm.assignPairs lisp ev last args generalizing w with
  | case1 last target form rest ih =>
      obtain ⟨htarget, hform, hrest⟩ := (values_cons.1 hargs).imp_right values_cons.1
      refine Keeps.bind (P := fun w s => L.var w s)
        (keeps_ofExcept fun s hs => L.var_of_expectVariable htarget hs) fun w₁ s hw₁ hs => ?_
      refine (keeps_holding (hev (L.value_mono hw₁ hform))).bind fun w₂ v hw₂ hv => ?_
      refine (L.keeps_assign (L.var_mono hw₂ hs) hv).bind fun w₃ _ hw₃ _ => ?_
      exact ih v (L.value_mono hw₃ hv) (values_mono ((hw₁.trans hw₂).trans hw₃) hrest)
  | case2 args last _ => exact keeps_pure hlast

theorem keeps_initial {spec : BindingSpec} (hspec : L.IsSpec w spec) :
    L.Keeps w (SpecialForm.initial lisp ev spec) L.value := by
  unfold SpecialForm.initial
  split
  · rename_i form hform
    exact hev (hspec.2 form hform)
  · exact keeps_pure (L.nil w)

/-- The bindings of a parallel `let` make a frame. -/
theorem keeps_initialAll {specs : List BindingSpec} (hspecs : ∀ spec ∈ specs, L.IsSpec w spec) :
    L.Keeps w (SpecialForm.initialAll lisp ev specs) fun w bindings =>
      L.IsFrame w ⟨bindings⟩ := by
  induction specs generalizing w with
  | nil => exact keeps_pure fun _ hb => absurd hb List.not_mem_nil
  | cons spec specs ih =>
      obtain ⟨hspec, hrest⟩ := List.forall_mem_cons.1 hspecs
      refine (L.keeps_initial hev hspec).bind fun w₁ v hw₁ hv => ?_
      refine (keeps_holding (ih fun s hs => (hrest s hs).mono L hw₁)).bind
        fun w₂ later hw₂ hlater => ?_
      refine keeps_pure (List.forall_mem_cons.2 ⟨⟨⟨_, rfl, ?_⟩, L.value_mono hw₂ hv⟩, hlater⟩)
      exact L.var_mono (hw₁.trans hw₂) hspec.1

/-- The bindings of a sequential `let` leave one frame each. -/
theorem stacks_bindInTurn {specs : List BindingSpec} (hspecs : ∀ spec ∈ specs, L.IsSpec w spec) :
    L.Stacks w (SpecialForm.bindInTurn lisp ev specs) fun _ _ => True := by
  induction specs generalizing w with
  | nil => exact (keeps_pure trivial).stacks
  | cons spec specs ih =>
      obtain ⟨hspec, hrest⟩ := List.forall_mem_cons.1 hspecs
      refine (L.keeps_initial hev hspec).stacks.bind fun w₁ v hw₁ hv => ?_
      have hframe : L.IsFrame w₁ ⟨[⟨.symbol spec.var, v⟩]⟩ := by
        intro b hb
        obtain rfl := List.mem_singleton.1 hb
        exact ⟨⟨_, rfl, L.var_mono hw₁ hspec.1⟩, hv⟩
      refine (L.stacks_push hframe).bind fun w₂ _ hw₂ _ => ?_
      exact ih fun s hs => (hrest s hs).mono L (hw₁.trans hw₂)

omit hev in
/-- A new closure, which is made in the current environment. -/
theorem keeps_closure {name : Option Symbol} {lambdaList : Value} {forms : List Value}
    (hname : ∀ s ∈ name, L.value w (.symbol s)) (hlist : L.value w lambdaList)
    (hforms : L.values w forms) :
    L.Keeps w (SpecialForm.closure lisp name lambdaList forms) fun w v =>
      L.value w v ∧ ∃ id, v = .closure id name := by
  have hparams : L.Keeps w (SpecialForm.parameters lisp lambdaList) fun w p =>
      ∀ s ∈ p.required ++ p.rest.toList, L.var w s := by
    unfold SpecialForm.parameters
    split
    · exact keeps_fail _
    · rename_i items hitems
      refine Keeps.bind (P := fun w s => L.value w (.symbol s))
        (keeps_make fun _ hheap => L.intern hheap "&rest") fun w' marker hw _ => ?_
      have hknown := values_mono hw (L.values_items hlist hitems)
      exact keeps_ofExcept fun p hp => L.var_of_parameters hknown hp
  refine hparams.bind fun w₁ params hw₁ hbound => ?_
  refine keeps_environment.bind fun w₂ env hw₂ henv => ?_
  refine keeps_make fun h hheap => ?_
  have hcode : L.IsCode w₂ ⟨params.required, params.rest, forms, env⟩ :=
    { env := henv
      bound := fun s hs => L.var_mono hw₂ (hbound s hs)
      body := values_mono (hw₁.trans hw₂) hforms }
  have hname₂ := fun s hs => L.value_mono (hw₁.trans hw₂) (hname s hs)
  exact (L.closure hheap hname₂ hcode).imp fun _ _ hv => ⟨hv, _, rfl⟩

theorem keeps_specialForm (form : SpecialForm) {args : List Value} (hargs : L.values w args) :
    L.Keeps w (form.run lisp ev args) L.value := by
  cases form with
  | quote =>
      simp only [SpecialForm.run]
      split
      · exact keeps_pure (hargs _ List.mem_cons_self)
      · exact keeps_fail _
  | function =>
      simp only [SpecialForm.run]
      split
      · exact L.keeps_functionNamed hev (hargs _ List.mem_cons_self)
      · exact keeps_fail _
  | ite =>
      simp only [SpecialForm.run]
      split
      · obtain ⟨hcond, hthen, helse⟩ := (values_cons.1 hargs).imp_right values_cons.1
        refine (hev hcond).bind fun w' v hw _ => ?_
        split
        · exact L.keeps_body hev (values_mono hw helse)
        · exact hev (L.value_mono hw hthen)
      · exact keeps_fail _
  | setq =>
      simp only [SpecialForm.run]
      split
      · exact L.keeps_assignPairs hev (L.nil w) hargs
      · exact keeps_fail _
  | letParallel =>
      simp only [SpecialForm.run]
      split
      · obtain ⟨hbindings, hforms⟩ := values_cons.1 hargs
        refine Keeps.bind (P := fun w specs => ∀ spec ∈ specs, L.IsSpec w spec)
          (keeps_ofExcept fun specs hs => L.isSpec_of_bindingSpecs hbindings hs)
          fun w₁ specs hw₁ hspecs => ?_
        refine (L.keeps_initialAll hev hspecs).bind fun w₂ bindings hw₂ hframe => ?_
        refine keeps_withScope ((L.stacks_push hframe).bind fun w₃ _ hw₃ _ => Keeps.stacks ?_)
        exact L.keeps_body hev (values_mono ((hw₁.trans hw₂).trans hw₃) hforms)
      · exact keeps_fail _
  | letSequential =>
      simp only [SpecialForm.run]
      split
      · obtain ⟨hbindings, hforms⟩ := values_cons.1 hargs
        refine Keeps.bind (P := fun w specs => ∀ spec ∈ specs, L.IsSpec w spec)
          (keeps_ofExcept fun specs hs => L.isSpec_of_bindingSpecs hbindings hs)
          fun w₁ specs hw₁ hspecs => ?_
        refine keeps_withScope
          ((L.stacks_bindInTurn hev hspecs).bind fun w₂ _ hw₂ _ => Keeps.stacks ?_)
        exact L.keeps_body hev (values_mono (hw₁.trans hw₂) hforms)
      · exact keeps_fail _
  | lambda =>
      simp only [SpecialForm.run]
      split
      · obtain ⟨hlist, hforms⟩ := values_cons.1 hargs
        have hnone : ∀ s ∈ (none : Option Symbol), L.value w (.symbol s) := by simp
        exact (L.keeps_closure hnone hlist hforms).imp_post fun _ _ hv => hv.1
      · exact keeps_fail _
  | defun =>
      simp only [SpecialForm.run]
      split
      · obtain ⟨hname, hlist, hforms⟩ := (values_cons.1 hargs).imp_right values_cons.1
        split
        · rename_i s
          have hs : ∀ s' ∈ some s, L.value w (.symbol s') := by
            rintro s' ⟨⟩
            exact hname
          refine (L.keeps_closure hs hlist hforms).bind fun w₁ f hw₁ hf => ?_
          obtain ⟨hf, id, rfl⟩ := hf
          refine Keeps.bind (keeps_change fun h hheap =>
            L.setFunction hheap (L.value_mono hw₁ hname) hf) fun w₂ _ hw₂ _ => ?_
          exact keeps_pure (L.value_mono (hw₁.trans hw₂) hname)
        · exact keeps_fail _
      · exact keeps_fail _

/-! ## Application -/

omit hev in
/-- Each parameter is bound to the argument in its place. -/
theorem isFrame_zipWith {params : List Symbol} {args : List Value}
    (hparams : ∀ s ∈ params, L.var w s) (hargs : L.values w args) :
    L.IsFrame w ⟨List.zipWith (fun s v => ⟨.symbol s, v⟩) params args⟩ := by
  induction params generalizing args with
  | nil => exact fun _ hb => absurd hb List.not_mem_nil
  | cons s params ih =>
      cases args with
      | nil => exact fun _ hb => absurd hb List.not_mem_nil
      | cons v args =>
          obtain ⟨hs, hrest⟩ := List.forall_mem_cons.1 hparams
          obtain ⟨hv, hargs⟩ := values_cons.1 hargs
          exact List.forall_mem_cons.2 ⟨⟨⟨s, rfl, hs⟩, hv⟩, ih hrest hargs⟩

theorem keeps_callClosure {code : Closure} {args : List Value} (hcode : L.IsCode w code)
    (hargs : L.values w args) : L.Keeps w (callClosure lisp ev code args) L.value := by
  refine (keeps_check _).bind fun w₁ _ hw₁ _ => ?_
  have hbound : ∀ s ∈ code.params ++ code.rest.toList, L.var w₁ s := fun s hs =>
    L.var_mono hw₁ (hcode.bound s hs)
  have hrequired := L.isFrame_zipWith (fun s hs => hbound s (List.mem_append_left _ hs))
    (values_mono hw₁ hargs)
  -- the call itself, once the frame is complete
  have hcall : ∀ {w₂ : L.World} {rest : List Binding}, w₁ ≤ w₂ → L.IsFrame w₂ ⟨rest⟩ →
      L.Keeps w₂ (inEnvironment code.env (withScope do
        push ⟨List.zipWith (fun s v => ⟨.symbol s, v⟩) code.params args ++ rest⟩
        SpecialForm.body lisp ev code.body)) L.value := by
    intro w₂ rest hw₂ hrest
    refine keeps_inEnvironment (L.env_mono (hw₁.trans hw₂) hcode.env) (keeps_withScope ?_)
    have hframe : L.IsFrame w₂
        ⟨List.zipWith (fun s v => ⟨.symbol s, v⟩) code.params args ++ rest⟩ :=
      List.forall_mem_append.2 ⟨hrequired.mono hw₂, hrest⟩
    refine (L.stacks_push hframe).bind fun w₃ _ hw₃ _ => Keeps.stacks ?_
    exact L.keeps_body hev (values_mono ((hw₁.trans hw₂).trans hw₃) hcode.body)
  dsimp only
  split
  · rename_i s hs
    have hsurplus : L.values w₁ (args.drop code.params.length) := fun v hv =>
      values_mono hw₁ hargs v (List.mem_of_mem_drop hv)
    refine (L.keeps_list hsurplus).bind fun w₂ surplus hw₂ hv => ?_
    refine Keeps.bind (P := fun w bs => w₁ ≤ w ∧ L.IsFrame w ⟨bs⟩) (keeps_pure ⟨hw₂, ?_⟩)
      fun w₃ rest _ hrest => hcall hrest.1 hrest.2
    intro b hb
    obtain rfl := List.mem_singleton.1 hb
    have hrest : s ∈ code.params ++ code.rest.toList := by simp [hs]
    exact ⟨⟨s, rfl, L.var_mono hw₂ (hbound s hrest)⟩, hv⟩
  · refine Keeps.bind (P := fun w bs => w₁ ≤ w ∧ L.IsFrame w ⟨bs⟩)
      (keeps_pure ⟨le_refl w₁, fun _ hb => absurd hb List.not_mem_nil⟩)
      fun w₂ rest _ hrest => hcall hrest.1 hrest.2

/-- Calls a closure by its identity, if it has code. -/
theorem keeps_callById (operator : Value) (id : ObjectId) {args : List Value}
    (hargs : L.values w args) :
    L.Keeps w (do
      match ← onHeap (·.closures[id]?) with
      | some code => callClosure lisp ev code args
      | none => fail (.notCallable operator)) L.value := by
  refine Keeps.bind (P := fun w found => ∀ code ∈ found, L.IsCode w code)
    (keeps_onHeap fun h hheap code hcode => L.code hheap hcode) fun w' found hw hfound => ?_
  cases found with
  | some code => exact L.keeps_callClosure hev (hfound code rfl) (values_mono hw hargs)
  | none => exact keeps_fail _

omit hev in
theorem keeps_callBuiltin (op : Builtin) {args : List Value} (hargs : L.values w args)
    (happly : ∀ {f : Value} {rest : List Value} {w' : L.World}, args = f :: rest →
      L.values w' rest → ∀ g, L.Keeps w' (applyValues lisp ev g rest) L.value) :
    L.Keeps w (callBuiltin lisp ev op args) L.value := by
  unfold callBuiltin
  split
  · rename_i f rest
    obtain ⟨hf, hrest⟩ := values_cons.1 hargs
    have hdesignated : L.Keeps w (designated f) L.value := by
      unfold designated
      split
      · exact L.keeps_functionOf hf
      · exact keeps_pure hf
    exact keeps_holding (hdesignated.bind fun w' g hw _ => happly rfl (values_mono hw hrest) g)
  · exact keeps_holding (L.keeps_builtin _ hargs)

/-- One application of `funcall` peels off one argument, so this is an induction on their
number. -/
theorem keeps_applyValues {args : List Value} (hargs : L.values w args) (operator : Value) :
    L.Keeps w (applyValues lisp ev operator args) L.value := by
  have hstep : ∀ {w : L.World} (operator : Value) {args : List Value}, L.values w args →
      (∀ {f : Value} {rest : List Value} {w' : L.World}, args = f :: rest →
        L.values w' rest → ∀ g, L.Keeps w' (applyValues lisp ev g rest) L.value) →
      L.Keeps w (applyValues lisp ev operator args) L.value := by
    intro w operator args hargs happly
    cases operator with
    | specialForm id form =>
        rw [applyValues]
        exact (keeps_check _).bind fun w' _ hw _ =>
          keeps_holding (L.keeps_specialForm hev form (values_mono hw hargs))
    | builtin id op =>
        rw [applyValues_builtin]
        exact (keeps_check _).bind fun w' _ hw _ =>
          L.keeps_callBuiltin op (values_mono hw hargs) happly
    | closure id name =>
        rw [applyValues]
        exact keeps_holding (L.keeps_callById hev _ id hargs)
    | _ =>
        rw [applyValues]
        · exact keeps_fail _
        all_goals
          intro _ _ hvalue
          cases hvalue
  induction args generalizing operator w with
  | nil =>
      refine hstep operator hargs fun hcons _ _ => ?_
      cases hcons
  | cons arg args ih =>
      refine hstep operator hargs fun hcons hrest g => ?_
      cases hcons
      exact ih hrest g

theorem keeps_evaluateAll {forms : List Value} (hforms : L.values w forms) :
    L.Keeps w (evaluateAll ev forms) L.values := by
  induction forms generalizing w with
  | nil => exact keeps_pure values_nil
  | cons form forms ih =>
      obtain ⟨hform, hrest⟩ := values_cons.1 hforms
      refine (hev hform).bind fun w₁ v hw₁ hv => ?_
      refine (keeps_holding (ih (values_mono hw₁ hrest))).bind fun w₂ later hw₂ hlater => ?_
      exact keeps_pure (values_cons.2 ⟨L.value_mono hw₂ hv, hlater⟩)

theorem keeps_apply {argList : Value} (hlist : L.value w argList) (operator : Value) :
    L.Keeps w (apply lisp ev operator argList) L.value := by
  unfold apply
  split
  · exact keeps_fail _
  · rename_i args hitems
    have hargs := L.values_items hlist hitems
    cases operator with
    | specialForm id form =>
        exact (keeps_check _).bind fun w' _ hw _ =>
          L.keeps_specialForm hev form (values_mono hw hargs)
    | builtin id op =>
        refine (L.keeps_evaluateAll hev hargs).bind fun w₁ values hw₁ hvalues => ?_
        refine (keeps_check _).bind fun w₂ _ hw₂ _ => ?_
        exact L.keeps_callBuiltin op (values_mono hw₂ hvalues) fun _ hrest g =>
          L.keeps_applyValues hev hrest g
    | closure id name =>
        refine keeps_holding ((L.keeps_evaluateAll hev hargs).bind fun w₁ values _ hvalues => ?_)
        exact L.keeps_callById hev _ id hvalues
    | _ => exact keeps_fail _

theorem keeps_operatorOf {head : Value} (hhead : L.value w head) :
    L.Keeps w (operatorOf lisp ev head) fun _ _ => True := by
  unfold operatorOf
  split
  · exact (L.keeps_functionOf hhead).imp_post fun _ _ _ => trivial
  · refine Keeps.bind (P := fun _ _ => True) (keeps_onHeap fun _ _ => trivial)
      fun w' isLambda hw _ => ?_
    split
    · exact (hev (L.value_mono hw hhead)).imp_post fun _ _ _ => trivial
    · exact keeps_fail _

theorem keeps_evaluateWith {form : Value} (hform : L.value w form) :
    L.Keeps w (evaluateWith lisp ev form) L.value := by
  cases form with
  | number id n => exact keeps_pure hform
  | string id s => exact keeps_pure hform
  | symbol s =>
      refine Keeps.bind (P := fun w found => ∀ v ∈ found, L.value w v)
        (L.keeps_lexical s) fun w₁ found hw₁ hfound => ?_
      cases found with
      | some v => exact keeps_pure (hfound v rfl)
      | none =>
          refine Keeps.bind (P := fun w found => ∀ v ∈ found, L.value w v)
            (keeps_onHeap fun h hheap v hv => ?_) fun w₂ found _ hfound => ?_
          · exact L.cell hheap (L.value_mono hw₁ hform)
              (by simp [Heap.cellValues, Option.mem_def.1 hv])
          · cases found with
            | some v => exact keeps_pure (hfound v rfl)
            | none => exact keeps_fail _
  | cons id head args =>
      obtain ⟨hhead, hargs⟩ := L.parts hform
      exact (L.keeps_operatorOf hev hhead).bind fun w' operator hw _ =>
        L.keeps_apply hev (L.value_mono hw hargs) operator
  | _ => exact keeps_fail _

end

/-- **Evaluation keeps every law**, at every depth. -/
theorem keeps_evaluate (depth : Nat) : L.Evaluates (evaluate lisp depth) := by
  induction depth with
  | zero => exact fun _ => keeps_stop .exhausted
  | succ depth ih => exact fun hform => L.keeps_evaluateWith ih hform

end SmallLisp.Law
