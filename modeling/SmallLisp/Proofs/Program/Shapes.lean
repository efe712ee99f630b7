import Mathlib.Data.List.Forall2
import SmallLisp.Proofs.Interpreter.Effects

set_option autoImplicit false

/-! # The shapes of binding lists and lambda lists

`let` and `let*` take a list of bindings, `lambda` and `defun` a list of parameters. This module
says which lists they take (`IsBindingList`, `IsLambdaList`) and what is wrong with any other list
of bindings (`BindingListFault`), and that both are settled before anything is evaluated. A list of
the wrong shape is refused whatever its forms would do, and the state stays as it is, but for the
marker `&rest`, which a lambda list has interned as soon as it is a list.
-/

namespace SmallLisp

open Eval

/-! ## Lists -/

/-- A list with a first element is a cons. -/
theorem Value.eq_cons_of_items? {v x : Value} {xs : List Value} (hv : v.items? = some (x :: xs)) :
    ∃ id tail, v = .cons id x tail ∧ tail.items? = some xs := by
  cases v with
  | cons id car cdr =>
      obtain ⟨ys, hys, heq⟩ := Option.map_eq_some_iff.1 hv
      obtain ⟨rfl, rfl⟩ := List.cons.inj heq
      exact ⟨id, cdr, rfl, hys⟩
  | symbol s =>
      rw [Value.items?] at hv
      split at hv
      · cases hv
      · cases hv
  | _ => cases hv

/-! ## Variables -/

/-- **A symbol that may be bound or assigned**: any symbol but `nil` and `t`. -/
structure Interpreter.Bindable (lisp : Interpreter) (s : Symbol) : Prop where
  notNil : s.id ≠ lisp.nil.id
  notTrue : s.id ≠ lisp.t.id

/-- What is wrong with a value that should be a variable. -/
inductive VariableFault (lisp : Interpreter) (operation : String) : Value → EvalError → Prop
  | constant {s : Symbol} (hs : ¬ lisp.Bindable s) :
      VariableFault lisp operation (.symbol s) (.malformed (.constant operation (.symbol s)))
  | notSymbol {v : Value} (hv : ∀ s, v ≠ .symbol s) :
      VariableFault lisp operation v (.unsupportedArgument operation v)

section

variable {lisp : Interpreter} {operation : String} {v : Value} {s : Symbol} {e : EvalError}

theorem isConstant_eq_false_iff : lisp.isConstant (.symbol s) = false ↔ lisp.Bindable s := by
  rw [Interpreter.isConstant_symbol_eq_false_iff]
  exact ⟨fun hs => ⟨hs.1, hs.2⟩, fun hs => ⟨hs.notNil, hs.notTrue⟩⟩

theorem expectVariable_of_bindable (hs : lisp.Bindable s) (operation : String) :
    expectVariable lisp operation (.symbol s) = .ok s := by
  rw [expectVariable, isConstant_eq_false_iff.2 hs]
  rfl

theorem expectVariable_of_fault (hv : VariableFault lisp operation v e) :
    expectVariable lisp operation v = .error e := by
  cases hv with
  | constant hs =>
      have hconstant := Bool.of_not_eq_false (isConstant_eq_false_iff.not.2 hs)
      rw [expectVariable, hconstant]
      rfl
  | notSymbol hv =>
      cases v with
      | symbol s => exact absurd rfl (hv s)
      | _ => rfl

/-- A value is a variable, or something is wrong with it. -/
theorem bindable_or_fault (lisp : Interpreter) (operation : String) (v : Value) :
    (∃ s, v = .symbol s ∧ lisp.Bindable s) ∨ ∃ e, VariableFault lisp operation v e := by
  cases v with
  | symbol s =>
      by_cases hs : lisp.Bindable s
      · exact .inl ⟨s, rfl, hs⟩
      · exact .inr ⟨_, .constant hs⟩
  | _ => exact .inr ⟨_, .notSymbol nofun⟩

theorem expectVariable_eq_ok_iff :
    expectVariable lisp operation v = .ok s ↔ v = .symbol s ∧ lisp.Bindable s := by
  constructor
  · intro hok
    rcases bindable_or_fault lisp operation v with ⟨s', rfl, hs'⟩ | ⟨e, he⟩
    · rw [expectVariable_of_bindable hs'] at hok
      cases hok
      exact ⟨rfl, hs'⟩
    · rw [expectVariable_of_fault he] at hok
      cases hok
  · rintro ⟨rfl, hs⟩
    exact expectVariable_of_bindable hs operation

end

/-! ## Bindings -/

/-- **An entry of a binding list**: `var`, `(var)` or `(var init)`. -/
inductive IsBinding (lisp : Interpreter) : Value → BindingSpec → Prop
  | bare {s : Symbol} (hs : lisp.Bindable s) : IsBinding lisp (.symbol s) ⟨s, none⟩
  | listed {item : Value} {s : Symbol} (hitem : item.items? = some [.symbol s])
      (hs : lisp.Bindable s) : IsBinding lisp item ⟨s, none⟩
  | given {item init : Value} {s : Symbol} (hitem : item.items? = some [.symbol s, init])
      (hs : lisp.Bindable s) : IsBinding lisp item ⟨s, some init⟩

/-- What is wrong with an entry of a binding list: its variable, or its shape. -/
inductive BindingFault (lisp : Interpreter) (operation : String) : Value → EvalError → Prop
  | bare {s : Symbol} {e : EvalError} (he : VariableFault lisp operation (.symbol s) e) :
      BindingFault lisp operation (.symbol s) e
  | listed {item target : Value} {e : EvalError} (hitem : item.items? = some [target])
      (he : VariableFault lisp operation target e) : BindingFault lisp operation item e
  | given {item target init : Value} {e : EvalError} (hitem : item.items? = some [target, init])
      (he : VariableFault lisp operation target e) : BindingFault lisp operation item e
  | shape {item : Value} (hsymbol : ∀ s, item ≠ .symbol s)
      (hone : ∀ target, item.items? ≠ some [target])
      (htwo : ∀ target init, item.items? ≠ some [target, init]) :
      BindingFault lisp operation item (.malformed (.binding operation item))

section

variable {lisp : Interpreter} {operation : String} {item target init : Value} {s : Symbol}
  {spec : BindingSpec} {e : EvalError}

theorem ofItem_listed (hitem : item.items? = some [target]) :
    BindingSpec.ofItem lisp operation item =
      (expectVariable lisp operation target).map fun s => ⟨s, none⟩ := by
  obtain ⟨id, tail, rfl, _⟩ := Value.eq_cons_of_items? hitem
  simp only [BindingSpec.ofItem, hitem]
  cases expectVariable lisp operation target <;> rfl

theorem ofItem_given (hitem : item.items? = some [target, init]) :
    BindingSpec.ofItem lisp operation item =
      (expectVariable lisp operation target).map fun s => ⟨s, some init⟩ := by
  obtain ⟨id, tail, rfl, _⟩ := Value.eq_cons_of_items? hitem
  simp only [BindingSpec.ofItem, hitem]
  cases expectVariable lisp operation target <;> rfl

theorem ofItem_of_isBinding (hitem : IsBinding lisp item spec) (operation : String) :
    BindingSpec.ofItem lisp operation item = .ok spec := by
  cases hitem with
  | bare hs =>
      rw [BindingSpec.ofItem, expectVariable_of_bindable hs]
      rfl
  | listed hitem hs =>
      rw [ofItem_listed hitem, expectVariable_of_bindable hs]
      rfl
  | given hitem hs =>
      rw [ofItem_given hitem, expectVariable_of_bindable hs]
      rfl

theorem ofItem_of_fault (hitem : BindingFault lisp operation item e) :
    BindingSpec.ofItem lisp operation item = .error e := by
  cases hitem with
  | bare he =>
      rw [BindingSpec.ofItem, expectVariable_of_fault he]
      rfl
  | listed hitem he =>
      rw [ofItem_listed hitem, expectVariable_of_fault he]
      rfl
  | given hitem he =>
      rw [ofItem_given hitem, expectVariable_of_fault he]
      rfl
  | shape hsymbol hone htwo =>
      cases item with
      | symbol s => exact absurd rfl (hsymbol s)
      | _ => simp only [BindingSpec.ofItem]

/-- A value is an entry of a binding list, or something is wrong with it. -/
theorem isBinding_or_fault (lisp : Interpreter) (operation : String) (item : Value) :
    (∃ spec, IsBinding lisp item spec) ∨ ∃ e, BindingFault lisp operation item e := by
  by_cases hsymbol : ∃ s, item = .symbol s
  · obtain ⟨s, rfl⟩ := hsymbol
    rcases bindable_or_fault lisp operation (.symbol s) with ⟨s', hs', hbindable⟩ | ⟨e, he⟩
    · cases hs'
      exact .inl ⟨_, .bare hbindable⟩
    · exact .inr ⟨e, .bare he⟩
  by_cases hone : ∃ target, item.items? = some [target]
  · obtain ⟨target, hitem⟩ := hone
    rcases bindable_or_fault lisp operation target with ⟨s, rfl, hs⟩ | ⟨e, he⟩
    · exact .inl ⟨_, .listed hitem hs⟩
    · exact .inr ⟨e, .listed hitem he⟩
  by_cases htwo : ∃ target init, item.items? = some [target, init]
  · obtain ⟨target, init, hitem⟩ := htwo
    rcases bindable_or_fault lisp operation target with ⟨s, rfl, hs⟩ | ⟨e, he⟩
    · exact .inl ⟨_, .given hitem hs⟩
    · exact .inr ⟨e, .given hitem he⟩
  · exact .inr ⟨_, .shape (fun s hs => hsymbol ⟨s, hs⟩) (fun t ht => hone ⟨t, ht⟩)
      fun t i hi => htwo ⟨t, i, hi⟩⟩

end

/-! ## Binding lists -/

/-- **A binding list**: a proper list of entries. -/
def IsBindingList (lisp : Interpreter) (bindings : Value) (specs : List BindingSpec) : Prop :=
  ∃ items, bindings.items? = some items ∧ List.Forall₂ (IsBinding lisp) items specs

/-- **What is wrong with a binding list**: it is no proper list, or what is wrong with the first bad
entry. -/
inductive BindingListFault (lisp : Interpreter) (operation : String) : Value → EvalError → Prop
  | improper {bindings : Value} (hitems : bindings.items? = none) :
      BindingListFault lisp operation bindings (.malformed (.bindingList operation))
  | entry {bindings bad : Value} {good rest : List Value} {specs : List BindingSpec}
      {e : EvalError} (hitems : bindings.items? = some (good ++ bad :: rest))
      (hgood : List.Forall₂ (IsBinding lisp) good specs)
      (hbad : BindingFault lisp operation bad e) : BindingListFault lisp operation bindings e

section

variable {lisp : Interpreter} {operation : String} {bindings : Value} {specs : List BindingSpec}
  {e : EvalError}

theorem bindingSpecs_of_isBindingList (hlist : IsBindingList lisp bindings specs)
    (operation : String) : bindingSpecs lisp operation bindings = .ok specs := by
  obtain ⟨items, hitems, hspecs⟩ := hlist
  rw [bindingSpecs, hitems]
  show items.mapM _ = _
  clear hitems
  induction hspecs with
  | nil => rfl
  | cons hitem _ ih =>
      rw [List.mapM_cons, ofItem_of_isBinding hitem, ih]
      rfl

theorem bindingSpecs_of_fault (hfault : BindingListFault lisp operation bindings e) :
    bindingSpecs lisp operation bindings = .error e := by
  cases hfault with
  | improper hitems => rw [bindingSpecs, hitems]
  | @entry bad good rest _ _ hitems hgood hbad =>
      rw [bindingSpecs, hitems]
      show (good ++ bad :: rest).mapM _ = _
      clear hitems
      -- the good entries pass, so the bad one is met
      induction hgood with
      | nil =>
          rw [List.nil_append, List.mapM_cons, ofItem_of_fault hbad]
          rfl
      | cons hitem _ ih =>
          rw [List.cons_append, List.mapM_cons, ofItem_of_isBinding hitem, ih]
          rfl

/-- Of entries either all are good, or there is a first bad one. -/
theorem forall_isBinding_or_fault (lisp : Interpreter) (operation : String) (items : List Value) :
    (∃ specs, List.Forall₂ (IsBinding lisp) items specs) ∨
      ∃ good bad rest specs e, items = good ++ bad :: rest ∧
        List.Forall₂ (IsBinding lisp) good specs ∧ BindingFault lisp operation bad e := by
  induction items with
  | nil => exact .inl ⟨[], .nil⟩
  | cons item items ih =>
      rcases isBinding_or_fault lisp operation item with ⟨spec, hitem⟩ | ⟨e, he⟩
      · rcases ih with ⟨specs, hspecs⟩ | ⟨good, bad, rest, specs, e, rfl, hgood, hbad⟩
        · exact .inl ⟨_, .cons hitem hspecs⟩
        · exact .inr ⟨item :: good, bad, rest, _, e, rfl, .cons hitem hgood, hbad⟩
      · exact .inr ⟨[], item, items, [], e, rfl, .nil, he⟩

/-- A value is a binding list, or something is wrong with it. -/
theorem isBindingList_or_fault (lisp : Interpreter) (operation : String) (bindings : Value) :
    (∃ specs, IsBindingList lisp bindings specs) ∨
      ∃ e, BindingListFault lisp operation bindings e := by
  cases hitems : bindings.items? with
  | none => exact .inr ⟨_, .improper hitems⟩
  | some items =>
      rcases forall_isBinding_or_fault lisp operation items with
        ⟨specs, hspecs⟩ | ⟨good, bad, rest, specs, e, rfl, hgood, hbad⟩
      · exact .inl ⟨specs, items, hitems, hspecs⟩
      · exact .inr ⟨e, .entry hitems hgood hbad⟩

end

/-! ## Lambda lists -/

/-- **The elements of a lambda list**: variables other than the marker, and at the end perhaps the
marker with one more variable. The marker is known by its identity. -/
inductive Parameters.Listed (lisp : Interpreter) (marker : Symbol) :
    List Value → Parameters → Prop
  | required {vars : List Symbol} (hvars : ∀ s ∈ vars, lisp.Bindable s ∧ s.id ≠ marker.id) :
      Listed lisp marker (vars.map .symbol) ⟨vars, none⟩
  | withRest {vars : List Symbol} {m : Value} {rest : Symbol}
      (hvars : ∀ s ∈ vars, lisp.Bindable s ∧ s.id ≠ marker.id) (hm : m.id = marker.id)
      (hrest : lisp.Bindable rest) :
      Listed lisp marker (vars.map .symbol ++ [m, .symbol rest]) ⟨vars, some rest⟩

/-- **A lambda list** with its parameters. -/
def IsLambdaList (lisp : Interpreter) (marker : Symbol) (lambdaList : Value)
    (params : Parameters) : Prop :=
  ∃ items, lambdaList.items? = some items ∧ params.Listed lisp marker items

section

variable {lisp : Interpreter} {marker : Symbol} {items : List Value} {params : Parameters}

/-- One more variable in front. -/
theorem Parameters.Listed.cons (hp : params.Listed lisp marker items) {s : Symbol}
    (hs : lisp.Bindable s) (hne : s.id ≠ marker.id) :
    Parameters.Listed lisp marker (.symbol s :: items) ⟨s :: params.required, params.rest⟩ := by
  cases hp with
  | required hvars => exact .required (List.forall_mem_cons.2 ⟨⟨hs, hne⟩, hvars⟩)
  | withRest hvars hm hrest =>
      exact .withRest (List.forall_mem_cons.2 ⟨⟨hs, hne⟩, hvars⟩) hm hrest

/-- Variables in front are required parameters. -/
theorem ofItems_append {vars : List Symbol}
    (hvars : ∀ s ∈ vars, lisp.Bindable s ∧ s.id ≠ marker.id)
    (hrest : Parameters.ofItems lisp marker items = .ok params) :
    Parameters.ofItems lisp marker (vars.map .symbol ++ items) =
      .ok ⟨vars ++ params.required, params.rest⟩ := by
  induction vars with
  | nil => exact hrest
  | cons s vars ih =>
      obtain ⟨⟨hs, hne⟩, hlater⟩ := List.forall_mem_cons.1 hvars
      have hsame : (Value.symbol s).same (.symbol marker) = false := beq_false_of_ne hne
      rw [List.map_cons, List.cons_append]
      unfold Parameters.ofItems
      simp only [hsame, Bool.false_eq_true, if_false, expectVariable_of_bindable hs, ih hlater]
      rfl

theorem ofItems_of_listed (hp : params.Listed lisp marker items) :
    Parameters.ofItems lisp marker items = .ok params := by
  cases hp with
  | @required vars hvars =>
      have hend : Parameters.ofItems lisp marker [] = .ok ⟨[], none⟩ := rfl
      have hall := ofItems_append hvars hend
      simpa using hall
  | @withRest vars m rest hvars hm hrest =>
      have hsame : m.same (.symbol marker) = true := beq_iff_eq.2 hm
      have hend : Parameters.ofItems lisp marker [m, .symbol rest] = .ok ⟨[], some rest⟩ := by
        simp only [Parameters.ofItems, hsame, if_true, expectVariable_of_bindable hrest]
        rfl
      have hall := ofItems_append hvars hend
      simpa using hall

theorem listed_of_ofItems (hp : Parameters.ofItems lisp marker items = .ok params) :
    params.Listed lisp marker items := by
  have hnone : ∀ s ∈ ([] : List Symbol), lisp.Bindable s ∧ s.id ≠ marker.id :=
    fun _ hs => absurd hs List.not_mem_nil
  fun_induction Parameters.ofItems lisp marker items generalizing params with
  | case1 =>
      cases hp
      exact .required hnone
  | case2 item hsame rest =>
      cases hrest : expectVariable lisp "lambda" rest with
      | error e =>
          rw [hrest] at hp
          cases hp
      | ok s =>
          obtain ⟨rfl, hs⟩ := expectVariable_eq_ok_iff.1 hrest
          rw [hrest] at hp
          cases hp
          exact .withRest hnone (beq_iff_eq.1 hsame) hs
  | case3 => cases hp
  | case4 item items hsame ih =>
      cases hvar : expectVariable lisp "lambda" item with
      | error e =>
          rw [hvar] at hp
          cases hp
      | ok s =>
          obtain ⟨rfl, hs⟩ := expectVariable_eq_ok_iff.1 hvar
          rw [hvar] at hp
          cases hlater : Parameters.ofItems lisp marker items with
          | error e =>
              rw [hlater] at hp
              cases hp
          | ok later =>
              rw [hlater] at hp
              cases hp
              exact (ih hlater).cons hs fun hid => hsame (beq_iff_eq.2 hid)

end

/-! ## Special forms -/

/-- **A special form refuses its operands**: whatever evaluates the forms among them, it fails with
this error and leaves the state as it was. So nothing has been evaluated. -/
def SpecialForm.Refuses (lisp : Interpreter) (form : SpecialForm) (args : List Value)
    (e : EvalError) : Prop :=
  ∀ ev a s, form.run lisp ev args a s = .error (.error e) s

/-- **A heap in which at most the marker of lambda lists is new**: all cells, closures and frames
are the same. -/
structure Heap.AtMostMarked (package : ObjectId) (h h' : Heap) : Prop where
  cells : h'.cells = h.cells
  closures : h'.closures = h.closures
  frames : h'.frames = h.frames
  effect : Heap.Effect package h h'

theorem Heap.atMostMarked_intern (package : ObjectId) (h : Heap) :
    h.AtMostMarked package (h.intern package "&rest").2 := by
  obtain ⟨hcells, hclosures, hframes⟩ := h.shape_intern package "&rest"
  exact ⟨hcells, hclosures, hframes, Heap.effect_marker package h⟩

/-- A count that is at least what is asked for passes. -/
theorem arity_check_atLeast_one {α : Type} (x : α) (xs : List α) :
    (Arity.atLeast 1).check (x :: xs).length = .ok () := by
  simp [Arity.check, Arity.atLeast, Arity.accepts]

section

variable {lisp : Interpreter} {bindings : Value} {specs : List BindingSpec} {e : EvalError}

/-- **A `let` with good bindings** goes on to evaluate them, all outside of the new frame. -/
theorem run_letParallel (hlist : IsBindingList lisp bindings specs) (ev : Value → Eval Value)
    (forms : List Value) :
    SpecialForm.letParallel.run lisp ev (bindings :: forms) =
      SpecialForm.bindParallel lisp ev specs forms := by
  simp only [SpecialForm.run, bindingSpecs_of_isBindingList hlist]
  rfl

/-- **A `let*` with good bindings** goes on to evaluate them one after the other. -/
theorem run_letSequential (hlist : IsBindingList lisp bindings specs) (ev : Value → Eval Value)
    (forms : List Value) :
    SpecialForm.letSequential.run lisp ev (bindings :: forms) = withScope (do
      SpecialForm.bindInTurn lisp ev specs
      SpecialForm.body lisp ev forms) := by
  simp only [SpecialForm.run, bindingSpecs_of_isBindingList hlist]
  rfl

theorem refuses_letParallel (hfault : BindingListFault lisp "let" bindings e)
    (forms : List Value) : SpecialForm.letParallel.Refuses lisp (bindings :: forms) e := by
  intro ev a s
  simp only [SpecialForm.run, bindingSpecs_of_fault hfault]
  rfl

theorem refuses_letSequential (hfault : BindingListFault lisp "let*" bindings e)
    (forms : List Value) : SpecialForm.letSequential.Refuses lisp (bindings :: forms) e := by
  intro ev a s
  simp only [SpecialForm.run, bindingSpecs_of_fault hfault]
  rfl

variable {lambdaList : Value} {params : Parameters} {s : State}

/-- The parameters of a lambda list, read after its marker has been interned. -/
theorem parameters_of_isLambdaList
    (hlist : IsLambdaList lisp (lisp.intern s.heap "&rest").1 lambdaList params) (a : Anchors) :
    SpecialForm.parameters lisp lambdaList a s =
      .ok params ⟨(lisp.intern s.heap "&rest").2, s.env⟩ := by
  obtain ⟨items, hitems, hlisted⟩ := hlist
  rw [SpecialForm.parameters, hitems]
  show ofExcept (Parameters.ofItems lisp (lisp.intern s.heap "&rest").1 items) a _ = _
  rw [ofItems_of_listed hlisted]
  rfl

/-- **A new closure** in the current environment. -/
theorem closure_of_isLambdaList
    (hlist : IsLambdaList lisp (lisp.intern s.heap "&rest").1 lambdaList params)
    (name : Option Symbol) (forms : List Value) (a : Anchors) :
    SpecialForm.closure lisp name lambdaList forms a s =
      make (fun h => (lisp.intern h "&rest").2.makeClosure name
        ⟨params.required, params.rest, forms, s.env⟩) a s := by
  show EStateM.bind (SpecialForm.parameters lisp lambdaList a) _ s = _
  rw [EStateM.bind, parameters_of_isLambdaList hlist]
  rfl

/-- **No closure is made of a bad lambda list**, and at most the marker is interned. -/
theorem closure_of_not_isLambdaList
    (hlist : ¬ ∃ params, IsLambdaList lisp (lisp.intern s.heap "&rest").1 lambdaList params) :
    ∃ e h', s.heap.AtMostMarked lisp.package h' ∧ ∀ name forms a,
      SpecialForm.closure lisp name lambdaList forms a s = .error (.error e) ⟨h', s.env⟩ := by
  cases hitems : lambdaList.items? with
  | none =>
      refine ⟨.malformed (.lambdaList lambdaList), s.heap, ⟨rfl, rfl, rfl, .refl _ _⟩, ?_⟩
      intro name forms a
      show EStateM.bind (SpecialForm.parameters lisp lambdaList a) _ s = _
      rw [EStateM.bind, SpecialForm.parameters, hitems]
      rfl
  | some items =>
      cases hparams : Parameters.ofItems lisp (lisp.intern s.heap "&rest").1 items with
      | ok params => exact absurd ⟨params, items, hitems, listed_of_ofItems hparams⟩ hlist
      | error e =>
          refine ⟨e, _, s.heap.atMostMarked_intern lisp.package, fun name forms a => ?_⟩
          have hread : SpecialForm.parameters lisp lambdaList a s =
              .error (.error e) ⟨(lisp.intern s.heap "&rest").2, s.env⟩ := by
            rw [SpecialForm.parameters, hitems]
            show ofExcept (Parameters.ofItems lisp (lisp.intern s.heap "&rest").1 items) a _ = _
            rw [hparams]
            rfl
          show EStateM.bind (SpecialForm.parameters lisp lambdaList a) _ s = _
          rw [EStateM.bind, hread]
          rfl

/-- `defun` makes a closure and puts it into the function cell of its name. -/
theorem run_defun (ev : Value → Eval Value) (name : Symbol) (lambdaList : Value)
    (forms : List Value) :
    SpecialForm.defun.run lisp ev (.symbol name :: lambdaList :: forms) = (do
      let f ← SpecialForm.closure lisp (some name) lambdaList forms
      change (·.setFunction name f)
      return .symbol name) := rfl

end

/-- **Shapes are checked before anything is evaluated.** With a binding list `let` and `let*` go on
to evaluate the bindings. Any other operand in its place they refuse, with the error of the first
bad entry if it is a proper list, and nothing has happened. With a lambda list `lambda` and `defun`
make a closure. With any other operand in its place they fail, and all that may have happened is
that the marker `&rest` has been interned. `defun` also refuses operands among which there is no
name or no lambda list. -/
theorem shapes_checked_first (lisp : Interpreter) (shape : Value) (forms : List Value) :
    (∀ specs, IsBindingList lisp shape specs → ∀ ev,
      SpecialForm.letParallel.run lisp ev (shape :: forms) =
        SpecialForm.bindParallel lisp ev specs forms ∧
      SpecialForm.letSequential.run lisp ev (shape :: forms) = withScope (do
        SpecialForm.bindInTurn lisp ev specs
        SpecialForm.body lisp ev forms)) ∧
    ((¬ ∃ specs, IsBindingList lisp shape specs) →
      ∀ form ∈ [SpecialForm.letParallel, .letSequential],
        ∃ e, BindingListFault lisp form.name shape e ∧ form.Refuses lisp (shape :: forms) e) ∧
    (∀ s : State,
      let marked := lisp.intern s.heap "&rest"
      (∀ params, IsLambdaList lisp marked.1 shape params →
        let made := fun name =>
          marked.2.makeClosure name ⟨params.required, params.rest, forms, s.env⟩
        ∀ ev a, SpecialForm.lambda.run lisp ev (shape :: forms) a s =
            .ok (made none).1 ⟨(made none).2, s.env⟩ ∧
          ∀ name, SpecialForm.defun.run lisp ev (.symbol name :: shape :: forms) a s =
            .ok (.symbol name)
              ⟨(made (some name)).2.setFunction name (made (some name)).1, s.env⟩) ∧
      ((¬ ∃ params, IsLambdaList lisp marked.1 shape params) →
        ∃ e h', s.heap.AtMostMarked lisp.package h' ∧
          ∀ ev a, SpecialForm.lambda.run lisp ev (shape :: forms) a s =
              .error (.error e) ⟨h', s.env⟩ ∧
            ∀ name, SpecialForm.defun.run lisp ev (.symbol name :: shape :: forms) a s =
              .error (.error e) ⟨h', s.env⟩)) ∧
    ∀ args, (∀ name lambdaList rest, args ≠ .symbol name :: lambdaList :: rest) →
      ∃ e, SpecialForm.defun.Refuses lisp args e := by
  refine ⟨fun specs hlist ev => ⟨run_letParallel hlist ev forms, run_letSequential hlist ev forms⟩,
    fun hlist form hform => ?_, fun s => ⟨fun params hlist => ?_, fun hlist => ?_⟩,
    fun args hargs => ?_⟩
  · obtain ⟨e, he⟩ := (isBindingList_or_fault lisp form.name shape).resolve_left hlist
    refine ⟨e, he, ?_⟩
    simp only [List.mem_cons, List.not_mem_nil, or_false] at hform
    rcases hform with rfl | rfl
    · exact refuses_letParallel he forms
    · exact refuses_letSequential he forms
  · intro made ev a
    refine ⟨closure_of_isLambdaList hlist none forms a, fun name => ?_⟩
    rw [run_defun]
    show EStateM.bind (SpecialForm.closure lisp (some name) shape forms a) _ s = _
    rw [EStateM.bind, closure_of_isLambdaList hlist]
    rfl
  · obtain ⟨e, h', hmarked, hfails⟩ := closure_of_not_isLambdaList hlist
    refine ⟨e, h', hmarked, fun ev a => ⟨hfails none forms a, fun name => ?_⟩⟩
    rw [run_defun]
    show EStateM.bind (SpecialForm.closure lisp (some name) shape forms a) _ s = _
    rw [EStateM.bind, hfails]
  · rcases args with _ | ⟨name, _ | ⟨lambdaList, rest⟩⟩
    · exact ⟨_, fun _ _ _ => rfl⟩
    · exact ⟨_, fun _ _ _ => rfl⟩
    · cases name with
      | symbol name => exact absurd rfl (hargs name lambdaList rest)
      | _ => exact ⟨_, fun _ _ _ => rfl⟩

/-- A list whose second entry binds a constant, behind one that would assign a variable. -/
theorem shapes_checked_first_constant :
    let made := Interpreter.fresh Heap.empty
    let reading := (Reader.ofSource "((x (setq y 1)) (t 2))".toList).read made.1 made.2
    let shape := reading.result.toOption.getD made.1.nilValue
    (¬ ∃ specs, IsBindingList made.1 shape specs) ∧
      SpecialForm.letSequential.Refuses made.1 [shape]
        (.malformed (.constant "let*" made.1.trueValue)) := by
  intro made reading shape
  have hfound : bindingSpecs made.1 "let*" shape =
      .error (.malformed (.constant "let*" made.1.trueValue)) := by decide +kernel
  have hlist : ¬ ∃ specs, IsBindingList made.1 shape specs := by
    rintro ⟨specs, hspecs⟩
    rw [bindingSpecs_of_isBindingList hspecs] at hfound
    cases hfound
  obtain ⟨e, hfault, hrefuses⟩ :=
    (shapes_checked_first made.1 shape []).2.1 hlist .letSequential (by simp)
  have hsame := (bindingSpecs_of_fault hfault).symm.trans hfound
  cases hsame
  exact ⟨hlist, hrefuses⟩

end SmallLisp
