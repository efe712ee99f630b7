import SmallLisp.Proofs.Eval.InStep
import SmallLisp.Proofs.Program.Calls
import SmallLisp.Proofs.Program.Shapes
import SmallLisp.Proofs.Session.Objects

set_option autoImplicit false

/-! # `let` and immediate calls

`(let ((v e) …) body…)` does the same as `((lambda (v …) body…) e …)`, but by other means. The first
evaluates the forms and pushes a frame on the environment that it is in. The second makes a closure,
evaluates the forms while it holds the closure, and calls it: the closure has a copy of the
environment, and the frame is pushed on that one. To make the closure the marker `&rest` is interned
as well, and both get numbers that objects made by the forms have in the `let`. So the two runs are
the same only up to names, and one is ahead of the other (`Ahead.coupling`).
-/

namespace SmallLisp

open Eval

/-! ## The two forms -/

/-- A list reaches what its elements reach. -/
theorem Value.reach_subset_of_items? {v x : Value} {xs : List Value} (hv : v.items? = some xs)
    (hx : x ∈ xs) : x.reach ⊆ v.reach := by
  induction xs generalizing v with
  | nil => cases hx
  | cons y ys ih =>
      obtain ⟨id, tail, rfl, htail⟩ := Value.eq_cons_of_items? hv
      intro i hi
      refine List.mem_cons_of_mem _ ?_
      rcases List.mem_cons.1 hx with rfl | hx
      · exact List.mem_append_left _ hi
      · exact List.mem_append_right _ (ih htail hx hi)

/-- **A symbol that may be bound** by either form: not `nil`, `t` or `&rest`. -/
structure Interpreter.Binds (lisp : Interpreter) (h : Heap) (s : Symbol) : Prop where
  notConstant : lisp.isConstant (.symbol s) = false
  notMarker : lisp.findSymbol h "&rest" ≠ some s

/-- **A `let` and an immediate call**, as forms: `(let ((v e) …) body…)` and
`((lambda (v …) body…) e …)`, where `let` is any symbol whose function cell holds the native and
`lambda` has its own. Of the lists that the forms are made of only the elements matter. -/
structure Lets (lisp : Interpreter) (h : Heap) (bs : List (Symbol × Value)) (body : List Value)
    (form call : Value) : Prop where
  form : ∃ head bindings pairs, form.items? = some (.symbol head :: bindings :: body) ∧
    bindings.items? = some pairs ∧
    List.Forall₂ (fun pair b => pair.items? = some [.symbol b.1, b.2]) pairs bs ∧
    ∃ k, (h.cellsOf head).function = some (.specialForm k .letParallel)
  call : ∃ lambda operator params, call.items? = some (operator :: bs.map Prod.snd) ∧
    operator.items? = some (.symbol lambda :: params :: body) ∧
    params.items? = some (bs.map fun b => .symbol b.1) ∧
    lisp.findSymbol h "lambda" = some lambda ∧
    ∃ k, (h.cellsOf lambda).function = some (.specialForm k .lambda)

/-- The bindings of a `let` that gives a form for each variable. -/
def BindingSpec.ofPairs (bs : List (Symbol × Value)) : List BindingSpec :=
  bs.map fun b => ⟨b.1, some b.2⟩

/-- The code of the closure that is called at once. -/
def Closure.ofPairs (bs : List (Symbol × Value)) (body : List Value) (env : Environment) :
    Closure :=
  ⟨bs.map Prod.fst, none, body, env⟩

theorem Closure.objects_ofPairs (bs : List (Symbol × Value)) (body : List Value)
    (env : Environment) :
    (Closure.ofPairs bs body env).objects = (bs.map fun b => .symbol b.1) ++ body := by
  simp [Closure.ofPairs, Closure.objects, Function.comp_def]

section

variable {lisp : Interpreter} {h : Heap} {bs : List (Symbol × Value)} {body : List Value}
  {form call : Value}

theorem Interpreter.Binds.bindable {s : Symbol} (hs : lisp.Binds h s) : lisp.Bindable s :=
  isConstant_eq_false_iff.1 hs.notConstant

theorem isBindingList_of_pairs (hbinds : ∀ b ∈ bs, lisp.Binds h b.1) {bindings : Value}
    {pairs : List Value} (hitems : bindings.items? = some pairs)
    (hpairs : List.Forall₂ (fun pair b => pair.items? = some [.symbol b.1, b.2]) pairs bs) :
    IsBindingList lisp bindings (BindingSpec.ofPairs bs) := by
  refine ⟨pairs, hitems, ?_⟩
  clear hitems
  induction hpairs with
  | nil => exact .nil
  | cons hpair _ ih =>
      obtain ⟨hb, hrest⟩ := List.forall_mem_cons.1 hbinds
      exact .cons (.given hpair hb.bindable) (ih hrest)

/-- Variables that are not the marker are required parameters. -/
theorem isLambdaList_of_pairs (hbinds : ∀ b ∈ bs, lisp.Binds h b.1) {marker : Symbol}
    (hmarker : ∀ b ∈ bs, (b.1).id ≠ marker.id) {params : Value}
    (hparams : params.items? = some (bs.map fun b => .symbol b.1)) :
    IsLambdaList lisp marker params ⟨bs.map Prod.fst, none⟩ := by
  refine ⟨_, hparams, ?_⟩
  have hlisted : Parameters.Listed lisp marker ((bs.map Prod.fst).map .symbol)
      ⟨bs.map Prod.fst, none⟩ := by
    refine .required fun s hs => ?_
    obtain ⟨b, hb, rfl⟩ := List.mem_map.1 hs
    exact ⟨(hbinds b hb).bindable, hmarker b hb⟩
  rwa [List.map_map] at hlisted

/-- **What a `let` does**: the forms are evaluated, and the body in a scope with the new frame. -/
theorem Lets.evaluate_form (hl : Lets lisp h bs body form call)
    (hbinds : ∀ b ∈ bs, lisp.Binds h b.1) (depth : Nat) (a : Anchors) (env : Environment) :
    evaluate lisp (depth + 2) form a ⟨h, env⟩ =
      SpecialForm.bindParallel lisp (evaluate lisp (depth + 1)) (BindingSpec.ofPairs bs) body a
        ⟨h, env⟩ := by
  obtain ⟨head, bindings, pairs, hform, hbindings, hpairs, k, hhead⟩ := hl.form
  have hlist := isBindingList_of_pairs hbinds hbindings hpairs
  rw [evaluate_specialForm hform hhead (arity_check_atLeast_one _ _), run_letParallel hlist]

/-- **What an immediate call does**: a closure is made and held, the forms are evaluated, and the
closure is called. -/
theorem Lets.evaluate_call (hl : Lets lisp h bs body form call)
    (hbinds : ∀ b ∈ bs, lisp.Binds h b.1)
    (hmarker : ∀ b ∈ bs, (b.1).id ≠ (lisp.intern h "&rest").1.id) {id : ObjectId} {h' : Heap}
    {env : Environment}
    (hmade : (lisp.intern h "&rest").2.makeClosure none (Closure.ofPairs bs body env) =
      (.closure id none, h')) (depth : Nat) (a : Anchors) :
    evaluate lisp (depth + 2) call a ⟨h, env⟩ = (do
      let vs ← evaluateAll (evaluate lisp (depth + 1)) (bs.map Prod.snd)
      match ← onHeap (·.closures[id]?) with
      | some code => callClosure lisp (evaluate lisp (depth + 1)) code vs
      | none => fail (.notCallable (.closure id none))) (a.hold [.closure id none]) ⟨h', env⟩ := by
  obtain ⟨lambda, operator, params, hcall, hoperator, hparams, hfound, k, hlambda⟩ := hl.call
  obtain ⟨i, argList, rfl, hargs⟩ := Value.eq_cons_of_items? hcall
  obtain ⟨j, tail, rfl, htail⟩ := Value.eq_cons_of_items? hoperator
  -- the operator evaluates to the closure
  have hev : evaluate lisp (depth + 1) (.cons j (.symbol lambda) tail) a ⟨h, env⟩ =
      .ok (.closure id none) ⟨h', env⟩ := by
    rw [evaluate_specialForm hoperator hlambda (arity_check_atLeast_one _ _)]
    have hlist := isLambdaList_of_pairs hbinds hmarker hparams
    refine (closure_of_isLambdaList hlist none body a).trans ?_
    exact congrArg (fun made : Value × Heap => EStateM.Result.ok made.1 (State.mk made.2 env))
      hmade
  have hhead : operatorOf lisp (evaluate lisp (depth + 1)) (.cons j (.symbol lambda) tail) a
      ⟨h, env⟩ = .ok (.closure id none) ⟨h', env⟩ := by
    rw [← hev]
    simp only [operatorOf, bind, ReaderT.bind, EStateM.bind, onHeap, Interpreter.isLambdaForm,
      hfound, Value.same, beq_self_eq_true, if_true]
  show EStateM.bind (operatorOf lisp (evaluate lisp (depth + 1)) _ a)
    (fun f => apply lisp (evaluate lisp (depth + 1)) f argList a) ⟨h, env⟩ = _
  rw [EStateM.bind, hhead]
  simp only [apply, hargs]
  rfl

end

/-! ## The two runs side by side -/

/-- A call with as many arguments as there are parameters. -/
theorem callClosure_of_length {lisp : Interpreter} {ev : Value → Eval Value} {code : Closure}
    {vs : List Value} (hrest : code.rest = none) (hlength : vs.length = code.params.length) :
    callClosure lisp ev code vs = inEnvironment code.env (withScope do
      Eval.push ⟨List.zipWith (fun s v => ⟨.symbol s, v⟩) code.params vs⟩
      SpecialForm.body lisp ev code.body) := by
  have harity : code.arity.check vs.length = .ok () := by
    simp [Arity.check, Arity.accepts, Closure.arity, hrest, hlength]
  rw [callClosure, harity, hrest]
  show inEnvironment code.env (withScope do
      Eval.push ⟨List.zipWith (fun s v => ⟨.symbol s, v⟩) code.params vs ++ []⟩
      SpecialForm.body lisp ev code.body) = _
  rw [List.append_nil]

/-- **The forms are evaluated in the same way**: a call binds their values afterwards, a `let` at
once. -/
theorem Coupling.mirrors_pairs {lisp host : Interpreter} {L : Law lisp} {C : Coupling L host}
    {w : Naming L host} {ev ev' : Value → Eval Value} (hev : C.Evaluates ev ev')
    {bs bs' : List (Symbol × Value)}
    (hbs : List.Forall₂ (fun b b' => w.var b.1 b'.1 ∧ w.value b.2 b'.2) bs bs') :
    C.Mirrors w (evaluateAll ev (bs.map Prod.snd))
      (SpecialForm.initialAll lisp ev' (BindingSpec.ofPairs bs')) fun w vs bindings =>
        vs.length = bs.length ∧ List.Forall₂ w.binding
          (List.zipWith (fun s v => ⟨.symbol s, v⟩) (bs.map Prod.fst) vs) bindings := by
  induction bs generalizing bs' w with
  | nil =>
      cases hbs
      exact mirrors_pure ⟨rfl, .nil⟩
  | cons b bs ih =>
      rcases hbs with _ | ⟨⟨hvar, hinit⟩, hrest⟩
      refine (hev hinit).bind fun w₁ v v' hw₁ hv => ?_
      have hlater := ih (hrest.imp fun _ _ hb =>
        ⟨Naming.var_mono hw₁ hb.1, Naming.value_mono hw₁ hb.2⟩)
      refine (hlater.holding (.cons hv .nil)).bind fun w₂ vs bindings hw₂ hvs => ?_
      refine mirrors_pure ⟨congrArg (· + 1) hvs.1, .cons ?_ hvs.2⟩
      exact Naming.binding_mk (Naming.var_mono (hw₁.trans hw₂) hvar) (Naming.value_mono hw₂ hv)

namespace Ahead

variable {lisp : Interpreter} {A : Ahead lisp} {w : Names lisp} {a : Anchors} {s s' : State}
  {ev : Value → Eval Value}

/-- **The body is evaluated in the same way**, on the copy of the environment that the closure has
and on the environment itself. -/
theorem ends_call (hev : A.coupling.Evaluates ev ev)
    (hs : A.coupling.States w (a.hold [A.value]) a s s') (henv : s'.env = A.code.env)
    (hrest : A.code.rest = none) {vs : List Value} (hlength : vs.length = A.code.params.length)
    {bindings : List Binding} (hbindings : List.Forall₂ w.binding
      (List.zipWith (fun s v => ⟨.symbol s, v⟩) A.code.params vs) bindings)
    (hbody : w.values A.code.body A.code.body) :
    A.coupling.Ends w (a.hold [A.value]) a (· = s'.env) Naming.value
      (callClosure lisp ev A.code vs (a.hold [A.value]) s)
      ((withScope do
        Eval.push ⟨bindings⟩
        SpecialForm.body lisp ev A.code.body) a s') := by
  have hheaps : A.Heaps w s.heap s'.heap := hs.heap
  have hsame : s.env = A.code.env := by
    rw [hs.env.1, env_eq hheaps.frames, henv]
  have hframe : w.frame ⟨List.zipWith (fun s v => ⟨.symbol s, v⟩) A.code.params vs⟩ ⟨bindings⟩ :=
    hbindings
  -- the environment that is come back to is the one that the closure has
  have hagain : A.coupling.States w ((a.hold [A.value]).stay s.env) a s s' :=
    ⟨hs.heap, hs.env, Held.stay_again hs.anchors⟩
  have hend := Coupling.mirrors_withScope (C := A.coupling)
    ((Coupling.stacks_push hframe).bind fun w₁ _ _ hw₁ _ =>
      (Coupling.mirrors_body hev (Naming.values_mono hw₁ hbody)).stacks) _ _ _ _ hagain
  rw [callClosure_of_length hrest hlength, ← hsame]
  simp only [Eval.inEnvironment]
  generalize withScope _ ((a.hold [A.value]).stay s.env) s = out at hend
  generalize withScope _ a s' = out' at hend
  cases hend with
  | ok hw ht hkept hv =>
      have hback := hs.later hw ht.heap
      rw [← hkept] at hback
      exact .ok hw hback hkept hv
  | error hw ht hkept =>
      have hback := hs.later hw ht.heap
      rw [← hkept] at hback
      exact .error hw hback hkept

/-- What there was in the beginning belongs together with itself. -/
theorem Heaps.own {host guest : Heap} (hh : A.Heaps w host guest) {v : Value}
    (hv : A.start.Knows v) : w.value v v :=
  ⟨(hh.value_eq hv).symm, hv.mono hh.since⟩

theorem Heaps.own_var {host guest : Heap} (hh : A.Heaps w host guest) {x : Symbol}
    (hx : A.start.Knows (.symbol x)) : w.var x x := by
  obtain ⟨heq, hknown⟩ := hh.own hx
  exact ⟨by injection heq, hknown⟩

/-- **The two runs end alike**, once the closure has been made. -/
theorem ends_immediate (hev : A.coupling.Evaluates ev ev)
    (hs : A.coupling.States w (a.hold [A.value]) a s s') {bs : List (Symbol × Value)}
    {body : List Value} (hcode : A.code = Closure.ofPairs bs body s'.env)
    (hinits : ∀ b ∈ bs, A.start.Knows b.2) :
    A.coupling.Ends w (a.hold [A.value]) a (· = s'.env) Naming.value
      ((do
        let vs ← evaluateAll ev (bs.map Prod.snd)
        match ← onHeap (·.closures[A.closure]?) with
        | some code => callClosure lisp ev code vs
        | none => fail (.notCallable A.value)) (a.hold [A.value]) s)
      (SpecialForm.bindParallel lisp ev (BindingSpec.ofPairs bs) body a s') := by
  have hheaps : A.Heaps w s.heap s'.heap := hs.heap
  have hknown := A.known
  rw [hcode, Closure.objects_ofPairs, List.forall_mem_append] at hknown
  obtain ⟨hvars, hbody⟩ := hknown
  have hpairs : List.Forall₂ (fun b b' : Symbol × Value => w.var b.1 b'.1 ∧ w.value b.2 b'.2)
      bs bs :=
    List.forall₂_same.2 fun b hb =>
      ⟨hheaps.own_var (hvars _ (List.mem_map_of_mem hb)), hheaps.own (hinits b hb)⟩
  refine (Coupling.mirrors_pairs hev hpairs _ _ _ _ hs).bind
    fun w₁ vs bindings t t' hw ht hkept hvs => ?_
  have hlater : A.Heaps w₁ t.heap t'.heap := ht.heap
  have hbodies : w₁.values A.code.body A.code.body := by
    rw [hcode]
    exact List.forall₂_same.2 fun v hv => hlater.own (hbody v hv)
  -- the code of the closure has not changed
  have hcall : (do
      match ← onHeap (·.closures[A.closure]?) with
      | some code => callClosure lisp ev code vs
      | none => fail (.notCallable A.value)) (a.hold [A.value]) t =
      callClosure lisp ev A.code vs (a.hold [A.value]) t := by
    simp only [bind, ReaderT.bind, EStateM.bind, onHeap, hlater.closures_closure]
  have hlength : vs.length = A.code.params.length := by
    rw [hcode, hvs.1]
    exact (List.length_map _).symm
  have hbindings : List.Forall₂ w₁.binding
      (List.zipWith (fun s v => ⟨.symbol s, v⟩) A.code.params vs) bindings := by
    rw [hcode]
    exact hvs.2
  have hend := ends_call hev ht (hkept.trans (congrArg Closure.env hcode).symm)
    (congrArg Closure.rest hcode) hlength hbindings hbodies
  have hforms : A.code.body = body := congrArg Closure.body hcode
  rw [hkept, hforms] at hend
  rw [hcall]
  exact hend

/-- **Both hold the same in the beginning**, but for the closure. All that it refers to belongs to a
form that is held, or to the environment. -/
theorem Heaps.held {host guest : Heap} (hh : A.Heaps w host guest)
    (ha : ∀ v ∈ a.values, A.start.Knows v)
    (hcode : ∀ v ∈ A.code.objects, ∃ u ∈ a.values, v.reach ⊆ u.reach) :
    A.Held w ((a.hold [A.value]).stay A.code.env) (a.stay A.code.env) where
  frames := hh.frames
  known v hv := (ha v hv).mono hh.since
  named v hv := by
    rw [hh.value_eq (ha v hv)]
    exact List.mem_cons_of_mem _ hv
  only u hu := by
    refine (List.mem_cons.1 hu).imp_right fun hu => ⟨u, hu, ?_⟩
    exact (hh.value_eq (ha u hu)).symm
  environments _ := Iff.rfl
  code x hx := by
    rcases hx with ⟨v, hv, id, hid, rfl⟩ | hf
    · obtain ⟨u, hu, hsub⟩ := hcode v hv
      exact .inl ⟨u, hu, id, hsub hid, rfl⟩
    · exact .inr ⟨_, List.mem_cons_self, hf⟩

end Ahead

/-! ## The same outcome -/

/-- **States that agree** up to names, and up to what an immediate call makes besides: a closure,
and the marker of lambda lists. What there was before the two runs, in the heap `h`, is its own
name, and so are all frames. -/
structure Renaming.Matches (r : Renaming) (lisp : Interpreter) (h : Heap) (host guest : State) :
    Prop where
  old : ∀ id < h.next, r.object id = id
  frameId : ∀ id, r.frameId id = id
  env : host.env = guest.env
  carries : r.Carries host.heap guest.heap
  size : host.heap.frames.size = guest.heap.frames.size
  symbols : ∀ id name, ¬ (id = lisp.package ∧ name = "&rest") →
    host.heap.findSymbol (r.object id) name = (guest.heap.findSymbol id name).map r.symbol
  marker : ∃ m, lisp.findSymbol host.heap "&rest" = some m ∧
    ∀ m', lisp.findSymbol guest.heap "&rest" = some m' → m = r.symbol m'
  rest : ∃ c, ∀ id ∉ Set.range r.object, host.heap.cells[id]? = none ∧
    host.heap.packages[id]? = none ∧ (id ≠ c → host.heap.closures[id]? = none)

/-- **The same outcome** up to names, of a call and of a `let`: corresponding values, or the same
error. -/
inductive Same (lisp : Interpreter) (h : Heap) :
    EStateM.Result Stop State Value → EStateM.Result Stop State Value → Prop
  | value {r : Renaming} {v : Value} {s s' : State} (hs : r.Matches lisp h s s') :
      Same lisp h (.ok (r.value v) s) (.ok v s')
  | stop {r : Renaming} {e : Stop} {s s' : State} (hs : r.Matches lisp h s s') :
      Same lisp h (.error (r.stop e) s) (.error e s')

/-- Both are nested too deeply, or neither. -/
theorem Same.exhausted_iff {lisp : Interpreter} {h : Heap}
    {out out' : EStateM.Result Stop State Value} (hsame : Same lisp h out out') :
    IsExhausted out ↔ IsExhausted out' := by
  cases hsame with
  | value => constructor <;> rintro ⟨_, heq⟩ <;> cases heq
  | @stop r e s s' _ =>
      cases e with
      | error e => constructor <;> rintro ⟨_, heq⟩ <;> cases heq
      | exhausted => exact ⟨fun _ => ⟨s', rfl⟩, fun _ => ⟨s, rfl⟩⟩

/-- States of which one is ahead agree. -/
theorem Ahead.Heaps.matches {lisp : Interpreter} {A : Ahead lisp} {w : Names lisp}
    {s s' : State} {h : Heap} (hh : A.Heaps w s.heap s'.heap) (henv : w.env s.env s'.env)
    (hstart : A.start.Fits h) : w.ren.Matches lisp h s s' where
  old id hid := hh.fixed id (hstart.next ▸ hid)
  frameId := hh.frames
  env := henv.1.trans (env_eq hh.frames _)
  carries := hh.follows.toCarries
  size := by
    have hsize := hh.follows.size 0
    rw [hh.frames] at hsize
    exact hsize.symm
  symbols := hh.symbols
  marker := by
    cases hh.marked with
    | both hguest hhost =>
        refine ⟨_, hhost, fun m' hm' => ?_⟩
        rw [Option.some.inj (hguest.symm.trans hm')]
    | ahead hguest hhost _ => exact ⟨_, hhost, fun m' hm' => nomatch hguest.symm.trans hm'⟩
  rest := by
    refine ⟨A.closure, fun id hid => ⟨?_, ?_, fun hne => (hh.vacant hid hne).closures⟩⟩
    · exact (hh.follows.spares.cells id hid).trans Std.TreeMap.getElem?_emptyc
    · exact (hh.follows.spares.packages id hid).trans Std.TreeMap.getElem?_emptyc

theorem Ahead.same_of_ends {lisp : Interpreter} {A : Ahead lisp} {w : Names lisp} {a a' : Anchors}
    {kept : Environment → Prop} {h : Heap} (hstart : A.start.Fits h)
    {out out' : EStateM.Result Stop State Value}
    (hend : A.coupling.Ends w a a' kept Naming.value out out') : Same lisp h out out' := by
  cases hend with
  | ok _ hs _ hv =>
      rw [hv.1]
      exact .value (Ahead.Heaps.matches hs.heap hs.env hstart)
  | error _ hs _ => exact .stop (Ahead.Heaps.matches hs.heap hs.env hstart)

section

variable {lisp : Interpreter} {h : Heap} {bs : List (Symbol × Value)} {body : List Value}
  {form call : Value} {known : Registry}

/-- The call reaches all that the code of its closure is made of. -/
theorem Lets.reach_subset (hl : Lets lisp h bs body form call) {env : Environment} {v : Value}
    (hv : v ∈ (Closure.ofPairs bs body env).objects) : v.reach ⊆ call.reach := by
  obtain ⟨lambda, operator, params, hcall, hoperator, hparams, _⟩ := hl.call
  rw [Closure.objects_ofPairs, List.mem_append] at hv
  have hsub : v.reach ⊆ operator.reach := by
    rcases hv with hv | hv
    · exact List.Subset.trans (Value.reach_subset_of_items? hparams hv)
        (Value.reach_subset_of_items? hoperator (by simp))
    · exact Value.reach_subset_of_items? hoperator (by simp [hv])
  exact List.Subset.trans hsub (Value.reach_subset_of_items? hcall List.mem_cons_self)

/-- With the call all that it is made of is known. -/
theorem Lets.knows (hl : Lets lisp h bs body form call) (hlisp : known.HasConstants lisp)
    (hknown : known.Knows call) (env : Environment) :
    (∀ b ∈ bs, known.Knows b.2) ∧
      ∀ v ∈ (Closure.ofPairs bs body env).objects, known.Knows v := by
  obtain ⟨lambda, operator, params, hcall, hoperator, hparams, _⟩ := hl.call
  have hitems : ∀ {v : Value} {vs : List Value}, known.Knows v → v.items? = some vs →
      ∀ u ∈ vs, known.Knows u :=
    fun hv hvs => (Registry.law lisp).values_items (w := ⟨known, hlisp⟩) hv hvs
  obtain ⟨hop, hinits⟩ := List.forall_mem_cons.1 (hitems hknown hcall)
  obtain ⟨_, hrest⟩ := List.forall_mem_cons.1 (hitems hop hoperator)
  obtain ⟨hlist, hbody⟩ := List.forall_mem_cons.1 hrest
  refine ⟨fun b hb => hinits _ (List.mem_map_of_mem hb), ?_⟩
  rw [Closure.objects_ofPairs]
  exact List.forall_mem_append.2 ⟨hitems hlist hparams, hbody⟩

/-- A symbol that may be bound has another number than the marker, also if that is new. -/
theorem Interpreter.Binds.id_ne {x : Symbol} (hx : lisp.Binds h x) (hfits : known.Fits h)
    (hknown : known.Knows (.symbol x)) : x.id ≠ (lisp.intern h "&rest").1.id := by
  intro hid
  cases hfound : lisp.findSymbol h "&rest" with
  | some m =>
      rw [lisp.intern_of_find hfound] at hid
      have heq := hknown.eq_of_id (hfits.mentioned (.symbol hfound)) hid
      exact hx.notMarker (hfound.trans (congrArg some (by injection heq.symm)))
  | none =>
      rw [lisp.intern_of_find_none hfound] at hid
      have hlt : x.id < h.next := hfits.next ▸ hknown.id_lt
      exact absurd (hid ▸ hlt) (Nat.not_lt.2 (Nat.le_succ _))

/-- **The same outcome at every depth.** -/
theorem Lets.same (hl : Lets lisp h bs body form call) (hbinds : ∀ b ∈ bs, lisp.Binds h b.1)
    (hfits : known.Fits h) (hlisp : known.HasConstants lisp) {a : Anchors}
    (ha : ∀ v ∈ a.values, known.Knows v) (hheld : call ∈ a.values) (env : Environment)
    (depth : Nat) :
    Same lisp h (evaluate lisp (depth + 2) call a ⟨h, env⟩)
      (evaluate lisp (depth + 2) form a ⟨h, env⟩) := by
  obtain ⟨hinits, hobjects⟩ := hl.knows hlisp (ha call hheld) env
  have hvars : ∀ b ∈ bs, known.Knows (.symbol b.1) := by
    intro b hb
    refine hobjects _ ?_
    rw [Closure.objects_ofPairs]
    exact List.mem_append_left _ (List.mem_map_of_mem hb)
  obtain ⟨lambda, _, _, _, _, _, hfound, _⟩ := hl.call
  have hpackage : lisp.package ∈ h.packages := Heap.mem_of_findSymbol hfound
  obtain ⟨A, w, rfl, hcode, hvalue, hheaps⟩ := Ahead.exists_heaps hfits hlisp hpackage hobjects
  set made := (lisp.intern h "&rest").2.makeClosure none (Closure.ofPairs bs body env)
  have hmade : made = (A.value, made.2) := Prod.ext hvalue.symm rfl
  have hstates : A.coupling.States w (a.hold [A.value]) a ⟨made.2, env⟩ ⟨h, env⟩ := by
    refine ⟨hheaps, ⟨(Ahead.env_eq hheaps.frames env).symm, trivial⟩, ?_⟩
    have henv : A.code.env = env := congrArg Closure.env hcode
    have hanchors := hheaps.held ha fun v hv => ⟨call, hheld, hl.reach_subset (hcode ▸ hv)⟩
    rw [henv] at hanchors
    exact hanchors
  rw [hl.evaluate_form hbinds, hl.evaluate_call hbinds
    (fun b hb => (hbinds b hb).id_ne hfits (hvars b hb)) hmade]
  exact Ahead.same_of_ends hfits (Ahead.ends_immediate (A.coupling.mirrors_evaluate (depth + 1))
    hstates hcode hinits)

end

/-- **`let` is an immediate call.** In every state that a session leads to, and in every
environment, the two forms have the same outcome: neither ends, or both have corresponding values,
or both fail with the same error. The states are then the same up to the names of what was made
since, and up to the closure and the marker `&rest`, which the call has made. Whoever evaluates a
form holds it, so the call is among what is held. -/
theorem let_is_immediate_call {s : Session} (hs : s.Reached) {bs : List (Symbol × Value)}
    {body : List Value} {form call : Value} (hl : Lets s.lisp s.heap bs body form call)
    (hbinds : ∀ b ∈ bs, s.lisp.Binds s.heap b.1) {a : Anchors} (ha : ∀ v ∈ a.values, s.Has v)
    (hheld : call ∈ a.values) (env : Environment) :
    (∀ out, ¬ Yields s.lisp call a ⟨s.heap, env⟩ out ∧ ¬ Yields s.lisp form a ⟨s.heap, env⟩ out) ∨
      ∃ out out', Yields s.lisp call a ⟨s.heap, env⟩ out ∧
        Yields s.lisp form a ⟨s.heap, env⟩ out' ∧ Same s.lisp s.heap out out' := by
  obtain ⟨known, hfits⟩ := hs.fits
  have hsame := hl.same hbinds hfits.heap hfits.constants (fun v hv => hfits.knows (ha v hv)) hheld
    env
  by_cases hends : ∃ depth, ¬ IsExhausted (evaluate s.lisp (depth + 2) call a ⟨s.heap, env⟩)
  · obtain ⟨depth, hfinished⟩ := hends
    refine .inr ⟨_, _, ⟨depth + 2, rfl, hfinished⟩, ⟨depth + 2, rfl, ?_⟩, hsame depth⟩
    rwa [← (hsame depth).exhausted_iff]
  · refine .inl fun out => ⟨fun hy => ?_, fun hy => ?_⟩ <;>
      obtain ⟨depth, hle, rfl⟩ := hy.exists_le 2 <;>
      obtain ⟨depth, rfl⟩ := Nat.exists_eq_add_of_le' hle
    · exact hends ⟨depth, hy.finished⟩
    · exact hends ⟨depth, (hsame depth).exhausted_iff.not.2 hy.finished⟩

/-- A session in which there is an immediate call that makes a closure, and a `let` that has been
put together from its parts. -/
def partedSession : Session :=
  (Session.start.after 9
    ⟨.evalText "(setq c '((lambda (x) (lambda (y) x)) 1))", some "call"⟩).after 9
    ⟨.evalText "(list 'let (list (cons 'x (cdr c))) (car (cdr (cdr (car c)))))", some "form"⟩

/-- The closure keeps a variable of the call, or of the `let`. -/
theorem let_is_immediate_call_closure :
    let s := partedSession
    let a : Anchors := ⟨[s.slot "form", s.slot "call"], []⟩
    ∃ out out', Yields s.lisp (s.slot "call") a ⟨s.heap, []⟩ out ∧
      Yields s.lisp (s.slot "form") a ⟨s.heap, []⟩ out' ∧ Same s.lisp s.heap out out' := by
  intro s a
  have hs : s.Reached := .step (.step .start 9 _) 9 _
  set made := (s.lisp, s.heap)
  set form := s.slot "form"
  set call := s.slot "call"
  set elements := fun v : Value => v.items?.getD []
  set bindings := (elements form).getD 1 form
  set pair := (elements bindings).headD form
  set one := (elements pair).getLastD form
  set operator := (elements call).headD form
  set params := (elements operator).getD 1 form
  set body := (elements operator).getLastD form
  set x := symbolNamed made "x"
  have hfacts : form.items? = some [.symbol (symbolNamed made "let"), bindings, body] ∧
      bindings.items? = some [pair] ∧ pair.items? = some [.symbol x, one] ∧
      (s.heap.cellsOf (symbolNamed made "let")).function =
        some (.specialForm (functionId made "let") .letParallel) ∧
      call.items? = some [operator, one] ∧
      operator.items? = some [.symbol (symbolNamed made "lambda"), params, body] ∧
      params.items? = some [.symbol x] ∧
      s.lisp.findSymbol s.heap "lambda" = some (symbolNamed made "lambda") ∧
      (s.heap.cellsOf (symbolNamed made "lambda")).function =
        some (.specialForm (functionId made "lambda") .lambda) ∧
      s.lisp.isConstant (.symbol x) = false ∧ s.lisp.findSymbol s.heap "&rest" ≠ some x ∧
      (valueOf (evaluate s.lisp 4 call a ⟨s.heap, []⟩)).map Value.text ≠ [] := by
    decide +kernel
  obtain ⟨hform, hbindings, hpair, hlet, hcall, hoperator, hparams, hfound, hlambda, hconstant,
    hmarker, hvalue⟩ := hfacts
  have hl : Lets s.lisp s.heap [(x, one)] [body] form call :=
    ⟨⟨_, _, _, hform, hbindings, .cons hpair .nil, _, hlet⟩, _, _, _, hcall, hoperator, hparams,
      hfound, _, hlambda⟩
  have hbinds : ∀ b ∈ [(x, one)], s.lisp.Binds s.heap b.1 :=
    List.forall_mem_singleton.2 ⟨hconstant, hmarker⟩
  have hhas : ∀ v ∈ a.values, s.Has v :=
    List.forall_mem_cons.2 ⟨s.has_slot "form", List.forall_mem_singleton.2 (s.has_slot "call")⟩
  have hheld : call ∈ a.values := List.mem_cons_of_mem _ List.mem_cons_self
  have houtcome := let_is_immediate_call hs hl hbinds hhas hheld []
  exact houtcome.resolve_left fun hnone => (hnone _).1 (yields_of_value hvalue)

end SmallLisp
