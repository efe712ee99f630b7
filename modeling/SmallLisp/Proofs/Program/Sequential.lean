import SmallLisp.Proofs.Eval.Frames
import SmallLisp.Proofs.Eval.Holding
import SmallLisp.Proofs.Program.Calls
import SmallLisp.Proofs.Session.Turns

set_option autoImplicit false

/-! # `let*` and nested `let`

`(let* (b₁ … bₙ) body…)` does the same as `(let (b₁) (let (b₂) … (let (bₙ) body…)…))`. The first
opens one scope, pushes a frame for each variable on it, and takes all of them off in the end. The
second opens a scope for each variable, inside of the one before. Scopes that are nested in this way
can be merged (`withScope_push_withScope`), since the outer one takes off what the inner one has
left, so both come down to binding one variable around a computation (`bindAround`), again and
again. What remains are two differences that cannot be seen: the second is nested more deeply, and
it holds `nil` while it evaluates a body that is one form.
-/

namespace SmallLisp

open Eval

/-! ## Scopes inside scopes -/

/-- The state with a new frame on the environment. -/
def State.pushed (s : State) (frame : Frame) : State :=
  ⟨(s.heap.makeFrame frame).2, (s.heap.makeFrame frame).1 :: s.env⟩

namespace Eval

variable {α β : Type}

theorem released_eq_self {out : EStateM.Result Stop State α} {depth : Nat}
    (hle : (left out).env.length ≤ depth) : released depth out = out := by
  cases out <;>
    simp only [left] at hle <;> simp [released, Environment.truncate, Nat.sub_eq_zero_of_le hle]

theorem released_released (out : EStateM.Result Stop State α) {m n : Nat} (hle : n ≤ m) :
    released n (released m out) = released n out := by
  cases out <;> simp only [released, Environment.truncate_truncate hle]

/-- What releases its frames needs no scope. -/
theorem withScope_of_releases {x : Eval α} (hx : Releases x) : withScope x = x := by
  funext a s
  rw [withScope_eq, released_eq_self]
  rw [hx a s]

/-- A computation that releases its frames may stand before a scope as well as in it. -/
theorem withScope_bind {x : Eval α} (hx : Releases x) (f : α → Eval β) :
    withScope (x >>= f) = x >>= fun v => withScope (f v) := by
  funext a s
  have henv := hx a s
  rw [withScope_eq]
  show released s.env.length (EStateM.bind (x a) (fun v => f v a) s) =
    EStateM.bind (x a) (fun v => withScope (f v) a) s
  simp only [EStateM.bind]
  cases hrun : x a s with
  | ok v s' =>
      rw [hrun] at henv
      have hsame : s'.env = s.env := henv
      simp only [withScope_eq, hsame]
  | error e s' =>
      rw [hrun] at henv
      exact released_eq_self (by rw [← henv]; rfl)

/-- **A scope inside a scope** is no more than the outer one. -/
theorem withScope_push_withScope (frame : Frame) (x : Eval α) :
    withScope (push frame >>= fun _ => withScope x) = withScope (push frame >>= fun _ => x) := by
  funext a s
  rw [withScope_eq, withScope_eq]
  show released s.env.length (withScope x a (s.pushed frame)) =
    released s.env.length (x a (s.pushed frame))
  have hle : s.env.length ≤ (s.pushed frame).env.length := Nat.le_succ _
  rw [withScope_eq, released_released _ hle]

end Eval

/-! ## One variable at a time -/

/-- **Binds a variable around a computation**: in a scope of its own, after its value has been
computed outside. -/
def bindAround (lisp : Interpreter) (ev : Value → Eval Value) (spec : BindingSpec)
    (inside : Eval Value) : Eval Value := do
  let v ← SpecialForm.initial lisp ev spec
  withScope do
    push ⟨[⟨.symbol spec.var, v⟩]⟩
    inside

/-- Binds variables one after the other, in one scope. -/
def bindSequential (lisp : Interpreter) (ev : Value → Eval Value) (specs : List BindingSpec)
    (forms : List Value) : Eval Value :=
  withScope do
    SpecialForm.bindInTurn lisp ev specs
    SpecialForm.body lisp ev forms

section

variable {lisp : Interpreter} {spec : BindingSpec} {specs : List BindingSpec}
  {forms : List Value}

theorem releases_body (lisp : Interpreter) (depth : Nat) (forms : List Value) :
    Releases (SpecialForm.body lisp (evaluate lisp depth) forms) := by
  have hkeeps : KeepsShape lisp (SpecialForm.body lisp (evaluate lisp depth) forms) :=
    fun L w => L.toLaw.keeps_body (L.toLaw.keeps_evaluate depth) (L.values w forms)
  exact hkeeps.releases

theorem releases_initial (lisp : Interpreter) (depth : Nat) (spec : BindingSpec) :
    Releases (SpecialForm.initial lisp (evaluate lisp depth) spec) := by
  unfold SpecialForm.initial
  split
  · exact (keepsShape_evaluate lisp depth _).releases
  · exact fun _ _ => rfl

/-- A parallel binding of one variable. -/
theorem bindParallel_singleton (ev : Value → Eval Value) :
    SpecialForm.bindParallel lisp ev [spec] forms =
      bindAround lisp ev spec (SpecialForm.body lisp ev forms) := by
  simp only [SpecialForm.bindParallel, SpecialForm.initialAll, bind_assoc, pure_bind]
  rfl

/-- A body of one form is that form. -/
theorem body_singleton (depth : Nat) (form : Value) :
    SpecialForm.body lisp (evaluate lisp depth) [form] = evaluate lisp depth form := by
  rw [SpecialForm.body, List.foldlM_cons, holding_nil (built_evaluate depth form)]
  exact bind_pure _

/-- With no variable left to be bound there is the body. -/
theorem bindSequential_nil (depth : Nat) :
    bindSequential lisp (evaluate lisp depth) [] forms =
      SpecialForm.body lisp (evaluate lisp depth) forms :=
  withScope_of_releases (releases_body lisp depth forms)

/-- **Each variable is bound around the binding of the next ones.** -/
theorem bindSequential_cons (depth : Nat) :
    bindSequential lisp (evaluate lisp depth) (spec :: specs) forms =
      bindAround lisp (evaluate lisp depth) spec
        (bindSequential lisp (evaluate lisp depth) specs forms) := by
  rw [bindSequential, SpecialForm.bindInTurn, bind_assoc,
    withScope_bind (releases_initial lisp depth spec)]
  refine bind_congr fun v => ?_
  rw [bind_assoc]
  exact (withScope_push_withScope _ _).symm

end

/-! ## The two forms -/

/-- **Nested `let` forms**, each with one entry: `(let (b₁) (let (b₂) … (let (bₙ) body…)…))`, where
`let` is a given symbol. Of the lists that the forms are made of only the elements matter. -/
inductive NestedLets (lisp : Interpreter) (op : Symbol) (body : List Value) :
    List BindingSpec → Value → Prop
  | innermost {form bindings : Value} {spec : BindingSpec}
      (hform : form.items? = some (.symbol op :: bindings :: body))
      (hbindings : IsBindingList lisp bindings [spec]) : NestedLets lisp op body [spec] form
  | around {form bindings inner : Value} {spec : BindingSpec} {specs : List BindingSpec}
      (hform : form.items? = some [.symbol op, bindings, inner])
      (hbindings : IsBindingList lisp bindings [spec])
      (hinner : NestedLets lisp op body specs inner) :
      NestedLets lisp op body (spec :: specs) form

/-- **A symbol names `let` throughout**: its function cell holds the special form whenever some of
the variables have been bound and another one is to be bound. -/
def NamesLet (lisp : Interpreter) (op : Symbol) (specs : List BindingSpec) (a : Anchors)
    (s : State) : Prop :=
  ∀ bound spec later s', specs = bound ++ spec :: later →
    Concludes (fun depth => SpecialForm.bindInTurn lisp (evaluate lisp depth) bound) a s
      (.ok () s') →
    ∃ k, (s'.heap.cellsOf op).function = some (.specialForm k .letParallel)

section

variable {lisp : Interpreter} {op : Symbol} {body : List Value} {spec : BindingSpec}
  {specs : List BindingSpec} {a : Anchors} {s : State} {form : Value}
  {out : EStateM.Result Stop State Value}

theorem settles_initial (lisp : Interpreter) (spec : BindingSpec) :
    Settles fun depth => SpecialForm.initial lisp (evaluate lisp depth) spec :=
  fun depth => extends_initial (extends_evaluate lisp depth) spec

theorem settles_bindInTurn (lisp : Interpreter) (specs : List BindingSpec) :
    Settles fun depth => SpecialForm.bindInTurn lisp (evaluate lisp depth) specs :=
  fun depth => extends_bindInTurn (extends_evaluate lisp depth) specs

theorem settles_bindSequential (lisp : Interpreter) (specs : List BindingSpec)
    (forms : List Value) :
    Settles fun depth => bindSequential lisp (evaluate lisp depth) specs forms :=
  ((settles_bindInTurn lisp specs).bind fun _ depth =>
    extends_body (extends_evaluate lisp depth) forms).withScope

/-- **The outcome of binding a variable** depends on the computation inside only through its
outcome where the variable has been bound. -/
theorem concludes_bindAround_congr {inside inside' : Nat → Eval Value} (hx : Settles inside)
    (hx' : Settles inside')
    (hsame : ∀ v s' out, Concludes (fun depth =>
        SpecialForm.initial lisp (evaluate lisp depth) spec) a s (.ok v s') →
      (Concludes inside a (s'.pushed ⟨[⟨.symbol spec.var, v⟩]⟩) out ↔
        Concludes inside' a (s'.pushed ⟨[⟨.symbol spec.var, v⟩]⟩) out)) :
    Concludes (fun depth => bindAround lisp (evaluate lisp depth) spec (inside depth)) a s out ↔
      Concludes (fun depth => bindAround lisp (evaluate lisp depth) spec (inside' depth)) a s
        out := by
  have hpush : ∀ {x : Nat → Eval Value}, Settles x → ∀ frame : Frame,
      Settles fun depth => push frame >>= fun _ => x depth :=
    fun hx frame => Settles.bind (fun _ => Extends.refl _) fun _ => hx
  have hpushed : ∀ (x : Nat → Eval Value) (frame : Frame) (s : State) out,
      Concludes (fun depth => push frame >>= fun _ => x depth) a s out ↔
        Concludes x a (s.pushed frame) out := fun _ _ _ _ => Iff.rfl
  unfold bindAround
  rw [concludes_bind_iff (settles_initial lisp spec) fun v => (hpush hx _).withScope,
    concludes_bind_iff (settles_initial lisp spec) fun v => (hpush hx' _).withScope]
  refine or_congr_left (exists_congr fun v => exists_congr fun s' => and_congr_right fun hv => ?_)
  simp only [concludes_withScope_iff, hpushed, hsame v s' _ hv]

/-- After the first variable has been bound the symbol still names `let`. -/
theorem NamesLet.pushed (hlet : NamesLet lisp op (spec :: specs) a s) {v : Value} {s' : State}
    (hv : Concludes (fun depth => SpecialForm.initial lisp (evaluate lisp depth) spec) a s
      (.ok v s')) :
    NamesLet lisp op specs a (s'.pushed ⟨[⟨.symbol spec.var, v⟩]⟩) := by
  intro bound next later t hsplit hrun
  refine hlet (spec :: bound) next later t (by rw [hsplit]; rfl) ?_
  refine (concludes_bind_iff (settles_initial lisp spec) fun v depth => ?_).2
    (.inl ⟨v, s', hv, hrun⟩)
  exact (Extends.refl _).bind fun _ => settles_bindInTurn lisp bound depth

/-- The symbol names `let` in the beginning. -/
theorem NamesLet.here (hlet : NamesLet lisp op (spec :: specs) a s) :
    ∃ k, (s.heap.cellsOf op).function = some (.specialForm k .letParallel) :=
  hlet [] spec specs s rfl ⟨0, rfl, nofun⟩

/-- **What a `let` with one entry does.** -/
theorem evaluate_let_singleton {bindings : Value}
    (hform : form.items? = some (.symbol op :: bindings :: body))
    (hbindings : IsBindingList lisp bindings [spec])
    (hop : ∃ k, (s.heap.cellsOf op).function = some (.specialForm k .letParallel)) (depth : Nat) :
    evaluate lisp (depth + 1) form a s =
      bindAround lisp (evaluate lisp depth) spec
        (SpecialForm.body lisp (evaluate lisp depth) body) a s := by
  obtain ⟨k, hk⟩ := hop
  obtain ⟨h, env⟩ := s
  rw [evaluate_specialForm hform hk (arity_check_atLeast_one _ _), run_letParallel hbindings,
    bindParallel_singleton]

/-- **Nested `let` forms bind their variables one after the other**, each inside of the one
before. -/
theorem NestedLets.concludes_iff (hn : NestedLets lisp op body specs form)
    (hlet : NamesLet lisp op specs a s) :
    Concludes (fun depth => bindSequential lisp (evaluate lisp depth) specs body) a s out ↔
      Concludes (fun depth => evaluate lisp depth form) a s out := by
  induction hn generalizing s out with
  | @innermost form bindings spec hform hbindings =>
      rw [← concludes_succ_iff (settles_evaluate lisp form)]
      refine concludes_congr fun depth => ?_
      rw [bindSequential_cons, bindSequential_nil,
        evaluate_let_singleton hform hbindings hlet.here]
  | @around form bindings inner spec specs hform hbindings _ ih =>
      calc Concludes (fun depth => bindSequential lisp (evaluate lisp depth) (spec :: specs) body)
            a s out
          ↔ Concludes (fun depth => bindAround lisp (evaluate lisp depth) spec
              (bindSequential lisp (evaluate lisp depth) specs body)) a s out :=
            concludes_congr fun depth => by rw [bindSequential_cons]
        _ ↔ Concludes (fun depth => bindAround lisp (evaluate lisp depth) spec
              (evaluate lisp depth inner)) a s out :=
            concludes_bindAround_congr (settles_bindSequential lisp specs body)
              (settles_evaluate lisp inner) fun v s' out hv => ih (hlet.pushed hv)
        _ ↔ Concludes (fun depth => evaluate lisp (depth + 1) form) a s out :=
            concludes_congr fun depth => by
              rw [evaluate_let_singleton hform hbindings hlet.here, body_singleton]
        _ ↔ Concludes (fun depth => evaluate lisp depth form) a s out :=
            concludes_succ_iff (settles_evaluate lisp form)

/-- **What a `let*` does**: it binds its variables in turn, in one scope. -/
theorem evaluate_letStar {star : Symbol} {bindings : Value}
    (hform : form.items? = some (.symbol star :: bindings :: body))
    (hbindings : IsBindingList lisp bindings specs)
    (hstar : ∃ k, (s.heap.cellsOf star).function = some (.specialForm k .letSequential))
    (depth : Nat) :
    evaluate lisp (depth + 1) form a s =
      bindSequential lisp (evaluate lisp depth) specs body a s := by
  obtain ⟨k, hk⟩ := hstar
  obtain ⟨h, env⟩ := s
  rw [evaluate_specialForm hform hk (arity_check_atLeast_one _ _), run_letSequential hbindings]
  rfl

end

/-! ## The same outcome -/

/-- **`let*` is nested `let`.** In every state and environment the two forms have the same outcome:
neither ends, or both have the same value, or both fail with the same error, and they leave the same
state. All that is asked is that `let*` and `let` still name the special forms when they are looked
up. Both forms are evaluated while the same things are held; where no other package has been made,
nothing can be seen of what is held. -/
theorem let_star_is_nested_let {lisp : Interpreter} {star op : Symbol} {body : List Value}
    {specs : List BindingSpec} {form bindings nested : Value}
    (hform : form.items? = some (.symbol star :: bindings :: body))
    (hbindings : IsBindingList lisp bindings specs)
    (hnested : NestedLets lisp op body specs nested) {a : Anchors} {s : State}
    (hstar : ∃ k, (s.heap.cellsOf star).function = some (.specialForm k .letSequential))
    (hlet : NamesLet lisp op specs a s) :
    (∀ out, Yields lisp form a s out ↔ Yields lisp nested a s out) ∧
      (lisp.Alone s.heap → ∀ b out, Yields lisp form a s out ↔ Yields lisp nested b s out) := by
  have hsame : ∀ out, Yields lisp form a s out ↔ Yields lisp nested a s out := by
    intro out
    rw [yields_iff_concludes, yields_iff_concludes, ← hnested.concludes_iff hlet,
      ← concludes_succ_iff (settles_evaluate lisp form)]
    exact concludes_congr fun depth => evaluate_letStar hform hbindings hstar depth
  refine ⟨hsame, fun halone b out => (hsame out).trans ?_⟩
  have hheld : ∀ depth, evaluate lisp depth nested a s = evaluate lisp depth nested b s :=
    fun depth => (built_evaluate depth nested).indifferent a b halone
  simp only [Yields, hheld]

/-- A session with a `let*` whose second variable shadows the first one and is a closure that has
captured it, and with nested `let` forms that have been put together from its parts. -/
def shadowingSession : Session :=
  let s := Session.start.after 9
    ⟨.evalText "(setq c '(let* ((x 1) (x (lambda () x))) (funcall x)))", some "form"⟩
  let s := s.after 9 ⟨.evalText "(setq b (car (cdr c)))", none⟩
  s.after 9
    ⟨.evalText "(list 'let (list (car b)) (cons 'let (cons (cdr b) (cdr (cdr c)))))", some "nested"⟩

/-- The closure has the first variable as its value, in both ways. -/
theorem let_star_is_nested_let_shadowed :
    let s := shadowingSession
    ∃ out, (valueOf out).map Value.text = ["1"] ∧
      Yields s.lisp (s.slot "form") .none ⟨s.heap, []⟩ out ∧
      Yields s.lisp (s.slot "nested") .none ⟨s.heap, []⟩ out := by
  intro s
  set made := (s.lisp, s.heap)
  set form := s.slot "form"
  set nested := s.slot "nested"
  set elements := fun v : Value => v.items?.getD []
  set bindings := (elements form).getD 1 form
  set body := (elements form).getLastD form
  set first := (elements bindings).headD form
  set second := (elements bindings).getLastD form
  set one : Value := .number ((elements first).getLastD form).id (.integer 1)
  set lambda := (elements second).getLastD form
  set outer := (elements nested).getD 1 form
  set inner := (elements nested).getLastD form
  set tail := (elements inner).getD 1 form
  set x := symbolNamed made "x"
  have hfacts : form.items? = some [.symbol (symbolNamed made "let*"), bindings, body] ∧
      bindings.items? = some [first, second] ∧ first.items? = some [.symbol x, one] ∧
      second.items? = some [.symbol x, lambda] ∧
      nested.items? = some [.symbol (symbolNamed made "let"), outer, inner] ∧
      outer.items? = some [first] ∧
      inner.items? = some [.symbol (symbolNamed made "let"), tail, body] ∧
      tail.items? = some [second] ∧ s.lisp.isConstant (.symbol x) = false ∧
      (s.heap.cellsOf (symbolNamed made "let*")).function =
        some (.specialForm (functionId made "let*") .letSequential) ∧
      (s.heap.cellsOf (symbolNamed made "let")).function =
        some (.specialForm (functionId made "let") .letParallel) ∧
      (valueOf (evaluate s.lisp 4 form .none ⟨s.heap, []⟩)).map Value.text = ["1"] := by
    decide +kernel
  obtain ⟨hform, hbindings, hfirst, hsecond, hnested, houter, hinner, htail, hconstant, hstar, hlet,
    hvalue⟩ := hfacts
  have hx : s.lisp.Bindable x := isConstant_eq_false_iff.1 hconstant
  set spec₁ : BindingSpec := ⟨x, some one⟩
  set spec₂ : BindingSpec := ⟨x, some lambda⟩
  have hspec₁ : IsBinding s.lisp first spec₁ := .given hfirst hx
  have hspec₂ : IsBinding s.lisp second spec₂ := .given hsecond hx
  have hlets : NestedLets s.lisp (symbolNamed made "let") [body] [spec₁, spec₂] nested :=
    .around hnested ⟨_, houter, .cons hspec₁ .nil⟩
      (.innermost hinner ⟨_, htail, .cons hspec₂ .nil⟩)
  have hnames : NamesLet s.lisp (symbolNamed made "let") [spec₁, spec₂] .none ⟨s.heap, []⟩ := by
    rintro bound spec later s' hsplit ⟨depth, hrun, _⟩
    rcases bound with _ | ⟨b, _ | ⟨b', bound⟩⟩
    · cases hrun
      exact ⟨_, hlet⟩
    · -- the value of the first variable is a number, so it changes nothing
      obtain rfl : b = spec₁ := (List.cons.inj hsplit).1.symm
      cases depth with
      | zero => cases hrun
      | succ depth =>
          cases hrun
          exact ⟨_, hlet⟩
    · simp at hsplit
  have hsame := (let_star_is_nested_let hform ⟨_, hbindings, .cons hspec₁ (.cons hspec₂ .nil)⟩ hlets
    ⟨_, hstar⟩ hnames).1
  have hyields : Yields s.lisp form .none ⟨s.heap, []⟩
      (evaluate s.lisp 4 form .none ⟨s.heap, []⟩) :=
    yields_of_value (by rw [hvalue]; exact List.cons_ne_nil _ _)
  exact ⟨_, hvalue, hyields, (hsame _).1 hyields⟩

end SmallLisp
