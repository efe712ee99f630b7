import Mathlib.Tactic.Common
import SmallLisp.Proofs.Eval.Depth
import SmallLisp.Proofs.Interpreter.Reachable

set_option autoImplicit false

/-! # Parameters and arguments

A closure that is called gives each argument to one parameter. The first arguments go to the
required parameters in order, and those left over make up a list for the rest parameter, so none is
lost between the two and none is used twice (`Closure.Binds`). A variable that occurs several times
among the parameters has the value of its first occurrence.

The body runs in a new frame on top of the frames that the closure was made in. If the number of
arguments is wrong, nothing happens at all.
-/

namespace SmallLisp

open Eval

/-! ## Variables of the frame -/

/-- The bindings of parameters to arguments, as far as there are both. -/
def pairing (params : List Symbol) (args : List Value) : List Binding :=
  List.zipWith (fun s v => ⟨.symbol s, v⟩) params args

section

variable {params : List Symbol} {args : List Value} {more : List Binding} {key : ObjectId}

/-- Of two bindings for one variable only the first is seen. -/
theorem Frame.lookup_cons (b : Binding) (bs : List Binding) :
    Frame.lookup ⟨b :: bs⟩ key = if b.key = key then some b.value else Frame.lookup ⟨bs⟩ key := by
  unfold Frame.lookup
  by_cases hb : b.key = key
  · rw [List.find?_cons, beq_iff_eq.2 hb, if_pos hb]
    rfl
  · rw [List.find?_cons, beq_false_of_ne hb, if_neg hb]

theorem lookup_pairing_cons (p : Symbol) (v : Value) :
    Frame.lookup ⟨pairing (p :: params) (v :: args) ++ more⟩ key =
      if p.id = key then some v else Frame.lookup ⟨pairing params args ++ more⟩ key :=
  Frame.lookup_cons ⟨.symbol p, v⟩ (pairing params args ++ more)

/-- **A parameter has the argument of its first occurrence.** -/
theorem lookup_pairing {i : Nat} {p : Symbol} {v : Value} (hp : params[i]? = some p)
    (hv : args[i]? = some v) (hfirst : ∀ j < i, ∀ q, params[j]? = some q → q.id ≠ p.id) :
    Frame.lookup ⟨pairing params args ++ more⟩ p.id = some v := by
  induction i generalizing params args with
  | zero =>
      rcases params with _ | ⟨q, params⟩ <;> rcases args with _ | ⟨u, args⟩
      all_goals cases hp
      all_goals cases hv
      rw [lookup_pairing_cons, if_pos rfl]
  | succ i ih =>
      rcases params with _ | ⟨q, params⟩
      · cases hp
      · rcases args with _ | ⟨u, args⟩
        · cases hv
        · have hq : q.id ≠ p.id := hfirst 0 (Nat.succ_pos i) q rfl
          rw [lookup_pairing_cons, if_neg hq]
          exact ih hp hv fun j hj r hr => hfirst (j + 1) (Nat.succ_lt_succ hj) r hr

/-- A variable that is no parameter is looked up behind the parameters. -/
theorem lookup_pairing_other (hother : ∀ q ∈ params, q.id ≠ key) :
    Frame.lookup ⟨pairing params args ++ more⟩ key = Frame.lookup ⟨more⟩ key := by
  induction params generalizing args with
  | nil => rfl
  | cons q params ih =>
      obtain ⟨hq, hparams⟩ := List.forall_mem_cons.1 hother
      cases args with
      | nil => rfl
      | cons u args => rw [lookup_pairing_cons, if_neg hq, ih hparams]

theorem objects_pairing (hlength : params.length ≤ args.length) :
    (pairing params args).map Binding.object = params.map .symbol := by
  induction params generalizing args with
  | nil => rfl
  | cons p params ih =>
      cases args with
      | nil => exact absurd hlength (Nat.not_succ_le_zero _)
      | cons v args =>
          show Value.symbol p :: (pairing params args).map Binding.object = _
          rw [ih (Nat.le_of_succ_le_succ hlength)]
          rfl

theorem values_pairing (params : List Symbol) (args : List Value) :
    (pairing params args).map Binding.value = args.take params.length := by
  induction params generalizing args with
  | nil => rfl
  | cons p params ih =>
      cases args with
      | nil => rfl
      | cons v args =>
          show v :: (pairing params args).map Binding.value = _
          rw [ih]
          rfl

end

namespace Closure

/-! ## Numbers of arguments -/

/-- **A wrong number of arguments**: there are too few, or more than the parameters and no rest
parameter to take them. -/
def Miscounts (code : Closure) (args : List Value) : Prop :=
  args.length < code.params.length ∨ code.params.length < args.length ∧ code.rest = none

variable {lisp : Interpreter} {code : Closure} {args : List Value}

theorem accepts_arity_iff : code.arity.accepts args.length = true ↔ ¬ code.Miscounts args := by
  unfold Arity.accepts Closure.arity Miscounts
  cases code.rest with
  | none =>
      simp only [Option.isSome_none, Bool.false_eq_true, if_false, decide_eq_true_eq, and_true]
      omega
  | some r =>
      simp only [Option.isSome_some, if_true, decide_eq_true_eq, reduceCtorEq, and_false, or_false]
      omega

/-! ## The frame of a call -/

/-- **What a call binds**: each parameter to one argument, and the rest parameter to a list of all
others. -/
structure Binds (lisp : Interpreter) (code : Closure) (args : List Value) (frame : Frame)
    (surplus : Value) : Prop where
  /-- The frame has the parameters, in order, and nothing else. -/
  objects : frame.bindings.map Binding.object = (code.params ++ code.rest.toList).map .symbol
  values : frame.bindings.map Binding.value =
    args.take code.params.length ++ code.rest.toList.map fun _ => surplus
  /-- What is left over is a proper list of the later arguments themselves. -/
  surplus_items : surplus.items? = some (args.drop code.params.length)
  surplus_nil : args.length = code.params.length → surplus = lisp.nilValue
  /-- The first occurrence of a parameter wins, also over the rest parameter. -/
  lookup_param : ∀ (i : Nat) (p : Symbol) (v : Value), code.params[i]? = some p →
    args[i]? = some v → (∀ j < i, ∀ q, code.params[j]? = some q → q.id ≠ p.id) →
    frame.lookup p.id = some v
  lookup_rest : ∀ r, code.rest = some r → (∀ q ∈ code.params, q.id ≠ r.id) →
    frame.lookup r.id = some surplus

/-- The frame of a call. -/
def frame (code : Closure) (args : List Value) (surplus : Value) : Frame :=
  ⟨pairing code.params args ++ code.rest.toList.map fun r => ⟨.symbol r, surplus⟩⟩

theorem binds_frame {surplus : Value} (hlength : code.params.length ≤ args.length)
    (hitems : surplus.items? = some (args.drop code.params.length))
    (hnil : args.length = code.params.length → surplus = lisp.nilValue) :
    Binds lisp code args (code.frame args surplus) surplus where
  objects := by
    rw [frame, List.map_append, objects_pairing hlength, List.map_append, List.map_map]
    rfl
  values := by
    rw [frame, List.map_append, values_pairing, List.map_map]
    rfl
  surplus_items := hitems
  surplus_nil := hnil
  lookup_param := fun _ _ _ hp hv hfirst => lookup_pairing hp hv hfirst
  lookup_rest := fun r hr hother => by
    rw [frame, lookup_pairing_other hother, hr]
    exact (Frame.lookup_cons _ _).trans (if_pos rfl)

end Closure

/-! ## Calls -/

namespace Eval

/-- A computation that comes back to an environment. -/
def returned {α : Type} (env : Environment) :
    EStateM.Result Stop State α → EStateM.Result Stop State α
  | .ok v s => .ok v { s with env := env }
  | .error e s => .error e { s with env := env }

variable {lisp : Interpreter} {ev : Value → Eval Value} {code : Closure} {args : List Value}
  {a : Anchors} {s : State}

theorem inEnvironment_eq {α : Type} (env : Environment) (x : Eval α) :
    inEnvironment env x a s = returned s.env (x (a.stay s.env) { s with env := env }) := by
  unfold inEnvironment
  cases x (a.stay s.env) { s with env := env } <;> rfl

/-- It makes no difference what is taken off an environment that is left anyway. -/
theorem returned_released {α : Type} (env : Environment) (depth : Nat)
    (out : EStateM.Result Stop State α) : returned env (released depth out) = returned env out := by
  cases out <;> rfl

/-- A frame is pushed for a body in another environment, and it is left with that environment. -/
theorem inEnvironment_withScope_push {α : Type} (env : Environment) (frame : Frame)
    (body : Eval α) :
    inEnvironment env (withScope do
      push frame
      body) a s =
    returned s.env (body (a.stay s.env)
      ⟨{ s.heap with frames := s.heap.frames.push frame }, s.heap.frames.size :: env⟩) := by
  rw [inEnvironment_eq, withScope_eq, returned_released]
  rfl

/-- **A call with a wrong number of arguments** is refused before anything happens. -/
theorem callClosure_of_miscounts (h : code.Miscounts args) :
    callClosure lisp ev code args a s =
      .error (.error (.wrongArgumentCount code.arity args.length)) s := by
  have hcheck : code.arity.check args.length =
      .error (.wrongArgumentCount code.arity args.length) :=
    if_neg fun haccepts => Closure.accepts_arity_iff.1 haccepts h
  rw [callClosure, hcheck]
  rfl

/-- **A call with a right number of arguments** makes a list of those left over, which is empty if
there is no rest parameter, and then a frame for the body. -/
theorem callClosure_of_not_miscounts (h : ¬ code.Miscounts args) :
    callClosure lisp ev code args = (do
      let surplus ← make (lisp.list · (args.drop code.params.length))
      inEnvironment code.env (withScope do
        push (code.frame args surplus)
        SpecialForm.body lisp ev code.body)) := by
  have hcheck : code.arity.check args.length = .ok () := if_pos (Closure.accepts_arity_iff.2 h)
  rw [callClosure, hcheck]
  cases hrest : code.rest with
  | none =>
      have hdrop : args.drop code.params.length = [] := by
        refine List.drop_eq_nil_of_le (Nat.le_of_not_lt fun hmore => h (.inr ⟨hmore, hrest⟩))
      simp only [hdrop, Closure.frame, hrest]
      rfl
  | some r =>
      simp only [Closure.frame, hrest]
      rfl

/-- Where forms have values, so has a body. -/
theorem body_pure_ne_error (lisp : Interpreter) (forms : List Value) (a : Anchors) (s : State)
    (e : Stop) (s' : State) : SpecialForm.body lisp pure forms a s ≠ .error e s' := by
  unfold SpecialForm.body
  generalize lisp.nilValue = last
  induction forms generalizing last with
  | nil => exact nofun
  | cons form forms ih =>
      rw [List.foldlM_cons]
      exact ih form

end Eval

/-- The state in which the body of a call starts: there is one more frame, in front of those that
the closure was made in, and some identities are taken by a new list. -/
def State.entered (s : State) (env : Environment) (frame : Frame) (conses : Nat) : State :=
  ⟨{ s.heap with next := s.heap.next + conses, frames := s.heap.frames.push frame },
    s.heap.frames.size :: env⟩

theorem State.lookup_entered {s : State} {env : Environment} {frame : Frame} {conses : Nat}
    {key : ObjectId} {v : Value} (h : frame.lookup key = some v) :
    (s.entered env frame conses).heap.lookup (s.entered env frame conses).env key = some v := by
  have hframe : (s.entered env frame conses).heap.frame s.heap.frames.size = frame := by
    simp [entered, Heap.frame]
  show List.findSome? _ (s.heap.frames.size :: env) = _
  rw [List.findSome?_cons, hframe, h]

namespace Eval

/-- **A call runs its body in a state of its own** and comes back. -/
theorem callClosure_run {lisp : Interpreter} {code : Closure} {args : List Value}
    (h : ¬ code.Miscounts args) (ev : Value → Eval Value) (a : Anchors) (s : State) :
    callClosure lisp ev code args a s =
      returned s.env (SpecialForm.body lisp ev code.body (a.stay s.env)
        (s.entered code.env
          (code.frame args (lisp.list s.heap (args.drop code.params.length)).1)
          (args.length - code.params.length))) := by
  rw [callClosure_of_not_miscounts h]
  set left := lisp.list s.heap (args.drop code.params.length) with hleft
  have hheap : left.2 =
      { s.heap with next := s.heap.next + (args.length - code.params.length) } := by
    rw [hleft, Interpreter.list, Heap.listWithTail_heap, List.length_drop]
  show inEnvironment code.env _ a { s with heap := left.2 } = _
  rw [inEnvironment_withScope_push, hheap]
  rfl

end Eval

/-! ## Every argument once -/

/-- **A call gives each argument to one parameter.** It is refused exactly if the number of
arguments is wrong, and then whatever forms mean nothing is evaluated and nothing changes. Otherwise
the body runs in front of the closure's own frames, in a frame that did not exist before: there each
parameter has the argument of its first occurrence, and the rest parameter, unless it is one of the
others, a list of the arguments behind. -/
theorem closure_call_binds_arguments (lisp : Interpreter) (hnil : lisp.nil.isNil = true)
    (code : Closure) (args : List Value) :
    ((∀ ev a s, callClosure lisp ev code args a s =
        .error (.error (.wrongArgumentCount code.arity args.length)) s) ↔ code.Miscounts args) ∧
    (¬ code.Miscounts args → ∀ s, ∃ frame surplus, code.Binds lisp args frame surplus ∧
      let start := s.entered code.env frame (args.length - code.params.length)
      (∀ key v, frame.lookup key = some v → start.heap.lookup start.env key = some v) ∧
      ∀ ev a, callClosure lisp ev code args a s =
        returned s.env (SpecialForm.body lisp ev code.body (a.stay s.env) start)) := by
  refine ⟨⟨fun hrefused => ?_, fun h ev a s => callClosure_of_miscounts h⟩, fun h s => ?_⟩
  · -- a call that is not refused has a value where all forms have one
    by_contra h
    have hrun := hrefused pure .none ⟨Heap.empty, []⟩
    rw [callClosure_run h] at hrun
    cases hbody : SpecialForm.body lisp pure code.body (Anchors.none.stay [])
        (State.entered ⟨Heap.empty, []⟩ code.env
          (code.frame args (lisp.list Heap.empty (args.drop code.params.length)).1)
          (args.length - code.params.length)) with
    | ok v t =>
        rw [hbody] at hrun
        cases hrun
    | error e t => exact body_pure_ne_error lisp code.body _ _ e t hbody
  · have hlength : code.params.length ≤ args.length := Nat.le_of_not_lt fun hfew => h (.inl hfew)
    have hitems : (lisp.list s.heap (args.drop code.params.length)).1.items? =
        some (args.drop code.params.length) := by
      have htail : lisp.nilValue.items? = some [] := if_pos hnil
      rw [Interpreter.list, Heap.items?_listWithTail, htail, Option.map_some, List.append_nil]
    refine ⟨code.frame args _, _, Closure.binds_frame hlength hitems fun heq => ?_,
      fun key v hv => State.lookup_entered hv, fun ev a => callClosure_run h ev a s⟩
    rw [← heq, List.drop_length]
    rfl

/-- A parameter that occurs twice has the first argument, and the rest parameter the list of those
after the second one. -/
theorem closure_call_binds_arguments_twice :
    let lisp := (Interpreter.fresh Heap.empty).1
    let x : Symbol := ⟨101, "x", 100, false, 0⟩
    let more : Symbol := ⟨103, "more", 102, false, 0⟩
    let code : Closure := ⟨[x, x], some more, [.symbol more], []⟩
    let word := fun i => Value.string (200 + i) "word"
    lisp.nil.isNil = true ∧ ¬ code.Miscounts [word 1, word 2, word 3] ∧
      ∃ frame surplus, code.Binds lisp [word 1, word 2, word 3] frame surplus ∧
        frame.lookup x.id = some (word 1) ∧ frame.lookup more.id = some surplus ∧
        surplus.items? = some [word 3] := by
  intro lisp x more code word
  have hcount : ¬ code.Miscounts [word 1, word 2, word 3] := by
    rw [← Closure.accepts_arity_iff]
    decide
  obtain ⟨frame, surplus, hbinds, _⟩ :=
    (closure_call_binds_arguments lisp rfl code [word 1, word 2, word 3]).2 hcount
      ⟨Heap.empty, []⟩
  refine ⟨rfl, hcount, frame, surplus, hbinds, ?_, ?_, hbinds.surplus_items⟩
  · exact hbinds.lookup_param 0 x (word 1) rfl rfl fun j hj => absurd hj (Nat.not_lt_zero j)
  · refine hbinds.lookup_rest more rfl fun q hq => ?_
    obtain rfl : q = x := by simpa [code] using hq
    decide

end SmallLisp
