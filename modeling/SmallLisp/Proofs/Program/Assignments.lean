import SmallLisp.Proofs.Eval.Frames
import SmallLisp.Proofs.Eval.Holding
import SmallLisp.Proofs.Heap.Sharing
import SmallLisp.Proofs.Program.Calls

set_option autoImplicit false

/-! # `setq` with many pairs

`(setq x₁ e₁ … xₙ eₙ)` assigns its variables one after the other, as `(setq x₁ e₁)` to
`(setq xₙ eₙ)` do, and stops at the first pair that fails. A target is checked before its form is
evaluated, and its place is looked up after that. So what has been assigned before a failure stays
assigned, and nothing is assigned by the pair that fails or by a later one.

A `setq` holds the value of each pair until the next one is there, which single ones do not. This
can only be seen where other packages have been made.
-/

namespace SmallLisp

open Eval

/-! ## One assignment -/

/-- **A variable has been assigned**: in the innermost frame that binds it, and then all cells are
what they were, or else its global value, and then all frames are. -/
inductive Assigned (x : Symbol) (v : Value) (s : State) : State → Prop
  | lexical {id : FrameId} (hid : s.heap.Innermost s.env x.id id) :
      Assigned x v s ⟨{ s.heap with frames := s.heap.frames.modify id (·.assign x.id v) }, s.env⟩
  | global (hnone : s.heap.lookup s.env x.id = none) :
      Assigned x v s ⟨s.heap.setValue x v, s.env⟩

section

variable {lisp : Interpreter} {x : Symbol} {v : Value} {s s' : State}

/-- An assignment always succeeds. -/
theorem exists_assigned (x : Symbol) (v : Value) (a : Anchors) (s : State) :
    ∃ s', assign x v a s = .ok () s' ∧ Assigned x v s s' := by
  cases hlookup : s.heap.lookup s.env x.id with
  | some old =>
      obtain ⟨id, hid⟩ := Heap.isSome_lookup_iff.1 (Option.isSome_of_eq_some hlookup)
      refine ⟨_, ?_, .lexical hid⟩
      simp only [assign, Heap.assign?_eq_some hid]
  | none =>
      have hfails : s.heap.assign? s.env x.id v = none := by
        rw [← Option.not_isSome_iff_eq_none, Heap.isSome_assign?_iff, hlookup]
        simp
      refine ⟨_, ?_, .global hlookup⟩
      simp only [assign, hfails]

/-- **A variable that has been assigned evaluates to its value.** -/
theorem Assigned.evaluate_symbol (hs : Assigned x v s s') (depth : Nat) (a : Anchors) :
    evaluate lisp (depth + 1) (.symbol x) a s' = .ok v s' := by
  cases hs with
  | lexical hid =>
      refine Interpreter.evaluate_lexical ?_ depth a
      exact Heap.lookup_modify_same v hid
  | global hnone =>
      refine Interpreter.evaluate_global ?_ ?_ depth a
      · exact hnone
      · rw [Heap.cellsOf_setValue, if_pos rfl]

end

/-! ## One pair -/

section

variable {lisp : Interpreter} {ev : Value → Eval Value} {target form : Value} {x : Symbol}
  {e : EvalError} {a : Anchors} {s s' : State} {v : Value}

theorem run_setq {args : List Value} (heven : args.length % 2 = 0) :
    SpecialForm.setq.run lisp ev args = SpecialForm.assignPairs lisp ev lisp.nilValue args :=
  if_pos heven

/-- **What a pair does**: the target is checked, the form is evaluated, and its value is
assigned. -/
theorem setq_pair (hev : ∀ form, Built lisp (ev form)) (target form : Value) :
    SpecialForm.setq.run lisp ev [target, form] = (do
      let x ← ofExcept (expectVariable lisp "setq" target)
      let v ← ev form
      assign x v
      pure v) := by
  rw [run_setq (by simp), SpecialForm.assignPairs, holding_nil (hev form)]
  rfl

theorem setq_fault (hev : ∀ form, Built lisp (ev form))
    (htarget : VariableFault lisp "setq" target e) :
    SpecialForm.setq.run lisp ev [target, form] a s = .error (.error e) s := by
  rw [setq_pair hev, expectVariable_of_fault htarget]
  rfl

theorem setq_bindable (hev : ∀ form, Built lisp (ev form)) (hx : lisp.Bindable x) :
    SpecialForm.setq.run lisp ev [.symbol x, form] = (do
      let v ← ev form
      assign x v
      pure v) := by
  rw [setq_pair hev, expectVariable_of_bindable hx]
  rfl

/-- **A pair succeeds** only if its target is a variable and its form has a value, which is then
assigned. -/
theorem exists_of_setq_ok (hev : ∀ form, Built lisp (ev form))
    (hrun : SpecialForm.setq.run lisp ev [target, form] a s = .ok v s') :
    ∃ x s₁, target = .symbol x ∧ lisp.Bindable x ∧ ev form a s = .ok v s₁ ∧
      Assigned x v s₁ s' := by
  rcases bindable_or_fault lisp "setq" target with ⟨x, rfl, hx⟩ | ⟨e, he⟩
  · rw [setq_bindable hev hx] at hrun
    obtain ⟨u, s₁, hform, hrest⟩ := bind_eq_ok_iff.1 hrun
    obtain ⟨_, s₂, hassign, hpure⟩ := bind_eq_ok_iff.1 hrest
    obtain ⟨t, ht, hassigned⟩ := exists_assigned x u a s₁
    cases hpure
    cases ht.symm.trans hassign
    exact ⟨x, s₁, rfl, hx, hform, hassigned⟩
  · cases (setq_fault hev he).symm.trans hrun

/-- **A pair fails** if its target is no variable, before its form is evaluated, or if its form
fails. -/
theorem setq_eq_error_iff (hev : ∀ form, Built lisp (ev form)) {stop : Stop} :
    SpecialForm.setq.run lisp ev [target, form] a s = .error stop s' ↔
      (∃ e, VariableFault lisp "setq" target e ∧ stop = .error e ∧ s' = s) ∨
        ∃ x, target = .symbol x ∧ lisp.Bindable x ∧ ev form a s = .error stop s' := by
  -- an assignment never fails
  have hassigns : ∀ {x : Symbol} {v : Value} {t : State},
      (assign x v >>= fun _ => pure v) a t ≠ .error stop s' := by
    intro x v t hstop
    obtain ⟨t', ht, _⟩ := exists_assigned x v a t
    rcases bind_eq_error_iff.1 hstop with hassign | ⟨_, _, _, hpure⟩
    · cases ht.symm.trans hassign
    · cases hpure
  constructor
  · intro hrun
    rcases bindable_or_fault lisp "setq" target with ⟨x, rfl, hx⟩ | ⟨e, he⟩
    · rw [setq_bindable hev hx] at hrun
      rcases bind_eq_error_iff.1 hrun with hform | ⟨v, t, _, hrest⟩
      · exact .inr ⟨x, rfl, hx, hform⟩
      · exact absurd hrest hassigns
    · cases (setq_fault hev he).symm.trans hrun
      exact .inl ⟨e, he, rfl, rfl⟩
  · rintro (⟨e, he, rfl, rfl⟩ | ⟨x, rfl, hx, hform⟩)
    · exact setq_fault hev he
    · rw [setq_bindable hev hx]
      exact bind_eq_error_iff.2 (.inl hform)

end

/-! ## Many pairs -/

/-- The operands of a `setq` with some targets and forms. -/
def operands (pairs : List (Value × Value)) : List Value := pairs.flatMap fun p => [p.1, p.2]

theorem even_length_operands (pairs : List (Value × Value)) :
    (operands pairs).length % 2 = 0 := by
  have hlength : (operands pairs).length = 2 * pairs.length := by
    simp [operands, List.length_flatMap, Nat.mul_comm]
  omega

section

variable {lisp : Interpreter} {ev : Value → Eval Value}

/-- **Many pairs are single pairs**, each run while the value of the one before is held. -/
theorem setq_operands (hev : ∀ form, Built lisp (ev form)) (pairs : List (Value × Value)) :
    SpecialForm.setq.run lisp ev (operands pairs) =
      pairs.foldlM (fun last p => holding [last] (SpecialForm.setq.run lisp ev [p.1, p.2]))
        lisp.nilValue := by
  rw [run_setq (even_length_operands pairs)]
  generalize lisp.nilValue = last
  induction pairs generalizing last with
  | nil => rfl
  | cons p pairs ih =>
      obtain ⟨target, form⟩ := p
      have hcons : operands ((target, form) :: pairs) = target :: form :: operands pairs := rfl
      -- only the form sees what is held
      have hheld : holding [last] (SpecialForm.setq.run lisp ev [target, form]) = (do
          let x ← ofExcept (expectVariable lisp "setq" target)
          let v ← holding [last] (ev form)
          assign x v
          pure v) := by
        rw [setq_pair hev]
        cases expectVariable lisp "setq" target <;> rfl
      rw [hcons, SpecialForm.assignPairs, List.foldlM_cons, hheld]
      simp only [bind_assoc, pure_bind, ih]

/-- **The last pair**: it is run after all others, while their value is held. -/
theorem exists_of_setq_append_ok (hev : ∀ form, Built lisp (ev form))
    {done : List (Value × Value)} {target form v : Value} {a : Anchors} {s s' : State}
    (hrun : SpecialForm.setq.run lisp ev (operands (done ++ [(target, form)])) a s = .ok v s') :
    ∃ x u s₁ s₂, target = .symbol x ∧ lisp.Bindable x ∧
      SpecialForm.setq.run lisp ev (operands done) a s = .ok u s₁ ∧
      ev form (a.hold [u]) s₁ = .ok v s₂ ∧ Assigned x v s₂ s' := by
  have hlast : SpecialForm.setq.run lisp ev (operands (done ++ [(target, form)])) =
      SpecialForm.setq.run lisp ev (operands done) >>= fun u =>
        holding [u] (SpecialForm.setq.run lisp ev [target, form]) := by
    simp only [setq_operands hev, List.foldlM_append, List.foldlM_cons, List.foldlM_nil, bind_pure]
  rw [hlast] at hrun
  obtain ⟨u, s₁, hdone, hpair⟩ := bind_eq_ok_iff.1 hrun
  obtain ⟨x, s₂, htarget, hx, hform, hassigned⟩ := exists_of_setq_ok hev hpair
  exact ⟨x, u, s₁, s₂, htarget, hx, hdone, hform, hassigned⟩

/-- Where an interpreter is alone, nothing can be seen of the values that are held. -/
theorem foldlM_holding_alone {α : Type} {step : α → Eval Value} (hstep : ∀ x, Built lisp (step x))
    (xs : List α) (last : Value) (a b : Anchors) {s : State} (halone : lisp.Alone s.heap) :
    xs.foldlM (fun last x => holding [last] (step x)) last a s =
      xs.foldlM (fun _ x => step x) last b s := by
  induction xs generalizing last s with
  | nil => rfl
  | cons x xs ih =>
      rw [List.foldlM_cons, List.foldlM_cons]
      show EStateM.bind (step x (a.hold [last])) _ s = EStateM.bind (step x b) _ s
      have hchanges := (hstep x).changes b s
      rw [EStateM.bind, EStateM.bind, (hstep x).indifferent (a.hold [last]) b halone]
      cases hrun : step x b s with
      | ok v s' =>
          rw [hrun] at hchanges
          exact ih v (halone.of_changes hchanges)
      | error e s' => rfl

end

/-! ## Assignments in turn -/

/-- **`setq` assigns in turn.** With many pairs it does what single pairs do one after the other,
each while the value of the one before is held; where no other package has been made, nothing can be
seen of what is held. It fails exactly if a pair fails after those before it have been assigned: its
target is no variable, and then the state is what they have left, or its form fails, and then the
state is what the form has left. If it succeeds, the last variable has been assigned in its lexical
place or globally, not in both, and evaluates to the value of the `setq`. An odd number of operands
is refused before anything is evaluated. -/
theorem setq_assigns_in_turn (lisp : Interpreter) (depth : Nat) (pairs : List (Value × Value))
    (a : Anchors) (s : State) :
    let setq := SpecialForm.setq.run lisp (evaluate lisp depth)
    (setq (operands pairs) =
      pairs.foldlM (fun last p => holding [last] (setq [p.1, p.2])) lisp.nilValue) ∧
    (lisp.Alone s.heap → ∀ b, setq (operands pairs) a s =
      pairs.foldlM (fun _ p => setq [p.1, p.2]) lisp.nilValue b s) ∧
    (∀ stop s', setq (operands pairs) a s = .error stop s' ↔ ∃ done target form later u s₁,
      pairs = done ++ (target, form) :: later ∧ setq (operands done) a s = .ok u s₁ ∧
      ((∃ e, VariableFault lisp "setq" target e ∧ stop = .error e ∧ s' = s₁) ∨
        ∃ x, target = .symbol x ∧ lisp.Bindable x ∧
          evaluate lisp depth form (a.hold [u]) s₁ = .error stop s')) ∧
    (∀ v s', setq (operands pairs) a s = .ok v s' → s'.env = s.env ∧
      ∀ done target form, pairs = done ++ [(target, form)] → ∃ x u s₁ s₂,
        target = .symbol x ∧ lisp.Bindable x ∧ setq (operands done) a s = .ok u s₁ ∧
        evaluate lisp depth form (a.hold [u]) s₁ = .ok v s₂ ∧ Assigned x v s₂ s' ∧
        ∀ n b, evaluate lisp (n + 1) target b s' = .ok v s') ∧
    ∀ args, args.length % 2 = 1 →
      SpecialForm.setq.Refuses lisp args (.malformed (.operands .setq)) := by
  intro setq
  have hev : ∀ form, Built lisp (evaluate lisp depth form) := built_evaluate depth
  have hturn : ∀ pairs, setq (operands pairs) =
      pairs.foldlM (fun last p => holding [last] (setq [p.1, p.2])) lisp.nilValue :=
    setq_operands hev
  refine ⟨hturn pairs, fun halone b => ?_, fun stop s' => ?_, fun v s' hrun => ⟨?_, ?_⟩,
    fun args hodd ev a s => ?_⟩
  · rw [hturn]
    exact foldlM_holding_alone (fun p => built_specialForm hev .setq [p.1, p.2]) pairs _ a b halone
  · rw [hturn, foldlM_eq_error_iff]
    simp only [← hturn]
    constructor
    · rintro ⟨done, ⟨target, form⟩, later, u, s₁, hsplit, hdone, hfails⟩
      exact ⟨done, target, form, later, u, s₁, hsplit, hdone, (setq_eq_error_iff hev).1 hfails⟩
    · rintro ⟨done, target, form, later, u, s₁, hsplit, hdone, hfails⟩
      exact ⟨done, (target, form), later, u, s₁, hsplit, hdone, (setq_eq_error_iff hev).2 hfails⟩
  · have henv : (left (setq (operands pairs) a s)).env = s.env :=
      (keepsShape_specialForm lisp depth .setq (operands pairs)).releases a s
    rw [hrun] at henv
    exact henv
  · rintro done target form rfl
    obtain ⟨x, u, s₁, s₂, rfl, hx, hdone, hform, hassigned⟩ := exists_of_setq_append_ok hev hrun
    exact ⟨x, u, s₁, s₂, rfl, hx, hdone, hform, hassigned, hassigned.evaluate_symbol⟩
  · simp only [SpecialForm.run, hodd]
    rfl

/-- The targets and forms that are listed in a text, and the heap in which they have been read. -/
def readPairs (made : Interpreter × Heap) (text : String) : List (Value × Value) × Heap :=
  let reading := (Reader.ofSource text.toList).read made.1 made.2
  let elements := fun v : Value => v.items?.getD []
  let listed := elements (reading.result.toOption.getD made.1.nilValue)
  (listed.map fun pair => ((elements pair).headD pair, (elements pair).getLastD pair), reading.heap)

/-- The second of two pairs has a constant as its target. The first one has been assigned, and the
form of the second one has not been evaluated. -/
theorem setq_assigns_in_turn_constant :
    let made := Interpreter.fresh Heap.empty
    let read := readPairs made "((x 1) (t (setq y 2)))"
    let setq := SpecialForm.setq.run made.1 (evaluate made.1 3) (operands read.1) .none
    setq ⟨read.2, []⟩ = read.1.foldlM (fun _ p =>
        SpecialForm.setq.run made.1 (evaluate made.1 3) [p.1, p.2]) made.1.nilValue .none
          ⟨read.2, []⟩ ∧
      ∃ s, setq ⟨read.2, []⟩ = .error (.error (.malformed (.constant "setq" made.1.trueValue))) s ∧
        (s.heap.cellsOf (symbolNamed (made.1, read.2) "x")).value.map Value.text = some "1" ∧
        (s.heap.cellsOf (symbolNamed (made.1, read.2) "y")).value = none := by
  intro made read setq
  have hturn := setq_assigns_in_turn made.1 3 read.1 .none ⟨read.2, []⟩
  have hchanges : Heap.Changes made.2 read.2 := Reader.changes_read _ made.1 made.2
  have halone : made.1.Alone read.2 :=
    Interpreter.Solitary.alone ⟨rfl, hchanges⟩
  refine ⟨hturn.2.1 halone .none, ?_⟩
  set nil := made.1.nilValue
  set first := read.1.headD (nil, nil)
  set form := (read.1.getLastD (nil, nil)).2
  set out := SpecialForm.setq.run made.1 (evaluate made.1 3) (operands [first]) .none ⟨read.2, []⟩
    with hout
  have hfacts : read.1 = [first, (made.1.trueValue, form)] ∧ (valueOf out).map Value.text = ["1"] ∧
      ((left out).heap.cellsOf (symbolNamed (made.1, read.2) "x")).value.map Value.text =
        some "1" ∧
      ((left out).heap.cellsOf (symbolNamed (made.1, read.2) "y")).value = none := by
    decide +kernel
  obtain ⟨hpairs, hvalue, hx, hy⟩ := hfacts
  have htrue : ¬ made.1.Bindable made.1.t := fun hbindable => hbindable.notTrue rfl
  cases hrun : out with
  | ok u s =>
      rw [hrun] at hx hy
      refine ⟨s, (hturn.2.2.1 _ s).2 ?_, hx, hy⟩
      exact ⟨[first], made.1.trueValue, form, [], u, s, hpairs, hout.symm.trans hrun,
        .inl ⟨_, .constant htrue, rfl, rfl⟩⟩
  | error stop s =>
      rw [hrun] at hvalue
      cases hvalue

/-! ## Where the last value shows -/

/-- Two pairs in a state in which nothing but the variable `p` keeps the package of the symbol `y`
alive. The first one gives `p` its own value, which is the package. The second one takes it out of
`p` and asks for the package of the symbol. -/
def lastingPairs : List (Value × Value) × Heap :=
  readPairs lendingState "((p p) (r (if (setq p nil) nil (symbol-package y))))"

/-- **Many pairs are not always run like single ones** where another package has been made. The
value of the first pair is all that keeps the package alive, and it is held until the second value
is there, but not if the pairs are run one by one. -/
theorem setq_shows_last_value :
    ¬ ∀ (lisp : Interpreter) (depth : Nat) (pairs : List (Value × Value)) (a : Anchors) (s : State),
      lisp.Reachable s.heap → SpecialForm.setq.run lisp (evaluate lisp depth) (operands pairs) a s =
        pairs.foldlM (fun _ p => SpecialForm.setq.run lisp (evaluate lisp depth) [p.1, p.2])
          lisp.nilValue a s := by
  intro hall
  have hreachable : lendingState.1.Reachable lastingPairs.2 :=
    reachable_lendingState.of_changes (Reader.changes_read _ _ _)
  have hsame := hall lendingState.1 5 lastingPairs.1 .none ⟨lastingPairs.2, []⟩ hreachable
  have hvalues :
      (valueOf (SpecialForm.setq.run lendingState.1 (evaluate lendingState.1 5)
        (operands lastingPairs.1) .none ⟨lastingPairs.2, []⟩)).map Value.text =
          ["#<package OTHER>"] ∧
      (valueOf (lastingPairs.1.foldlM (fun _ p =>
        SpecialForm.setq.run lendingState.1 (evaluate lendingState.1 5) [p.1, p.2])
          lendingState.1.nilValue .none ⟨lastingPairs.2, []⟩)).map Value.text = ["nil"] := by
    decide +kernel
  obtain ⟨hmany, hsingle⟩ := hvalues
  rw [hsame, hsingle] at hmany
  exact absurd hmany (by decide)

end SmallLisp
