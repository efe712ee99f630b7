import Mathlib.Tactic.Common
import SmallLisp.Eval.Builtin

set_option autoImplicit false

/-! # Arithmetic is exact or fails

The four operations take their arguments in from left to right. As long as all numbers are integers,
each step is a step of exact arithmetic whose result has to be in range; the first step without such
a result ends the operation (`Arithmetic.Fails`), whatever the later ones would have come to. From
the first float on everything is a float and nothing fails any more.

An argument is looked at when its turn comes. So one that is no number is refused only if the steps
before it have results.
-/

namespace SmallLisp

/-- A float, as opposed to an integer. -/
def Number.IsFloat (n : Number) : Prop := ∃ x, n = .float x

/-- A value that is a number. -/
def Value.IsNumber (v : Value) : Prop := ∃ id n, v = .number id n

/-- Numbers as arguments. -/
def numbers (xs : List (ObjectId × Number)) : List Value := xs.map fun x => .number x.1 x.2

namespace Arithmetic

/-! ## One step -/

/-- **The exact result of a step on integers.** Quotients are truncated toward zero. -/
def exact : Arithmetic → Int → Int → Int
  | .add => (· + ·)
  | .sub => (· - ·)
  | .mul => (· * ·)
  | .div => Int.tdiv

/-- **Why a step on integers has no result**: it divides by zero, or its exact result is out of
range. -/
inductive StepFault (op : Arithmetic) (a b : Int) : ArithmeticError → Prop
  | divisionByZero (hop : op = .div) (hb : b = 0) : StepFault op a b .divisionByZero
  | overflow (hdefined : op = .div → b ≠ 0) (hrange : ¬ Number.InRange (op.exact a b)) :
      StepFault op a b .overflow

/-- One step on any two numbers. -/
def step : Arithmetic → Number → Number → Except ArithmeticError Number
  | .add => Number.add
  | .sub => Number.sub
  | .mul => Number.mul
  | .div => Number.div

section

variable {op : Arithmetic} {e e' : ArithmeticError}

theorem StepFault.unique {a b : Int} (h : op.StepFault a b e) (h' : op.StepFault a b e') :
    e = e' := by
  cases h with
  | divisionByZero hop hb =>
      cases h' with
      | divisionByZero => rfl
      | overflow hdefined _ => exact absurd hb (hdefined hop)
  | overflow hdefined _ =>
      cases h' with
      | divisionByZero hop hb => exact absurd hb (hdefined hop)
      | overflow => rfl

/-- A step on integers is the range check of the exact result, unless it divides by zero. -/
theorem step_integers {a b : Int64} (hdefined : op = .div → b.toInt ≠ 0) :
    op.step (.integer a) (.integer b) =
      Number.integer <$> Number.fit (op.exact a.toInt b.toInt) := by
  cases op with
  | div =>
      have hb : b ≠ 0 := fun hb => hdefined rfl (by rw [hb]; rfl)
      exact if_neg hb
  | _ => rfl

theorem step_of_fault {a b : Int64} (h : op.StepFault a.toInt b.toInt e) :
    op.step (.integer a) (.integer b) = .error e := by
  cases h with
  | divisionByZero hop hb =>
      subst hop
      exact if_pos (Int64.toInt_inj.1 hb)
  | overflow hdefined hrange =>
      rw [step_integers hdefined, Number.fit, if_neg hrange]
      rfl

/-- **A step on integers** that has a result gives the exact one. -/
theorem exists_step {a b : Int64} (h : ∀ e, ¬ op.StepFault a.toInt b.toInt e) :
    ∃ r : Int64, op.step (.integer a) (.integer b) = .ok (.integer r) ∧
      r.toInt = op.exact a.toInt b.toInt := by
  have hdefined : op = .div → b.toInt ≠ 0 := fun hop hb => h _ (.divisionByZero hop hb)
  have hrange : Number.InRange (op.exact a.toInt b.toInt) := by
    by_contra hout
    exact h _ (.overflow hdefined hout)
  have hfit : Number.fit (op.exact a.toInt b.toInt) =
      .ok (Int64.ofInt (op.exact a.toInt b.toInt)) := if_pos hrange
  refine ⟨_, ?_, Number.toInt_of_fit hfit⟩
  rw [step_integers hdefined, hfit]
  rfl

/-- **A step with a float** gives a float. -/
theorem exists_step_float (op : Arithmetic) {m n : Number} (h : m.IsFloat ∨ n.IsFloat) :
    ∃ x, op.step m n = .ok (.float x) := by
  rcases h with ⟨x, rfl⟩ | ⟨x, rfl⟩
  · cases op <;> exact ⟨_, rfl⟩
  · cases m <;> cases op <;> exact ⟨_, rfl⟩

end

/-! ## Many steps -/

/-- The exact result of taking integers in one after the other. -/
def total (op : Arithmetic) (first : Int64) (later : List Int64) : Int :=
  (later.map Int64.toInt).foldl op.exact first.toInt

/-- **An arithmetic failure**: of the steps before the first float, the first one that has no
result. -/
def Fails (op : Arithmetic) (terms : List Number) (e : ArithmeticError) : Prop :=
  ∃ first before b after, terms = .integer first :: (before.map .integer ++ .integer b :: after) ∧
    (∀ done c later, before = done ++ c :: later →
      ∀ e', ¬ op.StepFault (op.total first done) c.toInt e') ∧
    op.StepFault (op.total first before) b.toInt e

section

variable {op : Arithmetic} {e e' : ArithmeticError} {a b r : Int64} {ns : List Number}

theorem not_fails_nil : ¬ op.Fails [] e := by
  rintro ⟨first, before, b, after, hterms, _⟩
  cases hterms

theorem not_fails_singleton (n : Number) : ¬ op.Fails [n] e := by
  rintro ⟨first, before, b, after, hterms, _⟩
  simp at hterms

/-- Nothing fails from the first float on. -/
theorem not_fails_float {m n : Number} (h : m.IsFloat ∨ n.IsFloat) :
    ¬ op.Fails (m :: n :: ns) e := by
  rintro ⟨first, before, b, after, hterms, _⟩
  rcases h with ⟨x, rfl⟩ | ⟨x, rfl⟩
  · cases hterms
  · rcases before with _ | ⟨c, before⟩
    · cases hterms
    · cases hterms

theorem fails_of_fault (h : op.StepFault a.toInt b.toInt e) :
    op.Fails (.integer a :: .integer b :: ns) e := by
  refine ⟨a, [], b, ns, rfl, fun done c later hsplit => ?_, h⟩
  simp at hsplit

/-- Once a step has a result, the later ones decide. -/
theorem fails_step_iff (hab : ∀ e, ¬ op.StepFault a.toInt b.toInt e)
    (hr : r.toInt = op.exact a.toInt b.toInt) :
    op.Fails (.integer a :: .integer b :: ns) e ↔ op.Fails (.integer r :: ns) e := by
  have htotal : ∀ later, op.total r later = op.total a (b :: later) := fun later => by
    rw [total, total, List.map_cons, List.foldl_cons, hr]
  constructor
  · rintro ⟨first, _ | ⟨c, before⟩, d, after, hterms, hbefore, hfault⟩
    · cases hterms
      exact absurd hfault (hab e)
    · cases hterms
      refine ⟨r, before, d, after, rfl, fun done c later hsplit => ?_, ?_⟩
      · rw [htotal]
        exact hbefore (b :: done) c later (by rw [hsplit]; rfl)
      · rw [htotal]
        exact hfault
  · rintro ⟨first, before, d, after, hterms, hbefore, hfault⟩
    cases hterms
    refine ⟨a, b :: before, d, after, rfl, fun done c later hsplit => ?_, ?_⟩
    · rcases done with _ | ⟨c', done⟩
      · cases hsplit
        exact hab
      · cases hsplit
        rw [← htotal]
        exact hbefore done c later rfl
    · rw [← htotal]
      exact hfault

end

/-- **The result of an operation on terms**: a float if there is one among them, and exact if they
are all integers. -/
structure Gives (op : Arithmetic) (terms : List Number) (n : Number) : Prop where
  float : n.IsFloat ↔ ∃ x ∈ terms, x.IsFloat
  exact : ∀ first later, terms = .integer first :: later.map .integer →
    ∃ i : Int64, n = .integer i ∧ i.toInt = op.total first later

/-- **What an operation comes to** on some terms and whatever follows them. -/
structure Answers (op : Arithmetic) (terms : List Number) (tail : List Value)
    (out : Except EvalError Number) : Prop where
  fails : ∀ {e : ArithmeticError}, op.Fails terms e → out = .error (.arithmetic op.name e)
  ends : (∀ e, ¬ op.Fails terms e) → tail = [] → ∃ n, out = .ok n ∧ op.Gives terms n
  refuses : (∀ e, ¬ op.Fails terms e) → ∀ bad more, tail = bad :: more → ¬ bad.IsNumber →
    out = .error (.unsupportedArgument op.name bad)

section

variable {op : Arithmetic} {a b r : Int64} {m n : Number} {x : Float} {ns : List Number}
  {tail : List Value} {out : Except EvalError Number}

theorem not_isFloat_integer (i : Int64) : ¬ (Number.integer i).IsFloat := nofun

theorem gives_self (n : Number) : op.Gives [n] n where
  float := by simp
  exact := by
    rintro first later hterms
    rcases later with _ | ⟨c, later⟩
    · cases hterms
      exact ⟨first, rfl, rfl⟩
    · cases hterms

theorem Gives.of_step (hr : r.toInt = op.exact a.toInt b.toInt)
    (h : op.Gives (.integer r :: ns) n) : op.Gives (.integer a :: .integer b :: ns) n where
  float := by
    rw [h.float]
    simp [not_isFloat_integer]
  exact := by
    rintro first (_ | ⟨c, later⟩) hterms
    · cases hterms
    · cases hterms
      obtain ⟨i, hn, hi⟩ := h.exact r later rfl
      refine ⟨i, hn, hi.trans ?_⟩
      rw [total, total, List.map_cons, List.foldl_cons, hr]

theorem Gives.of_float (hmn : m.IsFloat ∨ n.IsFloat) {k : Number}
    (h : op.Gives (.float x :: ns) k) : op.Gives (m :: n :: ns) k where
  float := by
    have hk : k.IsFloat := h.float.2 ⟨_, List.mem_cons_self, x, rfl⟩
    refine iff_of_true hk ?_
    rcases hmn with hm | hn
    · exact ⟨m, List.mem_cons_self, hm⟩
    · exact ⟨n, List.mem_cons_of_mem _ List.mem_cons_self, hn⟩
  exact := by
    rintro first (_ | ⟨c, later⟩) hterms
    · cases hterms
    · cases hterms
      exact (hmn.elim (not_isFloat_integer _) (not_isFloat_integer _)).elim

/-- A step without a result is the end. -/
theorem answers_of_fault {e : ArithmeticError} (h : op.StepFault a.toInt b.toInt e) :
    op.Answers (.integer a :: .integer b :: ns) tail (.error (.arithmetic op.name e)) where
  fails := by
    rintro e' ⟨first, _ | ⟨c, before⟩, d, after, hterms, hbefore, hfault⟩
    · cases hterms
      rw [h.unique hfault]
    · cases hterms
      exact absurd h (hbefore [] b before rfl e)
  ends hnone := absurd (fails_of_fault h) (hnone e)
  refuses hnone := absurd (fails_of_fault h) (hnone e)

theorem Answers.of_step (hab : ∀ e, ¬ op.StepFault a.toInt b.toInt e)
    (hr : r.toInt = op.exact a.toInt b.toInt) (h : op.Answers (.integer r :: ns) tail out) :
    op.Answers (.integer a :: .integer b :: ns) tail out where
  fails hfails := h.fails ((fails_step_iff hab hr).1 hfails)
  ends hnone htail := by
    simp only [fails_step_iff hab hr] at hnone
    obtain ⟨n, hout, hn⟩ := h.ends hnone htail
    exact ⟨n, hout, hn.of_step hr⟩
  refuses hnone := by
    simp only [fails_step_iff hab hr] at hnone
    exact h.refuses hnone

theorem not_fails_of_float_first {e : ArithmeticError} : ¬ op.Fails (.float x :: ns) e := by
  cases ns with
  | nil => exact not_fails_singleton _
  | cons n ns => exact not_fails_float (.inl ⟨x, rfl⟩)

theorem Answers.of_float (hmn : m.IsFloat ∨ n.IsFloat) (h : op.Answers (.float x :: ns) tail out) :
    op.Answers (m :: n :: ns) tail out where
  fails hfails := absurd hfails (not_fails_float hmn)
  ends _ htail := by
    obtain ⟨k, hout, hk⟩ := h.ends (fun _ => not_fails_of_float_first) htail
    exact ⟨k, hout, hk.of_float hmn⟩
  refuses _ := h.refuses fun _ => not_fails_of_float_first

end

/-! ## The loop -/

theorem expectNumber_of_not_isNumber {operation : String} {v : Value} (hv : ¬ v.IsNumber) :
    Builtin.expectNumber operation v = .error (.unsupportedArgument operation v) := by
  cases v with
  | number id n => exact absurd ⟨id, n, rfl⟩ hv
  | _ => rfl

/-- **What the loop comes to**, by induction on the numbers that it takes in. -/
theorem answers_foldNumbers (op : Arithmetic) (acc : Number) (xs : List (ObjectId × Number))
    (tail : List Value) :
    op.Answers (acc :: xs.map Prod.snd) tail
      (Builtin.foldNumbers op.name op.step acc (numbers xs ++ tail)) := by
  induction xs generalizing acc with
  | nil =>
      refine ⟨fun h => absurd h (not_fails_singleton acc), ?_, ?_⟩
      · rintro _ rfl
        exact ⟨acc, rfl, gives_self acc⟩
      · rintro _ bad more rfl hbad
        show Builtin.foldNumbers op.name op.step acc (bad :: more) = _
        rw [Builtin.foldNumbers, expectNumber_of_not_isNumber hbad]
        rfl
  | cons y ys ih =>
      obtain ⟨id, n⟩ := y
      -- the argument is a number, so the step decides
      have hunfold : Builtin.foldNumbers op.name op.step acc (numbers ((id, n) :: ys) ++ tail) =
          Builtin.blame op.name (op.step acc n) >>= fun acc =>
            Builtin.foldNumbers op.name op.step acc (numbers ys ++ tail) := rfl
      rw [hunfold]
      by_cases hfloat : acc.IsFloat ∨ n.IsFloat
      · obtain ⟨x, hx⟩ := exists_step_float op hfloat
        rw [hx]
        exact (ih (.float x)).of_float hfloat
      · cases acc with
        | float x => exact absurd (.inl ⟨x, rfl⟩) hfloat
        | integer a =>
            cases n with
            | float x => exact absurd (.inr ⟨x, rfl⟩) hfloat
            | integer b =>
                by_cases hfault : ∃ e, op.StepFault a.toInt b.toInt e
                · obtain ⟨e, he⟩ := hfault
                  rw [step_of_fault he]
                  exact answers_of_fault he
                · have hab := not_exists.1 hfault
                  obtain ⟨r, hstep, hr⟩ := exists_step hab
                  rw [hstep]
                  exact (ih (.integer r)).of_step hab hr

/-! ## The operations -/

/-- The number that a single argument is taken in by. -/
def unit : Arithmetic → Int64
  | .add => 0
  | .sub => 0
  | .mul => 1
  | .div => 1

/-- **The terms of an operation** with `count` arguments that begin with some numbers. Several
arguments are taken in from the first one on, a single one by the unit. -/
def terms (op : Arithmetic) (count : Nat) (ns : List Number) : List Number :=
  if count = 1 then .integer op.unit :: ns else ns

/-- The exact result of an operation on integers. -/
def result (op : Arithmetic) : List Int64 → Int
  | [] => op.unit.toInt
  | [i] => op.total op.unit [i]
  | i :: is => op.total i is

section

variable {op : Arithmetic} {n : Number} {ns : List Number} {tail : List Value}
  {out : Except EvalError Number}

/-- In sums and products the unit makes no difference. -/
theorem exact_unit (hop : op = .add ∨ op = .mul) (i : Int64) :
    i.toInt = op.exact op.unit.toInt i.toInt := by
  rcases hop with rfl | rfl
  · exact (Int.zero_add _).symm
  · exact (Int.one_mul _).symm

theorem not_stepFault_unit (hop : op = .add ∨ op = .mul) (i : Int64) (e : ArithmeticError) :
    ¬ op.StepFault op.unit.toInt i.toInt e := by
  intro h
  cases h with
  | divisionByZero hdiv _ => rcases hop with rfl | rfl <;> cases hdiv
  | overflow _ hrange =>
      rw [← exact_unit hop] at hrange
      exact hrange (Number.inRange_toInt i)

theorem Answers.without_unit (hop : op = .add ∨ op = .mul)
    (h : op.Answers (.integer op.unit :: n :: ns) tail out) : op.Answers (n :: ns) tail out := by
  cases n with
  | integer i =>
      have hfails : ∀ {e}, op.Fails (.integer op.unit :: .integer i :: ns) e ↔
          op.Fails (.integer i :: ns) e :=
        fails_step_iff (not_stepFault_unit hop i) (exact_unit hop i)
      refine ⟨fun hf => h.fails (hfails.2 hf), fun hnone htail => ?_, fun hnone => ?_⟩
      · obtain ⟨k, hout, hk⟩ := h.ends (fun e => by rw [hfails]; exact hnone e) htail
        refine ⟨k, hout, ?_, fun first later hterms => ?_⟩
        · rw [hk.float]
          simp [not_isFloat_integer]
        · cases hterms
          obtain ⟨j, hj, htotal⟩ := hk.exact op.unit (i :: later) rfl
          refine ⟨j, hj, htotal.trans ?_⟩
          rw [total, total, List.map_cons, List.foldl_cons, ← exact_unit hop]
      · exact h.refuses fun e => by rw [hfails]; exact hnone e
  | float x =>
      have hnone : ∀ e, ¬ op.Fails (.integer op.unit :: .float x :: ns) e :=
        fun _ => not_fails_float (.inr ⟨x, rfl⟩)
      refine ⟨fun hf => absurd hf not_fails_of_float_first, fun _ htail => ?_,
        fun _ => h.refuses hnone⟩
      obtain ⟨k, hout, hk⟩ := h.ends hnone htail
      refine ⟨k, hout, ?_, fun first later hterms => ?_⟩
      · rw [hk.float]
        simp [not_isFloat_integer]
      · cases hterms

end

/-- Without terms nothing can fail, and the first argument is refused. -/
theorem answers_of_refused {op : Arithmetic} {terms : List Number} {tail : List Value}
    {out : Except EvalError Number} (hnone : ∀ e, ¬ op.Fails terms e) (htail : tail ≠ [])
    (hout : ∀ bad more, tail = bad :: more → ¬ bad.IsNumber →
      out = .error (.unsupportedArgument op.name bad)) : op.Answers terms tail out where
  fails hf := absurd hf (hnone _)
  ends _ hnil := absurd hnil htail
  refuses _ := hout

theorem not_fails_terms_nil {op : Arithmetic} (count : Nat) (e : ArithmeticError) :
    ¬ op.Fails (op.terms count []) e := by
  rw [terms]
  split
  · exact not_fails_singleton _
  · exact not_fails_nil

/-- A single argument is taken in by the unit. -/
theorem answers_single (op : Arithmetic) (id : ObjectId) (n : Number) :
    op.Answers [.integer op.unit, n] [] (Builtin.arithmeticResult op [.number id n]) := by
  have hloop := answers_foldNumbers op (.integer op.unit) [(id, n)] []
  cases op with
  | add => exact hloop
  | mul => exact hloop
  | div =>
      have hout : Builtin.arithmeticResult .div [.number id n] = Builtin.foldNumbers "/"
          Number.div (.integer 1) [.number id n] := by
        show Builtin.blame "/" (Number.div (.integer 1) n) = Builtin.blame "/" _ >>= Except.ok
        cases Builtin.blame "/" (Number.div (.integer 1) n) <;> rfl
      rw [hout]
      exact hloop
  | sub =>
      cases n with
      | integer i =>
          have hout : Builtin.arithmeticResult .sub [.number id (.integer i)] =
              Builtin.foldNumbers "-" Number.sub (.integer 0) [.number id (.integer i)] := by
            show Builtin.blame "-" (Number.integer <$> Number.fit (-i.toInt)) =
              Builtin.blame "-" (Number.integer <$> Number.fit (0 - i.toInt)) >>= Except.ok
            rw [Int.zero_sub]
            cases Builtin.blame "-" (Number.integer <$> Number.fit (-i.toInt)) <;> rfl
          rw [hout]
          exact hloop
      | float x => exact (answers_foldNumbers .sub (.float (-x)) [] []).of_float (.inr ⟨x, rfl⟩)

/-- **What an operation comes to.** Sums and products are taken in from their unit on, whatever the
number of arguments, whereas several arguments of `-` and `/` are taken in from the first one on. -/
theorem answers_arithmeticResult (op : Arithmetic) (xs : List (ObjectId × Number))
    (tail : List Value) (hargs : numbers xs ++ tail ≠ []) :
    op.Answers (op.terms (numbers xs ++ tail).length (xs.map Prod.snd)) tail
      (Builtin.arithmeticResult op (numbers xs ++ tail)) := by
  rcases xs with _ | ⟨⟨id, n⟩, xs⟩
  · refine answers_of_refused (not_fails_terms_nil _) hargs ?_
    rintro bad more rfl hbad
    have hrefused : ∀ operation, Builtin.expectNumber operation bad =
        .error (.unsupportedArgument operation bad) := fun _ => expectNumber_of_not_isNumber hbad
    cases op with
    | add => exact congrArg (· >>= _) (hrefused "+")
    | mul => exact congrArg (· >>= _) (hrefused "*")
    | sub => cases more <;> exact congrArg (· >>= _) (hrefused "-")
    | div => cases more <;> exact congrArg (· >>= _) (hrefused "/")
  · by_cases hsingle : numbers xs ++ tail = []
    · obtain ⟨hxs, rfl⟩ := List.append_eq_nil_iff.1 hsingle
      obtain rfl := List.map_eq_nil_iff.1 hxs
      exact answers_single op id n
    · obtain ⟨v, vs, hvs⟩ := List.exists_cons_of_ne_nil hsingle
      have hcount : op.terms (numbers ((id, n) :: xs) ++ tail).length
          (((id, n) :: xs).map Prod.snd) = n :: xs.map Prod.snd := by
        refine if_neg fun hone => hsingle ?_
        exact List.length_eq_zero_iff.1 (Nat.succ.inj hone)
      rw [hcount]
      have hunit := answers_foldNumbers op (.integer op.unit) ((id, n) :: xs) tail
      have hfirst := answers_foldNumbers op n xs tail
      have hcons : numbers ((id, n) :: xs) ++ tail = .number id n :: v :: vs :=
        congrArg (Value.number id n :: ·) hvs
      cases op with
      | add => exact hunit.without_unit (.inl rfl)
      | mul => exact hunit.without_unit (.inr rfl)
      | sub =>
          rw [hvs] at hfirst
          rw [hcons]
          exact hfirst
      | div =>
          rw [hvs] at hfirst
          rw [hcons]
          exact hfirst

section

variable {op : Arithmetic} {terms ns : List Number} {tail : List Value} {n : Number}
  {out : Except EvalError Number}

/-- An operation fails in no other way than by its steps. -/
theorem Answers.eq_arithmetic_iff (h : op.Answers terms tail out)
    (htail : tail = [] ∨ ∃ bad more, tail = bad :: more ∧ ¬ bad.IsNumber) {e : ArithmeticError} :
    out = .error (.arithmetic op.name e) ↔ op.Fails terms e := by
  refine ⟨fun hout => ?_, h.fails⟩
  by_cases hfails : ∃ e', op.Fails terms e'
  · obtain ⟨e', he'⟩ := hfails
    cases (h.fails he').symm.trans hout
    exact he'
  · have hnone := not_exists.1 hfails
    rcases htail with rfl | ⟨bad, more, rfl, hbad⟩
    · obtain ⟨n, hn, _⟩ := h.ends hnone rfl
      cases hn.symm.trans hout
    · cases (h.refuses hnone bad more rfl hbad).symm.trans hout

theorem mem_isFloat_terms (count : Nat) (ns : List Number) :
    (∃ x ∈ op.terms count ns, x.IsFloat) ↔ ∃ x ∈ ns, x.IsFloat := by
  rw [Arithmetic.terms]
  split
  · simp [not_isFloat_integer]
  · rfl

/-- On integers the terms come to the exact result. -/
theorem Gives.eq_result {is : List Int64} (his : is ≠ [])
    (h : op.Gives (op.terms is.length (is.map .integer)) n) :
    ∃ i : Int64, n = .integer i ∧ i.toInt = op.result is := by
  rcases is with _ | ⟨i, _ | ⟨j, is⟩⟩
  · exact absurd rfl his
  · exact h.exact op.unit [i] rfl
  · have hterms : op.terms (i :: j :: is).length ((i :: j :: is).map .integer) =
        .integer i :: (j :: is).map .integer := if_neg (by simp)
    exact h.exact i (j :: is) hterms

end

end Arithmetic

/-! ## The builtins -/

/-- The result of a builtin is a new number, and an error leaves the state as it was. -/
theorem run_arithmetic (lisp : Interpreter) (op : Arithmetic) (args : List Value) (a : Anchors)
    (s : State) : (Builtin.arithmetic op).run lisp args a s =
      match Builtin.arithmeticResult op args with
      | .ok n => .ok (.number s.heap.next n) { s with heap.next := s.heap.next + 1 }
      | .error e => .error (.error e) s := by
  show (Eval.ofExcept (Builtin.arithmeticResult op args) >>= Builtin.makeNumber) a s = _
  cases Builtin.arithmeticResult op args <;> rfl

theorem run_arithmetic_eq_error_iff {lisp : Interpreter} {op : Arithmetic} {args : List Value}
    {a : Anchors} {s : State} {e : EvalError} :
    (Builtin.arithmetic op).run lisp args a s = .error (.error e) s ↔
      Builtin.arithmeticResult op args = .error e := by
  rw [run_arithmetic]
  cases Builtin.arithmeticResult op args <;> simp

/-- **Integer arithmetic never wraps, and mixing gives a float.** On numbers an operation fails
exactly if one of the steps before the first float has no result, with the error of the first such
step: it divides by zero, or its exact result is out of range. Otherwise it has a result, which is a
float if one of the arguments is, and the exact result if all are integers. An argument that is no
number is refused unless a step before it fails. -/
theorem arithmetic_never_wraps (lisp : Interpreter) (op : Arithmetic)
    (xs : List (ObjectId × Number)) (a : Anchors) (s : State) :
    let ns := xs.map Prod.snd
    let run := fun args => (Builtin.arithmetic op).run lisp args a s
    (xs ≠ [] →
      (∀ e, run (numbers xs) = .error (.error (.arithmetic op.name e)) s ↔
        op.Fails (op.terms xs.length ns) e) ∧
      ((∀ e, ¬ op.Fails (op.terms xs.length ns) e) →
        ∃ n, run (numbers xs) =
            .ok (.number s.heap.next n) { s with heap.next := s.heap.next + 1 } ∧
          (n.IsFloat ↔ ∃ x ∈ ns, x.IsFloat) ∧
          ∀ is : List Int64, ns = is.map .integer →
            ∃ i : Int64, n = .integer i ∧ i.toInt = op.result is)) ∧
    ∀ bad more, ¬ bad.IsNumber →
      let args := numbers xs ++ bad :: more
      (∀ e, run args = .error (.error (.arithmetic op.name e)) s ↔
        op.Fails (op.terms args.length ns) e) ∧
      ((∀ e, ¬ op.Fails (op.terms args.length ns) e) →
        run args = .error (.error (.unsupportedArgument op.name bad)) s) := by
  intro ns run
  refine ⟨fun hxs => ?_, fun bad more hbad => ?_⟩
  · have hne : numbers xs ++ [] ≠ [] := by simpa [numbers] using hxs
    have hcount : (numbers xs ++ []).length = xs.length := by simp [numbers]
    have hanswers := op.answers_arithmeticResult xs [] hne
    rw [hcount, List.append_nil] at hanswers
    refine ⟨fun e => ?_, fun hnone => ?_⟩
    · exact run_arithmetic_eq_error_iff.trans (hanswers.eq_arithmetic_iff (.inl rfl))
    · obtain ⟨n, hout, hn⟩ := hanswers.ends hnone rfl
      refine ⟨n, ?_, ?_, fun is his => ?_⟩
      · show (Builtin.arithmetic op).run lisp (numbers xs) a s = _
        rw [run_arithmetic, hout]
      · rw [hn.float, Arithmetic.mem_isFloat_terms]
      · have hlength : xs.length = is.length := by
          rw [← List.length_map (f := Prod.snd), show xs.map Prod.snd = _ from his,
            List.length_map]
        have hgives : op.Gives (op.terms is.length (is.map .integer)) n := by
          rw [← hlength, ← his]
          exact hn
        refine hgives.eq_result fun hnil => hxs ?_
        rw [hnil] at hlength
        exact List.length_eq_zero_iff.1 hlength
  · have hanswers := op.answers_arithmeticResult xs (bad :: more) (by simp)
    refine ⟨fun e => ?_, fun hnone => ?_⟩
    · exact run_arithmetic_eq_error_iff.trans
        (hanswers.eq_arithmetic_iff (.inr ⟨bad, more, rfl, hbad⟩))
    · exact run_arithmetic_eq_error_iff.2 (hanswers.refuses hnone bad more rfl hbad)

/-- A sum that would come back into range fails where it leaves it. So it does not matter that there
is an argument behind which is no number; one in front is refused. -/
theorem arithmetic_never_wraps_midway :
    let lisp := (Interpreter.fresh Heap.empty).1
    let s : State := ⟨Heap.empty, []⟩
    let run := fun args => (Builtin.arithmetic .add).run lisp args .none s
    let xs := [(0, .integer 9223372036854775807), (1, .integer 1), (2, .integer (-1))]
    let bad := Value.string 3 "x"
    xs ≠ [] ∧ ¬ bad.IsNumber ∧
      run (numbers xs) = .error (.error (.arithmetic "+" .overflow)) s ∧
      run (numbers xs ++ [bad]) = .error (.error (.arithmetic "+" .overflow)) s ∧
      run (bad :: numbers xs) = .error (.error (.unsupportedArgument "+" bad)) s := by
  intro lisp s run xs bad
  have hbad : ¬ bad.IsNumber := nofun
  have hfails : Arithmetic.Fails .add (xs.map Prod.snd) .overflow :=
    ⟨9223372036854775807, [], 1, [.integer (-1)], rfl, by simp, .overflow nofun (by decide)⟩
  refine ⟨List.cons_ne_nil _ _, hbad, ?_, ?_, ?_⟩
  · exact ((arithmetic_never_wraps lisp .add xs .none s).1 (List.cons_ne_nil _ _)).1 _ |>.2 hfails
  · exact ((arithmetic_never_wraps lisp .add xs .none s).2 bad [] hbad).1 _ |>.2 hfails
  · exact ((arithmetic_never_wraps lisp .add [] .none s).2 bad (numbers xs) hbad).2
      fun _ => Arithmetic.not_fails_nil

end SmallLisp
