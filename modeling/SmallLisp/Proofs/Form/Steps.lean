import SmallLisp.Form.Reader
import SmallLisp.Proofs.Token.Endings

set_option autoImplicit false

/-! # What a token does to a reader

There are three things that can happen when a token is taken. It opens a construct, or goes on with
one, and a form is missing behind it; it completes a form, which goes to the constructs around it;
or it does not fit. `Stage.take_cases` says so once and for all, with everything that is known in
each case, so that an invariant of the reader has to be looked at for each kind of step and not for
each kind of token.
-/

namespace SmallLisp

/-- **A token that a form has to follow**, with the stage behind it. -/
inductive Stage.Opens : Stage → Located Token → Stage → Prop
  | list (span : Span) (stack : List Context) :
      Opens (.form stack) ⟨span, .leftParen⟩ (.form (.list span [] :: stack))
  | quote (span : Span) (stack : List Context) :
      Opens (.form stack) ⟨span, .quote⟩ (.form (.quote :: stack))
  | dot (span opened : Span) (x : Value) (xs : List Value) (stack : List Context) :
      Opens (.form (.list opened (x :: xs) :: stack)) ⟨span, .dot⟩
        (.form (.tail opened (x :: xs) :: stack))

/-- **A token that completes a form**, with the constructs that are left around it. -/
inductive Stage.Finishes : Stage → Located Token → List Context → Prop
  | atom {token : Located Token} (htoken : token.content.isAtom = true) (stack : List Context) :
      Finishes (.form stack) token stack
  | list (span opened : Span) (items : List Value) (stack : List Context) :
      Finishes (.form (.list opened items :: stack)) ⟨span, .rightParen⟩ stack
  | tail (span opened : Span) (items : List Value) (tail : Value) (stack : List Context) :
      Finishes (.closing opened items tail stack) ⟨span, .rightParen⟩ stack

/-- **A token that does not fit**, with the error: a parenthesis where there is no list to close, a
dot where there is no element before it, or anything but a parenthesis behind a dotted tail. -/
inductive Stage.Refuses : Stage → Located Token → ParseError → Prop
  | close (span : Span) {stack : List Context}
      (hstack : ∀ opened items outer, stack ≠ .list opened items :: outer) :
      Refuses (.form stack) ⟨span, .rightParen⟩
        (.unexpectedToken ⟨span, .rightParen⟩ .expression)
  | dot (span : Span) {stack : List Context}
      (hstack : ∀ opened x xs outer, stack ≠ .list opened (x :: xs) :: outer) :
      Refuses (.form stack) ⟨span, .dot⟩ (.invalidDot span)
  | tail {token : Located Token} (htoken : token.content ≠ .rightParen) (opened : Span)
      (items : List Value) (tail : Value) (stack : List Context) :
      Refuses (.closing opened items tail stack) token (.unexpectedToken token .closingParen)

/-- A form that is delivered completes a larger one, or is waited for by a construct. -/
theorem deliver_cases (lisp : Interpreter) (form : Value) (stack : List Context) (h : Heap) :
    ∃ h', (∃ v, deliver lisp form stack h = (.done v, h')) ∨
      ∃ next, deliver lisp form stack h = (.more next, h') := by
  induction stack generalizing form h with
  | nil => exact ⟨h, .inl ⟨form, rfl⟩⟩
  | cons context stack ih =>
      cases context with
      | quote => exact ih _ _
      | list opened items => exact ⟨h, .inr ⟨_, rfl⟩⟩
      | tail opened items => exact ⟨h, .inr ⟨_, rfl⟩⟩

section

variable (lisp : Interpreter) (token : Located Token) (h : Heap)

/-- What taking a token amounts to. -/
def Stage.Takes (stage : Stage) : Prop :=
  (∃ next, stage.Opens token next ∧ stage.take lisp token h = (.more next, h)) ∨
    (∃ form stack h', stage.Finishes token stack ∧
      stage.take lisp token h = deliver lisp form stack h') ∨
    ∃ e, stage.Refuses token e ∧ stage.take lisp token h = (.failed e, h)

theorem takes_form (stack : List Context) : (Stage.form stack).Takes lisp token h := by
  obtain ⟨span, token⟩ := token
  cases token with
  | leftParen => exact .inl ⟨_, .list span stack, rfl⟩
  | quote => exact .inl ⟨_, .quote span stack, rfl⟩
  | integer i => exact .inr (.inl ⟨_, _, _, .atom rfl stack, rfl⟩)
  | float x => exact .inr (.inl ⟨_, _, _, .atom rfl stack, rfl⟩)
  | string s => exact .inr (.inl ⟨_, _, _, .atom rfl stack, rfl⟩)
  | symbol name => exact .inr (.inl ⟨_, _, _, .atom rfl stack, rfl⟩)
  | rightParen =>
      cases stack with
      | nil => exact .inr (.inr ⟨_, .close span nofun, rfl⟩)
      | cons context stack =>
          cases context with
          | list opened items => exact .inr (.inl ⟨_, _, _, .list span opened items stack, rfl⟩)
          | tail opened items => exact .inr (.inr ⟨_, .close span nofun, rfl⟩)
          | quote => exact .inr (.inr ⟨_, .close span nofun, rfl⟩)
  | dot =>
      cases stack with
      | nil => exact .inr (.inr ⟨_, .dot span nofun, rfl⟩)
      | cons context stack =>
          cases context with
          | list opened items =>
              cases items with
              | nil => exact .inr (.inr ⟨_, .dot span nofun, rfl⟩)
              | cons x xs => exact .inl ⟨_, .dot span opened x xs stack, rfl⟩
          | tail opened items => exact .inr (.inr ⟨_, .dot span nofun, rfl⟩)
          | quote => exact .inr (.inr ⟨_, .dot span nofun, rfl⟩)

/-- **A token opens something, completes a form, or does not fit.** -/
theorem Stage.take_cases (stage : Stage) : stage.Takes lisp token h := by
  cases stage with
  | form stack => exact takes_form lisp token h stack
  | closing opened items tail stack =>
      by_cases hclose : token.content = .rightParen
      · obtain ⟨span, token⟩ := token
        cases hclose
        exact .inr (.inl ⟨_, _, _, .tail span opened items tail stack, rfl⟩)
      · refine .inr (.inr ⟨_, .tail hclose opened items tail stack, ?_⟩)
        simp only [Stage.take]

end

/-- A token that fails does not fit, and leaves the heap as it was. -/
theorem Stage.refuses_of_take {lisp : Interpreter} {stage : Stage} {token : Located Token}
    {h h' : Heap} {e : ParseError} (htake : stage.take lisp token h = (.failed e, h')) :
    stage.Refuses token e ∧ h' = h := by
  rcases stage.take_cases lisp token h with ⟨next, _, hmore⟩ | ⟨form, stack, h₁, _, hform⟩ |
    ⟨e', hrefuses, hfailed⟩
  · cases hmore.symm.trans htake
  · obtain ⟨h₂, ⟨v, hdone⟩ | ⟨next, hmore⟩⟩ := deliver_cases lisp form stack h₁
    · cases hdone.symm.trans (hform.symm.trans htake)
    · cases hmore.symm.trans (hform.symm.trans htake)
  · cases hfailed.symm.trans htake
    exact ⟨hrefuses, rfl⟩

end SmallLisp
