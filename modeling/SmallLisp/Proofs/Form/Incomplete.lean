import SmallLisp.Proofs.Form.Reading
import SmallLisp.Token.Pending

set_option autoImplicit false

/-! # Text that asks for more is text that the reader runs out of

`isIncomplete` counts parentheses and remembers a quote; the reader keeps a stack. The counter is
a view of the stack (`Stage.pending`): the depth is the number of constructs on it that are lists,
and a quote dangles when one is on top. Taking a token moves both sides alike (`take_follows`),
as long as the reader goes on or completes a form. Where it fails instead the two part, but not
before: the first error of a text decides whether it asked for more.
-/

namespace SmallLisp

open Reader

/-! ## The counter as a view of the stack -/

/-- Whether a construct ends with a closing parenthesis. -/
def Context.isList : Context → Bool
  | .list _ _ => true
  | .tail _ _ => true
  | .quote => false

/-- The number of lists that a stack is inside of. -/
def openLists (stack : List Context) : Nat := stack.countP Context.isList

@[simp]
theorem openLists_list (opened : Span) (items : List Value) (stack : List Context) :
    openLists (.list opened items :: stack) = openLists stack + 1 :=
  List.countP_cons_of_pos rfl

@[simp]
theorem openLists_tail (opened : Span) (items : List Value) (stack : List Context) :
    openLists (.tail opened items :: stack) = openLists stack + 1 :=
  List.countP_cons_of_pos rfl

@[simp]
theorem openLists_quote (stack : List Context) :
    openLists (.quote :: stack) = openLists stack :=
  List.countP_cons_of_neg Bool.false_ne_true

/-- **What the counter shows at a stage of the reader.** -/
def Stage.pending : Stage → Pending
  | .form stack => ⟨openLists stack, decide (stack.head? = some .quote)⟩
  | .closing _ _ _ stack => ⟨openLists stack + 1, false⟩

@[simp]
theorem Stage.pending_nil : (Stage.form []).pending = .start := rfl

/-- Only at the start of a form is nothing open. -/
theorem Stage.remains_pending {stage : Stage} (hne : stage ≠ .form []) :
    stage.pending.remains [] = true := by
  cases stage with
  | closing opened items tail stack => simp [Stage.pending, Pending.remains]
  | form stack =>
      cases stack with
      | nil => exact absurd rfl hne
      | cons context stack => cases context <;> simp [Stage.pending, Pending.remains]

/-! ## Errors that more text may mend -/

/-- **An error at the end of the text**: a list, a quote or a string that has not been
completed. -/
def ParseError.isMissingEnd : ParseError → Bool
  | .unclosedList _ => true
  | .unexpectedEnd _ => true
  | .lexical ⟨_, .unterminatedString⟩ => true
  | _ => false

/-- How the counter, after a token, stands to the result of taking it: it is back at the start
when a form is complete, it is a view of the next stage otherwise, and an error of the token
itself is not an error at the end. -/
def Progress.Follows (p : Pending) : Progress → Prop
  | .done _ => p = .start
  | .more stage => stage.pending = p ∧ stage ≠ .form []
  | .failed e => e.isMissingEnd = false

theorem deliver_follows (lisp : Interpreter) (form : Value) (stack : List Context) (h : Heap) :
    (deliver lisp form stack h).1.Follows ⟨openLists stack, false⟩ := by
  induction stack generalizing form h with
  | nil => exact rfl
  | cons context stack ih =>
      cases context with
      | quote =>
          -- quotes are not counted, and completing one leaves the counter where it is
          rw [openLists_quote]
          exact ih _ _
      | list opened items => exact ⟨by simp [Stage.pending], by simp⟩
      | tail opened items => exact ⟨by simp [Stage.pending], by simp⟩

theorem takeForm_follows (lisp : Interpreter) (token : Located Token) (stack : List Context)
    (h : Heap) :
    (takeForm lisp token stack h).1.Follows ((Stage.form stack).pending.next token.content) := by
  obtain ⟨span, token⟩ := token
  cases token with
  | leftParen => exact ⟨by simp [Stage.pending, Pending.next], by simp⟩
  | quote => exact ⟨by simp [Stage.pending, Pending.next], by simp⟩
  | integer i => exact deliver_follows lisp _ stack _
  | float x => exact deliver_follows lisp _ stack _
  | string s => exact deliver_follows lisp _ stack _
  | symbol name => exact deliver_follows lisp _ stack _
  | rightParen =>
      -- where there is no list to close the token is an error, and the counter may do anything
      cases stack with
      | nil => exact rfl
      | cons context stack =>
          cases context with
          | quote => exact rfl
          | tail opened items => exact rfl
          | list opened items =>
              have hdepth : (Stage.form (.list opened items :: stack)).pending.next .rightParen =
                  ⟨openLists stack, false⟩ := by simp [Stage.pending, Pending.next]
              rw [hdepth]
              exact deliver_follows lisp _ stack _
  | dot =>
      cases stack with
      | nil => exact rfl
      | cons context stack =>
          cases context with
          | quote => exact rfl
          | tail opened items => exact rfl
          | list opened items =>
              cases items with
              | nil => exact rfl
              | cons x xs => exact ⟨by simp [Stage.pending, Pending.next], by simp⟩

/-- **A token moves the stack and the counter alike.** -/
theorem take_follows (lisp : Interpreter) (token : Located Token) (h : Heap) (stage : Stage) :
    (stage.take lisp token h).1.Follows (stage.pending.next token.content) := by
  cases stage with
  | form stack => exact takeForm_follows lisp token stack h
  | closing opened items tail stack =>
      obtain ⟨span, token⟩ := token
      cases token with
      | rightParen => exact deliver_follows lisp _ stack _
      | _ => exact rfl

/-! ## Whole runs -/

theorem Pending.remains_item (p : Pending) (token : Located Token) (rest : List Item) :
    p.remains (token.item :: rest) = (p.next token.content).remains rest := by
  rw [Pending.remains]
  rfl

/-- Feeding tokens to the reader moves the counter along. -/
theorem Reader.Feeds.remains {lisp : Interpreter} {stage last : Stage}
    {tokens : List (Located Token)} {h h' : Heap} (hf : Feeds lisp stage tokens h last h')
    (rest : List Item) :
    stage.pending.remains (tokens.map Located.item ++ rest) = last.pending.remains rest := by
  induction hf with
  | nil => rfl
  | @cons stage next last token tokens h h' h'' htake _ ih =>
      have hstep := take_follows lisp token h stage
      rw [htake] at hstep
      rw [List.map_cons, List.cons_append, Pending.remains_item, ← hstep.1, ih]

/-- A reader that has been fed is not at the start of a form any more. -/
theorem Reader.Feeds.ne_start {lisp : Interpreter} {stage last : Stage}
    {tokens : List (Located Token)} {h h' : Heap} (hf : Feeds lisp stage tokens h last h')
    (hne : tokens ≠ [] ∨ stage ≠ .form []) : last ≠ .form [] := by
  induction hf with
  | nil => exact hne.resolve_left fun hnil => hnil rfl
  | @cons stage next last token tokens h h' h'' htake _ ih =>
      have hstep := take_follows lisp token h stage
      rw [htake] at hstep
      exact ih (.inr hstep.2)

/-- When a form has been read, the counter is at the start of what follows. -/
theorem remains_of_run_ok {lisp : Interpreter} {length : Nat} {stage : Stage} {its : List Item}
    {h : Heap} {v : Value} (hok : (run lisp length stage its h).result = .ok v) :
    stage.pending.remains its =
      Pending.start.remains (run lisp length stage its h).reader.pending := by
  have hrun := runsTo_run lisp length stage its h
  generalize run lisp length stage its h = out at hrun hok ⊢
  cases hrun with
  | @done tokens token rest last h₁ h₂ form hf htake =>
      have hstep := take_follows lisp token h₁ last
      rw [htake] at hstep
      have hstart : last.pending.next token.content = .start := hstep
      rw [hf.remains, Pending.remains_item, hstart]
  | ended hf => cases hok
  | failed hf htake => cases hok
  | lexical hf => cases hok

theorem remains_of_read_ok {r : Reader} {lisp : Interpreter} {h : Heap} {v : Value}
    (hok : (r.read lisp h).result = .ok v) :
    Pending.start.remains r.pending =
      Pending.start.remains (r.read lisp h).reader.pending := by
  rw [← Stage.pending_nil, remains_of_run_ok hok]
  rfl

/-- When reading fails at the end of the text, the counter asks for more. -/
theorem remains_of_run_error {lisp : Interpreter} {length : Nat} {its : List Item} {h : Heap}
    {e : ParseError} (hne : its ≠ []) (herr : (run lisp length (.form []) its h).result = .error e)
    (he : e.isMissingEnd = true) : Pending.start.remains its = true := by
  have hrun := runsTo_run lisp length (.form []) its h
  generalize run lisp length (.form []) its h = out at hrun herr
  rw [← Stage.pending_nil]
  cases hrun with
  | done hf htake => cases herr
  | ended hf =>
      -- the reader stands inside of something, and the counter shows it
      have hlast := hf.ne_start (.inl fun hnil => hne (by rw [hnil, List.map_nil]))
      have hend := hf.remains []
      rw [List.append_nil] at hend
      rw [hend, Stage.remains_pending hlast]
  | @failed tokens token rest last h₁ h₂ e' hf htake =>
      cases herr
      -- a token that does not fit is not an error at the end
      have hstep := take_follows lisp token h₁ last
      rw [htake] at hstep
      exact absurd (hstep.symm.trans he) Bool.false_ne_true
  | @lexical tokens span e' rest last h₁ hf =>
      cases herr
      -- of the lexical errors only an open string counts, and it counts at once
      rw [hf.remains, Pending.remains]
      cases e' with
      | unterminatedString => rfl
      | _ => cases he

/-! ## All forms of a text -/

/-- The error of a reading, if it failed. -/
def Reading.error? (out : Reading) : Option ParseError :=
  match out.result with
  | .ok _ => none
  | .error e => some e

/-- The first error among readings. -/
def firstError? (readings : List Reading) : Option ParseError := readings.findSome? Reading.error?

theorem firstError?_cons_ok {out : Reading} {v : Value} (hok : out.result = .ok v)
    (later : List Reading) : firstError? (out :: later) = firstError? later := by
  have hnone : out.error? = none := by simp only [Reading.error?, hok]
  rw [firstError?, List.findSome?_cons, hnone]
  rfl

theorem firstError?_cons_error {out : Reading} {e : ParseError} (herr : out.result = .error e)
    (later : List Reading) : firstError? (out :: later) = some e := by
  have hsome : out.error? = some e := by simp only [Reading.error?, herr]
  rw [firstError?, List.findSome?_cons, hsome]

/-- The counter agrees with readings on whether a text asks for more, as far as these tell. -/
def Tells (readings : List Reading) (asks : Bool) : Prop :=
  (firstError? readings = none → asks = false) ∧
    ∀ e, firstError? readings = some e → e.isMissingEnd = true → asks = true

/-- A reading that failed tells whatever comes later. -/
theorem tells_cons_error {lisp : Interpreter} {r : Reader} {h : Heap} {out : Reading}
    {e : ParseError} (hnext : r.next? lisp h = some out) (herr : out.result = .error e)
    (later : List Reading) : Tells (out :: later) (Pending.start.remains r.pending) := by
  obtain ⟨hne, rfl⟩ := next?_eq_some_iff.1 hnext
  refine ⟨fun hnone => ?_, fun e' hsome he => ?_⟩
  · rw [firstError?_cons_error herr] at hnone
    cases hnone
  · rw [firstError?_cons_error herr] at hsome
    cases hsome
    exact remains_of_run_error hne herr he

/-- **The first error of a text tells whether it asks for more.** Every form that is read leads
the counter from its start to its start again. -/
theorem tells_readAll (lisp : Interpreter) (pastErrors : Bool) (r : Reader) (h : Heap) :
    Tells (r.readAll lisp pastErrors h).1 (Pending.start.remains r.pending) := by
  fun_induction Reader.readAll lisp pastErrors r h with
  | case1 r h hnext =>
      rw [next?_eq_none_iff.1 hnext]
      exact ⟨fun _ => rfl, fun e hsome _ => nomatch hsome⟩
  | case2 r h out hnext hstop =>
      cases hresult : out.result with
      | ok v => simp [hresult, Except.isOk, Except.toBool] at hstop
      | error e => exact tells_cons_error hnext hresult []
  | case3 r h out hnext _ later ih =>
      cases hresult : out.result with
      | error e => exact tells_cons_error hnext hresult later.1
      | ok v =>
          obtain ⟨_, rfl⟩ := next?_eq_some_iff.1 hnext
          rw [Tells, remains_of_read_ok hresult, firstError?_cons_ok hresult]
          exact ih

/-- **A text asks for more exactly as the reader finds it unfinished.** If all its forms are read
without error, nothing is asked for; if the first error is a list, a quote or a string without its
end, more is asked for. The state of the interpreter does not matter, nor whether reading goes on
behind an error. -/
theorem isIncomplete_agrees_with_readAll (lisp : Interpreter) (h : Heap) (pastErrors : Bool)
    (source : List Char) :
    (firstError? ((Reader.ofSource source).readAll lisp pastErrors h).1 = none →
      isIncomplete source = false) ∧
    (∀ e, firstError? ((Reader.ofSource source).readAll lisp pastErrors h).1 = some e →
      (∃ opened, e = .unclosedList opened) ∨ (∃ expected, e = .unexpectedEnd expected) ∨
        (∃ span, e = .lexical ⟨span, .unterminatedString⟩) →
      isIncomplete source = true) := by
  obtain ⟨hnone, hsome⟩ := tells_readAll lisp pastErrors (Reader.ofSource source) h
  refine ⟨hnone, fun e he hend => hsome e he ?_⟩
  rcases hend with ⟨opened, rfl⟩ | ⟨expected, rfl⟩ | ⟨span, rfl⟩ <;> rfl

/-- A parenthesis in a string or in a comment opens nothing, a quote behind a dot does. -/
theorem isIncomplete_agrees_on_dotted_pairs :
    firstError? ((Reader.ofSource "(\"(\" . 1) ; (".toList).readAll
        (Interpreter.fresh Heap.empty).1 true (Interpreter.fresh Heap.empty).2).1 = none ∧
    isIncomplete "(\"(\" . 1) ; (".toList = false ∧
    firstError? ((Reader.ofSource "1 (2 . \x27".toList).readAll
        (Interpreter.fresh Heap.empty).1 true (Interpreter.fresh Heap.empty).2).1 =
      some (.unexpectedEnd .quotedExpression) ∧
    isIncomplete "1 (2 . \x27".toList = true := by
  have hnone : firstError? ((Reader.ofSource "(\"(\" . 1) ; (".toList).readAll
      (Interpreter.fresh Heap.empty).1 true (Interpreter.fresh Heap.empty).2).1 = none := by
    decide +kernel
  have hend : firstError? ((Reader.ofSource "1 (2 . \x27".toList).readAll
      (Interpreter.fresh Heap.empty).1 true (Interpreter.fresh Heap.empty).2).1 =
      some (.unexpectedEnd .quotedExpression) := by
    decide +kernel
  exact ⟨hnone, (isIncomplete_agrees_with_readAll _ _ true _).1 hnone, hend,
    (isIncomplete_agrees_with_readAll _ _ true _).2 _ hend (.inr (.inl ⟨_, rfl⟩))⟩

end SmallLisp
