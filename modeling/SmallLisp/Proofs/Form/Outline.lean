import SmallLisp.Proofs.Form.Incomplete
import SmallLisp.Proofs.Form.Steps

set_option autoImplicit false

/-! # The outline of a reading

Whether tokens can be read, and where they stop to be, does not depend on values: it is enough to
know which constructs are open and whether a list has elements already. `Outline` is the reader
with all else left out. It takes a token exactly when the reader does (`take_outline`), so that
the contents of a text alone tell whether all its forms are read, and whether it breaks off in the
middle of one (`outlined_readAll`).

From an outline it can be seen what is missing: a form, unless there is one already, and a
parenthesis for every list that is open (`Outline.closers`).
-/

namespace SmallLisp

open Reader

/-- A construct that is being read, its values left aside. -/
inductive Slot
  /-- A list, with elements in it already or not. -/
  | list (filled : Bool)
  /-- A list, behind its dot. -/
  | tail
  /-- A quote. -/
  | quote
deriving DecidableEq

/-- **The outline of a stage** of the reader. -/
inductive Outline
  /-- A form is missing, or the end of the list that is innermost. -/
  | form (stack : List Slot)
  /-- The end of a list is missing whose dotted tail is complete. -/
  | closing (stack : List Slot)
deriving DecidableEq

namespace Outline

/-- Before the first form of a text, and between two forms. -/
def start : Outline := .form []

/-- What is missing after a form. -/
def delivered : List Slot → Outline
  | [] => start
  | .quote :: stack => delivered stack
  | .list _ :: stack => .form (.list true :: stack)
  | .tail :: stack => .closing stack

/-- What is missing after one more token, if it fits. -/
def next? (o : Outline) (t : Token) : Option Outline :=
  match o, t with
  | .form stack, .leftParen => some (.form (.list false :: stack))
  | .form stack, .quote => some (.form (.quote :: stack))
  | .form stack, .rightParen =>
      match stack with
      | .list _ :: outer => some (delivered outer)
      | _ => none
  | .form stack, .dot =>
      match stack with
      | .list true :: outer => some (.form (.tail :: outer))
      | _ => none
  | .form stack, _ => some (delivered stack)
  | .closing stack, .rightParen => some (delivered stack)
  | .closing _, _ => none

/-- What is missing after one more token or error. There is no way on behind an error. -/
def step? (o : Outline) : Except LexicalError Token → Option Outline
  | .ok t => o.next? t
  | .error _ => none

/-- **What is missing after all these**, if they fit. -/
def follow? (o : Outline) (cs : List (Except LexicalError Token)) : Option Outline :=
  cs.foldlM step? o

theorem follow?_cons (o : Outline) (c : Except LexicalError Token)
    (cs : List (Except LexicalError Token)) :
    o.follow? (c :: cs) = (o.step? c).bind (·.follow? cs) :=
  List.foldlM_cons

theorem follow?_append (o : Outline) (cs ds : List (Except LexicalError Token)) :
    o.follow? (cs ++ ds) = (o.follow? cs).bind (·.follow? ds) :=
  List.foldlM_append

/-- Atoms are all alike. -/
theorem next?_of_isAtom {t : Token} (ht : t.isAtom = true) (o : Outline) :
    o.next? t = o.next? (.symbol "") := by
  cases o <;> cases t <;> first | rfl | cases ht

/-- No token is an error where there is a way on. -/
theorem not_mem_error_of_follow? {o o' : Outline} {cs : List (Except LexicalError Token)}
    (h : o.follow? cs = some o') (e : LexicalError) : .error e ∉ cs := by
  induction cs generalizing o with
  | nil => exact List.not_mem_nil
  | cons c cs ih =>
      rw [follow?_cons] at h
      obtain ⟨next, hnext, hrest⟩ := Option.bind_eq_some_iff.1 h
      rw [List.mem_cons, not_or]
      refine ⟨?_, ih hrest⟩
      rintro rfl
      cases hnext

end Outline

/-! ## The outline of the reader -/

/-- A construct without its values. -/
def Context.slot : Context → Slot
  | .list _ items => .list (!items.isEmpty)
  | .tail _ _ => .tail
  | .quote => .quote

/-- What is missing at a stage. -/
def Stage.outline : Stage → Outline
  | .form stack => .form (stack.map Context.slot)
  | .closing _ _ _ stack => .closing (stack.map Context.slot)

theorem Stage.outline_eq_start_iff {stage : Stage} : stage.outline = .start ↔ stage = .form [] := by
  cases stage with
  | closing opened items tail stack => exact ⟨nofun, nofun⟩
  | form stack => simp [Stage.outline, Outline.start]

/-- What the outline of a reader becomes with the result of taking a token. -/
def Progress.outline? : Progress → Option Outline
  | .done _ => some .start
  | .more stage => some stage.outline
  | .failed _ => none

theorem deliver_outline (lisp : Interpreter) (form : Value) (stack : List Context) (h : Heap) :
    (deliver lisp form stack h).1.outline? = some (.delivered (stack.map Context.slot)) := by
  induction stack generalizing form h with
  | nil => rfl
  | cons context stack ih =>
      cases context with
      | quote => exact ih _ _
      | list opened items => rfl
      | tail opened items => rfl

theorem Stage.Opens.outline {stage next : Stage} {token : Located Token}
    (hopens : stage.Opens token next) : stage.outline.next? token.content = some next.outline := by
  cases hopens <;> rfl

theorem Stage.Finishes.outline {stage : Stage} {token : Located Token} {stack : List Context}
    (hfinishes : stage.Finishes token stack) :
    stage.outline.next? token.content = some (.delivered (stack.map Context.slot)) := by
  cases hfinishes with
  | atom htoken => exact Outline.next?_of_isAtom htoken _
  | list span opened items stack => rfl
  | tail span opened items tail stack => rfl

theorem Stage.Refuses.outline {stage : Stage} {token : Located Token} {e : ParseError}
    (hrefuses : stage.Refuses token e) : stage.outline.next? token.content = none := by
  cases hrefuses with
  | @close span stack hstack =>
      cases stack with
      | nil => rfl
      | cons context stack =>
          cases context with
          | list opened items => exact absurd rfl (hstack opened items stack)
          | tail opened items => rfl
          | quote => rfl
  | @dot span stack hstack =>
      cases stack with
      | nil => rfl
      | cons context stack =>
          cases context with
          | list opened items =>
              cases items with
              | nil => rfl
              | cons x xs => exact absurd rfl (hstack opened x xs stack)
          | tail opened items => rfl
          | quote => rfl
  | @tail token htoken opened items tail stack =>
      obtain ⟨span, token⟩ := token
      cases token with
      | rightParen => exact absurd rfl htoken
      | _ => rfl

/-- **A token moves the reader and its outline alike.** -/
theorem take_outline (lisp : Interpreter) (token : Located Token) (h : Heap) (stage : Stage) :
    (stage.take lisp token h).1.outline? = stage.outline.next? token.content := by
  rcases stage.take_cases lisp token h with
    ⟨next, hopens, htake⟩ | ⟨form, stack, h', hfinishes, htake⟩ | ⟨e, hrefuses, htake⟩
  · rw [htake, hopens.outline]
    rfl
  · rw [htake, hfinishes.outline, deliver_outline]
  · rw [htake, hrefuses.outline]
    rfl

/-! ## Whole runs -/

/-- What is missing after items. -/
def Outline.after? (o : Outline) (its : List Item) : Option Outline :=
  o.follow? (its.map Located.content)

theorem Outline.after?_item (o : Outline) (token : Located Token) (its : List Item) :
    o.after? (token.item :: its) = (o.next? token.content).bind (·.after? its) :=
  o.follow?_cons _ _

theorem Reader.Feeds.after? {lisp : Interpreter} {stage last : Stage}
    {tokens : List (Located Token)} {h h' : Heap} (hf : Feeds lisp stage tokens h last h')
    (rest : List Item) :
    stage.outline.after? (tokens.map Located.item ++ rest) = last.outline.after? rest := by
  induction hf with
  | nil => rfl
  | @cons stage next last token tokens h h' h'' htake _ ih =>
      have hstep := take_outline lisp token h stage
      rw [htake] at hstep
      rw [List.map_cons, List.cons_append, Outline.after?_item, ← hstep]
      exact ih

/-- **An error at the end of the text in the middle of a form**: a list is open, or a form is
missing behind a quote. -/
def ParseError.isUnfinished : ParseError → Bool
  | .unclosedList _ => true
  | .unexpectedEnd _ => true
  | _ => false

theorem ParseError.isUnfinished_eq_false {e : ParseError} (he : e.isMissingEnd = false) :
    e.isUnfinished = false := by
  cases e with
  | unclosedList opened => cases he
  | unexpectedEnd expected => cases he
  | _ => rfl

theorem Stage.isUnfinished_atEnd (stage : Stage) : stage.atEnd.isUnfinished = true := by
  cases stage with
  | closing opened items tail stack => rfl
  | form stack =>
      cases stack with
      | nil => rfl
      | cons context stack => cases context <;> rfl

/-- What the outline shows after a reading that failed: something is missing if the text broke
off, and there is no way on otherwise. -/
def ParseError.Outlines (e : ParseError) (o : Option Outline) : Prop :=
  if e.isUnfinished then ∃ missing, o = some missing ∧ missing ≠ .start else o = none

theorem outlines_of_run {lisp : Interpreter} {length : Nat} {its : List Item} {h : Heap}
    {e : ParseError} (hne : its ≠ [])
    (herr : (run lisp length (.form []) its h).result = .error e) :
    e.Outlines (Outline.start.after? its) := by
  have hrun := runsTo_run lisp length (.form []) its h
  generalize run lisp length (.form []) its h = out at hrun herr
  have hstart : Outline.start = (Stage.form []).outline := rfl
  rw [hstart]
  cases hrun with
  | done hf htake => cases herr
  | @ended tokens last h₁ hf =>
      cases herr
      have hlast := hf.ne_start (.inl fun hnil => hne (by rw [hnil, List.map_nil]))
      have hend := hf.after? []
      rw [List.append_nil] at hend
      rw [ParseError.Outlines, if_pos last.isUnfinished_atEnd, hend]
      exact ⟨last.outline, rfl, fun hstart => hlast (Stage.outline_eq_start_iff.1 hstart)⟩
  | @failed tokens token rest last h₁ h₂ e' hf htake =>
      cases herr
      have hstep := take_outline lisp token h₁ last
      have hfollows := take_follows lisp token h₁ last
      rw [htake] at hstep hfollows
      rw [ParseError.Outlines, ParseError.isUnfinished_eq_false hfollows, hf.after?,
        Outline.after?_item, ← hstep]
      rfl
  | @lexical tokens span e' rest last h₁ hf =>
      cases herr
      rw [ParseError.Outlines, hf.after?]
      rfl

theorem after?_of_run_ok {lisp : Interpreter} {length : Nat} {its : List Item} {h : Heap}
    {v : Value} (hok : (run lisp length (.form []) its h).result = .ok v) :
    Outline.start.after? its =
      Outline.start.after? (run lisp length (.form []) its h).reader.pending := by
  have hrun := runsTo_run lisp length (.form []) its h
  generalize run lisp length (.form []) its h = out at hrun hok ⊢
  have hstart : Outline.start = (Stage.form []).outline := rfl
  cases hrun with
  | @done tokens token rest last h₁ h₂ form hf htake =>
      have hstep := take_outline lisp token h₁ last
      rw [htake] at hstep
      rw [hstart, hf.after?, Outline.after?_item, ← hstep]
      rfl
  | ended hf => cases hok
  | failed hf htake => cases hok
  | lexical hf => cases hok

/-- What the outline shows after readings. -/
def Outlined (readings : List Reading) (o : Option Outline) : Prop :=
  match firstError? readings with
  | none => o = some .start
  | some e => e.Outlines o

/-- **The first error of a text tells what is missing at its end.** -/
theorem outlined_readAll (lisp : Interpreter) (pastErrors : Bool) (r : Reader) (h : Heap) :
    Outlined (r.readAll lisp pastErrors h).1 (Outline.start.after? r.pending) := by
  have herror : ∀ {r : Reader} {h : Heap} {out : Reading} {e : ParseError},
      r.next? lisp h = some out → out.result = .error e → ∀ later,
      Outlined (out :: later) (Outline.start.after? r.pending) := by
    intro r h out e hnext hresult later
    obtain ⟨hne, rfl⟩ := next?_eq_some_iff.1 hnext
    rw [Outlined, firstError?_cons_error hresult]
    exact outlines_of_run hne hresult
  fun_induction Reader.readAll lisp pastErrors r h with
  | case1 r h hnext =>
      rw [next?_eq_none_iff.1 hnext]
      exact rfl
  | case2 r h out hnext hstop =>
      cases hresult : out.result with
      | ok v => simp [hresult, Except.isOk, Except.toBool] at hstop
      | error e => exact herror hnext hresult []
  | case3 r h out hnext _ later ih =>
      cases hresult : out.result with
      | error e => exact herror hnext hresult later.1
      | ok v =>
          obtain ⟨_, rfl⟩ := next?_eq_some_iff.1 hnext
          rw [Outlined, firstError?_cons_ok hresult]
          have hrest := after?_of_run_ok hresult
          rw [hrest]
          exact ih

section

variable (lisp : Interpreter) (pastErrors : Bool) (h : Heap) (source : List Char)

/-- **All forms of a text are read** if nothing is missing at its end. -/
theorem firstError?_eq_none_iff :
    firstError? ((Reader.ofSource source).readAll lisp pastErrors h).1 = none ↔
      Outline.start.follow? (contents source) = some .start := by
  have hall := outlined_readAll lisp pastErrors (Reader.ofSource source) h
  show _ ↔ Outline.start.after? (Reader.ofSource source).pending = some .start
  rw [Outlined] at hall
  split at hall
  · rename_i hnone
    exact ⟨fun _ => hall, fun _ => hnone⟩
  · rename_i e hsome
    rw [hsome]
    refine ⟨nofun, fun hstart => ?_⟩
    rw [ParseError.Outlines, hstart] at hall
    split at hall
    · obtain ⟨missing, hmissing, hne⟩ := hall
      exact absurd (Option.some.inj hmissing).symm hne
    · cases hall

/-- **A text breaks off in the middle of a form**, at the worst, if something is missing at its
end. -/
theorem isUnfinished_firstError?_iff :
    (∀ e, firstError? ((Reader.ofSource source).readAll lisp pastErrors h).1 = some e →
      e.isUnfinished = true) ↔
        ∃ missing, Outline.start.follow? (contents source) = some missing := by
  have hall := outlined_readAll lisp pastErrors (Reader.ofSource source) h
  show _ ↔ ∃ missing, Outline.start.after? (Reader.ofSource source).pending = some missing
  rw [Outlined] at hall
  split at hall
  · rename_i hnone
    rw [hnone, hall]
    exact ⟨fun _ => ⟨_, rfl⟩, fun _ => nofun⟩
  · rename_i e hsome
    rw [hsome]
    rw [ParseError.Outlines] at hall
    split at hall
    · rename_i he
      obtain ⟨missing, hmissing, _⟩ := hall
      refine ⟨fun _ => ⟨missing, hmissing⟩, fun _ => ?_⟩
      rintro _ ⟨⟩
      exact he
    · rename_i he
      rw [hall]
      exact ⟨fun hunfinished => absurd (hunfinished e rfl) he, nofun⟩

end

/-! ## What is missing -/

namespace Outline

/-- The number of lists that are open. -/
def openLists (stack : List Slot) : Nat := stack.countP (· != .quote)

/-- **A text that completes an outline**: a form, unless there is one already, and the ends of all
lists. -/
def closers : Outline → List Char
  | .form stack => '(' :: ')' :: List.replicate (openLists stack) ')'
  | .closing stack => ')' :: List.replicate (openLists stack) ')'

theorem contents_replicate (n : Nat) :
    contents (List.replicate n ')') = List.replicate n (.ok .rightParen) := by
  induction n with
  | zero => exact contents_nil
  | succ n ih => rw [List.replicate_succ, contents_rightParen, ih, List.replicate_succ]

/-- After a form it is enough to close all lists. -/
theorem follow?_delivered (stack : List Slot) :
    (delivered stack).follow? (List.replicate (openLists stack) (.ok .rightParen)) =
      some start := by
  induction stack with
  | nil => rfl
  | cons slot stack ih =>
      cases slot with
      | quote => exact ih
      | list filled =>
          have hcount : openLists (.list filled :: stack) = openLists stack + 1 :=
            List.countP_cons_of_pos rfl
          rw [hcount, List.replicate_succ, follow?_cons]
          exact ih
      | tail =>
          have hcount : openLists (.tail :: stack) = openLists stack + 1 :=
            List.countP_cons_of_pos rfl
          rw [hcount, List.replicate_succ, follow?_cons]
          exact ih

/-- **Every outline can be completed.** -/
theorem follow?_closers (o : Outline) : o.follow? (contents o.closers) = some start := by
  cases o with
  | form stack =>
      rw [closers, contents_leftParen, contents_rightParen, contents_replicate, follow?_cons]
      exact follow?_delivered stack
  | closing stack =>
      rw [closers, contents_rightParen, contents_replicate, follow?_cons]
      exact follow?_delivered stack

end Outline

end SmallLisp
