import SmallLisp.Form.Reader
import SmallLisp.Proofs.Token.Places

set_option autoImplicit false

/-! # Moving what has been read

Where a text begins only matters for spans. If the items in front of a reader all stand `n` bytes
further to the right, then what it reads is the same, and so is the heap, while the errors, the
items that are left and the position are `n` bytes further to the right too (`read_shift`). The
stack of the reader holds the places of the lists that are open, so it is moved along with the
items in the induction (`run_shift`).
-/

namespace SmallLisp

open Reader

/-! ## Errors, constructs and stages -/

/-- An error of reading, with its span `n` bytes further to the right. -/
def ParseError.shift (n : Nat) : ParseError → ParseError
  | .unexpectedToken found expected => .unexpectedToken (found.shift n) expected
  | .unexpectedEnd expected => .unexpectedEnd expected
  | .unclosedList opened => .unclosedList (opened.shift n)
  | .lexical error => .lexical (error.shift n)
  | .invalidDot span => .invalidDot (span.shift n)

/-- A construct that was opened further to the right. -/
def Context.shift (n : Nat) : Context → Context
  | .list opened items => .list (opened.shift n) items
  | .tail opened items => .tail (opened.shift n) items
  | .quote => .quote

/-- A stage inside of constructs that were opened further to the right. -/
def Stage.shift (n : Nat) : Stage → Stage
  | .form stack => .form (stack.map (Context.shift n))
  | .closing opened items tail stack =>
      .closing (opened.shift n) items tail (stack.map (Context.shift n))

/-- Progress with the spans in it moved. -/
def Progress.shift (n : Nat) : Progress → Progress
  | .done form => .done form
  | .more stage => .more (stage.shift n)
  | .failed e => .failed (e.shift n)

section

variable (lisp : Interpreter) (n : Nat)

theorem deliver_shift (form : Value) (stack : List Context) (h : Heap) :
    deliver lisp form (stack.map (Context.shift n)) h =
      ((deliver lisp form stack h).1.shift n, (deliver lisp form stack h).2) := by
  induction stack generalizing form h with
  | nil => rfl
  | cons context stack ih =>
      cases context with
      | list opened items => rfl
      | tail opened items => rfl
      | quote => exact ih _ _

theorem takeForm_shift (token : Located Token) (stack : List Context) (h : Heap) :
    takeForm lisp (token.shift n) (stack.map (Context.shift n)) h =
      ((takeForm lisp token stack h).1.shift n, (takeForm lisp token stack h).2) := by
  unfold takeForm
  rw [Located.content_shift]
  cases token.content with
  | leftParen => rfl
  | quote => rfl
  | integer i => exact deliver_shift lisp n _ stack _
  | float x => exact deliver_shift lisp n _ stack _
  | string s => exact deliver_shift lisp n _ stack _
  | symbol name => exact deliver_shift lisp n _ stack _
  | rightParen =>
      match stack with
      | [] => rfl
      | .list opened items :: stack => exact deliver_shift lisp n _ stack _
      | .tail opened items :: stack => rfl
      | .quote :: stack => rfl
  | dot =>
      match stack with
      | [] => rfl
      | .list opened [] :: stack => rfl
      | .list opened (x :: xs) :: stack => rfl
      | .tail opened items :: stack => rfl
      | .quote :: stack => rfl

theorem take_shift (token : Located Token) (stage : Stage) (h : Heap) :
    (stage.shift n).take lisp (token.shift n) h =
      ((stage.take lisp token h).1.shift n, (stage.take lisp token h).2) := by
  cases stage with
  | form stack => exact takeForm_shift lisp n token stack h
  | closing opened items tail stack =>
      simp only [Stage.shift, Stage.take, Located.content_shift]
      cases token.content with
      | rightParen => exact deliver_shift lisp n _ stack _
      | _ => rfl

theorem atEnd_shift (stage : Stage) : (stage.shift n).atEnd = stage.atEnd.shift n := by
  match stage with
  | .form [] => rfl
  | .form (.quote :: _) => rfl
  | .form (.list _ _ :: _) => rfl
  | .form (.tail _ _ :: _) => rfl
  | .closing _ _ _ _ => rfl

end

/-! ## Readers and readings -/

/-- A reader on a text that begins further to the right. -/
def Reader.shift (n : Nat) (r : Reader) : Reader :=
  ⟨r.pending.map (Located.shift n), r.position + n, r.length + n⟩

theorem Located.shift_shift {α : Type} (m n : Nat) (x : Located α) :
    (x.shift m).shift n = x.shift (n + m) := by
  simp only [Located.shift, Span.shift, Located.mk.injEq, Span.mk.injEq, and_true]
  omega

theorem Reader.shift_shift (m n : Nat) (r : Reader) : (r.shift m).shift n = r.shift (n + m) := by
  simp only [Reader.shift, List.map_map, Reader.mk.injEq]
  refine ⟨List.map_congr_left fun item _ => Located.shift_shift m n item, ?_, ?_⟩ <;> omega

theorem Reader.shift_zero (r : Reader) : r.shift 0 = r := by
  have hitem : Located.shift 0 = (id : Item → Item) := rfl
  simp only [Reader.shift, hitem, List.map_id, Nat.add_zero]

/-- A reading that was made further to the right. -/
def Reading.shift (n : Nat) (out : Reading) : Reading :=
  ⟨out.result.mapError (ParseError.shift n), out.reader.shift n, out.heap⟩

/-- Two readings that differ in their places only: the second was made `n` bytes further to the
right. Where the source of the first ends may be anywhere, and shows in the position. -/
structure Reading.Moved (n : Nat) (out out' : Reading) : Prop where
  result : out'.result = out.result.mapError (ParseError.shift n)
  pending : out'.reader.pending = out.reader.pending.map (Located.shift n)
  position : out'.reader.length = out.reader.length + n →
    out'.reader.position = out.reader.position + n
  heap : out'.heap = out.heap

/-- **Reading commutes with moving.** -/
theorem Reader.run_shift (lisp : Interpreter) (n length length' : Nat) (stage : Stage)
    (its : List Item) (h : Heap) :
    (run lisp length stage its h).Moved n
      (run lisp length' (stage.shift n) (its.map (Located.shift n)) h) := by
  induction its generalizing stage h with
  | nil => exact ⟨congrArg Except.error (atEnd_shift n stage), rfl, id, rfl⟩
  | cons item rest ih =>
      obtain ⟨span, content⟩ := item
      cases content with
      | error e => exact ⟨rfl, rfl, fun _ => rfl, rfl⟩
      | ok token =>
          have htake := take_shift lisp n ⟨span, token⟩ stage h
          rw [List.map_cons, run, run]
          simp only [Located.content_shift, Located.span_shift]
          rw [show (⟨span.shift n, token⟩ : Located Token) = Located.shift n ⟨span, token⟩ from rfl,
            htake]
          rcases stage.take lisp ⟨span, token⟩ h with ⟨p, h₁⟩
          cases p with
          | done form => exact ⟨rfl, rfl, fun _ => rfl, rfl⟩
          | failed e => exact ⟨rfl, rfl, fun _ => rfl, rfl⟩
          | more next => exact ih next h₁

namespace Reader

@[simp]
theorem length_run (lisp : Interpreter) (length : Nat) (stage : Stage) (its : List Item)
    (h : Heap) : (run lisp length stage its h).reader.length = length := by
  fun_induction run lisp length stage its h with
  | case5 _ _ _ _ _ _ _ _ _ ih => exact ih
  | _ => rfl

@[simp]
theorem length_read (r : Reader) (lisp : Interpreter) (h : Heap) :
    (r.read lisp h).reader.length = r.length :=
  length_run lisp r.length (.form []) r.pending h

/-- **A reader that stands further to the right reads the same, further to the right.** -/
theorem read_shift (n : Nat) (r : Reader) (lisp : Interpreter) (h : Heap) :
    (r.shift n).read lisp h = (r.read lisp h).shift n := by
  have hmoved : (r.read lisp h).Moved n ((r.shift n).read lisp h) :=
    run_shift lisp n r.length (r.length + n) (.form []) r.pending h
  have hlength : ((r.shift n).read lisp h).reader.length = (r.read lisp h).reader.length + n := by
    rw [length_read, length_read]
    rfl
  obtain ⟨hresult, hpending, hposition, hheap⟩ := hmoved
  specialize hposition hlength
  revert hresult hpending hposition hheap hlength
  rcases (r.shift n).read lisp h with ⟨result, ⟨pending, position, length⟩, heap⟩
  rintro rfl rfl rfl rfl rfl
  rfl

theorem next?_shift (n : Nat) (r : Reader) (lisp : Interpreter) (h : Heap) :
    (r.shift n).next? lisp h = (r.next? lisp h).map (Reading.shift n) := by
  have hempty : (r.shift n).pending.isEmpty = r.pending.isEmpty := List.isEmpty_map
  unfold next?
  rw [hempty, read_shift]
  split <;> rfl

end Reader

end SmallLisp
