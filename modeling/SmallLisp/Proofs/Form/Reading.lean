import SmallLisp.Form.Reader
import SmallLisp.Proofs.Interpreter.Reachable

set_option autoImplicit false

/-! # The course of a reading

`Reader.run` takes items until a form is complete or something goes wrong. This file says once
what a run looks like (`runsTo_run`): the reader is fed tokens that each leave it waiting for
more, and then either a token completes the form, or the input ends, or a token does not fit, or
there is a lexical error. Everything else about reading is proved along `Feeds`, token by token.

What a run does to the heap are elementary changes (`changes_run`), and spans only matter to the
errors it reports: items of the same contents are read alike (`run_alike`).
-/

namespace SmallLisp

/-- A token as an item. -/
def Located.item (t : Located Token) : Item := ⟨t.span, .ok t.content⟩

@[simp]
theorem Located.content_item (t : Located Token) : t.item.content = .ok t.content := rfl

@[simp]
theorem Located.span_item (t : Located Token) : t.item.span = t.span := rfl

/-! ## Changes of the heap -/

open Heap

theorem changes_deliver (lisp : Interpreter) (form : Value) (stack : List Context) (h : Heap) :
    Changes h (deliver lisp form stack h).2 := by
  induction stack generalizing form h with
  | nil => exact .refl
  | cons context stack ih =>
      cases context with
      | list opened items => exact .refl
      | tail opened items => exact .refl
      | quote =>
          exact ((lisp.changes_intern h "quote").trans (lisp.changes_list _ _)).trans (ih _ _)

theorem changes_takeForm (lisp : Interpreter) (token : Located Token) (stack : List Context)
    (h : Heap) : Changes h (takeForm lisp token stack h).2 := by
  unfold takeForm
  split
  · exact .refl
  · exact .refl
  · exact (Relation.ReflTransGen.single (.alloc h _)).trans (changes_deliver lisp _ stack _)
  · exact (Relation.ReflTransGen.single (.alloc h _)).trans (changes_deliver lisp _ stack _)
  · exact (Relation.ReflTransGen.single (.alloc h _)).trans (changes_deliver lisp _ stack _)
  · exact (lisp.changes_intern h _).trans (changes_deliver lisp _ stack _)
  · split
    · exact (lisp.changes_list h _).trans (changes_deliver lisp _ _ _)
    · exact .refl
  · split <;> exact .refl

theorem changes_take (lisp : Interpreter) (token : Located Token) (h : Heap) (stage : Stage) :
    Changes h (stage.take lisp token h).2 := by
  cases stage with
  | form stack => exact changes_takeForm lisp token stack h
  | closing opened items tail stack =>
      simp only [Stage.take]
      split
      · exact (changes_listWithTail h tail _).trans (changes_deliver lisp _ stack _)
      · exact .refl

namespace Reader

/-! ## Feeding tokens -/

/-- **The reader is fed tokens** and wants more after each of them. -/
inductive Feeds (lisp : Interpreter) : Stage → List (Located Token) → Heap → Stage → Heap → Prop
  | nil (stage : Stage) (h : Heap) : Feeds lisp stage [] h stage h
  | cons {stage next last : Stage} {token : Located Token} {tokens : List (Located Token)}
      {h h' h'' : Heap} (htake : stage.take lisp token h = (.more next, h'))
      (hrest : Feeds lisp next tokens h' last h'') :
      Feeds lisp stage (token :: tokens) h last h''

theorem Feeds.changes {lisp : Interpreter} {stage last : Stage} {tokens : List (Located Token)}
    {h h' : Heap} (hf : Feeds lisp stage tokens h last h') : Changes h h' := by
  induction hf with
  | nil => exact .refl
  | @cons stage next last token tokens h h' h'' htake _ ih =>
      have hstep := changes_take lisp token h stage
      rw [htake] at hstep
      exact hstep.trans ih

/-- **How a run ends**: with a form, at the end of the input, at a token that does not fit, or at
a lexical error. -/
inductive RunsTo (lisp : Interpreter) (length : Nat) (stage : Stage) (h : Heap) :
    List Item → Reading → Prop
  | done {tokens : List (Located Token)} {token : Located Token} {rest : List Item}
      {last : Stage} {h₁ h₂ : Heap} {form : Value} (hf : Feeds lisp stage tokens h last h₁)
      (htake : last.take lisp token h₁ = (.done form, h₂)) :
      RunsTo lisp length stage h (tokens.map Located.item ++ token.item :: rest)
        ⟨.ok form, ⟨rest, token.span.stop, length⟩, h₂⟩
  | ended {tokens : List (Located Token)} {last : Stage} {h₁ : Heap}
      (hf : Feeds lisp stage tokens h last h₁) :
      RunsTo lisp length stage h (tokens.map Located.item)
        ⟨.error last.atEnd, ⟨[], length, length⟩, h₁⟩
  | failed {tokens : List (Located Token)} {token : Located Token} {rest : List Item}
      {last : Stage} {h₁ h₂ : Heap} {e : ParseError} (hf : Feeds lisp stage tokens h last h₁)
      (htake : last.take lisp token h₁ = (.failed e, h₂)) :
      RunsTo lisp length stage h (tokens.map Located.item ++ token.item :: rest)
        ⟨.error e, ⟨rest, token.span.stop, length⟩, h₂⟩
  | lexical {tokens : List (Located Token)} {span : Span} {e : LexicalError} {rest : List Item}
      {last : Stage} {h₁ : Heap} (hf : Feeds lisp stage tokens h last h₁) :
      RunsTo lisp length stage h (tokens.map Located.item ++ ⟨span, .error e⟩ :: rest)
        ⟨.error (.lexical ⟨span, e⟩), ⟨rest, span.stop, length⟩, h₁⟩

/-- A token in front that leaves the reader waiting does not change how the run ends. -/
theorem RunsTo.cons {lisp : Interpreter} {length : Nat} {stage next : Stage} {h h' : Heap}
    {token : Located Token} {its : List Item} {out : Reading}
    (htake : stage.take lisp token h = (.more next, h'))
    (hrun : RunsTo lisp length next h' its out) :
    RunsTo lisp length stage h (token.item :: its) out := by
  cases hrun with
  | done hf hlast => exact .done (.cons htake hf) hlast
  | ended hf => exact .ended (.cons htake hf)
  | failed hf hlast => exact .failed (.cons htake hf) hlast
  | lexical hf => exact .lexical (.cons htake hf)

/-- **Every run ends in one of the four ways.** -/
theorem runsTo_run (lisp : Interpreter) (length : Nat) (stage : Stage) (its : List Item)
    (h : Heap) : RunsTo lisp length stage h its (run lisp length stage its h) := by
  -- the first item decides: it ends the run, or the rest of the run is one from the next stage
  induction its generalizing stage h with
  | nil => exact .ended (.nil stage h)
  | cons item rest ih =>
      obtain ⟨span, content⟩ := item
      unfold run
      split
      · rename_i e he
        cases he
        exact .lexical (.nil stage h)
      · rename_i token htoken
        cases htoken
        split
        · rename_i form h' htake
          exact .done (.nil stage h) htake
        · rename_i e h' htake
          exact .failed (.nil stage h) htake
        · rename_i next h' htake
          exact (ih next h').cons htake

/-- Tokens that have been fed are behind the reader. -/
theorem run_of_feeds {lisp : Interpreter} {stage last : Stage} {tokens : List (Located Token)}
    {h h' : Heap} (hf : Feeds lisp stage tokens h last h') (length : Nat) (rest : List Item) :
    run lisp length stage (tokens.map Located.item ++ rest) h = run lisp length last rest h' := by
  induction hf with
  | nil => rfl
  | cons htake _ ih =>
      rw [← ih, List.map_cons, List.cons_append, run]
      simp only [Located.content_item, Located.span_item]
      rw [htake]

theorem next?_eq_none_iff {r : Reader} {lisp : Interpreter} {h : Heap} :
    r.next? lisp h = none ↔ r.pending = [] := by
  simp [next?]

theorem next?_eq_some_iff {r : Reader} {lisp : Interpreter} {h : Heap} {out : Reading} :
    r.next? lisp h = some out ↔ r.pending ≠ [] ∧ r.read lisp h = out := by
  simp [next?]

theorem changes_run (lisp : Interpreter) (length : Nat) (stage : Stage) (its : List Item)
    (h : Heap) : Changes h (run lisp length stage its h).heap := by
  have hrun := runsTo_run lisp length stage its h
  have hlast : ∀ {token : Located Token} {last : Stage} {h₁ h₂ : Heap} {p : Progress},
      last.take lisp token h₁ = (p, h₂) → Changes h₁ h₂ := by
    intro token last h₁ h₂ p htake
    have hstep := changes_take lisp token h₁ last
    rwa [htake] at hstep
  generalize run lisp length stage its h = out at hrun
  cases hrun with
  | done hf htake => exact hf.changes.trans (hlast htake)
  | ended hf => exact hf.changes
  | failed hf htake => exact hf.changes.trans (hlast htake)
  | lexical hf => exact hf.changes

theorem changes_read (r : Reader) (lisp : Interpreter) (h : Heap) :
    Changes h (r.read lisp h).heap :=
  changes_run lisp r.length (.form []) r.pending h

end Reader

theorem changes_readText (lisp : Interpreter) (source : List Char) (h : Heap) :
    Changes h (readText lisp source h).2 := by
  have hreader := (Reader.ofSource source).changes_read lisp h
  simp only [readText]
  split
  · exact hreader
  · split
    · exact hreader
    · split <;> exact hreader

/-! ## Spans do not matter -/

/-- Contexts that differ at most in where a list was opened. -/
inductive Context.Alike : Context → Context → Prop
  | list (opened opened' : Span) (items : List Value) :
      Alike (.list opened items) (.list opened' items)
  | tail (opened opened' : Span) (items : List Value) :
      Alike (.tail opened items) (.tail opened' items)
  | quote : Alike .quote .quote

/-- Stages that differ at most in where lists were opened. -/
inductive Stage.Alike : Stage → Stage → Prop
  | form {stack stack' : List Context} (hs : List.Forall₂ Context.Alike stack stack') :
      Alike (.form stack) (.form stack')
  | closing (opened opened' : Span) (items : List Value) (tail : Value)
      {stack stack' : List Context} (hs : List.Forall₂ Context.Alike stack stack') :
      Alike (.closing opened items tail stack) (.closing opened' items tail stack')

/-- The same progress, but for spans. Any two failures count as the same. -/
inductive Progress.Alike : Progress → Progress → Prop
  | done (form : Value) : Alike (.done form) (.done form)
  | more {stage stage' : Stage} (hs : stage.Alike stage') : Alike (.more stage) (.more stage')
  | failed (e e' : ParseError) : Alike (.failed e) (.failed e')

theorem deliver_alike (lisp : Interpreter) (form : Value) {stack stack' : List Context}
    (hs : List.Forall₂ Context.Alike stack stack') (h : Heap) :
    (deliver lisp form stack h).1.Alike (deliver lisp form stack' h).1 ∧
      (deliver lisp form stack h).2 = (deliver lisp form stack' h).2 := by
  induction hs generalizing form h with
  | nil => exact ⟨.done form, rfl⟩
  | cons hc hs ih =>
      cases hc with
      | list opened opened' items => exact ⟨.more (.form (.cons (.list _ _ _) hs)), rfl⟩
      | tail opened opened' items => exact ⟨.more (.closing _ _ _ _ hs), rfl⟩
      | quote => exact ih _ _

theorem takeForm_alike (lisp : Interpreter) {token token' : Located Token}
    (ht : token.content = token'.content) {stack stack' : List Context}
    (hs : List.Forall₂ Context.Alike stack stack') (h : Heap) :
    (takeForm lisp token stack h).1.Alike (takeForm lisp token' stack' h).1 ∧
      (takeForm lisp token stack h).2 = (takeForm lisp token' stack' h).2 := by
  unfold takeForm
  rw [← ht]
  cases token.content with
  | leftParen => exact ⟨.more (.form (.cons (.list _ _ _) hs)), rfl⟩
  | quote => exact ⟨.more (.form (.cons .quote hs)), rfl⟩
  | integer i => exact deliver_alike lisp _ hs _
  | float x => exact deliver_alike lisp _ hs _
  | string s => exact deliver_alike lisp _ hs _
  | symbol name => exact deliver_alike lisp _ hs _
  | rightParen =>
      cases hs with
      | nil => exact ⟨.failed _ _, rfl⟩
      | cons hc hs =>
          cases hc with
          | list opened opened' items => exact deliver_alike lisp _ hs _
          | tail opened opened' items => exact ⟨.failed _ _, rfl⟩
          | quote => exact ⟨.failed _ _, rfl⟩
  | dot =>
      cases hs with
      | nil => exact ⟨.failed _ _, rfl⟩
      | cons hc hs =>
          cases hc with
          | list opened opened' items =>
              cases items with
              | nil => exact ⟨.failed _ _, rfl⟩
              | cons x xs => exact ⟨.more (.form (.cons (.tail _ _ _) hs)), rfl⟩
          | tail opened opened' items => exact ⟨.failed _ _, rfl⟩
          | quote => exact ⟨.failed _ _, rfl⟩

theorem take_alike (lisp : Interpreter) {token token' : Located Token}
    (ht : token.content = token'.content) {stage stage' : Stage} (hs : stage.Alike stage')
    (h : Heap) :
    (stage.take lisp token h).1.Alike (stage'.take lisp token' h).1 ∧
      (stage.take lisp token h).2 = (stage'.take lisp token' h).2 := by
  cases hs with
  | form hs => exact takeForm_alike lisp ht hs h
  | closing opened opened' items tail hs =>
      simp only [Stage.take]
      rw [← ht]
      cases token.content with
      | rightParen => exact deliver_alike lisp _ hs _
      | _ => exact ⟨.failed _ _, rfl⟩

/-- Readings with the same result, unless both fail, the same heap, and items of the same contents
left over. -/
structure Reading.Alike (out out' : Reading) : Prop where
  result : out.result.toOption = out'.result.toOption
  pending : out.reader.pending.map Located.content = out'.reader.pending.map Located.content
  heap : out.heap = out'.heap

/-- **Items of the same contents are read alike.** -/
theorem Reader.run_alike (lisp : Interpreter) (length length' : Nat) {its its' : List Item}
    (hi : its.map Located.content = its'.map Located.content) {stage stage' : Stage}
    (hs : stage.Alike stage') (h : Heap) :
    (run lisp length stage its h).Alike (run lisp length' stage' its' h) := by
  induction its generalizing its' stage stage' h with
  | nil =>
      obtain rfl : its' = [] := List.map_eq_nil_iff.1 hi.symm
      exact ⟨rfl, rfl, rfl⟩
  | cons item rest ih =>
      cases its' with
      | nil => cases hi
      | cons item' rest' =>
          obtain ⟨hitem, hrest⟩ := List.cons.inj hi
          unfold run
          rw [← hitem]
          cases item.content with
          | error e => exact ⟨rfl, hrest, rfl⟩
          | ok token =>
              obtain ⟨hp, hh⟩ := @take_alike lisp ⟨item.span, token⟩ ⟨item'.span, token⟩ rfl
                stage stage' hs h
              -- the two results are alike, so both runs end here or both go on
              simp only
              revert hp hh
              rcases stage.take lisp ⟨item.span, token⟩ h with ⟨p, h₁⟩
              rcases stage'.take lisp ⟨item'.span, token⟩ h with ⟨p', h₂⟩
              rintro hp rfl
              cases hp with
              | done form => exact ⟨rfl, hrest, rfl⟩
              | more hs => exact ih hrest hs h₁
              | failed e e' => exact ⟨rfl, hrest, rfl⟩

end SmallLisp
