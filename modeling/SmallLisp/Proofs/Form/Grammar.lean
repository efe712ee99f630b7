import Mathlib.Data.List.Forall2
import SmallLisp.Proofs.Interpreter.Reachable
import SmallLisp.Token.Basic

set_option autoImplicit false

/-! # Data and their grammar

A `Datum` is what a form says, apart from the identities that its parts get when it is read. The
grammar of forms is the relation `Derives` between the tokens of a form and its datum:

    form  ::=  integer | float | string | symbol | ' form | ( ) | ( form+ ) | ( form+ . form )

It knows nothing of heaps or of readers. `Value.Denotes` is the other side: which values stand
for a datum in a heap. A symbol must be the one that the interpreter has under the name, so the
values of one datum differ in the identities of numbers, strings and conses only.
-/

namespace SmallLisp

/-- **A datum**: a tree of conses over numbers, strings and names. -/
inductive Datum
  | number (n : Number)
  | string (s : String)
  | symbol (name : String)
  | cons (car cdr : Datum)
deriving DecidableEq

namespace Datum

/-- The empty list. -/
def nil : Datum := .symbol "nil"

/-- The list of the given elements that ends in `tail`. -/
def listWithTail (tail : Datum) (items : List Datum) : Datum := items.foldr .cons tail

/-- What a quoted form says: the list of the symbol `quote` and the form. -/
def quoted (d : Datum) : Datum := .listWithTail .nil [.symbol "quote", d]

@[simp]
theorem listWithTail_append (tail : Datum) (ds es : List Datum) :
    listWithTail tail (ds ++ es) = listWithTail (listWithTail tail es) ds := by
  simp [listWithTail]

end Datum

/-! ## The grammar -/

mutual

/-- **The grammar of forms**: the tokens of a form and the datum that it says. -/
inductive Derives : List Token → Datum → Prop
  | integer (i : Int64) : Derives [.integer i] (.number (.integer i))
  | float (x : Float) : Derives [.float x] (.number (.float x))
  | string (s : String) : Derives [.string s] (.string s)
  | symbol (name : String) : Derives [.symbol name] (.symbol name)
  | quoted {ts : List Token} {d : Datum} (hd : Derives ts d) : Derives (.quote :: ts) d.quoted
  | empty : Derives [.leftParen, .rightParen] .nil
  | list {ts : List Token} {ds : List Datum} (hs : DerivesAll ts ds) :
      Derives (.leftParen :: (ts ++ [.rightParen])) (.listWithTail .nil ds)
  | dotted {ts us : List Token} {ds : List Datum} {tail : Datum} (hs : DerivesAll ts ds)
      (ht : Derives us tail) :
      Derives (.leftParen :: (ts ++ .dot :: (us ++ [.rightParen]))) (.listWithTail tail ds)

/-- One form or more. -/
inductive DerivesAll : List Token → List Datum → Prop
  | one {ts : List Token} {d : Datum} (hd : Derives ts d) : DerivesAll ts [d]
  | more {ts us : List Token} {ds : List Datum} {d : Datum} (hs : DerivesAll ts ds)
      (hd : Derives us d) : DerivesAll (ts ++ us) (ds ++ [d])

end

/-! ## Values of a datum -/

/-- **A value stands for a datum**, in a heap where an interpreter has its symbols. -/
inductive Value.Denotes (lisp : Interpreter) (h : Heap) : Value → Datum → Prop
  | number (id : ObjectId) (n : Number) : Denotes lisp h (.number id n) (.number n)
  | string (id : ObjectId) (s : String) : Denotes lisp h (.string id s) (.string s)
  | symbol {s : Symbol} {name : String} (hs : lisp.findSymbol h name = some s) :
      Denotes lisp h (.symbol s) (.symbol name)
  | cons (id : ObjectId) {car cdr : Value} {a d : Datum} (ha : Denotes lisp h car a)
      (hd : Denotes lisp h cdr d) : Denotes lisp h (.cons id car cdr) (.cons a d)

section Denotes

open Heap

variable {lisp : Interpreter} {h h' : Heap}

/-- What a value stands for stays so as the heap grows. -/
theorem Value.Denotes.mono {v : Value} {d : Datum} (hg : Grows lisp.package h h')
    (hv : v.Denotes lisp h d) : v.Denotes lisp h' d := by
  induction hv with
  | number id n => exact .number id n
  | string id s => exact .string id s
  | symbol hs => exact .symbol (hg.kept hs)
  | cons id _ _ iha ihd => exact .cons id iha ihd

theorem forall₂_denotes_mono {vs : List Value} {ds : List Datum} (hg : Grows lisp.package h h')
    (hv : List.Forall₂ (Value.Denotes lisp h) vs ds) :
    List.Forall₂ (Value.Denotes lisp h') vs ds :=
  hv.imp fun _ _ => Value.Denotes.mono hg

/-- A value stands for one datum at most. -/
theorem Value.Denotes.unique {v : Value} {d d' : Datum} (hs : lisp.Sound h)
    (hv : v.Denotes lisp h d) (hv' : v.Denotes lisp h d') : d = d' := by
  induction hv generalizing d' with
  | number id n => cases hv'; rfl
  | string id s => cases hv'; rfl
  | symbol hf =>
      cases hv' with
      | symbol hf' => rw [← hs.name_eq hf, ← hs.name_eq hf']
  | cons id _ _ iha ihd =>
      cases hv' with
      | cons _ ha hd => rw [iha ha, ihd hd]

theorem denotes_nil (hs : lisp.Sound h) : lisp.nilValue.Denotes lisp h .nil :=
  .symbol hs.nil_found

/-- A new list stands for the list of what its elements stand for. -/
theorem denotes_listWithTail {vs : List Value} {ds : List Datum} {tail : Value} {t : Datum}
    (hv : List.Forall₂ (Value.Denotes lisp h) vs ds) (ht : tail.Denotes lisp h t) :
    (h.listWithTail tail vs).1.Denotes lisp (h.listWithTail tail vs).2
      (.listWithTail t ds) := by
  induction hv with
  | nil => exact ht
  | @cons v d vs ds hd _ ih =>
      have hg : Grows lisp.package h (h.listWithTail tail (v :: vs)).2 :=
        (changes_listWithTail h tail (v :: vs)).grows lisp.package
      have hcons : Grows lisp.package (h.listWithTail tail vs).2
          (h.listWithTail tail (v :: vs)).2 := grows_alloc lisp.package _ _
      exact .cons _ (hd.mono hg) (ih.mono hcons)

theorem denotes_list {vs : List Value} {ds : List Datum} (hs : lisp.Sound h)
    (hv : List.Forall₂ (Value.Denotes lisp h) vs ds) :
    (lisp.list h vs).1.Denotes lisp (lisp.list h vs).2 (.listWithTail .nil ds) :=
  denotes_listWithTail hv (denotes_nil hs)

theorem denotes_intern (hs : lisp.Sound h) (name : String) :
    (Value.symbol (lisp.intern h name).1).Denotes lisp (lisp.intern h name).2 (.symbol name) :=
  .symbol (findSymbol_intern h lisp.package name hs.package_mem)

theorem changes_quoted (lisp : Interpreter) (h : Heap) (items : List Value) :
    Changes h (lisp.list (lisp.intern h "quote").2 items).2 :=
  (lisp.changes_intern h "quote").trans (lisp.changes_list _ items)

/-- The list of the symbol `quote` and a form says that the form is quoted. -/
theorem denotes_quoted {v : Value} {d : Datum} (hs : lisp.Sound h) (hv : v.Denotes lisp h d) :
    (lisp.list (lisp.intern h "quote").2 [.symbol (lisp.intern h "quote").1, v]).1.Denotes lisp
      (lisp.list (lisp.intern h "quote").2 [.symbol (lisp.intern h "quote").1, v]).2 d.quoted := by
  have hc := lisp.changes_intern h "quote"
  have hquote := denotes_intern hs "quote"
  have hform := hv.mono (hc.grows lisp.package)
  exact denotes_list (hs.of_changes hc) (.cons hquote (.cons hform .nil))

end Denotes

end SmallLisp
