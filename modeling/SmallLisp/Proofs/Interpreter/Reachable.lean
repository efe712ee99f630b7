import SmallLisp.Proofs.Heap.Growth

set_option autoImplicit false

/-! # Reachable states of an interpreter

A state of an interpreter is reachable if it comes from a fresh one by elementary changes of the
heap. This covers more than what Lisp code can do: any cell may be set to anything, and packages
and interpreters may appear beside this one. Where they do not, the state is `Solitary`.

What all reachable states have in common is that the package is `Sound`: symbols are found under
their own names, and `nil` is the one symbol in it that is an empty list.
-/

namespace SmallLisp.Interpreter

open Heap

/-- **A sound state**: the package is there, it has `nil` under its name and no other empty
list, and every symbol in it is entered under the name that it has. -/
structure Sound (lisp : Interpreter) (h : Heap) : Prop where
  package_lt : lisp.package < h.next
  package_mem : lisp.package ∈ h.packages
  nil_found : lisp.findSymbol h "nil" = some lisp.nil
  nil_isNil : lisp.nil.isNil = true
  name_eq : ∀ {name : String} {s : Symbol}, lisp.findSymbol h name = some s → s.name = name
  eq_nil : ∀ {name : String} {s : Symbol}, lisp.findSymbol h name = some s →
    s.isNil = true → s = lisp.nil

theorem Sound.of_grows {lisp : Interpreter} {h h' : Heap} (hs : lisp.Sound h)
    (hg : Grows lisp.package h h') : lisp.Sound h' where
  package_lt := Nat.lt_of_lt_of_le hs.package_lt hg.next_le
  package_mem := hg.mem hs.package_mem
  nil_found := hg.kept hs.nil_found
  nil_isNil := hs.nil_isNil
  name_eq := fun hf => (hg.added hf).elim hs.name_eq And.left
  eq_nil := fun hf hnil => by
    rcases hg.added hf with hold | ⟨_, hnew⟩
    · exact hs.eq_nil hold hnil
    · rw [hnil] at hnew
      cases hnew

theorem Sound.of_changes {lisp : Interpreter} {h h' : Heap} (hs : lisp.Sound h)
    (hc : Changes h h') : lisp.Sound h' :=
  hs.of_grows (hc.grows lisp.package)

/-! ## Fresh interpreters -/

theorem findSymbol_makePackage_self (h : Heap) (title name : String) :
    (h.makePackage title).2.findSymbol h.next name = none := by
  rw [Heap.findSymbol, symbolsOf, makePackage]
  simp

/-- What is found in a new package with one symbol entered is that symbol. -/
theorem eq_of_findSymbol_enter_new {h made : Heap} (title : String) {name : String}
    {only s : Symbol} (hmade : made.packages = (h.makePackage title).2.packages)
    (hs : (made.enter h.next only).findSymbol h.next name = some s) :
    name = only.name ∧ s = only := by
  rw [findSymbol_enter] at hs
  split at hs
  · rename_i hc
    exact ⟨hc.2.2.symm, (Option.some.inj hs).symm⟩
  · have hnone : made.findSymbol h.next name = none :=
      (findSymbol_congr (by rw [hmade]) name).trans (findSymbol_makePackage_self h title name)
    rw [hnone] at hs
    cases hs

theorem sound_origin (h : Heap) : (origin h).1.Sound (origin h).2 := by
  -- the package with `nil` alone in it; `t` is added by interning
  set nil : Symbol := ⟨h.next + 2, "nil", h.next + 1, true, h.next⟩ with hnil
  set made : Heap := { (h.makePackage packageName).2 with next := h.next + 3 } with hmade
  have hmem : h.next ∈ made.packages := Std.TreeMap.mem_insert_self
  have hfound : ∀ name s, (made.enter h.next nil).findSymbol h.next name = some s →
      name = "nil" ∧ s = nil :=
    fun name s hs => eq_of_findSymbol_enter_new packageName rfl hs
  have hstart : (origin h).1.Sound (made.enter h.next nil) :=
    { package_lt := Nat.lt_add_of_pos_right (by decide)
      package_mem := mem_packages_enter.2 hmem
      nil_found := by
        show (made.enter h.next nil).findSymbol h.next "nil" = some nil
        rw [findSymbol_enter, if_pos ⟨rfl, hmem, rfl⟩]
      nil_isNil := rfl
      name_eq := fun hs => by rw [(hfound _ _ hs).1, (hfound _ _ hs).2]
      eq_nil := fun hs _ => (hfound _ _ hs).2 }
  exact hstart.of_grows (grows_intern h.next _ h.next "t")

theorem mem_packages_origin {h : Heap} {id : ObjectId} (hid : id ∈ (origin h).2.packages) :
    id = (origin h).1.package ∨ id ∈ h.packages := by
  have hentered := (Change.intern _ _ "t").mem_packages hid
  have hmade : id ∈ (h.makePackage packageName).2.packages := mem_packages_enter.1 hentered
  rw [makePackage, Std.TreeMap.mem_insert, Std.LawfulEqCmp.compare_eq_iff_eq] at hmade
  exact hmade.imp_left Eq.symm

theorem intern_of_find (lisp : Interpreter) {h : Heap} {name : String} {s : Symbol}
    (hs : lisp.findSymbol h name = some s) : lisp.intern h name = (s, h) := by
  have hfind : h.findSymbol lisp.package name = some s := hs
  rw [Interpreter.intern, Heap.intern, hfind]

theorem intern_of_find_none (lisp : Interpreter) {h : Heap} {name : String}
    (hs : lisp.findSymbol h name = none) :
    lisp.intern h name = (⟨h.next + 1, name, h.next, false, lisp.package⟩,
      Heap.enter { h with next := h.next + 2 } lisp.package
        ⟨h.next + 1, name, h.next, false, lisp.package⟩) := by
  have hfind : h.findSymbol lisp.package name = none := hs
  rw [Interpreter.intern, Heap.intern, hfind]
  rfl

theorem changes_intern (lisp : Interpreter) (h : Heap) (name : String) :
    Changes h (lisp.intern h name).2 :=
  .single (.intern h lisp.package name)

theorem changes_list (lisp : Interpreter) (h : Heap) (items : List Value) :
    Changes h (lisp.list h items).2 :=
  changes_listWithTail h lisp.nilValue items

theorem changes_define (lisp : Interpreter) (h : Heap) (name : String) (v : Value) :
    Changes h (lisp.define h name v) :=
  (lisp.changes_intern h name).tail (.cells _ _ _)

theorem changes_install (lisp : Interpreter) (h : Heap) (name : String)
    (make : ObjectId → Value) : Changes h (lisp.install h name make) :=
  ((lisp.changes_intern h name).tail (.alloc _ make)).tail (.cells _ _ _)

theorem changes_foldl {α : Type} {step : Heap → α → Heap}
    (hstep : ∀ h a, Changes h (step h a)) (as : List α) (h : Heap) :
    Changes h (as.foldl step h) := by
  induction as generalizing h with
  | nil => exact .refl
  | cons a as ih => exact (hstep h a).trans (ih (step h a))

/-- A fresh interpreter is one with `nil` and `t`, in which everything is then defined. -/
theorem changes_fresh (h : Heap) : Changes (origin h).2 (fresh h).2 := by
  unfold fresh
  -- the operators are installed one by one, whichever they are
  generalize SpecialForm.all = forms
  generalize Builtin.all = ops
  refine .trans ?_ (changes_foldl (fun h _ => changes_install _ h _ _) ops _)
  refine .trans ?_ (changes_foldl (fun h _ => changes_install _ h _ _) forms _)
  refine .trans ?_ (changes_define _ _ "pi" _)
  refine .tail ?_ (.alloc _ _)
  exact (changes_define _ _ "nil" _).trans (changes_define _ _ "t" _)

theorem sound_fresh (h : Heap) : (fresh h).1.Sound (fresh h).2 :=
  (sound_origin h).of_changes (changes_fresh h)

/-! ## Reachable states -/

/-- **The reachable states of an interpreter**: a fresh one, made in any heap, and all that
changes of the heap, new packages and new interpreters lead to. -/
inductive Reachable (lisp : Interpreter) : Heap → Prop
  | fresh (h : Heap) (hmade : (fresh h).1 = lisp) : Reachable lisp (fresh h).2
  | change {h h' : Heap} (hr : Reachable lisp h) (hc : Change h h') : Reachable lisp h'
  | package {h : Heap} (hr : Reachable lisp h) (name : String) :
      Reachable lisp (h.makePackage name).2
  | interpreter {h : Heap} (hr : Reachable lisp h) : Reachable lisp (Interpreter.fresh h).2

theorem Reachable.sound {lisp : Interpreter} {h : Heap} (hr : lisp.Reachable h) :
    lisp.Sound h := by
  induction hr with
  | fresh h hmade =>
      subst hmade
      exact sound_fresh h
  | change _ hc ih => exact ih.of_grows (hc.grows lisp.package)
  | package _ name ih => exact ih.of_grows (grows_makePackage ih.package_lt name)
  | @interpreter h _ ih =>
      exact (ih.of_grows (grows_origin ih.package_lt)).of_changes (changes_fresh h)

theorem Reachable.of_changes {lisp : Interpreter} {h h' : Heap} (hr : lisp.Reachable h)
    (hc : Changes h h') : lisp.Reachable h' := by
  induction hc with
  | refl => exact hr
  | tail _ hstep ih => exact ih.change hstep

/-- **The states of an interpreter that is alone**: a fresh one, made before anything else, and
all that changes of the heap lead to. -/
def Solitary (lisp : Interpreter) (h : Heap) : Prop :=
  (fresh Heap.empty).1 = lisp ∧ Changes (fresh Heap.empty).2 h

theorem Solitary.of_changes {lisp : Interpreter} {h h' : Heap} (hs : lisp.Solitary h)
    (hc : Changes h h') : lisp.Solitary h' :=
  ⟨hs.1, hs.2.trans hc⟩

/-- A heap with no package but the interpreter's own. -/
def Alone (lisp : Interpreter) (h : Heap) : Prop := ∀ id ∈ h.packages, id = lisp.package

theorem Alone.of_changes {lisp : Interpreter} {h h' : Heap} (halone : lisp.Alone h)
    (hc : Changes h h') : lisp.Alone h' :=
  fun id hid => halone id (hc.mem_packages hid)

theorem Solitary.alone {lisp : Interpreter} {h : Heap} (hs : lisp.Solitary h) : lisp.Alone h := by
  obtain ⟨rfl, hc⟩ := hs
  refine Alone.of_changes (fun id hid => ?_) hc
  have hstart : id ∈ (origin Heap.empty).2.packages := (changes_fresh Heap.empty).mem_packages hid
  exact (mem_packages_origin hstart).resolve_right Std.TreeMap.not_mem_emptyc

end SmallLisp.Interpreter
