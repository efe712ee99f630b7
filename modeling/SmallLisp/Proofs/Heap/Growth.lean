import Mathlib.Logic.Relation
import Mathlib.Tactic.Common
import SmallLisp.Heap.Lemmas
import SmallLisp.Interpreter

set_option autoImplicit false

/-! # How a heap grows

All that code can do to a heap is a sequence of elementary changes (`Heap.Change`): an object or a
frame is made, a name is interned, a cell or a variable is set. No change ever takes a symbol out
of a package or makes a package. `Heap.Grows` says the former from the point of view of one
package, and `Change.grows` is the step lemma that every invariant about symbols rests on.

Packages are only made from outside, by hand or along with an interpreter, and never get in the
way of those that are there (`grows_makePackage`, `grows_origin`).
-/

namespace SmallLisp

namespace Heap

/-! ## Symbols of a package after one operation -/

theorem findSymbol_congr {h h' : Heap} {package : ObjectId}
    (hp : h'.packages[package]? = h.packages[package]?) (name : String) :
    h'.findSymbol package name = h.findSymbol package name := by
  rw [findSymbol, findSymbol, symbolsOf, symbolsOf, hp]

/-- Only a package that is there has symbols. -/
theorem mem_of_findSymbol {h : Heap} {package : ObjectId} {name : String} {s : Symbol}
    (hs : h.findSymbol package name = some s) : package ∈ h.packages := by
  by_contra hmem
  rw [findSymbol, symbolsOf, Std.TreeMap.getElem?_eq_none hmem] at hs
  simp at hs

/-- A symbol that is entered is found in its package under its own name, and nothing else about
the packages changes. -/
theorem findSymbol_enter (h : Heap) (package other : ObjectId) (s : Symbol) (name : String) :
    (h.enter package s).findSymbol other name =
      if package = other ∧ package ∈ h.packages ∧ s.name = name then some s
      else h.findSymbol other name := by
  by_cases hsame : package = other
  · subst hsame
    by_cases hmem : package ∈ h.packages
    · rw [findSymbol, symbolsOf_enter h package s hmem, Std.TreeMap.getElem?_insert]
      simp only [true_and, hmem, Std.LawfulEqCmp.compare_eq_iff_eq]
      rfl
    · rw [if_neg (fun hc => hmem hc.2.1)]
      refine findSymbol_congr ?_ name
      rw [enter, Std.TreeMap.getElem?_modify, Std.TreeMap.getElem?_eq_none hmem]
      simp
  · rw [if_neg (fun hc => hsame hc.1)]
    refine findSymbol_congr ?_ name
    rw [enter, Std.TreeMap.getElem?_modify, if_neg]
    rwa [Std.LawfulEqCmp.compare_eq_iff_eq]

theorem mem_packages_enter {h : Heap} {package other : ObjectId} {s : Symbol} :
    other ∈ (h.enter package s).packages ↔ other ∈ h.packages := by
  rw [enter, Std.TreeMap.mem_modify]

/-- Entering a symbol keeps the names of all packages. -/
theorem packageValue?_enter (h : Heap) (package id : ObjectId) (s : Symbol) :
    (h.enter package s).packageValue? id = h.packageValue? id := by
  rw [packageValue?, packageValue?, enter, Std.TreeMap.getElem?_modify]
  split
  · rename_i heq
    rw [Std.LawfulEqCmp.compare_eq_iff_eq.1 heq, Option.map_map]
    rfl
  · rfl

/-! ## Growth -/

/-- **The growth of a package.** Its symbols stay, and whatever is added is an ordinary symbol,
entered under its own name. -/
structure Grows (package : ObjectId) (h h' : Heap) : Prop where
  next_le : h.next ≤ h'.next
  mem : package ∈ h.packages → package ∈ h'.packages
  kept : ∀ {name : String} {s : Symbol}, h.findSymbol package name = some s →
    h'.findSymbol package name = some s
  added : ∀ {name : String} {s : Symbol}, h'.findSymbol package name = some s →
    h.findSymbol package name = some s ∨ s.name = name ∧ s.isNil = false

theorem Grows.refl (package : ObjectId) (h : Heap) : Grows package h h :=
  ⟨Nat.le_refl _, id, id, .inl⟩

theorem Grows.trans {package : ObjectId} {h h' h'' : Heap} (h₁ : Grows package h h')
    (h₂ : Grows package h' h'') : Grows package h h'' where
  next_le := Nat.le_trans h₁.next_le h₂.next_le
  mem := fun hp => h₂.mem (h₁.mem hp)
  kept := fun hs => h₂.kept (h₁.kept hs)
  added := fun hs => (h₂.added hs).elim h₁.added .inr

/-- A heap whose packages stay as they are grows in every package. -/
theorem Grows.of_packages_eq {package : ObjectId} {h h' : Heap} (hnext : h.next ≤ h'.next)
    (hp : h'.packages = h.packages) : Grows package h h' where
  next_le := hnext
  mem := fun hm => hp ▸ hm
  kept := fun hs => by rwa [findSymbol_congr (h := h) (by rw [hp])]
  added := fun hs => .inl (by rwa [findSymbol_congr (h := h) (by rw [hp])] at hs)

theorem grows_alloc (package : ObjectId) (h : Heap) (make : ObjectId → Value) :
    Grows package h (h.alloc make).2 :=
  .of_packages_eq (Nat.le_succ _) rfl

theorem grows_assign? {package : ObjectId} {h h' : Heap} {env : Environment} {key : ObjectId}
    {v : Value} (hassign : h.assign? env key v = some h') : Grows package h h' := by
  obtain ⟨id, _, rfl⟩ := Option.map_eq_some_iff.1 hassign
  exact .of_packages_eq (Nat.le_refl _) rfl

/-- Interning in any package lets every package grow. -/
theorem grows_intern (package : ObjectId) (h : Heap) (other : ObjectId) (name : String) :
    Grows package h (h.intern other name).2 := by
  unfold intern
  split
  · exact .refl package h
  · rename_i hnone
    have hmade : Grows package h (h.makeSymbol other name false).2 :=
      .of_packages_eq (Nat.le_add_right _ 2) rfl
    refine hmade.trans ⟨Nat.le_refl _, mem_packages_enter.2, ?_, ?_⟩
    · -- the new symbol takes nobody's place, because the name was not there
      intro n s hs
      rw [findSymbol_enter, if_neg]
      · exact hs
      · rintro ⟨rfl, -, rfl⟩
        exact Option.some_ne_none s (hs.symm.trans hnone)
    · intro n s hs
      rw [findSymbol_enter] at hs
      split at hs
      · rename_i hnew
        cases hs
        exact .inr ⟨hnew.2.2, rfl⟩
      · exact .inl hs

/-- A new package does not touch the older ones. -/
theorem grows_makePackage {package : ObjectId} {h : Heap} (hp : package < h.next)
    (name : String) : Grows package h (h.makePackage name).2 := by
  have hsame : (h.makePackage name).2.packages[package]? = h.packages[package]? := by
    rw [makePackage, Std.TreeMap.getElem?_insert, if_neg]
    rw [Std.LawfulEqCmp.compare_eq_iff_eq]
    exact Nat.ne_of_gt hp
  refine ⟨Nat.le_succ _, fun hm => ?_, fun hs => ?_, fun hs => .inl ?_⟩
  · exact Std.TreeMap.mem_insert.2 (.inr hm)
  · rwa [findSymbol_congr hsame]
  · rwa [findSymbol_congr hsame] at hs

/-- A new interpreter does not touch the older packages either. -/
theorem grows_origin {package : ObjectId} {h : Heap} (hp : package < h.next) :
    Grows package h (Interpreter.origin h).2 := by
  refine (grows_makePackage hp Interpreter.packageName).trans
    (Grows.trans ?_ (grows_intern package _ _ "t"))
  -- the symbol `nil` of the new interpreter is entered into the new package only
  have hne : h.next ≠ package := Nat.ne_of_gt hp
  refine ⟨Nat.le_add_right _ 2, mem_packages_enter.2, fun hs => ?_, fun hs => .inl ?_⟩
  · rwa [findSymbol_enter, if_neg (fun hc => hne hc.1)]
  · rwa [findSymbol_enter, if_neg (fun hc => hne hc.1)] at hs

/-! ## Changes -/

/-- **An elementary change of a heap.** -/
inductive Change : Heap → Heap → Prop
  | alloc (h : Heap) (make : ObjectId → Value) : Change h (h.alloc make).2
  | closure (h : Heap) (name : Option Symbol) (code : Closure) :
      Change h (h.makeClosure name code).2
  | frame (h : Heap) (frame : Frame) : Change h (h.makeFrame frame).2
  | intern (h : Heap) (package : ObjectId) (name : String) : Change h (h.intern package name).2
  | cells (h : Heap) (s : Symbol) (c : Cells) : Change h (h.setCells s c)
  | assign {h h' : Heap} {env : Environment} {key : ObjectId} {v : Value}
      (hassign : h.assign? env key v = some h') : Change h h'

/-- Any number of changes. -/
abbrev Changes : Heap → Heap → Prop := Relation.ReflTransGen Change

/-- **A change lets every package grow.** -/
theorem Change.grows {h h' : Heap} (hc : Change h h') (package : ObjectId) :
    Grows package h h' := by
  cases hc with
  | alloc make => exact grows_alloc package h make
  | closure name code => exact .of_packages_eq (Nat.le_succ _) rfl
  | frame frame => exact .of_packages_eq (Nat.le_refl _) rfl
  | intern other name => exact grows_intern package h other name
  | cells s c => exact .of_packages_eq (Nat.le_refl _) rfl
  | assign hassign => exact grows_assign? hassign

theorem Changes.grows {h h' : Heap} (hc : Changes h h') (package : ObjectId) :
    Grows package h h' := by
  induction hc with
  | refl => exact .refl package h
  | tail _ hstep ih => exact ih.trans (hstep.grows package)

/-- **A change makes no package.** -/
theorem Change.mem_packages {h h' : Heap} (hc : Change h h') {id : ObjectId}
    (hid : id ∈ h'.packages) : id ∈ h.packages := by
  cases hc with
  | alloc make => exact hid
  | closure name code => exact hid
  | frame frame => exact hid
  | intern package name =>
      unfold Heap.intern at hid
      split at hid
      · exact hid
      · exact mem_packages_enter.1 hid
  | cells s c => exact hid
  | assign hassign =>
      obtain ⟨_, _, rfl⟩ := Option.map_eq_some_iff.1 hassign
      exact hid

theorem Changes.mem_packages {h h' : Heap} (hc : Changes h h') {id : ObjectId}
    (hid : id ∈ h'.packages) : id ∈ h.packages := by
  induction hc with
  | refl => exact hid
  | tail _ hstep ih => exact ih (hstep.mem_packages hid)

theorem changes_listWithTail (h : Heap) (tail : Value) (items : List Value) :
    Changes h (h.listWithTail tail items).2 := by
  induction items with
  | nil => exact .refl
  | cons x xs ih => exact ih.tail (.alloc _ _)

end Heap

end SmallLisp
