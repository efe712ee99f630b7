import SmallLisp.Proofs.Form.Acceptance
import SmallLisp.Proofs.Interpreter.Constants
import SmallLisp.Proofs.Token.Contents

set_option autoImplicit false

/-! # One symbol for each name

A package has at most one symbol of a name, and once it has one, the name stands for that symbol
ever after. This is an invariant of all that can be done to a heap: names are interned by the
reader, by the evaluator, by a new interpreter and by hand, and readings may fail half way.

`Heap.Canonical` is what the entries of all packages have in common, and `Operation` lists what can
be done. Both are about a heap with any number of packages and interpreters in it, so that nothing
has to be said about whom a package belongs to.
-/

namespace SmallLisp

namespace Heap

/-! ## Canonical entries -/

/-- **A heap whose entries are canonical**: each symbol is entered under the name that it has and
in the package that it was made for, and no symbol is entered twice. -/
structure Canonical (h : Heap) : Prop where
  package_lt : ∀ {package : ObjectId}, package ∈ h.packages → package < h.next
  id_lt : ∀ {package : ObjectId} {name : String} {s : Symbol},
    h.findSymbol package name = some s → s.id < h.next
  name_eq : ∀ {package : ObjectId} {name : String} {s : Symbol},
    h.findSymbol package name = some s → s.name = name
  home_eq : ∀ {package : ObjectId} {name : String} {s : Symbol},
    h.findSymbol package name = some s → s.home = package
  eq_of_id : ∀ {package package' : ObjectId} {name name' : String} {s s' : Symbol},
    h.findSymbol package name = some s → h.findSymbol package' name' = some s' →
    s.id = s'.id → s = s'

variable {h h' : Heap}

theorem canonical_empty : Canonical empty := by
  have hnone : ∀ package name, empty.findSymbol package name = none := by
    intro package name
    rw [← Option.not_isSome_iff_eq_none, Option.isSome_iff_exists]
    rintro ⟨s, hs⟩
    exact Std.TreeMap.not_mem_emptyc (mem_of_findSymbol hs)
  refine ⟨fun hmem => absurd hmem Std.TreeMap.not_mem_emptyc, ?_, ?_, ?_, ?_⟩ <;>
    · intros
      simp_all

/-- Where the packages stay as they are, so do their entries. -/
theorem Canonical.of_packages (hc : Canonical h) (hnext : h.next ≤ h'.next)
    (hp : h'.packages = h.packages) : Canonical h' := by
  have hfind : ∀ package name, h'.findSymbol package name = h.findSymbol package name :=
    fun package name => findSymbol_congr (by rw [hp]) name
  refine ⟨fun hmem => ?_, fun hs => ?_, fun hs => ?_, fun hs => ?_, fun hs hs' => ?_⟩
  · rw [hp] at hmem
    exact Nat.lt_of_lt_of_le (hc.package_lt hmem) hnext
  · rw [hfind] at hs
    exact Nat.lt_of_lt_of_le (hc.id_lt hs) hnext
  · rw [hfind] at hs
    exact hc.name_eq hs
  · rw [hfind] at hs
    exact hc.home_eq hs
  · rw [hfind] at hs hs'
    exact hc.eq_of_id hs hs'

/-- **A new symbol may be entered** into the package that it was made for. -/
theorem Canonical.enter (hc : Canonical h) {s : Symbol} (hlt : s.id < h.next)
    (hnew : ∀ {package : ObjectId} {name : String} {s' : Symbol},
      h.findSymbol package name = some s' → s'.id ≠ s.id) : Canonical (h.enter s.home s) := by
  -- whatever is found is the new symbol, under its name, or was there before
  have hcases : ∀ {package : ObjectId} {name : String} {s' : Symbol},
      (h.enter s.home s).findSymbol package name = some s' →
      (s' = s ∧ name = s.name ∧ package = s.home) ∨ h.findSymbol package name = some s' := by
    intro package name s' hs'
    rw [findSymbol_enter] at hs'
    split at hs'
    · rename_i hent
      exact .inl ⟨(Option.some.inj hs').symm, hent.2.2.symm, hent.1.symm⟩
    · exact .inr hs'
  refine ⟨fun hmem => hc.package_lt (mem_packages_enter.1 hmem), fun hs => ?_, fun hs => ?_,
    fun hs => ?_, fun hs hs' hid => ?_⟩
  · rcases hcases hs with ⟨rfl, _, _⟩ | hold
    · exact hlt
    · exact hc.id_lt hold
  · rcases hcases hs with ⟨rfl, hname, _⟩ | hold
    · exact hname.symm
    · exact hc.name_eq hold
  · rcases hcases hs with ⟨rfl, _, hpackage⟩ | hold
    · exact hpackage.symm
    · exact hc.home_eq hold
  · rcases hcases hs with ⟨rfl, _, _⟩ | hold <;> rcases hcases hs' with ⟨rfl, _, _⟩ | hold'
    · rfl
    · exact absurd hid.symm (hnew hold')
    · exact absurd hid (hnew hold)
    · exact hc.eq_of_id hold hold' hid

/-- A symbol that has just been made differs from all that are entered. -/
theorem Canonical.enter_made (hc : Canonical h) (package : ObjectId) (name : String)
    (isNil : Bool) :
    Canonical ((h.makeSymbol package name isNil).2.enter package
      (h.makeSymbol package name isNil).1) := by
  have hmade : Canonical (h.makeSymbol package name isNil).2 :=
    hc.of_packages (Nat.le_add_right _ 2) rfl
  refine hmade.enter (s := (h.makeSymbol package name isNil).1) (Nat.lt_succ_self _) ?_
  intro p n s' hs'
  have hold : h.findSymbol p n = some s' := hs'
  exact Nat.ne_of_lt (Nat.lt_succ_of_lt (hc.id_lt hold))

theorem Canonical.intern (hc : Canonical h) (package : ObjectId) (name : String) :
    Canonical (h.intern package name).2 := by
  unfold Heap.intern
  split
  · exact hc
  · exact hc.enter_made package name false

theorem Canonical.of_change (hc : Canonical h) (hstep : Change h h') : Canonical h' := by
  cases hstep with
  | alloc make => exact hc.of_packages (Nat.le_succ _) rfl
  | closure name code => exact hc.of_packages (Nat.le_succ _) rfl
  | frame frame => exact hc.of_packages (Nat.le_refl _) rfl
  | intern package name => exact hc.intern package name
  | cells s c => exact hc.of_packages (Nat.le_refl _) rfl
  | assign hassign =>
      obtain ⟨_, _, rfl⟩ := Option.map_eq_some_iff.1 hassign
      exact hc.of_packages (Nat.le_refl _) rfl

theorem Canonical.of_changes (hc : Canonical h) (hsteps : Changes h h') : Canonical h' := by
  induction hsteps with
  | refl => exact hc
  | tail _ hstep ih => exact ih.of_change hstep

/-! ## New packages -/

/-- A new package has no symbols, and no other package gets any. -/
theorem findSymbol_makePackage (h : Heap) (title : String) (package : ObjectId) (name : String) :
    (h.makePackage title).2.findSymbol package name =
      if package = h.next then none else h.findSymbol package name := by
  by_cases hnew : package = h.next
  · subst hnew
    rw [if_pos rfl]
    exact Interpreter.findSymbol_makePackage_self h title name
  · rw [if_neg hnew]
    refine findSymbol_congr ?_ name
    rw [makePackage, Std.TreeMap.getElem?_insert, if_neg]
    rw [Std.LawfulEqCmp.compare_eq_iff_eq]
    exact Ne.symm hnew

theorem Canonical.makePackage (hc : Canonical h) (title : String) :
    Canonical (h.makePackage title).2 := by
  have hold : ∀ {package : ObjectId} {name : String} {s : Symbol},
      (h.makePackage title).2.findSymbol package name = some s →
      h.findSymbol package name = some s := by
    intro package name s hs
    rw [findSymbol_makePackage] at hs
    split at hs
    · cases hs
    · exact hs
  refine ⟨fun hmem => ?_, fun hs => ?_, fun hs => hc.name_eq (hold hs),
    fun hs => hc.home_eq (hold hs), fun hs hs' => hc.eq_of_id (hold hs) (hold hs')⟩
  · rw [Heap.makePackage, Std.TreeMap.mem_insert, Std.LawfulEqCmp.compare_eq_iff_eq] at hmem
    rcases hmem with hnew | hmem
    · exact hnew ▸ Nat.lt_succ_self _
    · exact Nat.lt_succ_of_lt (hc.package_lt hmem)
  · exact Nat.lt_succ_of_lt (hc.id_lt (hold hs))

theorem Canonical.fresh (hc : Canonical h) : Canonical (Interpreter.fresh h).2 := by
  have hnil := (hc.makePackage Interpreter.packageName).enter_made h.next "nil" true
  have horigin : Canonical (Interpreter.origin h).2 := hnil.intern h.next "t"
  exact horigin.of_changes (Interpreter.changes_fresh h)

end Heap

/-! ## Operations -/

open Heap

/-- **What can be done to a heap**: packages and interpreters are made, names are interned, and
interpreters read, evaluate and load. Any operation may fail half way. -/
inductive Operation
  | makePackage (name : String)
  | makeInterpreter
  | intern (package : ObjectId) (name : String)
  | read (lisp : Interpreter) (reader : Reader)
  | evaluate (lisp : Interpreter) (depth : Nat) (held : Anchors) (env : Environment)
      (form : Value)
  | evalText (lisp : Interpreter) (depth : Nat) (held : Anchors) (source : List Char)
  | loadText (lisp : Interpreter) (depth : Nat) (held : Anchors) (source : List Char)

/-- The heap that an operation leaves. -/
def Operation.run (h : Heap) : Operation → Heap
  | .makePackage name => (h.makePackage name).2
  | .makeInterpreter => (Interpreter.fresh h).2
  | .intern package name => (h.intern package name).2
  | .read lisp reader => (reader.read lisp h).heap
  | .evaluate lisp depth held env form =>
      (Interpreter.runIn held env h (Eval.evaluate lisp depth form)).2.1
  | .evalText lisp depth held source => (lisp.evalText depth held source h).2
  | .loadText lisp depth held source => (lisp.loadText depth held source h).2

/-- The heap after a sequence of operations. -/
def Heap.after (h : Heap) (ops : List Operation) : Heap := ops.foldl Operation.run h

/-- Apart from making packages and interpreters, operations make elementary changes. -/
theorem Operation.run_cases (h : Heap) (op : Operation) :
    (∃ name, op.run h = (h.makePackage name).2) ∨ op.run h = (Interpreter.fresh h).2 ∨
      Changes h (op.run h) := by
  cases op with
  | makePackage name => exact .inl ⟨name, rfl⟩
  | makeInterpreter => exact .inr (.inl rfl)
  | intern package name => exact .inr (.inr (.single (.intern h package name)))
  | read lisp reader => exact .inr (.inr (reader.changes_read lisp h))
  | evaluate lisp depth held env form =>
      have hc := (@Eval.built_evaluate lisp depth form).changes held ⟨h, env⟩
      refine .inr (.inr ?_)
      simp only [Operation.run, Interpreter.runIn]
      split <;> rename_i hrun <;> rw [hrun] at hc <;> exact hc
  | evalText lisp depth held source =>
      exact .inr (.inr (Interpreter.changes_evalText lisp depth held source h))
  | loadText lisp depth held source =>
      exact .inr (.inr (changes_loadFrom lisp depth held _ _ h))

theorem Heap.Canonical.run {h : Heap} (hc : Canonical h) (op : Operation) :
    Canonical (op.run h) := by
  rcases op.run_cases h with ⟨name, heq⟩ | heq | hsteps
  · exact heq ▸ hc.makePackage name
  · exact heq ▸ hc.fresh
  · exact hc.of_changes hsteps

/-- **An operation lets every package grow** that is older. -/
theorem Operation.grows_run {h : Heap} {package : ObjectId} (hp : package < h.next)
    (op : Operation) : Grows package h (op.run h) := by
  rcases op.run_cases h with ⟨name, heq⟩ | heq | hsteps
  · exact heq ▸ grows_makePackage hp name
  · exact heq ▸ (grows_origin hp).trans ((Interpreter.changes_fresh h).grows package)
  · exact hsteps.grows package

namespace Heap

variable {h : Heap}

theorem Canonical.after (hc : Canonical h) (ops : List Operation) : Canonical (h.after ops) := by
  induction ops generalizing h with
  | nil => exact hc
  | cons op ops ih => exact ih (hc.run op)

theorem grows_after {package : ObjectId} (hp : package < h.next) (ops : List Operation) :
    Grows package h (h.after ops) := by
  induction ops generalizing h with
  | nil => exact .refl package h
  | cons op ops ih =>
      have hstep := op.grows_run hp
      exact hstep.trans (ih (Nat.lt_of_lt_of_le hp hstep.next_le))

/-- What a name stands for it stands for ever after. -/
theorem Canonical.findSymbol_after (hc : Canonical h) {package : ObjectId} {name : String}
    {s : Symbol} (hs : h.findSymbol package name = some s) (ops : List Operation) :
    (h.after ops).findSymbol package name = some s :=
  (grows_after (hc.package_lt (mem_of_findSymbol hs)) ops).kept hs

/-- The package of a symbol that is found is the one that it is found in, if it lives. -/
theorem Canonical.id_of_packageOf? (hc : Canonical h) {package : ObjectId} {name : String}
    {s : Symbol} (hs : h.findSymbol package name = some s) {lisp : Interpreter} {a : Anchors}
    {v : Value} (hv : lisp.packageOf? h a s = some v) : v.id = package := by
  obtain ⟨hfound, _⟩ := Option.filter_eq_some_iff.1 hv
  obtain ⟨p, _, rfl⟩ := Option.map_eq_some_iff.1 hfound
  exact hc.home_eq hs

/-- **Interning a new name adds one entry** and leaves all others alone. -/
theorem findSymbol_intern_new {package : ObjectId} {name : String}
    (hmem : package ∈ h.packages) (hnone : h.findSymbol package name = none) (other : ObjectId)
    (name' : String) :
    (h.intern package name).2.findSymbol other name' =
      if package = other ∧ name = name' then some (h.intern package name).1
      else h.findSymbol other name' := by
  have hmade : package ∈ (h.makeSymbol package name false).2.packages := hmem
  simp only [Heap.intern, hnone]
  rw [findSymbol_enter]
  simp only [hmade, true_and]
  rfl

end Heap

theorem Interpreter.Sound.after {lisp : Interpreter} {h : Heap} (hs : lisp.Sound h)
    (ops : List Operation) : lisp.Sound (h.after ops) :=
  hs.of_grows (grows_after hs.package_lt ops)

/-! ## Symbols in forms -/

/-- The symbols that occur in a form. -/
def Value.symbols : Value → List Symbol
  | .symbol s => [s]
  | .cons _ car cdr => car.symbols ++ cdr.symbols
  | _ => []

/-- The symbols of a form that stands for a datum are those that their names stand for. -/
theorem Value.Denotes.findSymbol {lisp : Interpreter} {h : Heap} {v : Value} {d : Datum}
    (hv : v.Denotes lisp h d) (hs : lisp.Sound h) :
    ∀ s ∈ v.symbols, lisp.findSymbol h s.name = some s := by
  induction hv with
  | number id n => exact fun _ hmem => absurd hmem List.not_mem_nil
  | string id text => exact fun _ hmem => absurd hmem List.not_mem_nil
  | @symbol s name hfound =>
      intro s' hmem
      obtain rfl := List.mem_singleton.1 hmem
      rwa [hs.name_eq hfound]
  | cons id _ _ iha ihd =>
      intro s hmem
      rcases List.mem_append.1 hmem with hmem | hmem
      · exact iha s hmem
      · exact ihd s hmem

/-- The symbols of a form that has been read. -/
theorem Reader.findSymbol_of_read {lisp : Interpreter} {h : Heap} (hs : lisp.Sound h) {r : Reader}
    {form : Value} (hform : (r.read lisp h).result = .ok form) :
    ∀ s ∈ form.symbols, lisp.findSymbol (r.read lisp h).heap s.name = some s := by
  obtain ⟨_, d, _, _, hd⟩ := derives_of_run hs hform
  exact hd.findSymbol (hs.of_changes (r.changes_read lisp h))

/-- A text that consists of a symbol is read as the symbol that its name stands for. -/
theorem readText_symbol {lisp : Interpreter} {source : List Char} {name : String}
    (hc : contents source = [.ok (.symbol name)]) (h : Heap) :
    readText lisp source h = (.ok (.symbol (lisp.intern h name).1), (lisp.intern h name).2) := by
  have hitems : (items source).map Located.content = [.ok (.symbol name)] := hc
  obtain ⟨item, hone, hcontent⟩ := List.map_eq_singleton_iff.1 hitems
  have hread : (Reader.ofSource source).read lisp h =
      ⟨.ok (.symbol (lisp.intern h name).1), ⟨[], item.span.stop, Text.byteLength source⟩,
        (lisp.intern h name).2⟩ := by
    rw [Reader.read, Reader.ofSource, hone, Reader.run]
    simp only [hcontent, Stage.take, takeForm, deliver]
  rw [readText, hread]

section

variable {lisp : Interpreter} {h : Heap} (hs : lisp.Sound h) (hc : Canonical h)
  (later : List Operation)

include hs hc

/-- Symbols of one name are the same in forms that are read at different times. -/
theorem Reader.eq_of_name_eq {r r' : Reader} {form form' : Value}
    (hform : (r.read lisp h).result = .ok form)
    (hform' : (r'.read lisp ((r.read lisp h).heap.after later)).result = .ok form')
    {s s' : Symbol} (hmem : s ∈ form.symbols) (hmem' : s' ∈ form'.symbols)
    (hname : s.name = s'.name) : s = s' := by
  have hchanges := r.changes_read lisp h
  have hfound := findSymbol_of_read hs hform s hmem
  have hfound' := findSymbol_of_read ((hs.of_changes hchanges).after later) hform' s' hmem'
  -- the symbol that was read first is still there when the second form has been read
  have hlater := (hc.of_changes hchanges).findSymbol_after hfound later
  have hstill := ((r'.changes_read lisp _).grows lisp.package).kept hlater
  rw [hname] at hstill
  exact Option.some.inj (hstill.symm.trans hfound')

/-- A symbol that is read on its own is read again as the same symbol. -/
theorem readText_symbol_again {source source' : List Char} {name : String}
    (hsource : contents source = [.ok (.symbol name)])
    (hsource' : contents source' = [.ok (.symbol name)]) :
    ∃ s : Symbol, s.name = name ∧ (readText lisp source h).1 = .ok (.symbol s) ∧
      (readText lisp source' ((readText lisp source h).2.after later)).1 = .ok (.symbol s) := by
  have hfound : lisp.findSymbol (lisp.intern h name).2 name = some (lisp.intern h name).1 :=
    findSymbol_intern h lisp.package name hs.package_mem
  have hc₁ : Canonical (lisp.intern h name).2 := hc.intern lisp.package name
  have hlater := hc₁.findSymbol_after hfound later
  rw [readText_symbol hsource, readText_symbol hsource']
  refine ⟨(lisp.intern h name).1, hc₁.name_eq hfound, rfl, ?_⟩
  rw [Interpreter.intern, Heap.intern, hlater]

end

/-- **One symbol for each name, for ever.** Let anything be done with any number of packages and
interpreters. Then in every package a symbol is found under the name that it has, its package is
that one if it lives, different names stand for different symbols, a name goes on standing for its
symbol whatever is done later, and interning gives the symbol that is there or adds one entry. So
an interpreter reads the same spelling as the same symbol at any two moments, inside of forms and
on its own. -/
theorem one_symbol_for_each_name (ops later : List Operation) :
    let h := Heap.empty.after ops
    (∀ (package : ObjectId) (name : String) (s : Symbol), h.findSymbol package name = some s →
      s.name = name ∧ s.home = package ∧
      (∀ lisp a v, Interpreter.packageOf? lisp h a s = some v → v.id = package) ∧
      (∀ (name' : String) (s' : Symbol), h.findSymbol package name' = some s' →
        Value.same (.symbol s) (.symbol s') = true → name = name') ∧
      (h.after later).findSymbol package name = some s ∧
      h.intern package name = (s, h)) ∧
    (∀ package ∈ h.packages, ∀ name, h.findSymbol package name = none →
      ∀ (other : ObjectId) (name' : String),
        (h.intern package name).2.findSymbol other name' =
          if package = other ∧ name = name' then some (h.intern package name).1
          else h.findSymbol other name') ∧
    ∀ before after, ops = before ++ .makeInterpreter :: after →
      let lisp := (Interpreter.fresh (Heap.empty.after before)).1
      (∀ (r r' : Reader) (form form' : Value), (r.read lisp h).result = .ok form →
        (r'.read lisp ((r.read lisp h).heap.after later)).result = .ok form' →
        ∀ s ∈ form.symbols, ∀ s' ∈ form'.symbols, s.name = s'.name → s = s') ∧
      ∀ (source source' : List Char) (name : String), contents source = [.ok (.symbol name)] →
        contents source' = [.ok (.symbol name)] →
        ∃ s : Symbol, s.name = name ∧ (readText lisp source h).1 = .ok (.symbol s) ∧
          (readText lisp source' ((readText lisp source h).2.after later)).1 =
            .ok (.symbol s) := by
  intro h
  have hc : Canonical h := canonical_empty.after ops
  refine ⟨?_, fun package hmem name hnone => findSymbol_intern_new hmem hnone, ?_⟩
  · intro package name s hs
    refine ⟨hc.name_eq hs, hc.home_eq hs, fun lisp a v hv => hc.id_of_packageOf? hs hv, ?_,
      hc.findSymbol_after hs later, ?_⟩
    · intro name' s' hs' hsame
      have hid : s.id = s'.id := by simpa [Value.same, Value.id] using hsame
      rw [← hc.name_eq hs, ← hc.name_eq hs', hc.eq_of_id hs hs' hid]
    · rw [Heap.intern, hs]
  · intro before after hops lisp
    have hafter : h = (Interpreter.fresh (Heap.empty.after before)).2.after after := by
      simp only [h, hops, Heap.after, List.foldl_append, List.foldl_cons]
      rfl
    have hsound : lisp.Sound h := by
      rw [hafter]
      exact (Interpreter.sound_fresh (Heap.empty.after before)).after after
    exact ⟨fun r r' form form' hform hform' s hmem s' hmem' =>
        Reader.eq_of_name_eq hsound hc later hform hform' hmem hmem',
      fun source source' name => readText_symbol_again hsound hc later⟩

/-- A symbol that was first seen in a list that is never closed is read as the same symbol before
and after another interpreter is made. -/
theorem one_symbol_after_failed_reading :
    let lisp := (Interpreter.fresh Heap.empty).1
    let h := Heap.empty.after [.makeInterpreter, .read lisp (.ofSource "(foo".toList)]
    ∃ s : Symbol, s.name = "foo" ∧ (readText lisp "foo".toList h).1 = .ok (.symbol s) ∧
      (readText lisp " foo ;".toList
        ((readText lisp "foo".toList h).2.after [.makeInterpreter])).1 = .ok (.symbol s) := by
  have hfoo : contents "foo".toList = [.ok (.symbol "foo")] := by decide +kernel
  have hfoo' : contents " foo ;".toList = [.ok (.symbol "foo")] := by decide +kernel
  exact ((one_symbol_for_each_name _ [.makeInterpreter]).2.2 [] [.read _ _] rfl).2 _ _ "foo"
    hfoo hfoo'

end SmallLisp
