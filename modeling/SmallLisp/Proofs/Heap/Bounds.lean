import SmallLisp.Proofs.Heap.Identity

set_option autoImplicit false

/-! # The numbers that a heap uses

New objects and frames get the next numbers, so all numbers in use lie below the next ones. A heap
is *bounded* if this holds of all that it mentions and of everything that has an entry in it. It is
why the numbers from the next one on can still be chosen in any way: nothing refers to them yet.

To stay bounded is a law of evaluation (`Bounds.law`). Its worlds are bounded heaps, in the order of
their bounds.
-/

namespace SmallLisp

/-! ## Values below a bound -/

/-- A symbol whose numbers lie below a bound. -/
def Symbol.Below (n : ObjectId) (s : Symbol) : Prop := s.id < n ∧ s.nameId < n ∧ s.home < n

/-- **A value all of whose numbers lie below a bound.** -/
def Value.Below (n : ObjectId) : Value → Prop
  | .symbol s => s.Below n
  | .cons id car cdr => id < n ∧ car.Below n ∧ cdr.Below n
  | .closure id name => id < n ∧ ∀ s ∈ name, s.Below n
  | v => v.id < n

theorem Symbol.Below.mono {n m : ObjectId} {s : Symbol} (hs : s.Below n) (hnm : n ≤ m) :
    s.Below m :=
  ⟨Nat.lt_of_lt_of_le hs.1 hnm, Nat.lt_of_lt_of_le hs.2.1 hnm, Nat.lt_of_lt_of_le hs.2.2 hnm⟩

theorem Value.Below.mono {n m : ObjectId} {v : Value} (hv : v.Below n) (hnm : n ≤ m) :
    v.Below m := by
  induction v with
  | symbol s => exact Symbol.Below.mono hv hnm
  | cons id car cdr ihcar ihcdr =>
      exact ⟨Nat.lt_of_lt_of_le hv.1 hnm, ihcar hv.2.1, ihcdr hv.2.2⟩
  | closure id name =>
      exact ⟨Nat.lt_of_lt_of_le hv.1 hnm, fun s hs => (hv.2 s hs).mono hnm⟩
  | _ => exact Nat.lt_of_lt_of_le hv hnm

/-- What is registered lies below the bound of the registry. -/
theorem Registry.Knows.below {w : Registry} {v : Value} (hv : w.Knows v) : v.Below w.next := by
  have hsymbol : ∀ {s : Symbol}, w.Knows (.symbol s) → s.Below w.next := fun {s} hs =>
    ⟨hs.id_lt, (hs.part (p := .nameOf s) List.mem_cons_self).1.id_lt,
      (w.home hs).trans hs.id_lt⟩
  induction v with
  | symbol s => exact hsymbol hv
  | cons id car cdr ihcar ihcdr =>
      exact ⟨hv.id_lt, ihcar (hv.part (by simp [Value.parts])).1,
        ihcdr (hv.part (by simp [Value.parts])).1⟩
  | closure id name =>
      refine ⟨hv.id_lt, fun s hs => ?_⟩
      obtain rfl := hs
      exact hsymbol (hv.part (by simp [Value.parts])).1
  | _ => exact hv.id_lt

namespace Heap

/-! ## Bounded heaps -/

/-- **A bounded heap**: whatever has an entry or is mentioned has a number below the next one. -/
structure Bounded (h : Heap) : Prop where
  mentioned : ∀ {v : Value}, h.Mentions v → v.Below h.next
  cells : ∀ {id : ObjectId}, id ∈ h.cells → id < h.next
  closures : ∀ {id : ObjectId}, id ∈ h.closures → id < h.next
  frames : ∀ {id : ObjectId} {c : Closure}, h.closures[id]? = some c →
    ∀ f ∈ c.env, f < h.frames.size

variable {h h' : Heap}

theorem bounded_empty : Bounded empty where
  mentioned hv := absurd hv (not_mentions_empty _)
  cells hid := absurd hid Std.TreeMap.not_mem_emptyc
  closures hid := absurd hid Std.TreeMap.not_mem_emptyc
  frames hc := by simp [empty] at hc

theorem Bounded.package_lt (hb : h.Bounded) {id : ObjectId} (hid : id ∈ h.packages) :
    id < h.next := by
  obtain ⟨p, hp⟩ : ∃ p, h.packages[id]? = some p := ⟨_, Std.TreeMap.getElem?_eq_some_getElem hid⟩
  exact hb.mentioned (.package hp)

/-- A heap in which nothing is new but that there are more numbers. -/
theorem Bounded.advance (hb : h.Bounded) (n : Nat) :
    Bounded { h with next := h.next + n } where
  mentioned hv := (hb.mentioned (hv.congr rfl rfl rfl rfl)).mono (Nat.le_add_right _ n)
  cells hid := Nat.lt_add_right n (hb.cells hid)
  closures hid := Nat.lt_add_right n (hb.closures hid)
  frames := hb.frames

theorem Bounded.enter (hb : h.Bounded) {s : Symbol} (hs : s.Below h.next) (package : ObjectId) :
    (h.enter package s).Bounded where
  mentioned hv := hv.of_enter.elim hb.mentioned fun heq => heq ▸ hs
  cells := hb.cells
  closures := hb.closures
  frames := hb.frames

theorem below_makeSymbol {package : ObjectId} (hp : package < h.next) (name : String)
    (isNil : Bool) :
    (h.makeSymbol package name isNil).1.Below (h.makeSymbol package name isNil).2.next :=
  ⟨Nat.lt_succ_self _, Nat.lt_succ_of_lt (Nat.lt_succ_self _),
    Nat.lt_succ_of_lt (Nat.lt_succ_of_lt hp)⟩

/-- A symbol that is made and then entered. -/
theorem Bounded.enter_made (hb : h.Bounded) {package : ObjectId} (hp : package < h.next)
    (name : String) (isNil : Bool) :
    ((h.makeSymbol package name isNil).2.enter package
      (h.makeSymbol package name isNil).1).Bounded :=
  Bounded.enter (hb.advance 2) (below_makeSymbol hp name isNil) package

theorem Bounded.intern (hb : h.Bounded) {package : ObjectId} (hp : package < h.next)
    (name : String) :
    (h.intern package name).2.Bounded ∧
      (h.intern package name).1.Below (h.intern package name).2.next := by
  unfold Heap.intern
  split
  · rename_i s hs
    exact ⟨hb, hb.mentioned (.symbol hs)⟩
  · exact ⟨hb.enter_made hp name false, below_makeSymbol hp name false⟩

theorem Bounded.makeClosure (hb : h.Bounded) (name : Option Symbol) {c : Closure}
    (hc : ∀ v ∈ c.objects, v.Below h.next) (henv : ∀ f ∈ c.env, f < h.frames.size) :
    (h.makeClosure name c).2.Bounded where
  mentioned hv := (hv.of_makeClosure.elim hb.mentioned (hc _)).mono (Nat.le_succ _)
  cells hid := Nat.lt_succ_of_lt (hb.cells hid)
  closures hid := by
    rw [Heap.makeClosure, Std.TreeMap.mem_insert, Std.LawfulEqCmp.compare_eq_iff_eq] at hid
    rcases hid with hnew | hold
    · exact hnew ▸ Nat.lt_succ_self _
    · exact Nat.lt_succ_of_lt (hb.closures hold)
  frames hfound := by
    rw [Heap.makeClosure, Std.TreeMap.getElem?_insert] at hfound
    split at hfound
    · cases hfound
      exact henv
    · exact hb.frames hfound

theorem Bounded.makeFrame (hb : h.Bounded) {f : Frame} (hf : ∀ v ∈ f.objects, v.Below h.next) :
    (h.makeFrame f).2.Bounded where
  mentioned hv := hv.of_makeFrame.elim hb.mentioned (hf _)
  cells := hb.cells
  closures := hb.closures
  frames hfound g hg := by
    rw [Heap.makeFrame, Array.size_push]
    exact Nat.lt_succ_of_lt (hb.frames hfound g hg)

theorem Bounded.setCells (hb : h.Bounded) {s : Symbol} (hs : s.Below h.next) {c : Cells}
    (hc : ∀ v ∈ cellValues c, v.Below h.next) : (h.setCells s c).Bounded where
  mentioned hv := hv.of_setCells.elim hb.mentioned (hc _)
  cells hid := by
    rw [Heap.setCells, Std.TreeMap.mem_insert, Std.LawfulEqCmp.compare_eq_iff_eq] at hid
    rcases hid with hnew | hold
    · exact hnew ▸ hs.1
    · exact hb.cells hold
  closures := hb.closures
  frames := hb.frames

/-- A value below the bound may be put into the cells of a symbol below it. -/
theorem Bounded.setCell (hb : h.Bounded) {s : Symbol} (hs : s.Below h.next) {v : Value}
    (hv : v.Below h.next) : (h.setValue s v).Bounded ∧ (h.setFunction s v).Bounded := by
  have hset : ∀ u, u = v ∨ u ∈ cellValues (h.cellsOf s) → u.Below h.next := by
    rintro u (rfl | hold)
    · exact hv
    · exact hb.mentioned (mentions_cell hold)
  exact ⟨hb.setCells hs fun u hu => hset u (mem_cellValues_set (.inl hu)),
    hb.setCells hs fun u hu => hset u (mem_cellValues_set (.inr (.inl hu)))⟩

theorem Bounded.assign (hb : h.Bounded) {env : Environment} {key : ObjectId} {v : Value}
    (hv : v.Below h.next) (hassign : h.assign? env key v = some h') : h'.Bounded := by
  have hmentioned : ∀ {u : Value}, h'.Mentions u → u.Below h.next := fun hu =>
    (hu.of_assign? hassign).elim hb.mentioned fun heq => heq ▸ hv
  obtain ⟨id, _, rfl⟩ := Option.map_eq_some_iff.1 hassign
  refine ⟨hmentioned, hb.cells, hb.closures, fun hfound f hf => ?_⟩
  rw [Array.size_modify]
  exact hb.frames hfound f hf

theorem Bounded.makePackage (hb : h.Bounded) (name : String) : (h.makePackage name).2.Bounded where
  mentioned hv := by
    rcases hv.of_makePackage with hold | rfl
    · exact (hb.mentioned hold).mono (Nat.le_succ _)
    · exact Nat.lt_succ_self _
  cells hid := Nat.lt_succ_of_lt (hb.cells hid)
  closures hid := Nat.lt_succ_of_lt (hb.closures hid)
  frames := hb.frames

end Heap

open Heap

/-! ## Interpreters in bounded heaps -/

namespace Interpreter

/-- **An interpreter in a bounded heap.** -/
structure Bounded (lisp : Interpreter) (h : Heap) : Prop where
  heap : h.Bounded
  nil : lisp.nil.Below h.next
  t : lisp.t.Below h.next
  package : lisp.package < h.next

variable {lisp : Interpreter} {h h' : Heap}

theorem Bounded.of_heap (hl : lisp.Bounded h) (hb : h'.Bounded) (hnext : h.next ≤ h'.next) :
    lisp.Bounded h' :=
  ⟨hb, hl.nil.mono hnext, hl.t.mono hnext, Nat.lt_of_lt_of_le hl.package hnext⟩

theorem Bounded.define (hl : lisp.Bounded h) (name : String) {v : Value} (hv : v.Below h.next) :
    lisp.Bounded (lisp.define h name v) := by
  obtain ⟨hb, hs⟩ := hl.heap.intern hl.package name
  have hnext := (grows_intern lisp.package h lisp.package name).next_le
  exact hl.of_heap (hb.setCell hs (hv.mono hnext)).1 hnext

theorem Bounded.install (hl : lisp.Bounded h) (name : String) {make : ObjectId → Value}
    (hmake : ∀ id, (make id).Below (id + 1)) : lisp.Bounded (lisp.install h name make) := by
  obtain ⟨hb, hs⟩ := hl.heap.intern hl.package name
  have hnext := (grows_intern lisp.package h lisp.package name).next_le
  exact hl.of_heap (Heap.Bounded.setCell (hb.advance 1) (hs.mono (Nat.le_succ _)) (hmake _)).2
    (Nat.le_succ_of_le hnext)

theorem Bounded.foldl {α : Type} {step : Heap → α → Heap}
    (hstep : ∀ {h : Heap}, lisp.Bounded h → ∀ a, lisp.Bounded (step h a)) (as : List α)
    (hl : lisp.Bounded h) : lisp.Bounded (as.foldl step h) := by
  induction as generalizing h with
  | nil => exact hl
  | cons a as ih => exact ih (hstep hl a)

theorem bounded_origin (hb : h.Bounded) : (origin h).1.Bounded (origin h).2 := by
  -- the package with `nil` alone in it; `t` is added by interning
  set made := (h.makePackage packageName).2.makeSymbol h.next "nil" true
  have hlt : h.next < (h.makePackage packageName).2.next := Nat.lt_succ_self _
  have hnil : (made.2.enter h.next made.1).Bounded :=
    (hb.makePackage packageName).enter_made hlt "nil" true
  have hpackage : h.next < made.2.next := Nat.lt_add_right 2 hlt
  obtain ⟨ht, hs⟩ := hnil.intern hpackage "t"
  have hnext := (grows_intern h.next (made.2.enter h.next made.1) h.next "t").next_le
  exact ⟨ht, (below_makeSymbol hlt "nil" true).mono hnext, hs, Nat.lt_of_lt_of_le hpackage hnext⟩

theorem bounded_fresh (hb : h.Bounded) : (fresh h).1.Bounded (fresh h).2 := by
  have horigin := bounded_origin hb
  have hnil := horigin.define "nil" (v := (origin h).1.nilValue) horigin.nil
  have ht := hnil.define "t" (v := (origin h).1.trueValue) hnil.t
  have hpi := ht.of_heap (ht.heap.advance 1) (Nat.le_succ _)
  unfold fresh
  generalize SpecialForm.all = forms
  generalize Builtin.all = ops
  refine Bounded.foldl (fun hl op => hl.install op.name fun _ => Nat.lt_succ_self _) ops ?_
  refine Bounded.foldl (fun hl form => hl.install form.name fun _ => Nat.lt_succ_self _) forms ?_
  exact hpi.define "pi" (Nat.lt_succ_self _)

end Interpreter

/-! ## The law of bounds -/

/-- A bounded heap with an interpreter in it. -/
structure Bounds (lisp : Interpreter) where
  heap : Heap
  bounded : lisp.Bounded heap

namespace Bounds

variable {lisp : Interpreter}

instance : Preorder (Bounds lisp) where
  le w w' := w.heap.next ≤ w'.heap.next ∧ w.heap.frames.size ≤ w'.heap.frames.size
  le_refl _ := ⟨Nat.le_refl _, Nat.le_refl _⟩
  le_trans _ _ _ h₁ h₂ := ⟨Nat.le_trans h₁.1 h₂.1, Nat.le_trans h₁.2 h₂.2⟩

theorem next_le {w w' : Bounds lisp} (hw : w ≤ w') : w.heap.next ≤ w'.heap.next := hw.1

theorem size_le {w w' : Bounds lisp} (hw : w ≤ w') :
    w.heap.frames.size ≤ w'.heap.frames.size := hw.2

/-- Bounds as a view of a run: to be known is to lie below the bound. -/
def view (lisp : Interpreter) : View where
  World := Bounds lisp
  heap w h := w.heap = h
  env w e := ∀ f ∈ e, f < w.heap.frames.size
  value w v := v.Below w.heap.next
  var w s := s.Below w.heap.next
  env_mono hw he f hf := Nat.lt_of_lt_of_le (he f hf) (size_le hw)
  value_mono hw hv := hv.mono (next_le hw)
  var_mono hw hs := hs.mono (next_le hw)

/-- A later heap that is bounded is a later world. -/
theorem reaches (w : Bounds lisp) {h : Heap} (hb : h.Bounded) (hnext : w.heap.next ≤ h.next)
    (hsize : w.heap.frames.size ≤ h.frames.size) {post : Bounds lisp → Prop}
    (hpost : ∀ hl, post ⟨h, hl⟩) : (view lisp).Reaches w h post :=
  ⟨⟨h, w.bounded.of_heap hb hnext⟩, ⟨hnext, hsize⟩, rfl, hpost _⟩

theorem below_of_isFrame {w : Bounds lisp} {f : Frame} (hf : (view lisp).IsFrame w f) :
    ∀ v ∈ f.objects, v.Below w.heap.next := by
  intro v hv
  obtain ⟨b, hb, hv⟩ := List.mem_flatMap.1 hv
  obtain ⟨⟨s, hs, hvar⟩, hvalue⟩ := hf b hb
  rcases List.mem_cons.1 hv with rfl | hv
  · exact hs ▸ hvar
  · exact List.mem_singleton.1 hv ▸ hvalue

theorem below_of_isCode {w : Bounds lisp} {c : Closure} (hc : (view lisp).IsCode w c) :
    ∀ v ∈ c.objects, v.Below w.heap.next := by
  intro v hv
  rcases List.mem_append.1 hv with hv | hv
  · obtain ⟨s, hs, rfl⟩ := List.mem_map.1 hv
    exact hc.bound s hs
  · exact hc.body v hv

/-- **Evaluation keeps heaps bounded.** -/
def law (lisp : Interpreter) (htop : lisp.toplevel = []) : Law lisp where
  toView := view lisp
  toplevel w f hf := by
    rw [htop] at hf
    cases hf
  nil w := w.bounded.nil
  t w := w.bounded.t
  parts hv := hv.2
  name hs := hs.2.1
  cell {w _ _ _} hw _ hv := by
    cases hw
    exact w.bounded.heap.mentioned (mentions_cell hv)
  package {w _ _ _ _} hw _ hv := by
    cases hw
    obtain ⟨hfound, _⟩ := Option.filter_eq_some_iff.1 hv
    obtain ⟨p, hp, rfl⟩ := Option.map_eq_some_iff.1 hfound
    exact w.bounded.heap.mentioned (.package hp)
  lookup {w _ _ _ _} hw _ hv := by
    cases hw
    exact w.bounded.heap.mentioned (mentions_lookup hv)
  check hs _ := hs
  code {w _ _ _} hw hc := by
    cases hw
    exact
      { env := w.bounded.heap.frames hc
        bound := fun s hs => w.bounded.heap.mentioned (.code hc (List.mem_append_left _
          (List.mem_map_of_mem hs)))
        body := fun v hv => w.bounded.heap.mentioned (.code hc (List.mem_append_right _ hv)) }
  number {w _} hw n := by
    cases hw
    exact w.reaches (w.bounded.heap.advance 1) (Nat.le_succ _) (Nat.le_refl _)
      fun _ => Nat.lt_succ_self _
  string {w _} hw s := by
    cases hw
    exact w.reaches (w.bounded.heap.advance 1) (Nat.le_succ _) (Nat.le_refl _)
      fun _ => Nat.lt_succ_self _
  cons {w _ _ _} hw hcar hcdr := by
    cases hw
    exact w.reaches (w.bounded.heap.advance 1) (Nat.le_succ _) (Nat.le_refl _) fun _ =>
      ⟨Nat.lt_succ_self _, hcar.mono (Nat.le_succ _), hcdr.mono (Nat.le_succ _)⟩
  intern {w _} hw name := by
    cases hw
    obtain ⟨hb, hs⟩ := w.bounded.heap.intern w.bounded.package name
    have hgrows := grows_intern lisp.package w.heap lisp.package name
    have hframes := (w.heap.shape_intern lisp.package name).2.2
    exact w.reaches hb hgrows.next_le (Nat.le_of_eq (congrArg Array.size hframes.symm)) fun _ => hs
  closure {w _ name _} hw hname hc := by
    cases hw
    exact w.reaches (w.bounded.heap.makeClosure name (below_of_isCode hc) hc.env) (Nat.le_succ _)
      (Nat.le_refl _) fun _ =>
        ⟨Nat.lt_succ_self _, fun s hs => (hname s hs).mono (Nat.le_succ _)⟩
  frame {w _ _ f} hw he hf := by
    cases hw
    have hpush : (w.heap.makeFrame f).2.frames.size = w.heap.frames.size + 1 :=
      Array.size_push ..
    refine w.reaches (w.bounded.heap.makeFrame (below_of_isFrame hf)) (Nat.le_refl _)
      (hpush ▸ Nat.le_succ _) fun _ => ?_
    show ∀ g ∈ w.heap.frames.size :: _, g < (w.heap.makeFrame f).2.frames.size
    rw [hpush]
    exact List.forall_mem_cons.2 ⟨Nat.lt_succ_self _, fun g hg => Nat.lt_succ_of_lt (he g hg)⟩
  setFunction {w _ _ _ _} hw hs hv := by
    cases hw
    exact w.reaches (w.bounded.heap.setCell hs hv).2 (Nat.le_refl _) (Nat.le_refl _)
      fun _ => trivial
  setValue {w _ _ _} hw hs hv := by
    cases hw
    exact w.reaches (w.bounded.heap.setCell hs hv).1 (Nat.le_refl _) (Nat.le_refl _)
      fun _ => trivial
  assign {w _ _ _ _ _} hw _ _ hv hassign := by
    cases hw
    have hb := w.bounded.heap.assign hv hassign
    obtain ⟨id, _, rfl⟩ := Option.map_eq_some_iff.1 hassign
    exact w.reaches hb (Nat.le_refl _) (Nat.le_of_eq (Array.size_modify ..).symm) fun _ => trivial

/-! ## Programs -/

variable (htop : lisp.toplevel = []) (w : Bounds lisp)

include htop

theorem exists_evalText (depth : Nat) (held : Anchors) (source : List Char) :
    ∃ w', w ≤ w' ∧ w'.heap = (lisp.evalText depth held source w.heap).2 := by
  obtain ⟨w', hw', hheap, _⟩ := (law lisp htop).reaches_evalText (w := w) depth held source rfl
  exact ⟨w', hw', hheap⟩

theorem exists_loadText (depth : Nat) (held : Anchors) (source : List Char) :
    ∃ w', w ≤ w' ∧ w'.heap = (lisp.loadText depth held source w.heap).2 := by
  obtain ⟨w', hw', hheap, _⟩ := (law lisp htop).reaches_loadText (w := w) depth held source rfl
  exact ⟨w', hw', hheap⟩

end Bounds

end SmallLisp
