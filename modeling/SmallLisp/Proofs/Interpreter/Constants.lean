import SmallLisp.Proofs.Eval.Frames
import SmallLisp.Proofs.Program.Lawful
import SmallLisp.Proofs.Program.Runs

set_option autoImplicit false

/-! # Constants

No program can give `nil` or `t` another meaning. They keep their global values, which are they
themselves, nothing binds them, and their names keep standing for them. Whatever binds or assigns
a variable has checked before that it is neither of the two; as a law of evaluation this is
`constantsLaw`, and what remains is that a fresh interpreter obeys it.
-/

namespace SmallLisp

namespace Interpreter

open Heap

/-! ## Variables and constants -/

theorem isConstant_symbol_eq_false_iff {lisp : Interpreter} {s : Symbol} :
    lisp.isConstant (.symbol s) = false ↔ s.id ≠ lisp.nil.id ∧ s.id ≠ lisp.t.id := by
  simp [isConstant, Value.same, Value.id, nilValue, trueValue]

/-- **The global values of the constants are they themselves.** -/
structure SelfValued (lisp : Interpreter) (h : Heap) : Prop where
  nil : (h.cellsOf lisp.nil).value = some lisp.nilValue
  t : (h.cellsOf lisp.t).value = some lisp.trueValue

/-- **A heap that spares the constants**: they have their own values, no frame binds them, and no
closure would. -/
structure Spares (lisp : Interpreter) (h : Heap) : Prop where
  values : lisp.SelfValued h
  frames : ∀ id, (h.frame id).binds lisp.nil.id = false ∧ (h.frame id).binds lisp.t.id = false
  closures : ∀ {id : ObjectId} {c : Closure}, h.closures[id]? = some c →
    ∀ s ∈ c.params ++ c.rest.toList, lisp.isConstant (.symbol s) = false

variable {lisp : Interpreter} {h h' : Heap}

/-! ## Global values -/

theorem SelfValued.of_cells (hv : lisp.SelfValued h) (hcells : h'.cells = h.cells) :
    lisp.SelfValued h' where
  nil := by
    rw [cellsOf, hcells]
    exact hv.nil
  t := by
    rw [cellsOf, hcells]
    exact hv.t

/-- The function of a symbol has nothing to do with its value. -/
theorem value_setFunction (h : Heap) (s s' : Symbol) (v : Value) :
    ((h.setFunction s v).cellsOf s').value = (h.cellsOf s').value := by
  rw [cellsOf_setFunction]
  split <;> rfl

theorem value_setValue (h : Heap) (s s' : Symbol) (v : Value) :
    ((h.setValue s v).cellsOf s').value =
      if s.id = s'.id then some v else (h.cellsOf s').value := by
  rw [cellsOf_setValue]
  split <;> rfl

theorem SelfValued.setFunction (hv : lisp.SelfValued h) (s : Symbol) (v : Value) :
    lisp.SelfValued (h.setFunction s v) :=
  ⟨(value_setFunction h s _ v).trans hv.nil, (value_setFunction h s _ v).trans hv.t⟩

theorem SelfValued.setValue (hv : lisp.SelfValued h) {s : Symbol} (v : Value)
    (hs : lisp.isConstant (.symbol s) = false) : lisp.SelfValued (h.setValue s v) := by
  obtain ⟨hnil, ht⟩ := isConstant_symbol_eq_false_iff.1 hs
  constructor
  · rw [value_setValue, if_neg hnil]
    exact hv.nil
  · rw [value_setValue, if_neg ht]
    exact hv.t

/-! ## Frames -/

theorem frame_makeFrame (h : Heap) (frame : Frame) (id : FrameId) :
    (h.makeFrame frame).2.frame id = if id = h.frames.size then frame else h.frame id := by
  rw [Heap.frame, makeFrame, Array.getElem?_push]
  split <;> rfl

/-- An assignment gives no frame new variables. -/
theorem binds_frame_assign? {env : Environment} {key : ObjectId} {v : Value}
    (hassign : h.assign? env key v = some h') (id : FrameId) (key' : ObjectId) :
    (h'.frame id).binds key' = (h.frame id).binds key' := by
  obtain ⟨id', _, rfl⟩ := Option.map_eq_some_iff.1 hassign
  rw [frame_modify]
  split
  · exact Frame.binds_assign _ key key' v
  · rfl

/-- A frame of variables binds no constant. -/
theorem binds_eq_false {frame : Frame} {key : ObjectId}
    (hframe : ∀ b ∈ frame.bindings, b.key ≠ key) : frame.binds key = false := by
  rw [Frame.binds, List.any_eq_false]
  exact fun b hb => by simpa using hframe b hb

/-! ## The law -/

theorem Spares.of_shape (hh : lisp.Spares h) (hcells : h'.cells = h.cells)
    (hclosures : h'.closures = h.closures) (hframes : h'.frames = h.frames) :
    lisp.Spares h' where
  values := hh.values.of_cells hcells
  frames := fun id => by
    rw [Heap.frame, hframes]
    exact hh.frames id
  closures := fun hc => hh.closures (hclosures ▸ hc)

theorem Spares.makeClosure (hh : lisp.Spares h) (name : Option Symbol) {code : Closure}
    (hcode : ∀ s ∈ code.params ++ code.rest.toList, lisp.isConstant (.symbol s) = false) :
    lisp.Spares (h.makeClosure name code).2 where
  values := hh.values.of_cells rfl
  frames := hh.frames
  closures := by
    intro id c hc
    rw [Heap.makeClosure, Std.TreeMap.getElem?_insert] at hc
    split at hc
    · cases hc
      exact hcode
    · exact hh.closures hc

theorem Spares.makeFrame (hh : lisp.Spares h) {frame : Frame}
    (hframe : ∀ b ∈ frame.bindings,
      ∃ s, b.object = .symbol s ∧ lisp.isConstant (.symbol s) = false) :
    lisp.Spares (h.makeFrame frame).2 where
  values := hh.values.of_cells rfl
  frames := fun id => by
    have hkeys : ∀ b ∈ frame.bindings, b.key ≠ lisp.nil.id ∧ b.key ≠ lisp.t.id := by
      intro b hb
      obtain ⟨s, hs, hconst⟩ := hframe b hb
      rw [Binding.key, hs]
      exact isConstant_symbol_eq_false_iff.1 hconst
    rw [frame_makeFrame]
    split
    · exact ⟨binds_eq_false fun b hb => (hkeys b hb).1, binds_eq_false fun b hb => (hkeys b hb).2⟩
    · exact hh.frames id
  closures := hh.closures

theorem Spares.assign (hh : lisp.Spares h) {env : Environment} {key : ObjectId} {v : Value}
    (hassign : h.assign? env key v = some h') : lisp.Spares h' where
  values := by
    obtain ⟨_, _, rfl⟩ := Option.map_eq_some_iff.1 hassign
    exact hh.values.of_cells rfl
  frames := fun id => by
    rw [binds_frame_assign? hassign, binds_frame_assign? hassign]
    exact hh.frames id
  closures := fun hc => hh.closures ((still_assign? hassign).closures ▸ hc)

/-- **Evaluation spares the constants.** -/
def constantsLaw (lisp : Interpreter) : ShapeLaw lisp where
  World := Unit
  order := PUnit.instLinearOrder.toPreorder
  heap _ := lisp.Spares
  env _ _ := True
  value _ _ := True
  var _ s := lisp.isConstant (.symbol s) = false
  env_mono _ _ := trivial
  value_mono _ _ := trivial
  var_mono _ hs := hs
  known _ _ := trivial
  toplevel _ := trivial
  check hs := hs
  code hh hc := ⟨trivial, hh.closures hc, fun _ _ => trivial⟩
  shape hh := hh.of_shape
  closure hh hcode := hh.makeClosure _ hcode.bound
  frame hh _ hframe := .here (hh.makeFrame fun b hb => (hframe b hb).1) trivial
  setFunction hh := ⟨hh.values.setFunction _ _, hh.frames, hh.closures⟩
  setValue hh hs := ⟨hh.values.setValue _ hs, hh.frames, hh.closures⟩
  assign hh := hh.assign

/-! ## Names -/

/-- **Different names stand for different symbols.** -/
structure Distinct (lisp : Interpreter) (h : Heap) : Prop where
  id_lt : ∀ {name : String} {s : Symbol}, lisp.findSymbol h name = some s → s.id < h.next
  name_eq : ∀ {name name' : String} {s s' : Symbol}, lisp.findSymbol h name = some s →
    lisp.findSymbol h name' = some s' → s.id = s'.id → name = name'

theorem Distinct.of_packages (hd : lisp.Distinct h) (hnext : h.next ≤ h'.next)
    (hp : h'.packages = h.packages) : lisp.Distinct h' := by
  have hfind : ∀ name, lisp.findSymbol h' name = lisp.findSymbol h name :=
    fun name => findSymbol_congr (by rw [hp]) name
  refine ⟨fun hs => ?_, fun hs hs' => ?_⟩
  · rw [hfind] at hs
    exact Nat.lt_of_lt_of_le (hd.id_lt hs) hnext
  · rw [hfind] at hs hs'
    exact hd.name_eq hs hs'

/-- After interning, a name stands for what it did or for the symbol that is new. -/
theorem findSymbol_intern_cases {package other : ObjectId} {name n : String} {s : Symbol}
    (hs : (h.intern other name).2.findSymbol package n = some s) :
    h.findSymbol package n = some s ∨
      (n = name ∧ s.id = h.next + 1 ∧ (h.intern other name).2.next = h.next + 2) := by
  unfold Heap.intern at hs ⊢
  split at hs
  · exact .inl hs
  · rw [findSymbol_enter] at hs
    split at hs
    · rename_i hnew
      cases hs
      exact .inr ⟨hnew.2.2.symm, rfl, rfl⟩
    · exact .inl hs

theorem Distinct.intern (hd : lisp.Distinct h) (package : ObjectId) (name : String) :
    lisp.Distinct (h.intern package name).2 := by
  have hgrows := grows_intern lisp.package h package name
  have hold_ne : ∀ {n : String} {s : Symbol}, lisp.findSymbol h n = some s → s.id ≠ h.next + 1 :=
    fun hs => Nat.ne_of_lt (Nat.lt_succ_of_lt (hd.id_lt hs))
  refine ⟨fun hs => ?_, fun hs hs' hid => ?_⟩
  · rcases findSymbol_intern_cases hs with hold | ⟨_, hnew, hnext⟩
    · exact Nat.lt_of_lt_of_le (hd.id_lt hold) hgrows.next_le
    · rw [hnew, hnext]
      exact Nat.lt_succ_self _
  · rcases findSymbol_intern_cases hs with hold | ⟨hn, hnew, _⟩ <;>
      rcases findSymbol_intern_cases hs' with hold' | ⟨hn', hnew', _⟩
    · exact hd.name_eq hold hold' hid
    · exact absurd (hid.trans hnew') (hold_ne hold)
    · exact absurd (hid.symm.trans hnew) (hold_ne hold')
    · rw [hn, hn']

theorem Distinct.of_change (hd : lisp.Distinct h) (hc : Change h h') : lisp.Distinct h' := by
  cases hc with
  | alloc make => exact hd.of_packages (Nat.le_succ _) rfl
  | closure name code => exact hd.of_packages (Nat.le_succ _) rfl
  | frame frame => exact hd.of_packages (Nat.le_refl _) rfl
  | intern package name => exact hd.intern package name
  | cells s c => exact hd.of_packages (Nat.le_refl _) rfl
  | assign hassign =>
      obtain ⟨_, _, rfl⟩ := Option.map_eq_some_iff.1 hassign
      exact hd.of_packages (Nat.le_refl _) rfl

theorem Distinct.of_changes (hd : lisp.Distinct h) (hc : Changes h h') : lisp.Distinct h' := by
  induction hc with
  | refl => exact hd
  | tail _ hstep ih => exact ih.of_change hstep

theorem distinct_origin (h : Heap) : (origin h).1.Distinct (origin h).2 := by
  -- the package with `nil` alone in it; `t` is added by interning
  set nil : Symbol := ⟨h.next + 2, "nil", h.next + 1, true, h.next⟩
  set made : Heap := { (h.makePackage packageName).2 with next := h.next + 3 }
  have hfound : ∀ {name : String} {s : Symbol},
      (made.enter h.next nil).findSymbol h.next name = some s → name = "nil" ∧ s = nil :=
    fun hs => eq_of_findSymbol_enter_new packageName rfl hs
  have hstart : (origin h).1.Distinct (made.enter h.next nil) :=
    { id_lt := fun hs => by
        rw [(hfound hs).2]
        exact Nat.lt_succ_self (h.next + 2)
      name_eq := fun hs hs' _ => (hfound hs).1.trans (hfound hs').1.symm }
  exact hstart.intern h.next "t"

/-! ## Fresh interpreters -/

/-- A name that stands for a symbol is defined by setting its value. -/
theorem define_of_found {name : String} {s : Symbol} (hs : lisp.findSymbol h name = some s)
    (v : Value) : lisp.define h name v = h.setValue s v := by
  have hfound : h.findSymbol lisp.package name = some s := hs
  rw [define, Interpreter.intern, Heap.intern, hfound]

section

variable (hs : lisp.Sound h) (hd : lisp.Distinct h) (ht : lisp.findSymbol h "t" = some lisp.t)

include hs hd ht

/-- Defining `nil` and `t` as themselves. -/
theorem selfValued_define_constants :
    lisp.SelfValued (lisp.define (lisp.define h "nil" lisp.nilValue) "t" lisp.trueValue) := by
  have hne : lisp.t.id ≠ lisp.nil.id := fun hid =>
    absurd (hd.name_eq ht hs.nil_found hid) (by decide)
  have ht' : lisp.findSymbol (h.setValue lisp.nil lisp.nilValue) "t" = some lisp.t := ht
  rw [define_of_found hs.nil_found, define_of_found ht']
  constructor
  · rw [value_setValue, if_neg hne, value_setValue, if_pos rfl]
  · rw [value_setValue, if_pos rfl]

/-- Defining another name leaves the constants alone. -/
theorem SelfValued.define (hv : lisp.SelfValued h) {name : String} (hnil : name ≠ "nil")
    (htrue : name ≠ "t") (v : Value) : lisp.SelfValued (lisp.define h name v) := by
  have hgrows : Grows lisp.package h (lisp.intern h name).2 := grows_intern _ _ _ _
  have hdistinct : lisp.Distinct (lisp.intern h name).2 := hd.intern lisp.package name
  have hfound : lisp.findSymbol (lisp.intern h name).2 name = some (lisp.intern h name).1 :=
    findSymbol_intern h lisp.package name hs.package_mem
  have hconst : lisp.isConstant (.symbol (lisp.intern h name).1) = false := by
    refine isConstant_symbol_eq_false_iff.2 ⟨fun hid => ?_, fun hid => ?_⟩
    · exact hnil (hdistinct.name_eq hfound (hgrows.kept hs.nil_found) hid)
    · exact htrue (hdistinct.name_eq hfound (hgrows.kept ht) hid)
  exact (hv.of_cells (h.shape_intern lisp.package name).1).setValue v hconst

end

theorem SelfValued.install (hv : lisp.SelfValued h) (name : String) (make : ObjectId → Value) :
    lisp.SelfValued (lisp.install h name make) := by
  have hcells : ((lisp.intern h name).2.alloc make).2.cells = h.cells :=
    (h.shape_intern lisp.package name).1
  exact (hv.of_cells hcells).setFunction _ _

theorem t_found_origin (h : Heap) :
    (origin h).1.findSymbol (origin h).2 "t" = some (origin h).1.t :=
  findSymbol_intern _ _ "t" (mem_packages_enter.2 Std.TreeMap.mem_insert_self)

theorem selfValued_fresh (h : Heap) : (fresh h).1.SelfValued (fresh h).2 := by
  have hs := sound_origin h
  have hd := distinct_origin h
  have ht := t_found_origin h
  set lisp := (origin h).1
  -- the heap in which `pi` is defined
  set number := (lisp.define (lisp.define (origin h).2 "nil" lisp.nilValue) "t"
    lisp.trueValue).alloc (.number · pi)
  have hconstants : lisp.SelfValued number.2 :=
    (selfValued_define_constants hs hd ht).of_cells rfl
  have hc : Changes (origin h).2 number.2 :=
    ((changes_define _ _ "nil" _).trans (changes_define _ _ "t" _)).tail (.alloc _ _)
  have hpi : lisp.SelfValued (lisp.define number.2 "pi" number.1) :=
    hconstants.define (hs.of_changes hc) (hd.of_changes hc) ((hc.grows _).kept ht)
      (by decide) (by decide) number.1
  unfold fresh
  generalize SpecialForm.all = forms
  generalize Builtin.all = ops
  refine List.foldlRecOn ops _ ?_ fun _ hv _ _ => hv.install _ _
  exact List.foldlRecOn forms _ hpi fun _ hv _ _ => hv.install _ _

theorem spares_fresh (hframes : h.frames = #[]) (hclosures : h.closures = {}) :
    (fresh h).1.Spares (fresh h).2 where
  values := selfValued_fresh h
  frames := fun id => by
    have hsize : (fresh h).2.frames.size = 0 := by
      rw [(still_fresh h).size, hframes, Array.size_empty]
    rw [Heap.frame, Array.getElem?_eq_none (by omega)]
    exact ⟨rfl, rfl⟩
  closures := fun hc => by
    rw [(still_fresh h).closures, hclosures] at hc
    simp at hc

/-! ## Running programs -/

/-- **The states that programs lead to**: those of a fresh interpreter after any number of texts
has been evaluated or loaded. The interpreter may be made where others have been, as long as
nothing has been run. -/
inductive Ran (lisp : Interpreter) : Heap → Prop
  | fresh (h : Heap) (hframes : h.frames = #[]) (hclosures : h.closures = {})
      (hmade : (fresh h).1 = lisp) : Ran lisp (fresh h).2
  | evalText {h : Heap} (hr : Ran lisp h) (depth : Nat) (held : Anchors) (source : List Char) :
      Ran lisp (lisp.evalText depth held source h).2
  | loadText {h : Heap} (hr : Ran lisp h) (depth : Nat) (held : Anchors) (source : List Char) :
      Ran lisp (lisp.loadText depth held source h).2

theorem Ran.spares (hr : lisp.Ran h) : lisp.Spares h := by
  induction hr with
  | fresh h hframes hclosures hmade =>
      subst hmade
      exact spares_fresh hframes hclosures
  | evalText _ depth held source ih =>
      have hreach := (constantsLaw lisp).toLaw.reaches_evalText (w := ()) depth held source ih
      obtain ⟨_, _, hspares, _⟩ := hreach
      exact hspares
  | loadText _ depth held source ih =>
      have hreach := (constantsLaw lisp).toLaw.reaches_loadText (w := ()) depth held source ih
      obtain ⟨_, _, hspares, _⟩ := hreach
      exact hspares

theorem changes_evalText (lisp : Interpreter) (depth : Nat) (held : Anchors)
    (source : List Char) (h : Heap) : Changes h (lisp.evalText depth held source h).2 := by
  have hread := changes_readText lisp source h
  unfold evalText
  split <;> rename_i heq <;> rw [heq] at hread
  · exact hread
  · exact hread.trans (lisp.changes_eval depth held _ _)

/-- The names of the constants keep standing for them. -/
theorem Ran.names (hr : lisp.Ran h) :
    lisp.Sound h ∧ lisp.findSymbol h "t" = some lisp.t := by
  have hstep : ∀ {h h' : Heap}, Changes h h' →
      lisp.Sound h ∧ lisp.findSymbol h "t" = some lisp.t →
      lisp.Sound h' ∧ lisp.findSymbol h' "t" = some lisp.t :=
    fun hc hn => ⟨hn.1.of_changes hc, (hc.grows lisp.package).kept hn.2⟩
  induction hr with
  | fresh h _ _ hmade =>
      subst hmade
      exact hstep (changes_fresh h) ⟨sound_origin h, t_found_origin h⟩
  | @evalText h _ depth held source ih =>
      exact hstep (changes_evalText lisp depth held source h) ih
  | @loadText h _ depth held source ih => exact hstep (changes_loadFrom lisp depth held _ _ h) ih

/-- A symbol evaluates to its lexical value, -/
theorem evaluate_lexical {s : State} {x : Symbol} {v : Value}
    (hv : s.heap.lookup s.env x.id = some v) (depth : Nat) (a : Anchors) :
    Eval.evaluate lisp (depth + 1) (.symbol x) a s = .ok v s := by
  rw [Eval.evaluate, Eval.evaluateWith]
  simp only [bind, ReaderT.bind, EStateM.bind, Eval.lexical?, hv]
  rfl

/-- and if it has none, to its global one. -/
theorem evaluate_global {s : State} {x : Symbol} {v : Value}
    (hnone : s.heap.lookup s.env x.id = none) (hv : (s.heap.cellsOf x).value = some v)
    (depth : Nat) (a : Anchors) : Eval.evaluate lisp (depth + 1) (.symbol x) a s = .ok v s := by
  rw [Eval.evaluate, Eval.evaluateWith]
  simp only [bind, ReaderT.bind, EStateM.bind, Eval.lexical?, hnone, Eval.onHeap, hv]
  rfl

/-- A symbol that no frame binds has its global value. -/
theorem evaluate_symbol {s : Symbol} {v : Value} (hbinds : ∀ id, (h.frame id).binds s.id = false)
    (hv : (h.cellsOf s).value = some v) (depth : Nat) (a : Anchors) (env : Environment) :
    Eval.evaluate lisp (depth + 1) (.symbol s) a ⟨h, env⟩ = .ok v ⟨h, env⟩ := by
  have hlookup : h.lookup env s.id = none := by
    rw [Heap.lookup, List.findSome?_eq_none_iff]
    intro id _
    rw [← Option.not_isSome_iff_eq_none, Frame.isSome_lookup, hbinds]
    exact Bool.false_ne_true
  exact evaluate_global hlookup hv depth a

end Interpreter

/-- **No program rebinds `nil` or `t`.** Whatever texts have been evaluated or loaded, with
success or without, the two have their own global values, their names stand for them, no frame
binds them and no closure has them as parameters. So they evaluate to themselves everywhere. -/
theorem constants_never_rebound {lisp : Interpreter} {h : Heap} (hr : lisp.Ran h) :
    ((h.cellsOf lisp.nil).value = some lisp.nilValue ∧
      (h.cellsOf lisp.t).value = some lisp.trueValue) ∧
    (lisp.findSymbol h "nil" = some lisp.nil ∧ lisp.findSymbol h "t" = some lisp.t ∧
      lisp.nil.isNil = true) ∧
    (∀ id, (h.frame id).binds lisp.nil.id = false ∧ (h.frame id).binds lisp.t.id = false) ∧
    (∀ (id : ObjectId) (c : Closure), h.closures[id]? = some c →
      ∀ s ∈ c.params ++ c.rest.toList, s.id ≠ lisp.nil.id ∧ s.id ≠ lisp.t.id) ∧
    ∀ depth a env,
      Eval.evaluate lisp (depth + 1) lisp.nilValue a ⟨h, env⟩ = .ok lisp.nilValue ⟨h, env⟩ ∧
      Eval.evaluate lisp (depth + 1) lisp.trueValue a ⟨h, env⟩ = .ok lisp.trueValue ⟨h, env⟩ := by
  have hspares := hr.spares
  obtain ⟨hsound, ht⟩ := hr.names
  refine ⟨⟨hspares.values.nil, hspares.values.t⟩, ⟨hsound.nil_found, ht, hsound.nil_isNil⟩,
    hspares.frames, fun id c hc s hs => ?_, fun depth a env => ⟨?_, ?_⟩⟩
  · exact Interpreter.isConstant_symbol_eq_false_iff.1 (hspares.closures hc s hs)
  · exact Interpreter.evaluate_symbol (fun id => (hspares.frames id).1) hspares.values.nil _ _ _
  · exact Interpreter.evaluate_symbol (fun id => (hspares.frames id).2) hspares.values.t _ _ _

/-- An attempt to assign `nil` leaves it as it was. -/
theorem constants_survive_setq :
    (((Interpreter.fresh Heap.empty).1.evalText 9 ⟨[], []⟩ "(setq nil 1)".toList
      (Interpreter.fresh Heap.empty).2).2.cellsOf (Interpreter.fresh Heap.empty).1.nil).value =
        some (Interpreter.fresh Heap.empty).1.nilValue :=
  (constants_never_rebound
    (.evalText (.fresh Heap.empty rfl rfl rfl) 9 ⟨[], []⟩ "(setq nil 1)".toList)).1.1

end SmallLisp
