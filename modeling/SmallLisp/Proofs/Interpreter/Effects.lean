import SmallLisp.Proofs.Interpreter.Works

set_option autoImplicit false

/-! # What evaluation may change

Evaluation writes in few places. It gives symbols values and functions, it assigns variables of
frames that bind them, and it interns the marker `&rest`; everything else that it does is to make
new objects and frames. Three results say so together. What becomes of cells, frames and packages
is a relation between heaps that all primitive computations keep (`Heap.Effect`). That functions of
symbols are operators is a law (`operatorsLaw`), and that objects and the code of closures stay what
they are is the law of registries.
-/

namespace SmallLisp

open Heap

/-! ## Functions of symbols -/

/-- Whether a value is an operator: a special form, a builtin or a closure. -/
def Value.isOperator : Value → Bool
  | .specialForm _ _ => true
  | .builtin _ _ => true
  | .closure _ _ => true
  | _ => false

namespace Heap

variable {h h' : Heap}

/-- **All functions of symbols are operators.** -/
def OnlyOperators (h : Heap) : Prop :=
  ∀ s, ∀ f ∈ (h.cellsOf s).function, f.isOperator = true

theorem OnlyOperators.of_cells (hh : h.OnlyOperators) (hcells : h'.cells = h.cells) :
    h'.OnlyOperators := by
  intro s
  rw [cellsOf, hcells]
  exact hh s

theorem OnlyOperators.setFunction (hh : h.OnlyOperators) (s : Symbol) {v : Value}
    (hv : v.isOperator = true) : (h.setFunction s v).OnlyOperators := by
  intro s' f hf
  rw [cellsOf_setFunction] at hf
  split at hf
  · exact Option.some.inj hf ▸ hv
  · exact hh s' f hf

theorem OnlyOperators.setValue (hh : h.OnlyOperators) (s : Symbol) (v : Value) :
    (h.setValue s v).OnlyOperators := by
  intro s' f hf
  rw [cellsOf_setValue] at hf
  split at hf
  · exact hh s' f hf
  · exact hh s' f hf

theorem OnlyOperators.intern (hh : h.OnlyOperators) (package : ObjectId) (name : String) :
    (h.intern package name).2.OnlyOperators :=
  hh.of_cells (h.shape_intern package name).1

end Heap

namespace Interpreter

/-- **Evaluation makes only operators functions of symbols.** -/
def operatorsLaw (lisp : Interpreter) : Law lisp where
  World := Unit
  order := PUnit.instLinearOrder.toPreorder
  heap _ := OnlyOperators
  env _ _ := True
  value _ _ := True
  var _ _ := True
  env_mono _ _ := trivial
  value_mono _ _ := trivial
  var_mono _ _ := trivial
  toplevel _ := trivial
  nil _ := trivial
  t _ := trivial
  parts _ := ⟨trivial, trivial⟩
  name _ := trivial
  cell _ _ _ := trivial
  package _ _ _ := trivial
  lookup _ _ _ := trivial
  check _ _ := trivial
  code _ _ := ⟨trivial, fun _ _ => trivial, fun _ _ => trivial⟩
  number hh _ := .here (hh.of_cells rfl) trivial
  string hh _ := .here (hh.of_cells rfl) trivial
  cons hh _ _ := .here (hh.of_cells rfl) trivial
  intern hh name := .here (hh.intern _ name) trivial
  closure hh _ _ := .here (hh.of_cells rfl) trivial
  frame hh _ _ := .here (hh.of_cells rfl) trivial
  setFunction hh _ _ := .here (hh.setFunction _ rfl) trivial
  setValue hh _ _ := .here (hh.setValue _ _) trivial
  assign hh _ _ _ hassign := by
    obtain ⟨_, _, rfl⟩ := Option.map_eq_some_iff.1 hassign
    exact .here (hh.of_cells rfl) trivial

theorem covers_operatorsLaw (lisp : Interpreter) : lisp.operatorsLaw.Covers :=
  ⟨fun _ _ => trivial, fun _ _ => trivial, fun _ _ => trivial⟩

theorem onlyOperators_define (lisp : Interpreter) {h : Heap} (hh : h.OnlyOperators)
    (name : String) (v : Value) : (lisp.define h name v).OnlyOperators :=
  (hh.intern lisp.package name).setValue _ v

theorem onlyOperators_install (lisp : Interpreter) {h : Heap} (hh : h.OnlyOperators)
    (name : String) {make : ObjectId → Value} (hmake : ∀ id, (make id).isOperator = true) :
    (lisp.install h name make).OnlyOperators :=
  ((hh.intern lisp.package name).of_cells rfl).setFunction _ (hmake _)

/-- What is installed in a fresh interpreter are operators. -/
theorem onlyOperators_fresh {h : Heap} (hh : h.OnlyOperators) :
    (fresh h).2.OnlyOperators := by
  have horigin : (origin h).2.OnlyOperators := hh.of_cells (Heap.shape_intern _ _ "t").1
  set lisp := (origin h).1
  have hconstants := onlyOperators_define lisp
    (onlyOperators_define lisp horigin "nil" lisp.nilValue) "t" lisp.trueValue
  -- the heap in which `pi` is defined
  set number := (lisp.define (lisp.define (origin h).2 "nil" lisp.nilValue) "t"
    lisp.trueValue).alloc (.number · pi)
  have hnumber : number.2.OnlyOperators := hconstants.of_cells rfl
  have hpi := onlyOperators_define lisp hnumber "pi" number.1
  unfold fresh
  generalize SpecialForm.all = forms
  generalize Builtin.all = ops
  refine List.foldlRecOn ops _ ?_ fun _ hh _ _ => onlyOperators_install lisp hh _ fun _ => rfl
  exact List.foldlRecOn forms _ hpi fun _ hh _ _ => onlyOperators_install lisp hh _ fun _ => rfl

theorem Works.onlyOperators {lisp : Interpreter} {h : Heap} {vs : List Value}
    (hw : lisp.Works h vs) : h.OnlyOperators := by
  have hempty : Heap.empty.OnlyOperators := fun s f hf => by
    simp [cellsOf, Heap.empty] at hf
  obtain ⟨_, hheap, _⟩ := hw.exists_world lisp.covers_operatorsLaw
    ⟨(), onlyOperators_fresh hempty⟩
  exact hheap

end Interpreter

/-! ## Cells, frames and packages -/

/-- The variables that a frame binds. -/
def Frame.bound (f : Frame) : List Value := f.bindings.map Binding.object

theorem Frame.bound_assign (f : Frame) (key : ObjectId) (v : Value) :
    (f.assign key v).bound = f.bound := by
  have hfirst : ∀ bs : List Binding,
      (Frame.assignFirst key v bs).map Binding.object = bs.map Binding.object := by
    intro bs
    induction bs with
    | nil => rfl
    | cons b bs ih =>
        unfold Frame.assignFirst
        split
        · rfl
        · rw [List.map_cons, List.map_cons, ih]
  exact hfirst f.bindings

namespace Heap

variable {h h' h'' : Heap} {package : ObjectId}

theorem bound_assign? {env : Environment} {key : ObjectId} {v : Value}
    (hassign : h.assign? env key v = some h') (id : FrameId) :
    (h'.frame id).bound = (h.frame id).bound := by
  obtain ⟨id', _, rfl⟩ := Option.map_eq_some_iff.1 hassign
  simp only [Heap.frame, Array.getElem?_modify]
  split
  · cases h.frames[id]? with
    | none => rfl
    | some f => exact f.bound_assign key v
  · rfl

/-- **What evaluation may do to cells, frames and packages.** Property lists stay, and cells that
are set stay set. Frames stay and bind the same variables in the same order. Packages stay and keep
their symbols, and the one that code runs in may get the marker of lambda lists. -/
structure Effect (package : ObjectId) (h h' : Heap) : Prop where
  plist : ∀ s, (h'.cellsOf s).plist = (h.cellsOf s).plist
  value : ∀ s, (h.cellsOf s).value.isSome → (h'.cellsOf s).value.isSome
  function : ∀ s, (h.cellsOf s).function.isSome → (h'.cellsOf s).function.isSome
  size : h.frames.size ≤ h'.frames.size
  bound : ∀ id < h.frames.size, (h'.frame id).bound = (h.frame id).bound
  packages : ∀ id, h'.packageValue? id = h.packageValue? id
  kept : ∀ {id : ObjectId} {name : String} {s : Symbol}, h.findSymbol id name = some s →
    h'.findSymbol id name = some s
  gained : ∀ {id : ObjectId} {name : String} {s : Symbol}, h'.findSymbol id name = some s →
    h.findSymbol id name = some s ∨ id = package ∧ name = "&rest"

theorem Effect.refl (package : ObjectId) (h : Heap) : Effect package h h :=
  ⟨fun _ => rfl, fun _ => id, fun _ => id, Nat.le_refl _, fun _ _ => rfl, fun _ => rfl, id, .inl⟩

theorem Effect.trans (h₁ : Effect package h h') (h₂ : Effect package h' h'') :
    Effect package h h'' where
  plist s := (h₂.plist s).trans (h₁.plist s)
  value s hs := h₂.value s (h₁.value s hs)
  function s hs := h₂.function s (h₁.function s hs)
  size := Nat.le_trans h₁.size h₂.size
  bound id hid :=
    (h₂.bound id (Nat.lt_of_lt_of_le hid h₁.size)).trans (h₁.bound id hid)
  packages id := (h₂.packages id).trans (h₁.packages id)
  kept hs := h₂.kept (h₁.kept hs)
  gained hs := (h₂.gained hs).elim h₁.gained .inr

/-- Where packages and frames stay, only cells have to be looked at. -/
theorem Effect.of_cells (hcells : ∀ s, (h'.cellsOf s).plist = (h.cellsOf s).plist ∧
      ((h.cellsOf s).value.isSome → (h'.cellsOf s).value.isSome) ∧
      ((h.cellsOf s).function.isSome → (h'.cellsOf s).function.isSome))
    (hpackages : h'.packages = h.packages) (hframes : h'.frames = h.frames) :
    Effect package h h' where
  plist s := (hcells s).1
  value s := (hcells s).2.1
  function s := (hcells s).2.2
  size := Nat.le_of_eq (congrArg Array.size hframes.symm)
  bound id _ := by rw [Heap.frame, hframes, Heap.frame]
  packages id := by rw [packageValue?, hpackages, packageValue?]
  kept hs := by rwa [findSymbol_congr (h := h) (by rw [hpackages])]
  gained hs := .inl (by rwa [findSymbol_congr (h := h) (by rw [hpackages])] at hs)

theorem effect_setFunction (package : ObjectId) (h : Heap) (s : Symbol) (v : Value) :
    Effect package h (h.setFunction s v) := by
  refine .of_cells (fun s' => ?_) rfl rfl
  rw [cellsOf_setFunction]
  split
  · exact ⟨rfl, id, fun _ => rfl⟩
  · exact ⟨rfl, id, id⟩

theorem effect_setValue (package : ObjectId) (h : Heap) (s : Symbol) (v : Value) :
    Effect package h (h.setValue s v) := by
  refine .of_cells (fun s' => ?_) rfl rfl
  rw [cellsOf_setValue]
  split
  · exact ⟨rfl, fun _ => rfl, id⟩
  · exact ⟨rfl, id, id⟩

/-- Only the cells, packages and frames matter. -/
theorem Effect.of_eq (hcells : h'.cells = h.cells) (hpackages : h'.packages = h.packages)
    (hframes : h'.frames = h.frames) : Effect package h h' := by
  refine .of_cells (fun s => ?_) hpackages hframes
  rw [cellsOf, hcells]
  exact ⟨rfl, id, id⟩

theorem effect_marker (package : ObjectId) (h : Heap) :
    Effect package h (h.intern package "&rest").2 := by
  have hgrows := fun id => grows_intern id h package "&rest"
  obtain ⟨hcells, _, hframes⟩ := h.shape_intern package "&rest"
  refine ⟨fun s => ?_, fun s => ?_, fun s => ?_, ?_, fun id _ => ?_, fun id => ?_,
    fun hs => (hgrows _).kept hs, fun {id name s} hs => ?_⟩
  · rw [cellsOf, hcells, cellsOf]
  · rw [cellsOf, cellsOf, hcells]
    exact id
  · rw [cellsOf, cellsOf, hcells]
    exact id
  · exact Nat.le_of_eq (congrArg Array.size hframes.symm)
  · rw [Heap.frame, hframes, Heap.frame]
  · unfold Heap.intern
    split
    · rfl
    · exact packageValue?_enter _ _ id _
  · unfold Heap.intern at hs
    split at hs
    · exact .inl hs
    · rw [findSymbol_enter] at hs
      split at hs
      · rename_i hnew
        exact .inr ⟨hnew.1.symm, hnew.2.2.symm⟩
      · exact .inl hs

/-- **The effect of a primitive computation.** -/
theorem tracks_effect (lisp : Interpreter) : Eval.Tracks lisp (Effect lisp.package) where
  refl := .refl _
  trans := .trans
  alloc _ _ := .of_eq rfl rfl rfl
  marker h := effect_marker lisp.package h
  closure _ _ _ := .of_eq rfl rfl rfl
  setFunction := effect_setFunction _
  setValue := effect_setValue _
  frame h frame := by
    refine ⟨fun _ => rfl, fun _ => id, fun _ => id, ?_, fun id hid => ?_, fun _ => rfl, id, .inl⟩
    · rw [makeFrame, Array.size_push]
      exact Nat.le_succ _
    · rw [Interpreter.frame_makeFrame, if_neg (Nat.ne_of_lt hid)]
  assign {h h' env key v} hassign := by
    have hbound := bound_assign? hassign
    obtain ⟨_, _, rfl⟩ := Option.map_eq_some_iff.1 hassign
    refine ⟨fun _ => rfl, fun _ => id, fun _ => id, ?_, fun id _ => hbound id, fun _ => rfl,
      id, .inl⟩
    rw [Array.size_modify]

end Heap

/-! ## Objects and code -/

namespace Registry

theorem covers_law (lisp : Interpreter) : (law lisp).Covers :=
  ⟨fun hw hv => hw.mentioned hv, fun hv hp => (hv.part hp).1, fun _ _ => trivial⟩

/-- Code that is registered stays. -/
theorem Fits.code_kept {w w' : Registry} {h h' : Heap} (hw : w.Fits h) (hle : w ≤ w')
    (hw' : w'.Fits h') {id : ObjectId} {c : Closure} (hc : h.closures[id]? = some c) :
    h'.closures[id]? = some c := by
  rw [hw.code] at hc
  rw [hw'.code, (hle.2 id (w.code_lt hc)).2, hc]

end Registry

theorem Interpreter.Works.exists_registry {lisp : Interpreter} {h : Heap} {vs : List Value}
    (hw : lisp.Works h vs) :
    ∃ w : (Registry.law lisp).World, w.1.Fits h ∧ (Registry.law lisp).values w vs := by
  obtain ⟨w, _, hfits, hconstants⟩ := Registry.fits_empty.reaches_fresh
  rw [hw.made] at hconstants
  exact hw.exists_world (Registry.covers_law lisp) ⟨⟨w, hconstants⟩, hfits⟩

/-! ## Evaluation -/

/-- **What evaluation may change**, whether it ends in a value or not. No property list changes, no
cell that is set becomes empty, and functions of symbols are operators. An object has the same
contents before and after, whatever it is, and so has a closure. Frames bind the same variables
in the same order. The package keeps its entries and gets no others than the marker `&rest`. -/
theorem evaluation_effects {lisp : Interpreter} {h : Heap} {vs : List Value} {form : Value}
    {env : Environment} (hw : lisp.Works h vs) (hform : h.Has vs form) (henv : h.HasFrames env)
    (depth : Nat) (held : Anchors) :
    let out := Eval.evaluate lisp depth form held ⟨h, env⟩
    let h' := (Eval.left out).heap
    (∀ s, (h'.cellsOf s).plist = (h.cellsOf s).plist ∧
      ((h.cellsOf s).value.isSome → (h'.cellsOf s).value.isSome) ∧
      ((h.cellsOf s).function.isSome → (h'.cellsOf s).function.isSome) ∧
      ∀ f ∈ (h'.cellsOf s).function, f.isOperator = true) ∧
    (∀ u v, h.Has vs u → h'.Has (Eval.valueOf out ++ vs) v → u.id = v.id → u = v) ∧
    (∀ (id : ObjectId) (c : Closure), h.closures[id]? = some c → h'.closures[id]? = some c) ∧
    (∀ id < h.frames.size, id < h'.frames.size ∧ (h'.frame id).bound = (h.frame id).bound) ∧
    (∀ name s, lisp.findSymbol h name = some s → lisp.findSymbol h' name = some s) ∧
    ∀ name s, lisp.findSymbol h' name = some s →
      lisp.findSymbol h name = some s ∨ name = "&rest" := by
  intro out h'
  have hafter : lisp.Works h' (Eval.valueOf out ++ vs) := hw.evaluate hform henv depth held
  have heffect : Effect lisp.package h h' :=
    (Eval.built_evaluate depth form).tracks (tracks_effect lisp) held ⟨h, env⟩
  obtain ⟨w, hfits, hvs⟩ := hw.exists_registry
  obtain ⟨w', hle, hfits', hvs'⟩ :=
    (Registry.covers_law lisp).reaches_evaluate hfits hvs hform henv depth held
  refine ⟨fun s => ⟨heffect.plist s, heffect.value s, heffect.function s,
    hafter.onlyOperators s⟩, fun u v hu hv hid => ?_, fun id c hc => ?_, fun id hid => ?_,
    fun name s hs => heffect.kept hs, fun name s hs => ?_⟩
  · -- both are registered at the end, and there is one object for an identity
    have hu' : w'.1.Knows u := ((Registry.covers_law lisp).value hfits hvs hu).mono hle
    have hv' : w'.1.Knows v := (Registry.covers_law lisp).value hfits' hvs' hv
    exact hu'.eq_of_id hv' hid
  · exact hfits.code_kept hle hfits' hc
  · exact ⟨Nat.lt_of_lt_of_le hid heffect.size, heffect.bound id hid⟩
  · exact (heffect.gained hs).imp_right And.right

/-- A function definition is read and evaluated: `&rest` is the one name that is new. -/
theorem evaluation_effects_defun :
    let made := Interpreter.fresh Heap.empty
    let reading := (Reader.ofSource "(defun f (x) (setq y x))".toList).read made.1 made.2
    let form := reading.result.toOption.getD made.1.nilValue
    let h' := (Eval.left (Eval.evaluate made.1 2 form .none ⟨reading.heap, []⟩)).heap
    made.1.findSymbol reading.heap "&rest" = none ∧
      (made.1.findSymbol h' "&rest").isSome = true ∧
      ∀ name s, made.1.findSymbol h' name = some s →
        made.1.findSymbol reading.heap name = some s ∨ name = "&rest" := by
  intro made reading form h'
  have hread : reading.result.toOption = some form := by decide +kernel
  have hwork : made.1.Works reading.heap (reading.result.toOption.toList ++ []) :=
    (Interpreter.Works.fresh rfl).read _
  have hform : reading.heap.Has (reading.result.toOption.toList ++ []) form := by
    rw [hread]
    exact .given List.mem_cons_self
  have hframes : reading.heap.HasFrames [] := fun _ hf => absurd hf List.not_mem_nil
  obtain ⟨_, _, _, _, _, hgained⟩ := evaluation_effects hwork hform hframes 2 .none
  exact ⟨by decide +kernel, by decide +kernel, hgained⟩

end SmallLisp
