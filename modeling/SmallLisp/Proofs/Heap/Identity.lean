import SmallLisp.Proofs.Interpreter.Constants
import SmallLisp.Proofs.Program.Lawful

set_option autoImplicit false

/-! # The identity of objects

An object is allocated once and never changes: what can change is in the heap, under its identity.
A `Registry` is a record of all that has been allocated. It has one object for each identity, an
object comes after its parts, and later registries only add to it (`Registry.add`). A heap *fits* a
registry if all that its entries mention is registered.

Every way to change a heap leads from a heap that fits to one that fits a later registry. That makes
registries the worlds of a law, which evaluation and reading then keep (`Registry.law`), and a new
interpreter adds to the registry like everything else (`reaches_fresh`).
-/

namespace SmallLisp

/-! ## What mentions what -/

/-- The objects that an object is made of. -/
def Value.parts : Value → List Value
  | .cons _ car cdr => [car, cdr]
  | .symbol s => [.nameOf s]
  | .closure _ (some name) => [.symbol name]
  | _ => []

/-- The objects that the code of a closure mentions. -/
def Closure.objects (c : Closure) : List Value :=
  (c.params ++ c.rest.toList).map Value.symbol ++ c.body

/-- The objects that a frame mentions: its variables and their values. -/
def Frame.objects (f : Frame) : List Value := f.bindings.flatMap fun b => [b.object, b.value]

/-- **The objects that the entries of a heap mention.** -/
inductive Heap.Mentions (h : Heap) : Value → Prop
  | cell {id : ObjectId} {c : Cells} {v : Value} (hc : h.cells[id]? = some c)
      (hv : v ∈ Heap.cellValues c) : Mentions h v
  | package {id : ObjectId} {p : Package} (hp : h.packages[id]? = some p) :
      Mentions h (.package id p.name)
  | symbol {id : ObjectId} {name : String} {s : Symbol} (hs : h.findSymbol id name = some s) :
      Mentions h (.symbol s)
  | code {id : ObjectId} {c : Closure} {v : Value} (hc : h.closures[id]? = some c)
      (hv : v ∈ c.objects) : Mentions h v
  | frame {id : FrameId} {v : Value} (hv : v ∈ (h.frame id).objects) : Mentions h v

namespace Heap

variable {h h' : Heap} {v : Value}

theorem not_mentions_empty (v : Value) : ¬ empty.Mentions v := by
  intro hv
  cases hv with
  | cell hc => simp [empty] at hc
  | package hp => simp [empty] at hp
  | symbol hs => simp [findSymbol, symbolsOf, empty] at hs
  | code hc => simp [empty] at hc
  | frame hv => simp [empty, Heap.frame, Frame.objects] at hv

/-! What an operation makes a heap mention is what it is given. -/

/-- Only cells, packages, closures and frames mention anything. -/
theorem Mentions.congr (hv : h'.Mentions v) (hcells : h'.cells = h.cells)
    (hpackages : h'.packages = h.packages) (hclosures : h'.closures = h.closures)
    (hframes : h'.frames = h.frames) : h.Mentions v := by
  cases hv with
  | cell hc hv => exact .cell (hcells ▸ hc) hv
  | package hp => exact .package (hpackages ▸ hp)
  | symbol hs => exact .symbol (by rwa [findSymbol_congr (h := h) (by rw [hpackages])] at hs)
  | code hc hv => exact .code (hclosures ▸ hc) hv
  | @frame id _ hv =>
      rw [Heap.frame, hframes] at hv
      exact .frame hv

theorem Mentions.of_alloc {make : ObjectId → Value} (hv : (h.alloc make).2.Mentions v) :
    h.Mentions v :=
  hv.congr rfl rfl rfl rfl

theorem Mentions.of_enter {package : ObjectId} {s : Symbol}
    (hv : (h.enter package s).Mentions v) : h.Mentions v ∨ v = .symbol s := by
  cases hv with
  | cell hc hv => exact .inl (.cell hc hv)
  | @package id p hp =>
      rw [enter, Std.TreeMap.getElem?_modify] at hp
      split at hp
      · rename_i heq
        obtain ⟨q, hq, rfl⟩ := Option.map_eq_some_iff.1 hp
        obtain rfl := Std.LawfulEqCmp.compare_eq_iff_eq.1 heq
        show h.Mentions (.package package q.name) ∨ _
        exact .inl (.package hq)
      · exact .inl (.package hp)
  | symbol hfound =>
      rw [findSymbol_enter] at hfound
      split at hfound
      · exact .inr (congrArg Value.symbol (Option.some.inj hfound).symm)
      · exact .inl (.symbol hfound)
  | code hc hv => exact .inl (.code hc hv)
  | frame hv => exact .inl (.frame hv)

theorem Mentions.of_makeClosure {name : Option Symbol} {c : Closure}
    (hv : (h.makeClosure name c).2.Mentions v) : h.Mentions v ∨ v ∈ c.objects := by
  cases hv with
  | cell hc hv => exact .inl (.cell hc hv)
  | package hp => exact .inl (.package hp)
  | symbol hs => exact .inl (.symbol hs)
  | frame hv => exact .inl (.frame hv)
  | code hcode hv =>
      rw [makeClosure, Std.TreeMap.getElem?_insert] at hcode
      split at hcode
      · cases hcode
        exact .inr hv
      · exact .inl (.code hcode hv)

theorem Mentions.of_makeFrame {f : Frame} (hv : (h.makeFrame f).2.Mentions v) :
    h.Mentions v ∨ v ∈ f.objects := by
  cases hv with
  | cell hc hv => exact .inl (.cell hc hv)
  | package hp => exact .inl (.package hp)
  | symbol hs => exact .inl (.symbol hs)
  | code hc hv => exact .inl (.code hc hv)
  | frame hv =>
      rw [Interpreter.frame_makeFrame] at hv
      split at hv
      · exact .inr hv
      · exact .inl (.frame hv)

theorem Mentions.of_makePackage {name : String} (hv : (h.makePackage name).2.Mentions v) :
    h.Mentions v ∨ v = .package h.next name := by
  cases hv with
  | cell hc hv => exact .inl (.cell hc hv)
  | code hc hv => exact .inl (.code hc hv)
  | frame hv => exact .inl (.frame hv)
  | package hp =>
      rw [makePackage, Std.TreeMap.getElem?_insert] at hp
      split at hp
      · rename_i heq
        cases hp
        obtain rfl := Std.LawfulEqCmp.compare_eq_iff_eq.1 heq
        exact .inr rfl
      · exact .inl (.package hp)
  | @symbol id title s hs =>
      by_cases hnew : id = h.next
      · rw [hnew, Interpreter.findSymbol_makePackage_self] at hs
        cases hs
      · rw [findSymbol_congr (h := h)] at hs
        · exact .inl (.symbol hs)
        · rw [makePackage, Std.TreeMap.getElem?_insert, if_neg]
          rw [Std.LawfulEqCmp.compare_eq_iff_eq]
          exact Ne.symm hnew

theorem Mentions.of_setCells {s : Symbol} {c : Cells} (hv : (h.setCells s c).Mentions v) :
    h.Mentions v ∨ v ∈ cellValues c := by
  cases hv with
  | cell hcell hv =>
      rw [setCells, Std.TreeMap.getElem?_insert] at hcell
      split at hcell
      · cases hcell
        exact .inr hv
      · exact .inl (.cell hcell hv)
  | package hp => exact .inl (.package hp)
  | symbol hs => exact .inl (.symbol hs)
  | code hc hv => exact .inl (.code hc hv)
  | frame hv => exact .inl (.frame hv)

/-- What is bound to the variable is replaced, the rest of the frame stays. -/
theorem mem_objects_assignFirst {key : ObjectId} {value : Value} {bs : List Binding}
    (hv : v ∈ (Frame.mk (Frame.assignFirst key value bs)).objects) :
    v = value ∨ v ∈ (Frame.mk bs).objects := by
  induction bs with
  | nil => exact .inr hv
  | cons b bs ih =>
      unfold Frame.assignFirst at hv
      split at hv
      · simp only [Frame.objects, List.flatMap_cons, List.mem_append, List.mem_cons,
          List.not_mem_nil, or_false] at hv ⊢
        tauto
      · simp only [Frame.objects, List.flatMap_cons, List.mem_append] at ih hv ⊢
        tauto

theorem Mentions.of_assign? {env : Environment} {key : ObjectId} {value : Value}
    (hassign : h.assign? env key value = some h') (hv : h'.Mentions v) :
    h.Mentions v ∨ v = value := by
  obtain ⟨id, _, rfl⟩ := Option.map_eq_some_iff.1 hassign
  cases hv with
  | cell hc hv => exact .inl (.cell hc hv)
  | package hp => exact .inl (.package hp)
  | symbol hs => exact .inl (.symbol hs)
  | code hc hv => exact .inl (.code hc hv)
  | @frame id' _ hv =>
      simp only [Heap.frame, Array.getElem?_modify] at hv
      have hframe : ∀ f, h.frames[id']? = some f → v ∈ f.objects → h.Mentions v := fun f hf hmem =>
        @Mentions.frame h id' v (by rw [Heap.frame, hf]; exact hmem)
      cases hf : h.frames[id']? with
      | none =>
          rw [hf] at hv
          split at hv <;> exact absurd hv (by simp [Frame.objects])
      | some f =>
          rw [hf] at hv
          split at hv
          · rcases mem_objects_assignFirst hv with rfl | hmem
            · exact .inr rfl
            · exact .inl (hframe f hf hmem)
          · exact .inl (hframe f hf hv)

/-- What a variable is looked up to be is mentioned. -/
theorem mentions_lookup {env : Environment} {key : ObjectId} (hv : h.lookup env key = some v) :
    h.Mentions v := by
  obtain ⟨id, _, hfound⟩ := List.exists_of_findSome?_eq_some hv
  obtain ⟨b, hb, rfl⟩ := Option.map_eq_some_iff.1 hfound
  have hmem : b ∈ (h.frame id).bindings := List.mem_of_find?_eq_some hb
  exact @Mentions.frame h id _ (List.mem_flatMap.2 ⟨b, hmem, by simp⟩)

/-- A cell that is set holds what it is set to, and the others hold what they held. -/
theorem mem_cellValues_set {c : Cells} {value : Value}
    (hv : v ∈ cellValues { c with value := some value } ∨
      v ∈ cellValues { c with function := some value } ∨
      v ∈ cellValues { c with plist := some value }) : v = value ∨ v ∈ cellValues c := by
  simp only [cellValues, List.mem_append, Option.mem_toList, Option.some.injEq] at hv ⊢
  tauto

/-- What a cell of a symbol holds is mentioned. -/
theorem mentions_cell {s : Symbol} (hv : v ∈ cellValues (h.cellsOf s)) : h.Mentions v := by
  rw [cellsOf, Std.TreeMap.getD_eq_getD_getElem?] at hv
  cases hc : h.cells[s.id]? with
  | none =>
      rw [hc] at hv
      exact absurd hv (by simp [cellValues])
  | some c =>
      rw [hc] at hv
      exact .cell hc hv

end Heap

/-! ## Registries -/

/-- **A record of all that has been allocated**: the object of each identity, and the code of
closures. The parts of an object are registered, and they are older; so is the package that a symbol
was made for. -/
structure Registry where
  next : ObjectId
  object : ObjectId → Option Value
  code : ObjectId → Option Closure
  lt_next : ∀ {id : ObjectId} {v : Value}, object id = some v → id < next
  code_lt : ∀ {id : ObjectId} {c : Closure}, code id = some c → id < next
  id_eq : ∀ {id : ObjectId} {v : Value}, object id = some v → v.id = id
  parts : ∀ {id : ObjectId} {v p : Value}, object id = some v → p ∈ v.parts →
    p.id < id ∧ object p.id = some p
  home : ∀ {id : ObjectId} {s : Symbol}, object id = some (.symbol s) → s.home < id

namespace Registry

/-- An object is known if it is the one that is registered under its identity. -/
def Knows (w : Registry) (v : Value) : Prop := w.object v.id = some v

/-- **A later registry** has the same entries below the bound of the earlier one. -/
instance : Preorder Registry where
  le w w' := w.next ≤ w'.next ∧
    ∀ id < w.next, w'.object id = w.object id ∧ w'.code id = w.code id
  le_refl _ := ⟨Nat.le_refl _, fun _ _ => ⟨rfl, rfl⟩⟩
  le_trans w₁ w₂ w₃ h₁ h₂ := ⟨Nat.le_trans h₁.1 h₂.1, fun id hid => by
    have hid₂ : id < w₂.next := Nat.lt_of_lt_of_le hid h₁.1
    exact ⟨(h₂.2 id hid₂).1.trans (h₁.2 id hid).1, (h₂.2 id hid₂).2.trans (h₁.2 id hid).2⟩⟩

variable {w w' : Registry} {h h' : Heap} {v : Value}

theorem Knows.id_lt (hv : w.Knows v) : v.id < w.next := w.lt_next hv

theorem Knows.mono (hw : w ≤ w') (hv : w.Knows v) : w'.Knows v :=
  (hw.2 v.id hv.id_lt).1.trans hv

/-- **Known objects of the same identity are the same object.** -/
theorem Knows.eq_of_id {u : Value} (hu : w.Knows u) (hv : w.Knows v) (hid : u.id = v.id) :
    u = v := by
  rw [Knows, hid] at hu
  exact Option.some.inj (hu.symm.trans hv)

theorem Knows.part {p : Value} (hv : w.Knows v) (hp : p ∈ v.parts) : w.Knows p ∧ p.id < v.id :=
  ⟨(w.parts hv hp).2, (w.parts hv hp).1⟩

/-- The registry of a heap in which nothing has been allocated. -/
def empty : Registry where
  next := 0
  object _ := none
  code _ := none
  lt_next := nofun
  code_lt := nofun
  id_eq := nofun
  parts := nofun
  home := nofun

/-- **What may be added** to a registry: an object that is newer than all others, made of objects
that are known. -/
structure Admits (w : Registry) (v : Value) : Prop where
  id : w.next ≤ v.id
  parts : ∀ p ∈ v.parts, w.Knows p
  home : ∀ s, v = .symbol s → s.home < v.id

/-- **Adds an object**, with the code of a closure. -/
def add (w : Registry) (v : Value) (code : Option Closure) (hv : w.Admits v) : Registry where
  next := v.id + 1
  object := Function.update w.object v.id (some v)
  code := Function.update w.code v.id code
  lt_next {id u} hu := by
    by_cases hnew : id = v.id
    · exact hnew ▸ Nat.lt_succ_self _
    · rw [Function.update_of_ne hnew] at hu
      exact Nat.lt_succ_of_lt (Nat.lt_of_lt_of_le (w.lt_next hu) hv.id)
  code_lt {id c} hc := by
    by_cases hnew : id = v.id
    · exact hnew ▸ Nat.lt_succ_self _
    · rw [Function.update_of_ne hnew] at hc
      exact Nat.lt_succ_of_lt (Nat.lt_of_lt_of_le (w.code_lt hc) hv.id)
  id_eq {id u} hu := by
    by_cases hnew : id = v.id
    · rw [hnew, Function.update_self] at hu
      rw [hnew, ← Option.some.inj hu]
    · rw [Function.update_of_ne hnew] at hu
      exact w.id_eq hu
  parts {id u p} hu hp := by
    -- a part of any object was registered before the new one
    have hold : w.Knows p ∧ p.id < id := by
      by_cases hnew : id = v.id
      · rw [hnew, Function.update_self] at hu
        obtain rfl := Option.some.inj hu
        exact ⟨hv.parts p hp, hnew ▸ Nat.lt_of_lt_of_le (hv.parts p hp).id_lt hv.id⟩
      · rw [Function.update_of_ne hnew] at hu
        exact ⟨(w.parts hu hp).2, (w.parts hu hp).1⟩
    refine ⟨hold.2, ?_⟩
    rw [Function.update_of_ne (Nat.ne_of_lt (Nat.lt_of_lt_of_le hold.1.id_lt hv.id))]
    exact hold.1
  home {id s} hs := by
    by_cases hnew : id = v.id
    · rw [hnew, Function.update_self] at hs
      exact hnew ▸ hv.home s (Option.some.inj hs)
    · rw [Function.update_of_ne hnew] at hs
      exact w.home hs

section

variable (code : Option Closure) (hv : w.Admits v)

theorem knows_add : (w.add v code hv).Knows v := Function.update_self ..

theorem le_add : w ≤ w.add v code hv := by
  refine ⟨Nat.le_succ_of_le hv.id, fun id hlt => ?_⟩
  have hne : id ≠ v.id := Nat.ne_of_lt (Nat.lt_of_lt_of_le hlt hv.id)
  exact ⟨Function.update_of_ne hne _ _, Function.update_of_ne hne _ _⟩

end

/-! ## Heaps that fit -/

/-- **A heap fits a registry** if what its entries mention is known, closures have the code that is
registered, and nothing has cells that is not there. -/
structure Fits (w : Registry) (h : Heap) : Prop where
  next : w.next = h.next
  mentioned : ∀ {v : Value}, h.Mentions v → w.Knows v
  code : ∀ id : ObjectId, h.closures[id]? = w.code id
  cells_lt : ∀ {id : ObjectId}, id ∈ h.cells → id < h.next

/-- Registries as a view of a run: to be known is to be registered. -/
def view : View where
  World := Registry
  heap := Fits
  env _ _ := True
  value := Knows
  var w s := w.Knows (.symbol s)
  env_mono _ _ := trivial
  value_mono := Knows.mono
  var_mono := Knows.mono

theorem fits_empty : empty.Fits Heap.empty where
  next := rfl
  mentioned hv := absurd hv (Heap.not_mentions_empty _)
  code id := by simp [Heap.empty, empty]
  cells_lt hid := absurd hid Std.TreeMap.not_mem_emptyc

/-! ## What is made -/

/-- There is no code yet under the next identity. -/
theorem Fits.closures_next (hw : w.Fits h) : h.closures[h.next]? = none := by
  rw [hw.code, Option.eq_none_iff_forall_ne_some]
  intro c hc
  exact absurd (w.code_lt hc) (Nat.not_lt.2 (Nat.le_of_eq hw.next))

/-- **A new object** under the next identity. -/
theorem Fits.reaches_add (hw : w.Fits h) (code : Option Closure) (hid : v.id = h.next)
    (hv : w.Admits v) (hnext : h'.next = h.next + 1) (hcells : h'.cells = h.cells)
    (hmentions : ∀ {u : Value}, h'.Mentions u → h.Mentions u ∨ u = v ∨ w.Knows u)
    (hcode : ∀ id : ObjectId, h'.closures[id]? = if id = h.next then code else h.closures[id]?) :
    view.Reaches w h' fun w' => w'.Knows v := by
  have hle := le_add code hv
  have hknows := knows_add code hv
  refine ⟨w.add v code hv, hle, ⟨?_, fun {u} hu => ?_, fun id => ?_, fun {id} hmem => ?_⟩, hknows⟩
  · rw [hnext, ← hid]
    rfl
  · rcases hmentions hu with hold | rfl | hknown
    · exact (hw.mentioned hold).mono hle
    · exact hknows
    · exact hknown.mono hle
  · show _ = Function.update w.code v.id code id
    rw [hcode, hid]
    by_cases heq : id = h.next
    · rw [if_pos heq, heq, Function.update_self]
    · rw [if_neg heq, Function.update_of_ne heq, hw.code]
  · rw [hnext]
    exact Nat.lt_succ_of_lt (hw.cells_lt (hcells ▸ hmem))

theorem Fits.reaches_alloc (hw : w.Fits h) (make : ObjectId → Value)
    (hid : (make h.next).id = h.next) (hparts : ∀ p ∈ (make h.next).parts, w.Knows p)
    (hhome : ∀ s, make h.next = .symbol s → s.home < h.next) :
    view.Reaches w (h.alloc make).2 fun w' => w'.Knows (h.alloc make).1 := by
  have hv : w.Admits (make h.next) := ⟨by rw [hid, hw.next], hparts, hid.symm ▸ hhome⟩
  refine hw.reaches_add none hid hv rfl rfl (fun hu => .inl hu.of_alloc) fun id => ?_
  show h.closures[id]? = _
  split
  · rename_i heq
    rw [heq, hw.closures_next]
  · rfl

theorem Fits.reaches_makeSymbol (hw : w.Fits h) {package : ObjectId} (hp : package < h.next)
    (name : String) (isNil : Bool) :
    view.Reaches w (h.makeSymbol package name isNil).2 fun w' =>
      w'.Knows (.symbol (h.makeSymbol package name isNil).1) := by
  -- the name comes first and is then a part of the symbol
  obtain ⟨w₁, hw₁, hfits, hname⟩ := hw.reaches_alloc (.string · name) rfl nofun nofun
  have hparts : ∀ p ∈ (Value.symbol ⟨h.next + 1, name, h.next, isNil, package⟩).parts,
      w₁.Knows p := by
    intro p hp
    obtain rfl := List.mem_singleton.1 hp
    exact hname
  refine (hfits.reaches_alloc (fun id => .symbol ⟨id, name, h.next, isNil, package⟩) rfl
    hparts fun s hs => ?_).from_later hw₁
  cases hs
  exact Nat.lt_succ_of_lt hp

/-- A known symbol may be entered anywhere. -/
theorem Fits.enter (hw : w.Fits h) {s : Symbol} (hs : w.Knows (.symbol s)) (package : ObjectId) :
    w.Fits (h.enter package s) where
  next := hw.next
  code := hw.code
  mentioned hv := hv.of_enter.elim hw.mentioned fun heq => heq ▸ hs
  cells_lt := hw.cells_lt

theorem Fits.reaches_intern (hw : w.Fits h) {package : ObjectId} (hp : package < h.next)
    (name : String) :
    view.Reaches w (h.intern package name).2 fun w' =>
      w'.Knows (.symbol (h.intern package name).1) := by
  unfold Heap.intern
  split
  · rename_i s hs
    exact .here hw (hw.mentioned (.symbol hs))
  · obtain ⟨w', hw', hfits, hs⟩ := hw.reaches_makeSymbol hp name false
    exact ⟨w', hw', hfits.enter hs package, hs⟩

theorem Fits.reaches_makeClosure (hw : w.Fits h) {name : Option Symbol} {c : Closure}
    (hname : ∀ s ∈ name, w.Knows (.symbol s)) (hc : ∀ u ∈ c.objects, w.Knows u) :
    view.Reaches w (h.makeClosure name c).2 fun w' => w'.Knows (h.makeClosure name c).1 := by
  refine hw.reaches_add (some c) rfl ⟨Nat.le_of_eq hw.next, ?_, nofun⟩ rfl rfl (fun hu => ?_)
    fun id => ?_
  · cases name with
    | none => exact nofun
    | some s =>
        intro p hp
        obtain rfl := List.mem_singleton.1 hp
        exact hname s rfl
  · exact hu.of_makeClosure.imp_right fun hmem => .inr (hc _ hmem)
  · rw [Heap.makeClosure, Std.TreeMap.getElem?_insert]
    simp only [Std.LawfulEqCmp.compare_eq_iff_eq, eq_comm (a := id)]

theorem Fits.makeFrame (hw : w.Fits h) {frame : Frame} (hframe : ∀ u ∈ frame.objects, w.Knows u) :
    w.Fits (h.makeFrame frame).2 where
  next := hw.next
  code := hw.code
  mentioned hv := hv.of_makeFrame.elim hw.mentioned (hframe _)
  cells_lt := hw.cells_lt

theorem Fits.reaches_makePackage (hw : w.Fits h) (name : String) :
    view.Reaches w (h.makePackage name).2 fun w' => w'.Knows (h.makePackage name).1 := by
  refine hw.reaches_add none rfl ⟨Nat.le_of_eq hw.next, nofun, nofun⟩ rfl rfl
    (fun hu => hu.of_makePackage.imp_right .inl) fun id => ?_
  show h.closures[id]? = _
  split
  · rename_i heq
    rw [heq, hw.closures_next]
  · rfl

/-! ## What is set -/

theorem Fits.setCells (hw : w.Fits h) {s : Symbol} (hs : w.Knows (.symbol s)) {c : Cells}
    (hc : ∀ u ∈ Heap.cellValues c, w.Knows u) : w.Fits (h.setCells s c) where
  next := hw.next
  code := hw.code
  mentioned hv := hv.of_setCells.elim hw.mentioned (hc _)
  cells_lt hid := by
    rw [Heap.setCells, Std.TreeMap.mem_insert, Std.LawfulEqCmp.compare_eq_iff_eq] at hid
    rcases hid with rfl | hold
    · exact hw.next ▸ hs.id_lt
    · exact hw.cells_lt hold

/-- Known values may be put into the cells of known symbols. -/
theorem Fits.setCell (hw : w.Fits h) {s : Symbol} (hs : w.Knows (.symbol s)) (hv : w.Knows v) :
    w.Fits (h.setValue s v) ∧ w.Fits (h.setFunction s v) ∧ w.Fits (h.setPlist s v) := by
  have hset : ∀ u, u = v ∨ u ∈ Heap.cellValues (h.cellsOf s) → w.Knows u := by
    rintro u (rfl | hold)
    · exact hv
    · exact hw.mentioned (Heap.mentions_cell hold)
  exact ⟨hw.setCells hs fun u hu => hset u (Heap.mem_cellValues_set (.inl hu)),
    hw.setCells hs fun u hu => hset u (Heap.mem_cellValues_set (.inr (.inl hu))),
    hw.setCells hs fun u hu => hset u (Heap.mem_cellValues_set (.inr (.inr hu)))⟩

theorem Fits.assign (hw : w.Fits h) {env : Environment} {key : ObjectId} (hv : w.Knows v)
    (hassign : h.assign? env key v = some h') : w.Fits h' := by
  have hmentioned : ∀ {u : Value}, h'.Mentions u → w.Knows u := fun hu =>
    (hu.of_assign? hassign).elim hw.mentioned fun heq => heq ▸ hv
  obtain ⟨id, _, rfl⟩ := Option.map_eq_some_iff.1 hassign
  exact ⟨hw.next, hmentioned, hw.code, hw.cells_lt⟩

/-! ## The law of identity -/

/-- A registry in which the constants of an interpreter and its package are known. -/
def HasConstants (lisp : Interpreter) (w : Registry) : Prop := ∀ v ∈ lisp.held, w.Knows v

section

variable {lisp : Interpreter} (hc : w.HasConstants lisp)

include hc

theorem HasConstants.mono (hw : w ≤ w') : w'.HasConstants lisp := fun v hv => (hc v hv).mono hw

theorem HasConstants.nil : w.Knows lisp.nilValue := hc _ (by simp [Interpreter.held])

theorem HasConstants.t : w.Knows lisp.trueValue := hc _ (by simp [Interpreter.held])

theorem HasConstants.package_lt : lisp.package < w.next :=
  (hc (.package lisp.package Interpreter.packageName) (by simp [Interpreter.held])).id_lt

end

/-- The registries that may arise while an interpreter is running. -/
def viewOf (lisp : Interpreter) : View where
  World := { w : Registry // w.HasConstants lisp }
  heap w h := w.1.Fits h
  env _ _ := True
  value w v := w.1.Knows v
  var w s := w.1.Knows (.symbol s)
  env_mono _ _ := trivial
  value_mono hw hv := hv.mono hw
  var_mono hw hs := hs.mono hw

theorem reaches_viewOf {lisp : Interpreter} {u : (viewOf lisp).World} {post : Registry → Prop}
    (hr : view.Reaches u.1 h post) : (viewOf lisp).Reaches u h fun u' => post u'.1 := by
  obtain ⟨w', hw, hfits, hpost⟩ := hr
  exact ⟨⟨w', u.2.mono hw⟩, hw, hfits, hpost⟩

theorem package_lt_of_fits {lisp : Interpreter} {u : (viewOf lisp).World} (hw : u.1.Fits h) :
    lisp.package < h.next := hw.next ▸ u.2.package_lt

theorem knows_objects_of_isCode {lisp : Interpreter} {u : (viewOf lisp).World} {c : Closure}
    (hc : (viewOf lisp).IsCode u c) : ∀ v ∈ c.objects, u.1.Knows v := by
  intro v hv
  rcases List.mem_append.1 hv with hv | hv
  · obtain ⟨s, hs, rfl⟩ := List.mem_map.1 hv
    exact hc.bound s hs
  · exact hc.body v hv

theorem knows_objects_of_isFrame {lisp : Interpreter} {u : (viewOf lisp).World} {f : Frame}
    (hf : (viewOf lisp).IsFrame u f) : ∀ v ∈ f.objects, u.1.Knows v := by
  intro v hv
  obtain ⟨b, hb, hv⟩ := List.mem_flatMap.1 hv
  obtain ⟨⟨s, hs, hvar⟩, hvalue⟩ := hf b hb
  rcases List.mem_cons.1 hv with rfl | hv
  · exact hs ▸ hvar
  · exact List.mem_singleton.1 hv ▸ hvalue

/-- **Evaluation only adds to the registry.** -/
def law (lisp : Interpreter) : Law lisp where
  toView := viewOf lisp
  toplevel _ := trivial
  nil w := w.2.nil
  t w := w.2.t
  parts hv := ⟨(hv.part (by simp [Value.parts])).1, (hv.part (by simp [Value.parts])).1⟩
  name hs := (hs.part (by simp [Value.parts])).1
  cell hw _ hv := hw.mentioned (Heap.mentions_cell hv)
  package hw _ hv := by
    obtain ⟨hfound, _⟩ := Option.filter_eq_some_iff.1 hv
    obtain ⟨p, hp, rfl⟩ := Option.map_eq_some_iff.1 hfound
    exact hw.mentioned (.package hp)
  lookup hw _ hv := hw.mentioned (Heap.mentions_lookup hv)
  check hs _ := hs
  code hw hc :=
    { env := trivial
      bound := fun s hs => hw.mentioned (.code hc (List.mem_append_left _
        (List.mem_map_of_mem hs)))
      body := fun v hv => hw.mentioned (.code hc (List.mem_append_right _ hv)) }
  number hw n := reaches_viewOf (hw.reaches_alloc (.number · n) rfl nofun nofun)
  string hw s := reaches_viewOf (hw.reaches_alloc (.string · s) rfl nofun nofun)
  cons {_ _ car cdr} hw hcar hcdr := by
    refine reaches_viewOf (hw.reaches_alloc (.cons · car cdr) rfl (fun p hp => ?_) nofun)
    rcases List.mem_cons.1 hp with rfl | hp
    · exact hcar
    · exact List.mem_singleton.1 hp ▸ hcdr
  intern hw name := reaches_viewOf (hw.reaches_intern (package_lt_of_fits hw) name)
  closure hw hname hc := reaches_viewOf (hw.reaches_makeClosure hname (knows_objects_of_isCode hc))
  frame hw _ hf := .here (hw.makeFrame (knows_objects_of_isFrame hf)) trivial
  setFunction hw hs hv := .here (hw.setCell hs hv).2.1 trivial
  setValue hw hs hv := .here (hw.setCell hs hv).1 trivial
  assign hw _ _ hv hassign := .here (hw.assign hv hassign) trivial

/-- What reading and running make known is known to the registry. -/
theorem reaches_of_law {lisp : Interpreter} {hc : w.HasConstants lisp} {ε : Type}
    {r : Except ε Value}
    (hr : (law lisp).Reaches ⟨w, hc⟩ h fun u => (law lisp).result u r) :
    view.Reaches w h fun w' => view.result w' r := by
  obtain ⟨u, hu, hfits, hpost⟩ := hr
  exact ⟨u.1, hu, hfits, hpost⟩

theorem Fits.reaches_listWithTail (hw : w.Fits h) {lisp : Interpreter}
    (hc : w.HasConstants lisp) {tail : Value} (htail : w.Knows tail) {items : List Value}
    (hitems : ∀ v ∈ items, w.Knows v) :
    view.Reaches w (h.listWithTail tail items).2 fun w' =>
      w'.Knows (h.listWithTail tail items).1 := by
  obtain ⟨u, hu, hfits, hpost⟩ :=
    (law lisp).reaches_listWithTail (w := ⟨w, hc⟩) hw htail hitems
  exact ⟨u.1, hu, hfits, hpost⟩

/-! ## New interpreters -/

section

variable {lisp : Interpreter} (hp : lisp.package < h.next)

include hp

theorem Fits.reaches_define (hw : w.Fits h) (name : String) (hv : w.Knows v) :
    view.Reaches w (lisp.define h name v) fun _ => True := by
  obtain ⟨w', hw', hfits, hs⟩ := hw.reaches_intern hp name
  exact ⟨w', hw', (hfits.setCell hs (hv.mono hw')).1, trivial⟩

theorem Fits.reaches_install (hw : w.Fits h) (name : String) (make : ObjectId → Value)
    (hid : ∀ id, (make id).id = id) (hparts : ∀ id, (make id).parts = []) :
    view.Reaches w (lisp.install h name make) fun _ => True := by
  obtain ⟨w₁, hw₁, hfits₁, hs⟩ := hw.reaches_intern hp name
  have hmake : ∀ id p, p ∉ (make id).parts := fun id p hp => by
    rw [hparts] at hp
    exact List.not_mem_nil hp
  obtain ⟨w₂, hw₂, hfits₂, hop⟩ := hfits₁.reaches_alloc make (hid _)
    (fun p hp => absurd hp (hmake _ p)) fun s hs => by
      -- a symbol would have its name for a part
      have hname : Value.nameOf s ∈ (make (lisp.intern h name).2.next).parts := by
        rw [show make (lisp.intern h name).2.next = .symbol s from hs]
        exact List.mem_cons_self
      exact absurd hname (hmake _ _)
  exact ⟨w₂, le_trans hw₁ hw₂, (hfits₂.setCell (hs.mono hw₂) hop).2.1, trivial⟩

end

theorem Fits.reaches_foldl (hw : w.Fits h) {α : Type} {step : Heap → α → Heap}
    (hstep : ∀ {w' : Registry} {h : Heap}, w ≤ w' → w'.Fits h → ∀ a,
      view.Reaches w' (step h a) fun _ => True) (as : List α) :
    view.Reaches w (as.foldl step h) fun _ => True := by
  induction as generalizing w h with
  | nil => exact .here hw trivial
  | cons a as ih =>
      obtain ⟨w', hw', hfits, _⟩ := hstep (le_refl w) hw a
      exact (ih hfits fun hle => hstep (hw'.trans hle)).from_later hw'

theorem Fits.reaches_origin (hw : w.Fits h) :
    view.Reaches w (Interpreter.origin h).2 fun w' => w'.HasConstants (Interpreter.origin h).1 := by
  obtain ⟨w₁, hw₁, hfits₁, hpackage⟩ := hw.reaches_makePackage Interpreter.packageName
  have hlt : h.next < (h.makePackage Interpreter.packageName).2.next := Nat.lt_succ_self _
  obtain ⟨w₂, hw₂, hfits₂, hnil⟩ := hfits₁.reaches_makeSymbol hlt "nil" true
  obtain ⟨w₃, hw₃, hfits₃, ht⟩ :=
    (hfits₂.enter hnil h.next).reaches_intern (Nat.lt_add_right 2 hlt) "t"
  refine ⟨w₃, (hw₁.trans hw₂).trans hw₃, hfits₃, ?_⟩
  refine List.forall_mem_cons.2 ⟨hpackage.mono (hw₂.trans hw₃), ?_⟩
  exact List.forall_mem_cons.2 ⟨hnil.mono hw₃, List.forall_mem_singleton.2 ht⟩

/-- **A new interpreter adds to the registry**, and what it holds on to is known. -/
theorem Fits.reaches_fresh (hw : w.Fits h) :
    view.Reaches w (Interpreter.fresh h).2 fun w' => w'.HasConstants (Interpreter.fresh h).1 := by
  obtain ⟨w₁, hw₁, hfits₁, hconstants⟩ := hw.reaches_origin
  -- the package is there from now on
  have hp : ∀ {w' : Registry} {h' : Heap}, w₁ ≤ w' → w'.Fits h' →
      (Interpreter.origin h).1.package < h'.next :=
    fun hle hfits => hfits.next ▸ (hconstants.mono hle).package_lt
  obtain ⟨w₂, hw₂, hfits₂, _⟩ := hfits₁.reaches_define (hp (le_refl _) hfits₁) "nil" hconstants.nil
  obtain ⟨w₃, hw₃, hfits₃, _⟩ :=
    hfits₂.reaches_define (hp hw₂ hfits₂) "t" (hconstants.t.mono hw₂)
  obtain ⟨w₄, hw₄, hfits₄, hpi⟩ :=
    hfits₃.reaches_alloc (.number · Interpreter.pi) rfl nofun nofun
  have hw₁₄ : w₁ ≤ w₄ := (hw₂.trans hw₃).trans hw₄
  obtain ⟨w₅, hw₅, hfits₅, _⟩ := hfits₄.reaches_define (hp hw₁₄ hfits₄) "pi" hpi
  have hinstalled : view.Reaches w₁ (Interpreter.fresh h).2 fun _ => True := by
    refine View.Reaches.from_later (hw₁₄.trans hw₅) ?_
    unfold Interpreter.fresh
    generalize SpecialForm.all = forms
    generalize Builtin.all = ops
    obtain ⟨w₆, hw₆, hfits₆, _⟩ := hfits₅.reaches_foldl
      (fun hle hfits form => hfits.reaches_install (hp ((hw₁₄.trans hw₅).trans hle) hfits) form.name
        (.specialForm · form) (fun _ => rfl) fun _ => rfl) forms
    exact (hfits₆.reaches_foldl (fun hle hfits op => hfits.reaches_install
      (hp ((hw₁₄.trans hw₅).trans (hw₆.trans hle)) hfits) op.name (.builtin · op) (fun _ => rfl)
      fun _ => rfl) ops).from_later hw₆
  obtain ⟨w', hw', hfits, _⟩ := hinstalled
  exact ⟨w', hw₁.trans hw', hfits, hconstants.mono hw'⟩

end Registry

end SmallLisp
