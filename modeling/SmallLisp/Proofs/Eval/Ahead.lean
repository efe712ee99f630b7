import SmallLisp.Proofs.Eval.Coupling
import SmallLisp.Proofs.Heap.Moving

set_option autoImplicit false

/-! # A run that is ahead of another one

Two runs of the same code may begin in heaps that differ in two points. One of them, the host, has
made a closure that the other one lacks, and it has interned the marker of lambda lists. Nothing
mentions the closure, but it is held. The guest may come to intern the marker later, and only then
does the marker of the host become the name of something.

So the names of what is to come change once, in a way that is not known before. This module says
what the heaps have in common all the time (`Ahead.Heaps`), and how a run gets ahead
(`Ahead.exists_heaps`). That the same packages live on both sides is shown in `Eval.Alive`, and that
the two runs stay in step in `Eval.InStep`.
-/

namespace SmallLisp

/-! ## Numbers that are not in use yet -/

namespace Registry

variable {w : Registry} {h : Heap}

theorem Fits.below (hw : w.Fits h) {v : Value} (hv : h.Mentions v) : v.Below h.next :=
  hw.next ▸ (hw.mentioned hv).below

theorem Fits.vacant (hw : w.Fits h) {id : ObjectId} (hid : h.next ≤ id) : h.Vacant id where
  cells := Std.TreeMap.getElem?_eq_none fun hmem => absurd (hw.cells_lt hmem) (Nat.not_lt.2 hid)
  closures := by
    rw [hw.code, Option.eq_none_iff_forall_ne_some]
    intro c hc
    exact absurd (hw.next ▸ w.code_lt hc) (Nat.not_lt.2 hid)
  packages := by
    rw [Option.eq_none_iff_forall_ne_some]
    intro p hp
    exact absurd (hw.below (.package hp)) (Nat.not_lt.2 hid)

/-- Where names agree, an interpreter has the same name. -/
theorem Fits.interpreter_eq (hw : w.Fits h) {lisp : Interpreter} (hlisp : w.HasConstants lisp)
    {r r' : Renaming} (ha : r.Agrees r' h) (henv : r'.env lisp.toplevel = r.env lisp.toplevel) :
    r'.interpreter lisp = r.interpreter lisp := by
  have hnil : lisp.nil.Below h.next := hw.next ▸ hlisp.nil.below
  have ht : lisp.t.Below h.next := hw.next ▸ hlisp.t.below
  have hpackage : lisp.package < h.next := hw.next ▸ hlisp.package_lt
  rw [Renaming.interpreter, ha.object _ hpackage, ha.symbol hnil, ha.symbol ht, henv,
    Renaming.interpreter]

end Registry

/-- There are no symbols where nothing is. -/
theorem Heap.Vacant.findSymbol {h : Heap} {id : ObjectId} (hid : h.Vacant id) (name : String) :
    h.findSymbol id name = none := by
  rw [Heap.findSymbol, Heap.symbolsOf, hid.packages]
  exact Std.TreeMap.getElem?_emptyc

/-! ## Being ahead -/

/-- **What a run is ahead by**: a closure with its code, and the marker of lambda lists, whose name
and itself have got the number `mark` and the next one. -/
structure Ahead (lisp : Interpreter) where
  /-- What was known when the runs parted. -/
  start : Registry
  closure : ObjectId
  code : Closure
  known : ∀ v ∈ code.objects, start.Knows v
  mark : ObjectId
  closure_ne : ∀ k < 2, mark + k ≠ closure

namespace Ahead

variable {lisp : Interpreter} (A : Ahead lisp)

/-- The names that what is known of the guest has in the host. -/
abbrev Names (lisp : Interpreter) := Naming (Registry.law lisp) lisp

/-- The marker of lambda lists in the host. -/
def marker : Symbol := ⟨A.mark + 1, "&rest", A.mark, false, lisp.package⟩

/-- The closure of the host. -/
def value : Value := .closure A.closure none

/-- A heap in which there is nothing but the closure. -/
def aside : Heap := { Heap.empty with closures := Heap.empty.closures.insert A.closure A.code }

/-- The marker of the host is not the name of anything yet. -/
def Unnamed (w : Names lisp) : Prop := ∀ k < 2, A.mark + k ∉ Set.range w.ren.object

/-- The marker of lambda lists, in both heaps or only in the host. -/
inductive Marked (w : Names lisp) (host guest : Heap) : Prop
  | both {s : Symbol} (hguest : lisp.findSymbol guest "&rest" = some s)
      (hhost : lisp.findSymbol host "&rest" = some (w.ren.symbol s)) : Marked w host guest
  | ahead (hguest : lisp.findSymbol guest "&rest" = none)
      (hhost : lisp.findSymbol host "&rest" = some A.marker) (hw : A.Unnamed w) :
      Marked w host guest

/-- **Heaps of which one is ahead.** Otherwise it follows the other one, with the same frames, and
what there was in the beginning has kept its number. -/
structure Heaps (w : Names lisp) (host guest : Heap) : Prop where
  known : w.world.1.Fits guest
  since : A.start ≤ w.world.1
  follows : w.ren.Follows A.aside host guest
  frames : ∀ f, w.ren.frameId f = f
  fixed : ∀ id < A.start.next, w.ren.object id = id
  apart : A.closure ∉ Set.range w.ren.object
  package : lisp.package ∈ guest.packages
  symbols : ∀ id name, ¬ (id = lisp.package ∧ name = "&rest") →
    host.findSymbol (w.ren.object id) name = (guest.findSymbol id name).map w.ren.symbol
  marked : A.Marked w host guest

variable {A} {w : Names lisp} {host guest : Heap}

theorem object_package (w : Names lisp) : w.ren.object lisp.package = lisp.package :=
  congrArg Interpreter.package w.interpreter

theorem env_eq (hframes : ∀ f, w.ren.frameId f = f) (e : Environment) : w.ren.env e = e := by
  rw [Renaming.env, funext hframes]
  exact List.map_id e

/-- What there was in the beginning is its own name. -/
theorem Heaps.value_eq (hh : A.Heaps w host guest) {v : Value} (hv : A.start.Knows v) :
    w.ren.value v = v := by
  have hagrees : Renaming.refl.Agrees w.ren { Heap.empty with next := A.start.next } :=
    ⟨hh.fixed, fun _ hf => absurd hf (Nat.not_lt_zero _)⟩
  rw [hagrees.value hv.below, Renaming.refl_value]
  rfl

theorem Heaps.code_eq (hh : A.Heaps w host guest) : w.ren.closure A.code = A.code := by
  have hagrees : Renaming.refl.Agrees w.ren { Heap.empty with next := A.start.next } :=
    ⟨hh.fixed, fun _ hf => absurd hf (Nat.not_lt_zero _)⟩
  have henv : w.ren.env A.code.env = Renaming.refl.env A.code.env := by
    rw [env_eq hh.frames]
    exact (List.map_id A.code.env).symm
  rw [hagrees.closure (fun v hv => (A.known v hv).below) henv, Renaming.refl_closure]
  rfl

/-! ## How a run gets ahead -/

/-- **A heap that is prepared for the closure**: it is as `h`, but there may be a marker besides,
and numbers may have been given away. -/
structure Prepared (lisp : Interpreter) (h m : Heap) : Prop where
  next : h.next ≤ m.next
  cells : m.cells = h.cells
  closures : m.closures = h.closures
  frames : m.frames = h.frames
  packages : ∀ id, m.packageValue? id = h.packageValue? id
  symbols : ∀ id name, ¬ (id = lisp.package ∧ name = "&rest") →
    m.findSymbol id name = h.findSymbol id name

/-- The names in the beginning: new objects of the guest get the numbers from `m` on. -/
def leap (h : Heap) (m : ObjectId) (hm : h.next ≤ m) : Renaming where
  object := Renaming.graft id h.next m
  frameId := id
  object_injective := Renaming.graft_injective Function.injective_id fun _ hi =>
    Nat.lt_of_lt_of_le hi hm
  frameId_injective := Function.injective_id

section

variable {h : Heap} {m : ObjectId} (hm : h.next ≤ m)

theorem agrees_leap : Renaming.refl.Agrees (leap h m hm) h :=
  ⟨fun _ hid => Renaming.graft_of_lt id m hid, fun _ _ => rfl⟩

theorem leap_next (k : Nat) : (leap h m hm).object (h.next + k) = m + k :=
  Renaming.continues_graft _ h.next m k

theorem not_mem_range_leap {id : ObjectId} :
    id ∉ Set.range (leap h m hm).object ↔ h.next ≤ id ∧ id < m := by
  constructor
  · intro hid
    refine ⟨?_, ?_⟩
    · by_contra hlt
      exact hid ⟨id, Renaming.graft_of_lt _ m (Nat.not_le.1 hlt)⟩
    · by_contra hge
      obtain ⟨k, rfl⟩ := Nat.le.dest (Nat.not_lt.1 hge)
      exact hid ⟨h.next + k, leap_next hm k⟩
  · rintro ⟨hge, hlt⟩
    refine Renaming.Continues.not_mem_range (leap_next hm) hlt ?_
    intro i hi heq
    have hi' : i = id := (Renaming.graft_of_lt _ m hi).symm.trans heq
    exact absurd hi (Nat.not_lt.2 (hi' ▸ hge))

end

section

variable {known : Registry} {h m : Heap} (hfits : known.Fits h) (hp : Prepared lisp h m)

include hp in
theorem Prepared.next_succ : h.next ≤ m.next + 1 := hp.next.trans (Nat.le_succ _)

include hp in
/-- What there was is as before, also when the closure has been made. -/
theorem Prepared.kept (c : Closure) : Renaming.Kept .refl h h (m.makeClosure none c).2 where
  cells id _ := by
    show m.cells[id]? = h.cells[id]?
    rw [hp.cells]
  closures id hid := by
    show (m.closures.insert m.next c)[id]? = h.closures[id]?
    rw [Std.TreeMap.getElem?_insert, if_neg, hp.closures]
    rw [Std.LawfulEqCmp.compare_eq_iff_eq]
    exact (Nat.ne_of_lt (Nat.lt_of_lt_of_le hid hp.next)).symm
  values id _ := hp.packages id
  frames id _ := by
    show m.frame id = h.frame id
    rw [Heap.frame, hp.frames, Heap.frame]

include hfits hp

theorem Prepared.vacant {id : ObjectId} (hid : h.next ≤ id) : m.Vacant id where
  cells := by rw [hp.cells, (hfits.vacant hid).cells]
  closures := by rw [hp.closures, (hfits.vacant hid).closures]
  packages := by
    have hvalue : m.packageValue? id = none := by
      rw [hp.packages, Heap.packageValue?, (hfits.vacant hid).packages, Option.map_none]
    exact Option.map_eq_none_iff.1 hvalue

/-- The closure is the last thing that has been made. -/
theorem Prepared.vacant_makeClosure (c : Closure) (k : Nat) :
    (m.makeClosure none c).2.Vacant (m.next + 1 + k) := by
  have hlt : m.next < m.next + 1 + k :=
    Nat.lt_of_lt_of_le (Nat.lt_succ_self _) (Nat.le_add_right _ k)
  generalize m.next + 1 + k = id at hlt
  have hold := hp.vacant hfits (hp.next.trans (Nat.le_of_lt hlt))
  refine ⟨hold.cells, ?_, hold.packages⟩
  show (m.closures.insert m.next c)[id]? = none
  rw [Std.TreeMap.getElem?_insert, if_neg, hold.closures]
  rw [Std.LawfulEqCmp.compare_eq_iff_eq]
  exact Nat.ne_of_lt hlt

theorem Prepared.carries (c : Closure) :
    (leap h (m.next + 1) hp.next_succ).Carries (m.makeClosure none c).2 h := by
  refine (Renaming.carries_refl h).of_agrees hfits.below
    (fun n => hfits.vacant (Nat.le_add_right _ n)) (hp.kept c) (agrees_leap _) (fun _ => rfl)
    (fun k => ?_) fun k => ?_
  · rw [leap_next]
    exact hp.vacant_makeClosure hfits c k
  · show m.frame (h.frames.size + k) = _
    rw [← hp.frames, Heap.frame_size_add]

/-- What has no name is the closure, or nothing. -/
theorem Prepared.spares (hclosure : A.closure = m.next) :
    (leap h (m.next + 1) hp.next_succ).Spares A.aside (m.makeClosure none A.code).2 where
  cells id hid :=
    (hp.vacant hfits ((not_mem_range_leap _).1 hid).1).cells.trans
      Std.TreeMap.getElem?_emptyc.symm
  closures id hid := by
    show (m.closures.insert m.next A.code)[id]? =
      (Heap.empty.closures.insert A.closure A.code)[id]?
    rw [Std.TreeMap.getElem?_insert, Std.TreeMap.getElem?_insert, hclosure,
      (hp.vacant hfits ((not_mem_range_leap _).1 hid).1).closures]
    split
    · rfl
    · exact Std.TreeMap.getElem?_emptyc.symm
  packages id hid :=
    (hp.vacant hfits ((not_mem_range_leap _).1 hid).1).packages.trans
      Std.TreeMap.getElem?_emptyc.symm
  frames id hid := absurd ⟨id, rfl⟩ hid

theorem Prepared.symbols_makeClosure (c : Closure) (id : ObjectId) (name : String)
    (hne : ¬ (id = lisp.package ∧ name = "&rest")) :
    (m.makeClosure none c).2.findSymbol ((leap h (m.next + 1) hp.next_succ).object id) name =
      (h.findSymbol id name).map (leap h (m.next + 1) hp.next_succ).symbol := by
  have hagrees := agrees_leap hp.next_succ
  rcases Nat.lt_or_ge id h.next with hlt | hge
  · rw [hagrees.object id hlt]
    refine (hp.symbols id name hne).trans ?_
    cases hs : h.findSymbol id name with
    | none => rfl
    | some s => exact congrArg some (hagrees.symbol (hfits.below (.symbol hs))).symm
  · obtain ⟨k, rfl⟩ := Nat.le.dest hge
    rw [leap_next, (hp.vacant_makeClosure hfits c k).findSymbol, (hfits.vacant hge).findSymbol,
      Option.map_none]

end

section

variable {known : Registry} {h : Heap} (hfits : known.Fits h) (hlisp : known.HasConstants lisp)

include hfits hlisp

theorem interpreter_leap {m : ObjectId} (hm : h.next ≤ m) :
    (leap h m hm).interpreter lisp = lisp := by
  have henv : ∀ e, Renaming.refl.env e = e := List.map_id
  rw [hfits.interpreter_eq hlisp (agrees_leap hm) rfl, Renaming.interpreter, henv]
  rfl

/-- The names in the beginning, for what is known then. -/
def first {m : ObjectId} (hm : h.next ≤ m) : Names lisp :=
  ⟨⟨known, hlisp⟩, leap h m hm, interpreter_leap hfits hlisp hm⟩

/-- **A closure has been made** in a heap that was prepared for it. -/
theorem heaps_first (hstart : A.start = known) {m : Heap} (hp : Prepared lisp h m)
    (hclosure : A.closure = m.next) (hpackage : lisp.package ∈ h.packages)
    (hmarked : A.Marked (first hfits hlisp hp.next_succ) (m.makeClosure none A.code).2 h) :
    A.Heaps (first hfits hlisp hp.next_succ) (m.makeClosure none A.code).2 h where
  known := hfits
  since := le_of_eq hstart
  follows :=
    { toCarries := hp.carries hfits A.code
      next := leap_next hp.next_succ
      size := fun k => congrArg (Array.size · + k) hp.frames.symm
      spares := hp.spares hfits hclosure }
  frames _ := rfl
  fixed id hid := (agrees_leap hp.next_succ).object id (by rwa [hstart, hfits.next] at hid)
  apart := by
    rw [hclosure]
    exact (not_mem_range_leap hp.next_succ).2 ⟨hp.next, Nat.lt_succ_self _⟩
  package := hpackage
  symbols := hp.symbols_makeClosure hfits A.code
  marked := hmarked

/-- **How a run gets ahead**: it interns the marker and makes a closure, as it does when a `lambda`
is evaluated. -/
theorem exists_heaps (hpackage : lisp.package ∈ h.packages) {code : Closure}
    (hcode : ∀ v ∈ code.objects, known.Knows v) :
    ∃ (A : Ahead lisp) (w : Names lisp), A.start = known ∧ A.code = code ∧
      A.value = ((lisp.intern h "&rest").2.makeClosure none code).1 ∧
      A.Heaps w ((lisp.intern h "&rest").2.makeClosure none code).2 h := by
  cases hfound : lisp.findSymbol h "&rest" with
  | some s =>
      rw [lisp.intern_of_find hfound]
      have hp : Prepared lisp h h :=
        ⟨Nat.le_refl _, rfl, rfl, rfl, fun _ => rfl, fun _ _ _ => rfl⟩
      let A : Ahead lisp :=
        { start := known, closure := h.next, code := code, known := hcode, mark := h.next + 1,
          closure_ne := fun k _ => Nat.ne_of_gt (Nat.lt_of_lt_of_le (Nat.lt_succ_self _)
            (Nat.le_add_right _ k)) }
      refine ⟨A, first hfits hlisp hp.next_succ, rfl, rfl, rfl,
        heaps_first hfits hlisp rfl hp rfl hpackage (.both hfound ?_)⟩
      have hs : (leap h (h.next + 1) hp.next_succ).symbol s = s :=
        (agrees_leap _).symbol (hfits.below (.symbol hfound))
      exact hfound.trans (congrArg some hs.symm)
  | none =>
      set s : Symbol := ⟨h.next + 1, "&rest", h.next, false, lisp.package⟩
      set m := Heap.enter { h with next := h.next + 2 } lisp.package s
      rw [lisp.intern_of_find_none hfound]
      have hp : Prepared lisp h m := by
        refine ⟨Nat.le_add_right _ 2, rfl, rfl, rfl, fun _ => Heap.packageValue?_enter _ _ _ _,
          fun id name hne => ?_⟩
        rw [Heap.findSymbol_enter, if_neg fun heq => hne ⟨heq.1.symm, heq.2.2.symm⟩]
        rfl
      let A : Ahead lisp :=
        { start := known, closure := m.next, code := code, known := hcode, mark := h.next,
          closure_ne := fun k hk heq => absurd (Nat.add_left_cancel heq) (Nat.ne_of_lt hk) }
      refine ⟨A, first hfits hlisp hp.next_succ, rfl, rfl, rfl,
        heaps_first hfits hlisp rfl hp rfl hpackage (.ahead hfound ?_ fun k hk => ?_)⟩
      · show m.findSymbol lisp.package "&rest" = some s
        rw [Heap.findSymbol_enter, if_pos ⟨rfl, hpackage, rfl⟩]
      · have hlt : k < 3 := Nat.lt_succ_of_lt hk
        exact (not_mem_range_leap hp.next_succ).2
          ⟨Nat.le_add_right _ k, Nat.add_lt_add_left hlt h.next⟩

end

end Ahead

end SmallLisp
