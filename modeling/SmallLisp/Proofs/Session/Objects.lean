import SmallLisp.Proofs.Session.Turns
import SmallLisp.Proofs.Value.Walks

set_option autoImplicit false

/-! # The objects of a session

Objects get into a session in many ways: they are read, made by code or by hand, interned, or come
along with an interpreter. All of them are in one registry (`Session.Fits`), to which acts and turns
can only add (`Act.arrives`, `Fits.turn`). That an identity belongs to one object for ever is then
the registry's own law, and so is that a cons is newer than its ends.

The objects of a session are those that can be come by at all (`Session.Has`): from its slots, from
its interpreters, from any entry of its heap, and as parts of one another. For these memory can be
walked, whatever circles there are through the cells of symbols and the frames of closures.
-/

namespace SmallLisp.Session

open Registry

variable {s s' : Session} {w w' : Registry}

/-! ## Sessions whose objects are registered -/

/-- **A session whose objects are registered.** -/
structure Fits (w : Registry) (s : Session) : Prop where
  heap : w.Fits s.heap
  slots : ∀ x ∈ s.slots, w.Knows x.2
  own : ∀ v ∈ s.lisp.held, w.Knows v
  foreign : ∀ lisp, s.foreign = some lisp → ∀ v ∈ lisp.held, w.Knows v

theorem Fits.knows (hs : s.Fits w) {v : Value} (hv : s.Has v) : w.Knows v := by
  induction hv with
  | slot hx => exact hs.slots _ hx
  | own hv => exact hs.own _ hv
  | foreign hlisp hv => exact hs.foreign _ hlisp _ hv
  | heap hv => exact hs.heap.mentioned hv
  | part _ hp ih => exact (ih.part hp).1

/-! ## What acts add -/

/-- **A session with objects in a later registry**, in which some values are known besides. -/
def Arrives (w : Registry) (s : Session) (vs : List Value) : Prop :=
  ∃ w', w ≤ w' ∧ s.Fits w' ∧ ∀ v ∈ vs, w'.Knows v

theorem Fits.constants (hs : s.Fits w) : w.HasConstants s.lisp := hs.own

/-- What a heap arrives at, its session arrives at. -/
theorem Fits.arrives_setHeap (hs : s.Fits w) {h : Heap} {vs : List Value}
    (hr : view.Reaches w h fun w' => ∀ v ∈ vs, w'.Knows v) :
    Arrives w { s with heap := h } vs := by
  obtain ⟨w', hw, hheap, hvs⟩ := hr
  refine ⟨w', hw, ⟨hheap, fun x hx => (hs.slots x hx).mono hw, fun v hv => (hs.own v hv).mono hw,
    fun lisp hlisp v hv => (hs.foreign lisp hlisp v hv).mono hw⟩, hvs⟩

theorem Fits.arrives_made (hs : s.Fits w) {h : Heap} {v : Value}
    (hr : view.Reaches w h fun w' => w'.Knows v) : Arrives w { s with heap := h } [v] :=
  hs.arrives_setHeap (hr.imp fun _ _ hv => List.forall_mem_singleton.2 hv)

/-- Code of the session's interpreter adds to the registry. -/
theorem Fits.arrives_run (hs : s.Fits w) {h : Heap} {ε : Type} {r : Except ε Value}
    (hr : (law s.lisp).Reaches ⟨w, hs.constants⟩ h fun u => (law s.lisp).result u r) :
    Arrives w { s with heap := h } (yielded r) :=
  hs.arrives_setHeap ((reaches_of_law hr).imp fun _ _ hv => View.values_yielded.2 hv)

theorem Fits.setCell (hs : s.Fits w) {symbol : Symbol} (hsymbol : w.Knows (.symbol symbol))
    {v : Value} (hv : w.Knows v) (cell : CellName) :
    w.Fits (Session.setCell s.heap symbol v cell) := by
  obtain ⟨hvalue, hfunction, hplist⟩ := hs.heap.setCell hsymbol hv
  cases cell with
  | value => exact hvalue
  | function => exact hfunction
  | plist => exact hplist

/-- **An act adds to the registry** what comes out of it. -/
theorem Act.arrives {vs new : List Value} (hact : Act s vs s' new) (hs : s.Fits w)
    (hvs : ∀ v ∈ vs, w.Knows v) : s'.Arrives w new := by
  cases hact with
  | pick hnew => exact ⟨w, le_refl w, hs, fun v hv => hs.knows (hnew v hv)⟩
  | read source =>
      exact hs.arrives_run
        ((law s.lisp).reaches_readText (w := ⟨w, hs.constants⟩) source.toList hs.heap)
  | intern hp name =>
      obtain ⟨v, hv, rfl⟩ := hp
      have hlt : v.id < s.heap.next := hs.heap.next ▸ (hvs v hv).id_lt
      exact hs.arrives_made (hs.heap.reaches_intern hlt name)
  | number n => exact hs.arrives_made (hs.heap.reaches_alloc (.number · n) rfl nofun nofun)
  | string text => exact hs.arrives_made (hs.heap.reaches_alloc (.string · text) rfl nofun nofun)
  | list htail hitems =>
      exact hs.arrives_made (hs.heap.reaches_listWithTail hs.constants (hvs _ htail)
        fun v hv => hvs v (hitems hv))
  | package name => exact hs.arrives_made (hs.heap.reaches_makePackage name)
  | interpreter =>
      obtain ⟨w', hw, hheap, hheld⟩ := hs.heap.reaches_fresh
      refine ⟨w', hw, ⟨hheap, fun x hx => (hs.slots x hx).mono hw,
        fun v hv => (hs.own v hv).mono hw, ?_⟩, hheld⟩
      rintro lisp ⟨⟩
      exact hheld
  | dismiss => exact ⟨w, le_refl w, ⟨hs.heap, hs.slots, hs.own, nofun⟩, List.forall_mem_nil _⟩
  | assign hv hassign =>
      exact hs.arrives_setHeap (.here (hs.heap.assign (hvs _ hv) hassign) (List.forall_mem_nil _))
  | cell hsymbol hv cell =>
      have hset := hs.setCell (hvs _ hsymbol) (hvs _ hv) cell
      exact hs.arrives_setHeap (.here hset (List.forall_mem_nil _))
  | load limit held source =>
      exact hs.arrives_run
        ((law s.lisp).reaches_loadText (w := ⟨w, hs.constants⟩) limit held source hs.heap)
  | run hrun held =>
      have hkeeps := hrun.keeps (law s.lisp) (w := ⟨w, hs.constants⟩) hvs
      exact hs.arrives_run ((law s.lisp).reaches_runIn hkeeps held hs.heap trivial).2

theorem Acts.arrives {vs vs' : List Value} (hacts : Acts s vs s' vs') (hs : s.Fits w)
    (hvs : ∀ v ∈ vs, w.Knows v) : s'.Arrives w vs' := by
  induction hacts with
  | none => exact ⟨w, le_refl w, hs, hvs⟩
  | more _ hact ih =>
      obtain ⟨w₁, hw₁, hs₁, hvs₁⟩ := ih
      obtain ⟨w₂, hw₂, hs₂, hnew⟩ := hact.arrives hs₁ hvs₁
      exact ⟨w₂, hw₁.trans hw₂, hs₂,
        List.forall_mem_append.2 ⟨hnew, fun v hv => (hvs₁ v hv).mono hw₂⟩⟩

/-- **A turn adds to the registry**, and what it answers is known. -/
theorem Fits.turn (hs : s.Fits w) {step : Step} {answer : Answer} (hturn : Turn s step answer s') :
    s'.Arrives w answer.values := by
  cases hturn with
  | opened => exact ⟨w, le_refl w, ⟨hs.heap, hs.slots, hs.own, hs.foreign⟩, List.forall_mem_nil _⟩
  | closed => exact ⟨w, le_refl w, ⟨hs.heap, hs.slots, hs.own, hs.foreign⟩, List.forall_mem_nil _⟩
  | pushed hacts hframe =>
      obtain ⟨w', hw, hs', hvs⟩ := hacts.arrives hs (List.forall_mem_nil _)
      have hheap := hs'.heap.makeFrame fun v hv => hvs v (hframe hv)
      exact ⟨w', hw, ⟨hheap, hs'.slots, hs'.own, hs'.foreign⟩, List.forall_mem_nil _⟩
  | captured name =>
      exact ⟨w, le_refl w, ⟨hs.heap, hs.slots, hs.own, hs.foreign⟩, List.forall_mem_nil _⟩
  | acts hanswers =>
      obtain ⟨vs, hacts, hsubset⟩ := hanswers
      obtain ⟨w', hw, hs', hvs⟩ := hacts.arrives hs (List.forall_mem_nil _)
      exact ⟨w', hw, hs', fun v hv => hvs v (hsubset hv)⟩

theorem Fits.after (hs : s.Fits w) (limit : Nat) (request : Request) :
    ∃ w', w ≤ w' ∧ (s.after limit request).Fits w' := by
  obtain ⟨s', slots, hturn, hafter, hslots⟩ := turn_after limit s request
  obtain ⟨w', hw, hs', hvalues⟩ := hs.turn hturn
  rw [hafter]
  exact ⟨w', hw, hs'.heap, fun x hx => (hslots x hx).elim (hs'.slots x) (hvalues x.2), hs'.own,
    hs'.foreign⟩

/-! ## Runs -/

/-- **The sessions that further requests lead to.** -/
inductive Leads (s : Session) : Session → Prop
  | here : Leads s s
  | step {s' : Session} (hs : Leads s s') (limit : Nat) (request : Request) :
      Leads s (s'.after limit request)

theorem Fits.leads {s' : Session} (hs : s.Fits w) (hlater : s.Leads s') :
    ∃ w', w ≤ w' ∧ s'.Fits w' := by
  induction hlater with
  | here => exact ⟨w, le_refl w, hs⟩
  | step _ limit request ih =>
      obtain ⟨w₁, hw₁, hs₁⟩ := ih
      obtain ⟨w₂, hw₂, hs₂⟩ := hs₁.after limit request
      exact ⟨w₂, hw₁.trans hw₂, hs₂⟩

theorem Reached.leads (hs : s.Reached) : Session.start.Leads s := by
  induction hs with
  | start => exact .here
  | step _ limit request ih => exact ih.step limit request

theorem Reached.fits (hs : s.Reached) : ∃ w, s.Fits w := by
  obtain ⟨w, _, hheap, hheld⟩ := fits_empty.reaches_fresh
  have hstart : Session.start.Fits w :=
    ⟨hheap, fun _ hx => absurd hx List.not_mem_nil, hheld, nofun⟩
  obtain ⟨w', _, hfits⟩ := hstart.leads hs.leads
  exact ⟨w', hfits⟩

/-! ## The registry of what a session has -/

open Classical in
/-- The part of a registry that a session has. What is registered besides cannot be come by any
more. -/
noncomputable def census (hs : s.Fits w) : Registry where
  next := w.next
  object id := if ∃ v, s.Has v ∧ v.id = id then w.object id else none
  code := w.code
  lt_next hv := by
    split at hv
    · exact w.lt_next hv
    · cases hv
  code_lt := w.code_lt
  id_eq hv := by
    split at hv
    · exact w.id_eq hv
    · cases hv
  parts {id v p} hv hp := by
    split at hv
    · rename_i hhas
      obtain ⟨u, hu, rfl⟩ := hhas
      obtain rfl : u = v := Option.some.inj ((hs.knows hu).symm.trans hv)
      have hpart := (hs.knows hu).part hp
      exact ⟨hpart.2, (if_pos ⟨p, hu.part hp, rfl⟩).trans hpart.1⟩
    · cases hv
  home hv := by
    split at hv
    · exact w.home hv
    · cases hv

theorem knows_census (hs : s.Fits w) {v : Value} : (census hs).Knows v ↔ s.Has v := by
  unfold Knows census
  simp only
  constructor
  · intro hv
    split at hv
    · rename_i hhas
      obtain ⟨u, hu, hid⟩ := hhas
      exact (hs.knows hu).eq_of_id hv hid ▸ hu
    · cases hv
  · intro hv
    rw [if_pos ⟨v, hv, rfl⟩]
    exact hs.knows hv

theorem fits_census (hs : s.Fits w) : s.Fits (census hs) where
  heap := ⟨hs.heap.next, fun hv => (knows_census hs).2 (.heap hv), hs.heap.code, hs.heap.cells_lt⟩
  slots _ hx := (knows_census hs).2 (.slot hx)
  own _ hv := (knows_census hs).2 (.own hv)
  foreign _ hlisp _ hv := (knows_census hs).2 (.foreign hlisp hv)

/-! ## Memory -/

/-- A registry as a memory. -/
def memory (w : Registry) : Memory := fun id => (w.object id).map Value.node

theorem shows_memory {v : Value} (hv : w.Knows v) : (memory w).Shows v := by
  have hnode : ∀ {v : Value}, w.Knows v → memory w v.id = some v.node := fun hv => by
    rw [memory, hv, Option.map_some]
  induction v with
  | cons id car cdr ihcar ihcdr =>
      have hcar := hv.part (p := car) (by simp [Value.parts])
      have hcdr := hv.part (p := cdr) (by simp [Value.parts])
      exact ⟨hnode hv, ⟨hcar.2, ihcar hcar.1⟩, hcdr.2, ihcdr hcdr.1⟩
  | _ => exact hnode hv

/-- **Identity and the order of objects.** Whatever requests lead from one session to another, an
identity that both have belongs to the same object, with the same code if it is a closure, and an
object that only the later one has is newer than all of the earlier one. The two ends of a cons are
older than the cons. So memory can be walked: along a list, and to print, from any object of the
session, in at most as many steps as its identity says. -/
theorem objects_are_ordered {s s' : Session} (hs : s.Reached) (hlater : s.Leads s') :
    (∀ v v', s.Has v → s'.Has v' → v.id = v'.id → v = v') ∧
      (∀ v', s'.Has v' → s.Has v' ∨ ∀ v, s.Has v → v.id < v'.id) ∧
      (∀ id name code, s.Has (.closure id name) → s.heap.closures[id]? = some code →
        s'.heap.closures[id]? = some code) ∧
      (∀ id car cdr, s.Has (.cons id car cdr) →
        (s.Has car ∧ car.id < id) ∧ s.Has cdr ∧ cdr.id < id) ∧
      ∃ m : Memory, (∀ v, s.Has v → m v.id = some v.node) ∧
        ∀ v, s.Has v → ∀ steps, v.id < steps →
          m.items steps v.id = some (v.items?.map (·.map Value.id)) ∧
          m.render steps false v.id = some v.chars := by
  obtain ⟨w₀, hfits₀⟩ := hs.fits
  have hfits := fits_census hfits₀
  have hknows : ∀ {v : Value}, (census hfits₀).Knows v ↔ s.Has v := knows_census hfits₀
  obtain ⟨w', hw, hfits'⟩ := hfits.leads hlater
  refine ⟨fun v v' hv hv' hid => ?_, fun v' hv' => ?_, fun id name code hv hcode => ?_,
    fun id car cdr hv => ?_, memory (census hfits₀), fun v hv => ?_, fun v hv steps hsteps => ?_⟩
  · exact ((hknows.2 hv).mono hw).eq_of_id (hfits'.knows hv') hid
  · -- below the bound of the earlier registry, the later one has nothing else
    by_cases hlt : v'.id < (census hfits₀).next
    · exact .inl (hknows.1 ((hw.2 v'.id hlt).1.symm.trans (hfits'.knows hv')))
    · exact .inr fun v hv => Nat.lt_of_lt_of_le (hknows.2 hv).id_lt (Nat.not_lt.1 hlt)
  · have hlt : id < (census hfits₀).next := (hknows.2 hv).id_lt
    rw [hfits'.heap.code, (hw.2 id hlt).2, ← hfits.heap.code, hcode]
  · have hcar := (hknows.2 hv).part (p := car) (by simp [Value.parts])
    have hcdr := (hknows.2 hv).part (p := cdr) (by simp [Value.parts])
    exact ⟨⟨hknows.1 hcar.1, hcar.2⟩, hknows.1 hcdr.1, hcdr.2⟩
  · rw [memory, hknows.2 hv, Option.map_some]
  · have hshows := shows_memory (hknows.2 hv)
    exact ⟨hshows.items_eq hsteps, hshows.render_eq hsteps false⟩

/-- A list that the value cell of its only element refers back to. -/
theorem objects_are_ordered_in_circle :
    let s := Session.start.after 9 ⟨.evalText "(setq x (list 'x))", some "list"⟩
    let list := s.slot "list"
    s.Has list ∧ list.text = "(x)" ∧
      ∃ m : Memory, m list.id = some list.node ∧
        m.items (list.id + 1) list.id = some (list.items?.map (·.map Value.id)) ∧
        m.render (list.id + 1) false list.id = some list.chars := by
  intro s list
  have hs : s.Reached := .step .start 9 _
  have hlist : s.Has list := s.has_slot "list"
  obtain ⟨_, _, _, _, m, hshown, hwalks⟩ := objects_are_ordered hs .here
  exact ⟨hlist, by decide +kernel, m, hshown list hlist,
    hwalks list hlist (list.id + 1) (Nat.lt_succ_self _)⟩

end SmallLisp.Session
