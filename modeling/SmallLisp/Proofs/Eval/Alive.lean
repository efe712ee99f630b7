import SmallLisp.Proofs.Eval.Ahead
import SmallLisp.Proofs.Heap.Survival

set_option autoImplicit false

/-! # What lives in a heap that is ahead

No package lives longer by the closure that a run is ahead by: all that the closure refers to is
held in the guest as well (`Ahead.Held`). So the same packages live in both heaps
(`Ahead.Heaps.keeps_eq`). For this the host has to be orderly, and it is, as all that is mentioned
there has a name in the guest or is the closure or the marker (`Ahead.Named`).
-/

namespace SmallLisp.Ahead

variable {lisp : Interpreter} {A : Ahead lisp} {w : Names lisp} {host guest : Heap}

/-! ## What is known of the host -/

/-- What is known of the host: what has a name, the closure, and the marker. -/
inductive Named (A : Ahead lisp) (w : Names lisp) : Value → Prop
  | name {v : Value} (hv : w.world.1.Knows v) : Named A w (w.ren.value v)
  | closure : Named A w A.value
  | marker (hw : A.Unnamed w) : Named A w (.symbol A.marker)
  | text (hw : A.Unnamed w) : Named A w (.nameOf A.marker)

/-- What has no name in the host is vacant, but for the closure. -/
theorem Heaps.vacant (hh : A.Heaps w host guest) {id : ObjectId}
    (hid : id ∉ Set.range w.ren.object) (hne : id ≠ A.closure) : host.Vacant id where
  cells := (hh.follows.spares.cells id hid).trans Std.TreeMap.getElem?_emptyc
  closures := by
    rw [hh.follows.spares.closures id hid, aside, Std.TreeMap.getElem?_insert, if_neg]
    · exact Std.TreeMap.getElem?_emptyc
    · rw [Std.LawfulEqCmp.compare_eq_iff_eq]
      exact hne.symm
  packages := (hh.follows.spares.packages id hid).trans Std.TreeMap.getElem?_emptyc

theorem Heaps.closures_closure (hh : A.Heaps w host guest) :
    host.closures[A.closure]? = some A.code := by
  rw [hh.follows.spares.closures _ hh.apart, aside, Std.TreeMap.getElem?_insert_self]

theorem Heaps.mem_range_of_cells (hh : A.Heaps w host guest) {id : ObjectId} {c : Cells}
    (hc : host.cells[id]? = some c) : id ∈ Set.range w.ren.object := by
  by_contra hid
  rw [hh.follows.spares.cells id hid, aside] at hc
  simp [Heap.empty] at hc

theorem Heaps.mem_range_of_packages (hh : A.Heaps w host guest) {id : ObjectId} {p : Package}
    (hp : host.packages[id]? = some p) : id ∈ Set.range w.ren.object := by
  by_contra hid
  rw [hh.follows.spares.packages id hid, aside] at hp
  simp [Heap.empty] at hp

/-- The symbols of the host: they are names, or it is the marker. -/
theorem Heaps.findSymbol_cases (hh : A.Heaps w host guest) {id : ObjectId} {name : String}
    {s : Symbol} (hs : host.findSymbol id name = some s) :
    (∃ id' s', id = w.ren.object id' ∧ guest.findSymbol id' name = some s' ∧
      s = w.ren.symbol s') ∨ A.Unnamed w ∧ s = A.marker := by
  obtain ⟨p, hp⟩ : ∃ p, host.packages[id]? = some p :=
    ⟨_, Std.TreeMap.getElem?_eq_some_getElem (Heap.mem_of_findSymbol hs)⟩
  obtain ⟨id, rfl⟩ := hh.mem_range_of_packages hp
  by_cases hspecial : id = lisp.package ∧ name = "&rest"
  · obtain ⟨rfl, rfl⟩ := hspecial
    rw [object_package] at hs
    cases hh.marked with
    | both hguest hhost =>
        exact .inl ⟨_, _, rfl, hguest, Option.some.inj (hs.symm.trans hhost)⟩
    | ahead _ hhost hw => exact .inr ⟨hw, Option.some.inj (hs.symm.trans hhost)⟩
  · rw [hh.symbols id name hspecial] at hs
    obtain ⟨s', hs', rfl⟩ := Option.map_eq_some_iff.1 hs
    exact .inl ⟨id, s', rfl, hs', rfl⟩

theorem Heaps.named_of_mentions (hh : A.Heaps w host guest) {u : Value}
    (hu : host.Mentions u) : A.Named w u := by
  have hname : ∀ {vs : List Value}, (∀ v ∈ vs, guest.Mentions v) → u ∈ vs.map w.ren.value →
      A.Named w u := by
    intro vs hvs hu
    obtain ⟨v, hv, rfl⟩ := List.mem_map.1 hu
    exact .name (hh.known.mentioned (hvs v hv))
  cases hu with
  | cell hc hv =>
      obtain ⟨id, rfl⟩ := hh.mem_range_of_cells hc
      rw [hh.follows.cells] at hc
      obtain ⟨c, hcell, rfl⟩ := Option.map_eq_some_iff.1 hc
      rw [Renaming.cellValues_cells] at hv
      exact hname (fun v hv => .cell hcell hv) hv
  | @package id p hp =>
      obtain ⟨id, rfl⟩ := hh.mem_range_of_packages hp
      have hfound := hh.follows.packages id
      rw [Heap.packageValue?, hp, Option.map_some] at hfound
      obtain ⟨v, hv, heq⟩ := Option.map_eq_some_iff.1 hfound.symm
      obtain ⟨p', hp', rfl⟩ := Option.map_eq_some_iff.1 hv
      exact heq ▸ .name (hh.known.mentioned (.package hp'))
  | symbol hs =>
      obtain ⟨_, s', _, hs', rfl⟩ | ⟨hw, rfl⟩ := hh.findSymbol_cases hs
      · exact .name (hh.known.mentioned (.symbol hs'))
      · exact .marker hw
  | @code id _ _ hc hv =>
      by_cases hid : id ∈ Set.range w.ren.object
      · obtain ⟨id, rfl⟩ := hid
        rw [hh.follows.closures] at hc
        obtain ⟨c, hcode, rfl⟩ := Option.map_eq_some_iff.1 hc
        rw [Renaming.objects_closure] at hv
        exact hname (fun v hv => .code hcode hv) hv
      · -- the closure mentions what was known in the beginning
        by_cases hne : id = A.closure
        · subst hne
          obtain rfl := Option.some.inj (hc.symm.trans hh.closures_closure)
          have hknown := A.known u hv
          rw [← hh.value_eq hknown]
          exact .name (hknown.mono hh.since)
        · rw [(hh.vacant hid hne).closures] at hc
          cases hc
  | @frame id _ hv =>
      rw [← hh.frames id, hh.follows.frames, Renaming.objects_frame] at hv
      exact hname (fun v hv => .frame hv) hv

/-- **The host is orderly.** -/
theorem Heaps.orderly (hh : A.Heaps w host guest) : host.Orderly (A.Named w) where
  mentioned := hh.named_of_mentions
  part hv hp := by
    cases hv with
    | name hv =>
        rw [Renaming.parts_value] at hp
        obtain ⟨p, hpart, rfl⟩ := List.mem_map.1 hp
        exact .name (hv.part hpart).1
    | closure => cases hp
    | marker hw =>
        obtain rfl := List.mem_singleton.1 hp
        exact .text hw
    | text hw => cases hp
  unique {u v} hu hv hid := by
    -- what has no name has a number of its own
    have hname : ∀ {v u : Value}, w.world.1.Knows v → A.Named w u → (w.ren.value v).id = u.id →
        w.ren.value v = u := by
      intro v u hv hu hid
      rw [Renaming.id_value] at hid
      cases hu with
      | name hu =>
          rw [Renaming.id_value] at hid
          rw [hv.eq_of_id hu (w.ren.object_injective hid)]
      | closure => exact absurd ⟨_, hid⟩ hh.apart
      | marker hw => exact absurd ⟨_, hid⟩ (hw 1 (by decide))
      | text hw => exact absurd ⟨_, hid⟩ (hw 0 (by decide))
    cases hu with
    | name hu => exact hname hu hv hid
    | closure =>
        cases hv with
        | name hv => exact (hname hv .closure hid.symm).symm
        | closure => rfl
        | marker => exact absurd hid.symm (A.closure_ne 1 (by decide))
        | text => exact absurd hid.symm (A.closure_ne 0 (by decide))
    | marker hw =>
        cases hv with
        | name hv => exact (hname hv (.marker hw) hid.symm).symm
        | closure => exact absurd hid (A.closure_ne 1 (by decide))
        | marker => rfl
        | text => exact absurd hid (Nat.succ_ne_self A.mark)
    | text hw =>
        cases hv with
        | name hv => exact (hname hv (.text hw) hid.symm).symm
        | closure => exact absurd hid (A.closure_ne 0 (by decide))
        | marker => exact absurd hid (Nat.succ_ne_self A.mark).symm
        | text => rfl

theorem Heaps.sameSymbols (hh : A.Heaps w host guest) : w.ren.SameSymbols host guest := by
  intro id i
  constructor
  · rintro ⟨name, s, hs, hid⟩
    obtain ⟨id', s', hpackage, hs', rfl⟩ | ⟨hw, rfl⟩ := hh.findSymbol_cases hs
    · obtain rfl := w.ren.object_injective hpackage
      exact ⟨name, s', hs', w.ren.object_injective hid⟩
    · exact absurd ⟨i, hid.symm⟩ (hw 1 (by decide))
  · rintro ⟨name, s, hs, rfl⟩
    by_cases hspecial : id = lisp.package ∧ name = "&rest"
    · obtain ⟨rfl, rfl⟩ := hspecial
      cases hh.marked with
      | both hguest hhost =>
          obtain rfl := Option.some.inj (hs.symm.trans hguest)
          exact ⟨"&rest", _, by rw [object_package]; exact hhost, rfl⟩
      | ahead hguest _ _ => cases hs.symm.trans hguest
    · exact ⟨name, w.ren.symbol s, by rw [hh.symbols id name hspecial, hs]; rfl, rfl⟩

/-! ## What is held -/

/-- **What is held on both sides.** The host holds the closure besides, and the guest holds all that
the closure refers to. -/
structure Held (A : Ahead lisp) (w : Names lisp) (a a' : Anchors) : Prop where
  frames : ∀ f, w.ren.frameId f = f
  known : ∀ v ∈ a'.values, w.world.1.Knows v
  named : ∀ v ∈ a'.values, w.ren.value v ∈ a.values
  only : ∀ u ∈ a.values, u = A.value ∨ ∃ v ∈ a'.values, u = w.ren.value v
  environments : ∀ f, (∃ e ∈ a.environments, f ∈ e) ↔ ∃ e ∈ a'.environments, f ∈ e
  code : ∀ x, A.code.Refers x → a'.Holds x

theorem Held.hold {a a' : Anchors} (ha : A.Held w a a') {us vs : List Value}
    (hvs : w.values us vs) : A.Held w (a.hold us) (a'.hold vs) where
  frames := ha.frames
  known v hv := (List.mem_append.1 hv).elim (Naming.values_known hvs v) (ha.known v)
  named v hv := by
    refine List.mem_append.2 ((List.mem_append.1 hv).imp (fun hv => ?_) (ha.named v))
    rw [Naming.values_eq hvs]
    exact List.mem_map_of_mem hv
  only u hu := by
    rcases List.mem_append.1 hu with hu | hu
    · rw [Naming.values_eq hvs] at hu
      obtain ⟨v, hv, rfl⟩ := List.mem_map.1 hu
      exact .inr ⟨v, List.mem_append_left _ hv, rfl⟩
    · exact (ha.only u hu).imp_right fun ⟨v, hv, heq⟩ => ⟨v, List.mem_append_right _ hv, heq⟩
  environments := ha.environments
  code x hx := (ha.code x hx).imp_left fun ⟨v, hv, hreach⟩ =>
    ⟨v, List.mem_append_right _ hv, hreach⟩

theorem Held.holds_iff {a a' : Anchors} (ha : A.Held w a a')
    (hapart : A.closure ∉ Set.range w.ren.object) (x : Thing) :
    a.Holds (w.ren.thing x) ↔ a'.Holds x := by
  refine or_congr ⟨?_, ?_⟩ ?_
  · rintro ⟨u, hu, hreach⟩
    rcases ha.only u hu with rfl | ⟨v, hv, rfl⟩
    · -- the closure reaches itself alone
      obtain ⟨id, hid, heq⟩ := hreach
      obtain rfl := List.mem_singleton.1 hid
      cases x with
      | object i => exact absurd ⟨i, Thing.object.inj heq⟩ hapart
      | frame f => cases heq
    · exact ⟨v, hv, w.ren.reaches_value.1 hreach⟩
  · rintro ⟨v, hv, hreach⟩
    exact ⟨_, ha.named v hv, w.ren.reaches_value.2 hreach⟩
  · have hframe : ∀ f, w.ren.thing x = .frame f ↔ x = .frame f := by
      intro f
      have heq : w.ren.thing (.frame f) = .frame f := congrArg Thing.frame (ha.frames f)
      exact ⟨fun hx => w.ren.thing_injective (hx.trans heq.symm), fun hx => hx ▸ heq⟩
    simp only [hframe]
    constructor
    · rintro ⟨e, he, f, hf, rfl⟩
      obtain ⟨e', he', hf'⟩ := (ha.environments f).1 ⟨e, he, hf⟩
      exact ⟨e', he', f, hf', rfl⟩
    · rintro ⟨e, he, f, hf, rfl⟩
      obtain ⟨e', he', hf'⟩ := (ha.environments f).2 ⟨e, he, hf⟩
      exact ⟨e', he', f, hf', rfl⟩

/-- **The same packages live.** -/
theorem Heaps.keeps_eq (hh : A.Heaps w host guest) {a a' : Anchors} (ha : A.Held w a a')
    (package : ObjectId) : host.keeps a (w.ren.object package) = guest.keeps a' package := by
  refine hh.follows.keeps_eq hh.orderly hh.known.orderly (fun u hu => ?_) ha.known hh.sameSymbols
    (ha.holds_iff hh.apart) (fun y hy x hrefers => ?_) package
  · rcases ha.only u hu with rfl | ⟨v, hv, rfl⟩
    · exact .closure
    · exact .name (ha.known v hv)
  · -- nothing but the closure is without a name and refers to anything
    have hobject : ∀ {id : ObjectId}, y = .object id → id ∉ Set.range w.ren.object :=
      fun heq ⟨i, hi⟩ => hy ⟨.object i, by rw [heq, ← hi]; rfl⟩
    generalize hz : w.ren.thing x = z at hrefers
    cases hrefers with
    | cell hc _ _ => exact absurd (hh.mem_range_of_cells hc) (hobject rfl)
    | symbol hs =>
        obtain ⟨p, hp⟩ : ∃ p, host.packages[_]? = some p :=
          ⟨_, Std.TreeMap.getElem?_eq_some_getElem (Heap.mem_of_findSymbol hs)⟩
        exact absurd (hh.mem_range_of_packages hp) (hobject rfl)
    | @code id c _ hc hx =>
        by_cases hne : id = A.closure
        · subst hne
          obtain rfl := Option.some.inj (hc.symm.trans hh.closures_closure)
          rw [← hh.code_eq, ← hz] at hx
          exact ha.code x (w.ren.refers_closure.1 hx)
        · rw [(hh.vacant (hobject rfl) hne).closures] at hc
          cases hc
    | @frame f _ _ _ _ => exact absurd ⟨.frame f, congrArg Thing.frame (hh.frames f)⟩ hy

theorem Heaps.packageOf? (hh : A.Heaps w host guest) {a a' : Anchors} (ha : A.Held w a a')
    (s : Symbol) :
    lisp.packageOf? host a (w.ren.symbol s) = (lisp.packageOf? guest a' s).map w.ren.value := by
  have hheld : A.Held w (a.hold lisp.held) (a'.hold lisp.held) := by
    refine ha.hold ?_
    have hnames : w.ren.values lisp.held = (w.ren.interpreter lisp).held := rfl
    have hvalues : w.values (w.ren.values lisp.held) lisp.held :=
      Naming.values_of_known w.world.2
    rwa [hnames, w.interpreter] at hvalues
  have hown : ((w.ren.symbol s).home == lisp.package) = (s.home == lisp.package) := by
    have hpackage := w.ren.object_beq s.home lisp.package
    rwa [object_package] at hpackage
  have hkeeps : host.keeps (a.hold lisp.held) (w.ren.symbol s).home =
      guest.keeps (a'.hold lisp.held) s.home := hh.keeps_eq hheld s.home
  have hpackages : host.packageValue? (w.ren.symbol s).home =
      (guest.packageValue? s.home).map w.ren.value := hh.follows.packages s.home
  rw [Interpreter.packageOf?, Interpreter.packageOf?, hown, hkeeps, hpackages]
  cases guest.packageValue? s.home with
  | none => rfl
  | some v => cases s.home == lisp.package || guest.keeps (a'.hold lisp.held) s.home <;> rfl

end SmallLisp.Ahead
